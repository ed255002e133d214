import AmlCommonlib.Lib.Fgets

/-! # Reading battery uevents

`battery_state_read` receives a datagram of texts, each with its terminator, and `battery_state_change`
goes over them. The buffer has room for the datagram but not always for a terminator behind it.
-/

namespace AmlCommonlib.Utils

/-- `UEVENT_BUFFER_SIZE`. -/
def ueventBufferSize : ℕ := 2048

/-- The loop of `battery_state_change`, from a place in the buffer on: what `battery_state_analysis` is
called with. `none` is a string without a terminator in the buffer. -/
def batteryStateChange (buf : Bytes) (place : ℕ) (size : ℤ) : Option (List Bytes) :=
  if 0 < size then
    match cstring? (buf.drop place) with
    | none => none
    | some text =>
      let len := text.length + 1
      (batteryStateChange buf (place + len) (size - len)).map (text :: ·)
  else some []
termination_by size.toNat

/-- `battery_state_read`, for a datagram that `recv` has put into the buffer. `none` is an access behind
the buffer: by `strstr`, by `buf[len] = 0` or in the loop. -/
def batteryStateRead (deviceName datagram : Bytes) : Option (List Bytes) :=
  let buf := datagram ++ List.replicate (ueventBufferSize - datagram.length) 0
  let len := datagram.length
  if 0 < len then
    match cstring? buf with
    | none => none
    | some text =>
      if (strstr text deviceName).isSome then
        if len < ueventBufferSize then batteryStateChange (buf.set len 0) 0 len else none
      else some []
  else some []

/-! ### What is to hold -/

/-- The datagram with the terminator of its last record. -/
def terminated (datagram : Bytes) : Bytes :=
  if datagram.getLast?.all (· = 0) then datagram else datagram ++ [0]

/-- The records are strings, and make up the datagram with a terminator behind each. -/
def IsRecords (datagram : Bytes) (records : List Bytes) : Prop :=
  (∀ record ∈ records, IsCString record) ∧ records.flatMap (· ++ [0]) = terminated datagram

/-- The device is named in the first record. -/
def Concerns (deviceName datagram : Bytes) : Prop := deviceName <:+: datagram.takeWhile (· != 0)

instance (deviceName datagram : Bytes) : Decidable (Concerns deviceName datagram) :=
  inferInstanceAs (Decidable (_ <:+: _))

/-- Nothing behind the buffer is accessed, and every record of a datagram for the device is analysed
once, in order. -/
def Parses (deviceName datagram : Bytes) : Prop :=
  ∃ records, batteryStateRead deviceName datagram = some records ∧
    (Concerns deviceName datagram → IsRecords datagram records) ∧
    (¬Concerns deviceName datagram → records = [])

/-! ### The loop -/

theorem IsRecords.cons {text rest : Bytes} {records : List Bytes} (plain : IsCString text)
    (later : IsRecords rest records) : IsRecords (text ++ 0 :: rest) (text :: records) := by
  refine ⟨?_, ?_⟩
  · simpa using ⟨plain, later.1⟩
  · rw [List.flatMap_cons, later.2, terminated, terminated]
    cases last : rest.getLast? with
    | none => simp [List.getLast?_eq_none_iff.mp last]
    | some b => by_cases zero : b = 0 <;> simp [List.getLast?_append, List.getLast?_cons, last, zero]

/-- The last record, without its terminator. -/
theorem isRecords_singleton {text : Bytes} (plain : IsCString text) (nonempty : text ≠ []) :
    IsRecords text [text] := by
  refine ⟨by simpa using plain, ?_⟩
  have last : text.getLast? = some (text.getLast nonempty) := List.getLast?_eq_some_getLast nonempty
  have nonzero : text.getLast nonempty ≠ 0 := fun zero => plain (zero ▸ List.getLast_mem nonempty)
  simp [terminated, last, nonzero]

/-- With a terminator behind the datagram the loop ends, at its records. -/
theorem batteryStateChange_spec {buf datagram rest : Bytes} {place : ℕ}
    (here : buf.drop place = datagram ++ 0 :: rest) :
    ∃ records, batteryStateChange buf place datagram.length = some records ∧
      IsRecords datagram records := by
  induction length : datagram.length using Nat.strong_induction_on generalizing datagram place with
  | _ n ih =>
    subst length
    rw [batteryStateChange]
    by_cases nonempty : datagram = []
    · subst nonempty
      exact ⟨[], rfl, by simp, rfl⟩
    have positive := List.length_pos_iff.mpr nonempty
    rw [if_pos (by omega), here]
    by_cases plain : IsCString datagram
    · -- The terminator of the last record is the one behind the datagram.
      rw [cstring?_terminated plain]
      refine ⟨[datagram], ?_, isRecords_singleton plain nonempty⟩
      simp only
      rw [batteryStateChange, if_neg (by omega)]
      rfl
    · obtain ⟨text, later, rfl, first⟩ := List.eq_append_cons_of_mem (Decidable.not_not.mp plain)
      have behind : buf.drop (place + (text.length + 1)) = later ++ 0 :: rest := by
        rw [← List.drop_drop, here]
        simp
      have shorter : later.length < (text ++ 0 :: later).length := by
        simp only [List.length_append, List.length_cons]
        omega
      obtain ⟨records, done, isRecords⟩ := ih later.length shorter behind rfl
      have size : ((text ++ 0 :: later).length : ℤ) - (text.length + 1 : ℕ) = later.length := by
        simp only [List.length_append, List.length_cons]
        omega
      rw [List.append_assoc, List.cons_append, cstring?_terminated first]
      simp only
      rw [size, done]
      exact ⟨text :: records, rfl, isRecords.cons first⟩

/-! ### The datagram -/

/-- A terminator behind the first text is in the datagram or follows it. -/
theorem cstring?_datagram {datagram : Bytes} {n : ℕ} (room : 0 ∈ datagram ∨ 0 < n) :
    cstring? (datagram ++ List.replicate n 0) = some (datagram.takeWhile (· != 0)) := by
  by_cases plain : IsCString datagram
  · obtain ⟨m, rfl⟩ : ∃ m, n = m + 1 := Nat.exists_eq_succ_of_ne_zero (by
      have := room.resolve_left plain
      omega)
    rw [List.replicate_succ, cstring?_terminated plain, takeWhile_plain plain]
  · obtain ⟨text, later, rfl, first⟩ := List.eq_append_cons_of_mem (Decidable.not_not.mp plain)
    rw [List.append_assoc, List.cons_append, cstring?_terminated first, takeWhile_terminated first]

theorem batteryStateRead_short (deviceName : Bytes) {datagram : Bytes} (nonempty : 0 < datagram.length)
    (short : datagram.length < ueventBufferSize) :
    batteryStateRead deviceName datagram =
      if (strstr (datagram.takeWhile (· != 0)) deviceName).isSome then
        batteryStateChange (datagram ++ List.replicate (ueventBufferSize - datagram.length) 0) 0
          datagram.length
      else some [] := by
  have stays :
      (datagram ++ List.replicate (ueventBufferSize - datagram.length) 0).set datagram.length 0 =
        datagram ++ List.replicate (ueventBufferSize - datagram.length) 0 := by
    rw [List.set_append_right _ _ (Nat.le_refl _), Nat.sub_self]
    obtain ⟨m, room⟩ : ∃ m, ueventBufferSize - datagram.length = m + 1 :=
      Nat.exists_eq_succ_of_ne_zero (by omega)
    rw [room]
    rfl
  simp only [batteryStateRead, if_pos nonempty, cstring?_datagram (.inr (Nat.sub_pos_of_lt short)),
    if_pos short, stays]

theorem batteryStateRead_full (deviceName : Bytes) {datagram : Bytes}
    (full : datagram.length = ueventBufferSize) :
    batteryStateRead deviceName datagram =
      if 0 ∈ datagram ∧ ¬Concerns deviceName datagram then some [] else none := by
  have nonempty : 0 < datagram.length := full ▸ (by decide)
  have found : (strstr (datagram.takeWhile (· != 0)) deviceName).isSome ↔
      Concerns deviceName datagram := strstr_isSome_iff
  have buffer : datagram ++ List.replicate (ueventBufferSize - datagram.length) 0 = datagram := by
    rw [full, Nat.sub_self, List.replicate_zero, List.append_nil]
  by_cases ends : 0 ∈ datagram
  · have text : cstring? datagram = some (datagram.takeWhile (· != 0)) := by
      have read := cstring?_datagram (n := 0) (.inl ends)
      rwa [List.replicate_zero, List.append_nil] at read
    simp only [batteryStateRead, nonempty, buffer, text, found, ends, true_and, if_true]
    by_cases concerns : Concerns deviceName datagram
    · simp [concerns, full]
    · simp [concerns]
  · simp only [batteryStateRead, nonempty, buffer, cstring?, ends, false_and, if_true, if_false]

/-- For every datagram that `recv` can put into the buffer: it is parsed within the buffer exactly if it
leaves room for a terminator, or if it has one and is not for the device. -/
theorem parses_iff {deviceName datagram : Bytes} (nonempty : 1 ≤ datagram.length)
    (received : datagram.length ≤ ueventBufferSize) :
    Parses deviceName datagram ↔
      datagram.length < ueventBufferSize ∨ 0 ∈ datagram ∧ ¬Concerns deviceName datagram := by
  by_cases short : datagram.length < ueventBufferSize
  · refine iff_of_true ?_ (.inl short)
    have found : (strstr (datagram.takeWhile (· != 0)) deviceName).isSome ↔
        Concerns deviceName datagram := strstr_isSome_iff
    have read := batteryStateRead_short deviceName nonempty short
    obtain ⟨m, room⟩ : ∃ m, ueventBufferSize - datagram.length = m + 1 :=
      Nat.exists_eq_succ_of_ne_zero (by omega)
    have here : (datagram ++ List.replicate (ueventBufferSize - datagram.length) 0).drop 0 =
        datagram ++ 0 :: List.replicate m 0 := by rw [List.drop_zero, room, List.replicate_succ]
    obtain ⟨records, done, isRecords⟩ := batteryStateChange_spec here
    rw [done] at read
    by_cases concerns : Concerns deviceName datagram
    · rw [if_pos (found.mpr concerns)] at read
      exact ⟨records, read, fun _ => isRecords, fun other => absurd concerns other⟩
    · rw [if_neg fun here => concerns (found.mp here)] at read
      exact ⟨[], read, fun here => absurd here concerns, fun _ => rfl⟩
  · have read := batteryStateRead_full deviceName (show datagram.length = _ by omega)
    simp only [short, false_or]
    constructor
    · rintro ⟨records, same, -⟩
      rw [read] at same
      exact (Option.ite_none_right_eq_some.mp same).1
    · intro other
      rw [if_pos other] at read
      exact ⟨[], read, fun concerns => absurd concerns other.2, fun _ => rfl⟩

/-- A header that names the device, and a record without its terminator. -/
theorem parses_iff_header : Parses [98, 97, 116] [98, 97, 116, 0, 83, 61, 49] ↔
    [98, 97, 116, 0, 83, 61, 49].length < ueventBufferSize ∨
      (0 : UInt8) ∈ [98, 97, 116, 0, 83, 61, 49] ∧ ¬Concerns [98, 97, 116] [98, 97, 116, 0, 83, 61, 49] :=
  parses_iff (by decide) (by decide)

/-- A datagram for the device that fills the buffer. -/
theorem not_parses_full : ¬∀ deviceName datagram : Bytes, 1 ≤ datagram.length →
    datagram.length ≤ ueventBufferSize → Parses deviceName datagram := by
  intro parses
  have length : ([98, 97, 116] ++ List.replicate 2045 (0 : UInt8)).length = ueventBufferSize := by
    rw [List.length_append, List.length_replicate]
    rfl
  obtain ⟨records, read, -⟩ := parses [98, 97, 116] ([98, 97, 116] ++ List.replicate 2045 0)
    (by rw [length]; decide) (by rw [length])
  rw [batteryStateRead_full _ length, if_neg] at read
  · cases read
  · rintro ⟨-, other⟩
    apply other
    rw [Concerns, takeWhile_append_plain (by decide)]
    exact (List.prefix_append ..).isInfix

end AmlCommonlib.Utils
