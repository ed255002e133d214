import AmlCommonlib.SocketIpc.Codec

/-! # Decoding arbitrary datagrams

`_ipc_upack_pointer` reads the four length bytes without asking whether they were received, and
rejects a length only if it is negative and too long at the same time, which is never the case. The
decoder therefore stays inside the received bytes exactly for messages that are well framed for the
format: what it does not check, the sender has to.
-/

namespace AmlCommonlib.SocketIpc

/-- What may be done with a buffer of which `n` bytes have been received. -/
def Event.Inside (mem : ℕ → UInt8) (n : ℕ) : Event → Prop
  | .read offset => offset < n
  | .advance offset => offset ≤ n
  | .handOut type start len => 0 ≤ len ∧ start + len ≤ n ∧
      (type = .str → ∃ j : ℕ, j < len ∧ mem (start + j) = 0)

def Upacked.Safe (mem : ℕ → UInt8) (n : ℕ) (result : Upacked) : Prop :=
  ∀ e ∈ result.events, e.Inside mem n

/-- The argument format of `_call`: client id, call id, name. -/
def callArgfmt : List ℤ := [TypeId.i32.code, TypeId.i32.code, TypeId.str.code]

/-- The two decodes of an incoming call: the header by `ipc_socket_handle`, and the rest by the
handler it finds, with the handler's format. -/
def ipcSocketHandle (mem : ℕ → UInt8) (len : ℕ) (argfmt : List ℤ) : Upacked :=
  let header := ipcUpackVa mem callArgfmt 0 len
  if header.ret ≤ 0 then header
  else
    let args := ipcUpackVa mem argfmt header.ret.toNat (len - header.ret)
    ⟨header.ret + args.ret, header.writes ++ args.writes, header.events ++ args.events⟩

/-- The message is framed as the format wants it, and `next` holds where the reading stops: at the
end of the format, at a customer type, or at a number that has not been received in full. -/
def Framed (mem : ℕ → UInt8) (n : ℕ) (next : ℕ → Prop) : List ℤ → ℕ → Prop
  | [], pos => next pos
  | ch :: fmt, pos =>
    match buildinType ch with
    | none => next pos
    | some type =>
      if type = .str ∨ type = .ptr then
        pos + 4 ≤ n ∧ 0 ≤ itemLength mem pos ∧ pos + 4 + (itemLength mem pos).toNat ≤ n ∧
          (type = .str → itemLength mem pos ≠ 0 →
            ∃ j < (itemLength mem pos).toNat, mem (pos + 4 + j) = 0) ∧
          Framed mem n next fmt (pos + 4 + (itemLength mem pos).toNat)
      else if pos + type.len ≤ n then Framed mem n next fmt (pos + type.len)
      else next pos

theorem reads_inside {mem : ℕ → UInt8} {n pos count : ℕ} (some' : 0 < count) :
    (∀ e ∈ reads pos count, e.Inside mem n) ↔ pos + count ≤ n := by
  simp only [reads, List.mem_map, List.mem_range, forall_exists_index, and_imp,
    forall_apply_eq_imp_iff₂, Event.Inside]
  constructor
  · intro inside
    have last := inside (count - 1) (by omega)
    omega
  · intro bound i small
    omega

theorem TypeId.len_pos (type : TypeId) : 0 < type.len := by
  cases type <;> decide

theorem ipcUpackPointer_events (type : TypeId) (mem : ℕ → UInt8) (pos : ℕ) (len : ℤ) :
    (ipcUpackPointer type mem pos len).events = reads pos 4 ++
      if ¬(itemLength mem pos < 0 ∧ len < itemLength mem pos + 4) ∧ itemLength mem pos ≠ 0 then
        [.handOut type (pos + 4) (itemLength mem pos)] else [] := by
  unfold ipcUpackPointer
  by_cases rejected : itemLength mem pos < 0 ∧ len < itemLength mem pos + 4 <;> simp [rejected]

/-- What is left of a message behind an item that lies in it is never negative, so the counter does
not wrap. -/
theorem left_behind {n pos : ℕ} {k : ℤ} (small : n < 2 ^ 31) (started : 0 < k)
    (bound : pos + k.toNat ≤ n) : int32 ((n : ℤ) - pos - k) = n - (pos + k.toNat : ℕ) := by
  rw [int32_of_range (by omega) (by omega)]
  omega

/-- A safe decode ends inside the message; in particular its sum did not wrap around. -/
theorem Upacked.Safe.ret_range {mem : ℕ → UInt8} {n : ℕ} {fmt : List ℤ} {pos : ℕ}
    (small : n < 2 ^ 31) (inside : pos ≤ n)
    (safe : (ipcUpackVa mem fmt pos (n - pos)).Safe mem n) :
    0 ≤ (ipcUpackVa mem fmt pos (n - pos)).ret ∧
      pos + (ipcUpackVa mem fmt pos (n - pos)).ret ≤ n := by
  induction fmt generalizing pos with
  | nil => simpa [ipcUpackVa] using inside
  | cons ch fmt ih =>
    unfold ipcUpackVa at safe ⊢
    cases selected : buildinType ch with
    | none => simpa [selected] using inside
    | some type =>
      simp only [selected] at safe ⊢
      split_ifs at safe ⊢ with stop
      · simpa using inside
      · simp only [Upacked.Safe, List.forall_mem_append, List.forall_mem_cons] at safe
        obtain ⟨-, advanced, rest⟩ := safe
        simp only [Event.Inside] at advanced
        rw [left_behind small (by omega) advanced] at rest ⊢
        obtain ⟨nonneg, upper⟩ := ih advanced rest
        dsimp only
        rw [int32_of_range (by omega) (by omega)]
        omega

/-- A pointer item keeps inside exactly if its four length bytes were received and announce a block
that was. -/
theorem ipcUpackPointer_inside (type : TypeId) (mem : ℕ → UInt8) (n pos : ℕ) :
    (∀ e ∈ (ipcUpackPointer type mem pos (n - pos)).events, e.Inside mem n) ↔
      pos + 4 ≤ n ∧ 0 ≤ itemLength mem pos ∧ pos + 4 + (itemLength mem pos).toNat ≤ n ∧
        (type = .str → itemLength mem pos ≠ 0 →
          ∃ j < (itemLength mem pos).toNat, mem (pos + 4 + j) = 0) := by
  rw [ipcUpackPointer_events, List.forall_mem_append, reads_inside (by decide)]
  generalize itemLength mem pos = tlen
  split_ifs with handed
  · obtain ⟨accepted, nonzero⟩ := handed
    simp only [List.mem_singleton, forall_eq, Event.Inside]
    constructor
    · rintro ⟨header, positive, bound, text⟩
      refine ⟨header, positive, by omega, ?_⟩
      intro isStr _
      obtain ⟨j, small, terminator⟩ := text isStr
      exact ⟨j, by omega, terminator⟩
    · rintro ⟨header, positive, bound, text⟩
      refine ⟨header, positive, by omega, ?_⟩
      intro isStr
      obtain ⟨j, small, terminator⟩ := text isStr nonzero
      exact ⟨j, by omega, terminator⟩
  · constructor
    · rintro ⟨header, -⟩
      obtain rfl : tlen = 0 := by omega
      exact ⟨header, le_refl (0 : ℤ), by simpa using header, fun _ nonzero => absurd rfl nonzero⟩
    · rintro ⟨header, -⟩
      exact ⟨header, by simp⟩

theorem upackItem_pointer_inside {type : TypeId} (kind : type = .str ∨ type = .ptr)
    (mem : ℕ → UInt8) (n pos : ℕ) :
    (∀ e ∈ (upackItem type mem pos (n - pos)).events, e.Inside mem n) ↔
      pos + 4 ≤ n ∧ 0 ≤ itemLength mem pos ∧ pos + 4 + (itemLength mem pos).toNat ≤ n ∧
        (type = .str → itemLength mem pos ≠ 0 →
          ∃ j < (itemLength mem pos).toNat, mem (pos + 4 + j) = 0) := by
  rw [upackItem_pointer kind]
  exact ipcUpackPointer_inside type mem n pos

/-- An item that is not refused takes its header and the announced length. -/
theorem upackItem_pointer_ret_eq {type : TypeId} (kind : type = .str ∨ type = .ptr)
    {mem : ℕ → UInt8} {pos : ℕ} {len : ℤ} (positive : 0 < itemLength mem pos + 4)
    (small : itemLength mem pos + 4 < 2 ^ 31)
    (accepted : 4 ≤ itemLength mem pos + 4 ∨ itemLength mem pos + 4 ≤ len) :
    (upackItem type mem pos len).ret = itemLength mem pos + 4 := by
  have free : ¬(itemLength mem pos < 0 ∧ len < itemLength mem pos + 4) := by omega
  simp only [upackItem_pointer kind, ipcUpackPointer, free, if_false]
  exact int32_of_range (by omega) small

theorem upackItem_pointer_ret {type : TypeId} (kind : type = .str ∨ type = .ptr) {mem : ℕ → UInt8}
    {pos : ℕ} {len : ℤ} (positive : 0 ≤ itemLength mem pos)
    (small : itemLength mem pos + 4 < 2 ^ 31) :
    (upackItem type mem pos len).ret = (4 + (itemLength mem pos).toNat : ℕ) := by
  rw [upackItem_pointer_ret_eq kind (by omega) small (by omega)]
  omega

/-- An item that consumes `k` received bytes passes the question on to the rest of the format. -/
theorem safe_cons_iff {mem : ℕ → UInt8} {n pos k : ℕ} {next : ℕ → Prop} {ch : ℤ} {fmt : List ℤ}
    {type : TypeId} (small : n < 2 ^ 31) (selected : buildinType ch = some type)
    (ret : (upackItem type mem pos (n - pos)).ret = k) (some' : 0 < k) (bound : pos + k ≤ n) :
    (ipcUpackVa mem (ch :: fmt) pos (n - pos)).Safe mem n ∧
        next (pos + (ipcUpackVa mem (ch :: fmt) pos (n - pos)).ret.toNat) ↔
      (∀ e ∈ (upackItem type mem pos (n - pos)).events, e.Inside mem n) ∧
        (ipcUpackVa mem fmt (pos + k) (n - (pos + k : ℕ))).Safe mem n ∧
        next (pos + k + (ipcUpackVa mem fmt (pos + k) (n - (pos + k : ℕ))).ret.toNat) := by
  have go : ¬(k : ℤ) ≤ 0 := by omega
  have left := left_behind small (k := k) (by omega) bound
  simp only [ipcUpackVa, selected, ret, go, if_false, Int.toNat_natCast] at left ⊢
  rw [left]
  simp only [Upacked.Safe, List.forall_mem_append, List.forall_mem_cons, Event.Inside, bound,
    true_and, and_assoc]
  refine and_congr_right fun _ => and_congr_right fun rest => ?_
  obtain ⟨nonneg, upper⟩ := Upacked.Safe.ret_range small bound rest
  rw [int32_of_range (by omega) (by omega), Int.toNat_add (by omega) nonneg, Int.toNat_natCast,
    Nat.add_assoc]

/-- A safe decode is safe in its first item. -/
theorem Upacked.Safe.first {mem : ℕ → UInt8} {n pos : ℕ} {ch len : ℤ} {fmt : List ℤ} {type : TypeId}
    (safe : (ipcUpackVa mem (ch :: fmt) pos len).Safe mem n)
    (selected : buildinType ch = some type) :
    ∀ e ∈ (upackItem type mem pos len).events, e.Inside mem n := by
  intro e member
  apply safe e
  simp only [ipcUpackVa, selected]
  split_ifs
  · exact member
  · exact List.mem_append_left _ member

/-- The decoder keeps inside and `next` holds where it stops, if and only if the message is framed. -/
theorem safe_iff_framed (mem : ℕ → UInt8) {n : ℕ} (small : n < 2 ^ 31) (next : ℕ → Prop)
    (fmt : List ℤ) {pos : ℕ} (inside : pos ≤ n) :
    (ipcUpackVa mem fmt pos (n - pos)).Safe mem n ∧
        next (pos + (ipcUpackVa mem fmt pos (n - pos)).ret.toNat) ↔
      Framed mem n next fmt pos := by
  induction fmt generalizing pos with
  | nil => simp [ipcUpackVa, Upacked.Safe, Framed]
  | cons ch fmt ih =>
    cases selected : buildinType ch with
    | none => simp [ipcUpackVa, selected, Upacked.Safe, Framed]
    | some type =>
      simp only [Framed, selected]
      split_ifs with kind received
      · have framing := upackItem_pointer_inside kind mem n pos
        by_cases whole : ∀ e ∈ (upackItem type mem pos (n - pos)).events, e.Inside mem n
        · obtain ⟨header, positive, bound, text⟩ := framing.mp whole
          have ret : (upackItem type mem pos (n - pos)).ret = (4 + (itemLength mem pos).toNat : ℕ) :=
            upackItem_pointer_ret kind positive (by omega)
          rw [safe_cons_iff small selected ret (by omega) (by omega), ← Nat.add_assoc]
          rw [ih bound]
          exact ⟨fun ⟨_, rest⟩ => ⟨header, positive, bound, text, rest⟩,
            fun ⟨_, _, _, _, rest⟩ => ⟨whole, rest⟩⟩
        · have broken : ¬(ipcUpackVa mem (ch :: fmt) pos (n - pos)).Safe mem n :=
            fun safe => whole (safe.first selected)
          have unframed := mt framing.mpr whole
          constructor
          · exact fun both => absurd both.1 broken
          · rintro ⟨header, positive, bound, text, -⟩
            exact absurd ⟨header, positive, bound, text⟩ unframed
      · have room : ¬(n : ℤ) - pos < type.len := by omega
        have item : upackItem type mem pos (n - pos) = ⟨type.len,
            some (.number (window mem pos type.len).reverse), reads pos type.len⟩ := by
          rw [upackItem_number kind, ipcUpackNumber, if_neg room]
        rw [safe_cons_iff small selected (congrArg ItemResult.ret item) type.len_pos received, item,
          ih received, reads_inside type.len_pos]
        exact and_iff_right received
      · have room : (n : ℤ) - pos < type.len := by omega
        simp [ipcUpackVa, selected, upackItem_number kind, ipcUpackNumber, room, sipcErrParam,
          Upacked.Safe]

/-- The format frames the whole message. -/
def WellFramed (mem : ℕ → UInt8) (n : ℕ) (fmt : List ℤ) : Prop :=
  Framed mem n (fun _ => True) fmt 0

/-- The header is framed, and where any of it was received the handler's format frames what
follows. -/
def WellFramedCall (mem : ℕ → UInt8) (n : ℕ) (argfmt : List ℤ) : Prop :=
  Framed mem n (fun len1 => 0 < len1 → Framed mem n (fun _ => True) argfmt len1) callArgfmt 0

/-- For every memory, every received length an `int` can hold and every format: a decode, and the two
decodes of an incoming call, keep inside the received bytes if and only if these are well framed. -/
theorem decode_safe_iff (mem : ℕ → UInt8) (n : ℕ) (small : n < 2 ^ 31) (fmt : List ℤ) :
    ((ipcUpackVa mem fmt 0 n).Safe mem n ↔ WellFramed mem n fmt) ∧
      ((ipcSocketHandle mem n fmt).Safe mem n ↔ WellFramedCall mem n fmt) := by
  have single : ∀ next : ℕ → Prop, ∀ fmt, (ipcUpackVa mem fmt 0 n).Safe mem n ∧
      next (ipcUpackVa mem fmt 0 n).ret.toNat ↔ Framed mem n next fmt 0 := by
    intro next fmt
    simpa using safe_iff_framed mem small next fmt (Nat.zero_le n)
  constructor
  · rw [WellFramed, ← single, and_iff_left trivial]
  · rw [WellFramedCall, ← single, ipcSocketHandle]
    set header := ipcUpackVa mem callArgfmt 0 n
    dsimp only
    split_ifs with nothing
    · have stop : ¬0 < header.ret.toNat := by omega
      simp [stop]
    · have started : 0 < header.ret.toNat := by omega
      simp only [Upacked.Safe, List.forall_mem_append, started, true_imp_iff]
      apply and_congr_right
      intro safe
      have inside : header.ret.toNat ≤ n := by
        have range := @Upacked.Safe.ret_range mem n callArgfmt 0 small (Nat.zero_le n)
        simp only [Nat.cast_zero, Int.sub_zero, Int.zero_add] at range
        have upper : header.ret ≤ n := (range safe).2
        omega
      have rest := safe_iff_framed mem small (fun _ => True) fmt inside
      rw [and_true, Int.toNat_of_nonneg (by omega)] at rest
      exact rest

/-- A call of "a" with the number 9. -/
theorem decode_safe_iff_call :
    (ipcSocketHandle ([0, 0, 0, 1, 0, 0, 0, 7, 0, 0, 0, 2, 97, 0, 0, 0, 0, 9].getD · 0) 18
      [TypeId.i32.code]).Safe ([0, 0, 0, 1, 0, 0, 0, 7, 0, 0, 0, 2, 97, 0, 0, 0, 0, 9].getD · 0) 18 := by
  apply (decode_safe_iff _ 18 (by decide) _).2.mpr
  have name : itemLength ([0, 0, 0, 1, 0, 0, 0, 7, 0, 0, 0, 2, 97, 0, 0, 0, 0, 9].getD · 0) 8 = 2 := by
    decide
  have terminated : ∃ j < 2, [0, 0, 0, 1, 0, 0, 0, 7, 0, 0, 0, 2, 97, 0, 0, 0, 0, 9].getD (12 + j) 0 =
      (0 : UInt8) := ⟨1, by decide, rfl⟩
  simpa [WellFramedCall, callArgfmt, Framed, TypeId.len, name, -List.getD_eq_getElem?_getD]
    using terminated

/-- Four length bytes announce five more, which have not been received. -/
theorem short_string_not_safe :
    ¬(ipcUpackVa ([0, 0, 0, 5].getD · 0) [TypeId.str.code] 0 4).Safe ([0, 0, 0, 5].getD · 0) 4 := by
  intro safe
  obtain ⟨-, beyond, -⟩ := safe (.handOut .str 4 5) (by decide)
  exact absurd beyond (by decide)

end AmlCommonlib.SocketIpc
