import AmlCommonlib.DeviceProperty.PropertyFile

/-! # What is written to the caller's buffer

Both paths test the length without the terminator: a value that is exactly as long as the buffer is
copied, without a terminator from the environment and with one behind the buffer from a file.
-/

namespace AmlCommonlib.DeviceProperty

/-- The caller's buffer behind the call. -/
def Outcome.buffer (o : Outcome) (old : Bytes) : Bytes := o.written ++ old.drop o.written.length

namespace Device

/-- The call writes into the buffer only, leaves a string in it if it succeeds, and else writes
nothing. -/
def Bounded (d : Device) (name : Option Bytes) (value : Bool) (length : ℤ) : Prop :=
  ∃ o, d.getProperty name value length = some o ∧ o.written.length ≤ length.toNat ∧
    (o.result = success → ∀ old : Bytes, old.length = length → 0 ∈ (o.buffer old).take length.toNat) ∧
    (o.result ≠ success → o.written = [])

/-- What is behind the name in a line is not exactly as long as the buffer unless there is something to
trim; and stepping over the name stays in the line. -/
def roomyLine (name : Bytes) (length : ℤ) (line : Bytes) : Bool :=
  (behindName name line).any fun rest => ¬(rest.length = length ∧ rest.rdropWhile isTrailing = rest)

/-- The value from the environment is not exactly as long as the buffer, and what is found in the file
is not either. -/
def roomy (d : Device) (name : Option Bytes) (value : Bool) (length : ℤ) : Bool :=
  match name, value with
  | some name, true =>
    if length ≤ 0 then true
    else
      match d.getenv name with
      | some env => env.length ≠ length
      | none => (d.endingLine name).all (roomyLine name length)
  | _, _ => true

variable {d : Device} {name : Option Bytes} {value : Bool} {length : ℤ}

/-- A call that writes nothing. -/
theorem bounded_error {result : ℤ} (error : result ≠ success)
    (done : d.getProperty name value length = some ⟨result, []⟩) : d.Bounded name value length :=
  ⟨_, done, by simp, fun same => absurd same error, fun _ => rfl⟩

/-- A string that is terminated. -/
theorem bounded_of_terminated {written : Bytes} (terminated : 0 ∈ written)
    (done : d.getProperty name value length = some ⟨success, written⟩) :
    d.Bounded name value length ↔ written.length ≤ length.toNat := by
  constructor
  · rintro ⟨o, same, within, -⟩
    rw [done] at same
    cases same
    exact within
  · intro within
    refine ⟨_, done, within, fun _ old _ => ?_, fun error => absurd rfl error⟩
    rw [Outcome.buffer, List.take_append, List.take_of_length_le within]
    exact List.mem_append_left _ terminated

/-- Bytes that fill the buffer. -/
theorem bounded_of_full {written : Bytes} (full : written.length = length)
    (done : d.getProperty name value length = some ⟨success, written⟩) :
    d.Bounded name value length ↔ 0 ∈ written := by
  have same : length.toNat = written.length := by omega
  constructor
  · rintro ⟨o, same', -, holds, -⟩
    rw [done] at same'
    cases same'
    have string := holds rfl (List.replicate written.length 1) (by simpa using full)
    rw [same, Outcome.buffer, List.take_append, List.take_length, Nat.sub_self, List.take_zero,
      List.append_nil] at string
    exact string
  · intro terminated
    exact (bounded_of_terminated terminated done).mpr same.ge

theorem zero_mem_strncpy {s : Bytes} (plain : IsCString s) (n : ℕ) :
    0 ∈ strncpy s n ↔ s.length < n := by
  have absent : 0 ∉ s.take n := plain.take n
  simp [strncpy, absent]
  omega

theorem length_strncpy {s : Bytes} {n : ℕ} (fits : s.length ≤ n) : (strncpy s n).length = n := by
  simp [strncpy]
  omega

/-- The search in the file. -/
theorem bounded_file {valuename : Bytes}
    (get : d.getProperty name value length = d.parsePropertyFile d.propertyFile valuename length) :
    d.Bounded name value length ↔ (d.endingLine valuename).all (roomyLine valuename length) := by
  rw [parsePropertyFile_eq] at get
  cases ending : d.endingLine valuename with
  | none =>
    simp only [ending] at get
    refine iff_of_true (bounded_error ?_ get) rfl
    split_ifs <;> decide
  | some line =>
    simp only [ending] at get
    simp only [Option.all_some, roomyLine]
    cases behind : behindName valuename line with
    | none =>
      simp only [behind] at get
      refine iff_of_false ?_ (by simp)
      rintro ⟨o, same, -⟩
      rw [get] at same
      cases same
    | some rest =>
      simp only [behind] at get
      simp only [Option.any_some, decide_eq_true_eq]
      by_cases long : length < rest.length
      · rw [if_pos long] at get
        exact iff_of_true (bounded_error (by decide) get) (by omega)
      · rw [if_neg long] at get
        rw [bounded_of_terminated (by simp) get]
        have trimmed := List.rdropWhile_prefix isTrailing (l := rest)
        have shorter := trimmed.length_le
        have equal : rest.rdropWhile isTrailing = rest ↔
            rest.length ≤ (rest.rdropWhile isTrailing).length :=
          ⟨fun same => by rw [same], fun le => trimmed.eq_of_length_le le⟩
        rw [equal, List.length_append, List.length_singleton]
        omega

/-- For every environment, file, name and length. -/
theorem bounded_iff_roomy (d : Device) (name : Option Bytes) (value : Bool) (length : ℤ) :
    d.Bounded name value length ↔ d.roomy name value length := by
  match name, value with
  | none, _ => exact iff_of_true (bounded_error (by decide) rfl) rfl
  | some _, false => exact iff_of_true (bounded_error (by decide) rfl) rfl
  | some name, true =>
    by_cases positive : length ≤ 0
    · exact iff_of_true (bounded_error (by decide) (if_pos positive)) (by simp [roomy, positive])
    have get : d.getProperty (some name) true length =
        match d.getenv name with
        | some env =>
          if length < env.length then some ⟨outputNotEnough, []⟩
          else some ⟨success, strncpy env length.toNat⟩
        | none => d.parsePropertyFile d.propertyFile name length := if_neg positive
    simp only [roomy, if_neg positive]
    cases environment : d.getenv name with
    | some env =>
      simp only [environment] at get
      simp only [decide_eq_true_eq]
      split_ifs at get with long
      · exact iff_of_true (bounded_error (by decide) get) (by omega)
      · have fits : env.length ≤ length.toNat := by omega
        rw [bounded_of_full (by rw [length_strncpy fits]; omega) get,
          zero_mem_strncpy (d.isCString_getenv name env environment)]
        omega
    | none =>
      simp only [environment] at get
      exact bounded_file get

/-- `K=abc` without a line end, for a buffer of three bytes. -/
theorem not_bounded_exact : ¬∀ d name value length, Device.Bounded d name value length := by
  intro bounded
  obtain ⟨o, same, within, -⟩ :=
    bounded (single [75, 61, 97, 98, 99]) (some [75]) true 3
  have done : (single [75, 61, 97, 98, 99]).getProperty (some [75]) true 3 =
      some ⟨success, [97, 98, 99, 0]⟩ := by decide
  rw [done] at same
  cases same
  exact absurd within (by decide)

end Device

end AmlCommonlib.DeviceProperty
