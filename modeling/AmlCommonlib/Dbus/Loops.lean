import AmlCommonlib.Dbus.DataType

/-! # The loops of `unpack` end by themselves

No call puts a node back into a message, and a call that reports an item took one. So the size of
the message is never what stops a loop: it runs as its source does, until `unpack` or
`enter_container` says so.
-/

namespace AmlCommonlib.Dbus

/-- The part of a message that is left is not bigger, and smaller after a success. -/
def Shrinks (ret : ℤ) (before after : Reader) : Prop :=
  after.size ≤ before.size ∧ (0 < ret → after.size < before.size)

theorem Shrinks.of_ret_le {ret : ℤ} {m : Reader} (le : ret ≤ 0) : Shrinks ret m m :=
  ⟨le_refl _, fun positive => absurd positive (not_lt.mpr le)⟩

theorem take_shrinks {α : Type} (select : Node → Option α) (m : Reader) :
    Shrinks (take select m).1 m (take select m).2.2 := by
  rcases take_cases select m with ⟨inArray, node, rest, below, x, rfl, -, taken⟩ | ⟨r, le, stay⟩
  · have positive := node.count_pos
    rw [taken]
    simp only [Shrinks, Reader.size_cons, countAll_cons]
    omega
  · rw [stay]
    exact .of_ret_le le

theorem enterContainer_shrinks (sig : Sig) (m : Reader) :
    Shrinks (enterContainer sig m).1 m (enterContainer sig m).2 := by
  rcases enterContainer_cases sig m with ⟨inArray, items, rest, below, rfl, -, done⟩ | ⟨r, le, stay⟩
  · rw [done]
    simp only [Shrinks, Reader.size_cons, countAll_cons, Node.count]
    omega
  · rw [stay]
    exact .of_ret_le le

theorem exitContainer_size_le (m : Reader) : (exitContainer m).2.size ≤ m.size := by
  rcases exitContainer_cases m with ⟨inArray, outer, below, rfl, done⟩ | ⟨r, -, stay⟩
  · rw [done]
    simp
  · rw [stay]

theorem unpackEach_size_le {α : Type} {unpack : Reader → α → Unpacked α}
    (shrinks : ∀ m x, Shrinks (unpack m x).ret m (unpack m x).msg) {fuel : ℕ} {m : Reader} {item : α}
    {val : List α} : (unpackEach unpack fuel m item val).2.size ≤ m.size := by
  induction fuel generalizing m item val with
  | zero => exact le_refl _
  | succ fuel ih =>
    simp only [unpackEach]
    split_ifs
    · exact ih.trans (shrinks m item).1
    · exact (shrinks m item).1

/-- Any bound above the size of the message gives the same loop. -/
theorem unpackEach_fuel {α : Type} {unpack : Reader → α → Unpacked α}
    (shrinks : ∀ m x, Shrinks (unpack m x).ret m (unpack m x).msg) {fuel fuel' : ℕ} {m : Reader}
    {item : α} {val : List α} (enough : m.size < fuel) (enough' : m.size < fuel') :
    unpackEach unpack fuel m item val = unpackEach unpack fuel' m item val := by
  induction fuel generalizing fuel' m item val with
  | zero => exact absurd enough (Nat.not_lt_zero _)
  | succ fuel ih =>
    obtain ⟨fuel', rfl⟩ := Nat.exists_eq_succ_of_ne_zero (Nat.ne_of_gt (Nat.zero_lt_of_lt enough'))
    simp only [unpackEach]
    split_ifs with read
    · have smaller := (shrinks m item).2 read
      exact ih (by omega) (by omega)
    · rfl

/-- One turn of the loop over a sequence, as the source has it. -/
theorem unpackEach_eq {α : Type} {unpack : Reader → α → Unpacked α}
    (shrinks : ∀ m x, Shrinks (unpack m x).ret m (unpack m x).msg) (m : Reader) (item : α)
    (val : List α) :
    unpackEach unpack (m.size + 1) m item val =
      let u := unpack m item
      if 0 < u.ret then unpackEach unpack (u.msg.size + 1) u.msg u.val (val ++ [u.val])
      else (val, u.msg) := by
  rw [unpackEach]
  by_cases read : 0 < (unpack m item).ret
  · simp only [read, if_true]
    exact unpackEach_fuel shrinks ((shrinks m item).2 read) (Nat.lt_succ_self _)
  · simp only [read, if_false]

section Entries

variable {K V : Type} [DecidableEq K] {sig : Sig} {newKey : K} {newValue : V}
  {unpackKey : Reader → K → Unpacked K} {unpackValue : Reader → V → Unpacked V}

/-- The loop over a map ends where no entry was entered. -/
theorem unpackEntries_ret_le {fuel : ℕ} {m : Reader} {val : Entries K V} :
    (unpackEntries sig newKey newValue unpackKey unpackValue fuel m val).ret ≤ 0 := by
  induction fuel generalizing m val with
  | zero => exact le_refl 0
  | succ fuel ih =>
    simp only [unpackEntries]
    split_ifs with entered read
    · exact ih
    · exact ih
    · exact not_lt.mp entered

theorem unpackEntries_size_le (keys : ∀ m k, Shrinks (unpackKey m k).ret m (unpackKey m k).msg)
    (values : ∀ m v, Shrinks (unpackValue m v).ret m (unpackValue m v).msg) {fuel : ℕ} {m : Reader}
    {val : Entries K V} :
    (unpackEntries sig newKey newValue unpackKey unpackValue fuel m val).msg.size ≤ m.size := by
  induction fuel generalizing m val with
  | zero => exact le_refl _
  | succ fuel ih =>
    have entered := (enterContainer_shrinks sig m).1
    have key := (keys (enterContainer sig m).2 newKey).1
    simp only [unpackEntries]
    split_ifs
    · exact ih.trans ((exitContainer_size_le _).trans ((values _ _).1.trans (key.trans entered)))
    · exact ih.trans ((exitContainer_size_le _).trans (key.trans entered))
    · exact entered

omit [DecidableEq K] in
/-- A turn of the loop that entered an entry leaves less of the message. -/
theorem turn_lt (newKey : K) (keys : ∀ m k, Shrinks (unpackKey m k).ret m (unpackKey m k).msg)
    (values : ∀ m v, Shrinks (unpackValue m v).ret m (unpackValue m v).msg) {m : Reader}
    (taken : 0 < (enterContainer sig m).1) :
    (exitContainer (unpackKey (enterContainer sig m).2 newKey).msg).2.size < m.size ∧
    ∀ v, (exitContainer (unpackValue (unpackKey (enterContainer sig m).2 newKey).msg v).msg).2.size <
      m.size := by
  have entered := (enterContainer_shrinks sig m).2 taken
  have key := (keys (enterContainer sig m).2 newKey).1
  refine ⟨(exitContainer_size_le _).trans_lt (key.trans_lt entered), ?_⟩
  intro v
  exact (exitContainer_size_le _).trans_lt ((values _ v).1.trans_lt (key.trans_lt entered))

theorem unpackEntries_fuel (keys : ∀ m k, Shrinks (unpackKey m k).ret m (unpackKey m k).msg)
    (values : ∀ m v, Shrinks (unpackValue m v).ret m (unpackValue m v).msg) {fuel fuel' : ℕ}
    {m : Reader} {val : Entries K V} (enough : m.size < fuel) (enough' : m.size < fuel') :
    unpackEntries sig newKey newValue unpackKey unpackValue fuel m val =
      unpackEntries sig newKey newValue unpackKey unpackValue fuel' m val := by
  induction fuel generalizing fuel' m val with
  | zero => exact absurd enough (Nat.not_lt_zero _)
  | succ fuel ih =>
    obtain ⟨fuel', rfl⟩ := Nat.exists_eq_succ_of_ne_zero (Nat.ne_of_gt (Nat.zero_lt_of_lt enough'))
    simp only [unpackEntries]
    split_ifs with taken read
    · have smaller := (turn_lt newKey keys values taken).2
        (val.at newValue (unpackKey (enterContainer sig m).2 newKey).val)
      exact ih (by omega) (by omega)
    · have smaller := (turn_lt newKey keys values taken).1
      exact ih (by omega) (by omega)
    · rfl

/-- One turn of the loop over a map, as the source has it. -/
theorem unpackEntries_eq (keys : ∀ m k, Shrinks (unpackKey m k).ret m (unpackKey m k).msg)
    (values : ∀ m v, Shrinks (unpackValue m v).ret m (unpackValue m v).msg) (m : Reader)
    (val : Entries K V) :
    unpackEntries sig newKey newValue unpackKey unpackValue (m.size + 1) m val =
      let entered := enterContainer sig m
      let k := unpackKey entered.2 newKey
      let u := unpackValue k.msg (val.at newValue k.val)
      let turn := if 0 < k.ret then (u.msg, val.assign k.val u.val) else (k.msg, val)
      let left := (exitContainer turn.1).2
      if 0 < entered.1 then
        unpackEntries sig newKey newValue unpackKey unpackValue (left.size + 1) left turn.2
      else ⟨entered.1, val, entered.2⟩ := by
  rw [unpackEntries]
  by_cases taken : 0 < (enterContainer sig m).1
  · by_cases read : 0 < (unpackKey (enterContainer sig m).2 newKey).ret
    · simp only [taken, read, if_true]
      exact unpackEntries_fuel keys values ((turn_lt newKey keys values taken).2 _) (Nat.lt_succ_self _)
    · simp only [taken, read, if_true, if_false]
      exact unpackEntries_fuel keys values (turn_lt newKey keys values taken).1 (Nat.lt_succ_self _)
  · simp only [taken, if_false]

end Entries

mutual

/-- `unpack` of any type, from any message. -/
theorem Ty.unpack_shrinks : (t : Ty) → (m : Reader) → (val : t.Val) →
    Shrinks (t.unpack m val).ret m (t.unpack m val).msg
  | .simple s, m, _ => take_shrinks _ m
  | .string, m, _ => take_shrinks _ m
  | .seq elem, m, val => by
    simp only [Ty.unpack]
    refine ⟨?_, fun positive => absurd positive (lt_irrefl 0)⟩
    exact (exitContainer_size_le _).trans ((unpackEach_size_le elem.unpack_shrinks).trans
      (enterContainer_shrinks _ m).1)
  | .map key value, m, val => by
    simp only [Ty.unpack]
    refine ⟨?_, fun positive => absurd positive (not_lt.mpr unpackEntries_ret_le)⟩
    exact (exitContainer_size_le _).trans
      ((unpackEntries_size_le key.unpack_shrinks value.unpack_shrinks).trans
        (enterContainer_shrinks _ m).1)
  | .struct first rest, m, val => by
    have entered := (enterContainer_shrinks (.struct (.cons first.signature rest.signature)) m).1
    have head := first.unpack_shrinks
      (enterContainer (.struct (.cons first.signature rest.signature)) m).2 val.1
    simp only [Ty.unpack]
    split_ifs with enters read
    · have tail := rest.unpackall_shrinks (fun _ => true) (first.unpack
        (enterContainer (.struct (.cons first.signature rest.signature)) m).2 val.1).msg val.2
      have left := (exitContainer_size_le _).trans tail
      exact ⟨left.trans (head.1.trans entered),
        fun _ => left.trans_lt ((head.2 read).trans_le entered)⟩
    · exact ⟨(exitContainer_size_le _).trans (head.1.trans entered),
        fun positive => absurd positive read⟩
    · exact ⟨(exitContainer_size_le _).trans entered,
        fun positive => absurd positive.le enters⟩

theorem Tys.unpackall_shrinks : (ts : Tys) → (selected : ℕ → Bool) → (m : Reader) →
    (vals : ts.Val) → (ts.unpackall selected m vals).msg.size ≤ m.size
  | .nil, _, _, _ => le_refl _
  | .cons first rest, selected, m, vals => by
    simp only [Tys.unpackall]
    split_ifs with chosen read read
    · exact (rest.unpackall_shrinks _ _ _).trans (first.unpack_shrinks m vals.1).1
    · exact (first.unpack_shrinks m vals.1).1
    · exact rest.unpackall_shrinks _ _ _
    · exact le_refl _

end

end AmlCommonlib.Dbus
