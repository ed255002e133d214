import AmlCommonlib.Dbus.Loops

/-! # Shapes of types and what `unpack` can produce

`unpack` of a sequence or a map never returns a positive number, although that is what a sequence
loop and an argument list wait for after each item. `Flat` types are those that report success;
`Attainable` values are what the loops can leave in an object, whatever the message is.
-/

namespace AmlCommonlib.Dbus

mutual

/-- The types whose `unpack` returns 1 when it read a value. -/
def Ty.Flat : Ty → Prop
  | .simple _ | .string => True
  | .seq _ | .map _ _ => False
  | .struct first rest => first.Flat ∧ rest.Flat fun _ => true

def Tys.Flat : Tys → (ℕ → Bool) → Prop
  | .nil, _ => True
  | .cons first rest, selected =>
    (selected 0 → first.Flat) ∧ rest.Flat fun i => selected (i + 1)

end

/-- No argument of the list is selected. -/
def Tys.Vacant : Tys → (ℕ → Bool) → Prop
  | .nil, _ => True
  | .cons _ rest, selected => selected 0 = false ∧ rest.Vacant fun i => selected (i + 1)

/-- Two argument lists have the same selected arguments. -/
def Tys.Agree : (ts : Tys) → (ℕ → Bool) → ts.Val → ts.Val → Prop
  | .nil, _, _, _ => True
  | .cons _ rest, selected, vs, vs' =>
    (selected 0 → vs.1 = vs'.1) ∧ rest.Agree (fun i => selected (i + 1)) vs.2 vs'.2

def Tys.decAgree : (ts : Tys) → (selected : ℕ → Bool) → (v v' : ts.Val) →
    Decidable (ts.Agree selected v v')
  | .nil, _, _, _ => inferInstanceAs (Decidable True)
  | .cons _ rest, selected, v, v' =>
    have := rest.decAgree (fun i => selected (i + 1)) v.2 v'.2
    inferInstanceAs (Decidable ((selected 0 → v.1 = v'.1) ∧ _))

def Ty.IsBasic : Ty → Prop
  | .simple _ | .string => True
  | _ => False

mutual

/-- The types all of whose values come back: sequences have flat elements, map keys are basic, and
in a struct or an argument list only the last position is not flat. -/
def Ty.Restorable : Ty → Prop
  | .simple _ | .string => True
  | .seq elem => elem.Flat
  | .map key value => key.IsBasic ∧ value.Restorable
  | .struct first rest =>
    first.Restorable ∧ (first.Flat ∨ rest.Vacant fun _ => true) ∧ rest.Restorable fun _ => true

def Tys.Restorable : Tys → (ℕ → Bool) → Prop
  | .nil, _ => True
  | .cons first rest, selected =>
    (selected 0 → first.Restorable ∧ (first.Flat ∨ rest.Vacant fun i => selected (i + 1))) ∧
      rest.Restorable fun i => selected (i + 1)

end

mutual

/-- The strings in a value have no embedded terminator. -/
def Ty.NulFree : (t : Ty) → t.Val → Prop
  | .simple _, _ => True
  | .string, v => IsCString v
  | .seq elem, v => ∀ x ∈ v, elem.NulFree x
  | .map key value, v => ∀ e ∈ v.1, key.NulFree e.1 ∧ value.NulFree e.2
  | .struct first rest, v => first.NulFree v.1 ∧ rest.NulFree (fun _ => true) v.2

def Tys.NulFree : (ts : Tys) → (ℕ → Bool) → ts.Val → Prop
  | .nil, _, _ => True
  | .cons first rest, selected, v =>
    (selected 0 → first.NulFree v.1) ∧ rest.NulFree (fun i => selected (i + 1)) v.2

end

mutual

/-- What an object can hold after `unpack`: nothing behind the first position that is not flat, and
no element of such a type in a sequence. -/
def Ty.Attainable : (t : Ty) → t.Val → Prop
  | .simple _, _ => True
  | .string, v => IsCString v
  | .seq elem, v =>
    (∀ x ∈ v, elem.Attainable x) ∧ (¬elem.Flat → v = [])
  | .map key value, v =>
    (∀ e ∈ v.1, key.Attainable e.1 ∧ value.Attainable e.2) ∧ (¬key.IsBasic → v.1 = [])
  | .struct first rest, v =>
    first.Attainable v.1 ∧ (¬first.Flat → rest.Agree (fun _ => true) v.2 rest.empty) ∧
      rest.Attainable (fun _ => true) v.2

def Tys.Attainable : (ts : Tys) → (ℕ → Bool) → ts.Val → Prop
  | .nil, _, _ => True
  | .cons first rest, selected, v =>
    (selected 0 → first.Attainable v.1 ∧
      (¬first.Flat → rest.Agree (fun i => selected (i + 1)) v.2 rest.empty)) ∧
      rest.Attainable (fun i => selected (i + 1)) v.2

end

/-! ### Values -/

theorem Tys.Agree.refl : {ts : Tys} → {selected : ℕ → Bool} → (v : ts.Val) → ts.Agree selected v v
  | .nil, _, _ => trivial
  | .cons _ _, _, v => ⟨fun _ => rfl, Agree.refl v.2⟩

theorem Tys.Agree.symm : {ts : Tys} → {selected : ℕ → Bool} → {v v' : ts.Val} →
    ts.Agree selected v v' → ts.Agree selected v' v
  | .nil, _, _, _, _ => trivial
  | .cons _ _, _, _, _, agree => ⟨fun chosen => (agree.1 chosen).symm, symm agree.2⟩

theorem Tys.Agree.trans : {ts : Tys} → {selected : ℕ → Bool} → {a b c : ts.Val} →
    ts.Agree selected a b → ts.Agree selected b c → ts.Agree selected a c
  | .nil, _, _, _, _, _, _ => trivial
  | .cons _ _, _, _, _, _, left, right =>
    ⟨fun chosen => (left.1 chosen).trans (right.1 chosen), trans left.2 right.2⟩

theorem Tys.agree_all : {ts : Tys} → {v v' : ts.Val} → ts.Agree (fun _ => true) v v' ↔ v = v'
  | .nil, _, _ => ⟨fun _ => rfl, fun _ => trivial⟩
  | .cons _ rest, v, v' => by
    simp only [Agree, forall_const, rest.agree_all]
    exact Prod.ext_iff.symm

mutual

theorem Ty.empty_attainable : (t : Ty) → t.Attainable t.empty
  | .simple _ => trivial
  | .string => List.not_mem_nil
  | .seq _ => ⟨fun _ member => absurd member List.not_mem_nil, fun _ => rfl⟩
  | .map _ _ => ⟨fun _ member => absurd member List.not_mem_nil, fun _ => rfl⟩
  | .struct first rest => ⟨first.empty_attainable, fun _ => .refl _, rest.empty_attainable⟩

theorem Tys.empty_attainable : (ts : Tys) → {selected : ℕ → Bool} → ts.Attainable selected ts.empty
  | .nil, _ => trivial
  | .cons first rest, _ =>
    ⟨fun _ => ⟨first.empty_attainable, fun _ => .refl _⟩, rest.empty_attainable⟩

end

mutual

theorem Ty.Attainable.nulFree : (t : Ty) → {v : t.Val} → t.Attainable v → t.NulFree v
  | .simple _, _, _ => trivial
  | .string, _, attainable => attainable
  | .seq elem, _, attainable => fun x member => Ty.Attainable.nulFree elem (attainable.1 x member)
  | .map key value, _, attainable => fun e member =>
    ⟨Ty.Attainable.nulFree key (attainable.1 e member).1,
      Ty.Attainable.nulFree value (attainable.1 e member).2⟩
  | .struct first rest, _, ⟨head, _, tail⟩ =>
    ⟨Ty.Attainable.nulFree first head, Tys.Attainable.nulFree rest tail⟩

theorem Tys.Attainable.nulFree : (ts : Tys) → {selected : ℕ → Bool} → {v : ts.Val} →
    ts.Attainable selected v → ts.NulFree selected v
  | .nil, _, _, _ => trivial
  | .cons first rest, _, _, ⟨head, tail⟩ =>
    ⟨fun chosen => Ty.Attainable.nulFree first (head chosen).1, Tys.Attainable.nulFree rest tail⟩

end

theorem Ty.empty_nulFree (t : Ty) : t.NulFree t.empty := t.empty_attainable.nulFree

theorem Tys.Attainable.congr : {ts : Tys} → {selected : ℕ → Bool} → {v v' : ts.Val} →
    ts.Agree selected v v' → ts.Attainable selected v → ts.Attainable selected v'
  | .nil, _, _, _, _, _ => trivial
  | .cons first rest, selected, v, v', agree, attainable => by
    refine ⟨?_, congr agree.2 attainable.2⟩
    intro chosen
    obtain ⟨head, held⟩ := attainable.1 chosen
    refine ⟨agree.1 chosen ▸ head, ?_⟩
    intro notFlat
    exact (agree.2.symm).trans (held notFlat)

/-! ### The return value of `unpack` -/

mutual

/-- A type that is not flat never reports an item. -/
theorem Ty.flat_of_ret_pos : (t : Ty) → {m : Reader} → {val : t.Val} → 0 < (t.unpack m val).ret →
    t.Flat
  | .simple _, _, _, _ => trivial
  | .string, _, _, _ => trivial
  | .seq _, _, _, positive => absurd positive (lt_irrefl 0)
  | .map _ _, _, _, positive => absurd positive (not_lt.mpr unpackEntries_ret_le)
  | .struct first rest, m, val, positive => by
    simp only [Ty.unpack] at positive
    split_ifs at positive with entered read
    · exact ⟨first.flat_of_ret_pos read, rest.flat_of_ret_pos positive⟩
    · exact absurd positive read
    · exact absurd positive.le entered

theorem Tys.flat_of_ret_pos : (ts : Tys) → {selected : ℕ → Bool} → {m : Reader} → {vals : ts.Val} →
    0 < (ts.unpackall selected m vals).ret → ts.Flat selected
  | .nil, _, _, _, _ => trivial
  | .cons first rest, selected, m, vals, positive => by
    simp only [Tys.unpackall] at positive
    split_ifs at positive with chosen read read
    · exact ⟨fun _ => first.flat_of_ret_pos read, rest.flat_of_ret_pos positive⟩
    · exact absurd positive read
    · exact ⟨fun chosen' => absurd chosen' chosen, rest.flat_of_ret_pos positive⟩
    · exact absurd positive read

end

/-! ### The object after `unpack` -/

theorem unpackEach_induct {α : Type} {unpack : Reader → α → Unpacked α} {ok : α → Prop}
    (kept : ∀ m x, ok x → ok (unpack m x).val) {fuel : ℕ} {m : Reader} {item : α} {val : List α}
    (start : ok item) (all : ∀ x ∈ val, ok x) :
    ∀ x ∈ (unpackEach unpack fuel m item val).1, ok x := by
  induction fuel generalizing m item val with
  | zero => exact all
  | succ fuel ih =>
    simp only [unpackEach]
    split_ifs with read
    · apply ih (kept m item start)
      intro x member
      rcases List.mem_append.mp member with old | new
      · exact all x old
      · exact List.mem_singleton.mp new ▸ kept m item start
    · exact all

theorem unpackEach_of_ret_le {α : Type} {unpack : Reader → α → Unpacked α}
    (never : ∀ m x, (unpack m x).ret ≤ 0) {fuel : ℕ} {m : Reader} {item : α} {val : List α} :
    (unpackEach unpack fuel m item val).1 = val := by
  cases fuel with
  | zero => rfl
  | succ fuel => simp only [unpackEach, not_lt.mpr (never m item), if_false]

theorem at_of_all {K V : Type} [DecidableEq K] {ok : K × V → Prop} {okValue : V → Prop} {fresh : V}
    {val : Entries K V} (values : ∀ e, ok e → okValue e.2) (new : okValue fresh)
    (all : ∀ e ∈ val.1, ok e) (k : K) : okValue (val.at fresh k) := by
  rw [Entries.at]
  cases found : val.1.find? (·.1 = k) with
  | none => exact new
  | some e => exact values e (all e (List.mem_of_find?_eq_some found))

theorem unpackEntries_induct {K V : Type} [DecidableEq K] {sig : Sig} {newKey : K} {newValue : V}
    {unpackKey : Reader → K → Unpacked K} {unpackValue : Reader → V → Unpacked V}
    {okKey : K → Prop} {okValue : V → Prop} (keys : ∀ m, okKey (unpackKey m newKey).val)
    (kept : ∀ m v, okValue v → okValue (unpackValue m v).val) (new : okValue newValue) {fuel : ℕ}
    {m : Reader} {val : Entries K V} (all : ∀ e ∈ val.1, okKey e.1 ∧ okValue e.2) :
    ∀ e ∈ (unpackEntries sig newKey newValue unpackKey unpackValue fuel m val).val.1,
      okKey e.1 ∧ okValue e.2 := by
  induction fuel generalizing m val with
  | zero => exact all
  | succ fuel ih =>
    simp only [unpackEntries]
    split_ifs with entered read
    · apply ih
      intro e member
      rcases mem_assign member with rfl | old
      · exact ⟨keys _, kept _ _ (at_of_all (fun e ok => ok.2) new all _)⟩
      · exact all e old
    · exact ih all
    · exact all

theorem unpackEntries_of_not_valid {K V : Type} [DecidableEq K] {sig : Sig} {newKey : K}
    {newValue : V} {unpackKey : Reader → K → Unpacked K} {unpackValue : Reader → V → Unpacked V}
    (refused : ¬sig.valid) {fuel : ℕ} {m : Reader} {val : Entries K V} :
    (unpackEntries sig newKey newValue unpackKey unpackValue fuel m val).val = val := by
  cases fuel with
  | zero => rfl
  | succ fuel =>
    rcases enterContainer_cases sig m with ⟨_, _, _, _, _, valid, _⟩ | ⟨r, le, stay⟩
    · exact absurd valid refused
    · simp only [unpackEntries, stay, not_lt.mpr le, if_false]

theorem Ty.signature_isBasic {t : Ty} : t.signature.isBasic ↔ t.IsBasic := by
  cases t <;> simp [signature, Sig.isBasic, IsBasic]

mutual

/-- `unpack` leaves an attainable value, from any message and in the middle of any container. -/
theorem Ty.unpack_attainable : (t : Ty) → {m : Reader} → {val : t.Val} → t.Attainable val →
    t.Attainable (t.unpack m val).val
  | .simple _, _, _, _ => trivial
  | .string, m, val, attainable => by
    simp only [Ty.unpack]
    split_ifs with read
    · cases (readString m).2.1 with
      | none => exact attainable
      | some text => exact text.2
    · exact attainable
  | .seq elem, m, val, attainable => by
    have kept (m : Reader) (x : elem.Val) (ok : elem.Attainable x) :
        elem.Attainable (elem.unpack m x).val := elem.unpack_attainable ok
    simp only [Ty.unpack]
    refine ⟨unpackEach_induct kept elem.empty_attainable attainable.1, ?_⟩
    intro notFlat
    have never (m : Reader) (x : elem.Val) : (elem.unpack m x).ret ≤ 0 :=
      not_lt.mp fun positive => notFlat (elem.flat_of_ret_pos positive)
    rw [unpackEach_of_ret_le never, attainable.2 notFlat]
  | .map key value, m, val, attainable => by
    refine ⟨unpackEntries_induct (fun m => key.unpack_attainable key.empty_attainable)
      (fun m v ok => value.unpack_attainable ok) value.empty_attainable attainable.1,
      ?_⟩
    intro notBasic
    have refused : ¬(Sig.entry key.signature value.signature).valid := by
      simp [Sig.valid, Ty.signature_isBasic, notBasic]
    exact (congrArg Subtype.val (unpackEntries_of_not_valid refused)).trans (attainable.2 notBasic)
  | .struct first rest, m, val, ⟨head, held, tail⟩ => by
    simp only [Ty.unpack]
    split_ifs with entered read
    · exact ⟨first.unpack_attainable head,
        fun notFlat => absurd (first.flat_of_ret_pos read) notFlat, rest.unpackall_attainable tail⟩
    · exact ⟨first.unpack_attainable head, held, tail⟩
    · exact ⟨head, held, tail⟩

theorem Tys.unpackall_attainable : (ts : Tys) → {selected : ℕ → Bool} → {m : Reader} →
    {vals : ts.Val} → ts.Attainable selected vals →
    ts.Attainable selected (ts.unpackall selected m vals).val
  | .nil, _, _, _, _ => trivial
  | .cons first rest, selected, m, vals, attainable => by
    simp only [Tys.unpackall]
    split_ifs with chosen read read
    · exact ⟨fun _ => ⟨first.unpack_attainable (attainable.1 chosen).1,
        fun notFlat => absurd (first.flat_of_ret_pos read) notFlat⟩,
        rest.unpackall_attainable attainable.2⟩
    · exact ⟨fun _ => ⟨first.unpack_attainable (attainable.1 chosen).1, (attainable.1 chosen).2⟩,
        attainable.2⟩
    · exact ⟨fun chosen' => absurd chosen' chosen, rest.unpackall_attainable attainable.2⟩
    · exact absurd one_pos read

end

/-! ### Values that are out of reach -/

mutual

theorem Ty.exists_ne_empty : (t : Ty) → ∃ v, t.NulFree v ∧ v ≠ t.empty
  | .simple s => s.exists_ne_zero.imp fun _ different => ⟨trivial, different⟩
  | .string => ⟨[65], (by decide : IsCString [65]), List.cons_ne_nil 65 []⟩
  | .seq elem => by
    refine ⟨[elem.empty], ?_, List.cons_ne_nil _ _⟩
    intro x member
    exact List.mem_singleton.mp member ▸ elem.empty_nulFree
  | .map key value => by
    refine ⟨⟨[(key.empty, value.empty)], List.nodup_singleton _⟩, ?_, ?_⟩
    · intro e member
      exact List.mem_singleton.mp member ▸ ⟨key.empty_nulFree, value.empty_nulFree⟩
    · exact fun same => List.cons_ne_nil _ _ (congrArg Subtype.val same)
  | .struct first rest => by
    obtain ⟨v, plain, different⟩ := first.exists_ne_empty
    refine ⟨(v, rest.empty), ⟨plain, rest.empty_attainable.nulFree⟩, ?_⟩
    intro same
    exact different (congrArg Prod.fst same)

theorem Tys.exists_not_agree : (ts : Tys) → {selected : ℕ → Bool} → ¬ts.Vacant selected →
    ∃ v, ts.NulFree selected v ∧ ¬ts.Agree selected v ts.empty
  | .nil, _, occupied => absurd trivial occupied
  | .cons first rest, selected, occupied => by
    by_cases chosen : selected 0
    · obtain ⟨v, plain, different⟩ := first.exists_ne_empty
      refine ⟨(v, rest.empty), ⟨fun _ => plain, rest.empty_attainable.nulFree⟩, ?_⟩
      intro agree
      exact different (agree.1 chosen)
    · obtain ⟨v, plain, different⟩ := rest.exists_not_agree fun vacant =>
        occupied ⟨Bool.eq_false_iff.mpr chosen, vacant⟩
      exact ⟨(first.empty, v), ⟨fun chosen' => absurd chosen' chosen, plain⟩,
        fun agree => different agree.2⟩

end

mutual

/-- A type that is not restorable has values that no `unpack` leaves in an object. -/
theorem Ty.exists_not_attainable : (t : Ty) → ¬t.Restorable → ∃ v, t.NulFree v ∧ ¬t.Attainable v
  | .simple _, bad => absurd trivial bad
  | .string, bad => absurd trivial bad
  | .seq elem, bad => by
    refine ⟨[elem.empty], ?_, ?_⟩
    · intro x member
      exact List.mem_singleton.mp member ▸ elem.empty_nulFree
    · intro attainable
      exact List.cons_ne_nil _ _ (attainable.2 bad)
  | .map key value, bad => by
    by_cases basic : key.IsBasic
    · obtain ⟨v, plain, out⟩ := value.exists_not_attainable fun good => bad ⟨basic, good⟩
      refine ⟨⟨[(key.empty, v)], List.nodup_singleton _⟩, ?_, ?_⟩
      · intro e member
        exact List.mem_singleton.mp member ▸ ⟨key.empty_nulFree, plain⟩
      · intro attainable
        exact out (attainable.1 _ (List.mem_singleton_self _)).2
    · refine ⟨⟨[(key.empty, value.empty)], List.nodup_singleton _⟩, ?_,
        ?_⟩
      · intro e member
        exact List.mem_singleton.mp member ▸ ⟨key.empty_nulFree, value.empty_nulFree⟩
      · intro attainable
        exact List.cons_ne_nil _ _ (attainable.2 basic)
  | .struct first rest, bad => by
    by_cases head : first.Restorable
    · by_cases order : first.Flat ∨ rest.Vacant fun _ => true
      · obtain ⟨v, plain, out⟩ := rest.exists_not_attainable fun good => bad ⟨head, order, good⟩
        exact ⟨(first.empty, v), ⟨first.empty_nulFree, plain⟩, fun attainable => out attainable.2.2⟩
      · obtain ⟨notFlat, occupied⟩ := not_or.mp order
        obtain ⟨v, plain, different⟩ := rest.exists_not_agree occupied
        exact ⟨(first.empty, v), ⟨first.empty_nulFree, plain⟩,
          fun attainable => different (attainable.2.1 notFlat)⟩
    · obtain ⟨v, plain, out⟩ := first.exists_not_attainable head
      exact ⟨(v, rest.empty), ⟨plain, rest.empty_attainable.nulFree⟩,
        fun attainable => out attainable.1⟩

theorem Tys.exists_not_attainable : (ts : Tys) → {selected : ℕ → Bool} →
    ¬ts.Restorable selected → ∃ v, ts.NulFree selected v ∧ ¬ts.Attainable selected v
  | .nil, _, bad => absurd trivial bad
  | .cons first rest, selected, bad => by
    by_cases tail : rest.Restorable fun i => selected (i + 1)
    · obtain ⟨chosen, bad⟩ := Classical.not_imp.mp fun head => bad ⟨head, tail⟩
      by_cases head : first.Restorable
      · obtain ⟨notFlat, occupied⟩ := not_or.mp fun order => bad ⟨head, order⟩
        obtain ⟨v, plain, different⟩ := rest.exists_not_agree occupied
        exact ⟨(first.empty, v), ⟨fun _ => first.empty_nulFree, plain⟩,
          fun attainable => different ((attainable.1 chosen).2 notFlat)⟩
      · obtain ⟨v, plain, out⟩ := first.exists_not_attainable head
        exact ⟨(v, rest.empty), ⟨fun _ => plain, rest.empty_attainable.nulFree⟩,
          fun attainable => out (attainable.1 chosen).1⟩
    · obtain ⟨v, plain, out⟩ := rest.exists_not_attainable tail
      exact ⟨(first.empty, v), ⟨fun _ => first.empty_nulFree, plain⟩,
        fun attainable => out attainable.2⟩

end

end AmlCommonlib.Dbus
