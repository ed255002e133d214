import AmlCommonlib.Dbus.RoundTrip

/-! # Types that leave the message where it should be

`unpack` of an aligned type takes its own node and nothing else, also in front of other members of
its container: it leaves every container that it enters, and no other.
-/

namespace AmlCommonlib.Dbus

mutual

/-- The types that leave every container they enter and no other: the elements of a sequence are
basic. -/
def Ty.Aligned : Ty → Prop
  | .simple _ | .string => True
  | .seq elem => elem.IsBasic
  | .map key value => key.IsBasic ∧ value.Aligned
  | .struct first rest =>
    first.Aligned ∧ (first.Flat ∨ rest.Vacant fun _ => true) ∧ rest.Aligned fun _ => true

def Tys.Aligned : Tys → (ℕ → Bool) → Prop
  | .nil, _ => True
  | .cons first rest, selected =>
    (selected 0 → first.Aligned ∧ (first.Flat ∨ rest.Vacant fun i => selected (i + 1))) ∧
      rest.Aligned fun i => selected (i + 1)

end

mutual

theorem Ty.Aligned.restorable : (t : Ty) → t.Aligned → t.Restorable
  | .simple _, _ => trivial
  | .string, _ => trivial
  | .seq _, basic => Ty.IsBasic.flat basic
  | .map _ value, aligned => ⟨aligned.1, Ty.Aligned.restorable value aligned.2⟩
  | .struct first rest, aligned =>
    ⟨Ty.Aligned.restorable first aligned.1, aligned.2.1, Tys.Aligned.restorable rest aligned.2.2⟩

theorem Tys.Aligned.restorable : (ts : Tys) → {selected : ℕ → Bool} → ts.Aligned selected →
    ts.Restorable selected
  | .nil, _, _ => trivial
  | .cons first rest, _, aligned =>
    ⟨fun chosen => ⟨Ty.Aligned.restorable first (aligned.1 chosen).1, (aligned.1 chosen).2⟩,
      Tys.Aligned.restorable rest aligned.2⟩

end

theorem Ty.IsBasic.unpack_end {t : Ty} (basic : t.IsBasic) (below : Reader) (val : t.Val) :
    (t.unpack (⟨true, []⟩ :: below) val).ret = 0 ∧
      (t.unpack (⟨true, []⟩ :: below) val).msg = ⟨true, []⟩ :: below := by
  cases t with
  | simple s => simp [Ty.unpack, readBasic, take]
  | string => simp [Ty.unpack, readString, take]
  | _ => cases basic

theorem unpackEach_basic {elem : Ty} (basic : elem.IsBasic) {xs : List elem.Val}
    (plain : ∀ x ∈ xs, elem.NulFree x) {fuel : ℕ} (enough : xs.length < fuel) (below : Reader)
    (item : elem.Val) (val : List elem.Val) :
    unpackEach elem.unpack fuel (⟨true, xs.map elem.node⟩ :: below) item val =
      (val ++ xs, ⟨true, []⟩ :: below) := by
  induction xs generalizing fuel item val with
  | nil =>
    obtain ⟨fuel, rfl⟩ := Nat.exists_eq_succ_of_ne_zero (Nat.ne_of_gt enough)
    obtain ⟨ret, msg⟩ := basic.unpack_end below item
    simp [unpackEach, ret, msg]
  | cons x xs ih =>
    obtain ⟨fuel, rfl⟩ := Nat.exists_eq_succ_of_ne_zero (Nat.ne_of_gt (Nat.zero_lt_of_lt enough))
    obtain ⟨head, tail⟩ := List.forall_mem_cons.mp plain
    simp only [unpackEach, List.map_cons, elem.unpack_flat basic.flat head, zero_lt_one, if_true]
    rw [List.append_cons val x xs]
    exact ih tail (Nat.lt_of_succ_lt_succ enough) x (val ++ [x])

/-- The value is taken, whatever comes behind it. -/
def Ty.Takes (t : Ty) : Prop :=
  ∀ v, t.NulFree v → ∀ inArray rest below,
    0 ≤ (t.unpack (⟨inArray, t.node v :: rest⟩ :: below) t.empty).ret ∧
    (t.unpack (⟨inArray, t.node v :: rest⟩ :: below) t.empty).val = v ∧
    (t.unpack (⟨inArray, t.node v :: rest⟩ :: below) t.empty).msg = ⟨inArray, rest⟩ :: below

theorem unpackEntries_takes {key value : Ty} (basic : key.IsBasic) (valid : value.signature.valid)
    (takes : value.Takes) {below : Reader} {es : List (key.Val × value.Val)}
    (plain : ∀ e ∈ es, key.NulFree e.1 ∧ value.NulFree e.2) {fuel : ℕ} (enough : es.length < fuel)
    {val : Entries key.Val value.Val} (nodup : ((val.1 ++ es).map Prod.fst).Nodup) :
    let u := unpackEntries (.entry key.signature value.signature) key.empty value.empty key.unpack
      value.unpack fuel (⟨true, es.map fun e => .container (.entry key.signature value.signature)
        [key.node e.1, value.node e.2]⟩ :: below) val
    u.ret = 0 ∧ u.val.1 = val.1 ++ es ∧ u.msg = ⟨true, []⟩ :: below := by
  induction es generalizing fuel val with
  | nil =>
    obtain ⟨fuel, rfl⟩ := Nat.exists_eq_succ_of_ne_zero (Nat.ne_of_gt enough)
    simp [unpackEntries, enterContainer, take]
  | cons e es ih =>
    obtain ⟨fuel, rfl⟩ := Nat.exists_eq_succ_of_ne_zero (Nat.ne_of_gt (Nat.zero_lt_of_lt enough))
    obtain ⟨head, tail⟩ := List.forall_mem_cons.mp plain
    have entry : (Sig.entry key.signature value.signature).valid := by
      simpa [Sig.valid] using ⟨Ty.signature_isBasic.mpr basic, valid⟩
    have absent : e.1 ∉ val.1.map Prod.fst := by
      rw [List.map_append, List.nodup_append'] at nodup
      exact fun member => nodup.2.2 member (List.mem_cons_self ..)
    have longer : (val.assign e.1 e.2).1 ++ es = val.1 ++ e :: es := by
      rw [Entries.assign_of_notMem absent, ← List.append_cons]
    obtain ⟨-, same, msg⟩ := takes e.2 head.2 false [] (⟨true, es.map fun e =>
      .container (.entry key.signature value.signature) [key.node e.1, value.node e.2]⟩ :: below)
    have later := ih tail (Nat.lt_of_succ_lt_succ enough)
      (show (((val.assign e.1 e.2).1 ++ es).map Prod.fst).Nodup from longer ▸ nodup)
    simp only [List.map_cons, unpackEntries, enterContainer_next entry, Sig.isArray, zero_lt_one,
      if_true, key.unpack_flat basic.flat head.1, Entries.at_of_notMem absent, same, msg,
      exitContainer]
    rwa [longer] at later

theorem Ty.Takes.of_flat {t : Ty} (flat : t.Flat) : t.Takes := by
  intro v plain inArray rest below
  rw [t.unpack_flat flat plain]
  exact ⟨zero_le_one, rfl, rfl⟩

theorem Ty.Takes.seq {elem : Ty} (basic : elem.IsBasic) : (Ty.seq elem).Takes := by
  intro v plain inArray rest below
  have valid := Ty.Restorable.valid (.seq elem) basic.flat
  rw [Ty.signature] at valid
  have enough : v.length < Reader.size (⟨true, v.map elem.node⟩ :: ⟨inArray, rest⟩ :: below) + 1 := by
    have length := length_le_countAll (v.map elem.node)
    simp only [List.length_map] at length
    simp only [Reader.size_cons]
    omega
  simp only [Ty.unpack, Ty.node, Ty.empty, enterContainer_next valid, Sig.isArray,
    unpackEach_basic basic plain enough, List.nil_append, exitContainer, if_true, le_refl, true_and]

theorem Ty.Takes.map {key value : Ty} (basic : key.IsBasic) (good : value.Restorable)
    (takes : value.Takes) : (Ty.map key value).Takes := by
  intro v plain inArray rest below
  have valid := Ty.Restorable.valid (.map key value) ⟨basic, good⟩
  rw [Ty.signature] at valid
  have enough : v.1.length < Reader.size (⟨true, v.1.map fun e =>
      .container (.entry key.signature value.signature) [key.node e.1, value.node e.2]⟩ ::
      ⟨inArray, rest⟩ :: below) + 1 := by
    have length := length_le_countAll (v.1.map fun e =>
      .container (.entry key.signature value.signature) [key.node e.1, value.node e.2])
    simp only [List.length_map] at length
    simp only [Reader.size_cons]
    omega
  have new : (((Ty.map key value).empty.1 ++ v.1).map Prod.fst).Nodup := v.2
  obtain ⟨ret, same, msg⟩ := unpackEntries_takes basic (Ty.Restorable.valid value good) takes plain
    enough new
  simp only [Ty.unpack, Ty.node, enterContainer_next valid, Sig.isArray]
  exact ⟨ret.ge, Subtype.ext same, by rw [msg]; rfl⟩

/-- The selected arguments are taken, whatever comes behind them. -/
def Tys.Takes (ts : Tys) (selected : ℕ → Bool) : Prop :=
  ∀ v, ts.NulFree selected v → ∀ inArray below,
    let u := ts.unpackall selected (⟨inArray, ts.nodes selected v⟩ :: below) ts.empty
    0 ≤ u.ret ∧ ts.Agree selected u.val v ∧ u.msg = ⟨inArray, []⟩ :: below

theorem Tys.Takes.cons {first : Ty} {rest : Tys} {selected : ℕ → Bool}
    (head : selected 0 → first.Takes ∧ (first.Flat ∨ rest.Vacant fun i => selected (i + 1)))
    (tail : rest.Takes fun i => selected (i + 1)) : (Tys.cons first rest).Takes selected := by
  intro v plain inArray below
  obtain ⟨ret, agree, msg⟩ := tail v.2 plain.2 inArray below
  cases chosen : selected 0 with
  | false =>
    simp only [Tys.unpackall, Tys.nodes, Tys.empty, chosen, Bool.false_eq_true, if_false,
      zero_lt_one, if_true]
    exact ⟨ret, ⟨fun chosen' => absurd (chosen.symm.trans chosen') Bool.false_ne_true, agree⟩, msg⟩
  | true =>
    simp only [Tys.unpackall, Tys.nodes, Tys.empty, chosen, if_true]
    by_cases flat : first.Flat
    · simp only [first.unpack_flat flat (plain.1 chosen), zero_lt_one, if_true]
      exact ⟨ret, ⟨fun _ => rfl, agree⟩, msg⟩
    · have last := (head chosen).2.resolve_left flat
      obtain ⟨ret', same, msg'⟩ := (head chosen).1 v.1 (plain.1 chosen) inArray [] below
      rw [last.nodes_eq_nil, if_neg fun positive => flat (first.flat_of_ret_pos positive)]
      exact ⟨ret', ⟨fun _ => same, last.agree _ _⟩, msg'⟩

theorem Ty.Takes.struct {first : Ty} {rest : Tys} (good : (Ty.struct first rest).Restorable)
    (takes : (Tys.cons first rest).Takes fun _ => true) : (Ty.struct first rest).Takes := by
  intro v plain inArray rest' below
  have valid := Ty.Restorable.valid _ good
  have members : (Ty.struct first rest).node v = .container (Ty.struct first rest).signature
      ((Tys.cons first rest).nodes (fun _ => true) v) := by
    simp [Ty.node, Tys.nodes, Ty.signature]
  obtain ⟨ret, agree, msg⟩ := takes v ⟨fun _ => plain.1, plain.2⟩ false (⟨inArray, rest'⟩ :: below)
  rw [Ty.unpack_struct, members, enterContainer_next valid]
  simp only [zero_le_one, if_true]
  have leaves := congrArg (fun m => (exitContainer m).2) msg
  exact ⟨ret, Tys.agree_all.mp agree, leaves⟩

mutual

theorem Ty.Aligned.takes : (t : Ty) → t.Aligned → t.Takes
  | .simple _, _ => .of_flat trivial
  | .string, _ => .of_flat trivial
  | .seq _, basic => .seq basic
  | .map _ value, aligned =>
    .map aligned.1 (Ty.Aligned.restorable value aligned.2) (Ty.Aligned.takes value aligned.2)
  | .struct first rest, aligned =>
    .struct (Ty.Aligned.restorable (.struct first rest) aligned)
      (.cons (fun _ => ⟨Ty.Aligned.takes first aligned.1, aligned.2.1⟩)
        (Tys.Aligned.takes rest aligned.2.2))

theorem Tys.Aligned.takes : (ts : Tys) → {selected : ℕ → Bool} → ts.Aligned selected →
    ts.Takes selected
  | .nil, _, _ => fun _ _ _ _ =>
    ⟨zero_le_one, trivial, by simp [Tys.unpackall, Tys.nodes]⟩
  | .cons first rest, _, aligned =>
    .cons (fun chosen => ⟨Ty.Aligned.takes first (aligned.1 chosen).1, (aligned.1 chosen).2⟩)
      (Tys.Aligned.takes rest aligned.2)

end

end AmlCommonlib.Dbus
