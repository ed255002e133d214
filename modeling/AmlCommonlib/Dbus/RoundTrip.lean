import AmlCommonlib.Dbus.Packing

/-! # Which types come back from a message

`unpack` of a flat type takes exactly its own node. A type that is restorable but not flat stands
last in its container: there, a struct that meets the end of an array leaves one container too many,
but it only ever leaves containers that are read to their end, and no map above mistakes the entry
it meets then for its own, since that entry has a bigger signature.
-/

namespace AmlCommonlib.Dbus

/-! ### Containers that are left -/

/-- Some of the innermost containers were left, all of them read to their end. -/
inductive Drained : Reader → Reader → Prop
  | refl (m : Reader) : Drained m m
  | leave {inArray : Bool} {outer : Frame} {below m : Reader} :
      Drained (outer :: below) m → Drained (⟨inArray, []⟩ :: outer :: below) m

namespace Drained

theorem trans {a b c : Reader} (first : Drained a b) (second : Drained b c) : Drained a c := by
  induction first with
  | refl => exact second
  | leave _ ih => exact .leave (ih second)

theorem subset {a b : Reader} (drained : Drained a b) : ∀ f ∈ b, f ∈ a := by
  induction drained with
  | refl => exact fun _ member => member
  | leave _ ih => exact fun f member => List.mem_cons_of_mem _ (ih f member)

/-- A container with unread members is not left. -/
theorem eq_of_cons {inArray : Bool} {node : Node} {rest : List Node} {below m : Reader}
    (drained : Drained (⟨inArray, node :: rest⟩ :: below) m) :
    m = ⟨inArray, node :: rest⟩ :: below := by
  cases drained
  rfl

theorem exit (m : Reader) : Drained m (exitContainer m).2 := by
  rcases exitContainer_cases m with ⟨inArray, outer, below, rfl, done⟩ | ⟨r, -, stay⟩
  · rw [done]
    exact .leave (.refl _)
  · rw [stay]
    exact .refl m

/-- Leaving a container that is read to its end, or an outer one where it is left already. -/
theorem exit_of_end {inArray : Bool} {outer : Frame} {below m : Reader}
    (drained : Drained (⟨inArray, []⟩ :: outer :: below) m) :
    Drained (outer :: below) (exitContainer m).2 := by
  cases drained with
  | refl => exact .refl _
  | leave further => exact further.trans (exit m)

end Drained

/-- Entries that are next in one of the containers have a signature bigger than `size`. -/
def Bigger (size : ℕ) (m : Reader) : Prop :=
  ∀ f ∈ m, ∀ key value items rest, f.rest = .container (.entry key value) items :: rest →
    size < sizeOf (Sig.entry key value)

theorem Bigger.mono {size size' : ℕ} (le : size' ≤ size) {m : Reader} (bigger : Bigger size m) :
    Bigger size' m :=
  fun f member key value items rest next =>
    le.trans_lt (bigger f member key value items rest next)

theorem Bigger.cons {size : ℕ} {f : Frame} {m : Reader}
    (own : ∀ key value items rest, f.rest = .container (.entry key value) items :: rest →
      size < sizeOf (Sig.entry key value)) (bigger : Bigger size m) : Bigger size (f :: m) :=
  List.forall_mem_cons.mpr ⟨own, bigger⟩

theorem Bigger.cons_end {size : ℕ} {inArray : Bool} {m : Reader} (bigger : Bigger size m) :
    Bigger size (⟨inArray, []⟩ :: m) := bigger.cons fun _ _ _ _ next => nomatch next

/-! ### Flat types -/

@[simp] theorem readBasic_next (code : Char) (ct : Bytes) (inArray : Bool) (rest : List Node)
    (below : Reader) : readBasic code (⟨inArray, .basic code ct :: rest⟩ :: below) =
      (1, some ct, ⟨inArray, rest⟩ :: below) := by
  simp [readBasic, take, Node.ct?]

@[simp] theorem readString_next (text : CStr) (inArray : Bool) (rest : List Node) (below : Reader) :
    readString (⟨inArray, .string text :: rest⟩ :: below) =
      (1, some text, ⟨inArray, rest⟩ :: below) := by
  simp [readString, take, Node.text?]

theorem enterContainer_next {sig : Sig} (valid : sig.valid) (items : List Node) (inArray : Bool)
    (rest : List Node) (below : Reader) :
    enterContainer sig (⟨inArray, .container sig items :: rest⟩ :: below) =
      (1, ⟨sig.isArray, items⟩ :: ⟨inArray, rest⟩ :: below) := by
  simp [enterContainer, take, Node.items?, valid]

theorem takeWhile_of_isCString {s : Bytes} (plain : IsCString s) : s.takeWhile (· != 0) = s := by
  apply List.takeWhile_eq_self_iff.mpr
  intro b member
  have : b ≠ 0 := fun same => plain (same ▸ member)
  simpa using this

/-- At the end of an array a flat type returns 0. -/
theorem Ty.unpack_end : (t : Ty) → t.Flat → (below : Reader) → (val : t.Val) →
    (t.unpack (⟨true, []⟩ :: below) val).ret = 0 ∧
      Drained (⟨true, []⟩ :: below) (t.unpack (⟨true, []⟩ :: below) val).msg
  | .simple _, _, _, _ => by simp [Ty.unpack, readBasic, take, Drained.refl]
  | .string, _, _, _ => by simp [Ty.unpack, readString, take, Drained.refl]
  | .struct first rest, flat, below, val => by
    obtain ⟨ret, drained⟩ := first.unpack_end flat.1 below val.1
    have stay (sig : Sig) : enterContainer sig (⟨true, []⟩ :: below) = (0, ⟨true, []⟩ :: below) := by
      simp [enterContainer, take]
    simp only [Ty.unpack, stay, le_refl, if_true, ret, lt_irrefl, if_false, true_and]
    exact drained.trans (.exit _)

mutual

/-- `unpack` of a flat type takes its node and nothing else. -/
theorem Ty.unpack_flat : (t : Ty) → t.Flat → {v : t.Val} → t.NulFree v → (inArray : Bool) →
    (rest : List Node) → (below : Reader) → (val : t.Val) →
    t.unpack (⟨inArray, t.node v :: rest⟩ :: below) val = ⟨1, v, ⟨inArray, rest⟩ :: below⟩
  | .simple s, _, v, _, _, _, _, _ => by simp [Ty.unpack, Ty.node, s.ofCT_toCT]
  | .string, _, v, plain, _, _, _, _ => by
    simp [Ty.unpack, Ty.node, takeWhile_of_isCString plain]
  | .struct first tail, flat, v, plain, inArray, rest, below, val => by
    have valid := Ty.Restorable.valid _ (Ty.Flat.restorable (.struct first tail) flat)
    rw [Ty.signature] at valid
    obtain ⟨ret, msg, agree⟩ := tail.unpackall_flat flat.2 plain.2 false [] (⟨inArray, rest⟩ :: below)
      val.2
    simp only [List.append_nil] at ret msg agree
    simp only [Ty.unpack, Ty.node, enterContainer_next valid, Sig.isArray, zero_le_one, if_true,
      first.unpack_flat flat.1 plain.1, zero_lt_one, ret, msg, Tys.agree_all.mp agree]
    rfl

theorem Tys.unpackall_flat : (ts : Tys) → {selected : ℕ → Bool} → ts.Flat selected →
    {v : ts.Val} → ts.NulFree selected v → (inArray : Bool) → (rest : List Node) →
    (below : Reader) → (vals : ts.Val) →
    (ts.unpackall selected (⟨inArray, ts.nodes selected v ++ rest⟩ :: below) vals).ret = 1 ∧
    (ts.unpackall selected (⟨inArray, ts.nodes selected v ++ rest⟩ :: below) vals).msg =
      ⟨inArray, rest⟩ :: below ∧
    ts.Agree selected
      (ts.unpackall selected (⟨inArray, ts.nodes selected v ++ rest⟩ :: below) vals).val v
  | .nil, _, _, _, _, _, _, _, _ => ⟨rfl, rfl, trivial⟩
  | .cons first tail, selected, flat, v, plain, inArray, rest, below, vals => by
    obtain ⟨ret, msg, agree⟩ := tail.unpackall_flat flat.2 plain.2 inArray rest below vals.2
    cases chosen : selected 0 with
    | true =>
      simp only [Tys.unpackall, Tys.nodes, chosen, if_true, List.cons_append,
        first.unpack_flat (flat.1 chosen) (plain.1 chosen), zero_lt_one, ret, msg, true_and]
      exact ⟨fun _ => rfl, agree⟩
    | false =>
      simp only [Tys.unpackall, Tys.nodes, chosen, Bool.false_eq_true, if_false, zero_lt_one,
        if_true, ret, msg, true_and]
      exact ⟨fun chosen' => absurd (chosen.symm.trans chosen') Bool.false_ne_true, agree⟩

end

/-! ### The loops -/

/-- The loop over a sequence takes its elements and stops at the end of the array. -/
theorem unpackEach_spec {elem : Ty} (flat : elem.Flat) {xs : List elem.Val}
    (plain : ∀ x ∈ xs, elem.NulFree x) {fuel : ℕ} (enough : xs.length < fuel) (below : Reader)
    (item : elem.Val) (val : List elem.Val) :
    (unpackEach elem.unpack fuel (⟨true, xs.map elem.node⟩ :: below) item val).1 = val ++ xs ∧
      Drained (⟨true, []⟩ :: below)
        (unpackEach elem.unpack fuel (⟨true, xs.map elem.node⟩ :: below) item val).2 := by
  induction xs generalizing fuel item val with
  | nil =>
    obtain ⟨fuel, rfl⟩ := Nat.exists_eq_succ_of_ne_zero (Nat.ne_of_gt enough)
    obtain ⟨ret, drained⟩ := elem.unpack_end flat below item
    simp only [unpackEach, List.map_nil, ret, lt_irrefl, if_false, List.append_nil, true_and]
    exact drained
  | cons x xs ih =>
    obtain ⟨fuel, rfl⟩ := Nat.exists_eq_succ_of_ne_zero (Nat.ne_of_gt (Nat.zero_lt_of_lt enough))
    obtain ⟨head, tail⟩ := List.forall_mem_cons.mp plain
    simp only [unpackEach, List.map_cons, elem.unpack_flat flat head, zero_lt_one, if_true]
    rw [List.append_cons val x xs]
    exact ih tail (Nat.lt_of_succ_lt_succ enough) x (val ++ [x])

/-- No entry with this signature is next where the containers of a map are read to their end. -/
theorem enterContainer_drained {key value : Sig} {inArray : Bool} {below m : Reader}
    (bigger : Bigger (sizeOf (Sig.entry key value)) below)
    (drained : Drained (⟨true, []⟩ :: ⟨inArray, []⟩ :: below) m) :
    ∃ r ≤ 0, enterContainer (.entry key value) m = (r, m) := by
  rcases enterContainer_cases (.entry key value) m with
    ⟨inArray', items, rest, below', rfl, -, -⟩ | stay
  · have member := drained.subset _ (List.mem_cons_self ..)
    simp only [List.mem_cons, Frame.mk.injEq, reduceCtorEq, and_false, false_or] at member
    exact absurd (bigger _ member key value items rest rfl) (lt_irrefl _)
  · exact stay

/-- The last value of its container comes back, and then only containers at their end are left. -/
def Ty.Restores (t : Ty) : Prop :=
  ∀ v, t.NulFree v → ∀ inArray below, Bigger (sizeOf t.signature) below →
    (t.unpack (⟨inArray, [t.node v]⟩ :: below) t.empty).val = v ∧
    Drained (⟨inArray, []⟩ :: below) (t.unpack (⟨inArray, [t.node v]⟩ :: below) t.empty).msg

def Tys.Restores (ts : Tys) (selected : ℕ → Bool) : Prop :=
  ∀ v, ts.NulFree selected v → ∀ inArray below, Bigger (sizeOf ts.signature) below →
    ts.Agree selected
      (ts.unpackall selected (⟨inArray, ts.nodes selected v⟩ :: below) ts.empty).val v ∧
    Drained (⟨inArray, []⟩ :: below)
      (ts.unpackall selected (⟨inArray, ts.nodes selected v⟩ :: below) ts.empty).msg

/-- The loop over a map takes its entries, wherever the values leave the message. -/
theorem unpackEntries_spec {key value : Ty} (basic : key.IsBasic) (valid : value.signature.valid)
    (restores : value.Restores) {inArray : Bool} {below : Reader}
    (bigger : Bigger (sizeOf (Sig.entry key.signature value.signature)) below)
    {es : List (key.Val × value.Val)} (plain : ∀ e ∈ es, key.NulFree e.1 ∧ value.NulFree e.2)
    {fuel : ℕ} (enough : es.length < fuel) {m : Reader}
    (position : Drained (⟨true, es.map fun e => .container (.entry key.signature value.signature)
      [key.node e.1, value.node e.2]⟩ :: ⟨inArray, []⟩ :: below) m)
    {val : Entries key.Val value.Val} (nodup : ((val.1 ++ es).map Prod.fst).Nodup) :
    (unpackEntries (.entry key.signature value.signature) key.empty value.empty key.unpack
      value.unpack fuel m val).val.1 = val.1 ++ es ∧
    Drained (⟨true, []⟩ :: ⟨inArray, []⟩ :: below)
      (unpackEntries (.entry key.signature value.signature) key.empty value.empty key.unpack
        value.unpack fuel m val).msg := by
  induction es generalizing fuel m val with
  | nil =>
    obtain ⟨fuel, rfl⟩ := Nat.exists_eq_succ_of_ne_zero (Nat.ne_of_gt enough)
    obtain ⟨r, le, stay⟩ := enterContainer_drained bigger position
    simp only [unpackEntries, stay, not_lt.mpr le, if_false, List.append_nil, true_and]
    exact position
  | cons e es ih =>
    obtain ⟨fuel, rfl⟩ := Nat.exists_eq_succ_of_ne_zero (Nat.ne_of_gt (Nat.zero_lt_of_lt enough))
    obtain ⟨head, tail⟩ := List.forall_mem_cons.mp plain
    obtain rfl := position.eq_of_cons
    have keyFlat := basic.flat
    have entry : (Sig.entry key.signature value.signature).valid := by
      simpa [Sig.valid] using ⟨Ty.signature_isBasic.mpr basic, valid⟩
    have absent : e.1 ∉ val.1.map Prod.fst := by
      rw [List.map_append, List.nodup_append'] at nodup
      exact fun member => nodup.2.2 member (List.mem_cons_self ..)
    have smaller : sizeOf value.signature < sizeOf (Sig.entry key.signature value.signature) := by
      simp
    have outer : Bigger (sizeOf value.signature) (⟨true, es.map fun e =>
        .container (.entry key.signature value.signature) [key.node e.1, value.node e.2]⟩ ::
        ⟨inArray, []⟩ :: below) := by
      refine .cons (?_) (bigger.mono smaller.le).cons_end
      intro k v items rest next
      obtain ⟨e', es', rfl, same, -⟩ := List.map_eq_cons_iff.mp next
      simp only [Node.container.injEq, Sig.entry.injEq] at same
      rwa [← same.1.1, ← same.1.2]
    obtain ⟨same, drained⟩ := restores e.2 head.2 false _ outer
    have longer : (val.assign e.1 e.2).1 ++ es = val.1 ++ e :: es := by
      rw [Entries.assign_of_notMem absent, ← List.append_cons]
    simp only [unpackEntries, enterContainer_next entry, Sig.isArray, zero_lt_one, if_true,
      key.unpack_flat keyFlat head.1, Entries.at_of_notMem absent, same]
    have later := ih tail (Nat.lt_of_succ_lt_succ enough) drained.exit_of_end (longer ▸ nodup)
    rwa [longer] at later

/-! ### Restorable types -/

theorem Ty.Restores.of_flat {t : Ty} (flat : t.Flat) : t.Restores := by
  intro v plain inArray below _
  rw [t.unpack_flat flat plain]
  exact ⟨rfl, .refl _⟩

theorem Ty.Restores.seq {elem : Ty} (flat : elem.Flat) : (Ty.seq elem).Restores := by
  intro v plain inArray below _
  have valid := Ty.Restorable.valid (.seq elem) flat
  rw [Ty.signature] at valid
  simp only [Ty.unpack, Ty.node, Ty.empty, enterContainer_next valid, Sig.isArray]
  have enough : v.length < Reader.size (⟨true, v.map elem.node⟩ :: ⟨inArray, []⟩ :: below) + 1 := by
    have length := length_le_countAll (v.map elem.node)
    simp only [List.length_map] at length
    simp only [Reader.size_cons]
    omega
  obtain ⟨same, drained⟩ := unpackEach_spec flat plain enough (⟨inArray, []⟩ :: below) elem.empty []
  exact ⟨same, drained.exit_of_end⟩

theorem Ty.Restores.map {key value : Ty} (basic : key.IsBasic) (good : value.Restorable)
    (restores : value.Restores) : (Ty.map key value).Restores := by
  intro v plain inArray below bigger
  have valid := Ty.Restorable.valid (.map key value) ⟨basic, good⟩
  rw [Ty.signature] at valid bigger
  simp only [Ty.unpack, Ty.node, Ty.empty, enterContainer_next valid, Sig.isArray]
  have enough : v.1.length < Reader.size (⟨true, v.1.map fun e =>
      .container (.entry key.signature value.signature) [key.node e.1, value.node e.2]⟩ ::
      ⟨inArray, []⟩ :: below) + 1 := by
    have length := length_le_countAll (v.1.map fun e =>
      .container (.entry key.signature value.signature) [key.node e.1, value.node e.2])
    simp only [List.length_map] at length
    simp only [Reader.size_cons]
    omega
  have smaller : sizeOf (Sig.entry key.signature value.signature) ≤
      sizeOf (Sig.array (.entry key.signature value.signature)) := by simp
  have new : (((Ty.map key value).empty.1 ++ v.1).map Prod.fst).Nodup := v.2
  obtain ⟨same, drained⟩ := unpackEntries_spec basic (Ty.Restorable.valid value good) restores
    (bigger.mono smaller) plain enough (.refl _) new
  exact ⟨Subtype.ext same, drained.exit_of_end⟩

theorem Tys.Vacant.nodes_eq_nil : {ts : Tys} → {selected : ℕ → Bool} → ts.Vacant selected →
    (v : ts.Val) → ts.nodes selected v = []
  | .nil, _, _, _ => by simp [Tys.nodes]
  | .cons _ _, _, vacant, v => by simp [Tys.nodes, vacant.1, nodes_eq_nil vacant.2 v.2]

theorem Tys.Vacant.agree : {ts : Tys} → {selected : ℕ → Bool} → ts.Vacant selected →
    (v v' : ts.Val) → ts.Agree selected v v'
  | .nil, _, _, _, _ => trivial
  | .cons _ _, _, vacant, v, v' =>
    ⟨fun chosen => absurd (vacant.1.symm.trans chosen) Bool.false_ne_true, agree vacant.2 v.2 v'.2⟩

/-- One more argument: it is flat, or the last one that is selected. -/
theorem Tys.Restores.cons {first : Ty} {rest : Tys} {selected : ℕ → Bool}
    (good : (Tys.cons first rest).Restorable selected) (head : selected 0 → first.Restores)
    (tail : rest.Restores fun i => selected (i + 1)) : (Tys.cons first rest).Restores selected := by
  intro v plain inArray below bigger
  rw [Tys.signature] at bigger
  have tailBigger : Bigger (sizeOf rest.signature) below := bigger.mono (by simp)
  have headBigger : Bigger (sizeOf first.signature) below := bigger.mono (by simp; omega)
  obtain ⟨agree, drained⟩ := tail v.2 plain.2 inArray below tailBigger
  cases chosen : selected 0 with
  | false =>
    simp only [Tys.unpackall, Tys.nodes, Tys.empty, chosen, Bool.false_eq_true, if_false,
      zero_lt_one, if_true]
    exact ⟨⟨fun chosen' => absurd (chosen.symm.trans chosen') Bool.false_ne_true, agree⟩, drained⟩
  | true =>
    simp only [Tys.unpackall, Tys.nodes, Tys.empty, chosen, if_true]
    by_cases flat : first.Flat
    · simp only [first.unpack_flat flat (plain.1 chosen), zero_lt_one, if_true]
      exact ⟨⟨fun _ => rfl, agree⟩, drained⟩
    · have last := (good.1 chosen).2.resolve_left flat
      rw [last.nodes_eq_nil]
      obtain ⟨same, drained'⟩ := head chosen v.1 (plain.1 chosen) inArray below headBigger
      rw [if_neg fun positive => flat (first.flat_of_ret_pos positive)]
      exact ⟨⟨fun _ => same, last.agree _ _⟩, drained'⟩

theorem Ty.Restores.struct {first : Ty} {rest : Tys} (good : (Ty.struct first rest).Restorable)
    (restores : (Tys.cons first rest).Restores fun _ => true) : (Ty.struct first rest).Restores := by
  intro v plain inArray below bigger
  have valid := Ty.Restorable.valid _ good
  have members : (Ty.struct first rest).node v = .container (Ty.struct first rest).signature
      ((Tys.cons first rest).nodes (fun _ => true) v) := by
    simp [Ty.node, Tys.nodes, Ty.signature]
  have smaller : sizeOf (Tys.cons first rest).signature ≤ sizeOf (Ty.struct first rest).signature := by
    simp [Ty.signature, Tys.signature]
  obtain ⟨agree, drained⟩ := restores v ⟨fun _ => plain.1, plain.2⟩ false (⟨inArray, []⟩ :: below)
    (bigger.mono smaller).cons_end
  rw [Ty.unpack_struct, members, enterContainer_next valid]
  exact ⟨Tys.agree_all.mp agree, drained.exit_of_end⟩

mutual

/-- A value of a restorable type that is last in its container comes back. -/
theorem Ty.Restorable.restores : (t : Ty) → t.Restorable → t.Restores
  | .simple _, _ => .of_flat trivial
  | .string, _ => .of_flat trivial
  | .seq _, flat => .seq flat
  | .map _ value, good => .map good.1 good.2 (Ty.Restorable.restores value good.2)
  | .struct first rest, good =>
    .struct good (.cons ⟨fun _ => ⟨good.1, good.2.1⟩, good.2.2⟩
      (fun _ => Ty.Restorable.restores first good.1) (Tys.Restorable.restores rest good.2.2))

theorem Tys.Restorable.restores : (ts : Tys) → {selected : ℕ → Bool} → ts.Restorable selected →
    ts.Restores selected
  | .nil, _, _ => fun _ _ _ _ _ => ⟨trivial, by simpa [Tys.unpackall, Tys.nodes] using .refl _⟩
  | .cons first rest, _, good =>
    .cons good (fun chosen => Ty.Restorable.restores first (good.1 chosen).1)
      (Tys.Restorable.restores rest good.2)

end

/-! ### Messages -/

/-- A message with one value, unpacked into a new object. -/
def Ty.RoundTrips (t : Ty) (v : t.Val) : Prop :=
  (t.unpack (t.pack v .new).2.sealed t.empty).val = v

instance (t : Ty) (v : t.Val) : Decidable (t.RoundTrips v) :=
  inferInstanceAs (Decidable (_ = v))

/-- A message with the selected arguments, unpacked into new objects. -/
def Tys.RoundTrips (ts : Tys) (selected : ℕ → Bool) (v : ts.Val) : Prop :=
  ts.Agree selected (ts.unpackall selected (ts.packall selected v .new).2.sealed ts.empty).val v

instance (ts : Tys) (selected : ℕ → Bool) (v : ts.Val) : Decidable (ts.RoundTrips selected v) :=
  ts.decAgree selected _ v

theorem Bigger.nil (size : ℕ) : Bigger size [] := fun _ member => absurd member List.not_mem_nil

theorem Ty.roundTrips_of_restorable {t : Ty} (good : t.Restorable) {v : t.Val} (plain : t.NulFree v) :
    t.RoundTrips v := by
  rw [RoundTrips, t.pack_eq good]
  exact (Ty.Restorable.restores t good v plain false [] (.nil _)).1

theorem Tys.roundTrips_of_restorable {ts : Tys} {selected : ℕ → Bool}
    (good : ts.Restorable selected) {v : ts.Val} (plain : ts.NulFree selected v) :
    ts.RoundTrips selected v := by
  rw [RoundTrips, ts.packall_eq good, Writer.appendAll_new]
  exact (Tys.Restorable.restores ts good v plain false [] (.nil _)).1

theorem Ty.RoundTrips.attainable {t : Ty} {v : t.Val} (restored : t.RoundTrips v) :
    t.Attainable v := by
  rw [RoundTrips] at restored
  exact restored ▸ t.unpack_attainable t.empty_attainable

theorem Tys.RoundTrips.attainable {ts : Tys} {selected : ℕ → Bool} {v : ts.Val}
    (restored : ts.RoundTrips selected v) : ts.Attainable selected v :=
  (ts.unpackall_attainable ts.empty_attainable).congr restored

/-- Only values without embedded terminators come back, and all of them do exactly where the type is
restorable; the same for argument lists. -/
theorem roundTrips_iff_restorable (t : Ty) (ts : Tys) (selected : ℕ → Bool) :
    ((∀ v, t.RoundTrips v → t.NulFree v) ∧
      ((∀ v, t.NulFree v → t.RoundTrips v) ↔ t.Restorable)) ∧
    (∀ v, ts.RoundTrips selected v → ts.NulFree selected v) ∧
      ((∀ v, ts.NulFree selected v → ts.RoundTrips selected v) ↔ ts.Restorable selected) := by
  refine ⟨⟨fun v restored => restored.attainable.nulFree, ?_⟩,
    fun v restored => restored.attainable.nulFree, ?_⟩
  · constructor
    · intro all
      by_contra bad
      obtain ⟨v, plain, out⟩ := t.exists_not_attainable bad
      exact out (all v plain).attainable
    · intro good v plain
      exact Ty.roundTrips_of_restorable good plain
  · constructor
    · intro all
      by_contra bad
      obtain ⟨v, plain, out⟩ := ts.exists_not_attainable bad
      exact out (all v plain).attainable
    · intro good v plain
      exact Tys.roundTrips_of_restorable good plain

/-- A map from strings to structs that end in a sequence comes back. -/
example : (Ty.map .string (.struct (.simple .int32) (.cons
    (.seq (.struct (.struct (.simple .bool) .nil) .nil)) .nil))).RoundTrips
    ⟨[([97], (⟨7, by decide⟩, [((true, ()), ()), ((false, ()), ())], ())),
      ([98], (⟨8, by decide⟩, [((true, ()), ())], ()))], by decide⟩ := by
  decide +kernel

/-- A sequence of sequences comes back empty, and what follows a sequence is not read. -/
theorem not_roundTrips_nested :
    ¬(Ty.seq (.seq (.simple .int32))).RoundTrips [[⟨1, by decide⟩], [⟨2, by decide⟩]] ∧
    ¬(Tys.cons (.seq (.simple .int32)) (.cons (.simple .int32) .nil)).RoundTrips (fun _ => true)
      ([], ⟨1, by decide⟩, ()) := by
  decide +kernel

end AmlCommonlib.Dbus
