import AmlCommonlib.Dbus.RoundTrip
import AmlCommonlib.Dbus.TypeInfo

/-! # Which descriptions decode what they encode

An array that meets its end returns 0, which only a struct takes for success, and a struct that meets
the end of an array leaves it as if it had entered itself. So an array may hold basic values and
structs of these, and only at the very end of a message the latter: what its elements leave too many
are the containers around it.
-/

namespace AmlCommonlib.Dbus

mutual

/-- `unpack` takes one node in any place: the arrays hold basic values only. -/
def Ty.Exact : Ty → Prop
  | .simple _ | .string => True
  | .seq elem => elem.IsBasic
  | .map _ _ => False
  | .struct first rest => first.Exact ∧ rest.Exact

def Tys.Exact : Tys → Prop
  | .nil => True
  | .cons first rest => first.Exact ∧ rest.Exact

end

mutual

/-- Basic values, and structs of these of which the last member may again be such a struct. -/
def Ty.Chain : Ty → Prop
  | .simple _ | .string => True
  | .seq _ | .map _ _ => False
  | .struct first rest => (first.IsBasic ∨ rest = .nil ∧ first.Chain) ∧ rest.Chain

def Tys.Chain : Tys → Prop
  | .nil => True
  | .cons first rest => (first.IsBasic ∨ rest = .nil ∧ first.Chain) ∧ rest.Chain

end

mutual

/-- The descriptions all of whose values come back: exact ones, but for an array of chains in the last
place. -/
def Ty.Decodable : Ty → Prop
  | .simple _ | .string => True
  | .seq elem => elem.Chain
  | .map _ _ => False
  | .struct first rest => (first.Exact ∨ rest = .nil ∧ first.Decodable) ∧ rest.Decodable

def Tys.Decodable : Tys → Prop
  | .nil => True
  | .cons first rest => (first.Exact ∨ rest = .nil ∧ first.Decodable) ∧ rest.Decodable

end

/-- The containers that `unpack` leaves without looking. -/
def Ty.pops : Ty → ℕ
  | .seq _ | .struct _ _ => 1
  | .simple _ | .string | .map _ _ => 0

mutual

/-- Descriptions that find nothing at the end of an array and do not fail there. -/
def Ty.Quiet : Ty → Prop
  | .simple _ | .string | .map _ _ => True
  | .seq _ => False
  | .struct first rest => (first.pops = 0 ∨ rest = .nil ∧ first.Quiet) ∧ rest.Quiet

def Tys.Quiet : Tys → Prop
  | .nil => True
  | .cons first rest => (first.pops = 0 ∨ rest = .nil ∧ first.Quiet) ∧ rest.Quiet

end

/-- What holds of the descriptions of the selected arguments. -/
def Tys.All (p : Ty → Prop) : Tys → (ℕ → Bool) → Prop
  | .nil, _ => True
  | .cons first rest, selected => (selected 0 → p first) ∧ rest.All p fun i => selected (i + 1)

mutual

/-- What `unpack` returns if it succeeds. -/
def Ty.status : Ty → ℤ
  | .simple _ | .string => 1
  | .seq _ | .map _ _ => 0
  | .struct first rest => rest.status first.status

def Tys.status : Tys → ℤ → ℤ
  | .nil, r => r
  | .cons first rest, _ => rest.status first.status

end

/-! ### What `pack` writes -/

mutual

/-- The node of an object. -/
def Ty.dataNode : (t : Ty) → t.CVal → Node
  | .simple s, v => .basic s.code (s.toCT v)
  | .string, v => .string v
  | .seq elem, v => .container (.array elem.signature) (v.map elem.dataNode)
  | .map key value, v =>
    .container (.array (.entry key.signature value.signature)) (v.map fun e =>
      .container (.entry key.signature value.signature) [key.dataNode e.1, value.dataNode e.2])
  | .struct first rest, v =>
    .container (.struct (.cons first.signature rest.signature))
      (first.dataNode v.1 :: rest.dataNodes (fun _ => true) v.2)

/-- The nodes of the selected arguments. -/
def Tys.dataNodes : (ts : Tys) → (ℕ → Bool) → ts.CVal → List Node
  | .nil, _, _ => []
  | .cons first rest, selected, v =>
    (if selected 0 then [first.dataNode v.1] else []) ++
      rest.dataNodes (fun i => selected (i + 1)) v.2

end

theorem dataPackEach_eq {α : Type} {pack : α → Writer → ℤ × Writer} {node : α → Node} {xs : List α}
    (each : ∀ x w, pack x w = (0, w.append (node x))) (w : Writer) :
    dataPackEach pack xs 0 w = (0, w.appendAll (xs.map node)) := by
  induction xs generalizing w with
  | nil => rfl
  | cons x xs ih => simp [dataPackEach, each, ih]

theorem dataPackEntries_eq {K V : Type} {sig : Sig} {packKey : K → Writer → ℤ × Writer}
    {packValue : V → Writer → ℤ × Writer} {key : K → Node} {value : V → Node} (valid : sig.valid)
    (keys : ∀ k w, packKey k w = (0, w.append (key k)))
    (values : ∀ v w, packValue v w = (0, w.append (value v))) (es : List (K × V)) (w : Writer) :
    dataPackEntries sig packKey packValue es 0 w =
      (0, w.appendAll (es.map fun e => .container sig [key e.1, value e.2])) := by
  induction es generalizing w with
  | nil => rfl
  | cons e es ih =>
    have entry := closeContainer_appendAll sig [key e.1, value e.2] w
    simp only [Writer.appendAll_cons, Writer.appendAll_nil] at entry
    simp only [dataPackEntries, le_refl, if_true, openContainer, valid, keys, values, entry, ih,
      List.map_cons, Writer.appendAll_cons]

theorem Tys.all_valid : (ts : Tys) → ts.signature.valid → {selected : ℕ → Bool} →
    ts.All (fun t => t.signature.valid) selected
  | .nil, _, _ => trivial
  | .cons first rest, valid, _ => by
    obtain ⟨head, tail⟩ : first.signature.valid ∧ rest.signature.valid := by
      simpa [Tys.signature, Sigs.valid] using valid
    exact ⟨fun _ => head, rest.all_valid tail⟩

mutual

/-- `pack` appends the node of the object where the message accepts the signature. -/
theorem Ty.dataPack_eq : (t : Ty) → t.signature.valid → (v : t.CVal) → (w : Writer) →
    t.dataPack v w = (0, w.append (t.dataNode v))
  | .simple _, _, _, _ => by simp [Ty.dataPack, appendBasic, Ty.dataNode]
  | .string, _, _, _ => by simp [Ty.dataPack, appendString, Ty.dataNode]
  | .seq elem, valid, v, w => by
    have inner : elem.signature.valid := by simpa [Ty.signature, Sig.valid] using valid
    rw [Ty.signature] at valid
    simp only [Ty.dataPack, openContainer, valid, if_true, dataPackEach_eq (elem.dataPack_eq inner),
      closeContainer_appendAll, Ty.dataNode]
  | .map key value, valid, v, w => by
    rw [Ty.signature] at valid
    have inner : (Sig.entry key.signature value.signature).valid := by simpa [Sig.valid] using valid
    obtain ⟨basic, inner'⟩ : key.IsBasic ∧ value.signature.valid := by
      simpa [Sig.valid, Ty.signature_isBasic] using inner
    have keyValid : key.signature.valid := by
      cases key <;> simp_all [Ty.IsBasic, Ty.signature, Sig.valid]
    simp only [Ty.dataPack, openContainer, valid, if_true, lt_irrefl, if_false,
      dataPackEntries_eq inner (key.dataPack_eq keyValid) (value.dataPack_eq inner'),
      closeContainer_appendAll, Ty.dataNode]
  | .struct first rest, valid, v, w => by
    obtain ⟨head, tail⟩ : first.signature.valid ∧ rest.signature.valid := by
      simpa [Ty.signature, Sig.valid, Sigs.valid] using valid
    rw [Ty.signature] at valid
    simp only [Ty.dataPack, openContainer, valid, if_true, le_refl, first.dataPack_eq head,
      rest.ambusPackAll_eq (rest.all_valid tail), Ty.dataNode]
    exact Prod.ext rfl (closeContainer_appendAll _ (first.dataNode v.1 :: _) w)

theorem Tys.ambusPackAll_eq : (ts : Tys) → {selected : ℕ → Bool} →
    ts.All (fun t => t.signature.valid) selected → (v : ts.CVal) → (w : Writer) →
    ts.ambusPackAll selected 0 v w = (0, w.appendAll (ts.dataNodes selected v))
  | .nil, _, _, _, _ => by simp [Tys.ambusPackAll, Tys.dataNodes]
  | .cons first rest, selected, ⟨head, tail⟩, v, w => by
    cases chosen : selected 0 with
    | true =>
      simp only [Tys.ambusPackAll, Tys.dataNodes, chosen, if_true, le_refl,
        first.dataPack_eq (head chosen), rest.ambusPackAll_eq tail, List.singleton_append,
        Writer.appendAll_cons]
    | false =>
      simp only [Tys.ambusPackAll, Tys.dataNodes, chosen, Bool.false_eq_true, if_false, le_refl,
        if_true, rest.ambusPackAll_eq tail, List.nil_append]

end

/-- `pack` fails where the message does not accept the signature. -/
theorem Ty.dataPack_neg {t : Ty} (refused : ¬t.signature.valid) (v : t.CVal) (w : Writer) :
    (t.dataPack v w).1 < 0 := by
  have negative : ¬(0 ≤ einval) := by decide
  cases t with
  | simple s => simp [Ty.signature, Sig.valid] at refused
  | string => simp [Ty.signature, Sig.valid] at refused
  | seq elem =>
    rw [Ty.signature] at refused
    cases v <;> simp [Ty.dataPack, openContainer, refused, dataPackEach, einval]
  | map key value =>
    rw [Ty.signature] at refused
    simp [Ty.dataPack, openContainer, refused, einval]
  | struct first rest =>
    rw [Ty.signature] at refused
    simp [Ty.dataPack, openContainer, refused, einval]

/-! ### Exact descriptions -/

def Tys.written : (ts : Tys) → ts.CVal → ts.Written
  | .nil, _ => ()
  | .cons _ rest, v => (some v.1, rest.written v.2)

@[simp] theorem Tys.complete_written : (ts : Tys) → (v : ts.CVal) →
    ts.complete (ts.written v) = some v
  | .nil, _ => rfl
  | .cons _ rest, v => by simp [complete, written, rest.complete_written v.2]

/-- The fields of a struct are arguments that are all unpacked. -/
theorem Ty.dataUnpack_struct {first : Ty} {rest : Tys} {m : Reader} :
    (Ty.struct first rest).dataUnpack m =
      let entered := enterContainer (Ty.struct first rest).signature m
      let us := (Tys.cons first rest).ambusUnpackAll (fun _ => true) entered.1 entered.2
      ⟨us.ret, (Tys.cons first rest).complete us.val, leaveContainer us.msg⟩ := by
  simp only [Ty.dataUnpack, Tys.ambusUnpackAll, Ty.signature, if_true]
  split_ifs <;> rfl

theorem Ty.dataNode_struct {first : Ty} {rest : Tys} {v : (Ty.struct first rest).CVal} :
    (Ty.struct first rest).dataNode v = .container (Ty.struct first rest).signature
      ((Tys.cons first rest).dataNodes (fun _ => true) v) := by
  simp [Ty.dataNode, Tys.dataNodes, Ty.signature]

mutual

theorem Ty.status_nonneg : (t : Ty) → 0 ≤ t.status
  | .simple _ | .string => by simp [Ty.status]
  | .seq _ | .map _ _ => by simp [Ty.status]
  | .struct first rest => by
    rw [Ty.status]
    exact rest.status_nonneg first.status_nonneg

theorem Tys.status_nonneg : (ts : Tys) → {r : ℤ} → 0 ≤ r → 0 ≤ ts.status r
  | .nil, _, nonneg => nonneg
  | .cons first rest, _, _ => by
    rw [Tys.status]
    exact rest.status_nonneg first.status_nonneg

end

theorem Ty.IsBasic.dataUnpack {t : Ty} (basic : t.IsBasic) (v : t.CVal) (inArray : Bool)
    (rest : List Node) (below : Reader) :
    t.dataUnpack (⟨inArray, t.dataNode v :: rest⟩ :: below) = ⟨1, some v, ⟨inArray, rest⟩ :: below⟩ := by
  cases t with
  | simple s => simp [Ty.dataUnpack, Ty.dataNode, s.ofCT_toCT]
  | string => simp [Ty.dataUnpack, Ty.dataNode]
  | _ => exact basic.elim

theorem Ty.IsBasic.dataUnpack_end {t : Ty} (basic : t.IsBasic) (below : Reader) :
    t.dataUnpack (⟨true, []⟩ :: below) = ⟨0, none, ⟨true, []⟩ :: below⟩ := by
  cases t with
  | simple s => simp [Ty.dataUnpack, readBasic, take]
  | string => simp [Ty.dataUnpack, readString, take]
  | _ => exact basic.elim

/-- The loop over an array takes its elements and stops where the next one returns 0. -/
theorem dataUnpackEach_spec {α : Type} {unpack : Reader → Unpacked (Option α)} {node : α → Node}
    {below : Reader} {last : Option α} {m : Reader} {xs : List α}
    (each : ∀ x rest, unpack (⟨true, node x :: rest⟩ :: below) = ⟨1, some x, ⟨true, rest⟩ :: below⟩)
    (stop : unpack (⟨true, []⟩ :: below) = ⟨0, last, m⟩) {fuel : ℕ} (enough : xs.length < fuel) :
    dataUnpackEach unpack fuel (⟨true, xs.map node⟩ :: below) = ⟨0, some xs, m⟩ := by
  induction xs generalizing fuel with
  | nil =>
    obtain ⟨fuel, rfl⟩ := Nat.exists_eq_succ_of_ne_zero (Nat.ne_of_gt enough)
    simp [dataUnpackEach, stop]
  | cons x xs ih =>
    obtain ⟨fuel, rfl⟩ := Nat.exists_eq_succ_of_ne_zero (Nat.ne_of_gt (Nat.zero_lt_of_lt enough))
    simp [dataUnpackEach, each, ih (Nat.lt_of_succ_lt_succ enough)]

theorem Ty.dataUnpack_seq {elem : Ty} (valid : elem.signature.valid) (v : List elem.CVal)
    (inArray : Bool) (rest : List Node) {below : Reader} {last : Option elem.CVal} {m : Reader}
    (each : ∀ x more, elem.dataUnpack (⟨true, elem.dataNode x :: more⟩ :: ⟨inArray, rest⟩ :: below) =
      ⟨1, some x, ⟨true, more⟩ :: ⟨inArray, rest⟩ :: below⟩)
    (stop : elem.dataUnpack (⟨true, []⟩ :: ⟨inArray, rest⟩ :: below) = ⟨0, last, m⟩) :
    (Ty.seq elem).dataUnpack (⟨inArray, (Ty.seq elem).dataNode v :: rest⟩ :: below) =
      ⟨0, some v, leaveContainer m⟩ := by
  have valid' : (Sig.array elem.signature).valid := by simpa [Sig.valid] using valid
  have enough : v.length <
      Reader.size (⟨true, v.map elem.dataNode⟩ :: ⟨inArray, rest⟩ :: below) + 1 := by
    have length := length_le_countAll (v.map elem.dataNode)
    simp only [List.length_map] at length
    simp only [Reader.size_cons]
    omega
  simp only [Ty.dataUnpack, Ty.dataNode, enterContainer_next valid', Sig.isArray,
    dataUnpackEach_spec each stop enough]

theorem Ty.IsBasic.valid {t : Ty} (basic : t.IsBasic) : t.signature.valid := by
  cases t <;> simp_all [Ty.IsBasic, Ty.signature, Sig.valid]

mutual

theorem Ty.Exact.valid : (t : Ty) → t.Exact → t.signature.valid
  | .simple _, _ | .string, _ => by simp [Ty.signature, Sig.valid]
  | .seq elem, basic => by
    simpa [Ty.signature, Sig.valid] using Ty.IsBasic.valid basic
  | .struct first rest, ⟨head, tail⟩ => by
    simpa [Ty.signature, Sig.valid, Sigs.valid] using
      ⟨Ty.Exact.valid first head, Tys.Exact.valid rest tail⟩

theorem Tys.Exact.valid : (ts : Tys) → ts.Exact → ts.signature.valid
  | .nil, _ => by simp [Tys.signature, Sigs.valid]
  | .cons first rest, ⟨head, tail⟩ => by
    simpa [Tys.signature, Sigs.valid] using
      ⟨Ty.Exact.valid first head, Tys.Exact.valid rest tail⟩

end

/-- One more field. -/
theorem Tys.ambusUnpackAll_cons {first : Ty} {tail : Tys} {r : ℤ} (nonneg : 0 ≤ r)
    {v : (Tys.cons first tail).CVal} {inArray : Bool} {rest : List Node} {below m m' : Reader}
    (head : first.dataUnpack
      (⟨inArray, first.dataNode v.1 :: (tail.dataNodes (fun _ => true) v.2 ++ rest)⟩ :: below) =
        ⟨first.status, some v.1, m⟩)
    (later : tail.ambusUnpackAll (fun _ => true) first.status m =
      ⟨tail.status first.status, tail.written v.2, m'⟩) :
    (Tys.cons first tail).ambusUnpackAll (fun _ => true) r
      (⟨inArray, (Tys.cons first tail).dataNodes (fun _ => true) v ++ rest⟩ :: below) =
        ⟨(Tys.cons first tail).status r, (Tys.cons first tail).written v, m'⟩ := by
  simp only [ambusUnpackAll, dataNodes, nonneg, if_true, List.cons_append, List.nil_append, head,
    later, status, written]

/-- A struct, given what its fields do. -/
theorem Ty.dataUnpack_struct_of {first : Ty} {tail : Tys}
    (valid : (Ty.struct first tail).signature.valid) {v : (Ty.struct first tail).CVal}
    {inArray : Bool} {rest : List Node} {below m : Reader}
    (fields : (Tys.cons first tail).ambusUnpackAll (fun _ => true) 1
      (⟨false, (Tys.cons first tail).dataNodes (fun _ => true) v ++ []⟩ :: ⟨inArray, rest⟩ :: below) =
        ⟨(Tys.cons first tail).status 1, (Tys.cons first tail).written v, m⟩) :
    (Ty.struct first tail).dataUnpack
      (⟨inArray, (Ty.struct first tail).dataNode v :: rest⟩ :: below) =
        ⟨(Ty.struct first tail).status, some v, leaveContainer m⟩ := by
  rw [List.append_nil] at fields
  rw [dataUnpack_struct, dataNode_struct, enterContainer_next valid]
  simp only [signature, Sig.isArray, fields, Tys.complete_written, status, Tys.status]

mutual

/-- `unpack` of an exact description takes its node and nothing else, in any place. -/
theorem Ty.Exact.dataUnpack : (t : Ty) → t.Exact → (v : t.CVal) → (inArray : Bool) →
    (rest : List Node) → (below : Reader) →
    t.dataUnpack (⟨inArray, t.dataNode v :: rest⟩ :: below) =
      ⟨t.status, some v, ⟨inArray, rest⟩ :: below⟩
  | .simple s, _, v, inArray, rest, below =>
    @Ty.IsBasic.dataUnpack (.simple s) trivial v inArray rest below
  | .string, _, v, inArray, rest, below =>
    @Ty.IsBasic.dataUnpack .string trivial v inArray rest below
  | .seq elem, basic, v, inArray, rest, _ =>
    elem.dataUnpack_seq (Ty.IsBasic.valid basic) v inArray rest
      (fun x more => Ty.IsBasic.dataUnpack basic x true more _) (Ty.IsBasic.dataUnpack_end basic _)
  | .struct first tail, good, v, _, _, _ =>
    Ty.dataUnpack_struct_of (Ty.Exact.valid (.struct first tail) good)
      (Tys.ambusUnpackAll_cons one_pos.le (Ty.Exact.dataUnpack first good.1 v.1 false _ _)
        (Tys.Exact.ambusUnpackAll tail good.2 first.status_nonneg v.2 false [] _))

theorem Tys.Exact.ambusUnpackAll : (ts : Tys) → ts.Exact → {r : ℤ} → 0 ≤ r → (v : ts.CVal) →
    (inArray : Bool) → (rest : List Node) → (below : Reader) →
    ts.ambusUnpackAll (fun _ => true) r (⟨inArray, ts.dataNodes (fun _ => true) v ++ rest⟩ :: below) =
      ⟨ts.status r, ts.written v, ⟨inArray, rest⟩ :: below⟩
  | .nil, _, _, _, _, _, _, _ => by simp [Tys.ambusUnpackAll, Tys.dataNodes, Tys.status, Tys.written]
  | .cons first tail, good, _, nonneg, v, inArray, rest, below =>
    Tys.ambusUnpackAll_cons nonneg (Ty.Exact.dataUnpack first good.1 v.1 inArray _ below)
      (Tys.Exact.ambusUnpackAll tail good.2 first.status_nonneg v.2 inArray rest below)

end

/-! ### Chains -/

theorem Ty.IsBasic.exact {t : Ty} (basic : t.IsBasic) : t.Exact := by
  cases t <;> simp_all [Ty.IsBasic, Ty.Exact]

mutual

theorem Ty.Chain.exact : (t : Ty) → t.Chain → t.Exact
  | .simple _, _ | .string, _ => trivial
  | .struct first rest, ⟨head, tail⟩ =>
    ⟨head.elim Ty.IsBasic.exact fun last => Ty.Chain.exact first last.2, Tys.Chain.exact rest tail⟩

theorem Tys.Chain.exact : (ts : Tys) → ts.Chain → ts.Exact
  | .nil, _ => trivial
  | .cons first rest, ⟨head, tail⟩ =>
    ⟨head.elim Ty.IsBasic.exact fun last => Ty.Chain.exact first last.2, Tys.Chain.exact rest tail⟩

end

theorem Ty.IsBasic.status {t : Ty} (basic : t.IsBasic) : t.status = 1 := by
  cases t <;> simp_all [Ty.IsBasic, Ty.status]

mutual

theorem Ty.Chain.status : (t : Ty) → t.Chain → t.status = 1
  | .simple _, _ | .string, _ => by simp [Ty.status]
  | .struct first rest, ⟨head, tail⟩ => by
    rw [Ty.status, head.elim Ty.IsBasic.status fun last => Ty.Chain.status first last.2]
    exact Tys.Chain.status rest tail

theorem Tys.Chain.status : (ts : Tys) → ts.Chain → ts.status 1 = 1
  | .nil, _ => rfl
  | .cons first rest, ⟨head, tail⟩ => by
    rw [Tys.status, head.elim Ty.IsBasic.status fun last => Ty.Chain.status first last.2]
    exact Tys.Chain.status rest tail

end

/-- At the end of an array `unpack` returns 0 and leaves some containers. -/
def Ty.Overleaves (t : Ty) (below : Reader) : Prop :=
  ∃ last k, t.dataUnpack (⟨true, []⟩ :: below) = ⟨0, last, leaveContainer^[k] (⟨true, []⟩ :: below)⟩

def Tys.Overleaves (ts : Tys) (below : Reader) : Prop :=
  ∃ last k, ts.ambusUnpackAll (fun _ => true) 0 (⟨true, []⟩ :: below) =
    ⟨0, last, leaveContainer^[k] (⟨true, []⟩ :: below)⟩

/-- Basic values and maps leave no container that they did not enter. -/
theorem Ty.dataUnpack_end_of_pops {t : Ty} (pops : t.pops = 0) (below : Reader) :
    ∃ last, t.dataUnpack (⟨true, []⟩ :: below) = ⟨0, last, ⟨true, []⟩ :: below⟩ := by
  cases t with
  | simple s => exact ⟨none, @IsBasic.dataUnpack_end (.simple s) trivial below⟩
  | string => exact ⟨none, @IsBasic.dataUnpack_end .string trivial below⟩
  | map key value =>
    exact ⟨some [], by simp [dataUnpack, enterContainer, Dbus.take, dataUnpackEntries]⟩
  | seq elem => exact absurd pops (by simp [Ty.pops])
  | struct first rest => exact absurd pops (by simp [Ty.pops])

theorem Ty.Overleaves.of_pops {t : Ty} (pops : t.pops = 0) (below : Reader) : t.Overleaves below := by
  obtain ⟨last, stay⟩ := dataUnpack_end_of_pops pops below
  exact ⟨last, 0, stay⟩

theorem Tys.Overleaves.cons {first : Ty} {tail : Tys} {below : Reader}
    (head : first.pops = 0 ∨ tail = .nil ∧ first.Overleaves below) (later : tail.Overleaves below) :
    (Tys.cons first tail).Overleaves below := by
  obtain pops | ⟨rfl, last, k, met⟩ := head
  · obtain ⟨last, stay⟩ := Ty.dataUnpack_end_of_pops pops below
    obtain ⟨lasts, k, met⟩ := later
    refine ⟨(last, lasts), k, ?_⟩
    simp only [ambusUnpackAll, le_refl, if_true, stay, met]
  · refine ⟨(last, ()), k, ?_⟩
    simp only [ambusUnpackAll, le_refl, if_true, met]

theorem enterContainer_end (sig : Sig) (below : Reader) :
    enterContainer sig (⟨true, []⟩ :: below) = (0, ⟨true, []⟩ :: below) := by
  simp [enterContainer, take]

theorem Ty.Overleaves.struct {first : Ty} {tail : Tys} {below : Reader}
    (fields : (Tys.cons first tail).Overleaves below) : (Ty.struct first tail).Overleaves below := by
  obtain ⟨last, k, met⟩ := fields
  refine ⟨(Tys.cons first tail).complete last, k + 1, ?_⟩
  rw [dataUnpack_struct, enterContainer_end, Function.iterate_succ_apply']
  simp only [met]

mutual

theorem Ty.Quiet.overleaves : (t : Ty) → t.Quiet → (below : Reader) → t.Overleaves below
  | .simple s, _, below => @Ty.Overleaves.of_pops (.simple s) (by rw [Ty.pops]) below
  | .string, _, below => @Ty.Overleaves.of_pops .string (by rw [Ty.pops]) below
  | .map key value, _, below => @Ty.Overleaves.of_pops (.map key value) (by rw [Ty.pops]) below
  | .struct first tail, ⟨head, later⟩, below =>
    .struct (.cons (head.imp_right fun last => ⟨last.1, Ty.Quiet.overleaves first last.2 below⟩)
      (Tys.Quiet.overleaves tail later below))

theorem Tys.Quiet.overleaves : (ts : Tys) → ts.Quiet → (below : Reader) → ts.Overleaves below
  | .nil, _, _ => ⟨(), 0, by simp [Tys.ambusUnpackAll]⟩
  | .cons first tail, ⟨head, later⟩, below =>
    .cons (head.imp_right fun last => ⟨last.1, Ty.Quiet.overleaves first last.2 below⟩)
      (Tys.Quiet.overleaves tail later below)

end

theorem Ty.IsBasic.pops {t : Ty} (basic : t.IsBasic) : t.pops = 0 := by
  cases t <;> simp_all [Ty.IsBasic, Ty.pops]

mutual

theorem Ty.Chain.quiet : (t : Ty) → t.Chain → t.Quiet
  | .simple _, _ | .string, _ => trivial
  | .struct first rest, ⟨head, tail⟩ =>
    ⟨head.imp Ty.IsBasic.pops fun last => ⟨last.1, Ty.Chain.quiet first last.2⟩,
      Tys.Chain.quiet rest tail⟩

theorem Tys.Chain.quiet : (ts : Tys) → ts.Chain → ts.Quiet
  | .nil, _ => trivial
  | .cons first rest, ⟨head, tail⟩ =>
    ⟨head.imp Ty.IsBasic.pops fun last => ⟨last.1, Ty.Chain.quiet first last.2⟩,
      Tys.Chain.quiet rest tail⟩

end

/-! ### Decodable descriptions -/

mutual

theorem Ty.Decodable.valid : (t : Ty) → t.Decodable → t.signature.valid
  | .simple _, _ | .string, _ => by simp [Ty.signature, Sig.valid]
  | .seq elem, chain => by
    simpa [Ty.signature, Sig.valid] using Ty.Exact.valid elem (Ty.Chain.exact elem chain)
  | .struct first rest, ⟨head, tail⟩ => by
    simpa [Ty.signature, Sig.valid, Sigs.valid] using
      ⟨head.elim (Ty.Exact.valid first) fun last => Ty.Decodable.valid first last.2,
        Tys.Decodable.valid rest tail⟩

theorem Tys.Decodable.valid : (ts : Tys) → ts.Decodable → ts.signature.valid
  | .nil, _ => by simp [Tys.signature, Sigs.valid]
  | .cons first rest, ⟨head, tail⟩ => by
    simpa [Tys.signature, Sigs.valid] using
      ⟨head.elim (Ty.Exact.valid first) fun last => Ty.Decodable.valid first last.2,
        Tys.Decodable.valid rest tail⟩

end

/-- The last object of its container comes back, and some containers are left. -/
def Ty.Decodes (t : Ty) : Prop :=
  ∀ (v : t.CVal) inArray rest below, ∃ k,
    t.dataUnpack (⟨inArray, t.dataNode v :: rest⟩ :: below) =
      ⟨t.status, some v, leaveContainer^[k] (⟨inArray, rest⟩ :: below)⟩

def Tys.Decodes (ts : Tys) : Prop :=
  ∀ r : ℤ, 0 ≤ r → ∀ (v : ts.CVal) inArray rest below, ∃ k,
    ts.ambusUnpackAll (fun _ => true) r (⟨inArray, ts.dataNodes (fun _ => true) v ++ rest⟩ :: below) =
      ⟨ts.status r, ts.written v, leaveContainer^[k] (⟨inArray, rest⟩ :: below)⟩

theorem Ty.Decodes.of_exact {t : Ty} (good : t.Exact) : t.Decodes :=
  fun v inArray rest below => ⟨0, Ty.Exact.dataUnpack t good v inArray rest below⟩

theorem Ty.Decodes.seq {elem : Ty} (chain : elem.Chain) : (Ty.seq elem).Decodes := by
  intro v inArray rest below
  have good := Ty.Chain.exact elem chain
  have each := fun x more => Ty.Exact.dataUnpack elem good x true more (⟨inArray, rest⟩ :: below)
  obtain ⟨last, k, met⟩ := Ty.Quiet.overleaves elem (Ty.Chain.quiet elem chain)
    (⟨inArray, rest⟩ :: below)
  rw [Ty.Chain.status elem chain] at each
  refine ⟨k, ?_⟩
  rw [elem.dataUnpack_seq (Ty.Exact.valid elem good) v inArray rest each met,
    ← Function.iterate_succ_apply' leaveContainer, Function.iterate_succ_apply]
  rfl

theorem Tys.Decodes.cons {first : Ty} {tail : Tys} (head : first.Exact ∨ tail = .nil ∧ first.Decodes)
    (later : tail.Decodes) : (Tys.cons first tail).Decodes := by
  intro r nonneg v inArray rest below
  obtain good | ⟨rfl, decodes⟩ := head
  · obtain ⟨k, done⟩ := later _ first.status_nonneg v.2 inArray rest below
    exact ⟨k, ambusUnpackAll_cons nonneg (Ty.Exact.dataUnpack first good v.1 inArray _ below) done⟩
  · obtain ⟨k, done⟩ := decodes v.1 inArray rest below
    exact ⟨k, ambusUnpackAll_cons nonneg done (by simp [ambusUnpackAll, status, written])⟩

theorem Ty.Decodes.struct {first : Ty} {tail : Tys} (valid : (Ty.struct first tail).signature.valid)
    (fields : (Tys.cons first tail).Decodes) : (Ty.struct first tail).Decodes := by
  intro v inArray rest below
  obtain ⟨k, done⟩ := fields 1 one_pos.le v false [] (⟨inArray, rest⟩ :: below)
  refine ⟨k, ?_⟩
  rw [Ty.dataUnpack_struct_of valid done, ← Function.iterate_succ_apply' leaveContainer,
    Function.iterate_succ_apply]
  rfl

mutual

theorem Ty.Decodable.decodes : (t : Ty) → t.Decodable → t.Decodes
  | .simple _, _ | .string, _ => .of_exact trivial
  | .seq _, chain => .seq chain
  | .struct first rest, good =>
    .struct (Ty.Decodable.valid (.struct first rest) good)
      (Tys.Decodes.cons (good.1.imp_right fun last => ⟨last.1, Ty.Decodable.decodes first last.2⟩)
        (Tys.Decodable.decodes rest good.2))

theorem Tys.Decodable.decodes : (ts : Tys) → ts.Decodable → ts.Decodes
  | .nil, _ => fun _ _ _ _ _ _ => ⟨0, by simp [Tys.ambusUnpackAll, Tys.dataNodes, Tys.status,
      Tys.written]⟩
  | .cons first rest, good =>
    Tys.Decodes.cons (good.1.imp_right fun last => ⟨last.1, Ty.Decodable.decodes first last.2⟩)
      (Tys.Decodable.decodes rest good.2)

end

/-- The message itself is never left. -/
theorem leaveContainer_iterate (k : ℕ) (frame : Frame) : leaveContainer^[k] [frame] = [frame] :=
  Function.iterate_fixed rfl k

/-- A decodable argument of a message. -/
theorem Ty.Decodable.dataUnpack_root {t : Ty} (good : t.Decodable) (v : t.CVal) (rest : List Node) :
    t.dataUnpack [⟨false, t.dataNode v :: rest⟩] = ⟨t.status, some v, [⟨false, rest⟩]⟩ := by
  obtain ⟨k, done⟩ := Ty.Decodable.decodes t good v false rest []
  rw [done, leaveContainer_iterate]

/-- The selected arguments are written, and equal to `v`. -/
def Tys.Restored : (ts : Tys) → (ℕ → Bool) → ts.CVal → ts.Written → Prop
  | .nil, _, _, _ => True
  | .cons _ rest, selected, v, args =>
    (selected 0 → args.1 = some v.1) ∧ rest.Restored (fun i => selected (i + 1)) v.2 args.2

/-- Arguments that are all decodable. -/
theorem Tys.ambusUnpackAll_root : (ts : Tys) → {selected : ℕ → Bool} → ts.All Ty.Decodable selected →
    (v : ts.CVal) → (rest : List Node) → {r : ℤ} → 0 ≤ r →
    ∃ r' args, 0 ≤ r' ∧ ts.Restored selected v args ∧
      ts.ambusUnpackAll selected r [⟨false, ts.dataNodes selected v ++ rest⟩] =
        ⟨r', args, [⟨false, rest⟩]⟩
  | .nil, _, _, _, _, r, nonneg => ⟨r, (), nonneg, trivial, by simp [ambusUnpackAll, dataNodes]⟩
  | .cons first tail, selected, ⟨head, later⟩, v, rest, r, nonneg => by
    cases chosen : selected 0 with
    | true =>
      obtain ⟨r', args, nonneg', restored, done⟩ :=
        tail.ambusUnpackAll_root later v.2 rest first.status_nonneg
      refine ⟨r', (some v.1, args), nonneg', ⟨fun _ => rfl, restored⟩, ?_⟩
      simp only [ambusUnpackAll, dataNodes, nonneg, chosen, if_true, List.cons_append,
        List.nil_append, (head chosen).dataUnpack_root, done]
    | false =>
      obtain ⟨r', args, nonneg', restored, done⟩ := tail.ambusUnpackAll_root later v.2 rest nonneg
      refine ⟨r', (none, args), nonneg', ⟨fun absurd' => ?_, restored⟩, ?_⟩
      · rw [chosen] at absurd'
        cases absurd'
      · simp only [ambusUnpackAll, dataNodes, nonneg, chosen, Bool.false_eq_true, if_false, if_true,
          List.nil_append, done]

end AmlCommonlib.Dbus
