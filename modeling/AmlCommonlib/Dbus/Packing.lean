import AmlCommonlib.Dbus.Shapes

/-! # What `pack` writes

A type that is restorable has a signature the message accepts, and `pack` appends the one node of
its value; an argument list appends the nodes of the selected arguments.
-/

namespace AmlCommonlib.Dbus

mutual

/-- The node of a value. -/
def Ty.node : (t : Ty) → t.Val → Node
  | .simple s, v => .basic s.code (s.toCT v)
  | .string, v => .string ⟨v.takeWhile (· != 0), takeWhile_isCString v⟩
  | .seq elem, v => .container (.array elem.signature) (v.map elem.node)
  | .map key value, v =>
    .container (.array (.entry key.signature value.signature)) (v.1.map fun e =>
      .container (.entry key.signature value.signature) [key.node e.1, value.node e.2])
  | .struct first rest, v =>
    .container (.struct (.cons first.signature rest.signature))
      (first.node v.1 :: rest.nodes (fun _ => true) v.2)

/-- The nodes of the selected arguments. -/
def Tys.nodes : (ts : Tys) → (ℕ → Bool) → ts.Val → List Node
  | .nil, _, _ => []
  | .cons first rest, selected, v =>
    if selected 0 then first.node v.1 :: rest.nodes (fun i => selected (i + 1)) v.2
    else rest.nodes (fun i => selected (i + 1)) v.2

end

/-! ### Packing -/

def Writer.appendAll (nodes : List Node) (w : Writer) : Writer := nodes.foldl (fun w n => w.append n) w

@[simp] theorem Writer.appendAll_nil (w : Writer) : w.appendAll [] = w := rfl

@[simp] theorem Writer.appendAll_cons (node : Node) (nodes : List Node) (w : Writer) :
    w.appendAll (node :: nodes) = (w.append node).appendAll nodes := rfl

theorem Writer.appendAll_opened (nodes : List Node) (sig : Sig) (items : List Node) (root : List Node)
    (below : List (Sig × List Node)) :
    Writer.appendAll nodes ⟨root, (sig, items) :: below⟩ = ⟨root, (sig, items ++ nodes) :: below⟩ := by
  induction nodes generalizing items with
  | nil => simp
  | cons node nodes ih => simp [Writer.append, ih]

theorem Writer.appendAll_new (nodes : List Node) : Writer.new.appendAll nodes = ⟨nodes, []⟩ := by
  suffices general : ∀ root, Writer.appendAll nodes ⟨root, []⟩ = ⟨root ++ nodes, []⟩ from general []
  induction nodes with
  | nil => simp
  | cons node nodes ih => simp [Writer.append, ih]

/-- A container that is opened, filled and closed. -/
theorem closeContainer_appendAll (sig : Sig) (nodes : List Node) (w : Writer) :
    closeContainer (Writer.appendAll nodes { w with opened := (sig, []) :: w.opened }) =
      w.append (.container sig nodes) := by
  rw [Writer.appendAll_opened]
  rfl

theorem packEach_eq {α : Type} {pack : α → Writer → ℤ × Writer} {node : α → Node} {xs : List α}
    (each : ∀ x w, pack x w = (0, w.append (node x))) (w : Writer) :
    packEach pack xs 0 w = w.appendAll (xs.map node) := by
  induction xs generalizing w with
  | nil => rfl
  | cons x xs ih => simp [packEach, each, ih]

theorem Ty.IsBasic.flat {t : Ty} (basic : t.IsBasic) : t.Flat := by
  cases t <;> simp_all [IsBasic, Flat]

mutual

theorem Ty.Flat.restorable : (t : Ty) → t.Flat → t.Restorable
  | .simple _, _ => trivial
  | .string, _ => trivial
  | .struct first rest, ⟨head, tail⟩ =>
    ⟨Ty.Flat.restorable first head, .inl head, Tys.Flat.restorable rest tail⟩

theorem Tys.Flat.restorable : (ts : Tys) → {selected : ℕ → Bool} → ts.Flat selected →
    ts.Restorable selected
  | .nil, _, _ => trivial
  | .cons first rest, _, ⟨head, tail⟩ =>
    ⟨fun chosen => ⟨Ty.Flat.restorable first (head chosen), .inl (head chosen)⟩,
      Tys.Flat.restorable rest tail⟩

end

mutual

/-- The signature of a restorable type is one the message accepts. -/
theorem Ty.Restorable.valid : (t : Ty) → t.Restorable → t.signature.valid
  | .simple _, _ => by simp [Ty.signature, Sig.valid]
  | .string, _ => by simp [Ty.signature, Sig.valid]
  | .seq elem, good => by
    simpa [Ty.signature, Sig.valid] using Ty.Restorable.valid elem (Ty.Flat.restorable elem good)
  | .map key value, ⟨basic, good⟩ => by
    simpa [Ty.signature, Sig.valid] using
      ⟨Ty.signature_isBasic.mpr basic, Ty.Restorable.valid value good⟩
  | .struct first rest, ⟨head, _, tail⟩ => by
    simpa [Ty.signature, Sig.valid, Sigs.valid] using
      ⟨Ty.Restorable.valid first head, Tys.Restorable.valid rest tail⟩

theorem Tys.Restorable.valid : (ts : Tys) → (ts.Restorable fun _ => true) → ts.signature.valid
  | .nil, _ => by simp [Tys.signature, Sigs.valid]
  | .cons first rest, ⟨head, tail⟩ => by
    simpa [Tys.signature, Sigs.valid] using
      ⟨Ty.Restorable.valid first (head rfl).1, Tys.Restorable.valid rest tail⟩

end

mutual

/-- `pack` of a restorable type appends its node. -/
theorem Ty.pack_eq : (t : Ty) → t.Restorable → (v : t.Val) → (w : Writer) →
    t.pack v w = (0, w.append (t.node v))
  | .simple _, _, _, _ => by simp [Ty.pack, appendBasic, Ty.node]
  | .string, _, _, _ => by simp [Ty.pack, appendString, Ty.node]
  | .seq elem, good, v, w => by
    have valid := Ty.Restorable.valid (.seq elem) good
    have each := elem.pack_eq (Ty.Flat.restorable elem good)
    rw [Ty.signature] at valid
    simp only [Ty.pack, openContainer, valid, if_true, packEach_eq each, closeContainer_appendAll,
      Ty.node]
  | .map key value, good, v, w => by
    have valid := Ty.Restorable.valid (.map key value) good
    rw [Ty.signature] at valid
    have inner : (Sig.entry key.signature value.signature).valid := by
      simpa [Sig.valid] using valid
    have keys := key.pack_eq (Ty.Flat.restorable key good.1.flat)
    have values := value.pack_eq good.2
    have entry (e : key.Val × value.Val) (w : Writer) :=
      closeContainer_appendAll (.entry key.signature value.signature) [key.node e.1, value.node e.2] w
    simp only [Writer.appendAll_cons, Writer.appendAll_nil] at entry
    simp only [Ty.pack, openContainer, valid, inner, if_true, keys, values, le_refl, entry, Ty.node]
    rw [packEach_eq fun _ _ => rfl, closeContainer_appendAll]
  | .struct first rest, good, v, w => by
    have valid := Ty.Restorable.valid (.struct first rest) good
    rw [Ty.signature] at valid
    simp only [Ty.pack, openContainer, valid, if_true, le_refl, first.pack_eq good.1,
      rest.packall_eq good.2.2, Ty.node]
    exact Prod.ext rfl (closeContainer_appendAll _ (first.node v.1 :: _) w)

theorem Tys.packall_eq : (ts : Tys) → {selected : ℕ → Bool} → ts.Restorable selected →
    (v : ts.Val) → (w : Writer) →
    ts.packall selected v w = (0, w.appendAll (ts.nodes selected v))
  | .nil, _, _, _, _ => by simp [Tys.packall, Tys.nodes]
  | .cons first rest, selected, good, v, w => by
    cases chosen : selected 0 with
    | true =>
      simp only [Tys.packall, Tys.nodes, chosen, if_true, first.pack_eq (good.1 chosen).1, le_refl,
        rest.packall_eq good.2, Writer.appendAll_cons]
    | false =>
      simp only [Tys.packall, Tys.nodes, chosen, Bool.false_eq_true, if_false, le_refl, if_true,
        rest.packall_eq good.2]

end

end AmlCommonlib.Dbus
