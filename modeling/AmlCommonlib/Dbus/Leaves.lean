import AmlCommonlib.Dbus.Decodable

/-! # What a description can read

Every basic value in a decoded object was taken from the message once. `Potential` abstracts from
what is counted: a description can read no more than the calls it makes for its own parts bring it
closer to, and a call that reports an item has taken one.
-/

namespace AmlCommonlib.Dbus

/-! ### Leaves -/

mutual

/-- The basic values in a tree. -/
def Node.leaves : Node → ℕ
  | .basic .. | .string _ => 1
  | .container _ items => leavesAll items

def leavesAll : List Node → ℕ
  | [] => 0
  | node :: rest => node.leaves + leavesAll rest

end

@[simp] theorem leavesAll_nil : leavesAll [] = 0 := by simp [leavesAll]

@[simp] theorem leavesAll_cons (node : Node) (rest : List Node) :
    leavesAll (node :: rest) = node.leaves + leavesAll rest := by simp [leavesAll]

@[simp] theorem leavesAll_append (nodes nodes' : List Node) :
    leavesAll (nodes ++ nodes') = leavesAll nodes + leavesAll nodes' := by
  induction nodes with
  | nil => simp
  | cons node nodes ih => simp [ih, Nat.add_assoc]

/-- The leaves that are still to be read. -/
def Reader.leaves : Reader → ℕ
  | [] => 0
  | frame :: below => leavesAll frame.rest + Reader.leaves below

@[simp] theorem Reader.leaves_cons (frame : Frame) (below : Reader) :
    Reader.leaves (frame :: below) = leavesAll frame.rest + Reader.leaves below := rfl

def Node.sig : Node → Sig
  | .basic code _ => .basic code
  | .string _ => .basic 's'
  | .container sig _ => sig

mutual

/-- The basic values in an object. -/
def Ty.leaves : (t : Ty) → t.CVal → ℕ
  | .simple _, _ | .string, _ => 1
  | .seq elem, v => (v.map elem.leaves).sum
  | .map key value, v => (v.map fun e => key.leaves e.1 + value.leaves e.2).sum
  | .struct first rest, v => first.leaves v.1 + rest.leaves v.2

def Tys.leaves : (ts : Tys) → ts.CVal → ℕ
  | .nil, _ => 0
  | .cons first rest, v => first.leaves v.1 + rest.leaves v.2

end

theorem leavesAll_map {α : Type} (node : α → Node) (xs : List α) :
    leavesAll (xs.map node) = (xs.map fun x => (node x).leaves).sum := by
  induction xs with
  | nil => simp
  | cons x xs ih => simp [ih]

mutual

theorem Ty.leaves_dataNode : (t : Ty) → (v : t.CVal) → (t.dataNode v).leaves = t.leaves v
  | .simple _, _ | .string, _ => by simp [Ty.dataNode, Node.leaves, Ty.leaves]
  | .seq elem, v => by
    simp only [Ty.dataNode, Node.leaves, Ty.leaves, leavesAll_map, elem.leaves_dataNode]
  | .map key value, v => by
    simp only [Ty.dataNode, Node.leaves, Ty.leaves, leavesAll_map, leavesAll_cons, leavesAll_nil,
      key.leaves_dataNode, value.leaves_dataNode, Nat.add_zero]
  | .struct first rest, v => by
    simp only [Ty.dataNode, Node.leaves, Ty.leaves, leavesAll_cons, first.leaves_dataNode,
      rest.leaves_dataNodes]

theorem Tys.leaves_dataNodes : (ts : Tys) → (v : ts.CVal) →
    leavesAll (ts.dataNodes (fun _ => true) v) = ts.leaves v
  | .nil, _ => by simp [Tys.dataNodes, Tys.leaves]
  | .cons first rest, v => by
    simp only [Tys.dataNodes, if_true, List.cons_append, List.nil_append, leavesAll_cons, Tys.leaves,
      first.leaves_dataNode, rest.leaves_dataNodes]

end

theorem Tys.leaves_cons (first : Ty) (rest : Tys) (v : (Tys.cons first rest).CVal) :
    (Tys.cons first rest).leaves v = first.leaves v.1 + rest.leaves v.2 := by rw [leaves]

/-- The basic values in the fields that are written. -/
def Tys.leavesWritten : (ts : Tys) → ts.Written → ℕ
  | .nil, _ => 0
  | .cons first rest, args => args.1.elim 0 first.leaves + rest.leavesWritten args.2

/-- What is made of two parts, each if it is written, weighs no more than they do. -/
theorem elim_pair_le {α β γ : Type} {f : α → β → γ} {weight : γ → ℕ} {first : α → ℕ} {second : β → ℕ}
    (sum : ∀ a b, weight (f a b) = first a + second b) (x : Option α) (y : Option β) :
    (x.bind fun a => y.map fun b => f a b).elim 0 weight ≤ x.elim 0 first + y.elim 0 second := by
  cases x with
  | none => simp
  | some a =>
    cases y with
    | none => simp
    | some b => simp [sum]

theorem Tys.leaves_complete_le : (ts : Tys) → (args : ts.Written) →
    (ts.complete args).elim 0 ts.leaves ≤ ts.leavesWritten args
  | .nil, _ => by simp [complete, leaves]
  | .cons first rest, args => by
    have pair := elim_pair_le (fun v vs => leaves_cons first rest (v, vs)) args.1
      (rest.complete args.2)
    exact pair.trans (Nat.add_le_add_left (rest.leaves_complete_le args.2) _)

theorem Tys.leavesWritten_unwritten : (ts : Tys) → ts.leavesWritten ts.unwritten = 0
  | .nil => rfl
  | .cons _ rest => by simp [leavesWritten, unwritten, rest.leavesWritten_unwritten]

/-! ### Potentials -/

/-- A measure of what can be read with signatures smaller than `limit`. -/
structure Potential (limit : ℕ) (φ : Reader → ℕ) : Prop where
  take : ∀ {α : Type} (select : Node → Option α),
    (∀ node x, select node = some x → sizeOf node.sig < limit ∧ node.leaves = 1) →
      ∀ m, (take select m).2.1.isSome → φ (Dbus.take select m).2.2 < φ m
  enter : ∀ sig, sizeOf sig < limit → ∀ m, φ (enterContainer sig m).2 ≤ φ m
  leave : ∀ m, φ (leaveContainer m) ≤ φ m

/-- What was decoded is paid for, and an item that is reported was taken. -/
def Pays {α : Type} (φ : Reader → ℕ) (weight : α → ℕ) (m : Reader) (u : Unpacked (Option α)) : Prop :=
  u.val.elim 0 weight + φ u.msg ≤ φ m ∧ (0 < u.ret → φ u.msg < φ m)

section Loops

variable {α K V : Type} {limit : ℕ} {φ : Reader → ℕ}

theorem dataUnpackEach_ret_le {unpack : Reader → Unpacked (Option α)} {fuel : ℕ} {m : Reader} :
    (dataUnpackEach unpack fuel m).ret ≤ 0 := by
  induction fuel generalizing m with
  | zero => exact le_refl 0
  | succ fuel ih =>
    rw [dataUnpackEach]
    by_cases read : 0 < (unpack m).ret
    · simpa only [read, if_true] using ih
    · simpa only [read, if_false] using not_lt.mp read

theorem dataUnpackEach_pays {unpack : Reader → Unpacked (Option α)} {weight : α → ℕ}
    (pays : ∀ m, Pays φ weight m (unpack m)) {fuel : ℕ} {m : Reader} :
    Pays φ (fun xs => (xs.map weight).sum) m (dataUnpackEach unpack fuel m) := by
  refine ⟨?_, fun positive => absurd positive (not_lt.mpr dataUnpackEach_ret_le)⟩
  induction fuel generalizing m with
  | zero => simp [dataUnpackEach]
  | succ fuel ih =>
    have head := (pays m).1
    rw [dataUnpackEach]
    by_cases read : 0 < (unpack m).ret
    · have later := @ih (unpack m).msg
      have pair := @elim_pair_le _ _ _ (fun x xs => x :: xs) (fun xs => (xs.map weight).sum) weight
        (fun xs => (xs.map weight).sum) (by simp) (unpack m).val
        (dataUnpackEach unpack fuel (unpack m).msg).val
      simp only [read, if_true]
      omega
    · simp only [read, if_false]
      split_ifs <;> simp <;> omega

theorem dataUnpackEntries_ret_le {sig : Sig} {unpackKey : Reader → Unpacked (Option K)}
    {unpackValue : Reader → Unpacked (Option V)} {fuel : ℕ} {r : ℤ} {m : Reader} :
    (dataUnpackEntries sig unpackKey unpackValue fuel r m).ret ≤ 0 := by
  induction fuel generalizing r m with
  | zero => exact le_refl 0
  | succ fuel ih =>
    simp only [dataUnpackEntries]
    split_ifs with more entered key value
    · exact ih
    · exact ih
    · exact ih
    · exact not_lt.mp entered
    · exact not_lt.mp more

theorem dataUnpackEntries_pays {sig : Sig} {unpackKey : Reader → Unpacked (Option K)}
    {unpackValue : Reader → Unpacked (Option V)} {key : K → ℕ} {value : V → ℕ}
    (enter : ∀ m, φ (enterContainer sig m).2 ≤ φ m) (leave : ∀ m, φ (leaveContainer m) ≤ φ m)
    (keys : ∀ m, Pays φ key m (unpackKey m)) (values : ∀ m, Pays φ value m (unpackValue m))
    {fuel : ℕ} {r : ℤ} {m : Reader} :
    Pays φ (fun es => (es.map fun e => key e.1 + value e.2).sum) m
      (dataUnpackEntries sig unpackKey unpackValue fuel r m) := by
  refine ⟨?_, fun positive => absurd positive (not_lt.mpr dataUnpackEntries_ret_le)⟩
  induction fuel generalizing r m with
  | zero => simp [dataUnpackEntries]
  | succ fuel ih =>
    have entered := enter m
    simp only [dataUnpackEntries]
    generalize enterContainer sig m = e at entered ⊢
    obtain ⟨r', m'⟩ := e
    have keyPays := (keys m').1
    have keyLeft := leave (unpackKey m').msg
    generalize unpackKey m' = k at keyPays keyLeft ⊢
    have valuePays := (values k.msg).1
    have valueLeft := leave (unpackValue k.msg).msg
    generalize unpackValue k.msg = v at valuePays valueLeft ⊢
    have afterKey := @ih k.ret (leaveContainer k.msg)
    have afterValue := @ih v.ret (leaveContainer v.msg)
    dsimp only at entered ⊢
    split_ifs
    · generalize dataUnpackEntries sig unpackKey unpackValue fuel v.ret (leaveContainer v.msg) = us
        at afterValue ⊢
      have entry := @elim_pair_le _ _ _ Prod.mk (fun e => key e.1 + value e.2) key value
        (fun _ _ => rfl) k.val v.val
      have pair := @elim_pair_le _ _ _ (fun e es => e :: es)
        (fun es => (es.map fun e => key e.1 + value e.2).sum) (fun e => key e.1 + value e.2)
        (fun es => (es.map fun e => key e.1 + value e.2).sum) (by simp)
        (k.val.bind fun x => v.val.map fun y => (x, y)) us.val
      dsimp only
      omega
    · omega
    · omega
    · simpa using entered
    · simp

end Loops

/-! ### Reading pays -/

section Pays

variable {limit : ℕ} {φ : Reader → ℕ}

theorem Ty.pays_seq {elem : Ty} {m : Reader} (leave : ∀ m, φ (leaveContainer m) ≤ φ m)
    (enter : φ (enterContainer (Ty.seq elem).signature m).2 ≤ φ m)
    (inner : ∀ m, Pays φ elem.leaves m (elem.dataUnpack m)) :
    Pays φ (Ty.seq elem).leaves m ((Ty.seq elem).dataUnpack m) := by
  have same : (Ty.seq elem).leaves = fun v => (v.map elem.leaves).sum := by
    funext v
    rw [leaves]
  rw [signature] at enter
  simp only [dataUnpack, same]
  generalize enterContainer (.array elem.signature) m = e at enter ⊢
  have loop := @dataUnpackEach_pays _ φ _ _ inner (Reader.size e.2 + 1) e.2
  have left := leave (dataUnpackEach elem.dataUnpack (Reader.size e.2 + 1) e.2).msg
  exact ⟨(Nat.add_le_add_left left _).trans (loop.1.trans enter),
    fun read => absurd read (not_lt.mpr dataUnpackEach_ret_le)⟩

theorem Ty.pays_map {key value : Ty} {m : Reader} (leave : ∀ m, φ (leaveContainer m) ≤ φ m)
    (enter : φ (enterContainer (Ty.map key value).signature m).2 ≤ φ m)
    (entry : ∀ m, φ (enterContainer (.entry key.signature value.signature) m).2 ≤ φ m)
    (keys : ∀ m, Pays φ key.leaves m (key.dataUnpack m))
    (values : ∀ m, Pays φ value.leaves m (value.dataUnpack m)) :
    Pays φ (Ty.map key value).leaves m ((Ty.map key value).dataUnpack m) := by
  have same : (Ty.map key value).leaves =
      fun v => (v.map fun e => key.leaves e.1 + value.leaves e.2).sum := by
    funext v
    rw [leaves]
  rw [signature] at enter
  simp only [dataUnpack, same]
  generalize enterContainer (.array (.entry key.signature value.signature)) m = e at enter ⊢
  have loop := @dataUnpackEntries_pays _ _ φ _ _ _ _ _ entry leave keys values
    (Reader.size e.2 + 1) e.1 e.2
  exact ⟨loop.1.trans enter, fun read => absurd read (not_lt.mpr dataUnpackEntries_ret_le)⟩

/-- The same for fields, given what the one before returned. -/
def Tys.Pays (φ : Reader → ℕ) (ts : Tys) (r : ℤ) (m : Reader) (us : Unpacked ts.Written) : Prop :=
  ts.leavesWritten us.val + φ us.msg ≤ φ m ∧ (0 < us.ret → 0 < r ∨ φ us.msg < φ m)

theorem Tys.pays_cons {first : Ty} {rest : Tys} (head : ∀ m, Dbus.Pays φ first.leaves m
      (first.dataUnpack m))
    (later : ∀ r m, rest.Pays φ r m (rest.ambusUnpackAll (fun _ => true) r m)) (r : ℤ) (m : Reader) :
    (Tys.cons first rest).Pays φ 0 m ((Tys.cons first rest).ambusUnpackAll (fun _ => true) r m) := by
  simp only [ambusUnpackAll, if_true]
  split_ifs with nonneg
  · obtain ⟨paid, taken⟩ := head m
    generalize first.dataUnpack m = u at paid taken ⊢
    obtain ⟨paid', taken'⟩ := later u.ret u.msg
    refine ⟨?_, fun positive => .inr ?_⟩
    · simp only [leavesWritten]
      omega
    · have fields : φ (rest.ambusUnpackAll (fun _ => true) u.ret u.msg).msg ≤ φ u.msg := by omega
      obtain read | less := taken' positive
      · exact fields.trans_lt (taken read)
      · dsimp only
        omega
  · refine ⟨?_, fun positive => absurd positive.le nonneg⟩
    simp [leavesWritten, leavesWritten_unwritten]

theorem Ty.pays_struct {first : Ty} {rest : Tys} {m : Reader}
    (leave : ∀ m, φ (leaveContainer m) ≤ φ m)
    (enter : φ (enterContainer (Ty.struct first rest).signature m).2 ≤ φ m)
    (fields : ∀ r m, (Tys.cons first rest).Pays φ 0 m
      ((Tys.cons first rest).ambusUnpackAll (fun _ => true) r m)) :
    Dbus.Pays φ (Ty.struct first rest).leaves m ((Ty.struct first rest).dataUnpack m) := by
  rw [dataUnpack_struct]
  generalize enterContainer (Ty.struct first rest).signature m = e at enter ⊢
  dsimp only
  obtain ⟨paid, taken⟩ := fields e.1 e.2
  generalize (Tys.cons first rest).ambusUnpackAll (fun _ => true) e.1 e.2 = us at paid taken ⊢
  have object := (Tys.cons first rest).leaves_complete_le us.val
  have same : (Ty.struct first rest).leaves = (Tys.cons first rest).leaves := by
    funext v
    rw [leaves, Tys.leaves]
  have left := leave us.msg
  rw [← same] at object
  refine ⟨(Nat.add_le_add object left).trans (paid.trans enter), fun positive => ?_⟩
  have less := (taken positive).resolve_left (lt_irrefl 0)
  dsimp only
  omega

theorem Potential.pays_take {α β : Type} (potential : Potential limit φ) {select : Node → Option α}
    (small : ∀ node x, select node = some x → sizeOf node.sig < limit ∧ node.leaves = 1) {f : α → β}
    {weight : β → ℕ} (one : ∀ y, weight y = 1) (m : Reader) :
    Dbus.Pays φ weight m
      ⟨(Dbus.take select m).1, (Dbus.take select m).2.1.map f, (Dbus.take select m).2.2⟩ := by
  have less := potential.take select small m
  obtain ⟨inArray, node, rest, below, x, rfl, chosen, taken⟩ | ⟨r, le, stay⟩ := take_cases select m
  · rw [taken] at less ⊢
    have less' := less rfl
    dsimp only at less'
    refine ⟨?_, fun _ => less'⟩
    simp only [Option.map_some, Option.elim_some, one]
    omega
  · rw [stay]
    exact ⟨by simp, fun positive => absurd positive (not_lt.mpr le)⟩

theorem Ty.pays_basic {t : Ty} (potential : Potential limit φ) (basic : t.IsBasic)
    (small : sizeOf t.signature < limit) (m : Reader) :
    Dbus.Pays φ t.leaves m (t.dataUnpack m) := by
  cases t with
  | simple s =>
    refine potential.pays_take ?_ (fun _ => by rw [leaves]) m
    intro node ct chosen
    cases node with
    | basic code ct' =>
      rw [Node.ct?] at chosen
      obtain ⟨rfl, -⟩ := Option.ite_none_right_eq_some.mp chosen
      exact ⟨small, by rw [Node.leaves]⟩
    | _ => cases chosen
  | string =>
    have paid := @potential.pays_take _ _ _ _ Node.text? ?_ id (Ty.leaves .string)
      (fun _ => by rw [leaves]) m
    · simpa [dataUnpack, readString] using paid
    · intro node text chosen
      cases node with
      | string text' => exact ⟨small, by rw [Node.leaves]⟩
      | _ => cases chosen
  | _ => exact basic.elim

mutual

/-- What a description decodes from any message is paid for. -/
theorem Ty.pays (potential : Potential limit φ) : (t : Ty) → sizeOf t.signature < limit →
    (m : Reader) → Dbus.Pays φ t.leaves m (t.dataUnpack m)
  | .simple s, small, m => @Ty.pays_basic _ _ (.simple s) potential trivial small m
  | .string, small, m => @Ty.pays_basic _ _ .string potential trivial small m
  | .seq elem, small, m => by
    rw [Ty.signature] at small
    have inner : sizeOf elem.signature < limit := lt_trans (by simp) small
    exact Ty.pays_seq potential.leave (potential.enter _ small m) (Ty.pays potential elem inner)
  | .map key value, small, m => by
    rw [Ty.signature] at small
    have entry : sizeOf (Sig.entry key.signature value.signature) < limit := lt_trans (by simp) small
    have keySmall : sizeOf key.signature < limit := lt_trans (by simp; omega) entry
    have valueSmall : sizeOf value.signature < limit := lt_trans (by simp) entry
    exact Ty.pays_map potential.leave (potential.enter _ small m) (potential.enter _ entry)
      (Ty.pays potential key keySmall) (Ty.pays potential value valueSmall)
  | .struct first rest, small, m => by
    have headSmall : sizeOf first.signature < limit :=
      lt_trans (by simp [Ty.signature]; omega) small
    have tailSmall : sizeOf rest.signature < limit := lt_trans (by simp [Ty.signature]; omega) small
    exact Ty.pays_struct potential.leave (potential.enter _ small m)
      (Tys.pays_cons (Ty.pays potential first headSmall) (Tys.pays potential rest tailSmall))

theorem Tys.pays (potential : Potential limit φ) : (ts : Tys) → sizeOf ts.signature < limit →
    (r : ℤ) → (m : Reader) → ts.Pays φ r m (ts.ambusUnpackAll (fun _ => true) r m)
  | .nil, _, r, m => by simp [Tys.Pays, Tys.ambusUnpackAll, Tys.leavesWritten]
  | .cons first rest, small, r, m => by
    have headSmall : sizeOf first.signature < limit :=
      lt_trans (by simp [Tys.signature]; omega) small
    have tailSmall : sizeOf rest.signature < limit := lt_trans (by simp [Tys.signature]) small
    obtain ⟨paid, taken⟩ :=
      Tys.pays_cons (Ty.pays potential first headSmall) (Tys.pays potential rest tailSmall) r m
    exact ⟨paid, fun positive => .inr ((taken positive).resolve_left (lt_irrefl 0))⟩

end

/-- At the end of a container only the parts of a description are tried. -/
theorem Ty.pays_at_end {t : Ty} (potential : Potential (sizeOf t.signature) φ) (inArray : Bool)
    (below : Reader) :
    Dbus.Pays φ t.leaves (⟨inArray, []⟩ :: below) (t.dataUnpack (⟨inArray, []⟩ :: below)) := by
  have stay (sig : Sig) : (enterContainer sig (⟨inArray, []⟩ :: below)).2 = ⟨inArray, []⟩ :: below := by
    simp [enterContainer, take]
  have same (sig : Sig) : φ (enterContainer sig (⟨inArray, []⟩ :: below)).2 ≤
      φ (⟨inArray, []⟩ :: below) := (congrArg φ (stay sig)).le
  have refused : ¬0 < if inArray then 0 else enxio := by cases inArray <;> decide
  cases t with
  | simple s => simp [Dbus.Pays, dataUnpack, readBasic, take, refused]
  | string => simp [Dbus.Pays, dataUnpack, readString, take, refused]
  | seq elem =>
    have inner : sizeOf elem.signature < sizeOf (Ty.seq elem).signature := by simp [signature]
    exact pays_seq potential.leave (same _) (elem.pays potential inner)
  | map key value =>
    have entry : sizeOf (Sig.entry key.signature value.signature) <
        sizeOf (Ty.map key value).signature := by simp [signature]
    have keySmall : sizeOf key.signature < sizeOf (Ty.map key value).signature :=
      lt_trans (by simp; omega) entry
    have valueSmall : sizeOf value.signature < sizeOf (Ty.map key value).signature :=
      lt_trans (by simp) entry
    exact pays_map potential.leave (same _) (potential.enter _ entry) (key.pays potential keySmall)
      (value.pays potential valueSmall)
  | struct first rest =>
    have head : sizeOf first.signature < sizeOf (Ty.struct first rest).signature := by
      simp [signature]
      omega
    have tail : sizeOf rest.signature < sizeOf (Ty.struct first rest).signature := by
      simp [signature]
      omega
    exact pays_struct potential.leave (same _)
      (Tys.pays_cons (first.pays potential head) (rest.pays potential tail))

end Pays

/-! ### Counting -/

theorem leaveContainer_leaves_le (m : Reader) : (leaveContainer m).leaves ≤ m.leaves := by
  match m with
  | [] => exact le_refl _
  | [frame] => exact le_refl _
  | frame :: outer :: below => simp [leaveContainer]

/-- The leaves that are left. -/
theorem potential_leaves (limit : ℕ) : Potential limit Reader.leaves where
  take select small m taken := by
    obtain ⟨inArray, node, rest, below, x, rfl, chosen, done⟩ | ⟨r, -, stay⟩ := take_cases select m
    · have one := (small node x chosen).2
      rw [done]
      simp only [Reader.leaves_cons, leavesAll_cons]
      omega
    · rw [stay] at taken
      cases taken
  enter sig _ m := by
    obtain ⟨inArray, items, rest, below, rfl, -, done⟩ | ⟨r, -, stay⟩ := enterContainer_cases sig m
    · rw [done]
      simp only [Reader.leaves_cons, leavesAll_cons, Node.leaves]
      omega
    · rw [stay]
  leave := leaveContainer_leaves_le

/-- The nodes that are left. -/
theorem potential_size (limit : ℕ) : Potential limit Reader.size where
  take select _ m taken := by
    obtain ⟨inArray, node, rest, below, x, rfl, -, done⟩ | ⟨r, -, stay⟩ := take_cases select m
    · have positive := node.count_pos
      rw [done]
      simp only [Reader.size_cons, countAll_cons]
      omega
    · rw [stay] at taken
      cases taken
  enter sig _ m := (enterContainer_shrinks sig m).1
  leave m := by
    match m with
    | [] => exact le_refl _
    | [frame] => exact le_refl _
    | frame :: outer :: below => simp [leaveContainer]

theorem Ty.leaves_le (t : Ty) (m : Reader) :
    (t.dataUnpack m).val.elim 0 t.leaves + (t.dataUnpack m).msg.leaves ≤ m.leaves :=
  (t.pays (potential_leaves _) (Nat.lt_succ_self _) m).1

theorem Tys.leaves_le (ts : Tys) (r : ℤ) (m : Reader) :
    ts.leavesWritten (ts.ambusUnpackAll (fun _ => true) r m).val +
      (ts.ambusUnpackAll (fun _ => true) r m).msg.leaves ≤ m.leaves :=
  (ts.pays (potential_leaves _) (Nat.lt_succ_self _) r m).1

/-! ### The loops end by themselves -/

theorem Ty.size_lt {t : Ty} {m : Reader} (read : 0 < (t.dataUnpack m).ret) :
    (t.dataUnpack m).msg.size < m.size :=
  (t.pays (potential_size _) (Nat.lt_succ_self _) m).2 read

/-- Any bound above the size of the message gives the same loop over an array. -/
theorem dataUnpackEach_fuel (elem : Ty) {fuel fuel' : ℕ} {m : Reader} (enough : m.size < fuel)
    (enough' : m.size < fuel') :
    dataUnpackEach elem.dataUnpack fuel m = dataUnpackEach elem.dataUnpack fuel' m := by
  induction fuel generalizing fuel' m with
  | zero => exact absurd enough (Nat.not_lt_zero _)
  | succ fuel ih =>
    obtain ⟨fuel', rfl⟩ := Nat.exists_eq_succ_of_ne_zero (Nat.ne_of_gt (Nat.zero_lt_of_lt enough'))
    rw [dataUnpackEach, dataUnpackEach]
    by_cases read : 0 < (elem.dataUnpack m).ret
    · have smaller := elem.size_lt read
      simp only [read, if_true, @ih fuel' (elem.dataUnpack m).msg (by omega) (by omega)]
    · simp only [read, if_false]

theorem Ty.size_le (t : Ty) (m : Reader) : (t.dataUnpack m).msg.size ≤ m.size :=
  (Nat.le_add_left _ _).trans (t.pays (potential_size _) (Nat.lt_succ_self _) m).1

/-- The same for a map. -/
theorem dataUnpackEntries_fuel (key value : Ty) (sig : Sig) {fuel fuel' : ℕ} {r : ℤ} {m : Reader}
    (enough : m.size < fuel) (enough' : m.size < fuel') :
    dataUnpackEntries sig key.dataUnpack value.dataUnpack fuel r m =
      dataUnpackEntries sig key.dataUnpack value.dataUnpack fuel' r m := by
  induction fuel generalizing fuel' r m with
  | zero => exact absurd enough (Nat.not_lt_zero _)
  | succ fuel ih =>
    obtain ⟨fuel', rfl⟩ := Nat.exists_eq_succ_of_ne_zero (Nat.ne_of_gt (Nat.zero_lt_of_lt enough'))
    have leave := (potential_size 0).leave
    obtain ⟨le, less⟩ := enterContainer_shrinks sig m
    simp only [dataUnpackEntries]
    generalize enterContainer sig m = e at le less ⊢
    by_cases inside : 0 < e.1
    · have smaller := less inside
      have keyLeft := leave (key.dataUnpack e.2).msg
      have keyLe := key.size_le e.2
      have valueLeft := leave (value.dataUnpack (key.dataUnpack e.2).msg).msg
      have valueLe := value.size_le (key.dataUnpack e.2).msg
      simp only [inside, if_true,
        @ih fuel' (value.dataUnpack (key.dataUnpack e.2).msg).ret
          (leaveContainer (value.dataUnpack (key.dataUnpack e.2).msg).msg) (by omega) (by omega),
        @ih fuel' (key.dataUnpack e.2).ret (leaveContainer (key.dataUnpack e.2).msg) (by omega)
          (by omega)]
    · simp only [inside, if_false]

end AmlCommonlib.Dbus
