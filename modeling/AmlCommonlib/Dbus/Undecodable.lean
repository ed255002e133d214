import AmlCommonlib.Dbus.Leaving

/-! # Which descriptions do not decode what they encode

Every description that is not decodable has an object that does not come back. Where another field
follows it, it drops something unread, or leaves a container open that the next field is not in; where
it is last, it is an array whose elements fail at its end or report nothing, or a map.
-/

namespace AmlCommonlib.Dbus

/-! ### Objects without empty containers -/

mutual

/-- An object of which every container has a member. -/
def Ty.filled : (t : Ty) → t.CVal
  | .simple s => s.zero
  | .string => (⟨[], List.not_mem_nil⟩ : CStr)
  | .seq elem => [elem.filled]
  | .map key value => [(key.filled, value.filled)]
  | .struct first rest => (first.filled, rest.filled)

def Tys.filled : (ts : Tys) → ts.CVal
  | .nil => ()
  | .cons first rest => (first.filled, rest.filled)

end

mutual

theorem Ty.filled_full : (t : Ty) → (t.dataNode t.filled).Full
  | .simple _ | .string => by simp [Ty.dataNode, Node.Full]
  | .seq elem => by simpa [Ty.dataNode, Ty.filled, Node.Full] using elem.filled_full
  | .map key value => by
    simpa [Ty.dataNode, Ty.filled, Node.Full] using ⟨key.filled_full, value.filled_full⟩
  | .struct first rest => by
    simpa [Ty.dataNode, Ty.filled, Node.Full] using ⟨first.filled_full, rest.filled_full⟩

theorem Tys.filled_full : (ts : Tys) → AllFull (ts.dataNodes (fun _ => true) ts.filled)
  | .nil => by simp [Tys.dataNodes]
  | .cons first rest => by
    simpa [Tys.dataNodes, Tys.filled] using ⟨first.filled_full, rest.filled_full⟩

end

theorem Ty.filled_leaves_pos (t : Ty) : 0 < t.leaves t.filled := by
  rw [← t.leaves_dataNode]
  exact Node.Full.leaves_pos _ t.filled_full

theorem Ty.dataNode_sig (t : Ty) (v : t.CVal) : (t.dataNode v).sig = t.signature := by
  cases t <;> simp [dataNode, Node.sig, signature]

/-! ### What `unpack` returns -/

mutual

theorem Ty.ret_le : (t : Ty) → (m : Reader) → (t.dataUnpack m).ret ≤ t.status
  | .simple s, m => by
    obtain ⟨_, _, _, _, _, rfl, -, taken⟩ | ⟨r, le, stay⟩ := take_cases (Node.ct? s.code) m
    · simp [Ty.dataUnpack, readBasic, taken, Ty.status]
    · simpa [Ty.dataUnpack, readBasic, stay, Ty.status] using le.trans one_pos.le
  | .string, m => by
    obtain ⟨_, _, _, _, _, rfl, -, taken⟩ | ⟨r, le, stay⟩ := take_cases Node.text? m
    · simp [Ty.dataUnpack, readString, taken, Ty.status]
    · simpa [Ty.dataUnpack, readString, stay, Ty.status] using le.trans one_pos.le
  | .seq elem, m => by
    simpa only [Ty.dataUnpack, Ty.status] using dataUnpackEach_ret_le
  | .map key value, m => by
    simpa only [Ty.dataUnpack, Ty.status] using dataUnpackEntries_ret_le
  | .struct first rest, m => by
    simp only [Ty.dataUnpack, Ty.status]
    split_ifs with entered
    · exact rest.ret_le (first.ret_le _) _
    · exact (not_le.mp entered).le.trans (rest.status_nonneg first.status_nonneg)

theorem Tys.ret_le : (ts : Tys) → {r limit : ℤ} → r ≤ limit → (m : Reader) →
    (ts.ambusUnpackAll (fun _ => true) r m).ret ≤ ts.status limit
  | .nil, _, _, le, _ => by simpa only [Tys.ambusUnpackAll, Tys.status] using le
  | .cons first rest, r, limit, _, m => by
    simp only [Tys.ambusUnpackAll, Tys.status, if_true]
    split_ifs with nonneg
    · exact rest.ret_le (first.ret_le _) _
    · exact (not_le.mp nonneg).le.trans (rest.status_nonneg first.status_nonneg)

end

/-- An error ends the loop over the fields. -/
theorem Tys.ret_neg {ts : Tys} {r : ℤ} (failed : r < 0) (m : Reader) :
    (ts.ambusUnpackAll (fun _ => true) r m).ret < 0 := by
  cases ts with
  | nil => simpa only [ambusUnpackAll] using failed
  | cons first rest => simpa only [ambusUnpackAll, not_le.mpr failed, if_false] using failed

theorem Tys.nonneg_of_ret {ts : Tys} {r : ℤ} {m : Reader}
    (nonneg : 0 ≤ (ts.ambusUnpackAll (fun _ => true) r m).ret) : 0 ≤ r :=
  not_lt.mp fun failed => absurd nonneg (not_le.mpr (ret_neg failed m))

/-- Nothing is read at the end of a container that is no array. -/
theorem Ty.dataUnpack_neg : (t : Ty) → (below : Reader) →
    (t.dataUnpack (⟨false, []⟩ :: below)).ret < 0
  | .simple s, below => by simp [Ty.dataUnpack, readBasic, take, enxio]
  | .string, below => by simp [Ty.dataUnpack, readString, take, enxio]
  | .seq elem, below => by
    have inner := elem.dataUnpack_neg below
    have stop : ¬0 < (elem.dataUnpack (⟨false, []⟩ :: below)).ret := by omega
    simpa [Ty.dataUnpack, enterContainer, take, dataUnpackEach, stop] using inner
  | .map key value, below => by
    simp [Ty.dataUnpack, enterContainer, take, dataUnpackEntries, enxio]
  | .struct first rest, below => by simp [Ty.dataUnpack, enterContainer, take, enxio]

/-! ### Containers that stay open -/

@[simp] theorem Reader.leaves_append (above below : Reader) :
    Reader.leaves (above ++ below) = above.leaves + below.leaves := by
  induction above with
  | nil => simp [Reader.leaves]
  | cons frame above ih => simp [ih, Nat.add_assoc]

section Block

variable {node : Node} {rest : List Node} {outer : Reader}

/-- What was entered above a container that goes on with `node` has nothing left. -/
def Blocked (node : Node) (rest : List Node) (outer m : Reader) : Prop :=
  ∃ above, Reader.leaves above = 0 ∧ m = above ++ ⟨false, node :: rest⟩ :: outer

open Classical in
/-- The leaves that can be read without `node`. -/
noncomputable def blockedLeaves (node : Node) (rest : List Node) (outer m : Reader) : ℕ :=
  if Blocked node rest outer m then outer.leaves else m.leaves

theorem blockedLeaves_of_blocked {m : Reader} (blocked : Blocked node rest outer m) :
    blockedLeaves node rest outer m = outer.leaves := if_pos blocked

theorem blockedLeaves_of_not {m : Reader} (free : ¬Blocked node rest outer m) :
    blockedLeaves node rest outer m = m.leaves := if_neg free

theorem blockedLeaves_le (m : Reader) : blockedLeaves node rest outer m ≤ m.leaves := by
  by_cases blocked : Blocked node rest outer m
  · rw [blockedLeaves_of_blocked blocked]
    obtain ⟨above, -, rfl⟩ := blocked
    simp only [Reader.leaves_append, Reader.leaves_cons]
    omega
  · rw [blockedLeaves_of_not blocked]

/-- What is on top of a blocked message is `node` itself or has nothing left. -/
theorem Blocked.cons {inArray : Bool} {top : Node} {later : List Node} {below : Reader}
    (blocked : Blocked node rest outer (⟨inArray, top :: later⟩ :: below)) :
    top = node ∨ top.leaves + leavesAll later = 0 ∧ Blocked node rest outer below := by
  obtain ⟨above, empty, same⟩ := blocked
  cases above with
  | nil =>
    left
    cases same
    rfl
  | cons frame above =>
    right
    obtain ⟨rfl, rfl⟩ := List.cons.inj same
    simp only [Reader.leaves_cons, leavesAll_cons] at empty
    exact ⟨by omega, above, by omega, rfl⟩

/-- Descriptions smaller than that of `node` do not come past it. -/
theorem potential_blockedLeaves :
    Potential (sizeOf node.sig) (blockedLeaves node rest outer) where
  take select small m taken := by
    obtain ⟨inArray, top, later, below, x, rfl, chosen, done⟩ | ⟨r, -, stay⟩ := take_cases select m
    · obtain ⟨smaller, one⟩ := small top x chosen
      have free : ¬Blocked node rest outer (⟨inArray, top :: later⟩ :: below) := by
        intro blocked
        obtain rfl | ⟨empty, -⟩ := blocked.cons
        · exact lt_irrefl _ smaller
        · omega
      have le := @blockedLeaves_le node rest outer (⟨inArray, later⟩ :: below)
      rw [done, blockedLeaves_of_not free]
      simp only [Reader.leaves_cons, leavesAll_cons] at le ⊢
      omega
    · rw [stay] at taken
      cases taken
  enter sig smaller m := by
    obtain ⟨inArray, items, later, below, rfl, -, done⟩ | ⟨r, -, stay⟩ := enterContainer_cases sig m
    · rw [done]
      by_cases blocked : Blocked node rest outer (⟨inArray, .container sig items :: later⟩ :: below)
      · obtain rfl | ⟨empty, above, empty', rfl⟩ := blocked.cons
        · exact absurd smaller (lt_irrefl _)
        · have still : Blocked node rest outer (⟨sig.isArray, items⟩ :: ⟨inArray, later⟩ ::
              (above ++ ⟨false, node :: rest⟩ :: outer)) := by
            refine ⟨⟨sig.isArray, items⟩ :: ⟨inArray, later⟩ :: above, ?_, rfl⟩
            rw [Node.leaves] at empty
            simp only [Reader.leaves_cons]
            omega
          rw [blockedLeaves_of_blocked still, blockedLeaves_of_blocked blocked]
      · rw [blockedLeaves_of_not blocked]
        refine (blockedLeaves_le _).trans ?_
        simp only [Reader.leaves_cons, leavesAll_cons, Node.leaves]
        omega
    · rw [stay]
  leave m := by
    by_cases blocked : Blocked node rest outer m
    · obtain ⟨above, empty, same⟩ := id blocked
      rw [blockedLeaves_of_blocked blocked]
      cases above with
      | nil =>
        subst same
        cases outer with
        | nil => exact (blockedLeaves_of_blocked blocked).le
        | cons frame outer => exact blockedLeaves_le _
      | cons frame above =>
        have left : leaveContainer m = above ++ ⟨false, node :: rest⟩ :: outer := by
          subst same
          cases above <;> rfl
        rw [Reader.leaves_cons] at empty
        rw [left, blockedLeaves_of_blocked ⟨above, by omega, rfl⟩]
    · rw [blockedLeaves_of_not blocked]
      exact (blockedLeaves_le _).trans (leaveContainer_leaves_le m)

end Block

/-- An object behind an open container is not read; what is taken for it comes from further out. -/
theorem Ty.leaves_lt_of_open {t : Ty} {v : t.CVal} (occupied : 0 < t.leaves v) {inArray : Bool}
    {rest : List Node} {outer : Reader}
    (restored : (t.dataUnpack (⟨inArray, []⟩ :: ⟨false, t.dataNode v :: rest⟩ :: outer)).val = some v) :
    (t.dataUnpack (⟨inArray, []⟩ :: ⟨false, t.dataNode v :: rest⟩ :: outer)).msg.leaves <
      outer.leaves := by
  have potential := @potential_blockedLeaves (t.dataNode v) rest outer
  rw [t.dataNode_sig] at potential
  have start : Blocked (t.dataNode v) rest outer
      (⟨inArray, []⟩ :: ⟨false, t.dataNode v :: rest⟩ :: outer) := ⟨[⟨inArray, []⟩], rfl, rfl⟩
  have paid := (t.pays_at_end potential inArray (⟨false, t.dataNode v :: rest⟩ :: outer)).1
  rw [restored, blockedLeaves_of_blocked start, Option.elim_some] at paid
  generalize t.dataUnpack (⟨inArray, []⟩ :: ⟨false, t.dataNode v :: rest⟩ :: outer) = u at paid ⊢
  by_cases blocked : Blocked (t.dataNode v) rest outer u.msg
  · rw [blockedLeaves_of_blocked blocked] at paid
    omega
  · rw [blockedLeaves_of_not blocked] at paid
    omega

/-! ### Objects that are followed by others -/

/-- Something was lost on the way, or a container stays open. -/
def Astray (m m' : Reader) : Prop := Sinks 1 m m' ∨ ∃ inArray, m' = ⟨inArray, []⟩ :: m

theorem Astray.solid {m m' : Reader} (solid : Solid m) (astray : Astray m m') : Solid m' := by
  obtain sinks | ⟨inArray, rfl⟩ := astray
  · exact sinks.solid
  · exact solid.cons trivial

/-- The last field of a struct passes on what happened to it. -/
theorem Astray.leave {inArray : Bool} {m m' : Reader} (astray : Astray (⟨inArray, []⟩ :: m) m') :
    Astray m (leaveContainer m') := by
  obtain sinks | ⟨inArray', rfl⟩ := astray
  · exact .inl (sinks.trans (.leave sinks.solid)).of_end
  · exact .inr ⟨inArray, rfl⟩

/-- In front of unread members, the object does not come back or the message is astray. -/
def Ty.Strays (t : Ty) (v : t.CVal) : Prop :=
  ∀ inArray rest below, Solid (⟨inArray, rest⟩ :: below) →
    0 < Reader.leaves (⟨inArray, rest⟩ :: below) →
    (t.dataUnpack (⟨inArray, t.dataNode v :: rest⟩ :: below)).val = some v →
    0 ≤ (t.dataUnpack (⟨inArray, t.dataNode v :: rest⟩ :: below)).ret →
    Astray (⟨inArray, rest⟩ :: below) (t.dataUnpack (⟨inArray, t.dataNode v :: rest⟩ :: below)).msg

/-- The same for the fields of a struct in front of unread members. -/
def Tys.Strays (ts : Tys) (vs : ts.CVal) : Prop :=
  ∀ r m, Solid m → 0 < m.leaves →
    ts.complete (ts.ambusUnpackAll (fun _ => true) r
      (⟨false, ts.dataNodes (fun _ => true) vs⟩ :: m)).val = some vs →
    0 ≤ (ts.ambusUnpackAll (fun _ => true) r (⟨false, ts.dataNodes (fun _ => true) vs⟩ :: m)).ret →
    Astray m (leaveContainer
      (ts.ambusUnpackAll (fun _ => true) r (⟨false, ts.dataNodes (fun _ => true) vs⟩ :: m)).msg)

theorem Tys.complete_cons_eq_some {first : Ty} {rest : Tys} {args : (Tys.cons first rest).Written}
    {v : (Tys.cons first rest).CVal} :
    (Tys.cons first rest).complete args = some v ↔
      args.1 = some v.1 ∧ rest.complete args.2 = some v.2 := by
  simp only [complete, Option.bind_eq_some_iff, Option.map_eq_some_iff]
  constructor
  · rintro ⟨x, head, xs, tail, rfl⟩
    exact ⟨head, tail⟩
  · rintro ⟨head, tail⟩
    exact ⟨v.1, head, v.2, tail, rfl⟩

/-- Fields that come back were read one after the other. -/
theorem Tys.ambusUnpackAll_of_complete {first : Ty} {rest : Tys} {r : ℤ} {m : Reader}
    {v : (Tys.cons first rest).CVal}
    (restored : (Tys.cons first rest).complete
      ((Tys.cons first rest).ambusUnpackAll (fun _ => true) r m).val = some v) :
    (first.dataUnpack m).val = some v.1 ∧
      rest.complete (rest.ambusUnpackAll (fun _ => true) (first.dataUnpack m).ret
        (first.dataUnpack m).msg).val = some v.2 ∧
      (Tys.cons first rest).ambusUnpackAll (fun _ => true) r m =
        ⟨(rest.ambusUnpackAll (fun _ => true) (first.dataUnpack m).ret (first.dataUnpack m).msg).ret,
          ((first.dataUnpack m).val, (rest.ambusUnpackAll (fun _ => true) (first.dataUnpack m).ret
            (first.dataUnpack m).msg).val),
          (rest.ambusUnpackAll (fun _ => true) (first.dataUnpack m).ret
            (first.dataUnpack m).msg).msg⟩ := by
  rw [complete_cons_eq_some] at restored
  obtain ⟨head, tail⟩ := restored
  by_cases nonneg : 0 ≤ r
  · simp only [ambusUnpackAll, nonneg, if_true] at head tail ⊢
    exact ⟨head, tail, trivial⟩
  · simp only [ambusUnpackAll, nonneg, if_false] at head
    cases head

/-- Fields that are read in a message astray take what is not theirs, or do not come back. -/
theorem Tys.leaves_lt_of_astray {first : Ty} {rest : Tys} {r : ℤ} {outer m : Reader}
    (astray : Astray (⟨false, first.dataNode first.filled ::
      rest.dataNodes (fun _ => true) rest.filled⟩ :: outer) m)
    (restored : (Tys.cons first rest).complete
      ((Tys.cons first rest).ambusUnpackAll (fun _ => true) r m).val =
        some (first.filled, rest.filled)) :
    ((Tys.cons first rest).ambusUnpackAll (fun _ => true) r m).msg.leaves < outer.leaves := by
  have positive := first.filled_leaves_pos
  obtain sinks | ⟨inArray, rfl⟩ := astray
  · have lost := sinks.lost (Nat.zero_le 0) (by
      simp only [Reader.leaves_cons, leavesAll_cons, first.leaves_dataNode]
      omega)
    have paid := (Tys.cons first rest).leaves_le r m
    have object := (Tys.cons first rest).leaves_complete_le
      ((Tys.cons first rest).ambusUnpackAll (fun _ => true) r m).val
    rw [restored, Option.elim_some, leaves_cons] at object
    dsimp only at object
    simp only [Reader.leaves_cons, leavesAll_cons, first.leaves_dataNode, rest.leaves_dataNodes]
      at lost
    omega
  · obtain ⟨head, -, read⟩ := ambusUnpackAll_of_complete restored
    have less := Ty.leaves_lt_of_open positive head
    rw [read]
    exact ((Nat.le_add_left _ _).trans (rest.leaves_le _ _)).trans_lt less

theorem Tys.sinks_of_astray {first : Ty} {rest : Tys} {r : ℤ} {outer m : Reader}
    (solid : Solid (⟨false, first.dataNode first.filled ::
      rest.dataNodes (fun _ => true) rest.filled⟩ :: outer))
    (astray : Astray (⟨false, first.dataNode first.filled ::
      rest.dataNodes (fun _ => true) rest.filled⟩ :: outer) m)
    (restored : (Tys.cons first rest).complete
      ((Tys.cons first rest).ambusUnpackAll (fun _ => true) r m).val =
        some (first.filled, rest.filled)) :
    Sinks 1 outer
      (leaveContainer ((Tys.cons first rest).ambusUnpackAll (fun _ => true) r m).msg) := by
  have less := leaves_lt_of_astray astray restored
  have after := Sinks.course.ambusUnpackAll (.cons first rest) r m (astray.solid solid)
  have left := Sinks.leave after.solid
  have le := left.le.trans_lt less
  exact ⟨left.solid, le.le, fun same => absurd same le.ne⟩

theorem Tys.dataNodes_cons (first : Ty) (rest : Tys) (v : (Tys.cons first rest).CVal) :
    (Tys.cons first rest).dataNodes (fun _ => true) v =
      first.dataNode v.1 :: rest.dataNodes (fun _ => true) v.2 := by
  simp [dataNodes]

/-- A field astray that others follow. -/
theorem Tys.Strays.of_followed {first g : Ty} {rest : Tys} {v : first.CVal} (strays : first.Strays v) :
    (Tys.cons first (.cons g rest)).Strays (v, (g.filled, rest.filled)) := by
  intro r m solid _ restored nonneg
  have inner : Solid (⟨false, g.dataNode g.filled :: rest.dataNodes (fun _ => true) rest.filled⟩ :: m) :=
    solid.cons (allFull_cons.mpr ⟨g.filled_full, rest.filled_full⟩)
  have occupied := g.filled_leaves_pos
  simp only [dataNodes_cons] at restored nonneg ⊢
  obtain ⟨head, tail, read⟩ := ambusUnpackAll_of_complete restored
  rw [read] at nonneg ⊢
  have astray := strays false _ m inner (by
    simp only [Reader.leaves_cons, leavesAll_cons, g.leaves_dataNode]
    omega) head (nonneg_of_ret nonneg)
  exact .inl (sinks_of_astray inner astray tail)

/-- A field astray in the last place. -/
theorem Tys.Strays.of_last {first : Ty} {v : first.CVal} (strays : first.Strays v) :
    (Tys.cons first .nil).Strays (v, ()) := by
  intro r m solid positive restored nonneg
  have inner : Solid (⟨false, []⟩ :: m) := solid.cons trivial
  simp only [dataNodes_cons] at restored nonneg ⊢
  obtain ⟨head, tail, read⟩ := ambusUnpackAll_of_complete restored
  rw [read] at nonneg ⊢
  exact (strays false [] m inner (by simpa using positive) head (nonneg_of_ret nonneg)).leave

/-- Fields astray behind one that is not. -/
theorem Tys.Strays.cons {first : Ty} {rest : Tys} {vs : rest.CVal} (good : first.Exact)
    (strays : rest.Strays vs) : (Tys.cons first rest).Strays (first.filled, vs) := by
  intro r m solid positive restored nonneg
  simp only [dataNodes_cons] at restored nonneg ⊢
  obtain ⟨-, tail, read⟩ := ambusUnpackAll_of_complete restored
  rw [read] at nonneg ⊢
  rw [Ty.Exact.dataUnpack first good] at tail nonneg ⊢
  exact strays _ m solid positive tail nonneg

theorem Tys.exists_strays_cons {first : Ty} {rest : Tys}
    (head : ¬first.Exact → ∃ v, first.Strays v) (later : ¬rest.Exact → ∃ vs, rest.Strays vs)
    (bad : ¬(Tys.cons first rest).Exact) : ∃ vs, (Tys.cons first rest).Strays vs := by
  by_cases good : first.Exact
  · obtain ⟨vs, strays⟩ := later fun tail => bad ⟨good, tail⟩
    exact ⟨_, .cons good strays⟩
  · obtain ⟨v, strays⟩ := head good
    cases rest with
    | nil => exact ⟨_, .of_last strays⟩
    | cons g rest => exact ⟨_, .of_followed strays⟩

theorem Ty.Strays.struct {first : Ty} {rest : Tys} (valid : (Ty.struct first rest).signature.valid)
    {vs : (Ty.struct first rest).CVal} (strays : (Tys.cons first rest).Strays vs) :
    (Ty.struct first rest).Strays vs := by
  intro inArray more below solid positive restored nonneg
  rw [dataUnpack_struct, dataNode_struct, enterContainer_next valid] at restored nonneg ⊢
  exact strays 1 _ solid positive restored nonneg

/-- An empty map is not left. -/
theorem Ty.dataUnpack_map_nil {key value : Ty} (valid : (Ty.map key value).signature.valid)
    (inArray : Bool) (rest : List Node) (below : Reader) :
    (Ty.map key value).dataUnpack (⟨inArray, (Ty.map key value).dataNode [] :: rest⟩ :: below) =
      ⟨0, some [], ⟨true, []⟩ :: ⟨inArray, rest⟩ :: below⟩ := by
  rw [signature] at valid
  simp only [dataUnpack, dataNode, List.map_nil, enterContainer_next valid]
  simp [dataUnpackEntries, enterContainer, take, Sig.isArray]

theorem Ty.Strays.map {key value : Ty} (valid : (Ty.map key value).signature.valid) :
    (Ty.map key value).Strays [] := by
  intro inArray rest below _ _ _ _
  rw [dataUnpack_map_nil valid]
  exact .inr ⟨true, rfl⟩

/-- The elements of an array end it if they report nothing. -/
theorem dataUnpackEach_ne {α : Type} {unpack : Reader → Unpacked (Option α)} {fuel : ℕ} {m : Reader}
    (silent : (unpack m).ret ≤ 0) (x : α) :
    (dataUnpackEach unpack (fuel + 1) m).val ≠ some [x] := by
  simp only [dataUnpackEach, not_lt.mpr silent, if_false]
  split_ifs <;> simp

theorem Ty.dataUnpack_seq_of_next {elem : Ty} (valid : elem.signature.valid) (v : List elem.CVal)
    (inArray : Bool) (rest : List Node) (below : Reader) :
    ∃ fuel, (Ty.seq elem).dataUnpack (⟨inArray, (Ty.seq elem).dataNode v :: rest⟩ :: below) =
      { dataUnpackEach elem.dataUnpack (fuel + 1)
          (⟨true, v.map elem.dataNode⟩ :: ⟨inArray, rest⟩ :: below) with
        msg := leaveContainer (dataUnpackEach elem.dataUnpack (fuel + 1)
          (⟨true, v.map elem.dataNode⟩ :: ⟨inArray, rest⟩ :: below)).msg } := by
  have valid' : (Sig.array elem.signature).valid := by simpa [Sig.valid] using valid
  simp only [dataUnpack, dataNode, enterContainer_next valid']
  exact ⟨_, rfl⟩

/-- Elements that leave a container make the array leave the one it is in. -/
theorem Ty.Strays.seq_nil {elem : Ty} (valid : elem.signature.valid) (pops : elem.pops = 1) :
    (Ty.seq elem).Strays [] := by
  intro inArray rest below solid _ _ _
  obtain ⟨fuel, read⟩ := dataUnpack_seq_of_next valid [] inArray rest below
  have inner := Sinks.course.dataUnpack elem
  rw [pops] at inner
  have start : Solid (⟨true, []⟩ :: ⟨inArray, rest⟩ :: below) := solid.cons trivial
  have loop := Sinks.course.each inner fuel start
  rw [read]
  exact .inl (loop.trans (.leave loop.solid)).of_end

/-- Elements that report nothing are lost. -/
theorem Ty.Strays.seq_singleton {elem : Ty} (valid : elem.signature.valid) (silent : elem.status = 0)
    (x : elem.CVal) : (Ty.seq elem).Strays [x] := by
  intro inArray rest below _ _ restored _
  obtain ⟨fuel, read⟩ := dataUnpack_seq_of_next valid [x] inArray rest below
  rw [read] at restored
  exact absurd restored (dataUnpackEach_ne (silent ▸ elem.ret_le _) x)

theorem Ty.exists_strays_seq {elem : Ty} (valid : elem.signature.valid) (bad : ¬elem.IsBasic) :
    ∃ v, (Ty.seq elem).Strays v := by
  cases elem with
  | simple s => exact absurd trivial bad
  | string => exact absurd trivial bad
  | seq elem => exact ⟨_, .seq_nil valid (by rw [pops])⟩
  | map key value => exact ⟨_, .seq_singleton valid (by rw [status]) []⟩
  | struct first rest => exact ⟨_, .seq_nil valid (by rw [pops])⟩

mutual

/-- Every description that is not exact has an object that strays. -/
theorem Ty.exists_strays : (t : Ty) → t.signature.valid → ¬t.Exact → ∃ v, t.Strays v
  | .simple _, _, bad | .string, _, bad => absurd trivial bad
  | .seq elem, valid, bad => Ty.exists_strays_seq (by simpa [Ty.signature, Sig.valid] using valid) bad
  | .map key value, valid, _ => ⟨_, Ty.Strays.map valid⟩
  | .struct first rest, valid, bad => by
    obtain ⟨head, tail⟩ : first.signature.valid ∧ rest.signature.valid := by
      simpa [Ty.signature, Sig.valid, Sigs.valid] using valid
    obtain ⟨vs, strays⟩ := Tys.exists_strays_cons (Ty.exists_strays first head)
      (Tys.exists_strays rest tail) bad
    exact ⟨vs, .struct valid strays⟩

theorem Tys.exists_strays : (ts : Tys) → ts.signature.valid → ¬ts.Exact → ∃ vs, ts.Strays vs
  | .nil, _, bad => absurd trivial bad
  | .cons first rest, valid, bad => by
    obtain ⟨head, tail⟩ : first.signature.valid ∧ rest.signature.valid := by
      simpa [Tys.signature, Sigs.valid] using valid
    exact Tys.exists_strays_cons (Ty.exists_strays first head) (Tys.exists_strays rest tail) bad

end

end AmlCommonlib.Dbus
