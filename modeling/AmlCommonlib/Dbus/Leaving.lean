import AmlCommonlib.Dbus.Leaves

/-! # Which containers are left

An array and a struct leave one container, whether or not they entered theirs. `Course` abstracts from
what is said of the message: whatever the calls respect holds of every description, together with the
containers it leaves at least.
-/

namespace AmlCommonlib.Dbus

/-! ### Courses -/

/-- What all calls on a message in `P` respect: how it was before and is after `k` containers or more
were left. -/
structure Course (P : Reader → Prop) (R : ℕ → Reader → Reader → Prop) : Prop where
  keeps : ∀ {k m m'}, R k m m' → P m'
  refl : ∀ {m}, P m → R 0 m m
  trans : ∀ {k l m m' m''}, R k m m' → R l m' m'' → R (k + l) m m''
  mono : ∀ {k l m m'}, R k m m' → l ≤ k → R l m m'
  take : ∀ {α : Type} (select : Node → Option α) {m}, P m → R 0 m (Dbus.take select m).2.2
  enter : ∀ sig {m}, P m → R 0 m (enterContainer sig m).2
  leave : ∀ {m}, P m → R 1 m (leaveContainer m)

namespace Course

variable {P : Reader → Prop} {R : ℕ → Reader → Reader → Prop} {m : Reader}

/-- The first element of an array is always tried. -/
theorem each (course : Course P R) {α : Type} {unpack : Reader → Unpacked (Option α)} {k : ℕ}
    (inner : ∀ m, P m → R k m (unpack m).msg) (fuel : ℕ) (start : P m) :
    R k m (dataUnpackEach unpack (fuel + 1) m).msg := by
  induction fuel generalizing m with
  | zero =>
    rw [dataUnpackEach]
    split_ifs <;> exact inner m start
  | succ fuel ih =>
    have first := inner m start
    rw [dataUnpackEach]
    by_cases read : 0 < (unpack m).ret
    · simp only [read, if_true]
      exact course.mono (course.trans first (ih (course.keeps first))) (Nat.le_add_right k k)
    · simpa only [read, if_false] using first

theorem entries (course : Course P R) {K V : Type} {sig : Sig}
    {unpackKey : Reader → Unpacked (Option K)} {unpackValue : Reader → Unpacked (Option V)}
    (keys : ∀ m, P m → R 0 m (unpackKey m).msg) (values : ∀ m, P m → R 0 m (unpackValue m).msg)
    {fuel : ℕ} {r : ℤ} (start : P m) :
    R 0 m (dataUnpackEntries sig unpackKey unpackValue fuel r m).msg := by
  induction fuel generalizing r m with
  | zero => exact course.refl start
  | succ fuel ih =>
    have entered := course.enter sig start
    have key := course.trans entered (keys _ (course.keeps entered))
    have keyLeft := course.trans key (course.leave (course.keeps key))
    have value := course.trans key (values _ (course.keeps key))
    have valueLeft := course.trans value (course.leave (course.keeps value))
    have afterKey := fun r => course.trans keyLeft (@ih _ r (course.keeps keyLeft))
    have afterValue := fun r => course.trans valueLeft (@ih _ r (course.keeps valueLeft))
    simp only [dataUnpackEntries]
    split_ifs
    · exact course.mono (afterValue _) (Nat.zero_le _)
    · exact course.mono (afterValue _) (Nat.zero_le _)
    · exact course.mono (afterKey _) (Nat.zero_le _)
    · exact entered
    · exact course.refl start

mutual

/-- What the calls respect, every description does. -/
theorem dataUnpack (course : Course P R) : (t : Ty) → (m : Reader) → P m →
    R t.pops m (t.dataUnpack m).msg
  | .simple s, _, start => course.take (Node.ct? s.code) start
  | .string, _, start => course.take Node.text? start
  | .seq elem, m, start => by
    have entered := course.enter (.array elem.signature) start
    have read := course.each (fun m start => course.mono (course.dataUnpack elem m start)
      (Nat.zero_le _)) (Reader.size (enterContainer (.array elem.signature) m).2)
      (course.keeps entered)
    have loop := course.trans entered read
    simp only [Ty.dataUnpack]
    exact course.trans loop (course.leave (course.keeps loop))
  | .map key value, m, start => by
    have entered := course.enter (.array (.entry key.signature value.signature)) start
    simp only [Ty.dataUnpack]
    exact course.trans entered (course.entries
      (fun m start => course.mono (course.dataUnpack key m start) (Nat.zero_le _))
      (fun m start => course.mono (course.dataUnpack value m start) (Nat.zero_le _))
      (course.keeps entered))
  | .struct first rest, m, start => by
    have entered := course.enter (.struct (.cons first.signature rest.signature)) start
    have head := course.trans entered (course.mono
      (course.dataUnpack first _ (course.keeps entered)) (Nat.zero_le _))
    have tail := fun r => course.trans head (course.ambusUnpackAll rest r _ (course.keeps head))
    simp only [Ty.dataUnpack]
    split_ifs
    · exact course.trans (tail _) (course.leave (course.keeps (tail _)))
    · exact course.trans entered (course.leave (course.keeps entered))

theorem ambusUnpackAll (course : Course P R) : (ts : Tys) → (r : ℤ) → (m : Reader) → P m →
    R 0 m (ts.ambusUnpackAll (fun _ => true) r m).msg
  | .nil, _, _, start => by
    rw [Tys.ambusUnpackAll]
    exact course.refl start
  | .cons first rest, r, m, start => by
    have head := course.mono (course.dataUnpack first m start) (Nat.zero_le _)
    simp only [Tys.ambusUnpackAll, if_true]
    split_ifs
    · exact course.trans head (course.ambusUnpackAll rest _ _ (course.keeps head))
    · exact course.refl start

end

end Course

/-! ### Full containers -/

mutual

/-- Every container has a member. -/
def Node.Full : Node → Prop
  | .basic .. | .string _ => True
  | .container _ items => items ≠ [] ∧ AllFull items

def AllFull : List Node → Prop
  | [] => True
  | node :: rest => node.Full ∧ AllFull rest

end

@[simp] theorem allFull_nil : AllFull [] := by simp [AllFull]

@[simp] theorem allFull_cons {node : Node} {rest : List Node} :
    AllFull (node :: rest) ↔ node.Full ∧ AllFull rest := by simp [AllFull]

mutual

theorem Node.Full.leaves_pos : (node : Node) → node.Full → 0 < node.leaves
  | .basic .., _ | .string _, _ => by simp [Node.leaves]
  | .container _ items, full => by
    rw [Node.Full] at full
    rw [Node.leaves]
    exact AllFull.leaves_pos items full.2 full.1

theorem AllFull.leaves_pos : (nodes : List Node) → AllFull nodes → nodes ≠ [] → 0 < leavesAll nodes
  | [], _, occupied => absurd rfl occupied
  | node :: rest, full, _ => by
    have head := Node.Full.leaves_pos node (allFull_cons.mp full).1
    rw [leavesAll_cons]
    omega

end

/-- The message itself, which is the last of the entered containers, is read to its end. -/
def Grounded : Reader → Prop
  | [] => False
  | [frame] => frame.rest = []
  | _ :: outer :: below => Grounded (outer :: below)

structure Solid (m : Reader) : Prop where
  full : ∀ f ∈ m, AllFull f.rest
  grounded : Grounded m

/-- How many of the innermost containers are read to their end. -/
def Reader.slack : Reader → ℕ
  | [] => 0
  | ⟨_, []⟩ :: below => Reader.slack below + 1
  | ⟨_, _ :: _⟩ :: _ => 0

theorem Solid.tail {frame outer : Frame} {below : Reader} (solid : Solid (frame :: outer :: below)) :
    Solid (outer :: below) :=
  ⟨fun f member => solid.full f (List.mem_cons_of_mem _ member), solid.grounded⟩

theorem Solid.cons {frame : Frame} {m : Reader} (full : AllFull frame.rest) (solid : Solid m) :
    Solid (frame :: m) := by
  refine ⟨List.forall_mem_cons.mpr ⟨full, solid.full⟩, ?_⟩
  cases m with
  | nil => exact solid.grounded.elim
  | cons outer below => exact solid.grounded

/-- A container with unread members is not the message itself. -/
theorem Solid.below {inArray : Bool} {node : Node} {rest : List Node} {below : Reader}
    (solid : Solid (⟨inArray, node :: rest⟩ :: below)) : Solid below := by
  cases below with
  | nil => exact absurd solid.grounded (List.cons_ne_nil _ _)
  | cons outer below => exact solid.tail

/-- At least `k` containers were left, or something was read or dropped. -/
structure Sinks (k : ℕ) (m m' : Reader) : Prop where
  solid : Solid m'
  le : m'.leaves ≤ m.leaves
  slack : m'.leaves = m.leaves → 0 < m.leaves → m'.slack + k ≤ m.slack

namespace Sinks

variable {k l : ℕ} {m m' m'' : Reader}

theorem refl (solid : Solid m) : Sinks 0 m m := ⟨solid, le_refl _, fun _ _ => le_refl _⟩

theorem trans (first : Sinks k m m') (second : Sinks l m' m'') : Sinks (k + l) m m'' := by
  have le := first.le
  have le' := second.le
  refine ⟨second.solid, le'.trans le, fun same positive => ?_⟩
  have first' := first.slack (by omega) positive
  have second' := second.slack (by omega) (by omega)
  omega

theorem mono (sinks : Sinks k m m') (le : l ≤ k) : Sinks l m m' :=
  ⟨sinks.solid, sinks.le, fun same positive =>
    (Nat.add_le_add_left le _).trans (sinks.slack same positive)⟩

/-- Something was read or dropped where no container could be left. -/
theorem lost (sinks : Sinks (k + 1) m m') (tight : m.slack ≤ k) (positive : 0 < m.leaves) :
    m'.leaves < m.leaves := by
  refine lt_of_le_of_ne sinks.le fun same => ?_
  have := sinks.slack same positive
  omega

theorem leave (solid : Solid m) : Sinks 1 m (leaveContainer m) := by
  match m with
  | [] => exact solid.grounded.elim
  | [⟨inArray, []⟩] => exact ⟨solid, le_refl _, fun _ positive => absurd positive (lt_irrefl 0)⟩
  | [⟨inArray, node :: rest⟩] => exact absurd solid.grounded (List.cons_ne_nil _ _)
  | ⟨inArray, []⟩ :: outer :: below =>
    exact ⟨solid.tail, by simp [leaveContainer], fun _ _ => le_refl _⟩
  | ⟨inArray, node :: rest⟩ :: outer :: below =>
    have positive := AllFull.leaves_pos _ (solid.full _ (List.mem_cons_self ..)) (List.cons_ne_nil _ _)
    refine ⟨solid.tail, by simp [leaveContainer], fun same => ?_⟩
    simp only [leaveContainer, Reader.leaves_cons] at same positive
    omega

theorem take {α : Type} (select : Node → Option α) (solid : Solid m) :
    Sinks 0 m (Dbus.take select m).2.2 := by
  obtain ⟨inArray, node, rest, below, x, rfl, -, taken⟩ | ⟨r, -, stay⟩ := take_cases select m
  · have full := allFull_cons.mp (solid.full _ (List.mem_cons_self ..))
    have positive := Node.Full.leaves_pos node full.1
    rw [taken]
    refine ⟨.cons full.2 solid.below, by simp, fun same => ?_⟩
    simp only [Reader.leaves_cons, leavesAll_cons] at same
    omega
  · rw [stay]
    exact refl solid

theorem enter (sig : Sig) (solid : Solid m) : Sinks 0 m (enterContainer sig m).2 := by
  obtain ⟨inArray, items, rest, below, rfl, -, done⟩ | ⟨r, -, stay⟩ := enterContainer_cases sig m
  · have full := allFull_cons.mp (solid.full _ (List.mem_cons_self ..))
    obtain ⟨occupied, inner⟩ : items ≠ [] ∧ AllFull items := by simpa [Node.Full] using full.1
    rw [done]
    refine ⟨.cons inner (.cons full.2 solid.below), ?_, fun _ _ => ?_⟩
    · simp only [Reader.leaves_cons, leavesAll_cons, Node.leaves]
      omega
    · cases items with
      | nil => exact absurd rfl occupied
      | cons item items => exact Nat.zero_le _
  · rw [stay]
    exact refl solid

theorem course : Course Solid Sinks where
  keeps := solid
  refl := refl
  trans := trans
  mono := mono
  take select _ := take select
  enter sig _ := enter sig
  leave := leave

/-- A container that was read to its end before is left for free. -/
theorem of_end {inArray : Bool} (sinks : Sinks (k + 1) (⟨inArray, []⟩ :: m) m') : Sinks k m m' := by
  have le := sinks.le
  have slack := sinks.slack
  simp only [Reader.leaves_cons, leavesAll_nil, Nat.zero_add, Reader.slack] at le slack
  refine ⟨sinks.solid, le, fun same positive => ?_⟩
  have := slack same positive
  omega

end Sinks

/-! ### Containers that are read to their end -/

/-- Only containers that are no arrays, all of them read to their end. -/
def Bare (m : Reader) : Prop := m ≠ [] ∧ ∀ f ∈ m, f = ⟨false, []⟩

/-- The same, or the end of an array in them. -/
def Ended (m : Reader) : Prop := Bare m ∨ ∃ below, Bare below ∧ m = ⟨true, []⟩ :: below

theorem Bare.cons {m : Reader} (bare : Bare m) : Bare (⟨false, []⟩ :: m) :=
  ⟨List.cons_ne_nil _ _, List.forall_mem_cons.mpr ⟨rfl, bare.2⟩⟩

theorem Bare.leave {m : Reader} (bare : Bare m) : Bare (leaveContainer m) := by
  match m with
  | [] | [_] => exact bare
  | frame :: outer :: below =>
    exact ⟨List.cons_ne_nil _ _, fun f member => bare.2 f (List.mem_cons_of_mem _ member)⟩

theorem Bare.leaves_eq_zero {m : Reader} (bare : Bare m) : m.leaves = 0 := by
  obtain ⟨-, empty⟩ := bare
  induction m with
  | nil => rfl
  | cons frame below ih =>
    obtain ⟨rfl, later⟩ := List.forall_mem_cons.mp empty
    simp [ih later]

theorem Bare.solid {m : Reader} (bare : Bare m) : Solid m := by
  obtain ⟨occupied, empty⟩ := bare
  refine ⟨fun f member => by simp [empty f member], ?_⟩
  induction m with
  | nil => exact occupied rfl
  | cons frame below ih =>
    obtain ⟨rfl, later⟩ := List.forall_mem_cons.mp empty
    cases below with
    | nil => rfl
    | cons outer below => exact ih (List.cons_ne_nil _ _) later

theorem Ended.leave {m : Reader} (ended : Ended m) : Bare (leaveContainer m) := by
  obtain bare | ⟨below, bare, rfl⟩ := ended
  · exact bare.leave
  · cases below with
    | nil => exact absurd rfl bare.1
    | cons outer below => exact bare

theorem Ended.rest_eq_nil {frame : Frame} {m : Reader} (ended : Ended (frame :: m)) :
    frame.rest = [] := by
  obtain bare | ⟨below, -, same⟩ := ended
  · rw [bare.2 frame (List.mem_cons_self ..)]
  · rw [(List.cons.inj same).1]

/-- How a message of which nothing is left can change. -/
structure Probed (k : ℕ) (m m' : Reader) : Prop where
  ended : Ended m'
  bare : 0 < k ∨ Bare m → Bare m'

namespace Probed

variable {k l : ℕ} {m m' m'' : Reader}

theorem refl (ended : Ended m) : Probed 0 m m :=
  ⟨ended, fun left => left.resolve_left (lt_irrefl 0)⟩

theorem take {α : Type} (select : Node → Option α) (ended : Ended m) :
    Probed 0 m (Dbus.take select m).2.2 := by
  obtain ⟨inArray, node, rest, below, x, rfl, -⟩ | ⟨r, -, stay⟩ := take_cases select m
  · exact absurd ended.rest_eq_nil (List.cons_ne_nil _ _)
  · rw [stay]
    exact refl ended

theorem enter (sig : Sig) (ended : Ended m) : Probed 0 m (enterContainer sig m).2 := by
  obtain ⟨inArray, items, rest, below, rfl, -⟩ | ⟨r, -, stay⟩ := enterContainer_cases sig m
  · exact absurd ended.rest_eq_nil (List.cons_ne_nil _ _)
  · rw [stay]
    exact refl ended

theorem course : Course Ended Probed where
  keeps := ended
  refl := refl
  trans first second := by
    refine ⟨second.ended, fun left => second.bare ?_⟩
    obtain left | bare := left
    · obtain left | left := Nat.add_pos_iff_pos_or_pos.mp left
      · exact .inr (first.bare (.inl left))
      · exact .inl left
    · exact .inr (first.bare (.inr bare))
  mono probed le := ⟨probed.ended, fun left => probed.bare (left.imp_left (lt_of_lt_of_le · le))⟩
  take select _ := take select
  enter sig _ := enter sig
  leave ended := ⟨.inl ended.leave, fun _ => ended.leave⟩

end Probed

end AmlCommonlib.Dbus
