import AmlCommonlib.Lib.Runs
import AmlCommonlib.SocketIpcV2.DoublyLinked

/-! # The list of integers

`deleteIntNodeWithValue` of `util_list.c`, over the heap of nodes and a second one for the integers
that the elements point to.
-/

namespace AmlCommonlib.SocketIpcV2

/-- A list whose elements point to integers. -/
structure IntList where
  list : UtilList ℕ
  ints : ℕ → Option ℤ
  /-- The nodes that have been given to `free`, in order. -/
  freed : List ℕ

namespace IntList

def start : IntList := ⟨createList, fun _ => none, []⟩

/-- A new integer and a `push_back` of it; the addresses are what `malloc` returns. -/
def pushBack (l : IntList) (address pointer : ℕ) (value nodetypeData : ℤ) : Option IntList :=
  (l.list.pushBack address pointer nodetypeData).map fun list =>
    { l with list := list, ints := Function.update l.ints pointer (some value) }

/-- `front`, with the integer that it points to. -/
def front (l : IntList) : Option (ℤ × ℤ) := do
  let (nodetypeData, pointer) ← l.list.front
  let value ← l.ints pointer
  return (nodetypeData, value)

/-- `free` of an integer. -/
def freeInt (l : IntList) (pointer : ℕ) : Option IntList :=
  (l.ints pointer).map fun _ => { l with ints := Function.update l.ints pointer none }

/-- `pop_front`; the caller may free the integer, as `free(front(list))` does. -/
def popFront (l : IntList) (release : Bool) : Option IntList := do
  let l ← match release, l.list.front with
    | true, some (_, pointer) => l.freeInt pointer
    | _, _ => some l
  let list ← l.list.popFront
  return { l with list := list, freed := l.freed ++ l.list.head.toList }

/-- One round of the loop of `deleteIntNodeWithValue`, with the next `current`. -/
def deleteRound (l : IntList) (value : ℤ) (current : ℕ) : Option (IntList × Option ℕ) := do
  let node ← l.list.heap current
  let data ← l.ints node.data
  if data = value then
    let list ← l.list.unlink current
    let toDelete ← list.heap current
    let l ← { l with list := list }.freeInt toDelete.data
    let list ← l.list.free (some current)
    return ({ l with list := list, freed := l.freed ++ [current] }, toDelete.next)
  else return (l, node.next)

/-- The loop of `deleteIntNodeWithValue`. -/
def deleteLoop (value : ℤ) : ℕ → IntList → Option ℕ → Option IntList
  | _, l, none => some l
  | 0, _, some _ => none
  | fuel + 1, l, some current => do
    let (l, next) ← l.deleteRound value current
    deleteLoop value fuel l next

/-- `deleteIntNodeWithValue`. -/
def deleteIntNodeWithValue (fuel : ℕ) (l : IntList) (value : ℤ) : Option IntList :=
  deleteLoop value fuel l l.list.head

inductive Op where
  | pushBack (address pointer : ℕ) (value nodetypeData : ℤ)
  | popFront (release : Bool)
  | delete (value : ℤ)

/-- An operation, with the fuel for its loop. -/
def apply (fuel : ℕ) (l : IntList) : Op → Option IntList
  | .pushBack address pointer value nodetypeData => l.pushBack address pointer value nodetypeData
  | .popFront release => l.popFront release
  | .delete value => l.deleteIntNodeWithValue fuel value

/-- `malloc` returns memory that is not in use. -/
def Op.Allocates (l : IntList) : Op → Prop
  | .pushBack address pointer _ _ => l.list.heap address = none ∧ l.ints pointer = none
  | _ => True

/-- One operation that returns. -/
def Step (l : IntList) (op : Op) (l' : IntList) : Prop :=
  op.Allocates l ∧ ∃ fuel, l.apply fuel op = some l'

end IntList

/-! ### The plain sequence -/

/-- An element of the plain sequence: the address that names its node, the `nodeTypeData` and the
integer. -/
structure Element where
  address : ℕ
  nodeTypeData : ℤ
  value : ℤ
deriving DecidableEq

/-- What the list stands for, and the elements that have been removed from it. -/
structure Sequence where
  elements : List Element
  removed : List Element

namespace Sequence

def start : Sequence := ⟨[], []⟩

/-- Append, drop the first, filter out every element with the value. -/
def apply (s : Sequence) : IntList.Op → Sequence
  | .pushBack address _ value nodetypeData =>
    { s with elements := s.elements ++ [⟨address, nodetypeData, value⟩] }
  | .popFront _ => ⟨s.elements.drop 1, s.removed ++ s.elements.take 1⟩
  | .delete value =>
    ⟨s.elements.filter (·.value ≠ value), s.removed ++ s.elements.filter (·.value = value)⟩

def run (ops : List IntList.Op) : Sequence := ops.foldl apply start

end Sequence

/-! ### The list of integers -/

namespace IntList

/-- A node that holds an element of the sequence. -/
def Stands (ints : ℕ → Option ℤ) (node : ℕ × ℤ × ℕ) (e : Element) : Prop :=
  node.1 = e.address ∧ node.2.1 = e.nodeTypeData ∧ ints node.2.2 = some e.value

/-- The list has these nodes, each with an integer of its own, and there are no other nodes in
memory. -/
structure Held (l : IntList) (nodes : List (ℕ × ℤ × ℕ)) : Prop where
  consists : l.list.Consists nodes
  allocated : ∀ address, (l.list.heap address).isSome ↔ address ∈ nodes.map Prod.fst
  pointers : (nodes.map fun node => node.2.2).Nodup

/-- The list stands for the sequence. -/
structure Represents (l : IntList) (nodes : List (ℕ × ℤ × ℕ)) (s : Sequence) : Prop where
  held : l.Held nodes
  contents : List.Forall₂ (Stands l.ints) nodes s.elements
  freed : l.freed = s.removed.map Element.address

variable {l l' : IntList} {nodes before behind : List (ℕ × ℤ × ℕ)} {node : ℕ × ℤ × ℕ}
  {s : Sequence} {elements : List Element} {value : ℤ}

theorem contents_frame {ints ints' : ℕ → Option ℤ}
    (contents : List.Forall₂ (Stands ints) nodes elements)
    (same : ∀ node ∈ nodes, ints' node.2.2 = ints node.2.2) :
    List.Forall₂ (Stands ints') nodes elements := by
  induction contents with
  | nil => exact .nil
  | cons here _ ih =>
    refine .cons ⟨here.1, here.2.1, ?_⟩ (ih fun node member => same node (List.mem_cons_of_mem _ member))
    rw [same _ (List.mem_cons_self ..)]
    exact here.2.2

/-- Integers that no element points to are free to change. -/
theorem contents_update {ints : ℕ → Option ℤ} {pointer : ℕ} {new : Option ℤ}
    (contents : List.Forall₂ (Stands ints) nodes elements)
    (outside : pointer ∉ nodes.map fun node => node.2.2) :
    List.Forall₂ (Stands (Function.update ints pointer new)) nodes elements := by
  apply contents_frame contents
  intro node member
  apply Function.update_of_ne
  rintro rfl
  exact outside (List.mem_map_of_mem member)

/-- What the nodes hold is one list of elements. -/
theorem contents_unique {ints : ℕ → Option ℤ} {elements' : List Element}
    (contents : List.Forall₂ (Stands ints) nodes elements)
    (contents' : List.Forall₂ (Stands ints) nodes elements') : elements = elements' := by
  induction contents generalizing elements' with
  | nil =>
    cases contents'
    rfl
  | @cons node e rest later here _ ih =>
    cases contents' with
    | @cons _ e' _ later' here' contents' =>
      obtain ⟨address, type, value⟩ := e
      obtain ⟨address', type', value'⟩ := e'
      obtain ⟨rfl, rfl, isValue⟩ := here
      obtain ⟨rfl, rfl, isValue'⟩ := here'
      obtain rfl := Option.some.inj (isValue.symm.trans isValue')
      rw [ih contents']

/-- A list stands for one sequence only. -/
theorem Represents.elements_unique {nodes' : List (ℕ × ℤ × ℕ)} {s' : Sequence}
    (represents : l.Represents nodes s) (represents' : l.Represents nodes' s') :
    s.elements = s'.elements := by
  obtain rfl := represents.held.consists.chain.functional represents'.held.consists.chain
  exact contents_unique represents.contents represents'.contents

/-- Each node of the list has its integer. -/
theorem ints_of_mem (contents : List.Forall₂ (Stands l.ints) nodes elements)
    (member : node ∈ nodes) : (l.ints node.2.2).isSome := by
  induction contents with
  | nil => cases member
  | cons here _ ih =>
    rcases List.mem_cons.mp member with rfl | member
    · rw [here.2.2]
      rfl
    · exact ih member

theorem represents_start : start.Represents [] .start where
  held := ⟨.createList, by simp [start, createList], List.nodup_nil⟩
  contents := .nil
  freed := rfl

theorem Represents.pushBack {address pointer : ℕ} {nodetypeData : ℤ}
    (represents : l.Represents nodes s) (fresh : l.list.heap address = none)
    (freshInt : l.ints pointer = none) :
    ∃ l', l.pushBack address pointer value nodetypeData = some l' ∧
      l'.Represents (nodes ++ [(address, nodetypeData, pointer)])
        (s.apply (.pushBack address pointer value nodetypeData)) := by
  obtain ⟨⟨consists, allocated, pointers⟩, contents, freed⟩ := represents
  have outside : address ∉ nodes.map Prod.fst := by
    rw [← allocated, fresh]
    simp
  have outsideInts : pointer ∉ nodes.map fun node => node.2.2 := by
    intro member
    obtain ⟨node, inNodes, rfl⟩ := List.mem_map.mp member
    have here := ints_of_mem contents inNodes
    rw [freshInt] at here
    cases here
  obtain ⟨list, pushed, consists', allocated'⟩ := consists.pushBack outside
  refine ⟨{ l with list := list, ints := Function.update l.ints pointer (some value) },
    by rw [IntList.pushBack, pushed, Option.map_some], ⟨consists', ?_, ?_⟩, ?_, freed⟩
  · intro other
    rw [allocated', allocated]
    simp [or_comm]
  · simpa using pointers.concat outsideInts
  · apply List.rel_append (contents_update contents outsideInts)
    exact .cons ⟨rfl, rfl, Function.update_self ..⟩ .nil

theorem Represents.front (represents : l.Represents nodes s) :
    l.front = s.elements.head?.map fun e => (e.nodeTypeData, e.value) := by
  have contents := represents.contents
  rw [IntList.front, represents.held.consists.front]
  generalize s.elements = elements at contents ⊢
  cases contents with
  | nil => rfl
  | cons here later => simp [here.2.1, here.2.2]

theorem freeInt_of_isSome {pointer : ℕ} (here : (l.ints pointer).isSome) :
    l.freeInt pointer = some { l with ints := Function.update l.ints pointer none } := by
  obtain ⟨value, here⟩ := Option.isSome_iff_exists.mp here
  rw [freeInt, here, Option.map_some]

/-- The pointers of the other elements are other pointers. -/
theorem Held.outside (held : l.Held (before ++ node :: behind)) :
    node.2.2 ∉ (before ++ behind).map fun node => node.2.2 := by
  have pointers := held.pointers
  rw [List.map_append, List.map_cons, List.nodup_middle, List.nodup_cons, ← List.map_append]
    at pointers
  exact pointers.1

/-- What is left once a node is out of the list and freed. -/
theorem Held.remove {list : UtilList ℕ} {ints : ℕ → Option ℤ} {freed : List ℕ}
    (held : l.Held (before ++ node :: behind)) (consists : list.Consists (before ++ behind))
    (allocated : ∀ other, (list.heap other).isSome ↔
      other ≠ node.1 ∧ (l.list.heap other).isSome) :
    Held ⟨list, ints, freed⟩ (before ++ behind) where
  consists := consists
  allocated := by
    have distinct := held.consists.distinct
    rw [List.map_append, List.map_cons, List.nodup_middle, List.nodup_cons, ← List.map_append]
      at distinct
    intro other
    rw [allocated, held.allocated]
    constructor
    · rintro ⟨ne, member⟩
      simpa [ne] using member
    · intro member
      refine ⟨ne_of_mem_of_not_mem member distinct.1, ?_⟩
      rw [List.map_append, List.mem_append] at member
      rw [List.map_append, List.mem_append]
      exact member.imp_right (List.mem_cons_of_mem _)
  pointers := held.pointers.sublist (((List.sublist_cons_self _ _).append_left _).map _)

theorem Represents.popFront {release : Bool} (represents : l.Represents nodes s) :
    ∃ l', l.popFront release = some l' ∧ l'.Represents nodes.tail (s.apply (.popFront release)) := by
  obtain ⟨held, contents, freed⟩ := represents
  obtain ⟨elements, removed⟩ := s
  have front := held.consists.front
  have head := held.consists.head
  cases contents with
  | nil =>
    refine ⟨{ l with freed := l.freed ++ [] }, ?_, ⟨⟨held.consists, held.allocated, held.pointers⟩,
      .nil, by simpa [Sequence.apply] using freed⟩⟩
    have popped : l.list.popFront = some l.list := by rw [UtilList.popFront, head]; rfl
    simp [IntList.popFront, front, popped, head]
  | @cons node e rest later here contents =>
    obtain ⟨list, popped, consists, allocated⟩ := held.consists.popFront
    have split : l.Held ([] ++ node :: rest) := held
    have freed' : l.freed ++ [node.1] = (removed ++ [e]).map Element.address := by
      simp [freed, here.1]
    cases release with
    | false =>
      refine ⟨⟨list, l.ints, l.freed ++ [node.1]⟩, ?_, split.remove consists allocated, contents,
        freed'⟩
      simp [IntList.popFront, popped, head]
    | true =>
      refine ⟨⟨list, Function.update l.ints node.2.2 none, l.freed ++ [node.1]⟩, ?_,
        split.remove consists allocated, contents_update contents split.outside, freed'⟩
      have isSome : (l.ints node.2.2).isSome := by
        rw [here.2.2]
        rfl
      simp [IntList.popFront, front, popped, head, freeInt_of_isSome isSome]

/-- A round at an element with another value. -/
theorem deleteRound_of_ne (held : l.Held (before ++ node :: behind)) {data : ℤ}
    (here : l.ints node.2.2 = some data) (ne : data ≠ value) :
    l.deleteRound value node.1 = some (l, behind.head?.map Prod.fst) := by
  simp [deleteRound, held.consists.linked before node behind rfl, here, ne]

/-- A round at an element with the value. -/
theorem deleteRound_of_eq (held : l.Held (before ++ node :: behind))
    (here : l.ints node.2.2 = some value) :
    ∃ list, l.deleteRound value node.1 =
        some (⟨list, Function.update l.ints node.2.2 none, l.freed ++ [node.1]⟩,
          behind.head?.map Prod.fst) ∧
      Held ⟨list, Function.update l.ints node.2.2 none, l.freed ++ [node.1]⟩
        (before ++ behind) := by
  have atNode := held.consists.linked before node behind rfl
  obtain ⟨mid, unlinked, -⟩ := held.consists.unlink
  obtain ⟨same, list, freed, consists, allocated⟩ := held.consists.free_of_unlink unlinked
  refine ⟨list, ?_, held.remove consists allocated⟩
  have isSome : (IntList.ints { l with list := mid } node.2.2).isSome := by
    rw [here]
    rfl
  simp [deleteRound, atNode, here, unlinked, same, freed, freeInt_of_isSome isSome]

/-- The loop from any node on: what is before it stays. -/
theorem deleteLoop_spec {kept : List Element} (contents : List.Forall₂ (Stands l.ints) behind elements)
    (contents' : List.Forall₂ (Stands l.ints) before kept) (held : l.Held (before ++ behind)) {fuel : ℕ}
    (enough : behind.length ≤ fuel) :
    ∃ l' nodes, deleteLoop value fuel l (behind.head?.map Prod.fst) = some l' ∧ l'.Held nodes ∧
      List.Forall₂ (Stands l'.ints) nodes (kept ++ elements.filter (·.value ≠ value)) ∧
      l'.freed = l.freed ++ (elements.filter (·.value = value)).map Element.address := by
  induction behind generalizing l before kept elements fuel with
  | nil =>
    cases contents
    refine ⟨l, before, by cases fuel <;> rfl, by simpa using held, by simpa using contents', by simp⟩
  | cons node rest ih =>
    cases contents with
    | @cons _ e _ later here contents =>
      obtain ⟨fuel, rfl⟩ : ∃ n, fuel = n + 1 := ⟨fuel - 1, by simp at enough; omega⟩
      have enough : rest.length ≤ fuel := by simpa using enough
      by_cases same : e.value = value
      · obtain ⟨list, round, held'⟩ := deleteRound_of_eq held (same ▸ here.2.2)
        have outside := held.outside
        rw [List.map_append, List.mem_append, not_or] at outside
        obtain ⟨l', nodes, loop, done, contents'', freed⟩ := ih
          (contents_update contents outside.2) (contents_update contents' outside.1) held' enough
        refine ⟨l', nodes, ?_, done, ?_, ?_⟩
        · simpa [deleteLoop, round] using loop
        · simpa [same] using contents''
        · simp [freed, same, here.1]
      · have round := deleteRound_of_ne held here.2.2 same
        have held' : l.Held ((before ++ [node]) ++ rest) := by simpa using held
        obtain ⟨l', nodes, loop, done, contents'', freed⟩ := ih contents
          (List.rel_append contents' (.cons here .nil)) held' enough
        refine ⟨l', nodes, ?_, done, ?_, ?_⟩
        · simpa [deleteLoop, round] using loop
        · simpa [same] using contents''
        · simp [freed, same]

theorem Represents.delete (represents : l.Represents nodes s) {fuel : ℕ}
    (enough : nodes.length ≤ fuel) :
    ∃ l' nodes', l.deleteIntNodeWithValue fuel value = some l' ∧
      l'.Represents nodes' (s.apply (.delete value)) := by
  obtain ⟨held, contents, freed⟩ := represents
  obtain ⟨l', nodes', loop, held', contents', freed'⟩ :=
    @deleteLoop_spec l [] nodes s.elements value [] contents .nil held fuel enough
  refine ⟨l', nodes', ?_, held', contents', ?_⟩
  · rw [deleteIntNodeWithValue, held.consists.head]
    exact loop
  · rw [freed', freed, ← List.map_append]
    rfl

/-- More fuel does not change what the loop returns. -/
theorem deleteLoop_mono {fuel more : ℕ} {current : Option ℕ} (le : fuel ≤ more)
    (done : deleteLoop value fuel l current = some l') :
    deleteLoop value more l current = some l' := by
  induction fuel generalizing l current more with
  | zero =>
    cases current with
    | none => simpa [deleteLoop] using done
    | some address => cases done
  | succ fuel ih =>
    cases current with
    | none => simpa [deleteLoop] using done
    | some address =>
      obtain ⟨more, rfl⟩ : ∃ n, more = n + 1 := ⟨more - 1, by omega⟩
      rw [deleteLoop, Option.bind_eq_bind, Option.bind_eq_some_iff] at done ⊢
      obtain ⟨next, round, rest⟩ := done
      exact ⟨next, round, ih (by omega) rest⟩

/-- One operation on memory that is free, with fuel for every node. -/
theorem Represents.apply (represents : l.Represents nodes s) {op : Op} (fresh : op.Allocates l)
    {fuel : ℕ} (enough : nodes.length ≤ fuel) :
    ∃ l' nodes', l.apply fuel op = some l' ∧ l'.Represents nodes' (s.apply op) := by
  cases op with
  | pushBack address pointer value nodetypeData =>
    obtain ⟨l', pushed, represents'⟩ := represents.pushBack fresh.1 fresh.2
    exact ⟨l', _, pushed, represents'⟩
  | popFront release =>
    obtain ⟨l', popped, represents'⟩ := represents.popFront
    exact ⟨l', _, popped, represents'⟩
  | delete value => exact represents.delete enough

theorem Represents.step (represents : l.Represents nodes s) {op : Op} (step : l.Step op l') :
    ∃ nodes', l'.Represents nodes' (s.apply op) := by
  obtain ⟨fresh, fuel, done⟩ := step
  obtain ⟨l'', nodes', done', represents'⟩ := represents.apply fresh (Nat.le_max_left _ fuel)
  obtain rfl : l' = l'' := by
    cases op with
    | delete value =>
      exact Option.some.inj ((deleteLoop_mono (Nat.le_max_right _ _) done).symm.trans done')
    | _ => exact Option.some.inj (done.symm.trans done')
  exact ⟨nodes', represents'⟩

theorem represents_run {ops : List Op} (run : Run Step start ops l) :
    ∃ nodes, l.Represents nodes (.run ops) := by
  refine run.preserves_history (fun past l => ∃ nodes, l.Represents nodes (.run past)) ?_
    ⟨[], represents_start⟩
  rintro past l op l' ⟨nodes, represents⟩ step
  rw [Sequence.run, List.foldl_concat]
  exact represents.step step

/-- The list is a doubly linked list that stands for the plain sequence, and every operation on it
returns. -/
theorem refines_sequence {ops : List Op} (run : Run Step start ops l) :
    ∃ nodes, l.list.Shaped nodes ∧
      List.Forall₂ (Stands l.ints) nodes (Sequence.run ops).elements ∧
      (∀ address, (l.list.heap address).isSome ↔ address ∈ nodes.map Prod.fst) ∧
      l.freed = (Sequence.run ops).removed.map Element.address ∧
      l.front = (Sequence.run ops).elements.head?.map (fun e => (e.nodeTypeData, e.value)) ∧
      (l.list.empty = true ↔ (Sequence.run ops).elements = []) ∧
      ∀ op : Op, op.Allocates l → ∃ l', ∀ fuel, nodes.length ≤ fuel → l.apply fuel op = some l' := by
  obtain ⟨nodes, represents⟩ := represents_run run
  refine ⟨nodes, represents.held.consists.shaped, represents.contents, represents.held.allocated,
    represents.freed, represents.front, ?_, ?_⟩
  · rw [represents.held.consists.empty_iff, ← List.length_eq_zero_iff, represents.contents.length_eq,
      List.length_eq_zero_iff]
  · intro op fresh
    obtain ⟨l', -, done, -⟩ := represents.apply fresh (Nat.le_refl _)
    refine ⟨l', ?_⟩
    intro fuel enough
    cases op with
    | delete value => exact deleteLoop_mono enough done
    | _ => exact done

/-- `testList.c`: three integers, two pops and a deletion of what is left. -/
theorem refines_sequence_test :
    ∃ l, Run Step start [.pushBack 10 20 1 0, .pushBack 11 21 2 0, .pushBack 12 22 3 0,
        .popFront false, .popFront false, .delete 3] l ∧
      ∃ nodes, l.list.Shaped nodes ∧ List.Forall₂ (Stands l.ints) nodes [] ∧
        l.freed = [10, 11, 12] ∧ l.list.empty = true := by
  have run : ∃ l, Run Step start [.pushBack 10 20 1 0, .pushBack 11 21 2 0, .pushBack 12 22 3 0,
      .popFront false, .popFront false, .delete 3] l :=
    ⟨_, .cons ⟨⟨rfl, rfl⟩, 0, rfl⟩ <| .cons ⟨⟨rfl, rfl⟩, 0, rfl⟩ <| .cons ⟨⟨rfl, rfl⟩, 0, rfl⟩ <|
      .cons ⟨trivial, 0, rfl⟩ <| .cons ⟨trivial, 0, rfl⟩ <| .cons ⟨trivial, 1, rfl⟩ <| .nil _⟩
  obtain ⟨l, run⟩ := run
  obtain ⟨nodes, shaped, contents, -, freed, -, empty, -⟩ := refines_sequence run
  exact ⟨l, run, nodes, shaped, contents, freed, empty.mpr rfl⟩

end IntList

end AmlCommonlib.SocketIpcV2
