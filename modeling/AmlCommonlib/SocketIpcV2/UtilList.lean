import Mathlib.Data.Int.Notation
import Mathlib.Data.List.Basic
import Mathlib.Logic.Function.Basic
import Mathlib.Tactic.Common

/-! # The doubly linked list

`util_list.c` over an explicit heap of nodes. Following a null pointer or one to freed memory is a
visible failure, and `malloc` may return any address that is not in use.
-/

namespace AmlCommonlib.SocketIpcV2

variable {δ : Type*}

/-- `Node`. -/
structure Node (δ : Type*) where
  nodeTypeData : ℤ
  data : δ
  next : Option ℕ
  prev : Option ℕ

/-- `List`, with the heap that its nodes are in. -/
structure UtilList (δ : Type*) where
  heap : ℕ → Option (Node δ)
  head : Option ℕ
  tail : Option ℕ

/-- `createList`. -/
def createList : UtilList δ := ⟨fun _ => none, none, none⟩

namespace UtilList

/-- The node a pointer leads to. -/
def deref (l : UtilList δ) (pointer : Option ℕ) : Option (Node δ) := pointer.bind l.heap

/-- `push_back`, with the address of the new node. -/
def pushBack (l : UtilList δ) (address : ℕ) (data : δ) (nodetypeData : ℤ) : Option (UtilList δ) :=
  match l.head with
  | none =>
    some ⟨Function.update l.heap address (some ⟨nodetypeData, data, none, none⟩), some address,
      some address⟩
  | some _ =>
    match l.tail, l.deref l.tail with
    | some last, some node =>
      some ⟨Function.update
          (Function.update l.heap address (some ⟨nodetypeData, data, none, some last⟩)) last
          (some { node with next := some address }),
        l.head, some address⟩
    | _, _ => none

/-- `front`, on a list that is not empty. -/
def front (l : UtilList δ) : Option (ℤ × δ) :=
  (l.deref l.head).map fun node => (node.nodeTypeData, node.data)

/-- `list->head = list->head->next`. -/
def advance (l : UtilList δ) : Option (UtilList δ) :=
  (l.deref l.head).map fun node => { l with head := node.next }

/-- `list->head->prev = NULL`. -/
def clearPrev (l : UtilList δ) : Option (UtilList δ) :=
  match l.head, l.deref l.head with
  | some first, some node =>
    some { l with heap := Function.update l.heap first (some { node with prev := none }) }
  | _, _ => none

/-- `list->tail = NULL`. -/
def clearTail (l : UtilList δ) : UtilList δ := { l with tail := none }

/-- `free`. -/
def free (l : UtilList δ) (pointer : Option ℕ) : Option (UtilList δ) :=
  match pointer, l.deref pointer with
  | some address, some _ => some { l with heap := Function.update l.heap address none }
  | _, _ => none

end UtilList

/-! ### The nodes of a list -/

/-- The nodes reachable from a pointer, as addresses with their contents. -/
inductive Chain (heap : ℕ → Option (Node δ)) : Option ℕ → List (ℕ × ℤ × δ) → Prop
  | nil : Chain heap none []
  | cons {address : ℕ} {node : Node δ} {rest : List (ℕ × ℤ × δ)} (here : heap address = some node)
      (later : Chain heap node.next rest) :
      Chain heap (some address) ((address, node.nodeTypeData, node.data) :: rest)

/-- The list consists of these nodes, and its tail is the last of them. -/
structure UtilList.Holds (l : UtilList δ) (nodes : List (ℕ × ℤ × δ)) : Prop where
  chain : Chain l.heap l.head nodes
  last : l.tail = (nodes.map Prod.fst).getLast?

/-- The tail is the last node reachable from the head, or both are null. -/
def UtilList.WellFormed (l : UtilList δ) : Prop := ∃ nodes, l.Holds nodes

namespace Chain

variable {heap : ℕ → Option (Node δ)} {head : Option ℕ} {nodes : List (ℕ × ℤ × δ)}

theorem nil_iff : Chain heap head [] ↔ head = none := by
  constructor
  · intro chain
    cases chain
    rfl
  · rintro rfl
    exact .nil

theorem cons_iff {first : ℕ × ℤ × δ} :
    Chain heap head (first :: nodes) ↔ ∃ node, head = some first.1 ∧ heap first.1 = some node ∧
      first.2 = (node.nodeTypeData, node.data) ∧ Chain heap node.next nodes := by
  constructor
  · intro chain
    cases chain with
    | cons here later => exact ⟨_, rfl, here, rfl, later⟩
  · obtain ⟨address, contents⟩ := first
    rintro ⟨node, rfl, here, rfl, later⟩
    exact .cons here later

theorem functional {nodes' : List (ℕ × ℤ × δ)} (chain : Chain heap head nodes)
    (chain' : Chain heap head nodes') : nodes = nodes' := by
  induction chain generalizing nodes' with
  | nil =>
    cases chain'
    rfl
  | cons here later ih =>
    cases chain' with
    | cons here' later' =>
      obtain rfl := Option.some.inj (here.symm.trans here')
      rw [ih later']

/-- From any of its nodes on, a chain is a chain. -/
theorem of_mem {address : ℕ} (chain : Chain heap head nodes) (member : address ∈ nodes.map Prod.fst) :
    ∃ rest, rest <:+ nodes ∧ Chain heap (some address) rest := by
  induction chain with
  | nil => cases member
  | @cons first node rest here later ih =>
    rcases List.mem_cons.mp member with rfl | member
    · exact ⟨_, List.suffix_refl _, .cons here later⟩
    · obtain ⟨tail, suffix, chain⟩ := ih member
      exact ⟨tail, suffix.trans (List.suffix_cons ..), chain⟩

theorem allocated {address : ℕ} (chain : Chain heap head nodes)
    (member : address ∈ nodes.map Prod.fst) : ∃ node, heap address = some node := by
  obtain ⟨rest, -, chain⟩ := chain.of_mem member
  cases chain with
  | cons here later => exact ⟨_, here⟩

/-- No node is reached twice. -/
theorem nodup (chain : Chain heap head nodes) : (nodes.map Prod.fst).Nodup := by
  induction chain with
  | nil => exact List.nodup_nil
  | @cons first node rest here later ih =>
    rw [List.map_cons, List.nodup_cons]
    refine ⟨?_, ih⟩
    intro member
    obtain ⟨again, suffix, chain⟩ := later.of_mem member
    have same := (Chain.cons here later).functional chain
    have shorter := suffix.length_le
    rw [← same, List.length_cons] at shorter
    omega

/-- Memory outside the chain does not matter, nor do the `prev` pointers. -/
theorem congr {heap' : ℕ → Option (Node δ)} (chain : Chain heap head nodes)
    (same : ∀ address ∈ nodes.map Prod.fst, ∀ node, heap address = some node →
      ∃ prev, heap' address = some { node with prev := prev }) : Chain heap' head nodes := by
  induction chain with
  | nil => exact .nil
  | @cons first node rest here later ih =>
    obtain ⟨prev, here'⟩ := same first (List.mem_cons_self ..) node here
    have later' := ih fun address member => same address (List.mem_cons_of_mem _ member)
    exact @Chain.cons δ heap' first { node with prev := prev } rest here' later'

/-- Memory outside the chain is free to change. -/
theorem frame {heap' : ℕ → Option (Node δ)} (chain : Chain heap head nodes)
    (same : ∀ address ∈ nodes.map Prod.fst, heap' address = heap address) :
    Chain heap' head nodes := by
  apply chain.congr
  intro address member node here
  exact ⟨node.prev, (same address member).trans here⟩

/-- A node linked behind the last one is the new end of the chain. -/
theorem snoc {heap' : ℕ → Option (Node δ)} {address last : ℕ} {node new : Node δ}
    (chain : Chain heap head nodes) (isLast : (nodes.map Prod.fst).getLast? = some last)
    (atLast : heap last = some node) (linked : heap' last = some { node with next := some address })
    (added : heap' address = some new) (ends : new.next = none)
    (same : ∀ other, other ≠ last → other ≠ address → heap' other = heap other)
    (fresh : address ∉ nodes.map Prod.fst) :
    Chain heap' head (nodes ++ [(address, new.nodeTypeData, new.data)]) := by
  induction chain with
  | nil => cases isLast
  | @cons first firstNode rest here later ih =>
    rw [List.map_cons, List.mem_cons, not_or] at fresh
    cases rest with
    | nil =>
      obtain rfl := Option.some.inj isLast
      obtain rfl := Option.some.inj (here.symm.trans atLast)
      have end' : Chain heap' (some address) [(address, new.nodeTypeData, new.data)] :=
        .cons added (ends ▸ .nil)
      exact @Chain.cons δ heap' _ { firstNode with next := some address } _ linked end'
    | cons second more =>
      rw [List.map_cons, List.map_cons, List.getLast?_cons_cons, ← List.map_cons] at isLast
      have nodup := (Chain.cons here later).nodup
      rw [List.map_cons, List.nodup_cons] at nodup
      have notLast : first ≠ last := fun eq => nodup.1 (eq ▸ List.mem_of_getLast? isLast)
      exact .cons ((same first notLast (Ne.symm fresh.1)).trans here) (ih isLast fresh.2)

end Chain

namespace UtilList

variable {l l' : UtilList δ} {nodes : List (ℕ × ℤ × δ)} {address : ℕ}

theorem Holds.not_mem (holds : l.Holds nodes) (free : l.heap address = none) :
    address ∉ nodes.map Prod.fst := by
  intro member
  obtain ⟨node, here⟩ := holds.chain.allocated member
  rw [free] at here
  cases here

/-- An empty list is one whose head is null, whatever its tail is. -/
theorem pushBack_of_head_eq_none {data : δ} {nodetypeData : ℤ} (empty : l.head = none) :
    ∃ l', l.pushBack address data nodetypeData = some l' ∧
      l'.Holds [(address, nodetypeData, data)] ∧
      ∀ other, other ≠ address → l'.heap other = l.heap other := by
  refine ⟨_, by rw [UtilList.pushBack, empty], ⟨.cons (Function.update_self ..) .nil, rfl⟩, ?_⟩
  intro other other_ne
  exact Function.update_of_ne other_ne _ _

/-- `push_back` appends, and changes nothing but its own node and the last one. -/
theorem Holds.pushBack {data : δ} {nodetypeData : ℤ} (holds : l.Holds nodes)
    (free : l.heap address = none) :
    ∃ l', l.pushBack address data nodetypeData = some l' ∧
      l'.Holds (nodes ++ [(address, nodetypeData, data)]) ∧
      ∀ other, other ≠ address → other ∉ nodes.map Prod.fst → l'.heap other = l.heap other := by
  have fresh := holds.not_mem free
  obtain ⟨chain, last⟩ := holds
  cases nodes with
  | nil =>
    obtain ⟨l', pushed, holds', frame⟩ := pushBack_of_head_eq_none (Chain.nil_iff.mp chain)
    exact ⟨l', pushed, holds', fun other other_ne _ => frame other other_ne⟩
  | cons first rest =>
    obtain ⟨final, isFinal⟩ : ∃ final, ((first :: rest).map Prod.fst).getLast? = some final :=
      ⟨_, List.getLast?_cons⟩
    have inNodes := List.mem_of_getLast? isFinal
    obtain ⟨node, atFinal⟩ := chain.allocated inNodes
    obtain ⟨-, isHead, -⟩ := Chain.cons_iff.mp chain
    have ne : address ≠ final := fun eq => fresh (eq ▸ inNodes)
    rw [isFinal] at last
    refine ⟨⟨Function.update (Function.update l.heap address
        (some ⟨nodetypeData, data, none, some final⟩)) final
        (some { node with next := some address }), some first.1, some address⟩,
      by simp only [UtilList.pushBack, deref, isHead, last, Option.bind_some, atFinal], ⟨?_, ?_⟩, ?_⟩
    · have added : Function.update (Function.update l.heap address
          (some ⟨nodetypeData, data, none, some final⟩)) final
          (some { node with next := some address }) address =
          some ⟨nodetypeData, data, none, some final⟩ := by
        rw [Function.update_of_ne ne, Function.update_self]
      have linked := chain.snoc isFinal atFinal (Function.update_self ..) added rfl
        (fun other notFinal notNew => by
          rw [Function.update_of_ne notFinal, Function.update_of_ne notNew]) fresh
      rw [isHead] at linked
      exact linked
    · rw [List.map_append, List.map_singleton, List.getLast?_append]
      rfl
    · intro other notNew notMember
      have notFinal : other ≠ final := fun eq => notMember (eq ▸ inNodes)
      simp only [Function.update_of_ne notFinal, Function.update_of_ne notNew]

theorem Holds.head_eq_none_iff (holds : l.Holds nodes) : l.head = none ↔ nodes = [] := by
  cases nodes with
  | nil => simpa using Chain.nil_iff.mp holds.chain
  | cons first rest =>
    obtain ⟨-, isHead, -⟩ := Chain.cons_iff.mp holds.chain
    simp [isHead]

theorem Holds.front {first : ℕ × ℤ × δ} (holds : l.Holds (first :: nodes)) :
    l.front = some first.2 := by
  obtain ⟨node, isHead, here, contents, -⟩ := Chain.cons_iff.mp holds.chain
  rw [UtilList.front, deref, isHead, Option.bind_some, here, contents]
  rfl

/-- Moving the head along leaves the node it was at behind, and the tail as it was. -/
theorem Holds.advance {first : ℕ × ℤ × δ} (holds : l.Holds (first :: nodes)) :
    ∃ l', l.advance = some l' ∧ l'.heap = l.heap ∧ Chain l'.heap l'.head nodes ∧
      (nodes ≠ [] → l'.Holds nodes) := by
  obtain ⟨node, isHead, here, -, later⟩ := Chain.cons_iff.mp holds.chain
  refine ⟨{ l with head := node.next }, ?_, rfl, later, ?_⟩
  · rw [UtilList.advance, deref, isHead, Option.bind_some, here, Option.map_some]
  · intro nonempty
    obtain ⟨second, rest, rfl⟩ := List.exists_cons_of_ne_nil nonempty
    have last := holds.last
    rw [List.map_cons, List.map_cons, List.getLast?_cons_cons] at last
    exact ⟨later, last⟩

theorem Holds.clearPrev {first : ℕ × ℤ × δ} (holds : l.Holds (first :: nodes)) :
    ∃ l', l.clearPrev = some l' ∧ l'.Holds (first :: nodes) ∧
      ∀ other, other ∉ (first :: nodes).map Prod.fst → l'.heap other = l.heap other := by
  obtain ⟨node, isHead, here, -, -⟩ := Chain.cons_iff.mp holds.chain
  refine ⟨{ l with heap := Function.update l.heap first.1 (some { node with prev := none }) }, ?_,
    ⟨?_, holds.last⟩, ?_⟩
  · simp only [UtilList.clearPrev, deref, isHead, Option.bind_some, here]
  · apply holds.chain.congr
    intro address _ node' here'
    rcases eq_or_ne address first.1 with rfl | ne
    · obtain rfl := Option.some.inj (here.symm.trans here')
      exact ⟨none, Function.update_self ..⟩
    · exact ⟨node'.prev, (Function.update_of_ne ne _ _).trans here'⟩
  · intro other notMember
    exact Function.update_of_ne (List.ne_of_not_mem_cons notMember) _ _

/-- Freeing a node that is not in the list. -/
theorem Holds.free (holds : l.Holds nodes) {node : Node δ} (here : l.heap address = some node)
    (outside : address ∉ nodes.map Prod.fst) :
    ∃ l', l.free (some address) = some l' ∧ l'.Holds nodes := by
  refine ⟨{ l with heap := Function.update l.heap address none }, ?_, ?_, holds.last⟩
  · simp only [UtilList.free, deref, Option.bind_some, here]
  · apply holds.chain.frame
    intro other member
    exact Function.update_of_ne (ne_of_mem_of_not_mem member outside) _ _

end UtilList

end AmlCommonlib.SocketIpcV2
