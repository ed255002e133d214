import AmlCommonlib.SocketIpcV2.UtilList
import Mathlib.Data.List.Nodup

/-! # Both directions of the doubly linked list

`pop_front` and what `deleteIntNodeWithValue` does to the pointers. A list is its sequence of
nodes: what a node holds in `next` and `prev` is read off the nodes behind and before it.
-/

namespace AmlCommonlib.SocketIpcV2

variable {δ : Type*}

namespace UtilList

/-- `pop_front`. -/
def popFront (l : UtilList δ) : Option (UtilList δ) :=
  match l.head with
  | none => some l
  | some node => do
    let l ← l.advance
    let l ← if l.head = none then some l.clearTail else l.clearPrev
    l.free (some node)

/-- `empty`. -/
def empty (l : UtilList δ) : Bool := l.head.isNone

/-- `pointer->next = next`. -/
def setNext (l : UtilList δ) (pointer : ℕ) (next : Option ℕ) : Option (UtilList δ) :=
  (l.heap pointer).map fun node =>
    { l with heap := Function.update l.heap pointer (some { node with next := next }) }

/-- `pointer->prev = prev`. -/
def setPrev (l : UtilList δ) (pointer : ℕ) (prev : Option ℕ) : Option (UtilList δ) :=
  (l.heap pointer).map fun node =>
    { l with heap := Function.update l.heap pointer (some { node with prev := prev }) }

/-- The first conditional of `deleteIntNodeWithValue`. -/
def bypassPrev (l : UtilList δ) (current : ℕ) : Option (UtilList δ) := do
  let node ← l.heap current
  match node.prev with
  | some prev => l.setNext prev node.next
  | none => some { l with head := node.next }

/-- Its second conditional. -/
def bypassNext (l : UtilList δ) (current : ℕ) : Option (UtilList δ) := do
  let node ← l.heap current
  match node.next with
  | some next => l.setPrev next node.prev
  | none => some { l with tail := node.prev }

/-- Both, which take `current` out of the list. -/
def unlink (l : UtilList δ) (current : ℕ) : Option (UtilList δ) := do
  let l ← l.bypassPrev current
  l.bypassNext current

end UtilList

/-! ### The nodes of a well-formed list -/

/-- Every node points to the one behind it and to the one before it. -/
def Linked (heap : ℕ → Option (Node δ)) (nodes : List (ℕ × ℤ × δ)) : Prop :=
  ∀ before node behind, nodes = before ++ node :: behind →
    heap node.1 = some ⟨node.2.1, node.2.2, behind.head?.map Prod.fst, before.getLast?.map Prod.fst⟩

/-- The list has these nodes, linked both ways. -/
structure UtilList.Consists (l : UtilList δ) (nodes : List (ℕ × ℤ × δ)) : Prop where
  distinct : (nodes.map Prod.fst).Nodup
  linked : Linked l.heap nodes
  head : l.head = nodes.head?.map Prod.fst
  tail : l.tail = nodes.getLast?.map Prod.fst

/-- The shape of a doubly linked list, read off the memory: `nodes` are the ones reachable from the
head. -/
structure UtilList.Shaped (l : UtilList δ) (nodes : List (ℕ × ℤ × δ)) : Prop where
  reachable : Chain l.heap l.head nodes
  head_prev : ∀ node, l.deref l.head = some node → node.prev = none
  tail_next : ∀ node, l.deref l.tail = some node → node.next = none
  inverse : ∀ first ∈ nodes.map Prod.fst, ∀ second ∈ nodes.map Prod.fst, ∀ node node',
    l.heap first = some node → l.heap second = some node' →
      (node.next = some second ↔ node'.prev = some first)
  tail_last : l.tail = (nodes.map Prod.fst).getLast?
  head_null : l.head = none ↔ nodes = []
  tail_null : l.tail = none ↔ nodes = []

namespace Linked

variable {heap heap' : ℕ → Option (Node δ)} {nodes before behind : List (ℕ × ℤ × δ)}
  {node : ℕ × ℤ × δ}

/-- The addresses of the other nodes are other addresses. -/
theorem ne_of_mem {other : ℕ × ℤ × δ}
    (distinct : ((before ++ node :: behind).map Prod.fst).Nodup)
    (member : other ∈ before ++ behind) : other.1 ≠ node.1 := by
  rw [List.map_append, List.map_cons, List.nodup_middle, List.nodup_cons, ← List.map_append] at distinct
  intro same
  exact distinct.1 (same ▸ List.mem_map_of_mem member)

theorem last_ne {address : ℕ} (others : ∀ x ∈ nodes, x.1 ≠ address) :
    nodes.getLast?.map Prod.fst ≠ some address := by
  intro isLast
  obtain ⟨last, isLast, same⟩ := Option.map_eq_some_iff.mp isLast
  exact others last (List.mem_of_getLast? isLast) same

theorem first_ne {address : ℕ} (others : ∀ x ∈ nodes, x.1 ≠ address) :
    nodes.head?.map Prod.fst ≠ some address := by
  intro isFirst
  obtain ⟨first, isFirst, same⟩ := Option.map_eq_some_iff.mp isFirst
  exact others first (List.mem_of_mem_head? isFirst) same

theorem allocated {address : ℕ} (linked : Linked heap nodes)
    (member : address ∈ nodes.map Prod.fst) : (heap address).isSome := by
  obtain ⟨node, inNodes, rfl⟩ := List.mem_map.mp member
  obtain ⟨before, behind, rfl⟩ := List.append_of_mem inNodes
  rw [linked before node behind rfl]
  rfl

/-- From any node on, the nodes are reachable by `next`. -/
theorem chain (linked : Linked heap nodes) :
    ∀ before behind, nodes = before ++ behind → Chain heap (behind.head?.map Prod.fst) behind := by
  intro before behind split
  induction behind generalizing before with
  | nil => exact .nil
  | cons node rest ih =>
    have here := linked before node rest split
    have later := ih (before ++ [node]) (by simp [split])
    exact Chain.cons_iff.mpr ⟨_, rfl, here, rfl, later⟩

/-- The successor by `next` has this node as its `prev`, and the other way around. -/
theorem inverse (linked : Linked heap nodes) (distinct : (nodes.map Prod.fst).Nodup)
    {first second : ℕ} {node node' : Node δ} (member : first ∈ nodes.map Prod.fst)
    (member' : second ∈ nodes.map Prod.fst) (here : heap first = some node)
    (there : heap second = some node') : node.next = some second ↔ node'.prev = some first := by
  obtain ⟨x, memX, rfl⟩ := List.mem_map.mp member
  obtain ⟨y, memY, rfl⟩ := List.mem_map.mp member'
  have unique : ∀ a ∈ nodes, ∀ b ∈ nodes, a.1 = b.1 → a = b := by
    intro a memA b memB same
    exact List.inj_on_of_nodup_map distinct memA memB same
  constructor
  · intro next
    obtain ⟨before, behind, rfl⟩ := List.append_of_mem memX
    obtain rfl := Option.some.inj (here.symm.trans (linked before x behind rfl))
    cases behind with
    | nil => cases next
    | cons z rest =>
      obtain rfl := unique z (by simp) y memY (Option.some.inj next)
      have atZ := linked (before ++ [x]) z rest (by simp)
      obtain rfl := Option.some.inj (there.symm.trans atZ)
      simp
  · intro prev
    obtain ⟨before, behind, rfl⟩ := List.append_of_mem memY
    obtain rfl := Option.some.inj (there.symm.trans (linked before y behind rfl))
    rcases List.eq_nil_or_concat before with rfl | ⟨first, z, rfl⟩
    · cases prev
    · rw [List.concat_eq_append, List.getLast?_concat] at prev
      obtain rfl := unique z (by simp) x memX (Option.some.inj prev)
      have atZ := linked first z (y :: behind) (by simp)
      obtain rfl := Option.some.inj (here.symm.trans atZ)
      simp

/-- A node behind the last one. -/
theorem snoc (linked : Linked heap nodes) (distinct : (nodes.map Prod.fst).Nodup)
    (added : heap' node.1 = some ⟨node.2.1, node.2.2, none, nodes.getLast?.map Prod.fst⟩)
    (last : ∀ final, nodes.getLast? = some final → ∀ old, heap final.1 = some old →
      heap' final.1 = some { old with next := some node.1 })
    (same : ∀ other ∈ nodes, (∀ final, nodes.getLast? = some final → other.1 ≠ final.1) →
      heap' other.1 = heap other.1) : Linked heap' (nodes ++ [node]) := by
  intro before x behind split
  rcases List.eq_nil_or_concat behind with rfl | ⟨rest, final, rfl⟩
  · obtain ⟨rfl, single⟩ := List.append_inj' split rfl
    obtain rfl := List.singleton_inj.mp single
    exact added
  · rw [List.concat_eq_append, ← List.cons_append, ← List.append_assoc] at split
    obtain ⟨rfl, single⟩ := List.append_inj' split rfl
    obtain rfl := List.singleton_inj.mp single
    have here := linked before x rest rfl
    cases rest with
    | nil =>
      rw [last x (by simp) _ here]
      rfl
    | cons y rest =>
      rw [same x (by simp) ?_, here]
      · rfl
      · intro final isLast
        apply Ne.symm
        apply ne_of_mem distinct
        rw [List.getLast?_append_cons, List.getLast?_cons_cons] at isLast
        exact List.mem_append_right _ (List.mem_of_getLast? isLast)

/-- An element of a concatenation lies in its second part or in its first. -/
theorem side {α : Type*} {before behind pre post : List α} {x : α}
    (split : before ++ behind = pre ++ x :: post) :
    (∃ mid, pre = before ++ mid ∧ behind = mid ++ x :: post) ∨
      ∃ mid, before = pre ++ x :: mid ∧ post = mid ++ behind := by
  rcases List.append_eq_append_iff.mp split with ⟨mid, rfl, rfl⟩ | ⟨mid, rfl, tail⟩
  · exact .inl ⟨mid, rfl, rfl⟩
  · cases mid with
    | nil => exact .inl ⟨[], by simp, tail.symm⟩
    | cons y mid =>
      obtain ⟨rfl, rfl⟩ := List.cons.inj tail
      exact .inr ⟨mid, rfl, rfl⟩

/-- A node is taken out from between its neighbours. -/
theorem remove (linked : Linked heap (before ++ node :: behind))
    (distinct : ((before ++ node :: behind).map Prod.fst).Nodup)
    (left : ∀ last, before.getLast? = some last → ∀ old, heap last.1 = some old →
      heap' last.1 = some { old with next := behind.head?.map Prod.fst })
    (right : ∀ first, behind.head? = some first → ∀ old, heap first.1 = some old →
      heap' first.1 = some { old with prev := before.getLast?.map Prod.fst })
    (same : ∀ other ∈ before ++ behind, (∀ last, before.getLast? = some last → other.1 ≠ last.1) →
      (∀ first, behind.head? = some first → other.1 ≠ first.1) → heap' other.1 = heap other.1) :
    Linked heap' (before ++ behind) := by
  intro pre x post split
  have unique : ((pre ++ x :: post).map Prod.fst).Nodup := by
    rw [← split]
    exact distinct.sublist (((List.sublist_cons_self _ _).append_left _).map _)
  have others : ∀ other ∈ pre ++ post, x.1 ≠ other.1 := by
    intro other member
    exact (ne_of_mem unique member).symm
  rcases side split with ⟨mid, rfl, rfl⟩ | ⟨mid, rfl, rfl⟩
  · -- `x` is behind the node that is taken out
    have here := linked (before ++ node :: mid) x post (by simp)
    rcases List.eq_nil_or_concat' mid with rfl | ⟨mid, y, rfl⟩
    · rw [right x rfl _ here]
      simp
    · rw [same x (by simp) ?_ ?_, here]
      · simp only [← List.cons_append, ← List.append_assoc, List.getLast?_concat]
      · intro last isLast
        exact others last (by simp [List.mem_of_getLast? isLast])
      · intro first isFirst
        apply others first
        cases mid with
        | nil => simp_all
        | cons z mid => simp_all
  · -- `x` is before it
    have here := linked pre x (mid ++ node :: behind) (by simp)
    rcases List.eq_nil_or_concat' mid with rfl | ⟨mid, z, rfl⟩
    · rw [left x (by simp) _ here]
      simp
    · rw [same x (by simp) ?_ ?_, here]
      · cases mid <;> simp
      · intro last isLast
        obtain rfl : z = last := by
          rw [← List.cons_append, ← List.append_assoc, List.getLast?_concat] at isLast
          exact Option.some.inj isLast
        exact others z (by simp)
      · intro first isFirst
        exact others first (by simp [List.mem_of_mem_head? isFirst])

end Linked

namespace UtilList

variable {l l' : UtilList δ} {nodes before behind : List (ℕ × ℤ × δ)} {node : ℕ × ℤ × δ}

theorem Consists.createList : (createList : UtilList δ).Consists [] := by
  refine ⟨List.nodup_nil, ?_, rfl, rfl⟩
  intro before node behind split
  simp at split

theorem Consists.chain (consists : l.Consists nodes) : Chain l.heap l.head nodes := by
  rw [consists.head]
  exact consists.linked.chain [] nodes rfl

/-- What `front` reads is the first node. -/
theorem Consists.front (consists : l.Consists nodes) : l.front = nodes.head?.map Prod.snd := by
  rw [UtilList.front, deref, consists.head]
  cases nodes with
  | nil => rfl
  | cons first rest =>
    rw [List.head?_cons, Option.map_some, Option.bind_some, consists.linked [] first rest rfl]
    rfl

theorem Consists.empty_iff (consists : l.Consists nodes) : l.empty = true ↔ nodes = [] := by
  rw [UtilList.empty, consists.head]
  cases nodes <;> simp

theorem Consists.shaped (consists : l.Consists nodes) : l.Shaped nodes where
  reachable := consists.chain
  head_prev := by
    intro node here
    rw [deref, consists.head] at here
    cases nodes with
    | nil => cases here
    | cons first rest =>
      obtain rfl := Option.some.inj (here.symm.trans (consists.linked [] first rest rfl))
      rfl
  tail_next := by
    intro node here
    rw [deref, consists.tail] at here
    rcases List.eq_nil_or_concat' nodes with rfl | ⟨before, last, rfl⟩
    · cases here
    · rw [List.getLast?_concat] at here
      obtain rfl := Option.some.inj (here.symm.trans (consists.linked before last [] rfl))
      rfl
  inverse := by
    intro first member second member' node node' here there
    exact consists.linked.inverse consists.distinct member member' here there
  tail_last := by rw [consists.tail, List.getLast?_map]
  head_null := by
    rw [consists.head]
    cases nodes <;> simp
  tail_null := by simp [consists.tail]

/-- Memory outside the list is free to change. -/
theorem Consists.frame (consists : l.Consists nodes) (head : l'.head = l.head)
    (tail : l'.tail = l.tail)
    (same : ∀ address ∈ nodes.map Prod.fst, l'.heap address = l.heap address) :
    l'.Consists nodes := by
  refine ⟨consists.distinct, ?_, head.trans consists.head, tail.trans consists.tail⟩
  rintro before node behind rfl
  rw [same node.1 (by simp)]
  exact consists.linked before node behind rfl

theorem Consists.pushBack {address : ℕ} {data : δ} {nodetypeData : ℤ}
    (consists : l.Consists nodes) (fresh : address ∉ nodes.map Prod.fst) :
    ∃ l', l.pushBack address data nodetypeData = some l' ∧
      l'.Consists (nodes ++ [(address, nodetypeData, data)]) ∧
      ∀ other, (l'.heap other).isSome ↔ other = address ∨ (l.heap other).isSome := by
  have distinct : ((nodes ++ [(address, nodetypeData, data)]).map Prod.fst).Nodup := by
    simpa using consists.distinct.concat fresh
  rcases List.eq_nil_or_concat' nodes with rfl | ⟨before, last, rfl⟩
  · refine ⟨⟨Function.update l.heap address (some ⟨nodetypeData, data, none, none⟩), some address,
      some address⟩, by rw [UtilList.pushBack, consists.head]; rfl, ⟨distinct, ?_, rfl, rfl⟩, ?_⟩
    · apply consists.linked.snoc consists.distinct
      · exact Function.update_self ..
      · simp
      · simp
    · intro other
      rcases eq_or_ne other address with rfl | ne <;> simp [*]
  · have atLast := consists.linked before last [] rfl
    have tail := consists.tail
    rw [List.getLast?_concat] at tail
    have ne : last.1 ≠ address := by
      rintro rfl
      simp at fresh
    obtain ⟨first, isHead⟩ : ∃ first, l.head = some first := by
      rw [consists.head]
      cases before <;> simp
    refine ⟨⟨Function.update (Function.update l.heap address
        (some ⟨nodetypeData, data, none, some last.1⟩)) last.1
        (some ⟨last.2.1, last.2.2, some address, before.getLast?.map Prod.fst⟩), l.head,
        some address⟩, ?_, ⟨distinct, ?_, ?_, ?_⟩, ?_⟩
    · rw [UtilList.pushBack, deref, isHead, tail, Option.map_some, Option.bind_some, atLast]
    · apply consists.linked.snoc consists.distinct
      · rw [List.getLast?_concat]
        exact (Function.update_of_ne ne.symm _ _).trans (Function.update_self ..)
      · intro final isFinal old here
        rw [List.getLast?_concat] at isFinal
        obtain rfl := Option.some.inj isFinal
        obtain rfl := Option.some.inj (here.symm.trans atLast)
        exact Function.update_self ..
      · intro other member notLast
        have other_ne : other.1 ≠ address := fun same => fresh (same ▸ List.mem_map_of_mem member)
        exact (Function.update_of_ne (notLast last List.getLast?_concat) _ _).trans
          (Function.update_of_ne other_ne _ _)
    · rw [consists.head]
      cases before <;> rfl
    · simp
    · intro other
      rcases eq_or_ne other last.1 with rfl | notLast
      · simp [atLast]
      · rcases eq_or_ne other address with rfl | notNew <;> simp [*]

/-- What the first conditional changes: the `next` before the node, or the head. -/
theorem bypassPrev_spec {current : ℕ} {node : Node δ} (here : l.heap current = some node)
    (valid : ∀ prev, node.prev = some prev → (l.heap prev).isSome) :
    ∃ l', l.bypassPrev current = some l' ∧ l'.tail = l.tail ∧
      l'.head = (if node.prev = none then node.next else l.head) ∧
      (∀ prev, node.prev = some prev → ∀ old, l.heap prev = some old →
        l'.heap prev = some { old with next := node.next }) ∧
      (∀ other, node.prev ≠ some other → l'.heap other = l.heap other) ∧
      ∀ other, (l'.heap other).isSome = (l.heap other).isSome := by
  cases isPrev : node.prev with
  | none => exact ⟨{ l with head := node.next }, by simp [bypassPrev, here, isPrev], by simp⟩
  | some prev =>
    obtain ⟨old, before⟩ := Option.isSome_iff_exists.mp (valid prev isPrev)
    refine ⟨{ l with heap := Function.update l.heap prev (some { old with next := node.next }) },
      by simp [bypassPrev, here, isPrev, setNext, before], rfl, rfl, ?_, ?_, ?_⟩
    · rintro _ ⟨⟩ old' here'
      obtain rfl := Option.some.inj (before.symm.trans here')
      exact Function.update_self ..
    · intro other ne
      exact Function.update_of_ne (fun same => ne (congrArg some same.symm)) _ _
    · intro other
      rcases eq_or_ne other prev with rfl | ne <;> simp [*]

/-- What the second one changes: the `prev` behind the node, or the tail. -/
theorem bypassNext_spec {current : ℕ} {node : Node δ} (here : l.heap current = some node)
    (valid : ∀ next, node.next = some next → (l.heap next).isSome) :
    ∃ l', l.bypassNext current = some l' ∧ l'.head = l.head ∧
      l'.tail = (if node.next = none then node.prev else l.tail) ∧
      (∀ next, node.next = some next → ∀ old, l.heap next = some old →
        l'.heap next = some { old with prev := node.prev }) ∧
      (∀ other, node.next ≠ some other → l'.heap other = l.heap other) ∧
      ∀ other, (l'.heap other).isSome = (l.heap other).isSome := by
  cases isNext : node.next with
  | none => exact ⟨{ l with tail := node.prev }, by simp [bypassNext, here, isNext], by simp⟩
  | some next =>
    obtain ⟨old, behind⟩ := Option.isSome_iff_exists.mp (valid next isNext)
    refine ⟨{ l with heap := Function.update l.heap next (some { old with prev := node.prev }) },
      by simp [bypassNext, here, isNext, setPrev, behind], rfl, rfl, ?_, ?_, ?_⟩
    · rintro _ ⟨⟩ old' here'
      obtain rfl := Option.some.inj (behind.symm.trans here')
      exact Function.update_self ..
    · intro other ne
      exact Function.update_of_ne (fun same => ne (congrArg some same.symm)) _ _
    · intro other
      rcases eq_or_ne other next with rfl | ne <;> simp [*]

/-- `unlink` takes one node out and leaves its own memory alone. -/
theorem Consists.unlink (consists : l.Consists (before ++ node :: behind)) :
    ∃ l', l.unlink node.1 = some l' ∧ l'.Consists (before ++ behind) ∧
      l'.heap node.1 = l.heap node.1 ∧ ∀ other, (l'.heap other).isSome = (l.heap other).isSome := by
  have distinct := consists.distinct
  have here := consists.linked before node behind rfl
  have others : ∀ other ∈ before ++ behind, other.1 ≠ node.1 ∧ (l.heap other.1).isSome := by
    intro other member
    refine ⟨Linked.ne_of_mem distinct member, consists.linked.allocated (List.mem_map_of_mem ?_)⟩
    rw [List.mem_append] at member
    simp [member.imp_right Or.inr]
  have apart : ∀ x ∈ before, ∀ y ∈ behind, x.1 ≠ y.1 := by
    rw [List.map_append, List.nodup_append] at distinct
    intro x memX y memY
    exact distinct.2.2 _ (List.mem_map_of_mem memX) _
      (List.mem_cons_of_mem _ (List.mem_map_of_mem memY))
  obtain ⟨mid, first, midTail, midHead, midNext, midSame, midSome⟩ := bypassPrev_spec here (by
    intro prev isPrev
    obtain ⟨last, isLast, rfl⟩ := Option.map_eq_some_iff.mp isPrev
    exact (others last (by simp [List.mem_of_getLast? isLast])).2)
  have midHere : mid.heap node.1 = l.heap node.1 := by
    apply midSame
    exact Linked.last_ne fun last member => (others last (by simp [member])).1
  have midBehind : ∀ other ∈ behind, mid.heap other.1 = l.heap other.1 := by
    intro other member
    apply midSame
    exact Linked.last_ne fun last inBefore => apart last inBefore other member
  obtain ⟨l', second, head, tail, prev, same, some'⟩ := bypassNext_spec (midHere.trans here) (by
    intro next isNext
    obtain ⟨first, isFirst, rfl⟩ := Option.map_eq_some_iff.mp isNext
    rw [midSome]
    exact (others first (by simp [List.mem_of_mem_head? isFirst])).2)
  refine ⟨l', by simp [UtilList.unlink, first, second], ⟨?_, ?_, ?_, ?_⟩, ?_, ?_⟩
  · exact distinct.sublist (((List.sublist_cons_self _ _).append_left _).map _)
  · apply consists.linked.remove distinct
    · intro last isLast old atLast
      rw [same _ (Linked.first_ne fun first member =>
        (apart last (List.mem_of_getLast? isLast) first member).symm)]
      exact midNext _ (by rw [isLast]; rfl) old atLast
    · intro first isFirst old atFirst
      rw [← midBehind first (List.mem_of_mem_head? isFirst)] at atFirst
      exact prev _ (by rw [isFirst]; rfl) old atFirst
    · intro other member notLast notFirst
      rw [same, midSame]
      · intro isPrev
        obtain ⟨last, isLast, eq⟩ := Option.map_eq_some_iff.mp isPrev
        exact notLast last isLast eq.symm
      · intro isNext
        obtain ⟨first, isFirst, eq⟩ := Option.map_eq_some_iff.mp isNext
        exact notFirst first isFirst eq.symm
  · rw [head, midHead, consists.head]
    cases before <;> simp
  · rw [tail, midTail, consists.tail]
    cases behind with
    | nil => simp
    | cons x rest => simp [List.getLast?_cons_cons]
  · rw [same, midHere]
    exact Linked.first_ne fun first member => (others first (by simp [member])).1
  · intro other
    rw [some', midSome]

/-- Freeing a node that is not in the list. -/
theorem Consists.free {address : ℕ} (consists : l.Consists nodes) (here : (l.heap address).isSome)
    (outside : address ∉ nodes.map Prod.fst) :
    ∃ l', l.free (some address) = some l' ∧ l'.Consists nodes ∧
      ∀ other, (l'.heap other).isSome ↔ other ≠ address ∧ (l.heap other).isSome := by
  obtain ⟨node, here⟩ := Option.isSome_iff_exists.mp here
  refine ⟨{ l with heap := Function.update l.heap address none }, ?_, ?_, ?_⟩
  · simp only [UtilList.free, deref, Option.bind_some, here]
  · refine Consists.frame consists rfl rfl ?_
    intro other member
    exact Function.update_of_ne (ne_of_mem_of_not_mem member outside) _ _
  · intro other
    rcases eq_or_ne other address with rfl | ne <;> simp [*]

/-- A node that is taken out can be freed. -/
theorem Consists.free_of_unlink (consists : l.Consists (before ++ node :: behind))
    (unlinked : l.unlink node.1 = some l') :
    l'.heap node.1 = l.heap node.1 ∧ ∃ l'', l'.free (some node.1) = some l'' ∧
      l''.Consists (before ++ behind) ∧
      ∀ other, (l''.heap other).isSome ↔ other ≠ node.1 ∧ (l.heap other).isSome := by
  obtain ⟨mid, first, midConsists, here, some'⟩ := consists.unlink
  obtain rfl := Option.some.inj (unlinked.symm.trans first)
  have outside : node.1 ∉ (before ++ behind).map Prod.fst := by
    intro member
    obtain ⟨other, member, same⟩ := List.mem_map.mp member
    exact Linked.ne_of_mem consists.distinct member same
  have allocated : (l'.heap node.1).isSome := by
    rw [here, consists.linked before node behind rfl]
    rfl
  obtain ⟨l'', freed, consists', allocated'⟩ := midConsists.free allocated outside
  refine ⟨here, l'', freed, consists', ?_⟩
  intro other
  rw [allocated', some']

/-- `pop_front` takes the first node out as `deleteIntNodeWithValue` would. -/
theorem Consists.popFront_eq (consists : l.Consists (node :: behind)) :
    l.popFront = (l.unlink node.1).bind fun mid => mid.free (some node.1) := by
  have here := consists.linked [] node behind rfl
  have head := consists.head
  rw [List.head?_cons, Option.map_some] at head
  cases behind with
  | nil =>
    simp [UtilList.popFront, UtilList.advance, deref, head, here, UtilList.unlink, bypassPrev,
      bypassNext, clearTail]
  | cons second rest =>
    have there := consists.linked [node] second rest rfl
    simp [UtilList.popFront, UtilList.advance, deref, head, here, there, UtilList.unlink,
      bypassPrev, bypassNext, UtilList.clearPrev, setPrev]

theorem Consists.popFront (consists : l.Consists (node :: behind)) :
    ∃ l', l.popFront = some l' ∧ l'.Consists behind ∧
      ∀ other, (l'.heap other).isSome ↔ other ≠ node.1 ∧ (l.heap other).isSome := by
  have split : l.Consists ([] ++ node :: behind) := consists
  obtain ⟨mid, unlinked, -⟩ := split.unlink
  obtain ⟨-, l', freed, holds⟩ := split.free_of_unlink unlinked
  refine ⟨l', ?_, holds⟩
  rw [consists.popFront_eq, unlinked]
  exact freed

end UtilList

end AmlCommonlib.SocketIpcV2
