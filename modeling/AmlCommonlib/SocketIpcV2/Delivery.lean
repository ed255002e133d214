import AmlCommonlib.SocketIpcV2.MessageQueue

/-! # Delivery of the queued messages

The invariant follows the sender through the statements of `pop_front`: which node it is removing,
and which nodes hold messages that are still to be taken.
-/

namespace AmlCommonlib.SocketIpcV2

variable {δ : Type*}

/-- The steps left of the sender's round. -/
def SenderPc.remaining : SenderPc → ℕ
  | .waiting => 0
  | .sending => 7
  | .popTest => 6
  | .popNode => 5
  | .popHead _ => 4
  | .popCheck _ => 3
  | .popPrev _ | .popTail _ => 2
  | .popFree _ => 1

/-- At `list->tail = NULL`. -/
def SenderPc.clearsTail : SenderPc → Bool
  | .popTail _ => true
  | _ => false

namespace MessageQueue

/-- `pop_front` has taken the last node off and not yet cleared the tail. -/
def Relinking (q : MessageQueue δ) : Prop :=
  q.list.head = none ∧ ∃ node, q.pc = .popCheck node ∨ q.pc = .popTail node

/-- The queue after a run: the messages are taken in order, each once; while one is left the sender
can go on, and every eighth of its steps takes one. -/
structure Fifo (past : List (Action δ × Option (ℤ × δ))) (q : MessageQueue δ) : Prop where
  running : q.crashed = false
  wellFormed : ¬q.Relinking → q.list.WellFormed
  inOrder : taken past <+: enqueued past
  unblocked : taken past ≠ enqueued past → (q.step .sender).isSome
  delivers : senderSteps past ≤ 8 * (taken past).length

/-- No producer comes in between the second test of `list->head` and `list->tail = NULL`. -/
def Safe (q : MessageQueue δ) : Action δ → Prop
  | .enqueue .. => ¬q.pc.clearsTail
  | .sender => True

instance (q : MessageQueue δ) (a : Action δ) : Decidable (Safe q a) :=
  match a with
  | .enqueue .. => inferInstanceAs (Decidable (¬q.pc.clearsTail))
  | .sender => isTrue trivial

/-! ### The invariant -/

/-- The node that `pop_front` is removing is no longer in the list, and not yet freed. -/
def Unlinked (list : UtilList δ) (nodes : List (ℕ × ℤ × δ)) (node : Option ℕ) : Prop :=
  ∃ address contents, node = some address ∧ list.heap address = some contents ∧
    address ∉ nodes.map Prod.fst

/-- The nodes whose messages are still to be taken. -/
def Waiting (list : UtilList δ) (nodes : List (ℕ × ℤ × δ)) : SenderPc → Prop
  | .waiting => list.Holds nodes
  | .sending | .popTest | .popNode => ∃ first, list.Holds (first :: nodes)
  | .popHead node => ∃ first, node = some first.1 ∧ list.Holds (first :: nodes)
  | .popCheck node =>
    Unlinked list nodes node ∧ Chain list.heap list.head nodes ∧ (nodes ≠ [] → list.Holds nodes)
  | .popPrev node => Unlinked list nodes node ∧ nodes ≠ [] ∧ list.Holds nodes
  | .popTail node => Unlinked list nodes node ∧ nodes = [] ∧ list.head = none
  | .popFree node => Unlinked list nodes node ∧ list.Holds nodes

structure Inv (past : List (Action δ × Option (ℤ × δ))) (q : MessageQueue δ) : Prop where
  running : q.crashed = false
  untaken : ∃ nodes, Waiting q.list nodes q.pc ∧ enqueued past = taken past ++ nodes.map Prod.snd
  rounds : senderSteps past + q.pc.remaining = 8 * (taken past).length

theorem Unlinked.frame {list list' : UtilList δ} {nodes : List (ℕ × ℤ × δ)} {node : Option ℕ}
    {address : ℕ} {message : ℤ × δ} (unlinked : Unlinked list nodes node)
    (free : list.heap address = none)
    (frame : ∀ other, other ≠ address → other ∉ nodes.map Prod.fst →
      list'.heap other = list.heap other) :
    Unlinked list' (nodes ++ [(address, message)]) node := by
  obtain ⟨kept, contents, rfl, here, outside⟩ := unlinked
  have ne : kept ≠ address := by
    rintro rfl
    rw [free] at here
    cases here
  refine ⟨kept, contents, rfl, (frame kept ne outside).trans here, ?_⟩
  simp only [List.map_append, List.map_cons, List.map_nil, List.mem_append, List.mem_singleton]
  exact not_or.mpr ⟨outside, ne⟩

/-- A producer adds its message behind the others. -/
theorem Waiting.enqueue {list : UtilList δ} {nodes : List (ℕ × ℤ × δ)} {pc : SenderPc}
    {address : ℕ} {buffer : δ} {serverMsgType : ℤ} (waiting : Waiting list nodes pc)
    (safe : ¬pc.clearsTail) (free : list.heap address = none) :
    ∃ list', list.pushBack address buffer serverMsgType = some list' ∧
      Waiting list' (nodes ++ [(address, serverMsgType, buffer)]) pc := by
  cases pc with
  | waiting =>
    obtain ⟨list', pushed, holds, -⟩ := UtilList.Holds.pushBack waiting free
    exact ⟨list', pushed, holds⟩
  | sending | popTest | popNode =>
    obtain ⟨first, holds⟩ := waiting
    obtain ⟨list', pushed, holds, -⟩ := holds.pushBack free
    exact ⟨list', pushed, first, holds⟩
  | popHead node =>
    obtain ⟨first, same, holds⟩ := waiting
    obtain ⟨list', pushed, holds, -⟩ := holds.pushBack free
    exact ⟨list', pushed, first, same, holds⟩
  | popCheck node =>
    obtain ⟨unlinked, chain, holds⟩ := waiting
    rcases eq_or_ne nodes [] with rfl | nonempty
    · obtain ⟨list', pushed, holds, frame⟩ :=
        UtilList.pushBack_of_head_eq_none (Chain.nil_iff.mp chain)
      exact ⟨list', pushed, unlinked.frame free fun other ne _ => frame other ne, holds.chain,
        fun _ => holds⟩
    · obtain ⟨list', pushed, holds, frame⟩ := (holds nonempty).pushBack free
      exact ⟨list', pushed, unlinked.frame free frame, holds.chain, fun _ => holds⟩
  | popPrev node =>
    obtain ⟨unlinked, nonempty, holds⟩ := waiting
    obtain ⟨list', pushed, holds, frame⟩ := holds.pushBack free
    exact ⟨list', pushed, unlinked.frame free frame, by simp, holds⟩
  | popTail node => exact absurd rfl safe
  | popFree node =>
    obtain ⟨unlinked, holds⟩ := waiting
    obtain ⟨list', pushed, holds, frame⟩ := holds.pushBack free
    exact ⟨list', pushed, unlinked.frame free frame, holds⟩

/-- The sender takes the first message or continues with its removal. -/
theorem Waiting.senderStep {q q' : MessageQueue δ} {nodes : List (ℕ × ℤ × δ)}
    {message : Option (ℤ × δ)} (waiting : Waiting q.list nodes q.pc)
    (taken : q.senderStep = some (q', message)) :
    q'.crashed = q.crashed ∧ (q'.pc.remaining + 1 = q.pc.remaining + 8 * message.toList.length) ∧
      ∃ nodes', Waiting q'.list nodes' q'.pc ∧
        nodes.map Prod.snd = message.toList ++ nodes'.map Prod.snd := by
  obtain ⟨list, pc, crashed⟩ := q
  cases pc with
  | waiting =>
    simp only [MessageQueue.senderStep] at taken
    split_ifs at taken with empty
    obtain ⟨first, rest, rfl⟩ :=
      List.exists_cons_of_ne_nil (mt (UtilList.Holds.head_eq_none_iff waiting).mpr empty)
    rw [UtilList.Holds.front waiting] at taken
    cases taken
    exact ⟨rfl, rfl, rest, ⟨first, waiting⟩, rfl⟩
  | sending =>
    cases taken
    exact ⟨rfl, rfl, nodes, waiting, rfl⟩
  | popTest =>
    obtain ⟨first, holds⟩ := waiting
    have nonempty : list.head ≠ none := mt holds.head_eq_none_iff.mp (List.cons_ne_nil _ _)
    simp only [MessageQueue.senderStep, nonempty, if_false] at taken
    cases taken
    exact ⟨rfl, rfl, nodes, ⟨first, holds⟩, rfl⟩
  | popNode =>
    obtain ⟨first, holds⟩ := waiting
    cases taken
    obtain ⟨-, isHead, -⟩ := Chain.cons_iff.mp holds.chain
    exact ⟨rfl, rfl, nodes, ⟨first, isHead, holds⟩, rfl⟩
  | popHead node =>
    obtain ⟨first, rfl, holds⟩ := waiting
    obtain ⟨list', advanced, sameHeap, chain, holds'⟩ := holds.advance
    obtain ⟨contents, -, here, -, -⟩ := Chain.cons_iff.mp holds.chain
    have nodup := holds.chain.nodup
    rw [List.map_cons, List.nodup_cons] at nodup
    simp only [MessageQueue.senderStep, advanced] at taken
    cases taken
    exact ⟨rfl, rfl, nodes, ⟨⟨_, contents, rfl, sameHeap ▸ here, nodup.1⟩, chain, holds'⟩, rfl⟩
  | popCheck node =>
    obtain ⟨unlinked, chain, holds⟩ := waiting
    simp only [MessageQueue.senderStep] at taken
    cases nodes with
    | nil =>
      have empty : list.head = none := Chain.nil_iff.mp chain
      simp only [empty, if_true] at taken
      cases taken
      exact ⟨rfl, rfl, [], ⟨unlinked, rfl, empty⟩, rfl⟩
    | cons first rest =>
      have holds := holds (List.cons_ne_nil _ _)
      have nonempty : list.head ≠ none := mt holds.head_eq_none_iff.mp (List.cons_ne_nil _ _)
      simp only [nonempty, if_false] at taken
      cases taken
      exact ⟨rfl, rfl, first :: rest, ⟨unlinked, List.cons_ne_nil _ _, holds⟩, rfl⟩
  | popPrev node =>
    obtain ⟨⟨address, contents, rfl, here, outside⟩, nonempty, holds⟩ := waiting
    obtain ⟨first, rest, rfl⟩ := List.exists_cons_of_ne_nil nonempty
    obtain ⟨list', cleared, holds', frame⟩ := holds.clearPrev
    simp only [MessageQueue.senderStep, cleared] at taken
    cases taken
    exact ⟨rfl, rfl, first :: rest,
      ⟨⟨address, contents, rfl, (frame address outside).trans here, outside⟩, holds'⟩, rfl⟩
  | popTail node =>
    obtain ⟨unlinked, rfl, empty⟩ := waiting
    cases taken
    exact ⟨rfl, rfl, [], ⟨unlinked, ⟨empty ▸ .nil, rfl⟩⟩, rfl⟩
  | popFree node =>
    obtain ⟨⟨address, contents, rfl, here, outside⟩, holds⟩ := waiting
    obtain ⟨list', freed, holds'⟩ := holds.free here outside
    simp only [MessageQueue.senderStep, freed] at taken
    cases taken
    exact ⟨rfl, rfl, nodes, holds', rfl⟩

theorem Waiting.wellFormed {q : MessageQueue δ} {nodes : List (ℕ × ℤ × δ)}
    (waiting : Waiting q.list nodes q.pc) (settled : ¬q.Relinking) : q.list.WellFormed := by
  obtain ⟨list, pc, crashed⟩ := q
  cases pc with
  | waiting => exact ⟨nodes, waiting⟩
  | sending | popTest | popNode =>
    obtain ⟨first, holds⟩ := waiting
    exact ⟨_, holds⟩
  | popHead node =>
    obtain ⟨first, -, holds⟩ := waiting
    exact ⟨_, holds⟩
  | popCheck node =>
    obtain ⟨-, chain, holds⟩ := waiting
    refine ⟨nodes, holds ?_⟩
    rintro rfl
    exact settled ⟨Chain.nil_iff.mp chain, node, .inl rfl⟩
  | popPrev node => exact ⟨nodes, waiting.2.2⟩
  | popTail node => exact absurd ⟨waiting.2.2, node, .inr rfl⟩ settled
  | popFree node => exact ⟨nodes, waiting.2⟩

/-- While a message is waiting, so is no sender. -/
theorem Waiting.enabled {q : MessageQueue δ} {nodes : List (ℕ × ℤ × δ)}
    (waiting : Waiting q.list nodes q.pc) (nonempty : nodes ≠ []) : q.senderStep.isSome := by
  obtain ⟨list, pc, crashed⟩ := q
  cases pc with
  | waiting =>
    obtain ⟨first, rest, rfl⟩ := List.exists_cons_of_ne_nil nonempty
    have some_head : list.head ≠ none :=
      mt (UtilList.Holds.head_eq_none_iff waiting).mp (List.cons_ne_nil _ _)
    simp [MessageQueue.senderStep, some_head, UtilList.Holds.front waiting]
  | _ => rfl

/-! ### Runs -/

theorem inv_start : Inv (δ := δ) [] start where
  running := rfl
  untaken := ⟨[], ⟨.nil, rfl⟩, rfl⟩
  rounds := rfl

theorem Inv.step {past : List (Action δ × Option (ℤ × δ))} {q q' : MessageQueue δ}
    {l : Action δ × Option (ℤ × δ)} (inv : Inv past q) (taken : Guarded (fun q l => Safe q l.1) Step q l q') :
    Inv (past ++ [l]) q' := by
  obtain ⟨safe, taken⟩ := taken
  obtain ⟨running, ⟨nodes, waiting, untaken⟩, rounds⟩ := inv
  obtain ⟨action, message⟩ := l
  cases action with
  | enqueue address serverMsgType buffer =>
    simp only [Step, MessageQueue.step] at taken
    split_ifs at taken with used
    have free : q.list.heap address = none := by simpa using (not_or.mp used).2
    obtain ⟨list', pushed, waiting'⟩ := waiting.enqueue safe free
    rw [pushed] at taken
    cases taken
    refine ⟨running, ⟨_, waiting', ?_⟩, ?_⟩
    · simp [untaken]
    · simpa [goto] using rounds
  | sender =>
    simp only [Step, MessageQueue.step, running, Bool.false_eq_true, if_false] at taken
    obtain ⟨sameCrashed, remaining, nodes', waiting', split⟩ := waiting.senderStep taken
    refine ⟨sameCrashed.trans running, ⟨nodes', waiting', ?_⟩, ?_⟩
    · simp [untaken, split]
    · simp only [senderSteps_sender, taken_snoc, List.length_append]
      omega

theorem Inv.fifo {past : List (Action δ × Option (ℤ × δ))} {q : MessageQueue δ}
    (inv : Inv past q) : Fifo past q := by
  obtain ⟨running, ⟨nodes, waiting, untaken⟩, rounds⟩ := inv
  refine ⟨running, ?_, ⟨_, untaken.symm⟩, ?_, ?_⟩
  · exact waiting.wellFormed
  · intro left
    have nonempty : nodes ≠ [] := by
      rintro rfl
      exact left (by simpa using untaken.symm)
    simp only [MessageQueue.step, running, Bool.false_eq_true, if_false]
    exact waiting.enabled nonempty
  · omega

/-- While no producer comes in between, the queue neither loses, repeats nor reorders a message,
and stays well formed. -/
theorem fifo_of_safe {ls : List (Action δ × Option (ℤ × δ))} {q : MessageQueue δ}
    (run : Run (Guarded (fun q l => Safe q l.1) Step) start ls q) : Fifo ls q := by
  have inv := run.preserves_history Inv (fun inv taken => Inv.step inv taken) inv_start
  exact inv.fifo

/-- A second message comes in while the sender sends the first. -/
def sampleActions : List (Action ℕ) :=
  [.enqueue 1 0 7, .sender, .enqueue 2 (-1) 8, .sender, .sender, .sender, .sender, .sender,
    .sender, .sender, .sender]

def sampleTaken : List (Option (ℤ × ℕ)) :=
  [none, some (0, 7), none, none, none, none, none, none, none, none, some (-1, 8)]

theorem fifo_of_safe_sample :
    ∃ q, Run (Guarded (fun q l => Safe q l.1) Step) start (sampleActions.zip sampleTaken) q ∧
      Fifo (sampleActions.zip sampleTaken) q := by
  have done : (execute (fun q a => if Safe q a then step q a else none) start sampleActions).map
      Prod.snd = some sampleTaken := by decide +kernel
  obtain ⟨⟨q, outs⟩, done, rfl⟩ := Option.map_eq_some_iff.mp done
  exact ⟨q, guarded_of_execute done, fifo_of_safe (guarded_of_execute done)⟩

/-- A producer comes in just before `list->tail = NULL`. -/
def racingActions : List (Action ℕ) :=
  [.enqueue 1 0 7, .sender, .sender, .sender, .sender, .sender, .sender, .enqueue 2 (-1) 8, .sender]

theorem not_fifo_producer_before_clear :
    ¬∀ (ls : List (Action ℕ × Option (ℤ × ℕ))) (q : MessageQueue ℕ), Run Step start ls q →
      Fifo ls q := by
  intro claim
  have done : (execute step start racingActions).map
      (fun r => (r.1.list.head, r.1.list.tail, r.1.pc)) = some (some 2, none, .popFree (some 1)) := by
    decide +kernel
  obtain ⟨⟨q, outs⟩, done, seen⟩ := Option.map_eq_some_iff.mp done
  simp only [Prod.mk.injEq] at seen
  obtain ⟨head, tail, pc⟩ := seen
  have fifo := claim _ q (run_of_execute done)
  have settled : ¬q.Relinking := by
    rintro ⟨empty, -⟩
    rw [head] at empty
    cases empty
  obtain ⟨nodes, holds⟩ := fifo.wellFormed settled
  have nonempty : nodes ≠ [] := by
    rintro rfl
    rw [holds.head_eq_none_iff.mpr rfl] at head
    cases head
  have last := holds.last
  rw [tail, eq_comm, List.getLast?_eq_none_iff, List.map_eq_nil_iff] at last
  exact nonempty last

end MessageQueue

end AmlCommonlib.SocketIpcV2
