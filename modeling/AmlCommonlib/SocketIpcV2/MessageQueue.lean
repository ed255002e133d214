import AmlCommonlib.Lib.Runs
import AmlCommonlib.SocketIpcV2.UtilList

/-! # The message queue of the v2 server

`EnqueueServerMsg` appends under `serverMsgsMutex`; `messageSenderWorker` reads the front under the
mutex but calls `pop_front` after it has released it. A producer's section is one step, and so is
the sender's; each statement of `pop_front` is a step of its own. Any number of producers take the
`enqueue` steps.
-/

namespace AmlCommonlib.SocketIpcV2

variable {δ : Type*}

/-- Where `messageSenderWorker` is: at the top of its loop, in `sendMsg` or in front of one of the
seven statements of `pop_front`, with its local `node`. -/
inductive SenderPc where
  | waiting
  | sending
  | popTest
  | popNode
  | popHead (node : Option ℕ)
  | popCheck (node : Option ℕ)
  | popPrev (node : Option ℕ)
  | popTail (node : Option ℕ)
  | popFree (node : Option ℕ)
deriving DecidableEq

structure MessageQueue (δ : Type*) where
  list : UtilList δ
  pc : SenderPc
  /-- An invalid pointer has been followed. -/
  crashed : Bool

namespace MessageQueue

def start : MessageQueue δ := ⟨createList, .waiting, false⟩

inductive Action (δ : Type*) where
  /-- The locked section of `EnqueueServerMsg`; `address` is what `malloc` returns. -/
  | enqueue (address : ℕ) (serverMsgType : ℤ) (buffer : δ)
  | sender

/-- Continues at `pc` with the list an operation has left. -/
def goto (q : MessageQueue δ) (list : Option (UtilList δ)) (pc : SenderPc) : MessageQueue δ :=
  match list with
  | some list => ⟨list, pc, q.crashed⟩
  | none => { q with crashed := true }

/-- One step of `messageSenderWorker`, with the message it takes; no step while it waits. -/
def senderStep (q : MessageQueue δ) : Option (MessageQueue δ × Option (ℤ × δ)) :=
  match q.pc with
  | .waiting =>
    if q.list.head = none then none
    else
      match q.list.front with
      | some message => some ({ q with pc := .sending }, some message)
      | none => some ({ q with crashed := true }, none)
  | .sending => some ({ q with pc := .popTest }, none)
  | .popTest => some ({ q with pc := if q.list.head = none then .waiting else .popNode }, none)
  | .popNode => some ({ q with pc := .popHead q.list.head }, none)
  | .popHead node => some (q.goto q.list.advance (.popCheck node), none)
  | .popCheck node =>
    some ({ q with pc := if q.list.head = none then .popTail node else .popPrev node }, none)
  | .popPrev node => some (q.goto q.list.clearPrev (.popFree node), none)
  | .popTail node => some (q.goto (some q.list.clearTail) (.popFree node), none)
  | .popFree node => some (q.goto (q.list.free node) .waiting, none)

/-- One step of the server. -/
def step (q : MessageQueue δ) : Action δ → Option (MessageQueue δ × Option (ℤ × δ))
  | .enqueue address serverMsgType buffer =>
    if q.crashed ∨ (q.list.heap address).isSome then none
    else some (q.goto (q.list.pushBack address buffer serverMsgType) q.pc, none)
  | .sender => if q.crashed then none else q.senderStep

/-- A step labelled with its action and the message it takes from the queue. -/
def Step (q : MessageQueue δ) (l : Action δ × Option (ℤ × δ)) (q' : MessageQueue δ) : Prop :=
  q.step l.1 = some (q', l.2)

/-- The messages enqueued, in order. -/
def enqueued (past : List (Action δ × Option (ℤ × δ))) : List (ℤ × δ) :=
  past.filterMap fun l =>
    match l.1 with
    | .enqueue _ serverMsgType buffer => some (serverMsgType, buffer)
    | .sender => none

/-- The messages `messageSenderWorker` has taken, in order. -/
def taken (past : List (Action δ × Option (ℤ × δ))) : List (ℤ × δ) := past.filterMap Prod.snd

/-- The number of steps `messageSenderWorker` has made. -/
def senderSteps (past : List (Action δ × Option (ℤ × δ))) : ℕ :=
  past.countP fun l =>
    match l.1 with
    | .enqueue .. => false
    | .sender => true

section History

variable {past : List (Action δ × Option (ℤ × δ))} {message : Option (ℤ × δ)}

@[simp] theorem enqueued_enqueue {address : ℕ} {serverMsgType : ℤ} {buffer : δ} :
    enqueued (past ++ [(.enqueue address serverMsgType buffer, message)]) =
      enqueued past ++ [(serverMsgType, buffer)] := by
  simp [enqueued]

@[simp] theorem enqueued_sender : enqueued (past ++ [(.sender, message)]) = enqueued past := by
  simp [enqueued]

@[simp] theorem taken_snoc {action : Action δ} :
    taken (past ++ [(action, message)]) = taken past ++ message.toList := by
  cases message <;> simp [taken]

@[simp] theorem senderSteps_enqueue {address : ℕ} {serverMsgType : ℤ} {buffer : δ} :
    senderSteps (past ++ [(.enqueue address serverMsgType buffer, message)]) =
      senderSteps past := by
  simp [senderSteps]

@[simp] theorem senderSteps_sender :
    senderSteps (past ++ [(.sender, message)]) = senderSteps past + 1 := by
  simp [senderSteps]

end History

end MessageQueue

end AmlCommonlib.SocketIpcV2
