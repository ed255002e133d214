import AmlCommonlib.Lib.Runs
import Mathlib.Algebra.Group.Nat.Defs
import Mathlib.Data.Int.Notation
import Mathlib.Logic.Function.Basic

/-! # Delayed tasks

`ambus_post_delay_task`, `delay_task_settimer` and `delay_task_timeout` of `aml-dbus.c`. A section
under `ambus->lock` is one step, and so is each statement outside it; any number of threads may be
in `ambus_post_delay_task` while the dispatch thread works. A call is named by a number of its own.
A record is never given back to `malloc`, so its address is its number in order of allocation.
-/

namespace AmlCommonlib.Dbus

/-- What the code uses of sd-event's timers; `setEnabled` is with `SD_EVENT_ONESHOT`, and `dispatch`
starts the handler of a source that is due. A timer source is named by the record that is its user
data. The laws say only what may turn a source on: that a one-shot source fires only when it is
enabled, and is off when its handler runs. -/
structure SdEvent (τ : Type*) where
  init : τ
  enabled : τ → ℕ → Prop
  now : τ → Option ℕ
  elapse : τ → ℕ → τ
  addTime : τ → (usec userdata : ℕ) → Option τ
  setTime : τ → (source usec : ℕ) → Option τ
  setEnabled : τ → (source : ℕ) → τ
  dispatch : τ → (source : ℕ) → Option τ
  enabled_init : ∀ r, ¬enabled init r
  enabled_elapse : ∀ {t n r}, enabled (elapse t n) r → enabled t r
  enabled_addTime : ∀ {t t' usec task r}, addTime t usec task = some t' → enabled t' r →
    r = task ∨ enabled t r
  enabled_setTime : ∀ {t t' usec task r}, setTime t task usec = some t' → enabled t' r →
    enabled t r
  enabled_setEnabled : ∀ {t task r}, enabled (setEnabled t task) r → r = task ∨ enabled t r
  enabled_of_dispatch : ∀ {t t' task}, dispatch t task = some t' → enabled t task
  enabled_dispatch : ∀ {t t' task r}, dispatch t task = some t' → enabled t' r →
    r ≠ task ∧ enabled t r

/-- `struct delay_task`; `src` is whether there is a timer source yet. -/
structure DelayTask where
  next : Option ℕ
  cb : ℕ
  param : ℕ
  src : Bool
  delay_ms : ℕ
deriving DecidableEq

/-- Where a call of `ambus_post_delay_task` is: at one of its stores to the record, at
`ambus_post_task`, or behind it. -/
inductive PostPc where
  | storeCb
  | storeParam
  | storeDelay
  | send
  | returned (value : ℤ)
deriving DecidableEq

/-- A call of `ambus_post_delay_task` that has got its record. -/
structure Post where
  cb : ℕ
  param : ℕ
  delay_ms : ℕ
  task : ℕ
  pc : PostPc
deriving DecidableEq

/-- Where the dispatch thread is: in the event loop, at a statement of `delay_task_settimer`, or in
`delay_task_timeout`, at its locked section or at the call of the callback. `post` is no datum of the
program: it is the call whose message or timer is being handled. -/
inductive DispatchPc where
  | idle
  | now (task post : ℕ)
  | addDelay (task post timeout : ℕ)
  | setTime (task post timeout : ℕ)
  | setEnabled (task post : ℕ)
  | putBack (task post : ℕ)
  | invoke (task post : ℕ)
deriving DecidableEq

/-- The records, and the calls so far. -/
structure TaskMemory where
  tasks : ℕ → DelayTask
  allocated : ℕ
  freeTask : Option ℕ
  posts : ℕ → Option Post

/-- The dispatch thread, its pipe and its timers, with the call each timer was last set for. -/
structure Dispatch (τ : Type*) where
  pipe : List (ℕ × ℕ)
  loop : τ
  armedFor : ℕ → ℕ
  pc : DispatchPc

/-- `struct aml_dbus`. -/
structure Ambus (τ : Type*) extends TaskMemory, Dispatch τ

/-- A call of a callback by `delay_task_timeout`, on the timer of this post. -/
structure Invocation where
  post : ℕ
  cb : ℕ
  param : ℕ
deriving DecidableEq

namespace Ambus

variable {τ : Type*}

/-- A thread goes through the locked section of `ambus_post_delay_task` or takes its next statement,
in which the `write` to the pipe succeeds or not; the event loop reads a message, finds a timer due or
goes on in the handler, where `timeout` holds `stale` before it is set; or time goes by. -/
inductive Action where
  | lock (post delay_ms cb param : ℕ)
  | poster (post : ℕ) (written : Bool)
  | read
  | expire (task : ℕ)
  | handler (stale : ℕ)
  | elapse (usec : ℕ)

def start (event : SdEvent τ) : Ambus τ :=
  ⟨⟨fun _ => ⟨none, 0, 0, false, 0⟩, 0, none, fun _ => none⟩, ⟨[], event.init, fun _ => 0, .idle⟩⟩

def setTask (s : Ambus τ) (task : ℕ) (f : DelayTask → DelayTask) : Ambus τ :=
  { s with tasks := Function.update s.tasks task (f (s.tasks task)) }

def setPost (s : Ambus τ) (p : ℕ) (post : Post) : Ambus τ :=
  { s with posts := Function.update s.posts p (some post) }

/-- The locked section of `ambus_post_delay_task`. -/
def takeTask (s : Ambus τ) (p delay_ms cb param : ℕ) : Ambus τ :=
  match s.freeTask with
  | some task =>
    { s with freeTask := (s.tasks task).next }.setPost p ⟨cb, param, delay_ms, task, .storeCb⟩
  | none =>
    { s with allocated := s.allocated + 1 }.setTask s.allocated (fun _ => ⟨none, 0, 0, false, 0⟩)
      |>.setPost p ⟨cb, param, delay_ms, s.allocated, .storeCb⟩

/-- The next statement of a call. -/
def posterStep (s : Ambus τ) (p : ℕ) (post : Post) (written : Bool) : Option (Ambus τ) :=
  match post.pc with
  | .storeCb =>
    some ((s.setTask post.task ({ · with cb := post.cb })).setPost p { post with pc := .storeParam })
  | .storeParam =>
    some ((s.setTask post.task ({ · with param := post.param })).setPost p
      { post with pc := .storeDelay })
  | .storeDelay =>
    some ((s.setTask post.task ({ · with delay_ms := post.delay_ms })).setPost p
      { post with pc := .send })
  | .send =>
    if written then
      some ({ s with pipe := s.pipe ++ [(post.task, p)] }.setPost p { post with pc := .returned 0 })
    else some (s.setPost p { post with pc := .returned (-1) })
  | .returned _ => none

/-- The next statement of the handler that the dispatch thread is in. -/
def handlerStep (event : SdEvent τ) (s : Ambus τ) (stale : ℕ) :
    Option (Ambus τ × Option Invocation) :=
  match s.pc with
  | .idle => none
  | .now task p => some ({ s with pc := .addDelay task p ((event.now s.loop).getD stale) }, none)
  | .addDelay task p timeout =>
    let timeout := (timeout + (s.tasks task).delay_ms * 1000) % 2 ^ 64
    some ({ s with pc := .setTime task p timeout }, none)
  | .setTime task p timeout =>
    let set :=
      if (s.tasks task).src then event.setTime s.loop task timeout
      else event.addTime s.loop timeout task
    match set with
    | some loop =>
      some ({ s with loop := loop, pc := .setEnabled task p }.setTask task ({ · with src := true }),
        none)
    | none => some ({ s with pc := .idle }, none)
  | .setEnabled task p =>
    some ({ s with
      loop := event.setEnabled s.loop task
      armedFor := Function.update s.armedFor task p
      pc := .idle }, none)
  | .putBack task p =>
    some ({ s with freeTask := some task, pc := .invoke task p }.setTask task
      ({ · with next := s.freeTask }), none)
  | .invoke task p =>
    some ({ s with pc := .idle }, some ⟨p, (s.tasks task).cb, (s.tasks task).param⟩)

/-- One step of a thread or of the event loop, with the callback it calls. -/
def step (event : SdEvent τ) (s : Ambus τ) : Action → Option (Ambus τ × Option Invocation)
  | .lock p delay_ms cb param =>
    if delay_ms = 0 ∨ (s.posts p).isSome then none else some (s.takeTask p delay_ms cb param, none)
  | .poster p written =>
    (s.posts p).bind fun post => (s.posterStep p post written).map fun s => (s, none)
  | .read =>
    match s.pc, s.pipe with
    | .idle, (task, p) :: pipe => some ({ s with pipe := pipe, pc := .now task p }, none)
    | _, _ => none
  | .expire task =>
    match s.pc, event.dispatch s.loop task with
    | .idle, some loop =>
      some ({ s with loop := loop, pc := .putBack task (s.armedFor task) }, none)
    | _, _ => none
  | .handler stale => s.handlerStep event stale
  | .elapse usec => some ({ s with loop := event.elapse s.loop usec }, none)

def Step (event : SdEvent τ) (s : Ambus τ) (l : Action × Option Invocation) (s' : Ambus τ) : Prop :=
  s.step event l.1 = some (s', l.2)

/-- The callbacks called so far. -/
def invocations (past : List (Action × Option Invocation)) : List Invocation :=
  past.filterMap Prod.snd

@[simp] theorem invocations_snoc {past : List (Action × Option Invocation)} {a : Action}
    {out : Option Invocation} :
    invocations (past ++ [(a, out)]) = invocations past ++ out.toList := by
  cases out <;> simp [invocations]

end Ambus

end AmlCommonlib.Dbus
