import AmlCommonlib.Lib.Runs
import Mathlib.Data.Int.Notation
import Mathlib.Data.List.Nodup
import Mathlib.Logic.Function.Basic

/-! # Synchronous calls

`ambus_call_sync_general` and `ambus_call_sync_with_packer` of `aml-dbus.c`. A call posts its task to
the dispatch thread and waits for its flag, which the task sets if it fails and the callback of the
reply otherwise. The two closures and the call share the result. Each locked section is a step, and so
is each stage in the dispatch thread; a call is named by a number of its own.
-/

namespace AmlCommonlib.Dbus

/-- The function that is called, and which of its two arguments are not `NULL`. -/
inductive SyncKind where
  | general (msgpack msgunpack : Bool)
  | withPacker
deriving DecidableEq

/-- Where the thread of a call is. -/
inductive WaiterPc where
  /-- `ambus_wait_flag`, about to lock or woken up. -/
  | waiting
  /-- In `pthread_cond_wait`. -/
  | asleep
  | returned (value : ℤ)
deriving DecidableEq

/-- The variables of a call. `failed` is none of the program: one of its stages has failed. -/
structure SyncCall where
  kind : SyncKind
  r : ℤ
  done : Bool
  failed : Bool
  pc : WaiterPc
deriving DecidableEq

/-- Where the dispatch thread is. -/
inductive DispatcherPc where
  /-- In the event loop. -/
  | idle
  /-- `do_task` of this call, at `sd_bus_message_new_method_call`. -/
  | create (c : ℕ)
  /-- At the packing. -/
  | pack (c : ℕ)
  /-- At `sd_bus_call_async`. -/
  | send (c : ℕ)
  /-- At `ambus_set_flag`, in `do_task` or in `call_done`. -/
  | setFlag (c : ℕ)
deriving DecidableEq

def DispatcherPc.call? : DispatcherPc → Option ℕ
  | idle => none
  | create c | pack c | send c | setFlag c => some c

/-- The calls so far, the tasks in the pipe, the calls whose reply is outstanding, and the dispatch
thread. -/
structure SyncCalls where
  calls : ℕ → Option SyncCall
  pipe : List ℕ
  replies : List ℕ
  dispatcher : DispatcherPc

namespace SyncCalls

inductive Action where
  /-- A thread calls and posts its task; `posted` is false if the `write` fails, and in the dispatch
  thread. -/
  | call (c : ℕ) (kind : SyncKind) (posted : Bool)
  /-- The thread looks at the flag, under the lock. -/
  | look (c : ℕ)
  /-- It wakes up without a cause. -/
  | spurious (c : ℕ)
  /-- The event loop reads a task. -/
  | read
  /-- `sd_bus_message_new_method_call`, the packing and `sd_bus_call_async` return `r`. -/
  | create (r : ℤ)
  | pack (r : ℤ)
  | send (r : ℤ)
  /-- `call_done` gets the reply, a method error if it has an `errno`, up to `ambus_set_flag`;
  `unpacked` is what the unpacking returns if it is called. -/
  | reply (c : ℕ) (errno : Option ℕ) (unpacked : ℤ)
  /-- `ambus_set_flag`, under the lock. -/
  | setFlag
deriving DecidableEq

def start : SyncCalls := ⟨fun _ => none, [], [], .idle⟩

def setCall (s : SyncCalls) (c : ℕ) (call : SyncCall) : SyncCalls :=
  { s with calls := Function.update s.calls c (some call) }

end SyncCalls

/-- A stage of `do_task` has returned. -/
def SyncCall.stage (call : SyncCall) (r : ℤ) : SyncCall :=
  { call with r := r, failed := call.failed || r < 0 }

/-- `msgpack` is called. -/
def SyncKind.packs : SyncKind → Bool
  | .general msgpack _ => msgpack
  | .withPacker => true

/-- `msgunpack` is called. -/
def SyncKind.unpacks : SyncKind → Bool
  | .general _ msgunpack => msgunpack
  | .withPacker => true

/-- `call_done` up to `ambus_set_flag`. -/
def SyncCall.callDone (call : SyncCall) (errno : Option ℕ) (unpacked : ℤ) : SyncCall :=
  let r :=
    match call.kind, errno with
    | .withPacker, some e => -(e : ℤ)
    | _, _ => call.r
  let unpacks := 0 ≤ r ∧ call.kind.unpacks
  { call with
    r := if unpacks then unpacked else r
    failed := call.failed || errno.isSome || (unpacks ∧ unpacked < 0) }

/-- `pthread_cond_broadcast`. -/
def SyncCall.wake (call : SyncCall) : SyncCall :=
  if call.pc = .asleep then { call with pc := .waiting } else call

namespace SyncCalls

/-- One step. -/
def step (s : SyncCalls) : Action → Option SyncCalls
  | .call c kind posted =>
    if (s.calls c).isSome then none
    else if posted then
      some { s.setCall c ⟨kind, -1, false, false, .waiting⟩ with pipe := s.pipe ++ [c] }
    else some (s.setCall c ⟨kind, -1, false, false, .returned (-1)⟩)
  | .look c =>
    match s.calls c with
    | some call =>
      if call.pc = .waiting then
        some (s.setCall c { call with pc := if call.done then .returned call.r else .asleep })
      else none
    | none => none
  | .spurious c =>
    match s.calls c with
    | some call => if call.pc = .asleep then some (s.setCall c call.wake) else none
    | none => none
  | .read =>
    match s.dispatcher, s.pipe with
    | .idle, c :: pipe => some { s with pipe := pipe, dispatcher := .create c }
    | _, _ => none
  | .create r =>
    match s.dispatcher with
    | .create c =>
      (s.calls c).map fun call =>
        { s.setCall c (call.stage r) with
          dispatcher := if r < 0 then .setFlag c else if call.kind.packs then .pack c else .send c }
    | _ => none
  | .pack r =>
    match s.dispatcher with
    | .pack c =>
      (s.calls c).map fun call =>
        { s.setCall c (call.stage r) with dispatcher := if r < 0 then .setFlag c else .send c }
    | _ => none
  | .send r =>
    match s.dispatcher with
    | .send c =>
      (s.calls c).map fun call =>
        { s.setCall c (call.stage r) with
          replies := if r < 0 then s.replies else s.replies ++ [c]
          dispatcher := .idle }
    | _ => none
  | .reply c errno unpacked =>
    if s.dispatcher = .idle ∧ c ∈ s.replies ∧ errno ≠ some 0 then
      (s.calls c).map fun call =>
        { s.setCall c (call.callDone errno unpacked) with
          replies := s.replies.erase c
          dispatcher := .setFlag c }
    else none
  | .setFlag =>
    match s.dispatcher with
    | .setFlag c =>
      (s.calls c).map fun call =>
        { s with
          calls := fun i =>
            (Function.update s.calls c (some { call with done := true }) i).map SyncCall.wake
          dispatcher := .idle }
    | _ => none

def Step (s : SyncCalls) (a : Action) (s' : SyncCalls) : Prop := s.step a = some s'

/-! ### What is to hold -/

/-- The dispatch thread has the call still before it. -/
def works (s : SyncCalls) : List ℕ := s.pipe ++ s.replies ++ s.dispatcher.call?.toList

/-- No call waits for a flag that nothing will set, none sleeps on a flag that is set, and the result
of a call is negative once one of its stages has failed. -/
structure Answered (s : SyncCalls) : Prop where
  served : ∀ c call, s.calls c = some call → call.pc = .waiting ∨ call.pc = .asleep →
    call.done = false → c ∈ s.works
  awake : ∀ c call, s.calls c = some call → call.pc = .asleep → call.done = false
  negative : ∀ c call, s.calls c = some call → call.failed → call.r < 0
  result : ∀ c call value, s.calls c = some call → call.pc = .returned value → value = call.r

/-- `sd_bus_call_async` succeeds, and a method error reaches `ambus_call_sync_general` only if its
`msgunpack` then returns a negative value. -/
def sound (s : SyncCalls) : Action → Bool
  | .send r => 0 ≤ r
  | .reply c errno unpacked =>
    match (s.calls c).map SyncCall.kind with
    | some (.general _ msgunpack) => errno.isSome → msgunpack ∧ unpacked < 0
    | _ => true
  | _ => true

end SyncCalls

/-! ### One call -/

/-- What holds of a call, given whether the dispatch thread has it before it, whether its reply is
outstanding, and whether its flag is about to be set. -/
structure SyncCall.Consistent (call : SyncCall) (works replies flag : Prop) : Prop where
  served : call.pc = .waiting ∨ call.pc = .asleep → call.done = false → works
  awake : call.pc = .asleep → call.done = false
  negative : call.failed → call.r < 0
  result : ∀ value, call.pc = .returned value → value = call.r
  unset : works → call.done = false ∧ (call.pc = .waiting ∨ call.pc = .asleep)
  fresh : works → ¬flag → call.failed = false
  sent : replies → 0 ≤ call.r

namespace SyncCall

variable {call : SyncCall} {works replies flag : Prop}

theorem Consistent.mono (holds : call.Consistent works replies flag) {works' replies' flag' : Prop}
    (sameWorks : works' ↔ works) (fewer : replies' → replies) (kept : flag → flag') :
    call.Consistent works' replies' flag' where
  served in' unset := sameWorks.mpr (holds.served in' unset)
  awake := holds.awake
  negative := holds.negative
  result := holds.result
  unset here := holds.unset (sameWorks.mp here)
  fresh here other := holds.fresh (sameWorks.mp here) fun old => other (kept old)
  sent here := holds.sent (fewer here)

theorem wake_done (call : SyncCall) : call.wake.done = call.done := by
  rw [wake]
  split_ifs <;> rfl

theorem wake_r (call : SyncCall) : call.wake.r = call.r := by
  rw [wake]
  split_ifs <;> rfl

theorem wake_failed (call : SyncCall) : call.wake.failed = call.failed := by
  rw [wake]
  split_ifs <;> rfl

/-- Waking up a thread that sleeps changes nothing else. -/
theorem wake_waits (call : SyncCall) :
    call.wake.pc = .waiting ∨ call.wake.pc = .asleep ↔ call.pc = .waiting ∨ call.pc = .asleep := by
  rw [wake]
  split_ifs with sleeps
  · simp [sleeps]
  · rfl

theorem wake_awake (call : SyncCall) : call.wake.pc ≠ .asleep := by
  rw [wake]
  split_ifs with sleeps
  · simp
  · exact sleeps

theorem wake_returned (call : SyncCall) {value : ℤ} (returned : call.wake.pc = .returned value) :
    call.pc = .returned value := by
  rw [wake] at returned
  split_ifs at returned
  exact returned

theorem Consistent.wake (holds : call.Consistent works replies flag) :
    call.wake.Consistent works replies flag where
  served in' unset := holds.served (call.wake_waits.mp in') (call.wake_done ▸ unset)
  awake sleeps := absurd sleeps call.wake_awake
  negative failed := by
    rw [wake_r]
    exact holds.negative (call.wake_failed ▸ failed)
  result value returned := by
    rw [wake_r]
    exact holds.result value (call.wake_returned returned)
  unset here := by
    rw [wake_done, wake_waits]
    exact holds.unset here
  fresh here other := by
    rw [wake_failed]
    exact holds.fresh here other
  sent here := by
    rw [wake_r]
    exact holds.sent here

/-- A stage returns, of a call that no stage has failed of. -/
theorem Consistent.stage (holds : call.Consistent works replies flag) (here : works) (r : ℤ)
    (first : ¬flag) {replies' flag' : Prop} (ok : replies' → 0 ≤ r) (failed : r < 0 → flag') :
    (call.stage r).Consistent works replies' flag' where
  served _ _ := here
  awake := holds.awake
  negative negative := by
    simpa [SyncCall.stage, holds.fresh here first] using negative
  result value returned := by
    have waits := (holds.unset here).2
    change call.pc = _ at returned
    rw [returned] at waits
    simp at waits
  unset := holds.unset
  fresh here other := by
    have success : ¬r < 0 := fun negative => other (failed negative)
    simp only [SyncCall.stage, holds.fresh here first, Bool.false_or, decide_eq_false_iff_not]
    exact success
  sent := ok

/-- What the callback of the reply makes of the result. -/
theorem callDone_negative_iff (sent : 0 ≤ call.r) (fresh : call.failed = false) {errno : Option ℕ}
    (isError : errno ≠ some 0) (unpacked : ℤ) :
    ((call.callDone errno unpacked).failed → (call.callDone errno unpacked).r < 0) ↔
      match call.kind with
      | .general _ msgunpack => errno.isSome → msgunpack ∧ unpacked < 0
      | .withPacker => True := by
  cases kind : call.kind with
  | general msgpack msgunpack =>
    cases msgunpack <;> cases errno <;> simp [callDone, kind, sent, fresh, SyncKind.unpacks]
  | withPacker =>
    cases errno with
    | none => simp [callDone, kind, sent, fresh, SyncKind.unpacks]
    | some e =>
      have positive : e ≠ 0 := fun zero => isError (congrArg some zero)
      simp [callDone, kind, SyncKind.unpacks, positive]
      omega

theorem Consistent.callDone (holds : call.Consistent works replies flag) (here : works)
    {errno : Option ℕ} {unpacked : ℤ}
    (negative : (call.callDone errno unpacked).failed → (call.callDone errno unpacked).r < 0)
    {replies' flag' : Prop} (received : ¬replies') (next : flag') :
    (call.callDone errno unpacked).Consistent works replies' flag' where
  served _ _ := here
  awake := holds.awake
  negative := negative
  result value returned := by
    have waits := (holds.unset here).2
    change call.pc = _ at returned
    rw [returned] at waits
    simp at waits
  unset := holds.unset
  fresh _ other := absurd next other
  sent here := absurd here received

end SyncCall

namespace SyncCalls

variable {s s' : SyncCalls}

structure Inv (s : SyncCalls) : Prop where
  nodup : s.works.Nodup
  known : ∀ c ∈ s.works, (s.calls c).isSome
  calls : ∀ c call, s.calls c = some call →
    call.Consistent (c ∈ s.works) (c ∈ s.replies) (s.dispatcher = .setFlag c)

theorem Inv.answered (inv : s.Inv) : s.Answered where
  served c call here := (inv.calls c call here).served
  awake c call here := (inv.calls c call here).awake
  negative c call here := (inv.calls c call here).negative
  result c call value here := (inv.calls c call here).result value

theorem inv_start : start.Inv where
  nodup := List.nodup_nil
  known c member := by cases member
  calls c call here := by cases here

/-- A step that changes one call. -/
theorem Inv.set (inv : s.Inv) {c : ℕ} {call : SyncCall}
    (calls : s'.calls = Function.update s.calls c (some call)) (nodup : s'.works.Nodup)
    (works : ∀ i ≠ c, (i ∈ s'.works ↔ i ∈ s.works)) (replies : ∀ i ≠ c, i ∈ s'.replies → i ∈ s.replies)
    (flag : ∀ i ≠ c, s.dispatcher = .setFlag i → s'.dispatcher = .setFlag i)
    (mine : call.Consistent (c ∈ s'.works) (c ∈ s'.replies) (s'.dispatcher = .setFlag c)) :
    s'.Inv where
  nodup := nodup
  known i member := by
    rw [calls]
    by_cases same : i = c
    · rw [same, Function.update_self]
      rfl
    · rw [Function.update_of_ne same]
      exact inv.known i ((works i same).mp member)
  calls i call' here := by
    rw [calls] at here
    by_cases same : i = c
    · subst same
      rw [Function.update_self] at here
      cases here
      exact mine
    · rw [Function.update_of_ne same] at here
      exact (inv.calls i call' here).mono (works i same) (replies i same) (flag i same)

/-- The call that the dispatch thread works for. -/
theorem mem_works_of_call? {c : ℕ} (runs : s.dispatcher.call? = some c) : c ∈ s.works := by
  rw [works, runs]
  simp

/-- A stage that changes neither the pipe nor the replies. -/
theorem Inv.stage (inv : s.Inv) {c : ℕ} {call : SyncCall} (here : s.calls c = some call) {r : ℤ}
    (runs : s.dispatcher.call? = some c) (first : ∀ i, s.dispatcher ≠ .setFlag i)
    {next : DispatcherPc} (nextCall : next.call? = some c) (failed : r < 0 → next = .setFlag c) :
    Inv { s.setCall c (call.stage r) with dispatcher := next } := by
  have same : works { s.setCall c (call.stage r) with dispatcher := next } = s.works := by
    rw [works, works, nextCall, runs]
    rfl
  have mine := mem_works_of_call? runs
  have apart : c ∉ s.replies := by
    intro member
    have nodup := inv.nodup
    rw [works, runs] at nodup
    exact (List.nodup_append.mp nodup).2.2 c (List.mem_append_right _ member) c (by simp) rfl
  apply inv.set rfl
  · rw [same]
    exact inv.nodup
  · intro i _
    rw [same]
  · exact fun i _ member => member
  · intro i _ set
    exact absurd set (first i)
  · have old := inv.calls c call here
    rw [same]
    exact old.stage mine r (first c) (fun member => absurd member apart) failed

theorem Inv.call (inv : s.Inv) {c : ℕ} (new : s.calls c = none) {kind : SyncKind} :
    Inv { s.setCall c ⟨kind, -1, false, false, .waiting⟩ with pipe := s.pipe ++ [c] } := by
  have absent : c ∉ s.works := by
    intro member
    have := inv.known c member
    simp [new] at this
  have perm : (works { s.setCall c ⟨kind, -1, false, false, .waiting⟩ with
      pipe := s.pipe ++ [c] }).Perm (c :: s.works) := by
    simp only [works, setCall, List.append_assoc, List.singleton_append]
    exact List.perm_middle
  apply inv.set rfl
  · exact perm.nodup_iff.mpr (List.nodup_cons.mpr ⟨absent, inv.nodup⟩)
  · intro i other
    simp [perm.mem_iff, other]
  · exact fun i _ member => member
  · exact fun i _ set => set
  · have mine := perm.mem_iff.mpr (List.mem_cons_self ..)
    have unsent : c ∉ s.replies := fun member => absent (by simp [works, member])
    refine ⟨fun _ _ => mine, ?_, ?_, ?_, fun _ => ⟨rfl, .inl rfl⟩, fun _ _ => rfl, ?_⟩
    · simp
    · simp
    · simp
    · exact fun member => absurd member unsent

theorem Inv.returns (inv : s.Inv) {c : ℕ} (new : s.calls c = none) {kind : SyncKind} :
    Inv (s.setCall c ⟨kind, -1, false, false, .returned (-1)⟩) := by
  have absent : c ∉ s.works := by
    intro member
    have := inv.known c member
    simp [new] at this
  have unsent : c ∉ s.replies := fun member => absent (by simp [works, member])
  apply inv.set rfl
  · exact inv.nodup
  · exact fun _ _ => Iff.rfl
  · exact fun _ _ member => member
  · exact fun _ _ set => set
  · refine ⟨?_, ?_, ?_, ?_, fun member => absurd member absent, fun _ _ => rfl, ?_⟩
    · simp
    · simp
    · simp
    · simp
    · exact fun member => absurd member unsent

/-- The thread of a call sleeps, wakes up or returns. -/
theorem Inv.move (inv : s.Inv) {c : ℕ} {call : SyncCall} (here : s.calls c = some call)
    {pc : WaiterPc} (waits : call.pc = .waiting ∨ call.pc = .asleep)
    (next : pc = .waiting ∨ pc = .asleep ∧ call.done = false ∨
      pc = .returned call.r ∧ call.done = true) : Inv (s.setCall c { call with pc := pc }) := by
  have old := inv.calls c call here
  apply inv.set rfl
  · exact inv.nodup
  · exact fun _ _ => Iff.rfl
  · exact fun _ _ member => member
  · exact fun _ _ set => set
  refine ⟨fun _ unset => old.served waits unset, ?_, old.negative, ?_, ?_, old.fresh, old.sent⟩
  · rintro (rfl : pc = _)
    rcases next with wrong | ⟨-, unset⟩ | ⟨wrong, -⟩
    · cases wrong
    · exact unset
    · cases wrong
  · rintro value (rfl : pc = _)
    rcases next with wrong | ⟨wrong, -⟩ | ⟨same, -⟩
    · cases wrong
    · cases wrong
    · cases same
      rfl
  · intro member
    have unset := (old.unset member).1
    rcases next with rfl | ⟨rfl, -⟩ | ⟨-, set⟩
    · exact ⟨unset, .inl rfl⟩
    · exact ⟨unset, .inr rfl⟩
    · rw [unset] at set
      cases set

theorem Inv.read (inv : s.Inv) (idle : s.dispatcher = .idle) {c : ℕ} {pipe : List ℕ}
    (first : s.pipe = c :: pipe) : Inv { s with pipe := pipe, dispatcher := .create c } := by
  have perm : (works { s with pipe := pipe, dispatcher := .create c }).Perm s.works := by
    simp only [works, idle, first, DispatcherPc.call?, Option.toList_some, Option.toList_none,
      List.append_nil, List.cons_append]
    exact List.perm_append_singleton c _
  refine ⟨perm.nodup_iff.mpr inv.nodup, fun i member => inv.known i (perm.mem_iff.mp member), ?_⟩
  intro i call here
  apply (inv.calls i call here).mono perm.mem_iff id
  simp [idle]

theorem Inv.send (inv : s.Inv) {c : ℕ} {call : SyncCall} (runs : s.dispatcher = .send c)
    (here : s.calls c = some call) {r : ℤ} (success : 0 ≤ r) :
    Inv { s.setCall c (call.stage r) with replies := s.replies ++ [c], dispatcher := .idle } := by
  have same : works { s.setCall c (call.stage r) with
      replies := s.replies ++ [c], dispatcher := .idle } = s.works := by
    simp [works, runs, DispatcherPc.call?, setCall]
  have mine : c ∈ s.works := mem_works_of_call? (by rw [runs]; rfl)
  apply inv.set rfl
  · rw [same]
    exact inv.nodup
  · intro i _
    rw [same]
  · intro i other member
    simpa [other] using member
  · simp [runs]
  · have old := inv.calls c call here
    rw [same]
    exact old.stage mine r (by simp [runs]) (fun _ => success) (by omega)

theorem Inv.reply (inv : s.Inv) (idle : s.dispatcher = .idle) {c : ℕ} (outstanding : c ∈ s.replies)
    {call : SyncCall} (here : s.calls c = some call) {errno : Option ℕ} {unpacked : ℤ}
    (negative : (call.callDone errno unpacked).failed → (call.callDone errno unpacked).r < 0) :
    Inv { s.setCall c (call.callDone errno unpacked) with
      replies := s.replies.erase c, dispatcher := .setFlag c } := by
  have perm : (works { s.setCall c (call.callDone errno unpacked) with
      replies := s.replies.erase c, dispatcher := .setFlag c }).Perm s.works := by
    simp only [works, setCall, idle, DispatcherPc.call?, Option.toList_some, Option.toList_none,
      List.append_nil, List.append_assoc]
    apply List.Perm.append_left
    exact (List.perm_append_singleton c _).trans (List.perm_cons_erase outstanding).symm
  have nodup : s.replies.Nodup := by
    have := inv.nodup
    rw [works] at this
    exact this.of_append_left.of_append_right
  have mine : c ∈ s.works := by simp [works, outstanding]
  apply inv.set rfl
  · exact perm.nodup_iff.mpr inv.nodup
  · intro i _
    rw [perm.mem_iff]
  · exact fun i _ member => List.mem_of_mem_erase member
  · simp [idle]
  · have old := inv.calls c call here
    rw [perm.mem_iff]
    exact old.callDone mine negative nodup.not_mem_erase rfl

theorem Inv.setFlag (inv : s.Inv) {c : ℕ} {call : SyncCall} (runs : s.dispatcher = .setFlag c)
    (here : s.calls c = some call) : Inv { s with
      calls := fun i =>
        (Function.update s.calls c (some { call with done := true }) i).map SyncCall.wake
      dispatcher := .idle } := by
  have split : s.works = s.pipe ++ s.replies ++ [c] := by
    simp [works, runs, DispatcherPc.call?]
  have nodup := inv.nodup
  rw [split] at nodup
  obtain ⟨nodup', -, apart⟩ := List.nodup_append.mp nodup
  have absent : c ∉ s.pipe ++ s.replies := fun member => apart c member c (by simp) rfl
  have works' : ∀ i ≠ c, (i ∈ s.pipe ++ s.replies ↔ i ∈ s.works) := by
    intro i other
    rw [split]
    simp [other]
  refine ⟨?_, ?_, ?_⟩
  · simpa [works, DispatcherPc.call?] using nodup'
  · intro i member
    simp only [works, DispatcherPc.call?, Option.toList_none, List.append_nil] at member
    dsimp only
    by_cases same : i = c
    · exact absurd (same ▸ member) absent
    · rw [Function.update_of_ne same, Option.isSome_map]
      exact inv.known i ((works' i same).mp member)
  · intro i call' taken
    obtain ⟨call₀, before, rfl⟩ := Option.map_eq_some_iff.mp taken
    by_cases same : i = c
    · subst same
      rw [Function.update_self] at before
      cases before
      have old := inv.calls i call here
      have absent' : i ∉ works { s with
          calls := fun j =>
            (Function.update s.calls i (some { call with done := true }) j).map SyncCall.wake
          dispatcher := .idle } := by
        simpa [works, DispatcherPc.call?] using absent
      have unsent : i ∉ s.replies := fun member => absent (List.mem_append_right _ member)
      refine ⟨?_, fun sleeps => absurd sleeps (SyncCall.wake_awake _), ?_, ?_,
        fun member => absurd member absent', fun member => absurd member absent',
        fun member => absurd member unsent⟩
      · intro _ unset
        rw [SyncCall.wake_done] at unset
        cases unset
      · rw [SyncCall.wake_failed, SyncCall.wake_r]
        exact old.negative
      · intro value returned
        rw [SyncCall.wake_r]
        exact old.result value (SyncCall.wake_returned { call with done := true } returned)
    · rw [Function.update_of_ne same] at before
      apply ((inv.calls i call₀ before).mono ?_ id ?_).wake
      · simpa [works, DispatcherPc.call?] using works' i same
      · intro set
        rw [runs] at set
        cases set
        exact absurd rfl same

theorem send_cases {r : ℤ} (taken : s.step (.send r) = some s') :
    ∃ c call, s.dispatcher = .send c ∧ s.calls c = some call ∧
      s' = { s.setCall c (call.stage r) with
        replies := if r < 0 then s.replies else s.replies ++ [c]
        dispatcher := .idle } := by
  simp only [SyncCalls.step] at taken
  split at taken
  · rename_i c runs
    obtain ⟨call, here, rfl⟩ := Option.map_eq_some_iff.mp taken
    exact ⟨c, call, runs, here, rfl⟩
  · cases taken

/-- A reply is sound exactly if its call is left with the right result. -/
theorem reply_cases (inv : s.Inv) {c : ℕ} {errno : Option ℕ} {unpacked : ℤ}
    (taken : s.step (.reply c errno unpacked) = some s') :
    ∃ call, s.dispatcher = .idle ∧ c ∈ s.replies ∧ s.calls c = some call ∧
      s' = { s.setCall c (call.callDone errno unpacked) with
        replies := s.replies.erase c
        dispatcher := .setFlag c } ∧
      (((call.callDone errno unpacked).failed → (call.callDone errno unpacked).r < 0) ↔
        s.sound (.reply c errno unpacked)) := by
  simp only [SyncCalls.step] at taken
  split_ifs at taken with ready
  obtain ⟨idle, outstanding, isError⟩ := ready
  obtain ⟨call, here, rfl⟩ := Option.map_eq_some_iff.mp taken
  have old := inv.calls c call here
  have fresh := old.fresh (by simp [works, outstanding]) (by simp [idle])
  refine ⟨call, idle, outstanding, here, rfl, ?_⟩
  rw [SyncCall.callDone_negative_iff (old.sent outstanding) fresh isError]
  simp only [sound, here, Option.map_some]
  cases call.kind with
  | general msgpack msgunpack => cases errno <;> simp
  | withPacker => simp

/-- A sound step keeps the invariant. -/
theorem Inv.step (inv : s.Inv) {a : Action} (taken : s.step a = some s') (sound : s.sound a) :
    s'.Inv := by
  cases a with
  | call c kind posted =>
    simp only [SyncCalls.step] at taken
    split_ifs at taken with known posted
    · cases taken
      exact inv.call (by simpa using known)
    · cases taken
      exact inv.returns (by simpa using known)
  | look c =>
    simp only [SyncCalls.step] at taken
    split at taken
    · rename_i call here
      obtain ⟨waiting, taken⟩ := Option.ite_none_right_eq_some.mp taken
      cases taken
      apply inv.move here (.inl waiting)
      cases call.done <;> simp
    · cases taken
  | spurious c =>
    simp only [SyncCalls.step] at taken
    split at taken
    · rename_i call here
      split_ifs at taken with sleeps
      cases taken
      rw [SyncCall.wake, if_pos sleeps]
      exact inv.move here (.inr sleeps) (.inl rfl)
    · cases taken
  | read =>
    simp only [SyncCalls.step] at taken
    split at taken
    · rename_i c pipe idle first
      cases taken
      exact inv.read idle first
    · cases taken
  | create r =>
    simp only [SyncCalls.step] at taken
    split at taken
    · rename_i c runs
      obtain ⟨call, here, rfl⟩ := Option.map_eq_some_iff.mp taken
      apply inv.stage here (by rw [runs]; rfl) (by simp [runs])
      · split_ifs <;> rfl
      · exact fun negative => if_pos negative
    · cases taken
  | pack r =>
    simp only [SyncCalls.step] at taken
    split at taken
    · rename_i c runs
      obtain ⟨call, here, rfl⟩ := Option.map_eq_some_iff.mp taken
      apply inv.stage here (by rw [runs]; rfl) (by simp [runs])
      · split_ifs <;> rfl
      · exact fun negative => if_pos negative
    · cases taken
  | send r =>
    obtain ⟨c, call, runs, here, rfl⟩ := send_cases taken
    have success : 0 ≤ r := by simpa [SyncCalls.sound] using sound
    rw [if_neg (by omega)]
    exact inv.send runs here success
  | reply c errno unpacked =>
    obtain ⟨call, idle, outstanding, here, rfl, negative⟩ := reply_cases inv taken
    exact inv.reply idle outstanding here (negative.mpr sound)
  | setFlag =>
    simp only [SyncCalls.step] at taken
    split at taken
    · rename_i c runs
      obtain ⟨call, here, rfl⟩ := Option.map_eq_some_iff.mp taken
      exact inv.setFlag runs here
    · cases taken

/-- Every other step leaves a call waiting or makes a wrong result. -/
theorem not_answered_of_unsound (inv : s.Inv) {a : Action} (taken : s.step a = some s')
    (unsound : ¬s.sound a) : ¬s'.Answered := by
  cases a with
  | send r =>
    obtain ⟨c, call, runs, here, rfl⟩ := send_cases taken
    have negative : r < 0 := by simpa [sound] using unsound
    rw [if_pos negative]
    intro answered
    have works' : s.works = s.pipe ++ s.replies ++ [c] := by
      simp [works, runs, DispatcherPc.call?]
    have nodup := inv.nodup
    rw [works'] at nodup
    have absent := (List.nodup_append.mp nodup).2.2
    obtain ⟨unset, waits⟩ := (inv.calls c call here).unset (by simp [works'])
    have served := answered.served c (call.stage r) (Function.update_self ..) waits unset
    simp only [works, DispatcherPc.call?, Option.toList_none, List.append_nil, setCall] at served
    exact absent c served c (by simp) rfl
  | reply c errno unpacked =>
    obtain ⟨call, idle, outstanding, here, rfl, negative⟩ := reply_cases inv taken
    intro answered
    exact unsound (negative.mp (answered.negative c _ (Function.update_self ..)))
  | _ => exact absurd rfl unsound

/-- For every run of any number of calls: all are answered in every state if and only if every step
is sound. -/
theorem answered_iff_sound {ls : List Action} {s : SyncCalls} (run : Run Step start ls s) :
    Throughout Step Answered start ls ↔ Run (Guarded (fun s a => s.sound a) Step) start ls s := by
  apply throughout_iff_of_invariant ?_ inv_start ?_ ?_ ?_ run
  · intro s a t t' taken taken'
    exact Option.some.inj (taken.symm.trans taken')
  · intro s a t inv taken
    exact inv.step taken.2 taken.1
  · intro s inv
    exact inv.answered
  · intro s a t inv taken unsound
    exact not_answered_of_unsound inv taken unsound

/-- Two calls, of which one cannot be packed. -/
def twoCalls : List Action :=
  [.call 0 .withPacker true, .call 1 (.general true true) true, .look 0, .read, .create 0, .pack 0,
    .send 1, .read, .create 0, .pack (-22), .setFlag, .look 1, .reply 0 none 0, .setFlag, .look 0]

theorem answered_iff_sound_two : ∃ s, Run Step start twoCalls s ∧
    Throughout Step Answered start twoCalls :=
  ⟨_, run_of_foldlM rfl, (answered_iff_sound (run_of_foldlM rfl)).mpr (guarded_of_foldlM rfl)⟩

/-- `sd_bus_call_async` fails. -/
theorem not_answered_unsent : ¬∀ ls s, Run Step start ls s → s.Answered := by
  intro answered
  have here := answered _ _ (run_of_foldlM (rfl : [Action.call 0 .withPacker true, .look 0, .read,
    .create 0, .pack 0, .send (-107)].foldlM step start = some _))
  exact absurd (here.served 0 ⟨.withPacker, -107, false, true, .asleep⟩ rfl (.inr rfl) rfl) (by decide)

end SyncCalls

end AmlCommonlib.Dbus
