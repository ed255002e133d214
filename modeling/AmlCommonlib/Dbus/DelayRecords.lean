import AmlCommonlib.Dbus.DelayTask
import Mathlib.Data.List.Nodup
import Mathlib.Tactic.Common

/-! # Who a task record belongs to

Each record is in the free list, with one call that is filling it in, or with one call that has been
accepted and whose message, timer or handler it is in. While the handler is about to call the
callback it has already put the record back.
-/

namespace AmlCommonlib.Dbus

/-- Where a record is. -/
inductive Role where
  | unused
  | free
  /-- Being filled in by a call. -/
  | held (post : ℕ)
  /-- On the way of an accepted call: in the pipe, in `delay_task_settimer`, waiting for its timer,
  and in `delay_task_timeout`. -/
  | piped (post : ℕ)
  | setting (post : ℕ)
  | armed (post : ℕ)
  | firing (post : ℕ)
  | lost

/-- The accepted call that a record is on the way of. -/
def Role.liveFor : Role → Option ℕ
  | .piped p | .setting p | .armed p | .firing p => some p
  | .unused | .free | .held _ | .lost => none

def PostPc.Returned : PostPc → Prop
  | .returned _ => True
  | _ => False

namespace Ambus

variable {τ : Type*} {event : SdEvent τ}

/-- Each callback is called for one accepted post, with the arguments of that post, and no post has
its callback called twice. -/
structure OwnArguments (called : List Invocation) (s : TaskMemory) : Prop where
  once : (called.map Invocation.post).Nodup
  own : ∀ i ∈ called, ∃ post, s.posts i.post = some post ∧ post.pc = .returned 0 ∧
    i.cb = post.cb ∧ i.param = post.param

/-- The call is about to start filling in the record whose callback the handler is about to call. -/
def overwrites (s : Ambus τ) (p : ℕ) : Bool :=
  match s.posts p, s.pc with
  | some post, .invoke task _ => post.task = task ∧ post.pc = .storeCb
  | _, _ => false

/-- No call stores into a record between `delay_task_timeout` putting that record back and calling
its callback. -/
def Safe (s : Ambus τ) : Action → Prop
  | .poster p _ => ¬s.overwrites p
  | _ => True

instance (s : Ambus τ) (a : Action) : Decidable (Safe s a) :=
  match a with
  | .poster p _ => inferInstanceAs (Decidable (¬s.overwrites p))
  | .lock .. | .read | .expire _ | .handler _ | .elapse _ => isTrue trivial

/-! ### The free list -/

/-- The records from a pointer on, along `next`. -/
def FreeList (tasks : ℕ → DelayTask) : Option ℕ → List ℕ → Prop
  | head, [] => head = none
  | head, task :: rest => head = some task ∧ FreeList tasks (tasks task).next rest

theorem FreeList.frame {tasks tasks' : ℕ → DelayTask} {head : Option ℕ} {records : List ℕ}
    (list : FreeList tasks head records) (same : ∀ r ∈ records, (tasks' r).next = (tasks r).next) :
    FreeList tasks' head records := by
  induction records generalizing head with
  | nil => exact list
  | cons task rest ih =>
    obtain ⟨here, later⟩ := list
    refine ⟨here, ?_⟩
    rw [same task (List.mem_cons_self ..)]
    exact ih later fun r member => same r (List.mem_cons_of_mem _ member)

/-! ### The invariant -/

/-- What a call that has not returned has stored so far. -/
def Stored (task : DelayTask) (post : Post) : Prop :=
  (post.pc ≠ .storeCb → task.cb = post.cb) ∧
    (post.pc ≠ .storeCb → post.pc ≠ .storeParam → task.param = post.param)

/-- The record holds the arguments of an accepted call whose callback has not been called. -/
def Ready (called : List Invocation) (s : TaskMemory) (task p : ℕ) : Prop :=
  p ∉ called.map Invocation.post ∧ ∃ post, s.posts p = some post ∧ post.task = task ∧
    post.pc = .returned 0 ∧ (s.tasks task).cb = post.cb ∧ (s.tasks task).param = post.param

/-- The records and the calls agree on where each record is. -/
structure Records (called : List Invocation) (s : TaskMemory) (role : ℕ → Role) : Prop where
  free : ∃ records, FreeList s.tasks s.freeTask records ∧ records.Nodup ∧
    ∀ r, r ∈ records ↔ role r = .free
  unused : ∀ r, s.allocated ≤ r → role r = .unused
  posting : ∀ p post, s.posts p = some post → ¬post.pc.Returned →
    role post.task = .held p ∧ Stored (s.tasks post.task) post
  held : ∀ r p, role r = .held p → ∃ post, s.posts p = some post ∧ post.task = r ∧ ¬post.pc.Returned
  live : ∀ r p, (role r).liveFor = some p → Ready called s r p

/-- The record that the dispatch thread works on. -/
def Handling (role : ℕ → Role) : DispatchPc → Prop
  | .idle | .invoke _ _ => True
  | .now task p | .addDelay task p _ | .setTime task p _ | .setEnabled task p =>
    role task = .setting p
  | .putBack task p => role task = .firing p

/-- The message, timer or handler that a record is in is the only one it is in. -/
structure Events (event : SdEvent τ) (s : Dispatch τ) (role : ℕ → Role) : Prop where
  piped : ∀ m ∈ s.pipe, role m.1 = .piped m.2
  pipeNodup : (s.pipe.map Prod.fst).Nodup
  armed : ∀ r, event.enabled s.loop r → role r = .armed (s.armedFor r) ∨ ∃ p, s.pc = .setEnabled r p
  handling : Handling role s.pc

/-- A callback about to be called is that of the call, even if the record has a new owner. -/
def Calling (called : List Invocation) (s : TaskMemory) (pc : DispatchPc) (role : ℕ → Role) :
    Prop :=
  ∀ task p, pc = .invoke task p → Ready called s task p ∧ (role task = .free ∨
    ∃ q post, role task = .held q ∧ s.posts q = some post ∧ post.pc = .storeCb)

structure Owned (event : SdEvent τ) (called : List Invocation) (s : Ambus τ) (role : ℕ → Role) :
    Prop where
  records : Records called s.toTaskMemory role
  events : Events event s.toDispatch role
  calling : Calling called s.toTaskMemory s.pc role
  ownArguments : OwnArguments called s.toTaskMemory

theorem owned_start : Owned event [] (start event) fun _ => .unused where
  records := {
    free := ⟨[], rfl, List.nodup_nil, by simp⟩
    unused := fun _ _ => rfl
    posting := fun p post call => by cases call
    held := fun r p role => by cases role
    live := fun r p role => by cases role }
  events := {
    piped := fun m member => by cases member
    pipeNodup := List.nodup_nil
    armed := fun r on => absurd on (event.enabled_init r)
    handling := trivial }
  calling task p pc := by cases pc
  ownArguments := ⟨List.nodup_nil, by simp⟩

variable {called : List Invocation} {s : Ambus τ} {role : ℕ → Role}

/-- A record that is in no message, timer or handler can change hands. -/
theorem Events.setRole {d : Dispatch τ} {r : ℕ} {new : Role} (events : Events event d role)
    (idle : (role r).liveFor = none) : Events event d (Function.update role r new) := by
  have other : ∀ {task p}, (role task).liveFor = some p → Function.update role r new task = role task := by
    intro task p live
    apply Function.update_of_ne
    rintro rfl
    rw [idle] at live
    cases live
  obtain ⟨piped, pipeNodup, armed, handling⟩ := events
  refine ⟨?_, pipeNodup, ?_, ?_⟩
  · intro m member
    rw [other (by rw [piped m member]; rfl), piped m member]
  · intro task on
    rcases armed task on with armed | setting
    · exact .inl (by rw [other (by rw [armed]; rfl), armed])
    · exact .inr setting
  · revert handling
    cases d.pc with
    | idle | invoke => exact id
    | now task p | addDelay task p | setTime task p | setEnabled task p | putBack task p =>
      intro handling
      simp only [Handling] at handling ⊢
      rw [other (by rw [handling]; rfl), handling]

/-- A call gets a record that nobody has. -/
theorem Records.hold {s s' : TaskMemory} {p r : ℕ} {post : Post} (records : Records called s role)
    (new : s.posts p = none) (posts : s'.posts = Function.update s.posts p (some post))
    (isTask : post.task = r) (isPc : post.pc = .storeCb) (nobody : role r = .free ∨ role r = .unused)
    (tasks : ∀ other, role other ≠ .unused → s'.tasks other = s.tasks other)
    (allocated : ∀ other, s'.allocated ≤ other → s.allocated ≤ other ∧ other ≠ r)
    (free : ∃ records, FreeList s'.tasks s'.freeTask records ∧ records.Nodup ∧
      ∀ other, other ∈ records ↔ role other = .free ∧ other ≠ r) :
    Records called s' (Function.update role r (.held p)) := by
  have elsewhere : ∀ {q : ℕ}, q ≠ p → s'.posts q = s.posts q := by
    intro q ne
    rw [posts, Function.update_of_ne ne]
  have here : s'.posts p = some post := by rw [posts, Function.update_self]
  constructor
  · obtain ⟨left, list, nodup, inList⟩ := free
    refine ⟨left, list, nodup, ?_⟩
    intro other
    rw [inList, Function.update_apply]
    split_ifs with same <;> simp [same]
  · intro other above
    obtain ⟨above, ne⟩ := allocated other above
    rw [Function.update_of_ne ne, records.unused other above]
  · intro q post' call running
    rcases eq_or_ne q p with rfl | ne
    · obtain rfl := Option.some.inj (here.symm.trans call)
      rw [isTask, Function.update_self]
      exact ⟨rfl, fun started => absurd isPc started, fun started => absurd isPc started⟩
    · obtain ⟨holds, stored⟩ := records.posting q post' ((elsewhere ne).symm.trans call) running
      have ne' : post'.task ≠ r := by
        rintro rfl
        simp [holds] at nobody
      rw [Function.update_of_ne ne', tasks _ (by simp [holds])]
      exact ⟨holds, stored⟩
  · intro other q holds
    rcases eq_or_ne other r with rfl | ne
    · rw [Function.update_self] at holds
      cases holds
      exact ⟨post, here, isTask, by simp [isPc, PostPc.Returned]⟩
    · rw [Function.update_of_ne ne] at holds
      obtain ⟨post', call, isTask', running⟩ := records.held other q holds
      have ne' : q ≠ p := by
        rintro rfl
        rw [new] at call
        cases call
      exact ⟨post', (elsewhere ne').trans call, isTask', running⟩
  · intro other q isLive
    have ne : other ≠ r := by
      rintro rfl
      rw [Function.update_self] at isLive
      cases isLive
    rw [Function.update_of_ne ne] at isLive
    obtain ⟨notCalled, post', call, rest⟩ := records.live other q isLive
    have ne' : q ≠ p := by
      rintro rfl
      rw [new] at call
      cases call
    have used : role other ≠ .unused := by
      intro unused
      rw [unused] at isLive
      cases isLive
    exact ⟨notCalled, post', (elsewhere ne').trans call, by rwa [tasks _ used]⟩

/-- A new call changes nothing for the calls before it. -/
theorem OwnArguments.frame {s s' : TaskMemory} (ownArguments : OwnArguments called s)
    (kept : ∀ p post, s.posts p = some post → post.pc = .returned 0 → s'.posts p = some post) :
    OwnArguments called s' := by
  refine ⟨ownArguments.once, ?_⟩
  intro i member
  obtain ⟨post, call, accepted, args⟩ := ownArguments.own i member
  exact ⟨post, kept _ _ call accepted, accepted, args⟩

theorem Ready.frame {s s' : TaskMemory} {r p : ℕ} (ready : Ready called s r p)
    (kept : ∀ post, s.posts p = some post → post.pc = .returned 0 → s'.posts p = some post)
    (cb : (s'.tasks r).cb = (s.tasks r).cb) (param : (s'.tasks r).param = (s.tasks r).param) :
    Ready called s' r p := by
  obtain ⟨notCalled, post, call, isTask, accepted, args⟩ := ready
  exact ⟨notCalled, post, kept post call accepted, isTask, accepted, by rwa [cb, param]⟩

/-- The record of a callback about to be called may be taken by another call. -/
theorem Calling.hold {s s' : TaskMemory} {pc : DispatchPc} {p r : ℕ} {post : Post}
    (calling : Calling called s pc role) (new : s.posts p = none)
    (posts : s'.posts = Function.update s.posts p (some post)) (isPc : post.pc = .storeCb)
    (tasks : ∀ other, role other ≠ .unused → s'.tasks other = s.tasks other) :
    Calling called s' pc (Function.update role r (.held p)) := by
  intro task q isCalling
  have kept : ∀ q old, s.posts q = some old → s'.posts q = some old := by
    intro q old call
    rw [posts, Function.update_of_ne, call]
    rintro rfl
    rw [new] at call
    cases call
  obtain ⟨ready, owner⟩ := calling task q isCalling
  have used : role task ≠ .unused := by
    rcases owner with free | ⟨_, _, holds, -⟩
    · simp [free]
    · simp [holds]
  refine ⟨ready.frame (fun old call _ => kept q old call) (by rw [tasks _ used])
    (by rw [tasks _ used]), ?_⟩
  rcases eq_or_ne task r with rfl | ne
  · exact .inr ⟨p, post, Function.update_self .., by rw [posts, Function.update_self], isPc⟩
  · rw [Function.update_of_ne ne]
    exact owner.imp_right fun ⟨q, old, holds, call, atStart⟩ => ⟨q, old, holds, kept q old call, atStart⟩

theorem Owned.takeTask {p delay_ms cb param : ℕ} (owned : Owned event called s role)
    (new : s.posts p = none) :
    ∃ role', Owned event called (s.takeTask p delay_ms cb param) role' := by
  obtain ⟨records, events, calling, ownArguments⟩ := owned
  have kept : ∀ {post : Post} q old, s.posts q = some old → old.pc = .returned 0 →
      Function.update s.posts p (some post) q = some old := by
    intro post q old call _
    rw [Function.update_of_ne, call]
    rintro rfl
    rw [new] at call
    cases call
  obtain ⟨left, list, nodup, inList⟩ := records.free
  cases left with
  | nil =>
    have empty : s.freeTask = none := list
    have nobody : role s.allocated = .unused := records.unused _ (Nat.le_refl _)
    simp only [Ambus.takeTask, empty, setPost, setTask]
    have tasks : ∀ other, role other ≠ .unused →
        Function.update s.tasks s.allocated ⟨none, 0, 0, false, 0⟩ other = s.tasks other :=
      fun other used => Function.update_of_ne (by rintro rfl; exact used nobody) _ _
    refine ⟨Function.update role s.allocated (.held p), ?_, events.setRole (by rw [nobody]; rfl),
      calling.hold new rfl rfl tasks, ownArguments.frame kept⟩
    · apply Records.hold (r := s.allocated) records new rfl rfl rfl (.inr nobody) tasks
      · intro other above
        exact ⟨Nat.le_of_succ_le above, Nat.ne_of_gt above⟩
      · refine ⟨[], rfl, nodup, ?_⟩
        intro other
        grind
  | cons task rest =>
    obtain ⟨atHead, later⟩ := list
    have nobody : role task = .free := (inList task).mp (List.mem_cons_self ..)
    simp only [Ambus.takeTask, atHead, setPost]
    refine ⟨Function.update role task (.held p), ?_, events.setRole (by rw [nobody]; rfl),
      calling.hold new rfl rfl fun _ _ => rfl, ownArguments.frame kept⟩
    · apply Records.hold (r := task) records new rfl rfl rfl (.inl nobody)
      · exact fun _ _ => rfl
      · intro other above
        refine ⟨above, ?_⟩
        rintro rfl
        rw [records.unused _ above] at nobody
        cases nobody
      · refine ⟨rest, later, (List.nodup_cons.mp nodup).2, ?_⟩
        intro other
        grind

/-! ### A call filling in its record -/

/-- The other records and calls do not see what a call stores in its record. -/
theorem Records.store {s s' : TaskMemory} {p : ℕ} {post post' : Post}
    (records : Records called s role) (call : s.posts p = some post) (running : ¬post.pc.Returned)
    (posts : s'.posts = Function.update s.posts p (some post')) (sameTask : post'.task = post.task)
    (running' : ¬post'.pc.Returned) (stored : Stored (s'.tasks post.task) post')
    (tasks : ∀ other, other ≠ post.task → s'.tasks other = s.tasks other)
    (next : (s'.tasks post.task).next = (s.tasks post.task).next)
    (freeTask : s'.freeTask = s.freeTask) (allocated : s'.allocated = s.allocated) :
    Records called s' role := by
  have holds := (records.posting p post call running).1
  have here : s'.posts p = some post' := by rw [posts, Function.update_self]
  have elsewhere : ∀ {q}, q ≠ p → s'.posts q = s.posts q := by
    intro q ne
    rw [posts, Function.update_of_ne ne]
  constructor
  · obtain ⟨left, list, rest⟩ := records.free
    refine ⟨left, ?_, rest⟩
    rw [freeTask]
    apply list.frame
    intro r member
    rcases eq_or_ne r post.task with rfl | ne
    · exact next
    · rw [tasks r ne]
  · rw [allocated]
    exact records.unused
  · intro q other call' running
    rcases eq_or_ne q p with rfl | ne
    · obtain rfl := Option.some.inj (here.symm.trans call')
      rw [sameTask]
      exact ⟨holds, stored⟩
    · obtain ⟨holds', stored'⟩ := records.posting q other ((elsewhere ne).symm.trans call') running
      have ne' : other.task ≠ post.task := by
        intro same
        rw [same, holds] at holds'
        exact ne (Role.held.inj holds').symm
      rw [tasks _ ne']
      exact ⟨holds', stored'⟩
  · intro r q holds'
    obtain ⟨other, call', isTask, running'⟩ := records.held r q holds'
    rcases eq_or_ne q p with rfl | ne
    · obtain rfl := Option.some.inj (call.symm.trans call')
      exact ⟨post', here, sameTask.trans isTask, by assumption⟩
    · exact ⟨other, (elsewhere ne).trans call', isTask, running'⟩
  · intro r q isLive
    have ne : r ≠ post.task := by
      rintro rfl
      rw [holds] at isLive
      cases isLive
    apply (records.live r q isLive).frame
    · intro other call' accepted
      rw [elsewhere, call']
      rintro rfl
      obtain rfl := Option.some.inj (call.symm.trans call')
      rw [accepted] at running
      exact running trivial
    · rw [tasks r ne]
    · rw [tasks r ne]

/-- A call that holds the record being handled has not stored into it. -/
theorem Calling.atStart {s : TaskMemory} {pc : DispatchPc} {task q p : ℕ} {post : Post}
    (calling : Calling called s pc role) (isCalling : pc = .invoke task q)
    (holds : role task = .held p) (call : s.posts p = some post) : post.pc = .storeCb := by
  obtain ⟨-, owner⟩ := calling task q isCalling
  rw [holds] at owner
  rcases owner with free | ⟨p', other, same, call', atStart⟩
  · cases free
  · cases same
    obtain rfl := Option.some.inj (call.symm.trans call')
    exact atStart

theorem Calling.store {s s' : TaskMemory} {pc : DispatchPc} {p : ℕ} {post post' : Post}
    (calling : Calling called s pc role) (records : Records called s role)
    (call : s.posts p = some post) (running : ¬post.pc.Returned)
    (posts : s'.posts = Function.update s.posts p (some post'))
    (tasks : ∀ other, other ≠ post.task → s'.tasks other = s.tasks other)
    (safe : post.pc = .storeCb → ∀ q, pc ≠ .invoke post.task q) : Calling called s' pc role := by
  intro task q isCalling
  have holds := (records.posting p post call running).1
  obtain ⟨ready, owner⟩ := calling task q isCalling
  have elsewhere : ∀ {q other}, s.posts q = some other → other.task = task ∨ other.pc = .returned 0 →
      task ≠ post.task → s'.posts q = some other := by
    intro q other call' isOther ne
    rw [posts, Function.update_of_ne, call']
    rintro rfl
    obtain rfl := Option.some.inj (call.symm.trans call')
    rcases isOther with same | accepted
    · exact ne same.symm
    · rw [accepted] at running
      exact running trivial
  have ne : task ≠ post.task := by
    rintro rfl
    exact safe (calling.atStart isCalling holds call) q isCalling
  refine ⟨ready.frame (fun other call' accepted => elsewhere call' (.inr accepted) ne)
    (by rw [tasks _ ne]) (by rw [tasks _ ne]), ?_⟩
  refine owner.imp_right ?_
  rintro ⟨q', other, holds', call', atStart⟩
  obtain ⟨other', call'', isTask, -⟩ := records.held task q' holds'
  obtain rfl := Option.some.inj (call'.symm.trans call'')
  exact ⟨q', other, holds', elsewhere call' (.inl isTask) ne, atStart⟩

/-- A call that returns hands its record over, or loses it. -/
theorem Records.handOver {s s' : TaskMemory} {p : ℕ} {post : Post} {new : Role} {value : ℤ}
    (records : Records called s role) (call : s.posts p = some post) (isPc : post.pc = .send)
    (notCalled : p ∉ called.map Invocation.post)
    (posts : s'.posts = Function.update s.posts p (some { post with pc := .returned value }))
    (tasks : s'.tasks = s.tasks) (freeTask : s'.freeTask = s.freeTask)
    (allocated : s'.allocated = s.allocated) (notFree : new ≠ .free) (notHeld : ∀ q, new ≠ .held q)
    (accepted : ∀ q, new.liveFor = some q → q = p ∧ value = 0) :
    Records called s' (Function.update role post.task new) := by
  have running : ¬post.pc.Returned := by simp [isPc, PostPc.Returned]
  obtain ⟨holds, stored⟩ := records.posting p post call running
  have here : s'.posts p = some { post with pc := .returned value } := by
    rw [posts, Function.update_self]
  have elsewhere : ∀ {q}, q ≠ p → s'.posts q = s.posts q := by
    intro q ne
    rw [posts, Function.update_of_ne ne]
  constructor
  · obtain ⟨left, list, nodup, inList⟩ := records.free
    refine ⟨left, by rwa [tasks, freeTask], nodup, ?_⟩
    intro other
    rw [inList, Function.update_apply]
    split_ifs with same <;> simp [same, holds, notFree]
  · intro other above
    rw [allocated] at above
    have unused := records.unused other above
    rw [Function.update_of_ne, unused]
    rintro rfl
    rw [holds] at unused
    cases unused
  · intro q other call' running'
    rcases eq_or_ne q p with rfl | ne
    · obtain rfl := Option.some.inj (here.symm.trans call')
      exact absurd trivial running'
    · obtain ⟨holds', stored'⟩ := records.posting q other ((elsewhere ne).symm.trans call') running'
      rw [Function.update_of_ne, tasks]
      · exact ⟨holds', stored'⟩
      · intro same
        rw [same, holds] at holds'
        exact ne (Role.held.inj holds').symm
  · intro r q holds'
    rw [Function.update_apply] at holds'
    split_ifs at holds' with same
    · exact absurd holds' (notHeld q)
    · obtain ⟨other, call', isTask, running'⟩ := records.held r q holds'
      have ne : q ≠ p := by
        rintro rfl
        obtain rfl := Option.some.inj (call.symm.trans call')
        exact same isTask.symm
      exact ⟨other, (elsewhere ne).trans call', isTask, running'⟩
  · intro r q isLive
    rw [Function.update_apply] at isLive
    split_ifs at isLive with same
    · obtain ⟨rfl, rfl⟩ := accepted q isLive
      subst same
      refine ⟨notCalled, _, here, rfl, rfl, ?_⟩
      rw [tasks]
      exact ⟨stored.1 (by simp [isPc]), stored.2 (by simp [isPc]) (by simp [isPc])⟩
    · apply (records.live r q isLive).frame
      · intro other call' done
        rw [elsewhere, call']
        rintro rfl
        obtain rfl := Option.some.inj (call.symm.trans call')
        rw [isPc] at done
        cases done
      · rw [tasks]
      · rw [tasks]

theorem Calling.handOver {s s' : TaskMemory} {pc : DispatchPc} {p : ℕ} {post post' : Post}
    {new : Role} (calling : Calling called s pc role) (records : Records called s role)
    (call : s.posts p = some post) (isPc : post.pc = .send)
    (posts : s'.posts = Function.update s.posts p (some post')) (tasks : s'.tasks = s.tasks) :
    Calling called s' pc (Function.update role post.task new) := by
  have running : ¬post.pc.Returned := by simp [isPc, PostPc.Returned]
  have holds := (records.posting p post call running).1
  intro task q isCalling
  obtain ⟨ready, owner⟩ := calling.store records call running posts (fun _ _ => by rw [tasks])
    (by simp [isPc]) task q isCalling
  refine ⟨ready, ?_⟩
  rw [Function.update_of_ne]
  · exact owner
  · rintro rfl
    have atStart := calling.atStart isCalling holds call
    rw [isPc] at atStart
    cases atStart

theorem Owned.not_called {p : ℕ} {post : Post} (owned : Owned event called s role)
    (call : s.posts p = some post) (running : ¬post.pc.Returned) :
    p ∉ called.map Invocation.post := by
  intro member
  obtain ⟨i, inCalled, rfl⟩ := List.mem_map.mp member
  obtain ⟨other, call', accepted, -⟩ := owned.ownArguments.own i inCalled
  obtain rfl := Option.some.inj (call.symm.trans call')
  rw [accepted] at running
  exact running trivial

/-- What the accepted posts were is not changed by a call that has not returned. -/
theorem posts_kept {p : ℕ} {post post' : Post} (call : s.posts p = some post)
    (running : ¬post.pc.Returned) (q : ℕ) (old : Post) (call' : s.posts q = some old)
    (accepted : old.pc = .returned 0) : Function.update s.posts p (some post') q = some old := by
  rw [Function.update_of_ne, call']
  rintro rfl
  obtain rfl := Option.some.inj (call.symm.trans call')
  rw [accepted] at running
  exact running trivial

/-- A call stores one of its arguments in its record. -/
theorem Owned.store {p : ℕ} {post : Post} {f : DelayTask → DelayTask} {pc : PostPc}
    (owned : Owned event called s role) (call : s.posts p = some post)
    (running : ¬post.pc.Returned) (running' : ¬pc.Returned) (next : ∀ t, (f t).next = t.next)
    (stored : Stored (s.tasks post.task) post →
      Stored (f (s.tasks post.task)) { post with pc := pc })
    (safe : post.pc = .storeCb → ∀ q, s.pc ≠ .invoke post.task q) :
    Owned event called ((s.setTask post.task f).setPost p { post with pc := pc }) role := by
  have here : Function.update s.tasks post.task (f (s.tasks post.task)) post.task =
      f (s.tasks post.task) := Function.update_self ..
  have others : ∀ other, other ≠ post.task →
      Function.update s.tasks post.task (f (s.tasks post.task)) other = s.tasks other :=
    fun other ne => Function.update_of_ne ne _ _
  have posts : ((s.setTask post.task f).setPost p { post with pc := pc }).posts =
      Function.update s.posts p (some { post with pc := pc }) := rfl
  refine ⟨?_, owned.events, ?_, owned.ownArguments.frame (posts_kept call running)⟩
  · apply owned.records.store call running posts rfl running' ?_ others ?_ rfl rfl
    · have held := stored (owned.records.posting p post call running).2
      rwa [← here] at held
    · exact (congrArg DelayTask.next here).trans (next _)
  · exact owned.calling.store owned.records call running posts others safe

/-- An accepted call has its message in the pipe. -/
theorem Events.send {d : Dispatch τ} {task p : ℕ} (events : Events event d role)
    (holds : (role task).liveFor = none) :
    Events event { d with pipe := d.pipe ++ [(task, p)] } (Function.update role task (.piped p)) := by
  have absent : task ∉ d.pipe.map Prod.fst := by
    intro member
    obtain ⟨m, inPipe, rfl⟩ := List.mem_map.mp member
    rw [events.piped m inPipe] at holds
    cases holds
  have changed : Events event d (Function.update role task (.piped p)) := events.setRole holds
  obtain ⟨piped, pipeNodup, armed, handling⟩ := changed
  refine ⟨?_, ?_, armed, handling⟩
  · intro m member
    rcases List.mem_append.mp member with member | member
    · exact piped m member
    · obtain rfl := List.mem_singleton.mp member
      exact Function.update_self ..
  · rw [List.map_append, List.map_singleton, ← List.concat_eq_append]
    exact pipeNodup.concat absent

/-- The next statement of a call. -/
theorem Owned.posterStep {s' : Ambus τ} {p : ℕ} {post : Post} {written : Bool}
    (owned : Owned event called s role) (call : s.posts p = some post) (safe : ¬s.overwrites p)
    (taken : s.posterStep p post written = some s') : ∃ role', Owned event called s' role' := by
  obtain ⟨cb, param, delay_ms, task, pc⟩ := post
  cases pc with
  | storeCb =>
    cases taken
    refine ⟨role, owned.store call id id (fun _ => rfl) ?_ ?_⟩
    · intro _
      exact ⟨fun _ => rfl, fun _ notParam => absurd rfl notParam⟩
    · intro _ q isCalling
      simp [overwrites, call, isCalling] at safe
  | storeParam =>
    cases taken
    refine ⟨role, owned.store call id id (fun _ => rfl) ?_ (by simp)⟩
    intro stored
    exact ⟨fun _ => stored.1 (by simp), fun _ _ => rfl⟩
  | storeDelay =>
    cases taken
    refine ⟨role, owned.store call id id (fun _ => rfl) ?_ (by simp)⟩
    intro stored
    exact ⟨fun _ => stored.1 (by simp), fun _ _ => stored.2 (by simp) (by simp)⟩
  | send =>
    have running : ¬PostPc.send.Returned := id
    have holds := (owned.records.posting p _ call running).1
    have notCalled := owned.not_called call running
    cases written with
    | true =>
      cases taken
      refine ⟨Function.update role task (.piped p), ?_, ?_, ?_, ?_⟩
      · exact owned.records.handOver call rfl notCalled rfl rfl rfl rfl (by simp) (by simp)
          (by simp [Role.liveFor, eq_comm])
      · exact owned.events.send (by rw [holds]; rfl)
      · exact owned.calling.handOver owned.records call rfl rfl rfl
      · exact owned.ownArguments.frame (posts_kept call running)
    | false =>
      cases taken
      refine ⟨Function.update role task .lost, ?_, ?_, ?_, ?_⟩
      · exact owned.records.handOver call rfl notCalled rfl rfl rfl rfl (by simp) (by simp)
          (by simp [Role.liveFor])
      · exact owned.events.setRole (by rw [holds]; rfl)
      · exact owned.calling.handOver owned.records call rfl rfl rfl
      · exact owned.ownArguments.frame (posts_kept call running)
  | returned => cases taken

end Ambus

end AmlCommonlib.Dbus
