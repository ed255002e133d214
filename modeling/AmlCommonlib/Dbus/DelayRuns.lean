import AmlCommonlib.Dbus.DelayRecords

/-! # Runs of delayed tasks

What the dispatch thread does with a record, and from it that callbacks are called with their own
arguments as long as no call overtakes the handler.
-/

namespace AmlCommonlib.Dbus.Ambus

variable {τ : Type*} {event : SdEvent τ} {called : List Invocation} {s : Ambus τ} {role : ℕ → Role}

/-- What the dispatch thread does with a record leaves its arguments and its owner as they are. -/
theorem Records.pass {s s' : TaskMemory} {r p : ℕ} {new : Role} (records : Records called s role)
    (isLive : (role r).liveFor = some p)
    (free : ∃ left, FreeList s'.tasks s'.freeTask left ∧ left.Nodup ∧
      ∀ other, other ∈ left ↔ Function.update role r new other = .free)
    (posts : s'.posts = s.posts) (allocated : s'.allocated = s.allocated)
    (args : ∀ other, (s'.tasks other).cb = (s.tasks other).cb ∧
      (s'.tasks other).param = (s.tasks other).param)
    (notHeld : ∀ q, new ≠ .held q) (sub : ∀ q, new.liveFor = some q → q = p) :
    Records called s' (Function.update role r new) := by
  have stored : ∀ {other post}, Stored (s.tasks other) post → Stored (s'.tasks other) post := by
    intro other post stored
    exact ⟨fun h => (args other).1.trans (stored.1 h), fun h h' => (args other).2.trans (stored.2 h h')⟩
  have ready : ∀ {other q}, Ready called s other q → Ready called s' other q :=
    fun ready => ready.frame (fun _ call _ => by rwa [posts]) (args _).1 (args _).2
  refine ⟨free, ?_, ?_, ?_, ?_⟩
  · intro other above
    rw [allocated] at above
    have unused := records.unused other above
    rw [Function.update_of_ne, unused]
    rintro rfl
    rw [unused] at isLive
    cases isLive
  · intro q post call running
    rw [posts] at call
    obtain ⟨holds, held⟩ := records.posting q post call running
    rw [Function.update_of_ne]
    · exact ⟨holds, stored held⟩
    · rintro rfl
      rw [holds] at isLive
      cases isLive
  · intro other q holds
    rw [Function.update_apply] at holds
    split_ifs at holds
    · exact absurd holds (notHeld q)
    · rw [posts]
      exact records.held other q holds
  · intro other q live
    rw [Function.update_apply] at live
    split_ifs at live with same
    · subst same
      obtain rfl := sub q live
      exact ready (records.live _ _ isLive)
    · exact ready (records.live other q live)

theorem Records.move {s : TaskMemory} {r p : ℕ} {new : Role} (records : Records called s role)
    (isLive : (role r).liveFor = some p) (notFree : new ≠ .free) (notHeld : ∀ q, new ≠ .held q)
    (sub : ∀ q, new.liveFor = some q → q = p) :
    Records called s (Function.update role r new) := by
  apply records.pass isLive ?_ rfl rfl (fun _ => ⟨rfl, rfl⟩) notHeld sub
  obtain ⟨left, list, nodup, inList⟩ := records.free
  refine ⟨left, list, nodup, ?_⟩
  intro other
  rw [inList, Function.update_apply]
  split_ifs with same
  · subst same
    simp only [notFree, iff_false]
    intro free
    rw [free] at isLive
    cases isLive
  · rfl

/-- A field that an update keeps is as it was in every record. -/
theorem setTask_field {β : Type*} {r : ℕ} {f : DelayTask → DelayTask} (field : DelayTask → β)
    (keeps : ∀ t, field (f t) = field t) (other : ℕ) :
    field ((s.setTask r f).tasks other) = field (s.tasks other) := by
  simp only [setTask, Function.update_apply]
  split_ifs with same
  · rw [keeps, same]
  · rfl

/-- An update of other fields keeps the callbacks and their arguments. -/
theorem setTask_callback {r : ℕ} {f : DelayTask → DelayTask} (cb : ∀ t, (f t).cb = t.cb)
    (param : ∀ t, (f t).param = t.param) (other : ℕ) :
    ((s.setTask r f).tasks other).cb = (s.tasks other).cb ∧
      ((s.setTask r f).tasks other).param = (s.tasks other).param :=
  ⟨setTask_field DelayTask.cb cb other, setTask_field DelayTask.param param other⟩

/-- A record that is elsewhere than the one that moves stays where it is. -/
theorem role_of_update {task r : ℕ} {old new : Role} (holds : role r = old)
    (other : role task ≠ old) : Function.update role task new r = old := by
  rw [Function.update_of_ne, holds]
  rintro rfl
  exact other holds

/-- A timer that is on is that of its record, unless it is the one that is being set. -/
theorem Events.isArmed {d : Dispatch τ} {r : ℕ} (events : Events event d role)
    (notSetting : ∀ p, d.pc ≠ .setEnabled r p) (on : event.enabled d.loop r) :
    role r = .armed (d.armedFor r) := by
  rcases events.armed r on with isArmed | ⟨p, pc⟩
  · exact isArmed
  · exact absurd pc (notSetting p)

theorem not_calling {pc : DispatchPc} {s : TaskMemory} (other : ∀ task p, pc ≠ .invoke task p) :
    Calling called s pc role :=
  fun task p isCalling => absurd isCalling (other task p)

/-- Time goes by. -/
theorem Events.elapse {d : Dispatch τ} {usec : ℕ} (events : Events event d role) :
    Events event { d with loop := event.elapse d.loop usec } role :=
  ⟨events.piped, events.pipeNodup, fun r on => events.armed r (event.enabled_elapse on),
    events.handling⟩

/-- `delay_task_settimer` works out the time. -/
theorem Owned.compute {pc : DispatchPc} (owned : Owned event called s role)
    (handling : Handling role pc) (notTurning : ∀ r p, s.pc ≠ .setEnabled r p)
    (notCalling : ∀ r p, pc ≠ .invoke r p) : Owned event called { s with pc := pc } role := by
  obtain ⟨records, events, calling, ownArguments⟩ := owned
  refine ⟨records, ⟨events.piped, events.pipeNodup, ?_, handling⟩, not_calling notCalling,
    ownArguments⟩
  intro r on
  exact .inl (events.isArmed (notTurning r) on)

/-- The event loop reads a message. -/
theorem Owned.read {task p : ℕ} {pipe : List (ℕ × ℕ)} (owned : Owned event called s role)
    (idle : s.pc = .idle) (message : s.pipe = (task, p) :: pipe) :
    ∃ role', Owned event called { s with pipe := pipe, pc := .now task p } role' := by
  obtain ⟨records, events, calling, ownArguments⟩ := owned
  have piped := events.piped
  have pipeNodup := events.pipeNodup
  rw [message] at piped pipeNodup
  rw [List.map_cons, List.nodup_cons] at pipeNodup
  have here : role task = .piped p := piped _ (List.mem_cons_self ..)
  refine ⟨Function.update role task (.setting p), ?_, ⟨?_, pipeNodup.2, ?_, ?_⟩,
    not_calling (by simp), ownArguments⟩
  · apply records.move (p := p) (by rw [here]; rfl) <;> simp [Role.liveFor, eq_comm]
  · intro m member
    rw [Function.update_of_ne]
    · exact piped m (List.mem_cons_of_mem _ member)
    · intro same
      exact pipeNodup.1 (List.mem_map.mpr ⟨m, member, same⟩)
  · intro r on
    have isArmed := events.isArmed (by simp [idle]) on
    exact .inl (role_of_update isArmed (by simp [here]))
  · exact Function.update_self ..

/-- The event loop finds a timer due. -/
theorem Owned.expire {task : ℕ} {loop : τ} (owned : Owned event called s role)
    (idle : s.pc = .idle) (fires : event.dispatch s.loop task = some loop) :
    ∃ role', Owned event called
      { s with loop := loop, pc := .putBack task (s.armedFor task) } role' := by
  obtain ⟨records, events, calling, ownArguments⟩ := owned
  have isArmed : ∀ r, event.enabled s.loop r → role r = .armed (s.armedFor r) :=
    fun r on => events.isArmed (by simp [idle]) on
  have here := isArmed task (event.enabled_of_dispatch fires)
  refine ⟨Function.update role task (.firing (s.armedFor task)), ?_,
    ⟨?_, events.pipeNodup, ?_, ?_⟩, not_calling (by simp), ownArguments⟩
  · apply records.move (p := s.armedFor task) (by rw [here]; rfl) <;> simp [Role.liveFor, eq_comm]
  · intro m member
    exact role_of_update (events.piped m member) (by simp [here])
  · intro r on
    obtain ⟨ne, on⟩ := event.enabled_dispatch fires on
    left
    rw [Function.update_of_ne ne]
    exact isArmed r on
  · exact Function.update_self ..

/-- `delay_task_settimer` fails to set the timer. -/
theorem Owned.lose {task p timeout : ℕ} (owned : Owned event called s role)
    (here : s.pc = .setTime task p timeout) :
    ∃ role', Owned event called { s with pc := .idle } role' := by
  obtain ⟨records, events, calling, ownArguments⟩ := owned
  have handling : role task = .setting p := by simpa only [here, Handling] using events.handling
  refine ⟨Function.update role task .lost, ?_, ⟨?_, events.pipeNodup, ?_, trivial⟩,
    not_calling (by simp), ownArguments⟩
  · apply records.move (p := p) (by rw [handling]; rfl) <;> simp [Role.liveFor]
  · intro m member
    exact role_of_update (events.piped m member) (by simp [handling])
  · intro r on
    have isArmed := events.isArmed (by simp [here]) on
    exact .inl (role_of_update isArmed (by simp [handling]))

/-- `delay_task_settimer` sets the timer, which for a new source turns it on already. -/
theorem Owned.setTime {task p timeout : ℕ} {loop : τ} (owned : Owned event called s role)
    (here : s.pc = .setTime task p timeout)
    (on' : ∀ r, event.enabled loop r → r = task ∨ event.enabled s.loop r) :
    Owned event called
      ({ s with loop := loop, pc := .setEnabled task p }.setTask task ({ · with src := true }))
      role := by
  obtain ⟨records, events, calling, ownArguments⟩ := owned
  have handling : role task = .setting p := by simpa only [here, Handling] using events.handling
  let s' := { s with loop := loop, pc := .setEnabled task p }.setTask task ({ · with src := true })
  have args : ∀ other, (s'.tasks other).cb = (s.tasks other).cb ∧
      (s'.tasks other).param = (s.tasks other).param :=
    setTask_callback (by intro; rfl) (by intro; rfl)
  have unmoved : Function.update role task (.setting p) = role := by
    rw [← handling, Function.update_eq_self]
  obtain ⟨left, list, nodup, inList⟩ := records.free
  have list' : FreeList s'.tasks s'.freeTask left :=
    list.frame fun other _ => setTask_field DelayTask.next (by intro; rfl) other
  have records' : Records called s'.toTaskMemory (Function.update role task (.setting p)) :=
    records.pass (by rw [handling]; rfl) ⟨left, list', nodup, by rwa [unmoved]⟩ rfl rfl args
      (by simp) (by simp [Role.liveFor, eq_comm])
  rw [unmoved] at records'
  refine ⟨records', ⟨events.piped, events.pipeNodup, ?_, handling⟩, not_calling (by simp [setTask]),
    ownArguments.frame fun _ _ call _ => call⟩
  · intro r on
    rcases on' r on with rfl | on
    · exact .inr ⟨p, rfl⟩
    · exact .inl (events.isArmed (by simp [here]) on)

/-- `delay_task_settimer` turns the timer on. -/
theorem Owned.setEnabled {task p : ℕ} (owned : Owned event called s role)
    (here : s.pc = .setEnabled task p) :
    ∃ role', Owned event called { s with
      loop := event.setEnabled s.loop task
      armedFor := Function.update s.armedFor task p
      pc := .idle } role' := by
  obtain ⟨records, events, calling, ownArguments⟩ := owned
  have handling : role task = .setting p := by simpa only [here, Handling] using events.handling
  refine ⟨Function.update role task (.armed p), ?_, ⟨?_, events.pipeNodup, ?_, trivial⟩,
    not_calling (by simp), ownArguments⟩
  · apply records.move (p := p) (by rw [handling]; rfl) <;> simp [Role.liveFor, eq_comm]
  · intro m member
    exact role_of_update (events.piped m member) (by simp [handling])
  · intro r on
    left
    rcases eq_or_ne r task with rfl | ne
    · simp
    · rw [Function.update_of_ne ne]
      rcases event.enabled_setEnabled on with same | on
      · exact absurd same ne
      · have notSetting : ∀ q, s.pc ≠ .setEnabled r q := by simp [here, ne.symm]
        rw [events.isArmed notSetting on]
        simp [Function.update_of_ne ne]

/-- `delay_task_timeout` puts the record back. -/
theorem Owned.putBack {task p : ℕ} (owned : Owned event called s role)
    (here : s.pc = .putBack task p) :
    ∃ role', Owned event called
      ({ s with freeTask := some task, pc := .invoke task p }.setTask task
        ({ · with next := s.freeTask })) role' := by
  obtain ⟨records, events, calling, ownArguments⟩ := owned
  have handling : role task = .firing p := by simpa only [here, Handling] using events.handling
  have isLive : (role task).liveFor = some p := by rw [handling]; rfl
  let s' := { s with freeTask := some task, pc := .invoke task p }.setTask task
    ({ · with next := s.freeTask })
  have args : ∀ other, (s'.tasks other).cb = (s.tasks other).cb ∧
      (s'.tasks other).param = (s.tasks other).param :=
    setTask_callback (by intro; rfl) (by intro; rfl)
  obtain ⟨left, list, nodup, inList⟩ := records.free
  have outside : task ∉ left := by
    rw [inList, handling]
    simp
  have list' : FreeList s'.tasks s'.freeTask (task :: left) := by
    refine ⟨rfl, ?_⟩
    simp only [s', setTask, Function.update_self]
    apply list.frame
    intro r member
    rw [Function.update_of_ne (ne_of_mem_of_not_mem member outside)]
  have inList' : ∀ other, other ∈ task :: left ↔ Function.update role task .free other = .free := by
    intro other
    rw [List.mem_cons, inList, Function.update_apply]
    split_ifs with same <;> simp [same]
  refine ⟨Function.update role task .free, ?_, ⟨?_, events.pipeNodup, ?_, trivial⟩, ?_,
    ownArguments.frame fun _ _ call _ => call⟩
  · exact records.pass isLive ⟨_, list', List.nodup_cons.mpr ⟨outside, nodup⟩, inList'⟩ rfl rfl args
      (by simp) (by simp [Role.liveFor])
  · intro m member
    exact role_of_update (events.piped m member) (by simp [handling])
  · intro r on
    have isArmed := events.isArmed (by simp [here]) on
    exact .inl (role_of_update isArmed (by simp [handling]))
  · intro task' p' isCalling
    cases isCalling
    refine ⟨?_, .inl (Function.update_self ..)⟩
    exact (records.live task p isLive).frame (fun _ call _ => call) (args task).1 (args task).2

/-- `delay_task_timeout` calls the callback. -/
theorem Owned.invoke {task p : ℕ} (owned : Owned event called s role)
    (here : s.pc = .invoke task p) :
    Owned event (called ++ [⟨p, (s.tasks task).cb, (s.tasks task).param⟩]) { s with pc := .idle }
      role := by
  obtain ⟨records, events, calling, ownArguments⟩ := owned
  obtain ⟨⟨notCalled, post, call, isTask, accepted, cb, param⟩, owner⟩ := calling task p here
  refine ⟨⟨records.free, records.unused, records.posting, records.held, ?_⟩,
    ⟨events.piped, events.pipeNodup, ?_, trivial⟩, not_calling (by simp), ?_, ?_⟩
  · intro r q isLive
    obtain ⟨notCalled', post', call', isTask', rest⟩ := records.live r q isLive
    refine ⟨?_, post', call', isTask', rest⟩
    rw [List.map_append, List.mem_append, not_or]
    refine ⟨notCalled', ?_⟩
    -- A record that is on the way of this same call would be the one being handled.
    intro same
    obtain rfl := List.mem_singleton.mp same
    obtain rfl := Option.some.inj (call.symm.trans call')
    subst isTask isTask'
    rcases owner with free | ⟨q, _, holds, -⟩
    · rw [free] at isLive
      cases isLive
    · rw [holds] at isLive
      cases isLive
  · intro r on
    exact .inl (events.isArmed (by simp [here]) on)
  · rw [List.map_append, List.map_singleton, ← List.concat_eq_append]
    exact ownArguments.once.concat notCalled
  · intro i member
    rcases List.mem_append.mp member with member | member
    · exact ownArguments.own i member
    · obtain rfl := List.mem_singleton.mp member
      exact ⟨post, call, accepted, cb, param⟩

/-- The next statement of the handler. -/
theorem Owned.handlerStep {s' : Ambus τ} {stale : ℕ} {out : Option Invocation}
    (owned : Owned event called s role) (taken : s.handlerStep event stale = some (s', out)) :
    ∃ role', Owned event (called ++ out.toList) s' role' := by
  cases here : s.pc with
  | idle => simp [Ambus.handlerStep, here] at taken
  | now task p =>
    simp only [Ambus.handlerStep, here] at taken
    cases taken
    rw [Option.toList_none, List.append_nil]
    have handling := owned.events.handling
    rw [here] at handling
    exact ⟨role, owned.compute handling (by simp [here]) (by simp)⟩
  | addDelay task p timeout =>
    simp only [Ambus.handlerStep, here] at taken
    cases taken
    rw [Option.toList_none, List.append_nil]
    have handling := owned.events.handling
    rw [here] at handling
    exact ⟨role, owned.compute handling (by simp [here]) (by simp)⟩
  | setTime task p timeout =>
    simp only [Ambus.handlerStep, here] at taken
    generalize set : (if (s.tasks task).src then event.setTime s.loop task timeout
      else event.addTime s.loop timeout task) = result at taken
    cases result with
    | none =>
      cases taken
      rw [Option.toList_none, List.append_nil]
      exact owned.lose here
    | some loop =>
      cases taken
      rw [Option.toList_none, List.append_nil]
      refine ⟨role, owned.setTime here ?_⟩
      intro r on
      split_ifs at set
      · exact .inr (event.enabled_setTime set on)
      · exact event.enabled_addTime set on
  | setEnabled task p =>
    simp only [Ambus.handlerStep, here] at taken
    cases taken
    rw [Option.toList_none, List.append_nil]
    exact owned.setEnabled here
  | putBack task p =>
    simp only [Ambus.handlerStep, here] at taken
    cases taken
    rw [Option.toList_none, List.append_nil]
    exact owned.putBack here
  | invoke task p =>
    simp only [Ambus.handlerStep, here] at taken
    cases taken
    exact ⟨role, owned.invoke here⟩

/-! ### Runs -/

theorem Owned.step {s' : Ambus τ} {l : Action × Option Invocation}
    (owned : Owned event called s role)
    (taken : Guarded (fun s l => Safe s l.1) (Step event) s l s') :
    ∃ role', Owned event (called ++ l.2.toList) s' role' := by
  obtain ⟨safe, taken⟩ := taken
  obtain ⟨action, out⟩ := l
  simp only [Step, Ambus.step] at taken
  cases action with
  | lock p delay_ms cb param =>
    simp only at taken
    split_ifs at taken with refused
    cases taken
    have new : s.posts p = none := by simpa using (not_or.mp refused).2
    rw [Option.toList_none, List.append_nil]
    exact owned.takeTask new
  | poster p written =>
    simp only [Option.bind_eq_some_iff, Option.map_eq_some_iff, Prod.mk.injEq] at taken
    obtain ⟨post, call, after, taken, rfl, rfl⟩ := taken
    rw [Option.toList_none, List.append_nil]
    exact owned.posterStep call safe taken
  | read =>
    simp only at taken
    split at taken
    · rename_i idle message
      cases taken
      rw [Option.toList_none, List.append_nil]
      exact owned.read idle message
    · cases taken
  | expire task =>
    simp only at taken
    split at taken
    · rename_i idle fires
      cases taken
      rw [Option.toList_none, List.append_nil]
      exact owned.expire idle fires
    · cases taken
  | handler stale => exact owned.handlerStep taken
  | elapse usec =>
    cases taken
    rw [Option.toList_none, List.append_nil]
    exact ⟨role, owned.records, owned.events.elapse, owned.calling, owned.ownArguments⟩

/-- As long as no call overtakes the handler, each delayed task is run at most once and with its own
arguments. -/
theorem ownArguments_of_safe (event : SdEvent τ) {ls : List (Action × Option Invocation)}
    {s : Ambus τ} (run : Run (Guarded (fun s l => Safe s l.1) (Step event)) (start event) ls s) :
    OwnArguments (invocations ls) s.toTaskMemory := by
  obtain ⟨role, owned⟩ : ∃ role, Owned event (invocations ls) s role := by
    apply run.preserves_history fun past s => ∃ role, Owned event (invocations past) s role
    · rintro past s ⟨action, out⟩ t ⟨role, owned⟩ taken
      rw [invocations_snoc]
      exact owned.step taken
    · exact ⟨_, owned_start⟩
  exact owned.ownArguments

/-! ### A clock and its one-shot timers -/

/-- A timer that is on. -/
def TimerOn (timers : ℕ → Option (ℕ × Bool)) (task : ℕ) : Prop :=
  ∃ due, timers task = some (due, true)

/-- One timer is set, and the others stay as they are. -/
theorem TimerOn.of_update {timers : ℕ → Option (ℕ × Bool)} {task r : ℕ} {timer : Option (ℕ × Bool)}
    (on : TimerOn (Function.update timers task timer) r) :
    (r = task ∧ ∃ due, timer = some (due, true)) ∨ (r ≠ task ∧ TimerOn timers r) := by
  obtain ⟨due, found⟩ := on
  rcases eq_or_ne r task with rfl | other
  · rw [Function.update_self] at found
    exact .inl ⟨rfl, due, found⟩
  · rw [Function.update_of_ne other] at found
    exact .inr ⟨other, due, found⟩

/-- Timers by the records they belong to, as the time they are set for and whether they are on. -/
def clock : SdEvent (ℕ × (ℕ → Option (ℕ × Bool))) where
  init := (0, fun _ => none)
  enabled t r := TimerOn t.2 r
  now t := some t.1
  elapse t usec := (t.1 + usec, t.2)
  addTime t usec task := some (t.1, Function.update t.2 task (some (usec, true)))
  setTime t task usec :=
    (t.2 task).map fun source => (t.1, Function.update t.2 task (some (usec, source.2)))
  setEnabled t task :=
    (t.1, Function.update t.2 task ((t.2 task).map fun source => (source.1, true)))
  dispatch t task :=
    match t.2 task with
    | some (due, true) =>
      if due ≤ t.1 then some (t.1, Function.update t.2 task (some (due, false))) else none
    | _ => none
  enabled_init := by
    rintro r ⟨due, found⟩
    cases found
  enabled_elapse on := on
  enabled_addTime set on := by
    obtain rfl := Option.some.inj set
    exact (TimerOn.of_update on).imp And.left And.right
  enabled_setTime set on := by
    obtain ⟨⟨due, isOn⟩, found, rfl⟩ := Option.map_eq_some_iff.mp set
    rcases TimerOn.of_update on with ⟨rfl, _, kept⟩ | ⟨-, on⟩
    · cases kept
      exact ⟨due, found⟩
    · exact on
  enabled_setEnabled on := (TimerOn.of_update on).imp And.left And.right
  enabled_of_dispatch fires := by
    split at fires
    · exact ⟨_, ‹_›⟩
    · cases fires
  enabled_dispatch fires on := by
    split at fires
    · split_ifs at fires
      obtain rfl := Option.some.inj fires
      rcases TimerOn.of_update on with ⟨-, _, off⟩ | on
      · cases off
      · exact on
    · cases fires

/-- The statements of a call after its locked section. -/
def posting (p : ℕ) : List Action := List.replicate 4 (.poster p true)

/-- The dispatch thread sets the timer, the time passes, and the handler puts the record back. -/
def timing (task usec : ℕ) : List Action :=
  [.read, .handler 0, .handler 0, .handler 0, .handler 0, .elapse usec, .expire task, .handler 0]

/-- A second call takes the record early, but waits with its stores. -/
def sampleActions : List Action :=
  .lock 0 5 10 20 :: posting 0 ++ timing 0 5000 ++ .lock 1 7 11 21 :: .handler 0 :: posting 1 ++
    timing 0 7000 ++ [.handler 0]

theorem ownArguments_of_safe_sample :
    ∃ ls s, Run (Guarded (fun s l => Safe s l.1) (Step clock)) (start clock) ls s ∧
      invocations ls = [⟨0, 10, 20⟩, ⟨1, 11, 21⟩] ∧ OwnArguments (invocations ls) s.toTaskMemory := by
  have done : (execute (fun s a => if Safe s a then step clock s a else none) (start clock)
      sampleActions).map (fun r => invocations (sampleActions.zip r.2)) =
      some [⟨0, 10, 20⟩, ⟨1, 11, 21⟩] := by
    decide +kernel
  obtain ⟨⟨s, outs⟩, done, called⟩ := Option.map_eq_some_iff.mp done
  exact ⟨_, s, guarded_of_execute done, called, ownArguments_of_safe clock (guarded_of_execute done)⟩

/-- A second call takes the record and stores its callback before the handler makes its call. -/
def racingActions : List Action :=
  .lock 0 5 10 20 :: posting 0 ++ timing 0 5000 ++ [.lock 1 7 11 21, .poster 1 true, .handler 0]

theorem not_ownArguments_record_retaken :
    ¬∀ (ls : List (Action × Option Invocation)) s, Run (Step clock) (start clock) ls s →
      OwnArguments (invocations ls) s.toTaskMemory := by
  intro claim
  have done : (execute (step clock) (start clock) racingActions).map
      (fun r => (invocations (racingActions.zip r.2), r.1.posts 0)) =
      some ([⟨0, 11, 20⟩], some ⟨10, 20, 5, 0, .returned 0⟩) := by
    decide +kernel
  obtain ⟨⟨s, outs⟩, done, seen⟩ := Option.map_eq_some_iff.mp done
  simp only [Prod.mk.injEq] at seen
  have ownArguments := claim _ s (run_of_execute done)
  rw [seen.1] at ownArguments
  obtain ⟨post, call, -, cb, -⟩ := ownArguments.own _ (List.mem_singleton_self _)
  obtain rfl := Option.some.inj (seen.2.symm.trans call)
  cases cb

end AmlCommonlib.Dbus.Ambus
