import AmlCommonlib.Lib.Runs
import Mathlib.Algebra.Group.Int.Defs
import Mathlib.Data.List.Nodup

/-! # The lifetime of key events

`ProcessKey`, `time_key` and `WaitKey` of `events_process.cpp`: the input thread, a timer thread for
each key down, and the thread that consumes the keys. A locked section is a step, except for that of
`time_key`: it is cut at every use of `info->ke`, as `WaitKey` deletes without the lock. `key_pressed`
is left out, as nothing reads it.
-/

namespace AmlCommonlib.Utils

/-- A line of `/etc/gpio_key.kl`. -/
structure KeyMapItem where
  type : String
  value : ℤ
  mode : ℤ

/-- `getKeyType`, of which `none` is `NULL`. -/
def getKeyType (keysMap : List KeyMapItem) (key : ℤ) : Option String :=
  (keysMap.find? fun v => v.value = key).map KeyMapItem.type

def getKeyMode (keysMap : List KeyMapItem) (key : ℤ) : ℤ :=
  ((keysMap.find? fun v => v.value = key).map KeyMapItem.mode).getD 0

structure Timeval where
  sec : ℤ
  usec : ℤ
deriving DecidableEq

/-- `KEY_EVENT_TIME_INTERVAL`. -/
def keyEventTimeInterval : ℤ := 20

def checkEventTime (before later : Timeval) : Bool :=
  let secDiff := (later.sec - before.sec) * 1000
  secDiff < 0 ∨ keyEventTimeInterval ≤ secDiff + (later.usec - before.usec).tdiv 1000

structure KeyEvent where
  downTsUs : ℤ
  upTsUs : ℤ
  keyCode : ℤ
  keyState : ℤ
  longPress : Bool
  curlongPress : Bool
deriving DecidableEq

/-- What a key up makes of its event. -/
def KeyEvent.up (ke : KeyEvent) (value now : ℤ) : KeyEvent :=
  let ke := { ke with upTsUs := now, keyState := value }
  if ke.longPress ∨ ke.curlongPress then { ke with curlongPress := false } else ke

/-- What `WaitKey` runs for a key, given the event it has found and whether that is a long press under
way. -/
def command (keysMap : List KeyMapItem) (key : ℤ) (keyEvent : Option KeyEvent) (cur : Bool) :
    Option String := do
  let type ← getKeyType keysMap key
  let script := "/etc/adckey/adckey_function.sh "
  match keyEvent with
  | none => some (script ++ type)
  | some ke =>
    if ke.longPress then
      if cur then
        if getKeyMode keysMap key ≠ 0 then some (script ++ "curlongpress" ++ type) else none
      else if getKeyMode keysMap key ≠ 1 then
        let duration :=
          if ke.upTsUs < ke.downTsUs then (2 ^ 64 - 1 - ke.downTsUs + ke.upTsUs) % 2 ^ 64 / 1000
          else (ke.upTsUs - ke.downTsUs) / 1000
        some (script ++ "longpress" ++ type ++ " " ++ toString duration)
      else none
    else some (script ++ type)

/-- Where a timer thread is. -/
inductive TimerPc where
  /-- In `usleep`, or about to lock. -/
  | sleeping
  /-- At the assignments to `info->ke->longPress` and to `info->ke->curlongPress`. -/
  | setLongPress
  | setCurlongPress
  /-- At the two reads behind them. -/
  | readLongPress
  | readCurlongPress
  /-- Unlocked, at the condition of the loop, and in it at `EnqueueKey`. -/
  | repeating
  | enqueuing
  | finished
deriving DecidableEq

/-- The thread has the lock, and uses `info->ke` next. -/
def TimerPc.dereferences : TimerPc → Bool
  | setLongPress | setCurlongPress | readLongPress | readCurlongPress => true
  | sleeping | repeating | enqueuing | finished => false

/-- What a key down allocates, and its thread. -/
structure Press where
  ke : KeyEvent
  /-- How often `ke` has been deleted. -/
  deletions : ℕ
  /-- `info->key_code` and `info->count`. -/
  keyCode : ℤ
  count : ℤ
  timer : TimerPc
deriving DecidableEq

/-- Where the input thread is. -/
inductive InputPc where
  | idle
  /-- Behind the locked section of `ProcessKey`. -/
  | unlocked (keyCode : ℤ) (registerKey flag : Bool)
  | enqueuing (keyCode : ℤ) (flag : Bool)
deriving DecidableEq

/-- Where the consumer is. -/
inductive WaiterPc where
  | waiting
  /-- Behind the locked section, before and behind the command. -/
  | unlocked (key : ℤ) (keyEvent : Option ℕ) (curLongpress : Bool)
  | releasing (keyEvent : Option ℕ) (curLongpress : Bool)
deriving DecidableEq

/-- The presses so far, of which the events in `mKeyEventVec` are given by their numbers, and the
timer thread that has the lock. -/
structure KeySystem where
  presses : List Press
  mKeyEventVec : List ℕ
  keyDownCount : ℤ
  keyLastDown : ℤ
  lastKey : ℤ
  keyQueue : List ℤ
  lastQueueTime : Timeval
  locked : Option ℕ
  input : InputPc
  waiter : WaiterPc
  commands : List String
deriving DecidableEq

namespace KeySystem

def start : KeySystem where
  presses := []
  mKeyEventVec := []
  keyDownCount := 0
  keyLastDown := -1
  lastKey := -1
  keyQueue := []
  lastQueueTime := ⟨0, 0⟩
  locked := none
  input := .idle
  waiter := .waiting
  commands := []

inductive Action where
  /-- `ProcessKey`, up to the unlocking. -/
  | processKey (keyCode value now : ℤ)
  | setLastKey
  /-- Its `EnqueueKey`. -/
  | enqueueKey (now : Timeval)
  /-- The next step of the timer thread of press `k`. -/
  | timeKey (k : ℕ) (now : Timeval)
  /-- `WaitKey` finds the queue not empty, up to the unlocking. -/
  | waitKey
  /-- It runs its command. -/
  | system
  /-- `delete keyEvent`. -/
  | release
deriving DecidableEq

/-- `EnqueueKey`. -/
def enqueue (s : KeySystem) (keyCode : ℤ) (flag : Bool) (now : Timeval) : KeySystem :=
  if s.keyQueue.length < 256 ∧
      (s.lastKey ≠ keyCode ∨ checkEventTime s.lastQueueTime now ∨ flag) then
    { s with keyQueue := s.keyQueue ++ [keyCode], lastQueueTime := now }
  else s

/-- The event is down and of this key. -/
def isDown (s : KeySystem) (keyCode : ℤ) (k : ℕ) : Bool :=
  match s.presses[k]? with
  | some p => p.ke.keyCode = keyCode ∧ p.ke.keyState = 1
  | none => false

def keyDown (s : KeySystem) (keyCode value now : ℤ) : KeySystem :=
  { s with
    presses := s.presses ++ [{
      ke := ⟨now, 0, keyCode, value, false, false⟩
      deletions := 0
      keyCode := keyCode
      count := s.keyDownCount + 1
      timer := .sleeping }]
    mKeyEventVec := s.mKeyEventVec ++ [s.presses.length]
    keyDownCount := s.keyDownCount + 1
    keyLastDown := keyCode }

def keyUp (s : KeySystem) (keyCode value now : ℤ) : KeySystem :=
  let down := s.mKeyEventVec.find? (s.isDown keyCode)
  let long := (down.bind fun k => s.presses[k]?).any fun p => p.ke.longPress || p.ke.curlongPress
  { s with
    presses :=
      match down with
      | some k => s.presses.modify k fun p => { p with ke := p.ke.up value now }
      | none => s.presses
    keyLastDown := -1
    input := .unlocked keyCode (s.keyLastDown = keyCode) long }

/-- The condition of `time_key`, without the lock in its loop. -/
def isLastDown (s : KeySystem) (p : Press) : Bool :=
  s.keyLastDown = p.keyCode ∧ s.keyDownCount = p.count

def setPress (s : KeySystem) (k : ℕ) (p : Press) : KeySystem :=
  { s with presses := s.presses.set k p }

/-- The next step of `time_key`, for press `k`. -/
def timeKey (keysMap : List KeyMapItem) (s : KeySystem) (k : ℕ) (p : Press) (now : Timeval) :
    Option KeySystem :=
  match p.timer with
  | .sleeping =>
    if s.locked = none then
      some { s.setPress k { p with
        timer := if s.isLastDown p then .setLongPress else .readLongPress } with locked := some k }
    else none
  | .setLongPress =>
    some (s.setPress k { p with
      ke := { p.ke with longPress := true }
      timer := if getKeyMode keysMap p.keyCode ≠ 0 then .setCurlongPress else .readLongPress })
  | .setCurlongPress =>
    some (s.setPress k { p with
      ke := { p.ke with curlongPress := true }
      timer := .readLongPress })
  | .readLongPress =>
    if p.ke.longPress then some (s.setPress k { p with timer := .readCurlongPress })
    else some { s.setPress k { p with timer := .finished } with locked := none }
  | .readCurlongPress =>
    some { s.setPress k { p with timer := if p.ke.curlongPress then .repeating else .finished } with
      locked := none }
  | .repeating =>
    some (s.setPress k { p with timer := if s.isLastDown p then .enqueuing else .finished })
  | .enqueuing =>
    if s.locked = none then
      some ((s.enqueue p.keyCode false now).setPress k { p with timer := .repeating })
    else none
  | .finished => none

/-- The entry of `mKeyEventVec` that `WaitKey` takes for a key. -/
def isReady (s : KeySystem) (key : ℤ) (k : ℕ) : Bool :=
  match s.presses[k]? with
  | some p => p.ke.keyCode = key ∧ (p.ke.keyState = 0 ∨ p.ke.curlongPress)
  | none => false

/-- One step. -/
def step (keysMap : List KeyMapItem) (s : KeySystem) : Action → Option KeySystem
  | .processKey keyCode value now =>
    if s.input = .idle ∧ s.locked = none then
      if value = 1 then
        some { s.keyDown keyCode value now with input := .unlocked keyCode false false }
      else if value = 2 then some { s with input := .unlocked keyCode false false }
      else some (s.keyUp keyCode value now)
    else none
  | .setLastKey =>
    match s.input with
    | .unlocked keyCode registerKey flag =>
      some { s with
        lastKey := keyCode
        input := if registerKey then .enqueuing keyCode flag else .idle }
    | _ => none
  | .enqueueKey now =>
    match s.input, s.locked with
    | .enqueuing keyCode flag, none => some { s.enqueue keyCode flag now with input := .idle }
    | _, _ => none
  | .timeKey k now => s.presses[k]?.bind fun p => s.timeKey keysMap k p now
  | .waitKey =>
    match s.waiter, s.locked, s.keyQueue with
    | .waiting, none, key :: rest =>
      match s.mKeyEventVec.find? (s.isReady key) with
      | none => some { s with keyQueue := rest, waiter := .unlocked key none false }
      | some k =>
        if s.presses[k]?.any fun p => p.ke.curlongPress then
          some { s with keyQueue := rest, waiter := .unlocked key (some k) true }
        else
          some { s with
            keyQueue := rest
            mKeyEventVec := s.mKeyEventVec.erase k
            waiter := .unlocked key (some k) false }
    | _, _, _ => none
  | .system =>
    match s.waiter with
    | .unlocked key keyEvent cur =>
      let ke := (keyEvent.bind fun k => s.presses[k]?).map Press.ke
      some { s with
        commands := s.commands ++ (command keysMap key ke cur).toList
        waiter := .releasing keyEvent cur }
    | _ => none
  | .release =>
    match s.waiter with
    | .releasing (some k) false =>
      some { s with
        presses := s.presses.modify k fun p => { p with deletions := p.deletions + 1 }
        waiter := .waiting }
    | .releasing _ _ => some { s with waiter := .waiting }
    | _ => none

def Step (keysMap : List KeyMapItem) (s : KeySystem) (a : Action) (s' : KeySystem) : Prop :=
  s.step keysMap a = some s'

/-! ### What is to hold -/

/-- No timer thread uses a deleted event, and no event has been deleted twice. -/
def Safe (s : KeySystem) : Prop :=
  ∀ p ∈ s.presses, (p.timer.dereferences → p.deletions = 0) ∧ p.deletions ≤ 1

/-- The timer thread of the event that is deleted has left its locked section. -/
def timely (s : KeySystem) : Action → Bool
  | .release =>
    match s.waiter with
    | .releasing (some k) false =>
      s.presses[k]?.all fun p => p.timer ≠ .sleeping ∧ ¬p.timer.dereferences
    | _ => true
  | _ => true

def Action.isTimeKey : Action → Bool
  | timeKey _ _ => true
  | _ => false

end KeySystem

/-! ### Who has an event -/

/-- The thread has a use of `info->ke` before it. -/
def TimerPc.Pending (pc : TimerPc) : Prop := pc = .sleeping ∨ pc.dereferences

/-- How many uses it has before it unlocks, at most. -/
def TimerPc.uses : TimerPc → ℕ
  | setLongPress => 4
  | setCurlongPress => 3
  | readLongPress => 2
  | readCurlongPress => 1
  | sleeping | repeating | enqueuing | finished => 0

/-- The event that the consumer is to delete. -/
def WaiterPc.held : WaiterPc → List ℕ
  | unlocked _ (some k) false | releasing (some k) false => [k]
  | _ => []

namespace KeySystem

variable {keysMap : List KeyMapItem} {s t : KeySystem}

/-- The events that are still to be deleted: those in the vector, and the one the consumer holds. -/
def owned (s : KeySystem) : List ℕ := s.mKeyEventVec ++ s.waiter.held

/-- An owned event has one owner and has not been deleted. -/
structure Inv (s : KeySystem) : Prop where
  locked : ∀ k, s.locked = some k ↔ ∃ p : Press, s.presses[k]? = some p ∧ p.timer.dereferences
  nodup : s.owned.Nodup
  live : ∀ k ∈ s.owned, ∃ p : Press, s.presses[k]? = some p ∧ p.deletions = 0
  once : ∀ (k : ℕ) (p : Press), s.presses[k]? = some p → p.deletions ≤ 1

theorem inv_start : Inv start where
  locked := by simp [start]
  nodup := List.nodup_nil
  live := by simp [start, owned, WaiterPc.held]
  once := by simp [start]

/-- A timer thread is to use a deleted event. -/
def Latent (s : KeySystem) : Prop :=
  ∃ (k : ℕ) (p : Press), s.presses[k]? = some p ∧ p.timer.Pending ∧ p.deletions ≠ 0

/-- The presses stay, with their threads and deletions, and at most a new one is added. -/
structure Frame (s t : KeySystem) : Prop where
  old : ∀ (k : ℕ) (p : Press), s.presses[k]? = some p →
    ∃ p' : Press, t.presses[k]? = some p' ∧ p'.timer = p.timer ∧ p'.deletions = p.deletions
  new : ∀ (k : ℕ) (p' : Press), t.presses[k]? = some p' →
    (∃ p : Press, s.presses[k]? = some p ∧ p'.timer = p.timer ∧ p'.deletions = p.deletions) ∨
      s.presses[k]? = none ∧ p'.timer = .sleeping ∧ p'.deletions = 0

theorem Frame.refl (s : KeySystem) : Frame s s where
  old _ p here := ⟨p, here, rfl, rfl⟩
  new _ p here := .inl ⟨p, here, rfl, rfl⟩

/-- Presses that are the same. -/
theorem Frame.of_presses (same : t.presses = s.presses) : Frame s t where
  old _ p here := ⟨p, same ▸ here, rfl, rfl⟩
  new _ p here := .inl ⟨p, same ▸ here, rfl, rfl⟩

theorem Frame.modify {k : ℕ} {f : Press → Press} (timer : ∀ p, (f p).timer = p.timer)
    (deletions : ∀ p, (f p).deletions = p.deletions) (same : t.presses = s.presses.modify k f) :
    Frame s t where
  old i p here := by
    rw [same, List.getElem?_modify, here]
    refine ⟨_, rfl, ?_⟩
    split_ifs
    · exact ⟨timer p, deletions p⟩
    · exact ⟨rfl, rfl⟩
  new i p' here := by
    rw [same, List.getElem?_modify] at here
    obtain ⟨p, before, rfl⟩ := Option.map_eq_some_iff.mp here
    refine .inl ⟨p, before, ?_⟩
    split_ifs
    · exact ⟨timer p, deletions p⟩
    · exact ⟨rfl, rfl⟩

theorem Frame.append {p : Press} (timer : p.timer = .sleeping) (deletions : p.deletions = 0)
    (same : t.presses = s.presses ++ [p]) : Frame s t where
  old i q here := by
    refine ⟨q, ?_, rfl, rfl⟩
    rw [same]
    exact List.getElem?_append_left (List.getElem?_eq_some_iff.mp here).1 ▸ here
  new i q here := by
    rw [same] at here
    rcases Nat.lt_or_ge i s.presses.length with lt | ge
    · rw [List.getElem?_append_left lt] at here
      exact .inl ⟨q, here, rfl, rfl⟩
    · rw [List.getElem?_append_right ge, List.getElem?_singleton] at here
      split_ifs at here
      cases here
      exact .inr ⟨List.getElem?_eq_none ge, timer, deletions⟩

theorem Frame.inv (frame : Frame s t) (inv : s.Inv) (locked : t.locked = s.locked)
    (nodup : t.owned.Nodup)
    (owned : ∀ k ∈ t.owned, k ∈ s.owned ∨ ∃ p : Press, t.presses[k]? = some p ∧ p.deletions = 0) :
    t.Inv where
  locked k := by
    rw [locked, inv.locked]
    constructor
    · rintro ⟨p, here, uses⟩
      obtain ⟨p', here', timer, -⟩ := frame.old k p here
      exact ⟨p', here', timer ▸ uses⟩
    · rintro ⟨p', here', uses⟩
      obtain ⟨p, here, timer, -⟩ | ⟨-, sleeps, -⟩ := frame.new k p' here'
      · exact ⟨p, here, timer ▸ uses⟩
      · rw [sleeps] at uses
        cases uses
  nodup := nodup
  live k member := by
    obtain before | live := owned k member
    · obtain ⟨p, here, zero⟩ := inv.live k before
      obtain ⟨p', here', -, deletions⟩ := frame.old k p here
      exact ⟨p', here', deletions.trans zero⟩
    · exact live
  once k p' here' := by
    obtain ⟨p, here, -, deletions⟩ | ⟨-, -, deletions⟩ := frame.new k p' here'
    · exact deletions ▸ inv.once k p here
    · omega

theorem Frame.latent_iff (frame : Frame s t) : t.Latent ↔ s.Latent := by
  constructor
  · rintro ⟨k, p', here', pending, deleted⟩
    obtain ⟨p, here, timer, deletions⟩ | ⟨-, -, deletions⟩ := frame.new k p' here'
    · exact ⟨k, p, here, timer ▸ pending, deletions ▸ deleted⟩
    · exact absurd deletions deleted
  · rintro ⟨k, p, here, pending, deleted⟩
    obtain ⟨p', here', timer, deletions⟩ := frame.old k p here
    exact ⟨k, p', here', timer ▸ pending, deletions ▸ deleted⟩

/-! ### The steps -/

theorem setLastKey_cases (taken : s.step keysMap .setLastKey = some t) :
    ∃ keyCode registerKey flag, s.input = .unlocked keyCode registerKey flag ∧
      t = { s with
        lastKey := keyCode
        input := if registerKey then .enqueuing keyCode flag else .idle } := by
  simp only [step] at taken
  split at taken
  · rename_i keyCode registerKey flag unlocked
    exact ⟨keyCode, registerKey, flag, unlocked, (Option.some.inj taken).symm⟩
  · cases taken

theorem enqueueKey_cases {now : Timeval} (taken : s.step keysMap (.enqueueKey now) = some t) :
    ∃ keyCode flag, s.input = .enqueuing keyCode flag ∧
      t = { s.enqueue keyCode flag now with input := .idle } := by
  simp only [step] at taken
  split at taken
  · rename_i keyCode flag enqueuing _
    exact ⟨keyCode, flag, enqueuing, (Option.some.inj taken).symm⟩
  · cases taken

theorem system_cases (taken : s.step keysMap .system = some t) :
    ∃ key keyEvent cur commands, s.waiter = .unlocked key keyEvent cur ∧
      t = { s with commands := commands, waiter := .releasing keyEvent cur } := by
  simp only [step] at taken
  split at taken
  · rename_i key keyEvent cur unlocked
    exact ⟨key, keyEvent, cur, _, unlocked, (Option.some.inj taken).symm⟩
  · cases taken

theorem enqueue_presses (keyCode : ℤ) (flag : Bool) (now : Timeval) :
    (s.enqueue keyCode flag now).presses = s.presses := by
  rw [enqueue]
  split_ifs <;> rfl

theorem enqueue_locked (keyCode : ℤ) (flag : Bool) (now : Timeval) :
    (s.enqueue keyCode flag now).locked = s.locked := by
  rw [enqueue]
  split_ifs <;> rfl

theorem enqueue_owned (keyCode : ℤ) (flag : Bool) (now : Timeval) :
    (s.enqueue keyCode flag now).owned = s.owned := by
  rw [enqueue]
  split_ifs <;> rfl

/-- A step of the timer thread of press `k`. -/
structure TimerStep (s t : KeySystem) (k : ℕ) (p p' : Press) : Prop where
  presses : t.presses = s.presses.set k p'
  deletions : p'.deletions = p.deletions
  owned : t.owned = s.owned
  holds : t.locked = some k ↔ p'.timer.dereferences
  others : ∀ i ≠ k, t.locked = some i ↔ s.locked = some i
  pending : p'.timer.Pending → p.timer.Pending
  wakes : p.timer = .sleeping → p'.timer.dereferences
  closer : p.timer.dereferences → p'.timer.uses < p.timer.uses

section TimerStep

variable {k : ℕ} {p p' : Press}

/-- The thread goes on with or without the lock. -/
theorem TimerStep.goOn (holds : s.locked = some k ↔ p.timer.dereferences)
    (presses : t.presses = s.presses.set k p') (deletions : p'.deletions = p.deletions)
    (owned : t.owned = s.owned) (locked : t.locked = s.locked)
    (same : p'.timer.dereferences = p.timer.dereferences)
    (awake : p.timer ≠ .sleeping ∧ p'.timer ≠ .sleeping)
    (closer : p.timer.dereferences → p'.timer.uses < p.timer.uses) : TimerStep s t k p p' where
  presses := presses
  deletions := deletions
  owned := owned
  holds := by rw [locked, holds, same]
  others i _ := by rw [locked]
  pending pending := pending.elim (fun sleeps => absurd sleeps awake.2) fun uses => .inr (same ▸ uses)
  wakes sleeps := absurd sleeps awake.1
  closer := closer

/-- It unlocks. -/
theorem TimerStep.unlock (holds : s.locked = some k) (uses : p.timer.dereferences)
    (presses : t.presses = s.presses.set k p') (deletions : p'.deletions = p.deletions)
    (owned : t.owned = s.owned) (locked : t.locked = none)
    (done : p'.timer = .repeating ∨ p'.timer = .finished) : TimerStep s t k p p' where
  presses := presses
  deletions := deletions
  owned := owned
  holds := by
    rw [locked]
    obtain done | done := done <;> simp [done, TimerPc.dereferences]
  others i other := by simp [locked, holds, other.symm]
  pending _ := .inr uses
  wakes sleeps := by
    rw [sleeps] at uses
    cases uses
  closer _ := by
    cases pc : p.timer <;> obtain done | done := done <;>
      simp_all [TimerPc.uses, TimerPc.dereferences]

theorem timeKey_spec {now : Timeval} (holds : s.locked = some k ↔ p.timer.dereferences)
    (taken : s.timeKey keysMap k p now = some t) : ∃ p', TimerStep s t k p p' := by
  rw [timeKey] at taken
  split at taken
  case h_1 pc =>
    obtain ⟨free, taken⟩ := Option.ite_none_right_eq_some.mp taken
    cases taken
    refine ⟨_, rfl, rfl, rfl, ?_, ?_, ?_, ?_, ?_⟩
    · split_ifs <;> simp [TimerPc.dereferences]
    · intro i other
      simp [free, other.symm]
    · exact fun _ => .inl pc
    · intro _
      split_ifs <;> rfl
    · intro uses
      rw [pc] at uses
      cases uses
  case h_2 pc =>
    cases taken
    refine ⟨_, .goOn holds rfl rfl rfl rfl ?_ ?_ ?_⟩ <;>
      split_ifs <;> simp [pc, TimerPc.dereferences, TimerPc.uses]
  case h_3 pc =>
    cases taken
    exact ⟨_, .goOn holds rfl rfl rfl rfl (by rw [pc]; rfl) (by simp [pc])
      (by simp [pc, TimerPc.uses])⟩
  case h_4 pc =>
    split_ifs at taken
    · cases taken
      exact ⟨_, .goOn holds rfl rfl rfl rfl (by rw [pc]; rfl) (by simp [pc])
        (by simp [pc, TimerPc.uses])⟩
    · cases taken
      have uses : p.timer.dereferences := by rw [pc]; rfl
      exact ⟨_, .unlock (holds.mpr uses) uses rfl rfl rfl rfl (.inr rfl)⟩
  case h_5 pc =>
    cases taken
    have uses : p.timer.dereferences := by rw [pc]; rfl
    refine ⟨_, .unlock (holds.mpr uses) uses rfl rfl rfl rfl ?_⟩
    split_ifs
    · exact .inl rfl
    · exact .inr rfl
  case h_6 pc =>
    cases taken
    refine ⟨_, .goOn holds rfl rfl rfl rfl ?_ ?_ ?_⟩ <;>
      split_ifs <;> simp [pc, TimerPc.dereferences, TimerPc.uses]
  case h_7 pc =>
    obtain ⟨-, taken⟩ := Option.ite_none_right_eq_some.mp taken
    cases taken
    refine ⟨{ p with timer := .repeating }, .goOn holds ?_ rfl ?_ ?_ ?_ ?_ ?_⟩
    · rw [setPress, enqueue_presses]
    · exact enqueue_owned ..
    · exact enqueue_locked ..
    · rw [pc]
      rfl
    · simp [pc]
    · simp [pc, TimerPc.dereferences]
  case h_8 => cases taken

end TimerStep

/-- The press that the step leaves at a place. -/
theorem TimerStep.before {k : ℕ} {p p' : Press} (taken : TimerStep s t k p p')
    (here : s.presses[k]? = some p) {i : ℕ} {q : Press} (after : t.presses[i]? = some q) :
    i = k ∧ q = p' ∨ s.presses[i]? = some q := by
  rw [taken.presses] at after
  by_cases same : i = k
  · subst same
    rw [List.getElem?_set_self (List.getElem?_eq_some_iff.mp here).1] at after
    cases after
    exact .inl ⟨rfl, rfl⟩
  · rw [List.getElem?_set_ne (Ne.symm same)] at after
    exact .inr after

theorem TimerStep.inv {k : ℕ} {p p' : Press} (taken : TimerStep s t k p p')
    (here : s.presses[k]? = some p) (inv : s.Inv) : t.Inv where
  locked i := by
    rw [taken.presses]
    by_cases same : i = k
    · subst same
      rw [List.getElem?_set_self (List.getElem?_eq_some_iff.mp here).1, taken.holds]
      simp
    · rw [List.getElem?_set_ne (Ne.symm same), taken.others i same]
      exact inv.locked i
  nodup := taken.owned ▸ inv.nodup
  live i member := by
    obtain ⟨q, before, zero⟩ := inv.live i (taken.owned ▸ member)
    rw [taken.presses]
    by_cases same : i = k
    · subst same
      cases here.symm.trans before
      exact ⟨p', List.getElem?_set_self (List.getElem?_eq_some_iff.mp here).1,
        taken.deletions.trans zero⟩
    · exact ⟨q, by rwa [List.getElem?_set_ne (Ne.symm same)], zero⟩
  once i q after := by
    obtain ⟨rfl, rfl⟩ | before := taken.before here after
    · exact taken.deletions ▸ inv.once i p here
    · exact inv.once i q before

theorem TimerStep.latent {k : ℕ} {p p' : Press} (taken : TimerStep s t k p p')
    (here : s.presses[k]? = some p) (latent : t.Latent) : s.Latent := by
  obtain ⟨i, q, after, pending, deleted⟩ := latent
  obtain ⟨rfl, rfl⟩ | before := taken.before here after
  · exact ⟨i, p, here, taken.pending pending, taken.deletions ▸ deleted⟩
  · exact ⟨i, q, before, pending, deleted⟩

/-- The event that a step deletes. -/
def deletes (s : KeySystem) : Action → Option ℕ
  | .release =>
    match s.waiter with
    | .releasing (some k) false => some k
    | _ => none
  | _ => none

theorem keyUp_frame (keyCode value now : ℤ) : Frame s (s.keyUp keyCode value now) := by
  cases down : s.mKeyEventVec.find? (s.isDown keyCode) with
  | none =>
    apply Frame.of_presses
    simp [keyUp, down]
  | some k =>
    refine @Frame.modify _ _ k (fun p => { p with ke := p.ke.up value now }) (fun _ => rfl)
      (fun _ => rfl) ?_
    simp [keyUp, down]

/-- A step that at most reorders the events. -/
theorem kept_of_perm (frame : Frame s t) (locked : t.locked = s.locked) (owned : t.owned.Perm s.owned)
    (inv : s.Inv) : Frame s t ∧ t.Inv :=
  ⟨frame, frame.inv inv locked (owned.nodup_iff.mpr inv.nodup) fun _ member =>
    .inl (owned.mem_iff.mp member)⟩

theorem keyDown_inv (keyCode value now : ℤ) (input : InputPc) (inv : s.Inv) :
    Frame s { s.keyDown keyCode value now with input := input } ∧
      Inv { s.keyDown keyCode value now with input := input } := by
  have frame : Frame s { s.keyDown keyCode value now with input := input } :=
    Frame.append rfl rfl rfl
  have fresh : s.presses.length ∉ s.owned := by
    intro member
    obtain ⟨p, here, -⟩ := inv.live _ member
    exact Nat.lt_irrefl _ (List.getElem?_eq_some_iff.mp here).1
  have owned : ({ s.keyDown keyCode value now with input := input } : KeySystem).owned.Perm
      (s.presses.length :: s.owned) := by
    simp only [KeySystem.owned, keyDown, List.append_assoc, List.singleton_append]
    exact List.perm_middle
  refine ⟨frame, frame.inv inv rfl ?_ ?_⟩
  · rw [owned.nodup_iff]
    exact List.nodup_cons.mpr ⟨fresh, inv.nodup⟩
  · intro k member
    obtain rfl | before := List.mem_cons.mp (owned.mem_iff.mp member)
    · exact .inr ⟨_, List.getElem?_concat_length, rfl⟩
    · exact .inl before

/-- What every step does that is not one of a timer thread and deletes nothing. -/
theorem step_frame {a : Action} (taken : s.step keysMap a = some t) (other : a.isTimeKey = false)
    (keeps : s.deletes a = none) (inv : s.Inv) : Frame s t ∧ t.Inv := by
  cases a with
  | processKey keyCode value now =>
    simp only [step] at taken
    obtain ⟨-, taken⟩ := Option.ite_none_right_eq_some.mp taken
    split_ifs at taken
    · cases taken
      exact keyDown_inv keyCode value now _ inv
    · cases taken
      exact kept_of_perm (.of_presses rfl) rfl (.refl _) inv
    · cases taken
      exact kept_of_perm (keyUp_frame keyCode value now) rfl (.refl _) inv
  | setLastKey =>
    obtain ⟨keyCode, registerKey, flag, -, rfl⟩ := setLastKey_cases taken
    exact kept_of_perm (.of_presses rfl) rfl (.refl _) inv
  | enqueueKey now =>
    obtain ⟨keyCode, flag, -, rfl⟩ := enqueueKey_cases taken
    exact kept_of_perm (.of_presses (enqueue_presses ..)) (enqueue_locked ..)
      (.of_eq (enqueue_owned keyCode flag now)) inv
  | timeKey k now => cases other
  | waitKey =>
    simp only [step] at taken
    split at taken
    · rename_i key rest waiting free queue
      split at taken
      · cases taken
        refine kept_of_perm (.of_presses rfl) rfl (.of_eq ?_) inv
        simp [owned, waiting, WaiterPc.held]
      · rename_i k found
        split_ifs at taken
        · cases taken
          refine kept_of_perm (.of_presses rfl) rfl (.of_eq ?_) inv
          simp [owned, waiting, WaiterPc.held]
        · cases taken
          refine kept_of_perm (.of_presses rfl) rfl ?_ inv
          simp only [owned, waiting, WaiterPc.held, List.append_nil]
          exact (List.perm_append_singleton ..).trans
            (List.perm_cons_erase (List.mem_of_find?_eq_some found)).symm
    · cases taken
  | system =>
    obtain ⟨key, keyEvent, cur, commands, unlocked, rfl⟩ := system_cases taken
    refine kept_of_perm (.of_presses rfl) rfl (.of_eq ?_) inv
    cases keyEvent <;> cases cur <;> simp [owned, unlocked, WaiterPc.held]
  | release =>
    simp only [step] at taken
    split at taken
    · rename_i k releasing
      simp [deletes, releasing] at keeps
    · rename_i keyEvent cur notHeld releasing
      cases taken
      refine kept_of_perm (.of_presses rfl) rfl (.of_eq ?_) inv
      cases keyEvent with
      | none => simp [owned, releasing, WaiterPc.held]
      | some k =>
        cases cur with
        | true => simp [owned, releasing, WaiterPc.held]
        | false => exact absurd rfl (notHeld k · rfl)
    · cases taken

theorem deletes_eq_some {a : Action} {k : ℕ} (deletes : s.deletes a = some k) :
    a = .release ∧ s.waiter = .releasing (some k) false := by
  cases a with
  | release =>
    simp only [KeySystem.deletes] at deletes
    split at deletes
    · rename_i releasing
      cases deletes
      exact ⟨rfl, releasing⟩
    · cases deletes
  | _ => cases deletes

/-- `delete keyEvent`. -/
theorem release_inv {k : ℕ} (releasing : s.waiter = .releasing (some k) false) (inv : s.Inv)
    (taken : s.step keysMap .release = some t) : t.Inv := by
  simp only [step, releasing, Option.some.injEq] at taken
  subst taken
  have owned : s.owned = s.mKeyEventVec ++ [k] := by
    simp [KeySystem.owned, releasing, WaiterPc.held]
  have nodup := inv.nodup
  rw [owned] at nodup
  obtain ⟨nodup', -, apart⟩ := List.nodup_append.mp nodup
  obtain ⟨p, here, zero⟩ := inv.live k (by simp [owned])
  refine ⟨?_, ?_, ?_, ?_⟩
  · intro i
    rw [inv.locked]
    simp only [List.getElem?_modify, Option.map_eq_map, Option.map_eq_some_iff]
    constructor
    · rintro ⟨q, before, uses⟩
      refine ⟨_, ⟨q, before, rfl⟩, ?_⟩
      split_ifs <;> exact uses
    · rintro ⟨_, ⟨q, before, rfl⟩, uses⟩
      refine ⟨q, before, ?_⟩
      split_ifs at uses <;> exact uses
  · simpa [KeySystem.owned, WaiterPc.held] using nodup'
  · intro i member
    have member' : i ∈ s.mKeyEventVec := by simpa [KeySystem.owned, WaiterPc.held] using member
    obtain ⟨q, before, zero'⟩ := inv.live i (by simp [owned, member'])
    have other : k ≠ i := fun same => apart i member' k (by simp) same.symm
    exact ⟨q, (List.getElem?_modify_ne _ _ other).trans before, zero'⟩
  · intro i q after
    dsimp only at after
    by_cases same : k = i
    · subst same
      rw [List.getElem?_modify_eq, here] at after
      cases after
      simp [zero]
    · rw [List.getElem?_modify_ne _ _ same] at after
      exact inv.once i q after

/-- What deleting an event makes of the presses that exist. -/
theorem release_presses {k : ℕ} (releasing : s.waiter = .releasing (some k) false)
    (taken : s.step keysMap .release = some t) :
    t.presses = s.presses.modify k fun p => { p with deletions := p.deletions + 1 } := by
  simp only [step, releasing, Option.some.injEq] at taken
  rw [← taken]

theorem step_timeKey {k : ℕ} {now : Timeval} (taken : s.step keysMap (.timeKey k now) = some t)
    (inv : s.Inv) : ∃ p p', s.presses[k]? = some p ∧ TimerStep s t k p p' := by
  obtain ⟨p, here, taken⟩ := Option.bind_eq_some_iff.mp taken
  have holds : s.locked = some k ↔ p.timer.dereferences := by
    rw [inv.locked, here]
    simp
  obtain ⟨p', taken⟩ := timeKey_spec holds taken
  exact ⟨p, p', here, taken⟩

/-- Every step keeps the invariant, in every run. -/
theorem Inv.step {a : Action} (inv : s.Inv) (taken : s.step keysMap a = some t) : t.Inv := by
  cases deletes : s.deletes a with
  | some k =>
    obtain ⟨rfl, releasing⟩ := deletes_eq_some deletes
    exact release_inv releasing inv taken
  | none =>
    cases a with
    | timeKey k now =>
      obtain ⟨p, p', here, taken⟩ := step_timeKey taken inv
      exact taken.inv here inv
    | _ => exact (step_frame taken rfl deletes inv).2

/-! ### The use of a deleted event -/

theorem Inv.safe (inv : s.Inv) (unbroken : ¬s.Latent) : s.Safe := by
  intro p member
  obtain ⟨k, here⟩ := List.mem_iff_getElem?.mp member
  refine ⟨fun uses => ?_, inv.once k p here⟩
  by_contra deleted
  exact unbroken ⟨k, p, here, .inr uses, deleted⟩

/-- A thread that is to use a deleted event is still asleep, as long as nothing unsafe happens. -/
theorem Safe.sleeping (safe : s.Safe) {k : ℕ} {p : Press} (here : s.presses[k]? = some p)
    (pending : p.timer.Pending) (deleted : p.deletions ≠ 0) : p.timer = .sleeping := by
  obtain sleeps | uses := pending
  · exact sleeps
  · exact absurd ((safe p (List.mem_of_getElem? here)).1 uses) deleted

theorem timely_iff {k : ℕ} {p : Press} (releasing : s.waiter = .releasing (some k) false)
    (here : s.presses[k]? = some p) : s.timely .release ↔ ¬p.timer.Pending := by
  simp [timely, releasing, here, TimerPc.Pending]

theorem release_latent_iff {k : ℕ} (releasing : s.waiter = .releasing (some k) false) (inv : s.Inv)
    (unbroken : ¬s.Latent) (taken : s.step keysMap .release = some t) :
    t.Latent ↔ ¬s.timely .release := by
  obtain ⟨p, here, zero⟩ := inv.live k (by simp [KeySystem.owned, releasing, WaiterPc.held])
  rw [timely_iff releasing here, not_not]
  have presses := release_presses releasing taken
  constructor
  · rintro ⟨i, q, after, pending, deleted⟩
    rw [presses] at after
    by_cases same : k = i
    · subst same
      rw [List.getElem?_modify_eq, here] at after
      cases after
      exact pending
    · rw [List.getElem?_modify_ne _ _ same] at after
      exact absurd ⟨i, q, after, pending, deleted⟩ unbroken
  · intro pending
    refine ⟨k, { p with deletions := p.deletions + 1 }, ?_, pending, Nat.succ_ne_zero _⟩
    rw [presses, List.getElem?_modify_eq, here]
    rfl

theorem latent_iff_of_step {a : Action} (inv : s.Inv) (unbroken : ¬s.Latent)
    (taken : s.step keysMap a = some t) : t.Latent ↔ ¬s.timely a := by
  cases deletes : s.deletes a with
  | some k =>
    obtain ⟨rfl, releasing⟩ := deletes_eq_some deletes
    exact release_latent_iff releasing inv unbroken taken
  | none =>
    have timely : s.timely a := by
      cases a with
      | release =>
        simp only [KeySystem.deletes] at deletes
        simp only [KeySystem.timely]
        split <;> simp_all
      | _ => rfl
    simp only [timely, not_true_eq_false, iff_false]
    cases a with
    | timeKey k now =>
      obtain ⟨p, p', here, taken⟩ := step_timeKey taken inv
      exact fun latent => unbroken (taken.latent here latent)
    | _ => exact fun latent => unbroken ((step_frame taken rfl deletes inv).1.latent_iff.mp latent)

/-- Nothing undoes the deletion. -/
theorem latent_stays {a : Action} (inv : s.Inv) (latent : s.Latent) (safe : s.Safe)
    (taken : s.step keysMap a = some t) : t.Latent := by
  obtain ⟨k, p, here, pending, deleted⟩ := id latent
  have sleeps := safe.sleeping here pending deleted
  cases deletes : s.deletes a with
  | some i =>
    obtain ⟨rfl, releasing⟩ := deletes_eq_some deletes
    have presses := release_presses releasing taken
    by_cases same : i = k
    · subst same
      refine ⟨i, { p with deletions := p.deletions + 1 }, ?_, pending, Nat.succ_ne_zero _⟩
      rw [presses, List.getElem?_modify_eq, here]
      rfl
    · refine ⟨k, p, ?_, pending, deleted⟩
      rw [presses, List.getElem?_modify_ne _ _ same, here]
  | none =>
    cases a with
    | timeKey i now =>
      obtain ⟨q, q', there, taken⟩ := step_timeKey taken inv
      by_cases same : i = k
      · subst same
        cases here.symm.trans there
        refine ⟨i, q', ?_, .inr (taken.wakes sleeps), taken.deletions ▸ deleted⟩
        rw [taken.presses, List.getElem?_set_self (List.getElem?_eq_some_iff.mp here).1]
      · refine ⟨k, p, ?_, pending, deleted⟩
        rw [taken.presses, List.getElem?_set_ne same, here]
    | _ => exact (step_frame taken rfl deletes inv).1.latent_iff.mpr latent

/-- A thread that has the lock can go on. -/
theorem timeKey_isSome {k : ℕ} {p : Press} {now : Timeval} (uses : p.timer.dereferences) :
    ∃ t, s.timeKey keysMap k p now = some t := by
  rw [timeKey]
  split
  case h_4 => split_ifs <;> exact ⟨_, rfl⟩
  case h_2 | h_3 | h_5 => exact ⟨_, rfl⟩
  all_goals simp_all [TimerPc.dereferences]

/-- It unlocks after some steps of its own. -/
theorem unlocks (keysMap : List KeyMapItem) {j : ℕ} (n : ℕ) {p : Press} (inv : s.Inv)
    (here : s.presses[j]? = some p) (holds : s.locked = some j) (fuel : p.timer.uses ≤ n) :
    ∃ later t, (∀ l ∈ later, Action.isTimeKey l) ∧ Run (Step keysMap) s later t ∧ t.Inv ∧
      t.locked = none ∧ ∀ k ≠ j, t.presses[k]? = s.presses[k]? := by
  have uses : p.timer.dereferences := by
    obtain ⟨q, there, uses⟩ := (inv.locked j).mp holds
    cases here.symm.trans there
    exact uses
  induction n generalizing s p with
  | zero =>
    cases pc : p.timer <;> simp [pc, TimerPc.uses, TimerPc.dereferences] at fuel uses
  | succ n ih =>
    obtain ⟨mid, taken⟩ := @timeKey_isSome keysMap s j p ⟨0, 0⟩ uses
    obtain ⟨p', step⟩ := timeKey_spec ⟨fun _ => uses, fun _ => holds⟩ taken
    have first : Step keysMap s (.timeKey j ⟨0, 0⟩) mid := by
      simp only [Step, KeySystem.step, here, Option.bind_some, taken]
    have here' : mid.presses[j]? = some p' := by
      rw [step.presses, List.getElem?_set_self (List.getElem?_eq_some_iff.mp here).1]
    have others : ∀ k ≠ j, mid.presses[k]? = s.presses[k]? := by
      intro k other
      rw [step.presses, List.getElem?_set_ne other.symm]
    by_cases more : p'.timer.dereferences
    · have closer := step.closer uses
      obtain ⟨later, t, labels, run, inv', free, same⟩ :=
        ih (step.inv here inv) here' (step.holds.mpr more) (by omega) more
      refine ⟨_ :: later, t, ?_, .cons first run, inv', free, fun k other => ?_⟩
      · exact List.forall_mem_cons.mpr ⟨rfl, labels⟩
      · rw [same k other, others k other]
    · refine ⟨[_], mid, by simp [Action.isTimeKey], .cons first (.nil _), step.inv here inv, ?_, others⟩
      cases locked : mid.locked with
      | none => rfl
      | some i =>
        by_cases same : i = j
        · exact absurd (step.holds.mp (same ▸ locked)) more
        · have before := (step.others i same).mp locked
          rw [holds] at before
          exact absurd (Option.some.inj before).symm same

/-- The timer threads alone bring the use of a deleted event about. -/
theorem latent_emerges (keysMap : List KeyMapItem) (inv : s.Inv) (latent : s.Latent) :
    ∃ later t, (∀ l ∈ later, Action.isTimeKey l) ∧ Run (Step keysMap) s later t ∧ ¬t.Safe := by
  obtain ⟨k, p, here, pending, deleted⟩ := latent
  obtain sleeps | uses := pending
  · -- Whoever has the lock gives it back first.
    obtain ⟨later, mid, labels, run, inv', free, here'⟩ : ∃ later mid,
        (∀ l ∈ later, Action.isTimeKey l) ∧ Run (Step keysMap) s later mid ∧ mid.Inv ∧
          mid.locked = none ∧ mid.presses[k]? = some p := by
      cases holds : s.locked with
      | none => exact ⟨[], s, by simp, .nil s, inv, holds, here⟩
      | some j =>
        obtain ⟨q, there, uses⟩ := (inv.locked j).mp holds
        obtain ⟨later, mid, labels, run, inv', free, same⟩ :=
          unlocks keysMap q.timer.uses inv there holds (Nat.le_refl _)
        have other : k ≠ j := by
          rintro rfl
          cases here.symm.trans there
          rw [sleeps] at uses
          cases uses
        exact ⟨later, mid, labels, run, inv', free, (same k other).trans here⟩
    obtain ⟨t, taken⟩ : ∃ t, mid.timeKey keysMap k p ⟨0, 0⟩ = some t := by
      rw [timeKey, sleeps]
      exact ⟨_, if_pos free⟩
    have last : Step keysMap mid (.timeKey k ⟨0, 0⟩) t := by
      simp only [Step, step, here', Option.bind_some, taken]
    obtain ⟨q, p', there, step⟩ := step_timeKey last inv'
    cases here'.symm.trans there
    refine ⟨later ++ [.timeKey k ⟨0, 0⟩], t, ?_, ?_, ?_⟩
    · simpa [Action.isTimeKey, or_imp, forall_and] using labels
    · exact Run.append_iff.mpr ⟨mid, run, .cons last (.nil t)⟩
    · intro safe
      have member : p' ∈ t.presses := by
        rw [step.presses]
        exact List.mem_set (List.getElem?_eq_some_iff.mp here').1 _
      exact deleted (step.deletions ▸ (safe p' member).1 (step.wakes sleeps))
  · exact ⟨[], s, by simp, .nil s, fun safe =>
      deleted ((safe p (List.mem_of_getElem? here)).1 uses)⟩

/-- For every run and every key map: the run is safe, whatever the timer threads do next, if and only
if every deletion is timely. -/
theorem safe_iff_timely {keysMap : List KeyMapItem} {ls : List Action} {s : KeySystem}
    (run : Run (Step keysMap) start ls s) :
    (∀ later t, (∀ l ∈ later, Action.isTimeKey l) → Run (Step keysMap) s later t →
        Throughout (Step keysMap) Safe start (ls ++ later)) ↔
      Run (Guarded (fun s a => s.timely a) (Step keysMap)) start ls s := by
  refine @throughout_later_iff _ _ (Step keysMap) Inv Latent Safe (fun s a => s.timely a)
    (fun a => a.isTimeKey) start s ls ?_ inv_start ?_ ?_ ?_ ?_ ?_ ?_ ?_ run
  · intro s a t t' taken taken'
    exact Option.some.inj (taken.symm.trans taken')
  · intro s a t inv taken
    exact inv.step taken
  · rintro ⟨k, p, here, -⟩
    simp [start] at here
  · intro s a t inv unbroken taken
    exact latent_iff_of_step inv unbroken taken
  · intro s inv unbroken
    exact inv.safe unbroken
  · intro s a t inv latent safe taken
    exact latent_stays inv latent safe taken
  · intro s inv latent
    exact latent_emerges keysMap inv latent
  · intro s a isTimeKey
    cases a with
    | timeKey k now => rfl
    | _ => cases isTimeKey

/-- A key that is held for longer than 750 ms, while another one is pressed. -/
def longPress : List Action :=
  [.processKey 103 1 10, .setLastKey, .timeKey 0 ⟨1, 0⟩, .timeKey 0 ⟨1, 0⟩, .timeKey 0 ⟨1, 0⟩,
    .timeKey 0 ⟨1, 0⟩, .processKey 103 2 15, .setLastKey, .processKey 103 0 2000000, .setLastKey,
    .enqueueKey ⟨2, 0⟩, .processKey 116 1 2000100, .setLastKey, .waitKey, .system, .release,
    .timeKey 1 ⟨3, 0⟩]

theorem safe_iff_timely_longPress : ∃ s, Run (Step [⟨"up", 103, 0⟩]) start longPress s ∧
    ∀ later t, (∀ l ∈ later, Action.isTimeKey l) → Run (Step [⟨"up", 103, 0⟩]) s later t →
      Throughout (Step [⟨"up", 103, 0⟩]) Safe start (longPress ++ later) :=
  ⟨_, run_of_foldlM rfl, (safe_iff_timely (run_of_foldlM rfl)).mpr (guarded_of_foldlM rfl)⟩

/-- A key that is released at once. -/
theorem not_safe_quick : ¬∀ keysMap ls s, Run (Step keysMap) start ls s → s.Safe := by
  intro safe
  have here := safe [⟨"power", 116, 0⟩] _ _ (run_of_foldlM (rfl : [Action.processKey 116 1 10,
    .setLastKey, .processKey 116 0 20, .setLastKey, .enqueueKey ⟨5, 0⟩, .waitKey, .system, .release,
    .timeKey 0 ⟨6, 0⟩].foldlM (step [⟨"power", 116, 0⟩]) start = some _))
  exact absurd (here ⟨⟨10, 20, 116, 0, false, false⟩, 1, 116, 1, .readLongPress⟩ (by decide)) (by decide)

end KeySystem

end AmlCommonlib.Utils
