import AmlCommonlib.Lib.Fgets
import AmlCommonlib.Lib.Runs

/-! # The power-off timer of `auto_shutdown`

The USB state, HFP messages and keys start and stop one timer. A handler is a step, with one for each
message and key event that it reads; `setitimer` is taken to succeed.
-/

namespace AmlCommonlib.Utils

inductive UsbState where
  | disconnect
  | connect
deriving DecidableEq

inductive HfpState where
  | disconnect
  | connect
  | callIn
  | callOut
  | callOutRinging
  | callInOutOver
  | callStart
  | callEnded
deriving DecidableEq

/-- The globals, and the seconds that `setitimer` was given last: 0 once the timer is stopped or has
expired. -/
structure AutoShutdown where
  usbState : UsbState
  btState : HfpState
  timingTimeSec : ℤ
  timer : ℤ
deriving DecidableEq

/-- `DISCONNECTED`. -/
def disconnectedText : Bytes := [68, 73, 83, 67, 79, 78, 78, 69, 67, 84, 69, 68]

/-- `CONFIGURED`. -/
def configuredText : Bytes := [67, 79, 78, 70, 73, 71, 85, 82, 69, 68]

/-- What `main` makes of the number of its argument. -/
def timingTimeMin (argument : ℤ) : ℤ :=
  if argument ≠ 0 then if argument < 5 ∨ 90 < argument then 45 else argument else 45

/-- The events and values of a message: an odd byte at its end is not used. -/
def pairs : List ℤ → List (ℤ × ℤ)
  | event :: value :: rest => (event, value) :: pairs rest
  | _ => []

namespace AutoShutdown

def startTimer (s : AutoShutdown) (nsec : ℤ) : AutoShutdown := { s with timer := nsec }

def stopTimer (s : AutoShutdown) : AutoShutdown := { s with timer := 0 }

def checkToStartTimer (s : AutoShutdown) : AutoShutdown :=
  if s.usbState = .disconnect ∧ s.btState = .disconnect then s.startTimer s.timingTimeSec else s

/-- `usb_state_change`, given the contents of the state file if it can be opened. -/
def usbStateChange (s : AutoShutdown) (file : Option Bytes) : AutoShutdown :=
  match file.bind (fgets 30) with
  | none => s
  | some (line, _) =>
    if disconnectedText.isPrefixOf line then { s with usbState := .disconnect }.checkToStartTimer
    else if configuredText.isPrefixOf line then { s with usbState := .connect }.stopTimer
    else s

def msgHandler (s : AutoShutdown) (event value : ℤ) : AutoShutdown :=
  match event with
  | 1 =>
    match value with
    | 0 => { s with btState := .disconnect }.checkToStartTimer
    | 1 => { s with btState := .connect }.stopTimer
    | _ => s
  | 2 =>
    match value with
    | 0 => { s with btState := .callStart }
    | 1 => { s with btState := .callEnded }
    | _ => s
  | 3 =>
    match value with
    | 0 => if s.btState ≠ .callStart then { s with btState := .callInOutOver } else s
    | 1 => { s with btState := .callIn }
    | 2 => { s with btState := .callOut }
    | 3 => { s with btState := .callOutRinging }
    | _ => s
  | _ => s

/-- The server is offline. -/
def offline (s : AutoShutdown) : AutoShutdown :=
  { s with btState := .disconnect }.checkToStartTimer

/-- `bt_state_read`, given what `recv` puts into `msg`, of which `none` is an error. -/
def btStateRead (s : AutoShutdown) : Option (List ℤ) → AutoShutdown
  | none => s
  | some [] => s.offline
  | some msg => (pairs msg).foldl (fun s message => s.msgHandler message.1 message.2) s

def keyEvent (s : AutoShutdown) (type value : ℤ) : AutoShutdown :=
  if type ≠ 0 then
    if value = 1 then s.stopTimer
    else if value = 0 then s.checkToStartTimer
    else s
  else s

/-- `key_state_read`, given the types and values of the events. -/
def keyStateRead (s : AutoShutdown) (events : List (ℤ × ℤ)) : AutoShutdown :=
  events.foldl (fun s event => s.keyEvent event.1 event.2) s

/-- What the threads of `main` get to read; `alarm` is the timer, which does not repeat. -/
inductive Input where
  | usb (file : Option Bytes)
  | bt (msg : Option (List ℤ))
  | key (events : List (ℤ × ℤ))
  | alarm

def handle (s : AutoShutdown) : Input → AutoShutdown
  | .usb file => s.usbStateChange file
  | .bt msg => s.btStateRead msg
  | .key events => s.keyStateRead events
  | .alarm => s.stopTimer

/-- `main` up to its loop, given whether there is a socket for uevents. -/
def start (argument : ℤ) (usbFd : Bool) (file : Option Bytes) : AutoShutdown :=
  let s := ⟨.connect, .disconnect, timingTimeMin argument * 60, 0⟩
  if usbFd then (s.usbStateChange file).checkToStartTimer else s

/-! ### What is to hold -/

/-- The handlers' steps. -/
inductive Action where
  | usbStateChange (file : Option Bytes)
  | msgHandler (event value : ℤ)
  | offline
  | keyEvent (type value : ℤ)
  | alarm
deriving DecidableEq

def step (s : AutoShutdown) : Action → AutoShutdown
  | .usbStateChange file => s.usbStateChange file
  | .msgHandler event value => s.msgHandler event value
  | .offline => s.offline
  | .keyEvent type value => s.keyEvent type value
  | .alarm => s.stopTimer

def Step (s : AutoShutdown) (a : Action) (t : AutoShutdown) : Prop := s.step a = t

def Input.actions : Input → List Action
  | usb file => [.usbStateChange file]
  | bt none => []
  | bt (some []) => [.offline]
  | bt (some msg) => (pairs msg).map fun message => .msgHandler message.1 message.2
  | key events => events.map fun event => .keyEvent event.1 event.2
  | alarm => [.alarm]

def Running (s : AutoShutdown) : Prop := s.timer ≠ 0

def Idle (s : AutoShutdown) : Prop := s.usbState = .disconnect ∧ s.btState = .disconnect

instance (s : AutoShutdown) : Decidable s.Running := inferInstanceAs (Decidable (s.timer ≠ 0))

instance (s : AutoShutdown) : Decidable s.Idle :=
  inferInstanceAs (Decidable (s.usbState = .disconnect ∧ s.btState = .disconnect))

/-- The message tells of a call or of its setup. -/
def isCall (event value : ℤ) : Bool :=
  (event = 2 ∧ (value = 0 ∨ value = 1)) ∨
    event = 3 ∧ (value = 0 ∨ value = 1 ∨ value = 2 ∨ value = 3)

/-- No message of a call comes while the timer is running. -/
def calm (s : AutoShutdown) : Action → Bool
  | .msgHandler event value => s.timer = 0 ∨ !isCall event value
  | _ => true

/-! ### The handlers as steps -/

theorem handle_eq (s : AutoShutdown) (input : Input) :
    s.handle input = input.actions.foldl step s := by
  match input with
  | .usb file => rfl
  | .bt none => rfl
  | .bt (some []) => rfl
  | .bt (some (b :: rest)) =>
    simp only [handle, btStateRead, Input.actions, List.foldl_map]
    rfl
  | .key events =>
    simp only [handle, keyStateRead, Input.actions, List.foldl_map]
    rfl
  | .alarm => rfl

theorem foldl_handle (inputs : List Input) (s : AutoShutdown) :
    inputs.foldl handle s = (inputs.flatMap Input.actions).foldl step s := by
  induction inputs generalizing s with
  | nil => rfl
  | cons input rest ih => rw [List.foldl_cons, List.flatMap_cons, List.foldl_append, ih, handle_eq]

theorem run_foldl (actions : List Action) (s : AutoShutdown) :
    Run Step s actions (actions.foldl step s) := by
  induction actions generalizing s with
  | nil => exact .nil s
  | cons a rest ih => exact .cons rfl (ih (s.step a))

/-! ### The steps -/

theorem checkToStartTimer_idle {s : AutoShutdown} (idle : s.Running → s.Idle) :
    s.checkToStartTimer.Running → s.checkToStartTimer.Idle := by
  rw [checkToStartTimer]
  split_ifs with both
  · exact fun _ => both
  · exact idle

/-- The handler sets one of the states to `DISCONNECT` first. -/
theorem Idle.of_usbState {s : AutoShutdown} (idle : s.Running → s.Idle) :
    Running { s with usbState := .disconnect } → Idle { s with usbState := .disconnect } :=
  fun running => ⟨rfl, (idle running).2⟩

theorem Idle.of_btState {s : AutoShutdown} (idle : s.Running → s.Idle) :
    Running { s with btState := .disconnect } → Idle { s with btState := .disconnect } :=
  fun running => ⟨(idle running).1, rfl⟩

theorem not_running_stopTimer (s : AutoShutdown) : ¬s.stopTimer.Running := fun running => running rfl

theorem usbStateChange_idle {s : AutoShutdown} (idle : s.Running → s.Idle) (file : Option Bytes) :
    (s.usbStateChange file).Running → (s.usbStateChange file).Idle := by
  rw [usbStateChange]
  split
  · exact idle
  · split_ifs
    · exact checkToStartTimer_idle (Idle.of_usbState idle)
    · exact fun running => absurd running (not_running_stopTimer _)
    · exact idle

theorem keyEvent_idle {s : AutoShutdown} (idle : s.Running → s.Idle) (type value : ℤ) :
    (s.keyEvent type value).Running → (s.keyEvent type value).Idle := by
  rw [keyEvent]
  split_ifs
  · exact fun running => absurd running (not_running_stopTimer s)
  · exact checkToStartTimer_idle idle
  · exact idle
  · exact idle

/-- A call takes the state away from `DISCONNECT`, and the timer is left as it is. -/
theorem msgHandler_call {s : AutoShutdown} {event value : ℤ} (call : isCall event value) :
    (s.msgHandler event value).timer = s.timer ∧
      (s.btState = .disconnect → (s.msgHandler event value).btState ≠ .disconnect) := by
  simp only [isCall, decide_eq_true_eq] at call
  obtain ⟨rfl, rfl | rfl⟩ | ⟨rfl, rfl | rfl | rfl | rfl⟩ := call
  · simp [msgHandler]
  · simp [msgHandler]
  · simp only [msgHandler]
    split_ifs <;> simp_all
  · simp [msgHandler]
  · simp [msgHandler]
  · simp [msgHandler]

/-- The other messages set the state and the timer together. -/
theorem msgHandler_idle {s : AutoShutdown} (idle : s.Running → s.Idle) {event value : ℤ}
    (other : isCall event value = false) :
    (s.msgHandler event value).Running → (s.msgHandler event value).Idle := by
  by_cases connection : event = 1
  · subst connection
    by_cases disconnected : value = 0
    · subst disconnected
      exact checkToStartTimer_idle (Idle.of_btState idle)
    by_cases connected : value = 1
    · subst connected
      exact fun running => absurd running (not_running_stopTimer _)
    simpa [msgHandler, disconnected, connected] using idle
  · have same : s.msgHandler event value = s := by
      simp [isCall] at other
      by_cases call : event = 2
      · subst call
        simp [msgHandler, other.1 rfl]
      by_cases setup : event = 3
      · subst setup
        simp [msgHandler, other.2 rfl]
      simp [msgHandler]
    rwa [same]

theorem step_idle {s : AutoShutdown} {a : Action} (idle : s.Running → s.Idle) (calm : s.calm a) :
    (s.step a).Running → (s.step a).Idle := by
  cases a with
  | usbStateChange file => exact usbStateChange_idle idle file
  | msgHandler event value =>
    by_cases call : isCall event value
    · have stopped : s.timer = 0 := by simpa [AutoShutdown.calm, call] using calm
      exact fun running => absurd ((msgHandler_call call).1.trans stopped) running
    · exact msgHandler_idle idle (by simpa using call)
  | offline => exact checkToStartTimer_idle (Idle.of_btState idle)
  | keyEvent type value => exact keyEvent_idle idle type value
  | alarm => exact fun running => absurd running (not_running_stopTimer s)

/-- A call while the timer is running: it goes on. -/
theorem step_call {s : AutoShutdown} {a : Action} (idle : s.Running → s.Idle) (call : ¬s.calm a) :
    (s.step a).Running ∧ ¬(s.step a).Idle := by
  cases a with
  | msgHandler event value =>
    obtain ⟨running, call⟩ : s.timer ≠ 0 ∧ isCall event value := by
      simpa [calm, not_or] using call
    obtain ⟨timer, leaves⟩ := msgHandler_call call
    refine ⟨?_, fun after => leaves (idle running).2 after.2⟩
    rw [Running, step, timer]
    exact running
  | _ => exact absurd rfl call

theorem start_idle (argument : ℤ) (usbFd : Bool) (file : Option Bytes) :
    (start argument usbFd file).Running → (start argument usbFd file).Idle := by
  have stopped : ∀ t : AutoShutdown, t.timer = 0 → t.Running → t.Idle :=
    fun t timer running => absurd timer running
  rw [start]
  cases usbFd with
  | true => exact checkToStartTimer_idle (usbStateChange_idle (stopped _ rfl) file)
  | false => exact stopped _ rfl

/-! ### Runs -/

/-- The timer runs only while both are disconnected, in a run of any inputs, exactly if no message of
a call comes while it is running. -/
theorem idle_iff_calm (argument : ℤ) (usbFd : Bool) (file : Option Bytes) (inputs : List Input) :
    Throughout Step (fun s => s.Running → s.Idle) (start argument usbFd file)
        (inputs.flatMap Input.actions) ↔
      Run (Guarded (fun s a => s.calm a) Step) (start argument usbFd file)
        (inputs.flatMap Input.actions) (inputs.foldl handle (start argument usbFd file)) := by
  have run := run_foldl (inputs.flatMap Input.actions) (start argument usbFd file)
  rw [← foldl_handle] at run
  refine @throughout_iff_of_invariant _ _ Step (fun s => s.Running → s.Idle)
    (fun s => s.Running → s.Idle) (fun s a => s.calm a) _ _ _ ?_ (start_idle argument usbFd file)
    ?_ id ?_ run
  · rintro s a t t' rfl rfl
    rfl
  · rintro s a t idle ⟨calm, rfl⟩
    exact step_idle idle calm
  · rintro s a t idle rfl call holds
    obtain ⟨running, away⟩ := step_call idle call
    exact away (holds running)

/-- An incoming call behind the end of a USB connection. -/
theorem not_idle_call : ¬∀ argument usbFd file (inputs : List Input),
    Throughout Step (fun s => s.Running → s.Idle) (start argument usbFd file)
      (inputs.flatMap Input.actions) := by
  intro idle
  have here := idle 45 true (some configuredText) [.usb (some disconnectedText), .bt (some [3, 1])]
    [.usbStateChange (some disconnectedText), .msgHandler 3 1] [] _ rfl (run_foldl _ _)
  exact absurd (here (by decide)) (by decide)

end AutoShutdown

end AmlCommonlib.Utils
