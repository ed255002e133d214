import AmlCommonlib.Lib.Runs
import Mathlib.Data.List.Chain

/-! # The connection status of a client

`ClientInit`, the reconnections of the two threads and `ClientExit`, with what they do to
`isConnected` and which handlers they call. `handleClientConnection` and `handleClientDisconnection`
are one step each, and a thread is canceled between them.
-/

namespace AmlCommonlib.SocketIpcV2

/-- The handlers of `ClientInputData`. -/
structure ClientInputData where
  clientConnectedHandler : Option ℕ
  clientDisconnectedHandler : Option ℕ
deriving DecidableEq

/-- `ClientSocketData`, what these functions use of it. -/
structure ClientSocketData where
  sockfd : ℤ
  isConnected : Bool
  clientConnectedHandler : Option ℕ
  clientDisconnectedHandler : Option ℕ
deriving DecidableEq

inductive Change where
  | established
  | lost
deriving DecidableEq

/-- Where the application is. -/
inductive ClientPhase where
  | outside
  /-- In `ClientInit`, with the threads started. -/
  | initialising
  | running
deriving DecidableEq

structure ClientSession where
  data : ClientSocketData
  phase : ClientPhase
  /-- A thread is between `handleClientDisconnection` and `handleClientConnection`. -/
  reconnecting : Bool
  /-- No datum of the program, like the rest: the socket is connected. -/
  established : Bool
  /-- What the last `ClientInit` was given. -/
  input : ClientInputData
  /-- What has happened to the connection since. -/
  changes : List Change
  /-- The handlers called since. -/
  calls : List ℕ
deriving DecidableEq

namespace ClientSession

def start : ClientSession :=
  ⟨⟨0, false, none, none⟩, .outside, false, false, ⟨none, none⟩, [], []⟩

/-! ### The functions -/

/-- `initClientData`. -/
def initClientData (clientSocketData : ClientSocketData) (clientInputData : ClientInputData) :
    ClientSocketData :=
  { clientSocketData with
    sockfd := -1
    clientConnectedHandler := clientInputData.clientConnectedHandler }

/-- `clientInitConnection`, which returns with a connected socket. -/
def clientInitConnection (s : ClientSession) (fd : ℕ) : ClientSession :=
  { s with
    data := { s.data with sockfd := fd }
    established := true
    changes := s.changes ++ [.established] }

/-- A handler is called if there is one. -/
def call (s : ClientSession) (handler : Option ℕ) : ClientSession :=
  { s with calls := s.calls ++ handler.toList }

def handleClientConnection (s : ClientSession) (fd : ℕ) : ClientSession :=
  let s := s.clientInitConnection fd
  let s := { s with data := { s.data with isConnected := true } }
  s.call s.data.clientConnectedHandler

def handleClientDisconnection (s : ClientSession) : ClientSession :=
  let s := { s with data := { s.data with isConnected := false } }
  let s := s.call s.data.clientDisconnectedHandler
  if 0 ≤ s.data.sockfd ∧ s.established then
    { s with established := false, changes := s.changes ++ [.lost] }
  else s

/-- `ClientInit` up to its threads. -/
def clientInit (s : ClientSession) (clientInputData : ClientInputData) (fd : ℕ) : ClientSession :=
  let s := { s with
    data := initClientData s.data clientInputData
    phase := .initialising
    input := clientInputData
    changes := []
    calls := [] }
  let s := s.clientInitConnection fd
  s.call s.data.clientConnectedHandler

/-- `ClientGetConnectionStatus`. -/
def clientGetConnectionStatus (s : ClientSession) : ℤ := if s.data.isConnected then 1 else 0

inductive Action where
  | clientInit (clientInputData : ClientInputData) (fd : ℕ)
  /-- `ClientInit` has registered the client and returns. -/
  | initReturn
  /-- The first half of `handleClientReconnection`. -/
  | disconnect
  /-- The second half. -/
  | connect (fd : ℕ)
  | clientExit
deriving DecidableEq

def step (s : ClientSession) : Action → Option ClientSession
  | .clientInit clientInputData fd =>
    if s.phase = .outside then some (s.clientInit clientInputData fd) else none
  | .initReturn => if s.phase = .initialising then some { s with phase := .running } else none
  | .disconnect =>
    if s.phase ≠ .outside ∧ s.reconnecting = false then
      some { s.handleClientDisconnection with reconnecting := true }
    else none
  | .connect fd =>
    if s.phase ≠ .outside ∧ s.reconnecting = true then
      some { s.handleClientConnection fd with reconnecting := false }
    else none
  | .clientExit =>
    if s.phase = .running then
      some { s.handleClientDisconnection with reconnecting := false, phase := .outside }
    else none

def Step (s : ClientSession) (a : Action) (s' : ClientSession) : Prop := s.step a = some s'

/-! ### The property -/

/-- The handler that is supplied for a change. -/
def handlerFor (clientInputData : ClientInputData) : Change → Option ℕ
  | .established => clientInputData.clientConnectedHandler
  | .lost => clientInputData.clientDisconnectedHandler

/-- The status says whether the socket is connected, and the handlers supplied are called in turn,
once for each change. -/
structure Faithful (s : ClientSession) : Prop where
  status : s.phase ≠ .initialising → (s.clientGetConnectionStatus = 1 ↔ s.established = true)
  inTurn : s.changes.IsChain (· ≠ ·)
  calls : s.calls = s.changes.filterMap (handlerFor s.input)

/-- `ClientInit` returns behind the first loss of the connection, and where one is lost no handler is
supplied for it. -/
def Spared (s : ClientSession) : Action → Prop
  | .initReturn => .lost ∈ s.changes
  | .disconnect | .clientExit => s.input.clientDisconnectedHandler = none
  | _ => True

instance (s : ClientSession) (a : Action) : Decidable (Spared s a) := by
  cases a <;> unfold Spared <;> infer_instance

/-! ### The invariant -/

/-- How the last change left the connection. -/
def lastChange (established : Bool) : Change := if established then .established else .lost

/-- The flag is set from the first reconnection on only, and no disconnected handler is kept. -/
structure Inv (s : ClientSession) : Prop where
  outside : s.phase = .outside → s.established = false ∧ s.reconnecting = false
  inside : s.phase ≠ .outside → s.established = !s.reconnecting ∧
    s.data.clientConnectedHandler = s.input.clientConnectedHandler
  unset : s.data.clientDisconnectedHandler = none
  socket : s.established = true → 0 ≤ s.data.sockfd
  flag : s.data.isConnected = true ↔ s.established = true ∧ .lost ∈ s.changes
  lost : s.reconnecting = true ∨ s.phase = .running → .lost ∈ s.changes
  spared : .lost ∈ s.changes → s.input.clientDisconnectedHandler = none
  inTurn : s.changes.IsChain (· ≠ ·)
  last : ∀ change ∈ s.changes.getLast?, change = lastChange s.established
  calls : s.calls = s.changes.filterMap (handlerFor s.input)

theorem inv_start : Inv start where
  outside _ := ⟨rfl, rfl⟩
  inside inside := absurd rfl inside
  unset := rfl
  socket := by simp [start]
  flag := by simp [start]
  lost := by simp [start]
  spared := by simp [start]
  inTurn := by simp [start]
  last := by simp [start]
  calls := rfl

variable {s s' s'' : ClientSession} {a : Action}

theorem Inv.faithful (inv : Inv s) : Faithful s where
  status ready := by
    have flag := inv.flag
    have status : s.clientGetConnectionStatus = 1 ↔ s.data.isConnected = true := by
      simp only [clientGetConnectionStatus]
      split_ifs with connected <;> simp [connected]
    rw [status, flag]
    constructor
    · exact fun both => both.1
    · intro established
      refine ⟨established, inv.lost (.inr ?_)⟩
      cases phase : s.phase with
      | outside =>
        have none' := (inv.outside phase).1
        rw [established] at none'
        cases none'
      | initialising => exact absurd phase ready
      | running => rfl
  inTurn := inv.inTurn
  calls := inv.calls

/-- Outside a reconnection the socket of a session is connected. -/
theorem Inv.connected (inv : Inv s) (inside : s.phase ≠ .outside) (quiet : s.reconnecting = false) :
    s.established = true := by
  rw [(inv.inside inside).1, quiet]
  rfl

/-- What a change does to the list of changes. -/
theorem Inv.snoc (inv : Inv s) {established : Bool} (turns : s.established = !established) :
    (s.changes ++ [lastChange established]).IsChain (· ≠ ·) := by
  rw [List.isChain_append]
  refine ⟨inv.inTurn, by simp, ?_⟩
  intro change isLast next isNext
  rw [inv.last change isLast, turns]
  obtain rfl : lastChange established = next := by simpa using isNext
  cases established <;> decide

@[simp] theorem filterMap_singleton (input : ClientInputData) (change : Change) :
    [change].filterMap (handlerFor input) = (handlerFor input change).toList := by
  cases handler : handlerFor input change <;> simp [handler]

/-- No handler is called for the loss of a connection. -/
theorem Inv.disconnection (inv : Inv s) (connected : s.established = true) :
    s.handleClientDisconnection = { s with
      data := { s.data with isConnected := false }
      established := false
      changes := s.changes ++ [.lost] } := by
  simp [handleClientDisconnection, call, inv.unset, connected, inv.socket connected]

theorem Inv.disconnection_of_not (inv : Inv s) (unconnected : s.established = false) :
    s.handleClientDisconnection = { s with data := { s.data with isConnected := false } } := by
  simp [handleClientDisconnection, call, inv.unset, unconnected]

/-- The connection is lost or given up. -/
theorem Inv.loses (inv : Inv s) (connected : s.established = true)
    (spared : s.input.clientDisconnectedHandler = none) {reconnecting : Bool} {phase : ClientPhase}
    (outside : phase = .outside → reconnecting = false)
    (inside : phase ≠ .outside → s.phase ≠ .outside ∧ reconnecting = true) :
    Inv { s.handleClientDisconnection with reconnecting := reconnecting, phase := phase } := by
  rw [inv.disconnection connected]
  refine ⟨fun isOutside => ⟨rfl, outside isOutside⟩, ?_, inv.unset, by simp, by simp, by simp,
    fun _ => spared, @Inv.snoc s inv false connected, by simp [lastChange], ?_⟩
  · intro isInside
    obtain ⟨wasInside, waits⟩ := inside isInside
    exact ⟨by simp [waits], (inv.inside wasInside).2⟩
  · simp [inv.calls, handlerFor, spared]

theorem Inv.clientInit (inv : Inv s) (outside : s.phase = .outside) (input : ClientInputData) (fd : ℕ) :
    Inv (s.clientInit input fd) := by
  obtain ⟨unconnected, quiet⟩ := inv.outside outside
  have unset : s.data.isConnected = false := by
    have flag := inv.flag
    simpa [unconnected] using flag
  refine ⟨by rintro ⟨⟩, ?_, inv.unset, ?_, ?_, ?_, ?_, ?_, ?_, ?_⟩
  all_goals simp [ClientSession.clientInit, clientInitConnection, initClientData, call, quiet, unset,
    lastChange, handlerFor]

theorem Inv.connect (inv : Inv s) (inside : s.phase ≠ .outside) (waits : s.reconnecting = true) (fd : ℕ) :
    Inv { s.handleClientConnection fd with reconnecting := false } := by
  obtain ⟨established, handler⟩ := inv.inside inside
  rw [waits] at established
  have lost := inv.lost (.inl waits)
  refine ⟨fun outside => absurd outside inside, fun _ => ⟨rfl, handler⟩, inv.unset, ?_, ?_, ?_, ?_,
    @Inv.snoc s inv true established, ?_, ?_⟩
  all_goals simp [handleClientConnection, clientInitConnection, call, lost, lastChange, inv.spared lost,
    inv.calls, handlerFor, handler]

theorem Inv.step (inv : Inv s) (taken : Guarded Spared Step s a s') : Inv s' := by
  obtain ⟨spared, taken⟩ := taken
  cases a with
  | clientInit input fd =>
    simp only [Step, ClientSession.step, Option.ite_none_right_eq_some, Option.some.injEq] at taken
    obtain ⟨outside, rfl⟩ := taken
    exact inv.clientInit outside input fd
  | initReturn =>
    simp only [Step, ClientSession.step, Option.ite_none_right_eq_some, Option.some.injEq] at taken
    obtain ⟨initialising, rfl⟩ := taken
    have inside := inv.inside (by simp [initialising])
    exact ⟨by rintro ⟨⟩, fun _ => inside, inv.unset, inv.socket, inv.flag, fun _ => spared, inv.spared,
      inv.inTurn, inv.last, inv.calls⟩
  | disconnect =>
    simp only [Step, ClientSession.step, Option.ite_none_right_eq_some, Option.some.injEq] at taken
    obtain ⟨⟨inside, quiet⟩, rfl⟩ := taken
    have connected := inv.connected inside quiet
    have phase : s.handleClientDisconnection.phase = s.phase := by rw [inv.disconnection connected]
    have inv' := @Inv.loses s inv connected spared true s.phase (fun outside => absurd outside inside)
      fun _ => ⟨inside, rfl⟩
    rwa [← phase] at inv'
  | connect fd =>
    simp only [Step, ClientSession.step, Option.ite_none_right_eq_some, Option.some.injEq] at taken
    obtain ⟨⟨inside, waits⟩, rfl⟩ := taken
    exact inv.connect inside waits fd
  | clientExit =>
    simp only [Step, ClientSession.step, Option.ite_none_right_eq_some, Option.some.injEq] at taken
    obtain ⟨running, rfl⟩ := taken
    have inside : s.phase ≠ .outside := by simp [running]
    cases waits : s.reconnecting with
    | false => exact inv.loses (inv.connected inside waits) spared (fun _ => rfl) (by simp)
    | true =>
      have established := (inv.inside inside).1
      rw [waits] at established
      rw [inv.disconnection_of_not established]
      have lost := inv.lost (.inl waits)
      exact ⟨fun _ => ⟨established, rfl⟩, by simp, inv.unset, inv.socket, by simp [established], fun _ => lost,
        inv.spared, inv.inTurn, inv.last, inv.calls⟩

/-- A supplied handler is not called when the connection is lost. -/
theorem Inv.not_called (inv : Inv s) (connected : s.established = true)
    (supplied : s.input.clientDisconnectedHandler ≠ none) {reconnecting : Bool} {phase : ClientPhase} :
    ¬Faithful { s.handleClientDisconnection with reconnecting := reconnecting, phase := phase } := by
  rw [inv.disconnection connected]
  intro faithful
  obtain ⟨handler, isHandler⟩ := Option.ne_none_iff_exists'.mp supplied
  have calls := faithful.calls
  rw [List.filterMap_append, ← inv.calls, filterMap_singleton, handlerFor, isHandler] at calls
  simp at calls

/-- The first connection is not reported, and the handler for its loss is not called. -/
theorem Inv.not_faithful (inv : Inv s) (taken : Step s a s') (bad : ¬Spared s a) : ¬Faithful s' := by
  cases a with
  | initReturn =>
    simp only [Step, ClientSession.step, Option.ite_none_right_eq_some, Option.some.injEq] at taken
    obtain ⟨initialising, rfl⟩ := taken
    have quiet : s.reconnecting = false := by
      by_contra waits
      exact bad (inv.lost (.inl (by simpa using waits)))
    have connected := inv.connected (by simp [initialising]) quiet
    have unset : ¬s.data.isConnected = true := fun set => bad (inv.flag.mp set).2
    intro faithful
    have status := (faithful.status (by simp)).mpr connected
    simp [clientGetConnectionStatus, unset] at status
  | disconnect =>
    simp only [Step, ClientSession.step, Option.ite_none_right_eq_some, Option.some.injEq] at taken
    obtain ⟨⟨inside, quiet⟩, rfl⟩ := taken
    exact inv.not_called (inv.connected inside quiet) bad
  | clientExit =>
    simp only [Step, ClientSession.step, Option.ite_none_right_eq_some, Option.some.injEq] at taken
    obtain ⟨running, rfl⟩ := taken
    have quiet : s.reconnecting = false := by
      by_contra waits
      exact bad (inv.spared (inv.lost (.inl (by simpa using waits))))
    exact inv.not_called (inv.connected (by simp [running]) quiet) bad
  | clientInit | connect => exact absurd trivial bad

/-! ### Runs -/

/-- In a run the status and the handlers are right throughout exactly if every `ClientInit` returns
behind the first loss of its connection and no disconnected handler is supplied where one is lost. -/
theorem faithful_iff_spared {actions : List Action} (run : Run Step start actions s) :
    Throughout Step Faithful start actions ↔ Run (Guarded Spared Step) start actions s := by
  apply @throughout_iff_of_invariant _ _ Step Inv Faithful Spared
  · exact fun _ _ _ _ taken taken' => Option.some.inj (taken.symm.trans taken')
  · exact inv_start
  · exact Inv.step
  · exact Inv.faithful
  · exact Inv.not_faithful
  · exact run

/-- The server closes the connection at once. -/
theorem faithful_iff_spared_closed :
    ∃ s actions, actions = [.clientInit ⟨some 1, none⟩ 3, .disconnect, .connect 4, .initReturn,
        .clientExit] ∧ s.calls = [1, 1] ∧ Run Step start actions s ∧
      Throughout Step Faithful start actions := by
  have done : [Action.clientInit ⟨some 1, none⟩ 3, .disconnect, .connect 4, .initReturn,
      .clientExit].foldlM (fun s a => if Spared s a then s.step a else none) start =
        some ⟨⟨4, false, some 1, none⟩, .outside, false, false, ⟨some 1, none⟩,
          [.established, .lost, .established, .lost], [1, 1]⟩ := by
    decide
  have guarded := guarded_of_foldlM done
  have run := guarded.mono fun taken => taken.2
  exact ⟨_, _, rfl, rfl, run, (faithful_iff_spared run).mpr guarded⟩

/-- `ClientInit` has connected the client and returned. -/
theorem not_faithful_clientInit : ¬∀ actions s, Run Step start actions s → Faithful s := by
  intro holds
  have run : ∃ s, Run Step start [.clientInit ⟨some 1, some 2⟩ 3, .initReturn] s ∧
      s.phase = .running ∧ s.established = true ∧ s.clientGetConnectionStatus = 0 := by
    exact ⟨_, .cons rfl (.cons rfl (.nil _)), rfl, rfl, rfl⟩
  obtain ⟨s, run, running, connected, status⟩ := run
  have reported := ((holds _ _ run).status (by simp [running])).mpr connected
  rw [status] at reported
  cases reported

end ClientSession

end AmlCommonlib.SocketIpcV2
