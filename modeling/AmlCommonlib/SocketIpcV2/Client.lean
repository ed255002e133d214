import AmlCommonlib.Lib.Runs
import Mathlib.Algebra.Order.Field.Rat
import Mathlib.Logic.Function.Basic

/-! # The reconnecting client of v2

`serverMessageDispatchWorker` and `heartBeatDetector` of `socket_client.c` with the server's
heartbeats and failures. Times are in seconds. Every statement is a step; time may pass between any
two steps, as long as a server that is up sends each of its clients a heartbeat at least every 30
seconds. A section under a mutex that holds nothing else up is one step.
-/

namespace AmlCommonlib.SocketIpcV2

/-- A connection, as the client's end of it sees the server: when it was established or its last
heartbeat arrived, whether the server still serves it, the heartbeats in the socket, whether the end
of the stream has arrived and whether the client has read it. -/
structure Connection where
  heard : ℚ
  alive : Bool
  unread : ℕ
  ended : Bool
  eofRead : Bool
deriving DecidableEq

/-- Where a thread is in `handleClientReconnection`, with the connection it has given up: at the
locking of `reconnectionMutex`, in `handleClientDisconnection` or in `handleClientConnection`. -/
inductive Reconnection where
  | wants (conn : ℕ)
  | disconnecting (conn : ℕ)
  | connecting
deriving DecidableEq

/-- Where `serverMessageDispatchWorker` is: at the call of `readn`, in it on the socket it was called
with, or at the locking of `beatMutex` for a heartbeat. -/
inductive DispatchPc where
  | top
  | reading (conn : ℕ)
  | counting (conn : ℕ)
  | reconnecting (r : Reconnection)
deriving DecidableEq

/-- Where `heartBeatDetector` is: in `sleep` up to some time at least, or, with `beatMutex` taken, in a
reconnection. -/
inductive DetectorPc where
  | sleeping (wake : ℚ)
  | reconnecting (r : Reconnection)
deriving DecidableEq

/-- `ClientSocketData`, with its two threads and all connections so far. `cleared` is no datum of the
program: `beats` has been 0 since the connection was established. -/
structure Client where
  now : ℚ
  conns : ℕ → Connection
  opened : ℕ
  sockfd : ℕ
  beats : ℕ
  isConnected : Bool
  reconnectionMutex : Bool
  dispatch : DispatchPc
  detector : DetectorPc
  cleared : Bool

/-- What `handleClientDisconnection` closes: a connection on which the end of file has been read or
not, and which has not had a heartbeat for so long. -/
structure Teardown where
  eofRead : Bool
  quiet : ℚ
deriving DecidableEq

namespace Client

/-- Time goes by, a heartbeat arrives, the server fails or closes the connection and the client is told
or not, or a thread takes its next statement; `other` is a `readn` that fails or brings a message that
is no heartbeat. -/
inductive Action where
  | elapse (d : ℚ)
  | beat (conn : ℕ)
  | fail (conn : ℕ) (fin : Bool)
  | dispatch
  | other
  | detector
deriving DecidableEq

/-- A connection just made. -/
def fresh (now : ℚ) : Connection := ⟨now, true, 0, false, false⟩

/-- After `ClientInit`. -/
def start : Client :=
  ⟨0, fun c => if c = 0 then fresh 0 else ⟨0, false, 0, false, false⟩, 1, 0, 0, false, false, .top,
    .sleeping 0, true⟩

def setConn (s : Client) (c : ℕ) (f : Connection → Connection) : Client :=
  { s with conns := Function.update s.conns c (f (s.conns c)) }

/-- `beatMutex` is taken by the detector. -/
def beatMutex (s : Client) : Bool :=
  match s.detector with
  | .sleeping _ => false
  | .reconnecting _ => true

/-- The next statement of `handleClientReconnection`, with where it leads and what it closes.
`clientInitConnection` returns when the server accepts. -/
def reconnectStep (s : Client) : Reconnection → Option (Client × Option Reconnection × Option Teardown)
  | .wants c =>
    if s.reconnectionMutex then none
    else some ({ s with reconnectionMutex := true }, some (.disconnecting c), none)
  | .disconnecting _ =>
    some ({ s with isConnected := false }, some .connecting,
      some ⟨(s.conns s.sockfd).eofRead, s.now - (s.conns s.sockfd).heard⟩)
  | .connecting =>
    some ({ s with
      conns := Function.update s.conns s.opened (fresh s.now)
      opened := s.opened + 1
      sockfd := s.opened
      isConnected := true
      reconnectionMutex := false
      cleared := s.beats = 0 }, none, none)

/-- The next statement of `serverMessageDispatchWorker`. -/
def dispatchStep (s : Client) : Option (Client × Option Teardown) :=
  match s.dispatch with
  | .top => some ({ s with dispatch := .reading s.sockfd }, none)
  | .reading c =>
    if 0 < (s.conns c).unread then
      some ({ s with dispatch := .counting c }.setConn c
        (fun conn => { conn with unread := conn.unread - 1 }), none)
    else if (s.conns c).ended then
      some ({ s with dispatch := .reconnecting (.wants c) }.setConn c ({ · with eofRead := true }),
        none)
    else none
  | .counting _ =>
    if s.beatMutex then none else some ({ s with beats := 0, cleared := true, dispatch := .top }, none)
  | .reconnecting r =>
    (s.reconnectStep r).map fun (s, r, out) =>
      ({ s with dispatch := r.elim .top .reconnecting }, out)

/-- The next statement of `heartBeatDetector`. -/
def detectorStep (s : Client) : Option (Client × Option Teardown) :=
  match s.detector with
  | .sleeping wake =>
    if s.now < wake then none
    else if 30 < s.beats then some ({ s with detector := .reconnecting (.wants s.sockfd) }, none)
    else some ({ s with beats := s.beats + 10, detector := .sleeping (s.now + 10) }, none)
  | .reconnecting r =>
    (s.reconnectStep r).map fun (s, r, out) =>
      ({ s with detector := r.elim (.sleeping (s.now + 10)) .reconnecting }, out)

/-- One step, with the connection it closes. -/
def step (s : Client) : Action → Option (Client × Option Teardown)
  | .elapse d =>
    if 0 ≤ d ∧ ∀ c < s.opened, (s.conns c).alive → s.now + d ≤ (s.conns c).heard + 30 then
      some ({ s with now := s.now + d }, none)
    else none
  | .beat c =>
    if (s.conns c).alive then
      some (s.setConn c (fun conn => { conn with heard := s.now, unread := conn.unread + 1 }), none)
    else none
  | .fail c fin => some (s.setConn c (fun conn => { conn with alive := false, ended := conn.ended || fin }), none)
  | .dispatch => s.dispatchStep
  | .other =>
    match s.dispatch with
    | .reading _ => some ({ s with dispatch := .top }, none)
    | _ => none
  | .detector => s.detectorStep

def Step (s : Client) (l : Action × Option Teardown) (s' : Client) : Prop := s.step l.1 = some (s', l.2)

/-- The connections closed so far. -/
def teardowns (ls : List (Action × Option Teardown)) : List Teardown := ls.filterMap Prod.snd

/-- Only a connection that has ended, or that has been quiet for more than 30 seconds, is closed. -/
def KeepsHealthy (ls : List (Action × Option Teardown)) : Prop :=
  ∀ t ∈ teardowns ls, t.eofRead ∨ 30 < t.quiet

/-- A thread that reconnects finds the connection it has given up, and when the detector gives one
up the counter has counted on this connection only and no heartbeat of it is still to be counted. -/
def safe (s : Client) : Action → Bool
  | .dispatch =>
    match s.dispatch with
    | .reconnecting (.wants c) => c = s.sockfd
    | _ => true
  | .detector =>
    match s.detector with
    | .reconnecting (.wants c) => c = s.sockfd
    | .reconnecting _ => true
    | .sleeping _ =>
      30 < s.beats → s.cleared ∧ (s.conns s.sockfd).unread = 0 ∧ s.dispatch ≠ .counting s.sockfd
  | _ => true

@[simp] theorem teardowns_snoc {past : List (Action × Option Teardown)} {a : Action}
    {out : Option Teardown} : teardowns (past ++ [(a, out)]) = teardowns past ++ out.toList := by
  cases out <;> simp [teardowns]

end Client

end AmlCommonlib.SocketIpcV2
