import AmlCommonlib.Lib.Endian
import AmlCommonlib.Lib.Runs

/-! # One client connection of the v2 server

`epollEventHandlerWorker` reads a header and a body with `readn` from a non-blocking socket and
keeps nothing between two wake-ups. The steps are the single `read` calls, so bytes may arrive
between any two of them. What `readn` has not filled is whatever the stack held.
-/

namespace AmlCommonlib.SocketIpcV2

/-- `MessageType`. -/
inductive MessageType where
  | undefined
  | businessData
  | register
  | heartbeat
deriving DecidableEq, Repr

def MessageType.code : MessageType → ℕ
  | .undefined => 0
  | .businessData => 1
  | .register => 2
  | .heartbeat => 3

/-- `MsgHeader`, the type as the number in its field. -/
structure MsgHeader where
  type : ℕ
  dataLength : ℤ
deriving DecidableEq, Repr

/-- `sizeof(MsgHeader)`. -/
def headerSize : ℕ := 8

/-- The header in memory. -/
def MsgHeader.toBytes (header : MsgHeader) : Bytes :=
  leBytes 4 header.type ++ leBytes 4 (toUnsigned 4 header.dataLength)

def MsgHeader.ofBytes (bytes : Bytes) : MsgHeader :=
  ⟨ofLe (bytes.take 4), toSigned 4 (ofLe (bytes.drop 4))⟩

structure Message where
  type : MessageType
  payload : Bytes
deriving DecidableEq, Repr

/-- What goes on the stream for a message. -/
def Message.frame (m : Message) : Bytes :=
  (MsgHeader.mk m.type.code m.payload.length).toBytes ++ m.payload

/-- `ClientWriteMsg2Server`: other types are refused. -/
def clientWriteMsg2Server (m : Message) : Option Bytes :=
  if m.type = .businessData ∨ m.type = .register then some m.frame else none

/-- Where the worker is with this connection. -/
inductive Worker where
  /-- In `epoll_wait`. -/
  | waiting
  /-- In the first `readn`. -/
  | header (got : Bytes)
  /-- In the second `readn`. -/
  | body (header : MsgHeader) (got : Bytes)
  | closed
deriving DecidableEq, Repr

structure Conn where
  /-- What the client has written. -/
  written : List Message
  /-- On the way. -/
  incoming : Bytes
  /-- In the socket. -/
  arrived : Bytes
  /-- The client's end of the stream has arrived. -/
  eof : Bool
  worker : Worker
  /-- The calls of `handleRegisterMessage` and `serverHandler`. -/
  dispatched : List Message
deriving DecidableEq, Repr

def Conn.start : Conn := ⟨[], [], [], false, .waiting, []⟩

inductive Action where
  | write (m : Message)
  | arrive (n : ℕ)
  | finish
  | wake
  /-- A `read` of up to `k` bytes; `stale` is what the target held before. -/
  | read (k : ℕ) (stale : ℕ → UInt8)

/-- A target of `size` bytes of which only `got` have been read. -/
def fill (size : ℕ) (got : Bytes) (stale : ℕ → UInt8) : Bytes :=
  got ++ window stale got.length (size - got.length)

/-- The dispatch at the end of the loop body. -/
def dispatch (header : MsgHeader) (businessData : Bytes) : List Message :=
  if header.type = MessageType.register.code then [⟨.register, businessData⟩]
  else if header.type = MessageType.businessData.code then [⟨.businessData, businessData⟩]
  else []

/-- After the first `readn` has returned `n`. A negative length has no array to read into, and a
`readn` of no bytes looks like a closed connection. -/
def headerDone (c : Conn) (n : ℤ) (bytes : Bytes) : Option Conn :=
  if n = 0 then some { c with worker := .closed }
  else
    let header := MsgHeader.ofBytes bytes
    if header.dataLength < 0 then none
    else if header.dataLength = 0 then some { c with worker := .closed }
    else some { c with worker := .body header [] }

/-- After the second `readn` has returned `n`. -/
def bodyDone (c : Conn) (header : MsgHeader) (n : ℤ) (bytes : Bytes) : Conn :=
  if n = 0 then { c with worker := .closed }
  else { c with worker := .waiting, dispatched := c.dispatched ++ dispatch header bytes }

/-- What `readn` returns when the socket is empty: its count at the end of the stream, else -1. -/
def emptyRead (c : Conn) (got : Bytes) : ℤ := if c.eof then got.length else -1

/-- One step of the client, the network or the worker. -/
def Conn.step (c : Conn) : Action → Option Conn
  | .write m =>
    if c.eof then none
    else (clientWriteMsg2Server m).map fun bytes =>
      { c with written := c.written ++ [m], incoming := c.incoming ++ bytes }
  | .arrive n =>
    some { c with arrived := c.arrived ++ c.incoming.take n, incoming := c.incoming.drop n }
  | .finish => if c.incoming = [] then some { c with eof := true } else none
  | .wake =>
    if c.worker = .waiting ∧ (c.arrived ≠ [] ∨ c.eof) then some { c with worker := .header [] }
    else none
  | .read k stale =>
    match c.worker with
    | .header got =>
      if c.arrived = [] then headerDone c (emptyRead c got) (fill headerSize got stale)
      else if 1 ≤ k ∧ k ≤ headerSize - got.length ∧ k ≤ c.arrived.length then
        let got := got ++ c.arrived.take k
        let c := { c with arrived := c.arrived.drop k }
        if got.length = headerSize then headerDone c headerSize got
        else some { c with worker := .header got }
      else none
    | .body header got =>
      let size := header.dataLength.toNat
      if c.arrived = [] then some (bodyDone c header (emptyRead c got) (fill size got stale))
      else if 1 ≤ k ∧ k ≤ size - got.length ∧ k ≤ c.arrived.length then
        let got := got ++ c.arrived.take k
        let c := { c with arrived := c.arrived.drop k }
        if got.length = size then some (bodyDone c header size got)
        else some { c with worker := .body header got }
      else none
    | _ => none

def ConnStep (c : Conn) (a : Action) (c' : Conn) : Prop := c.step a = some c'

end AmlCommonlib.SocketIpcV2
