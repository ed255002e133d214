import AmlCommonlib.SocketIpcV2.Framing

/-! # The client's end of a connection

`EnqueueServerMsg` and `messageSenderWorker` write frames, `serverMessageDispatchWorker` reads them
from a blocking socket. The steps are the single `read` calls; the stream ends anywhere.
-/

namespace AmlCommonlib.SocketIpcV2

/-- `EnqueueServerMsg`: the buffer that is put in the queue, if any. -/
def enqueueServerMsg (connected : Bool) (m : Message) : Option (Option Bytes) :=
  if connected then
    match m.type with
    | .undefined => some none
    | .businessData =>
      let header : MsgHeader := ⟨m.type.code, m.payload.length⟩
      -- a `totalSize` that is no `int` is more than `malloc` has
      if m.payload.length + headerSize < 2 ^ 31 then some (some (header.toBytes ++ m.payload)) else none
    | .heartbeat => some (some (MsgHeader.mk m.type.code 0).toBytes)
    -- the header is copied to a buffer of no bytes
    | .register => none
  else some none

/-- What `messageSenderWorker` writes to a client that is to have the message. -/
def sentBytes (pMsg : Bytes) : Bytes :=
  let extractedHeader := MsgHeader.ofBytes (pMsg.take headerSize)
  if extractedHeader.type = MessageType.businessData.code then
    pMsg.take (headerSize + extractedHeader.dataLength).toNat
  else if extractedHeader.type = MessageType.heartbeat.code then pMsg.take headerSize
  else []

/-- What `serverMessageDispatchWorker` does for a message. -/
inductive Event where
  | clientHandler (businessData : Bytes)
  /-- `beats = 0`. -/
  | resetBeats
deriving DecidableEq

/-- Where `serverMessageDispatchWorker` is. -/
inductive DispatchWorker where
  /-- In the first `readn`. -/
  | header (got : Bytes)
  /-- In the second `readn`. -/
  | body (header : MsgHeader) (got : Bytes)
  /-- In `handleClientReconnection`. -/
  | reconnecting
deriving DecidableEq

/-- A connection as the client reads it. -/
structure ClientStream where
  /-- What is to come up to the end of file. -/
  coming : Bytes
  worker : DispatchWorker
  events : List Event
deriving DecidableEq

namespace ClientStream

def start (coming : Bytes) : ClientStream := ⟨coming, .header [], []⟩

inductive Action where
  /-- A `read` of up to `k` bytes. -/
  | read (k : ℕ)
  /-- A `read` that fails with `EINTR`. -/
  | interrupted
deriving DecidableEq

/-- A `read` in a `readn` of `size` bytes that has `got` some: what it has then, what is still to
come, and whether it returns. -/
def readnStep (size k : ℕ) (got coming : Bytes) : Option (Bytes × Bytes × Bool) :=
  if coming = [] then some (got, [], true)
  else if 1 ≤ k ∧ k ≤ size - got.length ∧ k ≤ coming.length then
    some (got ++ coming.take k, coming.drop k, got.length + k = size)
  else none

/-- After the second `readn` has returned `n`. -/
def bodyDone (c : ClientStream) (header : MsgHeader) (n : ℕ) (businessData : Bytes) : ClientStream :=
  if (n : ℤ) ≠ header.dataLength then
    if n = 0 then { c with worker := .reconnecting } else { c with worker := .header [] }
  else { c with worker := .header [], events := c.events ++ [.clientHandler businessData] }

/-- After the first `readn` has returned `n`. A negative length has no array to read into, and a
`readn` of no bytes does not read. -/
def headerDone (c : ClientStream) (n : ℕ) (bytes : Bytes) : Option ClientStream :=
  if n ≠ headerSize then
    if n = 0 then some { c with worker := .reconnecting } else some { c with worker := .header [] }
  else
    let header := MsgHeader.ofBytes bytes
    if header.type = MessageType.businessData.code then
      if header.dataLength < 0 then none
      else if header.dataLength = 0 then some (bodyDone c header 0 [])
      else some { c with worker := .body header [] }
    else if header.type = MessageType.heartbeat.code then
      some { c with worker := .header [], events := c.events ++ [.resetBeats] }
    else some { c with worker := .header [] }

def step (c : ClientStream) : Action → Option ClientStream
  | .interrupted => if c.worker = .reconnecting then none else some c
  | .read k =>
    match c.worker with
    | .header got => do
      let (got, coming, returns) ← readnStep headerSize k got c.coming
      let c := { c with coming := coming }
      if returns then headerDone c got.length got else some { c with worker := .header got }
    | .body header got => do
      let (got, coming, returns) ← readnStep header.dataLength.toNat k got c.coming
      let c := { c with coming := coming }
      some (if returns then bodyDone c header got.length got else { c with worker := .body header got })
    | .reconnecting => none

def Step (c : ClientStream) (a : Action) (c' : ClientStream) : Prop := c.step a = some c'

end ClientStream

/-! ### Messages of the server -/

/-- The message of a frame: a heartbeat has no payload. -/
def Message.onWire (m : Message) : Message := if m.type = .heartbeat then ⟨.heartbeat, []⟩ else m

/-- What the client is to do for a message. -/
def Message.event (m : Message) : Event :=
  if m.type = .businessData then .clientHandler m.payload else .resetBeats

/-- The messages whose frames are in the first bytes of the stream. -/
def received : List Message → ℕ → List Message
  | [], _ => []
  | m :: rest, left =>
    if m.onWire.frame.length ≤ left then m :: received rest (left - m.onWire.frame.length) else []

/-- The messages that `EnqueueServerMsg` has a frame for. -/
structure Message.Wired (m : Message) : Prop where
  type : m.type = .businessData ∨ m.type = .heartbeat
  empty : m.type = .heartbeat → m.payload = []
  length : m.payload.length + headerSize < 2 ^ 31

theorem Message.length_frame (m : Message) : m.frame.length = headerSize + m.payload.length := by
  rw [frame, List.length_append, MsgHeader.length_toBytes]

theorem Message.Wired.onWire {m : Message} (wired : m.Wired) : m.onWire = m := by
  obtain ⟨type, payload⟩ := m
  rw [Message.onWire]
  split_ifs with heartbeat
  · have empty := wired.empty heartbeat
    dsimp only at empty heartbeat
    rw [empty, heartbeat]
  · rfl

theorem Message.Wired.ofBytes_header {m : Message} (wired : m.Wired) :
    MsgHeader.ofBytes m.header.toBytes = m.header := by
  have length := wired.length
  apply MsgHeader.ofBytes_toBytes
  · simp only [header]
    cases m.type <;> decide
  · simp only [header]
    omega
  · simp only [header, headerSize] at length ⊢
    omega

theorem Message.Wired.sentBytes_frame {m : Message} (wired : m.Wired) : sentBytes m.frame = m.frame := by
  have first : m.frame.take headerSize = m.header.toBytes :=
    List.take_left' (MsgHeader.length_toBytes _)
  have whole : m.frame.take (headerSize + m.payload.length) = m.frame :=
    List.take_of_length_le m.length_frame.le
  rw [sentBytes, first, wired.ofBytes_header]
  rcases wired.type with business | heartbeat
  · rw [if_pos (by simp [Message.header, business])]
    exact whole
  · rw [if_neg (by simp [Message.header, heartbeat, MessageType.code]),
      if_pos (by simp [Message.header, heartbeat])]
    rw [wired.empty heartbeat] at whole
    exact first.symm.trans whole

/-- Data whose frame an `int` can count, and every heartbeat, are put in the queue, and nothing
else is. -/
theorem enqueueServerMsg_queues_iff {m : Message} :
    (∃ buffer, enqueueServerMsg true m = some (some buffer)) ↔
      m.type = .businessData ∧ m.payload.length + headerSize < 2 ^ 31 ∨ m.type = .heartbeat := by
  obtain ⟨type, payload⟩ := m
  cases type <;> simp [enqueueServerMsg]

/-- What is queued is the frame of the message, and all of it is sent. -/
theorem sent_of_enqueueServerMsg {m : Message} {buffer : Bytes}
    (queued : enqueueServerMsg true m = some (some buffer)) :
    m.onWire.Wired ∧ sentBytes buffer = m.onWire.frame ∧ m.onWire.event = m.event := by
  obtain ⟨type, payload⟩ := m
  have wired : (Message.onWire ⟨type, payload⟩).Wired ∧ buffer = (Message.onWire ⟨type, payload⟩).frame := by
    cases type with
    | undefined | register => cases queued
    | businessData =>
      simp only [enqueueServerMsg, if_true, Option.ite_none_right_eq_some, Option.some.injEq] at queued
      obtain ⟨fits, rfl⟩ := queued
      exact ⟨⟨.inl rfl, by rintro ⟨⟩, fits⟩, rfl⟩
    | heartbeat =>
      simp only [enqueueServerMsg, if_true, Option.some.injEq] at queued
      subst queued
      exact ⟨⟨.inr rfl, fun _ => rfl, show 0 + headerSize < 2 ^ 31 by decide⟩, rfl⟩
  obtain ⟨wired, rfl⟩ := wired
  refine ⟨wired, wired.sentBytes_frame, ?_⟩
  cases type <;> rfl

/-! ### What is received of a stream -/

section Received

variable {m : Message} {later rest : List Message} {left : ℕ}

theorem received_cons_of_le (fits : m.onWire.frame.length ≤ left) :
    received (m :: later) left = m :: received later (left - m.onWire.frame.length) := if_pos fits

theorem received_cons_of_lt (short : left < m.onWire.frame.length) : received (m :: later) left = [] :=
  if_neg (Nat.not_le.mpr short)

/-- Without a whole header there is no message. -/
theorem received_of_lt (short : ((stream rest).take left).length < headerSize) :
    received rest left = [] := by
  cases rest with
  | nil => rfl
  | cons m later =>
    apply received_cons_of_lt
    have frame := m.onWire.length_frame
    rw [List.length_take, stream_cons, List.length_append, MsgHeader.length_toBytes] at short
    omega

theorem received_map_onWire {ms : List Message} :
    received (ms.map Message.onWire) left = (received ms left).map Message.onWire := by
  induction ms generalizing left with
  | nil => rfl
  | cons m rest ih =>
    have again : m.onWire.onWire = m.onWire := by
      simp only [Message.onWire]
      split_ifs <;> rfl
    rw [List.map_cons, received, received, again]
    split_ifs
    · rw [List.map_cons, ih]
    · rfl

theorem stream_cons_frame : stream (m :: later) = m.frame ++ stream later := by simp [stream]

theorem received_append {done : List Message} (wired : ∀ m ∈ done, m.Wired) :
    received (done ++ rest) ((stream done).length + left) = done ++ received rest left := by
  induction done with
  | nil => simp [stream]
  | cons m done ih =>
    have onWire := (wired m (List.mem_cons_self ..)).onWire
    have ih := ih fun m' member => wired m' (List.mem_cons_of_mem _ member)
    have fits : m.onWire.frame.length ≤ (stream (m :: done)).length + left := by
      rw [onWire, stream_cons_frame, List.length_append]
      omega
    have behind : (stream (m :: done)).length + left - m.onWire.frame.length =
        (stream done).length + left := by
      rw [onWire, stream_cons_frame, List.length_append]
      omega
    rw [List.cons_append, received_cons_of_le fits, behind, ih]
    rfl

/-- Only what the stream has counts. -/
theorem received_length_take (wired : ∀ m ∈ rest, m.Wired) :
    received rest ((stream rest).take left).length = received rest left := by
  induction rest generalizing left with
  | nil => rfl
  | cons m later ih =>
    have onWire := (wired m (List.mem_cons_self ..)).onWire
    rw [stream_cons_frame, List.length_take, List.length_append]
    rcases Nat.lt_or_ge left m.onWire.frame.length with short | fits
    · rw [received_cons_of_lt short, received_cons_of_lt (by omega)]
    · have behind : min left (m.frame.length + (stream later).length) - m.frame.length =
          ((stream later).take (left - m.frame.length)).length := by
        rw [List.length_take]
        omega
      have whole := @received_cons_of_le m later _ fits
      rw [onWire] at fits whole
      rw [whole, received_cons_of_le (by rw [onWire]; omega), onWire, behind,
        ih fun m' member => wired m' (List.mem_cons_of_mem _ member)]

/-- A part of the stream that is read as a whole. -/
theorem front_of_take {got coming front back : Bytes} (same : got ++ coming = (front ++ back).take left)
    (full : got.length = front.length) :
    got = front ∧ front.length ≤ left ∧ coming = back.take (left - front.length) := by
  have length := congrArg List.length same
  rw [List.length_append, List.length_take, List.length_append] at length
  have fits : front.length ≤ left := by omega
  rw [List.take_append, List.take_of_length_le fits] at same
  obtain ⟨front', rest⟩ := List.append_inj same full
  exact ⟨front', fits, rest⟩

end Received

namespace ClientStream

variable {size k : ℕ} {got coming got' coming' : Bytes} {returns : Bool}

/-! ### Reading -/

/-- The end of file, or some bytes more. -/
theorem readnStep_cases (short : got.length < size)
    (taken : readnStep size k got coming = some (got', coming', returns)) :
    coming = [] ∧ got' = got ∧ coming' = [] ∧ returns = true ∨
      got' ++ coming' = got ++ coming ∧ coming'.length < coming.length ∧ got'.length ≤ size ∧
        (returns = true ↔ got'.length = size) := by
  simp only [readnStep] at taken
  split_ifs at taken with empty bounds
  · cases taken
    exact .inl ⟨empty, rfl, rfl, rfl⟩
  · cases taken
    obtain ⟨one, room, present⟩ := bounds
    right
    have length : (got ++ coming.take k).length = got.length + k := length_read present
    refine ⟨?_, ?_, ?_, ?_⟩
    · rw [List.append_assoc, List.take_append_drop]
    · rw [List.length_drop]
      omega
    · omega
    · rw [decide_eq_true_iff, length]

/-- One byte can always be read, or the end of file. -/
theorem readnStep_one (short : got.length < size) :
    ∃ got' coming' returns, readnStep size 1 got coming = some (got', coming', returns) := by
  simp only [readnStep]
  split_ifs with empty bounds
  · exact ⟨_, _, _, rfl⟩
  · exact ⟨_, _, _, rfl⟩
  · have some' := List.length_pos_iff.mpr empty
    exact absurd ⟨Nat.le_refl _, by omega, by omega⟩ bounds

/-! ### The invariant -/

/-- What the worker has of the current frame and what is to come are the rest of the stream up to
its end, or there is nothing to come and no whole message was left. -/
def Placed (coming : Bytes) (rest : List Message) (left : ℕ) : DispatchWorker → Prop
  | .header got => got.length < headerSize ∧ got ++ coming = (stream rest).take left ∨
      got = [] ∧ coming = [] ∧ received rest left = []
  | .body header got => ∃ m later, rest = m :: later ∧ m.type = .businessData ∧ header = m.header ∧
      headerSize ≤ left ∧ got.length < m.payload.length ∧
      got ++ coming = (m.payload ++ stream later).take (left - headerSize)
  | .reconnecting => coming = [] ∧ received rest left = []

/-- The worker has handled `done` of the messages in the first `total` bytes, and `left` bytes behind
them are for the others. -/
structure Inv (ms : List Message) (total : ℕ) (c : ClientStream) (done rest : List Message) (left : ℕ) :
    Prop where
  split : ms = done ++ rest
  wired : ∀ m ∈ ms, m.Wired
  length : total = (stream done).length + left
  events : c.events = done.map Message.event
  placed : Placed c.coming rest left c.worker

/-- How many reads are left at most. -/
def remaining (c : ClientStream) : ℕ :=
  2 * c.coming.length + match c.worker with
    | .header [] => 1
    | .header _ | .body _ _ => 2
    | .reconnecting => 0

variable {ms done rest later : List Message} {total left : ℕ} {c c' : ClientStream} {m : Message}

theorem remaining_le : c.remaining ≤ 2 * c.coming.length + 2 := by
  simp only [remaining]
  split <;> omega

/-- A worker that has read something has less left. -/
theorem remaining_lt (fewer : c'.coming.length < c.coming.length)
    (reads : c.worker ≠ .reconnecting) : c'.remaining < c.remaining := by
  have most := @remaining_le c'
  have least : 2 * c.coming.length < c.remaining := by
    simp only [remaining]
    split
    · omega
    · omega
    · omega
    · contradiction
  omega

theorem length_stream_snoc : (stream (done ++ [m])).length = (stream done).length + m.frame.length := by
  simp [stream]

/-- The worker is done with a message and goes on to the next header. -/
theorem Inv.handled (inv : Inv ms total c done (m :: later) left) (fits : m.frame.length ≤ left)
    (same : coming = (stream later).take (left - m.frame.length)) :
    Inv ms total ⟨coming, .header [], c.events ++ [m.event]⟩ (done ++ [m]) later
      (left - m.frame.length) where
  split := by
    rw [inv.split, List.append_assoc]
    rfl
  wired := inv.wired
  length := by
    have length := inv.length
    rw [length_stream_snoc]
    omega
  events := by
    rw [List.map_append, ← inv.events]
    rfl
  placed := .inl ⟨by decide, same⟩

/-- What the worker does behind the header of a message. -/
theorem headerDone_wired (wired : m.Wired) (c : ClientStream) :
    headerDone c headerSize m.header.toBytes = some (
      if m.type = .businessData ∧ m.payload ≠ [] then { c with worker := .body m.header [] }
      else { c with worker := .header [], events := c.events ++ [m.event] }) := by
  have type : m.header.type = m.type.code := rfl
  have length : m.header.dataLength = m.payload.length := rfl
  simp only [headerDone, ne_eq, not_true_eq_false, if_false, wired.ofBytes_header, type, length]
  rcases wired.type with business | heartbeat
  · rw [if_pos (by rw [business]), if_neg (by omega)]
    cases empty : m.payload with
    | nil =>
      simp [bodyDone, length, empty, business, Message.event]
    | cons byte rest => simp [business]; omega
  · rw [if_neg (by simp [heartbeat, MessageType.code]), if_pos (by rw [heartbeat])]
    simp [heartbeat, Message.event]

/-- The stream has ended before the next message was there as a whole. -/
theorem Inv.ended (inv : Inv ms total c done rest left) (lost : received rest left = []) (n : ℕ) :
    Inv ms total { c with coming := [], worker := if n = 0 then .reconnecting else .header [] } done rest
      left := by
  refine ⟨inv.split, inv.wired, inv.length, inv.events, ?_⟩
  split_ifs
  · exact ⟨rfl, lost⟩
  · exact .inr ⟨rfl, rfl, lost⟩

/-- The next message is one of the server. -/
theorem Inv.wired_head (inv : Inv ms total c done (m :: later) left) : m.Wired := by
  apply inv.wired
  rw [inv.split]
  exact List.mem_append_right _ (List.mem_cons_self ..)

theorem Inv.read_header (inv : Inv ms total c done rest left) (here : c.worker = .header got)
    (taken : readnStep headerSize k got c.coming = some (got', coming', returns)) :
    ∃ c', Step c (.read k) c' ∧ (∃ done rest left, Inv ms total c' done rest left) ∧
      c'.remaining < c.remaining := by
  have placed := inv.placed
  rw [here] at placed
  have short : got.length < headerSize := by
    rcases placed with ⟨short, -⟩ | ⟨rfl, -⟩
    · exact short
    · decide
  rcases readnStep_cases short taken with ⟨empty, rfl, rfl, rfl⟩ | ⟨same, fewer, fits, full⟩
  · have lost : received rest left = [] := by
      rcases placed with ⟨-, placed⟩ | ⟨-, -, lost⟩
      · rw [empty, List.append_nil] at placed
        exact received_of_lt (placed ▸ short)
      · exact lost
    refine ⟨{ c with
      coming := []
      worker := if got'.length = 0 then .reconnecting else .header [] }, ?_,
      ⟨done, rest, left, inv.ended lost _⟩, ?_⟩
    · simp only [Step, step, here, taken, Option.bind_eq_bind, Option.bind_some, if_true, headerDone,
        if_pos short.ne]
      split_ifs <;> rfl
    · cases got' <;> simp [remaining, here, empty]
  · have placed := placed.resolve_right (by rintro ⟨-, empty, -⟩; simp [empty] at fewer)
    have placed : got' ++ coming' = (stream rest).take left := same.trans placed.2
    have less : ∀ worker events, (ClientStream.mk coming' worker events).remaining < c.remaining :=
      fun worker events => remaining_lt fewer (by simp [here])
    cases returns with
    | false =>
      refine ⟨⟨coming', .header got', c.events⟩, ?_,
        ⟨done, rest, left, inv.split, inv.wired, inv.length, inv.events, ?_⟩, less _ _⟩
      · simp [Step, step, here, taken]
      · exact .inl ⟨lt_of_le_of_ne fits (by simpa using full), placed⟩
    | true =>
      have full := full.mp rfl
      cases rest with
      | nil =>
        simp only [stream, List.map_nil, List.flatten_nil, List.take_nil, List.append_eq_nil_iff] at placed
        simp [placed.1, headerSize] at full
      | cons m later =>
        have wired := inv.wired_head
        rw [stream_cons] at placed
        obtain ⟨rfl, fits, comes⟩ := front_of_take placed (full.trans m.header.length_toBytes.symm)
        rw [m.header.length_toBytes] at fits comes
        have next := headerDone_wired wired { c with coming := coming' }
        split_ifs at next with hasBody
        · refine ⟨⟨coming', .body m.header [], c.events⟩, ?_,
            ⟨done, m :: later, left, inv.split, inv.wired, inv.length, inv.events, ?_⟩, less _ _⟩
          · simpa [Step, step, here, taken, full] using next
          · exact ⟨m, later, rfl, hasBody.1, rfl, fits, List.length_pos_iff.mpr hasBody.2, comes⟩
        · have empty : m.payload = [] := by
            rcases wired.type with business | heartbeat
            · by_contra some'
              exact hasBody ⟨business, some'⟩
            · exact wired.empty heartbeat
          have frame := m.length_frame
          rw [empty, List.length_nil, Nat.add_zero] at frame
          rw [empty, List.nil_append, ← frame] at comes
          refine ⟨_, ?_, ⟨_, later, _, inv.handled (frame ▸ fits) comes⟩, less _ _⟩
          simpa [Step, step, here, taken, full] using next

theorem Inv.read_body {header : MsgHeader} (inv : Inv ms total c done rest left)
    (here : c.worker = .body header got)
    (taken : readnStep header.dataLength.toNat k got c.coming = some (got', coming', returns)) :
    ∃ c', Step c (.read k) c' ∧ (∃ done rest left, Inv ms total c' done rest left) ∧
      c'.remaining < c.remaining := by
  have placed := inv.placed
  rw [here] at placed
  obtain ⟨m, later, rfl, business, rfl, started, short, placed⟩ := placed
  have wired := inv.wired_head
  have length : m.header.dataLength = m.payload.length := rfl
  have frame := m.length_frame
  rw [length, Int.toNat_natCast] at taken
  rcases readnStep_cases short taken with ⟨empty, rfl, rfl, rfl⟩ | ⟨same, fewer, fits, full⟩
  · have lost : received (m :: later) left = [] := by
      apply received_cons_of_lt
      have some' := congrArg List.length placed
      rw [empty, List.append_nil, List.length_take, List.length_append] at some'
      rw [wired.onWire]
      omega
    have part : (got'.length : ℤ) ≠ m.payload.length := by omega
    refine ⟨{ c with
      coming := []
      worker := if got'.length = 0 then .reconnecting else .header [] }, ?_,
      ⟨done, m :: later, left, inv.ended lost _⟩, ?_⟩
    · simp only [Step, step, here, length, Int.toNat_natCast, taken, Option.bind_eq_bind,
        Option.bind_some, if_true, bodyDone, if_pos part]
      split_ifs <;> rfl
    · cases got' <;> simp [remaining, here, empty]
  · have placed := same.trans placed
    have less : ∀ worker events, (ClientStream.mk coming' worker events).remaining < c.remaining :=
      fun worker events => remaining_lt fewer (by simp [here])
    cases returns with
    | false =>
      refine ⟨⟨coming', .body m.header got', c.events⟩, ?_,
        ⟨done, m :: later, left, inv.split, inv.wired, inv.length, inv.events, ?_⟩, less _ _⟩
      · simp [Step, step, here, length, taken]
      · exact ⟨m, later, rfl, business, rfl, started, lt_of_le_of_ne fits (by simpa using full), placed⟩
    | true =>
      obtain ⟨rfl, fits, comes⟩ := front_of_take placed (full.mp rfl)
      rw [Nat.sub_sub, ← frame] at comes
      refine ⟨_, ?_, ⟨_, later, _, inv.handled (by omega) comes⟩, less _ _⟩
      simp [Step, step, here, length, taken, bodyDone, Message.event, business]

/-- What has been read as a whole has been handled. -/
theorem Inv.handled_eq (inv : Inv ms total c done rest left) :
    done = received ms (((stream ms).take total).length - c.coming.length) := by
  have split := inv.split
  subst split
  have sent : ((stream (done ++ rest)).take total).length =
      (stream done).length + ((stream rest).take left).length := by
    have joined : stream (done ++ rest) = stream done ++ stream rest := by simp [stream]
    rw [inv.length, joined, List.take_length_add_append, List.length_append]
  have wiredDone : ∀ m ∈ done, m.Wired := fun m member => inv.wired m (List.mem_append_left _ member)
  have wiredRest : ∀ m ∈ rest, m.Wired := fun m member => inv.wired m (List.mem_append_right _ member)
  have nothing : ∀ n, ((stream rest).take left).length = n + c.coming.length → received rest n = [] →
      done = received (done ++ rest) (((stream (done ++ rest)).take total).length - c.coming.length) := by
    intro n length lost
    have count : ((stream (done ++ rest)).take total).length - c.coming.length =
        (stream done).length + n := by omega
    rw [count, received_append wiredDone, lost, List.append_nil]
  have placed := inv.placed
  cases here : c.worker with
  | header got =>
    rw [here] at placed
    rcases placed with ⟨short, placed⟩ | ⟨-, empty, lost⟩
    · apply nothing got.length
      · rw [← placed, List.length_append]
      · exact received_of_lt ((List.length_take_le ..).trans_lt short)
    · apply nothing _ (by rw [empty]; rfl)
      rw [received_length_take wiredRest, lost]
  | body header got =>
    rw [here] at placed
    obtain ⟨m, later, rfl, -, -, started, short, placed⟩ := placed
    apply nothing (headerSize + got.length)
    · have length := congrArg List.length placed
      rw [List.length_append, List.length_take, List.length_append] at length
      rw [List.length_take, stream_cons, List.length_append, List.length_append,
        MsgHeader.length_toBytes]
      omega
    · apply received_cons_of_lt
      rw [inv.wired_head.onWire, m.length_frame]
      omega
  | reconnecting =>
    rw [here] at placed
    obtain ⟨empty, lost⟩ := placed
    apply nothing _ (by rw [empty]; rfl)
    rw [received_length_take wiredRest, lost]

/-! ### Runs -/

/-- The reads of a run. -/
def reads (actions : List Action) : ℕ := (actions.filter (· ≠ .interrupted)).length

theorem Inv.step {a : Action} (inv : Inv ms total c done rest left) (taken : Step c a c') :
    (∃ done rest left, Inv ms total c' done rest left) ∧ reads [a] + c'.remaining ≤ c.remaining := by
  cases a with
  | interrupted =>
    simp only [Step, ClientStream.step] at taken
    split_ifs at taken
    cases taken
    exact ⟨⟨done, rest, left, inv⟩, by simp [reads]⟩
  | read k =>
    have functional : ∀ {c''}, Step c (.read k) c'' → c'' = c' :=
      fun taken' => Option.some.inj (taken'.symm.trans taken)
    have kept : ∃ c'', Step c (.read k) c'' ∧ (∃ done rest left, Inv ms total c'' done rest left) ∧
        c''.remaining < c.remaining := by
      cases here : c.worker with
      | header got =>
        simp only [Step, ClientStream.step, here, Option.bind_eq_bind, Option.bind_eq_some_iff,
          Prod.exists] at taken
        obtain ⟨got', coming', returns, read, -⟩ := taken
        exact inv.read_header here read
      | body header got =>
        simp only [Step, ClientStream.step, here, Option.bind_eq_bind, Option.bind_eq_some_iff,
          Prod.exists] at taken
        obtain ⟨got', coming', returns, read, -⟩ := taken
        exact inv.read_body here read
      | reconnecting =>
        simp only [Step, ClientStream.step, here] at taken
        cases taken
    obtain ⟨c'', taken', kept, less⟩ := kept
    obtain rfl := functional taken'
    exact ⟨kept, by simp [reads]; omega⟩

/-- The worker never gets stuck. -/
theorem Inv.reads_one (inv : Inv ms total c done rest left) (reads : c.worker ≠ .reconnecting) :
    ∃ c', Step c (.read 1) c' := by
  have placed := inv.placed
  cases here : c.worker with
  | header got =>
    rw [here] at placed
    have short : got.length < headerSize := by
      rcases placed with ⟨short, -⟩ | ⟨rfl, -⟩
      · exact short
      · decide
    obtain ⟨got', coming', returns, read⟩ := @readnStep_one _ _ c.coming short
    obtain ⟨c', taken, -⟩ := inv.read_header here read
    exact ⟨c', taken⟩
  | body header got =>
    rw [here] at placed
    obtain ⟨m, later, -, -, rfl, -, short, -⟩ := placed
    obtain ⟨got', coming', returns, read⟩ := @readnStep_one m.header.dataLength.toNat _ c.coming short
    obtain ⟨c', taken, -⟩ := inv.read_body here read
    exact ⟨c', taken⟩
  | reconnecting => contradiction

/-- What the server sends for the messages. -/
theorem wire_of_queued {buffers : List Bytes}
    (queued : List.Forall₂ (fun m buffer => enqueueServerMsg true m = some (some buffer)) ms buffers) :
    (buffers.map sentBytes).flatten = stream (ms.map Message.onWire) ∧
      (∀ m ∈ ms.map Message.onWire, m.Wired) ∧
      ∀ n, (received (ms.map Message.onWire) n).map Message.event = (received ms n).map Message.event := by
  refine ⟨?_, ?_, ?_⟩
  · induction queued with
    | nil => rfl
    | cons first _ ih =>
      rw [List.map_cons, List.map_cons, List.flatten_cons, ih, (sent_of_enqueueServerMsg first).2.1,
        stream_cons_frame]
  · induction queued with
    | nil => simp
    | cons first _ ih =>
      rintro m member
      rcases List.mem_cons.mp member with rfl | member
      · exact (sent_of_enqueueServerMsg first).1
      · exact ih m member
  · intro n
    rw [received_map_onWire, List.map_map]
    induction queued generalizing n with
    | nil => rfl
    | cons first _ ih =>
      rw [received]
      split_ifs
      · rw [List.map_cons, List.map_cons, ih]
        exact congrArg (· :: _) (sent_of_enqueueServerMsg first).2.2
      · rfl

/-- There are buffers for any sequence of such messages. -/
theorem exists_queued {ms : List Message} (sendable : ∀ m ∈ ms,
    m.type = .businessData ∧ m.payload.length + headerSize < 2 ^ 31 ∨ m.type = .heartbeat) :
    ∃ buffers, List.Forall₂ (fun m buffer => enqueueServerMsg true m = some (some buffer)) ms
      buffers := by
  induction ms with
  | nil => exact ⟨[], .nil⟩
  | cons m ms ih =>
    obtain ⟨first, rest⟩ := List.forall_mem_cons.mp sendable
    obtain ⟨buffer, queued⟩ := enqueueServerMsg_queues_iff.mpr first
    obtain ⟨buffers, others⟩ := ih rest
    exact ⟨buffer :: buffers, .cons queued others⟩

/-- However the stream is cut and wherever it ends, the worker has at any time handled exactly the
messages that it has read as a whole; it reads on until the end of file, which it comes to, and has
then handled all messages that are there as a whole. -/
theorem handles_received {ms : List Message} {buffers : List Bytes} {cut : ℕ} {actions : List Action}
    (queued : List.Forall₂ (fun m buffer => enqueueServerMsg true m = some (some buffer)) ms buffers)
    (run : Run Step (start ((buffers.map sentBytes).flatten.take cut)) actions c) :
    c.events = (received ms (((buffers.map sentBytes).flatten.take cut).length - c.coming.length)).map
      Message.event ∧
    (c.worker = .reconnecting → c.events = (received ms cut).map Message.event) ∧
    (c.worker ≠ .reconnecting → ∃ c', Step c (.read 1) c') ∧
    reads actions ≤ 2 * cut + 1 := by
  obtain ⟨sent, wired, events⟩ := wire_of_queued queued
  rw [sent] at run ⊢
  have kept : (∃ done rest left, Inv (ms.map Message.onWire) cut c done rest left) ∧
      reads actions + c.remaining ≤ 2 * cut + 1 := by
    refine run.preserves_history (fun past c =>
      (∃ done rest left, Inv (ms.map Message.onWire) cut c done rest left) ∧
        reads past + c.remaining ≤ 2 * cut + 1) ?_ ⟨⟨[], _, cut, rfl, wired, ?_, rfl, ?_⟩, ?_⟩
    · rintro past c a c' ⟨⟨done, rest, left, inv⟩, most⟩ taken
      obtain ⟨kept, less⟩ := inv.step taken
      refine ⟨kept, ?_⟩
      simp only [reads, List.filter_append, List.length_append] at most less ⊢
      omega
    · simp [stream]
    · exact .inl ⟨by decide, rfl⟩
    · simp [reads, remaining, start]
  obtain ⟨⟨done, rest, left, inv⟩, most⟩ := kept
  refine ⟨?_, ?_, inv.reads_one, by omega⟩
  · rw [← events, ← inv.handled_eq]
    exact inv.events
  · intro ended
    have placed := inv.placed
    rw [ended] at placed
    have done' := inv.handled_eq
    rw [placed.1, List.length_nil, Nat.sub_zero, received_length_take wired] at done'
    rw [← events, ← done']
    exact inv.events

/-- A message, a heartbeat and a message without payload of which all but a byte is there, read in
pieces up to the end of file. -/
theorem handles_received_cut : ∃ c : ClientStream,
    Run Step (start (([[1, 0, 0, 0, 2, 0, 0, 0, 104, 105], [3, 0, 0, 0, 0, 0, 0, 0],
        [1, 0, 0, 0, 0, 0, 0, 0]].map sentBytes).flatten.take 25))
      [.read 5, .interrupted, .read 3, .read 1, .read 1, .read 8, .read 7, .read 1, .read 1] c ∧
      c.events = [.clientHandler [104, 105], .resetBeats] ∧
      c.events = (received [⟨.businessData, [104, 105]⟩, ⟨.heartbeat, []⟩, ⟨.businessData, []⟩] 25).map
        Message.event := by
  have queued : List.Forall₂ (fun m buffer => enqueueServerMsg true m = some (some buffer))
      [⟨.businessData, [104, 105]⟩, ⟨.heartbeat, []⟩, ⟨.businessData, []⟩]
      [[1, 0, 0, 0, 2, 0, 0, 0, 104, 105], [3, 0, 0, 0, 0, 0, 0, 0], [1, 0, 0, 0, 0, 0, 0, 0]] := by
    refine .cons ?_ (.cons ?_ (.cons ?_ .nil)) <;> decide +kernel
  have done : [Action.read 5, .interrupted, .read 3, .read 1, .read 1, .read 8, .read 7, .read 1,
      .read 1].foldlM step (start (([[1, 0, 0, 0, 2, 0, 0, 0, 104, 105], [3, 0, 0, 0, 0, 0, 0, 0],
        [1, 0, 0, 0, 0, 0, 0, 0]].map sentBytes).flatten.take 25)) =
      some ⟨[], .reconnecting, [.clientHandler [104, 105], .resetBeats]⟩ := by
    decide +kernel
  exact ⟨_, run_of_foldlM done, rfl, (handles_received queued (run_of_foldlM done)).2.1 rfl⟩

end ClientStream

end AmlCommonlib.SocketIpcV2
