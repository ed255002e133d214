import AmlCommonlib.SocketIpcV2.Server

/-! # Framing over a byte stream

In runs in which no `read` inside a frame finds the socket empty, the worker stays aligned with the
frames of the writer, however the stream is cut and whenever its pieces arrive. A single empty read
inside a frame ends `readn` with -1, and the worker goes on with what the stack held.
-/

namespace AmlCommonlib.SocketIpcV2

/-- The frames of a sequence of messages. -/
def stream (ms : List Message) : Bytes := (ms.map Message.frame).flatten

/-- A message the client may send: a type it accepts, and a payload that is not empty and that an
`int` can count together with the header. -/
structure Message.Proper (m : Message) : Prop where
  type : m.type = .businessData ∨ m.type = .register
  nonempty : 1 ≤ m.payload.length
  length : m.payload.length + headerSize < 2 ^ 31

/-- The condition on a step, in the state before it. -/
def SafeStep (c : Conn) : Action → Prop
  | .write m => 1 ≤ m.payload.length ∧ m.payload.length + headerSize < 2 ^ 31
  -- no `read` inside a frame finds the socket empty
  | .read _ _ => c.arrived = [] → c.worker = .header []
  | _ => True

instance (c : Conn) (a : Action) : Decidable (SafeStep c a) := by
  cases a <;> unfold SafeStep <;> infer_instance

/-! ### Frames -/

def Message.header (m : Message) : MsgHeader := ⟨m.type.code, m.payload.length⟩

theorem MsgHeader.length_toBytes (header : MsgHeader) : header.toBytes.length = headerSize := by
  simp [toBytes, headerSize]

theorem MsgHeader.ofBytes_toBytes {header : MsgHeader} (type : header.type < 256 ^ 4)
    (low : -2 ^ 31 ≤ header.dataLength) (high : header.dataLength < 2 ^ 31) :
    ofBytes header.toBytes = header := by
  have first : header.toBytes.take 4 = leBytes 4 header.type := List.take_left' (by simp)
  have second : header.toBytes.drop 4 = leBytes 4 (toUnsigned 4 header.dataLength) :=
    List.drop_left' (by simp)
  rw [ofBytes, first, second, ofLe_leBytes_of_lt type, ofLe_leBytes_of_lt (toUnsigned_lt 4 _),
    toSigned_toUnsigned (by omega) (by omega)]

theorem Message.Proper.ofBytes_header {m : Message} (proper : m.Proper) :
    MsgHeader.ofBytes m.header.toBytes = m.header := by
  have length := proper.length
  apply MsgHeader.ofBytes_toBytes
  · simp only [header]
    cases m.type <;> decide
  · simp only [header]
    omega
  · simp only [header, headerSize] at length ⊢
    omega

theorem Message.Proper.dispatch_header {m : Message} (proper : m.Proper) :
    dispatch m.header m.payload = [m] := by
  obtain ⟨type, payload⟩ := m
  rcases proper.type with rfl | rfl <;> rfl

theorem stream_cons (m : Message) (rest : List Message) :
    stream (m :: rest) = m.header.toBytes ++ (m.payload ++ stream rest) := by
  simp [stream, Message.frame, Message.header]

theorem stream_eq_nil_iff {ms : List Message} : stream ms = [] ↔ ms = [] := by
  cases ms with
  | nil => simp [stream]
  | cons m rest =>
    have header := m.header.length_toBytes
    rw [stream_cons]
    constructor
    · intro nothing
      simp only [List.append_eq_nil_iff] at nothing
      simp [nothing.1, headerSize] at header
    · simp

/-! ### The invariant -/

/-- What the worker has read of the current frame and the bytes still to come are the frames of the
messages not yet dispatched. -/
def Aligned (coming : Bytes) (rest : List Message) : Worker → Prop
  | .waiting | .closed => coming = stream rest
  | .header got => got ++ coming = stream rest ∧ got.length < headerSize
  | .body header got => ∃ m later, rest = m :: later ∧ header = m.header ∧
      got ++ coming = m.payload ++ stream later ∧ got.length < m.payload.length

structure Inv (c : Conn) (rest : List Message) : Prop where
  split : c.written = c.dispatched ++ rest
  proper : ∀ m ∈ rest, m.Proper
  ended : c.eof = true → c.incoming = []
  /-- A header is begun only when there is something to read, or the end. -/
  begun : c.worker = .header [] → c.arrived ≠ [] ∨ c.eof = true
  /-- The worker gives up the connection at its end only. -/
  closed : c.worker = .closed → c.arrived = [] ∧ c.eof = true
  aligned : Aligned (c.arrived ++ c.incoming) rest c.worker

/-- Appending a frame to a stream that is being read. -/
theorem Aligned.append {coming : Bytes} {rest : List Message} {worker : Worker}
    (aligned : Aligned coming rest worker) (more : List Message) :
    Aligned (coming ++ stream more) (rest ++ more) worker := by
  have joined : stream (rest ++ more) = stream rest ++ stream more := by simp [stream]
  cases worker with
  | waiting => simpa [Aligned, joined] using aligned
  | closed => simpa [Aligned, joined] using aligned
  | header got =>
    obtain ⟨same, short⟩ := aligned
    exact ⟨by rw [← List.append_assoc, same, joined], short⟩
  | body header got =>
    obtain ⟨m, later, rfl, found, same, short⟩ := aligned
    refine ⟨m, later ++ more, rfl, found, ?_, short⟩
    rw [← List.append_assoc, same, List.append_assoc]
    simp [stream]

/-- Eight bytes at the start of a frame are its header. -/
theorem header_of_stream {got coming : Bytes} {rest : List Message}
    (same : got ++ coming = stream rest) (full : got.length = headerSize) :
    ∃ m later, rest = m :: later ∧ got = m.header.toBytes ∧ coming = m.payload ++ stream later := by
  cases rest with
  | nil =>
    have nothing := stream_eq_nil_iff.mpr (rfl : ([] : List Message) = [])
    rw [nothing, List.append_eq_nil_iff] at same
    simp [same.1, headerSize] at full
  | cons m later =>
    rw [stream_cons] at same
    obtain ⟨header, body⟩ := List.append_inj same (full.trans m.header.length_toBytes.symm)
    exact ⟨m, later, rfl, header, body⟩

/-- The worker goes from a header of the stream to its body. -/
theorem headerDone_proper {m : Message} (proper : m.Proper) (c : Conn) :
    headerDone c headerSize m.header.toBytes = some { c with worker := .body m.header [] } := by
  have some' : ¬m.header.dataLength < 0 ∧ m.header.dataLength ≠ 0 := by
    have nonempty := proper.nonempty
    simp only [Message.header]
    omega
  simp [headerDone, proper.ofBytes_header, some', headerSize]

/-- The worker dispatches a body of the stream. -/
theorem bodyDone_proper {m : Message} (proper : m.Proper) (c : Conn) :
    bodyDone c m.header m.payload.length m.payload =
      { c with worker := .waiting, dispatched := c.dispatched ++ [m] } := by
  have some' : (m.payload.length : ℤ) ≠ 0 := by
    have nonempty := proper.nonempty
    omega
  rw [bodyDone, if_neg some', proper.dispatch_header]

/-- A read moves bytes from what has arrived to what the worker has. -/
theorem append_read {got arrived incoming whole : Bytes} (k : ℕ)
    (same : got ++ (arrived ++ incoming) = whole) :
    (got ++ arrived.take k) ++ (arrived.drop k ++ incoming) = whole := by
  rw [← same, List.append_assoc, ← List.append_assoc (arrived.take k), List.take_append_drop]

theorem length_read {got arrived : Bytes} {k : ℕ} (present : k ≤ arrived.length) :
    (got ++ arrived.take k).length = got.length + k := by
  rw [List.length_append, List.length_take, min_eq_left present]

theorem Inv.step_read {c c' : Conn} {rest : List Message} {k : ℕ} {stale : ℕ → UInt8}
    (inv : Inv c rest) (safe : SafeStep c (.read k stale)) (step : ConnStep c (.read k stale) c') :
    ∃ rest', Inv c' rest' := by
  obtain ⟨written, incoming, arrived, eof, worker, dispatched⟩ := c
  have aligned := inv.aligned
  simp only [ConnStep, Conn.step] at step
  simp only [SafeStep] at safe
  cases worker with
  | waiting => contradiction
  | closed => contradiction
  | header got =>
    dsimp only at step aligned
    obtain ⟨same, short⟩ := aligned
    split_ifs at step with empty bounds full
    · obtain rfl : got = [] := by simpa using safe empty
      have ended : eof = true := (inv.begun rfl).resolve_left (by simpa using empty)
      have done : incoming = [] := inv.ended ended
      simp only [emptyRead, ended, headerDone, if_true, List.length_nil, Nat.cast_zero] at step
      cases step
      refine ⟨rest, inv.split, inv.proper, fun _ => done, by simp, fun _ => ⟨empty, rfl⟩, ?_⟩
      simpa [Aligned] using same
    · obtain ⟨m, later, rfl, header, coming⟩ := header_of_stream (append_read k same) full
      rw [header, headerDone_proper (inv.proper m (List.mem_cons_self ..))] at step
      cases step
      refine ⟨m :: later, inv.split, inv.proper, inv.ended, by simp, by simp, m, later, rfl, rfl,
        coming, ?_⟩
      exact (inv.proper m (List.mem_cons_self ..)).nonempty
    · cases step
      have moved := append_read k same
      have length := @length_read got arrived k bounds.2.2
      refine ⟨rest, inv.split, inv.proper, inv.ended, ?_, by simp, moved, by omega⟩
      intro begun
      have nothing : got ++ arrived.take k = [] := by simpa using begun
      rw [nothing] at length
      simp at length
      omega
  | body header got =>
    dsimp only at step aligned
    obtain ⟨m, later, rfl, rfl, same, short⟩ := aligned
    have proper := inv.proper m (List.mem_cons_self ..)
    have size : m.header.dataLength.toNat = m.payload.length := by simp [Message.header]
    rw [size] at step
    split_ifs at step with empty bounds full
    · exact absurd (safe empty) (by simp)
    · obtain ⟨payload, coming⟩ := List.append_inj (append_read k same) full
      rw [payload, bodyDone_proper proper] at step
      cases step
      refine ⟨later, ?_, fun m' member => inv.proper m' (List.mem_cons_of_mem _ member), inv.ended,
        by simp, by simp, coming⟩
      have split := inv.split
      simpa using split
    · cases step
      have moved := append_read k same
      have length := @length_read got arrived k bounds.2.2
      refine ⟨m :: later, inv.split, inv.proper, inv.ended, by simp, by simp, m, later, rfl, rfl,
        moved, by omega⟩

theorem Inv.step {c c' : Conn} {rest : List Message} {a : Action} (inv : Inv c rest)
    (safe : SafeStep c a) (step : ConnStep c a c') : ∃ rest', Inv c' rest' := by
  cases a with
  | read k stale => exact inv.step_read safe step
  | write m =>
    simp only [ConnStep, Conn.step, clientWriteMsg2Server] at step
    split_ifs at step with ended sendable
    · cases step
      have more := inv.aligned.append [m]
      have one : stream [m] = m.frame := by simp [stream]
      refine ⟨rest ++ [m], ?_, ?_, fun eof => absurd eof ended, inv.begun, inv.closed, ?_⟩
      · simp [inv.split]
      · intro m' member
        rcases List.mem_append.mp member with old | new
        · exact inv.proper m' old
        · obtain rfl := List.mem_singleton.mp new
          exact ⟨sendable, safe.1, safe.2⟩
      · rw [one, List.append_assoc] at more
        exact more
    · contradiction
  | arrive n =>
    simp only [ConnStep, Conn.step] at step
    cases step
    refine ⟨rest, inv.split, inv.proper, fun eof => by simp [inv.ended eof], ?_,
      ?_, ?_⟩
    · intro begun
      exact (inv.begun begun).imp_left fun some' => by simp [some']
    · intro closed
      obtain ⟨empty, eof⟩ := inv.closed closed
      exact ⟨by simp [empty, inv.ended eof], eof⟩
    · rw [List.append_assoc, List.take_append_drop]
      exact inv.aligned
  | finish =>
    simp only [ConnStep, Conn.step] at step
    split_ifs at step with none'
    cases step
    exact ⟨rest, inv.split, inv.proper, fun _ => none', fun _ => .inr rfl,
      fun closed => ⟨(inv.closed closed).1, rfl⟩, inv.aligned⟩
  | wake =>
    simp only [ConnStep, Conn.step] at step
    split_ifs at step with ready
    cases step
    have aligned := inv.aligned
    rw [ready.1] at aligned
    exact ⟨rest, inv.split, inv.proper, inv.ended, fun _ => ready.2, by simp, aligned, by decide⟩

theorem inv_of_run {c : Conn} {ls : List Action}
    (run : Run (Guarded SafeStep ConnStep) Conn.start ls c) : ∃ rest, Inv c rest := by
  have start : ∃ rest, Inv Conn.start rest :=
    ⟨[], rfl, by simp, by simp [Conn.start], by simp [Conn.start], by simp [Conn.start], rfl⟩
  have kept : ∀ {c : Conn} {a : Action} {c' : Conn}, (∃ rest, Inv c rest) →
      Guarded SafeStep ConnStep c a c' → ∃ rest, Inv c' rest := by
    rintro c a c' ⟨rest, inv⟩ ⟨safe, step⟩
    exact inv.step safe step
  exact @Run.preserves _ _ _ (fun c => ∃ rest, Inv c rest) kept _ _ _ run start

/-! ### Everything that has arrived is dispatched -/

/-- The steps of the worker. -/
def Action.isWorker : Action → Bool
  | .wake | .read _ _ => true
  | _ => false

/-- A run of the worker alone that dispatches exactly `ms`. -/
def WorksOff (c : Conn) (ms : List Message) : Prop :=
  ∃ ls t, Run (Guarded SafeStep ConnStep) c ls t ∧ (∀ a ∈ ls, a.isWorker = true) ∧
    t.dispatched = c.dispatched ++ ms

theorem WorksOff.step {c mid : Conn} {a : Action} {later : List Message} (first : List Message)
    (safe : SafeStep c a) (step : ConnStep c a mid) (worker : a.isWorker = true)
    (dispatched : mid.dispatched = c.dispatched ++ first) (rest : WorksOff mid later) :
    WorksOff c (first ++ later) := by
  obtain ⟨ls, t, run, labels, done⟩ := rest
  refine ⟨a :: ls, t, .cons ⟨safe, step⟩ run, ?_, by rw [done, dispatched, List.append_assoc]⟩
  simpa [worker] using labels

/-- What is left of a body is read in one piece. -/
theorem worksOff_body {c : Conn} {got : Bytes} {m : Message} {later : List Message}
    (proper : m.Proper) (worker : c.worker = .body m.header got)
    (same : got ++ c.arrived = m.payload ++ stream later) (short : got.length < m.payload.length)
    (rest : ∀ c', c'.worker = .waiting → c'.arrived = stream later → c'.incoming = c.incoming →
      WorksOff c' later) : WorksOff c (m :: later) := by
  have length := congrArg List.length same
  simp only [List.length_append] at length
  have some' : c.arrived ≠ [] := by
    intro nothing
    simp only [nothing, List.length_nil] at length
    omega
  have size : m.header.dataLength.toNat = m.payload.length := by simp [Message.header]
  have left : m.payload.length - got.length ≤ c.arrived.length := by omega
  have moved : (got ++ c.arrived.take (m.payload.length - got.length)) ++
      c.arrived.drop (m.payload.length - got.length) = m.payload ++ stream later := by
    rw [List.append_assoc, List.take_append_drop, same]
  have full : (got ++ c.arrived.take (m.payload.length - got.length)).length =
      m.payload.length := by
    simp only [List.length_append, List.length_take, Nat.min_eq_left left]
    omega
  obtain ⟨payload, behind⟩ := List.append_inj moved full
  have step : ConnStep c (.read (m.payload.length - got.length) fun _ => 0)
      { c with
        arrived := stream later
        worker := .waiting
        dispatched := c.dispatched ++ [m] } := by
    have bounds : 1 ≤ m.payload.length - got.length ∧
        m.payload.length - got.length ≤ m.payload.length - got.length ∧
        m.payload.length - got.length ≤ c.arrived.length := ⟨by omega, le_rfl, left⟩
    simp only [ConnStep, Conn.step, worker, size, some', if_false, if_pos bounds, payload, behind,
      if_true, bodyDone_proper proper]
  have safe : SafeStep c (.read (m.payload.length - got.length) fun _ => 0) :=
    fun empty => absurd empty some'
  exact .step [m] safe step rfl rfl (rest _ rfl rfl rfl)

/-- What is left of a header is read in one piece. -/
theorem worksOff_header {c : Conn} {got : Bytes} {m : Message} {later : List Message}
    (proper : m.Proper) (worker : c.worker = .header got)
    (same : got ++ c.arrived = stream (m :: later)) (short : got.length < headerSize)
    (rest : ∀ c', c'.worker = .body m.header [] → c'.arrived = m.payload ++ stream later →
      c'.incoming = c.incoming → WorksOff c' (m :: later)) : WorksOff c (m :: later) := by
  have length := congrArg List.length same
  rw [stream_cons] at length
  simp only [List.length_append, MsgHeader.length_toBytes] at length
  have some' : c.arrived ≠ [] := by
    intro nothing
    simp only [nothing, List.length_nil] at length
    omega
  have left : headerSize - got.length ≤ c.arrived.length := by omega
  have moved : (got ++ c.arrived.take (headerSize - got.length)) ++
      c.arrived.drop (headerSize - got.length) = stream (m :: later) := by
    rw [List.append_assoc, List.take_append_drop, same]
  have full : (got ++ c.arrived.take (headerSize - got.length)).length = headerSize := by
    simp only [List.length_append, List.length_take, Nat.min_eq_left left]
    omega
  obtain ⟨m', later', listed, header, behind⟩ := header_of_stream moved full
  obtain ⟨rfl, rfl⟩ := List.cons.inj listed
  have step : ConnStep c (.read (headerSize - got.length) fun _ => 0)
      { c with
        arrived := m.payload ++ stream later
        worker := .body m.header [] } := by
    have bounds : 1 ≤ headerSize - got.length ∧
        headerSize - got.length ≤ headerSize - got.length ∧
        headerSize - got.length ≤ c.arrived.length := ⟨by omega, le_rfl, left⟩
    simp only [ConnStep, Conn.step, worker, some', if_false, if_pos bounds, header, behind,
      if_pos m.header.length_toBytes, headerDone_proper proper]
  have safe : SafeStep c (.read (headerSize - got.length) fun _ => 0) :=
    fun empty => absurd empty some'
  exact .step [] safe step rfl (List.append_nil _).symm (rest _ rfl rfl rfl)

/-- From `epoll_wait`, with whole frames in the socket. -/
theorem worksOff_waiting {rest : List Message} (proper : ∀ m ∈ rest, m.Proper) {c : Conn}
    (worker : c.worker = .waiting) (arrived : c.arrived = stream rest) : WorksOff c rest := by
  induction rest generalizing c with
  | nil => exact ⟨[], c, .nil c, by simp, (List.append_nil _).symm⟩
  | cons m later ih =>
    have mProper := proper m (List.mem_cons_self ..)
    have some' : c.arrived ≠ [] := by
      rw [arrived, ne_eq, stream_eq_nil_iff]
      simp
    have woken : ConnStep c .wake { c with worker := .header [] } := by
      simp [ConnStep, Conn.step, worker, some']
    have safe : SafeStep c .wake := trivial
    refine .step [] safe woken rfl (List.append_nil _).symm ?_
    refine worksOff_header mProper rfl arrived (by decide) ?_
    intro c₁ worker₁ arrived₁ _
    apply worksOff_body mProper worker₁ arrived₁ mProper.nonempty
    intro c₂ worker₂ arrived₂ _
    exact ih (fun m' member => proper m' (List.mem_cons_of_mem _ member)) worker₂ arrived₂

theorem Inv.worksOff {c : Conn} {rest : List Message} (inv : Inv c rest)
    (all : c.incoming = []) : WorksOff c rest := by
  have aligned := inv.aligned
  rw [all, List.append_nil] at aligned
  cases rest with
  | nil => exact ⟨[], c, .nil c, by simp, (List.append_nil _).symm⟩
  | cons m later =>
    have mProper := inv.proper m (List.mem_cons_self ..)
    have others : ∀ m' ∈ later, m'.Proper := fun m' member =>
      inv.proper m' (List.mem_cons_of_mem _ member)
    cases worker : c.worker with
    | waiting =>
      rw [worker] at aligned
      exact worksOff_waiting inv.proper worker aligned
    | closed =>
      rw [worker, Aligned, (inv.closed worker).1] at aligned
      exact absurd (stream_eq_nil_iff.mp aligned.symm) (by simp)
    | header got =>
      rw [worker] at aligned
      apply worksOff_header mProper worker aligned.1 aligned.2
      intro c₁ worker₁ arrived₁ _
      exact worksOff_body mProper worker₁ arrived₁ mProper.nonempty fun c₂ worker₂ arrived₂ _ =>
        worksOff_waiting others worker₂ arrived₂
    | body header got =>
      rw [worker] at aligned
      obtain ⟨m', later', listed, rfl, same, short⟩ := aligned
      obtain ⟨rfl, rfl⟩ := List.cons.inj listed
      exact worksOff_body mProper worker same short fun c₂ worker₂ arrived₂ _ =>
        worksOff_waiting others worker₂ arrived₂

/-- In every run in which no `read` inside a frame finds the socket empty, the dispatched messages
are a prefix of the written ones, and when every byte has arrived the worker alone goes on to
dispatch all of them. -/
theorem dispatched_of_safe {c : Conn} {ls : List Action}
    (run : Run (Guarded SafeStep ConnStep) Conn.start ls c) :
    c.dispatched <+: c.written ∧
      (c.incoming = [] → ∃ rest, c.written = c.dispatched ++ rest ∧ WorksOff c rest) ∧
      (c.incoming = [] → c.arrived = [] → c.worker = .waiting → c.dispatched = c.written) := by
  obtain ⟨rest, inv⟩ := inv_of_run run
  refine ⟨⟨rest, inv.split.symm⟩, fun all => ⟨rest, inv.split, inv.worksOff all⟩, ?_⟩
  intro all empty worker
  have aligned := inv.aligned
  rw [all, empty, worker] at aligned
  have split := inv.split
  rw [stream_eq_nil_iff.mp aligned.symm, List.append_nil] at split
  exact split.symm

/-- Two arrivals that cut the header, the second one before it is needed. -/
theorem dispatched_of_safe_two : ∃ c : Conn,
    c.dispatched = [⟨.businessData, [104, 105]⟩] ∧ c.dispatched <+: c.written ∧
      (c.incoming = [] → ∃ rest, c.written = c.dispatched ++ rest ∧ WorksOff c rest) ∧
      (c.incoming = [] → c.arrived = [] → c.worker = .waiting → c.dispatched = c.written) := by
  have done : [Action.write ⟨.businessData, [104, 105]⟩, .arrive 4, .wake, .read 4 fun _ => 0,
      .arrive 6, .read 4 fun _ => 0, .read 2 fun _ => 0].foldlM
        (fun c a => if SafeStep c a then c.step a else none) Conn.start =
      some { Conn.start with
        written := [⟨.businessData, [104, 105]⟩]
        dispatched := [⟨.businessData, [104, 105]⟩] } := by
    decide +kernel
  exact ⟨_, rfl, dispatched_of_safe (guarded_of_foldlM done)⟩

/-- The worker reads between two arrivals that cut the header, takes a length of 1 from the stack,
and dispatches a byte the client has never sent. -/
theorem torn_header_not_prefix : ∃ (c : Conn) (ls : List Action),
    Run ConnStep Conn.start ls c ∧ ¬c.dispatched <+: c.written := by
  have done : [Action.write ⟨.businessData, [104, 105]⟩, .arrive 4, .wake, .read 4 fun _ => 0,
      .read 4 ([0, 0, 0, 0, 1, 0, 0, 0].getD · 0), .read 1 fun _ => 0].foldlM Conn.step Conn.start =
      some { Conn.start with
        written := [⟨.businessData, [104, 105]⟩]
        incoming := [2, 0, 0, 0, 104, 105]
        dispatched := [⟨.businessData, [0]⟩] } := by
    decide +kernel
  exact ⟨_, _, run_of_foldlM done, by decide⟩

end AmlCommonlib.SocketIpcV2
