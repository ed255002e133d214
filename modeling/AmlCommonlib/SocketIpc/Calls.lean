import AmlCommonlib.Lib.Runs
import AmlCommonlib.SocketIpc.ArgRoundTrip
import Mathlib.Logic.Function.Basic

/-! # Synchronous calls on one peer

`ipc_call_va` sends a request and takes the first datagram that is in the peer socket for the
response; a response that comes after its call has timed out stays there. Calls are numbered for the
statement only, nothing on the wire carries the number. In runs where a call is made only when
nothing of an earlier one is outstanding, every call gets its own response.
-/

namespace AmlCommonlib.SocketIpc

/-- `SIPC_MAX_MESSAGE_SIZE`. -/
def sipcMaxMessageSize : ℕ := 8192

/-- `SIPC_NO_ERR`. -/
def sipcNoErr : ℤ := 0

/-- `SIPC_ERR_IO`. -/
def sipcErrIo : ℤ := -2

/-- `SIPC_ERR_TIMEOUT`. -/
def sipcErrTimeout : ℤ := -7

/-- The result format of `_call`. -/
def callRetfmt : List ℤ := [TypeId.i32.code]

/-- What the generated server stub answers a request with: `resp_` with output values, or the error
its handler returned. -/
inductive Answer where
  | values (outs : List Arg)
  | error (r : ℤ)
deriving DecidableEq, Repr

/-- `ipc_resp_va`: the datagram of an answer. -/
def ipcRespVa (retfmt : List TypeId) : Answer → Option Bytes
  | .values outs => do
    let (len1, header) ← ipcPackVa sipcMaxMessageSize callRetfmt [.number sipcNoErr]
    let (_, rest) ← ipcPackVa (sipcMaxMessageSize - len1) (retfmt.map TypeId.code) outs
    return header ++ rest
  | .error r => (ipcPackVa sipcMaxMessageSize callRetfmt [.number r]).map (·.2)

/-- The buffer after `recvfrom`: the datagram in front of what was there before. -/
def received (datagram : Bytes) (stale : ℕ → UInt8) (i : ℕ) : UInt8 :=
  if i < datagram.length then datagram.getD i 0 else stale i

/-- The end of `ipc_call_va` for a response of `rlen` bytes: the result and the output variables.
The status is unpacked over the 1 that `select` returned. -/
def ipcCallEnd (mem : ℕ → UInt8) (rlen : ℕ) (retfmt : List TypeId) (vars : List Var) :
    ℤ × List Var :=
  if rlen = 0 then (sipcErrIo, vars)
  else
    let header := ipcUpackVa mem callRetfmt 0 rlen
    let r := match storeAll [.number (leBytes 4 1)] header.writes with
      | .number bytes :: _ => TypeId.i32.value bytes
      | _ => 1
    if r = sipcNoErr then
      (r, storeAll vars
        (ipcUpackVa mem (retfmt.map TypeId.code) header.ret.toNat (rlen - header.ret)).writes)
    else (r, vars)

/-! ### The peer and its server -/

/-- A request on its way or at the server. -/
structure Request where
  call : ℕ
  retfmt : List TypeId
deriving DecidableEq, Repr

/-- A datagram in the peer socket. -/
structure Response where
  call : ℕ
  datagram : Bytes
deriving DecidableEq, Repr

/-- The client is in `select` or outside `ipc_call_va`. -/
inductive Client where
  | idle
  | waiting (call : ℕ) (retfmt : List TypeId) (vars : List Var)
deriving DecidableEq, Repr

structure Peer where
  /-- The number of the next call. -/
  next : ℕ
  client : Client
  requests : List Request
  responses : List Response
  /-- What the server has answered to a call. -/
  answers : ℕ → Option Answer

def Peer.start : Peer := ⟨0, .idle, [], [], fun _ => none⟩

inductive Action where
  | call (retfmt : List TypeId) (vars : List Var)
  | answer (call : ℕ) (answer : Answer)
  | receive (stale : ℕ → UInt8)
  | timeout

inductive Output where
  | none
  | returns (r : ℤ) (vars : List Var)
deriving DecidableEq, Repr

/-- The values an error answer can have. -/
def Answer.legal : Answer → Bool
  | .values _ => true
  | .error r => r ≠ sipcNoErr ∧ -2 ^ 31 ≤ r ∧ r < 2 ^ 31

/-- One step: a call up to its `select`, the server's answer to any outstanding request, the rest
of the call with the first datagram in the socket, or its timeout while there is none. -/
def Peer.step (w : Peer) : Action → Option (Peer × Output)
  | .call retfmt vars =>
    match w.client with
    | .waiting .. => none
    | .idle => some ({ w with
        next := w.next + 1
        client := .waiting w.next retfmt vars
        requests := w.requests ++ [⟨w.next, retfmt⟩] }, .none)
  | .answer call answer =>
    match w.requests.find? (·.call = call) with
    | none => none
    | some request =>
      match ipcRespVa request.retfmt answer with
      | none => none
      | some datagram =>
        if answer.legal then
          some ({ w with
            requests := w.requests.filter (·.call ≠ call)
            responses := w.responses ++ [⟨call, datagram⟩]
            answers := Function.update w.answers call (some answer) }, .none)
        else none
  | .receive stale =>
    match w.client, w.responses with
    | .waiting _ retfmt vars, response :: rest =>
      let (r, vars) :=
        ipcCallEnd (received response.datagram stale) response.datagram.length retfmt vars
      some ({ w with client := .idle, responses := rest }, .returns r vars)
    | _, _ => none
  | .timeout =>
    match w.client, w.responses with
    | .waiting _ _ vars, [] => some ({ w with client := .idle }, .returns sipcErrTimeout vars)
    | _, _ => none

/-- The step relation, labelled with the action and what the call returns. -/
def PeerStep (w : Peer) (l : Action × Output) (w' : Peer) : Prop := w.step l.1 = some (w', l.2)

/-- The variables hold what the server has answered to the call in progress. -/
def DeliversOwn (w : Peer) (mem : ℕ → UInt8) (vars : List Var) : Prop :=
  ∃ call retfmt before outs, w.client = .waiting call retfmt before ∧
    w.answers call = some (.values outs) ∧ retfmt.length = outs.length ∧
    List.Forall₂ (fun out var => Delivered mem out.1 out.2 var) (retfmt.zip outs) vars

/-- The output values have the declared types and fit the message, and the narrow variables of the
call are prepared for them. -/
def Deliverable (retfmt : List TypeId) (outs : List Arg) (vars : List Var) : Prop :=
  ∃ items : List Item, items.map Item.type = retfmt ∧ items.map Item.arg = outs ∧
    items.map Item.var = vars ∧ totalSize items + 4 ≤ sipcMaxMessageSize ∧
    ∀ item ∈ items, item.Prepared

/-- The condition on a step, in the state before it. -/
def SafeCall (w : Peer) (l : Action × Output) : Prop :=
  match l.1 with
  -- nothing of an earlier call is outstanding
  | .call _ _ => w.requests = [] ∧ w.responses = []
  | .receive _ => ∀ call retfmt vars outs, w.client = .waiting call retfmt vars →
      w.answers call = some (.values outs) → Deliverable retfmt outs vars
  | _ => True

/-! ### One response -/

theorem window_received (datagram : Bytes) (stale : ℕ → UInt8) :
    window (received datagram stale) 0 datagram.length = datagram := by
  have same : window (received datagram stale) 0 datagram.length =
      window (datagram.getD · 0) 0 datagram.length := by
    apply List.map_congr_left
    intro i small
    have inside : 0 + i < datagram.length := by simpa using small
    simp only [received, inside, if_true]
  rw [same, window_getD]

theorem status_accepts {r : ℤ} (low : -2 ^ 31 ≤ r) (high : r < 2 ^ 31) :
    TypeId.i32.Accepts (.number r) := by
  refine ⟨by decide, by decide, ?_⟩
  simp only [TypeId.len]
  omega

/-- The status field of a response. -/
def statusItem (r : ℤ) (low : -2 ^ 31 ≤ r) (high : r < 2 ^ 31) : Item where
  type := .i32
  arg := .number r
  var := .number (leBytes 4 1)
  accepts := status_accepts low high
  declares := ⟨by decide, by decide, rfl⟩

/-- The status arrives over any previous content, and the outputs are decoded behind it. -/
theorem ipcCallEnd_eq {r : ℤ} (low : -2 ^ 31 ≤ r) (high : r < 2 ^ 31) {rest : Bytes}
    {mem : ℕ → UInt8} (retfmt : List TypeId) (vars : List Var)
    (filled : window mem 0 ((statusItem r low high).packed ++ rest).length =
      (statusItem r low high).packed ++ rest)
    (short : rest.length + 4 < 2 ^ 31) :
    ipcCallEnd mem ((statusItem r low high).packed ++ rest).length retfmt vars =
      if r = sipcNoErr then
        (r, storeAll vars (ipcUpackVa mem (retfmt.map TypeId.code) 4 rest.length).writes)
      else (r, vars) := by
  have length : ((statusItem r low high).packed ++ rest).length = rest.length + 4 := by
    rw [List.length_append, Item.length_packed]
    exact Nat.add_comm ..
  obtain ⟨header, -⟩ := window_eq_append filled
  have status : window mem 0 ([statusItem r low high].map Item.packed).flatten.length =
      ([statusItem r low high].map Item.packed).flatten := by simpa using header
  have fits : (totalSize [statusItem r low high] : ℤ) ≤ (rest.length + 4 : ℕ) := by
    simp [totalSize, Item.size, statusItem, TypeId.len]
  obtain ⟨ret, delivered⟩ := ipcUpackVa_spec [statusItem r low high] status fits (by omega)
  have prepared : ∀ item ∈ [statusItem r low high], item.Prepared := by
    intro item member
    obtain rfl := List.mem_singleton.mp member
    simp [Item.Prepared, statusItem, TypeId.len, TypeId.ctypeSize, leBytes]
  have stored := delivered.mpr prepared
  have status : (ipcUpackVa mem callRetfmt 0 (rest.length + 4 : ℕ)).ret = 4 := ret
  have left : ((rest.length + 4 : ℕ) : ℤ) - 4 = rest.length := by omega
  change List.Forall₂ _ [statusItem r low high] (storeAll [.number (leBytes 4 1)]
    (ipcUpackVa mem callRetfmt 0 (rest.length + 4 : ℕ)).writes) at stored
  rw [length, ipcCallEnd, if_neg (by omega)]
  dsimp only
  generalize storeAll [.number (leBytes 4 1)]
    (ipcUpackVa mem callRetfmt 0 (rest.length + 4 : ℕ)).writes = after at stored
  obtain ⟨var, more, value, -, rfl⟩ := List.forall₂_cons_left_iff.mp stored
  cases var with
  | number bytes =>
    have value : TypeId.i32.value bytes = r := value
    have four : Int.toNat 4 = 4 := rfl
    simp only [value, status, left, four]
  | str p => exact value.elim
  | ptr p len => exact value.elim

theorem statusItem_packs {r : ℤ} (low : -2 ^ 31 ≤ r) (high : r < 2 ^ 31) :
    ipcPackVa sipcMaxMessageSize callRetfmt [.number r] = some (4, (statusItem r low high).packed) := by
  have four : totalSize [statusItem r low high] = 4 := rfl
  have fits : (totalSize [statusItem r low high] : ℤ) ≤ sipcMaxMessageSize := by
    rw [four]
    decide
  have packed := ipcPackVa_eq [statusItem r low high] fits (by decide)
  rw [four, List.map_singleton, List.map_singleton, List.flatten_cons, List.flatten_nil,
    List.append_nil] at packed
  exact packed

/-- A response with output values that fit carries them behind a zero status. -/
theorem ipcCallEnd_values {retfmt : List TypeId} {outs : List Arg} {vars : List Var}
    (deliverable : Deliverable retfmt outs vars) {datagram : Bytes}
    (sent : ipcRespVa retfmt (.values outs) = some datagram) (stale : ℕ → UInt8) :
    ∃ after, ipcCallEnd (received datagram stale) datagram.length retfmt vars = (sipcNoErr, after) ∧
      retfmt.length = outs.length ∧
      List.Forall₂ (fun out var => Delivered (received datagram stale) out.1 out.2 var)
        (retfmt.zip outs) after := by
  obtain ⟨items, rfl, rfl, rfl, fits, prepared⟩ := deliverable
  have low : -2 ^ 31 ≤ sipcNoErr := by decide
  have high : sipcNoErr < 2 ^ 31 := by decide
  have rest := ipcPackVa_eq items (by omega : (totalSize items : ℤ) ≤ sipcMaxMessageSize - 4)
    (by decide)
  have codes : (items.map Item.type).map TypeId.code = format items := by simp [format]
  have length := length_flatten_packed items
  simp only [ipcRespVa, statusItem_packs low high, codes, Option.bind_eq_bind, Option.bind_some, rest,
    Option.pure_def, Option.some.injEq] at sent
  subst sent
  have filled := window_received ((statusItem sipcNoErr low high).packed ++
    (items.map Item.packed).flatten) stale
  obtain ⟨-, body⟩ := window_eq_append filled
  rw [ipcCallEnd_eq low high _ _ filled (by
    rw [length]
    simp only [sipcMaxMessageSize] at fits
    omega), if_pos rfl, codes]
  refine ⟨_, rfl, by simp, ?_⟩
  have here : window (received ((statusItem sipcNoErr low high).packed ++
      (items.map Item.packed).flatten) stale) 4 (items.map Item.packed).flatten.length =
        (items.map Item.packed).flatten := body
  have whole : (totalSize items : ℤ) ≤ ((items.map Item.packed).flatten.length : ℕ) := by omega
  have decoded := ipcUpackVa_spec items here whole (by
    rw [length]
    simp only [sipcMaxMessageSize] at fits
    omega)
  rw [List.zip_map', List.forall₂_map_left_iff]
  exact decoded.2.mpr prepared

/-- An error response is no success. -/
theorem ipcCallEnd_error {r : ℤ} (legal : (Answer.error r).legal = true) {retfmt : List TypeId}
    {datagram : Bytes} (sent : ipcRespVa retfmt (.error r) = some datagram) (stale : ℕ → UInt8)
    (vars : List Var) :
    (ipcCallEnd (received datagram stale) datagram.length retfmt vars).1 ≠ sipcNoErr := by
  obtain ⟨nonzero, low, high⟩ : r ≠ sipcNoErr ∧ -2 ^ 31 ≤ r ∧ r < 2 ^ 31 := by
    simpa [Answer.legal] using legal
  simp only [ipcRespVa, statusItem_packs low high, Option.map_some, Option.some.injEq] at sent
  subst sent
  have filled := window_received ((statusItem r low high).packed ++ []) stale
  have done := ipcCallEnd_eq low high retfmt vars filled (by decide)
  rw [if_neg nonzero, List.append_nil] at done
  rw [done]
  exact nonzero

/-! ### Runs -/

/-- While a call waits, its request or its response is the only one outstanding. -/
structure Exclusive (w : Peer) : Prop where
  outstanding : ∀ call retfmt vars, w.client = .waiting call retfmt vars →
    (w.requests = [⟨call, retfmt⟩] ∧ w.responses = []) ∨
      (w.requests = [] ∧ ∃ answer datagram, answer.legal = true ∧ w.answers call = some answer ∧
        ipcRespVa retfmt answer = some datagram ∧ w.responses = [⟨call, datagram⟩])

theorem Exclusive.step {w w' : Peer} {l : Action × Output} (inv : Exclusive w)
    (safe : SafeCall w l) (step : PeerStep w l w') : Exclusive w' := by
  obtain ⟨action, out⟩ := l
  simp only [PeerStep, Peer.step] at step
  cases action with
  | call retfmt vars =>
    obtain ⟨noRequest, noResponse⟩ := safe
    dsimp only at step
    split at step
    · contradiction
    · cases step
      refine ⟨fun call retfmt' vars' waiting => .inl ?_⟩
      cases waiting
      simp [noRequest, noResponse]
  | answer call answer =>
    dsimp only at step
    split at step
    · contradiction
    · next request found =>
      split at step
      · contradiction
      · next datagram sent =>
        split_ifs at step with legal
        cases step
        refine ⟨?_⟩
        intro waited retfmt vars waiting
        rcases inv.outstanding waited retfmt vars waiting with ⟨only, none'⟩ | ⟨none', -⟩
        · have same : request = ⟨waited, retfmt⟩ ∧ waited = call := by
            simp only [only, List.find?_singleton] at found
            split_ifs at found with here
            exact ⟨(Option.some.inj found).symm, by simpa using here⟩
          obtain ⟨rfl, rfl⟩ := same
          refine .inr ⟨by simp [only], answer, datagram, legal, by simp, sent, by simp [none']⟩
        · simp [none'] at found
  | receive stale =>
    dsimp only at step
    split at step
    · cases step
      exact ⟨fun call retfmt vars waiting => by contradiction⟩
    · contradiction
  | timeout =>
    dsimp only at step
    split at step
    · cases step
      exact ⟨fun call retfmt vars waiting => by contradiction⟩
    · contradiction

theorem exclusive_of_run {w : Peer} {ls : List (Action × Output)}
    (run : Run (Guarded SafeCall PeerStep) Peer.start ls w) : Exclusive w := by
  refine run.preserves ?_ ⟨fun _ _ _ waiting => by contradiction⟩
  rintro w l w' inv ⟨safe, step⟩
  exact inv.step safe step

/-- In every run in which a call is made only when nothing of an earlier one is outstanding, with
any timeouts and any order of answers, a call that returns without error delivers its own values. -/
theorem delivers_own_of_safe {w w' : Peer} {ls : List (Action × Output)} {stale : ℕ → UInt8}
    {vars : List Var} (run : Run (Guarded SafeCall PeerStep) Peer.start ls w)
    (step : Guarded SafeCall PeerStep w (.receive stale, .returns sipcNoErr vars) w') :
    ∃ response rest, w.responses = response :: rest ∧
      DeliversOwn w (received response.datagram stale) vars := by
  obtain ⟨safe, done⟩ := step
  have inv := exclusive_of_run run
  simp only [PeerStep, Peer.step] at done
  split at done
  · next call retfmt before response rest waiting queued =>
    simp only [Option.some.injEq, Prod.mk.injEq, Output.returns.injEq] at done
    obtain ⟨-, result, after⟩ := done
    refine ⟨response, rest, queued, ?_⟩
    rcases inv.outstanding call retfmt before waiting with
      ⟨-, none'⟩ | ⟨-, answer, datagram, legal, answered, sent, only⟩
    · simp [none'] at queued
    · obtain ⟨rfl, rfl⟩ := List.cons.inj (queued.symm.trans only)
      cases answer with
      | error r => exact absurd result (ipcCallEnd_error legal sent stale before)
      | values outs =>
        obtain ⟨after', ended, lengths, delivered⟩ :=
          ipcCallEnd_values (safe call retfmt before outs waiting answered) sent stale
        rw [ended] at after
        exact ⟨call, retfmt, before, outs, waiting, answered, lengths, after ▸ delivered⟩
  · contradiction

/-- A `u32` output variable of a stub, uninitialised. -/
def wordVar : Var := .number [0xAA, 0xAA, 0xAA, 0xAA]

/-- The datagram of a `u32` answer below 256. -/
private theorem answer_seven :
    ipcRespVa [.u32] (.values [.number 7]) = some [0, 0, 0, 0, 0, 0, 0, 7] := by
  decide +kernel

private theorem answer_eight :
    ipcRespVa [.u32] (.values [.number 8]) = some [0, 0, 0, 0, 0, 0, 0, 8] := by
  decide +kernel

private theorem end_seven : ipcCallEnd (received [0, 0, 0, 0, 0, 0, 0, 7] fun _ => 0) 8 [.u32]
    [wordVar] = (sipcNoErr, [.number [7, 0, 0, 0]]) := by
  decide +kernel

private theorem end_eight : ipcCallEnd (received [0, 0, 0, 0, 0, 0, 0, 8] fun _ => 0) 8 [.u32]
    [wordVar] = (sipcNoErr, [.number [8, 0, 0, 0]]) := by
  decide +kernel

/-- The first call, answered with 7. -/
private def firstAnswered (client : Client) : Peer :=
  ⟨1, client, [], [⟨0, [0, 0, 0, 0, 0, 0, 0, 7]⟩],
    Function.update (fun _ => none) 0 (some (.values [.number 7]))⟩

private theorem answers_first (client : Client) :
    PeerStep ⟨1, client, [⟨0, [.u32]⟩], [], fun _ => none⟩ (.answer 0 (.values [.number 7]), .none)
      (firstAnswered client) := by
  simp [PeerStep, Peer.step, answer_seven, Answer.legal, firstAnswered]

/-- The second call behind one that has returned, answered with 8. -/
private def bothAnswered (client : Client) : Peer :=
  ⟨2, client, [], [⟨1, [0, 0, 0, 0, 0, 0, 0, 8]⟩],
    Function.update (Function.update (fun _ => none) 0 (some (.values [.number 7]))) 1
      (some (.values [.number 8]))⟩

private theorem deliverable_word {v : ℤ} (low : 0 ≤ v) (high : v < 256) :
    Deliverable [.u32] [.number v] [wordVar] := by
  have accepts : TypeId.u32.Accepts (.number v) :=
    ⟨by decide, by decide, low, high.trans (by decide)⟩
  refine ⟨[⟨.u32, .number v, wordVar, accepts, ⟨by decide, by decide, rfl⟩⟩], rfl, rfl, rfl, ?_, ?_⟩
  · simp [totalSize, Item.size, TypeId.len, sipcMaxMessageSize]
  · intro item member
    obtain rfl := List.mem_singleton.mp member
    exact rfl

/-- Two calls, answered with 7 and then with 8. -/
theorem delivers_own_of_safe_two : ∃ (w : Peer) (response : Response) (rest : List Response),
    w.responses = response :: rest ∧
      DeliversOwn w (received response.datagram fun _ => 0) [.number [8, 0, 0, 0]] := by
  have second : PeerStep { firstAnswered .idle with responses := [] } (.call [.u32] [wordVar], .none)
      ⟨2, .waiting 1 [.u32] [wordVar], [⟨1, [.u32]⟩], [], (firstAnswered .idle).answers⟩ := by
    simp [PeerStep, Peer.step, firstAnswered]
  have answered : PeerStep
      ⟨2, .waiting 1 [.u32] [wordVar], [⟨1, [.u32]⟩], [], (firstAnswered .idle).answers⟩
      (.answer 1 (.values [.number 8]), .none) (bothAnswered (.waiting 1 [.u32] [wordVar])) := by
    simp [PeerStep, Peer.step, answer_eight, Answer.legal, firstAnswered, bothAnswered]
  have firstEnded : PeerStep (firstAnswered (.waiting 0 [.u32] [wordVar]))
      (.receive fun _ => 0, .returns sipcNoErr [.number [7, 0, 0, 0]])
      { firstAnswered .idle with responses := [] } := by
    simp [PeerStep, Peer.step, firstAnswered, end_seven]
  have secondEnded : PeerStep (bothAnswered (.waiting 1 [.u32] [wordVar]))
      (.receive fun _ => 0, .returns sipcNoErr [.number [8, 0, 0, 0]])
      { bothAnswered .idle with responses := [] } := by
    simp [PeerStep, Peer.step, bothAnswered, end_eight]
  have firstSafe : SafeCall (firstAnswered (.waiting 0 [.u32] [wordVar]))
      (.receive fun _ => 0, .returns sipcNoErr [.number [7, 0, 0, 0]]) := by
    rintro call retfmt vars outs waiting found
    cases waiting
    cases found
    exact deliverable_word (by decide) (by decide)
  have secondSafe : SafeCall (bothAnswered (.waiting 1 [.u32] [wordVar]))
      (.receive fun _ => 0, .returns sipcNoErr [.number [8, 0, 0, 0]]) := by
    rintro call retfmt vars outs waiting found
    cases waiting
    cases found
    exact deliverable_word (by decide) (by decide)
  have called : Run (Guarded SafeCall PeerStep) Peer.start [(.call [.u32] [wordVar], .none),
      (.answer 0 (.values [.number 7]), .none),
      (.receive fun _ => 0, .returns sipcNoErr [.number [7, 0, 0, 0]]),
      (.call [.u32] [wordVar], .none), (.answer 1 (.values [.number 8]), .none)]
      (bothAnswered (.waiting 1 [.u32] [wordVar])) :=
    .cons ⟨⟨rfl, rfl⟩, by simp only [PeerStep, Peer.step, Peer.start]; rfl⟩
      (.cons ⟨trivial, answers_first _⟩ (.cons ⟨firstSafe, firstEnded⟩
        (.cons ⟨⟨rfl, rfl⟩, second⟩ (.cons ⟨trivial, answered⟩ (.nil _)))))
  exact ⟨_, delivers_own_of_safe called ⟨secondSafe, secondEnded⟩⟩

/-- The second call, made after the first one has timed out and answered with 8. -/
private def secondAnswered : Peer :=
  ⟨2, .waiting 1 [.u32] [wordVar], [],
    [⟨0, [0, 0, 0, 0, 0, 0, 0, 7]⟩, ⟨1, [0, 0, 0, 0, 0, 0, 0, 8]⟩],
    Function.update (Function.update (fun _ => none) 0 (some (.values [.number 7]))) 1
      (some (.values [.number 8]))⟩

/-- The first call times out and is answered with 7 afterwards; the second call, answered with 8,
returns without error and delivers 7. -/
theorem late_response_not_own : ∃ (w w' : Peer) (ls : List (Action × Output)) (vars : List Var),
    Run PeerStep Peer.start ls w ∧
      PeerStep w (.receive fun _ => 0, .returns sipcNoErr vars) w' ∧
      ¬∃ response rest, w.responses = response :: rest ∧
        DeliversOwn w (received response.datagram fun _ => 0) vars := by
  have first : PeerStep Peer.start (.call [.u32] [wordVar], .none)
      ⟨1, .waiting 0 [.u32] [wordVar], [⟨0, [.u32]⟩], [], fun _ => none⟩ := by
    simp [PeerStep, Peer.step, Peer.start]
  have timeout : PeerStep ⟨1, .waiting 0 [.u32] [wordVar], [⟨0, [.u32]⟩], [], fun _ => none⟩
      (.timeout, .returns sipcErrTimeout [wordVar]) ⟨1, .idle, [⟨0, [.u32]⟩], [], fun _ => none⟩ := by
    simp [PeerStep, Peer.step]
  have second : PeerStep (firstAnswered .idle) (.call [.u32] [wordVar], .none)
      { firstAnswered .idle with
        next := 2
        client := .waiting 1 [.u32] [wordVar]
        requests := [⟨1, [.u32]⟩] } := by
    simp [PeerStep, Peer.step, firstAnswered]
  have answered : PeerStep
      { firstAnswered .idle with
        next := 2
        client := .waiting 1 [.u32] [wordVar]
        requests := [⟨1, [.u32]⟩] } (.answer 1 (.values [.number 8]), .none) secondAnswered := by
    simp [PeerStep, Peer.step, answer_eight, Answer.legal, firstAnswered, secondAnswered]
  have received' : PeerStep secondAnswered
      (.receive fun _ => 0, .returns sipcNoErr [.number [7, 0, 0, 0]])
      { secondAnswered with
        client := .idle
        responses := [⟨1, [0, 0, 0, 0, 0, 0, 0, 8]⟩] } := by
    simp [PeerStep, Peer.step, secondAnswered, end_seven]
  refine ⟨_, _, _, _, .cons first (.cons timeout (.cons (answers_first _) (.cons second
    (.cons answered (.nil _))))), received', ?_⟩
  rintro ⟨response, rest, queued, call, retfmt, before, outs, waiting, found, -, delivered⟩
  cases waiting
  cases found
  have value : TypeId.u32.value [7, 0, 0, 0] = 8 := (List.forall₂_cons.mp delivered).1
  exact absurd value (by decide)

end AmlCommonlib.SocketIpc
