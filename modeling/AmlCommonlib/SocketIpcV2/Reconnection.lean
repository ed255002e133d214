import AmlCommonlib.SocketIpcV2.Client
import Mathlib.Tactic.Linarith

/-! # Which connections are closed

The invariant keeps for each thread in `handleClientReconnection` the reason it has for closing the
connection, and for the counter the last time it was reset on the current connection.
-/

namespace AmlCommonlib.SocketIpcV2

/-- The thread has `reconnectionMutex`. -/
def Reconnection.Inside : Reconnection → Prop
  | .wants _ => False
  | .disconnecting _ | .connecting => True

def DispatchPc.Inside : DispatchPc → Prop
  | .reconnecting r => r.Inside
  | _ => False

def DetectorPc.Inside : DetectorPc → Prop
  | .reconnecting r => r.Inside
  | _ => False

namespace Client

/-- What the dispatch thread reads, or why it gives up a connection. -/
def DispatchReason (s : Client) : DispatchPc → Prop
  | .reading c => c < s.opened
  | .reconnecting (.wants c) => c < s.opened ∧ (s.conns c).eofRead
  | .reconnecting (.disconnecting c) => c = s.sockfd ∧ (s.conns c).eofRead
  | _ => True

/-- A connection that has been quiet for too long, and stays so. -/
def Quiet (s : Client) (c : ℕ) : Prop := (s.conns c).alive = false ∧ (s.conns c).heard + 30 < s.now

/-- The counter has counted since a time after the last heartbeat of the connection. -/
def Counted (s : Client) (wake : ℚ) : Prop :=
  ∃ since ≤ s.now, ((s.conns s.sockfd).unread = 0 → s.dispatch ≠ .counting s.sockfd →
    (s.conns s.sockfd).heard ≤ since) ∧ (s.beats = 0 ∨ since + s.beats ≤ wake)

/-- Why the detector gives up a connection, or how far it has counted. -/
def DetectorReason (s : Client) : DetectorPc → Prop
  | .sleeping wake => s.cleared → Counted s wake
  | .reconnecting (.wants c) => 30 < s.beats ∧ c < s.opened ∧ Quiet s c
  | .reconnecting (.disconnecting c) => 30 < s.beats ∧ c = s.sockfd ∧ Quiet s c
  | .reconnecting .connecting => 30 < s.beats

structure Inv (s : Client) : Prop where
  known : s.sockfd < s.opened
  heard : ∀ c, (s.conns c).heard ≤ s.now
  alive : ∀ c, (s.conns c).alive → c < s.opened ∧ s.now ≤ (s.conns c).heard + 30
  mutex : s.reconnectionMutex = true ↔ s.dispatch.Inside ∨ s.detector.Inside
  exclusive : ¬(s.dispatch.Inside ∧ s.detector.Inside)
  dispatchReason : DispatchReason s s.dispatch
  detectorReason : DetectorReason s s.detector

theorem inv_start : Inv start where
  known := Nat.zero_lt_one
  heard c := by
    simp only [start]
    split_ifs <;> exact le_rfl
  alive c isAlive := by
    simp only [start] at isAlive ⊢
    split_ifs at isAlive ⊢ with first
    · subst first
      exact ⟨Nat.zero_lt_one, by norm_num [fresh]⟩
  mutex := by simp [start, DispatchPc.Inside, DetectorPc.Inside]
  exclusive := by simp [start, DispatchPc.Inside]
  dispatchReason := trivial
  detectorReason := fun _ => ⟨0, le_rfl, fun _ _ => le_rfl, .inl rfl⟩

/-- A reason for giving up a connection outlasts what leaves the connections there are. -/
theorem DispatchReason.frame {s s' : Client} {pc : DispatchPc} (reason : DispatchReason s pc)
    (opened : s.opened ≤ s'.opened) (sockfd : s'.sockfd = s.sockfd)
    (eofRead : ∀ c, (s.conns c).eofRead → (s'.conns c).eofRead) : DispatchReason s' pc := by
  cases pc with
  | top | counting => trivial
  | reading c => exact lt_of_lt_of_le reason opened
  | reconnecting r =>
    cases r with
    | wants c => exact ⟨reason.1.trans_le opened, eofRead c reason.2⟩
    | disconnecting c => exact ⟨reason.1.trans sockfd.symm, eofRead c reason.2⟩
    | connecting => trivial

theorem DetectorReason.frame {s s' : Client} {pc : DetectorPc} (reason : DetectorReason s pc)
    (opened : s.opened ≤ s'.opened) (sockfd : s'.sockfd = s.sockfd) (beats : s'.beats = s.beats)
    (quiet : ∀ c, Quiet s c → Quiet s' c)
    (counted : ∀ wake, (s.cleared → Counted s wake) → s'.cleared → Counted s' wake) :
    DetectorReason s' pc := by
  cases pc with
  | sleeping wake => exact counted wake reason
  | reconnecting r =>
    cases r with
    | wants c => exact ⟨beats ▸ reason.1, reason.2.1.trans_le opened, quiet c reason.2.2⟩
    | disconnecting c => exact ⟨beats ▸ reason.1, reason.2.1.trans sockfd.symm, quiet c reason.2.2⟩
    | connecting => exact (beats ▸ reason : 30 < s'.beats)

variable {s : Client}

/-! ### The server and the clock -/

theorem Inv.elapse {d : ℚ} (inv : Inv s) (forward : 0 ≤ d)
    (serves : ∀ c < s.opened, (s.conns c).alive → s.now + d ≤ (s.conns c).heard + 30) :
    Inv { s with now := s.now + d } where
  known := inv.known
  heard c := by
    have before := inv.heard c
    simp only
    linarith
  alive c isAlive := ⟨(inv.alive c isAlive).1, serves c (inv.alive c isAlive).1 isAlive⟩
  mutex := inv.mutex
  exclusive := inv.exclusive
  dispatchReason := inv.dispatchReason.frame le_rfl rfl fun _ => id
  detectorReason := by
    refine inv.detectorReason.frame le_rfl rfl rfl ?_ ?_
    · rintro c ⟨dead, long⟩
      exact ⟨dead, by simp only; linarith⟩
    · intro wake counted cleared
      obtain ⟨since, past, rest⟩ := counted cleared
      exact ⟨since, by simp only; linarith, rest⟩

/-- A field that an update keeps is as it was in every connection. -/
theorem setConn_field {β : Type*} {c : ℕ} {f : Connection → Connection} (field : Connection → β)
    (keeps : ∀ conn, field (f conn) = field conn) (other : ℕ) :
    field ((s.setConn c f).conns other) = field (s.conns other) := by
  simp only [setConn, Function.update_apply]
  split_ifs with same
  · rw [keeps, same]
  · rfl

/-- The dispatch thread updates a connection and leaves its life as it is. -/
theorem Inv.lives {c : ℕ} {pc : DispatchPc} {f : Connection → Connection} (inv : Inv s)
    (heardKept : ∀ conn, (f conn).heard = conn.heard)
    (aliveKept : ∀ conn, (f conn).alive = conn.alive) :
    (∀ other, (({ s with dispatch := pc }.setConn c f).conns other).heard ≤ s.now) ∧
      (∀ other, (({ s with dispatch := pc }.setConn c f).conns other).alive → other < s.opened ∧
        s.now ≤ (({ s with dispatch := pc }.setConn c f).conns other).heard + 30) ∧
      ∀ other, Quiet s other → Quiet ({ s with dispatch := pc }.setConn c f) other := by
  have heard := setConn_field (s := { s with dispatch := pc }) (c := c) Connection.heard heardKept
  have alive := setConn_field (s := { s with dispatch := pc }) (c := c) Connection.alive aliveKept
  refine ⟨?_, ?_, ?_⟩
  · intro other
    rw [heard]
    exact inv.heard other
  · intro other
    rw [heard, alive]
    exact inv.alive other
  · rintro other ⟨dead, long⟩
    rw [Quiet, heard, alive]
    exact ⟨dead, long⟩

/-- The detector's reason outlasts an update of a connection, if the count of its heartbeats does. -/
theorem DetectorReason.setConn {c : ℕ} {pc : DispatchPc} {f : Connection → Connection}
    {detector : DetectorPc} (reason : DetectorReason s detector)
    (quiet : ∀ other, Quiet s other → Quiet ({ s with dispatch := pc }.setConn c f) other)
    (noted : ∀ since, ((s.conns c).unread = 0 → s.dispatch ≠ .counting c →
        (s.conns c).heard ≤ since) →
      (f (s.conns c)).unread = 0 → pc ≠ .counting c → (f (s.conns c)).heard ≤ since)
    (elsewhere : s.sockfd ≠ c → pc ≠ .counting s.sockfd → s.dispatch ≠ .counting s.sockfd) :
    DetectorReason ({ s with dispatch := pc }.setConn c f) detector := by
  refine reason.frame le_rfl rfl rfl quiet ?_
  intro wake counted cleared
  obtain ⟨since, past, before, count⟩ := counted cleared
  refine ⟨since, past, ?_, count⟩
  simp only [Client.setConn, Function.update_apply]
  split_ifs with same
  · subst same
    exact noted since before
  · intro read notCounting
    exact before read (elsewhere same notCounting)

theorem Inv.beat {c : ℕ} (inv : Inv s) (isAlive : (s.conns c).alive) :
    Inv (s.setConn c fun conn => { conn with heard := s.now, unread := conn.unread + 1 }) where
  known := inv.known
  heard other := by
    have before := inv.heard other
    simp only [setConn, Function.update_apply]
    split_ifs
    · exact le_rfl
    · exact before
  alive other := by
    have before := inv.alive other
    simp only [setConn, Function.update_apply]
    split_ifs with same
    · subst same
      intro _
      exact ⟨(before isAlive).1, by simp only; linarith⟩
    · exact before
  mutex := inv.mutex
  exclusive := inv.exclusive
  dispatchReason := by
    refine inv.dispatchReason.frame le_rfl rfl ?_
    intro other eofRead
    exact (setConn_field Connection.eofRead (by intro; rfl) other).trans eofRead
  detectorReason := by
    apply inv.detectorReason.setConn
    · rintro other ⟨dead, long⟩
      have ne : other ≠ c := by
        rintro rfl
        rw [dead] at isAlive
        cases isAlive
      simp only [Quiet, setConn, Function.update_of_ne ne]
      exact ⟨dead, long⟩
    · intro since before none
      cases none
    · exact fun _ => id

theorem Inv.fail {c : ℕ} {fin : Bool} (inv : Inv s) :
    Inv (s.setConn c fun conn => { conn with alive := false, ended := conn.ended || fin }) where
  known := inv.known
  heard other := (setConn_field Connection.heard (by intro; rfl) other).trans_le (inv.heard other)
  alive other := by
    have before := inv.alive other
    simp only [setConn, Function.update_apply]
    split_ifs
    · intro isAlive
      cases isAlive
    · exact before
  mutex := inv.mutex
  exclusive := inv.exclusive
  dispatchReason := by
    refine inv.dispatchReason.frame le_rfl rfl ?_
    intro other eofRead
    exact (setConn_field Connection.eofRead (by intro; rfl) other).trans eofRead
  detectorReason := by
    apply inv.detectorReason.setConn
    · rintro other ⟨dead, long⟩
      simp only [Quiet, setConn, Function.update_apply]
      split_ifs with same
      · exact ⟨rfl, same ▸ long⟩
      · exact ⟨dead, long⟩
    · exact fun _ before => before
    · exact fun _ => id

/-! ### The dispatch thread -/

/-- A step of the dispatch thread between its readings. -/
theorem Inv.setDispatch {pc : DispatchPc} (inv : Inv s) (outside : ¬s.dispatch.Inside)
    (outside' : ¬pc.Inside) (reason : DispatchReason s pc)
    (counted : ∀ c, s.dispatch ≠ .counting c) : Inv { s with dispatch := pc } where
  known := inv.known
  heard := inv.heard
  alive := inv.alive
  mutex := by
    rw [inv.mutex]
    simp only [outside, outside']
  exclusive both := outside' both.1
  dispatchReason := reason.frame le_rfl rfl fun _ => id
  detectorReason := by
    refine inv.detectorReason.frame le_rfl rfl rfl (fun _ => id) ?_
    intro wake before cleared
    obtain ⟨since, past, noted, count⟩ := before cleared
    exact ⟨since, past, fun read _ => noted read (counted _), count⟩

theorem Inv.readHeartbeat {c : ℕ} (inv : Inv s) (here : s.dispatch = .reading c) :
    Inv ({ s with dispatch := .counting c }.setConn c
      fun conn => { conn with unread := conn.unread - 1 }) where
  known := inv.known
  heard := (inv.lives (by intro; rfl) (by intro; rfl)).1
  alive := (inv.lives (by intro; rfl) (by intro; rfl)).2.1
  mutex := by
    have mutex := inv.mutex
    rw [here] at mutex
    exact mutex
  exclusive := fun both => both.1
  dispatchReason := trivial
  detectorReason := by
    apply inv.detectorReason.setConn
    · exact (inv.lives (by intro; rfl) (by intro; rfl)).2.2
    · intro since before read notCounting
      exact absurd rfl notCounting
    · simp [here]

theorem Inv.readEof {c : ℕ} (inv : Inv s) (here : s.dispatch = .reading c) :
    Inv ({ s with dispatch := .reconnecting (.wants c) }.setConn c ({ · with eofRead := true })) where
  known := inv.known
  heard := (inv.lives (by intro; rfl) (by intro; rfl)).1
  alive := (inv.lives (by intro; rfl) (by intro; rfl)).2.1
  mutex := by
    have mutex := inv.mutex
    rw [here] at mutex
    exact mutex
  exclusive := fun both => both.1
  dispatchReason := by
    have reason := inv.dispatchReason
    rw [here] at reason
    exact ⟨reason, by simp [setConn]⟩
  detectorReason := by
    apply inv.detectorReason.setConn
    · exact (inv.lives (by intro; rfl) (by intro; rfl)).2.2
    · intro since before read _
      exact before read (by simp [here])
    · simp [here]

theorem Inv.count {c : ℕ} (inv : Inv s) (here : s.dispatch = .counting c)
    (unlocked : s.beatMutex = false) :
    Inv { s with beats := 0, cleared := true, dispatch := .top } where
  known := inv.known
  heard := inv.heard
  alive := inv.alive
  mutex := by
    have mutex := inv.mutex
    rw [here] at mutex
    exact mutex
  exclusive := fun both => both.1
  dispatchReason := trivial
  detectorReason := by
    rw [beatMutex] at unlocked
    cases at' : s.detector with
    | sleeping wake => exact fun _ => ⟨s.now, le_rfl, fun _ _ => inv.heard _, .inl rfl⟩
    | reconnecting r =>
      rw [at'] at unlocked
      cases unlocked

/-- The connections there were are kept when a new one is made. -/
theorem conns_of_lt {c : ℕ} {conn : Connection} (known : c < s.opened) :
    Function.update s.conns s.opened conn c = s.conns c :=
  Function.update_of_ne known.ne _ _

/-- The new connection of `handleClientConnection`. -/
theorem Inv.connected (inv : Inv s) :
    (∀ c, (Function.update s.conns s.opened (fresh s.now) c).heard ≤ s.now) ∧
      ∀ c, (Function.update s.conns s.opened (fresh s.now) c).alive → c < s.opened + 1 ∧
        s.now ≤ (Function.update s.conns s.opened (fresh s.now) c).heard + 30 := by
  constructor
  · intro c
    rcases eq_or_ne c s.opened with rfl | ne
    · simp [fresh]
    · rw [Function.update_of_ne ne]
      exact inv.heard c
  · intro c
    rcases eq_or_ne c s.opened with rfl | ne
    · simp [fresh]
    · rw [Function.update_of_ne ne]
      intro isAlive
      exact ⟨(inv.alive c isAlive).1.trans (Nat.lt_succ_self _), (inv.alive c isAlive).2⟩

/-- What the detector has counted is not touched while the dispatch thread is reconnecting. -/
theorem DetectorReason.dispatch {pc : DetectorPc} {dispatch : DispatchPc} {connected held : Bool}
    (reason : DetectorReason s pc) (counted : ∀ c, s.dispatch ≠ .counting c) :
    DetectorReason { s with dispatch := dispatch, isConnected := connected, reconnectionMutex := held }
      pc := by
  refine reason.frame le_rfl rfl rfl (fun _ => id) ?_
  intro wake before cleared
  obtain ⟨since, past, noted, count⟩ := before cleared
  exact ⟨since, past, fun read _ => noted read (counted _), count⟩

/-- The next statement of `handleClientReconnection` in the dispatch thread. -/
theorem Inv.dispatchReconnects {s' : Client} {r : Reconnection} {r' : Option Reconnection}
    {out : Option Teardown} (inv : Inv s) (here : s.dispatch = .reconnecting r)
    (same : ∀ c, r = .wants c → c = s.sockfd) (taken : s.reconnectStep r = some (s', r', out)) :
    Inv { s' with dispatch := r'.elim .top .reconnecting } ∧ ∀ t ∈ out, t.eofRead ∨ 30 < t.quiet := by
  have connected := inv.connected
  obtain ⟨known, heard, alive, mutex, exclusive, dispatchReason, detectorReason⟩ := inv
  have counted : ∀ c, s.dispatch ≠ .counting c := by simp [here]
  rw [here] at mutex exclusive dispatchReason
  cases r with
  | wants c =>
    simp only [reconnectStep] at taken
    split_ifs at taken with free
    cases taken
    have outside : ¬s.detector.Inside := fun inside => free (mutex.mpr (.inr inside))
    refine ⟨⟨known, heard, alive, by simp [DispatchPc.Inside, Reconnection.Inside],
      fun both => outside both.2, ?_, detectorReason.dispatch counted⟩, by simp⟩
    exact ⟨same c rfl, dispatchReason.2⟩
  | disconnecting c =>
    cases taken
    obtain ⟨rfl, eofRead⟩ := dispatchReason
    refine ⟨⟨known, heard, alive, mutex, exclusive, trivial, detectorReason.dispatch counted⟩, ?_⟩
    rintro t ⟨⟩
    exact .inl eofRead
  | connecting =>
    cases taken
    have outside : ¬s.detector.Inside := fun inside => exclusive ⟨trivial, inside⟩
    refine ⟨⟨Nat.lt_succ_self _, connected.1, connected.2, ?_, fun both => both.1, trivial, ?_⟩,
      by simp⟩
    · simp [DispatchPc.Inside, outside]
    · cases at' : s.detector with
      | sleeping wake =>
        intro cleared
        refine ⟨s.now, le_rfl, fun _ _ => ?_, .inl (by simpa using cleared)⟩
        simp [fresh]
      | reconnecting r =>
        cases r with
        | wants c =>
          rw [at'] at detectorReason
          obtain ⟨beats, isOld, dead, long⟩ := detectorReason
          refine ⟨beats, isOld.trans (Nat.lt_succ_self _), ?_⟩
          simp only [Quiet, conns_of_lt isOld]
          exact ⟨dead, long⟩
        | disconnecting | connecting =>
          rw [at'] at outside
          exact absurd trivial outside

/-! ### The detector -/

theorem Inv.detects {wake : ℚ} (inv : Inv s) (here : s.detector = .sleeping wake)
    (awake : wake ≤ s.now) (missed : 30 < s.beats) (cleared : s.cleared)
    (read : (s.conns s.sockfd).unread = 0) (noted : s.dispatch ≠ .counting s.sockfd) :
    Inv { s with detector := .reconnecting (.wants s.sockfd) } := by
  obtain ⟨known, heard, alive, mutex, exclusive, dispatchReason, detectorReason⟩ := inv
  rw [here] at mutex exclusive detectorReason
  refine ⟨known, heard, alive, mutex, exclusive, dispatchReason, missed, known, ?_⟩
  obtain ⟨since, past, notedSince, count⟩ := detectorReason cleared
  have lastHeard := notedSince read noted
  have long : (s.conns s.sockfd).heard + 30 < s.now := by
    rcases count with zero | count
    · omega
    · have missed : (30 : ℚ) < s.beats := by exact_mod_cast missed
      linarith
  refine ⟨?_, long⟩
  by_contra isAlive
  have serves := (alive s.sockfd (by simpa using isAlive)).2
  linarith

theorem Inv.counts {wake : ℚ} (inv : Inv s) (here : s.detector = .sleeping wake)
    (awake : wake ≤ s.now) :
    Inv { s with beats := s.beats + 10, detector := .sleeping (s.now + 10) } := by
  obtain ⟨known, heard, alive, mutex, exclusive, dispatchReason, detectorReason⟩ := inv
  rw [here] at mutex exclusive detectorReason
  refine ⟨known, heard, alive, mutex, exclusive, dispatchReason, ?_⟩
  intro cleared
  obtain ⟨since, past, noted, count⟩ := detectorReason cleared
  refine ⟨since, past, noted, .inr ?_⟩
  push_cast
  rcases count with zero | count
  · rw [zero]
    push_cast
    linarith
  · linarith

/-- The next statement of `handleClientReconnection` in the detector. -/
theorem Inv.detectorReconnects {s' : Client} {r : Reconnection} {r' : Option Reconnection}
    {out : Option Teardown} (inv : Inv s) (here : s.detector = .reconnecting r)
    (same : ∀ c, r = .wants c → c = s.sockfd) (taken : s.reconnectStep r = some (s', r', out)) :
    Inv { s' with detector := r'.elim (.sleeping (s'.now + 10)) .reconnecting } ∧
      ∀ t ∈ out, t.eofRead ∨ 30 < t.quiet := by
  have connected := inv.connected
  obtain ⟨known, heard, alive, mutex, exclusive, dispatchReason, detectorReason⟩ := inv
  rw [here] at mutex exclusive detectorReason
  cases r with
  | wants c =>
    simp only [reconnectStep] at taken
    split_ifs at taken with free
    cases taken
    have outside : ¬s.dispatch.Inside := fun inside => free (mutex.mpr (.inl inside))
    obtain ⟨beats, -, quiet⟩ := detectorReason
    refine ⟨⟨known, heard, alive, by simp [DetectorPc.Inside, Reconnection.Inside],
      fun both => outside both.1, dispatchReason, beats, same c rfl, quiet⟩, by simp⟩
  | disconnecting c =>
    cases taken
    obtain ⟨beats, rfl, -, long⟩ := detectorReason
    refine ⟨⟨known, heard, alive, mutex, exclusive, dispatchReason, beats⟩, ?_⟩
    rintro t ⟨⟩
    right
    simp only
    linarith
  | connecting =>
    cases taken
    have outside : ¬s.dispatch.Inside := fun inside => exclusive ⟨inside, trivial⟩
    refine ⟨⟨Nat.lt_succ_self _, connected.1, connected.2, ?_, fun both => both.2, ?_, ?_⟩, by simp⟩
    · simp [DetectorPc.Inside, outside]
    · cases at' : s.dispatch with
      | top | counting => trivial
      | reading c =>
        rw [at'] at dispatchReason
        exact lt_trans dispatchReason (Nat.lt_succ_self _)
      | reconnecting r =>
        cases r with
        | wants c =>
          rw [at'] at dispatchReason
          refine ⟨dispatchReason.1.trans (Nat.lt_succ_self _), ?_⟩
          simp only [conns_of_lt dispatchReason.1]
          exact dispatchReason.2
        | disconnecting | connecting =>
          rw [at'] at outside
          exact absurd trivial outside
    · -- The counter is not reset, so nothing is known of it on the new connection.
      intro cleared
      have zero : s.beats = 0 := by simpa using cleared
      rw [DetectorReason, zero] at detectorReason
      omega

/-! ### Runs -/

theorem Inv.dispatchStep {s' : Client} {out : Option Teardown} (inv : Inv s)
    (agrees : s.safe .dispatch) (taken : s.dispatchStep = some (s', out)) :
    Inv s' ∧ ∀ t ∈ out, t.eofRead ∨ 30 < t.quiet := by
  cases here : s.dispatch with
  | top =>
    simp only [Client.dispatchStep, here] at taken
    cases taken
    refine ⟨inv.setDispatch ?_ id inv.known (by simp [here]), by simp⟩
    simp [here, DispatchPc.Inside]
  | reading c =>
    simp only [Client.dispatchStep, here] at taken
    split_ifs at taken
    · cases taken
      exact ⟨inv.readHeartbeat here, by simp⟩
    · cases taken
      exact ⟨inv.readEof here, by simp⟩
  | counting c =>
    simp only [Client.dispatchStep, here] at taken
    split_ifs at taken with locked
    cases taken
    exact ⟨inv.count here (by simpa using locked), by simp⟩
  | reconnecting r =>
    simp only [Client.dispatchStep, here, Option.map_eq_some_iff, Prod.mk.injEq, Prod.exists] at taken
    obtain ⟨after, r', out, taken, rfl, rfl⟩ := taken
    apply inv.dispatchReconnects here ?_ taken
    rintro c rfl
    simpa [Client.safe, here] using agrees

theorem Inv.detectorStep {s' : Client} {out : Option Teardown} (inv : Inv s)
    (agrees : s.safe .detector) (taken : s.detectorStep = some (s', out)) :
    Inv s' ∧ ∀ t ∈ out, t.eofRead ∨ 30 < t.quiet := by
  cases here : s.detector with
  | sleeping wake =>
    simp only [Client.detectorStep, here] at taken
    split_ifs at taken with early missed
    · cases taken
      simp only [Client.safe, here, missed, forall_const, decide_eq_true_eq] at agrees
      obtain ⟨cleared, read, noted⟩ := agrees
      exact ⟨inv.detects here (not_lt.mp early) missed cleared read noted, by simp⟩
    · cases taken
      exact ⟨inv.counts here (not_lt.mp early), by simp⟩
  | reconnecting r =>
    simp only [Client.detectorStep, here, Option.map_eq_some_iff, Prod.mk.injEq, Prod.exists] at taken
    obtain ⟨after, r', out, taken, rfl, rfl⟩ := taken
    apply inv.detectorReconnects here ?_ taken
    rintro c rfl
    simpa [Client.safe, here] using agrees

theorem Inv.step {s' : Client} {l : Action × Option Teardown} (inv : Inv s)
    (taken : Guarded (fun s l => s.safe l.1) Step s l s') :
    Inv s' ∧ ∀ t ∈ l.2, t.eofRead ∨ 30 < t.quiet := by
  obtain ⟨agrees, taken⟩ := taken
  obtain ⟨action, out⟩ := l
  simp only [Step, Client.step] at taken
  cases action with
  | elapse d =>
    simp only at taken
    split_ifs at taken with possible
    cases taken
    exact ⟨inv.elapse possible.1 possible.2, by simp⟩
  | beat c =>
    simp only at taken
    split_ifs at taken with isAlive
    cases taken
    exact ⟨inv.beat isAlive, by simp⟩
  | fail c fin =>
    cases taken
    exact ⟨inv.fail, by simp⟩
  | dispatch => exact inv.dispatchStep agrees taken
  | other =>
    simp only at taken
    split at taken
    · rename_i c here
      cases taken
      refine ⟨inv.setDispatch ?_ id trivial (by simp [here]), by simp⟩
      simp [here, DispatchPc.Inside]
    · cases taken
  | detector => exact inv.detectorStep agrees taken

/-- As long as the threads do not act on a connection that is no longer theirs and the counter
counts the current one, no healthy connection is closed. -/
theorem keepsHealthy_of_safe {ls : List (Action × Option Teardown)} {s : Client}
    (run : Run (Guarded (fun s l => s.safe l.1) Step) start ls s) : KeepsHealthy ls := by
  have kept : Inv s ∧ KeepsHealthy ls := by
    apply run.preserves_history fun past s => Inv s ∧ KeepsHealthy past
    · rintro past s ⟨action, out⟩ t ⟨inv, healthy⟩ taken
      obtain ⟨inv', reason⟩ := inv.step taken
      refine ⟨inv', ?_⟩
      intro t member
      rw [teardowns_snoc, List.mem_append, Option.mem_toList] at member
      exact member.elim (healthy t) (reason t)
    · exact ⟨inv_start, by simp [KeepsHealthy, teardowns]⟩
  exact kept.2

/-- The server is lost without notice; the detector counts to 40 and reconnects. The first heartbeat
on the new connection comes in time, and later the server closes it. -/
def sampleActions : List Action :=
  [.fail 0 false, .detector, .elapse 10, .detector, .elapse 10, .detector, .elapse 10, .detector,
    .elapse 10, .detector, .detector, .detector, .detector, .beat 1, .dispatch, .other, .dispatch,
    .dispatch, .dispatch, .elapse 10, .detector, .fail 1 true, .dispatch, .dispatch, .dispatch,
    .dispatch, .dispatch]

theorem keepsHealthy_of_safe_sample :
    ∃ ls s, Run (Guarded (fun s l => s.safe l.1) Step) start ls s ∧
      teardowns ls = [⟨false, 40⟩, ⟨true, 10⟩] ∧ KeepsHealthy ls := by
  have done : (execute (fun s a => if s.safe a then step s a else none) start sampleActions).map
      (fun r => teardowns (sampleActions.zip r.2)) = some [⟨false, 40⟩, ⟨true, 10⟩] := by
    decide +kernel
  obtain ⟨⟨s, outs⟩, done, closed⟩ := Option.map_eq_some_iff.mp done
  exact ⟨_, s, guarded_of_execute done, closed, keepsHealthy_of_safe (guarded_of_execute done)⟩

/-- After such a reconnection no heartbeat has come within ten seconds. -/
def hastyActions : List Action :=
  [.fail 0 false, .detector, .elapse 10, .detector, .elapse 10, .detector, .elapse 10, .detector,
    .elapse 10, .detector, .detector, .detector, .detector, .elapse 10, .detector, .detector,
    .detector]

theorem not_keepsHealthy_counter_kept :
    ¬∀ (ls : List (Action × Option Teardown)) (s : Client), Run Step start ls s →
      KeepsHealthy ls := by
  intro claim
  have done : (execute step start hastyActions).map
      (fun r => teardowns (hastyActions.zip r.2)) = some [⟨false, 40⟩, ⟨false, 10⟩] := by
    decide +kernel
  obtain ⟨⟨s, outs⟩, done, closed⟩ := Option.map_eq_some_iff.mp done
  have healthy := claim _ s (run_of_execute done) ⟨false, 10⟩
  rw [closed] at healthy
  have reason := healthy (by simp)
  norm_num at reason

end Client

end AmlCommonlib.SocketIpcV2
