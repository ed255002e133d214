import AmlCommonlib.Lib.Runs
import AmlCommonlib.WpaWifi.ScanDelivery

/-! # The status of a scan

`cur_scan_status` between the thread that scans and fetches the results, the event monitor thread and
wpa_supplicant. Each locked section is a step, and so are the two reads of the status without the
lock. wpa_supplicant sends two events for each scan it accepts, one scan after the other, which are
handled at any time from then on.
-/

namespace AmlCommonlib.WpaWifi

/-- What `SCAN` comes to: `send_wpa_cli_command` fails, or the reply is `FAIL-BUSY`, `OK` or
another. -/
inductive ScanReply where
  | failed
  | busy
  | accepted
  | other
deriving DecidableEq

/-- Where the calling thread is: in `wpa_wifi_send_scan_cmd`, in its loop or behind it with the scan
that was accepted if one was, or in `wpa_wifi_get_scan_results`, which has found the results
received. -/
inductive CallerPc where
  | outside
  | busy
  | replied (scan : Option ℕ)
  | fetching
deriving DecidableEq

/-- With `storing`, the event monitor thread has found the status started for a results event and is
about to lock. `accepted` counts the scans accepted so far and `handled` the events taken, of which
those of scan `k` are number `2 * k` and `2 * k + 1`; `fetched` is what `accepted` was when results
were fetched last. -/
structure ScanSystem where
  curScanStatus : ScanState
  caller : CallerPc
  storing : Bool
  accepted : ℕ
  handled : ℕ
  fetched : ℕ
deriving DecidableEq

namespace ScanSystem

/-- The caller's steps are the first locked section of `wpa_wifi_send_scan_cmd`, a round of its loop
and its last locked section, then `wpa_wifi_get_scan_results` with its two ends. The monitor thread
takes the two events; it reads the status for the second and stores behind that. -/
inductive Action where
  | sendScanCmd (reply : ScanReply)
  | retry (reply : ScanReply)
  | setCmdSent
  | getScanResults
  | parseFails
  | setIdle
  | scanStarted
  | scanResults
  | setResultsReceived
deriving DecidableEq

def start : ScanSystem where
  curScanStatus := .idle
  caller := .outside
  storing := false
  accepted := 0
  handled := 0
  fetched := 0

/-- A scan is accepted. -/
def accept (s : ScanSystem) : ScanSystem :=
  { s with caller := .replied (some s.accepted), accepted := s.accepted + 1 }

/-- One step. -/
def step (s : ScanSystem) : Action → Option ScanSystem
  | .sendScanCmd reply =>
    if s.caller ≠ .outside then none
    else if s.curScanStatus = .resultsReceived then some s
    else
      match reply with
      | .failed => some s
      | .busy => some { s with caller := .busy }
      | .accepted => some s.accept
      | .other => some { s with caller := .replied none }
  | .retry reply =>
    if s.caller ≠ .busy then none
    else
      match reply with
      | .busy => some s
      | .accepted => some s.accept
      | .failed | .other => some { s with caller := .replied none }
  | .setCmdSent =>
    match s.caller with
    | .replied _ => some { s with curScanStatus := .cmdSent, caller := .outside }
    | _ => none
  | .getScanResults =>
    if s.caller = .outside ∧ s.curScanStatus = .resultsReceived then
      some { s with caller := .fetching }
    else none
  | .parseFails => if s.caller = .fetching then some { s with caller := .outside } else none
  | .setIdle =>
    if s.caller = .fetching then
      some { s with curScanStatus := .idle, caller := .outside, fetched := s.accepted }
    else none
  | .scanStarted =>
    if ¬s.storing ∧ s.handled < 2 * s.accepted ∧ s.handled % 2 = 0 then
      some { s with
        curScanStatus := if s.curScanStatus = .cmdSent then .started else s.curScanStatus
        handled := s.handled + 1 }
    else none
  | .scanResults =>
    if ¬s.storing ∧ s.handled < 2 * s.accepted ∧ s.handled % 2 = 1 then
      some { s with storing := s.curScanStatus = .started, handled := s.handled + 1 }
    else none
  | .setResultsReceived =>
    if s.storing then some { s with curScanStatus := .resultsReceived, storing := false } else none

def Step (s : ScanSystem) (a : Action) (s' : ScanSystem) : Prop := s.step a = some s'

/-! ### What is to hold -/

/-- Both events of the scan have been processed. -/
def Processed (s : ScanSystem) (k : ℕ) : Prop :=
  2 * k + 2 ≤ s.handled ∧ ¬(s.storing ∧ s.handled = 2 * k + 2)

/-- Once the call for a scan has returned and its events have been processed, its results are
received, unless some have been fetched. -/
def Kept (s : ScanSystem) : Prop :=
  ∀ k < s.accepted, s.caller ≠ .replied (some k) → s.Processed k → s.fetched ≤ k →
    s.curScanStatus = .resultsReceived

/-- No scan is missed, and none by the results event if that is the next. -/
def NeverMisses (s : ScanSystem) : Prop :=
  s.Kept ∧ ∀ s', s.step .scanResults = some s' → s'.Kept

/-- `CMD_SENT` is set before an event of a scan is taken whose results have not been fetched, or else
when the monitor thread is about to set the status itself. -/
def timely (s : ScanSystem) : Action → Bool
  | .setCmdSent => s.storing || s.handled ≤ 2 * s.fetched
  | _ => true

/-! ### Timely runs -/

/-- While there are results to be fetched and the call for the first of them has returned, the status
goes with the events of that scan. -/
structure Inv (s : ScanSystem) : Prop where
  fetchedLe : s.fetched ≤ s.accepted
  handledLe : s.handled ≤ 2 * s.accepted
  last : ∀ k, s.caller = .replied (some k) → k + 1 = s.accepted ∧ s.fetched ≤ k
  storingEven : s.storing → s.handled % 2 = 0 ∧ s.handled ≤ 2 * s.fetched + 2
  before : s.fetched < s.accepted → s.caller ≠ .replied (some s.fetched) →
    s.handled ≤ 2 * s.fetched → s.storing ∨ s.curScanStatus = .cmdSent ∨
      s.curScanStatus = .resultsReceived ∨ s.curScanStatus = .started ∧ s.handled % 2 = 1
  between : s.fetched < s.accepted → s.caller ≠ .replied (some s.fetched) →
    s.handled = 2 * s.fetched + 1 →
      s.curScanStatus = .started ∨ s.curScanStatus = .resultsReceived
  after : s.fetched < s.accepted → s.caller ≠ .replied (some s.fetched) →
    2 * s.fetched + 2 ≤ s.handled →
      s.curScanStatus = .resultsReceived ∨ s.storing ∧ s.handled = 2 * s.fetched + 2

theorem inv_start : start.Inv where
  fetchedLe := le_rfl
  handledLe := le_rfl
  last _ replied := by cases replied
  storingEven storing := by cases storing
  before few := by cases few
  between few := by cases few
  after few := by cases few

variable {s : ScanSystem}

/-- The thread moves between places where it has no accepted scan. -/
theorem Inv.move (inv : s.Inv) (none' : ∀ k, s.caller ≠ .replied (some k)) {pc : CallerPc}
    (none'' : ∀ k, pc ≠ .replied (some k)) : Inv { s with caller := pc } where
  fetchedLe := inv.fetchedLe
  handledLe := inv.handledLe
  last k replied := absurd replied (none'' k)
  storingEven := inv.storingEven
  before few _ := inv.before few (none' _)
  between few _ := inv.between few (none' _)
  after few _ := inv.after few (none' _)

theorem Inv.accept (inv : s.Inv) (none' : ∀ k, s.caller ≠ .replied (some k)) : s.accept.Inv := by
  have few : s.fetched < s.accepted + 1 → CallerPc.replied (some s.accepted) ≠
      .replied (some s.fetched) → s.fetched < s.accepted := by
    intro le apart
    refine lt_of_le_of_ne (Nat.lt_succ_iff.mp le) fun same => apart ?_
    rw [same]
  refine ⟨?_, ?_, ?_, inv.storingEven, ?_, ?_, ?_⟩
  · exact inv.fetchedLe.trans (Nat.le_succ _)
  · exact inv.handledLe.trans (by simp [ScanSystem.accept])
  · rintro k ⟨⟩
    exact ⟨rfl, inv.fetchedLe⟩
  · intro le apart
    exact inv.before (few le apart) (none' _)
  · intro le apart
    exact inv.between (few le apart) (none' _)
  · intro le apart
    exact inv.after (few le apart) (none' _)

theorem Inv.setCmdSent (inv : s.Inv) (timely : s.storing ∨ s.handled ≤ 2 * s.fetched) :
    Inv { s with curScanStatus := .cmdSent, caller := .outside } where
  fetchedLe := inv.fetchedLe
  handledLe := inv.handledLe
  last k replied := by cases replied
  storingEven := inv.storingEven
  before _ _ _ := .inr (.inl rfl)
  between _ _ here := by
    rcases timely with storing | early
    · have := inv.storingEven storing
      dsimp only at here
      omega
    · dsimp only at here
      omega
  after _ _ here := by
    dsimp only at here
    rcases timely with storing | early
    · have := inv.storingEven storing
      exact .inr ⟨storing, by dsimp only; omega⟩
    · omega

theorem Inv.setIdle (inv : s.Inv) :
    Inv { s with curScanStatus := .idle, caller := .outside, fetched := s.accepted } where
  fetchedLe := le_rfl
  handledLe := inv.handledLe
  last k replied := by cases replied
  storingEven storing := ⟨(inv.storingEven storing).1, by
    have := inv.handledLe
    dsimp only
    omega⟩
  before few := absurd few (lt_irrefl _)
  between few := absurd few (lt_irrefl _)
  after few := absurd few (lt_irrefl _)

theorem Inv.scanStarted (inv : s.Inv) (waiting : ¬s.storing) (more : s.handled < 2 * s.accepted)
    (even : s.handled % 2 = 0) :
    Inv { s with
      curScanStatus := if s.curScanStatus = .cmdSent then .started else s.curScanStatus
      handled := s.handled + 1 } where
  fetchedLe := inv.fetchedLe
  handledLe := more
  last := inv.last
  storingEven storing := absurd storing waiting
  before few returned early := by
    dsimp only at early ⊢
    rcases inv.before few returned (by omega) with storing | sent | received | ⟨-, odd⟩
    · exact absurd storing waiting
    · right; right; right
      exact ⟨if_pos sent, by omega⟩
    · right; right; left
      rw [if_neg (by simp [received]), received]
    · omega
  between few returned here := by
    dsimp only at here ⊢
    rcases inv.before few returned (by omega) with storing | sent | received | ⟨-, odd⟩
    · exact absurd storing waiting
    · exact .inl (if_pos sent)
    · right
      rw [if_neg (by simp [received]), received]
    · omega
  after few returned here := by
    dsimp only at here ⊢
    rcases inv.after few returned (by omega) with received | ⟨storing, -⟩
    · left
      rw [if_neg (by simp [received]), received]
    · exact absurd storing waiting

theorem Inv.scanResults (inv : s.Inv) (waiting : ¬s.storing) (more : s.handled < 2 * s.accepted)
    (odd : s.handled % 2 = 1) :
    Inv { s with storing := s.curScanStatus = .started, handled := s.handled + 1 } where
  fetchedLe := inv.fetchedLe
  handledLe := more
  last := inv.last
  storingEven storing := by
    have started : s.curScanStatus = .started := by simpa using storing
    refine ⟨by dsimp only; omega, ?_⟩
    dsimp only
    by_contra late
    by_cases returned : s.caller = .replied (some s.fetched)
    · have := (inv.last _ returned).1
      omega
    · rcases inv.after (by omega) returned (by omega) with received | ⟨storing, -⟩
      · rw [started] at received
        cases received
      · exact waiting storing
  before few returned early := by
    dsimp only at early ⊢
    rcases inv.before few returned (by omega) with storing | sent | received | ⟨started, -⟩
    · exact absurd storing waiting
    · exact .inr (.inl sent)
    · exact .inr (.inr (.inl received))
    · exact .inl (by simpa using started)
  between few returned here := by
    dsimp only at here
    omega
  after few returned here := by
    dsimp only at here ⊢
    by_cases first : s.handled = 2 * s.fetched + 1
    · rcases inv.between few returned first with started | received
      · exact .inr ⟨by simpa using started, by omega⟩
      · exact .inl received
    · rcases inv.after few returned (by omega) with received | ⟨storing, -⟩
      · exact .inl received
      · exact absurd storing waiting

theorem Inv.setResultsReceived (inv : s.Inv) :
    Inv { s with curScanStatus := .resultsReceived, storing := false } where
  fetchedLe := inv.fetchedLe
  handledLe := inv.handledLe
  last := inv.last
  storingEven storing := by cases storing
  before _ _ _ := .inr (.inr (.inl rfl))
  between _ _ _ := .inr rfl
  after _ _ _ := .inl rfl

/-- Timely steps keep the invariant. -/
theorem Inv.step (inv : s.Inv) {a : Action} {s' : ScanSystem} (taken : s.step a = some s')
    (timely : s.timely a) : s'.Inv := by
  cases a with
  | sendScanCmd reply =>
    simp only [ScanSystem.step] at taken
    split_ifs at taken with outside received
    · cases taken
      exact inv
    · have none' : ∀ k, s.caller ≠ .replied (some k) := by simp [not_not.mp outside]
      cases reply <;> cases taken
      · exact inv
      · exact inv.move none' (by simp)
      · exact inv.accept none'
      · exact inv.move none' (by simp)
  | retry reply =>
    simp only [ScanSystem.step] at taken
    split_ifs at taken with busy
    have none' : ∀ k, s.caller ≠ .replied (some k) := by simp [not_not.mp busy]
    cases reply <;> cases taken
    · exact inv.move none' (by simp)
    · exact inv
    · exact inv.accept none'
    · exact inv.move none' (by simp)
  | setCmdSent =>
    simp only [ScanSystem.step] at taken
    split at taken
    · cases taken
      exact inv.setCmdSent (by simpa [ScanSystem.timely] using timely)
    · cases taken
  | getScanResults =>
    simp only [ScanSystem.step] at taken
    split_ifs at taken with received
    cases taken
    exact inv.move (by simp [received.1]) (by simp)
  | parseFails =>
    simp only [ScanSystem.step] at taken
    split_ifs at taken with fetching
    cases taken
    exact inv.move (by simp [fetching]) (by simp)
  | setIdle =>
    simp only [ScanSystem.step] at taken
    split_ifs at taken
    cases taken
    exact inv.setIdle
  | scanStarted =>
    obtain ⟨event, taken⟩ := Option.ite_none_right_eq_some.mp taken
    cases taken
    exact inv.scanStarted event.1 event.2.1 event.2.2
  | scanResults =>
    simp only [ScanSystem.step] at taken
    split_ifs at taken with event
    cases taken
    exact inv.scanResults event.1 event.2.1 event.2.2
  | setResultsReceived =>
    simp only [ScanSystem.step] at taken
    split_ifs at taken
    cases taken
    exact inv.setResultsReceived

theorem Inv.kept (inv : s.Inv) : s.Kept := by
  intro k inside returned processed unfetched
  obtain ⟨handled, done⟩ := processed
  have few : s.fetched < s.accepted := by omega
  have returned' : s.caller ≠ .replied (some s.fetched) := by
    intro replied
    have last := (inv.last _ replied).1
    have same : s.fetched = k := by omega
    exact returned (same ▸ replied)
  rcases inv.after few returned' (by omega) with received | ⟨storing, here⟩
  · exact received
  · exact absurd ⟨storing, by omega⟩ done

theorem Inv.neverMisses (inv : s.Inv) : s.NeverMisses :=
  ⟨inv.kept, fun _ taken => (inv.step taken rfl).kept⟩

/-- A status that is set too late misses a scan. -/
theorem not_neverMisses_of_late (inv : s.Inv) {a : Action} {s' : ScanSystem}
    (taken : s.step a = some s') (late : ¬s.timely a) : ¬s'.NeverMisses := by
  cases a with
  | setCmdSent =>
    simp only [timely, Bool.or_eq_true, decide_eq_true_eq, not_or, not_le] at late
    obtain ⟨waiting, late⟩ := late
    have few := inv.handledLe
    simp only [ScanSystem.step] at taken
    split at taken
    · cases taken
      rintro ⟨kept, next⟩
      by_cases done : 2 * s.fetched + 2 ≤ s.handled
      · have received := kept s.fetched (by dsimp only; omega) (by simp)
          ⟨done, fun storing => waiting storing.1⟩ le_rfl
        cases received
      · have received := next _ (if_pos ⟨waiting, by dsimp only; omega, by dsimp only; omega⟩)
          s.fetched (by dsimp only; omega) (by simp) ⟨by dsimp only; omega, by simp⟩ le_rfl
        cases received
    · cases taken
  | _ => exact absurd rfl late

/-- For every run: no scan is ever missed if and only if `CMD_SENT` is always set in time. -/
theorem neverMisses_iff_timely {ls : List Action} {s : ScanSystem} (run : Run Step start ls s) :
    Throughout Step NeverMisses start ls ↔
      Run (Guarded (fun s a => s.timely a) Step) start ls s := by
  apply throughout_iff_of_invariant ?_ inv_start ?_ ?_ ?_ run
  · intro s a t t' taken taken'
    exact Option.some.inj (taken.symm.trans taken')
  · intro s a t inv taken
    exact inv.step taken.2 taken.1
  · intro s inv
    exact inv.neverMisses
  · intro s a t inv taken late
    exact not_neverMisses_of_late inv taken late

/-- A scan with its results, and another one. -/
def twoScans : List Action :=
  [.sendScanCmd .accepted, .setCmdSent, .scanStarted, .scanResults, .setResultsReceived,
    .getScanResults, .setIdle, .sendScanCmd .accepted, .setCmdSent]

theorem neverMisses_iff_timely_two : ∃ s, Run Step start twoScans s ∧
    Throughout Step NeverMisses start twoScans :=
  ⟨_, run_of_foldlM rfl, (neverMisses_iff_timely (run_of_foldlM rfl)).mpr (guarded_of_foldlM rfl)⟩

/-- Both events are taken before the call for their scan sets `CMD_SENT`. -/
theorem not_kept_early : ¬∀ ls s, Run Step start ls s → s.Kept := by
  intro kept
  have here := kept _ _ (run_of_foldlM (rfl :
    [Action.sendScanCmd .accepted, .scanStarted, .scanResults, .setCmdSent].foldlM step start =
      some ⟨.cmdSent, .outside, false, 1, 2, 0⟩))
  have received := here 0 (by decide) (by decide) ⟨by decide, by decide⟩ le_rfl
  cases received

end ScanSystem

end AmlCommonlib.WpaWifi
