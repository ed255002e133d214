import AmlCommonlib.Lib.Runs
import AmlCommonlib.Ubootenv.Shared

/-! # The lock of the shared image

`envimg_buffer_lock` and `envimg_buffer_unlock`, one step for each compare-and-swap, for any number
of processes on one shared object. A process that has the lock may stay where it is as long as it
likes, which covers the device operations of `save_bootenv` with all their retries.
-/

namespace AmlCommonlib.Ubootenv.ImageLock

/-- `max_retry_cnt` at the start of `envimg_buffer_lock`. -/
def maxRetryCnt : ℕ := 1000

/-- Where a process is. -/
inductive LockPc where
  | outside
  /-- In the loop of `envimg_buffer_lock`, with `max_retry_cnt`. -/
  | trying (maxRetryCnt : ℕ)
  /-- Between `envimg_buffer_lock` and `envimg_buffer_unlock`. -/
  | inside
deriving DecidableEq

/-- `gs_env_shm_info->lock` and the processes that have the object mapped. -/
structure LockState where
  lock : Bool
  pcs : Pid → LockPc
  /-- The assertion in `envimg_buffer_unlock` has failed. -/
  asserted : Bool

inductive Action where
  /-- `envimg_buffer_lock` is called. -/
  | enter (p : Pid)
  /-- The condition of its loop. -/
  | compareAndSwap (p : Pid)
  /-- The holder works on the image or on the device. -/
  | work (p : Pid)
  /-- `envimg_buffer_unlock`. -/
  | unlock (p : Pid)
deriving DecidableEq

namespace LockState

def start : LockState := ⟨false, fun _ => .outside, false⟩

def setPc (s : LockState) (p : Pid) (pc : LockPc) : LockState :=
  { s with pcs := Function.update s.pcs p pc }

def step (s : LockState) : Action → Option LockState
  | .enter p => if s.pcs p = .outside then some (s.setPc p (.trying maxRetryCnt)) else none
  | .compareAndSwap p =>
    match s.pcs p with
    | .trying maxRetryCnt =>
      if s.lock then
        -- `max_retry_cnt-- > 0`; after the last retry the caller goes on without the lock
        if 0 < maxRetryCnt then some (s.setPc p (.trying (maxRetryCnt - 1)))
        else some (s.setPc p .inside)
      else some { s.setPc p .inside with lock := true }
    | _ => none
  | .work p => if s.pcs p = .inside then some s else none
  | .unlock p =>
    if s.pcs p = .inside then
      if s.lock then some { s.setPc p .outside with lock := false }
      else some { s with asserted := true }
    else none

def Step (s : LockState) (a : Action) (s' : LockState) : Prop := s.step a = some s'

/-- At most one process is inside, and the assertion has not failed. -/
structure Exclusive (s : LockState) : Prop where
  one : ∀ p q, s.pcs p = .inside → s.pcs q = .inside → p = q
  held : s.asserted = false

/-- A process that has no retry left finds the lock free. -/
def Patient (s : LockState) : Action → Prop
  | .compareAndSwap p => s.pcs p = .trying 0 → s.lock = false
  | _ => True

/-! ### The invariant -/

/-- The byte is set while a process is inside, and by that process. -/
structure Inv (s : LockState) : Prop extends Exclusive s where
  holder : s.lock = true ↔ ∃ p, s.pcs p = .inside

theorem inv_start : Inv start where
  one p q inside := by cases inside
  held := rfl
  holder := by simp [start]

variable {s s' : LockState} {p : Pid}

theorem setPc_self (pc : LockPc) : (s.setPc p pc).pcs p = pc := Function.update_self ..

theorem setPc_other {q : Pid} (other : q ≠ p) (pc : LockPc) : (s.setPc p pc).pcs q = s.pcs q :=
  Function.update_of_ne other ..

/-- A process that is not inside stays out. -/
theorem Inv.wait (inv : Inv s) (was : s.pcs p ≠ .inside) {pc : LockPc} (stays : pc ≠ .inside) :
    Inv (s.setPc p pc) := by
  have same : ∀ q, (s.setPc p pc).pcs q = .inside ↔ s.pcs q = .inside := by
    intro q
    rcases eq_or_ne q p with rfl | other
    · simp only [setPc_self, stays, was]
    · rw [setPc_other other]
  refine ⟨⟨?_, inv.held⟩, ?_⟩
  · intro q r inside inside'
    exact inv.one q r ((same q).mp inside) ((same r).mp inside')
  · simp only [same]
    exact inv.holder

/-- A process finds the byte clear and sets it. -/
theorem Inv.take (inv : Inv s) (free : s.lock = false) :
    Inv { s.setPc p .inside with lock := true } := by
  have nobody : ∀ q, s.pcs q ≠ .inside := by
    intro q inside
    have set := inv.holder.mpr ⟨q, inside⟩
    rw [free] at set
    cases set
  have only : ∀ q, (s.setPc p .inside).pcs q = .inside → q = p := by
    intro q inside
    by_contra other
    rw [setPc_other other] at inside
    exact nobody q inside
  refine ⟨⟨?_, inv.held⟩, ?_⟩
  · intro q r inside inside'
    exact (only q inside).trans (only r inside').symm
  · exact iff_of_true rfl ⟨p, setPc_self _⟩

/-- The process that is inside leaves; its assertion holds. -/
theorem Inv.leave (inv : Inv s) (inside : s.pcs p = .inside) :
    s.lock = true ∧ Inv { s.setPc p .outside with lock := false } := by
  have nobody : ∀ q, (s.setPc p .outside).pcs q ≠ .inside := by
    intro q still
    rcases eq_or_ne q p with rfl | other
    · rw [setPc_self] at still
      cases still
    · rw [setPc_other other] at still
      exact other (inv.one q p still inside)
  refine ⟨inv.holder.mpr ⟨p, inside⟩, ⟨⟨?_, inv.held⟩, ?_⟩⟩
  · intro q r still
    exact absurd still (nobody q)
  · exact iff_of_false Bool.false_ne_true fun ⟨q, still⟩ => nobody q still

theorem Inv.step {a : Action} (inv : Inv s) (taken : Guarded Patient Step s a s') : Inv s' := by
  obtain ⟨patient, taken⟩ := taken
  cases a with
  | enter p =>
    simp only [Step, LockState.step, Option.ite_none_right_eq_some, Option.some.injEq] at taken
    obtain ⟨outside, rfl⟩ := taken
    exact inv.wait (by simp [outside]) (by simp)
  | compareAndSwap p =>
    simp only [Step, LockState.step] at taken
    split at taken
    · rename_i left trying
      split_ifs at taken with set more
      · cases taken
        exact inv.wait (by simp [trying]) (by simp)
      · obtain rfl : left = 0 := by omega
        have free := patient trying
        rw [set] at free
        cases free
      · cases taken
        exact inv.take (by simpa using set)
    · cases taken
  | work p =>
    simp only [Step, LockState.step, Option.ite_none_right_eq_some, Option.some.injEq] at taken
    obtain ⟨-, rfl⟩ := taken
    exact inv
  | unlock p =>
    simp only [Step, LockState.step, Option.ite_none_right_eq_some] at taken
    obtain ⟨inside, taken⟩ := taken
    obtain ⟨set, inv'⟩ := inv.leave inside
    rw [if_pos set] at taken
    cases taken
    exact inv'

/-- A process that goes on without the lock is inside together with the holder. -/
theorem Inv.breaks {a : Action} (inv : Inv s) (taken : Step s a s') (impatient : ¬Patient s a) :
    ¬Exclusive s' := by
  intro exclusive
  cases a with
  | compareAndSwap p =>
    obtain ⟨trying, busy⟩ : s.pcs p = .trying 0 ∧ ¬s.lock = false := by
      simpa [Patient] using impatient
    have set : s.lock = true := by simpa using busy
    simp only [Step, LockState.step, trying, set, if_true, lt_irrefl, if_false] at taken
    cases taken
    obtain ⟨q, inside⟩ := inv.holder.mp set
    have other : q ≠ p := by
      rintro rfl
      rw [trying] at inside
      cases inside
    exact other (exclusive.one q p ((setPc_other other _).trans inside) (setPc_self _))
  | enter | work | unlock => exact impatient trivial

/-! ### Runs -/

/-- In a run of any number of processes the image is used by one process at a time, and the assertion
holds, exactly if no process finds the lock set when it has no retry left. -/
theorem exclusive_throughout_iff {actions : List Action} {s : LockState}
    (run : Run Step start actions s) :
    Throughout Step Exclusive start actions ↔ Run (Guarded Patient Step) start actions s := by
  apply throughout_iff_of_invariant _ inv_start _ _ _ run
  · intro s a t t' taken taken'
    exact Option.some.inj (taken.symm.trans taken')
  · exact Inv.step
  · exact Inv.toExclusive
  · exact Inv.breaks

/-- Two processes use the image one after the other. -/
def takingTurns : List Action :=
  [.enter 0, .enter 1, .compareAndSwap 0, .compareAndSwap 1, .work 0, .unlock 0, .compareAndSwap 1,
    .work 1, .unlock 1]

theorem exclusive_throughout_iff_turns :
    ∃ s, Run Step start takingTurns s ∧ (Throughout Step Exclusive start takingTurns ↔
      Run (Guarded Patient Step) start takingTurns s) := by
  have executed : (takingTurns.foldlM step start).isSome = true := by decide
  obtain ⟨s, done⟩ := Option.isSome_iff_exists.mp executed
  exact ⟨s, run_of_foldlM done, exclusive_throughout_iff (run_of_foldlM done)⟩

/-- The holder's device operation outlasts all retries of a second process. -/
def waitedTooLong : List Action :=
  [.enter 0, .compareAndSwap 0, .enter 1] ++ List.replicate 1001 (.compareAndSwap 1)

theorem not_exclusive_retries_used_up :
    ¬∀ actions s, Run Step start actions s → Exclusive s := by
  intro exclusive
  have executed : ((waitedTooLong.foldlM step start).map fun s => (s.pcs 0, s.pcs 1)) =
      some (.inside, .inside) := by
    decide +kernel
  obtain ⟨s, done, both⟩ := Option.map_eq_some_iff.mp executed
  simp only [Prod.mk.injEq] at both
  have same := (exclusive waitedTooLong s (run_of_foldlM done)).one 0 1 both.1 both.2
  cases same

end LockState

end AmlCommonlib.Ubootenv.ImageLock
