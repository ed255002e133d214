import AmlCommonlib.SocketIpc.Registry

/-! # The service thread

`serv_pthread_func` beside one thread of the application that calls `ipc_open` and `ipc_close`. A
step goes from one use of `serv_mutex`, `serv_status` or the thread to the next. The handlers that
run on the service thread do not open or close channels.
-/

namespace AmlCommonlib.SocketIpc

inductive Holder where
  | app
  | thread (id : ℕ)
deriving DecidableEq

/-- Where the application is. -/
inductive AppPc where
  | idle
  /-- In `ipc_open`, at `pthread_mutex_lock`. -/
  | opening (serv : Option ℕ) (ipc : ℕ)
  /-- In `ipc_close`, at `pthread_mutex_lock`. -/
  | closing (ipc : ℕ) (tmpPrev : Option ℕ)
  /-- In `ipc_exit`. -/
  | stopping (ipc : ℕ)
  /-- In `ipc_exit`, at `pthread_join`. -/
  | joining (ipc : ℕ)
  /-- In `ipc_close`, behind `pthread_mutex_unlock`. -/
  | freeing (ipc : ℕ)
deriving DecidableEq

/-- Where a thread that runs `serv_pthread_func` is. -/
inductive ThreadPc where
  /-- At the condition of the loop. -/
  | top
  /-- At `pthread_mutex_lock`. -/
  | locking
  | serving (channels : List ℕ)
  | ended
deriving DecidableEq

structure Service where
  registry : Registry
  /-- `serv_mutex`. -/
  mutex : Option Holder
  app : AppPc
  pcs : ℕ → ThreadPc

namespace Service

inductive Action where
  | openCall (serv : Option ℕ) (ipc : ℕ)
  /-- The section of `ipc_open`; `thread` is the one that its `pthread_create` would start. -/
  | openSection (thread : ℕ)
  | closeCall (ipc : ℕ) (tmpPrev : Option ℕ)
  /-- The section of `ipc_close`, up to `ipc_exit` if that is called. -/
  | closeSection
  /-- `serv_status = false`. -/
  | stop
  | join
  /-- `ipc_close_channel`, and `ipc_close` returns. -/
  | free
  /-- The service thread goes on. -/
  | serve (thread : ℕ)

def start : Service := ⟨.start, none, .idle, fun _ => .ended⟩

/-! ### Steps -/

/-- `ipc_open` up to its section. -/
def openCall (s : Service) (serv : Option ℕ) (ipc : ℕ) : Option Service := do
  let heap := match serv with
    | none => s.registry.heap
    | some channel => Registry.ipcCreateChannel s.registry.heap channel
  let heap ← Registry.ipcOpenPeer heap serv ipc
  return { s with registry := { s.registry with heap := heap }, app := .opening serv ipc }

/-- The section of `ipc_open`, and it returns. -/
def openSection (s : Service) (serv : Option ℕ) (ipc thread : ℕ) : Option Service := do
  let registry ← s.registry.register serv thread
  return {
    registry := { registry with opened := (ipc, serv) :: registry.opened }
    mutex := none
    app := .idle
    pcs := if s.registry.servList = none then Function.update s.pcs thread .top else s.pcs }

/-- The section of `ipc_close`, where the mutex stays locked if `ipc_exit` is called. -/
def closeSection (fuel : ℕ) (s : Service) (ipc : ℕ) (tmpPrev : Option ℕ) : Option Service := do
  let handle ← s.registry.heap ipc
  let servList ← Registry.unlinkChannel s.registry.heap s.registry.servList handle.serv fuel tmpPrev
    s.registry.servList
  let s := { s with registry := { s.registry with servList := servList } }
  return if servList = none then { s with mutex := some .app, app := .stopping ipc }
    else { s with app := .freeing ipc }

/-- `pthread_join` returns. `pthread_mutex_destroy` then fails, since the mutex is locked, and
`ipc_close` unlocks it. -/
def join (s : Service) (ipc : ℕ) : Option Service :=
  if s.registry.servPthreadId ∈ s.registry.threads ∧ s.pcs s.registry.servPthreadId = .ended then
    some { s with
      registry := { s.registry with threads := s.registry.threads.erase s.registry.servPthreadId }
      mutex := none
      app := .freeing ipc }
  else none

def free (fuel : ℕ) (s : Service) (ipc : ℕ) : Option Service := do
  let handle ← s.registry.heap ipc
  let heap ← Registry.ipcCloseChannel fuel s.registry.heap handle.serv
  return { s with
    registry := { s.registry with heap := heap, opened := s.registry.opened.filter (·.1 ≠ ipc) }
    app := .idle }

/-- The loops of `serv_pthread_func` over the channels. -/
def channelsFrom (heap : Heap) : ℕ → Option ℕ → Option (List ℕ)
  | _, none => some []
  | 0, some _ => none
  | fuel + 1, some serv => do
    let handle ← heap serv
    let rest ← channelsFrom heap fuel handle.nextServ
    return serv :: rest

/-- One step of `serv_pthread_func`. -/
def serve (fuel : ℕ) (s : Service) (thread : ℕ) : Option Service :=
  match s.pcs thread with
  | .top =>
    some { s with
      pcs := Function.update s.pcs thread (if s.registry.servStatus then .locking else .ended) }
  | .locking =>
    if s.mutex = none then
      (channelsFrom s.registry.heap fuel s.registry.servList).map fun channels =>
        { s with
          mutex := some (.thread thread)
          pcs := Function.update s.pcs thread (.serving channels) }
    else none
  | .serving _ => some { s with mutex := none, pcs := Function.update s.pcs thread .top }
  | .ended => none

def apply (fuel : ℕ) (s : Service) : Action → Option Service
  | .openCall serv ipc => if s.app = .idle then s.openCall serv ipc else none
  | .openSection thread =>
    match s.app with
    | .opening serv ipc => if s.mutex = none then s.openSection serv ipc thread else none
    | _ => none
  | .closeCall ipc tmpPrev => if s.app = .idle then some { s with app := .closing ipc tmpPrev } else none
  | .closeSection =>
    match s.app with
    | .closing ipc tmpPrev => if s.mutex = none then s.closeSection fuel ipc tmpPrev else none
    | _ => none
  | .stop =>
    match s.app with
    | .stopping ipc =>
      some { s with registry := { s.registry with servStatus := false }, app := .joining ipc }
    | _ => none
  | .join =>
    match s.app with
    | .joining ipc => s.join ipc
    | _ => none
  | .free =>
    match s.app with
    | .freeing ipc => s.free fuel ipc
    | _ => none
  | .serve thread => s.serve fuel thread

/-- As for the calls one after the other. -/
def Legal (s : Service) : Action → Prop
  | .openCall serv ipc => s.registry.heap ipc = none ∧
      ∀ channel ∈ serv, s.registry.heap channel = none ∧ channel ≠ ipc
  | .openSection thread => thread ∉ s.registry.threads
  | .closeCall ipc _ => ∃ serv, (ipc, serv) ∈ s.registry.opened
  | _ => True

/-- One step, with fuel enough for its loops. -/
def Step (s : Service) (a : Action) (s' : Service) : Prop :=
  s.Legal a ∧ ∃ fuel, s.apply fuel a = some s'

/-! ### The deadlock -/

/-- `ipc_close` waits for the end of the service thread, with the mutex that this one waits for. -/
def Deadlocked (s : Service) : Prop :=
  (∃ ipc, s.app = .joining ipc) ∧ s.mutex = some .app ∧ s.pcs s.registry.servPthreadId = .locking

/-- When `ipc_exit` clears `serv_status` the service thread has not read it for its next round. -/
def Unread (s : Service) : Action → Prop
  | .stop => s.pcs s.registry.servPthreadId ≠ .locking
  | _ => True

structure Inv (s : Service) : Prop where
  serving : ∀ thread channels, s.pcs thread = .serving channels → s.mutex = some (.thread thread)
  stopping : ∀ ipc, s.app = .stopping ipc → s.mutex = some .app
  joining : ∀ ipc, s.app = .joining ipc → s.mutex = some .app ∧ s.registry.servStatus = false ∧
    s.pcs s.registry.servPthreadId ≠ .locking

variable {s s' s'' : Service} {a : Action} {fuel more : ℕ}

/-! ### Fuel -/

theorem channelsFrom_mono {heap : Heap} {serv : Option ℕ} {channels : List ℕ} (le : fuel ≤ more)
    (done : channelsFrom heap fuel serv = some channels) :
    channelsFrom heap more serv = some channels := by
  induction fuel generalizing more serv channels with
  | zero =>
    cases serv with
    | none => simpa [channelsFrom] using done
    | some channel => cases done
  | succ fuel ih =>
    cases serv with
    | none => simpa [channelsFrom] using done
    | some channel =>
      obtain ⟨more, rfl⟩ : ∃ n, more = n + 1 := ⟨more - 1, by omega⟩
      simp only [channelsFrom, Option.bind_eq_bind, Option.bind_eq_some_iff] at done ⊢
      obtain ⟨handle, here, rest, later, done⟩ := done
      exact ⟨handle, here, rest, ih (by omega) later, done⟩

theorem apply_mono (le : fuel ≤ more) (done : s.apply fuel a = some s') :
    s.apply more a = some s' := by
  cases a with
  | openCall | openSection | closeCall | stop | join => exact done
  | closeSection =>
    simp only [apply] at done ⊢
    split at done
    · rename_i ipc tmpPrev _
      split_ifs at done ⊢
      simp only [closeSection, Option.bind_eq_bind, Option.bind_eq_some_iff] at done ⊢
      obtain ⟨handle, here, servList, unlinked, done⟩ := done
      exact ⟨handle, here, servList, Registry.unlinkChannel_mono le unlinked, done⟩
    · cases done
  | free =>
    simp only [apply] at done ⊢
    split at done
    · simp only [free, Option.bind_eq_bind, Option.bind_eq_some_iff] at done ⊢
      obtain ⟨handle, here, heap, closed, done⟩ := done
      exact ⟨handle, here, heap, Registry.ipcCloseChannel_mono le closed, done⟩
    · cases done
  | serve thread =>
    simp only [apply, serve] at done ⊢
    split at done
    · exact done
    · split_ifs at done ⊢
      rw [Option.map_eq_some_iff] at done ⊢
      obtain ⟨channels, walked, done⟩ := done
      exact ⟨channels, channelsFrom_mono le walked, done⟩
    · exact done
    · cases done

theorem step_functional (step : Step s a s') (step' : Step s a s'') : s' = s'' := by
  obtain ⟨-, fuel, done⟩ := step
  obtain ⟨-, fuel', done'⟩ := step'
  have here := apply_mono (Nat.le_max_left fuel fuel') done
  have here' := apply_mono (Nat.le_max_right fuel fuel') done'
  exact Option.some.inj (here.symm.trans here')

/-! ### The invariant -/

theorem inv_start : Inv start where
  serving thread channels serving := by cases serving
  stopping ipc stopping := by cases stopping
  joining ipc joining := by cases joining

theorem Inv.not_deadlocked (inv : Inv s) : ¬Deadlocked s := by
  rintro ⟨⟨ipc, joining⟩, -, waits⟩
  exact (inv.joining ipc joining).2.2 waits

/-- The application outside `ipc_exit`. -/
theorem inv_outside
    (serving : ∀ thread channels, s.pcs thread = .serving channels → s.mutex = some (.thread thread))
    (outside : ∀ ipc, s.app ≠ .stopping ipc ∧ s.app ≠ .joining ipc) : Inv s where
  serving := serving
  stopping ipc stopping := absurd stopping (outside ipc).1
  joining ipc joining := absurd joining (outside ipc).2

/-- No thread is in its section while the mutex is free or the application has it. -/
theorem Inv.not_serving (inv : Inv s) (other : ∀ thread, s.mutex ≠ some (.thread thread))
    {thread : ℕ} {channels : List ℕ} : s.pcs thread ≠ .serving channels :=
  fun serving => other thread (inv.serving thread channels serving)

theorem serving_of_update {pcs : ℕ → ThreadPc} {thread other : ℕ} {pc : ThreadPc} {channels : List ℕ}
    (not : ∀ channels, pc ≠ .serving channels)
    (serving : Function.update pcs thread pc other = .serving channels) :
    other ≠ thread ∧ pcs other = .serving channels := by
  rcases eq_or_ne other thread with rfl | ne
  · rw [Function.update_self] at serving
    exact absurd serving (not channels)
  · rw [Function.update_of_ne ne] at serving
    exact ⟨ne, serving⟩

/-- A step of a service thread. -/
theorem Inv.serve {thread : ℕ} (inv : Inv s) (taken : s.serve fuel thread = some s') : Inv s' := by
  simp only [Service.serve] at taken
  split at taken
  · cases taken
    refine ⟨?_, inv.stopping, ?_⟩
    · intro other channels serving
      obtain ⟨-, serving⟩ := serving_of_update (by intro _; split_ifs <;> simp) serving
      exact inv.serving other channels serving
    · intro ipc joining
      obtain ⟨held, cleared, ne⟩ := inv.joining ipc joining
      refine ⟨held, cleared, ?_⟩
      rcases eq_or_ne s.registry.servPthreadId thread with rfl | other
      · simp [cleared]
      · exact (Function.update_of_ne other ..).trans_ne ne
  · split_ifs at taken with unlocked
    obtain ⟨channels, -, rfl⟩ := Option.map_eq_some_iff.mp taken
    refine ⟨?_, ?_, ?_⟩
    · intro other channels serving
      rcases eq_or_ne other thread with rfl | ne
      · rfl
      · have before : s.pcs other = .serving channels := (Function.update_of_ne ne ..).symm.trans serving
        exact absurd before (inv.not_serving (by simp [unlocked]))
    · intro ipc stopping
      have held := inv.stopping ipc stopping
      rw [unlocked] at held
      cases held
    · intro ipc joining
      have held := (inv.joining ipc joining).1
      rw [unlocked] at held
      cases held
  · rename_i channels here
    cases taken
    have held := inv.serving thread channels here
    refine ⟨?_, ?_, ?_⟩
    · intro other channels serving
      obtain ⟨ne, serving⟩ := serving_of_update (by simp) serving
      have both := held.symm.trans (inv.serving other channels serving)
      simp only [Option.some.injEq, Holder.thread.injEq] at both
      exact absurd both.symm ne
    · intro ipc stopping
      have both := held.symm.trans (inv.stopping ipc stopping)
      cases both
    · intro ipc joining
      have both := held.symm.trans (inv.joining ipc joining).1
      cases both
  · cases taken

theorem Inv.step (inv : Inv s) (taken : Guarded Unread Step s a s') : Inv s' := by
  obtain ⟨unread, -, fuel, taken⟩ := taken
  cases a with
  | openCall serv ipc =>
    simp only [apply, openCall, Option.ite_none_right_eq_some, Option.bind_eq_bind,
      Option.bind_eq_some_iff] at taken
    obtain ⟨-, heap, -, taken⟩ := taken
    cases taken
    exact inv_outside inv.serving (by simp)
  | openSection thread =>
    simp only [apply] at taken
    split at taken
    · split_ifs at taken with unlocked
      simp only [openSection, Option.bind_eq_bind, Option.bind_eq_some_iff] at taken
      obtain ⟨registry, -, taken⟩ := taken
      cases taken
      refine inv_outside ?_ (by simp)
      intro other channels serving
      refine absurd ?_ (@Inv.not_serving s inv (by simp [unlocked]) other channels)
      split_ifs at serving
      · exact (serving_of_update (by simp) serving).2
      · exact serving
    · cases taken
  | closeCall ipc tmpPrev =>
    simp only [apply, Option.ite_none_right_eq_some, Option.some.injEq] at taken
    obtain ⟨-, rfl⟩ := taken
    exact inv_outside inv.serving (by simp)
  | closeSection =>
    simp only [apply] at taken
    split at taken
    · split_ifs at taken with unlocked
      simp only [closeSection, Option.bind_eq_bind, Option.bind_eq_some_iff] at taken
      obtain ⟨handle, -, servList, -, taken⟩ := taken
      have nobody : ∀ thread channels, s.pcs thread ≠ .serving channels :=
        fun _ _ => inv.not_serving (by simp [unlocked])
      split_ifs at taken
      · cases taken
        refine ⟨?_, fun _ _ => rfl, by simp⟩
        exact fun thread channels serving => absurd serving (nobody thread channels)
      · cases taken
        exact inv_outside inv.serving (by simp)
    · cases taken
  | stop =>
    simp only [apply] at taken
    split at taken
    · rename_i ipc stopping
      cases taken
      exact ⟨inv.serving, by simp, fun _ _ => ⟨inv.stopping ipc stopping, rfl, unread⟩⟩
    · cases taken
  | join =>
    simp only [apply] at taken
    split at taken
    · rename_i ipc joining
      simp only [join, Option.ite_none_right_eq_some, Option.some.injEq] at taken
      obtain ⟨-, rfl⟩ := taken
      have held := (inv.joining ipc joining).1
      refine inv_outside ?_ (by simp)
      exact fun thread channels serving => absurd serving (inv.not_serving (by simp [held]))
    · cases taken
  | free =>
    simp only [apply] at taken
    split at taken
    · simp only [free, Option.bind_eq_bind, Option.bind_eq_some_iff] at taken
      obtain ⟨handle, -, heap, -, taken⟩ := taken
      cases taken
      exact inv_outside inv.serving (by simp)
    · cases taken
  | serve thread => exact inv.serve taken

/-- A thread that has read the flag before it is cleared waits for the mutex of `ipc_close`. -/
theorem Inv.deadlocked (inv : Inv s) (taken : Step s a s') (read : ¬Unread s a) : Deadlocked s' := by
  obtain ⟨-, fuel, taken⟩ := taken
  cases a with
  | stop =>
    have locking : s.pcs s.registry.servPthreadId = .locking := by simpa [Unread] using read
    simp only [apply] at taken
    split at taken
    · rename_i ipc stopping
      cases taken
      exact ⟨⟨ipc, rfl⟩, inv.stopping ipc stopping, locking⟩
    · cases taken
  | openCall | openSection | closeCall | closeSection | join | free | serve => exact absurd trivial read

/-! ### The calls as a whole -/

/-- The loop of `ipc_close` for a peer that is open. -/
def Unlinks (r : Registry) (ipc : ℕ) (servList : Option ℕ) : Prop :=
  ∃ serv, (ipc, serv) ∈ r.opened ∧ ∃ handle, r.heap ipc = some handle ∧ ∃ fuel tmpPrev,
    Registry.unlinkChannel r.heap r.servList handle.serv fuel tmpPrev r.servList = some servList

/-- What the call that the application is in has done so far to the registry that it found. -/
def Within (r : Registry) (s : Service) : Prop :=
  match s.app with
  | .idle => s.registry = r
  | .opening serv ipc => r.heap ipc = none ∧ (∀ channel ∈ serv, r.heap channel = none ∧ channel ≠ ipc) ∧
      ∃ heap, Registry.ipcOpenPeer (match serv with
        | none => r.heap
        | some channel => Registry.ipcCreateChannel r.heap channel) serv ipc = some heap ∧
      s.registry = { r with heap := heap }
  | .closing ipc _ => (∃ serv, (ipc, serv) ∈ r.opened) ∧ s.registry = r
  | .stopping ipc => Unlinks r ipc none ∧ s.registry = { r with servList := none }
  | .joining ipc => Unlinks r ipc none ∧ s.registry = { r with servList := none, servStatus := false }
  | .freeing ipc => ∃ servList, Unlinks r ipc servList ∧
      { r with servList := servList }.exitIfEmpty = some s.registry

variable {r : Registry}

/-- The threads leave the registry alone. -/
theorem serve_frame {thread : ℕ} (taken : s.serve fuel thread = some s') :
    s'.registry = s.registry ∧ s'.app = s.app := by
  simp only [serve] at taken
  split at taken
  · cases taken
    exact ⟨rfl, rfl⟩
  · split_ifs at taken
    obtain ⟨channels, -, rfl⟩ := Option.map_eq_some_iff.mp taken
    exact ⟨rfl, rfl⟩
  · cases taken
    exact ⟨rfl, rfl⟩
  · cases taken

/-- `ipc_open` returns. -/
theorem opens_of_openSection {serv : Option ℕ} {ipc thread : ℕ} (within : Within r s)
    (opening : s.app = .opening serv ipc) (fresh : thread ∉ s.registry.threads)
    (taken : s.openSection serv ipc thread = some s') :
    Registry.Step (some r) (.ipcOpen serv ipc thread) (some s'.registry) ∧ s'.app = .idle := by
  simp only [Within, opening] at within
  obtain ⟨freshPeer, freshChannel, heap, opened, same⟩ := within
  simp only [openSection, Option.bind_eq_bind, Option.bind_eq_some_iff] at taken
  obtain ⟨registry, registered, taken⟩ := taken
  cases taken
  refine ⟨@Registry.step_of_apply _ _ 0 _ ?_ ?_, rfl⟩
  · rw [same] at fresh
    exact ⟨freshPeer, fresh, freshChannel⟩
  · simp only [Registry.apply, Registry.ipcOpen, Option.bind_eq_bind, Option.bind_eq_some_iff]
    rw [same] at registered
    exact ⟨heap, opened, registry, registered, rfl⟩

/-- `ipc_close` returns. -/
theorem closes_of_free {ipc : ℕ} (within : Within r s) (freeing : s.app = .freeing ipc)
    (taken : s.free fuel ipc = some s') :
    ∃ tmpPrev, Registry.Step (some r) (.ipcClose ipc tmpPrev) (some s'.registry) ∧ s'.app = .idle := by
  simp only [Within, freeing] at within
  obtain ⟨servList, ⟨serv, isOpen, handle, here, fuel', tmpPrev, unlinked⟩, exits⟩ := within
  simp only [free, Option.bind_eq_bind, Option.bind_eq_some_iff] at taken
  obtain ⟨handle', here', heap, closed, taken⟩ := taken
  cases taken
  have heaps : s.registry.heap = r.heap ∧ s.registry.opened = r.opened := by
    simp only [Registry.exitIfEmpty, Registry.ipcExit] at exits
    split_ifs at exits <;> rw [← Option.some.inj exits] <;> exact ⟨rfl, rfl⟩
  rw [heaps.1, here] at here'
  cases here'
  refine ⟨tmpPrev, @Registry.step_of_apply _ _ (max fuel fuel') _ ⟨serv, isOpen⟩ ?_, rfl⟩
  simp only [Registry.apply, Registry.ipcClose, Option.bind_eq_bind, Option.bind_eq_some_iff]
  exact ⟨handle, here, servList, Registry.unlinkChannel_mono (Nat.le_max_right ..) unlinked, _, exits,
    heap, Registry.ipcCloseChannel_mono (Nat.le_max_left ..) closed, rfl⟩

/-- A step does part of the call that is running, or ends it. -/
theorem Within.step (within : Within r s) (taken : Step s a s') :
    Within r s' ∨ ∃ call, Registry.Step (some r) call (some s'.registry) ∧ s'.app = .idle := by
  obtain ⟨legal, fuel, taken⟩ := taken
  cases a with
  | openCall serv ipc =>
    simp only [apply, openCall, Option.ite_none_right_eq_some, Option.bind_eq_bind,
      Option.bind_eq_some_iff] at taken
    obtain ⟨idle, heap, opened, taken⟩ := taken
    cases taken
    simp only [Within, idle] at within
    subst within
    exact .inl ⟨legal.1, legal.2, heap, opened, rfl⟩
  | openSection thread =>
    simp only [apply] at taken
    split at taken
    · rename_i serv ipc opening
      split_ifs at taken
      exact .inr ⟨_, opens_of_openSection within opening legal taken⟩
    · cases taken
  | closeCall ipc tmpPrev =>
    simp only [apply, Option.ite_none_right_eq_some, Option.some.injEq] at taken
    obtain ⟨idle, rfl⟩ := taken
    simp only [Within, idle] at within
    subst within
    exact .inl ⟨legal, rfl⟩
  | closeSection =>
    left
    simp only [apply] at taken
    split at taken
    · rename_i ipc tmpPrev closing
      split_ifs at taken
      simp only [Within, closing] at within
      obtain ⟨⟨serv, isOpen⟩, rfl⟩ := within
      simp only [closeSection, Option.bind_eq_bind, Option.bind_eq_some_iff] at taken
      obtain ⟨handle, here, servList, unlinked, taken⟩ := taken
      have unlinks : Unlinks s.registry ipc servList :=
        ⟨serv, isOpen, handle, here, fuel, tmpPrev, unlinked⟩
      split_ifs at taken with empty
      · cases taken
        rw [empty] at unlinks ⊢
        exact ⟨unlinks, rfl⟩
      · cases taken
        exact ⟨servList, unlinks, if_neg empty⟩
    · cases taken
  | stop =>
    left
    simp only [apply] at taken
    split at taken
    · rename_i ipc stopping
      cases taken
      simp only [Within, stopping] at within
      obtain ⟨unlinks, same⟩ := within
      exact ⟨unlinks, by rw [same]⟩
    · cases taken
  | join =>
    left
    simp only [apply] at taken
    split at taken
    · rename_i ipc joining
      simp only [join, Option.ite_none_right_eq_some, Option.some.injEq] at taken
      obtain ⟨⟨started, -⟩, rfl⟩ := taken
      simp only [Within, joining] at within
      obtain ⟨unlinks, same⟩ := within
      rw [same] at started ⊢
      exact ⟨none, unlinks, (if_pos rfl).trans (if_pos started)⟩
    · cases taken
  | free =>
    simp only [apply] at taken
    split at taken
    · rename_i ipc freeing
      obtain ⟨tmpPrev, closes⟩ := closes_of_free within freeing taken
      exact .inr ⟨_, closes⟩
    · cases taken
  | serve thread =>
    obtain ⟨registry, app⟩ := serve_frame taken
    left
    simpa only [Within, registry, app] using within

/-! ### Runs -/

/-- In a run of the two threads there is no deadlock exactly if every `ipc_exit` clears the flag
before the service thread reads it for its next round. -/
theorem deadlockFree_iff_unread {actions : List Action} (run : Run Step start actions s) :
    Throughout Step (fun s => ¬Deadlocked s) start actions ↔ Run (Guarded Unread Step) start actions s := by
  apply @throughout_iff_of_invariant _ _ Step Inv (fun s => ¬Deadlocked s) Unread
  · exact fun _ _ _ _ => step_functional
  · exact inv_start
  · exact Inv.step
  · exact Inv.not_deadlocked
  · exact fun inv taken read free => free (inv.deadlocked taken read)
  · exact run

/-- The thread serves once, and the channel is closed while it is at its condition. -/
theorem deadlockFree_iff_unread_top :
    ∃ s actions, actions = [.openCall (some 10) 11, .openSection 1, .serve 1, .serve 1, .serve 1,
        .closeCall 11 none, .closeSection, .stop, .serve 1, .join, .free] ∧
      Run Step start actions s ∧ Throughout Step (fun s => ¬Deadlocked s) start actions := by
  have guarded : ∃ s, Run (Guarded Unread Step) start [.openCall (some 10) 11, .openSection 1, .serve 1,
      .serve 1, .serve 1, .closeCall 11 none, .closeSection, .stop, .serve 1, .join, .free] s := by
    refine ⟨_, .cons ⟨trivial, ?_, 0, rfl⟩ <| .cons ⟨trivial, ?_, 0, rfl⟩ <|
      .cons ⟨trivial, trivial, 1, rfl⟩ <| .cons ⟨trivial, trivial, 1, rfl⟩ <|
      .cons ⟨trivial, trivial, 1, rfl⟩ <| .cons ⟨trivial, ?_, 0, rfl⟩ <|
      .cons ⟨trivial, trivial, 1, rfl⟩ <| .cons ⟨?_, trivial, 0, rfl⟩ <|
      .cons ⟨trivial, trivial, 1, rfl⟩ <| .cons ⟨trivial, trivial, 0, rfl⟩ <|
      .cons ⟨trivial, trivial, 2, rfl⟩ <| .nil _⟩
    · exact ⟨rfl, by rintro _ ⟨⟩; exact ⟨rfl, by decide⟩⟩
    · simp [Legal, start, Registry.start]
    · exact ⟨some 10, by simp⟩
    · exact show ThreadPc.top ≠ .locking by decide
  obtain ⟨s, guarded⟩ := guarded
  have run := guarded.mono fun taken => taken.2
  exact ⟨s, _, rfl, run, (deadlockFree_iff_unread run).mpr guarded⟩

/-- The thread has gone on to the mutex when `ipc_close` locks it. -/
theorem not_deadlockFree : ¬∀ actions s, Run Step start actions s → ¬Deadlocked s := by
  intro holds
  have run : ∃ s, Run Step start [.openCall (some 10) 11, .openSection 1, .serve 1, .closeCall 11 none,
      .closeSection, .stop] s ∧ Deadlocked s := by
    refine ⟨_, .cons ⟨?_, 0, rfl⟩ <| .cons ⟨?_, 0, rfl⟩ <| .cons ⟨trivial, 1, rfl⟩ <|
      .cons ⟨?_, 0, rfl⟩ <| .cons ⟨trivial, 1, rfl⟩ <| .cons ⟨trivial, 0, rfl⟩ <| .nil _,
      ⟨11, rfl⟩, rfl, rfl⟩
    · exact ⟨rfl, by rintro _ ⟨⟩; exact ⟨rfl, by decide⟩⟩
    · simp [Legal, start, Registry.start]
    · exact ⟨some 10, by simp⟩
  obtain ⟨s, run, deadlocked⟩ := run
  exact holds _ _ run deadlocked

end Service

end AmlCommonlib.SocketIpc
