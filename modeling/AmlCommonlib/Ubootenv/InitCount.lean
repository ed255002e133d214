import AmlCommonlib.Ubootenv.SharedRuns

/-! # Counting the users of the shared image

`bootenv_init` and the destructor as whole calls, one after the other, by any number of processes on
one machine with `/dev/shm`. An attempt to load may fail in each of the ways of `load_bootenv`; what
it reads from the device is part of the attempt. A call that would use an unmapped address, or parse
outside of its region, is no step.
-/

namespace AmlCommonlib.Ubootenv

/-! ### One attempt -/

/-- The results of `open` and `ftruncate` in `acquire_envimg_buffer`. -/
inductive AcquireIo where
  | done
  | openFailed
  | ftruncateFailed
deriving DecidableEq

/-- What the environment answers to one `load_bootenv`. -/
structure Attempt where
  acquire : AcquireIo
  load : LoadIo
  device : EnvImage

namespace World

/-- `open` with `O_CREAT`: the named object, or a new one. -/
def openShm (g : Geometry) (w : World) : World × ObjId :=
  match w.file with
  | some o => (w, o)
  | none =>
    ({ w with
      objs := Function.update w.objs w.nextObj (.zeroed g)
      nextObj := w.nextObj + 1
      file := some w.nextObj }, w.nextObj)

/-- `acquire_envimg_buffer`; without an object it returns `NULL`. -/
def acquireEnvimgBuffer (g : Geometry) (io : AcquireIo) (p : Pid) (w : World) :
    Option (World × Option ObjId) :=
  match (w.procs p).ptr with
  | .mapped o => some (w, some o)
  | .dangling => none
  | .null =>
    match io with
    | .openFailed => some (w, none)
    | .ftruncateFailed => some ((w.openShm g).1, none)
    | .done =>
      let (w, o) := w.openShm g
      some (w.set p { w.procs p with ptr := .mapped o }, some o)

/-- `load_bootenv`. -/
def loadBootenv (g : Geometry) (p : Pid) (a : Attempt) (w : World) : Option (World × ℤ) :=
  match w.acquireEnvimgBuffer g a.acquire p with
  | none => none
  | some (w, none) => some (w, -1)
  | some (w, some o) =>
    let w := { w with device := a.device }
    match Ubootenv.loadBootenv a.load (w.session p o) with
    | .error _ => none
    | .ok (s, ret) => some (w.commit p o s .idle (w.procs p).initDone, ret)

/-- `release_envimg_buffer`. -/
def releaseEnvimgBuffer (p : Pid) (w : World) : Option World :=
  match (w.procs p).ptr with
  | .null => some w
  | .dangling => none
  | .mapped o =>
    let refcnt := (w.objs o).refcnt - 1
    let w := w.touch o { w.objs o with refcnt } w.device
    if refcnt ≤ 0 then
      match w.file with
      | some _ => some { w.set p { w.procs p with ptr := .null } with file := none }
      -- `unlink` fails and the pointer stays set behind `munmap`
      | none => some (w.set p { w.procs p with ptr := .dangling })
    else some (w.set p { w.procs p with ptr := .null })

/-- The body of the loop in `bootenv_init`. -/
def attempt (g : Geometry) (p : Pid) (a : Attempt) (w : World) : Option (World × ℤ) :=
  match w.loadBootenv g p a with
  | none => none
  | some (w, ret) =>
    if ret < -2 then (w.releaseEnvimgBuffer p).map fun w => (w, ret) else some (w, ret)

/-- The loop of `bootenv_init` with `left` attempts to go, the next one being `i`, and the results of
the attempts. -/
def initLoop (g : Geometry) (p : Pid) (attempts : ℕ → Attempt) :
    ℕ → ℕ → World → Option (World × List ℤ)
  | 0, _, w => some (w, [])
  | left + 1, i, w =>
    match w.attempt g p (attempts i) with
    | none => none
    | some (w, ret) =>
      if ret < 0 then
        (initLoop g p attempts left (i + 1) w).map fun (w, results) => (w, ret :: results)
      else some (w, [ret])

/-- `gs_init_done = true`. -/
def finishInit (w : World) (p : Pid) : World := w.set p { w.procs p with initDone := true }

end World

/-! ### Calls -/

/-- Whether `bootenv_init` gets the sizes of the partition. -/
inductive Probe where
  | done
  | openFailed
  | noInfo
deriving DecidableEq

inductive Call where
  | init (p : Pid) (probe : Probe) (attempts : ℕ → Attempt)
  | exit (p : Pid)

/-- What a call does: the result of `bootenv_init` with those of its attempts. -/
inductive Outcome where
  | returned (ret : ℤ) (results : List ℤ)
  | exited
deriving DecidableEq

/-- `bootenv_init`. -/
def bootenvInit (g : Geometry) (p : Pid) (probe : Probe) (attempts : ℕ → Attempt) (w : World) :
    Option (World × ℤ × List ℤ) :=
  if (w.procs p).initDone then some (w, 0, [])
  else match probe with
    | .openFailed => some (w, -2, [])
    | .noInfo => some (w, -3, [])
    | .done =>
      match w.initLoop g p attempts maxUbootRwretry 0 with
      | none => none
      | some (w, results) =>
        -- the counter of the loop is the number of results
        if maxUbootRwretry ≤ results.length then some (w, -2, results)
        else some (w.finishInit p, 0, results)

/-- `_deinit`, and the end of the process. -/
def deinit (p : Pid) (w : World) : Option World :=
  let exited (w : World) := w.set p { w.procs p with pc := .exited, ptr := .null }
  if (w.procs p).initDone then (w.releaseEnvimgBuffer p).map exited else some (exited w)

/-- One call of a process that has not exited. -/
def World.call (g : Geometry) (w : World) : Call → Option (World × Outcome)
  | .init p probe attempts =>
    if (w.procs p).pc = .idle then
      (bootenvInit g p probe attempts w).map fun (w, ret, results) => (w, .returned ret results)
    else none
  | .exit p =>
    if (w.procs p).pc = .idle then (deinit p w).map fun w => (w, .exited) else none

def CallStep (g : Geometry) (w : World) (l : Call × Outcome) (w' : World) : Prop :=
  w.call g l.1 = some (w', l.2)

/-! ### What is counted -/

/-- A `bootenv_init` that returns 0 adds a user, an exit removes one. -/
def usersAfter (us : List Pid) : Call × Outcome → List Pid
  | (.init p _ _, .returned ret _) => if ret = 0 ∧ p ∉ us then p :: us else us
  | (.exit p, _) => us.erase p
  | _ => us

/-- The processes whose `bootenv_init` has returned 0 and that have not exited. -/
def users (ls : List (Call × Outcome)) : List Pid := ls.foldl usersAfter []

/-- The count in the object that the file names. -/
def World.refcnt (w : World) : ℤ :=
  match w.file with
  | some o => (w.objs o).refcnt
  | none => 0

/-- `bootenv_init` returns 0 exactly if the process is a user already or an attempt returned 0. -/
def ReturnsRight (us : List Pid) : Call × Outcome → Prop
  | (.init p _ _, .returned ret results) => ret = 0 ↔ p ∈ us ∨ 0 ∈ results
  | _ => True

/-- Every call returned what it should, and the count is that of the users. -/
structure CountsUsers (ls : List (Call × Outcome)) (w : World) : Prop where
  returned : ∀ past l rest, ls = past ++ l :: rest → ReturnsRight (users past) l
  refcnt : w.refcnt = (users ls).length

/-- The last permitted attempt is not the one that succeeds, and a mapping that a failed call has
kept is still that of the named object. -/
def Careful (w : World) : Call × Outcome → Prop
  | (.init p _ _, .returned _ results) =>
    ¬(results.length = maxUbootRwretry ∧ 0 ∈ results) ∧
      ((w.procs p).initDone = false → ∀ o, (w.procs p).ptr = .mapped o → w.file = some o)
  | _ => True

/-! ### The invariant -/

structure Counted (us : List Pid) (w : World) : Prop where
  distinct : us.Nodup
  user : ∀ q, q ∈ us ↔ (w.procs q).initDone = true ∧ (w.procs q).pc = .idle
  mapped : ∀ q ∈ us, ∃ o, (w.procs q).ptr = .mapped o ∧ w.file = some o
  refcnt : ∀ o, w.file = some o → (w.objs o).refcnt = us.length
  image : ∀ o, w.file = some o → us ≠ [] → (w.objs o).img.Valid
  absent : w.file = none → us = []
  kv : ∀ q, (w.procs q).initDone = false → (w.procs q).kv = .empty

/-- A process inside `bootenv_init`, before an attempt. -/
structure Ready (p : Pid) (w : World) : Prop where
  idle : (w.procs p).pc = .idle
  notDone : (w.procs p).initDone = false
  named : ∀ o, (w.procs p).ptr = .mapped o → w.file = some o

variable {g : Geometry} {us : List Pid} {w w' : World} {p : Pid}

theorem Counted.count (counted : Counted us w) : w.refcnt = us.length := by
  rw [World.refcnt]
  cases named : w.file with
  | none => simp [counted.absent named]
  | some o => exact counted.refcnt o named

theorem Counted.not_user (counted : Counted us w) (notDone : (w.procs p).initDone = false) :
    p ∉ us := by
  intro member
  rw [((counted.user p).mp member).1] at notDone
  cases notDone

/-- A process that is no user changes. -/
theorem Counted.set (counted : Counted us w) (outside : p ∉ us) {proc : Proc}
    (still : ¬(proc.initDone = true ∧ proc.pc = .idle))
    (kv : proc.initDone = false → proc.kv = .empty) : Counted us (w.set p proc) where
  distinct := counted.distinct
  user q := by
    rcases eq_or_ne q p with rfl | other
    · rw [World.set_self]
      exact iff_of_false outside still
    · rw [World.set_other other]
      exact counted.user q
  mapped q member := by
    have other : q ≠ p := fun same => outside (same ▸ member)
    rw [World.set_other other]
    exact counted.mapped q member
  refcnt := counted.refcnt
  image := counted.image
  absent := counted.absent
  kv q := by
    rcases eq_or_ne q p with rfl | other
    · rw [World.set_self]
      exact kv
    · rw [World.set_other other]
      exact counted.kv q

/-- The named object changes under an unchanged count. -/
theorem Counted.touch (counted : Counted us w) {o : ObjId} (named : w.file = some o) {shm : ShmInfo}
    (refcnt : shm.refcnt = us.length) (image : us ≠ [] → shm.img.Valid) (device : EnvImage) :
    Counted us (w.touch o shm device) where
  distinct := counted.distinct
  user := counted.user
  mapped := counted.mapped
  refcnt o' named' := by
    obtain rfl : o = o' := Option.some.inj (named.symm.trans named')
    simp only [World.touch, Function.update_self]
    exact refcnt
  image o' named' := by
    obtain rfl : o = o' := Option.some.inj (named.symm.trans named')
    simp only [World.touch, Function.update_self]
    exact image
  absent := counted.absent
  kv := counted.kv

/-- A process becomes a user of the named object. -/
theorem Counted.join (counted : Counted us w) (outside : p ∉ us) {o : ObjId}
    (named : w.file = some o) {shm : ShmInfo} (refcnt : shm.refcnt = us.length + 1)
    (image : shm.img.Valid) (device : EnvImage) {proc : Proc} (isDone : proc.initDone = true)
    (idle : proc.pc = .idle) (mapped : proc.ptr = .mapped o) :
    Counted (p :: us) ((w.touch o shm device).set p proc) where
  distinct := List.nodup_cons.mpr ⟨outside, counted.distinct⟩
  user q := by
    rw [List.mem_cons]
    rcases eq_or_ne q p with rfl | other
    · rw [World.set_self]
      exact iff_of_true (.inl rfl) ⟨isDone, idle⟩
    · rw [World.set_other other, or_iff_right other]
      exact counted.user q
  mapped q member := by
    rcases eq_or_ne q p with rfl | other
    · rw [World.set_self]
      exact ⟨o, mapped, named⟩
    · rw [World.set_other other]
      exact counted.mapped q ((List.mem_cons.mp member).resolve_left other)
  refcnt o' named' := by
    obtain rfl : o = o' := Option.some.inj (named.symm.trans named')
    simp only [World.set, World.touch, Function.update_self, refcnt, List.length_cons]
    rfl
  image o' named' _ := by
    obtain rfl : o = o' := Option.some.inj (named.symm.trans named')
    simp only [World.set, World.touch, Function.update_self]
    exact image
  absent none := by cases named.symm.trans none
  kv q := by
    rcases eq_or_ne q p with rfl | other
    · rw [World.set_self, isDone]
      intro notDone
      cases notDone
    · rw [World.set_other other]
      exact counted.kv q

theorem finishInit_set (w : World) (p : Pid) (proc : Proc) :
    (w.set p proc).finishInit p = w.set p { proc with initDone := true } := by
  simp [World.finishInit, World.set]

/-! ### The parts of an attempt -/

/-- Opening keeps the count: a new object starts at zero, and there are no users then. -/
theorem Counted.openShm (counted : Counted us w) (g : Geometry) :
    Counted us (w.openShm g).1 ∧ (w.openShm g).1.file = some (w.openShm g).2 ∧
      (w.openShm g).1.procs = w.procs := by
  rw [World.openShm]
  cases named : w.file with
  | some o => exact ⟨counted, named, rfl⟩
  | none =>
    obtain rfl := counted.absent named
    refine ⟨⟨counted.distinct, counted.user, nofun, ?_, ?_, nofun, counted.kv⟩, rfl, rfl⟩
    · rintro o fresh
      cases fresh
      simp [Function.update_self, ShmInfo.zeroed]
    · rintro o - users
      exact absurd rfl users

/-- A process stays ready that does not start anything else. -/
theorem Ready.set {proc : Proc} (idle : proc.pc = .idle) (notDone : proc.initDone = false)
    (named : ∀ o, proc.ptr = .mapped o → w.file = some o) : Ready p (w.set p proc) where
  idle := by rwa [World.set_self]
  notDone := by rwa [World.set_self]
  named o mapped := by
    rw [World.set_self] at mapped
    exact named o mapped

/-- The outcome of `acquire_envimg_buffer`: no object, or the one the file names. -/
theorem acquire_spec {io : AcquireIo} {found : Option ObjId} (counted : Counted us w)
    (ready : Ready p w) (done : w.acquireEnvimgBuffer g io p = some (w', found)) :
    Counted us w' ∧ Ready p w' ∧
      ∀ o, found = some o → w'.file = some o ∧ (w'.procs p).ptr = .mapped o := by
  have outside := counted.not_user ready.notDone
  obtain ⟨counted', named, procs⟩ := counted.openShm g
  simp only [World.acquireEnvimgBuffer] at done
  cases ptr : (w.procs p).ptr with
  | mapped o =>
    simp only [ptr, Option.some.injEq, Prod.mk.injEq] at done
    obtain ⟨rfl, rfl⟩ := done
    refine ⟨counted, ready, ?_⟩
    rintro o' same
    cases same
    exact ⟨ready.named o ptr, ptr⟩
  | dangling => simp [ptr] at done
  | null =>
    simp only [ptr] at done
    cases io with
    | openFailed =>
      cases done
      exact ⟨counted, ready, nofun⟩
    | ftruncateFailed =>
      cases done
      refine ⟨counted', ⟨?_, ?_, ?_⟩, nofun⟩
      · rw [procs]
        exact ready.idle
      · rw [procs]
        exact ready.notDone
      · rw [procs, ptr]
        nofun
    | done =>
      cases done
      have kv := counted'.kv p
      rw [procs] at kv ⊢
      refine ⟨counted'.set outside (by simp [ready.notDone]) kv, .set ready.idle ready.notDone ?_, ?_⟩
      · rintro o mapped
        cases mapped
        exact named
      · rintro o same
        cases same
        exact ⟨named, by rw [World.set_self]⟩

/-- Without users nothing is asked of a world without a file. -/
theorem Counted.of_no_file (nobody : ∀ q, ¬((w.procs q).initDone = true ∧ (w.procs q).pc = .idle))
    (kv : ∀ q, (w.procs q).initDone = false → (w.procs q).kv = .empty) (none : w.file = none) :
    Counted [] w where
  distinct := .nil
  user q := iff_of_false (by simp) (nobody q)
  mapped := nofun
  refcnt o named := by
    rw [none] at named
    cases named
  image o named := by
    rw [none] at named
    cases named
  absent _ := rfl
  kv := kv

/-- Releasing the named object after a load that reset its count removes the file. -/
theorem release_unused {o : ObjId} (counted : Counted [] w) (ready : Ready p w)
    (mapped : (w.procs p).ptr = .mapped o)
    (done : w.releaseEnvimgBuffer p = some w') : Counted [] w' ∧ Ready p w' := by
  have named := ready.named o mapped
  have zero : (w.objs o).refcnt = 0 := counted.refcnt o named
  simp only [World.releaseEnvimgBuffer, mapped, zero, World.touch, named] at done
  cases done
  have moved : Counted [] (w.set p { w.procs p with ptr := .null }) :=
    counted.set (counted.not_user ready.notDone) (by simp [ready.notDone]) (counted.kv p)
  have ready₁ : Ready p (w.set p { w.procs p with ptr := .null }) :=
    .set ready.idle ready.notDone (by simp)
  refine ⟨.of_no_file (fun q user => ?_) moved.kv rfl, ready₁.idle, ready₁.notDone, ?_⟩
  · cases (moved.user q).mpr user
  · intro o' still
    cases (congrArg Proc.ptr World.set_self).symm.trans still

/-- A load either fails, and there are no users, or adds the process to them. -/
theorem load_spec {io : LoadIo} {o : ObjId} {s : Session} {ret : ℤ} (counted : Counted us w)
    (ready : Ready p w) (mapped : (w.procs p).ptr = .mapped o)
    (done : loadBootenv io (w.session p o) = .ok (s, ret)) :
    (ret = 0 ∧ Counted (p :: us) ((w.commit p o s .idle (w.procs p).initDone).finishInit p)) ∨
      (ret < 0 ∧ us = [] ∧ Counted us (w.commit p o s .idle (w.procs p).initDone) ∧
        Ready p (w.commit p o s .idle (w.procs p).initDone) ∧
        ((w.commit p o s .idle (w.procs p).initDone).procs p).ptr = .mapped o) := by
  have named := ready.named o mapped
  have count : (w.objs o).refcnt = us.length := counted.refcnt o named
  have outside := counted.not_user ready.notDone
  have empty : (w.procs p).kv = .empty := counted.kv p ready.notDone
  have image : 1 ≤ (w.objs o).refcnt → (w.objs o).img.Valid ∧ True := by
    intro some'
    refine ⟨counted.image o named ?_, trivial⟩
    rintro rfl
    simp [count] at some'
  have cases' := loadBootenv_cases (P := fun _ => True) (s := w.session p o) empty
    (show 0 ≤ (w.objs o).refcnt by omega) image (fun _ => trivial) done
  rw [World.commit_eq_touch_set, ready.notDone]
  rcases cases' with ⟨rfl, loaded⟩ | ⟨negative, failed⟩
  · refine .inl ⟨rfl, ?_⟩
    rw [finishInit_set]
    exact counted.join outside named (loaded.refcnt.trans (congrArg (· + 1) count)) loaded.image.1 _
      rfl rfl mapped
  · have zero : (w.objs o).refcnt = 0 := failed.before
    obtain rfl : us = [] := List.eq_nil_of_length_eq_zero (by omega)
    have touched := counted.touch named failed.after (fun none => absurd rfl none) s.device
    refine .inr ⟨negative, rfl, touched.set outside (by simp) fun _ => failed.kv.trans empty,
      .set rfl rfl ?_, ?_⟩
    · rw [mapped]
      rintro o' same
      cases same
      exact named
    · rw [World.set_self]
      exact mapped

/-- `load_bootenv`: with a result below -1 there are no users, and the object is mapped. -/
theorem loadBootenv_spec {a : Attempt} {ret : ℤ} (counted : Counted us w) (ready : Ready p w)
    (done : w.loadBootenv g p a = some (w', ret)) :
    (ret = 0 ∧ Counted (p :: us) (w'.finishInit p)) ∨
      (ret < 0 ∧ Counted us w' ∧ Ready p w' ∧
        (ret < -1 → us = [] ∧ ∃ o, (w'.procs p).ptr = .mapped o)) := by
  simp only [World.loadBootenv] at done
  cases acquired : w.acquireEnvimgBuffer g a.acquire p with
  | none => simp [acquired] at done
  | some result =>
    obtain ⟨w₁, found⟩ := result
    obtain ⟨counted₁, ready₁, object⟩ := acquire_spec counted ready acquired
    simp only [acquired] at done
    cases found with
    | none =>
      cases done
      exact .inr ⟨by decide, counted₁, ready₁, fun low => absurd low (by decide)⟩
    | some o =>
      obtain ⟨-, mapped⟩ := object o rfl
      have counted₂ : Counted us { w₁ with device := a.device } :=
        ⟨counted₁.distinct, counted₁.user, counted₁.mapped, counted₁.refcnt, counted₁.image,
          counted₁.absent, counted₁.kv⟩
      have ready₂ : Ready p { w₁ with device := a.device } :=
        ⟨ready₁.idle, ready₁.notDone, ready₁.named⟩
      simp only at done
      split at done
      · cases done
      · rename_i s ret' loaded
        cases done
        rcases load_spec counted₂ ready₂ mapped loaded with joined | ⟨negative, empty, rest⟩
        · exact .inl joined
        · exact .inr ⟨negative, rest.1, rest.2.1, fun _ => ⟨empty, o, rest.2.2⟩⟩

/-- One pass of the loop: the process has joined the users, or everything is as before. -/
theorem attempt_spec {a : Attempt} {ret : ℤ} (counted : Counted us w) (ready : Ready p w)
    (done : w.attempt g p a = some (w', ret)) :
    (ret = 0 ∧ Counted (p :: us) (w'.finishInit p)) ∨
      (ret < 0 ∧ Counted us w' ∧ Ready p w') := by
  simp only [World.attempt] at done
  split at done
  · cases done
  · rename_i w₁ ret' loaded
    rcases loadBootenv_spec counted ready loaded with ⟨rfl, joined⟩ | ⟨negative, counted₁, ready₁, low⟩
    · rw [if_neg (by decide)] at done
      cases done
      exact .inl ⟨rfl, joined⟩
    · split_ifs at done with releases
      · obtain ⟨w₂, released, same⟩ := Option.map_eq_some_iff.mp done
        cases same
        obtain ⟨rfl, o, mapped⟩ := low (by omega)
        exact .inr ⟨negative, release_unused counted₁ ready₁ mapped released⟩
      · cases done
        exact .inr ⟨negative, counted₁, ready₁⟩

/-- The loop ends with the attempt that succeeds, or with none. -/
theorem initLoop_spec {attempts : ℕ → Attempt} {results : List ℤ} (left : ℕ) :
    ∀ {i : ℕ} {w : World}, Counted us w → Ready p w →
      w.initLoop g p attempts left i = some (w', results) →
        (0 ∈ results ∧ results.length ≤ left ∧ Counted (p :: us) (w'.finishInit p)) ∨
          (0 ∉ results ∧ results.length = left ∧ Counted us w') := by
  induction left generalizing results with
  | zero =>
    intro i w counted ready done
    cases done
    exact .inr ⟨by simp, rfl, counted⟩
  | succ left ih =>
    intro i w counted ready done
    simp only [World.initLoop] at done
    split at done
    · cases done
    · rename_i w₁ ret tried
      rcases attempt_spec counted ready tried with ⟨rfl, joined⟩ | ⟨negative, counted₁, ready₁⟩
      · rw [if_neg (by decide)] at done
        cases done
        exact .inl ⟨by simp, by simp, joined⟩
      · rw [if_pos negative] at done
        obtain ⟨⟨w₂, later⟩, rest, same⟩ := Option.map_eq_some_iff.mp done
        cases same
        have nonzero : (0 : ℤ) ≠ ret := by omega
        rcases ih counted₁ ready₁ rest with ⟨zero, short, joined⟩ | ⟨noZero, all, counted₂⟩
        · exact .inl ⟨List.mem_cons_of_mem _ zero, by simpa using short, joined⟩
        · exact .inr ⟨by simp [nonzero, noZero], by simpa using all, counted₂⟩

/-! ### Calls -/

/-- `bootenv_init` in a world where the calls so far were careful. -/
theorem bootenvInit_spec {probe : Probe} {attempts : ℕ → Attempt} {ret : ℤ} {results : List ℤ}
    (counted : Counted us w) (idle : (w.procs p).pc = .idle)
    (named : (w.procs p).initDone = false → ∀ o, (w.procs p).ptr = .mapped o → w.file = some o)
    (notLast : ¬(results.length = maxUbootRwretry ∧ 0 ∈ results))
    (done : bootenvInit g p probe attempts w = some (w', ret, results)) :
    (ret = 0 ↔ p ∈ us ∨ 0 ∈ results) ∧
      Counted (if ret = 0 ∧ p ∉ us then p :: us else us) w' := by
  simp only [bootenvInit] at done
  cases isDone : (w.procs p).initDone with
  | true =>
    have member := (counted.user p).mpr ⟨isDone, idle⟩
    simp only [isDone, if_true] at done
    cases done
    simpa [member] using counted
  | false =>
    have outside := counted.not_user isDone
    simp only [isDone, Bool.false_eq_true, if_false] at done
    cases probe with
    | openFailed =>
      cases done
      simpa [outside] using counted
    | noInfo =>
      cases done
      simpa [outside] using counted
    | done =>
      simp only at done
      split at done
      · cases done
      · rename_i w₁ results' looped
        have outcome := initLoop_spec maxUbootRwretry counted ⟨idle, isDone, named isDone⟩ looped
        split_ifs at done with full
        · cases done
          rcases outcome with ⟨zero, short, -⟩ | ⟨noZero, -, counted₁⟩
          · exact absurd ⟨le_antisymm short full, zero⟩ notLast
          · simpa [outside, noZero] using counted₁
        · cases done
          rcases outcome with ⟨zero, -, joined⟩ | ⟨-, all, -⟩
          · simpa [outside, zero] using joined
          · exact absurd all.ge full

/-- The world after a user has left it to the others. -/
theorem Counted.leave (counted : Counted us w) (member : p ∈ us) {o : ObjId}
    (named : w.file = some o) (others : us.erase p ≠ []) {proc : Proc} (exited : proc.pc ≠ .idle)
    (kv : proc.initDone = false → proc.kv = .empty) :
    Counted (us.erase p) ((w.touch o { w.objs o with refcnt := (w.objs o).refcnt - 1 } w.device).set
      p proc) where
  distinct := counted.distinct.erase p
  user q := by
    rcases eq_or_ne q p with rfl | other
    · rw [World.set_self]
      exact iff_of_false counted.distinct.not_mem_erase fun user => exited user.2
    · rw [World.set_other other, List.mem_erase_of_ne other]
      exact counted.user q
  mapped q still := by
    have other : q ≠ p := by
      rintro rfl
      exact counted.distinct.not_mem_erase still
    rw [World.set_other other]
    exact counted.mapped q (List.mem_of_mem_erase still)
  refcnt o' named' := by
    obtain rfl : o = o' := Option.some.inj (named.symm.trans named')
    have some' := List.length_pos_of_mem member
    simp only [World.set, World.touch, Function.update_self, counted.refcnt o named,
      List.length_erase_of_mem member]
    omega
  image o' named' _ := by
    obtain rfl : o = o' := Option.some.inj (named.symm.trans named')
    simp only [World.set, World.touch, Function.update_self]
    exact counted.image o named (List.ne_nil_of_mem member)
  absent none := by cases named.symm.trans none
  kv q := by
    rcases eq_or_ne q p with rfl | other
    · rw [World.set_self]
      exact kv
    · rw [World.set_other other]
      exact counted.kv q

/-- The end of a process. -/
theorem deinit_spec (counted : Counted us w) (idle : (w.procs p).pc = .idle)
    (done : deinit p w = some w') : Counted (us.erase p) w' := by
  simp only [deinit] at done
  cases isDone : (w.procs p).initDone with
  | false =>
    simp only [isDone, Bool.false_eq_true, if_false] at done
    cases done
    have outside := counted.not_user isDone
    rw [List.erase_of_not_mem outside]
    exact counted.set outside (by simp) fun _ => counted.kv p isDone
  | true =>
    have member := (counted.user p).mpr ⟨isDone, idle⟩
    obtain ⟨o, mapped, named⟩ := counted.mapped p member
    have count : (w.objs o).refcnt = us.length := counted.refcnt o named
    have length := List.length_erase_of_mem member
    simp only [isDone, if_true, World.releaseEnvimgBuffer, mapped] at done
    obtain ⟨w₁, released, rfl⟩ := Option.map_eq_some_iff.mp done
    split_ifs at released with last
    · simp only [World.touch, named] at released
      cases released
      have nobody : us.erase p = [] := List.eq_nil_of_length_eq_zero (by omega)
      rw [nobody]
      refine .of_no_file ?_ ?_ rfl
      · intro q user
        rcases eq_or_ne q p with rfl | other
        · simp [World.set] at user
        · simp only [World.set, Function.update_of_ne other] at user
          have left := (List.mem_erase_of_ne other).mpr ((counted.user q).mpr user)
          rw [nobody] at left
          cases left
      · intro q notDone
        rcases eq_or_ne q p with rfl | other
        · simp [World.set, isDone] at notDone
        · simp only [World.set, Function.update_of_ne other] at notDone ⊢
          exact counted.kv q notDone
    · cases released
      have others : us.erase p ≠ [] := by
        intro nobody
        rw [nobody, List.length_nil] at length
        omega
      have left := @Counted.leave us w p counted member o named others
        ⟨.exited, .null, true, (w.procs p).currentRevision, (w.procs p).kv⟩ (by simp) (by simp)
      simpa [World.set, World.touch, isDone] using left

/-- One careful call. -/
theorem call_spec {l : Call × Outcome} (counted : Counted us w)
    (taken : Guarded Careful (CallStep g) w l w') :
    ReturnsRight us l ∧ Counted (usersAfter us l) w' := by
  obtain ⟨careful, taken⟩ := taken
  obtain ⟨call, outcome⟩ := l
  cases call with
  | init p probe attempts =>
    simp only [CallStep, World.call, Option.ite_none_right_eq_some, Option.map_eq_some_iff,
      Prod.mk.injEq, Prod.exists] at taken
    obtain ⟨idle, w₁, ret, results, done, rfl, rfl⟩ := taken
    exact bootenvInit_spec counted idle careful.2 careful.1 done
  | exit p =>
    simp only [CallStep, World.call, Option.ite_none_right_eq_some, Option.map_eq_some_iff,
      Prod.mk.injEq] at taken
    obtain ⟨idle, w₁, done, rfl, rfl⟩ := taken
    exact ⟨trivial, deinit_spec counted idle done⟩

/-! ### Runs -/

theorem users_concat (ls : List (Call × Outcome)) (l : Call × Outcome) :
    users (ls ++ [l]) = usersAfter (users ls) l := by
  rw [users, List.foldl_append]
  rfl

theorem counted_start (device : EnvImage) : Counted [] (World.start device) :=
  .of_no_file (fun q => by simp [World.start, Proc.start]) (fun _ _ => rfl) rfl

/-- In every run of careful calls, with any results of the attempts and any number of processes, each
`bootenv_init` returns 0 exactly if it should, and the count is that of the users. -/
theorem countsUsers_of_careful {device : EnvImage} {ls : List (Call × Outcome)}
    (run : Run (Guarded Careful (CallStep g)) (World.start device) ls w) : CountsUsers ls w := by
  have invariant : ∀ {ls w}, Run (Guarded Careful (CallStep g)) (World.start device) ls w →
      Counted (users ls) w := by
    intro ls w run
    refine run.preserves_history (fun past w => Counted (users past) w) ?_ (counted_start device)
    intro past s l t counted taken
    rw [users_concat]
    exact (call_spec counted taken).2
  refine ⟨?_, (invariant run).count⟩
  rintro past l rest rfl
  obtain ⟨mid, before, after⟩ := Run.append_iff.mp run
  obtain ⟨next, taken, -⟩ := Run.cons_iff.mp after
  exact (call_spec (invariant before) taken).1

/-! ### Concrete histories -/

def Attempt.good : Attempt := ⟨.done, .good, sampleImage⟩

/-- The device cannot be opened. -/
def Attempt.noDevice : Attempt := ⟨.done, ⟨false, none⟩, sampleImage⟩

/-- The device gives an image with another checksum. -/
def Attempt.corrupted : Attempt := ⟨.done, .good, { sampleImage with crc := 0 }⟩

/-- Process 0 starts at its second attempt, process 1 at its first, and process 0 exits. -/
def carefulCalls : List (Call × Outcome) :=
  [(.init 0 .done fun i => if i = 0 then .corrupted else .good, .returned 0 [-3, 0]),
    (.init 1 .done fun _ => .good, .returned 0 [0]), (.exit 0, .exited)]

set_option maxRecDepth 10000 in
theorem countsUsers_of_careful_two :
    ∃ w, Run (Guarded Careful (CallStep smallGeometry)) (World.start sampleImage) carefulCalls w ∧
      CountsUsers carefulCalls w := by
  suffices run : ∃ w, Run (Guarded Careful (CallStep smallGeometry)) (World.start sampleImage)
      carefulCalls w by
    obtain ⟨w, run⟩ := run
    exact ⟨w, run, countsUsers_of_careful run⟩
  exact ⟨_, .cons ⟨⟨by decide, fun _ _ => nofun⟩, rfl⟩
    (.cons ⟨⟨by decide, fun _ _ => nofun⟩, rfl⟩ (.cons ⟨trivial, rfl⟩ (.nil _)))⟩

/-- Four attempts fail and the fifth one loads the image. -/
def fifthAttempt : Call × Outcome :=
  (.init 0 .done fun i => if i < 4 then .noDevice else .good, .returned (-2) [-1, -1, -1, -1, 0])

set_option maxRecDepth 10000 in
/-- `bootenv_init` fails although its last attempt has succeeded. -/
theorem not_countsUsers_fifth_attempt :
    ∃ w, Run (CallStep smallGeometry) (World.start sampleImage) [fifthAttempt] w ∧
      ¬CountsUsers [fifthAttempt] w := by
  refine ⟨_, .cons rfl (.nil _), ?_⟩
  intro counts
  have returned : (-2 : ℤ) = 0 ↔
      (0 : Pid) ∈ ([] : List Pid) ∨ (0 : ℤ) ∈ ([-1, -1, -1, -1, 0] : List ℤ) :=
    counts.returned [] _ [] rfl
  exact absurd (returned.mpr (.inr (by decide))) (by decide)

end AmlCommonlib.Ubootenv
