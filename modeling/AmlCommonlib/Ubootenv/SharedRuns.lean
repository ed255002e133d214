import AmlCommonlib.Ubootenv.Coherence

/-! # Runs of processes that share the environment

Every step of a guarded run keeps the invariant of the previous module, for every property of the
image that the updates of the run keep. With decodability as that property all processes are on
one object; with a stored variable, it survives until its name is updated again.
-/

namespace AmlCommonlib.Ubootenv

/-! ### One update -/

/-- What a safe `bootenv_update` of `name` leaves behind. -/
structure Updated (name value : Bytes) (s t : Session) (ret : ℤ) : Prop where
  coherent : t.Coherent
  synced : t.currentRevision = t.shm.revision
  refcnt : t.shm.refcnt = s.shm.refcnt
  image : t.shm = s.shm ∨ s.shm.revision.toNat < t.shm.revision.toNat
  valid : s.shm.img.Valid → t.shm.img.Valid
  stores : t.shm.img.Stores name value
  others : ∀ n v, n ≠ [] → n ≠ name → v ≠ nullText → s.shm.img.Stores n v → t.shm.img.Stores n v
  device : t.device.Valid → t.device = s.device ∨ t.device = t.shm.img
  stored : ret = 0 → t.device = t.shm.img

private theorem toNat_add_ofNat {revision : UInt32} {attempts bound : ℕ} (few : attempts ≤ bound)
    (room : revision.toNat + bound < 2 ^ 32) :
    (revision + UInt32.ofNat attempts).toNat = revision.toNat + attempts := by
  rw [UInt32.toNat_add, UInt32.toNat_ofNat', Nat.mod_eq_of_lt (a := attempts) (by omega),
    Nat.mod_eq_of_lt (by omega)]

theorem SafeUpdate.updated {g : Geometry} {s : Session} {name value : Bytes} {ios : ℕ → SaveIo}
    (safe : SafeUpdate g s name value ios) (coherent : s.Coherent) :
    ∃ t ret, bootenvUpdate g ios name value s = .ok (t, ret) ∧ Updated name value s t ret := by
  obtain ⟨loaded, reloaded, shm, device, synced, before⟩ := checkLoadKv_spec coherent
  obtain ⟨t, ret, done, outcome⟩ := bootenvUpdate_outcome ios safe.properValue.nonempty
    reloaded (safe.fits loaded reloaded)
  obtain ⟨after, current, agrees, found⟩ :=
    outcome.coherent safe.properName safe.properValue before synced
  have stores := agrees.stores safe.properName.nonempty found
  refine ⟨t, ret, done, ?_⟩
  cases outcome with
  | unchanged same =>
    have saved := safe.saved loaded reloaded same
    exact ⟨after, current, by rw [shm], .inl shm, fun valid => shm ▸ valid, stores,
      fun n v _ _ _ there => shm ▸ there, fun _ => .inl device,
      fun _ => device.trans (saved.trans (by rw [shm]))⟩
  | @attempted _ data _ attempts _ low high written effect =>
    have revision : t.shm.revision.toNat = s.shm.revision.toNat + attempts := by
      rw [← effect.synced, effect.revision]
      simp only [synced, shm]
      exact toNat_add_ofNat high safe.room
    refine ⟨after, current, effect.refcnt.trans (by rw [shm]), .inr (by omega),
      fun _ => effect.image ▸ rfl, stores, ?_, ?_, ?_⟩
    · intro n v proper different text there
      apply agrees.stores proper
      rw [effect.kv, bootenvSetValue_nodes, lookup_assign_other safe.properName.length different]
      exact (before.agrees synced).found proper text (shm ▸ there)
    · intro valid
      rcases effect.device with same | new | ⟨i, member⟩
      · exact .inl (same.trans device)
      · exact .inr new
      · rcases safe.torn loaded data reloaded written i _ member valid with old | whole
        · exact .inl old
        · exact .inr (whole.trans effect.image.symm)
    · intro success
      rcases effect.success (by omega) with ⟨i, short⟩ | written'
      · exact absurd (safe.whole i) (by simp [short])
      · exact written'

/-! ### One load -/

/-- A completed `load_bootenv` that has loaded the list. -/
structure Loaded (P : EnvImage → Prop) (s t : Session) : Prop where
  device : t.device = s.device
  refcnt : t.shm.refcnt = s.shm.refcnt + 1
  revision : t.shm.revision = s.shm.revision
  synced : t.currentRevision = t.shm.revision
  parsed : envParseKv .empty t.shm.img.data = .ok t.kv
  image : t.shm.img.Valid ∧ P t.shm.img
  shared : 1 ≤ s.shm.refcnt → t.shm.img = s.shm.img

/-- A completed `load_bootenv` that has not: nobody was counted before or after. -/
structure NotLoaded (s t : Session) : Prop where
  device : t.device = s.device
  before : s.shm.refcnt = 0
  after : t.shm.refcnt = 0
  kv : t.kv = s.kv

private theorem checkAndParse_cases {P : EnvImage → Prop} {s t : Session} {ret : ℤ}
    (empty : s.kv = .empty) (sound : s.shm.img.Valid → P s.shm.img)
    (done : checkAndParse s = .ok (t, ret)) :
    ret = 0 ∧ Loaded P s t ∧ t.shm.img = s.shm.img ∨
      ret < 0 ∧ ¬s.shm.img.Valid ∧ t.device = s.device ∧ t.shm.refcnt = 0 ∧ t.kv = s.kv := by
  unfold checkAndParse at done
  split_ifs at done with valid
  · cases parsed : envParseKv s.kv s.shm.img.data with
    | error fault => simp [parsed, liftParse, Except.map] at done
    | ok kv =>
      simp only [parsed, liftParse, Except.map, Except.ok.injEq, Prod.mk.injEq] at done
      obtain ⟨rfl, rfl⟩ := done
      exact .inl ⟨rfl, ⟨rfl, rfl, rfl, rfl, empty ▸ parsed, ⟨valid, sound valid⟩, fun _ => rfl⟩, rfl⟩
  · cases done
    exact .inr ⟨by decide, valid, rfl, rfl, rfl⟩

/-- With a sound count a load fails only for the first user. -/
theorem loadBootenv_cases {P : EnvImage → Prop} {io : LoadIo} {s t : Session} {ret : ℤ}
    (empty : s.kv = .empty) (counted : 0 ≤ s.shm.refcnt)
    (image : 1 ≤ s.shm.refcnt → s.shm.img.Valid ∧ P s.shm.img)
    (stored : s.device.Valid → P s.device) (done : loadBootenv io s = .ok (t, ret)) :
    ret = 0 ∧ Loaded P s t ∨ ret < 0 ∧ NotLoaded s t := by
  unfold loadBootenv at done
  split_ifs at done with first shut
  · cases done
    exact .inr ⟨by decide, rfl, first, rfl, rfl⟩
  · split at done
    · cases done
      exact .inr ⟨by decide, rfl, first, rfl, rfl⟩
    · rcases checkAndParse_cases (P := P)
          (s := { s with shm := { s.shm with img := s.device } }) empty stored done with
        ⟨zero, loaded, -⟩ | ⟨negative, -, device, refcnt, kv⟩
      · exact .inl ⟨zero, loaded.device, loaded.refcnt, loaded.revision, loaded.synced,
          loaded.parsed, loaded.image, fun counted => by omega⟩
      · exact .inr ⟨negative, device, first, refcnt, kv⟩
  · have users : 1 ≤ s.shm.refcnt := by omega
    rcases checkAndParse_cases (P := P) empty (fun _ => (image users).2) done with
      ⟨zero, loaded, -⟩ | ⟨-, broken, -⟩
    · exact .inl ⟨zero, loaded⟩
    · exact absurd (image users).1 broken

/-! ### The steps of one process -/

/-- Neither between `open` and `mmap` nor about to unlink. -/
def Pc.Settled (pc : Pc) : Prop :=
  (∀ i o, pc ≠ .mapping i o) ∧ (∀ caller, pc ≠ .unmapping caller true) ∧
    ∀ caller, pc ≠ .unlinking caller

section Steps

variable {P : EnvImage → Prop} {g : Geometry} {w w' : World} {p : Pid} {out : Output} {proc : Proc}

theorem Pc.Settled.holds (settled : proc.pc.Settled) {o : ObjId} (held : proc.Holds o) :
    proc.ptr = .mapped o :=
  held.resolve_right fun ⟨i, between⟩ => settled.1 i o between

theorem Pc.Settled.not_pending (settled : proc.pc.Settled) : ¬proc.Pending := by
  rintro ⟨caller, unmapping | unlinking⟩
  · exact settled.2.1 caller unmapping
  · exact settled.2.2 caller unlinking

/-- A process goes from one settled point to another with its pointer as it was, or dropped. -/
theorem WorldInv.settle (inv : WorldInv P w) (was : ¬(w.procs p).Pending)
    (settled : proc.pc.Settled) (held : ∀ o, proc.ptr = .mapped o → (w.procs p).Holds o)
    (inUse : proc.InUse → ∃ o, proc.ptr = .mapped o ∧ Attached (w.objs o) w.device proc)
    (starting : proc.pc.Starting → proc.kv = .empty ∧ proc.initDone = false) :
    WorldInv P (w.set p proc) :=
  inv.move (fun o holds => inv.held (held o (settled.holds holds)))
    (fun pending => absurd pending settled.not_pending) (fun pending => absurd pending was)
    inUse starting

theorem Proc.acquire_settled (proc : Proc) (i : ℕ) : (proc.acquire i).Settled := by
  unfold Proc.acquire
  split_ifs <;> simp [Pc.Settled]

theorem Proc.resume_settled (proc : Proc) (caller : Caller) : (proc.resume caller).pc.Settled := by
  cases caller with
  | deinit => simp [Proc.resume, Pc.Settled]
  | attempt i =>
    unfold Proc.resume Proc.retry
    dsimp only
    split_ifs
    · exact proc.acquire_settled _
    · simp [Pc.Settled]

@[simp] theorem Proc.resume_ptr (proc : Proc) (caller : Caller) :
    (proc.resume caller).ptr = proc.ptr := by
  cases caller with
  | deinit => rfl
  | attempt i =>
    unfold Proc.resume Proc.retry
    dsimp only
    split_ifs <;> rfl

@[simp] theorem Proc.resume_kv (proc : Proc) (caller : Caller) :
    (proc.resume caller).kv = proc.kv := by
  cases caller with
  | deinit => rfl
  | attempt i =>
    unfold Proc.resume Proc.retry
    dsimp only
    split_ifs <;> rfl

@[simp] theorem Proc.resume_initDone (proc : Proc) (caller : Caller) :
    (proc.resume caller).initDone = proc.initDone := by
  cases caller with
  | deinit => rfl
  | attempt i =>
    unfold Proc.resume Proc.retry
    dsimp only
    split_ifs <;> rfl

/-- A process that resumes after a failed attempt has an empty list and is not in use. -/
theorem Proc.resume_idle (proc : Proc) {caller : Caller}
    (starting : ∀ i, caller = .attempt i → proc.kv = .empty ∧ proc.initDone = false) :
    ¬(proc.resume caller).InUse ∧ ((proc.resume caller).pc.Starting →
      (proc.resume caller).kv = .empty ∧ (proc.resume caller).initDone = false) := by
  cases caller with
  | deinit => exact ⟨fun inUse => by simp [Proc.resume, Proc.InUse] at inUse,
      fun starting => starting.elim⟩
  | attempt i =>
    obtain ⟨kv, initDone⟩ := starting i rfl
    exact ⟨fun inUse => by simpa [initDone] using inUse.1, fun _ => by simp [kv, initDone]⟩

theorem not_pending_of_pc {pc : Pc} (at_pc : (w.procs p).pc = pc) (settled : pc.Settled) :
    ¬(w.procs p).Pending := Pc.Settled.not_pending (at_pc ▸ settled)

theorem WorldInv.step_init (inv : WorldInv P w) (safe : SafeStep g w (.init p))
    (step : w.step g (.init p) = some (w', out)) : WorldInv P w' := by
  simp only [World.step, ne_eq, ite_not] at step
  split_ifs at step with idle done
  · cases step
    exact inv
  · cases step
    have fresh : (w.procs p).initDone = false := by simpa using done
    refine inv.settle (not_pending_of_pc idle (by simp [Pc.Settled])) (Proc.acquire_settled ..)
      (fun o mapped => .inl mapped) (fun inUse => absurd inUse.1 done) fun _ => ⟨safe fresh, fresh⟩

theorem WorldInv.step_open (inv : WorldInv P w) (safe : SafeStep g w (.open p))
    (step : w.step g (.open p) = some (w', out)) : WorldInv P w' := by
  simp only [World.step] at step
  split at step
  next i pc =>
    have calm := not_pending_of_pc (w := w) pc (by simp [Pc.Settled])
    have starting := (inv.procs p).starting (by simp [pc, Pc.Starting])
    have opened : ∀ {v : World} {o}, v.procs = w.procs → v.file = some o → WorldInv P v →
        WorldInv P (v.set p { w.procs p with pc := .mapping i o }) := by
      intro v o procs named inv'
      refine inv'.move (?_) (?_) (?_) (?_)
        fun _ => starting
      · intro o' holds
        refine ⟨?_, fun q _ => procs ▸ safe q⟩
        rcases holds with mapped | ⟨j, mapping⟩
        · exact (inv'.procs p).holds o' (.inl (procs ▸ mapped))
        · cases mapping
          exact named
      · intro pending
        simp [Proc.Pending] at pending
      · intro pending
        exact absurd (procs ▸ pending) calm
      · intro inUse
        exact absurd inUse.2 (by simp)
    split at step
    next o named =>
      cases step
      exact opened rfl named inv
    next absent =>
      cases step
      have created := inv.create g absent
      exact opened (v := _) (by rfl) (by rfl) created
  next => contradiction

theorem WorldInv.step_mmap (inv : WorldInv P w)
    (step : w.step g (.mmap p) = some (w', out)) : WorldInv P w' := by
  simp only [World.step] at step
  split at step
  next i o pc =>
    cases step
    refine inv.settle ?_ (by simp [Pc.Settled]) (?_) (?_) fun _ =>
      (inv.procs p).starting (by simp [pc, Pc.Starting])
    · simp [Proc.Pending, pc]
    · intro o' mapped
      cases mapped
      exact .inr ⟨i, pc⟩
    · intro inUse
      exact absurd inUse.2 (by simp)
  next => contradiction

theorem WorldInv.step_munmap (inv : WorldInv P w)
    (step : w.step g (.munmap p) = some (w', out)) : WorldInv P w' := by
  simp only [World.step] at step
  split at step
  next caller pc =>
    cases step
    have pending : (w.procs p).Pending := ⟨caller, .inl pc⟩
    refine inv.move (?_) (fun _ q other => inv.pending p q other.symm pending)
      (fun _ => .inl ⟨caller, .inr rfl⟩) (?_) ?_
    · intro o holds
      rcases holds with mapped | ⟨i, between⟩ <;> contradiction
    · intro inUse
      exact absurd inUse.2 (by simp)
    · intro starting
      exact (inv.procs p).starting (by rw [pc]; cases caller <;> exact starting)
  next caller pc =>
    cases step
    have attempt : ∀ i, caller = .attempt i →
        (w.procs p).kv = .empty ∧ (w.procs p).initDone = false := by
      rintro i rfl
      exact (inv.procs p).starting (by simp [pc, Pc.Starting])
    obtain ⟨unused, starting⟩ := Proc.resume_idle { w.procs p with ptr := .null } attempt
    refine inv.settle (not_pending_of_pc pc (by simp [Pc.Settled])) (Proc.resume_settled ..)
      (?_) (fun inUse => absurd inUse unused) starting
    intro o mapped
    simp at mapped
  next => contradiction

theorem WorldInv.step_unlink (inv : WorldInv P w)
    (step : w.step g (.unlink p) = some (w', out)) : WorldInv P w' := by
  simp only [World.step] at step
  split at step
  next caller pc =>
    have pending : (w.procs p).Pending := ⟨caller, .inr pc⟩
    have attempt : ∀ i, caller = .attempt i →
        (w.procs p).kv = .empty ∧ (w.procs p).initDone = false := by
      rintro i rfl
      exact (inv.procs p).starting (by simp [pc, Pc.Starting])
    split at step
    next o named =>
      cases step
      obtain ⟨unused, starting⟩ := Proc.resume_idle { w.procs p with ptr := .null } attempt
      refine inv.close pending (?_) (Pc.Settled.not_pending (Proc.resume_settled ..))
        unused starting
      intro o held
      simpa using Pc.Settled.holds (Proc.resume_settled ..) held
    next absent =>
      cases step
      obtain ⟨unused, starting⟩ := Proc.resume_idle (w.procs p) attempt
      refine inv.move (?_)
        (fun pending => absurd pending (Pc.Settled.not_pending (Proc.resume_settled ..)))
        (fun _ => .inr absent) (fun inUse => absurd inUse unused) starting
      intro o holds
      have mapped : (w.procs p).ptr = .mapped o := by
        simpa using Pc.Settled.holds (Proc.resume_settled ..) holds
      exact inv.held (.inl mapped)
  next => contradiction

theorem WorldInv.step_deinit (inv : WorldInv P w)
    (step : w.step g (.deinit p) = some (w', out)) : WorldInv P w' := by
  simp only [World.step, ne_eq, ite_not] at step
  split_ifs at step with idle done
  · cases step
    exact inv.settle (not_pending_of_pc idle (by simp [Pc.Settled])) (by simp [Pc.Settled])
      (fun o mapped => .inl mapped) (fun inUse => absurd inUse.2 (by simp))
      fun starting => starting.elim
  · cases step
    exact inv.settle (not_pending_of_pc idle (by simp [Pc.Settled])) (by simp [Pc.Settled])
      (fun o mapped => by contradiction) (fun inUse => absurd inUse.2 (by simp))
      fun starting => starting.elim

/-! ### The locked sections -/

theorem World.commit_eq_touch_set (o : ObjId) (s : Session) (pc : Pc) (initDone : Bool) :
    w.commit p o s pc initDone = (w.touch o s.shm s.device).set p
      ⟨pc, (w.procs p).ptr, initDone, s.currentRevision, s.kv⟩ := rfl

theorem World.commit_eq_set_touch (o : ObjId) (s : Session) (pc : Pc) (initDone : Bool) :
    w.commit p o s pc initDone = (w.set p
      ⟨pc, (w.procs p).ptr, initDone, s.currentRevision, s.kv⟩).touch o s.shm s.device := rfl

/-- The count is sound for a holder that is not about to unlink. -/
theorem WorldInv.refcnt_nonneg (inv : WorldInv P w) {o : ObjId} (held : (w.procs p).Holds o)
    (calm : ¬(w.procs p).Pending) : 0 ≤ (w.objs o).refcnt := by
  obtain ⟨named, alone⟩ := inv.held held
  rcases inv.refcnt o named with counted | ⟨q, pending⟩
  · exact counted
  · rcases eq_or_ne q p with rfl | other
    · exact absurd pending calm
    · exact absurd pending (alone q other)

/-- A load that has loaded the list leaves the other users attached. -/
theorem WorldInv.touch_loaded {o : ObjId} {t : Session} (inv : WorldInv P w) (named : w.file = some o)
    (counted : 0 ≤ (w.objs o).refcnt) (loaded : Loaded P (w.session p o) t) :
    WorldInv P (w.touch o t.shm t.device) := by
  have more : t.shm.refcnt = (w.objs o).refcnt + 1 := loaded.refcnt
  refine inv.touch named (.inl (by omega)) (fun _ => loaded.image) ?_ ?_
  · rw [loaded.device]
    exact inv.device
  · intro q _ attached
    exact attached.survives _ (by omega)
      (.inl ⟨loaded.shared attached.counted, loaded.revision⟩)

/-- A load that fails has had no other users. -/
theorem WorldInv.touch_notLoaded {o : ObjId} {t : Session} (inv : WorldInv P w)
    (named : w.file = some o) (failed : NotLoaded (w.session p o) t) :
    WorldInv P (w.touch o t.shm t.device) := by
  apply inv.touch named (.inl (Int.le_of_eq failed.after.symm))
  · rw [failed.after]
    intro counted
    contradiction
  · rw [failed.device]
    exact inv.device
  · intro q _ attached
    have before : (w.objs o).refcnt = 0 := failed.before
    have users := attached.counted
    omega

/-- After a failed load the process goes on with an empty list. -/
theorem WorldInv.commit_notLoaded {o : ObjId} {t : Session} {pc : Pc} (inv : WorldInv P w)
    (named : w.file = some o) (failed : NotLoaded (w.session p o) t) (calm : ¬(w.procs p).Pending)
    (kv : t.kv = .empty) (settled : pc.Settled) : WorldInv P (w.commit p o t pc false) := by
  rw [World.commit_eq_touch_set]
  apply (inv.touch_notLoaded named failed).settle calm settled
  · exact fun o' mapped => .inl mapped
  · exact fun inUse => absurd inUse.1 (by simp)
  · exact fun _ => ⟨kv, rfl⟩

theorem WorldInv.step_load {io : LoadIo} (inv : WorldInv P w)
    (step : w.step g (.load p io) = some (w', out)) : WorldInv P w' := by
  simp only [World.step] at step
  split at step
  next i o pc mapped =>
    have held : (w.procs p).Holds o := .inl mapped
    obtain ⟨named, -⟩ := inv.held held
    obtain ⟨empty, fresh⟩ := (inv.procs p).starting (by simp [pc, Pc.Starting])
    have calm := not_pending_of_pc (w := w) pc (by simp [Pc.Settled])
    have counted := inv.refcnt_nonneg held calm
    split at step
    next => contradiction
    next t ret done =>
      rcases loadBootenv_cases (s := w.session p o) (P := P) empty counted (inv.image o named)
        inv.device done with ⟨rfl, loaded⟩ | ⟨negative, failed⟩
      · simp only [if_true] at step
        cases step
        rw [World.commit_eq_touch_set]
        refine (inv.touch_loaded named counted loaded).settle calm (by simp [Pc.Settled])
          (fun o' mapped' => .inl mapped') (fun inUse => ⟨o, mapped, ?_⟩)
          fun starting => starting.elim
        simp only [World.touch, Function.update_self]
        refine ⟨?_, ?_, ?_, fun _ => .of_parsed loaded.parsed, _, loaded.parsed⟩
        · have more : t.shm.refcnt = (w.objs o).refcnt + 1 := loaded.refcnt
          omega
        · rw [loaded.synced]
        · refine envParseKv_loadable ?_ loaded.parsed
          simpa [KvList.nodes, KvList.empty] using Loadable.fresh
      · have kv : t.kv = .empty := failed.kv.trans empty
        rw [if_neg (Int.ne_of_lt negative)] at step
        split_ifs at step with reset
        · cases step
          exact inv.commit_notLoaded named failed calm kv (by simp [Pc.Settled])
        · cases step
          have again : WorldInv P (w.commit p o t (.loading i) false) :=
            inv.commit_notLoaded named failed calm kv (by simp [Pc.Settled])
          have attempt : ∀ j, Caller.attempt i = .attempt j →
              ((w.commit p o t (.loading i) false).procs p).kv = .empty ∧
                ((w.commit p o t (.loading i) false).procs p).initDone = false := by
            simp [World.commit, kv]
          obtain ⟨unused, starting⟩ := Proc.resume_idle _ attempt
          refine again.settle ?_ (Proc.resume_settled _ (.attempt i)) (fun o' mapped' => .inl ?_)
            (fun inUse => absurd inUse unused) starting
          · simp [World.commit, Proc.Pending]
          · exact (Proc.resume_ptr _ (.attempt i)).symm.trans mapped'
  next => contradiction

theorem WorldInv.step_release (inv : WorldInv P w) (safe : SafeStep g w (.release p))
    (step : w.step g (.release p) = some (w', out)) : WorldInv P w' := by
  simp only [World.step] at step
  split at step
  next caller o pc mapped =>
    cases step
    obtain ⟨named, alone⟩ := inv.held (.inl mapped : (w.procs p).Holds o)
    have calm := not_pending_of_pc (w := w) pc (by simp [Pc.Settled])
    rw [World.commit_eq_set_touch]
    set last := decide ((w.objs o).refcnt - 1 ≤ 0) with found
    have moved : WorldInv P (w.set p ⟨.unmapping caller last, (w.procs p).ptr,
        (w.procs p).initDone, (w.procs p).currentRevision, (w.procs p).kv⟩) := by
      refine inv.move (?_) (fun pending q other => ⟨alone q other, ?_⟩)
        (fun pending => absurd pending calm) (fun inUse => absurd inUse.2 (by simp)) ?_
      · intro o' holds
        rcases holds with mapped' | ⟨i, between⟩
        · exact inv.held (.inl mapped')
        · contradiction
      · refine safe o mapped ?_ q other
        simp only [Proc.Pending, Pc.unmapping.injEq, reduceCtorEq, or_false, exists_eq_left'] at pending
        rw [found, decide_eq_true_eq] at pending
        omega
      · intro starting
        exact (inv.procs p).starting (by rw [pc]; cases caller <;> exact starting)
    refine moved.touch named ?_ (?_) inv.device ?_
    · by_cases gone : (w.objs o).refcnt - 1 ≤ 0
      · refine .inr ⟨p, caller, .inl ?_⟩
        simp [World.set_self, found, gone]
      · exact .inl (by simp only; omega)
    · intro more
      exact inv.image o named (by simp only at more; omega)
    · intro q inUse attached
      have counted := attached.counted
      have other : q ≠ p := by
        rintro rfl
        rw [World.set_self] at inUse
        exact absurd inUse.2 (by simp)
      refine attached.survives _ ?_ (.inl ⟨rfl, rfl⟩)
      by_contra few
      have last : (w.objs o).refcnt ≤ 1 := by simp only at few; omega
      rw [World.set_other other] at inUse
      obtain ⟨o', mapped', -⟩ := (inv.procs q).inUse inUse
      exact safe o mapped last q other o' (.inl mapped')
  next => contradiction

theorem Attached.session {o : ObjId} (attached : Attached (w.objs o) w.device (w.procs p)) :
    (w.session p o).Coherent := attached.coherent

/-- A process in use can always read: its list is brought up to date, nothing shared changes. -/
theorem WorldInv.get_spec (inv : WorldInv P w) (inUse : (w.procs p).InUse) (name : Bytes) :
    ∃ o t, w.file = some o ∧ 1 ≤ (w.objs o).refcnt ∧ Agrees t.kv (w.objs o).img.data ∧
      w.step g (.get p name) =
        some (w.commit p o t .idle true, .value (lookup name t.kv.nodes)) ∧
      t.Coherent ∧ t.currentRevision = t.shm.revision ∧ t.shm = w.objs o ∧ t.device = w.device := by
  obtain ⟨o, mapped, attached⟩ := (inv.procs p).inUse inUse
  obtain ⟨initDone, pc⟩ := inUse
  obtain ⟨t, reloaded, shm, device, synced, coherent⟩ := checkLoadKv_spec attached.session
  have agrees : Agrees t.kv (w.objs o).img.data := by
    have current := coherent.agrees synced
    rw [shm] at current
    exact current
  refine ⟨o, t, (inv.held (.inl mapped)).1, attached.counted, agrees, ?_, coherent, synced, shm,
    device⟩
  simp [World.step, pc, initDone, mapped, bootenvGet, reloaded, Except.map, bootenvGetValue]

theorem WorldInv.step_get {name : Bytes} (inv : WorldInv P w)
    (step : w.step g (.get p name) = some (w', out)) : WorldInv P w' := by
  by_cases inUse : (w.procs p).InUse
  · obtain ⟨o, t, named, counted, -, done, coherent, synced, shm, device⟩ :=
      inv.get_spec (g := g) inUse name
    cases step.symm.trans done
    obtain ⟨o', mapped, attached⟩ := (inv.procs p).inUse inUse
    obtain rfl := Option.some.inj (named.symm.trans ((inv.procs p).holds o' (.inl mapped)))
    have same : w.commit p o t .idle true = w.set p
        ⟨.idle, (w.procs p).ptr, true, t.currentRevision, t.kv⟩ := by
      simp only [World.commit, World.set, shm, device, Function.update_eq_self]
    rw [same]
    refine inv.settle (not_pending_of_pc inUse.2 (by simp [Pc.Settled])) (by simp [Pc.Settled])
      (fun o' mapped' => .inl mapped') (fun _ => ⟨o, mapped, counted, ?_, ?_⟩)
      fun starting => starting.elim
    · rw [← shm, synced]
    · rw [← shm, ← device]
      exact coherent
  · simp only [World.step] at step
    split at step
    next pc initDone _ => exact absurd ⟨initDone, pc⟩ inUse
    next =>
      cases step
      exact inv
    next => contradiction

/-- A safe update carries the invariant from one property of the image to another, as long as the
image it may leave in place and the one it stores have the new property. -/
theorem WorldInv.update {Q : EnvImage → Prop} {name value : Bytes} {o : ObjId} {t : Session}
    {ret : ℤ} (inv : WorldInv P w) (inUse : (w.procs p).InUse)
    (mapped : (w.procs p).ptr = .mapped o) (updated : Updated name value (w.session p o) t ret)
    (image : Q t.shm.img) (stored : t.device.Valid → Q t.device) :
    WorldInv Q (w.commit p o t .idle true) := by
  obtain ⟨o', mapped', attached⟩ := (inv.procs p).inUse inUse
  cases mapped.symm.trans mapped'
  have named := (inv.held (.inl mapped)).1
  have refcnt : t.shm.refcnt = (w.objs o).refcnt := updated.refcnt
  have counted : 1 ≤ t.shm.refcnt := refcnt ▸ attached.counted
  have valid := updated.valid (inv.image o named attached.counted).1
  have touched : WorldInv Q (w.touch o t.shm t.device) := by
    apply inv.touch named (.inl (by omega)) (fun _ => ⟨valid, image⟩) stored
    intro q _ old
    apply old.survives _ counted
    rcases updated.image with same | later
    · exact .inl ⟨congrArg _ same, congrArg _ same⟩
    · exact .inr ⟨later, updated.stores.decodes⟩
  rw [World.commit_eq_touch_set]
  refine touched.settle (not_pending_of_pc inUse.2 (by simp [Pc.Settled])) (by simp [Pc.Settled])
    (fun o' mapped' => .inl mapped') (fun _ => ⟨o, mapped, ?_⟩) fun starting => starting.elim
  simp only [World.touch, Function.update_self]
  exact ⟨counted, by rw [updated.synced], updated.coherent⟩

/-- An `update` is answered with -1 before `bootenv_init` and otherwise completes. -/
theorem WorldInv.step_update {name value : Bytes} {ios : ℕ → SaveIo} (inv : WorldInv P w)
    (safe : SafeStep g w (.update p name value ios))
    (step : w.step g (.update p name value ios) = some (w', out)) :
    w' = w ∧ out = .ret (-1) ∨ ∃ o t ret, (w.procs p).InUse ∧ (w.procs p).ptr = .mapped o ∧
      Updated name value (w.session p o) t ret ∧ w' = w.commit p o t .idle true ∧
      out = .ret ret := by
  simp only [World.step] at step
  split at step
  next o pc initDone mapped =>
    have inUse : (w.procs p).InUse := ⟨initDone, pc⟩
    obtain ⟨o', mapped', attached⟩ := (inv.procs p).inUse inUse
    cases mapped.symm.trans mapped'
    obtain ⟨t, ret, done, updated⟩ := (safe o inUse mapped).updated attached.session
    rw [done] at step
    cases step
    exact .inr ⟨o, t, ret, inUse, mapped, updated, rfl, rfl⟩
  next =>
    cases step
    exact .inl ⟨rfl, rfl⟩
  next => contradiction

end Steps

/-! ### Runs -/

/-- The updates of a run keep a property of the image. -/
def Keeps (P : EnvImage → Prop) : Action → Prop
  | .update _ name value _ => ∀ s t ret, Updated name value s t ret → P s.shm.img → P t.shm.img
  | _ => True

/-- One step per action: the invariant is kept. -/
theorem WorldInv.step {P : EnvImage → Prop} {g : Geometry} {w w' : World} {a : Action}
    {out : Output} (inv : WorldInv P w) (safe : SafeStep g w a) (keeps : Keeps P a)
    (step : w.step g a = some (w', out)) : WorldInv P w' := by
  cases a with
  | init p => exact inv.step_init safe step
  | «open» p => exact inv.step_open safe step
  | mmap p => exact inv.step_mmap step
  | load p io => exact inv.step_load step
  | release p => exact inv.step_release safe step
  | munmap p => exact inv.step_munmap step
  | unlink p => exact inv.step_unlink step
  | deinit p => exact inv.step_deinit step
  | get p name => exact inv.step_get step
  | update p name value ios =>
    rcases inv.step_update safe step with ⟨rfl, -⟩ | ⟨o, t, ret, inUse, mapped, updated, rfl, -⟩
    · exact inv
    · obtain ⟨o', mapped', attached⟩ := (inv.procs p).inUse inUse
      cases mapped.symm.trans mapped'
      have named := (inv.held (.inl mapped)).1
      have image := keeps _ _ _ updated (inv.image o named attached.counted).2
      apply inv.update inUse mapped updated image
      intro valid
      rcases updated.device valid with old | new
      · rw [show t.device = w.device from old] at valid ⊢
        exact inv.device valid
      · exact new ▸ image

/-- The condition on a labelled step. -/
def SafeLabel (g : Geometry) (w : World) (l : Action × Output) : Prop := SafeStep g w l.1

/-- The call is an update of `name`. -/
def Action.Updates (name : Bytes) : Action → Prop
  | .update _ n _ _ => n = name
  | _ => False

theorem start_inv {device : EnvImage} (decodes : device.Valid → device.Decodes) :
    WorldInv EnvImage.Decodes (World.start device) where
  procs p := by
    refine ⟨?_, ?_, fun starting => starting.elim⟩
    · intro o holds
      rcases holds with mapped | ⟨i, between⟩ <;> contradiction
    · intro inUse
      exact absurd inUse.1 (by simp [World.start, Proc.start])
  pending p q _ pending := by
    obtain ⟨caller, unmapping | unlinking⟩ := pending <;> contradiction
  refcnt o named := by contradiction
  image o named := by contradiction
  device := decodes

theorem keeps_decodes (a : Action) : Keeps EnvImage.Decodes a := by
  cases a with
  | update p name value ios => exact fun s t ret updated _ => updated.stores.decodes
  | _ => trivial

theorem keeps_stores {name v : Bytes} (proper : name ≠ []) (text : v ≠ nullText) {a : Action}
    (other : ¬a.Updates name) : Keeps (EnvImage.Stores · name v) a := by
  cases a with
  | update p n value ios =>
    exact fun s t ret updated there => updated.others name v proper (Ne.symm other) text there
  | _ => trivial

theorem inv_of_run {g : Geometry} {device : EnvImage} (decodes : device.Valid → device.Decodes)
    {ls : List (Action × Output)} {w : World}
    (run : Run (Guarded (SafeLabel g) (SharedStep g)) (World.start device) ls w) :
    WorldInv EnvImage.Decodes w := by
  refine run.preserves ?_ (start_inv decodes)
  rintro w ⟨a, out⟩ w' inv ⟨safe, step⟩
  exact inv.step safe (keeps_decodes a) step

/-- A guarded update of `name` that returns 0 has stored its value for every later reader. -/
theorem stores_of_run {g : Geometry} {w w' : World} {p : Pid} {name v : Bytes}
    {ios : ℕ → SaveIo} {rest : List (Action × Output)} (inv : WorldInv EnvImage.Decodes w)
    (run : Run (Guarded (SafeLabel g) (SharedStep g)) w ((.update p name v ios, .ret 0) :: rest) w')
    (untouched : ∀ l ∈ rest, ¬l.1.Updates name) :
    name ≠ [] ∧ v ≠ nullText ∧ WorldInv (EnvImage.Stores · name v) w' := by
  obtain ⟨mid, ⟨safe, step⟩, later⟩ := Run.cons_iff.mp run
  rcases inv.step_update safe step with ⟨-, failed⟩ | ⟨o, t, ret, inUse, mapped, updated, rfl, zero⟩
  · cases failed
  · cases zero
    have legal := safe o inUse mapped
    have stored : WorldInv (EnvImage.Stores · name v) (w.commit p o t .idle true) :=
      inv.update inUse mapped updated updated.stores fun _ => updated.stored rfl ▸ updated.stores
    refine ⟨legal.properName.nonempty, legal.notNull, ?_⟩
    refine later.preserves_of_labels ?_ untouched stored
    rintro w ⟨a, out⟩ w' other inv ⟨safe, step⟩
    exact inv.step safe (keeps_stores legal.properName.nonempty legal.notNull other) step

/-- All processes in use, and whoever else has an object mapped, are on the same one. -/
def OneObject (w : World) : Prop :=
  ∀ p, (w.procs p).InUse → ∃ o, (w.procs p).ptr = .mapped o ∧
    ∀ q o', (w.procs q).ptr = .mapped o' → o' = o

/-- Every reader sees the last acknowledged update of `name` in the history `ls`. -/
def ReadsLast (g : Geometry) (ls : List (Action × Output)) (w : World) : Prop :=
  ∀ before after p name v ios, ls = before ++ (.update p name v ios, .ret 0) :: after →
    (∀ l ∈ after, ¬l.1.Updates name) →
    ∀ q, (w.procs q).InUse → ∃ w', SharedStep g w (.get q name, .value (some v)) w'

/-- At the end of every guarded run, with any number of processes, the environment is shared by
all and read as it was last written. -/
theorem coherent_of_safe {g : Geometry} {device : EnvImage}
    (decodes : device.Valid → device.Decodes) {ls : List (Action × Output)} {w : World}
    (run : Run (Guarded (SafeLabel g) (SharedStep g)) (World.start device) ls w) :
    OneObject w ∧ ReadsLast g ls w := by
  constructor
  · intro p inUse
    have inv := inv_of_run decodes run
    obtain ⟨o, mapped, -⟩ := (inv.procs p).inUse inUse
    refine ⟨o, mapped, ?_⟩
    intro q o' mapped'
    have named := (inv.held (.inl mapped)).1
    exact Option.some.inj ((inv.held (.inl mapped')).1.symm.trans named)
  · rintro before after p name v ios rfl untouched q inUse
    obtain ⟨mid, first, second⟩ := Run.append_iff.mp run
    obtain ⟨proper, text, inv⟩ := stores_of_run (inv_of_run decodes first) second untouched
    obtain ⟨o, t, named, counted, agrees, done, -⟩ := inv.get_spec (g := g) inUse name
    rw [agrees.found proper text (inv.image o named counted).2] at done
    exact ⟨_, done⟩

/-! ### Concrete histories -/

/-- `bootenv_init` of one process without interference. -/
def bootActions (p : Pid) : List Action :=
  [.init p, .open p, .mmap p, .load p ⟨true, none⟩]

/-- Processes 0 and 1 start, then process 0 sets `a=2`. -/
def sharedUse : List (Action × Output) :=
  (bootActions 0).zip [.none, .none, .none, .ret 0] ++
    ((bootActions 1).zip [.none, .none, .none, .ret 0] ++
      [(.update 0 [97] [50] fun _ => .good, .ret 0)])

set_option maxRecDepth 10000 in
theorem coherent_of_safe_two : ∃ w,
    Run (Guarded (SafeLabel smallGeometry) (SharedStep smallGeometry)) (World.start sampleImage)
      sharedUse w ∧ OneObject w ∧ ReadsLast smallGeometry sharedUse w := by
  have quiet : ∀ w : World, (∀ q, (w.procs (q + 2)).pc = .idle) →
      (w.procs 0).pc.Settled → (w.procs 1).pc.Settled → SafeLabel smallGeometry w (.open 0, .none) := by
    rintro w rest first second (_ | _ | q)
    · exact first.not_pending
    · exact second.not_pending
    · exact Pc.Settled.not_pending (by rw [rest q]; simp [Pc.Settled])
  obtain ⟨w, run⟩ : ∃ w, Run (Guarded (SafeLabel smallGeometry) (SharedStep smallGeometry))
      (World.start sampleImage) sharedUse w := by
    refine ⟨_, .cons ⟨fun _ => rfl, rfl⟩ (.cons ⟨quiet _ (fun _ => rfl) ?_ ?_, rfl⟩ (.cons ⟨trivial, rfl⟩
      (.cons ⟨trivial, rfl⟩ (.cons ⟨fun _ => rfl, rfl⟩ (.cons ⟨quiet _ (fun _ => rfl) ?_ ?_, rfl⟩
        (.cons ⟨trivial, rfl⟩ (.cons ⟨trivial, rfl⟩ (.cons ⟨?_, rfl⟩ (.nil _)))))))))⟩
    · exact ⟨fun _ _ => nofun, fun _ => nofun, fun _ => nofun⟩
    · exact ⟨fun _ _ => nofun, fun _ => nofun, fun _ => nofun⟩
    · exact ⟨fun _ _ => nofun, fun _ => nofun, fun _ => nofun⟩
    · exact ⟨fun _ _ => nofun, fun _ => nofun, fun _ => nofun⟩
    · rintro o - mapped
      cases mapped
      refine ⟨⟨by decide, by decide, by decide, by decide⟩, ⟨by decide, by decide, by decide⟩,
        by decide, ?_, fun _ => rfl, fun _ _ _ => rfl, fun _ _ _ _ _ => nofun, by decide⟩
      rintro loaded reloaded
      cases reloaded
      decide
  exact ⟨w, run, coherent_of_safe (fun _ => ⟨_, rfl⟩) run⟩

/-- Process 0 is the last user and leaves; process 1 opens the object before the `unlink` and
process 2 after it. Then process 1 sets `a=2`. -/
def unlinkRace : List Action :=
  bootActions 0 ++ [.deinit 0, .release 0] ++ bootActions 1 ++ [.munmap 0, .unlink 0] ++
    bootActions 2 ++ [.update 1 [97] [50] fun _ => .good]

/-- Where a process is, and what it would read under the name `a`. -/
structure ProcView where
  initDone : Bool
  pc : Pc
  ptr : ShmPtr
  read : Option Output
deriving DecidableEq

def World.view (w : World) (p : Pid) : ProcView :=
  ⟨(w.procs p).initDone, (w.procs p).pc, (w.procs p).ptr,
    (w.step smallGeometry (.get p [97])).map (·.2)⟩

def unlinkRaceOutputs : List Output :=
  [.none, .none, .none, .ret 0, .none, .none, .none, .none, .none, .ret 0, .none, .none,
    .none, .none, .none, .ret 0, .ret 0]

private theorem unlinkRace_view :
    (execute (World.step smallGeometry) (World.start sampleImage) unlinkRace).map
        (fun (w, outs) => (outs, w.view 1, w.view 2)) =
      some (unlinkRaceOutputs, ⟨true, .idle, .mapped 0, some (.value (some [50]))⟩,
        ⟨true, .idle, .mapped 1, some (.value (some [49]))⟩) := by
  decide +kernel

/-- The two processes are on different objects, and process 2 does not read the update. -/
theorem unlinkRace_not_coherent : sampleImage.Decodes ∧ ∃ w,
    Run (SharedStep smallGeometry) (World.start sampleImage) (unlinkRace.zip unlinkRaceOutputs) w ∧
      ¬OneObject w ∧ ¬ReadsLast smallGeometry (unlinkRace.zip unlinkRaceOutputs) w := by
  have view := unlinkRace_view
  simp only [World.view, Option.map_eq_some_iff, Prod.exists, Prod.mk.injEq,
    ProcView.mk.injEq] at view
  obtain ⟨w, outs, done, rfl, ⟨done₁, pc₁, ptr₁, -⟩, done₂, pc₂, ptr₂, w', out, read, rfl⟩ := view
  refine ⟨⟨_, rfl⟩, w, run_of_execute done, ?_, ?_⟩
  · intro one
    obtain ⟨o, mapped, same⟩ := one 1 ⟨done₁, pc₁⟩
    obtain rfl := same 2 1 ptr₂
    cases ptr₁.symm.trans mapped
  · intro reads
    obtain ⟨w'', found⟩ := reads ((unlinkRace.take 16).zip unlinkRaceOutputs) [] 1 [97] [50]
      (fun _ => .good) rfl (by simp) 2 ⟨done₂, pc₂⟩
    cases read.symm.trans found

end AmlCommonlib.Ubootenv
