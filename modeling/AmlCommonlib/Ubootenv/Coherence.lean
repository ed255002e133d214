import AmlCommonlib.Lib.Runs
import AmlCommonlib.Ubootenv.Agreement
import AmlCommonlib.Ubootenv.Shared
import Mathlib.Tactic.Ring

/-! # Coherence of the shared environment

The invariant says that whoever has the shared-memory object open or mapped has the one the file
names. It breaks in the window between the locked decrement that finds the count at zero and the
`unlink` outside the lock, so the runs considered keep other processes out of that window. Inside
these runs a process that has finished `bootenv_init` is counted, its list is up to date or
recognisably old, and a value stays in the image and on the partition until its name is updated
again.
-/

namespace AmlCommonlib.Ubootenv

/-- The object a process has open or mapped. -/
def Proc.Holds (proc : Proc) (o : ObjId) : Prop :=
  proc.ptr = .mapped o ∨ ∃ i, proc.pc = .mapping i o

/-- Between the last release and the `unlink` it calls for. -/
def Proc.Pending (proc : Proc) : Prop :=
  ∃ caller, proc.pc = .unmapping caller true ∨ proc.pc = .unlinking caller

/-- `gs_init_done` is set and no exit is in progress. -/
def Proc.InUse (proc : Proc) : Prop := proc.initDone = true ∧ proc.pc = .idle

/-- Inside `bootenv_init`. -/
def Pc.Starting : Pc → Prop
  | .opening _ | .mapping _ _ | .loading _ => True
  | .releasing (.attempt _) | .unmapping (.attempt _) _ | .unlinking (.attempt _) => True
  | _ => False

/-- The state before an `update` that stores what it acknowledges and keeps the revision apart
from all earlier ones. A failed write leaves a partition that fails its checksum, the partition as
it was, or the whole new image. -/
structure SafeUpdate (g : Geometry) (s : Session) (name value : Bytes) (ios : ℕ → SaveIo) :
    Prop where
  properName : ProperName name
  properValue : ProperValue value
  notNull : value ≠ nullText
  fits : ∀ loaded, checkLoadKv s = .ok loaded →
    envSerializeData g.dataSize (bootenvSetValue loaded.kv name value) ≠ none
  whole : ∀ i, (ios i).write.isShort = false
  saved : ∀ loaded, checkLoadKv s = .ok loaded →
    lookup name loaded.kv.nodes = some value → s.device = s.shm.img
  torn : ∀ loaded data, checkLoadKv s = .ok loaded →
    envSerializeData g.dataSize (bootenvSetValue loaded.kv name value) = some data →
    ∀ i, ∀ left ∈ (ios i).leftovers, left.Valid → left = s.device ∨ left = ⟨crc32 data, data⟩
  room : s.shm.revision.toNat + maxUbootRwretry < 2 ^ 32

/-- The condition on a step, in the state before it. -/
def SafeStep (g : Geometry) (w : World) : Action → Prop
  -- no file is opened while an `unlink` is pending
  | .open _ => ∀ q, ¬(w.procs q).Pending
  -- the count reaches zero only when no other process has the object open or mapped
  | .release p => ∀ o, (w.procs p).ptr = .mapped o → (w.objs o).refcnt ≤ 1 →
      ∀ q, q ≠ p → ∀ o', ¬(w.procs q).Holds o'
  -- `bootenv_init` is not repeated after its fifth attempt has loaded the list
  | .init p => (w.procs p).initDone = false → (w.procs p).kv = .empty
  | .update p name value ios => ∀ o, (w.procs p).InUse → (w.procs p).ptr = .mapped o →
      SafeUpdate g (w.session p o) name value ios
  | _ => True

/-! ### The invariant -/

/-- What a counted process has: a positive count, and a list that is old or agrees. -/
structure Attached (shm : ShmInfo) (device : EnvImage) (proc : Proc) : Prop where
  counted : 1 ≤ shm.refcnt
  behind : proc.currentRevision.toNat ≤ shm.revision.toNat
  coherent : Session.Coherent ⟨proc.currentRevision, proc.kv, shm, device⟩

structure ProcInv (w : World) (proc : Proc) : Prop where
  holds : ∀ o, proc.Holds o → w.file = some o
  inUse : proc.InUse → ∃ o, proc.ptr = .mapped o ∧ Attached (w.objs o) w.device proc
  starting : proc.pc.Starting → proc.kv = .empty ∧ proc.initDone = false

/-- `P` is what the counted image and a valid partition satisfy. -/
structure WorldInv (P : EnvImage → Prop) (w : World) : Prop where
  procs : ∀ p, ProcInv w (w.procs p)
  pending : ∀ p q, p ≠ q → (w.procs p).Pending →
    ¬(w.procs q).Pending ∧ ∀ o, ¬(w.procs q).Holds o
  refcnt : ∀ o, w.file = some o → 0 ≤ (w.objs o).refcnt ∨ ∃ p, (w.procs p).Pending
  image : ∀ o, w.file = some o → 1 ≤ (w.objs o).refcnt →
    (w.objs o).img.Valid ∧ P (w.objs o).img
  device : w.device.Valid → P w.device

/-- The least an image has to satisfy. -/
def EnvImage.Decodes (image : EnvImage) : Prop := ∃ l, envParseKv .empty image.data = .ok l

theorem EnvImage.Stores.decodes {image : EnvImage} {name value : Bytes}
    (stores : image.Stores name value) : image.Decodes := by
  obtain ⟨l, parsed, -⟩ := stores
  exact ⟨l, parsed⟩

/-- Nothing a counted process relies on is lost when a locked section leaves the image alone or
replaces it under a later revision. -/
theorem Attached.survives {shm shm' : ShmInfo} {device : EnvImage} {proc : Proc}
    (attached : Attached shm device proc) (device' : EnvImage) (counted : 1 ≤ shm'.refcnt)
    (image : (shm'.img = shm.img ∧ shm'.revision = shm.revision) ∨
      (shm.revision.toNat < shm'.revision.toNat ∧ shm'.img.Decodes)) :
    Attached shm' device' proc := by
  rcases image with ⟨img, revision⟩ | ⟨later, decodes⟩
  · refine ⟨counted, revision ▸ attached.behind, attached.coherent.loadable, ?_, ?_⟩
    · intro same
      exact img ▸ attached.coherent.agrees (same.trans revision)
    · exact img ▸ attached.coherent.decodes
  · refine ⟨counted, le_trans attached.behind later.le, attached.coherent.loadable, ?_, decodes⟩
    intro same
    have bound := attached.behind
    rw [show proc.currentRevision = shm'.revision from same] at bound
    omega

/-! ### Changes of one process and of the shared object -/

/-- The shared object and the partition after a locked section. -/
def World.touch (w : World) (o : ObjId) (shm : ShmInfo) (device : EnvImage) : World :=
  { w with objs := Function.update w.objs o shm, device }

section Changes

variable {P Q : EnvImage → Prop} {w : World} {p : Pid} {proc : Proc}

theorem World.set_self : (w.set p proc).procs p = proc := Function.update_self ..

theorem World.set_other {q : Pid} (other : q ≠ p) : (w.set p proc).procs q = w.procs q :=
  Function.update_of_ne other ..

/-- Whoever holds an object holds the one the file names, and nobody else is about to unlink it. -/
theorem WorldInv.held (inv : WorldInv P w) {o : ObjId} (holds : (w.procs p).Holds o) :
    w.file = some o ∧ ∀ q, q ≠ p → ¬(w.procs q).Pending :=
  ⟨(inv.procs p).holds o holds, fun q other pending => (inv.pending q p other pending).2 o holds⟩

/-- One process moves on, the shared state staying as it is. -/
theorem WorldInv.move (inv : WorldInv P w)
    (holds : ∀ o, proc.Holds o → w.file = some o ∧ ∀ q, q ≠ p → ¬(w.procs q).Pending)
    (pending : proc.Pending → ∀ q, q ≠ p → ¬(w.procs q).Pending ∧ ∀ o, ¬(w.procs q).Holds o)
    (still : (w.procs p).Pending → proc.Pending ∨ w.file = none)
    (inUse : proc.InUse → ∃ o, proc.ptr = .mapped o ∧ Attached (w.objs o) w.device proc)
    (starting : proc.pc.Starting → proc.kv = .empty ∧ proc.initDone = false) :
    WorldInv P (w.set p proc) := by
  refine ⟨?_, ?_, ?_, inv.image, inv.device⟩
  · intro q
    rcases eq_or_ne q p with rfl | other
    · rw [World.set_self]
      exact ⟨fun o held => (holds o held).1, inUse, starting⟩
    · rw [World.set_other other]
      exact ⟨(inv.procs q).holds, (inv.procs q).inUse, (inv.procs q).starting⟩
  · intro q r different
    rcases eq_or_ne q p with rfl | other
    · rw [World.set_self, World.set_other different.symm]
      exact fun unlinks => pending unlinks r different.symm
    · rw [World.set_other other]
      intro unlinks
      rcases eq_or_ne r p with rfl | third
      · rw [World.set_self]
        exact ⟨fun both => (pending both q other).1 unlinks,
          fun o held => (holds o held).2 q other unlinks⟩
      · rw [World.set_other third]
        exact inv.pending q r different unlinks
  · intro o named
    rcases inv.refcnt o named with counted | ⟨q, unlinks⟩
    · exact .inl counted
    · rcases eq_or_ne q p with rfl | other
      · rcases still unlinks with stays | gone
        · exact .inr ⟨q, by rwa [World.set_self]⟩
        · exact absurd named (by simp [World.set, gone])
      · exact .inr ⟨q, by rwa [World.set_other other]⟩

/-- The named object and the partition change, the processes staying where they are. -/
theorem WorldInv.touch (inv : WorldInv P w) {o : ObjId} {shm : ShmInfo} {device : EnvImage}
    (named : w.file = some o) (refcnt : 0 ≤ shm.refcnt ∨ ∃ p, (w.procs p).Pending)
    (image : 1 ≤ shm.refcnt → shm.img.Valid ∧ Q shm.img) (stored : device.Valid → Q device)
    (survives : ∀ q, (w.procs q).InUse → Attached (w.objs o) w.device (w.procs q) →
      Attached shm device (w.procs q)) :
    WorldInv Q (w.touch o shm device) := by
  have there : (w.touch o shm device).objs o = shm := Function.update_self ..
  have only : ∀ {o'}, (w.touch o shm device).file = some o' → o' = o :=
    fun other => Option.some.inj (other.symm.trans named)
  refine ⟨fun q => ⟨(inv.procs q).holds, ?_, (inv.procs q).starting⟩, inv.pending,
    ?_, ?_, stored⟩
  · intro inUse
    obtain ⟨o', mapped, attached⟩ := (inv.procs q).inUse inUse
    obtain rfl := only ((inv.procs q).holds o' (.inl mapped))
    exact ⟨o', mapped, by rw [there]; exact survives q inUse attached⟩
  · intro o' other
    obtain rfl := only other
    rw [there]
    exact refcnt
  · intro o' other
    obtain rfl := only other
    rw [there]
    exact image

/-- Nobody holds an object while the file does not exist. -/
theorem WorldInv.create (inv : WorldInv P w) (g : Geometry) (absent : w.file = none) :
    WorldInv P { w with
      objs := Function.update w.objs w.nextObj (.zeroed g)
      nextObj := w.nextObj + 1
      file := some w.nextObj } := by
  have nobody : ∀ q o, ¬(w.procs q).Holds o := fun q o held =>
    absurd ((inv.procs q).holds o held) (by simp [absent])
  refine ⟨fun q => ⟨fun o held => absurd held (nobody q o), ?_,
    (inv.procs q).starting⟩, inv.pending, ?_, ?_, inv.device⟩
  · intro inUse
    obtain ⟨o, mapped, -⟩ := (inv.procs q).inUse inUse
    exact absurd (.inl mapped) (nobody q o)
  · intro o named
    cases named
    exact .inl (by simp [ShmInfo.zeroed])
  · intro o named
    cases named
    simp [ShmInfo.zeroed]

/-- The `unlink`: its process was alone, and holds nothing afterwards. -/
theorem WorldInv.close (inv : WorldInv P w) (unlinks : (w.procs p).Pending)
    (holds : ∀ o, ¬proc.Holds o) (pending : ¬proc.Pending) (inUse : ¬proc.InUse)
    (starting : proc.pc.Starting → proc.kv = .empty ∧ proc.initDone = false) :
    WorldInv P { w.set p proc with file := none } := by
  have alone : ∀ q, q ≠ p → ¬(w.procs q).Pending ∧ ∀ o, ¬(w.procs q).Holds o :=
    fun q other => inv.pending p q other.symm unlinks
  have idle : ∀ q, ¬((w.set p proc).procs q).Pending := by
    intro q
    rcases eq_or_ne q p with rfl | other
    · rwa [World.set_self]
    · rw [World.set_other other]
      exact (alone q other).1
  refine ⟨?_, fun q _ _ unlinks => absurd unlinks (idle q), ?_,
    ?_, inv.device⟩
  · intro q
    rcases eq_or_ne q p with rfl | other
    · simp only [World.set_self]
      exact ⟨fun o held => absurd held (holds o), fun used => absurd used inUse, starting⟩
    · simp only [World.set_other other]
      refine ⟨fun o held => absurd held ((alone q other).2 o), ?_,
        (inv.procs q).starting⟩
      intro used
      obtain ⟨o, mapped, -⟩ := (inv.procs q).inUse used
      exact absurd (.inl mapped) ((alone q other).2 o)
  · intro _ named
    contradiction
  · intro _ named
    contradiction

end Changes

end AmlCommonlib.Ubootenv
