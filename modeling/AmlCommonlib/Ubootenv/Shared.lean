import AmlCommonlib.Ubootenv.Session
import Mathlib.Logic.Function.Basic

/-! # Any number of processes on one shared environment

The steps are the ones other processes can observe: each `open`, `mmap`, `munmap` and `unlink` of
the shared-memory file, and each locked section as a whole. The file names at most one object;
processes may still hold one that is no longer named. A process that follows a stale pointer, or a
section that leaves its region, has no step: runs are the crash-free ones.
-/

namespace AmlCommonlib.Ubootenv

abbrev Pid := ℕ
abbrev ObjId := ℕ

/-- `gs_env_shm_info`. After `munmap` the pointer stays set until the release has finished. -/
inductive ShmPtr where
  | null
  | mapped (o : ObjId)
  | dangling
deriving DecidableEq, Repr

/-- Who called `release_envimg_buffer`: a failed attempt of `bootenv_init`, or `_deinit`. -/
inductive Caller where
  | attempt (i : ℕ)
  | deinit
deriving DecidableEq, Repr

/-- What a process is about to do. -/
inductive Pc where
  | idle
  | opening (i : ℕ)
  | mapping (i : ℕ) (fd : ObjId)
  | loading (i : ℕ)
  | releasing (caller : Caller)
  | unmapping (caller : Caller) (unlinkFinally : Bool)
  | unlinking (caller : Caller)
  | exited
deriving DecidableEq, Repr

structure Proc where
  pc : Pc
  ptr : ShmPtr
  initDone : Bool
  currentRevision : UInt32
  kv : KvList

/-- A process that has not called the library yet. -/
def Proc.start : Proc := ⟨.idle, .null, false, 0, .empty⟩

structure World where
  procs : Pid → Proc
  objs : ObjId → ShmInfo
  nextObj : ObjId
  /-- The object `ENV_IMG_SHM_NAME` names. -/
  file : Option ObjId
  device : EnvImage

/-- A new file, extended with zeros. -/
def ShmInfo.zeroed (g : Geometry) : ShmInfo := ⟨0, 0, ⟨0, List.replicate g.dataSize 0⟩⟩

inductive Action where
  | init (p : Pid)
  | open (p : Pid)
  | mmap (p : Pid)
  | load (p : Pid) (io : LoadIo)
  | release (p : Pid)
  | munmap (p : Pid)
  | unlink (p : Pid)
  | deinit (p : Pid)
  | update (p : Pid) (name value : Bytes) (ios : ℕ → SaveIo)
  | get (p : Pid) (name : Bytes)

inductive Output where
  | none
  | ret (r : ℤ)
  | value (v : Option Bytes)
deriving DecidableEq, Repr

namespace World

def set (w : World) (p : Pid) (proc : Proc) : World :=
  { w with procs := Function.update w.procs p proc }

/-- What a locked section of `p` on the object `o` works with. -/
def session (w : World) (p : Pid) (o : ObjId) : Session :=
  ⟨(w.procs p).currentRevision, (w.procs p).kv, w.objs o, w.device⟩

/-- The world after a locked section of `p` on `o`, with `p` continuing at `pc`. -/
def commit (w : World) (p : Pid) (o : ObjId) (s : Session) (pc : Pc) (initDone : Bool) : World :=
  { w with
    procs := Function.update w.procs p
      ⟨pc, (w.procs p).ptr, initDone, s.currentRevision, s.kv⟩
    objs := Function.update w.objs o s.shm
    device := s.device }

end World

/-- Entering `acquire_envimg_buffer` for attempt `i`: a set pointer is used as it is. -/
def Proc.acquire (proc : Proc) (i : ℕ) : Pc :=
  if proc.ptr = .null then .opening i else .loading i

/-- After a failed attempt `i` the loop goes on or `bootenv_init` returns -2. -/
def Proc.retry (proc : Proc) (i : ℕ) : Proc :=
  if i < maxUbootRwretry then { proc with pc := proc.acquire (i + 1) } else { proc with pc := .idle }

/-- The return of `release_envimg_buffer` to its caller. -/
def Proc.resume (proc : Proc) : Caller → Proc
  | .attempt i => proc.retry i
  | .deinit => { proc with pc := .exited }

/-- What the call has returned once its last attempt has failed. -/
def Caller.output : Caller → Output
  | .attempt i => if i < maxUbootRwretry then .none else .ret (-2)
  | .deinit => .none

/-- One observable step. -/
def World.step (g : Geometry) (w : World) : Action → Option (World × Output)
  | .init p =>
    let proc := w.procs p
    if proc.pc ≠ .idle then none
    else if proc.initDone then some (w, .ret 0)
    else some (w.set p { proc with pc := proc.acquire 1 }, .none)
  | .open p =>
    match (w.procs p).pc with
    | .opening i =>
      match w.file with
      | some o => some (w.set p { w.procs p with pc := .mapping i o }, .none)
      | none =>
        some ({ w.set p { w.procs p with pc := .mapping i w.nextObj } with
          objs := Function.update w.objs w.nextObj (.zeroed g)
          nextObj := w.nextObj + 1
          file := some w.nextObj }, .none)
    | _ => none
  | .mmap p =>
    match (w.procs p).pc with
    | .mapping i fd => some (w.set p { w.procs p with pc := .loading i, ptr := .mapped fd }, .none)
    | _ => none
  | .load p io =>
    match (w.procs p).pc, (w.procs p).ptr with
    | .loading i, .mapped o =>
      match loadBootenv io (w.session p o) with
      | .error _ => none
      | .ok (s, ret) =>
        if ret = 0 then
          -- `i >= MAX_UBOOT_RWRETRY` reports a failure even when the last attempt has loaded
          some (w.commit p o s .idle (decide (i < maxUbootRwretry)),
            .ret (if i < maxUbootRwretry then 0 else -2))
        else if ret < -2 then some (w.commit p o s (.releasing (.attempt i)) false, .none)
        else
          let w := w.commit p o s (.loading i) false
          some (w.set p ((w.procs p).retry i), Caller.output (.attempt i))
    | _, _ => none
  | .release p =>
    match (w.procs p).pc, (w.procs p).ptr with
    | .releasing caller, .mapped o =>
      let shm := { w.objs o with refcnt := (w.objs o).refcnt - 1 }
      some (w.commit p o { w.session p o with shm } (.unmapping caller (decide (shm.refcnt ≤ 0)))
        (w.procs p).initDone, .none)
    | _, _ => none
  | .munmap p =>
    match (w.procs p).pc with
    | .unmapping caller true =>
      some (w.set p { w.procs p with pc := .unlinking caller, ptr := .dangling }, .none)
    | .unmapping caller false =>
      some (w.set p ({ w.procs p with ptr := .null }.resume caller), caller.output)
    | _ => none
  | .unlink p =>
    match (w.procs p).pc with
    | .unlinking caller =>
      match w.file with
      | some _ =>
        some ({ w.set p ({ w.procs p with ptr := .null }.resume caller) with file := none },
          caller.output)
      | none => some (w.set p ((w.procs p).resume caller), caller.output)
    | _ => none
  | .deinit p =>
    let proc := w.procs p
    if proc.pc ≠ .idle then none
    else if proc.initDone then some (w.set p { proc with pc := .releasing .deinit }, .none)
    else some (w.set p { proc with pc := .exited, ptr := .null }, .none)
  | .update p name value ios =>
    match (w.procs p).pc, (w.procs p).initDone, (w.procs p).ptr with
    | .idle, true, .mapped o =>
      match bootenvUpdate g ios name value (w.session p o) with
      | .error _ => none
      | .ok (s, ret) => some (w.commit p o s .idle true, .ret ret)
    | .idle, false, _ => some (w, .ret (-1))
    | _, _, _ => none
  | .get p name =>
    match (w.procs p).pc, (w.procs p).initDone, (w.procs p).ptr with
    | .idle, true, .mapped o =>
      match bootenvGet name (w.session p o) with
      | .error _ => none
      | .ok (s, v) => some (w.commit p o s .idle true, .value v)
    | .idle, false, _ => some (w, .value none)
    | _, _, _ => none

/-- The step relation, labelled with the action and what it returned. -/
def SharedStep (g : Geometry) (w : World) (l : Action × Output) (w' : World) : Prop :=
  w.step g l.1 = some (w', l.2)

/-- Before the first process has started: no shared-memory file, any partition. -/
def World.start (device : EnvImage) : World := ⟨fun _ => .start, fun _ => .zeroed ⟨false, 0, 0⟩, 0, none, device⟩

end AmlCommonlib.Ubootenv
