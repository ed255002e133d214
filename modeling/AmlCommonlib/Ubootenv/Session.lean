import AmlCommonlib.Ubootenv.Crc32
import AmlCommonlib.Ubootenv.RoundTrip

/-! # What a process does while it holds the image lock

A `Session` gathers everything a locked section reads and writes: the private list with its
revision, the shared object and the partition. Device calls take their results from the
environment; an unsuccessful or short write may leave any image behind. Undefined behaviour (a
parser or a printer leaving the region) ends the section with a fault.
-/

namespace AmlCommonlib.Ubootenv

/-- `env_image_t`: the stored checksum and the data region. -/
structure EnvImage where
  crc : BitVec 32
  data : Bytes
deriving DecidableEq, Repr

/-- The acceptance test of `load_bootenv`. -/
def EnvImage.Valid (image : EnvImage) : Prop := crc32 image.data = image.crc

instance (image : EnvImage) : Decidable image.Valid := inferInstanceAs (Decidable (_ = _))

/-- The image decodes, from an empty list, to a list with `name = value`. -/
def EnvImage.Stores (image : EnvImage) (name value : Bytes) : Prop :=
  ∃ l, envParseKv .empty image.data = .ok l ∧ lookup name l.nodes = some value

/-- What `bootenv_init` derives from the device it finds. -/
structure Geometry where
  /-- `strstr(gs_partition_name, "mtd")` -/
  isMtd : Bool
  partitionSize : ℕ
  dataSize : ℕ

/-- `struct uenv_img_shm_info`; its lock is held for the whole section. -/
structure ShmInfo where
  refcnt : ℤ
  revision : UInt32
  img : EnvImage
deriving DecidableEq, Repr

structure Session where
  currentRevision : UInt32
  kv : KvList
  shm : ShmInfo
  device : EnvImage

inductive SectionFault where
  | parse (fault : ParseFault)
  /-- `sprintf` wrote past `gs_env_data_size`. -/
  | overflow
deriving DecidableEq, Repr

/-! ### Device results -/

inductive EraseResult where
  | done
  | failed (left : EnvImage)

/-- The result of the final `write`; a short count is not negative and passes for success. -/
inductive WriteResult where
  | all
  | short (left : EnvImage)
  | failed (left : EnvImage)

/-- The results of the system calls of one `save_bootenv`. -/
structure SaveIo where
  openOk : Bool
  /-- The erase size reported by `MEMGETINFO`. -/
  memGetInfo : Option ℕ
  mallocOk : Bool
  readOk : Bool
  memErase : EraseResult
  write : WriteResult
  fdopenOk : Bool

def EraseResult.leftovers : EraseResult → List EnvImage
  | .done => []
  | .failed left => [left]

def WriteResult.leftovers : WriteResult → List EnvImage
  | .all => []
  | .short left => [left]
  | .failed left => [left]

def WriteResult.isShort : WriteResult → Bool
  | .short _ => true
  | _ => false

/-- The images an unsuccessful attempt may leave on the partition. -/
def SaveIo.leftovers (io : SaveIo) : List EnvImage := io.memErase.leftovers ++ io.write.leftovers

/-! ### Locked sections -/

def liftParse : Except ParseFault KvList → Except SectionFault KvList
  | .ok l => .ok l
  | .error fault => .error (.parse fault)

/-- `check_load_kv`: reload the list when another process has bumped the revision. -/
def checkLoadKv (s : Session) : Except SectionFault Session :=
  if s.currentRevision = s.shm.revision then .ok s
  else (liftParse (envParseKv (envReleaseKv s.kv) s.shm.img.data)).map fun kv =>
    { s with kv, currentRevision := s.shm.revision }

/-- `env_serialize_data` and the checksum of `save_bootenv`, in the shared image. -/
def serialize (g : Geometry) (s : Session) : Except SectionFault Session :=
  match envSerializeData g.dataSize s.kv with
  | none => .error .overflow
  | some data => .ok
    { s with
      currentRevision := s.currentRevision + 1
      shm := { s.shm with revision := s.currentRevision + 1, img := ⟨crc32 data, data⟩ } }

/-- The `write` and the buffer handling behind it. -/
def writeOut (io : SaveIo) (s : Session) : Session × ℤ :=
  match io.write with
  | .all => ({ s with device := s.shm.img }, if io.fdopenOk then 0 else -3)
  | .short left => ({ s with device := left }, if io.fdopenOk then 0 else -3)
  | .failed left => ({ s with device := left }, -3)

/-- `MEMERASE`, then the write. -/
def eraseAndWrite (io : SaveIo) (s : Session) : Session × ℤ :=
  match io.memErase with
  | .failed left => ({ s with device := left }, -2)
  | .done => writeOut io s

/-- The device part of `save_bootenv`. -/
def storeImage (g : Geometry) (io : SaveIo) (s : Session) : Session × ℤ :=
  if !io.openOk then (s, -1)
  else if g.isMtd then
    match io.memGetInfo with
    | none => (s, -4)
    | some erasesize =>
      if g.partitionSize < erasesize then
        if !io.mallocOk then (s, -5)
        else if !io.readOk then (s, -6)
        else eraseAndWrite io s
      else eraseAndWrite io s
  else writeOut io s

/-- `save_bootenv`. -/
def saveBootenv (g : Geometry) (io : SaveIo) (s : Session) : Except SectionFault (Session × ℤ) :=
  (serialize g s).map (storeImage g io)

/-- `MAX_UBOOT_RWRETRY`. -/
def maxUbootRwretry : ℕ := 5

/-- The retry loop of `bootenv_update` with `left` attempts to go, the next one being `i`. -/
def saveLoop (g : Geometry) (ios : ℕ → SaveIo) :
    ℕ → ℕ → Session × ℤ → Except SectionFault (Session × ℤ)
  | 0, _, result => .ok result
  | left + 1, i, (s, ret) =>
    if ret < 0 then (saveBootenv g (ios i) s).bind (saveLoop g ios left (i + 1)) else .ok (s, ret)

/-- `bootenv_update` between lock and unlock, on an initialised process. -/
def bootenvUpdate (g : Geometry) (ios : ℕ → SaveIo) (name value : Bytes) (s : Session) :
    Except SectionFault (Session × ℤ) :=
  (checkLoadKv s).bind fun s =>
    if value = (bootenvGetValue s.kv name).getD [] then .ok (s, 0)
    else saveLoop g ios maxUbootRwretry 0 ({ s with kv := bootenvSetValue s.kv name value }, -1)

/-- `bootenv_get` between lock and unlock. -/
def bootenvGet (name : Bytes) (s : Session) : Except SectionFault (Session × Option Bytes) :=
  (checkLoadKv s).map fun s => (s, bootenvGetValue s.kv name)

/-- The results of `open` and `read` in `load_bootenv`; a short read leaves a mixed image. -/
structure LoadIo where
  openOk : Bool
  shortRead : Option EnvImage

/-- The exit of `load_bootenv` with an error: the count is reset for the next retry. -/
def loadFailure (s : Session) (ret : ℤ) : Session × ℤ :=
  ({ s with shm := { s.shm with refcnt := 0 } }, ret)

/-- The checksum test, the parse and the count of `load_bootenv`. -/
def checkAndParse (s : Session) : Except SectionFault (Session × ℤ) :=
  if s.shm.img.Valid then
    (liftParse (envParseKv s.kv s.shm.img.data)).map fun kv =>
      ({ s with
        kv
        currentRevision := s.shm.revision
        shm := { s.shm with refcnt := s.shm.refcnt + 1 } }, 0)
  else .ok (loadFailure { s with currentRevision := s.shm.revision } (-3))

/-- `load_bootenv` between lock and unlock: only the first user reads the device. -/
def loadBootenv (io : LoadIo) (s : Session) : Except SectionFault (Session × ℤ) :=
  if s.shm.refcnt = 0 then
    if !io.openOk then .ok (loadFailure s (-1))
    else match io.shortRead with
      | some left => .ok (loadFailure { s with shm := { s.shm with img := left } } (-2))
      | none => checkAndParse { s with shm := { s.shm with img := s.device } }
  else checkAndParse s

/-! ### A small partition -/

/-- An eight-byte region on a block device. -/
def smallGeometry : Geometry := ⟨false, 12, 8⟩

/-- A partition that holds `a=1`. -/
def sampleImage : EnvImage := ⟨crc32 [97, 61, 49, 0, 0, 0, 0, 0], [97, 61, 49, 0, 0, 0, 0, 0]⟩

/-- Every system call of a save succeeds. -/
def SaveIo.good : SaveIo := ⟨true, some 0, true, true, .done, .all, true⟩

/-- Every system call of a load succeeds. -/
def LoadIo.good : LoadIo := ⟨true, none⟩

end AmlCommonlib.Ubootenv
