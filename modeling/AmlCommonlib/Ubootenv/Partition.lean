import AmlCommonlib.Lib.Endian
import AmlCommonlib.Ubootenv.Session

/-! # The checksum and the bytes of the partition

`env_image_t` puts a 32-bit checksum in front of the data. `bootenv_init` computes the size of the
data once for each kind of device, on two of them with the size of a `long` in place of the
checksum's. The layout of the partition as bytes, and what that does to the images that are accepted.
-/

namespace AmlCommonlib.Ubootenv

/-- What the target and the build flags fix. -/
structure Build where
  sizeofLong : ℕ
  ilp32_or_lp64 : sizeofLong = 4 ∨ sizeofLong = 8
  /-- `A1_ENVSIZE`, and none of the flags tested before it. -/
  a1Envsize : Bool

/-- The devices that `bootenv_init` asks for. -/
structure Devices where
  /-- `mtd_name_to_number("ubootenv")` -/
  mtdNumber : ℤ
  nandEnv : Bool
  env : Bool
  blockEnv : Bool
  blockUbootenv : Bool
  openOk : Bool
  /-- `info.size` of `MEMGETINFO`. -/
  memGetInfo : Option UInt32

/-- The subtraction in `unsigned int`. -/
def sizeBehind (partitionSize header : ℕ) : ℕ := (partitionSize + 2 ^ 32 - header) % 2 ^ 32

/-- The size of an MTD device, and that of its data with a `long` in front. -/
def mtdGeometry (b : Build) (d : Devices) (isMtd : Bool) : Except ℤ Geometry :=
  if !d.openOk then .error (-2)
  else match d.memGetInfo with
    | none => .error (-3)
    | some size => .ok ⟨isMtd, size.toNat, sizeBehind size.toNat b.sizeofLong⟩

/-- `sizeof(uint32_t)`. -/
def sizeofCrc : ℕ := 4

/-- A device of a fixed size, and its data with a `uint32_t` in front. -/
def fixedGeometry (partitionSize : ℕ) : Geometry :=
  ⟨false, partitionSize, sizeBehind partitionSize sizeofCrc⟩

/-- The first part of `bootenv_init`. Without a device the sizes stay 0. -/
def findPartition (b : Build) (d : Devices) : Except ℤ Geometry :=
  if 0 ≤ d.mtdNumber then mtdGeometry b d true
  else if d.nandEnv then .ok (fixedGeometry (if b.a1Envsize then 0x2000 else 0x10000))
  else if d.env then .ok (fixedGeometry 0x10000)
  else if d.blockEnv then .ok (fixedGeometry 0x10000)
  else if d.blockUbootenv then mtdGeometry b d false
  else .ok ⟨false, 0, 0⟩

/-! ### The bytes of an image -/

/-- `*gs_env_data.crc` and the bytes that `gs_env_data_size` covers, if they are in the image. -/
def EnvImage.ofBytes (g : Geometry) (image : Bytes) : Option EnvImage :=
  if sizeofCrc + g.dataSize ≤ image.length then
    some ⟨.ofNat 32 (ofLe (image.take sizeofCrc)), (image.drop sizeofCrc).take g.dataSize⟩
  else none

/-- The image as it is written, with the bytes behind the data that no `gs_env_data_size` covers. -/
def EnvImage.toBytes (image : EnvImage) (behind : Bytes) : Bytes :=
  leBytes sizeofCrc image.crc.toNat ++ image.data ++ behind

/-- `load_bootenv` reads the image and does not reject it; `none` is a checksum over bytes that the
image does not have. -/
def Accepts (g : Geometry) (s : Session) (image : Bytes) : Prop :=
  ∃ env, EnvImage.ofBytes g image = some env ∧
    ∀ t, loadBootenv .good { s with device := env } ≠ .ok (t, -3)

/-- The layout of `env_image_t`: the first word is the checksum of all that follows. -/
def Checksummed (image : Bytes) : Prop :=
  BitVec.ofNat 32 (ofLe (image.take sizeofCrc)) = crc32 (image.drop sizeofCrc)

/-- Reader and writer agree with the layout. -/
structure KeepsLayout (g : Geometry) : Prop where
  load : ∀ s image, s.shm.refcnt = 0 → image.length = g.partitionSize →
    (Accepts g s image ↔ Checksummed image)
  save : ∀ s t behind, serialize g s = .ok t →
    sizeofCrc + g.dataSize + behind.length = g.partitionSize →
      Checksummed (t.shm.img.toBytes behind)

/-! ### Reading and writing -/

/-- An image is rejected exactly for its checksum. -/
theorem accepts_iff {g : Geometry} {s : Session} (first : s.shm.refcnt = 0) (image : Bytes) :
    Accepts g s image ↔ ∃ env, EnvImage.ofBytes g image = some env ∧ env.Valid := by
  simp only [Accepts, loadBootenv, if_pos first, LoadIo.good, checkAndParse, Bool.not_true,
    Bool.false_eq_true, if_false]
  refine exists_congr fun env => and_congr_right fun _ => ?_
  by_cases valid : env.Valid
  · simp only [valid, iff_true]
    intro t
    cases liftParse (envParseKv s.kv env.data) <;> simp [Except.map]
  · simp only [valid, iff_false, loadFailure]
    intro never
    exact never _ rfl

theorem take_toBytes (image : EnvImage) (behind : Bytes) :
    (image.toBytes behind).take sizeofCrc = leBytes sizeofCrc image.crc.toNat := by
  rw [EnvImage.toBytes, List.append_assoc]
  exact List.take_left' (length_leBytes ..)

theorem drop_toBytes (image : EnvImage) (behind : Bytes) :
    (image.toBytes behind).drop sizeofCrc = image.data ++ behind := by
  rw [EnvImage.toBytes, List.append_assoc]
  exact List.drop_left' (length_leBytes ..)

/-- The checksum survives the way through the bytes. -/
theorem word_toBytes (image : EnvImage) (behind : Bytes) :
    BitVec.ofNat 32 (ofLe ((image.toBytes behind).take sizeofCrc)) = image.crc := by
  rw [take_toBytes, ofLe_leBytes_of_lt image.crc.isLt, BitVec.ofNat_toNat, BitVec.setWidth_eq]

/-- An image that is written is read back. -/
theorem ofBytes_toBytes {g : Geometry} {image : EnvImage} (size : image.data.length = g.dataSize)
    (behind : Bytes) : EnvImage.ofBytes g (image.toBytes behind) = some image := by
  have inside : sizeofCrc + g.dataSize ≤ (image.toBytes behind).length := by
    simp only [EnvImage.toBytes, List.length_append, length_leBytes, size]
    omega
  rw [EnvImage.ofBytes, if_pos inside, word_toBytes, drop_toBytes, ← size, List.take_left]

theorem checksummed_toBytes (image : EnvImage) (behind : Bytes) :
    Checksummed (image.toBytes behind) ↔ image.crc = crc32 (image.data ++ behind) := by
  rw [Checksummed, word_toBytes, drop_toBytes]

/-! ### The two sizes -/

/-- Where the data fills the partition, the layout is kept. -/
theorem keepsLayout_of_whole {g : Geometry} (whole : sizeofCrc + g.dataSize = g.partitionSize) :
    KeepsLayout g where
  load s image first length := by
    have all : (image.drop sizeofCrc).take g.dataSize = image.drop sizeofCrc := by
      apply List.take_of_length_le
      rw [List.length_drop]
      omega
    rw [accepts_iff first, EnvImage.ofBytes, if_pos (whole.trans length.symm).le, all]
    simp only [Option.some.injEq, exists_eq_left', EnvImage.Valid, Checksummed]
    exact eq_comm
  save s t behind saved length := by
    obtain rfl : behind = [] := List.eq_nil_of_length_eq_zero (by omega)
    rw [checksummed_toBytes, List.append_nil]
    simp only [serialize] at saved
    split at saved
    · cases saved
    · cases saved
      rfl

/-- A session in which nobody uses the shared object. -/
def unused : Session := ⟨0, .empty, ⟨0, 0, ⟨0, []⟩⟩, ⟨0, []⟩⟩

/-- Bytes behind the data can change under an accepted image. -/
theorem not_keepsLayout_of_behind {g : Geometry} (behind : sizeofCrc + g.dataSize < g.partitionSize) :
    ¬KeepsLayout g := by
  intro keeps
  let env : EnvImage := ⟨crc32 (.replicate g.dataSize 0), .replicate g.dataSize 0⟩
  let rest : Bytes := .replicate (g.partitionSize - (sizeofCrc + g.dataSize) - 1) 0
  have each : ∀ b : UInt8, crc32 (env.data ++ rest ++ [b]) = env.crc := by
    intro b
    have accepted : Accepts g unused (env.toBytes (rest ++ [b])) :=
      (accepts_iff rfl _).mpr ⟨env, ofBytes_toBytes (List.length_replicate ..) _, rfl⟩
    have length : (env.toBytes (rest ++ [b])).length = g.partitionSize := by
      simp only [EnvImage.toBytes, List.length_append, length_leBytes, env, rest,
        List.length_replicate, List.length_singleton]
      omega
    have law := (keeps.load unused _ rfl length).mp accepted
    rw [checksummed_toBytes, ← List.append_assoc] at law
    exact law.symm
  have same := crc32_last_byte ((each 0).trans (each 1).symm)
  exact absurd same (by decide)

/-- A size that wraps leaves the reader with no image that it can check. -/
theorem not_keepsLayout_of_wrapped {g : Geometry} (word : sizeofCrc ≤ g.partitionSize)
    (wrapped : g.partitionSize < sizeofCrc + g.dataSize) : ¬KeepsLayout g := by
  intro keeps
  let env : EnvImage := ⟨crc32 (.replicate (g.partitionSize - sizeofCrc) 0),
    .replicate (g.partitionSize - sizeofCrc) 0⟩
  have length : (env.toBytes []).length = g.partitionSize := by
    simp only [EnvImage.toBytes, List.append_nil, List.length_append, length_leBytes, env,
      List.length_replicate]
    omega
  have law : Checksummed (env.toBytes []) := by
    rw [checksummed_toBytes, List.append_nil]
  obtain ⟨found, read, -⟩ :=
    (accepts_iff rfl _).mp ((keeps.load unused _ rfl length).mpr law)
  rw [EnvImage.ofBytes, if_neg (by omega)] at read
  cases read

theorem keepsLayout_iff_whole {g : Geometry} (word : sizeofCrc ≤ g.partitionSize) :
    KeepsLayout g ↔ sizeofCrc + g.dataSize = g.partitionSize := by
  refine ⟨?_, keepsLayout_of_whole⟩
  intro keeps
  rcases lt_trichotomy (sizeofCrc + g.dataSize) g.partitionSize with behind | whole | wrapped
  · exact absurd keeps (not_keepsLayout_of_behind behind)
  · exact whole
  · exact absurd keeps (not_keepsLayout_of_wrapped word wrapped)

/-- `bootenv_init` takes one of the devices whose data starts behind a `uint32_t`. -/
def Devices.Fixed (d : Devices) : Prop :=
  d.mtdNumber < 0 ∧ (d.nandEnv = true ∨ d.env = true ∨ d.blockEnv = true)

theorem sizeBehind_whole {partitionSize header : ℕ} (word : sizeofCrc ≤ partitionSize)
    (small : partitionSize < 2 ^ 32) (wide : header = 4 ∨ header = 8) :
    sizeofCrc + sizeBehind partitionSize header = partitionSize ↔ header = 4 := by
  simp only [sizeofCrc, sizeBehind] at *
  omega

theorem mtdGeometry_whole {b : Build} {d : Devices} {isMtd : Bool} {g : Geometry}
    (found : mtdGeometry b d isMtd = .ok g) (word : sizeofCrc ≤ g.partitionSize) :
    sizeofCrc + g.dataSize = g.partitionSize ↔ b.sizeofLong = 4 := by
  simp only [mtdGeometry] at found
  split_ifs at found
  split at found
  · cases found
  · rename_i size _
    cases found
    exact sizeBehind_whole word size.toNat_lt b.ilp32_or_lp64

/-- For every build, every set of devices and every partition that has a first word: the images that
are accepted and written are those of the layout exactly if the device is one with a `uint32_t` in
its size, or a `long` has four bytes. -/
theorem keepsLayout_iff {b : Build} {d : Devices} {g : Geometry} (found : findPartition b d = .ok g)
    (word : sizeofCrc ≤ g.partitionSize) :
    KeepsLayout g ↔ b.sizeofLong = 4 ∨ d.Fixed := by
  rw [keepsLayout_iff_whole word]
  simp only [findPartition] at found
  simp only [Devices.Fixed]
  split_ifs at found with mtd nand a1 env block ubootenv
  · simp only [mtdGeometry_whole found word, Int.not_lt.mpr mtd, false_and, or_false]
  · cases found
    simp [fixedGeometry, sizeBehind, sizeofCrc, nand, Int.not_le.mp mtd]
  · cases found
    simp [fixedGeometry, sizeBehind, sizeofCrc, nand, Int.not_le.mp mtd]
  · cases found
    simp [fixedGeometry, sizeBehind, sizeofCrc, env, Int.not_le.mp mtd]
  · cases found
    simp [fixedGeometry, sizeBehind, sizeofCrc, block, Int.not_le.mp mtd]
  · simp only [mtdGeometry_whole found word, nand, env, block]
    simp
  · cases found
    simp [sizeofCrc] at word

/-- A 64-bit target without any of the flags. -/
def Build.lp64 : Build := ⟨8, .inr rfl, false⟩

/-- A board whose environment is the MTD partition 3 of 128 KiB. -/
def mtdBoard : Devices := ⟨3, false, false, false, false, true, some 0x20000⟩

theorem keepsLayout_iff_mtd :
    KeepsLayout ⟨true, 0x20000, 0x1FFF8⟩ ↔ Build.lp64.sizeofLong = 4 ∨ mtdBoard.Fixed :=
  @keepsLayout_iff .lp64 mtdBoard ⟨true, 0x20000, 0x1FFF8⟩ rfl (by decide)

/-- With a `long` of eight bytes the last four bytes of an MTD partition are not checked. -/
theorem not_keepsLayout_mtd :
    ∃ g, findPartition .lp64 mtdBoard = .ok g ∧ ¬KeepsLayout g :=
  ⟨⟨true, 0x20000, 0x1FFF8⟩, rfl, not_keepsLayout_of_behind (by decide)⟩

end AmlCommonlib.Ubootenv
