import AmlCommonlib.BootloaderMessage.AvbCrc32

/-! # Slot metadata in the misc partition

`bootloader_avb.c`: the 32-byte A/B block at offset 2048 of the 2080 bytes the library reads and
writes. A word of the block is kept as the bytes it has in memory. Device calls take their results
from the environment; a failed write may have stored any prefix.
-/

namespace AmlCommonlib.BootloaderMessage

/-- `AB_METADATA_MISC_PARTITION_OFFSET`. -/
def abMetadataMiscPartitionOffset : ℕ := 2048

/-- `MISCBUF_SIZE`. -/
def miscbufSize : ℕ := 2080

/-- `AVB_AB_DATA_SIZE`. -/
def avbAbDataSize : ℕ := 32

/-- `AVB_AB_MAX_PRIORITY`. -/
def avbAbMaxPriority : UInt8 := 15

/-- `AVB_AB_MAX_TRIES_REMAINING`. -/
def avbAbMaxTriesRemaining : UInt8 := 7

/-- `AVB_AB_MAJOR_VERSION`. -/
def avbAbMajorVersion : UInt8 := 1

/-- `AVB_AB_MINOR_VERSION`. -/
def avbAbMinorVersion : UInt8 := 0

/-- `AVB_AB_MAGIC`, `"\0AB0"`. -/
def avbAbMagic : Vector UInt8 4 := #v[0x00, 0x41, 0x42, 0x30]

structure AvbABSlotData where
  priority : UInt8
  triesRemaining : UInt8
  successfulBoot : UInt8
  reserved : UInt8
deriving DecidableEq, Repr

/-- `SlotType_e`. -/
inductive SlotType where
  | slotA
  | slotB
deriving DecidableEq, Repr

/-- `1 - slot`. -/
def SlotType.other : SlotType → SlotType
  | .slotA => .slotB
  | .slotB => .slotA

/-- `AvbABData`, its two slots by name. -/
structure AvbABData where
  magic : Vector UInt8 4
  versionMajor : UInt8
  versionMinor : UInt8
  rollFlag : UInt8
  reserved1 : UInt8
  slotA : AvbABSlotData
  slotB : AvbABSlotData
  reserved2 : Vector UInt8 12
  /-- Filled through `avb_htobe32`: the bytes are big-endian on every host. -/
  crc32 : Vector UInt8 4
deriving DecidableEq, Repr

namespace AvbABData

/-- `info->slots[slot]`. -/
def slot (info : AvbABData) : SlotType → AvbABSlotData
  | .slotA => info.slotA
  | .slotB => info.slotB

def setSlot (info : AvbABData) (slot : SlotType) (data : AvbABSlotData) : AvbABData :=
  match slot with
  | .slotA => { info with slotA := data }
  | .slotB => { info with slotB := data }

/-- The bytes in front of the `crc32` field. -/
def covered (info : AvbABData) : Bytes :=
  info.magic.toList ++ [info.versionMajor, info.versionMinor, info.rollFlag, info.reserved1,
    info.slotA.priority, info.slotA.triesRemaining, info.slotA.successfulBoot, info.slotA.reserved,
    info.slotB.priority, info.slotB.triesRemaining, info.slotB.successfulBoot, info.slotB.reserved] ++
    info.reserved2.toList

/-- The structure in memory. -/
def toBytes (info : AvbABData) : Bytes := info.covered ++ info.crc32.toList

/-- `memcpy(info, data, AVB_AB_DATA_SIZE)`. -/
def ofBytes (data : Bytes) : AvbABData where
  magic := .ofFn fun i => data.getD i 0
  versionMajor := data.getD 4 0
  versionMinor := data.getD 5 0
  rollFlag := data.getD 6 0
  reserved1 := data.getD 7 0
  slotA := ⟨data.getD 8 0, data.getD 9 0, data.getD 10 0, data.getD 11 0⟩
  slotB := ⟨data.getD 12 0, data.getD 13 0, data.getD 14 0, data.getD 15 0⟩
  reserved2 := .ofFn fun i => data.getD (16 + i) 0
  crc32 := .ofFn fun i => data.getD (28 + i) 0

theorem length_covered (info : AvbABData) : info.covered.length = 28 := by simp [covered]

theorem length_toBytes (info : AvbABData) : info.toBytes.length = avbAbDataSize := by
  simp [toBytes, length_covered, avbAbDataSize]

/-- What was written is read back. -/
@[simp] theorem ofBytes_toBytes (info : AvbABData) : ofBytes info.toBytes = info := by
  obtain ⟨magic, versionMajor, versionMinor, rollFlag, reserved1, slotA, slotB, reserved2, crc32⟩ := info
  simp only [ofBytes, toBytes, covered, mk.injEq, List.getD_eq_getElem?_getD, List.append_assoc,
    List.getElem?_append, Vector.length_toList]
  refine ⟨?_, by simp, by simp, by simp, by simp, by simp, by simp, ?_, ?_⟩
  · ext i bound
    simp
  · ext i bound
    simp [show ¬16 + i < 4 by omega, show ¬16 + i - 4 < 12 by omega,
      show 16 + i - 4 - 12 = i by omega, bound]
  · ext i bound
    simp [show ¬28 + i < 4 by omega, show ¬28 + i - 4 < 12 by omega,
      show ¬28 + i - 4 - 12 < 12 by omega, show 28 + i - 4 - 12 - 12 = i by omega, bound]

end AvbABData

/-- The part of the misc partition the library works on. -/
structure Misc where
  bytes : Bytes
  size : bytes.length = miscbufSize

/-- The results of the system calls of one operation; `written` bytes reach the device. -/
structure MiscIo where
  readOk : Bool
  writeOpen : Bool
  written : ℕ
  closeOk : Bool

/-- Everything succeeds. -/
def MiscIo.success : MiscIo := ⟨true, true, miscbufSize, true⟩

/-- The metadata in a misc content. -/
def Misc.info (misc : Misc) : AvbABData := .ofBytes (misc.bytes.drop abMetadataMiscPartitionOffset)

/-- `get_bootloader_message_block`. -/
def getBootloaderMessageBlock (io : MiscIo) (misc : Misc) : Option (Bytes × AvbABData) :=
  if io.readOk then some (misc.bytes, misc.info) else none

/-- `avb_htobe32`, the word it returns as its bytes. -/
def avbHtobe32 (value : BitVec 32) : Vector UInt8 4 :=
  #v[⟨(value >>> 24).setWidth 8⟩, ⟨(value >>> 16).setWidth 8⟩, ⟨(value >>> 8).setWidth 8⟩,
    ⟨value.setWidth 8⟩]

/-- The checksum field that `set_bootloader_message_block` computes. -/
def AvbABData.seal (info : AvbABData) : AvbABData :=
  { info with crc32 := avbHtobe32 (avbCrc32 info.covered) }

/-- `memcpy(miscbuf + AB_METADATA_MISC_PARTITION_OFFSET, info, AVB_AB_DATA_SIZE)`. -/
def copyInfo (miscbuf : Bytes) (info : AvbABData) : Bytes :=
  miscbuf.take abMetadataMiscPartitionOffset ++ info.toBytes ++
    miscbuf.drop (abMetadataMiscPartitionOffset + avbAbDataSize)

/-- `fwrite` of a buffer of which only a prefix may get through. -/
def Misc.overwrite (misc : Misc) (buffer : Bytes) (written : ℕ) : Misc where
  bytes := (buffer.take misc.bytes.length).take written ++
    misc.bytes.drop ((buffer.take misc.bytes.length).take written).length
  size := by
    have bound := misc.size
    simp only [List.length_append, List.length_take, List.length_drop]
    omega

/-- `set_bootloader_message_block`. -/
def setBootloaderMessageBlock (io : MiscIo) (miscbuf : Bytes) (info : AvbABData) (misc : Misc) :
    Misc × ℤ :=
  if !io.writeOpen then (misc, -1)
  else
    (misc.overwrite (copyInfo miscbuf info.seal) io.written,
      if io.written < miscbufSize then -1 else if io.closeOk then 0 else -1)

/-- `get_active_slot_from_misc`. -/
def getActiveSlotFromMisc (io : MiscIo) (misc : Misc) : Option SlotType :=
  (getBootloaderMessageBlock io misc).map fun (_, info) =>
    if info.slotA.priority > info.slotB.priority then .slotA else .slotB

/-- `boot_info_validate`. -/
def bootInfoValidate (info : AvbABData) : Bool :=
  info.magic = avbAbMagic && !(info.versionMajor > avbAbMajorVersion)

/-- `boot_info_set_active_slot`. -/
def bootInfoSetActiveSlot (info : AvbABData) (slot : SlotType) : AvbABData :=
  let info := info.setSlot slot
    { info.slot slot with
      priority := avbAbMaxPriority
      triesRemaining := avbAbMaxTriesRemaining
      successfulBoot := 0 }
  if (info.slot slot.other).priority = avbAbMaxPriority then
    info.setSlot slot.other { info.slot slot.other with priority := avbAbMaxPriority - 1 }
  else info

/-- `boot_info_reset`. -/
def bootInfoReset : AvbABData where
  magic := avbAbMagic
  versionMajor := avbAbMajorVersion
  versionMinor := avbAbMinorVersion
  rollFlag := 0
  reserved1 := 0
  slotA := ⟨avbAbMaxPriority, avbAbMaxTriesRemaining, 0, 0⟩
  slotB := ⟨avbAbMaxPriority - 1, avbAbMaxTriesRemaining, 0, 0⟩
  reserved2 := .replicate 12 0
  crc32 := .replicate 4 0

/-- `set_active_slot`. -/
def setActiveSlot (io : MiscIo) (slot : SlotType) (misc : Misc) : Misc × ℤ :=
  match getBootloaderMessageBlock io misc with
  | none => (misc, -1)
  | some (miscbuf, info) =>
    let info := if bootInfoValidate info then info else bootInfoReset
    setBootloaderMessageBlock io miscbuf
      (bootInfoSetActiveSlot { info with rollFlag := 0 } slot) misc

/-- `set_successful_boot`: no validation, and no write when the flag is set already. -/
def setSuccessfulBoot (io : MiscIo) (misc : Misc) : Misc × ℤ :=
  match getBootloaderMessageBlock io misc with
  | none => (misc, -1)
  | some (miscbuf, info) =>
    let slot := if info.slotB.priority > info.slotA.priority then .slotB else .slotA
    if (info.slot slot).successfulBoot ≠ 0 then (misc, 0)
    else setBootloaderMessageBlock io miscbuf
      (info.setSlot slot { info.slot slot with successfulBoot := 1 }) misc

end AmlCommonlib.BootloaderMessage
