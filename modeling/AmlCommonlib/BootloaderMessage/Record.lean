import AmlCommonlib.BootloaderMessage.Avb
import AmlCommonlib.Lib.Block

/-! # The boot message record

`bootloader_message.c`: one record of 1088 bytes that every operation reads, changes in memory and
writes back. The copies and the fields they are meant for have sizes of their own, so the record is
kept as a block and a field is a range of it.
-/

namespace AmlCommonlib.BootloaderMessage.Record

/-- `COMMANDBUF_SIZE`. -/
def commandbufSize : ℕ := 32

/-- `RECOVERYBUF_SIZE`. -/
def recoverybufSize : ℕ := 768

/-- `SLOTBUF_SIZE`. -/
def slotbufSize : ℕ := 32

/-- `sizeof(struct bootloader_message)`. -/
def recordSize : ℕ := 1088

/-- `CMD_RUN_RECOVERY`, `boot-recovery`. -/
def cmdRunRecovery : Bytes := [98, 111, 111, 116, 45, 114, 101, 99, 111, 118, 101, 114, 121]

/-- The fields of `struct bootloader_message`. -/
inductive Field
  | command
  | status
  | recovery
  | stage
  | slotSuffix
  | reserved
deriving DecidableEq

def Field.offset : Field → ℕ
  | .command => 0
  | .status => 32
  | .recovery => 64
  | .stage => 832
  | .slotSuffix => 864
  | .reserved => 896

def Field.size : Field → ℕ
  | .command => 32
  | .status => 32
  | .recovery => 768
  | .stage => 32
  | .slotSuffix => 32
  | .reserved => 192

/-- `struct bootloader_message`. -/
structure BootMessage where
  bytes : Bytes
  size : bytes.length = recordSize

/-- A record that was never written. -/
def blankRecord : BootMessage := ⟨List.replicate recordSize 0, List.length_replicate⟩

/-- The bytes of a field. -/
def BootMessage.get (info : BootMessage) (f : Field) : Bytes := slice info.bytes f.offset f.size

/-- `memcpy` to an address inside the record. -/
def BootMessage.memcpy (info : BootMessage) (offset : ℕ) (src : Bytes) : BootMessage where
  bytes := overwrite info.bytes offset src
  size := (length_overwrite ..).trans info.size

/-- `memset(dst, 0, n)`. -/
def BootMessage.memset (info : BootMessage) (offset n : ℕ) : BootMessage :=
  info.memcpy offset (.replicate n 0)

/-- The bytes that `strncpy(dst, s, n)` stores: the rest is padded. -/
def strncpy (s : Bytes) (n : ℕ) : Bytes := (s ++ .replicate n 0).take n

/-! ### The device -/

/-- The outcome of `set_bootloader_message`; a failed one may leave any record. -/
inductive WriteOutcome
  | done
  | failed (left : BootMessage)

/-- The results of the device calls of one operation. -/
structure RecordIo where
  readOk : Bool
  write : WriteOutcome

/-- Everything succeeds. -/
def RecordIo.success : RecordIo := ⟨true, .done⟩

/-- `get_bootloader_message`, a change of the record, `set_bootloader_message`. -/
def update (io : RecordIo) (change : BootMessage → BootMessage) (misc : BootMessage) :
    BootMessage × ℤ :=
  if !io.readOk then (misc, -1)
  else
    match io.write with
    | .done => (change misc, 0)
    | .failed left => (left, -1)

/-! ### The recovery command -/

/-- `set_recovery_otapath`; `none` is a null pointer. -/
def setRecoveryOtapath (io : RecordIo) : Option Bytes → BootMessage → BootMessage × ℤ
  | none, misc => (misc, -1)
  | some path, misc =>
    update io (fun info =>
      let info := info.memcpy Field.command.offset (strncpy cmdRunRecovery (Field.command.size - 1))
      let info := info.memcpy (Field.command.offset + (Field.command.size - 1)) [0]
      let info := info.memset Field.recovery.offset Field.recovery.size
      let info := info.memcpy Field.recovery.offset (strncpy path (Field.recovery.size - 1))
      info.memcpy (Field.recovery.offset + (Field.recovery.size - 1)) [0]) misc

/-- `clean_recovery_otapath`. -/
def cleanRecoveryOtapath (io : RecordIo) (misc : BootMessage) : BootMessage × ℤ :=
  update io (fun info =>
    let info := info.memset Field.command.offset commandbufSize
    info.memset Field.recovery.offset recoverybufSize) misc

/-- `set_recovery`. -/
def setRecovery (io : RecordIo) (misc : BootMessage) : BootMessage × ℤ :=
  update io (fun info => info.memcpy Field.command.offset (cmdRunRecovery ++ [0])) misc

/-- `clear_recovery`. -/
def clearRecovery (io : RecordIo) (misc : BootMessage) : BootMessage × ℤ :=
  update io (fun info => info.memset Field.command.offset commandbufSize) misc

/-! ### The active slot -/

/-- The offsets of `bootctrl_suffix` and `active_slot` in `BrilloBootInfo`. -/
def bootctrlSuffix : ℕ := 0

def activeSlot : ℕ := 8

/-- `memcpy(&bootinfo, info.slot_suffix, SLOTBUF_SIZE)`. -/
def BootMessage.bootinfo (info : BootMessage) : Bytes :=
  slice info.bytes Field.slotSuffix.offset slotbufSize

/-- The value of a slot in `active_slot`. -/
def slotCode : SlotType → UInt8
  | .slotA => 0
  | .slotB => 1

/-- `_a` or `_b`. -/
def slotSuffix : SlotType → Bytes
  | .slotA => [95, 97]
  | .slotB => [95, 98]

/-- `set_active_slot` without AVB. -/
def setActiveSlot (io : RecordIo) (slot : SlotType) (misc : BootMessage) : BootMessage × ℤ :=
  update io (fun info =>
    let bootinfo := overwrite info.bootinfo bootctrlSuffix (slotSuffix slot)
    let bootinfo := overwrite bootinfo activeSlot [slotCode slot]
    info.memcpy Field.slotSuffix.offset (bootinfo.take slotbufSize)) misc

/-- `get_active_slot_from_misc` without AVB, and `get_active_slot_misc`. -/
def getActiveSlotFromMisc (readOk : Bool) (misc : BootMessage) : Option UInt8 :=
  if readOk then misc.bootinfo[activeSlot]? else none

/-! ### Sequences of operations -/

inductive Op
  | setRecoveryOtapath (path : Option Bytes)
  | cleanRecoveryOtapath
  | setRecovery
  | clearRecovery
  | setActiveSlot (slot : SlotType)

def Op.run (io : RecordIo) : Op → BootMessage → BootMessage × ℤ
  | .setRecoveryOtapath path => Record.setRecoveryOtapath io path
  | .cleanRecoveryOtapath => Record.cleanRecoveryOtapath io
  | .setRecovery => Record.setRecovery io
  | .clearRecovery => Record.clearRecovery io
  | .setActiveSlot slot => Record.setActiveSlot io slot

/-- The record after operations whose device calls succeed. -/
def runAll (misc : BootMessage) (ops : List Op) : BootMessage :=
  ops.foldl (fun misc op => (op.run .success misc).1) misc

end AmlCommonlib.BootloaderMessage.Record
