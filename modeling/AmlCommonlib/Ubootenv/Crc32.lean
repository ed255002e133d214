import AmlCommonlib.Lib.CString
import AmlCommonlib.Lib.Crc

/-! # The bitwise CRC of the environment

`crc32` of `ubootenv.c`, one bit per pass of the inner loop. The buffer is read as unsigned bytes,
which is what `char` is on the targets of this library.
-/

namespace AmlCommonlib.Ubootenv

/-- `CRC32_POLYNOMIAL`. -/
def crc32Polynomial : BitVec 32 := 0xEDB88320

/-- One pass of the inner loop. -/
def crc32Bit (crc : BitVec 32) : BitVec 32 :=
  if crc &&& 1 ≠ 0 then (crc >>> 1) ^^^ crc32Polynomial else crc >>> 1

/-- One pass of the outer loop. -/
def crc32Byte (crc : BitVec 32) (b : UInt8) : BitVec 32 :=
  crc32Bit^[8] (crc ^^^ b.toBitVec.setWidth 32)

/-- `crc32(buffer, size)`. -/
def crc32 (buffer : Bytes) : BitVec 32 := ~~~ (buffer.foldl crc32Byte 0xFFFFFFFF)

example : crc32 [0x31, 0x32, 0x33, 0x34, 0x35, 0x36, 0x37, 0x38, 0x39] = 0xCBF43926 := by
  decide +kernel

theorem crc32Bit_eq : crc32Bit = Crc.shift crc32Polynomial := by
  funext crc
  have test : crc &&& 1 ≠ 0 ↔ crc.getLsbD 0 = true := by
    change crc &&& 1#32 ≠ 0 ↔ _
    rw [BitVec.and_one_eq_setWidth_ofBool_getLsbD]
    cases crc.getLsbD 0 <;> decide
  simp only [crc32Bit, Crc.shift, test]

theorem crc32Bit_injective : Function.Injective crc32Bit :=
  crc32Bit_eq ▸ Crc.shift_injective (by decide)

/-- A byte is added at once, instead of each bit before its shift. -/
theorem crc32Byte_eq (crc : BitVec 32) (b : UInt8) :
    crc32Byte crc b = Crc.register crc32Polynomial crc (Crc.byteBits b) := by
  rw [crc32Byte, crc32Bit_eq, Crc.register_eq _ _ (by simp), Crc.length_byteBits, Crc.word_byteBits]

/-- The reflected check with this polynomial, where the start and the end are complemented. -/
theorem crc32_eq (buffer : Bytes) :
    crc32 buffer =
      Crc.checksum crc32Polynomial 0xFFFFFFFF 0xFFFFFFFF (buffer.flatMap Crc.byteBits) := by
  have register : ∀ crc, buffer.foldl crc32Byte crc =
      Crc.register crc32Polynomial crc (buffer.flatMap Crc.byteBits) := by
    induction buffer with
    | nil => exact fun _ => rfl
    | cons b rest ih =>
      intro crc
      rw [List.foldl_cons, ih, crc32Byte_eq, List.flatMap_cons, Crc.register_append]
  rw [crc32, register, Crc.checksum]
  exact (BitVec.xor_allOnes ..).symm

/-- The last byte of a text can be told from its checksum and the rest. -/
theorem crc32_last_byte {front : Bytes} {b c : UInt8}
    (same : crc32 (front ++ [b]) = crc32 (front ++ [c])) : b = c := by
  simp only [crc32, List.foldl_append, List.foldl_cons, List.foldl_nil, crc32Byte] at same
  have mixed := crc32Bit_injective.iterate 8 (BitVec.not_inj.mp same)
  have wide := (BitVec.xor_right_inj _).mp mixed
  have narrow := congrArg (BitVec.setWidth 8) wide
  exact UInt8.toBitVec_inj.mp (by simpa using narrow)

end AmlCommonlib.Ubootenv
