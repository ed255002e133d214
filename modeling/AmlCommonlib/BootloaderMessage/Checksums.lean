import AmlCommonlib.BootloaderMessage.AvbCrc32
import AmlCommonlib.Lib.Endian
import AmlCommonlib.Ubootenv.Crc32

/-! # The two checksums

The environment and the A/B metadata are checked with the same CRC, once bit by bit and once with a
table. `avb_crc32` hands its size on as an `int`, so the two part for a buffer whose size is none.
-/

namespace AmlCommonlib.BootloaderMessage

open Ubootenv (crc32 crc32Bit crc32Byte)

/-- `iavb_crc32` for an `int size`; `none` is a loop that counts down from a negative number, past the
least one. -/
def iavbCrc32Int (crcIn : BitVec 32) (buf : Bytes) (size : ℤ) : Option (BitVec 32) :=
  if size < 0 then none else some (iavbCrc32 crcIn (buf.take size.toNat))

/-- `avb_crc32`, whose `size_t size` becomes an `int`. -/
def avbCrc32Sized (buf : Bytes) (size : ℕ) : Option (BitVec 32) := iavbCrc32Int 0 buf (int32 size)

/-- The reflected CRC-32 with polynomial 0xEDB88320, whose start and end are complemented. -/
def reflectedCrc32 (buf : Bytes) : BitVec 32 :=
  Crc.checksum 0xEDB88320 0xFFFFFFFF 0xFFFFFFFF (buf.flatMap Crc.byteBits)

/-- Both functions return this check value for a buffer. -/
def ChecksumsAgree (buf : Bytes) : Prop :=
  crc32 buf = reflectedCrc32 buf ∧ avbCrc32Sized buf buf.length = some (reflectedCrc32 buf)

/-! ### The table -/

theorem iavbCrc32Tab_eq :
    iavbCrc32Tab = (List.range 256).map fun i => crc32Bit^[8] (BitVec.ofNat 32 i) := by
  decide +kernel

theorem getLsbD_low (s : BitVec 32) (i : ℕ) :
    (s &&& 0xFF).getLsbD i = (decide (i < 8) && s.getLsbD i) := by
  have mask : (0xFF : BitVec 32).getLsbD i = decide (i < 8) := by
    change (BitVec.ofNat 32 (2 ^ 8 - 1)).getLsbD i = _
    rw [BitVec.getLsbD_ofNat, Nat.testBit_two_pow_sub_one]
    by_cases inside : i < 8
    · simp [inside, Nat.lt_trans inside (by decide : 8 < 32)]
    · simp [inside]
  rw [BitVec.getLsbD_and, mask, Bool.and_comm]

/-- An entry of the table is a byte that has been shifted out. -/
theorem iavbCrc32Tab_low (s : BitVec 32) :
    iavbCrc32Tab.getD (s &&& 0xFF).toNat 0 = crc32Bit^[8] (s &&& 0xFF) := by
  have small : (s &&& 0xFF).toNat < 256 := by
    rw [BitVec.toNat_and]
    exact Nat.lt_of_le_of_lt Nat.and_le_right (by decide)
  rw [iavbCrc32Tab_eq, List.getD_eq_getElem?_getD, List.getElem?_map, List.getElem?_range small,
    Option.map_some, Option.getD_some, BitVec.ofNat_toNat, BitVec.setWidth_eq]

/-- A pass over the table is eight passes over the bits. -/
theorem iavbCrc32Byte_eq (crc : BitVec 32) (b : UInt8) : iavbCrc32Byte crc b = crc32Byte crc b := by
  have above : b.toBitVec.setWidth 32 >>> 8 = 0#32 := by
    apply BitVec.eq_of_getLsbD_eq
    intro i _
    rw [BitVec.getLsbD_ushiftRight, BitVec.getLsbD_setWidth,
      BitVec.getLsbD_of_ge b.toBitVec (8 + i) (by omega)]
    simp
  rw [iavbCrc32Byte, iavbCrc32Tab_low, crc32Byte, Ubootenv.crc32Bit_eq,
    Crc.iterate_shift_split _ (getLsbD_low (crc ^^^ b.toBitVec.setWidth 32)),
    BitVec.ushiftRight_xor_distrib, above, BitVec.xor_zero]

/-- Without the size, the two are one function. -/
theorem avbCrc32_eq (buf : Bytes) : avbCrc32 buf = crc32 buf := by
  have pass : iavbCrc32Byte = crc32Byte := funext fun crc => funext fun b => iavbCrc32Byte_eq crc b
  rw [avbCrc32, iavbCrc32, pass, crc32]
  exact BitVec.xor_allOnes ..

/-! ### The size -/

/-- What a size of an `int` makes of the buffer. -/
theorem avbCrc32Sized_eq {buf : Bytes} {size : ℕ} (int : 0 ≤ int32 size) :
    avbCrc32Sized buf size = some (crc32 (buf.take (int32 size).toNat)) := by
  rw [avbCrc32Sized, iavbCrc32Int, if_neg (by omega), ← avbCrc32_eq, avbCrc32]

/-- A buffer of an `int` length. -/
theorem checksumsAgree_of_lt {buf : Bytes} (short : buf.length < 2 ^ 31) : ChecksumsAgree buf := by
  have int : int32 buf.length = buf.length := int32_of_range (by omega) (by omega)
  refine ⟨Ubootenv.crc32_eq buf, ?_⟩
  rw [avbCrc32Sized_eq (by omega), int, Int.toNat_natCast, List.take_length]
  exact congrArg some (Ubootenv.crc32_eq buf)

/-- From 2^31 bytes on there is a buffer of every length for which they part. -/
theorem not_checksumsAgree {n : ℕ} (long : 2 ^ 31 ≤ n) :
    ∃ buf, buf.length = n ∧ ¬ChecksumsAgree buf := by
  by_cases negative : int32 n < 0
  · refine ⟨.replicate n 0, List.length_replicate .., fun agree => ?_⟩
    have value := agree.2
    rw [List.length_replicate, avbCrc32Sized, iavbCrc32Int, if_pos negative] at value
    cases value
  · -- The last byte is not read, but the bitwise checksum tells it.
    have wrapped := int32_le_sub (x := n) (by omega)
    let front : Bytes := .replicate (n - 1) 0
    have length (b : UInt8) : (front ++ [b]).length = n := by
      rw [List.length_append, List.length_replicate, List.length_singleton]
      omega
    have front_eq (b : UInt8) : (front ++ [b]).take (int32 n).toNat = front.take (int32 n).toNat := by
      apply List.take_append_of_le_length
      rw [List.length_replicate]
      omega
    by_contra agree
    have each (b : UInt8) : crc32 (front.take (int32 n).toNat) = crc32 (front ++ [b]) := by
      obtain ⟨bits, table⟩ : ChecksumsAgree (front ++ [b]) := by
        by_contra apart
        exact agree ⟨_, length b, apart⟩
      rw [length, avbCrc32Sized_eq (by omega), front_eq, ← bits] at table
      exact Option.some.inj table
    exact absurd (Ubootenv.crc32_last_byte ((each 0).symm.trans (each 1))) (by decide)

/-- The checksums agree for all buffers of a length, on the CRC-32 of the standards, if and only if
the length is an `int`. -/
theorem checksumsAgree_iff (n : ℕ) :
    (∀ buf : Bytes, buf.length = n → ChecksumsAgree buf) ↔ n < 2 ^ 31 := by
  constructor
  · intro agree
    by_contra long
    obtain ⟨buf, length, apart⟩ := not_checksumsAgree (Nat.le_of_not_lt long)
    exact apart (agree buf length)
  · intro short buf length
    exact checksumsAgree_of_lt (length ▸ short)

/-- A register that is 0 stays 0 over zeros. -/
theorem foldl_crc32Byte_replicate (n : ℕ) : (List.replicate n 0).foldl crc32Byte 0 = 0 := by
  induction n with
  | zero => rfl
  | succ n ih =>
    have still : crc32Byte 0 0 = 0 := by decide
    rw [List.replicate_succ, List.foldl_cons, still, ih]

/-- Four bytes that clear the register, and zeros up to 2^32 bytes: the table is not used at all. -/
theorem not_checksumsAgree_zeros : ¬∀ buf, ChecksumsAgree buf := by
  intro agree
  obtain ⟨bits, table⟩ := agree ([0xFF, 0xFF, 0xFF, 0xFF] ++ List.replicate (2 ^ 32 - 4) 0)
  have length : ([0xFF, 0xFF, 0xFF, 0xFF] ++ List.replicate (2 ^ 32 - 4) (0 : UInt8)).length = 2 ^ 32 := by
    rw [List.length_append, List.length_replicate]
    rfl
  have cleared : crc32 ([0xFF, 0xFF, 0xFF, 0xFF] ++ List.replicate (2 ^ 32 - 4) 0) = 0xFFFFFFFF := by
    have first : [0xFF, 0xFF, 0xFF, 0xFF].foldl crc32Byte 0xFFFFFFFF = 0 := by decide +kernel
    rw [crc32, List.foldl_append, first, foldl_crc32Byte_replicate]
    rfl
  have int : int32 (2 ^ 32 : ℕ) = 0 := by decide
  rw [length, avbCrc32Sized_eq (by rw [int]), int, ← bits, cleared] at table
  exact absurd (Option.some.inj table) (by decide)

end AmlCommonlib.BootloaderMessage
