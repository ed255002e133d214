import Mathlib.Data.BitVec
import Mathlib.Logic.Function.Iterate
import Mathlib.Tactic.Common

/-! # Reflected cyclic redundancy checks

A register of any width is shifted to the right for each bit of a message, and the polynomial is added
where a one leaves it. The register is linear, so bits may be added all at once before the shifts, or
looked up in a table; and a difference in the register never gets lost.
-/

namespace AmlCommonlib.Crc

variable {w : ℕ} (poly : BitVec w)

/-- A shift of the register. -/
def shift (s : BitVec w) : BitVec w :=
  if s.getLsbD 0 then (s >>> 1) ^^^ poly else s >>> 1

/-- A bit of the message, alone in the lowest place. -/
def bit (b : Bool) : BitVec w := (BitVec.ofBool b).setWidth w

/-- The register after a message. -/
def register (s : BitVec w) (bits : List Bool) : BitVec w :=
  bits.foldl (fun s b => shift poly (s ^^^ bit b)) s

/-- The check value, for what the register starts with and what is added to it at the end. -/
def checksum (initial final : BitVec w) (bits : List Bool) : BitVec w :=
  register poly initial bits ^^^ final

/-- The bits of a byte, from the lowest place on. -/
def byteBits (b : UInt8) : List Bool := List.ofFn fun i : Fin 8 => b.toBitVec.getLsbD i

/-- The bits of a message, from the lowest place on. -/
def word : List Bool → BitVec w
  | [] => 0
  | b :: rest => (word rest <<< 1) ^^^ bit b

@[simp] theorem register_nil (s : BitVec w) : register poly s [] = s := rfl

@[simp] theorem register_cons (s : BitVec w) (b : Bool) (bits : List Bool) :
    register poly s (b :: bits) = register poly (shift poly (s ^^^ bit b)) bits := rfl

theorem register_append (s : BitVec w) (front back : List Bool) :
    register poly s (front ++ back) = register poly (register poly s front) back :=
  List.foldl_append

theorem getLsbD_bit (b : Bool) (i : ℕ) :
    (bit b : BitVec w).getLsbD i = (decide (i = 0 ∧ i < w) && b) := by
  rw [bit, BitVec.getLsbD_setWidth, BitVec.getLsbD_ofBool]
  by_cases zero : i = 0 <;> simp [zero]

theorem getLsbD_word (bits : List Bool) (i : ℕ) :
    (word bits : BitVec w).getLsbD i = (decide (i < w) && bits.getD i false) := by
  induction bits generalizing i with
  | nil => simp [word]
  | cons b rest ih =>
    rw [word, BitVec.getLsbD_xor, getLsbD_bit, BitVec.getLsbD_shiftLeft]
    cases i with
    | zero => simp
    | succ i =>
      rw [Nat.add_sub_cancel, ih]
      by_cases inside : i + 1 < w
      · simp [inside, Nat.lt_of_succ_lt inside]
      · simp [inside]

@[simp] theorem length_byteBits (b : UInt8) : (byteBits b).length = 8 := List.length_ofFn

theorem word_byteBits (b : UInt8) : (word (byteBits b) : BitVec w) = b.toBitVec.setWidth w := by
  apply BitVec.eq_of_getLsbD_eq
  intro i _
  have place : (byteBits b).getD i false = b.toBitVec.getLsbD i := by
    rw [byteBits, List.getD_eq_getElem?_getD, List.getElem?_ofFn]
    split_ifs with inside
    · rfl
    · rw [BitVec.getLsbD_of_ge b.toBitVec i (by omega)]
      rfl
  rw [getLsbD_word, BitVec.getLsbD_setWidth, place]

theorem byteBits_injective : Function.Injective byteBits := by
  intro a b same
  have words : (word (byteBits a) : BitVec 8) = word (byteBits b) := by rw [same]
  rw [word_byteBits, word_byteBits, BitVec.setWidth_eq, BitVec.setWidth_eq] at words
  exact UInt8.toBitVec_inj.mp words

theorem length_flatMap_byteBits (bytes : List UInt8) :
    (bytes.flatMap byteBits).length = 8 * bytes.length := by
  rw [List.length_flatMap]
  simp [Nat.mul_comm]

/-- Different bytes have different bits. -/
theorem flatMap_byteBits_injective :
    Function.Injective fun bytes : List UInt8 => bytes.flatMap byteBits := by
  intro a b same
  dsimp only at same
  have lengths := congrArg List.length same
  rw [length_flatMap_byteBits, length_flatMap_byteBits] at lengths
  induction a generalizing b with
  | nil => exact (List.eq_nil_of_length_eq_zero (by simpa using lengths.symm)).symm
  | cons c a ih =>
    cases b with
    | nil => simp at lengths
    | cons d b =>
      rw [List.flatMap_cons, List.flatMap_cons] at same
      obtain ⟨first, rest⟩ := List.append_inj same (by simp)
      rw [byteBits_injective first, ih rest (by simpa using lengths)]

/-! ### Linearity -/

theorem shift_xor (a b : BitVec w) : shift poly (a ^^^ b) = shift poly a ^^^ shift poly b := by
  simp only [shift, BitVec.getLsbD_xor, BitVec.ushiftRight_xor_distrib]
  cases a.getLsbD 0 <;> cases b.getLsbD 0
  · simp
  · simp [BitVec.xor_assoc]
  · simp only [Bool.true_xor, Bool.not_false, if_true, Bool.false_eq_true, if_false]
    rw [BitVec.xor_assoc, BitVec.xor_assoc, BitVec.xor_comm poly]
  · simp only [Bool.true_xor, Bool.not_true, if_true, Bool.false_eq_true, if_false]
    rw [BitVec.xor_comm (b >>> 1), BitVec.xor_assoc, ← BitVec.xor_assoc poly, BitVec.xor_self,
      BitVec.zero_xor]

theorem iterate_shift_xor (n : ℕ) (a b : BitVec w) :
    (shift poly)^[n] (a ^^^ b) = (shift poly)^[n] a ^^^ (shift poly)^[n] b := by
  induction n generalizing a b with
  | zero => rfl
  | succ n ih => rw [Function.iterate_succ_apply, shift_xor, ih]; rfl

/-- As long as no one leaves the register, it is only shifted. -/
theorem iterate_shift_of_low {n : ℕ} {s : BitVec w} (low : ∀ i < n, s.getLsbD i = false) :
    (shift poly)^[n] s = s >>> n := by
  induction n generalizing s with
  | zero => simp
  | succ n ih =>
    have first : shift poly s = s >>> 1 := by rw [shift, low 0 (by omega), if_neg (by simp)]
    rw [Function.iterate_succ_apply, first, ih, ← BitVec.shiftRight_add, Nat.add_comm]
    intro i inside
    rw [BitVec.getLsbD_ushiftRight]
    exact low (1 + i) (by omega)

/-- Bits that fit into the register can be added before the shifts. -/
theorem register_eq (s : BitVec w) {bits : List Bool} (fits : bits.length ≤ w) :
    register poly s bits = (shift poly)^[bits.length] (s ^^^ word bits) := by
  induction bits generalizing s with
  | nil => simp [word]
  | cons b rest ih =>
    rw [List.length_cons] at fits
    have above : shift poly (word rest <<< 1) = word rest := by
      rw [← Function.iterate_one (shift poly), iterate_shift_of_low]
      · apply BitVec.eq_of_getLsbD_eq
        intro i inside
        rw [BitVec.getLsbD_ushiftRight, BitVec.getLsbD_shiftLeft, Nat.add_sub_cancel_left,
          getLsbD_word]
        by_cases top : 1 + i < w
        · simp [top]
        · have outside : rest.length ≤ i := by omega
          simp [outside]
      · intro i zero
        simp [Nat.lt_one_iff.mp zero]
    rw [register_cons, ih _ (by omega), List.length_cons, Function.iterate_succ_apply, word,
      BitVec.xor_comm (word rest <<< 1), ← BitVec.xor_assoc, shift_xor poly (s ^^^ bit b), above]

/-! ### Tables -/

/-- The lowest places are looked up, and the others are shifted. -/
theorem iterate_shift_split {n : ℕ} {s low : BitVec w}
    (places : ∀ i, low.getLsbD i = (decide (i < n) && s.getLsbD i)) :
    (shift poly)^[n] s = (shift poly)^[n] low ^^^ (s >>> n) := by
  have parts : s = low ^^^ (s ^^^ low) := by
    rw [BitVec.xor_comm s, ← BitVec.xor_assoc, BitVec.xor_self, BitVec.zero_xor]
  have high : (shift poly)^[n] (s ^^^ low) = (s ^^^ low) >>> n := by
    apply iterate_shift_of_low
    intro i inside
    simp [places, inside]
  have shifted : (s ^^^ low) >>> n = s >>> n := by
    apply BitVec.eq_of_getLsbD_eq
    intro i _
    have above : ¬n + i < n := by omega
    simp [places, above]
  conv_lhs => rw [parts]
  rw [iterate_shift_xor, high, shifted]

/-! ### Differences -/

variable {poly}

/-- The place that is shifted out comes back as the highest one. -/
theorem getLsbD_shift_top (top : poly.getLsbD (w - 1)) (s : BitVec w) :
    (shift poly s).getLsbD (w - 1) = s.getLsbD 0 := by
  have outside : s.getLsbD (1 + (w - 1)) = false := BitVec.getLsbD_of_ge _ _ (by omega)
  rw [shift]
  split_ifs with low <;> simp [top, outside, low]

theorem shift_injective (top : poly.getLsbD (w - 1)) : Function.Injective (shift poly) := by
  intro a b same
  have low : a.getLsbD 0 = b.getLsbD 0 := by
    rw [← getLsbD_shift_top top, same, getLsbD_shift_top top]
  have shifted : a >>> 1 = b >>> 1 := by
    rw [shift, shift, low] at same
    split_ifs at same
    · exact (BitVec.xor_left_inj _).mp same
    · exact same
  apply BitVec.eq_of_getLsbD_eq
  intro i _
  cases i with
  | zero => exact low
  | succ i => simpa [Nat.add_comm] using congrArg (BitVec.getLsbD · i) shifted

/-- What follows in the message does not cancel a difference. -/
theorem register_injective (top : poly.getLsbD (w - 1)) (bits : List Bool) :
    Function.Injective (register poly · bits) := by
  induction bits with
  | nil => exact fun _ _ same => same
  | cons b rest ih =>
    intro s t same
    exact (BitVec.xor_left_inj _).mp (shift_injective top (ih same))

theorem word_injective {a b : List Bool} (fits : a.length ≤ w) (length : a.length = b.length)
    (same : (word a : BitVec w) = word b) : a = b := by
  apply List.ext_getElem length
  intro i insideA insideB
  have place : (word a : BitVec w).getLsbD i = (word b : BitVec w).getLsbD i := by rw [same]
  rw [getLsbD_word, getLsbD_word] at place
  simpa [insideA, insideB, Nat.lt_of_lt_of_le insideA fits] using place

/-- A check of width `w` detects every burst of at most `w` bits. -/
theorem checksum_burst (top : poly.getLsbD (w - 1)) (initial final : BitVec w)
    (front back : List Bool) {a b : List Bool} (fits : a.length ≤ w) (length : a.length = b.length)
    (same : checksum poly initial final (front ++ a ++ back) =
      checksum poly initial final (front ++ b ++ back)) : a = b := by
  have registers := (BitVec.xor_left_inj _).mp same
  rw [register_append poly _ (front ++ a), register_append poly _ front,
    register_append poly _ (front ++ b), register_append poly _ front] at registers
  have middle := register_injective top back registers
  generalize register poly initial front = s at middle
  rw [register_eq poly s fits, register_eq poly s (show b.length ≤ w by omega), length] at middle
  exact word_injective fits length
    ((BitVec.xor_right_inj _).mp ((shift_injective top).iterate b.length middle))

end AmlCommonlib.Crc
