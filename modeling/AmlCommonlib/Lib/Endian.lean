import AmlCommonlib.Lib.CString
import Mathlib.Tactic.Positivity
import Mathlib.Tactic.Ring
import Mathlib.Tactic.Zify

/-! # Integers in memory

Little-endian byte sequences of any width and the 32-bit wrap-around of C's signed arithmetic. A
big-endian field is the reverse of a little-endian one.
-/

namespace AmlCommonlib

/-- The `width` low bytes of `x`, least significant first. -/
def leBytes : ℕ → ℕ → Bytes
  | 0, _ => []
  | width + 1, x => UInt8.ofNat x :: leBytes width (x / 256)

/-- The number with the given bytes, least significant first. -/
def ofLe : Bytes → ℕ
  | [] => 0
  | b :: rest => b.toNat + 256 * ofLe rest

@[simp] theorem length_leBytes (width x : ℕ) : (leBytes width x).length = width := by
  induction width generalizing x with
  | zero => rfl
  | succ width ih => rw [leBytes, List.length_cons, ih]

theorem ofLe_leBytes (width x : ℕ) : ofLe (leBytes width x) = x % 256 ^ width := by
  induction width generalizing x with
  | zero => simp [leBytes, ofLe, Nat.mod_one]
  | succ width ih =>
    rw [leBytes, ofLe, ih, pow_succ', Nat.mod_mul, UInt8.toNat_ofNat']

theorem ofLe_leBytes_of_lt {width x : ℕ} (bound : x < 256 ^ width) :
    ofLe (leBytes width x) = x := by
  rw [ofLe_leBytes, Nat.mod_eq_of_lt bound]

theorem ofLe_append (low high : Bytes) :
    ofLe (low ++ high) = ofLe low + 256 ^ low.length * ofLe high := by
  induction low with
  | nil => simp [ofLe]
  | cons b low ih =>
    rw [List.cons_append, ofLe, ofLe, ih, List.length_cons, pow_succ]
    ring

theorem ofLe_lt (bytes : Bytes) : ofLe bytes < 256 ^ bytes.length := by
  induction bytes with
  | nil => simp [ofLe]
  | cons b rest ih =>
    have byte := b.toNat_lt
    rw [ofLe, List.length_cons, pow_succ]
    omega

theorem leBytes_ofLe (bytes : Bytes) : leBytes bytes.length (ofLe bytes) = bytes := by
  induction bytes with
  | nil => rfl
  | cons b rest ih =>
    have byte : b.toNat < 256 := b.toNat_lt
    have quotient : (b.toNat + 256 * ofLe rest) / 256 = ofLe rest := by omega
    have low : UInt8.ofNat (b.toNat + 256 * ofLe rest) = b := by
      apply UInt8.toNat_inj.mp
      rw [UInt8.toNat_ofNat']
      omega
    rw [List.length_cons, ofLe, leBytes, quotient, ih, low]

/-- Two fields of one width with the same value are the same field. -/
theorem ofLe_inj {a b : Bytes} (width : a.length = b.length) : ofLe a = ofLe b ↔ a = b := by
  constructor
  · intro same
    rw [← leBytes_ofLe a, ← leBytes_ofLe b, width, same]
  · rintro rfl
    rfl

/-- Cutting a field keeps its low bytes. -/
theorem take_leBytes {narrow wide : ℕ} (fits : narrow ≤ wide) (x : ℕ) :
    (leBytes wide x).take narrow = leBytes narrow x := by
  induction narrow generalizing wide x with
  | zero => simp [leBytes]
  | succ narrow ih =>
    obtain ⟨wide, rfl⟩ : ∃ w, wide = w + 1 := ⟨wide - 1, by omega⟩
    rw [leBytes, leBytes, List.take_succ_cons, ih (by omega)]

/-! ### Two's complement -/

/-- The unsigned `width`-byte representation of an integer. -/
def toUnsigned (width : ℕ) (v : ℤ) : ℕ := (v % 256 ^ width).toNat

/-- The integer a signed variable of `width` bytes holds. -/
def toSigned (width : ℕ) (x : ℕ) : ℤ := Int.bmod x (256 ^ width)

theorem coe_toUnsigned (width : ℕ) (v : ℤ) : (toUnsigned width v : ℤ) = v % 256 ^ width :=
  Int.toNat_of_nonneg (Int.emod_nonneg v (by positivity))

theorem toUnsigned_lt (width : ℕ) (v : ℤ) : toUnsigned width v < 256 ^ width := by
  zify
  rw [coe_toUnsigned]
  exact Int.emod_lt_of_pos v (by positivity)

theorem toUnsigned_of_range {width : ℕ} {v : ℤ} (low : 0 ≤ v) (high : v < 256 ^ width) :
    (toUnsigned width v : ℤ) = v := by
  rw [coe_toUnsigned, Int.emod_eq_of_lt low high]

/-- A signed variable gives back every integer of its range. -/
theorem toSigned_toUnsigned {width : ℕ} {v : ℤ} (low : -(256 ^ width : ℕ) ≤ 2 * v)
    (high : 2 * v < (256 ^ width : ℕ)) : toSigned width (toUnsigned width v) = v := by
  have cast : ((256 ^ width : ℕ) : ℤ) = 256 ^ width := by push_cast; rfl
  rw [toSigned, coe_toUnsigned, ← cast, Int.emod_bmod]
  exact Int.bmod_eq_of_le_mul_two (by omega) (by omega)

/-- Different contents are different signed values. -/
theorem toSigned_inj {width x y : ℕ} (left : x < 256 ^ width) (right : y < 256 ^ width)
    (same : toSigned width x = toSigned width y) : x = y := by
  have mod := congrArg (· % ((256 ^ width : ℕ) : ℤ)) same
  simp only [toSigned, Int.bmod_emod] at mod
  rw [Int.emod_eq_of_lt (by omega) (by omega), Int.emod_eq_of_lt (by omega) (by omega)] at mod
  omega

/-- The value of C's 32-bit signed arithmetic. -/
def int32 (x : ℤ) : ℤ := Int.bmod x (2 ^ 32)

theorem int32_of_range {x : ℤ} (low : -2 ^ 31 ≤ x) (high : x < 2 ^ 31) : int32 x = x :=
  Int.bmod_eq_of_le (by omega) (by omega)

theorem int32_range (x : ℤ) : -2 ^ 31 ≤ int32 x ∧ int32 x < 2 ^ 31 := by
  rw [int32, Int.bmod_def]
  split <;> omega

theorem int32_le_sub {x : ℤ} (big : 2 ^ 31 ≤ x) : int32 x ≤ x - 2 ^ 32 := by
  rw [int32, Int.bmod_def]
  split <;> omega

@[simp] theorem int32_int32_add (x y : ℤ) : int32 (int32 x + y) = int32 (x + y) := Int.bmod_add_bmod

@[simp] theorem int32_int32_mul (x y : ℤ) : int32 (int32 x * y) = int32 (x * y) := Int.bmod_mul_bmod

@[simp] theorem int32_mul_int32 (x y : ℤ) : int32 (x * int32 y) = int32 (x * y) := Int.mul_bmod_bmod

@[simp] theorem int32_neg_int32 (x : ℤ) : int32 (-int32 x) = int32 (-x) := by
  rw [← neg_one_mul, int32_mul_int32, neg_one_mul]

/-- The half in which a value ends up. -/
theorem int32_nonneg_iff (x : ℤ) : 0 ≤ int32 x ↔ x / 2 ^ 31 % 2 = 0 := by
  rw [int32, Int.bmod_def]
  split <;> omega

/-! ### Memory -/

/-- The `n` bytes of a memory from `pos` on. -/
def window (mem : ℕ → UInt8) (pos n : ℕ) : Bytes := (List.range n).map fun i => mem (pos + i)

@[simp] theorem length_window (mem : ℕ → UInt8) (pos n : ℕ) : (window mem pos n).length = n := by
  simp [window]

theorem window_append (mem : ℕ → UInt8) (pos m n : ℕ) :
    window mem pos (m + n) = window mem pos m ++ window mem (pos + m) n := by
  simp [window, List.range_add, Nat.add_assoc, Function.comp_def]

/-- A memory that starts with the given bytes. -/
theorem window_getD (bytes : Bytes) : window (bytes.getD · 0) 0 bytes.length = bytes := by
  apply List.ext_getElem (by simp)
  intro i _ inside
  simp [window, List.getD_eq_getElem?_getD, List.getElem?_eq_getElem inside]

/-- A window filled by two pieces holds each of them. -/
theorem window_eq_append {mem : ℕ → UInt8} {pos : ℕ} {a b : Bytes}
    (filled : window mem pos (a ++ b).length = a ++ b) :
    window mem pos a.length = a ∧ window mem (pos + a.length) b.length = b := by
  rw [List.length_append, window_append] at filled
  exact List.append_inj filled (by simp)

end AmlCommonlib
