import AmlCommonlib.Lib.Endian
import AmlCommonlib.Lib.Scanf

/-! # Integers as text

What `%d` prints and what `atoi` reads. `atoi` knows no length: it reads until a byte that is no
digit, so the block has to hold one.
-/

namespace AmlCommonlib

/-- The text of `%d`. -/
def decimalText (n : ℤ) : Bytes := (if n < 0 then [45] else []) ++ numeral 10 n.natAbs

/-- Whether a minus is in front, and what follows the sign. -/
def splitSign : Bytes → Bool × Bytes
  | 45 :: rest => (true, rest)
  | 43 :: rest => (false, rest)
  | s => (false, s)

/-- `atoi` at the start of a block: `none` when it reads past the block, or when the number is out
of the range of an `int`, where its result is undefined. -/
def atoi? (block : Bytes) : Option ℤ :=
  let s := splitSign (block.dropWhile isBlank)
  let digits := s.2.takeWhile (isDigit 10)
  let value : ℤ := if s.1 then -digitsValue 10 digits else digitsValue 10 digits
  if digits.length = s.2.length then none
  else if -2 ^ 31 ≤ value ∧ value < 2 ^ 31 then some value
  else none

theorem atoi?_range {block : Bytes} {n : ℤ} (read : atoi? block = some n) :
    -2 ^ 31 ≤ n ∧ n < 2 ^ 31 := by
  rw [atoi?] at read
  split_ifs at read with whole negative inside inside
  · cases read
    exact inside
  · cases read
    exact inside

/-- A sign and digits, in front of a byte that is no digit. -/
theorem atoi?_digits {negative : Bool} {digits : Bytes} {c : UInt8} (rest : Bytes)
    (plain : ∀ b ∈ digits, isDigit 10 b = true) (nonempty : digits ≠ [])
    (ends : isDigit 10 c = false) :
    atoi? ((if negative then [45] else []) ++ digits ++ c :: rest) =
      let value : ℤ := if negative then -digitsValue 10 digits else digitsValue 10 digits
      if -2 ^ 31 ≤ value ∧ value < 2 ^ 31 then some value else none := by
  have taken : (digits ++ c :: rest).takeWhile (isDigit 10) = digits := by
    rw [List.takeWhile_append_of_pos plain, List.takeWhile_cons_of_neg (by simp [ends]),
      List.append_nil]
  have shorter : digits.length ≠ (digits ++ c :: rest).length := by
    rw [List.length_append, List.length_cons]
    omega
  have signed : splitSign (List.dropWhile isBlank
      ((if negative then [45] else []) ++ digits ++ c :: rest)) =
      (negative, digits ++ c :: rest) := by
    cases negative with
    | true => rfl
    | false =>
      obtain ⟨a, t, rfl⟩ := List.exists_cons_of_ne_nil nonempty
      obtain ⟨blank, plus, minus, -⟩ := isDigit_apart (plain a (by simp))
      simp [blank, splitSign, plus, minus]
  simp only [atoi?, signed, taken, if_neg shorter]

/-- The digits of a number that is read as `n`, behind the sign of `n`. -/
theorem digitsValue_of_atoi? {n : ℤ} {digits rest : Bytes} {c : UInt8}
    (plain : ∀ b ∈ digits, isDigit 10 b = true) (nonempty : digits ≠ [])
    (ends : isDigit 10 c = false)
    (read : atoi? ((if decide (n < 0) = true then [45] else []) ++ digits ++ c :: rest) = some n) :
    digitsValue 10 digits = n.natAbs := by
  rw [atoi?_digits rest plain nonempty ends] at read
  obtain ⟨-, value⟩ := Option.ite_none_right_eq_some.mp read
  have value := Option.some.inj value
  simp only [decide_eq_true_eq] at value
  split_ifs at value <;> omega

/-- `atoi` reads back what `%d` printed, up to the terminator. -/
theorem atoi?_decimalText {n : ℤ} (low : -2 ^ 31 ≤ n) (high : n < 2 ^ 31) (rest : Bytes) :
    atoi? (decimalText n ++ 0 :: rest) = some n := by
  obtain ⟨nonempty, digits, value⟩ := @numeral_spec 10 (by omega) (by omega) n.natAbs
  have read := @atoi?_digits (decide (n < 0)) _ 0 rest digits nonempty rfl
  have same : (if decide (n < 0) = true then -(n.natAbs : ℤ) else n.natAbs) = n := by
    split_ifs with negative <;> simp at negative <;> omega
  simp only [value, same, low, high, and_self, if_true] at read
  simpa [decimalText] using read

/-- How wide the text is. -/
theorem length_decimalText_le_iff {n : ℤ} {k : ℕ} (positive : 1 < k) :
    (decimalText n).length ≤ k ↔ -10 ^ (k - 1) < n ∧ n < 10 ^ k := by
  have width : ∀ {k}, 0 < k → ((numeral 10 n.natAbs).length ≤ k ↔ n.natAbs < 10 ^ k) := by
    intro k positive
    rw [numeral, List.length_map]
    exact Nat.length_toDigits_le_iff (by omega) positive
  have cast : ∀ k : ℕ, (10 : ℤ) ^ k = ((10 ^ k : ℕ) : ℤ) := fun k => by push_cast; rfl
  have positive' : ∀ k : ℕ, 0 < 10 ^ k := fun k => by positivity
  have here := positive' k
  have before := positive' (k - 1)
  rw [decimalText, List.length_append, cast, cast]
  split_ifs with negative
  · rw [List.length_singleton, show 1 + (numeral 10 n.natAbs).length ≤ k ↔
      (numeral 10 n.natAbs).length ≤ k - 1 by omega, width (by omega)]
    omega
  · rw [List.length_nil, Nat.zero_add, width (by omega)]
    omega

end AmlCommonlib
