import Mathlib.Data.Nat.Bitwise
import Mathlib.Tactic.Common

/-! # Masks on words

Rounding to a power of two by a mask, as C code writes it on unsigned words.
-/

namespace AmlCommonlib

/-- `~x` on a word of `w` bits. -/
def complement (w x : ℕ) : ℕ := 2 ^ w - 1 - x

theorem complement_pow {w k : ℕ} (small : k ≤ w) :
    complement w (2 ^ k - 1) = (2 ^ (w - k) - 1) <<< k := by
  have split : 2 ^ w = 2 ^ (w - k) * 2 ^ k := by
    rw [← pow_add]
    congr 1
    omega
  have positive : 0 < 2 ^ k := Nat.two_pow_pos k
  rw [complement, Nat.shiftLeft_eq, Nat.sub_one_mul, split]
  omega

/-- `x & ~(2 ^ k - 1)` rounds down. -/
theorem and_complement {w k x : ℕ} (small : k ≤ w) (word : x < 2 ^ w) :
    x &&& complement w (2 ^ k - 1) = x / 2 ^ k * 2 ^ k := by
  rw [complement_pow small, ← Nat.shiftRight_eq_div_pow, ← Nat.shiftLeft_eq]
  apply Nat.eq_of_testBit_eq
  intro i
  rw [Nat.testBit_and, Nat.testBit_shiftLeft, Nat.testBit_shiftLeft, Nat.testBit_two_pow_sub_one,
    Nat.testBit_shiftRight]
  rcases Nat.lt_or_ge i k with low | high
  · simp [show ¬k ≤ i by omega]
  · rw [show k + (i - k) = i by omega]
    rcases Nat.lt_or_ge i w with inside | beyond
    · simp [high, show i - k < w - k by omega]
    · have zero : x.testBit i = false :=
        Nat.testBit_lt_two_pow (word.trans_le (Nat.pow_le_pow_right (by omega) beyond))
      simp [zero]

/-- `-x & (2 ^ k - 1)` is the distance to the next multiple. -/
theorem neg_and_mask {w k x : ℕ} (small : k ≤ w) (word : x < 2 ^ w) :
    (2 ^ w - x) % 2 ^ w &&& (2 ^ k - 1) = (2 ^ k - x % 2 ^ k) % 2 ^ k := by
  have split : 2 ^ w = 2 ^ k * 2 ^ (w - k) := by
    rw [← pow_add]
    congr 1
    omega
  rw [Nat.and_two_pow_sub_one_eq_mod, Nat.mod_mod_of_dvd _ (split ▸ Nat.dvd_mul_right ..)]
  have positive : 0 < 2 ^ k := Nat.two_pow_pos k
  have low := Nat.mod_lt x positive
  have parts := Nat.div_add_mod x (2 ^ k)
  have quotient : x / 2 ^ k < 2 ^ (w - k) := Nat.div_lt_of_lt_mul (split ▸ word)
  have rest : 2 ^ w - x = (2 ^ k - x % 2 ^ k) + 2 ^ k * (2 ^ (w - k) - 1 - x / 2 ^ k) := by
    rw [split, Nat.mul_sub, Nat.mul_sub]
    have : 2 ^ k * (x / 2 ^ k) + 2 ^ k ≤ 2 ^ k * 2 ^ (w - k) := by
      rw [← Nat.mul_succ]
      exact Nat.mul_le_mul_left _ quotient
    omega
  rw [rest, Nat.add_mul_mod_self_left]

/-! ### The next multiple -/

section NextMultiple

variable {u start : ℕ}

theorem dvd_next_multiple (positive : 0 < u) : u ∣ start + (u - start % u) % u := by
  have below := Nat.mod_lt start positive
  have parts := Nat.div_add_mod start u
  rcases Nat.eq_zero_or_pos (start % u) with zero | inside
  · rw [zero, Nat.sub_zero, Nat.mod_self]
    exact Nat.dvd_of_mod_eq_zero zero
  · rw [Nat.mod_eq_of_lt (show u - start % u < u by omega)]
    refine ⟨start / u + 1, ?_⟩
    rw [Nat.mul_add]
    omega

theorem next_multiple_le {o : ℕ} (positive : 0 < u) (le : start ≤ o) (dvd : u ∣ o) :
    start + (u - start % u) % u ≤ o := by
  obtain ⟨q, rfl⟩ := dvd
  have below := Nat.mod_lt start positive
  have parts := Nat.div_add_mod start u
  rcases Nat.eq_zero_or_pos (start % u) with zero | inside
  · rw [zero, Nat.sub_zero, Nat.mod_self]
    omega
  · rw [Nat.mod_eq_of_lt (show u - start % u < u by omega)]
    have quotient : start / u + 1 ≤ q := by
      by_contra small
      have := Nat.mul_le_mul_left u (show q ≤ start / u by omega)
      omega
    have := Nat.mul_le_mul_left u quotient
    rw [Nat.mul_add] at this
    omega

end NextMultiple

end AmlCommonlib
