import AmlCommonlib.Lib.Endian
import AmlCommonlib.Lib.Runs
import Mathlib.Tactic.Ring

/-! # Tuning the clock against a drift

The loop of `aml_audio_clock_sync`: every two seconds a difference is read, and the clock is set when it
grows. The correction is the square of the change, so it leaves the range of an `int` soon; all of the
arithmetic is modulo 2^32.
-/

namespace AmlCommonlib.AudioClockSync

/-- `abs`, of which the least `int` is a fixed point. -/
def abs32 (x : ℤ) : ℤ := int32 x.natAbs

def clkDriftThresholdMs : ℤ := 2
def clkSettingOffset : ℤ := 1000000
def clkAppreciationMultiple : ℤ := 100
def clkChangeThreshold : ℤ := 10000

/-- The difference is greater than the threshold and does not become less. -/
def tunes (previousDiff diffMs : ℤ) : Bool :=
  clkDriftThresholdMs < abs32 diffMs ∧ abs32 previousDiff ≤ abs32 diffMs

/-- `mclk_appreciation`, before it is limited. -/
def mclkAppreciation (previousDiff diffMs : ℤ) : ℤ :=
  let diffDifference := int32 (diffMs - previousDiff)
  int32 (int32 (int32 (diffDifference * abs32 diffDifference) + diffMs.tdiv 5) * clkAppreciationMultiple)

/-- The limit; `none` is a division by zero. -/
def limit (appreciation : ℤ) : Option ℤ :=
  if clkChangeThreshold < abs32 appreciation then
    if abs32 appreciation = 0 then none
    else some (int32 (clkChangeThreshold * appreciation.tdiv (abs32 appreciation)))
  else some appreciation

/-- A turn of the loop: what `aml_set_mclk` is called with, if it is. -/
def turn (previousDiff diffMs : ℤ) : Option (Option ℤ) :=
  if tunes previousDiff diffMs then
    (limit (mclkAppreciation previousDiff diffMs)).map fun appreciation =>
      some (int32 (clkSettingOffset - appreciation))
  else some none

/-- The loop, from the difference read before it. -/
def loop (previousDiff : ℤ) : List ℤ → Option (List (Option ℤ))
  | [] => some []
  | diffMs :: later => do
    let value ← turn previousDiff diffMs
    let values ← loop diffMs later
    return value :: values

/-! ### What is to hold -/

/-- The value is in the range, and on the side that opposes the difference. -/
def Opposes (diffMs : ℤ) (value : Option ℤ) : Prop :=
  ∀ tuneVal, value = some tuneVal →
    (clkSettingOffset - clkChangeThreshold ≤ tuneVal ∧ tuneVal ≤ clkSettingOffset + clkChangeThreshold) ∧
      (0 < diffMs → tuneVal ≤ clkSettingOffset) ∧ (diffMs < 0 → clkSettingOffset ≤ tuneVal)

/-- Nothing is divided by zero, and every value opposes its difference. -/
def Tunes (previousDiff : ℤ) (diffs : List ℤ) : Prop :=
  ∃ values, loop previousDiff diffs = some values ∧ List.Forall₂ Opposes diffs values

/-- The square that the change of the difference contributes: it counts against the difference where
the change is no `int`, or starts at the least one. -/
def square (previousDiff diffMs : ℤ) : ℤ :=
  let change := diffMs - previousDiff
  if previousDiff = -2 ^ 31 ∨ 2 ^ 31 ≤ change.natAbs then -(change * change) else change * change

/-- The correction does not wrap around to the other side: as often as it contains 2^31 is even. -/
def steady (previousDiff diffMs : ℤ) : Bool :=
  (square previousDiff diffMs + diffMs.natAbs / 5) * 100 / 2 ^ 31 % 2 = 0

/-! ### The correction -/

theorem abs32_of_ne {x : ℤ} (low : -2 ^ 31 ≤ x) (high : x < 2 ^ 31) (inside : x ≠ -2 ^ 31) :
    abs32 x = x.natAbs := by
  rw [abs32, int32_of_range] <;> omega

theorem abs32_least : abs32 (-2 ^ 31) = -2 ^ 31 := by decide

/-- The square with the sign of the wrapped change. -/
theorem mclkAppreciation_eq (previousDiff diffMs : ℤ) :
    mclkAppreciation previousDiff diffMs =
      int32 (((if 0 ≤ int32 (diffMs - previousDiff) then
          (diffMs - previousDiff) * (diffMs - previousDiff)
        else -((diffMs - previousDiff) * (diffMs - previousDiff))) + diffMs.tdiv 5) * 100) := by
  simp only [mclkAppreciation, abs32, clkAppreciationMultiple, int32_mul_int32, int32_int32_add,
    int32_int32_mul]
  generalize diffMs - previousDiff = change
  -- Both sides are sums modulo 2^32, so only the squares have to agree.
  have squares : int32 (int32 change * (int32 change).natAbs) =
      int32 (if 0 ≤ int32 change then change * change else -(change * change)) := by
    split_ifs with sign
    · have abs : ((int32 change).natAbs : ℤ) = int32 change := by omega
      rw [abs, int32_mul_int32, int32_int32_mul]
    · have abs : ((int32 change).natAbs : ℤ) = -int32 change := by omega
      rw [abs, mul_neg, ← int32_neg_int32, int32_mul_int32, int32_int32_mul, int32_neg_int32]
  rw [← int32_int32_mul, ← int32_int32_add, ← int32_int32_mul change, squares, int32_int32_add,
    int32_int32_mul]

/-- What the limit leaves is on the same side. -/
theorem limit_eq {m : ℤ} (low : -2 ^ 31 < m) (high : m < 2 ^ 31) :
    limit m = some (if 10000 < m then 10000 else if m < -10000 then -10000 else m) := by
  have abs := abs32_of_ne (x := m) (by omega) high (by omega)
  rw [limit, abs, clkChangeThreshold]
  by_cases positive : 10000 < m
  · have quotient : m.tdiv m.natAbs = 1 := by
      rw [Int.natAbs_of_nonneg (by omega), Int.tdiv_self (by omega)]
    rw [if_pos (by omega), if_neg (by omega), if_pos positive, quotient]
    rfl
  by_cases negative : m < -10000
  · have quotient : m.tdiv m.natAbs = -1 := by
      rw [Int.ofNat_natAbs_of_nonpos (by omega), Int.tdiv_neg, Int.tdiv_self (by omega)]
    rw [if_pos (by omega), if_neg (by omega), if_neg positive, if_pos negative, quotient]
    rfl
  · rw [if_neg (by omega), if_neg positive, if_neg negative]

/-- The least `int` is its own absolute value, and is not limited. -/
theorem limit_least : limit (-2 ^ 31) = some (-2 ^ 31) := by decide

/-! ### A turn -/

/-- What the comparison tells of two readings. -/
theorem tunes_spec {a b : ℤ} (lowA : -2 ^ 31 ≤ a) (highA : a < 2 ^ 31) (lowB : -2 ^ 31 ≤ b)
    (highB : b < 2 ^ 31) (holds : tunes a b) :
    2 < b.natAbs ∧ b ≠ -2 ^ 31 ∧ (a = -2 ^ 31 ∨ a.natAbs ≤ b.natAbs) := by
  obtain ⟨threshold, upward⟩ : 2 < abs32 b ∧ abs32 a ≤ abs32 b := of_decide_eq_true holds
  have least : b ≠ -2 ^ 31 := by
    rintro rfl
    rw [abs32_least] at threshold
    omega
  rw [abs32_of_ne lowB highB least] at threshold upward
  refine ⟨by omega, least, ?_⟩
  by_cases start : a = -2 ^ 31
  · exact .inl start
  · rw [abs32_of_ne lowA highA start] at upward
    exact .inr (by omega)

/-- A turn that sets the clock does so on the right side exactly if the correction is not the least
`int` and has the sign of the difference. -/
theorem opposes_iff_sign {a b : ℤ} (holds : tunes a b) :
    (∃ value, turn a b = some value ∧ Opposes b value) ↔
      mclkAppreciation a b ≠ -2 ^ 31 ∧ (0 < b → 0 ≤ mclkAppreciation a b) ∧
        (b < 0 → mclkAppreciation a b ≤ 0) := by
  obtain ⟨low, high⟩ : -2 ^ 31 ≤ mclkAppreciation a b ∧ mclkAppreciation a b < 2 ^ 31 := int32_range _
  rw [turn, if_pos holds]
  generalize mclkAppreciation a b = m at *
  by_cases least : m = -2 ^ 31
  · subst least
    rw [limit_least]
    refine iff_of_false ?_ (by simp)
    rintro ⟨value, same, opposes⟩
    cases same
    exact absurd (opposes _ rfl).1.1 (by decide)
  rw [limit_eq (by omega) high]
  generalize limited : (if 10000 < m then 10000 else if m < -10000 then -10000 else m) = n
  have range : -10000 ≤ n ∧ n ≤ 10000 := by
    split_ifs at limited <;> omega
  have sign : (0 ≤ n ↔ 0 ≤ m) ∧ (n ≤ 0 ↔ m ≤ 0) := by
    split_ifs at limited <;> omega
  have value : int32 (clkSettingOffset - n) = 1000000 - n := by
    rw [clkSettingOffset, int32_of_range] <;> omega
  have opposes : Opposes b (some (1000000 - n)) ↔ (0 < b → 0 ≤ n) ∧ (b < 0 → n ≤ 0) := by
    simp only [Opposes, Option.some.injEq, forall_eq', clkSettingOffset, clkChangeThreshold]
    omega
  rw [Option.map_some, value]
  simp only [Option.some.injEq, exists_eq_left', opposes, sign, ne_eq, least, not_false_eq_true,
    true_and]

/-- Where the difference is positive, the square has the sign that the loop gives it. -/
theorem int32_correction_of_pos {a b : ℤ} (lowA : -2 ^ 31 ≤ a) (highB : b < 2 ^ 31) (positive : 0 < b)
    (within : a = -2 ^ 31 ∨ a.natAbs ≤ b.natAbs) :
    mclkAppreciation a b = int32 ((square a b + b.natAbs / 5) * 100) := by
  have sign : 0 ≤ int32 (b - a) ↔ ¬(a = -2 ^ 31 ∨ 2 ^ 31 ≤ (b - a).natAbs) := by
    rw [int32_nonneg_iff]
    omega
  have quotient : b.tdiv 5 = b.natAbs / 5 := by
    rw [Int.tdiv_eq_ediv_of_nonneg (by omega), Int.natAbs_of_nonneg (by omega)]
  rw [mclkAppreciation_eq, quotient, square]
  by_cases wraps : a = -2 ^ 31 ∨ 2 ^ 31 ≤ (b - a).natAbs
  · rw [if_pos wraps, if_neg fun forward => sign.mp forward wraps]
  · rw [if_neg wraps, if_pos (sign.mpr wraps)]

/-- Where it is negative, the sign is the other one. -/
theorem int32_correction_of_neg {a b : ℤ} (lowB : -2 ^ 31 < b) (negative : b < 0)
    (within : a = -2 ^ 31 ∨ a.natAbs ≤ b.natAbs) :
    int32 (-mclkAppreciation a b) = int32 ((square a b + b.natAbs / 5) * 100) := by
  have quotient : b.tdiv 5 = -(b.natAbs / 5 : ℤ) := by
    have positive := Int.tdiv_eq_ediv_of_nonneg (a := -b) (b := 5) (by omega)
    rw [Int.neg_tdiv] at positive
    omega
  rw [mclkAppreciation_eq, quotient, int32_neg_int32, ← neg_mul, neg_add, neg_neg, square]
  by_cases unchanged : b - a = 0
  · simp [unchanged]
  by_cases least : b - a = -2 ^ 31
  · -- Both squares are 0 modulo 2^32.
    rw [least, if_neg (by decide), if_pos (.inr (by decide))]
    generalize (b.natAbs / 5 : ℤ) = q
    have multiple : (-(-(-2 ^ 31 * -2 ^ 31)) + q) * 100 =
        (-(-2 ^ 31 * -2 ^ 31) + q) * 100 + (2 ^ 32 : ℕ) * (2 ^ 31 * 100) := by ring
    rw [multiple, int32, Int.add_mul_bmod_self_left, int32]
  have sign : 0 ≤ int32 (b - a) ↔ a = -2 ^ 31 ∨ 2 ^ 31 ≤ (b - a).natAbs := by
    rw [int32_nonneg_iff]
    omega
  by_cases wraps : a = -2 ^ 31 ∨ 2 ^ 31 ≤ (b - a).natAbs
  · rw [if_pos wraps, if_pos (sign.mpr wraps)]
  · rw [if_neg wraps, if_neg fun forward => wraps (sign.mp forward), neg_neg]

theorem opposes_iff_steady {a b : ℤ} (lowA : -2 ^ 31 ≤ a) (highA : a < 2 ^ 31) (lowB : -2 ^ 31 ≤ b)
    (highB : b < 2 ^ 31) :
    (∃ value, turn a b = some value ∧ Opposes b value) ↔ (tunes a b → steady a b) := by
  by_cases holds : tunes a b
  · obtain ⟨large, least, within⟩ := tunes_spec lowA highA lowB highB holds
    have even : steady a b ↔ 0 ≤ int32 ((square a b + b.natAbs / 5) * 100) := by
      rw [int32_nonneg_iff, steady, decide_eq_true_eq]
    rw [imp_iff_right holds, opposes_iff_sign holds, even]
    obtain ⟨low, high⟩ : -2 ^ 31 ≤ mclkAppreciation a b ∧ mclkAppreciation a b < 2 ^ 31 := int32_range _
    rcases Int.lt_or_lt_of_ne (show b ≠ 0 by omega) with negative | positive
    · rw [← int32_correction_of_neg (by omega) negative within]
      generalize mclkAppreciation a b = m at *
      by_cases least' : m = -2 ^ 31
      · subst least'
        exact iff_of_false (fun both => both.1 rfl) (by decide)
      · rw [int32_of_range (by omega) (by omega)]
        omega
    · rw [← int32_correction_of_pos lowA highB positive within]
      omega
  · refine iff_of_true ⟨none, if_neg holds, fun _ value => ?_⟩ fun tuned => absurd tuned holds
    cases value

/-! ### The loop -/

theorem tunes_cons (a b : ℤ) (later : List ℤ) :
    Tunes a (b :: later) ↔ (∃ value, turn a b = some value ∧ Opposes b value) ∧ Tunes b later := by
  constructor
  · rintro ⟨values, done, opposes⟩
    simp only [loop, Option.bind_eq_bind, Option.bind_eq_some_iff, Option.pure_def,
      Option.some.injEq] at done
    obtain ⟨value, first, others, rest, rfl⟩ := done
    cases opposes with
    | cons here there => exact ⟨⟨value, first, here⟩, others, rest, there⟩
  · rintro ⟨⟨value, first, here⟩, others, rest, there⟩
    exact ⟨value :: others, by simp [loop, first, rest], .cons here there⟩

/-- For every sequence of differences: nothing is divided by zero, and every value that the clock is
set to opposes the difference, if and only if no correction wraps around to the other side. -/
theorem tunes_iff_steady (first : ℤ) (diffs : List ℤ)
    (int : ∀ diff ∈ first :: diffs, -2 ^ 31 ≤ diff ∧ diff < 2 ^ 31) :
    Tunes first diffs ↔ (first :: diffs).IsChain fun a b => tunes a b → steady a b := by
  induction diffs generalizing first with
  | nil => exact iff_of_true ⟨[], rfl, .nil⟩ (.singleton first)
  | cons diff later ih =>
    obtain ⟨lowA, highA⟩ := int first (by simp)
    obtain ⟨lowB, highB⟩ := int diff (by simp)
    rw [tunes_cons, opposes_iff_steady lowA highA lowB highB, List.isChain_cons_cons,
      ih diff fun d member => int d (List.mem_cons_of_mem _ member)]

/-- The value goes up and the clock down, and up again. -/
theorem tunes_iff_steady_drift : Tunes 0 [3, 40, 41, -60] ↔
    [0, 3, 40, 41, -60].IsChain fun a b => tunes a b → steady a b :=
  tunes_iff_steady 0 [3, 40, 41, -60] (by decide)

/-- A change of 4634: its square times 100 is more than 2^31. -/
theorem not_tunes_square : ¬∀ first diffs,
    (∀ diff ∈ first :: diffs, -2 ^ 31 ≤ diff ∧ diff < 2 ^ 31) → Tunes first diffs := by
  intro holds
  obtain ⟨values, done, opposes⟩ := holds 0 [4634] (by decide)
  have value : loop 0 [4634] = some [some 1010000] := by decide
  obtain rfl := Option.some.inj (value.symm.trans done)
  cases opposes with
  | cons here _ => exact absurd ((here _ rfl).2.1 (by decide)) (by decide)

/-- Differences below 1000 s that change by less than 4.6 s. -/
theorem steady_of_close {a b : ℤ} (small : b.natAbs ≤ 1000000)
    (close : (b - a).natAbs ≤ 4600) : steady a b := by
  have change : (b - a) * (b - a) ≤ 4600 * 4600 := by
    rw [← Int.natAbs_mul_self]
    exact_mod_cast Nat.mul_le_mul close close
  have positive := mul_self_nonneg (b - a)
  rw [steady, square, if_neg (by omega), decide_eq_true_eq, Int.ediv_eq_zero_of_lt (by omega) (by omega)]
  rfl

end AmlCommonlib.AudioClockSync
