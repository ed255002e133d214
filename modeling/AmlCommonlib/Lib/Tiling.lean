import Mathlib.Data.List.Basic
import Mathlib.Data.List.Chain
import Mathlib.Tactic.Common

/-! # Tilings of an interval

A list of spans that covers an interval of numbers in order, each of positive length and without a
gap. A tiling in which no two neighbours are both free is determined by the other spans, and every
free interval lies inside one span of it.
-/

namespace AmlCommonlib

variable {γ : Type*}

/-- The spans cover `[lo, hi)` in order. -/
inductive Tiles (start length : γ → ℕ) : ℕ → List γ → ℕ → Prop
  | nil (lo : ℕ) : Tiles start length lo [] lo
  | cons {lo hi : ℕ} {c : γ} {rest : List γ} (here : start c = lo) (positive : 0 < length c)
      (later : Tiles start length (lo + length c) rest hi) : Tiles start length lo (c :: rest) hi

namespace Tiles

variable {start length : γ → ℕ} {lo mid hi : ℕ} {c d : γ} {xs ys rest : List γ}

theorem nil_iff : Tiles start length lo [] hi ↔ lo = hi := by
  constructor
  · intro tiles
    cases tiles
    rfl
  · rintro rfl
    exact .nil _

theorem cons_iff : Tiles start length lo (c :: rest) hi ↔
    start c = lo ∧ 0 < length c ∧ Tiles start length (lo + length c) rest hi := by
  constructor
  · intro tiles
    cases tiles with
    | cons here positive later => exact ⟨here, positive, later⟩
  · rintro ⟨here, positive, later⟩
    exact .cons here positive later

theorem append_iff : Tiles start length lo (xs ++ ys) hi ↔
    ∃ mid, Tiles start length lo xs mid ∧ Tiles start length mid ys hi := by
  induction xs generalizing lo with
  | nil => simp [nil_iff]
  | cons c xs ih =>
    simp only [List.cons_append, cons_iff, ih]
    constructor
    · rintro ⟨here, positive, mid, left, right⟩
      exact ⟨mid, ⟨here, positive, left⟩, right⟩
    · rintro ⟨mid, ⟨here, positive, left⟩, right⟩
      exact ⟨here, positive, mid, left, right⟩

theorem le (tiles : Tiles start length lo xs hi) : lo ≤ hi := by
  induction tiles with
  | nil => exact le_rfl
  | cons _ _ _ ih => omega

theorem lt (tiles : Tiles start length lo xs hi) (some : xs ≠ []) : lo < hi := by
  cases tiles with
  | nil => exact absurd rfl some
  | cons _ positive later =>
    have := later.le
    omega

/-- The spans determine the interval. -/
theorem ends {lo' hi' : ℕ} (tiles : Tiles start length lo xs hi) (some : xs ≠ [])
    (tiles' : Tiles start length lo' xs hi') : lo = lo' ∧ hi = hi' := by
  induction tiles generalizing lo' with
  | nil => exact absurd rfl some
  | @cons lo hi c rest here _ later ih =>
    obtain ⟨here', -, later'⟩ := cons_iff.mp tiles'
    have front : lo = lo' := here.symm.trans here'
    refine ⟨front, ?_⟩
    subst front
    cases rest with
    | nil => rw [← nil_iff.mp later, ← nil_iff.mp later']
    | cons d rest => exact (ih (List.cons_ne_nil _ _) later').2

theorem bounds (tiles : Tiles start length lo xs hi) (member : c ∈ xs) :
    lo ≤ start c ∧ 0 < length c ∧ start c + length c ≤ hi := by
  induction tiles with
  | nil => cases member
  | cons here positive later ih =>
    have rest := later.le
    rcases List.mem_cons.mp member with rfl | member
    · omega
    · have := ih member
      omega

/-- Spans come in the order of their numbers and do not overlap. -/
theorem pairwise (tiles : Tiles start length lo xs hi) :
    xs.Pairwise fun a b => start a + length a ≤ start b := by
  induction tiles with
  | nil => exact .nil
  | cons here _ later ih =>
    refine .cons ?_ ih
    intro b member
    have := later.bounds member
    omega

/-- A span that does not lie before or behind another one is that one. -/
theorem eq_of_meet (tiles : Tiles start length lo xs hi) (first : c ∈ xs) (second : d ∈ xs)
    (left : start c < start d + length d) (right : start d < start c + length c) : c = d := by
  induction tiles with
  | nil => cases first
  | cons here _ later ih =>
    rcases List.mem_cons.mp first with rfl | behind
    · rcases List.mem_cons.mp second with rfl | behind
      · rfl
      · have := later.bounds behind
        omega
    · rcases List.mem_cons.mp second with rfl | behind'
      · have := later.bounds behind
        omega
      · exact ih behind behind'

/-- A span is the only one with its start. -/
theorem eq_of_start (tiles : Tiles start length lo xs hi) (first : c ∈ xs) (second : d ∈ xs)
    (same : start c = start d) : c = d := by
  have left := tiles.bounds first
  have right := tiles.bounds second
  exact tiles.eq_of_meet first second (by omega) (by omega)

end Tiles

/-! ### Free and taken spans -/

/-- No two neighbours are both free. -/
def Coalesced (free : γ → Prop) (xs : List γ) : Prop := xs.IsChain fun a b => ¬(free a ∧ free b)

theorem coalesced_singleton {free : γ → Prop} (c : γ) : Coalesced free [c] := .singleton c

/-- A taken span keeps what is before it and what is behind it apart. -/
theorem coalesced_split {free : γ → Prop} {c : γ} (taken : ¬free c) (xs ys : List γ) :
    Coalesced free (xs ++ c :: ys) ↔ Coalesced free xs ∧ Coalesced free ys := by
  simp [Coalesced, List.isChain_append, List.isChain_cons, taken]

/-- A free span may be replaced by another span, or by none, at either end. -/
theorem Coalesced.replace_last {free : γ → Prop} {c d : γ} {xs : List γ}
    (coalesced : Coalesced free (xs ++ [c])) (isFree : free c) : Coalesced free (xs ++ [d]) := by
  rw [Coalesced, List.isChain_append] at *
  refine ⟨coalesced.1, .singleton d, ?_⟩
  intro x last y head both
  exact coalesced.2.2 x last c (by simp) ⟨both.1, isFree⟩

theorem Coalesced.replace_first {free : γ → Prop} {c d : γ} {xs : List γ}
    (coalesced : Coalesced free (c :: xs)) (isFree : free c) : Coalesced free (d :: xs) := by
  rw [Coalesced, List.isChain_cons] at *
  exact ⟨fun y head both => coalesced.1 y head ⟨isFree, both.2⟩, coalesced.2⟩

section Coalesced

variable {start length : γ → ℕ} {free : γ → Prop} {lo hi : ℕ} {xs ys : List γ}

/-- An interval that meets free spans only lies inside one of them. -/
theorem Tiles.gap (tiles : Tiles start length lo xs hi) (coalesced : Coalesced free xs) {o n : ℕ}
    (positive : 0 < n) (low : lo ≤ o) (high : o + n ≤ hi)
    (clear : ∀ c ∈ xs, o < start c + length c → start c < o + n → free c) :
    ∃ c ∈ xs, free c ∧ start c ≤ o ∧ o + n ≤ start c + length c := by
  induction tiles with
  | nil => omega
  | @cons lo hi c rest here positive' later ih =>
    have first := clear c (List.mem_cons_self ..)
    have tail : ∀ d ∈ rest, o < start d + length d → start d < o + n → free d :=
      fun d member => clear d (List.mem_cons_of_mem _ member)
    rcases Nat.lt_or_ge o (lo + length c) with inside | beyond
    · have taken : free c := first (by omega) (by omega)
      refine ⟨c, List.mem_cons_self .., taken, by omega, ?_⟩
      by_contra reaches
      -- the interval reaches into the next span, which then is free as well
      cases later with
      | nil => omega
      | @cons _ _ d rest here' positive'' later =>
        have next := tail d (List.mem_cons_self ..) (by omega) (by omega)
        exact (List.isChain_cons_cons.mp coalesced).1 ⟨taken, next⟩
    · obtain ⟨d, member, within⟩ := ih coalesced.tail beyond high tail
      exact ⟨d, List.mem_cons_of_mem _ member, within⟩

/-- The free span at the front is not longer than that of another tiling with the same taken
spans. -/
private theorem Tiles.front_le {c d : γ} {later later' : List γ}
    (tiles : Tiles start length lo (c :: later) hi) (tiles' : Tiles start length lo (d :: later') hi)
    (coalesced : Coalesced free (c :: later)) (isFree : free c) (isFree' : free d)
    (same : ∀ e, ¬free e → e ∈ c :: later → e ∈ d :: later') : length d ≤ length c := by
  obtain ⟨here, positive, rest⟩ := Tiles.cons_iff.mp tiles
  obtain ⟨here', positive', rest'⟩ := Tiles.cons_iff.mp tiles'
  by_contra shorter
  cases rest with
  | nil =>
    have := rest'.le
    omega
  | @cons _ _ e more atEnd long after =>
    have taken : ¬free e := fun next => (List.isChain_cons_cons.mp coalesced).1 ⟨isFree, next⟩
    rcases List.mem_cons.mp (same e taken (by simp)) with rfl | member
    · exact taken isFree'
    · have := rest'.bounds member
      omega

/-- A tiling without free neighbours is determined by its taken spans. -/
theorem Tiles.unique (ext : ∀ a b, start a = start b → length a = length b → (free a ↔ free b) → a = b)
    (tiles : Tiles start length lo xs hi) (tiles' : Tiles start length lo ys hi)
    (coalesced : Coalesced free xs) (coalesced' : Coalesced free ys)
    (same : ∀ c, ¬free c → (c ∈ xs ↔ c ∈ ys)) : xs = ys := by
  induction tiles generalizing ys with
  | nil lo =>
    cases tiles' with
    | nil => rfl
    | cons _ positive later =>
      have := later.le
      omega
  | @cons lo hi c rest here positive later ih =>
    cases tiles' with
    | nil =>
      have := later.le
      omega
    | @cons _ _ d rest' here' positive' later' =>
      have tiles : Tiles start length lo (c :: rest) hi := .cons here positive later
      have tiles' : Tiles start length lo (d :: rest') hi := .cons here' positive' later'
      have front : c = d := by
        by_cases isFree : free c
        · by_cases isFree' : free d
          · have le := tiles.front_le tiles' coalesced isFree isFree' fun e taken => (same e taken).mp
            have ge := tiles'.front_le tiles coalesced' isFree' isFree fun e taken => (same e taken).mpr
            exact ext c d (by omega) (by omega) (by simp [isFree, isFree'])
          · have member := (same d isFree').mpr (List.mem_cons_self ..)
            exact tiles.eq_of_start (List.mem_cons_self ..) member (by omega)
        · have member := (same c isFree).mp (List.mem_cons_self ..)
          exact tiles'.eq_of_start member (List.mem_cons_self ..) (by omega)
      subst front
      have apart : ∀ {e zs}, Tiles start length (lo + length c) zs hi → e ∈ zs → e ≠ c := by
        rintro e zs behind member rfl
        have := behind.bounds member
        omega
      rw [ih later' coalesced.tail coalesced'.tail ?_]
      intro e taken
      constructor
      · intro member
        have both := (same e taken).mp (List.mem_cons_of_mem _ member)
        exact (List.mem_cons.mp both).resolve_left (apart later member)
      · intro member
        have both := (same e taken).mpr (List.mem_cons_of_mem _ member)
        exact (List.mem_cons.mp both).resolve_left (apart later' member)

end Coalesced

end AmlCommonlib
