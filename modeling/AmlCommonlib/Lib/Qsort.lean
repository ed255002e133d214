import AmlCommonlib.Lib.CString
import Mathlib.Data.List.Lex
import Mathlib.Data.List.Sort
import Mathlib.Order.Basic

/-! # `qsort` and a comparison of strings

What a caller of `qsort` may rely on: it exchanges elements, and where the comparison orders them they
are in that order in the end. Equal elements come in any order, and where the comparison is no order
no order is promised.
-/

namespace AmlCommonlib

variable {α : Type*} {cmp : α → α → ℤ} {l : List α}

/-- The comparison orders the elements of the list. -/
structure Consistent (cmp : α → α → ℤ) (l : List α) : Prop where
  flip : ∀ a ∈ l, ∀ b ∈ l, 0 < cmp a b ↔ cmp b a < 0
  trans : ∀ a ∈ l, ∀ b ∈ l, ∀ c ∈ l, cmp a b ≤ 0 → cmp b c ≤ 0 → cmp a c ≤ 0

/-- A `qsort`. -/
structure Qsort (α : Type*) where
  sort : (α → α → ℤ) → List α → List α
  perm : ∀ cmp l, (sort cmp l).Perm l
  sorted : ∀ {cmp l}, Consistent cmp l → (sort cmp l).Pairwise fun a b => cmp a b ≤ 0

theorem Consistent.total (consistent : Consistent cmp l) {a b : α} (inA : a ∈ l) (inB : b ∈ l) :
    cmp a b ≤ 0 ∨ cmp b a ≤ 0 := by
  rcases le_or_gt (cmp a b) 0 with le | gt
  · exact .inl le
  · exact .inr ((consistent.flip a inA b inB).mp gt).le

/-- A comparison by a key. -/
theorem consistent_of_key {κ : Type*} [LinearOrder κ] (key : α → κ)
    (below : ∀ a ∈ l, ∀ b ∈ l, cmp a b < 0 ↔ key a < key b)
    (above : ∀ a ∈ l, ∀ b ∈ l, 0 < cmp a b ↔ key b < key a) : Consistent cmp l where
  flip a inA b inB := by rw [above a inA b inB, below b inB a inA]
  trans a inA b inB c inC ab bc := by
    rw [← not_lt, above _ ‹_› _ ‹_›, not_lt] at ab bc ⊢
    exact ab.trans bc

/-- Insertion sort is one. -/
def insertionQsort : Qsort α where
  sort cmp l := l.insertionSort fun a b => cmp a b ≤ 0
  perm cmp l := List.perm_insertionSort _ l
  sorted {cmp l} consistent := by
    let r : {a // a ∈ l} → {a // a ∈ l} → Prop := fun a b => cmp a b ≤ 0
    have : Std.Total r := ⟨fun a b => consistent.total a.2 b.2⟩
    have : IsTrans _ r := ⟨fun a b c => consistent.trans a a.2 b b.2 c c.2⟩
    have same : (l.attach.insertionSort r).map Subtype.val =
        l.insertionSort fun a b => cmp a b ≤ 0 := by
      rw [List.map_insertionSort r (fun a b => cmp a b ≤ 0) Subtype.val l.attach
        fun _ _ _ _ => Iff.rfl, List.attach_map_subtype_val]
    rw [← same, List.pairwise_map]
    exact List.pairwise_insertionSort r l.attach

/-- Some `qsort` makes of the other lists what one likes. -/
theorem exists_qsort {other : List α → List α} (perm : ∀ l, (other l).Perm l) :
    ∃ q : Qsort α, ∀ cmp l, ¬Consistent cmp l → q.sort cmp l = other l := by
  classical
  refine ⟨⟨fun cmp l => if Consistent cmp l then insertionQsort.sort cmp l else other l, ?_, ?_⟩, ?_⟩
  · intro cmp l
    split_ifs
    · exact insertionQsort.perm cmp l
    · exact perm l
  · intro cmp l consistent
    rw [if_pos consistent]
    exact insertionQsort.sorted consistent
  · intro cmp l inconsistent
    exact if_neg inconsistent

theorem Consistent.perm (consistent : Consistent cmp l) {l' : List α} (perm : l'.Perm l) :
    Consistent cmp l' where
  flip a inA b inB := consistent.flip a (perm.subset inA) b (perm.subset inB)
  trans a inA b inB c inC :=
    consistent.trans a (perm.subset inA) b (perm.subset inB) c (perm.subset inC)

/-- Some `qsort` puts an element before all others that the comparison does not put before it. -/
theorem exists_qsort_first (a : α) :
    ∃ q : Qsort α, ∀ cmp l, a ∈ l → ∀ p : α → Prop,
      (Consistent cmp l → ∀ b ∈ l, p b → cmp a b ≤ 0) →
        ∃ before after, q.sort cmp l = before ++ a :: after ∧ ∀ b ∈ before, ¬p b := by
  classical
  let front : List α → List α := fun l => if a ∈ l then a :: l.erase a else l
  have front_perm : ∀ l, (front l).Perm l := by
    intro l
    by_cases member : a ∈ l
    · simp only [front, member, if_true]
      exact (List.perm_cons_erase member).symm
    · simp only [front, member, if_false]
      exact .rfl
  refine ⟨⟨fun cmp l => if Consistent cmp l then insertionQsort.sort cmp (front l) else front l,
    ?_, ?_⟩, ?_⟩
  · intro cmp l
    split_ifs
    · exact (insertionQsort.perm cmp _).trans (front_perm l)
    · exact front_perm l
  · intro cmp l consistent
    rw [if_pos consistent]
    exact insertionQsort.sorted (consistent.perm (front_perm l))
  · intro cmp l member p leads
    have atFront : front l = a :: l.erase a := if_pos member
    dsimp only
    split_ifs with consistent
    · refine ⟨_, _, (congrArg _ atFront).trans (List.orderedInsert_eq_take_drop _ a _), ?_⟩
      intro b early chosen
      have below := List.mem_takeWhile_imp early
      have inside : b ∈ l.erase a :=
        (List.mem_insertionSort _).mp ((List.takeWhile_sublist _).subset early)
      have le := leads consistent b (List.mem_of_mem_erase inside) chosen
      simp only [decide_not, Bool.not_eq_eq_eq_not, Bool.not_true, decide_eq_false_iff_not] at below
      exact below le
    · exact ⟨[], l.erase a, atFront, by simp⟩

/-! ### Comparing strings whatever the case -/

/-- `tolower` in the C locale. -/
def tolower (b : UInt8) : UInt8 := if 65 ≤ b ∧ b ≤ 90 then b + 32 else b

/-- `strcasecmp` of two strings without their terminators. -/
def strcasecmp : Bytes → Bytes → ℤ
  | [], [] => 0
  | [], b :: _ => -((tolower b).toNat : ℤ)
  | a :: _, [] => (tolower a).toNat
  | a :: s, b :: t =>
    if tolower a = tolower b then strcasecmp s t else ((tolower a).toNat : ℤ) - (tolower b).toNat

/-- The bytes that it compares. -/
def lowered (s : Bytes) : List ℕ := s.map fun b => (tolower b).toNat

theorem tolower_pos {b : UInt8} (nonzero : b ≠ 0) : 0 < (tolower b).toNat := by
  have all : ∀ b : Fin 256, UInt8.ofNat b ≠ 0 → 0 < (tolower (UInt8.ofNat b)).toNat := by
    decide +kernel
  have here := all ⟨b.toNat, b.toNat_lt⟩
  simpa using here (by simpa using nonzero)

theorem strcasecmp_neg_iff {s t : Bytes} (plainT : IsCString t) :
    strcasecmp s t < 0 ↔ lowered s < lowered t := by
  induction s generalizing t with
  | nil =>
    cases t with
    | nil => simp [strcasecmp, lowered]
    | cons b t =>
      have positive := tolower_pos (b := b) fun zero => plainT (by simp [zero])
      simp [strcasecmp, lowered]
      omega
  | cons a s ih =>
    cases t with
    | nil => simp [strcasecmp, lowered]
    | cons b t =>
      have rest := @ih t fun member => plainT (List.mem_cons_of_mem _ member)
      rw [strcasecmp, lowered, lowered, List.map_cons, List.map_cons, List.cons_lt_cons_iff]
      split_ifs with same
      · rw [rest, same]
        simp [lowered]
      · have apart : (tolower a).toNat ≠ (tolower b).toNat := fun eq => same (UInt8.toNat_inj.mp eq)
        simp only [apart, false_and, or_false]
        omega

theorem strcasecmp_swap (s t : Bytes) : strcasecmp s t = -strcasecmp t s := by
  induction s generalizing t with
  | nil => cases t <;> simp [strcasecmp]
  | cons a s ih =>
    cases t with
    | nil => simp [strcasecmp]
    | cons b t =>
      rw [strcasecmp, strcasecmp]
      split_ifs with same other other
      · exact ih t
      · exact absurd same.symm other
      · exact absurd other.symm same
      · omega

theorem strcasecmp_pos_iff {s t : Bytes} (plainS : IsCString s) :
    0 < strcasecmp s t ↔ lowered t < lowered s := by
  rw [strcasecmp_swap, ← strcasecmp_neg_iff plainS]
  omega

end AmlCommonlib
