import Mathlib.Data.Finset.Card
import Mathlib.Data.List.Basic
import Mathlib.Tactic.Common

/-! # First occurrences

The elements of a list that are the first ones with their key.
-/

namespace AmlCommonlib

variable {α κ : Type*} [DecidableEq κ] {key : α → κ} {l : List α}

/-- The elements whose key is not the key of an earlier element. -/
def firstsBy (key : α → κ) (l : List α) : List α :=
  l.zipIdx.filterMap fun (a, i) => if key a ∈ (l.take i).map key then none else some a

@[simp] theorem firstsBy_nil : firstsBy key [] = [] := rfl

theorem firstsBy_append_singleton (l : List α) (a : α) :
    firstsBy key (l ++ [a]) = firstsBy key l ++ if key a ∈ l.map key then [] else [a] := by
  rw [firstsBy, List.zipIdx_append, List.filterMap_append]
  congr 1
  · apply List.filterMap_congr
    rintro ⟨b, i⟩ member
    have inside : i < l.length := by
      have := (List.mem_zipIdx member).2.1
      omega
    dsimp only
    rw [List.take_append_of_le_length inside.le]
  · simp only [List.zipIdx_singleton, Nat.zero_add, List.filterMap_cons, List.filterMap_nil,
      List.take_left']
    split_ifs <;> rfl

/-- It is where the list can be split with its key only behind the split. -/
theorem mem_firstsBy {a : α} :
    a ∈ firstsBy key l ↔ ∃ before after, l = before ++ a :: after ∧ key a ∉ before.map key := by
  induction l using List.reverseRecOn with
  | nil => simp
  | append_singleton l b ih =>
    rw [firstsBy_append_singleton, List.mem_append, ih]
    constructor
    · rintro (⟨before, after, rfl, fresh⟩ | last)
      · exact ⟨before, after ++ [b], by simp, fresh⟩
      · split_ifs at last with seen
        · cases last
        · cases List.mem_singleton.mp last
          exact ⟨l, [], rfl, seen⟩
    · rintro ⟨before, after, split, fresh⟩
      rcases List.eq_nil_or_concat after with rfl | ⟨after, c, rfl⟩
      · obtain ⟨rfl, same⟩ := List.append_inj' split rfl
        cases same
        right
        rw [if_neg fresh]
        exact List.mem_singleton_self _
      · left
        rw [List.concat_eq_append, ← List.cons_append, ← List.append_assoc] at split
        exact ⟨before, after, (List.append_inj' split rfl).1, fresh⟩

theorem firstsBy_subset {a : α} (member : a ∈ firstsBy key l) : a ∈ l := by
  obtain ⟨before, after, rfl, -⟩ := mem_firstsBy.mp member
  simp

theorem mem_map_firstsBy {k : κ} : k ∈ (firstsBy key l).map key ↔ k ∈ l.map key := by
  induction l using List.reverseRecOn with
  | nil => rfl
  | append_singleton l a ih =>
    rw [firstsBy_append_singleton, List.map_append, List.mem_append, ih, List.map_append,
      List.mem_append, List.map_singleton, List.mem_singleton]
    split_ifs with seen
    · constructor
      · rintro (old | none')
        · exact .inl old
        · cases none'
      · rintro (old | rfl)
        · exact .inl old
        · exact .inl seen
    · simp

theorem nodup_map_firstsBy : ((firstsBy key l).map key).Nodup := by
  induction l using List.reverseRecOn with
  | nil => simp
  | append_singleton l a ih =>
    rw [firstsBy_append_singleton, List.map_append]
    apply List.Nodup.append ih
    · split_ifs <;> simp
    · intro k old new
      split_ifs at new with seen
      · cases new
      · cases List.mem_singleton.mp new
        exact seen (mem_map_firstsBy.mp old)

/-- What an order of the list says of a first occurrence. -/
theorem rel_of_mem_firstsBy {r : α → α → Prop} (ordered : l.Pairwise r) {a b : α}
    (first : a ∈ firstsBy key l) (member : b ∈ l) (same : key b = key a) : b = a ∨ r a b := by
  obtain ⟨before, after, rfl, fresh⟩ := mem_firstsBy.mp first
  rcases List.mem_append.mp member with early | late
  · exact absurd (same ▸ List.mem_map_of_mem early) fresh
  · rcases List.mem_cons.mp late with rfl | behind
    · exact .inl rfl
    · exact .inr (List.rel_of_pairwise_cons (List.pairwise_append.mp ordered).2.1 behind)

end AmlCommonlib
