import Mathlib.Data.List.Basic
import Mathlib.Data.List.DropRight
import Mathlib.Data.List.Infix
import Mathlib.Tactic.Common

/-! # Searching, trimming and splitting

The `std::string` operations behind line-oriented configuration files, over any alphabet.
-/

namespace AmlCommonlib

variable {α : Type*} [DecidableEq α]

/-- `s.rfind(pattern)`: where the last occurrence starts. -/
def rfind (pattern : List α) : List α → Option ℕ
  | [] => if pattern = [] then some 0 else none
  | c :: s =>
    match rfind pattern s with
    | some i => some (i + 1)
    | none => if pattern <+: c :: s then some 0 else none

theorem rfind_eq_none_iff {pattern : List α} (nonempty : pattern ≠ []) (s : List α) :
    rfind pattern s = none ↔ ¬pattern <:+: s := by
  induction s with
  | nil => simp [rfind, nonempty]
  | cons c s ih =>
    rw [rfind, List.infix_cons_iff, not_or, ← ih]
    cases later : rfind pattern s with
    | some i => simp
    | none => simp

/-- The last occurrence is at the start when there is one there and none behind it. -/
theorem rfind_eq_zero_iff {pattern : List α} (nonempty : pattern ≠ []) (s : List α) :
    rfind pattern s = some 0 ↔ pattern <+: s ∧ ¬pattern <:+: s.tail := by
  cases s with
  | nil => simp [rfind, nonempty]
  | cons c s =>
    rw [rfind, List.tail_cons, ← rfind_eq_none_iff nonempty]
    cases later : rfind pattern s with
    | some i => simp
    | none => simp

section Trim

variable (blank : α → Bool)

def ltrim (s : List α) : List α := s.dropWhile blank

def rtrim (s : List α) : List α := s.rdropWhile blank

def trim (s : List α) : List α := ltrim blank (rtrim blank s)

omit [DecidableEq α] in
theorem trim_trim (s : List α) : trim blank (trim blank s) = trim blank s := by
  have ends : rtrim blank (trim blank s) = trim blank s := by
    apply List.rdropWhile_eq_self_iff.mpr
    intro some'
    have whole : rtrim blank s ≠ [] := by
      intro nothing
      rw [trim, nothing] at some'
      exact some' rfl
    have last : (trim blank s).getLast some' = (rtrim blank s).getLast whole :=
      (List.dropWhile_suffix blank).getLast some'
    rw [last]
    exact List.rdropWhile_last_not blank s whole
  rw [trim, ends]
  exact List.dropWhile_idempotent blank _

omit [DecidableEq α] in
/-- A start without blanks stays. -/
theorem prefix_trim {pattern s : List α} (solid : ∀ c ∈ pattern, blank c = false)
    (starts : pattern <+: s) : pattern <+: trim blank s := by
  obtain ⟨rest, rfl⟩ := starts
  have ends : pattern <+: rtrim blank (pattern ++ rest) := by
    induction rest using List.reverseRecOn with
    | nil =>
      have whole : rtrim blank pattern = pattern := by
        apply List.rdropWhile_eq_self_iff.mpr
        intro some'
        simp [solid _ (List.getLast_mem some')]
      rw [List.append_nil, whole]
    | append_singleton rest c ih =>
      rw [← List.append_assoc, rtrim, List.rdropWhile_concat]
      split_ifs
      · exact ih
      · exact (List.prefix_append ..).trans (List.prefix_append ..)
  rw [trim]
  generalize rtrim blank (pattern ++ rest) = whole at ends
  obtain ⟨more, rfl⟩ := ends
  cases pattern with
  | nil => exact List.nil_prefix
  | cons c pattern =>
    have first : blank c = false := solid c (List.mem_cons_self ..)
    simp [ltrim, first]

omit [DecidableEq α] in
/-- What is not blank stays. -/
theorem mem_trim {s : List α} {c : α} (member : c ∈ s) (solid : blank c = false) : c ∈ trim blank s := by
  have keeps : ∀ {t : List α}, c ∈ t → c ∈ t.dropWhile blank := by
    intro t member
    rw [← @List.takeWhile_append_dropWhile _ blank t] at member
    refine (List.mem_append.mp member).resolve_left ?_
    intro blanks
    rw [List.mem_takeWhile_imp blanks] at solid
    cases solid
  apply keeps
  rw [rtrim, List.rdropWhile, List.mem_reverse]
  exact keeps (List.mem_reverse.mpr member)

end Trim

/-- The items `getline(stream, item, delim)` extracts: nothing comes after a final delimiter. -/
def getlines (delim : α) (s : List α) : List (List α) :=
  let items := s.splitOn delim
  if items.getLast? = some [] then items.dropLast else items

theorem getlines_nil (delim : α) : getlines delim [] = [] := by simp [getlines]

theorem getlines_of_not_mem {delim : α} {s : List α} (absent : delim ∉ s) (some' : s ≠ []) :
    getlines delim s = [s] := by
  simp [getlines, List.splitOn_eq_singleton absent, some']

/-- The items are the one before the first delimiter and those behind it. -/
theorem getlines_append_cons {delim : α} {s : List α} (rest : List α) (absent : delim ∉ s) :
    getlines delim (s ++ delim :: rest) = s :: getlines delim rest := by
  have items := List.splitOn_ne_nil delim rest
  simp only [getlines, List.splitOn_append_cons_self_of_not_mem absent, List.getLast?_cons_of_ne_nil items,
    List.dropLast_cons_of_ne_nil items]
  split_ifs <;> rfl

end AmlCommonlib
