import Mathlib.Data.List.Basic
import Mathlib.Data.List.Induction
import Mathlib.Tactic.Common

/-! # The latest entry of a history

A history grows at its end. The latest entry with a property is what a last-writer law compares a
state with.
-/

namespace AmlCommonlib

variable {α β : Type*}

/-- The last entry with the property. -/
def latest (p : α → Bool) (history : List α) : Option α := (history.filter p).getLast?

@[simp] theorem latest_nil (p : α → Bool) : latest p [] = none := rfl

theorem latest_append (p : α → Bool) (old new : List α) :
    latest p (old ++ new) = (latest p new).or (latest p old) := by
  simp [latest]

theorem latest_append_some {p : α → Bool} {old new : List α} {e : α}
    (last : latest p new = some e) : latest p (old ++ new) = some e := by
  rw [latest_append, last, Option.some_or]

theorem latest_append_none {p : α → Bool} {old new : List α}
    (none' : latest p new = none) : latest p (old ++ new) = latest p old := by
  rw [latest_append, none', Option.none_or]

theorem latest_cons (p : α → Bool) (e : α) (later : List α) :
    latest p (e :: later) = (latest p later).or (if p e then some e else none) := by
  rw [← List.singleton_append, latest_append]
  cases holds : p e <;> simp [latest, holds]

theorem latest_eq_none_iff {p : α → Bool} {history : List α} :
    latest p history = none ↔ ∀ e ∈ history, p e = false := by
  simp [latest]

theorem latest_mem {p : α → Bool} {history : List α} {e : α} (last : latest p history = some e) :
    e ∈ history ∧ p e = true := List.mem_filter.mp (List.mem_of_getLast? last)

/-- The latest entry with a property is also the latest with any stronger one it has. -/
theorem latest_of_stronger {p q : α → Bool} {history : List α} {e : α}
    (weaker : ∀ x ∈ history, q x = true → p x = true) (last : latest p history = some e)
    (strong : q e = true) : latest q history = some e := by
  have nested : history.filter q = (history.filter p).filter q := by
    rw [List.filter_filter]
    apply List.filter_congr
    intro x member
    cases holds : q x with
    | false => simp
    | true => simp [weaker x member holds]
  obtain ⟨front, whole⟩ := List.getLast?_eq_some_iff.mp last
  rw [latest, nested, whole, List.filter_append]
  simp [strong]

theorem latest_map (p : β → Bool) (f : α → β) (history : List α) :
    latest p (history.map f) = (latest (p ∘ f) history).map f := by
  rw [latest, latest, List.filter_map, List.getLast?_map]

/-- Looking from the end finds the latest entry. -/
theorem find?_reverse (p : α → Bool) (history : List α) :
    history.reverse.find? p = latest p history := by
  induction history using List.reverseRecOn with
  | nil => rfl
  | append_singleton history e ih =>
    rw [List.reverse_append, List.reverse_singleton, List.singleton_append, List.find?_cons,
      latest_append, ih]
    cases holds : p e <;> simp [latest, holds]

end AmlCommonlib
