import Mathlib.Data.List.Basic
import Mathlib.Tactic.Common

/-! # Null-terminated lists in memory

The cells that are reachable by one pointer field. `next` is that field of every cell that is
allocated.
-/

namespace AmlCommonlib

/-- These are the cells reachable from a pointer, in order. -/
inductive Links (next : ℕ → Option (Option ℕ)) : Option ℕ → List ℕ → Prop
  | nil : Links next none []
  | cons {cell : ℕ} {pointer : Option ℕ} {rest : List ℕ} (here : next cell = some pointer)
      (later : Links next pointer rest) : Links next (some cell) (cell :: rest)

namespace Links

variable {next next' : ℕ → Option (Option ℕ)} {pointer : Option ℕ} {cells : List ℕ}

theorem nil_iff : Links next pointer [] ↔ pointer = none := by
  constructor
  · intro links
    cases links
    rfl
  · rintro rfl
    exact .nil

theorem cons_iff {cell : ℕ} : Links next pointer (cell :: cells) ↔
    pointer = some cell ∧ ∃ pointer', next cell = some pointer' ∧ Links next pointer' cells := by
  constructor
  · intro links
    cases links with
    | cons here later => exact ⟨rfl, _, here, later⟩
  · rintro ⟨rfl, pointer', here, later⟩
    exact .cons here later

theorem functional {cells' : List ℕ} (links : Links next pointer cells)
    (links' : Links next pointer cells') : cells = cells' := by
  induction links generalizing cells' with
  | nil =>
    cases links'
    rfl
  | cons here later ih =>
    cases links' with
    | cons here' later' =>
      obtain rfl := Option.some.inj (here.symm.trans here')
      rw [ih later']

theorem of_mem {cell : ℕ} (links : Links next pointer cells) (member : cell ∈ cells) :
    ∃ rest, rest <:+ cells ∧ Links next (some cell) rest := by
  induction links with
  | nil => cases member
  | @cons first pointer' rest here later ih =>
    rcases List.mem_cons.mp member with rfl | member
    · exact ⟨_, List.suffix_refl _, .cons here later⟩
    · obtain ⟨tail, suffix, links⟩ := ih member
      exact ⟨tail, suffix.trans (List.suffix_cons ..), links⟩

theorem allocated {cell : ℕ} (links : Links next pointer cells) (member : cell ∈ cells) :
    (next cell).isSome := by
  obtain ⟨rest, -, links⟩ := links.of_mem member
  cases links with
  | cons here later =>
    rw [here]
    rfl

/-- No cell is reached twice. -/
theorem nodup (links : Links next pointer cells) : cells.Nodup := by
  induction links with
  | nil => exact List.nodup_nil
  | @cons first pointer' rest here later ih =>
    rw [List.nodup_cons]
    refine ⟨?_, ih⟩
    intro member
    obtain ⟨again, suffix, links⟩ := later.of_mem member
    have same := (Links.cons here later).functional links
    have shorter := suffix.length_le
    rw [← same, List.length_cons] at shorter
    omega

/-- The other cells are free to change. -/
theorem frame (links : Links next pointer cells) (same : ∀ cell ∈ cells, next' cell = next cell) :
    Links next' pointer cells := by
  induction links with
  | nil => exact .nil
  | @cons first pointer' rest here later ih =>
    exact .cons ((same first (List.mem_cons_self ..)).trans here)
      (ih fun cell member => same cell (List.mem_cons_of_mem _ member))

/-- A list in which one of the cells is freed does not end. -/
theorem not_of_freed {cells' : List ℕ} {cell : ℕ} (links : Links next pointer cells) (member : cell ∈ cells)
    (freed : next' cell = none) (same : ∀ other ∈ cells, other ≠ cell → next' other = next other) :
    ¬Links next' pointer cells' := by
  intro links'
  induction links generalizing cells' with
  | nil => cases member
  | @cons first pointer' rest here later ih =>
    cases links' with
    | cons here' later' =>
      have ne : first ≠ cell := by
        rintro rfl
        rw [freed] at here'
        cases here'
      rw [same first (List.mem_cons_self ..) ne] at here'
      obtain rfl := Option.some.inj (here.symm.trans here')
      exact ih ((List.mem_cons.mp member).resolve_left ne.symm)
        (fun other inRest => same other (List.mem_cons_of_mem _ inRest)) later'

end Links

end AmlCommonlib
