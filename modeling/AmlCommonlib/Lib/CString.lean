import Mathlib.Data.List.Basic
import Mathlib.Data.List.TakeWhile
import Mathlib.Tactic.Common

/-! # C strings inside a block of memory

A block is a list of bytes. Reading a string at an address is total only when a terminator is
still inside the block, so `cstring?` makes the over-read visible instead of inventing bytes.
-/

namespace AmlCommonlib

abbrev Bytes := List UInt8

/-- The contents of a C string: no embedded terminator. -/
def IsCString (s : Bytes) : Prop := 0 ∉ s

instance (s : Bytes) : Decidable (IsCString s) := inferInstanceAs (Decidable (0 ∉ s))

/-- The string starting at the head of the block; `none` when the read leaves the block. -/
def cstring? (block : Bytes) : Option Bytes :=
  if 0 ∈ block then some (block.takeWhile (· != 0)) else none

/-- `strchr` over the contents of a string: the terminator itself can be searched for. -/
def strchr (s : Bytes) (c : UInt8) : Option ℕ :=
  if c = 0 then some s.length else s.idxOf? c

/-- What `snprintf(dst, size, "%s", s)` leaves in `dst` as a string. -/
def snprintf (size : ℕ) (s : Bytes) : Bytes := s.take (size - 1)

theorem IsCString.append {s t : Bytes} (left : IsCString s) (right : IsCString t) :
    IsCString (s ++ t) := by
  simp only [IsCString, List.mem_append, not_or] at *
  exact ⟨left, right⟩

theorem IsCString.take {s : Bytes} (plain : IsCString s) (n : ℕ) : IsCString (s.take n) :=
  fun member => plain (List.mem_of_mem_take member)

theorem takeWhile_isCString (block : Bytes) : IsCString (block.takeWhile (· != 0)) := by
  intro member
  simpa using List.mem_takeWhile_imp member

/-- A string is the start of what is read up to a terminator. -/
theorem takeWhile_append_plain {s : Bytes} (plain : IsCString s) (rest : Bytes) :
    (s ++ rest).takeWhile (· != 0) = s ++ rest.takeWhile (· != 0) := by
  rw [List.takeWhile_append_of_pos]
  intro b member
  have : b ≠ 0 := fun same => plain (same ▸ member)
  simpa using this

theorem takeWhile_plain {s : Bytes} (plain : IsCString s) : s.takeWhile (· != 0) = s := by
  simpa using takeWhile_append_plain plain []

theorem takeWhile_terminated {s : Bytes} (plain : IsCString s) (rest : Bytes) :
    (s ++ 0 :: rest).takeWhile (· != 0) = s := by
  rw [takeWhile_append_plain plain, List.takeWhile_cons_of_neg (by decide), List.append_nil]

/-- A terminated string is read back exactly, whatever follows its terminator. -/
theorem cstring?_terminated {s : Bytes} (plain : IsCString s) (rest : Bytes) :
    cstring? (s ++ 0 :: rest) = some s := by
  simp only [cstring?, List.mem_append, List.mem_cons, true_or, or_true, if_true,
    takeWhile_terminated plain]

/-- A text in front of other bytes is read exactly if a terminator follows it. -/
theorem cstring?_append_eq {text rest : Bytes} (plain : IsCString text) :
    cstring? (text ++ rest) = some text ↔ rest[0]? = some 0 := by
  constructor
  · intro read
    cases rest with
    | nil =>
      rw [List.append_nil, cstring?, if_neg plain] at read
      cases read
    | cons b rest =>
      by_contra nonzero
      have more : b ≠ 0 := fun zero => nonzero (congrArg some zero)
      rw [cstring?] at read
      split_ifs at read
      have length := congrArg List.length (Option.some.inj read)
      rw [takeWhile_append_plain plain, List.takeWhile_cons_of_pos (by simpa using more),
        List.length_append, List.length_cons] at length
      omega
  · intro ends
    cases rest with
    | nil => cases ends
    | cons b rest =>
      cases ends
      exact cstring?_terminated plain rest

theorem cstring?_isCString {block s : Bytes} (read : cstring? block = some s) : IsCString s := by
  simp only [cstring?] at read
  split_ifs at read
  cases read
  exact takeWhile_isCString block

theorem cstring?_ne_nil {block s : Bytes} {c : UInt8} (nonzero : c ≠ 0)
    (read : cstring? (c :: block) = some s) : s ≠ [] := by
  simp only [cstring?] at read
  split_ifs at read
  cases read
  simp [nonzero]

@[simp] theorem strchr_zero (s : Bytes) : strchr s 0 = some s.length := by simp [strchr]

/-- The first separator is found right behind a prefix that lacks it. -/
theorem strchr_separator {k : Bytes} {c : UInt8} (nonzero : c ≠ 0) (absent : c ∉ k) (rest : Bytes) :
    strchr (k ++ c :: rest) c = some k.length := by
  simp only [strchr, nonzero, if_false]
  induction k with
  | nil => simp [List.idxOf?_cons]
  | cons b k ih =>
    have different : b ≠ c := fun same => absent (same ▸ List.mem_cons_self ..)
    simp only [List.cons_append, List.idxOf?_cons, beq_iff_eq, different, if_false,
      ih (fun member => absent (List.mem_cons_of_mem _ member)), List.length_cons, Option.map_some]

/-- What stands in front of the first separator. -/
theorem take_strchr_iff {s text : Bytes} {c : UInt8} (nonzero : c ≠ 0) :
    (strchr s c).map s.take = some text ↔ c ∉ text ∧ ∃ back, s = text ++ c :: back := by
  constructor
  · intro found
    simp only [strchr, nonzero, if_false, Option.map_eq_some_iff, List.idxOf?_eq_some_iff] at found
    obtain ⟨n, ⟨bound, here, early⟩, rfl⟩ := found
    refine ⟨?_, s.drop (n + 1), ?_⟩
    · intro member
      obtain ⟨j, small, same⟩ := List.mem_take_iff_getElem.mp member
      exact early j (by omega) same
    · conv_lhs => rw [← List.take_append_drop n s, List.drop_eq_getElem_cons bound, here]
  · rintro ⟨absent, back, rfl⟩
    rw [strchr_separator nonzero absent, Option.map_some, List.take_left]
theorem not_mem_take_of_strchr {s : Bytes} {c : UInt8} {i : ℕ} (nonzero : c ≠ 0)
    (found : strchr s c = some i) : c ∉ s.take i := by
  simp only [strchr, nonzero, if_false] at found
  induction s generalizing i with
  | nil => simp
  | cons b s ih =>
    rw [List.idxOf?_cons] at found
    by_cases same : b = c
    · simp only [same, beq_self_eq_true, if_true, Option.some.injEq] at found
      simp [← found]
    · simp only [beq_iff_eq, same, if_false, Option.map_eq_some_iff] at found
      obtain ⟨j, inner, rfl⟩ := found
      simp only [List.take_succ_cons, List.mem_cons, not_or]
      exact ⟨fun equal => same equal.symm, ih inner⟩

end AmlCommonlib
