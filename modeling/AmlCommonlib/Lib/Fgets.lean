import AmlCommonlib.Lib.CString
import Mathlib.Data.List.Infix

/-! # Reading a text file line by line

`fgets` with a buffer that a line may be too long for, and `strstr` on what it reads.
-/

namespace AmlCommonlib

/-- `strstr`: the string from the first occurrence on. -/
def strstr (s pattern : Bytes) : Option Bytes := s.tails.find? fun t => pattern.isPrefixOf t

theorem strstr_isSome_iff {s pattern : Bytes} : (strstr s pattern).isSome ↔ pattern <:+: s := by
  rw [strstr, List.find?_isSome, List.infix_iff_prefix_suffix]
  simp only [List.mem_tails, List.isPrefixOf_iff_prefix, and_comm]

theorem strstr_eq_none_iff {s pattern : Bytes} : strstr s pattern = none ↔ ¬pattern <:+: s := by
  rw [← strstr_isSome_iff, Option.not_isSome_iff_eq_none]

theorem strstr_spec {s pattern text : Bytes} (found : strstr s pattern = some text) :
    pattern <+: text ∧ text <:+ s :=
  ⟨List.isPrefixOf_iff_prefix.mp (List.find?_some found),
    (List.mem_tails text s).mp (List.mem_of_find?_eq_some found)⟩

theorem strstr_cons (s pattern : Bytes) (c : UInt8) :
    strstr (c :: s) pattern = if pattern <+: c :: s then some (c :: s) else strstr s pattern := by
  rw [strstr, List.tails_cons, List.find?_cons, strstr]
  by_cases here : pattern <+: c :: s
  · simp [here, List.isPrefixOf_iff_prefix.mpr here]
  · have not' : pattern.isPrefixOf (c :: s) = false := by
      rw [Bool.eq_false_iff, ne_eq, List.isPrefixOf_iff_prefix]
      exact here
    simp [here, not']

/-- The text begins where the pattern stands for the first time. -/
theorem strstr_eq_some_iff {s pattern text : Bytes} : strstr s pattern = some text ↔
    pattern <+: text ∧ ∃ front, s = front ++ text ∧
      ∀ front' back, s = front' ++ (pattern ++ back) → front.length ≤ front'.length := by
  induction s with
  | nil =>
    constructor
    · intro found
      obtain ⟨begins, isSuffix⟩ := strstr_spec found
      obtain rfl := List.suffix_nil.mp isSuffix
      exact ⟨begins, [], rfl, fun _ _ _ => Nat.zero_le _⟩
    · rintro ⟨begins, front, whole, -⟩
      obtain ⟨rfl, rfl⟩ := List.append_eq_nil_iff.mp whole.symm
      obtain rfl := List.prefix_nil.mp begins
      rfl
  | cons c s ih =>
    rw [strstr_cons]
    split_ifs with here
    · rw [Option.some.injEq]
      constructor
      · rintro rfl
        exact ⟨here, [], rfl, fun _ _ _ => Nat.zero_le _⟩
      · rintro ⟨-, front, whole, first⟩
        obtain ⟨back, same⟩ := here
        have none' := first [] back same.symm
        obtain rfl := List.length_eq_zero_iff.mp (Nat.le_zero.mp none')
        exact whole
    · rw [ih]
      constructor
      · rintro ⟨begins, front, rfl, first⟩
        refine ⟨begins, c :: front, rfl, ?_⟩
        intro front' back whole
        cases front' with
        | nil => exact absurd ⟨back, whole.symm⟩ here
        | cons d front' => exact Nat.succ_le_succ (first front' back (List.cons.inj whole).2)
      · rintro ⟨begins, front, whole, first⟩
        cases front with
        | nil => exact absurd (whole ▸ begins) here
        | cons d front =>
          refine ⟨begins, front, (List.cons.inj whole).2, ?_⟩
          intro front' back behind
          have bound := first (c :: front') back (by rw [behind]; rfl)
          exact Nat.le_of_succ_le_succ bound

/-- A string that starts with the pattern. -/
theorem strstr_append (pattern rest : Bytes) :
    strstr (pattern ++ rest) pattern = some (pattern ++ rest) := by
  have first : pattern.isPrefixOf (pattern ++ rest) :=
    List.isPrefixOf_iff_prefix.mpr (List.prefix_append ..)
  cases whole : pattern ++ rest with
  | nil =>
    rw [whole] at first
    simp [strstr, first]
  | cons b t =>
    rw [whole] at first
    simp [strstr, first]

theorem length_strstr_iff {s pattern text : Bytes} (found : strstr s pattern = some text) :
    text.length = s.length ↔ pattern <+: s := by
  obtain ⟨starts, suffix⟩ := strstr_spec found
  constructor
  · intro same
    exact suffix.eq_of_length same ▸ starts
  · rintro ⟨rest, rfl⟩
    rw [strstr_append] at found
    rw [← Option.some.inj found]

/-- The length of the first line with its line end. -/
def lineLength (file : Bytes) : ℕ :=
  match strchr file 10 with
  | some i => i + 1
  | none => file.length

/-- `fgets` into a buffer of a size, and what is left of the file. -/
def fgets (size : ℕ) (file : Bytes) : Option (Bytes × Bytes) :=
  if file = [] then none
  else some (file.splitAt (min (size - 1) (lineLength file)))

/-- What `fgets` reads up to the end of the file; the fuel is the length of the file. -/
def fgetsLines (size : ℕ) : ℕ → Bytes → List Bytes
  | 0, _ => []
  | fuel + 1, file =>
    match fgets size file with
    | none => []
    | some (line, rest) => line :: fgetsLines size fuel rest

/-- With fuel enough the lines are read from the file. -/
def Reads (size : ℕ) (file : Bytes) (lines : List Bytes) : Prop :=
  ∀ fuel, file.length ≤ fuel → fgetsLines size fuel file = lines

theorem Reads.nil (size : ℕ) : Reads size [] [] := by
  intro fuel _
  cases fuel <;> rfl

theorem lineLength_line {text : Bytes} (oneLine : 10 ∉ text) (rest : Bytes) :
    lineLength (text ++ 10 :: rest) = text.length + 1 := by
  rw [lineLength, strchr_separator (by decide) oneLine]

/-- One more `fgets`. -/
theorem Reads.cons {size n : ℕ} {file : Bytes} {lines : List Bytes}
    (length : min (size - 1) (lineLength file) = n) (some' : 0 < n) (inside : n ≤ file.length)
    (reads : Reads size (file.drop n) lines) : Reads size file (file.take n :: lines) := by
  intro fuel enough
  cases fuel with
  | zero => omega
  | succ fuel =>
    have nonempty : file ≠ [] := List.ne_nil_of_length_pos (some'.trans_le inside)
    rw [fgetsLines, fgets, if_neg nonempty, length]
    simp only [List.splitAt_eq]
    rw [reads fuel (by rw [List.length_drop]; omega)]

/-- A line that fits into the buffer is read as a whole. -/
theorem Reads.line {size : ℕ} {text rest : Bytes} {lines : List Bytes} (oneLine : 10 ∉ text)
    (fits : text.length + 1 < size) (reads : Reads size rest lines) :
    Reads size (text ++ 10 :: rest) ((text ++ [10]) :: lines) := by
  have split : text ++ 10 :: rest = (text ++ [10]) ++ rest := by simp
  have whole : min (size - 1) (lineLength (text ++ 10 :: rest)) = (text ++ [10]).length := by
    rw [lineLength_line oneLine, List.length_append, List.length_singleton]
    omega
  have here := @Reads.cons size (text ++ [10]).length (text ++ 10 :: rest) lines whole (by simp)
    (by simp)
  rw [split, List.take_left, List.drop_left] at here
  rw [split]
  exact here reads

/-- Any line is read in parts. -/
theorem Reads.parts {size : ℕ} (room : 2 ≤ size) {text rest : Bytes} {lines : List Bytes}
    (oneLine : 10 ∉ text) (reads : Reads size rest lines) :
    ∃ parts, (∀ part ∈ parts, part <:+: text ++ [10]) ∧
      Reads size (text ++ 10 :: rest) (parts ++ lines) := by
  rcases Nat.lt_or_ge (text.length + 1) size with fits | long
  · exact ⟨[text ++ [10]], by simp, reads.line oneLine fits⟩
  · obtain ⟨parts, inside, behind⟩ := @Reads.parts size room (text.drop (size - 1)) rest lines
      (fun member => oneLine (List.mem_of_mem_drop member)) reads
    have first : min (size - 1) (lineLength (text ++ 10 :: rest)) = size - 1 := by
      rw [lineLength_line oneLine]
      omega
    have here := @Reads.cons size (size - 1) (text ++ 10 :: rest) (parts ++ lines) first (by omega)
      (by rw [List.length_append]; omega)
    rw [List.drop_append_of_le_length (by omega), List.take_append_of_le_length (by omega)] at here
    refine ⟨text.take (size - 1) :: parts, ?_, here behind⟩
    intro part member
    rcases List.mem_cons.mp member with rfl | late
    · exact (List.take_prefix _ _).isInfix.trans List.infix_append_left
    · obtain ⟨before, after, split⟩ := inside part late
      refine ⟨text.take (size - 1) ++ before, after, ?_⟩
      rw [List.append_assoc, List.append_assoc, ← List.append_assoc before, split,
        ← List.append_assoc, List.take_append_drop]
termination_by text.length
decreasing_by
  rw [List.length_drop]
  omega

end AmlCommonlib
