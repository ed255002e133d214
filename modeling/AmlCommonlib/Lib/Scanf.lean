import AmlCommonlib.Lib.CString
import Mathlib.Data.Int.Notation

/-! # Formatted reading

The part of `sscanf` that tables of numbers and names need: ordinary characters, blanks, decimal and
hexadecimal numbers, words and runs of characters with a width. A conversion that fails ends the
scan with what was converted before it. Printing is by `Nat.toDigits`.
-/

namespace AmlCommonlib

/-- `isspace`. -/
def isBlank (b : UInt8) : Bool := b == 32 || (9 ≤ b && b ≤ 13)

/-! ### Numbers -/

/-- The value of a digit of a base up to 16. -/
def digit? (base : ℕ) (b : UInt8) : Option ℕ :=
  let value :=
    if 48 ≤ b ∧ b ≤ 57 then some (b.toNat - 48)
    else if 97 ≤ b ∧ b ≤ 102 then some (b.toNat - 87)
    else if 65 ≤ b ∧ b ≤ 70 then some (b.toNat - 55)
    else none
  value.filter (· < base)

def isDigit (base : ℕ) (b : UInt8) : Bool := (digit? base b).isSome

/-- The value of a text of digits. -/
def digitsValue (base : ℕ) (s : Bytes) : ℕ :=
  s.foldl (fun n b => n * base + (digit? base b).getD 0) 0

/-- An optional `0x`. -/
def stripHexPrefix : Bytes → Bytes
  | 48 :: 120 :: rest => rest
  | 48 :: 88 :: rest => rest
  | s => s

/-- The digits of a number without its sign, and what follows. -/
def readDigits (base : ℕ) (s : Bytes) : Option (ℕ × Bytes) :=
  let s := if base = 16 then stripHexPrefix s else s
  let digits := s.takeWhile (isDigit base)
  if digits = [] then none else some (digitsValue base digits, s.drop digits.length)

/-- A number with an optional sign behind blanks. -/
def readNumber (base : ℕ) (s : Bytes) : Option (ℤ × Bytes) :=
  match s.dropWhile isBlank with
  | 45 :: rest => (readDigits base rest).map fun (n, rest) => (-(n : ℤ), rest)
  | 43 :: rest => (readDigits base rest).map fun (n, rest) => ((n : ℤ), rest)
  | s => (readDigits base s).map fun (n, rest) => ((n : ℤ), rest)

/-! ### Formats -/

inductive Directive
  /-- A character other than blanks. -/
  | literal (c : UInt8)
  /-- Blanks in the format skip any blanks. -/
  | blank
  /-- `%d` -/
  | decimal
  /-- `%x`, `%llx` -/
  | hex
  /-- `%5s` -/
  | word (width : ℕ)
  /-- `%5[^"]` -/
  | span (width : ℕ) (stop : UInt8)
deriving DecidableEq

inductive Scanned
  | number (n : ℤ)
  | text (s : Bytes)
deriving DecidableEq, Repr

/-- A non-empty piece of text that was converted, and what follows. -/
def takeText (piece s : Bytes) : Option (Option Scanned × Bytes) :=
  if piece = [] then none else some (some (.text piece), s.drop piece.length)

def Directive.read : Directive → Bytes → Option (Option Scanned × Bytes)
  | .literal c, s => match s with
    | b :: rest => if b = c then some (none, rest) else none
    | [] => none
  | .blank, s => some (none, s.dropWhile isBlank)
  | .decimal, s => (readNumber 10 s).map fun (n, rest) => (some (.number n), rest)
  | .hex, s => (readNumber 16 s).map fun (n, rest) => (some (.number n), rest)
  | .word width, s =>
    let s := s.dropWhile isBlank
    takeText ((s.take width).takeWhile fun b => !isBlank b) s
  | .span width stop, s => takeText ((s.take width).takeWhile (· != stop)) s

/-- The conversions of `sscanf`, in order. -/
def sscanf : List Directive → Bytes → List Scanned
  | [], _ => []
  | d :: format, s =>
    match d.read s with
    | none => []
    | some (value, rest) => value.toList ++ sscanf format rest

/-! ### Printing -/

/-- The digits of a number. -/
def numeral (base n : ℕ) : Bytes := (Nat.toDigits base n).map fun c => UInt8.ofNat c.toNat

/-- A text with zeros in front of it, as wide as `width` at least. -/
def zeroPadded (width : ℕ) (s : Bytes) : Bytes := .replicate (width - s.length) 48 ++ s

/-! ### Printed numbers are read back -/

theorem digit?_digitChar {base d : ℕ} (small : base ≤ 16) (inside : d < base) :
    digit? base (UInt8.ofNat (Nat.digitChar d).toNat) = some d := by
  have value : ∀ d < 16, digit? 16 (UInt8.ofNat (Nat.digitChar d).toNat) = some d := by decide
  have found := value d (by omega)
  simp only [digit?, Option.filter_eq_some_iff] at found ⊢
  exact ⟨found.1, by simpa using inside⟩

theorem digitsValue_append (base : ℕ) (s : Bytes) (b : UInt8) :
    digitsValue base (s ++ [b]) = digitsValue base s * base + (digit? base b).getD 0 := by
  simp [digitsValue]

theorem numeral_eq {base : ℕ} (large : 1 < base) (n : ℕ) :
    numeral base n = (if n < base then [] else numeral base (n / base)) ++
      [UInt8.ofNat (Nat.digitChar (n % base)).toNat] := by
  rw [numeral, Nat.toDigits_eq_if large]
  split_ifs with single
  · simp [Nat.mod_eq_of_lt single]
  · simp [numeral]

/-- A numeral is not empty, has only digits, and the value it was printed from. -/
theorem numeral_spec {base : ℕ} (large : 1 < base) (small : base ≤ 16) (n : ℕ) :
    numeral base n ≠ [] ∧ (∀ b ∈ numeral base n, isDigit base b = true) ∧
      digitsValue base (numeral base n) = n := by
  induction n using Nat.strong_induction_on with
  | _ n ih =>
    have last := digit?_digitChar small (Nat.mod_lt n (by omega))
    rw [numeral_eq large]
    refine ⟨by simp, ?_, ?_⟩
    · intro b member
      rcases List.mem_append.mp member with front | final
      · split_ifs at front with single
        · cases front
        · exact (ih (n / base) (Nat.div_lt_self (by omega) large)).2.1 b front
      · rw [List.mem_singleton.mp final, isDigit, last]
        rfl
    · rw [digitsValue_append, last]
      split_ifs with single
      · simp [digitsValue, Nat.mod_eq_of_lt single]
      · rw [(ih (n / base) (Nat.div_lt_self (by omega) large)).2.2]
        exact Nat.div_add_mod' n base

theorem digitsValue_zeros (base k : ℕ) (s : Bytes) :
    digitsValue base (List.replicate k 48 ++ s) = digitsValue base s := by
  induction k with
  | zero => rfl
  | succ k ih =>
    have zero : (digit? base 48).getD 0 = 0 := by
      simp only [digit?, show (48 : UInt8) ≤ 48 ∧ (48 : UInt8) ≤ 57 by decide, and_self, if_true]
      cases base <;> rfl
    rw [List.replicate_succ, List.cons_append, ← ih]
    simp [digitsValue, zero]

theorem isDigit_ten {b : UInt8} (digit : isDigit 10 b = true) : isDigit 16 b = true := by
  obtain ⟨v, found⟩ := Option.isSome_iff_exists.mp digit
  simp only [digit?, Option.filter_eq_some_iff, decide_eq_true_eq] at found
  have wider : digit? 16 b = some v := by
    simp only [digit?, Option.filter_eq_some_iff, decide_eq_true_eq]
    exact ⟨found.1, by omega⟩
  rw [isDigit, wider]
  rfl

theorem isDigit_range {base : ℕ} {b : UInt8} (digit : isDigit base b = true) :
    48 ≤ b ∧ b ≤ 57 ∨ 97 ≤ b ∧ b ≤ 102 ∨ 65 ≤ b ∧ b ≤ 70 := by
  by_contra outside
  simp only [not_or] at outside
  simp [isDigit, digit?, outside] at digit

/-- A digit is no blank, no sign and no letter of a prefix. -/
theorem isDigit_apart {base : ℕ} {b : UInt8} (digit : isDigit base b = true) :
    isBlank b = false ∧ b ≠ 43 ∧ b ≠ 45 ∧ b ≠ 88 ∧ b ≠ 120 := by
  have range := isDigit_range digit
  simp only [isBlank, UInt8.le_iff_toNat_le, ne_eq, ← UInt8.toNat_inj, Bool.or_eq_false_iff,
    beq_eq_false_iff_ne, Bool.and_eq_false_iff, decide_eq_false_iff_not, UInt8.reduceToNat] at range ⊢
  omega

/-- What ends a number in a table: a blank or a colon. -/
def IsSeparator (c : UInt8) : Prop := c = 32 ∨ c = 58

theorem IsSeparator.not_digit {c : UInt8} (ends : IsSeparator c) : isDigit 16 c = false := by
  rcases ends with rfl | rfl <;> rfl

theorem stripHexPrefix_digits {t : Bytes} (digits : ∀ b ∈ t, isDigit 16 b = true) {c : UInt8}
    (ends : IsSeparator c) (rest : Bytes) : stripHexPrefix (t ++ c :: rest) = t ++ c :: rest := by
  have second : ∀ (a b : UInt8) (rest : Bytes), b ≠ 88 → b ≠ 120 →
      stripHexPrefix (a :: b :: rest) = a :: b :: rest := by
    intro a b rest upper lower
    unfold stripHexPrefix
    split
    · simp_all
    · simp_all
    · rfl
  have apart : c ≠ 88 ∧ c ≠ 120 := by rcases ends with rfl | rfl <;> decide
  cases t with
  | nil => rcases ends with rfl | rfl <;> rfl
  | cons a t =>
    cases t with
    | nil => exact second a c rest apart.1 apart.2
    | cons b t =>
      obtain ⟨-, -, -, upper, lower⟩ := isDigit_apart (digits b (by simp))
      exact second a b _ upper lower

/-- A text of digits in front of a separator is read whole, also behind blanks. -/
theorem readNumber_digits {base : ℕ} (known : base = 10 ∨ base = 16) {t : Bytes} (nonempty : t ≠ [])
    (digits : ∀ b ∈ t, isDigit base b = true) {c : UInt8} (ends : IsSeparator c) (rest : Bytes) :
    readNumber base (t ++ c :: rest) = some ((digitsValue base t : ℤ), c :: rest) := by
  have digits' : ∀ b ∈ t, isDigit 16 b = true := by
    intro b member
    rcases known with rfl | rfl
    · exact isDigit_ten (digits b member)
    · exact digits b member
  have stop : isDigit base c = false := by
    have no := ends.not_digit
    rcases known with rfl | rfl
    · by_contra digit
      rw [isDigit_ten (by simpa using digit)] at no
      cases no
    · exact no
  have taken : (t ++ c :: rest).takeWhile (isDigit base) = t := by
    rw [List.takeWhile_append_of_pos digits, List.takeWhile_cons_of_neg (by simp [stop]),
      List.append_nil]
  have read : readDigits base (t ++ c :: rest) = some (digitsValue base t, c :: rest) := by
    have same : (if base = 16 then stripHexPrefix (t ++ c :: rest) else t ++ c :: rest) =
        t ++ c :: rest := by
      split_ifs
      · exact stripHexPrefix_digits digits' ends rest
      · rfl
    simp only [readDigits, same, taken, nonempty, if_false, List.drop_left]
  obtain ⟨a, t, rfl⟩ := List.exists_cons_of_ne_nil nonempty
  obtain ⟨blank, plus, minus, -⟩ := isDigit_apart (digits' a (by simp))
  have started : ((a :: t) ++ c :: rest).dropWhile isBlank = (a :: t) ++ c :: rest := by
    simp [blank]
  rw [readNumber, started]
  split
  · rename_i same
    simp_all
  · rename_i same
    simp_all
  · rw [read]
    rfl

/-- A printed number in front of a separator is read back. -/
theorem readNumber_numeral {base : ℕ} (known : base = 10 ∨ base = 16) (width n : ℕ) {c : UInt8}
    (ends : IsSeparator c) (rest : Bytes) :
    readNumber base (zeroPadded width (numeral base n) ++ c :: rest) = some ((n : ℤ), c :: rest) := by
  obtain ⟨nonempty, digits, value⟩ := @numeral_spec base (by omega) (by omega) n
  have zero : isDigit base 48 = true := by rcases known with rfl | rfl <;> rfl
  rw [zeroPadded, readNumber_digits known (by simp [nonempty]) _ ends, digitsValue_zeros, value]
  intro b member
  rcases List.mem_append.mp member with pad | own
  · rw [List.eq_of_mem_replicate pad]
    exact zero
  · exact digits b own

/-! ### One directive after the other -/

section Directives

variable {format : List Directive} {s rest : Bytes} {n : ℤ}

theorem sscanf_literal (c : UInt8) (format : List Directive) (rest : Bytes) :
    sscanf (.literal c :: format) (c :: rest) = sscanf format rest := by
  simp [sscanf, Directive.read]

theorem sscanf_decimal (read : readNumber 10 s = some (n, rest)) :
    sscanf (.decimal :: format) s = .number n :: sscanf format rest := by
  simp [sscanf, Directive.read, read]

/-- A number behind one blank. -/
theorem sscanf_blank_hex (read : readNumber 16 s = some (n, rest)) :
    sscanf (.blank :: .hex :: format) (32 :: s) = .number n :: sscanf format rest := by
  have skipped : readNumber 16 (s.dropWhile isBlank) = readNumber 16 s := by
    have stays := List.dropWhile_eq_self_iff.mpr (List.dropWhile_get_zero_not isBlank s)
    rw [readNumber, readNumber, stays]
  simp [sscanf, Directive.read, isBlank, skipped, read]

theorem sscanf_blank (c : UInt8) (solid : isBlank c = false) (format : List Directive) (rest : Bytes) :
    sscanf (.blank :: format) (32 :: c :: rest) = sscanf format (c :: rest) := by
  simp [sscanf, Directive.read, show isBlank 32 = true from rfl, solid]

end Directives

/-! ### Line by line -/

section Lines

variable {σ : Type*}

/-- A pointer behind the next newline. -/
def eatLine (s : Bytes) : Bytes := (s.dropWhile (· != 10)).drop 1

/-- A loop that sees the rest of the text at the start of each line, for `fuel` lines at most. -/
def forLines (body : σ → Bytes → σ) : ℕ → σ → Bytes → σ
  | 0, st, _ => st
  | fuel + 1, st, s => if s = [] then st else forLines body fuel (body st s) (eatLine s)

/-- The loop over a whole text; every pass eats a byte. -/
def eachLine (body : σ → Bytes → σ) (st : σ) (s : Bytes) : σ := forLines body s.length st s

/-- The lines with their newlines. -/
def unlines (ts : List Bytes) : Bytes := ts.flatMap fun t => t ++ [10]

theorem eatLine_line {t : Bytes} (plain : 10 ∉ t) (rest : Bytes) : eatLine (t ++ 10 :: rest) = rest := by
  have inside : ∀ b ∈ t, (b != 10) = true := by
    intro b member
    have : b ≠ 10 := fun same => plain (same ▸ member)
    simpa using this
  rw [eatLine, List.dropWhile_append_of_pos inside]
  rfl

/-- A loop whose body looks at its own line only is a fold over the lines. -/
theorem eachLine_unlines {body f : σ → Bytes → σ} {ts : List Bytes} (plain : ∀ t ∈ ts, 10 ∉ t)
    (reads : ∀ t ∈ ts, ∀ st rest, body st (t ++ 10 :: rest) = f st t) (st : σ) :
    eachLine body st (unlines ts) = ts.foldl f st := by
  have enough : ∀ {fuel}, (unlines ts).length ≤ fuel →
      forLines body fuel st (unlines ts) = ts.foldl f st := by
    induction ts generalizing st with
    | nil =>
      intro fuel _
      cases fuel <;> simp [forLines, unlines]
    | cons t ts ih =>
      intro fuel enough
      have shape : unlines (t :: ts) = t ++ 10 :: unlines ts := by simp [unlines]
      rw [shape] at enough ⊢
      simp only [List.length_append, List.length_cons] at enough
      cases fuel with
      | zero => omega
      | succ fuel =>
        rw [forLines, if_neg (by simp), reads t (List.mem_cons_self ..),
          eatLine_line (plain t (List.mem_cons_self ..))]
        exact ih (fun t' member => plain t' (List.mem_cons_of_mem _ member))
          (fun t' member => reads t' (List.mem_cons_of_mem _ member)) _ (by omega)
  exact enough le_rfl

end Lines

end AmlCommonlib
