import AmlCommonlib.DeviceProperty.PropertyFile
import Mathlib.Data.List.TakeWhile

/-! # Which line a property is taken from

The lookup is meant to compare the key of a line. The code searches the whole line for the name and
steps over spaces and `=` behind it, so the line it uses has to be the right one.
-/

namespace AmlCommonlib.DeviceProperty

/-! ### What is to hold -/

/-- The text behind the first `=`. -/
def behindEquals (line : Bytes) : Bytes := (line.dropWhile (· != 61)).drop 1

/-- The value of a line, without the spaces in front of it, and the spaces and line ends behind it. -/
def valueText (line : Bytes) : Bytes := ((behindEquals line).dropWhile isSpace).rdropWhile isTrailing

/-- A line that is not a comment and has this name, without the spaces around it, in front of its
first `=`. -/
def Matches (name line : Bytes) : Prop :=
  (line.dropWhile isSpace).head? ≠ some 35 ∧ 61 ∈ line ∧
    ((line.takeWhile (· != 61)).dropWhile isSpace).rdropWhile isSpace = name

instance (name line : Bytes) : Decidable (Matches name line) :=
  inferInstanceAs (Decidable (_ ∧ _ ∧ _))

namespace Device

/-- The lines of the file, as strings; there are none if it cannot be opened. -/
def lines (d : Device) : List Bytes :=
  (getlines ((d.fopen d.propertyFile).getD [])).map fun raw => raw.takeWhile (· != 0)

def firstLine (d : Device) (name : Bytes) : Option Bytes := d.lines.find? (Matches name)

/-- The line that the loop ends with, and what it leaves of it. -/
def lineUsed (d : Device) (name : Bytes) : Option (Bytes × Option Bytes) :=
  usedLine d.allocate name 0 (getlines ((d.fopen d.propertyFile).getD []))

/-- The lookup succeeds only with the value of the first line that matches, and succeeds if that fits;
and no other line ends the search. -/
def Exact (d : Device) (name : Bytes) (length : ℤ) : Prop :=
  ∃ o, d.getProperty (some name) true length = some o ∧
    (o.result = success →
      ∃ line, d.firstLine name = some line ∧ cstring? o.written = some (valueText line)) ∧
    (∀ line, d.firstLine name = some line → (valueText line).length < length → o.result = success) ∧
    ∀ line rest, d.lineUsed name = some (line, rest) → Matches name line

/-- The line that ends the search matches; if the buffer is long enough for what is behind the name, the
value does not begin with another `=`, and else the value does not fit. -/
def exactly (d : Device) (name : Bytes) (length : ℤ) : Bool :=
  match d.endingLine name with
  | none => (d.firstLine name).all fun line => length ≤ (valueText line).length
  | some line =>
    Matches name line ∧ (behindName name line).any fun rest =>
      (rest.length ≤ length → ((behindEquals line).dropWhile isSpace).head? ≠ some 61) ∧
        (length < rest.length → length ≤ (valueText line).length)

end Device

/-! ### A line that matches -/

theorem line_eq {line : Bytes} (equals : 61 ∈ line) :
    line = line.takeWhile (· != 61) ++ 61 :: behindEquals line := by
  obtain ⟨b, t, split⟩ : ∃ b t, line.dropWhile (· != 61) = b :: t := by
    apply List.exists_cons_of_ne_nil
    intro nil
    simpa using List.dropWhile_eq_nil_iff.mp nil 61 equals
  have first := List.head?_dropWhile_not (· != 61) line
  simp only [split, List.head?_cons, bne_eq_false_iff_eq] at first
  subst first
  have whole := List.takeWhile_append_dropWhile (p := (· != 61)) (l := line)
  rw [split] at whole
  rw [behindEquals, split]
  exact whole.symm

/-- It is taken apart at its first `=`. -/
theorem Matches.parts {name line : Bytes} (here : Matches name line) :
    ∃ before middle, (∀ c ∈ before, isSpace c) ∧ (∀ c ∈ middle, isSpace c) ∧
      line = before ++ (name ++ middle ++ 61 :: behindEquals line) ∧
      line.dropWhile isSpace = name ++ middle ++ 61 :: behindEquals line := by
  obtain ⟨-, equals, key⟩ := here
  have whole := line_eq equals
  have inner := List.rdropWhile_append_rtakeWhile (p := isSpace)
    (l := (line.takeWhile (· != 61)).dropWhile isSpace)
  rw [key] at inner
  have outer := List.takeWhile_append_dropWhile (p := isSpace) (l := line.takeWhile (· != 61))
  refine ⟨(line.takeWhile (· != 61)).takeWhile isSpace,
    ((line.takeWhile (· != 61)).dropWhile isSpace).rtakeWhile isSpace,
    fun c member => ?_, fun c member => ?_, ?_, ?_⟩
  · exact List.mem_takeWhile_imp member
  · exact List.mem_rtakeWhile_imp member
  · rw [inner, ← List.append_assoc, outer]
    exact whole
  · rw [inner]
    conv_lhs => rw [whole, List.dropWhile_append]
    split_ifs with nil
    · rw [List.isEmpty_iff.mp nil]
      rfl
    · rfl

/-- The name is found at the start of the text. -/
theorem behindName_of_matches {name line : Bytes} {place : ℤ} (here : Matches name line)
    (behind : (line.length - (line.dropWhile isSpace).length + int32 name.length : ℤ) = place) :
    behindName name line =
      if place < 0 ∨ line.length < place then none
      else some ((line.drop place.toNat).dropWhile isSeparator) := by
  obtain ⟨before, middle, -, -, -, text⟩ := here.parts
  have found : strstr (line.dropWhile isSpace) name = some (line.dropWhile isSpace) := by
    rw [text, List.append_assoc]
    exact strstr_append ..
  rw [behindName_eq found, behind]

/-- The value is what is behind it. -/
theorem behindName_short {name line : Bytes} (here : Matches name line) (short : name.length < 2 ^ 31) :
    behindName name line = some ((behindEquals line).dropWhile isSeparator) := by
  obtain ⟨before, middle, -, middleSpaces, whole, text⟩ := here.parts
  have lengths := congrArg List.length whole
  have textLength := congrArg List.length text
  rw [List.length_append] at lengths
  have behind : (line.length - (line.dropWhile isSpace).length + int32 name.length : ℤ) =
      (before.length + name.length : ℕ) := by
    rw [int32_of_range (by omega) (by omega)]
    omega
  have place : line.drop (before.length + name.length) = middle ++ 61 :: behindEquals line := by
    conv_lhs => rw [whole]
    rw [List.drop_append, List.append_assoc]
    simp
  rw [behindName_of_matches here behind, if_neg, Int.toNat_natCast, place,
    List.dropWhile_append_of_pos, List.dropWhile_cons_of_pos (by decide)]
  · intro c member
    simp [isSeparator, of_decide_eq_true (middleSpaces c member)]
  · rw [List.length_append, List.length_append] at lengths
    omega

/-- Nothing is dropped of what does not begin with a separator. -/
theorem length_le_dropWhile {p : UInt8 → Bool} {s rest : Bytes} {n : ℕ} (plain : ∀ c ∈ s, p c = false)
    (length : s.length = n) : n ≤ ((s ++ rest).dropWhile p).length := by
  cases s with
  | nil => exact length ▸ Nat.zero_le _
  | cons c s =>
    rw [List.cons_append, List.dropWhile_cons_of_neg (by simp [plain c (List.mem_cons_self ..)]),
      ← List.cons_append, List.length_append]
    omega

/-- Where the length of the name is no `int`, much of the name is left. -/
theorem behindName_huge {name line rest : Bytes} (here : Matches name line)
    (plain : ∀ c ∈ name, isSeparator c = false) (huge : 2 ^ 31 ≤ name.length)
    (left : behindName name line = some rest) : 2 ^ 31 ≤ rest.length := by
  obtain ⟨before, middle, spaces, -, whole, text⟩ := here.parts
  have wrapped := int32_le_sub (x := name.length) (by omega)
  have lengths := congrArg List.length whole
  have textLength := congrArg List.length text
  rw [List.length_append] at lengths
  have behind : (line.length - (line.dropWhile isSpace).length + int32 name.length : ℤ) =
      before.length + int32 name.length := by omega
  rw [behindName_of_matches here behind] at left
  split_ifs at left with outside
  rw [← Option.some.inj left]
  have amount : (before.length + int32 name.length).toNat - before.length =
      (int32 name.length).toNat := by
    clear wrapped huge outside behind
    omega
  have kept : name.length - (int32 name.length).toNat ≤
      ((line.drop (before.length + int32 name.length).toNat).dropWhile isSeparator).length := by
    conv_rhs => rw [whole, List.drop_append, List.append_assoc, List.drop_append]
    rw [List.dropWhile_append_of_pos fun c member => ?_]
    · apply length_le_dropWhile
      · intro c member
        exact plain c (List.mem_of_mem_drop member)
      · rw [List.length_drop, amount]
    · simp [isSeparator, of_decide_eq_true (spaces c (List.mem_of_mem_drop member))]
  omega

/-- Behind the `=` of a line is its line end. -/
theorem behindEquals_ne_nil {line : Bytes} (equals : 61 ∈ line) (ended : line.getLast? = some 10) :
    (behindEquals line).dropWhile isSeparator ≠ [] := by
  rw [line_eq equals, List.getLast?_append, List.getLast?_cons] at ended
  have member : 10 ∈ behindEquals line := by
    cases behind : (behindEquals line).getLast? with
    | none => simp [behind] at ended
    | some c =>
      rw [behind] at ended
      cases ended
      exact List.mem_of_getLast? behind
  intro nil
  have all := List.dropWhile_eq_nil_iff.mp nil 10 member
  exact absurd all (by decide)

/-- A line with its line end ends the search if it matches. -/
theorem ends_of_matches {name raw : Bytes} {size : ℕ} (here : Matches name (raw.takeWhile (· != 0)))
    (plain : ∀ c ∈ name, isSeparator c = false) (ended : raw.getLast? = some 10)
    (room : raw.length < size) : Ends name size (raw.takeWhile (· != 0)) := by
  obtain ⟨before, middle, -, -, -, text⟩ := here.parts
  refine ⟨here.1, ?_, fun _ nothing full => ?_⟩
  · rw [text, List.append_assoc]
    exact (List.prefix_append ..).isInfix
  · have whole : raw.takeWhile (· != 0) = raw := by
      have shorter := (List.takeWhile_prefix (· != 0) (l := raw)).length_le
      exact (List.takeWhile_prefix (· != 0)).eq_of_length (by omega)
    rw [whole] at here nothing
    by_cases short : name.length < 2 ^ 31
    · rw [behindName_short here short] at nothing
      exact behindEquals_ne_nil here.2.1 ended (Option.some.inj nothing)
    · have huge := behindName_huge here plain (Nat.le_of_not_lt short) nothing
      simp at huge

/-! ### The file -/

/-- A line that ends the search and matches is the first one. -/
theorem first_of_ends {allocate : ℕ → ℕ → ℕ} (enough : ∀ size needed, needed ≤ allocate size needed)
    {name : Bytes} (plain : ∀ c ∈ name, isSeparator c = false) {lines : List Bytes}
    (ended : lines.IsChain fun raw _ => raw.getLast? = some 10) {size : ℕ} {b : ℕ × Bytes}
    (found : ((buffers allocate size lines).find? fun b => Ends name b.1 b.2) = some b)
    (here : Matches name b.2) :
    (lines.map fun raw => raw.takeWhile (· != 0)).find? (Matches name) = some b.2 := by
  induction lines generalizing size with
  | nil => cases found
  | cons raw later ih =>
    have needed := enough size (raw.length + 1)
    obtain ⟨last, others⟩ := List.isChain_cons.mp ended
    rw [List.map_cons]
    rw [buffers] at found
    by_cases ends : Ends name (allocate size (raw.length + 1)) (raw.takeWhile (· != 0))
    · rw [List.find?_cons_of_pos (by simpa using ends)] at found
      cases found
      exact List.find?_cons_of_pos (by simpa using here)
    · rw [List.find?_cons_of_neg (by simpa using ends)] at found
      have other : ¬Matches name (raw.takeWhile (· != 0)) := by
        intro matching
        cases later with
        | nil => cases found
        | cons next later => exact ends (ends_of_matches matching plain (last next rfl) (by omega))
      rw [List.find?_cons_of_neg (by simpa using other)]
      exact ih others found

/-! ### The value -/

/-- Stepping over spaces and `=` is stepping over spaces, unless that ends at another `=`. -/
theorem value_eq_iff (text : Bytes) :
    (text.dropWhile isSeparator).rdropWhile isTrailing = (text.dropWhile isSpace).rdropWhile isTrailing ↔
      (text.dropWhile isSpace).head? ≠ some 61 := by
  have twice : text.dropWhile isSeparator = (text.dropWhile isSpace).dropWhile isSeparator := by
    conv_lhs => rw [← List.takeWhile_append_dropWhile (p := isSpace) (l := text)]
    rw [List.dropWhile_append_of_pos]
    intro c member
    have space : isSpace c := List.mem_takeWhile_imp member
    simp [isSeparator, of_decide_eq_true space]
  have first := List.head?_dropWhile_not isSpace text
  rw [twice]
  cases behind : text.dropWhile isSpace with
  | nil => simp
  | cons c t =>
    rw [behind] at first
    by_cases equals : c = 61
    · subst equals
      rw [List.dropWhile_cons_of_pos (by decide)]
      refine iff_of_false (fun same => ?_) (by simp)
      have kept : (61 :: t).rdropWhile isTrailing ≠ [] := by
        intro nil
        exact absurd (List.rdropWhile_eq_nil_iff.mp nil 61 (List.mem_cons_self ..)) (by decide)
      -- What is left behind the separators would begin with the `=`.
      obtain ⟨u, rest⟩ := List.rdropWhile_prefix isTrailing (l := 61 :: t)
      obtain ⟨v, start⟩ := List.rdropWhile_prefix isTrailing (l := t.dropWhile isSeparator)
      rw [same] at start
      have begins := List.head?_dropWhile_not isSeparator t
      rw [← start] at begins
      cases trimmed : (61 :: t).rdropWhile isTrailing with
      | nil => exact kept trimmed
      | cons b w =>
        rw [trimmed] at rest begins
        cases rest
        exact absurd begins (by simp [isSeparator])
    · have stops : isSeparator c = false := by
        have space : c ≠ 32 := by simpa [isSpace] using first
        simp [isSeparator, space, equals]
      rw [List.dropWhile_cons_of_neg (by simp [stops])]
      exact iff_of_true rfl (by simpa using equals)

namespace Device

variable {d : Device} {name : Bytes} {length : ℤ}

/-- A lookup that is not answered by the environment. -/
theorem getProperty_eq (unset : d.getenv name = none) (positive : 0 < length) :
    d.getProperty (some name) true length = d.parsePropertyFile d.propertyFile name length := by
  rw [getProperty, if_neg (by omega), unset]

theorem lineUsed_eq (d : Device) (name : Bytes) :
    d.lineUsed name = (d.endingLine name).map fun line => (line, behindName name line) := by
  rw [lineUsed, usedLine_eq d.le_allocate, endingLine, Option.map_map]
  rfl

/-- The line that ends the search, if it matches. -/
theorem of_endingLine {line rest : Bytes} (plain : ∀ c ∈ name, isSeparator c = false)
    (ending : d.endingLine name = some line) (left : behindName name line = some rest)
    (here : Matches name line) :
    d.firstLine name = some line ∧
      (rest = (behindEquals line).dropWhile isSeparator ∨ 2 ^ 31 ≤ rest.length) ∧
      cstring? (rest.rdropWhile isTrailing ++ [0]) = some (rest.rdropWhile isTrailing) := by
  have string := isCString_endingLine ending
  obtain ⟨b, found, rfl⟩ := Option.map_eq_some_iff.mp ending
  refine ⟨first_of_ends d.le_allocate plain (ended_getlines _) found here, ?_,
    cstring?_terminated (fun member => string ?_) []⟩
  · by_cases short : name.length < 2 ^ 31
    · rw [behindName_short here short] at left
      exact .inl (Option.some.inj left).symm
    · exact .inr (behindName_huge here plain (Nat.le_of_not_lt short) left)
  · exact (suffix_of_behindName left).subset
      ((List.rdropWhile_prefix isTrailing (l := rest)).subset member)

/-- No line ends the search. -/
theorem exact_of_none (ending : d.endingLine name = none) (unset : d.getenv name = none)
    (positive : 0 < length) : d.Exact name length ↔ d.exactly name length := by
  have get := getProperty_eq unset positive
  simp only [parsePropertyFile_eq, ending] at get
  have used : d.lineUsed name = none := by rw [lineUsed_eq, ending, Option.map_none]
  have error : (if (d.fopen d.propertyFile).isSome then failed else openFileFailed) ≠ success := by
    split_ifs <;> decide
  have all : d.exactly name length ↔
      ∀ line, d.firstLine name = some line → length ≤ (valueText line).length := by
    rw [exactly, ending]
    cases d.firstLine name <;> simp
  rw [all]
  constructor
  · rintro ⟨o, same, -, fits, -⟩ line first
    rw [get] at same
    cases same
    by_contra short
    exact error (fits line first (by omega))
  · intro condition
    refine ⟨_, get, fun same => absurd same error, fun line first fits => ?_, by simp [used]⟩
    have := condition line first
    omega

section Ending

variable {line rest : Bytes}

/-- The line that ends the search is the one that is used. -/
theorem eq_of_lineUsed (ending : d.endingLine name = some line) {other : Bytes} {rest : Option Bytes}
    (used : d.lineUsed name = some (other, rest)) : line = other := by
  rw [lineUsed_eq, ending] at used
  exact congrArg Prod.fst (Option.some.inj used)

/-- It matches, and what is left of it is too long. -/
theorem exact_of_long (plain : ∀ c ∈ name, isSeparator c = false)
    (ending : d.endingLine name = some line) (left : behindName name line = some rest)
    (here : Matches name line) (unset : d.getenv name = none) (positive : 0 < length)
    (long : length < rest.length) : d.Exact name length ↔ d.exactly name length := by
  have get := getProperty_eq unset positive
  simp only [parsePropertyFile_eq, ending, left, if_pos long] at get
  obtain ⟨first, -, -⟩ := of_endingLine plain ending left here
  have condition : d.exactly name length ↔ length ≤ (valueText line).length := by
    rw [exactly, ending]
    simp only [here, left, Option.any_some, long, decide_eq_true_eq, true_and, true_imp_iff]
    exact and_iff_right fun short => absurd short (by omega)
  rw [condition]
  constructor
  · rintro ⟨o, same, -, fits, -⟩
    rw [get] at same
    cases same
    by_contra short
    exact absurd (fits line first (by omega)) (by decide)
  · intro large
    refine ⟨_, get, fun same => absurd same (by decide), fun other first' fits => ?_,
      fun other rest' used => eq_of_lineUsed ending used ▸ here⟩
    obtain rfl : line = other := Option.some.inj (first.symm.trans first')
    omega

/-- It matches, and what is left of it is copied. -/
theorem exact_of_short (plain : ∀ c ∈ name, isSeparator c = false)
    (ending : d.endingLine name = some line) (left : behindName name line = some rest)
    (here : Matches name line) (unset : d.getenv name = none) (positive : 0 < length)
    (int : length < 2 ^ 31) (short : ¬length < rest.length) :
    d.Exact name length ↔ d.exactly name length := by
  have get := getProperty_eq unset positive
  simp only [parsePropertyFile_eq, ending, left, if_neg short] at get
  obtain ⟨first, value, string⟩ := of_endingLine plain ending left here
  obtain rfl : rest = (behindEquals line).dropWhile isSeparator := value.resolve_right (by omega)
  have condition : d.exactly name length ↔ ((behindEquals line).dropWhile isSpace).head? ≠ some 61 := by
    rw [exactly, ending]
    simp only [here, left, Option.any_some, decide_eq_true_eq, true_and]
    rw [and_iff_left fun long => absurd long short]
    exact ⟨fun holds => holds (by omega), fun holds _ => holds⟩
  rw [condition, ← value_eq_iff]
  constructor
  · rintro ⟨o, same, yields, -⟩
    rw [get] at same
    cases same
    obtain ⟨other, first', read⟩ := yields rfl
    obtain rfl : line = other := Option.some.inj (first.symm.trans first')
    exact Option.some.inj (string.symm.trans read)
  · intro same
    refine ⟨_, get, fun _ => ⟨line, first, ?_⟩, fun _ _ _ => rfl,
      fun other rest' used => eq_of_lineUsed ending used ▸ here⟩
    rw [string, same, valueText]

end Ending

/-- The lookup is exact if and only if the line that ends the search is the right one, and the two
lengths agree. -/
theorem exact_iff_exactly {d : Device} {name : Bytes} {length : ℤ} (plain : ∀ c ∈ name, c ≠ 32 ∧ c ≠ 61)
    (unset : d.getenv name = none) (positive : 0 < length) (int : length < 2 ^ 31) :
    d.Exact name length ↔ d.exactly name length := by
  have separators : ∀ c ∈ name, isSeparator c = false := by
    intro c member
    simp [isSeparator, plain c member]
  cases ending : d.endingLine name with
  | none => exact exact_of_none ending unset positive
  | some line =>
    have used := lineUsed_eq d name
    rw [ending, Option.map_some] at used
    by_cases here : Matches name line
    · cases left : behindName name line with
      | none =>
        have get := getProperty_eq unset positive
        simp only [parsePropertyFile_eq, ending, left] at get
        refine iff_of_false ?_ (by simp [exactly, ending, left])
        rintro ⟨o, same, -⟩
        rw [get] at same
        cases same
      | some rest =>
        by_cases long : length < rest.length
        · exact exact_of_long separators ending left here unset positive long
        · exact exact_of_short separators ending left here unset positive int long
    · refine iff_of_false ?_ (by simp [exactly, ending, here])
      rintro ⟨o, -, -, -, only⟩
      exact here (only line _ used)

/-- A name, between other lines. -/
theorem exact_iff_exactly_single :
    (single [35, 75, 61, 49, 10, 32, 75, 32, 61, 32, 97, 98, 32, 13, 10, 76, 61, 50]).Exact [75] 50 ↔
      (single [35, 75, 61, 49, 10, 32, 75, 32, 61, 32, 97, 98, 32, 13, 10, 76, 61, 50]).exactly [75] 50 :=
  exact_iff_exactly (by simp) rfl (by decide) (by decide)

/-- `KK=1`, of which `K` is a part. -/
theorem not_exact_part : ¬∀ (d : Device) name length, (∀ c ∈ name, c ≠ 32 ∧ c ≠ 61) →
    d.getenv name = none → 0 < length → length < 2 ^ 31 → d.Exact name length := by
  intro exact
  obtain ⟨o, -, -, -, only⟩ := exact (single [75, 75, 61, 49, 10]) [75] 50 (by simp) rfl (by decide)
    (by decide)
  have used : (single [75, 75, 61, 49, 10]).lineUsed [75] =
      some ([75, 75, 61, 49, 10], some [75, 61, 49, 10]) := by decide
  exact absurd (only _ _ used) (by decide)

end Device

end AmlCommonlib.DeviceProperty
