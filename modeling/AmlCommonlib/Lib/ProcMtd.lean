import AmlCommonlib.Lib.Scanf
import Mathlib.Algebra.Group.Nat.Defs

/-! # The text of `/proc/mtd`

A header and one line for each partition: its number, its sizes as at least eight hexadecimal digits
and its name in quotes.
-/

namespace AmlCommonlib

/-- A partition as the kernel knows it. -/
structure MtdLine where
  index : ℕ
  size : ℕ
  eraseSize : ℕ
  name : Bytes
  index_int : index < 2 ^ 31
  name_plain : IsCString name
  name_line : 10 ∉ name

/-- `mtd%d: %8.8llx %8.8x "%s"`. -/
def MtdLine.text (line : MtdLine) : Bytes :=
  [109, 116, 100] ++ numeral 10 line.index ++ [58, 32] ++ zeroPadded 8 (numeral 16 line.size) ++ [32] ++
    zeroPadded 8 (numeral 16 line.eraseSize) ++ [32, 34] ++ line.name ++ [34]

/-- `dev:    size   erasesize  name`. -/
def mtdHeader : Bytes :=
  [100, 101, 118, 58, 32, 32, 32, 32, 115, 105, 122, 101, 32, 32, 32, 101, 114, 97, 115, 101, 115, 105,
    122, 101, 32, 32, 110, 97, 109, 101]

/-- The whole text. -/
def procMtd (lines : List MtdLine) : Bytes := unlines (mtdHeader :: lines.map MtdLine.text)

/-- `mtd%d: %x %x `, with any size of the hexadecimal numbers. -/
def mtdFormat : List Directive :=
  [.literal 109, .literal 116, .literal 100, .decimal, .literal 58, .blank, .hex, .blank, .hex, .blank]

/-- A line is scanned up to its name. -/
theorem sscanf_mtdFormat (line : MtdLine) (format : List Directive) (rest : Bytes) :
    sscanf (mtdFormat ++ format) (line.text ++ rest) =
      [.number line.index, .number line.size, .number line.eraseSize] ++
        sscanf format (34 :: (line.name ++ 34 :: rest)) := by
  have shape : line.text ++ rest = 109 :: 116 :: 100 :: (zeroPadded 0 (numeral 10 line.index) ++ 58 ::
      32 :: (zeroPadded 8 (numeral 16 line.size) ++ 32 :: (zeroPadded 8 (numeral 16 line.eraseSize) ++
        32 :: 34 :: (line.name ++ 34 :: rest)))) := by
    simp [MtdLine.text, zeroPadded]
  simp only [shape, mtdFormat, List.cons_append, List.nil_append, sscanf_literal]
  rw [sscanf_decimal (readNumber_numeral (.inl rfl) 0 line.index (.inr rfl) _), sscanf_literal,
    sscanf_blank_hex (readNumber_numeral (.inr rfl) 8 line.size (.inl rfl) _),
    sscanf_blank_hex (readNumber_numeral (.inr rfl) 8 line.eraseSize (.inl rfl) _),
    sscanf_blank 34 rfl]

theorem digits_plain {base n : ℕ} (width : ℕ) (large : 1 < base) (small : base ≤ 16) :
    ∀ b ∈ zeroPadded width (numeral base n), b ≠ 0 ∧ b ≠ 10 := by
  intro b member
  rcases List.mem_append.mp member with pad | own
  · rw [List.eq_of_mem_replicate pad]
    decide
  · have range := isDigit_range ((numeral_spec large small n).2.1 b own)
    constructor
    · rintro rfl
      revert range
      decide
    · rintro rfl
      revert range
      decide

/-- A line has no terminator and no newline inside. -/
theorem MtdLine.text_plain (line : MtdLine) : IsCString line.text ∧ 10 ∉ line.text := by
  have index : ∀ b ∈ numeral 10 line.index, b ≠ 0 ∧ b ≠ 10 := by
    simpa [zeroPadded] using @digits_plain 10 line.index 0 (by decide) (by decide)
  have size := @digits_plain 16 line.size 8 (by decide) (by decide)
  have eraseSize := @digits_plain 16 line.eraseSize 8 (by decide) (by decide)
  have name : ∀ b ∈ line.name, b ≠ 0 ∧ b ≠ 10 := by
    intro b inside
    exact ⟨fun zero => line.name_plain (zero ▸ inside), fun newline => line.name_line (newline ▸ inside)⟩
  have all : ∀ b ∈ line.text, b ≠ 0 ∧ b ≠ 10 := by
    simp only [MtdLine.text, List.forall_mem_append]
    exact ⟨⟨⟨⟨⟨⟨⟨⟨by simp, index⟩, by simp⟩, size⟩, by simp⟩, eraseSize⟩, by simp⟩, name⟩, by simp⟩
  exact ⟨fun zero => (all 0 zero).1 rfl, fun newline => (all 10 newline).2 rfl⟩

/-- The same of all lines of the text. -/
theorem procMtd_plain (lines : List MtdLine) :
    ∀ t ∈ mtdHeader :: lines.map MtdLine.text, IsCString t ∧ 10 ∉ t := by
  simp only [List.forall_mem_cons, List.forall_mem_map]
  exact ⟨by decide +kernel, fun line _ => line.text_plain⟩

end AmlCommonlib
