import AmlCommonlib.Lib.CString

/-! # Fields of a block of memory

A record that is read and written as one block. A copy into the block stays inside it; what it does
to a field depends on how the two ranges lie.
-/

namespace AmlCommonlib

variable {α : Type*}

/-- The bytes of the block from `offset` on. -/
def slice (block : List α) (offset size : ℕ) : List α := (block.drop offset).take size

/-- `memcpy(block + offset, src, n)`, cut at the end of the block. -/
def overwrite (block : List α) (offset : ℕ) (src : List α) : List α :=
  block.take offset ++ src.take (block.length - offset) ++ block.drop (offset + src.length)

@[simp] theorem length_overwrite (block : List α) (offset : ℕ) (src : List α) :
    (overwrite block offset src).length = block.length := by
  simp only [overwrite, List.length_append, List.length_take, List.length_drop]
  omega

theorem length_slice (block : List α) (offset size : ℕ) (fits : offset + size ≤ block.length) :
    (slice block offset size).length = size := by
  simp only [slice, List.length_take, List.length_drop]
  omega

theorem getElem?_slice (block : List α) (offset size i : ℕ) :
    (slice block offset size)[i]? = if i < size then block[offset + i]? else none := by
  rw [slice, List.getElem?_take, List.getElem?_drop]

theorem getElem?_overwrite {block src : List α} {offset : ℕ}
    (fits : offset + src.length ≤ block.length) (i : ℕ) :
    (overwrite block offset src)[i]? =
      if offset ≤ i ∧ i < offset + src.length then src[i - offset]? else block[i]? := by
  have whole : src.take (block.length - offset) = src := List.take_of_length_le (by omega)
  rw [overwrite, whole, List.getElem?_append, List.getElem?_append]
  simp only [List.length_append, List.length_take, List.getElem?_take, List.getElem?_drop]
  rw [min_eq_left (by omega)]
  by_cases before : i < offset
  · simp [before, show i < offset + src.length by omega, show ¬offset ≤ i by omega]
  · by_cases inside : i < offset + src.length
    · simp [before, inside, show offset ≤ i by omega]
    · simp [inside, show offset + src.length + (i - (offset + src.length)) = i by omega]

/-- A copy elsewhere leaves a field alone. -/
theorem slice_overwrite_other {block src : List α} {offset i n : ℕ}
    (fits : offset + src.length ≤ block.length)
    (apart : i + n ≤ offset ∨ offset + src.length ≤ i) :
    slice (overwrite block offset src) i n = slice block i n := by
  apply List.ext_getElem?
  intro j
  simp only [getElem?_slice, getElem?_overwrite fits]
  split_ifs
  · omega
  · rfl
  · rfl

/-- A copy inside a field is a copy into the field. -/
theorem slice_overwrite_inside {block src : List α} {offset i n : ℕ}
    (fits : i + n ≤ block.length) (low : i ≤ offset) (high : offset + src.length ≤ i + n) :
    slice (overwrite block offset src) i n = overwrite (slice block i n) (offset - i) src := by
  have field := length_slice block i n fits
  apply List.ext_getElem?
  intro j
  rw [getElem?_slice, getElem?_overwrite (by omega), getElem?_overwrite (by omega), getElem?_slice]
  split_ifs
  · congr 1
    omega
  · omega
  · omega
  · rfl
  · omega
  · rfl

/-- A copy to the start of the block. -/
theorem overwrite_zero {block src : List α} (fits : src.length ≤ block.length) :
    overwrite block 0 src = src ++ block.drop src.length := by
  rw [overwrite, List.take_zero, List.nil_append, Nat.sub_zero, List.take_of_length_le fits,
    Nat.zero_add]

/-- A copy over a part of the block replaces the part. -/
theorem overwrite_part {block before part behind src : List α} {offset : ℕ}
    (whole : block = before ++ (part ++ behind)) (place : before.length = offset)
    (same : src.length = part.length) : overwrite block offset src = before ++ (src ++ behind) := by
  subst whole place
  have inside : src.take ((before ++ (part ++ behind)).length - before.length) = src :=
    List.take_of_length_le (by simp [same])
  have rest : (before ++ (part ++ behind)).drop (before.length + src.length) = behind := by
    rw [← List.drop_drop, List.drop_left, List.drop_left' same.symm]
  rw [overwrite, inside, rest, List.take_left, List.append_assoc]

theorem overwrite_start {part behind src : List α} (same : src.length = part.length) :
    overwrite (part ++ behind) 0 src = src ++ behind := by
  rw [overwrite_zero (by rw [List.length_append, same]; omega), same, List.drop_left]

/-- A copy over the whole block replaces it. -/
theorem overwrite_all {block src : List α} (same : src.length = block.length) :
    overwrite block 0 src = src := by
  rw [overwrite_zero same.le, List.drop_of_length_le same.ge, List.append_nil]

end AmlCommonlib
