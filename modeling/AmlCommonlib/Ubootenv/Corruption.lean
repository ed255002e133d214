import AmlCommonlib.Ubootenv.Partition

/-! # Corruption that the environment's checksum detects

A difference in four consecutive bytes is a burst of no more bits than the register has.
-/

namespace AmlCommonlib.Ubootenv

/-- The regions are the same outside the four bytes from a position on. -/
def SameOutside (pos : ℕ) (a b : Bytes) : Prop := ∀ i, i < pos ∨ pos + 4 ≤ i → a[i]? = b[i]?

/-- Two regions of a length are one up to the window, and from its end on. -/
theorem SameOutside.parts {pos : ℕ} {a b : Bytes} (same : SameOutside pos a b) :
    a.take pos = b.take pos ∧ a.drop (pos + 4) = b.drop (pos + 4) := by
  constructor
  · apply List.ext_getElem?
    intro i
    rw [List.getElem?_take, List.getElem?_take]
    split_ifs with inside
    · exact same i (.inl inside)
    · rfl
  · apply List.ext_getElem?
    intro i
    rw [List.getElem?_drop, List.getElem?_drop]
    exact same _ (.inr (Nat.le_add_right ..))

theorem window_eq (pos : ℕ) (a : Bytes) : a.take pos ++ (a.drop pos).take 4 ++ a.drop (pos + 4) = a := by
  rw [List.append_assoc, ← List.drop_drop, List.take_append_drop, List.take_append_drop]

/-- Regions of a length with one checksum that are the same outside a window are the same. -/
theorem eq_of_crc32_eq {pos : ℕ} {a b : Bytes} (length : a.length = b.length)
    (same : SameOutside pos a b) (checksums : crc32 a = crc32 b) : a = b := by
  obtain ⟨front, back⟩ := same.parts
  have windows : ((a.drop pos).take 4).length = ((b.drop pos).take 4).length := by
    rw [List.length_take, List.length_take, List.length_drop, List.length_drop, length]
  have four : ((a.drop pos).take 4).length ≤ 4 := List.length_take_le ..
  rw [crc32_eq, crc32_eq, ← window_eq pos a, ← window_eq pos b, ← front, ← back] at checksums
  simp only [List.flatMap_append] at checksums
  have bits := Crc.checksum_burst (w := 32) (by decide) _ _ _ _
    (by rw [Crc.length_flatMap_byteBits]; omega)
    (by rw [Crc.length_flatMap_byteBits, Crc.length_flatMap_byteBits, windows]) checksums
  have middle := Crc.flatMap_byteBits_injective bits
  rw [← window_eq pos a, ← window_eq pos b, ← front, ← back, middle]

/-- Different regions of a length that are the same outside four consecutive bytes have different
checksums, and `load_bootenv` accepts one of them at most under one stored checksum. -/
theorem crc32_ne_of_window {pos : ℕ} {a b : Bytes} (length : a.length = b.length) (differ : a ≠ b)
    (same : SameOutside pos a b) :
    crc32 a ≠ crc32 b ∧
      ∀ g s t crc behind behind', g.dataSize = a.length → s.shm.refcnt = 0 → t.shm.refcnt = 0 →
        ¬(Accepts g s (EnvImage.toBytes ⟨crc, a⟩ behind) ∧
          Accepts g t (EnvImage.toBytes ⟨crc, b⟩ behind')) := by
  have different : crc32 a ≠ crc32 b := fun checksums => differ (eq_of_crc32_eq length same checksums)
  refine ⟨different, ?_⟩
  rintro g s t crc behind behind' size first first' ⟨accepted, accepted'⟩
  obtain ⟨env, read, valid⟩ := (accepts_iff first _).mp accepted
  obtain ⟨env', read', valid'⟩ := (accepts_iff first' _).mp accepted'
  rw [ofBytes_toBytes size.symm] at read
  rw [ofBytes_toBytes (by rw [size, length])] at read'
  cases read
  cases read'
  exact different (valid.trans valid'.symm)

/-- A byte that is flipped in a region of eight. -/
theorem crc32_ne_of_window_flipped :
    crc32 [97, 61, 49, 0, 0, 0, 0, 0] ≠ crc32 [97, 61, 50, 0, 0, 0, 0, 0] ∧
      ∀ g s t crc behind behind', g.dataSize = 8 → s.shm.refcnt = 0 → t.shm.refcnt = 0 →
        ¬(Accepts g s (EnvImage.toBytes ⟨crc, [97, 61, 49, 0, 0, 0, 0, 0]⟩ behind) ∧
          Accepts g t (EnvImage.toBytes ⟨crc, [97, 61, 50, 0, 0, 0, 0, 0]⟩ behind')) := by
  refine @crc32_ne_of_window 2 _ _ rfl (by decide) ?_
  rintro i (before | behind)
  · obtain rfl | rfl : i = 0 ∨ i = 1 := by omega
    · rfl
    · rfl
  · obtain rfl | rfl | outside : i = 6 ∨ i = 7 ∨ 8 ≤ i := by omega
    · rfl
    · rfl
    · rw [List.getElem?_eq_none (by simpa using outside), List.getElem?_eq_none (by simpa using outside)]

end AmlCommonlib.Ubootenv
