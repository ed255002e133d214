import AmlCommonlib.Lib.Masks
import AmlCommonlib.Lib.Units

/-! # UTF-16 to UTF-8

The conversion of libutils that a `String8` is made with: the length is computed first, the buffer
is allocated, and the conversion writes into it. Characters are written as numbers.
-/

namespace AmlCommonlib.Unicode

def kByteMask : ℕ := 0xBF
def kByteMark : ℕ := 0x80
def kUnicodeSurrogateStart : ℕ := 0xD800
def kUnicodeSurrogateEnd : ℕ := 0xDFFF
def kUnicodeMaxCodepoint : ℕ := 0x10FFFF

/-- `kFirstByteMark`. -/
def kFirstByteMark : ℕ → ℕ
  | 2 => 0xC0
  | 3 => 0xE0
  | 4 => 0xF0
  | _ => 0

/-- `utf32_codepoint_utf8_length`. -/
def utf32CodepointUtf8Length (srcChar : ℕ) : ℕ :=
  if srcChar < 0x80 then 1
  else if srcChar < 0x800 then 2
  else if srcChar < 0x10000 then
    if srcChar < kUnicodeSurrogateStart ∨ srcChar > kUnicodeSurrogateEnd then 3 else 0
  else if srcChar ≤ kUnicodeMaxCodepoint then 4
  else 0

/-- The bytes behind the first one, of which `n` are written from the last one on. -/
def tailBytes : ℕ → ℕ → Bytes → Bytes
  | 0, _, written => written
  | n + 1, srcChar, written =>
    tailBytes n (srcChar >>> 6) (UInt8.ofNat ((srcChar ||| kByteMark) &&& kByteMask) :: written)

/-- `utf32_codepoint_to_utf8`: the cases fall through. -/
def utf32CodepointToUtf8 (srcChar bytes : ℕ) : Bytes :=
  if bytes = 0 then []
  else UInt8.ofNat (srcChar >>> (6 * (bytes - 1)) ||| kFirstByteMark bytes) ::
    tailBytes (bytes - 1) srcChar []

/-- The first half of a surrogate pair. -/
def High (u : UInt16) : Prop := u.toNat &&& 0xFC00 = 0xD800

/-- The second half. -/
def Low (u : UInt16) : Prop := u.toNat &&& 0xFC00 = 0xDC00

instance (u : UInt16) : Decidable (High u) := inferInstanceAs (Decidable (_ = _))

instance (u : UInt16) : Decidable (Low u) := inferInstanceAs (Decidable (_ = _))

/-- The character of a surrogate pair. -/
def pairChar (high low : UInt16) : ℕ :=
  ((high.toNat - 0xD800) <<< 10 ||| (low.toNat - 0xDC00)) + 0x10000

/-- The bytes of a character. -/
def charBytes (utf32 : ℕ) : Bytes := utf32CodepointToUtf8 utf32 (utf32CodepointUtf8Length utf32)

/-- `utf16_to_utf8` without the terminator. -/
def utf16ToUtf8 : Units → Bytes
  | [] => []
  | [u] => charBytes u.toNat
  | u :: v :: rest =>
    if High u ∧ Low v then charBytes (pairChar u v) ++ utf16ToUtf8 rest
    else charBytes u.toNat ++ utf16ToUtf8 (v :: rest)

/-- The loop of `utf16_to_utf8_length`; the condition steps over a high surrogate. -/
def lengthLoop : Units → ℕ
  | [] => 0
  | [u] => utf32CodepointUtf8Length u.toNat
  | u :: v :: rest =>
    if High u then
      if Low v then 4 + lengthLoop rest else utf32CodepointUtf8Length v.toNat + lengthLoop rest
    else utf32CodepointUtf8Length u.toNat + lengthLoop (v :: rest)

/-- `utf16_to_utf8_length`. -/
def utf16ToUtf8Length (src : Units) : ℤ := if src = [] then -1 else lengthLoop src

/-- `allocFromUTF16`: the size of the buffer and what is written into it, or the empty string. -/
def allocFromUTF16 (src : Units) : Option (ℕ × Bytes) :=
  if src = [] ∨ utf16ToUtf8Length src < 0 then none
  else some ((utf16ToUtf8Length src).toNat + 1, utf16ToUtf8 src ++ [0])

/-! ### Surrogates -/

variable {u v : UInt16} {rest : Units}

theorem mask_eq (u : UInt16) : u.toNat &&& 0xFC00 = u.toNat / 1024 * 1024 :=
  @and_complement 16 10 u.toNat (by decide) u.toNat_lt

theorem high_iff : High u ↔ 0xD800 ≤ u.toNat ∧ u.toNat < 0xDC00 := by
  rw [High, mask_eq]
  omega

theorem low_iff : Low u ↔ 0xDC00 ≤ u.toNat ∧ u.toNat < 0xE000 := by
  rw [Low, mask_eq]
  omega

theorem not_low_of_high (high : High u) : ¬Low u := by
  rw [high_iff] at high
  rw [low_iff]
  omega

theorem utf8Length_high (high : High u) : utf32CodepointUtf8Length u.toNat = 0 := by
  rw [high_iff] at high
  rw [utf32CodepointUtf8Length, kUnicodeSurrogateStart, kUnicodeSurrogateEnd]
  split_ifs <;> omega

theorem pairChar_eq (u : UInt16) (low : Low v) :
    pairChar u v = (u.toNat - 0xD800) * 1024 + (v.toNat - 0xDC00) + 0x10000 := by
  rw [low_iff] at low
  rw [pairChar, ← Nat.shiftLeft_add_eq_or_of_lt (by omega), Nat.shiftLeft_eq]

theorem utf8Length_pair (high : High u) (low : Low v) :
    utf32CodepointUtf8Length (pairChar u v) = 4 := by
  rw [pairChar_eq u low]
  rw [high_iff] at high
  rw [low_iff] at low
  rw [utf32CodepointUtf8Length, kUnicodeMaxCodepoint]
  split_ifs <;> omega

/-! ### The length that is written -/

theorem length_tailBytes (n srcChar : ℕ) (written : Bytes) :
    (tailBytes n srcChar written).length = n + written.length := by
  induction n generalizing srcChar written with
  | zero => simp [tailBytes]
  | succ n ih =>
    rw [tailBytes, ih, List.length_cons]
    omega

theorem length_charBytes (utf32 : ℕ) :
    (charBytes utf32).length = utf32CodepointUtf8Length utf32 := by
  rw [charBytes, utf32CodepointToUtf8]
  split_ifs with none
  · rw [none, List.length_nil]
  · rw [List.length_cons, length_tailBytes, List.length_nil]
    omega

/-- A unit that is not the first half of a pair. -/
theorem utf16ToUtf8_cons (alone : ¬High u ∨ ∀ v ∈ rest.head?, ¬Low v) :
    utf16ToUtf8 (u :: rest) = charBytes u.toNat ++ utf16ToUtf8 rest := by
  cases rest with
  | nil => rw [utf16ToUtf8, utf16ToUtf8, List.append_nil]
  | cons v rest =>
    rw [utf16ToUtf8, if_neg]
    rintro ⟨high, low⟩
    rcases alone with plain | lone
    · exact plain high
    · exact lone v rfl low

theorem utf16ToUtf8_pair (high : High u) (low : Low v) :
    utf16ToUtf8 (u :: v :: rest) = charBytes (pairChar u v) ++ utf16ToUtf8 rest := by
  rw [utf16ToUtf8, if_pos ⟨high, low⟩]

theorem length_plain (plain : ¬High u) : (utf16ToUtf8 (u :: rest)).length =
    utf32CodepointUtf8Length u.toNat + (utf16ToUtf8 rest).length := by
  rw [utf16ToUtf8_cons (.inl plain), List.length_append, length_charBytes]

theorem length_lone (high : High u) (lone : ∀ v ∈ rest.head?, ¬Low v) :
    (utf16ToUtf8 (u :: rest)).length = (utf16ToUtf8 rest).length := by
  rw [utf16ToUtf8_cons (.inr lone), List.length_append, length_charBytes, utf8Length_high high,
    Nat.zero_add]

theorem length_pair (high : High u) (low : Low v) :
    (utf16ToUtf8 (u :: v :: rest)).length = 4 + (utf16ToUtf8 rest).length := by
  rw [utf16ToUtf8_pair high low, List.length_append, length_charBytes, utf8Length_pair high low]

/-! ### The length that is computed -/

/-- The number of low surrogates that stand behind an even number, not 0, of high surrogates, of
which `k` are in front. -/
def evenRuns : ℕ → Units → ℕ
  | _, [] => 0
  | k, u :: rest =>
    if High u then evenRuns (k + 1) rest
    else (if Low u ∧ 0 < k ∧ k % 2 = 0 then 1 else 0) + evenRuns 0 rest

theorem evenRuns_high (high : High u) (k : ℕ) : evenRuns k (u :: rest) = evenRuns (k + 1) rest := by
  rw [evenRuns, if_pos high]

theorem evenRuns_plain (plain : ¬High u) {k : ℕ} (single : ¬(Low u ∧ 0 < k ∧ k % 2 = 0)) :
    evenRuns k (u :: rest) = evenRuns 0 rest := by
  rw [evenRuns, if_neg plain, if_neg single, Nat.zero_add]

theorem lengthLoop_plain (plain : ¬High u) :
    lengthLoop (u :: rest) = utf32CodepointUtf8Length u.toNat + lengthLoop rest := by
  cases rest with
  | nil => rw [lengthLoop, lengthLoop, Nat.add_zero]
  | cons v rest => rw [lengthLoop, if_neg plain]

theorem lengthLoop_pair (high : High u) (low : Low v) :
    lengthLoop (u :: v :: rest) = 4 + lengthLoop rest := by
  rw [lengthLoop, if_pos high, if_pos low]

/-- The unit behind a high surrogate is not looked at as the first half of a pair. -/
theorem lengthLoop_skip (high : High u) (single : ¬Low v) :
    lengthLoop (u :: v :: rest) = utf32CodepointUtf8Length v.toNat + lengthLoop rest := by
  rw [lengthLoop, if_pos high, if_neg single]

/-- Both lengths from a place on, where an even number of high surrogates has been stepped over. -/
theorem length_utf16ToUtf8_runs (n : ℕ) : ∀ s : Units, s.length ≤ n →
    (utf16ToUtf8 s).length = lengthLoop s + 4 * evenRuns 0 s ∧
      ∀ (h : UInt16) (k : ℕ), High h → 0 < k → k % 2 = 0 →
        (utf16ToUtf8 (h :: s)).length = lengthLoop s + 4 * evenRuns k s := by
  induction n with
  | zero =>
    intro s short
    obtain rfl := List.length_eq_zero_iff.mp (Nat.le_zero.mp short)
    refine ⟨rfl, fun h k high _ _ => ?_⟩
    rw [length_lone high (by simp)]
    rfl
  | succ n ih =>
    intro s short
    cases s with
    | nil =>
      refine ⟨rfl, fun h k high _ _ => ?_⟩
      rw [length_lone high (by simp)]
      rfl
    | cons u t =>
      rw [List.length_cons] at short
      obtain ⟨here, behind⟩ := ih t (by omega)
      -- The units in front of the first one do not matter to a unit that is no low surrogate.
      have start : ∀ k, k % 2 = 0 → (k = 0 ∨ ¬Low u) →
          (utf16ToUtf8 (u :: t)).length = lengthLoop (u :: t) + 4 * evenRuns k (u :: t) := by
        intro k even free
        by_cases high : High u
        · cases t with
          | nil =>
            rw [length_lone high (by simp), lengthLoop, utf8Length_high high, evenRuns_high high]
            rfl
          | cons w t =>
            rw [List.length_cons] at short
            obtain ⟨here', behind'⟩ := ih t (by omega)
            rw [evenRuns_high high]
            by_cases low : Low w
            · have plain : ¬High w := fun high => not_low_of_high high low
              rw [length_pair high low, lengthLoop_pair high low, evenRuns_plain plain (by omega), here']
              omega
            · rw [length_lone high (by simpa using low), lengthLoop_skip high low]
              by_cases again : High w
              · rw [utf8Length_high again, evenRuns_high again,
                  behind' w (k + 1 + 1) again (by omega) (by omega)]
                omega
              · rw [length_plain again, evenRuns_plain again (fun other => low other.1), here']
                omega
        · rw [length_plain high, lengthLoop_plain high, evenRuns_plain high, here]
          · omega
          · rintro ⟨low, positive, -⟩
            rcases free with rfl | single
            · exact absurd positive (lt_irrefl 0)
            · exact single low
      refine ⟨start 0 rfl (.inl rfl), fun h k high positive even => ?_⟩
      by_cases low : Low u
      · have plain : ¬High u := fun high => not_low_of_high high low
        have none : utf32CodepointUtf8Length u.toNat = 0 := by
          rw [low_iff] at low
          rw [utf32CodepointUtf8Length, kUnicodeSurrogateStart, kUnicodeSurrogateEnd]
          split_ifs <;> omega
        rw [length_pair high low, lengthLoop_plain plain, none, here, evenRuns, if_neg plain,
          if_pos ⟨low, positive, even⟩]
        omega
      · rw [length_lone high (by simpa using low)]
        exact start k even (.inr low)

/-- The buffer of a `String8` is too short for the bytes that are written into it by four for each
low surrogate behind an even number of high surrogates, and else fits. -/
theorem allocFromUTF16_shortfall {src : Units} (text : src ≠ []) : ∃ size written,
    allocFromUTF16 src = some (size, written) ∧ written.length = size + 4 * evenRuns 0 src := by
  have lengths := (length_utf16ToUtf8_runs src.length src le_rfl).1
  refine ⟨lengthLoop src + 1, utf16ToUtf8 src ++ [0], ?_, ?_⟩
  · rw [allocFromUTF16, utf16ToUtf8Length, if_neg text, Int.toNat_natCast, if_neg]
    rintro (empty | negative)
    · exact text empty
    · omega
  · rw [List.length_append, List.length_singleton]
    omega

/-- The second one of two high surrogates is written as half of a pair, but not counted as one. -/
theorem allocFromUTF16_shortfall_highs : ∃ size written,
    allocFromUTF16 [0xD800, 0xD800, 0xDC00] = some (size, written) ∧ written.length = size + 4 := by
  obtain ⟨size, written, made, length⟩ :=
    allocFromUTF16_shortfall (show [0xD800, 0xD800, 0xDC00] ≠ [] by decide)
  exact ⟨size, written, made, length⟩

end AmlCommonlib.Unicode
