import AmlCommonlib.Unicode.Conversions

/-! # UTF-16 through UTF-8 and back

The conversion that a `String16` is made with, on the bytes that `utf16_to_utf8` writes. Surrogates
that are not in a pair are left out on the way, and everything else comes back.
-/

namespace AmlCommonlib.Unicode

/-- `utf8_codepoint_len`. -/
def utf8CodepointLen (ch : UInt8) : ℕ := ((0xe5000000 >>> ((ch.toNat >>> 3) &&& 0x1e)) &&& 3) + 1

/-- `utf8_shift_and_mask`. -/
def utf8ShiftAndMask (codePoint : ℕ) (byte : UInt8) : ℕ := codePoint <<< 6 ||| 0x3F &&& byte.toNat

/-- `utf8_to_utf32_codepoint`; `none` is a read behind the memory. -/
def utf8ToUtf32Codepoint (src : Bytes) : ℕ → Option ℕ
  | 1 => do
    let a ← src[0]?
    return a.toNat
  | 2 => do
    let a ← src[0]?
    let b ← src[1]?
    return utf8ShiftAndMask (a.toNat &&& 0x1f) b
  | 3 => do
    let a ← src[0]?
    let b ← src[1]?
    let c ← src[2]?
    return utf8ShiftAndMask (utf8ShiftAndMask (a.toNat &&& 0x0f) b) c
  | 4 => do
    let a ← src[0]?
    let b ← src[1]?
    let c ← src[2]?
    let d ← src[3]?
    return utf8ShiftAndMask (utf8ShiftAndMask (utf8ShiftAndMask (a.toNat &&& 0x07) b) c) d
  | _ => some 0xffff

/-- The units of a character. -/
def utf16Units (codepoint : ℕ) : Units :=
  if codepoint ≤ 0xFFFF then [UInt16.ofNat codepoint]
  else [UInt16.ofNat ((codepoint - 0x10000) >>> 10 + 0xD800),
    UInt16.ofNat (((codepoint - 0x10000) &&& 0x3FF) + 0xDC00)]

/-- The loop of `utf8_to_utf16_no_null_terminator` over memory that has `left` bytes to the end of
the string. -/
def utf16Loop : ℕ → Bytes → ℕ → Option Units
  | 0, _, _ => none
  | fuel + 1, src, left =>
    if left = 0 then some []
    else do
      let ch ← src[0]?
      let codepoint ← utf8ToUtf32Codepoint src (utf8CodepointLen ch)
      let rest ← utf16Loop fuel (src.drop (utf8CodepointLen ch)) (left - utf8CodepointLen ch)
      return utf16Units codepoint ++ rest

/-- `utf8_to_utf16_no_null_terminator`: every turn goes on by a byte at least. -/
def utf8ToUtf16 (u8str : Bytes) (u8len : ℕ) : Option Units := utf16Loop (u8len + 1) u8str u8len

/-- The loop of `utf8_to_utf16_length`: the length, and whether it ends at the end. -/
def utf16LengthLoop : ℕ → Bytes → ℕ → Option (ℕ × Bool)
  | 0, _, _ => none
  | fuel + 1, src, left =>
    if left = 0 then some (0, true)
    else do
      let ch ← src[0]?
      let codepoint ← utf8ToUtf32Codepoint src (utf8CodepointLen ch)
      let measured := if codepoint > 0xFFFF then 2 else 1
      if left < utf8CodepointLen ch then return (measured, false)
      else
        let rest ← utf16LengthLoop fuel (src.drop (utf8CodepointLen ch)) (left - utf8CodepointLen ch)
        return (measured + rest.1, rest.2)

/-- `utf8_to_utf16_length`. -/
def utf8ToUtf16Length (u8str : Bytes) (u8len : ℕ) : Option ℤ :=
  (utf16LengthLoop (u8len + 1) u8str u8len).map fun end_ => if end_.2 then end_.1 else -1

/-! ### One character -/

/-- A character that is no surrogate. -/
def Scalar (c : ℕ) : Prop := c < 0xD800 ∨ (0xE000 ≤ c ∧ c ≤ 0x10FFFF)

variable {c : ℕ} {rest : Bytes} {u v : UInt16} {s : Units}

theorem tailByte_eq (c : ℕ) : (c ||| kByteMark) &&& kByteMask = 128 + c % 64 := by
  have mask : kByteMask = 63 ||| 128 := rfl
  have low : c &&& 63 = c % 64 := Nat.and_two_pow_sub_one_eq_mod c 6
  have sum : 128 + c % 64 = 128 ||| c % 64 :=
    @Nat.shiftLeft_add_eq_or_of_lt 7 (c % 64) (by omega) 1
  rw [sum, ← low, kByteMark, mask]
  apply Nat.eq_of_testBit_eq
  intro i
  simp only [Nat.testBit_and, Nat.testBit_or]
  cases c.testBit i <;> cases (128 : ℕ).testBit i <;> cases (63 : ℕ).testBit i <;> rfl

theorem firstByte_eq {x mark k : ℕ} (small : x < 2 ^ k) : x ||| mark <<< k = mark <<< k + x := by
  rw [Nat.lor_comm, Nat.shiftLeft_add_eq_or_of_lt small]

theorem shiftAndMask_eq (a b : ℕ) :
    utf8ShiftAndMask a (UInt8.ofNat (128 + b % 64)) = a * 64 + b % 64 := by
  have byte : (UInt8.ofNat (128 + b % 64)).toNat = 128 + b % 64 := by
    rw [UInt8.toNat_ofNat']
    omega
  have low : 0x3F &&& (128 + b % 64) = b % 64 := by
    rw [Nat.and_comm]
    have masked : (128 + b % 64) &&& 0x3F = (128 + b % 64) % 64 :=
      Nat.and_two_pow_sub_one_eq_mod (128 + b % 64) 6
    omega
  rw [utf8ShiftAndMask, byte, low, ← Nat.shiftLeft_add_eq_or_of_lt (by omega), Nat.shiftLeft_eq]

theorem codepointLen_eq : ∀ n < 256, utf8CodepointLen (UInt8.ofNat n) =
    if n < 192 then 1 else if n < 224 then 2 else if n < 240 then 3 else 4 := by
  decide +kernel

/-- The bytes of a character, by their number. -/
theorem charBytes_eq (scalar : Scalar c) : charBytes c =
    if c < 0x80 then [UInt8.ofNat c]
    else if c < 0x800 then [UInt8.ofNat (192 + c / 64), UInt8.ofNat (128 + c % 64)]
    else if c < 0x10000 then [UInt8.ofNat (224 + c / 4096), UInt8.ofNat (128 + c / 64 % 64),
      UInt8.ofNat (128 + c % 64)]
    else [UInt8.ofNat (240 + c / 262144), UInt8.ofNat (128 + c / 4096 % 64),
      UInt8.ofNat (128 + c / 64 % 64), UInt8.ofNat (128 + c % 64)] := by
  have one (x : ℕ) : x >>> 6 = x / 64 := Nat.shiftRight_eq_div_pow x 6
  have second (small : c < 0x800) : c >>> (6 * (2 - 1)) ||| kFirstByteMark 2 = 192 + c / 64 := by
    rw [one]
    exact @firstByte_eq (c / 64) 3 6 (by omega)
  have third (small : c < 0x10000) : c >>> (6 * (3 - 1)) ||| kFirstByteMark 3 = 224 + c / 4096 := by
    rw [show c >>> (6 * (3 - 1)) = c / 4096 from Nat.shiftRight_eq_div_pow c 12]
    exact @firstByte_eq (c / 4096) 7 5 (by omega)
  have fourth (small : c ≤ 0x10FFFF) : c >>> (6 * (4 - 1)) ||| kFirstByteMark 4 = 240 + c / 262144 := by
    rw [show c >>> (6 * (4 - 1)) = c / 262144 from Nat.shiftRight_eq_div_pow c 18]
    exact @firstByte_eq (c / 262144) 15 4 (by omega)
  rw [charBytes, utf32CodepointUtf8Length, kUnicodeSurrogateStart, kUnicodeSurrogateEnd,
    kUnicodeMaxCodepoint]
  rw [Scalar] at scalar
  split_ifs with a b c' d e
  · simp [utf32CodepointToUtf8, tailBytes, kFirstByteMark]
  · rw [utf32CodepointToUtf8, if_neg (by decide), second b]
    simp only [tailBytes, tailByte_eq]
  · rw [utf32CodepointToUtf8, if_neg (by decide), third c']
    simp only [tailBytes, tailByte_eq, one]
  · omega
  · rw [utf32CodepointToUtf8, if_neg (by decide), fourth e]
    simp only [tailBytes, tailByte_eq, one, Nat.div_div_eq_div_mul]
  · omega

/-- The first byte tells the length of a character, and all of its bytes the character. -/
theorem charBytes_read (scalar : Scalar c) (rest : Bytes) :
    ∃ first tail, charBytes c = first :: tail ∧
      utf8CodepointLen first = (charBytes c).length ∧
      utf8ToUtf32Codepoint (charBytes c ++ rest) (charBytes c).length = some c := by
  have top : c ≤ 0x10FFFF := by
    rw [Scalar] at scalar
    omega
  have masked {x mark k : ℕ} (small : x < 2 ^ k) (inside : mark * 2 ^ k + x < 256) :
      (UInt8.ofNat (mark * 2 ^ k + x)).toNat &&& (2 ^ k - 1) = x := by
    rw [UInt8.toNat_ofNat', Nat.mod_eq_of_lt inside, Nat.and_two_pow_sub_one_eq_mod,
      Nat.mul_add_mod', Nat.mod_eq_of_lt small]
  rw [charBytes_eq scalar]
  split_ifs with a b d
  · refine ⟨_, _, rfl, ?_, ?_⟩
    · rw [codepointLen_eq c (by omega), if_pos (by omega)]
      rfl
    · change some (UInt8.ofNat c).toNat = some c
      rw [UInt8.toNat_ofNat', Nat.mod_eq_of_lt (by omega)]
  · refine ⟨_, _, rfl, ?_, ?_⟩
    · rw [codepointLen_eq _ (by omega), if_neg (by omega), if_pos (by omega)]
      rfl
    · have front : (UInt8.ofNat (192 + c / 64)).toNat &&& 0x1f = c / 64 :=
        @masked (c / 64) 6 5 (by omega) (by omega)
      change some (utf8ShiftAndMask ((UInt8.ofNat (192 + c / 64)).toNat &&& 0x1f) _) = some c
      rw [front, shiftAndMask_eq]
      exact congrArg some (by omega)
  · refine ⟨_, _, rfl, ?_, ?_⟩
    · rw [codepointLen_eq _ (by omega), if_neg (by omega), if_neg (by omega), if_pos (by omega)]
      rfl
    · have front : (UInt8.ofNat (224 + c / 4096)).toNat &&& 0x0f = c / 4096 :=
        @masked (c / 4096) 14 4 (by omega) (by omega)
      change some (utf8ShiftAndMask (utf8ShiftAndMask
        ((UInt8.ofNat (224 + c / 4096)).toNat &&& 0x0f) _) _) = some c
      rw [front, shiftAndMask_eq, shiftAndMask_eq]
      exact congrArg some (by omega)
  · refine ⟨_, _, rfl, ?_, ?_⟩
    · rw [codepointLen_eq _ (by omega), if_neg (by omega), if_neg (by omega), if_neg (by omega)]
      rfl
    · have front : (UInt8.ofNat (240 + c / 262144)).toNat &&& 0x07 = c / 262144 :=
        @masked (c / 262144) 30 3 (by omega) (by omega)
      change some (utf8ShiftAndMask (utf8ShiftAndMask (utf8ShiftAndMask
        ((UInt8.ofNat (240 + c / 262144)).toNat &&& 0x07) _) _) _) = some c
      rw [front, shiftAndMask_eq, shiftAndMask_eq, shiftAndMask_eq]
      exact congrArg some (by omega)

/-! ### All characters -/

/-- One turn of the loop. -/
theorem utf16Loop_char (scalar : Scalar c) (fuel left : ℕ) (rest : Bytes) :
    utf16Loop (fuel + 1) (charBytes c ++ rest) ((charBytes c).length + left) =
      (utf16Loop fuel rest left).map (utf16Units c ++ ·) := by
  obtain ⟨first, tail, bytes, len, read⟩ := charBytes_read scalar rest
  have positive : 0 < (charBytes c).length := by
    rw [bytes, List.length_cons]
    omega
  have head : (charBytes c ++ rest)[0]? = some first := by
    rw [bytes]
    rfl
  rw [utf16Loop, if_neg (by omega), head]
  simp only [Option.bind_eq_bind, Option.bind_some, len, read, List.drop_left,
    Nat.add_sub_cancel_left]
  cases utf16Loop fuel rest left <;> rfl

theorem length_utf16Units (c : ℕ) : (utf16Units c).length = if c > 0xFFFF then 2 else 1 := by
  rw [utf16Units]
  split_ifs <;> first | rfl | omega

theorem utf16LengthLoop_char (scalar : Scalar c) (fuel left : ℕ) (rest : Bytes) :
    utf16LengthLoop (fuel + 1) (charBytes c ++ rest) ((charBytes c).length + left) =
      (utf16LengthLoop fuel rest left).map fun r => ((utf16Units c).length + r.1, r.2) := by
  obtain ⟨first, tail, bytes, len, read⟩ := charBytes_read scalar rest
  have positive : 0 < (charBytes c).length := by
    rw [bytes, List.length_cons]
    omega
  have head : (charBytes c ++ rest)[0]? = some first := by
    rw [bytes]
    rfl
  rw [utf16LengthLoop, if_neg (by omega), head]
  simp only [Option.bind_eq_bind, Option.bind_some, len, read, List.drop_left,
    Nat.add_sub_cancel_left, length_utf16Units]
  rw [if_neg (by omega)]
  cases utf16LengthLoop fuel rest left <;> rfl

/-- Bytes that both loops take for a text, whatever is behind them in memory. -/
def Decodes (behind bytes : Bytes) (text : Units) : Prop :=
  ∀ fuel, bytes.length < fuel → utf16Loop fuel (bytes ++ behind) bytes.length = some text ∧
    utf16LengthLoop fuel (bytes ++ behind) bytes.length = some (text.length, true)

variable {behind bytes : Bytes} {text : Units}

theorem Decodes.nil : Decodes behind [] [] := by
  intro fuel enough
  cases fuel with
  | zero => exact absurd enough (lt_irrefl 0)
  | succ fuel => exact ⟨rfl, rfl⟩

theorem Decodes.char (scalar : Scalar c) (decodes : Decodes behind bytes text) :
    Decodes behind (charBytes c ++ bytes) (utf16Units c ++ text) := by
  intro fuel enough
  obtain ⟨first, tail, whole, -⟩ := charBytes_read scalar []
  have positive : 0 < (charBytes c).length := by
    rw [whole, List.length_cons]
    omega
  rw [List.length_append] at enough
  cases fuel with
  | zero => omega
  | succ fuel =>
    obtain ⟨read, measured⟩ := decodes fuel (by omega)
    rw [List.append_assoc, List.length_append, utf16Loop_char scalar, utf16LengthLoop_char scalar,
      read, measured, List.length_append]
    exact ⟨rfl, rfl⟩

/-! ### Surrogates and pairs -/

theorem charBytes_surrogate (surrogate : High u ∨ Low u) : charBytes u.toNat = [] := by
  rw [high_iff, low_iff] at surrogate
  have none : utf32CodepointUtf8Length u.toNat = 0 := by
    rw [utf32CodepointUtf8Length, kUnicodeSurrogateStart, kUnicodeSurrogateEnd]
    split_ifs <;> omega
  rw [charBytes, none]
  rfl

theorem scalar_plain (plain : ¬(High u ∨ Low u)) : Scalar u.toNat := by
  have word := u.toNat_lt
  rw [high_iff, low_iff] at plain
  rw [Scalar]
  omega

theorem utf16Units_plain (u : UInt16) : utf16Units u.toNat = [u] := by
  have word := u.toNat_lt
  rw [utf16Units, if_pos (by omega), UInt16.ofNat_toNat]

theorem scalar_pair (high : High u) (low : Low v) : Scalar (pairChar u v) := by
  rw [pairChar_eq u low, Scalar]
  rw [high_iff] at high
  rw [low_iff] at low
  omega

theorem utf16Units_pair (high : High u) (low : Low v) : utf16Units (pairChar u v) = [u, v] := by
  rw [pairChar_eq u low]
  rw [high_iff] at high
  rw [low_iff] at low
  have front : (u.toNat - 0xD800) * 1024 + (v.toNat - 0xDC00) + 0x10000 - 0x10000 =
      (u.toNat - 0xD800) * 1024 + (v.toNat - 0xDC00) := by omega
  have mask : (u.toNat - 0xD800) * 1024 + (v.toNat - 0xDC00) &&& 0x3FF = v.toNat - 0xDC00 := by
    have masked : (u.toNat - 0xD800) * 1024 + (v.toNat - 0xDC00) &&& 0x3FF =
        ((u.toNat - 0xD800) * 1024 + (v.toNat - 0xDC00)) % 1024 :=
      Nat.and_two_pow_sub_one_eq_mod _ 10
    omega
  have first : ((u.toNat - 0xD800) * 1024 + (v.toNat - 0xDC00)) >>> 10 + 0xD800 = u.toNat := by
    rw [Nat.shiftRight_eq_div_pow]
    omega
  rw [utf16Units, if_neg (by omega), front, mask, first,
    show v.toNat - 0xDC00 + 0xDC00 = v.toNat by omega, UInt16.ofNat_toNat, UInt16.ofNat_toNat]

/-- A text without the surrogates that are in no pair. -/
def paired : Units → Units
  | [] => []
  | [u] => if High u ∨ Low u then [] else [u]
  | u :: v :: rest =>
    if High u ∧ Low v then u :: v :: paired rest
    else if High u ∨ Low u then paired (v :: rest) else u :: paired (v :: rest)

/-- The text that the bytes of a text are taken for. -/
theorem decodes_paired (behind : Bytes) (s : Units) : Decodes behind (utf16ToUtf8 s) (paired s) := by
  induction s using utf16ToUtf8.induct with
  | case1 => exact .nil
  | case2 u =>
    rw [utf16ToUtf8, paired]
    split_ifs with surrogate
    · rw [charBytes_surrogate surrogate]
      exact .nil
    · have one := Decodes.char (scalar_plain surrogate) (@Decodes.nil behind)
      rwa [List.append_nil, utf16Units_plain] at one
  | case3 u v rest pair ih =>
    rw [utf16ToUtf8_pair pair.1 pair.2, paired, if_pos pair]
    have first := ih.char (scalar_pair pair.1 pair.2)
    rwa [utf16Units_pair pair.1 pair.2] at first
  | case4 u v rest apart ih =>
    rw [utf16ToUtf8, if_neg apart, paired, if_neg apart]
    split_ifs with surrogate
    · rw [charBytes_surrogate surrogate]
      exact ih
    · have first := ih.char (scalar_plain surrogate)
      rwa [utf16Units_plain] at first

/-- Every surrogate is in a pair. -/
inductive WellFormed : Units → Prop
  | nil : WellFormed []
  | plain {u : UInt16} {rest : Units} (single : ¬(High u ∨ Low u)) (tail : WellFormed rest) :
      WellFormed (u :: rest)
  | pair {u v : UInt16} {rest : Units} (high : High u) (low : Low v) (tail : WellFormed rest) :
      WellFormed (u :: v :: rest)

theorem length_paired_le (s : Units) : (paired s).length ≤ s.length := by
  induction s using utf16ToUtf8.induct with
  | case1 => exact le_rfl
  | case2 u =>
    rw [paired]
    split_ifs <;> simp
  | case3 u v rest pair ih =>
    rw [paired, if_pos pair]
    simpa using ih
  | case4 u v rest apart ih =>
    rw [paired, if_neg apart]
    split_ifs
    · exact ih.trans (Nat.le_succ _)
    · simpa using ih

theorem paired_eq_iff (s : Units) : paired s = s ↔ WellFormed s := by
  constructor
  · intro kept
    induction s using utf16ToUtf8.induct with
    | case1 => exact .nil
    | case2 u =>
      rw [paired] at kept
      split_ifs at kept with surrogate
      · exact .plain surrogate .nil
    | case3 u v rest pair ih =>
      rw [paired, if_pos pair] at kept
      exact .pair pair.1 pair.2 (ih (List.cons.inj (List.cons.inj kept).2).2)
    | case4 u v rest apart ih =>
      rw [paired, if_neg apart] at kept
      split_ifs at kept with surrogate
      · have shorter := length_paired_le (v :: rest)
        rw [kept, List.length_cons] at shorter
        omega
      · exact .plain surrogate (ih (List.cons.inj kept).2)
  · intro whole
    induction whole with
    | nil => rfl
    | @plain u rest single tail ih =>
      cases rest with
      | nil => rw [paired, if_neg single]
      | cons v rest => rw [paired, if_neg (fun pair => single (.inl pair.1)), if_neg single, ih]
    | pair high low tail ih => rw [paired, if_pos ⟨high, low⟩, ih]

/-- A text that is converted to UTF-8 and back, with any memory behind it, loses the surrogates that
are in no pair and nothing else, and the length that is computed for it is right; so it comes back
exactly if it is well formed. -/
theorem utf16_roundTrip (s : Units) (behind : Bytes) :
    utf8ToUtf16 (utf16ToUtf8 s ++ behind) (utf16ToUtf8 s).length = some (paired s) ∧
      utf8ToUtf16Length (utf16ToUtf8 s ++ behind) (utf16ToUtf8 s).length =
        some ((paired s).length : ℤ) ∧ (paired s = s ↔ WellFormed s) := by
  obtain ⟨read, measured⟩ := decodes_paired behind s _ (Nat.lt_succ_self _)
  refine ⟨read, ?_, paired_eq_iff s⟩
  rw [utf8ToUtf16Length, measured]
  rfl

end AmlCommonlib.Unicode
