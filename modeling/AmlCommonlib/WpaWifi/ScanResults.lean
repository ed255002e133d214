import AmlCommonlib.Lib.Atoi
import AmlCommonlib.Lib.Endian
import AmlCommonlib.Lib.Qsort
import Mathlib.Logic.Function.Basic

/-! # Parsing the scan results

`parse_scan_results` over the text that `SCAN_RESULTS` gives: a header, and for each access point a
line of five fields. A field that is not there or too long ends the loop, and so does a full array,
whose last entry is then filled and not counted.
-/

namespace AmlCommonlib.WpaWifi

/-- `WPA_WIFI_SIGNAL_LEVEL`. -/
inductive SignalLevel where
  | level0
  | level1
  | level2
  | level3
  | level4
deriving DecidableEq

/-- `WPA_WIFI_AP_INFO`; its strings without their terminators. -/
structure ApInfo where
  bssid : Bytes
  frequency : ℤ
  signalStrength : ℤ
  signalLevel : SignalLevel
  flags : Bytes
  ssid : Bytes
deriving DecidableEq

/-- `WPA_AP_NUM_MAX`. -/
def apNumMax : ℕ := 64

/-- The level that `parse_scan_results` finds for a signal strength. -/
def signalLevel (strength : ℤ) : SignalLevel :=
  if strength ≤ -88 then .level0
  else if strength ≤ -77 then .level1
  else if strength ≤ -66 then .level2
  else if strength ≤ -55 then .level3
  else .level4

/-- `bssid / frequency / signal level / flags / ssid` -/
def scanHeader : Bytes :=
  [98, 115, 115, 105, 100, 32, 47, 32, 102, 114, 101, 113, 117, 101, 110, 99, 121, 32, 47, 32, 115,
    105, 103, 110, 97, 108, 32, 108, 101, 118, 101, 108, 32, 47, 32, 102, 108, 97, 103, 115, 32, 47,
    32, 115, 115, 105, 100]

/-- `COPY_NEXT_TOKEN` into `output[size]`; `none` is its `break`. For the first token of a line the
loop has made the search already. -/
def copyNextToken (size : ℕ) (start : Bytes) (delim : UInt8) : Option (Bytes × Bytes) :=
  match strchr start delim with
  | none => none
  | some length =>
    if size ≤ length then none else some (start.take length, start.drop (length + 1))

/-- One round of the loop on an entry, and where it leaves `start_ptr` unless by a `break`; `none`
is a number that is out of the range of an `int`. -/
def scanEntry (ap : ApInfo) (start : Bytes) : Option (ApInfo × Option Bytes) :=
  match copyNextToken 64 start 9 with
  | none => some (ap, none)
  | some (bssid, start) =>
    let ap := { ap with bssid := bssid }
    match copyNextToken 64 start 9 with
    | none => some (ap, none)
    | some (signalStr, start) => do
      let frequency ← atoi? (signalStr ++ [0])
      let ap := { ap with frequency := frequency }
      match copyNextToken 64 start 9 with
      | none => some (ap, none)
      | some (signalStr, start) => do
        let strength ← atoi? (signalStr ++ [0])
        let ap := { ap with signalStrength := strength, signalLevel := signalLevel strength }
        match copyNextToken 256 start 9 with
        | none => some (ap, none)
        | some (flags, start) =>
          let ap := { ap with flags := flags }
          match copyNextToken 64 start 10 with
          | none => some (ap, none)
          | some (ssid, start) => some ({ ap with ssid := ssid }, some start)

/-- `wpa_wifi_array` with `count`, and the entries that the loop has worked on. -/
structure ScanTable where
  array : ℕ → ApInfo
  count : ℕ
  touched : List ℕ

/-- The loop of `parse_scan_results`; the fuel is the length of the text. -/
def scanLoop : ℕ → ScanTable → Bytes → Option ScanTable
  | 0, t, _ => some t
  | fuel + 1, t, start =>
    match strchr start 9 with
    | none => some t
    | some _ => do
      let (ap, next) ← scanEntry (t.array t.count) start
      let t := { t with array := Function.update t.array t.count ap, touched := t.count :: t.touched }
      match next with
      | none => some t
      | some start =>
        if apNumMax - 1 ≤ t.count then some t else scanLoop fuel { t with count := t.count + 1 } start

/-- `sorted_by_ssid_dictionary` -/
def sortedBySsidDictionary (a b : ApInfo) : ℤ := strcasecmp a.ssid b.ssid

/-- `sorted_by_signal_strength` -/
def sortedBySignalStrength (a b : ApInfo) : ℤ := int32 (b.signalStrength - a.signalStrength)

/-- The comparison that is asked for. -/
def sortedBy (byStrength : Bool) : ApInfo → ApInfo → ℤ :=
  if byStrength then sortedBySignalStrength else sortedBySsidDictionary

/-- The first entries of the array. -/
def ScanTable.listed (t : ScanTable) : List ApInfo := (List.range t.count).map t.array

/-- `qsort` on the first entries of the array. -/
def ScanTable.sort (q : Qsort ApInfo) (byStrength : Bool) (t : ScanTable) : ScanTable :=
  { t with
    array := fun i =>
      if i < t.count then ((q.sort (sortedBy byStrength) t.listed)[i]?).getD (t.array i)
      else t.array i }

/-- `parse_scan_results`: what it returns, and the array. -/
def parseScanResults (q : Qsort ApInfo) (array : ℕ → ApInfo) (resBuf : Bytes) (byStrength : Bool) :
    Option (ℤ × ScanTable) :=
  if ¬scanHeader <+: resBuf then some (-1, ⟨array, 0, []⟩)
  else
    match strchr resBuf 10 with
    | none => some (-1, ⟨array, 0, []⟩)
    | some length => do
      let start := resBuf.drop (length + 1)
      let t ← scanLoop start.length ⟨array, 0, []⟩ start
      return (t.count, t.sort q byStrength)

/-! ### The reply -/

/-- A text without a tab and a line end that fits into a buffer. -/
structure IsField (size : ℕ) (s : Bytes) : Prop where
  plain : IsCString s
  noTab : 9 ∉ s
  oneLine : 10 ∉ s
  fits : s.length < size

/-- A line of the reply, with the numbers that its second and third field show. -/
structure ScanLine where
  bssid : Bytes
  frequencyText : Bytes
  signalText : Bytes
  flags : Bytes
  ssid : Bytes
  frequency : ℤ
  signal : ℤ
  isBssid : IsField 64 bssid
  isFrequency : IsField 64 frequencyText
  isSignal : IsField 64 signalText
  isFlags : IsField 256 flags
  isSsid : IsField 64 ssid
  showsFrequency : atoi? (frequencyText ++ [0]) = some frequency
  showsSignal : atoi? (signalText ++ [0]) = some signal

def ScanLine.text (line : ScanLine) : Bytes :=
  line.bssid ++ 9 :: (line.frequencyText ++ 9 :: (line.signalText ++ 9 ::
    (line.flags ++ 9 :: (line.ssid ++ [10]))))

/-- The entry for a line. -/
def ScanLine.ap (line : ScanLine) : ApInfo :=
  ⟨line.bssid, line.frequency, line.signal, signalLevel line.signal, line.flags, line.ssid⟩

/-- The reply to `SCAN_RESULTS`. -/
def scanReply (lines : List ScanLine) : Bytes := scanHeader ++ 10 :: lines.flatMap ScanLine.text

/-- What the order of the entries is to be. -/
def InOrder (byStrength : Bool) (a b : ApInfo) : Prop :=
  if byStrength then b.signalStrength ≤ a.signalStrength else strcasecmp a.ssid b.ssid ≤ 0

/-- The reply is parsed whatever `qsort` does with equal elements and whatever the array held: no
entry outside the array is stored to, and the entries for the lines, up to `WPA_AP_NUM_MAX` of them,
are in the array in their order. -/
def ParsesReply (lines : List ScanLine) (byStrength : Bool) : Prop :=
  ∀ (q : Qsort ApInfo) (array : ℕ → ApInfo), ∃ ret t,
    parseScanResults q array (scanReply lines) byStrength = some (ret, t) ∧
      (∀ i ∈ t.touched, i < apNumMax) ∧ (∀ i, apNumMax ≤ i → t.array i = array i) ∧
      (lines.length ≤ apNumMax → ret = lines.length ∧
        ((List.range lines.length).map t.array).Perm (lines.map ScanLine.ap) ∧
        ((List.range lines.length).map t.array).Pairwise (InOrder byStrength))

/-- `sorted_by_signal_strength` can compare all signals. -/
def Comparable (signals : List ℤ) : Prop := ∀ a ∈ signals, ∀ b ∈ signals, a - b < 2 ^ 31

/-! ### Lines -/

theorem copyNextToken_field {size : ℕ} {s : Bytes} {delim : UInt8} (nonzero : delim ≠ 0)
    (absent : delim ∉ s) (fits : s.length < size) (rest : Bytes) :
    copyNextToken size (s ++ delim :: rest) delim = some (s, rest) := by
  rw [copyNextToken, strchr_separator nonzero absent]
  simp only [if_neg fits.not_ge, List.take_left']
  simp

theorem ScanLine.text_append (line : ScanLine) (rest : Bytes) :
    line.text ++ rest = line.bssid ++ 9 :: (line.frequencyText ++ 9 :: (line.signalText ++ 9 ::
      (line.flags ++ 9 :: (line.ssid ++ 10 :: rest)))) := by
  simp [text]

/-- A round of the loop fills the entry for a line. -/
theorem scanEntry_line (ap : ApInfo) (line : ScanLine) (rest : Bytes) :
    scanEntry ap (line.text ++ rest) = some (line.ap, some rest) := by
  rw [line.text_append, scanEntry,
    copyNextToken_field (by decide) line.isBssid.noTab line.isBssid.fits]
  dsimp only
  rw [copyNextToken_field (by decide) line.isFrequency.noTab line.isFrequency.fits]
  dsimp only
  rw [line.showsFrequency, Option.bind_eq_bind, Option.bind_some,
    copyNextToken_field (by decide) line.isSignal.noTab line.isSignal.fits]
  dsimp only
  rw [line.showsSignal, Option.bind_some,
    copyNextToken_field (by decide) line.isFlags.noTab line.isFlags.fits]
  dsimp only
  rw [copyNextToken_field (by decide) line.isSsid.oneLine line.isSsid.fits]
  rfl

/-- What the loop has done after the lines: they are listed while there is room for one more. -/
structure Scanned (lines : List ScanLine) (t t' : ScanTable) : Prop where
  listed : t'.listed = t.listed ++ (lines.take (apNumMax - 1 - t.count)).map ScanLine.ap
  inside : (∀ i ∈ t.touched, i < apNumMax) → ∀ i ∈ t'.touched, i < apNumMax
  outside : ∀ i, apNumMax ≤ i → t'.array i = t.array i

theorem ScanTable.listed_update (t : ScanTable) (ap : ApInfo) (touched : List ℕ) :
    (⟨Function.update t.array t.count ap, t.count + 1, touched⟩ : ScanTable).listed =
      t.listed ++ [ap] := by
  rw [listed, listed, List.range_succ, List.map_append, List.map_singleton]
  dsimp only
  rw [Function.update_self]
  congr 1
  apply List.map_congr_left
  intro i member
  exact Function.update_of_ne (List.mem_range.mp member).ne _ _

theorem ScanTable.listed_update_last (t : ScanTable) (ap : ApInfo) (touched : List ℕ) :
    (⟨Function.update t.array t.count ap, t.count, touched⟩ : ScanTable).listed = t.listed := by
  apply List.map_congr_left
  intro i member
  exact Function.update_of_ne (List.mem_range.mp member).ne _ _

theorem scanLoop_lines {t : ScanTable} (room : t.count < apNumMax) (lines : List ScanLine)
    {fuel : ℕ} (enough : (lines.flatMap ScanLine.text).length ≤ fuel) :
    ∃ t', scanLoop fuel t (lines.flatMap ScanLine.text) = some t' ∧ Scanned lines t t' := by
  induction lines generalizing t fuel with
  | nil =>
    refine ⟨t, ?_, by simp, id, fun _ _ => rfl⟩
    cases fuel <;> rfl
  | cons line rest ih =>
    rw [List.flatMap_cons] at enough ⊢
    obtain ⟨fuel, rfl⟩ : ∃ n, fuel = n + 1 := by
      apply Nat.exists_eq_succ_of_ne_zero
      rintro rfl
      simp [ScanLine.text] at enough
    have found : strchr (line.text ++ rest.flatMap ScanLine.text) 9 = some line.bssid.length := by
      rw [line.text_append, strchr_separator (by decide) line.isBssid.noTab]
    simp only [scanLoop, found, scanEntry_line, Option.bind_eq_bind, Option.bind_some]
    have stored : ∀ i, apNumMax ≤ i → Function.update t.array t.count line.ap i = t.array i :=
      fun i high => Function.update_of_ne (room.trans_le high).ne' _ _
    split_ifs with full
    · refine ⟨_, rfl, ?_, ?_, stored⟩
      · have none' : apNumMax - 1 - t.count = 0 := by omega
        rw [none', List.take_zero, List.map_nil, List.append_nil, ScanTable.listed_update_last]
      · intro inside i member
        rcases List.mem_cons.mp member with rfl | before
        · exact room
        · exact inside i before
    · have room' : t.count + 1 < apNumMax := by omega
      have enough' : (rest.flatMap ScanLine.text).length ≤ fuel := by
        have some' : 0 < line.text.length := by simp [ScanLine.text]
        rw [List.length_append] at enough
        omega
      obtain ⟨t', scanned, listed, inside, outside⟩ :=
        @ih ⟨Function.update t.array t.count line.ap, t.count + 1, t.count :: t.touched⟩ room' fuel
          enough'
      refine ⟨t', scanned, ?_, ?_, ?_⟩
      · obtain ⟨more, isMore⟩ := Nat.exists_eq_add_of_lt (Nat.lt_of_not_le full)
        have left : apNumMax - 1 - t.count = more + 1 := by omega
        have left' : apNumMax - 1 - (t.count + 1) = more := by omega
        rw [listed, ScanTable.listed_update, left', left, List.take_succ_cons, List.map_cons,
          List.append_assoc, List.singleton_append]
      · intro before
        apply inside
        intro i member
        rcases List.mem_cons.mp member with rfl | old
        · exact room
        · exact before i old
      · intro i high
        exact (outside i high).trans (stored i high)

/-- What `parse_scan_results` has before it sorts. -/
theorem parseScanResults_reply (q : Qsort ApInfo) (array : ℕ → ApInfo) (lines : List ScanLine)
    (byStrength : Bool) :
    ∃ t : ScanTable, parseScanResults q array (scanReply lines) byStrength =
        some ((t.count : ℤ), t.sort q byStrength) ∧
      t.listed = (lines.take (apNumMax - 1)).map ScanLine.ap ∧ (∀ i ∈ t.touched, i < apNumMax) ∧
      ∀ i, apNumMax ≤ i → t.array i = array i := by
  have header : scanHeader <+: scanReply lines := List.prefix_append _ _
  have newline : strchr (scanReply lines) 10 = some scanHeader.length :=
    strchr_separator (by decide) (by decide) _
  have start : (scanReply lines).drop (scanHeader.length + 1) = lines.flatMap ScanLine.text := by
    rw [scanReply, List.drop_append, List.drop_of_length_le (by simp)]
    simp
  obtain ⟨t, scanned, listed, inside, outside⟩ :=
    @scanLoop_lines ⟨array, 0, []⟩ (Nat.zero_lt_succ _) lines _ le_rfl
  refine ⟨t, ?_, listed, inside (by simp), outside⟩
  rw [parseScanResults, if_neg (not_not.mpr header), newline]
  simp only [start, scanned, Option.bind_eq_bind, Option.bind_some, Option.pure_def]

/-! ### Sorting -/

theorem ScanTable.length_listed (t : ScanTable) : t.listed.length = t.count := by
  simp [listed]

/-- The first entries become what `qsort` makes of them. -/
theorem ScanTable.listed_sort (q : Qsort ApInfo) (byStrength : Bool) (t : ScanTable) :
    (t.sort q byStrength).listed = q.sort (sortedBy byStrength) t.listed := by
  have length : (q.sort (sortedBy byStrength) t.listed).length = t.count :=
    (q.perm _ _).length_eq.trans t.length_listed
  change (List.range t.count).map (t.sort q byStrength).array = _
  apply List.ext_getElem?
  intro i
  rw [List.getElem?_map]
  rcases Nat.lt_or_ge i t.count with inside | outside
  · rw [List.getElem?_range inside, Option.map_some]
    simp only [sort, inside, if_true]
    rw [List.getElem?_eq_getElem (by omega), Option.getD_some]
  · rw [List.getElem?_eq_none (by simpa using outside), List.getElem?_eq_none (by omega)]
    rfl

/-- Signals that can be compared are ordered by their strength. -/
theorem consistent_strength {l : List ApInfo} (comparable : Comparable (l.map ApInfo.signalStrength)) :
    Consistent sortedBySignalStrength l := by
  have exact' : ∀ a ∈ l, ∀ b ∈ l,
      sortedBySignalStrength a b = b.signalStrength - a.signalStrength := by
    intro a inA b inB
    have ab := comparable _ (List.mem_map_of_mem inA) _ (List.mem_map_of_mem inB)
    have ba := comparable _ (List.mem_map_of_mem inB) _ (List.mem_map_of_mem inA)
    exact int32_of_range (by omega) (by omega)
  apply consistent_of_key fun ap => -ap.signalStrength
  · intro a inA b inB
    rw [exact' a inA b inB]
    omega
  · intro a inA b inB
    rw [exact' a inA b inB]
    omega

theorem consistent_dictionary {l : List ApInfo} (plain : ∀ ap ∈ l, IsCString ap.ssid) :
    Consistent sortedBySsidDictionary l := by
  apply consistent_of_key fun ap => lowered ap.ssid
  · intro a _ b inB
    exact strcasecmp_neg_iff (plain b inB)
  · intro a inA b _
    exact strcasecmp_pos_iff (plain a inA)

/-- Where two relations hold along a list, both hold in one of the two directions between any two of
its elements. -/
theorem both_of_pairwise {α : Type*} {r s : α → α → Prop} {l : List α} (byR : l.Pairwise r)
    (byS : l.Pairwise s) {a b : α} (inA : a ∈ l) (inB : b ∈ l) (apart : a ≠ b) :
    r a b ∧ s a b ∨ r b a ∧ s b a := by
  have either : l.Pairwise fun a b => r a b ∧ s a b ∨ r b a ∧ s b a := (byR.and byS).imp Or.inl
  have : Std.Symm fun a b => r a b ∧ s a b ∨ r b a ∧ s b a := ⟨fun _ _ => Or.symm⟩
  exact either.forall inA inB apart

theorem ScanLine.aps_plain {lines : List ScanLine} :
    ∀ ap ∈ lines.map ScanLine.ap, IsCString ap.ssid := by
  intro ap member
  obtain ⟨line, -, rfl⟩ := List.mem_map.mp member
  exact line.isSsid.plain

theorem ScanLine.aps_signals (lines : List ScanLine) :
    (lines.map ScanLine.ap).map ApInfo.signalStrength = lines.map ScanLine.signal := by
  rw [List.map_map]
  rfl

/-- Where the comparison orders the entries, the order is what it is to be. -/
theorem inOrder_of_sorted {byStrength : Bool} {lines : List ScanLine}
    (comparable : byStrength = true → Comparable (lines.map ScanLine.signal)) {l : List ApInfo}
    (perm : l.Perm (lines.map ScanLine.ap))
    (sorted : l.Pairwise fun a b => sortedBy byStrength a b ≤ 0) :
    l.Pairwise (InOrder byStrength) := by
  apply sorted.imp_of_mem
  intro a b inA inB le
  cases byStrength with
  | false => exact le
  | true =>
    have comparable := comparable rfl
    rw [← ScanLine.aps_signals] at comparable
    have ab := comparable _ (List.mem_map_of_mem (perm.subset inA)) _
      (List.mem_map_of_mem (perm.subset inB))
    have ba := comparable _ (List.mem_map_of_mem (perm.subset inB)) _
      (List.mem_map_of_mem (perm.subset inA))
    change int32 (b.signalStrength - a.signalStrength) ≤ 0 at le
    rw [int32_of_range (by omega) (by omega)] at le
    change b.signalStrength ≤ a.signalStrength
    omega

theorem consistent_sortedBy {byStrength : Bool} {lines : List ScanLine}
    (comparable : byStrength = true → Comparable (lines.map ScanLine.signal)) :
    Consistent (sortedBy byStrength) (lines.map ScanLine.ap) := by
  cases byStrength with
  | false => exact consistent_dictionary ScanLine.aps_plain
  | true => exact consistent_strength ((ScanLine.aps_signals lines).symm ▸ comparable rfl)

/-- The difference of two signals too far apart overflows. -/
theorem sortedBySignalStrength_far {a b : ApInfo} (low : -2 ^ 31 ≤ b.signalStrength)
    (high : a.signalStrength < 2 ^ 31) (far : 2 ^ 31 ≤ a.signalStrength - b.signalStrength) :
    sortedBySignalStrength b a = a.signalStrength - b.signalStrength - 2 ^ 32 := by
  rw [sortedBySignalStrength, int32, ← Int.sub_bmod_right, Int.bmod_eq_of_le (by omega) (by omega)]
  norm_num

/-- Two signals too far apart are in the wrong order, or in none. -/
theorem not_inOrder {a b : ApInfo} {l : List ApInfo} (low : -2 ^ 31 ≤ b.signalStrength)
    (high : a.signalStrength < 2 ^ 31) (far : 2 ^ 31 ≤ a.signalStrength - b.signalStrength)
    (inA : a ∈ l) (inB : b ∈ l) :
    ∃ q : Qsort ApInfo, ¬(q.sort sortedBySignalStrength l).Pairwise (InOrder true) := by
  obtain ⟨q, other⟩ := exists_qsort
    (List.perm_insertionSort fun a b : ApInfo => a.signalStrength ≤ b.signalStrength)
  refine ⟨q, ?_⟩
  intro inOrder
  have perm := q.perm sortedBySignalStrength l
  have apart : a ≠ b := by
    rintro rfl
    omega
  by_cases consistent : Consistent sortedBySignalStrength l
  · rcases both_of_pairwise inOrder (q.sorted consistent) (perm.symm.subset inA)
      (perm.symm.subset inB) apart with ⟨-, first⟩ | ⟨wrong, -⟩
    · -- the difference overflows and comes out with the other sign
      have backward := sortedBySignalStrength_far low high far
      have forward := (consistent.flip a inA b inB).mpr (by omega)
      omega
    · change a.signalStrength ≤ b.signalStrength at wrong
      omega
  · have : Std.Total fun a b : ApInfo => a.signalStrength ≤ b.signalStrength :=
      ⟨fun a b => le_total _ _⟩
    have : IsTrans ApInfo fun a b => a.signalStrength ≤ b.signalStrength :=
      ⟨fun _ _ _ => le_trans⟩
    have ascending := List.pairwise_insertionSort
      (fun a b : ApInfo => a.signalStrength ≤ b.signalStrength) l
    rw [← other _ l consistent] at ascending
    rcases both_of_pairwise inOrder ascending (perm.symm.subset inA) (perm.symm.subset inB) apart
      with ⟨-, wrong⟩ | ⟨wrong, -⟩
    · omega
    · change a.signalStrength ≤ b.signalStrength at wrong
      omega

theorem count_of_listed {t : ScanTable} {lines : List ScanLine}
    (listed : t.listed = (lines.take (apNumMax - 1)).map ScanLine.ap) :
    t.count = min (apNumMax - 1) lines.length := by
  rw [← t.length_listed, listed, List.length_map, List.length_take]

/-- With room for one more line, the array has what `qsort` makes of the entries. -/
theorem parseScanResults_sorted (q : Qsort ApInfo) (array : ℕ → ApInfo) {lines : List ScanLine}
    (fewer : lines.length < apNumMax) (byStrength : Bool) :
    ∃ t, parseScanResults q array (scanReply lines) byStrength = some ((lines.length : ℤ), t) ∧
      (∀ i ∈ t.touched, i < apNumMax) ∧ (∀ i, apNumMax ≤ i → t.array i = array i) ∧
      (List.range lines.length).map t.array =
        q.sort (sortedBy byStrength) (lines.map ScanLine.ap) := by
  obtain ⟨t, parsed, listed, inside, outside⟩ := parseScanResults_reply q array lines byStrength
  rw [List.take_of_length_le (by omega)] at listed
  have count : t.count = lines.length := by
    rw [← t.length_listed, listed, List.length_map]
  refine ⟨t.sort q byStrength, by rw [parsed, count], inside, ?_, ?_⟩
  · intro i high
    rw [← outside i high, ScanTable.sort]
    exact if_neg (by omega)
  · rw [← listed, ← count]
    exact t.listed_sort q byStrength

/-- For every list of lines and both orders: the reply is parsed if and only if there are not just
`WPA_AP_NUM_MAX` lines, and no two signals in them that cannot be subtracted. -/
theorem parsesReply_iff_fewer (lines : List ScanLine) (byStrength : Bool) :
    ParsesReply lines byStrength ↔ (lines.length ≤ apNumMax → lines.length < apNumMax ∧
      (byStrength = true → Comparable (lines.map ScanLine.signal))) := by
  have anything : ℕ → ApInfo := fun _ => ⟨[], 0, 0, .level0, [], []⟩
  constructor
  · intro parses few
    have fewer : lines.length < apNumMax := by
      obtain ⟨ret, t, parsed, -, -, delivers⟩ := parses insertionQsort anything
      obtain ⟨t', parsed', listed, -, -⟩ :=
        parseScanResults_reply insertionQsort anything lines byStrength
      obtain ⟨rfl, rfl⟩ := Prod.mk.inj (Option.some.inj (parsed.symm.trans parsed'))
      have count := count_of_listed listed
      have all := (delivers few).1
      rw [apNumMax] at count few ⊢
      omega
    refine ⟨fewer, ?_⟩
    rintro rfl
    intro x inX y inY
    by_contra far
    obtain ⟨a, inA, rfl⟩ := List.mem_map.mp inX
    obtain ⟨b, inB, rfl⟩ := List.mem_map.mp inY
    obtain ⟨q, wrong⟩ := @not_inOrder a.ap b.ap (lines.map ScanLine.ap)
      (atoi?_range b.showsSignal).1 (atoi?_range a.showsSignal).2 (not_lt.mp far)
      (List.mem_map_of_mem inA) (List.mem_map_of_mem inB)
    obtain ⟨ret, t, parsed, -, -, delivers⟩ := parses q anything
    obtain ⟨t', parsed', -, -, sorted⟩ := parseScanResults_sorted q anything fewer true
    obtain ⟨rfl, rfl⟩ := Prod.mk.inj (Option.some.inj (parsed.symm.trans parsed'))
    obtain ⟨-, -, inOrder⟩ := delivers few
    rw [sorted] at inOrder
    exact wrong inOrder
  · intro condition q array
    rcases Nat.lt_or_ge apNumMax lines.length with many | few
    · obtain ⟨t, parsed, listed, inside, outside⟩ := parseScanResults_reply q array lines byStrength
      have count := count_of_listed listed
      refine ⟨_, _, parsed, inside, ?_, fun few => absurd few many.not_ge⟩
      intro i high
      rw [← outside i high, ScanTable.sort]
      exact if_neg (by omega)
    · obtain ⟨fewer, comparable⟩ := condition few
      have consistent := consistent_sortedBy comparable
      have perm := q.perm (sortedBy byStrength) (lines.map ScanLine.ap)
      obtain ⟨t, parsed, inside, outside, sorted⟩ :=
        parseScanResults_sorted q array fewer byStrength
      refine ⟨_, t, parsed, inside, outside, fun _ => ⟨rfl, ?_, ?_⟩⟩
      · rw [sorted]
        exact perm
      · rw [sorted]
        exact inOrder_of_sorted comparable perm (q.sorted consistent)

/-- `a`, `1`, `-5` and nothing else. -/
def sampleLine : ScanLine where
  bssid := [97]
  frequencyText := [49]
  signalText := [45, 53]
  flags := []
  ssid := []
  frequency := 1
  signal := -5
  isBssid := ⟨by decide, by decide, by decide, by decide⟩
  isFrequency := ⟨by decide, by decide, by decide, by decide⟩
  isSignal := ⟨by decide, by decide, by decide, by decide⟩
  isFlags := ⟨by decide, by decide, by decide, by decide⟩
  isSsid := ⟨by decide, by decide, by decide, by decide⟩
  showsFrequency := by decide
  showsSignal := by decide

/-- `WPA_AP_NUM_MAX` lines. -/
theorem not_parsesReply_full : ¬∀ lines byStrength, ParsesReply lines byStrength := by
  intro parses
  obtain ⟨ret, t, parsed, -, -, delivers⟩ :=
    parses (.replicate apNumMax sampleLine) false insertionQsort fun _ => sampleLine.ap
  obtain ⟨t', parsed', listed, -, -⟩ := parseScanResults_reply insertionQsort
    (fun _ => sampleLine.ap) (.replicate apNumMax sampleLine) false
  obtain ⟨rfl, -⟩ := Prod.mk.inj (Option.some.inj (parsed.symm.trans parsed'))
  have all := (delivers (by simp)).1
  rw [count_of_listed listed, List.length_replicate] at all
  exact absurd all (by decide)

end AmlCommonlib.WpaWifi
