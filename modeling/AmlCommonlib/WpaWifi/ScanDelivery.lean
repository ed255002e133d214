import AmlCommonlib.BootloaderMessage.Record
import AmlCommonlib.Lib.Firsts
import AmlCommonlib.WpaWifi.ScanResults

/-! # Delivering the scan results

`wpa_wifi_get_scan_results`: it waits for the results, parses them and gives the caller one entry for
each SSID. The loop that does is bounded by the number of entries that were parsed, and left at once
unless that number is smaller than the caller's array.
-/

namespace AmlCommonlib.WpaWifi

open BootloaderMessage.Record (strncpy)

/-- `WPA_WIFI_SCAN_STATE`. -/
inductive ScanState where
  | idle
  | cmdSent
  | started
  | resultsReceived
deriving DecidableEq

/-- A `WPA_WIFI_AP_INFO` of the caller, with all bytes of the buffers that are filled; its flags never
are. -/
structure ApSlot where
  bssid : Bytes
  frequency : ℤ
  signalStrength : ℤ
  signalLevel : SignalLevel
  ssid : Bytes
  bssidSize : bssid.length = 64
  ssidSize : ssid.length = 64

/-- The two calls of `strncpy` and the assignments. -/
def ApSlot.fill (slot : ApSlot) (ap : ApInfo) : ApSlot where
  bssid := overwrite slot.bssid 0 (strncpy ap.bssid 63)
  frequency := ap.frequency
  signalStrength := ap.signalStrength
  signalLevel := ap.signalLevel
  ssid := overwrite slot.ssid 0 (strncpy ap.ssid 63)
  bssidSize := (length_overwrite ..).trans slot.bssidSize
  ssidSize := (length_overwrite ..).trans slot.ssidSize

/-- `is_ssid_duplicate`; two strings are the same if they are up to the terminator of one. -/
def isSsidDuplicate (slots : ℕ → ApSlot) (count : ℕ) (ssid : Bytes) : Bool :=
  (List.range count).any fun i => (slots i).ssid.take (ssid.length + 1) = ssid ++ [0]

/-- The caller's array, `real_count`, and the entries that were stored to. -/
structure Delivery where
  slots : ℕ → ApSlot
  realCount : ℕ
  written : List ℕ

/-- One round of the loop. -/
def Delivery.add (d : Delivery) (ap : ApInfo) : Delivery :=
  if 0 < ap.ssid.length ∧ ¬isSsidDuplicate d.slots d.realCount ap.ssid then
    { slots := Function.update d.slots d.realCount ((d.slots d.realCount).fill ap)
      realCount := d.realCount + 1
      written := d.realCount :: d.written }
  else d

/-- The loop over the entries; its second bound does not change in it. -/
def deliver (aps : List ApInfo) (arraySize : ℕ) (d : Delivery) : Delivery :=
  if aps.length < arraySize then aps.foldl Delivery.add d else d

/-- The loop that waits, with the statuses that it reads one after the other: the number of the read
behind it. -/
def waitForResults (reads : ℕ → ScanState) : ℕ → ℕ → ℕ
  | 0, n => n + 1
  | retries + 1, n =>
    if reads n = .resultsReceived then n + 1 else waitForResults reads retries (n + 1)

/-- What `wpa_wifi_get_scan_results` returns, whether it has set the status to idle, the caller's
array, and `*ap_count` if it is set. -/
structure ScanFetch where
  ret : ℤ
  setsIdle : Bool
  delivery : Delivery
  apCount : Option ℕ

/-- `wpa_wifi_get_scan_results`, with the statuses it reads, `wpa_wifi_array` before, and the reply,
which is empty if the command failed. -/
def wpaWifiGetScanResults (q : Qsort ApInfo) (reads : ℕ → ScanState) (array : ℕ → ApInfo)
    (longResultStr : Bytes) (slots : ℕ → ApSlot) (arraySize : ℕ) (isSortByStrength : Bool) :
    Option ScanFetch :=
  if reads (waitForResults reads 40 0) ≠ .resultsReceived then
    some ⟨-1, false, ⟨slots, 0, []⟩, none⟩
  else do
    let (found, t) ← parseScanResults q array longResultStr isSortByStrength
    if found = -1 then some ⟨-1, false, ⟨slots, 0, []⟩, none⟩
    else
      let d := deliver t.listed arraySize ⟨slots, 0, []⟩
      return ⟨0, true, d, some d.realCount⟩

/-! ### What is to be delivered -/

/-- The entry is filled with what was parsed. -/
structure ApSlot.Holds (slot : ApSlot) (ap : ApInfo) : Prop where
  bssid : cstring? slot.bssid = some ap.bssid
  frequency : slot.frequency = ap.frequency
  signalStrength : slot.signalStrength = ap.signalStrength
  signalLevel : slot.signalLevel = ap.signalLevel
  ssid : cstring? slot.ssid = some ap.ssid

/-- The first occurrences of the SSIDs that are not empty. -/
def firstAps (aps : List ApInfo) : List ApInfo :=
  (firstsBy ApInfo.ssid aps).filter fun ap => ap.ssid ≠ []

/-- The number of distinct SSIDs that are not empty. -/
def distinctSsids (aps : List ApInfo) : ℕ := ((aps.map ApInfo.ssid).toFinset.erase []).card

structure Delivered (aps : List ApInfo) (before : ℕ → ApSlot) (arraySize : ℕ) (byStrength : Bool)
    (d : Delivery) (apCount : Option ℕ) : Prop where
  count : apCount = some (min arraySize (distinctSsids aps))
  filled : ∀ i < min arraySize (distinctSsids aps), ∃ ap, (firstAps aps)[i]? = some ap ∧
    (d.slots i).Holds ap
  distinct : ∀ i j, i < j → j < min arraySize (distinctSsids aps) →
    cstring? (d.slots i).ssid ≠ cstring? (d.slots j).ssid
  inside : ∀ i ∈ d.written, i < arraySize
  outside : ∀ i, arraySize ≤ i → d.slots i = before i
  strongest : byStrength = true → ∀ i < min arraySize (distinctSsids aps), ∀ ap ∈ aps,
    cstring? (d.slots i).ssid = some ap.ssid → ap.signalStrength ≤ (d.slots i).signalStrength

/-- Whatever `qsort` does with equal elements and whatever the caller's array held: a success
delivers what was parsed. -/
def DeliversScan (array : ℕ → ApInfo) (longResultStr : Bytes) (arraySize : ℕ) (byStrength : Bool) :
    Prop :=
  ∀ (q : Qsort ApInfo) (reads : ℕ → ScanState) (slots : ℕ → ApSlot) (found : ℤ) (t : ScanTable)
    (fetch : ScanFetch), parseScanResults q array longResultStr byStrength = some (found, t) →
    wpaWifiGetScanResults q reads array longResultStr slots arraySize byStrength = some fetch →
    fetch.ret = 0 → Delivered t.listed slots arraySize byStrength fetch.delivery fetch.apCount

/-- `qsort` may put the entry before the others with its SSID. -/
def MayLead (byStrength : Bool) (aps : List ApInfo) (ap : ApInfo) : Prop :=
  Consistent (sortedBy byStrength) aps →
    ∀ other ∈ aps, other.ssid = ap.ssid → sortedBy byStrength ap other ≤ 0

/-- The entries can be delivered. -/
structure Deliverable (aps : List ApInfo) (arraySize : ℕ) (byStrength : Bool) : Prop where
  room : aps.length < arraySize
  /-- The strings of an entry that may be delivered leave the last byte of a buffer for the
  terminator. -/
  short : ∀ ap ∈ aps, ap.ssid ≠ [] → MayLead byStrength aps ap →
    ap.ssid.length < 63 ∧ ap.bssid.length < 63
  /-- The signals of one SSID can be compared. -/
  near : byStrength = true → ∀ a ∈ aps, ∀ b ∈ aps, a.ssid ≠ [] → a.ssid = b.ssid →
    a.signalStrength ≠ b.signalStrength → Consistent sortedBySignalStrength aps ∧
      a.signalStrength - b.signalStrength < 2 ^ 31

theorem Deliverable.perm {aps aps' : List ApInfo} {arraySize : ℕ} {byStrength : Bool}
    (deliverable : Deliverable aps arraySize byStrength) (perm : aps'.Perm aps) :
    Deliverable aps' arraySize byStrength where
  room := perm.length_eq ▸ deliverable.room
  short ap member named lead := by
    apply deliverable.short ap (perm.subset member) named
    intro consistent other inside same
    exact lead (consistent.perm perm) other (perm.symm.subset inside) same
  near asked a inA b inB named same apart := by
    obtain ⟨consistent, near⟩ :=
      deliverable.near asked a (perm.subset inA) b (perm.subset inB) named same apart
    exact ⟨consistent.perm perm, near⟩

/-! ### What the parser leaves -/

/-- The values of an entry fit into its fields. -/
structure ApInfo.Fits (ap : ApInfo) : Prop where
  bssid : IsCString ap.bssid
  bssidLength : ap.bssid.length < 64
  ssid : IsCString ap.ssid
  ssidLength : ap.ssid.length < 64
  signal : -2 ^ 31 ≤ ap.signalStrength ∧ ap.signalStrength < 2 ^ 31

theorem copyNextToken_fits {size : ℕ} {start token rest : Bytes} {delim : UInt8}
    (plain : IsCString start) (copied : copyNextToken size start delim = some (token, rest)) :
    IsCString token ∧ token.length < size ∧ IsCString rest := by
  rw [copyNextToken] at copied
  split at copied
  · cases copied
  · split_ifs at copied with large
    cases copied
    refine ⟨plain.take _, ?_, fun member => plain (List.mem_of_mem_drop member)⟩
    rw [List.length_take]
    omega

/-- An entry that the loop has filled to its end fits. -/
theorem scanEntry_fits {ap ap' : ApInfo} {start rest : Bytes} (plain : IsCString start)
    (scanned : scanEntry ap start = some (ap', some rest)) : ap'.Fits ∧ IsCString rest := by
  simp only [scanEntry, Option.bind_eq_bind] at scanned
  split at scanned
  · simp at scanned
  rename_i bssid start₁ copied
  obtain ⟨isBssid, bssidFits, plain⟩ := copyNextToken_fits plain copied
  split at scanned
  · simp at scanned
  rename_i frequencyStr start₂ copied
  obtain ⟨-, -, plain⟩ := copyNextToken_fits plain copied
  obtain ⟨frequency, -, scanned⟩ := Option.bind_eq_some_iff.mp scanned
  split at scanned
  · simp at scanned
  rename_i signalStr start₃ copied
  obtain ⟨-, -, plain⟩ := copyNextToken_fits plain copied
  obtain ⟨strength, shows, scanned⟩ := Option.bind_eq_some_iff.mp scanned
  split at scanned
  · simp at scanned
  rename_i flags start₄ copied
  obtain ⟨-, -, plain⟩ := copyNextToken_fits plain copied
  split at scanned
  · simp at scanned
  rename_i ssid start₅ copied
  obtain ⟨isSsid, ssidFits, plain⟩ := copyNextToken_fits plain copied
  cases scanned
  exact ⟨⟨isBssid, bssidFits, isSsid, ssidFits, atoi?_range shows⟩, plain⟩

theorem scanLoop_fits {fuel : ℕ} {t t' : ScanTable} {start : Bytes} (plain : IsCString start)
    (before : ∀ ap ∈ t.listed, ap.Fits) (scanned : scanLoop fuel t start = some t') :
    ∀ ap ∈ t'.listed, ap.Fits := by
  induction fuel generalizing t start with
  | zero =>
    cases scanned
    exact before
  | succ fuel ih =>
    rw [scanLoop] at scanned
    split at scanned
    · cases scanned
      exact before
    · obtain ⟨⟨ap, next⟩, filled, scanned⟩ := Option.bind_eq_some_iff.mp scanned
      cases next with
      | none =>
        cases scanned
        rwa [ScanTable.listed_update_last]
      | some rest =>
        obtain ⟨fits, plain⟩ := scanEntry_fits plain filled
        dsimp only at scanned
        split_ifs at scanned
        · cases scanned
          rwa [ScanTable.listed_update_last]
        · apply ih plain ?_ scanned
          rw [ScanTable.listed_update]
          intro ap' member
          rcases List.mem_append.mp member with old | new
          · exact before ap' old
          · rwa [List.mem_singleton.mp new]

/-- What is parsed depends on `qsort` only by its order. -/
theorem parseScanResults_parsed {q : Qsort ApInfo} {array : ℕ → ApInfo} {resBuf : Bytes}
    {byStrength : Bool} {found : ℤ} {t : ScanTable} (plain : IsCString resBuf)
    (parsed : parseScanResults q array resBuf byStrength = some (found, t)) :
    ∃ t₀ : ScanTable, (∀ q, parseScanResults q array resBuf byStrength =
        some (found, t₀.sort q byStrength)) ∧ (∀ ap ∈ t₀.listed, ap.Fits) ∧
      (found = t₀.count ∨ found = -1 ∧ t₀.listed = []) := by
  have unsorted : ∀ q, (⟨array, 0, []⟩ : ScanTable).sort q byStrength = ⟨array, 0, []⟩ := by
    intro q
    simp [ScanTable.sort]
  simp only [parseScanResults] at parsed ⊢
  split_ifs at parsed ⊢ with header
  · split at parsed
    · cases parsed
      exact ⟨⟨array, 0, []⟩, fun q => by rw [unsorted], by simp [ScanTable.listed],
        .inr ⟨rfl, rfl⟩⟩
    · obtain ⟨t₀, scanned, parsed⟩ := Option.bind_eq_some_iff.mp parsed
      cases parsed
      refine ⟨t₀, fun q => by rw [scanned]; rfl, ?_, .inl rfl⟩
      exact scanLoop_fits (fun member => plain (List.mem_of_mem_drop member))
        (by simp [ScanTable.listed]) scanned
  · cases parsed
    exact ⟨⟨array, 0, []⟩, fun q => by rw [unsorted], by simp [ScanTable.listed],
      .inr ⟨rfl, rfl⟩⟩

/-! ### Filling a slot -/

theorem strncpy_short {s : Bytes} (short : s.length < 63) :
    strncpy s 63 = s ++ 0 :: .replicate (62 - s.length) 0 := by
  obtain ⟨n, isN⟩ := Nat.exists_eq_add_of_lt short
  rw [strncpy, List.take_append, List.take_of_length_le short.le, List.take_replicate,
    show min (63 - s.length) 63 = (62 - s.length) + 1 by omega, List.replicate_succ]

/-- A string that leaves a byte for the terminator is in the buffer then. -/
theorem cstring?_filled {buffer s : Bytes} (size : buffer.length = 64) (plain : IsCString s)
    (short : s.length < 63) : cstring? (overwrite buffer 0 (strncpy s 63)) = some s := by
  have length : (strncpy s 63).length ≤ buffer.length := by
    simp [strncpy, size]
  rw [overwrite_zero length, strncpy_short short, List.append_assoc, List.cons_append]
  exact cstring?_terminated plain _

/-- The last byte of the buffer stays. -/
theorem drop_filled {buffer s : Bytes} (size : buffer.length = 64) :
    (overwrite buffer 0 (strncpy s 63)).drop 63 = buffer.drop 63 := by
  have length : (strncpy s 63).length = 63 := by
    simp [strncpy]
  rw [overwrite_zero (by omega), length, List.drop_append, length, List.drop_of_length_le length.le]
  simp

theorem prefix_of_cstring? {block s : Bytes} (read : cstring? block = some s) : s <+: block := by
  rw [cstring?] at read
  split_ifs at read
  cases read
  exact List.takeWhile_prefix _

/-- A string that is in a buffer ends in front of its last byte, unless that is a terminator. -/
theorem length_ne_of_cstring? {buffer s : Bytes} (read : cstring? buffer = some s)
    (last : buffer.drop 63 = [255]) : s.length ≠ 63 := by
  intro long
  have start := List.prefix_append_drop (prefix_of_cstring? read)
  rw [long, last] at start
  rw [start, cstring?_append_eq (cstring?_isCString read)] at read
  cases read

theorem ApSlot.fill_holds (slot : ApSlot) {ap : ApInfo} (fits : ap.Fits)
    (short : ap.ssid.length < 63 ∧ ap.bssid.length < 63) : (slot.fill ap).Holds ap where
  bssid := cstring?_filled slot.bssidSize fits.bssid short.2
  frequency := rfl
  signalStrength := rfl
  signalLevel := rfl
  ssid := cstring?_filled slot.ssidSize fits.ssid short.1

/-- `strcmp` with what is in a buffer. -/
theorem take_eq_iff {buffer s t : Bytes} (read : cstring? buffer = some t) (plain : IsCString s) :
    buffer.take (s.length + 1) = s ++ [0] ↔ t = s := by
  constructor
  · intro same
    have whole : buffer = s ++ 0 :: buffer.drop (s.length + 1) := by
      conv_lhs => rw [← List.take_append_drop (s.length + 1) buffer, same]
      simp
    rw [whole, cstring?_terminated plain] at read
    exact (Option.some.inj read).symm
  · rintro rfl
    obtain ⟨rest, rfl⟩ := prefix_of_cstring? read
    have next := (cstring?_append_eq plain).mp read
    cases rest with
    | nil => cases next
    | cons b rest =>
      cases next
      rw [List.take_append]
      simp

/-! ### The loop -/

theorem firstAps_append_singleton (aps : List ApInfo) (ap : ApInfo) :
    firstAps (aps ++ [ap]) =
      firstAps aps ++ if ap.ssid ≠ [] ∧ ap.ssid ∉ aps.map ApInfo.ssid then [ap] else [] := by
  rw [firstAps, firstsBy_append_singleton, List.filter_append]
  congr 1
  by_cases seen : ap.ssid ∈ aps.map ApInfo.ssid
  · simp only [seen, if_true, not_true, and_false, if_false, List.filter_nil]
  · by_cases named : ap.ssid = [] <;> simp [seen, named]

theorem mem_firstAps {aps : List ApInfo} {ap : ApInfo} :
    ap ∈ firstAps aps ↔ ap ∈ firstsBy ApInfo.ssid aps ∧ ap.ssid ≠ [] := by
  simp [firstAps]

theorem mem_map_firstAps {aps : List ApInfo} {ssid : Bytes} (named : ssid ≠ []) :
    ssid ∈ (firstAps aps).map ApInfo.ssid ↔ ssid ∈ aps.map ApInfo.ssid := by
  rw [← @mem_map_firstsBy _ _ _ ApInfo.ssid aps, List.mem_map, List.mem_map]
  constructor
  · rintro ⟨ap, first, rfl⟩
    exact ⟨ap, (mem_firstAps.mp first).1, rfl⟩
  · rintro ⟨ap, first, rfl⟩
    exact ⟨ap, mem_firstAps.mpr ⟨first, named⟩, rfl⟩

theorem nodup_firstAps (aps : List ApInfo) : ((firstAps aps).map ApInfo.ssid).Nodup :=
  nodup_map_firstsBy.sublist (List.filter_sublist.map _)

theorem length_firstAps (aps : List ApInfo) : (firstAps aps).length = distinctSsids aps := by
  rw [distinctSsids, ← List.length_map ApInfo.ssid, ← List.toFinset_card_of_nodup (nodup_firstAps aps)]
  congr 1
  ext ssid
  by_cases named : ssid = []
  · subst named
    simp [firstAps]
  · rw [List.mem_toFinset, mem_map_firstAps named, Finset.mem_erase, List.mem_toFinset]
    exact (and_iff_right named).symm

/-- What the loop has done after the entries. -/
structure Delivery.Filled (before : ℕ → ApSlot) (aps : List ApInfo) (d : Delivery) : Prop where
  count : d.realCount = (firstAps aps).length
  holds : ∀ i ap, (firstAps aps)[i]? = some ap → (d.slots i).Holds ap
  written : ∀ i ∈ d.written, i < d.realCount
  rest : ∀ i, d.realCount ≤ i → d.slots i = before i

theorem Delivery.Filled.isSsidDuplicate_iff {before : ℕ → ApSlot} {aps : List ApInfo} {d : Delivery}
    (filled : d.Filled before aps) {ssid : Bytes} (plain : IsCString ssid) (named : ssid ≠ []) :
    isSsidDuplicate d.slots d.realCount ssid ↔ ssid ∈ aps.map ApInfo.ssid := by
  rw [← mem_map_firstAps named, isSsidDuplicate, List.any_eq_true]
  constructor
  · rintro ⟨i, inside, same⟩
    rw [List.mem_range, filled.count] at inside
    have here := List.getElem?_eq_getElem inside
    rw [decide_eq_true_iff, take_eq_iff (filled.holds i _ here).ssid plain] at same
    exact same ▸ List.mem_map_of_mem (List.getElem_mem inside)
  · intro member
    obtain ⟨ap, first, rfl⟩ := List.mem_map.mp member
    obtain ⟨i, inside, rfl⟩ := List.getElem_of_mem first
    have here := List.getElem?_eq_getElem inside
    refine ⟨i, by rwa [List.mem_range, filled.count], ?_⟩
    rw [decide_eq_true_iff, take_eq_iff (filled.holds i _ here).ssid plain]

/-- A round of the loop; the strings of an entry that it delivers are short. -/
theorem Delivery.Filled.add {before : ℕ → ApSlot} {aps : List ApInfo} {d : Delivery}
    (filled : d.Filled before aps) {ap : ApInfo} (fits : ap.Fits)
    (short : ap.ssid ≠ [] → ap.ssid ∉ aps.map ApInfo.ssid →
      ap.ssid.length < 63 ∧ ap.bssid.length < 63) :
    (d.add ap).Filled before (aps ++ [ap]) := by
  rw [Delivery.add]
  split_ifs with fresh
  · obtain ⟨named, fresh⟩ := fresh
    rw [List.length_pos_iff] at named
    rw [filled.isSsidDuplicate_iff fits.ssid named] at fresh
    have firsts : firstAps (aps ++ [ap]) = firstAps aps ++ [ap] := by
      rw [firstAps_append_singleton, if_pos ⟨named, fresh⟩]
    refine ⟨?_, ?_, ?_, ?_⟩
    · rw [firsts, List.length_append, filled.count]
      rfl
    · intro i ap' here
      rw [firsts, List.getElem?_append] at here
      dsimp only
      split_ifs at here with old
      · rw [Function.update_of_ne (by rw [filled.count]; omega)]
        exact filled.holds i ap' here
      · rw [List.getElem?_singleton] at here
        split_ifs at here with new
        cases here
        have last : i = d.realCount := by
          rw [filled.count]
          omega
        rw [last, Function.update_self]
        exact ApSlot.fill_holds _ fits (short named fresh)
    · intro i member
      dsimp only
      rcases List.mem_cons.mp member with rfl | old
      · omega
      · have := filled.written i old
        omega
    · intro i behind
      dsimp only at behind ⊢
      rw [Function.update_of_ne (by omega)]
      exact filled.rest i (by omega)
  · have firsts : firstAps (aps ++ [ap]) = firstAps aps := by
      rw [firstAps_append_singleton, if_neg, List.append_nil]
      rintro ⟨named, new⟩
      rw [← filled.isSsidDuplicate_iff fits.ssid named] at new
      exact fresh ⟨List.length_pos_iff.mpr named, new⟩
    exact ⟨firsts ▸ filled.count, firsts ▸ filled.holds, filled.written, filled.rest⟩

theorem Delivery.filled_foldl {slots : ℕ → ApSlot} {aps : List ApInfo} (fits : ∀ ap ∈ aps, ap.Fits)
    (short : ∀ ap ∈ firstAps aps, ap.ssid.length < 63 ∧ ap.bssid.length < 63) :
    (aps.foldl Delivery.add ⟨slots, 0, []⟩).Filled slots aps := by
  induction aps using List.reverseRecOn with
  | nil => exact ⟨rfl, by simp [firstAps], by simp, fun _ _ => rfl⟩
  | append_singleton aps ap ih =>
    rw [List.foldl_append, List.foldl_cons, List.foldl_nil]
    have filled := ih (fun ap member => fits ap (List.mem_append_left _ member)) fun ap first =>
      short ap (by rw [firstAps_append_singleton]; exact List.mem_append_left _ first)
    apply filled.add (fits ap (by simp))
    intro named fresh
    apply short ap
    rw [firstAps_append_singleton, if_pos ⟨named, fresh⟩]
    simp

/-- The last bytes of the buffers stay, whatever is delivered. -/
theorem Delivery.foldl_last (aps : List ApInfo) (d : Delivery) (i : ℕ) :
    ((aps.foldl Delivery.add d).slots i).ssid.drop 63 = (d.slots i).ssid.drop 63 ∧
      ((aps.foldl Delivery.add d).slots i).bssid.drop 63 = (d.slots i).bssid.drop 63 := by
  induction aps generalizing d with
  | nil => exact ⟨rfl, rfl⟩
  | cons ap aps ih =>
    rw [List.foldl_cons, (ih (d.add ap)).1, (ih (d.add ap)).2, Delivery.add]
    split_ifs
    · by_cases here : i = d.realCount
      · subst here
        dsimp only
        rw [Function.update_self]
        exact ⟨drop_filled (d.slots _).ssidSize, drop_filled (d.slots _).bssidSize⟩
      · dsimp only
        rw [Function.update_of_ne here]
        exact ⟨rfl, rfl⟩
    · exact ⟨rfl, rfl⟩

/-! ### What is delivered -/

theorem distinctSsids_pos {aps : List ApInfo} {ap : ApInfo} (member : ap ∈ aps)
    (named : ap.ssid ≠ []) : 0 < distinctSsids aps :=
  Finset.card_pos.mpr ⟨ap.ssid, by simpa [named] using ⟨ap, member, rfl⟩⟩

theorem distinctSsids_eq_zero {aps : List ApInfo} (nameless : ∀ ap ∈ aps, ap.ssid = []) :
    distinctSsids aps = 0 := by
  rw [distinctSsids, Finset.card_eq_zero]
  ext ssid
  simp only [Finset.mem_erase, List.mem_toFinset, List.mem_map, Finset.notMem_empty, iff_false]
  rintro ⟨named, ap, member, rfl⟩
  exact named (nameless ap member)

theorem distinctSsids_le (aps : List ApInfo) : distinctSsids aps ≤ aps.length := by
  rw [← length_firstAps, firstAps]
  calc _ ≤ (firstsBy ApInfo.ssid aps).length := List.length_filter_le ..
    _ ≤ aps.zipIdx.length := List.length_filterMap_le ..
    _ = aps.length := List.length_zipIdx

theorem Delivery.Filled.delivered {slots : ℕ → ApSlot} {aps : List ApInfo} {d : Delivery}
    (filled : d.Filled slots aps) {arraySize : ℕ} (few : distinctSsids aps ≤ arraySize)
    {byStrength : Bool} (strongest : byStrength = true → ∀ first ∈ firstAps aps, ∀ ap ∈ aps,
      ap.ssid = first.ssid → ap.signalStrength ≤ first.signalStrength) :
    Delivered aps slots arraySize byStrength d (some d.realCount) := by
  have count : d.realCount = distinctSsids aps := filled.count.trans (length_firstAps aps)
  have here : ∀ i < distinctSsids aps, ∃ ap, (firstAps aps)[i]? = some ap ∧
      (d.slots i).Holds ap := by
    intro i inside
    rw [← length_firstAps] at inside
    have found := List.getElem?_eq_getElem inside
    exact ⟨_, found, filled.holds i _ found⟩
  rw [← min_eq_right few] at here
  refine ⟨by rw [count, min_eq_right few], here, ?_, ?_, ?_, ?_⟩
  · intro i j before inside same
    obtain ⟨a, atI, holdsA⟩ := here i (before.trans inside)
    obtain ⟨b, atJ, holdsB⟩ := here j inside
    rw [holdsA.ssid, holdsB.ssid, Option.some.injEq] at same
    obtain ⟨insideI, rfl⟩ := List.getElem?_eq_some_iff.mp atI
    obtain ⟨insideJ, rfl⟩ := List.getElem?_eq_some_iff.mp atJ
    have apart := List.pairwise_iff_getElem.mp (nodup_firstAps aps) i j (by simpa using insideI)
      (by simpa using insideJ) before
    rw [List.getElem_map, List.getElem_map] at apart
    exact apart same
  · intro i member
    have := filled.written i member
    omega
  · intro i outside
    exact filled.rest i (by omega)
  · intro asked i inside ap member same
    obtain ⟨first, atI, holds⟩ := here i inside
    rw [holds.ssid, Option.some.injEq] at same
    rw [holds.signalStrength]
    exact strongest asked first (List.mem_of_getElem? atI) ap member same.symm

/-- A first occurrence is in front of the others by the order of the list. -/
theorem mayLead_of_first {aps : List ApInfo} {byStrength : Bool}
    (sorted : Consistent (sortedBy byStrength) aps →
      aps.Pairwise fun a b => sortedBy byStrength a b ≤ 0)
    {first : ApInfo} (isFirst : first ∈ firstAps aps) : MayLead byStrength aps first := by
  obtain ⟨isFirst, -⟩ := mem_firstAps.mp isFirst
  intro consistent other member same
  rcases rel_of_mem_firstsBy (sorted consistent) isFirst member same with rfl | le
  · exact (consistent.total member member).elim id id
  · exact le

/-- Entries that can be delivered are. -/
theorem Deliverable.delivered {aps : List ApInfo} (fits : ∀ ap ∈ aps, ap.Fits) {arraySize : ℕ}
    {byStrength : Bool} (sorted : Consistent (sortedBy byStrength) aps →
      aps.Pairwise fun a b => sortedBy byStrength a b ≤ 0)
    (deliverable : Deliverable aps arraySize byStrength) (slots : ℕ → ApSlot) :
    Delivered aps slots arraySize byStrength (deliver aps arraySize ⟨slots, 0, []⟩)
      (some (deliver aps arraySize ⟨slots, 0, []⟩).realCount) := by
  have short : ∀ ap ∈ firstAps aps, ap.ssid.length < 63 ∧ ap.bssid.length < 63 := by
    intro ap first
    obtain ⟨isFirst, named⟩ := mem_firstAps.mp first
    exact deliverable.short ap (firstsBy_subset isFirst) named (mayLead_of_first sorted first)
  rw [deliver, if_pos deliverable.room]
  apply (Delivery.filled_foldl fits short).delivered
    ((distinctSsids_le aps).trans deliverable.room.le)
  rintro rfl first isFirst ap member same
  have lead := mayLead_of_first sorted isFirst
  obtain ⟨isFirst, named⟩ := mem_firstAps.mp isFirst
  by_contra stronger
  obtain ⟨consistent, near⟩ := deliverable.near rfl ap member first (firstsBy_subset isFirst)
    (same ▸ named) same (by omega)
  have le := lead consistent ap member same
  change int32 (ap.signalStrength - first.signalStrength) ≤ 0 at le
  rw [int32_of_range (by omega) near] at le
  omega

theorem delivered_nameless {aps : List ApInfo} (nameless : ∀ ap ∈ aps, ap.ssid = [])
    (fits : ∀ ap ∈ aps, ap.Fits) (arraySize : ℕ) (byStrength : Bool) (slots : ℕ → ApSlot) :
    Delivered aps slots arraySize byStrength (deliver aps arraySize ⟨slots, 0, []⟩)
      (some (deliver aps arraySize ⟨slots, 0, []⟩).realCount) := by
  have none' : firstAps aps = [] := by
    rw [← List.length_eq_zero_iff, length_firstAps, distinctSsids_eq_zero nameless]
  have filled : (deliver aps arraySize ⟨slots, 0, []⟩).Filled slots aps := by
    rw [deliver]
    split_ifs
    · exact Delivery.filled_foldl fits (by simp [none'])
    · exact ⟨by rw [none']; rfl, by simp [none'], by simp, fun _ _ => rfl⟩
  apply filled.delivered
  · rw [distinctSsids_eq_zero nameless]
    exact Nat.zero_le _
  · simp [none']

/-- Nothing is delivered without room for one entry more. -/
theorem Delivered.room {aps : List ApInfo} {slots : ℕ → ApSlot} {arraySize : ℕ} {byStrength : Bool}
    (delivered : Delivered aps slots arraySize byStrength (deliver aps arraySize ⟨slots, 0, []⟩)
      (some (deliver aps arraySize ⟨slots, 0, []⟩).realCount))
    (positive : 1 ≤ arraySize) {ap : ApInfo} (member : ap ∈ aps) (named : ap.ssid ≠ []) :
    aps.length < arraySize := by
  by_contra full
  have count := Option.some.inj delivered.count
  rw [deliver, if_neg full] at count
  have := distinctSsids_pos member named
  dsimp only at count
  omega

/-- The entry of a first occurrence. -/
theorem Delivered.first {aps : List ApInfo} {slots : ℕ → ApSlot} {arraySize : ℕ} {byStrength : Bool}
    {d : Delivery} {apCount : Option ℕ} (delivered : Delivered aps slots arraySize byStrength d apCount)
    (room : aps.length < arraySize) {first : ApInfo} (isFirst : first ∈ firstAps aps) :
    ∃ i < min arraySize (distinctSsids aps), (d.slots i).Holds first := by
  obtain ⟨i, inside, rfl⟩ := List.getElem_of_mem isFirst
  have few := distinctSsids_le aps
  rw [length_firstAps] at inside
  obtain ⟨ap, here, holds⟩ := delivered.filled i (by omega)
  obtain ⟨_, rfl⟩ := List.getElem?_eq_some_iff.mp here
  exact ⟨i, by omega, holds⟩

/-- A buffer of the caller with no terminator in it. -/
def unterminated : ApSlot where
  bssid := .replicate 64 255
  frequency := 0
  signalStrength := 0
  signalLevel := .level0
  ssid := .replicate 64 255
  bssidSize := List.length_replicate
  ssidSize := List.length_replicate

theorem Delivered.short {aps : List ApInfo} {arraySize : ℕ} {byStrength : Bool}
    {apCount : Option ℕ} (delivered : Delivered aps (fun _ => unterminated) arraySize byStrength
      (deliver aps arraySize ⟨fun _ => unterminated, 0, []⟩) apCount)
    (room : aps.length < arraySize) {first : ApInfo} (fits : first.Fits)
    (isFirst : first ∈ firstAps aps) : first.ssid.length < 63 ∧ first.bssid.length < 63 := by
  obtain ⟨i, -, holds⟩ := delivered.first room isFirst
  have last := Delivery.foldl_last aps ⟨fun _ => unterminated, 0, []⟩ i
  rw [deliver, if_pos room] at holds
  have ssid := length_ne_of_cstring? holds.ssid (last.1.trans rfl)
  have bssid := length_ne_of_cstring? holds.bssid (last.2.trans rfl)
  have := fits.ssidLength
  have := fits.bssidLength
  omega

/-- Entries that are delivered whatever `qsort` does with equal ones can be delivered. -/
theorem deliverable_of_delivered {aps : List ApInfo} (fits : ∀ ap ∈ aps, ap.Fits) {arraySize : ℕ}
    (positive : 1 ≤ arraySize) {byStrength : Bool}
    (delivered : ∀ (q : Qsort ApInfo) (slots : ℕ → ApSlot),
      let sorted := q.sort (sortedBy byStrength) aps
      let d := deliver sorted arraySize ⟨slots, 0, []⟩
      Delivered sorted slots arraySize byStrength d (some d.realCount))
    {named : ApInfo} (member : named ∈ aps) (isNamed : named.ssid ≠ []) :
    Deliverable aps arraySize byStrength := by
  have inside : ∀ (q : Qsort ApInfo) {ap}, ap ∈ q.sort (sortedBy byStrength) aps ↔ ap ∈ aps :=
    fun q {ap} => (q.perm _ _).mem_iff
  have room : ∀ q : Qsort ApInfo, (q.sort (sortedBy byStrength) aps).length < arraySize := by
    intro q
    exact (delivered q fun _ => unterminated).room positive ((inside q).mpr member) isNamed
  -- a `qsort` that puts an entry first which it may
  have front : ∀ ap ∈ aps, ap.ssid ≠ [] → MayLead byStrength aps ap → ∃ q : Qsort ApInfo,
      ap ∈ firstAps (q.sort (sortedBy byStrength) aps) := by
    intro ap member named lead
    obtain ⟨q, isFirst⟩ := exists_qsort_first ap
    obtain ⟨before, after, split, others⟩ := isFirst _ aps member (fun b => b.ssid = ap.ssid) lead
    refine ⟨q, mem_firstAps.mpr ⟨mem_firstsBy.mpr ⟨before, after, split, ?_⟩, named⟩⟩
    intro seen
    obtain ⟨b, early, same⟩ := List.mem_map.mp seen
    exact others b early same
  -- with the entry its signal is the strongest
  have strongest : byStrength = true → ∀ (q : Qsort ApInfo),
      ∀ first ∈ firstAps (q.sort (sortedBy byStrength) aps), ∀ ap ∈ aps, ap.ssid = first.ssid →
        ap.signalStrength ≤ first.signalStrength := by
    intro asked q first isFirst ap member same
    have here := delivered q fun _ => unterminated
    obtain ⟨i, few, holds⟩ := here.first (room q) isFirst
    have le := here.strongest asked i few ap ((inside q).mpr member) (same ▸ holds.ssid)
    rwa [holds.signalStrength] at le
  refine ⟨?_, ?_, ?_⟩
  · rw [← (insertionQsort.perm (sortedBy byStrength) aps).length_eq]
    exact room insertionQsort
  · intro ap member named lead
    obtain ⟨q, isFirst⟩ := front ap member named lead
    exact (delivered q fun _ => unterminated).short (room q) (fits ap member) isFirst
  · rintro rfl a inA b inB named same apart
    have consistent : Consistent sortedBySignalStrength aps := by
      by_contra inconsistent
      obtain ⟨q, isFirst⟩ := front a inA named fun consistent => absurd consistent inconsistent
      obtain ⟨q', isFirst'⟩ := front b inB (same ▸ named)
        fun consistent => absurd consistent inconsistent
      have := strongest rfl q a isFirst b inB same.symm
      have := strongest rfl q' b isFirst' a inA same
      omega
    refine ⟨consistent, ?_⟩
    by_contra far
    -- the first entry of the SSID is the strongest, but the comparison puts `b` before it
    obtain ⟨first, isFirst, isName⟩ := List.mem_map.mp ((mem_map_firstAps named).mpr
      (List.mem_map_of_mem ((inside insertionQsort).mpr inA)))
    have top := strongest rfl insertionQsort first isFirst a inA isName.symm
    have lead := @mayLead_of_first _ true (fun _ => insertionQsort.sorted consistent) _ isFirst
    have inFirst := (inside insertionQsort).mp (firstsBy_subset (mem_firstAps.mp isFirst).1)
    have le := lead (consistent.perm (insertionQsort.perm _ _)) b ((inside insertionQsort).mpr inB)
      (same.symm.trans isName.symm)
    change sortedBySignalStrength first b ≤ 0 at le
    have low := (fits b inB).signal.1
    have high := (fits first inFirst).signal.2
    have backward := sortedBySignalStrength_far low high (by omega)
    have forward := (consistent.flip first inFirst b inB).mpr (by omega)
    omega

/-- For the entries that a reply lists, in any order. -/
theorem delivered_iff_deliverable {aps : List ApInfo} (fits : ∀ ap ∈ aps, ap.Fits) {arraySize : ℕ}
    (positive : 1 ≤ arraySize) {byStrength : Bool} :
    (∀ (q : Qsort ApInfo) (slots : ℕ → ApSlot), let sorted := q.sort (sortedBy byStrength) aps
      let d := deliver sorted arraySize ⟨slots, 0, []⟩
      Delivered sorted slots arraySize byStrength d (some d.realCount)) ↔
    (∀ ap ∈ aps, ap.ssid = []) ∨ Deliverable aps arraySize byStrength := by
  constructor
  · intro delivered
    by_cases nameless : ∀ ap ∈ aps, ap.ssid = []
    · exact .inl nameless
    · push Not at nameless
      obtain ⟨ap, member, named⟩ := nameless
      exact .inr (deliverable_of_delivered fits positive delivered member named)
  · intro condition q slots
    have perm := q.perm (sortedBy byStrength) aps
    have fits' : ∀ ap ∈ q.sort (sortedBy byStrength) aps, ap.Fits :=
      fun ap member => fits ap (perm.subset member)
    rcases condition with nameless | deliverable
    · exact delivered_nameless (fun ap member => nameless ap (perm.subset member)) fits' _ _ _
    · apply (deliverable.perm perm).delivered fits'
      intro consistent
      exact q.sorted (consistent.perm perm.symm)

/-- A success is the delivery of what was parsed. -/
theorem wpaWifiGetScanResults_parsed {q : Qsort ApInfo} {reads : ℕ → ScanState} {array : ℕ → ApInfo}
    {longResultStr : Bytes} {slots : ℕ → ApSlot} {arraySize : ℕ} {byStrength : Bool} {found : ℤ}
    {t : ScanTable} {fetch : ScanFetch}
    (parsed : parseScanResults q array longResultStr byStrength = some (found, t))
    (fetched : wpaWifiGetScanResults q reads array longResultStr slots arraySize byStrength =
      some fetch) (ok : fetch.ret = 0) :
    found ≠ -1 ∧ fetch.delivery = deliver t.listed arraySize ⟨slots, 0, []⟩ ∧
      fetch.apCount = some (deliver t.listed arraySize ⟨slots, 0, []⟩).realCount := by
  rw [wpaWifiGetScanResults, parsed] at fetched
  simp only [Option.bind_eq_bind, Option.bind_some, Option.pure_def] at fetched
  split_ifs at fetched with waiting failed
  · cases fetched
    cases ok
  · cases fetched
    cases ok
  · cases fetched
    exact ⟨failed, rfl, rfl⟩

theorem wpaWifiGetScanResults_received {q : Qsort ApInfo} {array : ℕ → ApInfo}
    {longResultStr : Bytes} {byStrength : Bool} {found : ℤ} {t : ScanTable}
    (parsed : parseScanResults q array longResultStr byStrength = some (found, t))
    (success : found ≠ -1) (slots : ℕ → ApSlot) (arraySize : ℕ) :
    let d := deliver t.listed arraySize ⟨slots, 0, []⟩
    wpaWifiGetScanResults q (fun _ => .resultsReceived) array longResultStr slots arraySize
      byStrength = some ⟨0, true, d, some d.realCount⟩ := by
  rw [wpaWifiGetScanResults, parsed]
  simp [success]

/-- For every reply, order and size of the caller's array: the scan is delivered if and only if the
reply lists no SSID, or its entries can be delivered. -/
theorem deliversScan_iff_deliverable {q : Qsort ApInfo} {array : ℕ → ApInfo} {longResultStr : Bytes}
    (plain : IsCString longResultStr) {byStrength : Bool} {found : ℤ} {t : ScanTable}
    (parsed : parseScanResults q array longResultStr byStrength = some (found, t)) {arraySize : ℕ}
    (positive : 1 ≤ arraySize) : DeliversScan array longResultStr arraySize byStrength ↔
      (∀ ap ∈ t.listed, ap.ssid = []) ∨ Deliverable t.listed arraySize byStrength := by
  obtain ⟨t₀, parses, fits, isFound⟩ := parseScanResults_parsed plain parsed
  obtain ⟨-, rfl⟩ := Prod.mk.inj (Option.some.inj (parsed.symm.trans (parses q)))
  have perm := q.perm (sortedBy byStrength) t₀.listed
  have same : (∀ ap ∈ t₀.listed, ap.ssid = []) ∨ Deliverable t₀.listed arraySize byStrength ↔
      (∀ ap ∈ q.sort (sortedBy byStrength) t₀.listed, ap.ssid = []) ∨
        Deliverable (q.sort (sortedBy byStrength) t₀.listed) arraySize byStrength := by
    simp only [perm.mem_iff]
    exact or_congr_right ⟨fun here => here.perm perm, fun here => here.perm perm.symm⟩
  rw [ScanTable.listed_sort, ← same, ← delivered_iff_deliverable fits positive]
  constructor
  · intro delivers q slots
    rcases isFound with count | ⟨-, empty⟩
    · have here := delivers q (fun _ => .resultsReceived) slots found _ _ (parses q)
        (wpaWifiGetScanResults_received (parses q) (by omega) slots arraySize) rfl
      rwa [ScanTable.listed_sort] at here
    · refine (delivered_iff_deliverable fits positive).mpr (.inl ?_) q slots
      simp [empty]
  · intro delivered q' reads slots found' t fetch parsed' fetched ok
    obtain ⟨-, rfl⟩ := Prod.mk.inj (Option.some.inj (parsed'.symm.trans (parses q')))
    obtain ⟨-, isDelivery, isCount⟩ := wpaWifiGetScanResults_parsed parsed' fetched ok
    rw [isDelivery, isCount, ScanTable.listed_sort]
    exact delivered q' slots

/-- `a`, `1`, `-5`, no flags and `n`. -/
def namedLine : ScanLine where
  __ := sampleLine
  ssid := [110]
  isSsid := ⟨by decide, by decide, by decide, by decide⟩

/-- The same SSID with a weaker signal. -/
def weakLine : ScanLine where
  __ := namedLine
  signalText := [45, 55]
  signal := -7
  isSignal := ⟨by decide, by decide, by decide, by decide⟩
  showsSignal := by decide

/-- An SSID twice and an empty one, for an array with room for all and for one that is full. -/
theorem deliversScan_iff_deliverable_named :
    DeliversScan (fun _ => namedLine.ap) (scanReply [sampleLine, weakLine, namedLine]) 4 true ∧
      ¬DeliversScan (fun _ => namedLine.ap) (scanReply [sampleLine, weakLine, namedLine]) 3 true := by
  obtain ⟨t, parsed, listed, -⟩ := parseScanResults_reply insertionQsort (fun _ => namedLine.ap)
    [sampleLine, weakLine, namedLine] true
  have perm : (t.sort insertionQsort true).listed.Perm [sampleLine.ap, weakLine.ap, namedLine.ap] := by
    rw [ScanTable.listed_sort, listed]
    exact insertionQsort.perm _ _
  constructor
  · rw [deliversScan_iff_deliverable (by decide) parsed (by decide)]
    refine .inr (Deliverable.perm ⟨by decide, ?_, ?_⟩ perm)
    · have short : ∀ ap ∈ [sampleLine.ap, weakLine.ap, namedLine.ap],
          ap.ssid.length < 63 ∧ ap.bssid.length < 63 := by decide
      exact fun ap member _ _ => short ap member
    · have near : ∀ a ∈ [sampleLine.ap, weakLine.ap, namedLine.ap],
          ∀ b ∈ [sampleLine.ap, weakLine.ap, namedLine.ap],
            a.signalStrength - b.signalStrength < 2 ^ 31 := by decide
      exact fun _ a inA b inB _ _ _ => ⟨⟨by decide, by decide⟩, near a inA b inB⟩
  · rw [deliversScan_iff_deliverable (by decide) parsed (by decide)]
    rintro (nameless | deliverable)
    · have named := nameless namedLine.ap (perm.mem_iff.mpr (by decide))
      exact absurd named (by decide)
    · have room := deliverable.room
      rw [perm.length_eq] at room
      exact absurd room (by decide)

/-- One access point, and room for one. -/
theorem not_deliversScan_full : ¬∀ array longResultStr arraySize byStrength,
    IsCString longResultStr → 1 ≤ arraySize →
      DeliversScan array longResultStr arraySize byStrength := by
  intro delivers
  obtain ⟨t, parsed, listed, -⟩ := parseScanResults_reply insertionQsort (fun _ => namedLine.ap)
    [namedLine] true
  have one : (t.sort insertionQsort true).listed = [namedLine.ap] := by
    rw [ScanTable.listed_sort, listed]
    rfl
  have success : (t.count : ℤ) ≠ -1 := by omega
  have here := delivers (fun _ => namedLine.ap) (scanReply [namedLine]) 1 true (by decide) le_rfl
    insertionQsort _ (fun _ => unterminated) _ _ _ parsed
    (wpaWifiGetScanResults_received parsed success _ 1) rfl
  have room := here.room le_rfl (one ▸ List.mem_singleton_self _) (by decide)
  rw [one] at room
  exact absurd room (by decide)

end AmlCommonlib.WpaWifi
