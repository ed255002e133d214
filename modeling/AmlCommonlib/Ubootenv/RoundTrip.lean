import AmlCommonlib.Ubootenv.Codec

/-! # Decoding what was encoded

The induction follows the printed entries. Two passes of the decoder consume one entry and leave
it in link mode, so the rest of the region is parsed behind the node just filled. What the encoder
leaves behind the last entry is either erased memory or one keyless two-character entry that it
refused to step over.
-/

namespace AmlCommonlib.Ubootenv

/-- All entries with their terminators, as they stand in the region. -/
def entries (nodes : List EnvKv) : Bytes := nodes.flatMap fun attr => entryText attr ++ [0]

@[simp] theorem entries_nil : entries [] = [] := rfl

@[simp] theorem entries_cons (attr : EnvKv) (rest : List EnvKv) :
    entries (attr :: rest) = entryText attr ++ 0 :: entries rest := by
  simp [entries, List.flatMap_cons]

/-! ### The encoder, entry by entry -/

/-- Entries already stepped over are never touched again. -/
theorem serializeLoop_shift (nodes : List EnvKv) (front region : Bytes) (offset : ℕ) :
    serializeLoop nodes (front ++ region) (front.length + offset) =
      (serializeLoop nodes region offset).map (front ++ ·) := by
  induction nodes generalizing region offset with
  | nil => rfl
  | cons attr rest ih =>
    have shifted (text : Bytes) : writeAt (front ++ region) (front.length + offset) text =
        front ++ writeAt region offset text := by
      simp only [writeAt, Nat.add_assoc, List.take_length_add_append, List.drop_length_add_append,
        List.append_assoc]
    have bound : front.length + offset + (entryText attr).length + 1 ≤ (front ++ region).length ↔
        offset + (entryText attr).length + 1 ≤ region.length := by
      simp only [List.length_append]
      omega
    simp only [serializeLoop, bound, shifted]
    split_ifs
    · exact ih _ _
    · rw [show front.length + offset + (entryText attr).length + 1 =
        front.length + (offset + (entryText attr).length + 1) by omega]
      exact ih _ _
    · rfl

/-- A short entry is printed but the next one starts at the same place. -/
theorem serializeLoop_short {attr : EnvKv} {region : Bytes} (short : (entryText attr).length < 3)
    (fits : (entryText attr).length + 1 ≤ region.length) (rest : List EnvKv) :
    serializeLoop (attr :: rest) region 0 =
      serializeLoop rest (entryText attr ++ 0 :: region.drop ((entryText attr).length + 1)) 0 := by
  simp [serializeLoop, fits, short, writeAt]

/-- Any other entry is stepped over with its terminator. -/
theorem serializeLoop_long {attr : EnvKv} {region : Bytes} (long : ¬(entryText attr).length < 3)
    (fits : (entryText attr).length + 1 ≤ region.length) (rest : List EnvKv) :
    serializeLoop (attr :: rest) region 0 =
      (serializeLoop rest (region.drop ((entryText attr).length + 1)) 0).map
        ((entryText attr ++ [0]) ++ ·) := by
  have step := serializeLoop_shift rest (entryText attr ++ [0])
    (region.drop ((entryText attr).length + 1)) 0
  simp only [List.length_append, List.length_singleton, Nat.add_zero, List.append_assoc,
    List.singleton_append] at step
  simpa [serializeLoop, fits, long, writeAt] using step

/-- When no entry is short, the region is the entries in order and erased memory behind them. -/
theorem serializeLoop_entries {nodes : List EnvKv} {room : ℕ}
    (long : ∀ attr ∈ nodes, ¬(entryText attr).length < 3)
    (fits : (entries nodes).length ≤ room) :
    serializeLoop nodes (List.replicate room 0) 0 =
      some (entries nodes ++ List.replicate (room - (entries nodes).length) 0) := by
  induction nodes generalizing room with
  | nil => simp [serializeLoop]
  | cons attr rest ih =>
    simp only [entries_cons, List.length_append, List.length_cons] at fits
    rw [serializeLoop_long (long attr (List.mem_cons_self ..)) (by simp; omega)]
    rw [List.drop_replicate, ih (fun a member => long a (List.mem_cons_of_mem _ member)) (by omega)]
    simp only [Option.map_some, entries_cons, List.append_assoc,
      List.length_append, List.length_cons, List.cons_append, List.nil_append]
    congr 5
    omega

/-! ### What stands behind the last entry -/

/-- Erased memory, or one keyless entry of two characters in front of it. -/
inductive Residue : Bytes → List EnvKv → Prop
  | erased (room : ℕ) : Residue (List.replicate room 0) []
  | keyless (x : UInt8) (nonzero : x ≠ 0) (room : ℕ) :
      Residue (61 :: x :: 0 :: List.replicate room 0) [⟨[], some [x]⟩]

theorem Residue.drop {region : Bytes} {extra : List EnvKv} (residue : Residue region extra)
    {n : ℕ} (past : 2 ≤ n) : ∃ room, region.drop n = List.replicate room 0 := by
  cases residue with
  | erased room => exact ⟨room - n, List.drop_replicate ..⟩
  | keyless x nonzero room =>
    obtain ⟨n, rfl⟩ := Nat.exists_eq_add_of_le past
    refine ⟨room + 1 - n, ?_⟩
    rw [Nat.add_comm, List.drop_succ_cons, List.drop_succ_cons, ← List.replicate_succ,
      List.drop_replicate]

/-- Only a keyless node with a one-byte value is printed short. -/
theorem Loadable.short {attr : EnvKv} (loadable : Loadable attr)
    (short : (entryText attr).length < 3) :
    ∃ x, x ≠ 0 ∧ attr.key = [] ∧ entryText attr = [61, x] := by
  obtain ⟨nonempty, plain, -⟩ := loadable.valueText
  have positive := List.length_pos_iff.mpr nonempty
  simp only [entryText, List.length_append, List.length_cons] at short
  obtain ⟨x, text⟩ := List.length_eq_one_iff.mp (show (Ubootenv.valueText attr.value).length = 1 by omega)
  have key : attr.key = [] := List.length_eq_zero_iff.mp (by omega)
  refine ⟨x, ?_, key, by simp [entryText, key, text]⟩
  rintro rfl
  exact plain (by simp [text])

/-- The entries the encoder steps over. -/
def kept (nodes : List EnvKv) : List EnvKv :=
  nodes.filter fun attr => ¬(entryText attr).length < 3

/-- The exact shape of the produced region for any list the process can hold. -/
theorem serializeLoop_kept {nodes : List EnvKv} {region out : Bytes} {extra : List EnvKv}
    (loadable : ∀ attr ∈ nodes, Loadable attr) (residue : Residue region extra)
    (written : serializeLoop nodes region 0 = some out) :
    out.length = region.length ∧
      ∃ behind rest, Residue behind rest ∧ out = entries (kept nodes) ++ behind := by
  induction nodes generalizing region out extra with
  | nil =>
    cases written
    exact ⟨rfl, region, extra, residue, rfl⟩
  | cons attr nodes ih =>
    have head := loadable attr (List.mem_cons_self ..)
    have tail := fun a member => loadable a (List.mem_cons_of_mem attr member)
    have fits : (entryText attr).length + 1 ≤ region.length := by
      by_contra tooLong
      simp only [serializeLoop, Nat.zero_add, tooLong, if_false, reduceCtorEq] at written
    by_cases short : (entryText attr).length < 3
    · rw [serializeLoop_short short fits] at written
      obtain ⟨x, nonzero, -, text⟩ := head.short short
      obtain ⟨room, cleared⟩ := residue.drop (n := (entryText attr).length + 1) (by simp [text])
      rw [cleared, text] at written
      obtain ⟨length, behind, rest, shape, split⟩ := ih tail (.keyless x nonzero room) written
      refine ⟨?_, behind, rest, shape, ?_⟩
      · have total := congrArg List.length cleared
        simp only [List.length_drop, List.length_replicate, text, List.length_cons,
          List.length_nil] at total fits
        simp only [length, List.length_cons, List.length_replicate]
        omega
      · simpa only [kept, List.filter_cons, short, not_true_eq_false, decide_false,
          Bool.false_eq_true, if_false] using split
    · rw [serializeLoop_long short fits] at written
      obtain ⟨inner, produced, rfl⟩ := Option.map_eq_some_iff.mp written
      obtain ⟨room, cleared⟩ := residue.drop (n := (entryText attr).length + 1) (by omega)
      rw [cleared] at produced
      obtain ⟨length, behind, rest, shape, split⟩ := ih tail (.erased room) produced
      refine ⟨?_, behind, rest, shape, ?_⟩
      · have total := congrArg List.length cleared
        simp only [List.length_drop, List.length_replicate] at total length
        simp only [List.length_append, length, List.length_cons, List.length_nil]
        omega
      · simp only [kept, List.filter_cons, short, not_false_eq_true, decide_true, if_true,
          entries_cons, split, List.append_assoc, List.cons_append, List.nil_append]

/-! ### The decoder, entry by entry -/

/-- The key pass over a complete entry stops in front of its value. -/
theorem parsePass_key {attr node : EnvKv} (loadable : Loadable attr) (rest : Bytes) :
    parsePass node true (entryText attr ++ 0 :: rest) =
      .ok (.more { node with key := attr.key } false false (valueText attr.value ++ 0 :: rest)) := by
  obtain ⟨-, plain, -⟩ := loadable.valueText
  have text : IsCString (entryText attr) :=
    loadable.key_plain.append fun member => by
      rcases List.mem_cons.mp member with zero | member
      · exact absurd zero (by decide)
      · exact plain member
  have bound := loadable.key_length
  have cut : snprintf (min (attr.key.length + 1) 256) (entryText attr) = attr.key := by
    rw [snprintf, min_eq_left (by omega), Nat.add_sub_cancel, entryText, List.take_left]
  have past : (entryText attr ++ 0 :: rest).drop (attr.key.length + 1) =
      valueText attr.value ++ 0 :: rest := by
    rw [entryText, List.append_assoc, List.drop_length_add_append]
    rfl
  have found : strchr (entryText attr) 61 = some attr.key.length :=
    strchr_separator (by decide) loadable.key_separator _
  simp only [parsePass, cstring?_terminated text, if_true, found, cut, past]

/-- The value pass over a terminated value stops behind its terminator. -/
theorem parsePass_value {node : EnvKv} {v : Bytes} (plain : IsCString v) (bound : v.length ≤ 4095)
    (rest : Bytes) :
    parsePass node false (v ++ 0 :: rest) =
      .ok (.more { node with value := some v } true true rest) := by
  have cut : snprintf (min (v.length + 1) 4096) v = v := by
    rw [snprintf, min_eq_left (by omega), Nat.add_sub_cancel, List.take_length]
  have past : (v ++ 0 :: rest).drop (v.length + 1) = rest := by
    rw [List.drop_length_add_append]
    rfl
  simp only [parsePass, cstring?_terminated plain, Bool.false_eq_true, if_false, strchr_zero, cut,
    past]

/-- The loop does not stop here: the byte is not a terminator. -/
def Live (ptr : Bytes) : Prop := ∃ c rest, ptr = c :: rest ∧ c ≠ 0

theorem live_append {s : Bytes} (nonempty : s ≠ []) (plain : IsCString s) (rest : Bytes) :
    Live (s ++ rest) := by
  cases s with
  | nil => contradiction
  | cons c s => exact ⟨c, s ++ rest, rfl, fun zero => plain (zero ▸ List.mem_cons_self ..)⟩

theorem live_entryText {attr : EnvKv} (loadable : Loadable attr) (rest : Bytes) :
    Live (entryText attr ++ rest) := by
  cases key : attr.key with
  | nil => exact ⟨61, valueText attr.value ++ rest, by simp [entryText, key], by decide⟩
  | cons c k =>
    have live := live_append (by simp [key]) loadable.key_plain (61 :: valueText attr.value ++ rest)
    simpa [entryText, key] using live

theorem parseLoop_here {ptr rest : Bytes} (live : Live ptr) {attr node : EnvKv}
    {bprocKey key' next' : Bool} (pass : parsePass attr bprocKey ptr = .ok (.more node key' next' rest))
    (fuel : ℕ) (next : List EnvKv) :
    parseLoop (fuel + 1) attr next bprocKey false ptr = parseLoop fuel node next key' next' rest := by
  obtain ⟨c, ptr, rfl, nonzero⟩ := live
  simp only [parseLoop, nonzero, if_false, Bool.false_eq_true, pass]

theorem parseLoop_linked {ptr rest : Bytes} (live : Live ptr) {node : EnvKv}
    {bprocKey key' next' : Bool}
    (pass : parsePass .fresh bprocKey ptr = .ok (.more node key' next' rest))
    (fuel : ℕ) (attr : EnvKv) (next : List EnvKv) :
    parseLoop (fuel + 1) attr next bprocKey true ptr =
      (parseLoop fuel node [] key' next' rest).map fun l => ⟨attr, l.nodes⟩ := by
  obtain ⟨c, ptr, rfl, nonzero⟩ := live
  simp only [parseLoop, nonzero, if_false, if_true, pass]

/-- Two passes read one entry into the node at hand. -/
theorem parseLoop_entry {attr : EnvKv} (loadable : Loadable attr) (fuel : ℕ) (node : EnvKv)
    (next : List EnvKv) (rest : Bytes) :
    parseLoop (fuel + 2) node next true false (entryText attr ++ 0 :: rest) =
      parseLoop fuel (printed attr) next true true rest := by
  obtain ⟨nonempty, plain, bound⟩ := loadable.valueText
  rw [parseLoop_here (live_entryText loadable _) (parsePass_key loadable rest),
    parseLoop_here (live_append nonempty plain _) (parsePass_value plain bound rest)]
  rfl

/-- In link mode the entry goes to a new node behind the one at hand. -/
theorem parseLoop_entry_linked {attr : EnvKv} (loadable : Loadable attr) (fuel : ℕ) (node : EnvKv)
    (next : List EnvKv) (rest : Bytes) :
    parseLoop (fuel + 2) node next true true (entryText attr ++ 0 :: rest) =
      (parseLoop fuel (printed attr) [] true true rest).map fun l => ⟨node, l.nodes⟩ := by
  obtain ⟨nonempty, plain, bound⟩ := loadable.valueText
  rw [parseLoop_linked (live_entryText loadable _) (parsePass_key loadable rest),
    parseLoop_here (live_append nonempty plain _) (parsePass_value plain bound rest)]
  rfl

/-- Erased memory ends the loop wherever it is met. -/
theorem parseLoop_erased (fuel : ℕ) (attr : EnvKv) (next : List EnvKv) (bprocKey bprocNext : Bool)
    (room : ℕ) :
    parseLoop (fuel + 1) attr next bprocKey bprocNext (List.replicate room 0) =
      .ok ⟨attr, next⟩ := by
  cases room with
  | zero => rfl
  | succ room => simp only [List.replicate_succ, parseLoop, if_true]

/-- Successors after parsing `parsed` nodes behind a node whose old successors are `old`. -/
def relink (old parsed : List EnvKv) : List EnvKv := if parsed = [] then old else parsed

theorem parseLoop_residue {behind : Bytes} {extra : List EnvKv} (residue : Residue behind extra)
    {fuel : ℕ} (enough : behind.length < fuel) (attr : EnvKv) (next : List EnvKv) :
    parseLoop fuel attr next true true behind = .ok ⟨attr, relink next extra⟩ := by
  cases residue with
  | erased room =>
    obtain ⟨fuel, rfl⟩ := Nat.exists_eq_succ_of_ne_zero (show fuel ≠ 0 by omega)
    exact parseLoop_erased fuel attr next true true room
  | keyless x nonzero room =>
    simp only [List.length_cons, List.length_replicate] at enough
    obtain ⟨fuel, rfl⟩ := Nat.exists_eq_add_of_le (show 3 ≤ fuel by omega)
    have loadable : Loadable ⟨[], some [x]⟩ :=
      ⟨by simp, by simp [IsCString], by simp, by
        rintro v equal
        cases equal
        exact ⟨by simp, by simpa [IsCString] using Ne.symm nonzero, by simp⟩⟩
    have step := parseLoop_entry_linked loadable (fuel + 1) attr next (List.replicate room 0)
    rw [parseLoop_erased] at step
    rw [show 3 + fuel = fuel + 1 + 2 by omega]
    exact step

theorem entries_length_pos (attr : EnvKv) : 2 ≤ (entryText attr ++ [0]).length := by
  simp only [entryText, List.length_append, List.length_cons]
  omega

/-- In link mode all entries are parsed, in order, behind the node at hand. -/
theorem parseLoop_entries {nodes : List EnvKv} (loadable : ∀ attr ∈ nodes, Loadable attr)
    {behind : Bytes} {extra : List EnvKv} (residue : Residue behind extra) {fuel : ℕ}
    (enough : (entries nodes ++ behind).length < fuel) (attr : EnvKv) (next : List EnvKv) :
    parseLoop fuel attr next true true (entries nodes ++ behind) =
      .ok ⟨attr, relink next (nodes.map printed ++ extra)⟩ := by
  induction nodes generalizing fuel attr next with
  | nil => exact parseLoop_residue residue enough attr next
  | cons head rest ih =>
    have length := entries_length_pos head
    simp only [entries_cons, List.append_assoc, List.cons_append, List.length_append,
      List.length_cons, List.length_nil] at enough length ⊢
    obtain ⟨fuel, rfl⟩ := Nat.exists_eq_add_of_le (show 2 ≤ fuel by omega)
    rw [Nat.add_comm 2 fuel, parseLoop_entry_linked (loadable head (List.mem_cons_self ..)),
      ih (fun a member => loadable a (List.mem_cons_of_mem _ member))
        (by simp only [List.length_append]; omega)]
    simp only [Except.map, relink, KvList.nodes_mk, List.map_cons, List.cons_append, reduceCtorEq,
      if_false]
    by_cases none : rest.map printed ++ extra = []
    · simp only [none, if_true]
    · simp only [none, if_false]

/-- Parsing a region that starts with an entry overwrites the header and, when anything follows,
its successors. -/
theorem envParseKv_entries {attr : EnvKv} {nodes : List EnvKv}
    (loadable : ∀ a ∈ attr :: nodes, Loadable a) {behind : Bytes} {extra : List EnvKv}
    (residue : Residue behind extra) (start : KvList) :
    envParseKv start (entries (attr :: nodes) ++ behind) =
      .ok ⟨printed attr, relink start.next (nodes.map printed ++ extra)⟩ := by
  have length := entries_length_pos attr
  have enough : (entries nodes ++ behind).length + 2 ≤ (entries (attr :: nodes) ++ behind).length := by
    simp only [entries_cons, List.append_assoc, List.cons_append, List.length_append,
      List.length_cons, List.length_nil] at length ⊢
    omega
  rw [envParseKv]
  obtain ⟨fuel, equal⟩ := Nat.exists_eq_add_of_le enough
  rw [show (entries (attr :: nodes) ++ behind).length + 1 =
    (entries nodes ++ behind).length + fuel + 1 + 2 by omega]
  rw [entries_cons, List.append_assoc, List.cons_append,
    parseLoop_entry (loadable attr (List.mem_cons_self ..))]
  exact parseLoop_entries (fun a member => loadable a (List.mem_cons_of_mem _ member)) residue
    (by omega) _ _

/-! ### The codec law -/

/-- The variables the law ranges over: a proper key and a value that is present, possibly empty. -/
structure IsVariable (attr : EnvKv) : Prop where
  key_nonempty : attr.key ≠ []
  key_length : attr.key.length ≤ 255
  key_plain : IsCString attr.key
  key_separator : 61 ∉ attr.key
  value_text : ∃ v, attr.value = some v ∧ IsCString v ∧ v.length ≤ 4095

/-- Encoding and decoding again, from an empty list, rebuilds the list. -/
def RoundTrips (size : ℕ) (l : KvList) : Prop :=
  ∃ data, envSerializeData size l = some data ∧ envParseKv .empty data = .ok l

theorem IsVariable.loadable {attr : EnvKv} (proper : IsVariable attr)
    (nonempty : attr.value ≠ some []) : Loadable attr where
  key_length := proper.key_length
  key_plain := proper.key_plain
  key_separator := proper.key_separator
  value_text := by
    intro v equal
    obtain ⟨w, stored, plain, length⟩ := proper.value_text
    obtain rfl : w = v := Option.some.inj (stored.symm.trans equal)
    exact ⟨fun empty => nonempty (empty ▸ equal), plain, length⟩

theorem IsVariable.printed {attr : EnvKv} (proper : IsVariable attr) : printed attr = attr := by
  obtain ⟨v, stored, -⟩ := proper.value_text
  cases attr
  cases stored
  rfl

theorem IsVariable.long {attr : EnvKv} (proper : IsVariable attr)
    (nonempty : attr.value ≠ some []) : ¬(entryText attr).length < 3 := by
  have key := List.length_pos_iff.mpr proper.key_nonempty
  have value := List.length_pos_iff.mpr (proper.loadable nonempty).valueText.1
  simp only [entryText, List.length_append, List.length_cons]
  omega

/-- The law holds exactly for the lists without an empty value: the decoder takes the terminator of
an empty value for the end of the environment. -/
theorem roundTrips_iff {size : ℕ} {l : KvList} (proper : ∀ attr ∈ l.nodes, IsVariable attr)
    (fits : (entries l.nodes).length + 1 ≤ size) :
    RoundTrips size l ↔ ∀ attr ∈ l.nodes, attr.value ≠ some [] := by
  constructor
  · rintro ⟨data, -, parsed⟩ attr member empty
    have loadable := @envParseKv_loadable .empty _ _
      (by simpa [KvList.nodes, KvList.empty] using Loadable.fresh) parsed attr member
    exact (loadable.value_text [] empty).1 rfl
  · intro nonempty
    have loadable := fun attr member => (proper attr member).loadable (nonempty attr member)
    refine ⟨_, serializeLoop_entries
      (fun attr member => (proper attr member).long (nonempty attr member)) (by omega), ?_⟩
    have parsed := envParseKv_entries loadable
      (.erased (size - (entries l.nodes).length)) .empty
    have same : l.next.map printed = l.next := by
      rw [List.map_congr_left fun attr member => (proper attr (List.mem_cons_of_mem _ member)).printed,
        List.map_id']
    rw [(proper l.header (List.mem_cons_self ..)).printed, same, List.append_nil] at parsed
    apply parsed.trans
    cases l with
    | mk header next => cases next <;> rfl

/-- The law for the two variables `ab=x` and `c=d`. -/
theorem roundTrips_iff_pair :
    RoundTrips 16 ⟨⟨[97, 98], some [120]⟩, [⟨[99], some [100]⟩]⟩ ↔
      ∀ attr ∈ (KvList.mk ⟨[97, 98], some [120]⟩ [⟨[99], some [100]⟩]).nodes, attr.value ≠ some [] := by
  refine roundTrips_iff (?_) (by decide)
  intro attr member
  simp only [KvList.nodes_mk, List.mem_cons, List.not_mem_nil, or_false] at member
  rcases member with rfl | rfl
  · exact ⟨by decide, by decide, by decide, by decide, _, rfl, by decide, by decide⟩
  · exact ⟨by decide, by decide, by decide, by decide, _, rfl, by decide, by decide⟩

/-- With `ab=` in front, the decoder loses both the empty value and the variable `c=d` behind it. -/
theorem not_roundTrips_empty_value :
    (∀ attr ∈ (KvList.mk ⟨[97, 98], some []⟩ [⟨[99], some [100]⟩]).nodes, IsVariable attr) ∧
      (entries (KvList.mk ⟨[97, 98], some []⟩ [⟨[99], some [100]⟩]).nodes).length + 1 ≤ 16 ∧
      ¬RoundTrips 16 ⟨⟨[97, 98], some []⟩, [⟨[99], some [100]⟩]⟩ := by
  refine ⟨?_, by decide, ?_⟩
  · intro attr member
    simp only [KvList.nodes_mk, List.mem_cons, List.not_mem_nil, or_false] at member
    rcases member with rfl | rfl
    · exact ⟨by decide, by decide, by decide, by decide, _, rfl, by decide, by decide⟩
    · exact ⟨by decide, by decide, by decide, by decide, _, rfl, by decide, by decide⟩
  · rintro ⟨data, written, parsed⟩
    obtain rfl : [97, 98, 61, 0, 99, 61, 100, 0, 0, 0, 0, 0, 0, 0, 0, 0] = data :=
      Option.some.inj written
    have lost : envParseKv .empty [97, 98, 61, 0, 99, 61, 100, 0, 0, 0, 0, 0, 0, 0, 0, 0] =
        .ok ⟨⟨[97, 98], none⟩, []⟩ := rfl
    exact absurd (lost.symm.trans parsed) (by simp)

end AmlCommonlib.Ubootenv
