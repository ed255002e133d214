import AmlCommonlib.Ubootenv.RoundTrip

/-! # Staying inside the data region

The decoder looks for a terminator without looking at the end of the region: it runs off the end
exactly when it arrives at text that has no terminator. The encoder adds up the lengths of what it
prints without looking at the end either.
-/

namespace AmlCommonlib.Ubootenv

/-- What `bootenv_update` does to the list: an unchanged value is not stored. -/
def bootenvUpdateKv (l : KvList) (name value : Bytes) : KvList :=
  if value = (bootenvGetValue l name).getD [] then l else bootenvSetValue l name value

/-- The lists a process can hold: loaded from any region, then updated any number of times. -/
inductive Held : KvList → Prop
  | start : Held .empty
  | load {l l' : KvList} {data : Bytes} (held : Held l)
      (parsed : envParseKv (envReleaseKv l) data = .ok l') : Held l'
  | update {l : KvList} {name value : Bytes} (held : Held l) (name_plain : IsCString name)
      (value_plain : IsCString value) : Held (bootenvUpdateKv l name value)

/-- An update never touches the key of the header. -/
theorem bootenvUpdateKv_header (l : KvList) (name value : Bytes) :
    (bootenvUpdateKv l name value).header.key = l.header.key := by
  rw [bootenvUpdateKv]
  split_ifs
  · rfl
  · simp only [bootenvSetValue, KvList.nodes, assign]
    split_ifs <;> rfl

theorem envReleaseKv_loadable {l : KvList} (header : Loadable ⟨l.header.key, none⟩) :
    ∀ a ∈ (envReleaseKv l).nodes, Loadable a := by
  intro a member
  rw [List.mem_singleton.mp member]
  exact header

theorem Held.header {l : KvList} (held : Held l) : Loadable ⟨l.header.key, none⟩ := by
  induction held with
  | start => exact .fresh
  | load _ parsed ih =>
    have header := envParseKv_loadable (envReleaseKv_loadable ih) parsed _ (List.mem_cons_self ..)
    exact ⟨header.key_length, header.key_plain, header.key_separator, by simp⟩
  | update _ _ _ ih => exact (bootenvUpdateKv_header ..).symm ▸ ih

/-! ### The decoder -/

/-- A node whose strings are terminated inside `key[256]` and the 4096 bytes of a value. -/
structure InFields (attr : EnvKv) : Prop where
  key_length : attr.key.length ≤ 255
  key_plain : IsCString attr.key
  value_text : ∀ v, attr.value = some v → IsCString v ∧ v.length ≤ 4095

/-- The decoder ends without a read outside the region, and with strings that fit. -/
def ParsesSafely (start : KvList) (data : Bytes) : Prop :=
  ∃ l, envParseKv start data = .ok l ∧ ∀ a ∈ l.nodes, InFields a

/-- `key=value` with a value; the decoder goes on behind it. -/
def IsEntry (s : Bytes) : Prop := IsCString s ∧ ∃ k v, s = k ++ 61 :: v ∧ 61 ∉ k ∧ v ≠ []

/-- Nothing but terminated entries stands in front of text that has no terminator. -/
def RunsOff (data : Bytes) : Prop :=
  ∃ (es : List Bytes) (tail : Bytes), data = es.flatMap (· ++ [0]) ++ tail ∧
    (∀ e ∈ es, IsEntry e) ∧ IsCString tail ∧ tail ≠ []

theorem runsOff_of_plain {data : Bytes} (plain : IsCString data) (nonempty : data ≠ []) :
    RunsOff data := ⟨[], data, rfl, by simp, plain, nonempty⟩

theorem not_runsOff_nil : ¬RunsOff [] := by
  rintro ⟨es, tail, whole, -, -, nonempty⟩
  exact nonempty (List.append_eq_nil_iff.mp whole.symm).2

/-- The first separator cuts a block in one way only. -/
theorem cut_inj {c : UInt8} {s t rest rest' : Bytes} (absent : c ∉ s) (absent' : c ∉ t)
    (same : s ++ c :: rest = t ++ c :: rest') : s = t ∧ rest = rest' := by
  induction s generalizing t with
  | nil =>
    cases t with
    | nil => exact ⟨rfl, (List.cons.inj same).2⟩
    | cons b t => exact absurd ((List.cons.inj same).1 ▸ List.mem_cons_self ..) absent'
  | cons a s ih =>
    cases t with
    | nil => exact absurd ((List.cons.inj same).1 ▸ List.mem_cons_self ..) absent
    | cons b t =>
      obtain ⟨rfl, later⟩ := List.cons.inj same
      obtain ⟨rfl, rfl⟩ := ih (fun member => absent (List.mem_cons_of_mem _ member))
        (fun member => absent' (List.mem_cons_of_mem _ member)) later
      exact ⟨rfl, rfl⟩

theorem not_isEntry_of_absent {s : Bytes} (absent : 61 ∉ s) : ¬IsEntry s := by
  rintro ⟨-, k, v, rfl, -⟩
  exact absent (by simp)

theorem isEntry_iff {k v : Bytes} (plain : IsCString (k ++ 61 :: v)) (absent : 61 ∉ k) :
    IsEntry (k ++ 61 :: v) ↔ v ≠ [] := by
  constructor
  · rintro ⟨-, k', v', same, absent', nonempty⟩
    obtain ⟨-, rfl⟩ := cut_inj absent absent' same
    exact nonempty
  · intro nonempty
    exact ⟨plain, k, v, rfl, absent, nonempty⟩

theorem runsOff_terminated {s : Bytes} (plain : IsCString s) (rest : Bytes) :
    RunsOff (s ++ 0 :: rest) ↔ IsEntry s ∧ RunsOff rest := by
  constructor
  · rintro ⟨es, tail, whole, entries, tail_plain, nonempty⟩
    cases es with
    | nil =>
      rw [List.flatMap_nil, List.nil_append] at whole
      exact absurd (by simp [← whole]) tail_plain
    | cons e es =>
      have entry := entries e (List.mem_cons_self ..)
      simp only [List.flatMap_cons, List.append_assoc, List.singleton_append] at whole
      obtain ⟨rfl, rfl⟩ := cut_inj plain entry.1 whole
      exact ⟨entry, es, tail, rfl, fun e member => entries e (List.mem_cons_of_mem _ member),
        tail_plain, nonempty⟩
  · rintro ⟨entry, es, tail, rfl, entries, tail_plain, nonempty⟩
    refine ⟨s :: es, tail, by simp, ?_, tail_plain, nonempty⟩
    intro e member
    rcases List.mem_cons.mp member with rfl | later
    · exact entry
    · exact entries e later

/-- A block is unterminated, or cut at its first terminator. -/
theorem plain_or_terminated (data : Bytes) :
    IsCString data ∨ ∃ s rest, IsCString s ∧ data = s ++ 0 :: rest := by
  by_cases plain : IsCString data
  · exact .inl plain
  · right
    obtain ⟨s, rest, whole, absent⟩ := List.eq_append_cons_of_mem (not_not.mp plain)
    exact ⟨s, rest, absent, whole⟩

theorem parsePass_plain {data : Bytes} (plain : IsCString data) (attr : EnvKv) (bprocKey : Bool) :
    parsePass attr bprocKey data = .error .overread := by
  have runs : cstring? data = none := if_neg plain
  rw [parsePass, runs]

theorem parsePass_stop {s : Bytes} (plain : IsCString s) (absent : 61 ∉ s) (attr : EnvKv)
    (rest : Bytes) : parsePass attr true (s ++ 0 :: rest) = .ok .stop := by
  have missing : strchr s 61 = none := by
    rw [strchr, if_neg (by decide)]
    exact List.idxOf?_eq_none_iff.mpr absent
  simp only [parsePass, cstring?_terminated plain, if_true, missing]

theorem parsePass_separator {k v : Bytes} (plain : IsCString (k ++ 61 :: v)) (absent : 61 ∉ k)
    (attr : EnvKv) (rest : Bytes) :
    ∃ node, parsePass attr true (k ++ 61 :: v ++ 0 :: rest) =
      .ok (.more node false false (v ++ 0 :: rest)) := by
  have past : (k ++ 61 :: v ++ 0 :: rest).drop (k.length + 1) = v ++ 0 :: rest := by
    rw [List.append_assoc, List.drop_length_add_append]
    rfl
  have found : strchr (k ++ 61 :: v) 61 = some k.length := strchr_separator (by decide) absent v
  refine ⟨{ attr with key := snprintf (min (k.length + 1) 256) (k ++ 61 :: v) }, ?_⟩
  simp only [parsePass, cstring?_terminated plain, if_true, found, past]

theorem parsePass_terminated {v : Bytes} (plain : IsCString v) (attr : EnvKv) (rest : Bytes) :
    ∃ node, parsePass attr false (v ++ 0 :: rest) = .ok (.more node true true rest) := by
  have past : (v ++ 0 :: rest).drop (v.length + 1) = rest := by
    rw [List.drop_length_add_append]
    rfl
  refine ⟨{ attr with value := some (snprintf (min (v.length + 1) 4096) v) }, ?_⟩
  simp only [parsePass, cstring?_terminated plain, Bool.false_eq_true, if_false, strchr_zero, past]

theorem parseLoop_zero (fuel : ℕ) (attr : EnvKv) (next : List EnvKv) (bprocKey bprocNext : Bool)
    (rest : Bytes) :
    parseLoop (fuel + 1) attr next bprocKey bprocNext (0 :: rest) = .ok ⟨attr, next⟩ := by
  simp only [parseLoop, if_true]

theorem exists_map_ok {ε α β : Type*} {f : α → β} {x : Except ε α} :
    (∃ b, x.map f = .ok b) ↔ ∃ a, x = .ok a := by
  cases x <;> simp [Except.map]

/-- The first pass over text that is no terminator, whether or not it links a node. -/
theorem parseLoop_pass {fuel : ℕ} {ptr rest : Bytes} (live : Live ptr) {bprocKey key' next' : Bool}
    (pass : ∀ attr, ∃ node, parsePass attr bprocKey ptr = .ok (.more node key' next' rest))
    (attr : EnvKv) (next : List EnvKv) (bprocNext : Bool) :
    ∃ node old, (∃ l, parseLoop (fuel + 1) attr next bprocKey bprocNext ptr = .ok l) ↔
      ∃ l, parseLoop fuel node old key' next' rest = .ok l := by
  cases bprocNext with
  | true =>
    obtain ⟨node, done⟩ := pass .fresh
    exact ⟨node, [], parseLoop_linked live done fuel attr next ▸ exists_map_ok⟩
  | false =>
    obtain ⟨node, done⟩ := pass attr
    exact ⟨node, next, parseLoop_here live done fuel next ▸ Iff.rfl⟩

/-- In key mode the loop ends without fault exactly on the blocks that do not run off. -/
theorem parseLoop_ok_iff {fuel : ℕ} {data : Bytes} (enough : data.length < fuel) (attr : EnvKv)
    (next : List EnvKv) (bprocNext : Bool) :
    (∃ l, parseLoop fuel attr next true bprocNext data = .ok l) ↔ ¬RunsOff data := by
  induction fuel using Nat.strong_induction_on generalizing data attr next bprocNext with
  | _ fuel ih =>
    obtain ⟨fuel, rfl⟩ := Nat.exists_eq_succ_of_ne_zero (show fuel ≠ 0 by omega)
    rcases plain_or_terminated data with plain | ⟨s, rest, plain, rfl⟩
    · by_cases empty : data = []
      · subst empty
        exact ⟨fun _ => not_runsOff_nil, fun _ => ⟨_, rfl⟩⟩
      · obtain ⟨c, ptr, rfl, nonzero⟩ := List.append_nil data ▸ live_append empty plain []
        have fault : ∀ l, parseLoop (fuel + 1) attr next true bprocNext (c :: ptr) ≠ .ok l := by
          intro l
          cases bprocNext <;>
            simp [parseLoop, nonzero, parsePass_plain plain]
        simp only [fault, exists_false, false_iff, not_not]
        exact runsOff_of_plain plain empty
    · rw [runsOff_terminated plain]
      by_cases empty : s = []
      · subst empty
        have ends := parseLoop_zero fuel attr next true bprocNext rest
        exact ⟨fun _ off => not_isEntry_of_absent (by simp) off.1, fun _ => ⟨_, ends⟩⟩
      have live := live_append empty plain (0 :: rest)
      by_cases separator : 61 ∈ s
      · obtain ⟨k, v, rfl, absent⟩ := List.eq_append_cons_of_mem separator
        obtain ⟨node, old, first⟩ :=
          parseLoop_pass live (fun attr => parsePass_separator plain absent attr rest) attr next
            bprocNext
        rw [first, isEntry_iff plain absent]
        simp only [List.length_append, List.length_cons] at enough
        obtain ⟨fuel, rfl⟩ := Nat.exists_eq_succ_of_ne_zero (show fuel ≠ 0 by omega)
        have value : IsCString v := fun member => plain (by simp [member])
        by_cases missing : v = []
        · subst missing
          exact ⟨fun _ off => off.1 rfl, fun _ => ⟨_, parseLoop_zero fuel node old false false rest⟩⟩
        · obtain ⟨node', old', second⟩ :=
            parseLoop_pass (live_append missing value (0 :: rest))
              (fun attr => parsePass_terminated value attr rest) node old false
          rw [second, ih fuel (by omega) (by omega)]
          exact ⟨fun on off => on off.2, fun on off => on ⟨missing, off⟩⟩
      · have ends : ∃ l, parseLoop (fuel + 1) attr next true bprocNext (s ++ 0 :: rest) = .ok l := by
          obtain ⟨c, ptr, same, nonzero⟩ := live
          rw [same]
          cases bprocNext <;>
            simp [parseLoop, nonzero, ← same, parsePass_stop plain separator]
        exact ⟨fun _ off => not_isEntry_of_absent separator off.1, fun _ => ends⟩

theorem Loadable.inFields {attr : EnvKv} (loadable : Loadable attr) : InFields attr :=
  ⟨loadable.key_length, loadable.key_plain, fun v stored => (loadable.value_text v stored).2⟩

/-- On every region, from every list a process can hold, the decoder is safe exactly if it does not
arrive at text without terminator. -/
theorem parsesSafely_iff {l : KvList} (held : Held l) (data : Bytes) :
    ParsesSafely (envReleaseKv l) data ↔ ¬RunsOff data := by
  rw [← parseLoop_ok_iff (Nat.lt_succ_self data.length) (envReleaseKv l).header []]
  constructor
  · rintro ⟨l', parsed, -⟩
    exact ⟨l', parsed⟩
  · rintro ⟨l', parsed⟩
    refine ⟨l', parsed, ?_⟩
    intro a member
    exact (envParseKv_loadable (envReleaseKv_loadable held.header) parsed a member).inFields

/-- After `a=1` the decoder stops on the terminator. -/
theorem parsesSafely_iff_sample : ParsesSafely (envReleaseKv .empty) [97, 61, 49, 0, 0] := by
  apply (parsesSafely_iff .start _).mpr
  intro off
  have rest := ((runsOff_terminated (by decide : IsCString [97, 61, 49]) [0]).mp off).2
  exact not_isEntry_of_absent (by simp) ((runsOff_terminated (by decide : IsCString []) []).mp rest).1

theorem not_parsesSafely_of_plain (start : KvList) {data : Bytes} (plain : IsCString data)
    (nonempty : data ≠ []) : ¬ParsesSafely start data := by
  rintro ⟨l, parsed, -⟩
  exact (parseLoop_ok_iff (Nat.lt_succ_self _) _ _ _).mp ⟨l, parsed⟩
    (runsOff_of_plain plain nonempty)

/-- A full region of `a` is read past its end. -/
theorem not_parsesSafely_unterminated :
    ¬ParsesSafely (envReleaseKv .empty) (List.replicate 65532 97) := by
  apply not_parsesSafely_of_plain
  · intro member
    exact absurd (List.eq_of_mem_replicate member) (by decide)
  · apply List.ne_nil_of_length_pos
    rw [List.length_replicate]
    decide

/-! ### The encoder -/

/-- How far the next entry starts behind an entry: a short one is not stepped over. -/
def stride (attr : EnvKv) : ℕ :=
  if (entryText attr).length < 3 then 0 else (entryText attr).length + 1

/-- The bytes the encoder touches. -/
def extent : List EnvKv → ℕ
  | [] => 0
  | attr :: rest => max ((entryText attr).length + 1) (stride attr + extent rest)

/-- The end of the entry printed last, with its terminator. -/
def lastEnd : List EnvKv → ℕ
  | [] => 0
  | [attr] => (entryText attr).length + 1
  | attr :: rest => stride attr + lastEnd rest

theorem lastEnd_cons (attr next : EnvKv) (rest : List EnvKv) :
    lastEnd (attr :: next :: rest) = stride attr + lastEnd (next :: rest) := rfl

/-- Every byte is written inside the region, which still ends in an empty entry. -/
def SerializesInside (size : ℕ) (l : KvList) : Prop :=
  ∃ region, envSerializeData size l = some region ∧ [0, 0] <:+ region

/-- The writes stay inside exactly if the bytes touched fit. -/
theorem serializeLoop_isSome_iff (nodes : List EnvKv) (region : Bytes) :
    (serializeLoop nodes region 0).isSome ↔ extent nodes ≤ region.length := by
  induction nodes generalizing region with
  | nil => simp [serializeLoop, extent]
  | cons attr rest ih =>
    by_cases fits : (entryText attr).length + 1 ≤ region.length
    · by_cases short : (entryText attr).length < 3
      · rw [serializeLoop_short short fits, ih]
        simp only [extent, stride, short, if_true, List.length_append, List.length_cons,
          List.length_drop]
        omega
      · rw [serializeLoop_long short fits, Option.isSome_map, ih]
        simp only [extent, stride, short, if_false, List.length_drop]
        omega
    · have stuck : serializeLoop (attr :: rest) region 0 = none := by
        simp only [serializeLoop, Nat.zero_add, fits, if_false]
      rw [stuck, extent]
      exact ⟨fun found => absurd found (by simp), fun bound => by omega⟩

/-- The strings of a node have no terminator inside. -/
structure Plain (attr : EnvKv) : Prop where
  key : IsCString attr.key
  value : ∀ v, attr.value = some v → IsCString v

theorem Plain.text {attr : EnvKv} (plain : Plain attr) : IsCString (entryText attr) := by
  have value : IsCString (valueText attr.value) := by
    cases stored : attr.value with
    | none => decide
    | some v => exact plain.value v stored
  apply plain.key.append
  intro member
  rcases List.mem_cons.mp member with zero | member
  · exact absurd zero (by decide)
  · exact value member

theorem entryText_length_pos (attr : EnvKv) : 1 ≤ (entryText attr).length := by
  simp only [entryText, List.length_append, List.length_cons]
  omega

/-- All is erased from the third byte on, as behind one short entry. -/
def Erased (region : Bytes) : Prop := ∀ b ∈ region.drop 2, b = 0

theorem Erased.drop {region : Bytes} (erased : Erased region) {n : ℕ} (past : 2 ≤ n) :
    region.drop n = List.replicate (region.length - n) 0 := by
  apply List.eq_replicate_iff.mpr
  refine ⟨List.length_drop .., ?_⟩
  intro b member
  exact erased b ((List.drop_sublist_drop_left region past).subset member)

theorem Erased.replicate (room : ℕ) : Erased (List.replicate room 0) := by
  intro b member
  exact List.eq_of_mem_replicate (List.mem_of_mem_drop member)

theorem Erased.short {text : Bytes} (short : text.length < 3) (some' : 1 ≤ text.length) (room : ℕ) :
    Erased (text ++ 0 :: List.replicate room 0) := by
  intro b member
  rw [← List.replicate_succ, List.drop_append, List.drop_replicate] at member
  rcases List.mem_append.mp member with left | right
  · have := List.length_drop (l := text) (i := 2)
    rw [List.length_eq_zero_iff.mp (by omega : (text.drop 2).length = 0)] at left
    cases left
  · exact List.eq_of_mem_replicate right

/-- What the encoder leaves: the last entry it printed, and erased memory behind it. -/
theorem serializeLoop_last {nodes : List EnvKv} {region out : Bytes} (nonempty : nodes ≠ [])
    (erased : Erased region) (written : serializeLoop nodes region 0 = some out) :
    ∃ front attr, attr ∈ nodes ∧
      out = front ++ entryText attr ++ List.replicate (1 + (region.length - lastEnd nodes)) 0 ∧
      front.length + (entryText attr).length + 1 = lastEnd nodes := by
  induction nodes generalizing region out with
  | nil => exact absurd rfl nonempty
  | cons attr rest ih =>
    have some' := entryText_length_pos attr
    have fits : (entryText attr).length + 1 ≤ region.length := by
      by_contra tooLong
      simp only [serializeLoop, Nat.zero_add, tooLong, if_false, reduceCtorEq] at written
    have behind := erased.drop (show 2 ≤ (entryText attr).length + 1 by omega)
    by_cases short : (entryText attr).length < 3
    · rw [serializeLoop_short short fits, behind] at written
      cases rest with
      | nil =>
        cases written
        refine ⟨[], attr, List.mem_cons_self .., ?_, by simp [lastEnd]⟩
        rw [lastEnd, Nat.add_comm 1, List.replicate_succ, List.nil_append]
      | cons next rest =>
        obtain ⟨front, last, member, shape, place⟩ :=
          ih (by simp) (Erased.short short some' _) written
        refine ⟨front, last, List.mem_cons_of_mem _ member, ?_, ?_⟩
        · rw [shape, lastEnd_cons, stride, if_pos short]
          simp only [List.length_append, List.length_cons, List.length_replicate]
          congr 3
          omega
        · simpa [lastEnd_cons, stride, short] using place
    · rw [serializeLoop_long short fits, behind] at written
      obtain ⟨inner, produced, rfl⟩ := Option.map_eq_some_iff.mp written
      cases rest with
      | nil =>
        cases produced
        refine ⟨[], attr, List.mem_cons_self .., ?_, by simp [lastEnd]⟩
        rw [lastEnd, Nat.add_comm 1, List.replicate_succ, List.nil_append, List.append_assoc]
        rfl
      | cons next rest =>
        obtain ⟨front, last, member, shape, place⟩ := ih (by simp) (Erased.replicate _) produced
        refine ⟨entryText attr ++ [0] ++ front, last, List.mem_cons_of_mem _ member, ?_, ?_⟩
        · rw [shape, lastEnd_cons, stride, if_neg short]
          simp only [List.length_replicate, List.append_assoc]
          congr 5
          omega
        · simp only [lastEnd_cons, stride, short, if_false, List.length_append, List.length_singleton]
          omega

/-- Two terminators stand at the end exactly if one byte is left behind the last entry. -/
theorem ends_empty_iff {front text : Bytes} (nonempty : text ≠ []) (plain : IsCString text)
    (room : ℕ) : [0, 0] <:+ front ++ text ++ List.replicate (1 + room) 0 ↔ 0 < room := by
  constructor
  · rintro ends
    by_contra none
    obtain rfl : room = 0 := by omega
    obtain ⟨init, x, rfl⟩ := List.eq_nil_or_concat text |>.resolve_left nonempty
    have last : [0, 0] <:+ front ++ init ++ [x, 0] := by simpa using ends
    have same := List.suffix_of_suffix_length_le last (List.suffix_append _ [x, 0]) le_rfl
    obtain ⟨rfl, -⟩ := List.cons.inj (same.eq_of_length rfl)
    exact plain (by simp)
  · intro some'
    obtain ⟨room, rfl⟩ := Nat.exists_eq_succ_of_ne_zero (show room ≠ 0 by omega)
    rw [show 1 + (room + 1) = room + 2 by omega, List.replicate_add, ← List.append_assoc]
    exact List.suffix_append _ _

/-- The serializer stays inside the region exactly if the bytes it touches fit and the last entry
ends in front of the last byte. -/
theorem serializesInside_iff_of_plain {l : KvList} (plain : ∀ a ∈ l.nodes, Plain a) (size : ℕ) :
    SerializesInside size l ↔ extent l.nodes ≤ size ∧ lastEnd l.nodes < size := by
  have fits := serializeLoop_isSome_iff l.nodes (List.replicate size 0)
  rw [List.length_replicate, Option.isSome_iff_exists] at fits
  rw [← fits]
  constructor
  · rintro ⟨region, written, ends⟩
    refine ⟨⟨region, written⟩, ?_⟩
    obtain ⟨front, last, member, shape, -⟩ :=
      serializeLoop_last (by simp [KvList.nodes]) (Erased.replicate size) written
    rw [shape, ends_empty_iff (List.ne_nil_of_length_pos (entryText_length_pos last))
      (plain last member).text, List.length_replicate] at ends
    omega
  · rintro ⟨⟨region, written⟩, before⟩
    refine ⟨region, written, ?_⟩
    obtain ⟨front, last, member, shape, -⟩ :=
      serializeLoop_last (by simp [KvList.nodes]) (Erased.replicate size) written
    rw [shape, ends_empty_iff (List.ne_nil_of_length_pos (entryText_length_pos last))
      (plain last member).text, List.length_replicate]
    omega

theorem Held.plain {l : KvList} (held : Held l) : ∀ a ∈ l.nodes, Plain a := by
  induction held with
  | start =>
    intro a member
    rw [List.mem_singleton.mp member]
    exact ⟨by decide, fun v stored => by cases stored⟩
  | load held parsed =>
    intro a member
    have loadable := envParseKv_loadable (envReleaseKv_loadable held.header) parsed a member
    exact ⟨loadable.key_plain, fun v stored => (loadable.value_text v stored).2.1⟩
  | @update l name value held name_plain value_plain ih =>
    intro a member
    rw [bootenvUpdateKv] at member
    split_ifs at member
    · exact ih a member
    · rw [bootenvSetValue_nodes] at member
      rcases mem_assign member with old | ⟨stored, named⟩
      · exact ih a old
      · constructor
        · rcases named with named | ⟨old, present, named⟩
          · exact named ▸ name_plain.take _
          · exact named ▸ (ih old present).key
        · intro v same
          obtain rfl : value = v := Option.some.inj (stored.symm.trans same)
          exact value_plain

/-- For every list that loads and updates can build, the serializer stays inside the region and
leaves an empty entry exactly if the formatted entries fit with one byte to spare. -/
theorem serializesInside_iff {l : KvList} (held : Held l) (size : ℕ) :
    SerializesInside size l ↔ extent l.nodes ≤ size ∧ lastEnd l.nodes < size :=
  serializesInside_iff_of_plain held.plain size

/-- The list that has been loaded from `a=1`, with `b` set to 2 and then `a` to 3. -/
theorem serializesInside_iff_sample : ∃ l, envParseKv .empty ([97, 61, 49, 0] ++ List.replicate 12 0) =
      .ok l ∧ SerializesInside 16 (bootenvUpdateKv (bootenvUpdateKv l [98] [50]) [97] [51]) := by
  have loadable : ∀ a ∈ [EnvKv.mk [97] (some [49])], Loadable a := by
    intro a member
    rw [List.mem_singleton.mp member]
    exact ⟨by decide, by decide, by decide, by simp [IsCString]⟩
  have parsed := envParseKv_entries loadable (.erased 12) .empty
  have held : Held (bootenvUpdateKv (bootenvUpdateKv ⟨⟨[97], some [49]⟩, []⟩ [98] [50]) [97] [51]) :=
    .update (.update (.load .start parsed) (by decide) (by decide)) (by decide) (by decide)
  exact ⟨_, parsed, (serializesInside_iff held 16).mpr (by decide)⟩

theorem le_extent {nodes : List EnvKv} {attr : EnvKv} (member : attr ∈ nodes) :
    (entryText attr).length + 1 ≤ extent nodes := by
  induction nodes with
  | nil => cases member
  | cons head rest ih =>
    rw [extent]
    rcases List.mem_cons.mp member with rfl | later
    · exact le_max_left ..
    · have := ih later
      omega

theorem exists_assign (key value : Bytes) (nodes : List EnvKv) :
    ∃ attr ∈ assign key value nodes, attr.value = some value := by
  induction nodes with
  | nil => exact ⟨_, List.mem_singleton_self _, rfl⟩
  | cons head rest ih =>
    rw [assign]
    split_ifs
    · exact ⟨_, List.mem_cons_self .., rfl⟩
    · obtain ⟨attr, member, stored⟩ := ih
      exact ⟨attr, List.mem_cons_of_mem _ member, stored⟩

/-- A value as long as the region never fits. -/
theorem not_serializesInside_of_long {l : KvList} {name value : Bytes} {size : ℕ}
    (held : Held (bootenvUpdateKv l name value)) (changes : value ≠ (bootenvGetValue l name).getD [])
    (long : size ≤ value.length) : ¬SerializesInside size (bootenvUpdateKv l name value) := by
  rw [serializesInside_iff_of_plain held.plain, bootenvUpdateKv, if_neg changes, bootenvSetValue_nodes]
  rintro ⟨fits, -⟩
  obtain ⟨attr, member, stored⟩ := exists_assign name value l.nodes
  have touched := le_extent member
  simp only [entryText, valueText, stored, Option.getD_some, List.length_append,
    List.length_cons] at touched
  omega

/-- A region that holds `a=1`, and an update of `b` with a value as long as the region. -/
theorem not_serializesInside_long_value :
    ∃ l, envParseKv .empty ([97, 61, 49, 0] ++ List.replicate 65528 0) = .ok l ∧
      Held (bootenvUpdateKv l [98] (List.replicate 65532 120)) ∧
      ¬SerializesInside 65532 (bootenvUpdateKv l [98] (List.replicate 65532 120)) := by
  have loadable : ∀ a ∈ [EnvKv.mk [97] (some [49])], Loadable a := by
    intro a member
    rw [List.mem_singleton.mp member]
    exact ⟨by decide, by decide, by decide, by simp [IsCString]⟩
  have parsed := envParseKv_entries loadable (.erased 65528) .empty
  have name : IsCString [98] := by decide
  have value : IsCString (List.replicate 65532 120) := by
    intro member
    exact absurd (List.eq_of_mem_replicate member) (by decide)
  have held : Held (bootenvUpdateKv ⟨⟨[97], some [49]⟩, []⟩ [98] (List.replicate 65532 120)) :=
    .update (.load .start parsed) name value
  refine ⟨_, parsed, held, ?_⟩
  apply not_serializesInside_of_long held
  · apply List.ne_nil_of_length_pos
    rw [List.length_replicate]
    decide
  · rw [List.length_replicate]

end AmlCommonlib.Ubootenv
