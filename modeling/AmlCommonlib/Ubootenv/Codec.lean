import AmlCommonlib.Ubootenv.KvList

/-! # The text codec of the environment region

`env_serialize_data` prints every node as `key=value` with its terminator; an entry shorter than
three characters is reported but not stepped over, so the next entry is printed on top of it.
`env_parse_kv` alternates between key and value mode and stops on any terminator it finds at the
start of a key or of a value. Both functions are total here: reading past the region, and
printing past it, are visible outcomes.
-/

namespace AmlCommonlib.Ubootenv

/-! ### Decoder -/

inductive ParseFault where
  /-- `strchr` or `snprintf` ran over the end of the region looking for a terminator. -/
  | overread
  | outOfFuel
deriving DecidableEq, Repr

/-- The outcome of one pass of the `while` body for the node it works on. -/
inductive Pass where
  | stop
  | more (attr : EnvKv) (bprocKey bprocNext : Bool) (ptr : Bytes)

/-- The body below the allocation: search the delimiter, copy at most the field's size, move on.
`ptr` is the rest of the region. -/
def parsePass (attr : EnvKv) (bprocKey : Bool) (ptr : Bytes) : Except ParseFault Pass :=
  match cstring? ptr with
  | none => .error .overread
  | some s =>
    match strchr s (if bprocKey then 61 else 0) with
    | none => .ok .stop
    | some pend =>
      let plen := min (pend + 1) (if bprocKey then 256 else 4096)
      if bprocKey then
        .ok (.more { attr with key := snprintf plen s } false false (ptr.drop (pend + 1)))
      else
        .ok (.more { attr with value := some (snprintf plen s) } true true (ptr.drop (pend + 1)))

/-- The `while` loop of `env_parse_kv` from the node `attr` with successors `next`. -/
def parseLoop : ℕ → EnvKv → List EnvKv → Bool → Bool → Bytes → Except ParseFault KvList
  | 0, _, _, _, _, _ => .error .outOfFuel
  | _ + 1, attr, next, _, _, [] => .ok ⟨attr, next⟩
  | fuel + 1, attr, next, bprocKey, bprocNext, c :: ptr =>
    if c = 0 then .ok ⟨attr, next⟩
    else if bprocNext then
      -- the pass works on a node just linked behind `attr`
      match parsePass .fresh bprocKey (c :: ptr) with
      | .error fault => .error fault
      | .ok .stop => .ok ⟨attr, [.fresh]⟩
      | .ok (.more node bprocKey bprocNext ptr) =>
        (parseLoop fuel node [] bprocKey bprocNext ptr).map fun l => ⟨attr, l.nodes⟩
    else
      match parsePass attr bprocKey (c :: ptr) with
      | .error fault => .error fault
      | .ok .stop => .ok ⟨attr, next⟩
      | .ok (.more node bprocKey bprocNext ptr) => parseLoop fuel node next bprocKey bprocNext ptr

/-- `env_parse_kv` on a region, starting from the list the process holds. Every pass consumes at
least one byte, which bounds the number of passes. -/
def envParseKv (l : KvList) (data : Bytes) : Except ParseFault KvList :=
  parseLoop (data.length + 1) l.header l.next true false data

/-! ### Encoder -/

/-- What `%s` prints for a value; glibc prints `(null)` for a null pointer. -/
def valueText (value : Option Bytes) : Bytes :=
  value.getD [40, 110, 117, 108, 108, 41]

/-- The output of `sprintf(data, "%s=%s", attr->key, attr->value)`. -/
def entryText (attr : EnvKv) : Bytes := attr.key ++ 61 :: valueText attr.value

/-- Store `text` at an offset of the region. -/
def writeAt (region : Bytes) (offset : ℕ) (text : Bytes) : Bytes :=
  region.take offset ++ text ++ region.drop (offset + text.length)

/-- The `do` loop of `env_serialize_data`; `none` when a write leaves the region. -/
def serializeLoop : List EnvKv → Bytes → ℕ → Option Bytes
  | [], region, _ => some region
  | attr :: rest, region, data =>
    let text := entryText attr
    if data + text.length + 1 ≤ region.length then
      let region := writeAt region data (text ++ [0])
      if text.length < 3 then serializeLoop rest region data
      else serializeLoop rest region (data + text.length + 1)
    else none

/-- The region `env_serialize_data` produces in `gs_env_data_size` bytes. -/
def envSerializeData (size : ℕ) (l : KvList) : Option Bytes :=
  serializeLoop l.nodes (List.replicate size 0) 0

/-! ### Nodes the decoder can produce -/

/-- The shape of every node that was parsed: a cut key without separator and a value that is
missing or a non-empty string of at most 4095 bytes. -/
structure Loadable (attr : EnvKv) : Prop where
  key_length : attr.key.length ≤ 255
  key_plain : IsCString attr.key
  key_separator : 61 ∉ attr.key
  value_text : ∀ v, attr.value = some v → v ≠ [] ∧ IsCString v ∧ v.length ≤ 4095

theorem Loadable.fresh : Loadable .fresh := ⟨by decide, by decide, by decide, by simp [EnvKv.fresh]⟩

/-- A missing value is printed as text, so the printed value is always a legal one. -/
theorem Loadable.valueText {attr : EnvKv} (loadable : Loadable attr) :
    valueText attr.value ≠ [] ∧ IsCString (valueText attr.value) ∧
      (valueText attr.value).length ≤ 4095 := by
  cases value : attr.value with
  | none => exact ⟨by decide, by decide, by decide⟩
  | some v => exact loadable.value_text v value

/-- The node an entry is parsed back into. -/
def printed (attr : EnvKv) : EnvKv := ⟨attr.key, some (valueText attr.value)⟩

theorem Loadable.printed {attr : EnvKv} (loadable : Loadable attr) : Loadable (printed attr) where
  key_length := loadable.key_length
  key_plain := loadable.key_plain
  key_separator := loadable.key_separator
  value_text := by
    intro v equal
    cases equal
    exact loadable.valueText

private theorem except_map_eq_ok {ε α β : Type} {f : α → β} {x : Except ε α} {b : β} :
    x.map f = .ok b ↔ ∃ a, x = .ok a ∧ f a = b := by
  cases x <;> simp [Except.map]

theorem parsePass_loadable {attr node : EnvKv} {bprocKey key' next' : Bool} {ptr rest : Bytes}
    {c : UInt8} (nonzero : c ≠ 0) (loadable : Loadable attr)
    (pass : parsePass attr bprocKey (c :: ptr) = .ok (.more node key' next' rest)) :
    Loadable node := by
  unfold parsePass at pass
  split at pass
  · contradiction
  rename_i s read
  have plain := cstring?_isCString read
  split at pass
  · cases pass
  rename_i pend found
  cases bprocKey with
  | true =>
    simp only [if_true, Except.ok.injEq, Pass.more.injEq] at pass found
    obtain ⟨rfl, -⟩ := pass
    refine ⟨?_, plain.take _, ?_, loadable.value_text⟩
    · simp only [snprintf, List.length_take]
      omega
    · refine fun member => not_mem_take_of_strchr (by decide) found (List.take_subset_take_left s ?_ member)
      omega
  | false =>
    simp only [Bool.false_eq_true, if_false, Except.ok.injEq, Pass.more.injEq, strchr_zero,
      Option.some.injEq] at pass found
    obtain ⟨rfl, -⟩ := pass
    subst pend
    refine ⟨loadable.key_length, loadable.key_plain, loadable.key_separator, ?_⟩
    rintro v equal
    simp only [Option.some.injEq] at equal
    subst v
    have length : 0 < s.length := List.length_pos_iff.mpr (cstring?_ne_nil nonzero read)
    refine ⟨?_, plain.take _, ?_⟩
    · rw [← List.length_pos_iff]
      simp only [snprintf, List.length_take]
      omega
    · simp only [snprintf, List.length_take]
      omega

/-- Parsing keeps every node of the list loadable, the old ones it leaves in place included. -/
theorem parseLoop_loadable {fuel : ℕ} {attr : EnvKv} {next : List EnvKv} {bprocKey bprocNext : Bool}
    {ptr : Bytes} {l : KvList} (head : Loadable attr) (old : ∀ a ∈ next, Loadable a)
    (parsed : parseLoop fuel attr next bprocKey bprocNext ptr = .ok l) :
    ∀ a ∈ l.nodes, Loadable a := by
  induction fuel generalizing attr next bprocKey bprocNext ptr l with
  | zero => contradiction
  | succ fuel ih =>
    have done : ∀ a ∈ (KvList.mk attr next).nodes, Loadable a := by
      intro a member
      rcases List.mem_cons.mp member with rfl | member
      · exact head
      · exact old a member
    cases ptr with
    | nil =>
      cases parsed
      exact done
    | cons c ptr =>
      unfold parseLoop at parsed
      split_ifs at parsed with zero linked
      · cases parsed
        exact done
      · split at parsed
        · contradiction
        · cases parsed
          intro a member
          rcases List.mem_cons.mp member with rfl | member
          · exact head
          · exact List.mem_singleton.mp member ▸ Loadable.fresh
        · rename_i node key' next' rest pass
          obtain ⟨m, inner, rfl⟩ := except_map_eq_ok.mp parsed
          have tail := ih (parsePass_loadable zero .fresh pass) (by simp) inner
          intro a member
          rcases List.mem_cons.mp member with rfl | member
          · exact head
          · exact tail a member
      · split at parsed
        · contradiction
        · cases parsed
          exact done
        · rename_i node key' next' rest pass
          exact ih (parsePass_loadable zero head pass) old parsed

theorem envParseKv_loadable {start l : KvList} {data : Bytes}
    (loadable : ∀ a ∈ start.nodes, Loadable a) (parsed : envParseKv start data = .ok l) :
    ∀ a ∈ l.nodes, Loadable a :=
  parseLoop_loadable (loadable _ (List.mem_cons_self ..))
    (fun a member => loadable a (List.mem_cons_of_mem _ member)) parsed

end AmlCommonlib.Ubootenv
