import AmlCommonlib.PropertyServer.Classes

/-! # What the properties file sets

`load_device_properties` trims copies of the first two fields of a line, and stores the fields as they
are. So a value ends at a second `=` and keeps its blanks, and a persistent key with blanks around it
is stored where `get` does not look.
-/

namespace AmlCommonlib.PropertyServer

/-! ### Lines -/

/-- The text before the first `=`. -/
def textBefore (line : Bytes) : Bytes := line.takeWhile (· ≠ 61)

/-- The text after the first `=`. -/
def textAfter (line : Bytes) : Bytes := (line.dropWhile (· ≠ 61)).tail

theorem not_mem_textBefore (line : Bytes) : 61 ∉ textBefore line := by
  intro member
  simpa using List.mem_takeWhile_imp member

theorem line_cases (line : Bytes) :
    61 ∉ line ∧ textBefore line = line ∧ textAfter line = [] ∨
      line = textBefore line ++ 61 :: textAfter line := by
  induction line with
  | nil => exact .inl ⟨List.not_mem_nil, rfl, rfl⟩
  | cons c line ih =>
    rcases eq_or_ne c 61 with rfl | other
    · exact .inr (by simp [textBefore, textAfter])
    · have before : textBefore (c :: line) = c :: textBefore line := by simp [textBefore, other]
      have after : textAfter (c :: line) = textAfter line := by simp [textAfter, other]
      rw [before, after]
      rcases ih with ⟨absent, same, nothing⟩ | whole
      · exact .inl ⟨by simp [absent, other.symm], by rw [same], nothing⟩
      · exact .inr (congrArg (c :: ·) whole)

theorem getlines_of_ne_nil {line : Bytes} (some' : line ≠ []) :
    ∃ rest, getlines 61 line = textBefore line :: rest := by
  rcases line_cases line with ⟨absent, before, -⟩ | whole
  · exact ⟨[], by rw [getlines_of_not_mem absent some', before]⟩
  · refine ⟨getlines 61 (textAfter line), ?_⟩
    conv_lhs => rw [whole]
    exact getlines_append_cons _ (not_mem_textBefore line)

/-- A line has two fields exactly if there is something after its first `=`. -/
theorem getlines_of_textAfter {line : Bytes} (some' : textAfter line ≠ []) :
    ∃ rest, getlines 61 line = textBefore line :: textBefore (textAfter line) :: rest := by
  have whole := (line_cases line).resolve_left fun no => some' no.2.2
  obtain ⟨rest, after⟩ := getlines_of_ne_nil some'
  refine ⟨rest, ?_⟩
  conv_lhs => rw [whole]
  rw [getlines_append_cons _ (not_mem_textBefore line), after]

theorem length_getlines_of_textAfter {line : Bytes} (empty : textAfter line = []) :
    (getlines 61 line).length ≤ 1 := by
  rcases line_cases line with ⟨absent, -, -⟩ | whole
  · rcases eq_or_ne line [] with rfl | some'
    · simp [getlines_nil]
    · simp [getlines_of_not_mem absent some']
  · rw [empty] at whole
    rw [whole, getlines_append_cons _ (not_mem_textBefore line), getlines_nil]
    simp

/-- The two fields are used as they are, their trimmed copies only to choose the store. -/
theorem loadLine_eq (s : Store) (acc : Map × List (Bytes × Bytes)) (line : Bytes) :
    s.loadLine acc line =
      if textAfter line = [] then acc
      else match getAttribute (trim (textBefore line)) with
        | .ro => (acc.1.insert (trim (textBefore line)) (textBefore (textAfter line)), acc.2)
        | .persist =>
          if s.persistDb && (s.disk (trim (textBefore line))).isNone then
            (acc.1, acc.2 ++ [(textBefore line, textBefore (textAfter line))])
          else acc
        | .temp => acc := by
  by_cases empty : textAfter line = []
  · have short := length_getlines_of_textAfter empty
    rw [if_pos empty, Store.loadLine]
    split
    next k v rest parts =>
      simp only [parts, List.length_cons] at short
      omega
    next => rfl
  · obtain ⟨rest, parts⟩ := getlines_of_textAfter empty
    rewrite [if_neg empty, Store.loadLine, parts]
    rfl

/-- A text is its own trimmed text, up to a further `=`. -/
theorem textBefore_eq_trim_iff {text : Bytes} :
    textBefore text = trim text ↔ 61 ∉ text ∧ trim text = text := by
  constructor
  · intro same
    have absent : 61 ∉ text := by
      intro member
      have kept : 61 ∈ trim text := mem_trim isspace member (by decide)
      exact not_mem_textBefore text (same ▸ kept)
    have before := (line_cases text).resolve_right fun whole => absent (by rw [whole]; simp)
    exact ⟨absent, by rw [← same, before.2.1]⟩
  · rintro ⟨absent, trimmed⟩
    have before := (line_cases text).resolve_right fun whole => absent (by rw [whole]; simp)
    rw [before.2.1, trimmed]

/-- The text is the value, or begins with it and a further `=`. -/
def Begins (text value : Bytes) : Prop := 61 ∉ value ∧ (text = value ∨ value ++ [61] <+: text)

theorem begins_iff {text value : Bytes} : Begins text value ↔ textBefore text = value := by
  constructor
  · rintro ⟨absent, rfl | ⟨rest, rfl⟩⟩
    · exact ((line_cases text).resolve_right fun whole => absent (by rw [whole]; simp)).2.1
    · rw [List.append_assoc, textBefore, List.takeWhile_append_of_pos]
      · simp
      · intro c member
        have other : c ≠ 61 := fun same => absent (same ▸ member)
        simp [other]
  · rintro rfl
    refine ⟨not_mem_textBefore text, ?_⟩
    rcases line_cases text with ⟨-, before, -⟩ | whole
    · exact .inl before.symm
    · exact .inr ⟨textAfter text, by simpa using whole.symm⟩

/-! ### The last line for a key -/

def lastLine (p : Bytes → Prop) [DecidablePred p] (lines : List Bytes) : Option Bytes :=
  lines.reverse.find? (p ·)

theorem lastLine_snoc {p : Bytes → Prop} [DecidablePred p] (lines : List Bytes) (line : Bytes) :
    lastLine p (lines ++ [line]) = if p line then some line else lastLine p lines := by
  rw [lastLine, List.reverse_append]
  by_cases here : p line <;> simp [lastLine, here]

theorem of_lastLine {p : Bytes → Prop} [DecidablePred p] {lines : List Bytes} {line : Bytes}
    (found : lastLine p lines = some line) : p line := by
  simpa using List.find?_some found

/-- The last line of some kind is the last one of a narrower kind if it is of that kind. -/
theorem lastLine_narrow {p q : Bytes → Prop} [DecidablePred p] [DecidablePred q]
    (narrower : ∀ line, p line → q line) {lines : List Bytes} {line : Bytes}
    (found : lastLine q lines = some line) (here : p line) : lastLine p lines = some line := by
  rw [lastLine, List.find?_eq_some_iff_append] at found ⊢
  obtain ⟨-, before, behind, split, others⟩ := found
  refine ⟨by simpa using here, before, behind, split, ?_⟩
  intro other member
  have notQ := others other member
  simp only [Bool.not_eq_true', decide_eq_false_iff_not] at notQ ⊢
  exact mt (narrower other) notQ

/-- A fold in which some of the lines overwrite what is observed keeps what the last of them wrote. -/
theorem foldl_lastLine {σ : Type*} {p : Bytes → Prop} [DecidablePred p] {value : Bytes → Bytes}
    {step : σ → Bytes → σ} {observed : σ → Option Bytes}
    (effect : ∀ acc line, observed (step acc line) = if p line then some (value line) else observed acc)
    (lines : List Bytes) (acc : σ) :
    observed (lines.foldl step acc) = ((lastLine p lines).map value).or (observed acc) := by
  induction lines using List.reverseRecOn with
  | nil => rfl
  | append_singleton lines line ih =>
    rw [List.foldl_append, List.foldl_cons, List.foldl_nil, effect, lastLine_snoc]
    split_ifs
    · rfl
    · exact ih

/-- The line gives the key a value. -/
def Names (key line : Bytes) : Prop := trim (textBefore line) = key ∧ textAfter line ≠ []

/-- The same, without blanks around the key. -/
def Spells (key line : Bytes) : Prop := textBefore line = key ∧ textAfter line ≠ []

instance (key : Bytes) : DecidablePred (Names key) := fun _ => inferInstanceAs (Decidable (_ ∧ _))

instance (key : Bytes) : DecidablePred (Spells key) := fun _ => inferInstanceAs (Decidable (_ ∧ _))

variable {s : Store} {key file : Bytes} {lines : List Bytes}

theorem Spells.names {line : Bytes} (trimmed : trim key = key) (spells : Spells key line) :
    Names key line :=
  ⟨by rw [spells.1, trimmed], spells.2⟩

theorem Names.trimmed {line : Bytes} (names : Names key line) : trim key = key := by
  rw [← names.1, trim_idem]

/-- A read-only key has the second field of its last line. -/
theorem loadLines_ro (attr : getAttribute key = .ro) (acc : Map × List (Bytes × Bytes)) :
    (lines.foldl s.loadLine acc).1 key =
      ((lastLine (Names key) lines).map fun line => textBefore (textAfter line)).or (acc.1 key) := by
  apply @foldl_lastLine _ _ _ _ _ fun acc : Map × List (Bytes × Bytes) => acc.1 key
  intro acc line
  rw [loadLine_eq]
  by_cases empty : textAfter line = []
  · rw [if_pos empty, if_neg fun names : Names key line => names.2 empty]
  · rw [if_neg empty]
    by_cases same : trim (textBefore line) = key
    · have names : Names key line := ⟨same, empty⟩
      rw [if_pos names, same, attr]
      exact Function.update_self ..
    · rw [if_neg fun names : Names key line => same names.1]
      split
      · exact Function.update_of_ne (Ne.symm same) ..
      · split_ifs <;> rfl
      · rfl

/-- A persistent key that the database lacks has the second field of the last line that spells it. -/
theorem loadLines_persist (up : s.persistDb = true) (attr : getAttribute key = .persist)
    (trimmed : trim key = key) (lacks : s.disk key = none) (acc : Map × List (Bytes × Bytes)) (disk : Map) :
    (lines.foldl s.loadLine acc).2.foldl (fun d e => d.insert e.1 e.2) disk key =
      ((lastLine (Spells key) lines).map fun line => textBefore (textAfter line)).or
        (acc.2.foldl (fun d e => d.insert e.1 e.2) disk key) := by
  apply @foldl_lastLine _ _ _ _ _ fun acc : Map × List (Bytes × Bytes) =>
    acc.2.foldl (fun d e => d.insert e.1 e.2) disk key
  intro acc line
  rw [loadLine_eq]
  by_cases empty : textAfter line = []
  · rw [if_pos empty, if_neg fun spells : Spells key line => spells.2 empty]
  · rw [if_neg empty]
    by_cases same : textBefore line = key
    · have spells : Spells key line := ⟨same, empty⟩
      rw [if_pos spells, same, trimmed, attr]
      simp [up, lacks, Map.insert]
    · rw [if_neg fun spells : Spells key line => same spells.1]
      split
      · rfl
      · split_ifs
        · rw [List.foldl_append]
          exact Function.update_of_ne (Ne.symm same) ..
        · rfl
      · rfl

/-! ### After `init` -/

/-- `init` in a new process on the database. -/
def Store.loaded (s : Store) (file : Bytes) : Store := s.relaunch.init true true (some file)

/-- The text between the first two `=` of the last line that spells the key. -/
def spelled (file key : Bytes) : Option Bytes :=
  (lastLine (Spells key) (getlines 10 file)).map fun line => textBefore (textAfter line)

theorem spelled_eq_iff {value : Bytes} : spelled file key = some value ↔
    ∃ line ∈ lastLine (Spells key) (getlines 10 file), Begins (textAfter line) value := by
  simp only [spelled, Option.map_eq_some_iff, begins_iff, Option.mem_def]

/-- Where the last line for the key spells it, its value is the trimmed text behind the first `=`
exactly if that text has no blanks around it and no further `=`. -/
theorem spelled_eq_trim_iff {line : Bytes} (found : lastLine (Names key) (getlines 10 file) = some line) :
    spelled file key = some (trim (textAfter line)) ↔
      textBefore line = key ∧ 61 ∉ textAfter line ∧ trim (textAfter line) = textAfter line ∨
      textBefore line ≠ key ∧ ∃ line' ∈ lastLine (Spells key) (getlines 10 file),
        Begins (textAfter line') (trim (textAfter line)) := by
  have names := of_lastLine found
  by_cases same : textBefore line = key
  · have last : lastLine (Spells key) (getlines 10 file) = some line :=
      lastLine_narrow (fun _ spells => spells.names names.trimmed) found ⟨same, names.2⟩
    rw [spelled, last, Option.map_some, Option.some.injEq, textBefore_eq_trim_iff]
    simp [same]
  · rw [spelled_eq_iff]
    simp [same]

theorem get_loaded_ro (trimmed : trim key = key) (attr : getAttribute key = .ro) :
    (s.loaded file).get key =
      (lastLine (Names key) (getlines 10 file)).map fun line => textBefore (textAfter line) := by
  rw [Store.get, trimmed, attr]
  exact (loadLines_ro attr _).trans (Option.or_none ..)

theorem get_loaded_persist (attr : getAttribute (trim key) = .persist) :
    (s.loaded file).get key = (s.disk (trim key)).or (spelled file (trim key)) := by
  have up : (s.loaded file).persistDb = true := rfl
  have found : ∀ v, (s.loaded file).get key = some v ↔ (s.loaded file).disk (trim key) = some v := by
    intro v
    rw [get_persist_iff attr, up]
    exact and_iff_right rfl
  rw [Option.ext_iff.mpr found]
  cases stored : s.disk (trim key) with
  | some v =>
    rcases (load_spec { s.relaunch with persistDb := true } true (some file)).2 (trim key) with
      same | addable
    · exact same.trans stored
    · rw [Store.Addable, trim_idem] at addable
      cases stored.symm.trans addable.2
  | none =>
    have loads := @loadLines_persist { s.relaunch with persistDb := true } (trim key) (getlines 10 file)
      rfl attr (trim_idem key) stored (Map.empty, []) s.disk
    refine loads.trans ?_
    rw [List.foldl_nil, stored]
    exact Option.or_none ..

theorem get_loaded_temp (attr : getAttribute (trim key) = .temp) : (s.loaded file).get key = none := by
  rw [Store.get, attr]
  rfl

/-- A key with the persistent prefix that is found is in the database. -/
theorem persist_of_get {value : Bytes} (starts : persistPrefix <+: key)
    (got : (s.loaded file).get key = some value) : getAttribute (trim key) = .persist := by
  have solid : ∀ c ∈ persistPrefix, isspace c = false := by simp [persistPrefix, isspace]
  have starts' : persistPrefix <+: trim key := prefix_trim isspace solid starts
  rw [getAttribute_persist_iff]
  refine ⟨starts', ?_⟩
  intro again
  have temp := getAttribute_temp (fun other => absurd other (not_ro_of_persist starts')) fun _ => again
  rw [get_loaded_temp temp] at got
  cases got

/-! ### What the file promises -/

/-- After `init` a key of the file that the database lacks has the trimmed text after the first `=` of
its last line, and a persistent key of the database has its value. -/
structure Loads (s : Store) (file key : Bytes) : Prop where
  added : roPrefix <+: key ∨ persistPrefix <+: key → s.disk key = none →
    ∀ line ∈ lastLine (Names key) (getlines 10 file),
      (s.loaded file).get key = some (trim (textAfter line))
  kept : persistPrefix <+: key → ∀ value, s.disk key = some value → (s.loaded file).get key = some value

/-- No key has its prefix twice. The last line for a key has no blanks around its value and no
further `=` in it; a persistent key has no blanks around it there either, or the last line where it has
none begins with the same value. A key of the database has no blanks around it, or the database has
the value under the key without them, or it lacks that key and the last line that spells it begins with
the value. -/
structure Plain (s : Store) (file key : Bytes) : Prop where
  ro : roPrefix <+: key → s.disk key = none → ∀ line ∈ lastLine (Names key) (getlines 10 file),
    getAttribute key = .ro ∧ 61 ∉ textAfter line ∧ trim (textAfter line) = textAfter line
  persist : persistPrefix <+: key → s.disk key = none →
    ∀ line ∈ lastLine (Names key) (getlines 10 file), getAttribute key = .persist ∧
      (textBefore line = key ∧ 61 ∉ textAfter line ∧ trim (textAfter line) = textAfter line ∨
        textBefore line ≠ key ∧ ∃ line' ∈ lastLine (Spells key) (getlines 10 file),
          Begins (textAfter line') (trim (textAfter line)))
  kept : persistPrefix <+: key → ∀ value, s.disk key = some value → getAttribute (trim key) = .persist ∧
    (trim key = key ∨ s.disk (trim key) = some value ∨ s.disk (trim key) = none ∧
      ∃ line ∈ lastLine (Spells (trim key)) (getlines 10 file), Begins (textAfter line) value)

/-- Loading does what the file promises for exactly the keys that are plainly written. -/
theorem loads_iff_plain (s : Store) (file key : Bytes) : Loads s file key ↔ Plain s file key := by
  constructor
  · intro loads
    refine ⟨?_, ?_, ?_⟩
    · intro starts lacks line found
      have added := loads.added (.inl starts) lacks line found
      have trimmed := (of_lastLine found).trimmed
      have attr : getAttribute key = .ro := by
        rw [getAttribute_ro_iff]
        refine ⟨starts, ?_⟩
        intro again
        have temp := getAttribute_temp (fun _ => again) fun other => absurd starts (not_ro_of_persist other)
        rw [get_loaded_temp (by rw [trimmed, temp])] at added
        cases added
      rw [get_loaded_ro trimmed attr, found] at added
      exact ⟨attr, textBefore_eq_trim_iff.mp (Option.some.inj added)⟩
    · intro starts lacks line found
      have added := loads.added (.inr starts) lacks line found
      have trimmed := (of_lastLine found).trimmed
      have attr := persist_of_get starts added
      rw [get_loaded_persist attr, trimmed, lacks, Option.none_or] at added
      exact ⟨trimmed ▸ attr, (spelled_eq_trim_iff found).mp added⟩
    · intro starts value stored
      have kept := loads.kept starts value stored
      have attr := persist_of_get starts kept
      rw [get_loaded_persist attr, Option.or_eq_some_iff, spelled_eq_iff] at kept
      exact ⟨attr, .inr kept⟩
  · intro plain
    constructor
    · intro starts lacks line found
      have trimmed := (of_lastLine found).trimmed
      rcases starts with starts | starts
      · obtain ⟨attr, whole⟩ := plain.ro starts lacks line found
        rw [get_loaded_ro trimmed attr, found, ← textBefore_eq_trim_iff.mpr whole]
        rfl
      · obtain ⟨attr, same⟩ := plain.persist starts lacks line found
        rw [get_loaded_persist (trimmed.symm ▸ attr), trimmed, lacks, Option.none_or]
        exact (spelled_eq_trim_iff found).mpr same
    · intro starts value stored
      obtain ⟨attr, same⟩ := plain.kept starts value stored
      rw [get_loaded_persist attr]
      rcases same with trimmed | other
      · rw [trimmed, stored]
        rfl
      · rwa [Option.or_eq_some_iff, spelled_eq_iff]

/-- A value ends at a second `=`. -/
theorem not_loads_equals : ¬∀ (s : Store) (file key : Bytes), Loads s file key := by
  intro holds
  -- `ro.a=b=c`
  have got := (holds .new [114, 111, 46, 97, 61, 98, 61, 99] [114, 111, 46, 97]).added (.inl (by decide)) rfl
    [114, 111, 46, 97, 61, 98, 61, 99] (by decide)
  exact absurd got (by decide)

end AmlCommonlib.PropertyServer
