import AmlCommonlib.AmlLog.Levels

/-! # Skipping a setting string

`aml_log_set_from_string` compares a string with the one it applied last, over the length of the new
one. So it skips every string that the last one starts with, and not only the same string.
-/

namespace AmlCommonlib.AmlLog

/-- A setting string that `level_str` can hold. -/
structure Setting where
  text : Bytes
  plain : IsCString text
  short : text.length < 256

/-- The settings, the string in `level_str`, and what the configuration file holds. -/
structure LogProcess where
  state : LogState
  levelStr : Bytes
  configFile : Option Bytes

namespace LogProcess

/-- `aml_log_set_from_string` behind its early return; `opens` is whether `fopen` succeeds in
`aml_log_sync_config_file`. -/
def apply (re : Regex) (opens : Bool) (p : LogProcess) (str : Setting) : LogProcess where
  state := p.state.getSettingFromString re .debugLog str.text
  levelStr := str.text
  configFile := if opens then some str.text else p.configFile

/-- `!strncmp(level_str, str, strlen(str))`. -/
def skips (p : LogProcess) (str : Setting) : Bool := str.text.isPrefixOf p.levelStr

/-- `aml_log_set_from_string`. -/
def amlLogSetFromString (re : Regex) (opens : Bool) (p : LogProcess) (str : Setting) : LogProcess :=
  if p.skips str then p else p.apply re opens str

/-- The levels, the settings that wait, and the configuration file are the same. -/
def Agrees (p q : LogProcess) : Prop := p.state = q.state ∧ p.configFile = q.configFile

/-- Two calls leave what they would leave without the early return. -/
def CacheExact (re : Regex) (opens : Bool) (p : LogProcess) (first second : Setting) : Prop :=
  Agrees ((p.amlLogSetFromString re opens first).amlLogSetFromString re opens second)
    ((p.apply re opens first).apply re opens second)

def entries (re : Regex) (p : LogProcess) (str : Setting) : List Entry :=
  AmlLog.entries re (catNames p.state.catList) (newNodes re str.text)

/-- The level that a string gives to the category at a place, if any. -/
def given (re : Regex) (p : LogProcess) (str : Setting) (i : ℕ) : Option ℤ :=
  (latest (Entry.received re (catNames p.state.catList) i) (p.entries re str)).map (·.level)

/-- No entry of the string waits for a category. -/
def NoneWaits (re : Regex) (p : LogProcess) (str : Setting) : Prop :=
  ∀ e ∈ p.entries re str, e.kind ≠ .waiting

/-- What the first string does is done already, or undone by the second. -/
structure Overridden (re : Regex) (p : LogProcess) (first second : Setting) : Prop where
  noneWaits : p.NoneWaits re first
  levels : ∀ i cat level, p.state.catList[i]? = some cat → p.given re second i = none →
    p.given re first i = some level → cat.logLevel = level

/-- What the string does is done already. -/
structure Done (re : Regex) (opens : Bool) (p : LogProcess) (str : Setting) : Prop where
  noneWaits : p.NoneWaits re str
  levels : ∀ i cat level, p.state.catList[i]? = some cat → p.given re str i = some level →
    cat.logLevel = level
  text : opens = true → p.configFile = some str.text

/-- The second string does nothing that the first, which starts with it, has not done. -/
structure Repeated (re : Regex) (opens : Bool) (p : LogProcess) (first second : Setting) : Prop where
  noneWaits : p.NoneWaits re second
  levels : ∀ i cat level, p.state.catList[i]? = some cat → p.given re second i = some level →
    (p.given re first i).getD cat.logLevel = level
  text : opens = true → first.text = second.text

/-- Whatever is skipped is redundant. -/
def Redundant (re : Regex) (opens : Bool) (p : LogProcess) (first second : Setting) : Prop :=
  if p.skips first then
    p.Overridden re first second ∧ (p.skips second → p.Done re opens second)
  else second.text <+: first.text → p.Repeated re opens first second

/-! ### What strings do to the settings -/

/-- The category at each place takes a level or none, and nodes are put in front of those that
wait. -/
structure Effect (level : ℕ → Option ℤ) (wait : List LogSettingNode) (s t : LogState) : Prop where
  levels : ∀ i : ℕ, t.catList[i]? = (s.catList[i]?).map fun cat => cat.take .debugLog (level i)
  waiting : t.logSetting = wait ++ s.logSetting
  trace : t.traceSetting = s.traceSetting

theorem Effect.refl (s : LogState) : Effect (fun _ => none) [] s s where
  levels i := by simp [AmlLogCat.take]
  waiting := rfl
  trace := rfl

theorem Effect.trans {level level' : ℕ → Option ℤ} {wait wait' : List LogSettingNode}
    {s t u : LogState} (first : Effect level wait s t) (second : Effect level' wait' t u) :
    Effect (fun i => (level' i).or (level i)) (wait' ++ wait) s u where
  levels i := by
    rw [second.levels, first.levels, Option.map_map]
    congr 1
    funext cat
    exact AmlLogCat.take_take ..
  waiting := by rw [second.waiting, first.waiting, List.append_assoc]
  trace := second.trace.trans first.trace

theorem take_eq_iff {cat : AmlLogCat} {a b : Option ℤ} :
    cat.take .debugLog a = cat.take .debugLog b ↔ a.getD cat.logLevel = b.getD cat.logLevel := by
  obtain ⟨name, logLevel, traceLevel⟩ := cat
  cases a <;> cases b <;> simp [AmlLogCat.take, AmlLogCat.setLevel]

/-- Two effects on the same settings are the same if they give every category the same level and let
the same nodes wait. -/
theorem Effect.eq_iff {level level' : ℕ → Option ℤ} {wait wait' : List LogSettingNode}
    {s t t' : LogState} (effect : Effect level wait s t) (effect' : Effect level' wait' s t') :
    t = t' ↔ (∀ i cat, s.catList[i]? = some cat →
      (level i).getD cat.logLevel = (level' i).getD cat.logLevel) ∧ wait = wait' := by
  have cats : t.catList = t'.catList ↔ ∀ i cat, s.catList[i]? = some cat →
      (level i).getD cat.logLevel = (level' i).getD cat.logLevel := by
    rw [List.ext_getElem?_iff]
    apply forall_congr'
    intro i
    rw [effect.levels, effect'.levels]
    cases place : s.catList[i]? with
    | none => simp
    | some cat => simp [take_eq_iff]
  have waits : t.logSetting = t'.logSetting ↔ wait = wait' := by
    rw [effect.waiting, effect'.waiting, List.append_cancel_right_eq]
  have traces : t.traceSetting = t'.traceSetting := effect.trace.trans effect'.trace.symm
  rw [← cats, ← waits]
  obtain ⟨catList, logSetting, traceSetting⟩ := t
  obtain ⟨catList', logSetting', traceSetting'⟩ := t'
  simp only [LogState.mk.injEq]
  exact ⟨fun same => ⟨same.1, same.2.1⟩, fun same => ⟨same.1, same.2, traces⟩⟩

variable {re : Regex} {opens : Bool} {p : LogProcess} {first second str : Setting}

theorem noneWaits_iff : p.NoneWaits re str ↔ waitingNodes (p.entries re str) = [] := by
  simp [NoneWaits, waitingNodes]

theorem apply_effect : Effect (p.given re str) (waitingNodes (p.entries re str)) p.state
    (p.apply re opens str).state := by
  have applied := set_applied re p.state .debugLog str.text
  exact ⟨applied.levels, applied.waiting, applied.other .traceLog (by decide)⟩

/-- A string keeps the names, so what another one gives is the same before and behind it. -/
theorem entries_apply : (p.apply re opens first).entries re second = p.entries re second := by
  have names : catNames (p.apply re opens first).state.catList = catNames p.state.catList :=
    (set_applied re p.state .debugLog first.text).names
  rw [entries, names, entries]

theorem given_apply : (p.apply re opens first).given re second = p.given re second := by
  funext i
  have names : catNames (p.apply re opens first).state.catList = catNames p.state.catList :=
    (set_applied re p.state .debugLog first.text).names
  rw [given, given, entries_apply, names]

/-- Both strings, the second over the first. -/
theorem apply_apply_effect :
    Effect (fun i => (p.given re second i).or (p.given re first i))
      (waitingNodes (p.entries re second) ++ waitingNodes (p.entries re first)) p.state
      ((p.apply re opens first).apply re opens second).state := by
  have behind := @apply_effect re opens (p.apply re opens first) second
  rw [given_apply, entries_apply] at behind
  exact apply_effect.trans behind

/-- With the first string skipped. -/
theorem agrees_second_iff :
    Agrees (p.apply re opens second) ((p.apply re opens first).apply re opens second) ↔
      p.Overridden re first second := by
  have files : (p.apply re opens second).configFile =
      ((p.apply re opens first).apply re opens second).configFile := by
    cases opens <;> rfl
  rw [Agrees, apply_effect.eq_iff apply_apply_effect, and_iff_left files]
  constructor
  · rintro ⟨levels, waits⟩
    refine ⟨noneWaits_iff.mpr (by simpa using waits), ?_⟩
    intro i cat level place untouched gives
    simpa [untouched, gives] using levels i cat place
  · rintro ⟨noneWaits, levels⟩
    refine ⟨?_, by simp [noneWaits_iff.mp noneWaits]⟩
    intro i cat place
    cases untouched : p.given re second i with
    | some level => rfl
    | none =>
      cases gives : p.given re first i with
      | none => rfl
      | some level => exact levels i cat level place untouched gives

/-- With the second string skipped. -/
theorem agrees_first_iff :
    Agrees (p.apply re opens first) ((p.apply re opens first).apply re opens second) ↔
      p.Repeated re opens first second := by
  have files : (p.apply re opens first).configFile =
      ((p.apply re opens first).apply re opens second).configFile ↔
      (opens = true → first.text = second.text) := by
    cases opens <;> simp [apply]
  rw [Agrees, apply_effect.eq_iff apply_apply_effect, files]
  constructor
  · rintro ⟨⟨levels, waits⟩, text⟩
    refine ⟨noneWaits_iff.mpr (by simpa using waits), ?_, text⟩
    intro i cat level place gives
    simpa [gives] using levels i cat place
  · rintro ⟨noneWaits, levels, text⟩
    refine ⟨⟨?_, by simp [noneWaits_iff.mp noneWaits]⟩, text⟩
    intro i cat place
    cases gives : p.given re second i with
    | none => rfl
    | some level => exact levels i cat level place gives

/-- With both skipped. -/
theorem agrees_none_iff :
    Agrees p ((p.apply re opens first).apply re opens second) ↔
      p.Overridden re first second ∧ p.Done re opens second := by
  have files : p.configFile = ((p.apply re opens first).apply re opens second).configFile ↔
      (opens = true → p.configFile = some second.text) := by
    cases opens <;> simp [apply]
  rw [Agrees, (Effect.refl p.state).eq_iff apply_apply_effect, files]
  constructor
  · rintro ⟨⟨levels, waits⟩, text⟩
    obtain ⟨waits₂, waits₁⟩ := List.append_eq_nil_iff.mp waits.symm
    refine ⟨⟨noneWaits_iff.mpr waits₁, ?_⟩, noneWaits_iff.mpr waits₂, ?_, text⟩
    · intro i cat level place untouched gives
      simpa [untouched, gives] using levels i cat place
    · intro i cat level place gives
      simpa [gives] using levels i cat place
  · rintro ⟨⟨waits₁, overridden⟩, waits₂, done, text⟩
    refine ⟨⟨?_, by simp [noneWaits_iff.mp waits₁, noneWaits_iff.mp waits₂]⟩, text⟩
    intro i cat place
    cases gives : p.given re second i with
    | some level => exact done i cat level place gives
    | none =>
      cases gives' : p.given re first i with
      | none => rfl
      | some level => exact overridden i cat level place gives gives'

/-- For every process, and every two strings that `level_str` can hold: the calls do what they would
do without the early return if and only if what they skip is redundant. -/
theorem cacheExact_iff_redundant (re : Regex) (opens : Bool) (p : LogProcess)
    (first second : Setting) :
    CacheExact re opens p first second ↔ p.Redundant re opens first second := by
  rw [CacheExact, Redundant]
  by_cases skipped : p.skips first = true
  · rw [amlLogSetFromString, if_pos skipped, amlLogSetFromString, if_pos skipped]
    by_cases both : p.skips second = true
    · rw [if_pos both, agrees_none_iff]
      simp only [both, true_imp_iff]
    · rw [if_neg both, agrees_second_iff]
      simp only [both, false_imp_iff, and_true, Bool.false_eq_true]
  · rw [amlLogSetFromString, if_neg skipped, amlLogSetFromString, if_neg skipped]
    have again : (p.apply re opens first).skips second = true ↔ second.text <+: first.text :=
      List.isPrefixOf_iff_prefix
    by_cases starts : second.text <+: first.text
    · rw [if_pos (again.mpr starts), agrees_first_iff]
      simp only [starts, true_imp_iff]
    · rw [if_neg (mt again.mp starts)]
      simp only [starts, false_imp_iff, iff_true]
      exact ⟨rfl, rfl⟩

/-- `all:LOG_INFO` -/
def allInfo : Setting :=
  ⟨[97, 108, 108, 58, 76, 79, 71, 95, 73, 78, 70, 79], by decide, by decide⟩

/-- `all:LOG_INFO,default:LOG_DEBUG` -/
def allInfoDefaultDebug : Setting :=
  ⟨allInfo.text ++ 44 :: defaultName ++ toDebug, by decide, by decide⟩

/-- `all:LOG_INFO` is skipped behind `all:LOG_INFO,default:LOG_DEBUG`. -/
theorem not_cacheExact_start : ¬∀ (re : Regex) (opens : Bool) (p : LogProcess)
    (first second : Setting), CacheExact re opens p first second := by
  intro exact'
  have files := (exact' plainRegex true ⟨.start, [], none⟩ allInfoDefaultDebug allInfo).2
  exact absurd files (by decide)

end LogProcess

end AmlCommonlib.AmlLog
