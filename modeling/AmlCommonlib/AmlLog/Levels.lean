import AmlCommonlib.AmlLog.Settings
import AmlCommonlib.Lib.Latest
import Mathlib.Data.List.Infix
import Mathlib.Logic.Function.Basic

/-! # The level of a category

By the law of the settings a category has the level of the latest entry that applies to it, whenever
it was registered. The code gives an entry to the first category that matches and forgets it then,
and lets an entry that matched nothing wait for every later one.
-/

namespace AmlCommonlib.AmlLog

/-! ### The history of the settings -/

/-- What becomes of an entry: it heads its string as `all`, it waits, or a category takes it. -/
inductive Kind
  | all
  | waiting
  | taken
deriving DecidableEq

structure Entry where
  pattern : Bytes
  level : ℤ
  kind : Kind
deriving DecidableEq

/-- The entry applies to a category of that name. -/
def Entry.applies (re : Regex) (name : Bytes) (e : Entry) : Bool :=
  e.kind = .all || re.found e.pattern name

/-- An entry behind the head waits when no registered name matches. -/
def subEntry (re : Regex) (names : List Bytes) (node : LogSettingNode) : Entry :=
  ⟨node.pattern, node.level, if names.any (re.found node.pattern) then .taken else .waiting⟩

/-- The entries of one setting string. -/
def entries (re : Regex) (names : List Bytes) : List LogSettingNode → List Entry
  | [] => []
  | node :: nodes =>
    (if re.found node.pattern allName then ⟨node.pattern, node.level, .all⟩
      else subEntry re names node) :: nodes.map (subEntry re names)

/-- The settings, and the history of the entries of each type. -/
structure World where
  state : LogState
  history : AMLLogType → List Entry

def World.start : World := ⟨.start, fun _ => []⟩

def catNames (cats : List AmlLogCat) : List Bytes := cats.map (·.name)

def World.names (w : World) : List Bytes := catNames w.state.catList

/-- The entries that a setting string adds to the history. -/
def World.entries (re : Regex) (w : World) (str : Bytes) : List Entry :=
  AmlLog.entries re w.names (newNodes re str)

def World.step (re : Regex) (w : World) : Action → World
  | .set type str =>
    ⟨w.state.step re (.set type str),
      Function.update w.history type (w.history type ++ w.entries re str)⟩
  | .add name => ⟨w.state.step re (.add name), w.history⟩

def WorldStep (re : Regex) (w : World) (a : Action) (w' : World) : Prop := w.step re a = w'

/-- The level by the law; the default level is that of the category `default`. -/
def settled (re : Regex) (history : List Entry) (name : Bytes) : ℤ :=
  match latest (Entry.applies re name) history with
  | some e => e.level
  | none =>
    match latest (Entry.applies re defaultName) history with
    | some e => e.level
    | none => 1

/-- Every registered category has the level of the latest entry that applies to it. -/
def Lawful (re : Regex) (w : World) : Prop :=
  ∀ type, ∀ cat ∈ w.state.catList, cat.level type = settled re (w.history type) cat.name

/-! ### Where the law is kept -/

/-- The category at that place is the first that the pattern matches. -/
def isFirst (re : Regex) (names : List Bytes) (i : ℕ) (pattern : Bytes) : Bool :=
  (names[i]?).any (re.found pattern) && !(names.take i).any (re.found pattern)

/-- The category at that place takes the level of the entry. -/
def Entry.received (re : Regex) (names : List Bytes) (i : ℕ) (e : Entry) : Bool :=
  e.kind = .all || isFirst re names i e.pattern

/-- The last entry of the string that applies to a category is one that it takes, and an entry for
`default` finds no category that lives on the default level. -/
structure SafeSet (re : Regex) (names : List Bytes) (history new : List Entry) : Prop where
  taken : ∀ i name, names[i]? = some name → ∀ e, latest (Entry.applies re name) new = some e →
    e.received re names i = true
  covered : (∃ e ∈ new, e.applies re defaultName = true) →
    ∀ name ∈ names, ∃ e ∈ history ++ new, e.applies re name = true

/-- The latest entry that applies to a new category waits for it, or is an `all` that also set the
default level and no waiting entry hides. -/
def SafeAdd (re : Regex) (name : Bytes) (history : List Entry) : Prop :=
  ∀ e, latest (Entry.applies re name) history = some e →
    e.kind = .waiting ∨ e.kind = .all ∧
      (∀ e' ∈ history, e'.kind = .waiting → re.found e'.pattern name = false) ∧
      latest (Entry.applies re defaultName) history = some e

def Safe (re : Regex) (w : World) : Action → Prop
  | .set type str => SafeSet re w.names (w.history type) (w.entries re str)
  | .add name => ∀ type, SafeAdd re name (w.history type)

/-! ### The loops -/

@[simp] theorem setLevel_name (cat : AmlLogCat) (type : AMLLogType) (level : ℤ) :
    (cat.setLevel type level).name = cat.name := by
  cases type <;> rfl

@[simp] theorem setLevel_level (cat : AmlLogCat) (type : AMLLogType) (level : ℤ) :
    (cat.setLevel type level).level type = level := by
  cases type <;> rfl

theorem setLevel_level_other (cat : AmlLogCat) {type type' : AMLLogType} (other : type' ≠ type)
    (level : ℤ) : (cat.setLevel type level).level type' = cat.level type' := by
  cases type <;> cases type' <;> first | exact absurd rfl other | rfl

@[simp] theorem setLevel_setLevel (cat : AmlLogCat) (type : AMLLogType) (level level' : ℤ) :
    (cat.setLevel type level).setLevel type level' = cat.setLevel type level' := by
  cases type <;> rfl

theorem setFirst_none {re : Regex} {type : AMLLogType} {node : LogSettingNode}
    {cats : List AmlLogCat} :
    setFirst re type node cats = none ↔ (catNames cats).any (re.found node.pattern) = false := by
  induction cats with
  | nil => simp [setFirst, catNames]
  | cons cat cats ih =>
    rw [setFirst]
    split_ifs with here
    · simp [catNames, here]
    · simpa [catNames, here] using ih

/-- The first match takes the level, and no category changes its name or place. -/
theorem setFirst_some {re : Regex} {type : AMLLogType} {node : LogSettingNode}
    {cats cats' : List AmlLogCat} (done : setFirst re type node cats = some cats') :
    catNames cats' = catNames cats ∧
    ∀ i, cats'[i]? = (cats[i]?).map fun cat =>
      if isFirst re (catNames cats) i node.pattern then cat.setLevel type node.level else cat := by
  induction cats generalizing cats' with
  | nil => cases done
  | cons cat cats ih =>
    rw [setFirst] at done
    split_ifs at done with here
    · cases done
      refine ⟨by simp [catNames], ?_⟩
      intro i
      cases i with
      | zero => simp [isFirst, catNames, here]
      | succ i => simp [isFirst, catNames, here]
    · obtain ⟨rest, later, rfl⟩ := Option.map_eq_some_iff.mp done
      obtain ⟨names, levels⟩ := ih later
      refine ⟨congrArg (cat.name :: ·) names, ?_⟩
      intro i
      cases i with
      | zero => simp [isFirst, catNames, here]
      | succ i => simp [isFirst, catNames, here, levels]

/-- The category with the level it took last, if any. -/
def AmlLogCat.take (cat : AmlLogCat) (type : AMLLogType) : Option ℤ → AmlLogCat
  | some level => cat.setLevel type level
  | none => cat

theorem AmlLogCat.take_name (cat : AmlLogCat) (type : AMLLogType) (level : Option ℤ) :
    (cat.take type level).name = cat.name := by
  cases level with
  | none => rfl
  | some level => exact setLevel_name ..

theorem AmlLogCat.take_take (cat : AmlLogCat) (type : AMLLogType) (level level' : Option ℤ) :
    (cat.take type level).take type level' = cat.take type (level'.or level) := by
  cases level' with
  | none => rfl
  | some level' =>
    cases level with
    | none => rfl
    | some level => exact setLevel_setLevel ..

/-- The level that a place takes last from the nodes. -/
def taken (re : Regex) (names : List Bytes) (i : ℕ) (nodes : List LogSettingNode) : Option ℤ :=
  (latest (fun node => isFirst re names i node.pattern) nodes).map (·.level)

theorem taken_cons (re : Regex) (names : List Bytes) (i : ℕ) (node : LogSettingNode)
    (nodes : List LogSettingNode) :
    taken re names i (node :: nodes) =
      (taken re names i nodes).or (if isFirst re names i node.pattern then some node.level else none) := by
  rw [taken, latest_cons, taken]
  cases later : latest (fun node => isFirst re names i node.pattern) nodes with
  | some node => rfl
  | none => split_ifs <;> rfl

theorem isFirst_of_unmatched {re : Regex} {names : List Bytes} {pattern : Bytes}
    (unmatched : names.any (re.found pattern) = false) (i : ℕ) :
    isFirst re names i pattern = false := by
  rw [isFirst, Bool.and_eq_false_iff]
  left
  cases here : names[i]? with
  | none => rfl
  | some name => simpa using List.any_eq_false.mp unmatched name (List.mem_of_getElem? here)

theorem updateSub_spec {re : Regex} {type : AMLLogType} (nodes : List LogSettingNode)
    (cats : List AmlLogCat) (head : List LogSettingNode) :
    catNames (updateSub re type nodes cats head).1 = catNames cats ∧
    (∀ i : ℕ, (updateSub re type nodes cats head).1[i]? =
      (cats[i]?).map fun cat => cat.take type (taken re (catNames cats) i nodes)) ∧
    (updateSub re type nodes cats head).2 =
      (nodes.filter fun node => !(catNames cats).any (re.found node.pattern)).reverse ++ head := by
  induction nodes generalizing cats head with
  | nil => simp [updateSub, taken, AmlLogCat.take]
  | cons node nodes ih =>
    rw [updateSub]
    cases first : setFirst re type node cats with
    | none =>
      have unmatched := setFirst_none.mp first
      obtain ⟨names, levels, waiting⟩ := ih cats (node :: head)
      refine ⟨names, ?_, ?_⟩
      · intro i
        simp only [levels, taken_cons, isFirst_of_unmatched unmatched, Bool.false_eq_true, if_false,
          Option.or_none]
      · simp [waiting, unmatched]
    | some cats' =>
      obtain ⟨names', levels'⟩ := setFirst_some first
      obtain ⟨names, levels, waiting⟩ := ih cats' head
      have matched : (catNames cats).any (re.found node.pattern) = true := by
        by_contra unmatched
        rw [setFirst_none.mpr (by simpa using unmatched)] at first
        cases first
      refine ⟨names.trans names', ?_, ?_⟩
      · intro i
        rw [levels, levels', names', Option.map_map]
        congr 1
        funext cat
        rw [taken_cons, ← AmlLogCat.take_take, Function.comp_apply]
        split_ifs <;> rfl
      · rw [waiting, names', List.filter_cons, matched]
        rfl

/-! ### One setting string -/

/-- The node of an entry. -/
def Entry.node (e : Entry) : LogSettingNode := ⟨e.pattern, e.level⟩

/-- The nodes of the entries that wait, the last one in front. -/
def waitingNodes (history : List Entry) : List LogSettingNode :=
  ((history.filter fun e => e.kind = .waiting).reverse).map Entry.node

theorem waitingNodes_append (old new : List Entry) :
    waitingNodes (old ++ new) = waitingNodes new ++ waitingNodes old := by
  simp [waitingNodes]

theorem subEntry_kind (re : Regex) (names : List Bytes) (node : LogSettingNode) :
    (subEntry re names node).kind =
      if names.any (re.found node.pattern) then .taken else .waiting := rfl

theorem waitingNodes_sub (re : Regex) (names : List Bytes) (nodes : List LogSettingNode) :
    waitingNodes (nodes.map (subEntry re names)) =
      (nodes.filter fun node => !names.any (re.found node.pattern)).reverse := by
  have waits : ((fun e : Entry => decide (e.kind = .waiting)) ∘ subEntry re names) =
      fun node => !names.any (re.found node.pattern) := by
    funext node
    rw [Function.comp_apply, subEntry_kind]
    cases names.any (re.found node.pattern) <;> rfl
  have back : Entry.node ∘ subEntry re names = id := rfl
  rw [waitingNodes, List.filter_map, waits, ← List.map_reverse, List.map_map, back, List.map_id]

theorem received_sub (re : Regex) (names : List Bytes) (i : ℕ) (nodes : List LogSettingNode) :
    (latest (Entry.received re names i) (nodes.map (subEntry re names))).map (·.level) =
      taken re names i nodes := by
  have received : Entry.received re names i ∘ subEntry re names =
      fun node => isFirst re names i node.pattern := by
    funext node
    rw [Function.comp_apply, Entry.received, subEntry_kind]
    cases names.any (re.found node.pattern) <;> rfl
  rw [latest_map, received, Option.map_map, taken]
  rfl

theorem setSetting_setting (s : LogState) (type : AMLLogType) (head : List LogSettingNode) :
    (s.setSetting type head).setting type = head := by
  cases type <;> rfl

theorem setSetting_other (s : LogState) {type type' : AMLLogType} (other : type' ≠ type)
    (head : List LogSettingNode) : (s.setSetting type head).setting type' = s.setting type' := by
  cases type <;> cases type' <;> first | exact absurd rfl other | rfl

theorem setSetting_catList (s : LogState) (type : AMLLogType) (head : List LogSettingNode) :
    (s.setSetting type head).catList = s.catList := by
  cases type <;> rfl

/-- What a setting string does: each category takes the last entry it receives, and the entries
that match none wait. -/
structure Applied (re : Regex) (type : AMLLogType) (new : List Entry) (s t : LogState) : Prop where
  names : catNames t.catList = catNames s.catList
  levels : ∀ i : ℕ, t.catList[i]? = (s.catList[i]?).map fun cat =>
    cat.take type ((latest (Entry.received re (catNames s.catList) i) new).map (·.level))
  waiting : t.setting type = waitingNodes new ++ s.setting type
  other : ∀ type', type' ≠ type → t.setting type' = s.setting type'

theorem set_applied (re : Regex) (s : LogState) (type : AMLLogType) (str : Bytes) :
    Applied re type (entries re (catNames s.catList) (newNodes re str)) s
      (s.getSettingFromString re type str) := by
  rw [LogState.getSettingFromString]
  cases newNodes re str with
  | nil =>
    refine ⟨rfl, ?_, rfl, fun _ _ => rfl⟩
    intro i
    simp [entries, AmlLogCat.take]
  | cons node nodes =>
    by_cases all : re.found node.pattern allName = true
    · simp only [entries, all, if_true]
      have renamed : catNames (s.catList.map (·.setLevel type node.level)) = catNames s.catList := by
        simp [catNames]
      obtain ⟨names, levels, waiting⟩ :=
        @updateSub_spec re type nodes (s.catList.map (·.setLevel type node.level))
          (s.setting type)
      rw [renamed] at names levels waiting
      refine ⟨?_, ?_, ?_, ?_⟩
      · rw [setSetting_catList]
        exact names
      · intro i
        rw [setSetting_catList, levels, List.getElem?_map, Option.map_map]
        congr 1
        funext cat
        have head : Entry.received re (catNames s.catList) i ⟨node.pattern, node.level, .all⟩ = true :=
          rfl
        rw [latest_cons, head, if_pos rfl, Option.map_or, received_sub, Option.map_some,
          ← AmlLogCat.take_take]
        rfl
      · rw [setSetting_setting, waiting, ← waitingNodes_sub re (catNames s.catList) nodes]
        rfl
      · intro type' other
        exact setSetting_other _ other _
    · simp only [entries, all, Bool.false_eq_true, if_false]
      rw [← List.map_cons]
      obtain ⟨names, levels, waiting⟩ :=
        @updateSub_spec re type (node :: nodes) s.catList (s.setting type)
      refine ⟨?_, ?_, ?_, ?_⟩
      · rw [setSetting_catList]
        exact names
      · intro i
        rw [setSetting_catList, levels]
        congr 1
        funext cat
        rw [received_sub]
      · rw [setSetting_setting, waiting, waitingNodes_sub]
      · intro type' other
        exact setSetting_other _ other _

/-! ### The law -/

theorem settled_of_latest {re : Regex} {history : List Entry} {name : Bytes} {e : Entry}
    (last : latest (Entry.applies re name) history = some e) : settled re history name = e.level := by
  rw [settled, last]

/-- A category that no entry applies to is on the default level. -/
theorem settled_of_none {re : Regex} {history : List Entry} {name : Bytes}
    (none' : latest (Entry.applies re name) history = none) :
    settled re history name = settled re history defaultName := by
  rw [settled, none', settled]
  cases latest (Entry.applies re defaultName) history <;> rfl

/-- What holds along with the law: what waits is in the history, and the list ends in `default`. -/
structure Invariant (re : Regex) (w : World) : Prop where
  lawful : Lawful re w
  waiting : ∀ type, w.state.setting type = waitingNodes (w.history type)
  last : w.names.getLast? = some defaultName

theorem Invariant.start (re : Regex) : Invariant re .start where
  lawful := by
    intro type cat member
    obtain rfl := List.mem_singleton.mp member
    cases type <;> rfl
  waiting type := by cases type <;> rfl
  last := rfl

theorem Invariant.defaultLevel {re : Regex} {w : World} (inv : Invariant re w) (type : AMLLogType) :
    w.state.defaultLevel type = settled re (w.history type) defaultName := by
  have last := inv.last
  rw [World.names, catNames, List.getLast?_map, Option.map_eq_some_iff] at last
  obtain ⟨cat, found, name⟩ := last
  rw [LogState.defaultLevel, found, Option.getD_some, ← name]
  exact inv.lawful type cat (List.mem_of_getLast? found)

theorem AmlLogCat.take_level_other (cat : AmlLogCat) {type type' : AMLLogType}
    (other : type' ≠ type) (level : Option ℤ) : (cat.take type level).level type' = cat.level type' := by
  cases level with
  | none => rfl
  | some level => exact setLevel_level_other cat other level

/-- A safe setting string keeps the law for its type. -/
theorem settled_set {re : Regex} {names : List Bytes} {history new : List Entry}
    (safe : SafeSet re names history new) {type : AMLLogType} {i : ℕ} {cat : AmlLogCat}
    (place : names[i]? = some cat.name) (lawful : cat.level type = settled re history cat.name) :
    (cat.take type ((latest (Entry.received re names i) new).map (·.level))).level type =
      settled re (history ++ new) cat.name := by
  have weaker : ∀ e ∈ new, e.received re names i = true → e.applies re cat.name = true := by
    intro e _ received
    rw [Entry.received, Bool.or_eq_true] at received
    rw [Entry.applies, Bool.or_eq_true]
    rcases received with all | first
    · exact .inl all
    · rw [isFirst, place, Bool.and_eq_true] at first
      exact .inr first.1
  cases last : latest (Entry.applies re cat.name) new with
  | some e =>
    rw [latest_of_stronger weaker last (safe.taken i cat.name place e last),
      settled_of_latest (latest_append_some last)]
    exact setLevel_level ..
  | none =>
    have nothing : latest (Entry.received re names i) new = none := by
      rw [latest_eq_none_iff] at last ⊢
      intro e member
      by_contra received
      exact absurd (weaker e member (by simpa using received)) (by simp [last e member])
    rw [nothing]
    change cat.level type = _
    rw [lawful]
    cases before : latest (Entry.applies re cat.name) history with
    | some e =>
      rw [settled_of_latest before]
      exact (settled_of_latest ((latest_append_none last).trans before)).symm
    | none =>
      rw [settled_of_none before, settled_of_none ((latest_append_none last).trans before)]
      have still : latest (Entry.applies re defaultName) new = none := by
        rw [latest_eq_none_iff]
        intro e member
        by_contra applies
        obtain ⟨e', member', applies'⟩ :=
          safe.covered ⟨e, member, by simpa using applies⟩ cat.name (List.mem_of_getElem? place)
        have none' := latest_eq_none_iff.mp ((latest_append_none last).trans before) e' member'
        exact absurd (applies'.symm.trans none') (by decide)
      rw [settled, settled, latest_append_none still]

theorem set_history_self (re : Regex) (w : World) (type : AMLLogType) (str : Bytes) :
    (w.step re (.set type str)).history type = w.history type ++ w.entries re str :=
  Function.update_self ..

theorem set_history_other (re : Regex) (w : World) {type type' : AMLLogType} (other : type' ≠ type)
    (str : Bytes) : (w.step re (.set type str)).history type' = w.history type' :=
  Function.update_of_ne other _ _

theorem Invariant.set {re : Regex} {w : World} (inv : Invariant re w) {type : AMLLogType}
    {str : Bytes} (safe : Safe re w (.set type str)) : Invariant re (w.step re (.set type str)) := by
  have applied := set_applied re w.state type str
  refine ⟨?_, ?_, ?_⟩
  · intro type' cat' member
    obtain ⟨i, place⟩ := List.mem_iff_getElem?.mp member
    change (w.state.getSettingFromString re type str).catList[i]? = some cat' at place
    rw [applied.levels, Option.map_eq_some_iff] at place
    obtain ⟨cat, here, rfl⟩ := place
    have lawful := inv.lawful type' cat (List.mem_of_getElem? here)
    rw [AmlLogCat.take_name]
    by_cases same : type' = type
    · subst same
      rw [set_history_self]
      have named : w.names[i]? = some cat.name := by
        rw [World.names, catNames, List.getElem?_map, here, Option.map_some]
      exact settled_set safe named lawful
    · rw [set_history_other re w same, AmlLogCat.take_level_other cat same, lawful]
  · intro type'
    by_cases same : type' = type
    · subst same
      rw [set_history_self, waitingNodes_append, ← inv.waiting]
      exact applied.waiting
    · rw [set_history_other re w same, ← inv.waiting]
      exact applied.other type' same
  · rw [← inv.last]
    exact congrArg List.getLast? applied.names

/-- The waiting entries are searched from the last one. -/
theorem find_waiting (re : Regex) (history : List Entry) (name : Bytes) :
    (waitingNodes history).find? (fun node => re.found node.pattern name) =
      (latest (fun e => e.kind = .waiting && re.found e.pattern name) history).map Entry.node := by
  have nested : latest (fun e => re.found e.pattern name)
      (history.filter fun e => e.kind = .waiting) =
      latest (fun e => e.kind = .waiting && re.found e.pattern name) history := by
    rw [latest, latest, List.filter_filter]
    simp only [Bool.and_comm]
  rw [waitingNodes, List.find?_map, ← nested, ← find?_reverse]
  rfl

/-- A safe registration gives the new category its level by the law. -/
theorem getLevel_eq {re : Regex} {w : World} (inv : Invariant re w) {name : Bytes}
    {type : AMLLogType} (safe : SafeAdd re name (w.history type)) :
    w.state.getLevel re type name = settled re (w.history type) name := by
  have weaker : ∀ e ∈ w.history type, (e.kind = .waiting && re.found e.pattern name) = true →
      e.applies re name = true := by
    intro e _ waits
    rw [Bool.and_eq_true] at waits
    rw [Entry.applies, Bool.or_eq_true]
    exact .inr waits.2
  rw [LogState.getLevel, inv.waiting, find_waiting, inv.defaultLevel]
  cases last : latest (Entry.applies re name) (w.history type) with
  | none =>
    have nothing : latest (fun e => e.kind = .waiting && re.found e.pattern name)
        (w.history type) = none := by
      rw [latest_eq_none_iff] at last ⊢
      intro e member
      by_contra waits
      exact absurd (weaker e member (by simpa using waits)) (by simp [last e member])
    rw [nothing, settled_of_none last]
    rfl
  | some e =>
    rw [settled_of_latest last]
    rcases safe e last with waits | ⟨all, hidden, default⟩
    · have found : (e.kind = .waiting && re.found e.pattern name) = true := by
        have applies := (latest_mem last).2
        rw [Entry.applies, waits] at applies
        simpa [waits] using applies
      rw [latest_of_stronger weaker last found]
      rfl
    · have nothing : latest (fun e => e.kind = .waiting && re.found e.pattern name)
          (w.history type) = none := by
        rw [latest_eq_none_iff]
        intro e' member
        by_cases waits : e'.kind = .waiting
        · simp [hidden e' member waits]
        · simp [waits]
      rw [nothing, settled_of_latest default]
      rfl

theorem Invariant.add {re : Regex} {w : World} (inv : Invariant re w) {name : Bytes}
    (safe : Safe re w (.add name)) : Invariant re (w.step re (.add name)) := by
  refine ⟨?_, ?_, ?_⟩
  · intro type cat member
    rcases List.mem_cons.mp member with rfl | old
    · change _ = settled re (w.history type) name
      rw [← getLevel_eq inv (safe type)]
      cases type <;> rfl
    · exact inv.lawful type cat old
  · intro type
    exact (inv.waiting type).symm ▸ by cases type <;> rfl
  · have last := inv.last
    rw [World.names, catNames] at last ⊢
    change ((name :: w.state.catList.map (·.name))).getLast? = _
    rw [List.getLast?_cons, last]
    rfl

/-- In every run whose settings and registrations are safe, every registered category has the level
of the latest entry that applies to it. -/
theorem lawful_of_safe {re : Regex} {ls : List Action} {w : World}
    (run : Run (Guarded (Safe re) (WorldStep re)) .start ls w) : Lawful re w := by
  have inv : Invariant re w := by
    apply run.preserves _ (Invariant.start re)
    rintro w a t inv ⟨safe, rfl⟩
    cases a with
    | set type str => exact inv.set safe
    | add name => exact inv.add safe
  exact inv.lawful

/-- Regular expressions without special characters match where they occur in the name. -/
def plainRegex : Regex := ⟨fun _ => true, fun pattern name => decide (pattern <:+: name)⟩

/-- `net` -/
def netName : Bytes := [110, 101, 116]

/-- `:LOG_DEBUG` -/
def toDebug : Bytes := [58, 76, 79, 71, 95, 68, 69, 66, 85, 71]

/-- `net` is registered and then set to `LOG_DEBUG`. -/
theorem lawful_of_safe_sample :
    Lawful plainRegex ((World.start.step plainRegex (.add netName)).step plainRegex
      (.set .debugLog (netName ++ toDebug))) := by
  have added : Safe plainRegex .start (.add netName) := fun _ e last => by cases last
  have set : Safe plainRegex (World.start.step plainRegex (.add netName))
      (.set .debugLog (netName ++ toDebug)) := by
    have new : (World.start.step plainRegex (.add netName)).entries plainRegex
        (netName ++ toDebug) = [⟨netName, 4, .taken⟩] := by decide +kernel
    rw [Safe, new]
    constructor
    · intro i name place e last
      obtain ⟨member, applies⟩ := latest_mem last
      obtain rfl := List.mem_singleton.mp member
      match i, place with
      | 0, _ => decide +kernel
      | 1, place =>
        cases place
        exact absurd applies (by decide +kernel)
    · rintro ⟨e, member, applies⟩
      obtain rfl := List.mem_singleton.mp member
      exact absurd applies (by decide +kernel)
  exact lawful_of_safe (.cons ⟨added, rfl⟩ (.cons ⟨set, rfl⟩ (.nil _)))

/-- With `net` and `network` registered in this order, `net:LOG_DEBUG` sets `network` alone. -/
theorem not_lawful_prefix_name :
    ¬∀ re ls w, Run (WorldStep re) .start ls w → Lawful re w := by
  intro lawful
  have law := lawful plainRegex
    [.add netName, .add (netName ++ [119, 111, 114, 107]), .set .debugLog (netName ++ toDebug)] _
    (.cons rfl (.cons rfl (.cons rfl (.nil _)))) .debugLog ⟨netName, 1, 1⟩
  exact absurd (law (by decide +kernel)) (by decide +kernel)

end AmlCommonlib.AmlLog
