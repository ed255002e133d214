import AmlCommonlib.Lib.CString
import AmlCommonlib.Lib.Runs

/-! # Log categories and their level settings

`aml_log.c`: the categories form a list that `AML_LOG_DEFAULT` ends, the most recent registration in
front; a setting that no registered category matches waits in a list of its own. Matching a regular
expression is a parameter.
-/

namespace AmlCommonlib.AmlLog

/-- `regcomp` and `regexec` on the C library's regular expressions. -/
structure Regex where
  /-- `regcomp(&pattern, text, REG_NOSUB) == 0`. -/
  compiles : Bytes → Bool
  /-- `regexec(&pattern, name, 0, NULL, 0) == 0`. -/
  found : Bytes → Bytes → Bool

/-- `AMLLogType_e`. -/
inductive AMLLogType
  | debugLog
  | traceLog
deriving DecidableEq

/-- `struct AmlLogCat` without its link. -/
structure AmlLogCat where
  name : Bytes
  logLevel : ℤ
  traceLevel : ℤ
deriving DecidableEq

/-- `struct log_setting_node` without its link. -/
structure LogSettingNode where
  pattern : Bytes
  level : ℤ
deriving DecidableEq

/-- The static variables; `AML_LOG_LAST`, which has no name, is the end of `catList`. -/
structure LogState where
  catList : List AmlLogCat
  logSetting : List LogSettingNode
  traceSetting : List LogSettingNode

/-- `default` -/
def defaultName : Bytes := [100, 101, 102, 97, 117, 108, 116]

/-- `all` -/
def allName : Bytes := [97, 108, 108]

/-- `AML_LOG_DEFAULT` as it is initialised. -/
def amlLogDefault : AmlLogCat := ⟨defaultName, 1, 1⟩

/-- Before the first registration and the first setting. -/
def LogState.start : LogState := ⟨[amlLogDefault], [], []⟩

def AmlLogCat.level (cat : AmlLogCat) : AMLLogType → ℤ
  | .debugLog => cat.logLevel
  | .traceLog => cat.traceLevel

def AmlLogCat.setLevel (cat : AmlLogCat) (type : AMLLogType) (level : ℤ) : AmlLogCat :=
  match type with
  | .debugLog => { cat with logLevel := level }
  | .traceLog => { cat with traceLevel := level }

/-- `g_log_setting` or `g_trace_setting`. -/
def LogState.setting (s : LogState) : AMLLogType → List LogSettingNode
  | .debugLog => s.logSetting
  | .traceLog => s.traceSetting

def LogState.setSetting (s : LogState) (type : AMLLogType) (head : List LogSettingNode) : LogState :=
  match type with
  | .debugLog => { s with logSetting := head }
  | .traceLog => { s with traceSetting := head }

/-! ### Registration -/

/-- The level in `AML_LOG_DEFAULT`, the category that ends the list. -/
def LogState.defaultLevel (s : LogState) (type : AMLLogType) : ℤ :=
  (s.catList.getLast?.getD amlLogDefault).level type

/-- `get_log_level` and `get_trace_level`. -/
def LogState.getLevel (re : Regex) (s : LogState) (type : AMLLogType) (name : Bytes) : ℤ :=
  match (s.setting type).find? fun node => re.found node.pattern name with
  | some node => node.level
  | none => s.defaultLevel type

/-- `aml_log_add`. -/
def LogState.amlLogAdd (re : Regex) (s : LogState) (name : Bytes) : LogState :=
  { s with
    catList := ⟨name, s.getLevel re .debugLog name, s.getLevel re .traceLog name⟩ :: s.catList }

/-! ### The setting string -/

/-- `LOG_QUIET`, `LOG_ERR`, `LOG_WARNING`, `LOG_INFO`, `LOG_DEBUG`, `LOG_VERBOSE`. -/
def logLevelNames : List Bytes :=
  [[76, 79, 71, 95, 81, 85, 73, 69, 84],
    [76, 79, 71, 95, 69, 82, 82],
    [76, 79, 71, 95, 87, 65, 82, 78, 73, 78, 71],
    [76, 79, 71, 95, 73, 78, 70, 79],
    [76, 79, 71, 95, 68, 69, 66, 85, 71],
    [76, 79, 71, 95, 86, 69, 82, 66, 79, 83, 69]]

/-- `level_str_to_level`: the first name that starts the text. -/
def levelStrToLevel (text : Bytes) : ℤ :=
  match logLevelNames.findIdx? fun name => name.isPrefixOf text with
  | some level => level
  | none => -1

/-- Where the scan is: in a key, or in the value behind the key in `buf`. -/
inductive Scan
  | key (text : Bytes)
  | val (buf text : Bytes)

/-- The keys and values the scan cuts out, each cut to `buf[256]`. -/
def items : Scan → Bytes → List (Bytes × Bytes)
  | .key _, [] => []
  | .key text, c :: str =>
    if c = 58 then items (.val (snprintf 256 text) []) str else items (.key (text ++ [c])) str
  | .val buf text, [] => [(buf, snprintf 256 text)]
  | .val buf text, c :: str =>
    if c = 44 then (buf, snprintf 256 text) :: items (.key []) str
    else items (.val buf (text ++ [c])) str

/-- The list `newhead`: items whose pattern compiles and whose level is known. -/
def newNodes (re : Regex) (str : Bytes) : List LogSettingNode :=
  (items (.key []) str).filterMap fun (key, val) =>
    if re.compiles key && !(levelStrToLevel val < 0) then some ⟨key, levelStrToLevel val⟩ else none

/-! ### Applying it -/

/-- The inner loop: the first category that matches takes the level. -/
def setFirst (re : Regex) (type : AMLLogType) (node : LogSettingNode) :
    List AmlLogCat → Option (List AmlLogCat)
  | [] => none
  | cat :: cats =>
    if re.found node.pattern cat.name then some (cat.setLevel type node.level :: cats)
    else (setFirst re type node cats).map (cat :: ·)

/-- The loop over the nodes; one that nothing matches goes in front of the waiting ones. -/
def updateSub (re : Regex) (type : AMLLogType) :
    List LogSettingNode → List AmlLogCat → List LogSettingNode →
      List AmlLogCat × List LogSettingNode
  | [], cats, head => (cats, head)
  | node :: nodes, cats, head =>
    match setFirst re type node cats with
    | some cats => updateSub re type nodes cats head
    | none => updateSub re type nodes cats (node :: head)

/-- `get_setting_from_string`. -/
def LogState.getSettingFromString (re : Regex) (s : LogState) (type : AMLLogType) (str : Bytes) :
    LogState :=
  match newNodes re str with
  | [] => s
  | node :: nodes =>
    let (cats, head) :=
      if re.found node.pattern allName then
        updateSub re type nodes (s.catList.map (·.setLevel type node.level)) (s.setting type)
      else updateSub re type (node :: nodes) s.catList (s.setting type)
    { s with catList := cats }.setSetting type head

/-! ### Runs -/

inductive Action
  | set (type : AMLLogType) (str : Bytes)
  | add (name : Bytes)

def LogState.step (re : Regex) (s : LogState) : Action → LogState
  | .set type str => s.getSettingFromString re type str
  | .add name => s.amlLogAdd re name

end AmlCommonlib.AmlLog
