import AmlCommonlib.Lib.CString
import AmlCommonlib.Lib.Runs
import AmlCommonlib.Lib.StdString
import Mathlib.Logic.Function.Basic

/-! # The property store

One function of the key selects among three stores: read-only properties in memory, persistent ones
in the database, temporary ones in memory. The database is a map that survives the process; the maps
in memory are the process's own.
-/

namespace AmlCommonlib.PropertyServer

abbrev Map := Bytes → Option Bytes

def Map.empty : Map := fun _ => none

def Map.insert (m : Map) (key value : Bytes) : Map := Function.update m key (some value)

def Map.erase (m : Map) (key : Bytes) : Map := Function.update m key none

/-- `isspace` in the classic locale. -/
def isspace (c : UInt8) : Bool := c = 32 || (9 ≤ c && c ≤ 13)

/-- `trim`. -/
def trim (s : Bytes) : Bytes := AmlCommonlib.trim isspace s

inductive DataAttr
  | temp
  | persist
  | ro
deriving DecidableEq

/-- `ro.` -/
def roPrefix : Bytes := [114, 111, 46]

/-- `persist.` -/
def persistPrefix : Bytes := [112, 101, 114, 115, 105, 115, 116, 46]

/-- `get_attribute`. -/
def getAttribute (key : Bytes) : DataAttr :=
  if rfind roPrefix key = some 0 then .ro
  else if rfind persistPrefix key = some 0 then .persist
  else .temp

/-- The static variables and the database. `persistDb` tells whether the database is open. -/
structure Store where
  persistDb : Bool
  disk : Map
  ro : Map
  temp : Map

/-- Before the first start. -/
def Store.new : Store := ⟨false, .empty, .empty, .empty⟩

/-! ### The table of stores -/

/-- `gs_database[attr].get`. -/
def Store.dbGet (s : Store) : DataAttr → Bytes → Option Bytes
  | .temp, key => s.temp key
  | .persist, key => if !s.persistDb || key = [] then none else s.disk key
  | .ro, key => s.ro key

/-- `gs_database[attr].set`; the read-only store has none. A write of the database may fail. -/
def Store.dbSet (s : Store) (writes : Bool) : DataAttr → Bytes → Bytes → Bool × Store
  | .temp, key, value => (true, { s with temp := s.temp.insert key value })
  | .persist, key, value =>
    if !s.persistDb || key = [] || !writes then (false, s)
    else (true, { s with disk := s.disk.insert key value })
  | .ro, _, _ => (false, s)

/-- `gs_database[attr].del`. -/
def Store.dbDel (s : Store) (writes : Bool) : DataAttr → Bytes → Bool × Store
  | .temp, key => (true, { s with temp := s.temp.erase key })
  | .persist, key =>
    if !s.persistDb || key = [] || !writes then (false, s)
    else (true, { s with disk := s.disk.erase key })
  | .ro, _ => (false, s)

/-- `list`: `insert` keeps the entry of the store that was listed first. -/
def Store.list (s : Store) : Map := fun key =>
  (s.temp key).orElse fun _ => ((if s.persistDb then s.disk key else none).orElse fun _ => s.ro key)

/-! ### Starting and stopping -/

/-- One line of the properties file: the entries for the read-only map and for the batch. -/
def Store.loadLine (s : Store) (acc : Map × List (Bytes × Bytes)) (line : Bytes) :
    Map × List (Bytes × Bytes) :=
  match getlines 61 line with
  | k :: v :: _ =>
    let key := trim k
    match getAttribute key with
    | .ro => (acc.1.insert key v, acc.2)
    | .persist => if s.persistDb && (s.disk key).isNone then (acc.1, acc.2 ++ [(k, v)]) else acc
    | .temp => acc
  | _ => acc

/-- `load_device_properties`; `none` is a file that cannot be opened. -/
def Store.loadDeviceProperties (s : Store) (writes : Bool) : Option Bytes → Store
  | none => s
  | some file =>
    let (ro, batch) := (getlines 10 file).foldl s.loadLine (s.ro, [])
    let disk :=
      if s.persistDb && writes then batch.foldl (fun d e => d.insert e.1 e.2) s.disk else s.disk
    { s with ro := ro, disk := disk }

/-- `init`: the database may fail to open, and to take the batch. -/
def Store.init (s : Store) (opens writes : Bool) (file : Option Bytes) : Store :=
  { s with persistDb := s.persistDb || opens }.loadDeviceProperties writes file

def Store.deinit (s : Store) : Store := { s with persistDb := false }

/-- A new process on the same database. -/
def Store.relaunch (s : Store) : Store := { Store.new with disk := s.disk }

/-! ### Setting and getting -/

inductive Change
  | deleted
  | modified
  | added
deriving DecidableEq

/-- `PropertyChangedEvent`. -/
structure PropertyChangedEvent where
  event : ℤ
  ns : String
  key : Bytes
  action : Change
  value : Bytes
  oldvalue : Bytes

/-- What a `set` returns, the event it sends and the stores it leaves. -/
structure SetResult where
  ret : Bool
  event : Option PropertyChangedEvent
  store : Store

def changed (action : Change) (key value oldValue : Bytes) : Bool × Store → SetResult
  | (true, s) => ⟨true, some ⟨0, "property", key, action, value, oldValue⟩, s⟩
  | (false, s) => ⟨false, none, s⟩

/-- `internal_set`. -/
def Store.internalSet (s : Store) (writes : Bool) (key value : Bytes) : SetResult :=
  let attr := getAttribute key
  if key = [] then ⟨false, none, s⟩
  else if attr = .ro then ⟨false, none, s⟩
  else
    match s.dbGet attr key with
    | some oldValue =>
      if value = [] then changed .deleted key oldValue oldValue (s.dbDel writes attr key)
      else if oldValue = value then ⟨true, none, s⟩
      else changed .modified key value oldValue (s.dbSet writes attr key value)
    | none =>
      if value = [] then ⟨true, none, s⟩
      else changed .added key value [] (s.dbSet writes attr key value)

/-- `get`. -/
def Store.get (s : Store) (key : Bytes) : Option Bytes := s.dbGet (getAttribute (trim key)) (trim key)

/-- `set`. -/
def Store.set (s : Store) (writes : Bool) (key value : Bytes) : SetResult :=
  s.internalSet writes (trim key) (trim value)

/-! ### Runs -/

inductive Action
  | set (writes : Bool) (key value : Bytes)
  | init (opens writes : Bool) (file : Option Bytes)
  | deinit
  | relaunch

def Store.step (s : Store) : Action → Store
  | .set writes key value => (s.set writes key value).store
  | .init opens writes file => s.init opens writes file
  | .deinit => s.deinit
  | .relaunch => s.relaunch

def StoreStep (s : Store) (a : Action) (t : Store) : Prop := s.step a = t

end AmlCommonlib.PropertyServer
