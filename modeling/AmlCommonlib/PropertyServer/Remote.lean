import AmlCommonlib.Dbus.MethodCall
import AmlCommonlib.PropertyServer.Listing

/-! # The property service over the bus

The server puts the functions of the property store behind method calls and sends every change event
as a signal; the client library has the same functions as proxies. What a client sees is what the
store does with the C strings of its arguments.
-/

namespace AmlCommonlib.PropertyServer

open Dbus (Ty Tys Entries MethodType Reader Unpacked)

/-- The terminated string that an argument becomes. -/
def cStr (s : Bytes) : Bytes := s.takeWhile (· != 0)

/-! ### The methods of the server -/

/-- `bool get(const std::string &key, std::string &value)`. -/
@[reducible] def getType : MethodType := ⟨.simple .bool, .cons .string (.cons .string .nil), (· == 1)⟩

/-- `bool set(const std::string &key, const std::string &value)`. -/
@[reducible] def setType : MethodType :=
  ⟨.simple .bool, .cons .string (.cons .string .nil), fun _ => false⟩

/-- `std::map<std::string, std::string> list()`. -/
@[reducible] def listType : MethodType := ⟨.map .string .string, .nil, fun _ => false⟩

/-- `internal::get`: a key that is not found leaves `value` alone. -/
def internalGet : getType.Callback Store := fun (key, value, ()) s =>
  match s.get key with
  | some v => ((true, key, v, ()), s)
  | none => ((false, key, value, ()), s)

/-- `internal::set`, with the event it sends. -/
def internalSetCall (writes : Bool) : setType.Callback (Store × Option PropertyChangedEvent) :=
  fun (key, value, ()) s =>
    let r := s.1.set writes key value
    ((r.ret, key, value, ()), (r.store, r.event))

/-- `internal::list` with the entries it returns. -/
def internalList (entries : Entries Bytes Bytes) : listType.Callback Store := fun _ s => ((entries, ()), s)

/-! ### The signal -/

def Change.text : Change → Bytes
  | .deleted => [100, 101, 108, 101, 116, 101, 100]
  | .modified => [109, 111, 100, 105, 102, 105, 101, 100]
  | .added => [97, 100, 100, 101, 100]

/-- `property`. -/
def nsText : Bytes := [112, 114, 111, 112, 101, 114, 116, 121]

/-- `int, std::string, std::string, std::string, std::string, std::string`. -/
@[reducible] def signalArgs : Tys :=
  .cons (.simple .int32) (.cons .string (.cons .string (.cons .string (.cons .string
    (.cons .string .nil)))))

/-- The members of an event, whose number and name space are constants. -/
def PropertyChangedEvent.fields (e : PropertyChangedEvent) : signalArgs.Val :=
  (⟨0, by decide⟩, nsText, e.key, e.action.text, e.value, e.oldvalue, ())

/-- `onChanged`: the message of the signal. -/
def onChanged (e : PropertyChangedEvent) : Reader :=
  (signalArgs.packall (fun _ => true) e.fields .new).2.sealed

/-- `dbus_signal_handle` up to the callback: the event it is called with. -/
def dbusSignalHandle (message : Reader) : Option signalArgs.Val :=
  let e := signalArgs.unpackall (fun _ => true) message signalArgs.empty
  if e.ret < 0 then none else some e.val

/-! ### The client -/

/-- `get` of the client: the value if there is one. -/
def clientGet (io : MethodType.CallIo) (key : Bytes) (s : Store) : Option Bytes :=
  let r := getType.proxyCall internalGet io (key, [], ()) s
  let ret : Bool := r.1.1
  if ret then some r.1.2.2.1 else none

/-- `set` of the client: what it returns, the store, and what subscribers are called with. -/
def clientSet (io : MethodType.CallIo) (writes : Bool) (key value : Bytes) (s : Store) :
    Bool × Store × Option signalArgs.Val :=
  let r := setType.proxyCall (internalSetCall writes) io (key, value, ()) (s, none)
  (r.1.1, r.2.1, r.2.2.bind fun e => dbusSignalHandle (onChanged e))

/-- `list` of the client. -/
def clientList (io : MethodType.CallIo) (entries : Entries Bytes Bytes) (s : Store) :
    Entries Bytes Bytes :=
  (listType.proxyCall (internalList entries) io () s).1.1

inductive Request
  | get (key : Bytes)
  | set (writes : Bool) (key value : Bytes)
  | list

inductive Answer
  | value (found : Option Bytes)
  | done (ret : Bool) (event : Option signalArgs.Val)
  | entries (listed : Entries Bytes Bytes)

/-- These are the entries of all stores. -/
def Lists (s : Store) (entries : Entries Bytes Bytes) : Prop :=
  ∀ k v, (k, v) ∈ entries.1 ↔ s.list k = some v

/-- A call of the store itself. -/
inductive Local : Store → Request × Answer → Store → Prop
  | get (s : Store) (key : Bytes) : Local s (.get key, .value (s.get key)) s
  | set (s : Store) (writes : Bool) (key value : Bytes) :
      Local s (.set writes key value, .done (s.set writes key value).ret
        ((s.set writes key value).event.map PropertyChangedEvent.fields)) (s.set writes key value).store
  | list (s : Store) (entries : Entries Bytes Bytes) (lists : Lists s entries) :
      Local s (.list, .entries entries) s

/-- A call of some client. -/
inductive Remote (io : MethodType.CallIo) : Store → Request × Answer → Store → Prop
  | get (s : Store) (key : Bytes) : Remote io s (.get key, .value (clientGet io key s)) s
  | set (s : Store) (writes : Bool) (key value : Bytes) :
      Remote io s (.set writes key value, .done (clientSet io writes key value s).1
        (clientSet io writes key value s).2.2) (clientSet io writes key value s).2.1
  | list (s : Store) (entries : Entries Bytes Bytes) (lists : Lists s entries) :
      Remote io s (.list, .entries (clientList io entries s)) s

/-- The strings of a request as the server gets them. -/
def Request.cStr : Request → Request
  | .get key => .get (PropertyServer.cStr key)
  | .set writes key value => .set writes (PropertyServer.cStr key) (PropertyServer.cStr value)
  | .list => .list

/-! ### Strings without a terminator -/

def PlainMap (m : Map) : Prop := ∀ k v, m k = some v → IsCString k ∧ IsCString v

/-- No string in the stores contains a terminator. -/
structure Terminated (s : Store) : Prop where
  disk : PlainMap s.disk
  ro : PlainMap s.ro
  temp : PlainMap s.temp

theorem PlainMap.insert {m : Map} {key value : Bytes} (plain : PlainMap m) (left : IsCString key)
    (right : IsCString value) : PlainMap (m.insert key value) := by
  intro k v stored
  by_cases same : k = key
  · subst same
    rw [Map.insert, Function.update_self] at stored
    obtain rfl := Option.some.inj stored
    exact ⟨left, right⟩
  · rw [Map.insert, Function.update_of_ne same] at stored
    exact plain k v stored

theorem PlainMap.erase {m : Map} (plain : PlainMap m) (key : Bytes) : PlainMap (m.erase key) := by
  intro k v stored
  by_cases same : k = key
  · rw [Map.erase, same, Function.update_self] at stored
    cases stored
  · rw [Map.erase, Function.update_of_ne same] at stored
    exact plain k v stored

theorem plain_trim {s : Bytes} (plain : IsCString s) : IsCString (trim s) := by
  intro member
  have inner := (List.dropWhile_suffix isspace).subset member
  exact plain ((List.rdropWhile_prefix isspace s).subset inner)

theorem Terminated.dbGet {s : Store} {attr : DataAttr} {key v : Bytes} (plain : Terminated s)
    (stored : s.dbGet attr key = some v) : IsCString v := by
  cases attr with
  | temp => exact (plain.temp key v stored).2
  | ro => exact (plain.ro key v stored).2
  | persist =>
    rw [Store.dbGet] at stored
    split_ifs at stored
    exact (plain.disk key v stored).2

theorem Terminated.set {s : Store} {key value : Bytes} (plain : Terminated s) (left : IsCString key)
    (right : IsCString value) (writes : Bool) : Terminated (s.set writes key value).store := by
  have key' := plain_trim left
  have value' := plain_trim right
  rcases set_store s writes key value with same | same | same <;> rw [same]
  · exact plain
  · cases getAttribute (trim key) with
    | temp => exact ⟨plain.disk, plain.ro, plain.temp.insert key' value'⟩
    | ro => exact plain
    | persist =>
      rw [Store.dbSet]
      split_ifs
      · exact plain
      · exact ⟨plain.disk.insert key' value', plain.ro, plain.temp⟩
  · cases getAttribute (trim key) with
    | temp => exact ⟨plain.disk, plain.ro, plain.temp.erase _⟩
    | ro => exact plain
    | persist =>
      rw [Store.dbDel]
      split_ifs
      · exact plain
      · exact ⟨plain.disk.erase _, plain.ro, plain.temp⟩

theorem Terminated.list {s : Store} (plain : Terminated s) : PlainMap s.list := by
  intro k v listed
  rw [Store.list] at listed
  cases temp : s.temp k with
  | some w =>
    rw [temp] at listed
    cases listed
    exact plain.temp k v temp
  | none =>
    rw [temp] at listed
    cases disk : (if s.persistDb then s.disk k else none) with
    | some w =>
      rw [disk] at listed
      cases listed
      split_ifs at disk
      exact plain.disk k v disk
    | none =>
      rw [disk] at listed
      exact plain.ro k v listed

theorem event_plain {s : Store} {writes : Bool} {key value : Bytes} {e : PropertyChangedEvent}
    (plain : Terminated s) (left : IsCString key) (right : IsCString value)
    (sent : (s.set writes key value).event = some e) :
    IsCString e.key ∧ IsCString e.value ∧ IsCString e.oldvalue := by
  have key' := plain_trim left
  have value' := plain_trim right
  have changes : ∀ {action old} {r : Bool × Store} {v : Bytes}, IsCString v → IsCString old →
      (changed action (trim key) v old r).event = some e →
      IsCString e.key ∧ IsCString e.value ∧ IsCString e.oldvalue := by
    rintro action old ⟨_ | _, t⟩ v plainV plainOld same
    · cases same
    · cases same
      exact ⟨key', plainV, plainOld⟩
  by_cases readonly : getAttribute (trim key) = .ro
  · simp only [Store.set, Store.internalSet, readonly, if_true] at sent
    split_ifs at sent
  · by_cases empty : trim key = []
    · simp only [Store.set, Store.internalSet, empty, if_true] at sent
      cases sent
    · rw [Store.set] at sent
      rcases internalSet_cases readonly empty with
        ⟨old, stored, ⟨-, done⟩ | ⟨-, -, done⟩ | ⟨-, -, done⟩⟩ | ⟨-, ⟨-, done⟩ | ⟨-, done⟩⟩ <;>
        rw [done] at sent
      · exact changes (plain.dbGet stored) (plain.dbGet stored) sent
      · cases sent
      · exact changes value' (plain.dbGet stored) sent
      · cases sent
      · exact changes value' (by decide) sent

/-! ### The proxies -/

/-- A signal calls the callback with the event. -/
theorem signal_eq {e : PropertyChangedEvent} (key : IsCString e.key) (value : IsCString e.value)
    (old : IsCString e.oldvalue) : dbusSignalHandle (onChanged e) = some e.fields := by
  have flat : signalArgs.Flat fun _ => true := by simp [Tys.Flat, Ty.Flat]
  have plain : signalArgs.NulFree (fun _ => true) e.fields := by
    have action : IsCString e.action.text := by cases e.action <;> decide
    have ns : IsCString nsText := by decide
    simp [Tys.NulFree, Ty.NulFree, PropertyChangedEvent.fields, key, value, old, action, ns]
  have packed := signalArgs.packall_eq (Tys.Flat.restorable _ flat) e.fields .new
  rw [Dbus.Writer.appendAll_new] at packed
  have message : onChanged e = [⟨false, signalArgs.nodes (fun _ => true) e.fields ++ []⟩] := by
    rw [onChanged, packed, List.append_nil]
    rfl
  obtain ⟨ret, -, agree⟩ := signalArgs.unpackall_flat flat plain false [] [] signalArgs.empty
  rw [message, dbusSignalHandle]
  simp only [ret, Tys.agree_all.mp agree]
  rfl

theorem cStr_plain (s : Bytes) : IsCString (cStr s) := takeWhile_isCString s

section Proxies

variable {io : MethodType.CallIo} {s : Store}

theorem getType_callable : getType.Callable := by
  constructor
  · simp [Tys.Input, Ty.Input, Ty.Aligned]
  · simp [MethodType.results, MethodType.inReply, Tys.Restorable, Ty.Restorable, Ty.Flat]

theorem setType_callable : setType.Callable := by
  constructor
  · simp [Tys.Input, Ty.Input, Ty.Aligned]
  · simp [MethodType.results, MethodType.inReply, Tys.Restorable, Ty.Restorable, Ty.Flat]

theorem listType_callable : listType.Callable := by
  constructor
  · simp [Tys.Input]
  · simp [MethodType.results, MethodType.inReply, Tys.Restorable, Ty.Restorable, Ty.IsBasic, Tys.Vacant]

/-- The message of a string is that of its terminated part. -/
theorem node_cStr (key : Bytes) : Ty.node .string (cStr key) = Ty.node .string key := by
  simp only [Ty.node, Dbus.takeWhile_of_isCString (cStr_plain key)]
  rfl

theorem clientGet_eq (works : io.Works) (plain : Terminated s) (key : Bytes) :
    clientGet io key s = s.get (cStr key) := by
  have same : getType.args.nodes getType.isInput (key, [], ()) =
      getType.args.nodes getType.isInput (cStr key, [], ()) := by
    simp [Tys.nodes, MethodType.isInput, node_cStr]
  have agree : getType.args.Agree getType.isOutput (key, [], ()) (cStr key, [], ()) := by
    simp [Tys.Agree]
  have alike := (MethodType.proxyCall_congr getType_callable internalGet io s same agree).2
  have called : getType.proxyCall internalGet io (cStr key, [], ()) s =
      internalGet (cStr key, [], ()) s := by
    apply MethodType.proxyCall_eq getType_callable works
    · simp [Tys.NulFree, Ty.NulFree, MethodType.isInput, cStr_plain]
    · simp [Tys.Agree, Tys.empty, Ty.empty]
    · rw [internalGet]
      split <;> simp [Tys.Agree, MethodType.isInput]
    · rw [internalGet]
      split
      · rename_i v stored
        simpa [MethodType.results, MethodType.inReply, Tys.NulFree, Ty.NulFree] using
          plain.dbGet stored
      · simp [MethodType.results, MethodType.inReply, Tys.NulFree, Ty.NulFree, IsCString]
  rw [called] at alike
  obtain ⟨ret, -, value, -⟩ := alike
  have ret := ret rfl
  have value := value rfl
  simp only [clientGet]
  rw [ret, value, internalGet]
  cases s.get (cStr key) <;> rfl

theorem clientSet_eq (works : io.Works) (plain : Terminated s) (writes : Bool) (key value : Bytes) :
    clientSet io writes key value s = ((s.set writes (cStr key) (cStr value)).ret,
      (s.set writes (cStr key) (cStr value)).store,
      (s.set writes (cStr key) (cStr value)).event.map PropertyChangedEvent.fields) := by
  have same : setType.args.nodes setType.isInput (key, value, ()) =
      setType.args.nodes setType.isInput (cStr key, cStr value, ()) := by
    simp [Tys.nodes, MethodType.isInput, node_cStr]
  have agree : setType.args.Agree setType.isOutput (key, value, ()) (cStr key, cStr value, ()) := by
    simp [Tys.Agree]
  obtain ⟨state, alike⟩ := MethodType.proxyCall_congr setType_callable (internalSetCall writes) io
    (s, none) same agree
  have called : setType.proxyCall (internalSetCall writes) io (cStr key, cStr value, ()) (s, none) =
      internalSetCall writes (cStr key, cStr value, ()) (s, none) := by
    apply MethodType.proxyCall_eq setType_callable works
    · simp [Tys.NulFree, Ty.NulFree, MethodType.isInput, cStr_plain]
    · simp [Tys.Agree]
    · simp [Tys.Agree, MethodType.isInput, internalSetCall]
    · simp [MethodType.results, MethodType.inReply, Tys.NulFree, Ty.NulFree, internalSetCall]
  rw [called] at state alike
  have ret := alike.1 rfl
  simp only [clientSet]
  rw [ret, state]
  simp only [internalSetCall]
  congr 2
  rw [Option.map_eq_bind]
  apply Option.bind_congr
  intro e sent
  obtain ⟨plainKey, plainValue, plainOld⟩ := event_plain plain (cStr_plain key) (cStr_plain value) sent
  exact signal_eq plainKey plainValue plainOld

theorem clientList_eq (works : io.Works) (plain : Terminated s) {entries : Entries Bytes Bytes}
    (lists : Lists s entries) : clientList io entries s = entries := by
  have called : listType.proxyCall (internalList entries) io () s = internalList entries () s := by
    apply MethodType.proxyCall_eq listType_callable works
    · simp [Tys.NulFree]
    · simp [Tys.Agree]
    · simp [Tys.Agree]
    · refine ⟨fun _ e member => ?_, trivial⟩
      exact plain.list e.1 e.2 ((lists e.1 e.2).mp member)
  rw [clientList, called]
  rfl

theorem Terminated.local {s t : Store} {l : Request × Answer} (plain : Terminated s)
    (taken : Local s (l.1.cStr, l.2) t) : Terminated t := by
  obtain ⟨request, answer⟩ := l
  cases request with
  | get key =>
    cases taken
    exact plain
  | set writes key value =>
    cases taken
    exact plain.set (cStr_plain key) (cStr_plain value) writes
  | list =>
    cases taken
    exact plain

/-- A call of a client is a call of the store with the terminated parts of its strings. -/
theorem remote_iff (works : io.Works) (plain : Terminated s) {t : Store} (l : Request × Answer) :
    Remote io s l t ↔ Local s (l.1.cStr, l.2) t := by
  obtain ⟨request, answer⟩ := l
  cases request with
  | get key =>
    rw [Request.cStr]
    constructor
    · rintro ⟨⟩
      rw [clientGet_eq works plain]
      exact .get s _
    · rintro ⟨⟩
      rw [← clientGet_eq works plain]
      exact .get s _
  | set writes key value =>
    have same := clientSet_eq works plain writes key value
    rw [Request.cStr]
    constructor
    · rintro ⟨⟩
      rw [same]
      exact .set s writes _ _
    · intro taken
      have remote : Remote io s _ _ := .set s writes key value
      rw [same] at remote
      cases taken
      exact remote
  | list =>
    rw [Request.cStr]
    constructor
    · rintro ⟨⟩
      rw [clientList_eq works plain ‹_›]
      exact .list s _ ‹_›
    · rintro ⟨⟩
      have remote : Remote io s _ _ := .list s _ ‹_›
      rwa [clientList_eq works plain ‹_›] at remote

end Proxies

/-- Clients of the service see what they would see as users of the store: the same answers, the same
store afterwards, and as signals the events it sends, for the terminated parts of their strings. -/
theorem remote_run_iff {io : MethodType.CallIo} (works : io.Works) {s t : Store}
    {ls : List (Request × Answer)} (plain : Terminated s) :
    Run (Remote io) s ls t ↔ Run Local s (ls.map fun l => (l.1.cStr, l.2)) t := by
  induction ls generalizing s with
  | nil => simp [Run.nil_iff]
  | cons l ls ih =>
    rw [List.map_cons, Run.cons_iff, Run.cons_iff]
    constructor
    · rintro ⟨mid, first, rest⟩
      have first := (remote_iff works plain l).mp first
      exact ⟨mid, first, (ih (plain.local first)).mp rest⟩
    · rintro ⟨mid, first, rest⟩
      exact ⟨mid, (remote_iff works plain l).mpr first, (ih (plain.local first)).mpr rest⟩

/-- A `set` whose value has bytes behind a terminator, and a `get` of another client. -/
theorem remote_run_iff_terminated :
    Run (Remote ⟨0, 0, ⟨0, 0⟩, []⟩) .new
        [(.set true [97] [98, 0, 99], .done true
          (some (⟨0, by decide⟩, nsText, [97], Change.added.text, [98], [], ()))),
          (.get [97], .value (some [98]))]
        { Store.new with temp := Map.empty.insert [97] [98] } := by
  have plain : Terminated .new := ⟨fun _ _ stored => (nomatch stored),
    fun _ _ stored => (nomatch stored), fun _ _ stored => (nomatch stored)⟩
  apply (remote_run_iff ⟨by decide, by decide, by decide, by decide⟩ plain).mpr
  exact .cons (.set .new true [97] [98]) (.cons (.get _ [97]) (.nil _))

end AmlCommonlib.PropertyServer
