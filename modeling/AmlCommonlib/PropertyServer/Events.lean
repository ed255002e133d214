import AmlCommonlib.PropertyServer.Listing

/-! # Replaying the change events

A subscriber that starts from `list` and applies every event it receives holds what `list` returns
after the calls. Each event says what happened to its key, and a call that changes nothing sends
none.
-/

namespace AmlCommonlib.PropertyServer

/-- What a subscriber does with an event. -/
def PropertyChangedEvent.replay (m : Map) (e : PropertyChangedEvent) : Map :=
  match e.action with
  | .deleted => m.erase e.key
  | .modified | .added => m.insert e.key e.value

/-- A call of `set`, with the outcome of the database write that it may make. -/
structure SetCall where
  writes : Bool
  key : Bytes
  value : Bytes

/-- The events that the calls send and the store they leave. -/
def Store.setAll (s : Store) : List SetCall → List PropertyChangedEvent × Store
  | [] => ([], s)
  | c :: calls =>
    let r := s.set c.writes c.key c.value
    let rest := r.store.setAll calls
    (r.event.toList ++ rest.1, rest.2)

/-! ### One operation of the table of stores -/

theorem dbSet_other {s : Store} {writes : Bool} {attr : DataAttr} {key value x : Bytes}
    (other : x ≠ key) : (s.dbSet writes attr key value).2.list x = s.list x := by
  cases attr with
  | temp =>
    simp only [Store.dbSet, Store.list, Map.insert, Function.update_of_ne other]
    rfl
  | ro => rfl
  | persist =>
    rw [Store.dbSet]
    split_ifs
    · rfl
    · simp [Store.list, Map.insert, other]

theorem dbDel_other {s : Store} {writes : Bool} {attr : DataAttr} {key x : Bytes}
    (other : x ≠ key) : (s.dbDel writes attr key).2.list x = s.list x := by
  cases attr with
  | temp =>
    simp only [Store.dbDel, Store.list, Map.erase, Function.update_of_ne other]
    rfl
  | ro => rfl
  | persist =>
    rw [Store.dbDel]
    split_ifs
    · rfl
    · simp [Store.list, Map.erase, other]

theorem dbGet_dbDel {s : Store} {writes : Bool} {attr : DataAttr} {key : Bytes}
    (success : (s.dbDel writes attr key).1 = true) :
    (s.dbDel writes attr key).2.dbGet attr key = none := by
  cases attr with
  | temp => simp [Store.dbDel, Store.dbGet, Map.erase]
  | ro => cases success
  | persist =>
    rw [Store.dbDel] at success ⊢
    split_ifs at success ⊢ with closed
    simp [Store.dbGet, Map.erase]

/-- An operation that fails leaves the store. -/
theorem dbSet_failed {s : Store} {writes : Bool} {attr : DataAttr} {key value : Bytes}
    (failed : (s.dbSet writes attr key value).1 = false) : (s.dbSet writes attr key value).2 = s := by
  cases attr with
  | temp => cases failed
  | ro => rfl
  | persist =>
    rw [Store.dbSet] at failed ⊢
    split_ifs at failed ⊢
    rfl

theorem dbDel_failed {s : Store} {writes : Bool} {attr : DataAttr} {key : Bytes}
    (failed : (s.dbDel writes attr key).1 = false) : (s.dbDel writes attr key).2 = s := by
  cases attr with
  | temp => cases failed
  | ro => rfl
  | persist =>
    rw [Store.dbDel] at failed ⊢
    split_ifs at failed ⊢
    rfl

/-! ### One call -/

/-- What a call returns, sends and changes, in terms of the listed entry of its key. -/
inductive Outcome (list list' : Map) (key value : Bytes) : Bool → Option PropertyChangedEvent → Prop
  | failed (same : list' = list) : Outcome list list' key value false none
  | nothing (same : list' = list) : Outcome list list' key value true none
  | deleted {old : Bytes} (present : list key = some old) (after : list' = list.erase key) :
      Outcome list list' key value true (some ⟨0, "property", key, .deleted, old, old⟩)
  | modified {old : Bytes} (present : list key = some old) (different : old ≠ value)
      (after : list' = list.insert key value) :
      Outcome list list' key value true (some ⟨0, "property", key, .modified, value, old⟩)
  | added (absent : list key = none) (after : list' = list.insert key value) :
      Outcome list list' key value true (some ⟨0, "property", key, .added, value, []⟩)

theorem list_of_dbSet {s : Store} {writes : Bool} {key value : Bytes} (trimmed : trim key = key)
    (placed : Placed (s.dbSet writes (getAttribute key) key value).2)
    (success : (s.dbSet writes (getAttribute key) key value).1 = true) :
    (s.dbSet writes (getAttribute key) key value).2.list = s.list.insert key value := by
  apply Function.eq_update_iff.mpr
  constructor
  · rw [placed.list_eq trimmed, dbGet_dbSet success]
  · intro x other
    exact dbSet_other other

theorem list_of_dbDel {s : Store} {writes : Bool} {key : Bytes} (trimmed : trim key = key)
    (placed : Placed (s.dbDel writes (getAttribute key) key).2)
    (success : (s.dbDel writes (getAttribute key) key).1 = true) :
    (s.dbDel writes (getAttribute key) key).2.list = s.list.erase key := by
  apply Function.eq_update_iff.mpr
  constructor
  · rw [placed.list_eq trimmed, dbGet_dbDel success]
  · intro x other
    exact dbDel_other other

/-- The result of an operation that succeeds with the given list, or fails without effect. -/
theorem changed_outcome {s : Store} {action : Change} {key value value' old : Bytes} {after : Map}
    {r : Bool × Store} (failed : r.1 = false → r.2 = s) (done : r.1 = true → r.2.list = after)
    (outcome : Outcome s.list after key value true (some ⟨0, "property", key, action, value', old⟩)) :
    Outcome s.list (changed action key value' old r).store.list key value
      (changed action key value' old r).ret (changed action key value' old r).event := by
  obtain ⟨ret, t⟩ := r
  cases ret with
  | false => exact .failed (congrArg Store.list (failed rfl))
  | true => exact (done rfl : t.list = after) ▸ outcome

theorem set_outcome {s : Store} (placed : Placed s) (writes : Bool) (key value : Bytes) :
    Outcome s.list (s.set writes key value).store.list (trim key) (trim value)
      (s.set writes key value).ret (s.set writes key value).event := by
  have after : Placed (s.set writes key value).store := placed.step (.set writes key value)
  have trimmed := trim_idem key
  by_cases readonly : getAttribute (trim key) = .ro
  · have event : (s.set writes key value).event = none := by
      simp only [Store.set, Store.internalSet, readonly, if_true]
      split_ifs <;> rfl
    obtain ⟨ret, store⟩ := set_readonly readonly writes value
    rw [ret, store, event]
    exact .failed rfl
  · by_cases empty : trim key = []
    · simp only [Store.set, Store.internalSet, empty, if_true]
      exact .failed rfl
    · rw [Store.set] at after ⊢
      rcases internalSet_cases readonly empty with
        ⟨old, stored, ⟨-, done⟩ | ⟨-, -, done⟩ | ⟨-, different, done⟩⟩ |
          ⟨stored, ⟨-, done⟩ | ⟨-, done⟩⟩ <;> rw [done] at after ⊢
      · rw [changed_store] at after
        apply changed_outcome dbDel_failed (list_of_dbDel trimmed after)
        exact .deleted ((placed.list_eq trimmed).trans stored) rfl
      · exact .nothing rfl
      · rw [changed_store] at after
        apply changed_outcome dbSet_failed (list_of_dbSet trimmed after)
        exact .modified ((placed.list_eq trimmed).trans stored) different rfl
      · exact .nothing rfl
      · rw [changed_store] at after
        apply changed_outcome dbSet_failed (list_of_dbSet trimmed after)
        exact .added ((placed.list_eq trimmed).trans stored) rfl

/-- The action of an event tells how its key was listed before and is listed now. -/
structure Describes (list list' : Map) (e : PropertyChangedEvent) : Prop where
  added : e.action = .added ↔ list e.key = none
  modified : e.action = .modified ↔ list e.key ≠ none ∧ list' e.key ≠ none
  deleted : e.action = .deleted ↔ list e.key ≠ none ∧ list' e.key = none
  oldvalue : e.oldvalue = (list e.key).getD []

/-- The event of a call is about its key, and there is none when it fails or changes nothing. -/
structure Faithful (s : Store) (c : SetCall) (r : SetResult) : Prop where
  key : ∀ e, r.event = some e → e.key = trim c.key
  describes : ∀ e, r.event = some e → Describes s.list r.store.list e
  quiet : r.ret = false ∨ r.store.list = s.list → r.event = none

theorem Outcome.describes {list list' : Map} {key value : Bytes} {ret : Bool}
    {e : PropertyChangedEvent} (outcome : Outcome list list' key value ret (some e)) :
    e.key = key ∧ Describes list list' e := by
  cases outcome with
  | deleted present after =>
    subst after
    refine ⟨rfl, ?_, ?_, ?_, ?_⟩ <;> simp [present, Map.erase]
  | modified present different after =>
    subst after
    refine ⟨rfl, ?_, ?_, ?_, ?_⟩ <;> simp [present, Map.insert]
  | added absent after =>
    subst after
    refine ⟨rfl, ?_, ?_, ?_, ?_⟩ <;> simp [absent]

theorem Outcome.quiet {list list' : Map} {key value : Bytes} {ret : Bool}
    {event : Option PropertyChangedEvent} (outcome : Outcome list list' key value ret event)
    (still : ret = false ∨ list' = list) : event = none := by
  cases outcome with
  | failed | nothing => rfl
  | deleted present after =>
    have here := congrFun (after.symm.trans (still.resolve_left (by decide))) key
    simp [Map.erase, present] at here
  | modified present different after =>
    have here := congrFun (after.symm.trans (still.resolve_left (by decide))) key
    simp only [Map.insert, Function.update_self, present, Option.some.injEq] at here
    exact absurd here.symm different
  | added absent after =>
    have here := congrFun (after.symm.trans (still.resolve_left (by decide))) key
    simp [Map.insert, absent] at here

theorem Outcome.replay {list list' : Map} {key value : Bytes} {ret : Bool}
    {event : Option PropertyChangedEvent} (outcome : Outcome list list' key value ret event) :
    event.toList.foldl PropertyChangedEvent.replay list = list' := by
  cases outcome with
  | failed same | nothing same => exact same.symm
  | deleted present after => exact after.symm
  | modified present different after => exact after.symm
  | added absent after => exact after.symm

/-! ### All the calls of a thread -/

theorem placed_setAll {s : Store} (placed : Placed s) (calls : List SetCall) :
    Placed (s.setAll calls).2 := by
  induction calls generalizing s with
  | nil => exact placed
  | cons c calls ih => exact ih (placed.step (.set c.writes c.key c.value))

theorem replay_setAll {s : Store} (placed : Placed s) (calls : List SetCall) :
    (s.setAll calls).1.foldl PropertyChangedEvent.replay s.list = (s.setAll calls).2.list := by
  induction calls generalizing s with
  | nil => rfl
  | cons c calls ih =>
    rw [Store.setAll, List.foldl_append, (set_outcome placed c.writes c.key c.value).replay]
    exact ih (placed.step (.set c.writes c.key c.value))

theorem Placed.faithful {s : Store} (placed : Placed s) (c : SetCall) :
    Faithful s c (s.set c.writes c.key c.value) := by
  have outcome := set_outcome placed c.writes c.key c.value
  refine ⟨?_, ?_, outcome.quiet⟩
  · intro e sent
    exact (sent ▸ outcome).describes.1
  · intro e sent
    exact (sent ▸ outcome).describes.2

/-- From every reachable store, replaying the events of any calls over the list before them gives
the list after them, and every event says what its call did. -/
theorem events_replay {s : Store} {ls : List Action} (run : Run StoreStep .new ls s)
    (calls : List SetCall) :
    (s.setAll calls).1.foldl PropertyChangedEvent.replay s.list = (s.setAll calls).2.list ∧
    ∀ before c after, calls = before ++ c :: after →
      Faithful (s.setAll before).2 c ((s.setAll before).2.set c.writes c.key c.value) := by
  have placed := placed_of_run run
  refine ⟨replay_setAll placed calls, ?_⟩
  intro before c after _
  exact (placed_setAll placed before).faithful c

/-- A write that fails between two that succeed sends nothing, and the events still replay. -/
theorem events_replay_failed_write :
    let calls : List SetCall :=
      [⟨true, persistPrefix ++ [120], [49]⟩, ⟨false, persistPrefix ++ [120], [50]⟩, ⟨true, [120], [49]⟩]
    ((Store.new.init true true none).setAll calls).1.length = 2 ∧
    ((Store.new.init true true none).setAll calls).1.foldl PropertyChangedEvent.replay
        (Store.new.init true true none).list =
      ((Store.new.init true true none).setAll calls).2.list := by
  have run : Run StoreStep .new [.init true true none] (Store.new.init true true none) :=
    .cons rfl (.nil _)
  exact ⟨by decide +kernel, (events_replay run _).1⟩

end AmlCommonlib.PropertyServer
