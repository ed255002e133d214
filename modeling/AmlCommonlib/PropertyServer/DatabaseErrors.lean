import AmlCommonlib.PropertyServer.Events

/-! # Setting properties while the database fails

Every call to the database may fail without effect. `persist_get` answers a failed read as it does an
absent key, so `internal_set` reports that it has deleted a key that it could not read.
-/

namespace AmlCommonlib.PropertyServer

/-- Whether the `Get`, the `Put` and the `Delete` of the database succeed. -/
structure DbOutcome where
  get : Bool
  put : Bool
  delete : Bool

/-- `gs_database[attr].get` with that outcome. -/
def Store.tryGet (s : Store) (o : DbOutcome) : DataAttr → Bytes → Option Bytes
  | .persist, key => if o.get then s.dbGet .persist key else none
  | attr, key => s.dbGet attr key

/-- `internal_set` with that outcome. -/
def Store.tryInternalSet (s : Store) (o : DbOutcome) (key value : Bytes) : SetResult :=
  let attr := getAttribute key
  if key = [] then ⟨false, none, s⟩
  else if attr = .ro then ⟨false, none, s⟩
  else
    match s.tryGet o attr key with
    | some oldValue =>
      if value = [] then changed .deleted key oldValue oldValue (s.dbDel o.delete attr key)
      else if oldValue = value then ⟨true, none, s⟩
      else changed .modified key value oldValue (s.dbSet o.put attr key value)
    | none =>
      if value = [] then ⟨true, none, s⟩
      else changed .added key value [] (s.dbSet o.put attr key value)

/-- `set` with that outcome. -/
def Store.trySet (s : Store) (o : DbOutcome) (key value : Bytes) : SetResult :=
  s.tryInternalSet o (trim key) (trim value)

/-- What the back end of a class maps its keys to. -/
def Store.backEnd (s : Store) : DataAttr → Map
  | .temp => s.temp
  | .persist => s.disk
  | .ro => s.ro

/-- A call that returns true has stored the value, or left no value where it is blank; one that
returns false has changed nothing and sends no event. -/
def Truthful (s : Store) (key value : Bytes) (r : SetResult) : Prop :=
  (r.ret = true → r.store.backEnd (getAttribute (trim key)) (trim key) =
    if trim value = [] then none else some (trim value)) ∧
  (r.ret = false → r.store = s ∧ r.event = none)

/-- The database holds the key and does not get to say so. -/
def Unread (s : Store) (o : DbOutcome) (key : Bytes) : Prop :=
  getAttribute key = .persist ∧ s.disk key ≠ none ∧ (s.persistDb = false ∨ o.get = false)

@[simp] theorem changed_event (action : Change) (key value oldValue : Bytes) (r : Bool × Store) :
    (changed action key value oldValue r).event =
      if r.1 then some ⟨0, "property", key, action, value, oldValue⟩ else none := by
  obtain ⟨ret, s⟩ := r
  cases ret <;> rfl

/-- What is read is what the back end holds. -/
theorem backEnd_of_tryGet {s : Store} {o : DbOutcome} {attr : DataAttr} {key value : Bytes}
    (read : s.tryGet o attr key = some value) : s.backEnd attr key = some value := by
  cases attr with
  | temp => exact read
  | ro => exact read
  | persist =>
    simp only [Store.tryGet, Store.dbGet] at read
    split_ifs at read
    exact read

/-- Nothing is read where the back end holds nothing, and where the database is not read. -/
theorem tryGet_eq_none_iff {s : Store} {o : DbOutcome} {key : Bytes} (some' : key ≠ []) :
    s.tryGet o (getAttribute key) key = none ↔
      s.backEnd (getAttribute key) key = none ∨ Unread s o key := by
  cases attr : getAttribute key with
  | temp => simp [Store.tryGet, Store.dbGet, Store.backEnd, Unread, attr]
  | ro => simp [Store.tryGet, Store.dbGet, Store.backEnd, Unread, attr]
  | persist =>
    simp only [Store.tryGet, Store.dbGet, Store.backEnd, Unread, attr, some']
    cases s.persistDb <;> cases o.get <;> cases s.disk key <;> simp

theorem backEnd_dbSet {s : Store} {writes : Bool} {attr : DataAttr} {key value : Bytes}
    (done : (s.dbSet writes attr key value).1 = true) :
    (s.dbSet writes attr key value).2.backEnd attr key = some value := by
  cases attr with
  | temp => exact Function.update_self ..
  | ro => cases done
  | persist =>
    rw [Store.dbSet] at done ⊢
    split_ifs at done ⊢
    exact Function.update_self ..

theorem backEnd_dbDel {s : Store} {writes : Bool} {attr : DataAttr} {key : Bytes}
    (done : (s.dbDel writes attr key).1 = true) :
    (s.dbDel writes attr key).2.backEnd attr key = none := by
  cases attr with
  | temp => exact Function.update_self ..
  | ro => cases done
  | persist =>
    rw [Store.dbDel] at done ⊢
    split_ifs at done ⊢
    exact Function.update_self ..

/-- A write that reports its own outcome. -/
theorem truthful_changed {s : Store} {key value shown old : Bytes} {action : Change}
    {r : Bool × Store} (failed : r.1 = false → r.2 = s)
    (done : r.1 = true → r.2.backEnd (getAttribute (trim key)) (trim key) =
      if trim value = [] then none else some (trim value)) :
    Truthful s key value (changed action (trim key) shown old r) := by
  rw [Truthful, changed_ret, changed_store, changed_event]
  refine ⟨done, ?_⟩
  intro fails
  exact ⟨failed fails, by rw [fails]; rfl⟩

theorem truthful_refused (s : Store) (key value : Bytes) : Truthful s key value ⟨false, none, s⟩ :=
  ⟨fun done => Bool.noConfusion done, fun _ => ⟨rfl, rfl⟩⟩

/-- A call that changes nothing tells the truth exactly if there is nothing to change. -/
theorem truthful_nothing_iff (s : Store) (key value : Bytes) :
    Truthful s key value ⟨true, none, s⟩ ↔ s.backEnd (getAttribute (trim key)) (trim key) =
      if trim value = [] then none else some (trim value) :=
  ⟨fun truthful => truthful.1 rfl, fun same => ⟨fun _ => same, fun fails => Bool.noConfusion fails⟩⟩

/-- For every store, key, value and outcome of the database's calls: `set` tells the truth if and
only if it does not delete a key that the database holds and does not get to say so. -/
theorem trySet_truthful_iff (s : Store) (o : DbOutcome) (key value : Bytes) :
    Truthful s key value (s.trySet o key value) ↔
      (trim value = [] → ¬Unread s o (trim key)) := by
  simp only [Store.trySet, Store.tryInternalSet]
  by_cases blank : trim key = []
  · have apart : ¬Unread s o (trim key) := by
      rintro ⟨persist, -⟩
      rw [blank] at persist
      exact absurd persist (by decide)
    rw [if_pos blank]
    exact iff_of_true (truthful_refused s key value) fun _ => apart
  by_cases readonly : getAttribute (trim key) = .ro
  · have apart : ¬Unread s o (trim key) := by
      rintro ⟨persist, -⟩
      exact absurd (readonly.symm.trans persist) (by decide)
    rw [if_neg blank, if_pos readonly]
    exact iff_of_true (truthful_refused s key value) fun _ => apart
  rw [if_neg blank, if_neg readonly]
  cases read : s.tryGet o (getAttribute (trim key)) (trim key) with
  | some old =>
    have held := backEnd_of_tryGet read
    have apart : ¬Unread s o (trim key) := by
      intro unread
      rw [(tryGet_eq_none_iff blank).mpr (.inr unread)] at read
      cases read
    refine iff_of_true ?_ fun _ => apart
    dsimp only
    split_ifs with empty same
    · apply truthful_changed dbDel_failed
      rw [if_pos empty]
      exact backEnd_dbDel
    · rw [truthful_nothing_iff, if_neg empty, held, same]
    · apply truthful_changed dbSet_failed
      rw [if_neg empty]
      exact backEnd_dbSet
  | none =>
    dsimp only
    split_ifs with empty
    · rw [truthful_nothing_iff, if_pos empty]
      have unread := (tryGet_eq_none_iff blank).mp read
      constructor
      · rintro nothing - ⟨persist, held, -⟩
        rw [persist] at nothing
        exact held nothing
      · intro apart
        exact unread.resolve_right (apart empty)
    · refine iff_of_true ?_ fun isEmpty => absurd isEmpty empty
      apply truthful_changed dbSet_failed
      rw [if_neg empty]
      exact backEnd_dbSet

/-- `persist.a` is in the database, whose `Get` fails while it is to be deleted. -/
theorem not_trySet_truthful : ¬∀ (s : Store) (o : DbOutcome) (key value : Bytes),
    Truthful s key value (s.trySet o key value) := by
  intro truthful
  have told := (truthful ⟨true, fun _ => some [49], .empty, .empty⟩ ⟨false, true, true⟩
    (persistPrefix ++ [97]) []).1 (by decide)
  exact absurd told (by decide)

end AmlCommonlib.PropertyServer
