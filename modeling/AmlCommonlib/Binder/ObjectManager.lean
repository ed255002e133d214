import AmlCommonlib.Containers.KeyedVector

/-! # Objects attached to a proxy

A binder proxy keeps the objects that are attached to it in a keyed vector. They are cleaned up when
the proxy goes, unless they were detached before.
-/

namespace AmlCommonlib.Binder

open Containers

/-- An attached object. A null pointer is 0. -/
structure AttachedObject where
  object : ℕ
  cleanupCookie : ℕ
  func : ℕ
  deriving DecidableEq, Inhabited

abbrev ObjectManager := KeyedVector ℕ AttachedObject

namespace ObjectManager

/-- An object whose id is in use is not attached. -/
def attach (mObjects : ObjectManager) (objectID : ℕ) (e : AttachedObject) : Option ObjectManager :=
  match mObjects.indexOfKey objectID with
  | none => none
  | some index => if 0 ≤ index then some mObjects else (mObjects.add objectID e).map (·.2)

def find (mObjects : ObjectManager) (objectID : ℕ) : Option ℕ :=
  match mObjects.indexOfKey objectID with
  | none => none
  | some i => if i < 0 then some 0 else mObjects[i.toNat]?.map (·.value.object)

def detach (mObjects : ObjectManager) (objectID : ℕ) : Option ObjectManager :=
  (mObjects.removeItem objectID).map (·.2)

/-- The calls of the cleanup functions, and the manager without objects. -/
def kill (mObjects : ObjectManager) : List (KeyValuePair ℕ AttachedObject) × ObjectManager :=
  (mObjects.filter fun e => e.value.func ≠ 0, [])

inductive Call
  | attach (objectID : ℕ) (e : AttachedObject)
  | find (objectID : ℕ)
  | detach (objectID : ℕ)
  | kill

def step (mObjects : ObjectManager) : Call → Option ObjectManager
  | .attach objectID e => mObjects.attach objectID e
  | .find objectID => (mObjects.find objectID).map fun _ => mObjects
  | .detach objectID => mObjects.detach objectID
  | .kill => some mObjects.kill.2

/-- The objects that are attached behind a call: the first of an id stays until it is detached. -/
def Call.apply (attached : ℕ → Option AttachedObject) : Call → ℕ → Option AttachedObject
  | .attach objectID e => fun id => if id = objectID then (attached id).or (some e) else attached id
  | .find _ => attached
  | .detach objectID => fun id => if id = objectID then none else attached id
  | .kill => fun _ => none

variable {mObjects : ObjectManager}

theorem attach_spec (sorted : Sorted KeyValuePair.key mObjects) (objectID : ℕ) (e : AttachedObject) :
    ∃ m', mObjects.attach objectID e = some m' ∧ Sorted KeyValuePair.key m' ∧
      m'.lookup = (Call.attach objectID e).apply mObjects.lookup := by
  unfold attach
  obtain ⟨missing, index⟩ | ⟨i, x, found, index, at_i⟩ :=
    KeyedVector.indexOfKey_cases sorted objectID
  · obtain ⟨j, m', added, sorted', found'⟩ := KeyedVector.add_lookup sorted objectID e
    rw [index]
    refine ⟨m', ?_, sorted', funext fun id => ?_⟩
    · dsimp only
      rw [if_neg (by decide), added]
      rfl
    · rw [found']
      unfold Call.apply
      dsimp only
      split_ifs with same
      · rw [same, missing, Option.none_or]
      · rfl
  · rw [index]
    refine ⟨mObjects, if_pos (by omega), sorted, funext fun id => ?_⟩
    unfold Call.apply
    dsimp only
    split_ifs with same
    · rw [same, found, Option.some_or]
    · rfl

theorem find_eq (sorted : Sorted KeyValuePair.key mObjects) (objectID : ℕ) :
    mObjects.find objectID = some ((mObjects.lookup objectID).elim 0 (·.object)) := by
  unfold find
  obtain ⟨missing, index⟩ | ⟨i, x, found, index, at_i⟩ :=
    KeyedVector.indexOfKey_cases sorted objectID
  · rw [index, missing]
    exact if_pos (by decide)
  · rw [index, found]
    dsimp only
    rw [if_neg (by omega), Int.toNat_natCast, at_i]
    rfl

theorem step_spec (sorted : Sorted KeyValuePair.key mObjects) (call : Call) :
    ∃ m', mObjects.step call = some m' ∧ Sorted KeyValuePair.key m' ∧
      m'.lookup = call.apply mObjects.lookup := by
  cases call with
  | attach objectID e => exact attach_spec sorted objectID e
  | find objectID => exact ⟨mObjects, by rw [step, find_eq sorted]; rfl, sorted, rfl⟩
  | detach objectID =>
    obtain ⟨i, m', removed, sorted', found⟩ :=
      KeyedVector.remove_lookup sorted ⟨objectID, default⟩
    refine ⟨m', ?_, sorted', funext found⟩
    rw [step, detach, KeyedVector.removeItem, removed]
    rfl
  | kill => exact ⟨[], rfl, .nil, rfl⟩

theorem steps_spec (sorted : Sorted KeyValuePair.key mObjects) (calls : List Call) :
    ∃ m', calls.foldlM step mObjects = some m' ∧ Sorted KeyValuePair.key m' ∧
      m'.lookup = calls.foldl Call.apply mObjects.lookup := by
  induction calls generalizing mObjects with
  | nil => exact ⟨mObjects, rfl, sorted, rfl⟩
  | cons call rest ih =>
    obtain ⟨m', stepped, sorted', found⟩ := step_spec sorted call
    obtain ⟨m'', applied, sorted'', found'⟩ := ih sorted'
    refine ⟨m'', ?_, sorted'', ?_⟩
    · rw [List.foldlM_cons, stepped]
      exact applied
    · rw [found', found, List.foldl_cons]

/-- The cleanup function of every object that is attached and has one is called, each once. -/
theorem kill_spec (sorted : Sorted KeyValuePair.key mObjects) :
    (mObjects.kill.1.map (·.key)).Nodup ∧ ∀ pair, pair ∈ mObjects.kill.1 ↔
      mObjects.lookup pair.key = some pair.value ∧ pair.value.func ≠ 0 := by
  constructor
  · have ascending : (mObjects.kill.1.map (·.key)).Pairwise (· < ·) :=
      List.pairwise_map.2 (sorted.filter _)
    exact ascending.imp ne_of_lt
  · intro pair
    rw [KeyedVector.lookup_eq_some sorted, kill, List.mem_filter, decide_eq_true_eq]

end ObjectManager

/-- Behind every sequence of calls a look-up finds the object that was attached first since its id
was last detached or all was cleaned up, and the proxy's end cleans up every such object once. -/
theorem objectManager_cleans (calls : List ObjectManager.Call) :
    ∃ mObjects : ObjectManager, calls.foldlM ObjectManager.step [] = some mObjects ∧
      (∀ objectID, mObjects.find objectID = some
        ((calls.foldl ObjectManager.Call.apply (fun _ => none) objectID).elim 0 (·.object))) ∧
      (mObjects.kill.1.map (·.key)).Nodup ∧ ∀ pair, pair ∈ mObjects.kill.1 ↔
        calls.foldl ObjectManager.Call.apply (fun _ => none) pair.key = some pair.value ∧
          pair.value.func ≠ 0 := by
  have empty : Sorted KeyValuePair.key ([] : ObjectManager) := .nil
  obtain ⟨m, applied, sorted, found⟩ := ObjectManager.steps_spec empty calls
  have attached : m.lookup = calls.foldl ObjectManager.Call.apply fun _ => none := found
  refine ⟨m, applied, fun objectID => ?_, ?_⟩
  · rw [ObjectManager.find_eq sorted, attached]
  · rw [← attached]
    exact ObjectManager.kill_spec sorted

end AmlCommonlib.Binder
