import AmlCommonlib.Containers.SortedVector

/-! # Keyed vectors

A sorted vector of pairs is a map from its keys to its values.
-/

namespace AmlCommonlib.Containers

structure KeyValuePair (κ β : Type*) where
  key : κ
  value : β
  deriving DecidableEq

variable {κ β : Type*} [LinearOrder κ]

instance : LT (KeyValuePair κ β) := ⟨fun a b => a.key < b.key⟩

instance : DecidableLT (KeyValuePair κ β) := fun a b => inferInstanceAs (Decidable (a.key < b.key))

theorem KeyValuePair.lt_iff (a b : KeyValuePair κ β) : a < b ↔ a.key < b.key := Iff.rfl

abbrev KeyedVector (κ β : Type*) := List (KeyValuePair κ β)

namespace KeyedVector

/-- The value that the map has for the key. -/
def lookup (v : KeyedVector κ β) (key : κ) : Option β :=
  (Containers.find KeyValuePair.key v key).map (·.value)

def add (v : KeyedVector κ β) (key : κ) (value : β) : Option (ℤ × KeyedVector κ β) :=
  Containers.add v ⟨key, value⟩

section Keys

-- A key is looked up as a pair whose value is never read.
variable [Inhabited β]

def indexOfKey (v : KeyedVector κ β) (key : κ) : Option ℤ := indexOf v ⟨key, default⟩

def removeItem (v : KeyedVector κ β) (key : κ) : Option (ℤ × KeyedVector κ β) :=
  remove v ⟨key, default⟩

end Keys

def replaceValueFor (v : KeyedVector κ β) (key : κ) (value : β) : Option (ℤ × KeyedVector κ β) :=
  match remove v ⟨key, value⟩ with
  | none => none
  | some (_, v') => Containers.add v' ⟨key, value⟩

/-- The `valueFor` of a vector with a default value. -/
def valueFor [Inhabited β] (v : KeyedVector κ β) (mDefault : β) (key : κ) : Option β :=
  match v.indexOfKey key with
  | none => none
  | some i => if 0 ≤ i then v[i.toNat]?.map (·.value) else some mDefault

variable {v : KeyedVector κ β}

theorem lookup_eq_some (sorted : Sorted KeyValuePair.key v) (pair : KeyValuePair κ β) :
    v.lookup pair.key = some pair.value ↔ pair ∈ v := by
  constructor
  · intro found
    obtain ⟨⟨key, value⟩, at_key, rfl⟩ := Option.map_eq_some_iff.1 found
    obtain ⟨member, rfl⟩ := find_eq_some at_key
    exact member
  · intro member
    rw [lookup, find_of_mem sorted member]
    rfl

theorem add_lookup (sorted : Sorted KeyValuePair.key v) (key : κ) (value : β) :
    ∃ i v', v.add key value = some (i, v') ∧ Sorted KeyValuePair.key v' ∧
      ∀ k, v'.lookup k = if k = key then some value else v.lookup k := by
  refine ⟨_, _, add_spec KeyValuePair.lt_iff sorted _, sorted_with sorted ⟨key, value⟩, fun k => ?_⟩
  rw [lookup, find_with, lookup, apply_ite (Option.map _)]
  rfl

theorem remove_lookup (sorted : Sorted KeyValuePair.key v) (pair : KeyValuePair κ β) :
    ∃ i v', remove v pair = some (i, v') ∧ Sorted KeyValuePair.key v' ∧
      ∀ k, lookup v' k = if k = pair.key then none else v.lookup k := by
  refine ⟨_, _, remove_spec KeyValuePair.lt_iff sorted pair, sorted_without sorted pair.key,
    fun k => ?_⟩
  rw [lookup, find_without, lookup, apply_ite (Option.map _)]
  rfl

theorem replaceValueFor_lookup (sorted : Sorted KeyValuePair.key v) (key : κ) (value : β) :
    ∃ i v', v.replaceValueFor key value = some (i, v') ∧ Sorted KeyValuePair.key v' ∧
      ∀ k, v'.lookup k = if k = key then some value else v.lookup k := by
  obtain ⟨i, without, removed, sorted', found'⟩ := remove_lookup sorted ⟨key, value⟩
  obtain ⟨j, v', added, sorted'', found''⟩ := add_lookup sorted' key value
  refine ⟨j, v', ?_, sorted'', fun k => ?_⟩
  · rw [replaceValueFor, removed]
    exact added
  · rw [found'', found']
    split_ifs <;> rfl

variable [Inhabited β]

/-- A key is found where its value stands. -/
theorem indexOfKey_cases (sorted : Sorted KeyValuePair.key v) (key : κ) :
    (v.lookup key = none ∧ v.indexOfKey key = some nameNotFound) ∨
      ∃ (i : ℕ) (x : KeyValuePair κ β), v.lookup key = some x.value ∧
        v.indexOfKey key = some (i : ℤ) ∧ v[i]? = some x := by
  unfold lookup indexOfKey
  obtain ⟨missing, index⟩ | ⟨i, x, found, index, at_i⟩ :=
    indexOf_cases KeyValuePair.lt_iff sorted ⟨key, default⟩
  · exact .inl ⟨congrArg (Option.map _) missing, index⟩
  · exact .inr ⟨i, x, congrArg (Option.map _) found, index, at_i⟩

theorem valueFor_eq (sorted : Sorted KeyValuePair.key v) (mDefault : β) (key : κ) :
    v.valueFor mDefault key = some ((v.lookup key).getD mDefault) := by
  unfold valueFor
  obtain ⟨missing, index⟩ | ⟨i, x, found, index, at_i⟩ := indexOfKey_cases sorted key
  · rw [index, missing]
    exact if_neg (by decide)
  · rw [index, found]
    dsimp only
    rw [if_pos (by omega), Int.toNat_natCast, at_i]
    rfl

end KeyedVector

/-- A change of a keyed vector. -/
inductive Edit (κ β : Type*)
  | add (key : κ) (value : β)
  | replaceValueFor (key : κ) (value : β)
  | removeItem (key : κ)

variable [Inhabited β]

def KeyedVector.edit (v : KeyedVector κ β) : Edit κ β → Option (KeyedVector κ β)
  | .add key value => (v.add key value).map (·.2)
  | .replaceValueFor key value => (v.replaceValueFor key value).map (·.2)
  | .removeItem key => (v.removeItem key).map (·.2)

/-- What a change means for a map. -/
def Edit.apply (m : κ → Option β) : Edit κ β → κ → Option β
  | .add key value | .replaceValueFor key value => fun k => if k = key then some value else m k
  | .removeItem key => fun k => if k = key then none else m k

theorem KeyedVector.edit_spec {v : KeyedVector κ β} (sorted : Sorted KeyValuePair.key v)
    (change : Edit κ β) : ∃ v', v.edit change = some v' ∧ Sorted KeyValuePair.key v' ∧
      v'.lookup = change.apply v.lookup := by
  cases change with
  | add key value =>
    obtain ⟨i, v', added, sorted', found⟩ := add_lookup sorted key value
    exact ⟨v', by rw [edit, added]; rfl, sorted', funext found⟩
  | replaceValueFor key value =>
    obtain ⟨i, v', replaced, sorted', found⟩ := replaceValueFor_lookup sorted key value
    exact ⟨v', by rw [edit, replaced]; rfl, sorted', funext found⟩
  | removeItem key =>
    obtain ⟨i, v', removed, sorted', found⟩ := remove_lookup sorted ⟨key, default⟩
    exact ⟨v', by rw [edit, removeItem, removed]; rfl, sorted', funext found⟩

theorem KeyedVector.edits_spec {v : KeyedVector κ β} (sorted : Sorted KeyValuePair.key v)
    (changes : List (Edit κ β)) : ∃ v', changes.foldlM edit v = some v' ∧
      Sorted KeyValuePair.key v' ∧ v'.lookup = changes.foldl Edit.apply v.lookup := by
  induction changes generalizing v with
  | nil => exact ⟨v, rfl, sorted, rfl⟩
  | cons change rest ih =>
    obtain ⟨v', changed, sorted', found⟩ := edit_spec sorted change
    obtain ⟨v'', applied, sorted'', found'⟩ := ih sorted'
    refine ⟨v'', ?_, sorted'', ?_⟩
    · rw [List.foldlM_cons, changed]
      exact applied
    · rw [found', found, List.foldl_cons]

/-- A keyed vector is a map, whatever changes it has seen. -/
theorem keyedVector_refines (changes : List (Edit κ β)) :
    ∃ v : KeyedVector κ β, changes.foldlM KeyedVector.edit [] = some v ∧
      Sorted KeyValuePair.key v ∧ ∀ mDefault key, v.valueFor mDefault key =
        some ((changes.foldl Edit.apply (fun _ => none) key).getD mDefault) := by
  have empty : Sorted KeyValuePair.key ([] : KeyedVector κ β) := .nil
  obtain ⟨v, applied, sorted, found⟩ := KeyedVector.edits_spec empty changes
  refine ⟨v, applied, sorted, fun mDefault key => ?_⟩
  rw [KeyedVector.valueFor_eq sorted, found]
  rfl

end AmlCommonlib.Containers
