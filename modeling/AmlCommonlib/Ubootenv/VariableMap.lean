import AmlCommonlib.Ubootenv.Bounds
import AmlCommonlib.Ubootenv.Durability

/-! # The variable list as a map

`bootenv_get_value` compares whole names, while `bootenv_set_value` stores what fits the key field.
The list is a map as long as every name that gets stored fits.
-/

namespace AmlCommonlib.Ubootenv

def KvList.keys (l : KvList) : List Bytes := l.nodes.map EnvKv.key

/-- Every key with its terminator is inside `key[256]`. -/
def KvList.KeysFit (l : KvList) : Prop := ∀ key ∈ l.keys, key.length ≤ 255

/-- What one `bootenv_update` is to do to the map. -/
structure MapLaws (before : KvList) (name value : Bytes) (after : KvList) : Prop where
  distinct : after.keys.Nodup
  stored : value ≠ (bootenvGetValue before name).getD [] →
    bootenvGetValue after name = some value ∧
      ∀ other, other ≠ name → bootenvGetValue after other = bootenvGetValue before other

/-- A name that is stored whole, or an empty value for a name that no field can hold. -/
def NameFits (name value : Bytes) : Prop := name.length ≤ 255 ∨ value = []

instance (name value : Bytes) : Decidable (NameFits name value) := inferInstanceAs (Decidable (_ ∨ _))

/-! ### One call on the list -/

theorem lookup_of_absent {name : Bytes} {nodes : List EnvKv} (absent : name ∉ nodes.map EnvKv.key) :
    lookup name nodes = none := by
  induction nodes with
  | nil => rfl
  | cons attr rest ih =>
    simp only [List.map_cons, List.mem_cons, not_or] at absent
    rw [lookup, if_neg absent.1]
    exact ih absent.2

/-- A name that no key field can hold is not found. -/
theorem KvList.KeysFit.lookup_long {l : KvList} (fits : l.KeysFit) {name : Bytes}
    (long : ¬name.length ≤ 255) : bootenvGetValue l name = none := by
  apply lookup_of_absent
  intro member
  exact long (fits name member)

/-- An assignment keeps the keys, or adds the stored name behind them. -/
theorem keys_assign (key value : Bytes) (nodes : List EnvKv) :
    (assign key value nodes).map EnvKv.key =
      if key ∈ nodes.map EnvKv.key then nodes.map EnvKv.key
      else nodes.map EnvKv.key ++ [snprintf 256 key] := by
  induction nodes with
  | nil => rfl
  | cons attr rest ih =>
    unfold assign
    by_cases same : key = attr.key
    · simp [same]
    · rw [if_neg same, List.map_cons, ih]
      by_cases member : key ∈ rest.map EnvKv.key <;> simp [member, same]

theorem keysFit_update {l : KvList} (fits : l.KeysFit) (name value : Bytes) :
    (bootenvUpdateKv l name value).KeysFit := by
  intro key member
  rw [bootenvUpdateKv] at member
  split_ifs at member
  · exact fits key member
  · rw [KvList.keys, bootenvSetValue_nodes, keys_assign] at member
    split_ifs at member
    · exact fits key member
    · rcases List.mem_append.mp member with old | new
      · exact fits key old
      · rw [List.mem_singleton.mp new, snprintf]
        exact List.length_take_le ..

theorem keys_nodup_assign {key : Bytes} (fits : key.length ≤ 255) (value : Bytes)
    {nodes : List EnvKv} (distinct : (nodes.map EnvKv.key).Nodup) :
    ((assign key value nodes).map EnvKv.key).Nodup := by
  rw [keys_assign]
  split_ifs with member
  · exact distinct
  · have whole : snprintf 256 key = key := List.take_of_length_le fits
    rw [whole]
    rw [List.nodup_append]
    refine ⟨distinct, List.pairwise_singleton .., ?_⟩
    intro old present new isNew
    rw [List.mem_singleton.mp isNew]
    exact fun equal => member (equal ▸ present)

/-- One call on a list with distinct keys keeps the map laws exactly if its name fits. -/
theorem mapLaws_update_iff {l : KvList} (distinct : l.keys.Nodup) (fits : l.KeysFit)
    (name value : Bytes) :
    MapLaws l name value (bootenvUpdateKv l name value) ↔ NameFits name value := by
  by_cases same : value = (bootenvGetValue l name).getD []
  · rw [bootenvUpdateKv, if_pos same]
    refine iff_of_true ⟨distinct, fun changed => absurd same changed⟩ ?_
    by_cases long : name.length ≤ 255
    · exact .inl long
    · rw [fits.lookup_long long] at same
      exact .inr same
  · have nodes : (bootenvUpdateKv l name value).nodes = assign name value l.nodes := by
      rw [bootenvUpdateKv, if_neg same, bootenvSetValue_nodes]
    constructor
    · intro laws
      left
      by_contra long
      have missing := (keysFit_update fits name value).lookup_long long
      rw [(laws.stored same).1] at missing
      cases missing
    · intro nameFits
      have short : name.length ≤ 255 := by
        rcases nameFits with short | rfl
        · exact short
        · by_contra long
          rw [fits.lookup_long long] at same
          exact same rfl
      constructor
      · rw [KvList.keys, nodes]
        exact keys_nodup_assign short value distinct
      · intro _
        simp only [bootenvGetValue, nodes]
        refine ⟨lookup_assign_self short value _, ?_⟩
        intro other different
        exact lookup_assign_other short different value _

/-! ### Calls of one process -/

/-- A completed call on a list that is up to date changes the list as `bootenv_set_value` does,
whatever the device answers, and leaves it up to date. -/
theorem UpdateStep.kv {g : Geometry} {s t : Session} {l : UpdateCall × ℤ}
    (taken : UpdateStep g s l t) (current : s.currentRevision = s.shm.revision) :
    t.kv = bootenvUpdateKv s.kv l.1.name l.1.value ∧ t.currentRevision = t.shm.revision := by
  obtain ⟨⟨name, value, ios⟩, ret⟩ := l
  simp only [UpdateStep, bootenvUpdate, checkLoadKv, if_pos current, Except.bind] at taken
  rw [bootenvUpdateKv]
  split_ifs at taken ⊢ with same
  · cases taken
    exact ⟨rfl, current⟩
  · cases written : envSerializeData g.dataSize (bootenvSetValue s.kv name value) with
    | none =>
      simp [saveLoop, maxUbootRwretry, saveBootenv, serialize, written, Except.map, Except.bind]
        at taken
    | some data =>
      obtain ⟨t', ret', attempts, saved, -, -, effect⟩ := saveLoop_spec 4 (i := 0)
        (s := { s with kv := bootenvSetValue s.kv name value }) (by decide : (-1 : ℤ) < 0)
        written
      cases saved.symm.trans taken
      exact ⟨effect.kv, effect.synced⟩

/-- For every sequence of calls and every behaviour of the device: starting from distinct keys, each
call keeps the map laws exactly if no call sets a name of more than 255 bytes to a non-empty value. -/
theorem mapLaws_throughout_iff {g : Geometry} {s t : Session} {ls : List (UpdateCall × ℤ)}
    (run : Run (UpdateStep g) s ls t) (current : s.currentRevision = s.shm.revision)
    (distinct : s.kv.keys.Nodup) (fits : s.kv.KeysFit) :
    Run (fun s l t => UpdateStep g s l t ∧ MapLaws s.kv l.1.name l.1.value t.kv) s ls t ↔
      ∀ l ∈ ls, NameFits l.1.name l.1.value := by
  induction run with
  | nil s => exact iff_of_true (.nil s) (by simp)
  | @cons s mid t l ls head rest ih =>
    obtain ⟨kv, current'⟩ := head.kv current
    have laws_iff := mapLaws_update_iff distinct fits l.1.name l.1.value
    rw [← kv] at laws_iff
    have fits' : mid.kv.KeysFit := kv ▸ keysFit_update fits _ _
    constructor
    · intro lawful
      obtain ⟨mid', ⟨head', laws⟩, rest'⟩ := Run.cons_iff.mp lawful
      cases head.symm.trans head'
      have later := (ih current' laws.distinct fits').mp rest'
      exact List.forall_mem_cons.mpr ⟨laws_iff.mp laws, later⟩
    · intro names
      obtain ⟨nameFits, later⟩ := List.forall_mem_cons.mp names
      have laws := laws_iff.mpr nameFits
      exact .cons ⟨head, laws⟩ ((ih current' laws.distinct fits').mpr later)

/-- A region of 512 bytes on a block device. -/
def wideGeometry : Geometry := ⟨false, 516, 512⟩

theorem sampleSession_keysFit : sampleSession.kv.KeysFit := by
  intro key member
  rw [List.mem_singleton.mp member]
  decide

def setB : UpdateCall := ⟨[98], [50], fun _ => .good⟩

theorem mapLaws_throughout_iff_pair :
    ∃ t, Run (UpdateStep smallGeometry) sampleSession [(setB, 0)] t ∧
      (Run (fun s l t => UpdateStep smallGeometry s l t ∧ MapLaws s.kv l.1.name l.1.value t.kv)
        sampleSession [(setB, 0)] t ↔ ∀ l ∈ [(setB, (0 : ℤ))], NameFits l.1.name l.1.value) := by
  have run : Run (UpdateStep smallGeometry) sampleSession [(setB, 0)] _ := .cons rfl (.nil _)
  exact ⟨_, run, mapLaws_throughout_iff run rfl (by decide) sampleSession_keysFit⟩

/-- A name of 256 bytes. -/
def longName : Bytes := List.replicate 256 97

/-- A name that does not fit is not found after it was set. -/
theorem not_mapLaws_long_name :
    sampleSession.kv.keys.Nodup ∧
      ∃ t, UpdateStep wideGeometry sampleSession (⟨longName, [49], fun _ => .good⟩, 0) t ∧
        ¬MapLaws sampleSession.kv longName [49] t.kv := by
  have executed : ((bootenvUpdate wideGeometry (fun _ => .good) longName [49]
      sampleSession).toOption.map Prod.snd) = some 0 := by
    decide +kernel
  obtain ⟨⟨t, ret⟩, done, rfl⟩ := Option.map_eq_some_iff.mp executed
  have taken : UpdateStep wideGeometry sampleSession (⟨longName, [49], fun _ => .good⟩, 0) t := by
    rw [UpdateStep]
    generalize bootenvUpdate _ _ _ _ _ = result at done
    cases result with
    | error fault => cases done
    | ok found => exact congrArg _ (Option.some.inj done)
  refine ⟨by decide, t, taken, ?_⟩
  rw [(taken.kv rfl).1, mapLaws_update_iff (by decide) sampleSession_keysFit]
  decide +kernel

end AmlCommonlib.Ubootenv
