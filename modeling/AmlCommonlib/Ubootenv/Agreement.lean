import AmlCommonlib.Ubootenv.Session

/-! # Agreement between a private list and the shared image

The list and the decoded image need not be equal: a valueless node is printed as `(null)`, keyless
short entries are dropped and duplicates stay. What all users of the list rely on is the lookup of
proper names, and that is the relation every locked section establishes.
-/

namespace AmlCommonlib.Ubootenv

/-- What glibc prints for a node without value. -/
def nullText : Bytes := valueText none

/-- Every value found in the list is the one the image decodes to, and back, the text of a missing
value apart. -/
structure Agrees (kv : KvList) (data : Bytes) : Prop where
  decodes : ∃ l, envParseKv .empty data = .ok l ∧
    (∀ name v, name ≠ [] → lookup name kv.nodes = some v → lookup name l.nodes = some v) ∧
    (∀ name v, name ≠ [] → v ≠ nullText → lookup name l.nodes = some v →
      lookup name kv.nodes = some v)

/-- The first node with a name. -/
def firstNode (name : Bytes) (nodes : List EnvKv) : Option EnvKv :=
  nodes.find? fun attr => name = attr.key

theorem lookup_eq_firstNode (name : Bytes) (nodes : List EnvKv) :
    lookup name nodes = (firstNode name nodes).bind (·.value) := by
  induction nodes with
  | nil => rfl
  | cons attr rest ih =>
    by_cases same : name = attr.key
    · simp [lookup, firstNode, same]
    · simpa [lookup, firstNode, same] using ih

/-- Dropping short entries and printing the others keeps the first node of every proper name. -/
theorem firstNode_printed {name : Bytes} (proper : name ≠ []) {nodes extra : List EnvKv}
    (loadable : ∀ attr ∈ nodes, Loadable attr) (keyless : ∀ attr ∈ extra, attr.key = []) :
    firstNode name ((kept nodes).map printed ++ extra) = (firstNode name nodes).map printed := by
  induction nodes with
  | nil =>
    simp only [kept, List.filter_nil, List.map_nil, List.nil_append, firstNode, List.find?_nil,
      Option.map_none, List.find?_eq_none, decide_eq_true_eq]
    intro attr member same
    exact proper (same.trans (keyless attr member))
  | cons attr rest ih =>
    have tail := ih fun a member => loadable a (List.mem_cons_of_mem _ member)
    by_cases short : (entryText attr).length < 3
    · obtain ⟨-, -, key, -⟩ := (loadable attr (List.mem_cons_self ..)).short short
      have miss : name ≠ attr.key := key ▸ proper
      have skipped : kept (attr :: rest) = kept rest := by simp [kept, short]
      rw [skipped, tail]
      simp [firstNode, miss]
    · have stays : kept (attr :: rest) = attr :: kept rest :=
        List.filter_cons_of_pos (by simpa using short)
      rw [stays]
      by_cases same : name = attr.key
      · simp [firstNode, printed, same]
      · simpa [firstNode, printed, same] using tail

theorem Residue.keyless_extra {behind : Bytes} {extra : List EnvKv} (residue : Residue behind extra) :
    ∀ attr ∈ extra, attr.key = [] := by
  cases residue <;> simp

theorem relink_empty (parsed : List EnvKv) : relink [] parsed = parsed := by
  unfold relink
  split_ifs with none
  · exact none.symm
  · rfl

/-- A region just printed agrees with the list it was printed from. -/
theorem Agrees.of_serialized {size : ℕ} {kv : KvList} {data : Bytes}
    (loadable : ∀ attr ∈ kv.nodes, Loadable attr)
    (long : ∃ attr ∈ kv.nodes, ¬(entryText attr).length < 3)
    (written : envSerializeData size kv = some data) : Agrees kv data := by
  obtain ⟨-, behind, extra, residue, rfl⟩ := serializeLoop_kept loadable (.erased size) written
  have keptLoadable : ∀ a ∈ kept kv.nodes, Loadable a :=
    fun a member => loadable a (List.mem_filter.mp member).1
  obtain ⟨first, rest, split⟩ : ∃ first rest, kept kv.nodes = first :: rest := by
    obtain ⟨attr, member, stays⟩ := long
    exact List.exists_cons_of_ne_nil
      (List.ne_nil_of_mem (List.mem_filter.mpr ⟨member, by simpa using stays⟩))
  have parsed := envParseKv_entries (split ▸ keptLoadable) residue .empty
  have nodes : (KvList.mk (printed first) (relink KvList.empty.next (rest.map printed ++ extra))).nodes =
      (kept kv.nodes).map printed ++ extra := by
    rw [KvList.empty, relink_empty, split]
    rfl
  refine ⟨_, split ▸ parsed, ?_, ?_⟩
  · intro name v proper found
    rw [lookup_eq_firstNode] at found
    obtain ⟨attr, first, stored⟩ := Option.bind_eq_some_iff.mp found
    rw [nodes, lookup_eq_firstNode, firstNode_printed proper loadable residue.keyless_extra, first]
    simp [printed, valueText, stored]
  · intro name v proper text found
    rw [nodes, lookup_eq_firstNode, firstNode_printed proper loadable residue.keyless_extra] at found
    obtain ⟨node, mapped, printedText⟩ := Option.bind_eq_some_iff.mp found
    obtain ⟨attr, first, rfl⟩ := Option.map_eq_some_iff.mp mapped
    rw [lookup_eq_firstNode, first, Option.bind_some]
    simp only [printed, Option.some.injEq] at printedText
    cases stored : attr.value with
    | none => exact absurd (printedText.symm.trans (by rw [stored]; rfl)) text
    | some w => simpa [valueText, stored] using printedText

/-- A list parsed from nothing agrees with the region it was parsed from. -/
theorem Agrees.of_parsed {kv : KvList} {data : Bytes} (parsed : envParseKv .empty data = .ok kv) :
    Agrees kv data := ⟨kv, parsed, fun _ _ _ found => found, fun _ _ _ _ found => found⟩

private theorem parsePass_released (key ptr : Bytes) :
    parsePass ⟨key, none⟩ true ptr = parsePass .fresh true ptr := rfl

/-- Parsing into a released list differs from parsing into an empty one in the stale key of an
otherwise untouched header only, which has no value to be found. -/
theorem Agrees.of_released {l : KvList} {data : Bytes} (parsed : envParseKv .empty data = .ok l)
    (old : KvList) : ∃ kv, envParseKv (envReleaseKv old) data = .ok kv ∧ Agrees kv data := by
  have untouched : l = .empty → Agrees (envReleaseKv old) data := by
    rintro rfl
    refine ⟨_, parsed, ?_, ?_⟩
    · intro name v _ found
      simp [envReleaseKv, lookup] at found
    · intro name v _ _ found
      simp [KvList.empty, EnvKv.fresh, lookup] at found
  simp only [envParseKv, envReleaseKv, KvList.empty] at parsed ⊢
  cases data with
  | nil =>
    cases parsed
    exact ⟨_, rfl, untouched rfl⟩
  | cons c ptr =>
    simp only [parseLoop, Bool.false_eq_true, if_false, parsePass_released] at parsed ⊢
    split_ifs at parsed ⊢ with zero
    · cases parsed
      exact ⟨_, rfl, untouched rfl⟩
    · split at parsed
      · contradiction
      · cases parsed
        exact ⟨_, rfl, untouched rfl⟩
      · rename_i pass
        refine ⟨l, parsed, .of_parsed ?_⟩
        simp only [envParseKv, KvList.empty, parseLoop, zero, Bool.false_eq_true, if_false, pass]
        exact parsed

/-! ### What the locked sections establish -/

/-- A session whose image decodes and whose list, when it is up to date, agrees with it. -/
structure Session.Coherent (s : Session) : Prop where
  loadable : ∀ attr ∈ s.kv.nodes, Loadable attr
  agrees : s.currentRevision = s.shm.revision → Agrees s.kv s.shm.img.data
  decodes : ∃ l, envParseKv .empty s.shm.img.data = .ok l

/-- After `check_load_kv` the list is up to date and nothing shared has changed. -/
theorem checkLoadKv_spec {s : Session} (coherent : s.Coherent) :
    ∃ t, checkLoadKv s = .ok t ∧ t.shm = s.shm ∧ t.device = s.device ∧
      t.currentRevision = t.shm.revision ∧ t.Coherent := by
  unfold checkLoadKv
  split_ifs with same
  · exact ⟨s, rfl, rfl, rfl, same, coherent⟩
  · obtain ⟨l, parsed⟩ := coherent.decodes
    obtain ⟨kv, reloaded, agrees⟩ := Agrees.of_released parsed s.kv
    have released : ∀ attr ∈ (envReleaseKv s.kv).nodes, Loadable attr := by
      have head := coherent.loadable s.kv.header (List.mem_cons_self ..)
      intro attr member
      obtain rfl := List.mem_singleton.mp member
      exact ⟨head.key_length, head.key_plain, head.key_separator, by simp [envReleaseKv]⟩
    rw [reloaded]
    exact ⟨_, rfl, rfl, rfl, rfl, envParseKv_loadable released reloaded, fun _ => agrees, l, parsed⟩

/-- What one attempt can do to the partition, with the sign of its result. -/
inductive DeviceEffect (io : SaveIo) (s : Session) : Session × ℤ → Prop
  | untouched (ret : ℤ) : ret < 0 → DeviceEffect io s (s, ret)
  | written (ret : ℤ) : DeviceEffect io s ({ s with device := s.shm.img }, ret)
  | damaged (left : EnvImage) (ret : ℤ) : left ∈ io.leftovers → ret < 0 ∨ io.write.isShort →
      DeviceEffect io s ({ s with device := left }, ret)

theorem writeOut_effect (io : SaveIo) (s : Session) : DeviceEffect io s (writeOut io s) := by
  unfold writeOut
  cases write : io.write with
  | all => exact .written _
  | short left =>
    exact .damaged left _ (by simp [SaveIo.leftovers, write, WriteResult.leftovers])
      (.inr (by simp [write, WriteResult.isShort]))
  | failed left =>
    exact .damaged left _ (by simp [SaveIo.leftovers, write, WriteResult.leftovers])
      (.inl (by decide))

theorem eraseAndWrite_effect (io : SaveIo) (s : Session) :
    DeviceEffect io s (eraseAndWrite io s) := by
  unfold eraseAndWrite
  cases erase : io.memErase with
  | done => exact writeOut_effect io s
  | failed left =>
    exact .damaged left _ (by simp [SaveIo.leftovers, erase, EraseResult.leftovers])
      (.inl (by decide))

theorem storeImage_effect (g : Geometry) (io : SaveIo) (s : Session) :
    DeviceEffect io s (storeImage g io s) := by
  unfold storeImage
  repeat' split
  all_goals first
    | exact .untouched _ (by decide)
    | exact eraseAndWrite_effect io s
    | exact writeOut_effect io s

/-- One `save_bootenv` of a list that fits: the image is the printed list with its checksum. -/
theorem saveBootenv_spec {g : Geometry} {s : Session} {data : Bytes} (io : SaveIo)
    (written : envSerializeData g.dataSize s.kv = some data) :
    ∃ t ret, saveBootenv g io s = .ok (t, ret) ∧ t.kv = s.kv ∧
      t.shm.img = ⟨crc32 data, data⟩ ∧ t.shm.refcnt = s.shm.refcnt ∧
      t.currentRevision = s.currentRevision + 1 ∧ t.shm.revision = s.currentRevision + 1 ∧
      (t.device = s.device ∨ t.device = t.shm.img ∨ t.device ∈ io.leftovers) ∧
      (¬ret < 0 → io.write.isShort ∨ t.device = t.shm.img) := by
  have effect := storeImage_effect g io
    { s with
      currentRevision := s.currentRevision + 1
      shm := { s.shm with revision := s.currentRevision + 1, img := ⟨crc32 data, data⟩ } }
  simp only [saveBootenv, serialize, written, Except.map]
  generalize storeImage g io _ = result at effect
  cases effect with
  | untouched ret negative =>
    exact ⟨_, ret, rfl, rfl, rfl, rfl, rfl, rfl, .inl rfl, fun success => absurd negative success⟩
  | written ret => exact ⟨_, ret, rfl, rfl, rfl, rfl, rfl, rfl, .inr (.inl rfl), fun _ => .inr rfl⟩
  | damaged left ret member sign =>
    exact ⟨_, ret, rfl, rfl, rfl, rfl, rfl, rfl, .inr (.inr member),
      fun success => .inl (sign.resolve_left success)⟩

/-- The session left by one or more attempts to store a list whose printed form is `data`. -/
structure Attempted (ios : ℕ → SaveIo) (data : Bytes) (before after : Session) (ret : ℤ)
    (attempts : ℕ) : Prop where
  kv : after.kv = before.kv
  image : after.shm.img = ⟨crc32 data, data⟩
  refcnt : after.shm.refcnt = before.shm.refcnt
  synced : after.currentRevision = after.shm.revision
  revision : after.currentRevision = before.currentRevision + UInt32.ofNat attempts
  device : after.device = before.device ∨ after.device = after.shm.img ∨
    ∃ i, after.device ∈ (ios i).leftovers
  success : ¬ret < 0 → (∃ i, (ios i).write.isShort) ∨ after.device = after.shm.img

/-- The retry loop ends after one to five attempts; each prints the same region. -/
theorem saveLoop_spec {g : Geometry} {ios : ℕ → SaveIo} {data : Bytes} (left : ℕ) :
    ∀ {i : ℕ} {s : Session} {ret : ℤ}, ret < 0 → envSerializeData g.dataSize s.kv = some data →
      ∃ t ret' attempts, saveLoop g ios (left + 1) i (s, ret) = .ok (t, ret') ∧
        1 ≤ attempts ∧ attempts ≤ left + 1 ∧ Attempted ios data s t ret' attempts := by
  induction left with
  | zero =>
    intro i s ret negative written
    obtain ⟨t, ret', saved, kv, image, refcnt, current, revision, device, success⟩ :=
      saveBootenv_spec (ios i) written
    refine ⟨t, ret', 1, ?_, le_rfl, le_rfl, kv, image, refcnt, current.trans revision.symm, current,
      ?_, fun ok => (success ok).imp_left fun short => ⟨i, short⟩⟩
    · simp [saveLoop, negative, saved, Except.bind]
    · exact device.imp_right (.imp_right fun member => ⟨i, member⟩)
  | succ left ih =>
    intro i s ret negative written
    obtain ⟨t, ret', saved, kv, image, refcnt, current, revision, device, success⟩ :=
      saveBootenv_spec (ios i) written
    have unfolded : saveLoop g ios (left + 1 + 1) i (s, ret) =
        saveLoop g ios (left + 1) (i + 1) (t, ret') := by
      simp [saveLoop, negative, saved, Except.bind]
    by_cases again : ret' < 0
    · obtain ⟨u, ret'', attempts, rest, low, high, tail⟩ :=
        ih (i := i + 1) again ((congrArg _ kv).trans written)
      refine ⟨u, ret'', attempts + 1, unfolded.trans rest, by omega, by omega, tail.kv.trans kv,
        tail.image, tail.refcnt.trans refcnt, tail.synced, ?_, ?_, tail.success⟩
      · rw [tail.revision, current]
        rw [UInt32.ofNat_add, UInt32.add_assoc, UInt32.add_comm 1]
        rfl
      · rcases tail.device with same | stored | damaged
        · rcases device with same' | stored' | damaged'
          · exact .inl (same.trans same')
          · exact .inr (.inl (same.trans (stored'.trans (image.trans tail.image.symm))))
          · exact .inr (.inr ⟨i, same ▸ damaged'⟩)
        · exact .inr (.inl stored)
        · exact .inr (.inr damaged)
    · refine ⟨t, ret', 1, ?_, le_rfl, by omega, kv, image, refcnt, current.trans revision.symm,
        current, ?_, fun ok => (success ok).imp_left fun short => ⟨i, short⟩⟩
      · rw [unfolded]
        simp [saveLoop, again]
      · exact device.imp_right (.imp_right fun member => ⟨i, member⟩)

/-- A name as every caller is expected to pass it. -/
structure ProperName (name : Bytes) : Prop where
  nonempty : name ≠ []
  length : name.length ≤ 255
  plain : IsCString name
  separator : 61 ∉ name

/-- A value the decoder can give back whole. -/
structure ProperValue (value : Bytes) : Prop where
  nonempty : value ≠ []
  length : value.length ≤ 4095
  plain : IsCString value

theorem bootenvSetValue_loadable {kv : KvList} {name value : Bytes} (proper : ProperName name)
    (legal : ProperValue value) (loadable : ∀ attr ∈ kv.nodes, Loadable attr) :
    ∀ attr ∈ (bootenvSetValue kv name value).nodes, Loadable attr := by
  have stored : ∀ v, some value = some v → v ≠ [] ∧ IsCString v ∧ v.length ≤ 4095 := by
    rintro v equal
    cases equal
    exact ⟨legal.nonempty, legal.plain, legal.length⟩
  have cut : snprintf 256 name = name := List.take_of_length_le proper.length
  rw [bootenvSetValue_nodes]
  intro attr member
  rcases mem_assign member with old | ⟨text, named | ⟨old, present, named⟩⟩
  · exact loadable attr old
  · rw [cut] at named
    exact ⟨named ▸ proper.length, named ▸ proper.plain, named ▸ proper.separator,
      fun v equal => stored v (text.symm.trans equal)⟩
  · have shape := loadable old present
    exact ⟨named ▸ shape.key_length, named ▸ shape.key_plain, named ▸ shape.key_separator,
      fun v equal => stored v (text.symm.trans equal)⟩

theorem lookup_some_mem {name v : Bytes} {nodes : List EnvKv} (found : lookup name nodes = some v) :
    ∃ attr ∈ nodes, attr.key = name ∧ attr.value = some v := by
  rw [lookup_eq_firstNode] at found
  obtain ⟨attr, first, stored⟩ := Option.bind_eq_some_iff.mp found
  have named := List.find?_some first
  exact ⟨attr, List.mem_of_find?_eq_some first, (of_decide_eq_true named).symm, stored⟩

/-- A list that holds a proper variable is printed with at least one full entry. -/
theorem exists_long {name v : Bytes} {nodes : List EnvKv} (proper : name ≠ []) (nonempty : v ≠ [])
    (found : lookup name nodes = some v) : ∃ attr ∈ nodes, ¬(entryText attr).length < 3 := by
  obtain ⟨attr, member, rfl, stored⟩ := lookup_some_mem found
  have key := List.length_pos_iff.mpr proper
  have value := List.length_pos_iff.mpr nonempty
  refine ⟨attr, member, ?_⟩
  simp only [entryText, valueText, stored, Option.getD_some, List.length_append, List.length_cons]
  omega

/-- What the two branches of `bootenv_update` do: nothing at all when the list already holds the
value, otherwise at least one attempt to store the changed list. -/
inductive UpdateOutcome (g : Geometry) (ios : ℕ → SaveIo) (name value : Bytes) (loaded : Session) :
    Session → ℤ → Prop
  | unchanged : lookup name loaded.kv.nodes = some value → UpdateOutcome g ios name value loaded loaded 0
  | attempted {after : Session} {data : Bytes} {ret : ℤ} {attempts : ℕ} :
      lookup name loaded.kv.nodes ≠ some value → 1 ≤ attempts → attempts ≤ maxUbootRwretry →
      envSerializeData g.dataSize (bootenvSetValue loaded.kv name value) = some data →
      Attempted ios data { loaded with kv := bootenvSetValue loaded.kv name value } after ret attempts →
      UpdateOutcome g ios name value loaded after ret

/-- `bootenv_update` of a non-empty value completes whenever the changed list fits the region. -/
theorem bootenvUpdate_outcome {g : Geometry} (ios : ℕ → SaveIo) {name value : Bytes}
    {s loaded : Session} (nonempty : value ≠ []) (reloaded : checkLoadKv s = .ok loaded)
    (fits : envSerializeData g.dataSize (bootenvSetValue loaded.kv name value) ≠ none) :
    ∃ t ret, bootenvUpdate g ios name value s = .ok (t, ret) ∧
      UpdateOutcome g ios name value loaded t ret := by
  have found : value = (bootenvGetValue loaded.kv name).getD [] ↔
      lookup name loaded.kv.nodes = some value := by
    unfold bootenvGetValue
    cases lookup name loaded.kv.nodes with
    | none => simp [nonempty]
    | some w => simp [eq_comm]
  simp only [bootenvUpdate, reloaded, Except.bind]
  by_cases same : lookup name loaded.kv.nodes = some value
  · rw [if_pos (found.mpr same)]
    exact ⟨loaded, 0, rfl, .unchanged same⟩
  · rw [if_neg fun equal => same (found.mp equal)]
    obtain ⟨data, written⟩ := Option.ne_none_iff_exists'.mp fits
    obtain ⟨t, ret, attempts, saved, low, high, effect⟩ := saveLoop_spec 4 (i := 0)
      (s := { loaded with kv := bootenvSetValue loaded.kv name value }) (by decide : (-1 : ℤ) < 0)
      written
    exact ⟨t, ret, saved, .attempted same low high written effect⟩

/-- Every outcome leaves an up-to-date list that holds the value and agrees with the image. -/
theorem UpdateOutcome.coherent {g : Geometry} {ios : ℕ → SaveIo} {name value : Bytes}
    {loaded t : Session} {ret : ℤ} (outcome : UpdateOutcome g ios name value loaded t ret)
    (proper : ProperName name) (legal : ProperValue value) (before : loaded.Coherent)
    (synced : loaded.currentRevision = loaded.shm.revision) :
    t.Coherent ∧ t.currentRevision = t.shm.revision ∧ Agrees t.kv t.shm.img.data ∧
      lookup name t.kv.nodes = some value := by
  cases outcome with
  | unchanged same => exact ⟨before, synced, before.agrees synced, same⟩
  | attempted different low high written effect =>
    have kv : t.kv = bootenvSetValue loaded.kv name value := effect.kv
    have stored : lookup name t.kv.nodes = some value := by
      rw [kv, bootenvSetValue_nodes]
      exact lookup_assign_self proper.length value _
    have loadable := bootenvSetValue_loadable proper legal before.loadable
    rw [← kv] at loadable written
    have agrees : Agrees t.kv t.shm.img.data := by
      rw [effect.image]
      exact .of_serialized loadable (exists_long proper.nonempty legal.nonempty stored) written
    obtain ⟨l, parsed, -⟩ := agrees.decodes
    exact ⟨⟨loadable, fun _ => agrees, l, parsed⟩, effect.synced, agrees, stored⟩

/-- A value found in the list is found in the image. -/
theorem Agrees.stores {kv : KvList} {image : EnvImage} (agrees : Agrees kv image.data)
    {name v : Bytes} (proper : name ≠ []) (found : lookup name kv.nodes = some v) :
    image.Stores name v := by
  obtain ⟨l, parsed, there, -⟩ := agrees.decodes
  exact ⟨l, parsed, there name v proper found⟩

/-- A value found in the image is found in the list, the text of a missing value apart. -/
theorem Agrees.found {kv : KvList} {image : EnvImage} (agrees : Agrees kv image.data)
    {name v : Bytes} (proper : name ≠ []) (text : v ≠ nullText) (stores : image.Stores name v) :
    lookup name kv.nodes = some v := by
  obtain ⟨l, parsed, -, back⟩ := agrees.decodes
  obtain ⟨l', parsed', found⟩ := stores
  obtain rfl := Except.ok.inj (parsed.symm.trans parsed')
  exact back name v proper text found

end AmlCommonlib.Ubootenv
