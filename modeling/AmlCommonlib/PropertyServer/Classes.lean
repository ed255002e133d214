import AmlCommonlib.PropertyServer.PropertyDb

/-! # Property classes over runs

The class of a key is read off its prefix with `rfind`, the position of the last occurrence. So the
promises of a class hold for exactly the keys in which the prefix does not occur again.
-/

namespace AmlCommonlib.PropertyServer

/-- The prefix occurs at the start of the key and again behind it. -/
def Repeats (pattern key : Bytes) : Prop := pattern <+: key ∧ pattern <:+: key.tail

instance (pattern key : Bytes) : Decidable (Repeats pattern key) :=
  inferInstanceAs (Decidable (_ ∧ _))

theorem getAttribute_ro_iff {key : Bytes} :
    getAttribute key = .ro ↔ roPrefix <+: key ∧ ¬roPrefix <:+: key.tail := by
  rw [← rfind_eq_zero_iff (by decide), getAttribute]
  split_ifs <;> simp_all

/-- No key starts with both prefixes. -/
theorem not_ro_of_persist {key : Bytes} (persist : persistPrefix <+: key) : ¬roPrefix <+: key := by
  obtain ⟨rest, rfl⟩ := persist
  rintro ⟨rest', same⟩
  cases (List.cons.inj same).1

theorem getAttribute_persist_iff {key : Bytes} :
    getAttribute key = .persist ↔ persistPrefix <+: key ∧ ¬persistPrefix <:+: key.tail := by
  rw [← rfind_eq_zero_iff (by decide), getAttribute]
  split_ifs with ro persist
  · refine ⟨fun same => absurd same (by decide), ?_⟩
    intro found
    have starts := ((rfind_eq_zero_iff (by decide) key).mp ro).1
    exact absurd starts (not_ro_of_persist ((rfind_eq_zero_iff (by decide) key).mp found).1)
  · exact ⟨fun _ => persist, fun _ => rfl⟩
  · exact ⟨fun same => absurd same (by decide), fun found => absurd found persist⟩

/-- Keys without a prefix, and keys in which their prefix occurs again, are temporary. -/
theorem getAttribute_temp {key : Bytes} (ro : roPrefix <+: key → roPrefix <:+: key.tail)
    (persist : persistPrefix <+: key → persistPrefix <:+: key.tail) : getAttribute key = .temp := by
  cases attr : getAttribute key with
  | temp => rfl
  | ro => exact absurd (ro (getAttribute_ro_iff.mp attr).1) (getAttribute_ro_iff.mp attr).2
  | persist =>
    exact absurd (persist (getAttribute_persist_iff.mp attr).1) (getAttribute_persist_iff.mp attr).2

theorem trim_idem (key : Bytes) : trim (trim key) = trim key := trim_trim isspace key

/-! ### One `set` -/

@[simp] theorem changed_store (action : Change) (key value oldValue : Bytes) (r : Bool × Store) :
    (changed action key value oldValue r).store = r.2 := by
  obtain ⟨ret, s⟩ := r
  cases ret <;> rfl

@[simp] theorem changed_ret (action : Change) (key value oldValue : Bytes) (r : Bool × Store) :
    (changed action key value oldValue r).ret = r.1 := by
  obtain ⟨ret, s⟩ := r
  cases ret <;> rfl

/-- Past the guards, a `set` is one `set` or `del` in the store of the key, or nothing. -/
theorem internalSet_cases {s : Store} {writes : Bool} {key value : Bytes}
    (writable : getAttribute key ≠ .ro) (some' : key ≠ []) :
    (∃ old, s.dbGet (getAttribute key) key = some old ∧
      (value = [] ∧ s.internalSet writes key value =
          changed .deleted key old old (s.dbDel writes (getAttribute key) key) ∨
        value ≠ [] ∧ old = value ∧ s.internalSet writes key value = ⟨true, none, s⟩ ∨
        value ≠ [] ∧ old ≠ value ∧ s.internalSet writes key value =
          changed .modified key value old (s.dbSet writes (getAttribute key) key value))) ∨
    s.dbGet (getAttribute key) key = none ∧
      (value = [] ∧ s.internalSet writes key value = ⟨true, none, s⟩ ∨
        value ≠ [] ∧ s.internalSet writes key value =
          changed .added key value [] (s.dbSet writes (getAttribute key) key value)) := by
  simp only [Store.internalSet, some', writable, if_false]
  cases stored : s.dbGet (getAttribute key) key with
  | none =>
    right
    by_cases empty : value = [] <;> simp [empty]
  | some old =>
    left
    refine ⟨old, rfl, ?_⟩
    by_cases empty : value = []
    · simp [empty]
    · by_cases same : old = value <;> simp [empty, same]

/-- The parts of the stores that a `set` of a key cannot change. -/
structure Untouched (key : Bytes) (s t : Store) : Prop where
  persistDb : t.persistDb = s.persistDb
  ro : t.ro = s.ro
  disk : ∀ x, x ≠ key ∨ getAttribute key ≠ .persist → t.disk x = s.disk x

theorem Untouched.refl (key : Bytes) (s : Store) : Untouched key s s := ⟨rfl, rfl, fun _ _ => rfl⟩

theorem dbSet_untouched (s : Store) (writes : Bool) (key value : Bytes) :
    Untouched key s (s.dbSet writes (getAttribute key) key value).2 := by
  cases attr : getAttribute key with
  | temp => exact ⟨rfl, rfl, fun _ _ => rfl⟩
  | ro => exact .refl key s
  | persist =>
    rw [Store.dbSet]
    split_ifs
    · exact .refl key s
    · refine ⟨rfl, rfl, ?_⟩
      intro x other
      exact Function.update_of_ne (other.resolve_right (absurd attr ·)) _ _

theorem dbDel_untouched (s : Store) (writes : Bool) (key : Bytes) :
    Untouched key s (s.dbDel writes (getAttribute key) key).2 := by
  cases attr : getAttribute key with
  | temp => exact ⟨rfl, rfl, fun _ _ => rfl⟩
  | ro => exact .refl key s
  | persist =>
    rw [Store.dbDel]
    split_ifs
    · exact .refl key s
    · refine ⟨rfl, rfl, ?_⟩
      intro x other
      exact Function.update_of_ne (other.resolve_right (absurd attr ·)) _ _

theorem set_readonly {s : Store} {key : Bytes} (attr : getAttribute (trim key) = .ro)
    (writes : Bool) (value : Bytes) :
    (s.set writes key value).ret = false ∧ (s.set writes key value).store = s := by
  simp only [Store.set, Store.internalSet, attr, if_true]
  split_ifs <;> exact ⟨rfl, rfl⟩

theorem set_untouched (s : Store) (writes : Bool) (key value : Bytes) :
    Untouched (trim key) s (s.set writes key value).store := by
  by_cases readonly : getAttribute (trim key) = .ro
  · rw [(set_readonly readonly writes value).2]
    exact .refl _ s
  · by_cases empty : trim key = []
    · simp only [Store.set, Store.internalSet, empty, if_true]
      exact .refl _ s
    · rw [Store.set]
      rcases internalSet_cases readonly empty with
        ⟨old, -, ⟨-, done⟩ | ⟨-, -, done⟩ | ⟨-, -, done⟩⟩ | ⟨-, ⟨-, done⟩ | ⟨-, done⟩⟩ <;> rw [done]
      · exact changed_store .. ▸ dbDel_untouched s _ _
      · exact .refl _ s
      · exact changed_store .. ▸ dbSet_untouched s _ _ _
      · exact .refl _ s
      · exact changed_store .. ▸ dbSet_untouched s _ _ _

theorem dbGet_dbSet {s : Store} {writes : Bool} {attr : DataAttr} {key value : Bytes}
    (success : (s.dbSet writes attr key value).1 = true) :
    (s.dbSet writes attr key value).2.dbGet attr key = some value := by
  cases attr with
  | temp => simp [Store.dbSet, Store.dbGet, Map.insert]
  | ro => cases success
  | persist =>
    rw [Store.dbSet] at success ⊢
    split_ifs at success ⊢ with closed
    rw [Bool.not_eq_true, Bool.or_eq_false_iff] at closed
    simp only [Store.dbGet, closed.1, Map.insert, Function.update_self]
    rfl

/-- A `set` of a non-empty value that succeeds stores it. -/
theorem get_set {s : Store} {writes : Bool} {key value : Bytes} (nonempty : trim value ≠ [])
    (success : (s.set writes key value).ret = true) :
    (s.set writes key value).store.get key = some (trim value) := by
  by_cases readonly : getAttribute (trim key) = .ro
  · exact absurd ((set_readonly readonly writes value).1.symm.trans success) (by decide)
  · by_cases empty : trim key = []
    · simp [Store.set, Store.internalSet, empty] at success
    · rw [Store.set] at success ⊢
      rw [Store.get]
      rcases internalSet_cases readonly empty with
        ⟨old, stored, ⟨nothing, -⟩ | ⟨-, same, done⟩ | ⟨-, -, done⟩⟩ | ⟨-, ⟨nothing, -⟩ | ⟨-, done⟩⟩
      · exact absurd nothing nonempty
      · rw [done, stored, same]
      · rw [done, changed_ret] at success
        rw [done, changed_store, dbGet_dbSet success]
      · exact absurd nothing nonempty
      · rw [done, changed_ret] at success
        rw [done, changed_store, dbGet_dbSet success]

/-- A temporary key can always be set. -/
theorem set_temp_ret (s : Store) (writes : Bool) {key : Bytes} (value : Bytes)
    (attr : getAttribute (trim key) = .temp)
    (some' : trim key ≠ []) : (s.set writes key value).ret = true := by
  have writable : getAttribute (trim key) ≠ .ro := by simp [attr]
  rw [Store.set]
  rcases internalSet_cases writable some' with
    ⟨old, -, ⟨-, done⟩ | ⟨-, -, done⟩ | ⟨-, -, done⟩⟩ | ⟨-, ⟨-, done⟩ | ⟨-, done⟩⟩ <;> rw [done]
  · rw [changed_ret, attr, Store.dbDel]
  · rw [changed_ret, attr, Store.dbSet]
  · rw [changed_ret, attr, Store.dbSet]

/-! ### Loading the properties file -/

/-- An entry that the file may add to the database. -/
def Store.Addable (s : Store) (key : Bytes) : Prop :=
  getAttribute (trim key) = .persist ∧ s.disk (trim key) = none

theorem loadLine_spec (s : Store) (acc : Map × List (Bytes × Bytes)) (line : Bytes) :
    (∀ x, (s.loadLine acc line).1 x = acc.1 x ∨ getAttribute x = .ro ∧ trim x = x) ∧
    ∀ e ∈ (s.loadLine acc line).2, e ∈ acc.2 ∨ s.Addable e.1 := by
  simp only [Store.loadLine]
  split
  next k v rest parts =>
    split
    next attr =>
      refine ⟨?_, fun e member => .inl member⟩
      intro x
      by_cases same : x = trim k
      · subst same
        exact .inr ⟨attr, trim_idem k⟩
      · exact .inl (Function.update_of_ne same _ _)
    next attr =>
      split_ifs with absent
      · simp only [Bool.and_eq_true, Option.isNone_iff_eq_none] at absent
        refine ⟨fun x => .inl rfl, ?_⟩
        intro e member
        rcases List.mem_append.mp member with old | new
        · exact .inl old
        · exact .inr (List.mem_singleton.mp new ▸ ⟨attr, absent.2⟩)
      · exact ⟨fun x => .inl rfl, fun e member => .inl member⟩
    next => exact ⟨fun x => .inl rfl, fun e member => .inl member⟩
  next => exact ⟨fun x => .inl rfl, fun e member => .inl member⟩

theorem loadLines_spec (s : Store) (lines : List Bytes) (acc : Map × List (Bytes × Bytes)) :
    (∀ x, (lines.foldl s.loadLine acc).1 x = acc.1 x ∨ getAttribute x = .ro ∧ trim x = x) ∧
    ∀ e ∈ (lines.foldl s.loadLine acc).2, e ∈ acc.2 ∨ s.Addable e.1 := by
  induction lines generalizing acc with
  | nil => exact ⟨fun _ => .inl rfl, fun _ member => .inl member⟩
  | cons line lines ih =>
    obtain ⟨ro, batch⟩ := loadLine_spec s acc line
    obtain ⟨ro', batch'⟩ := ih (s.loadLine acc line)
    constructor
    · intro x
      rcases ro' x with same | attr
      · exact (ro x).imp_left same.trans
      · exact .inr attr
    · intro e member
      rcases batch' e member with earlier | addable
      · exact batch e earlier
      · exact .inr addable

theorem inserts_spec (batch : List (Bytes × Bytes)) (disk : Map) (x : Bytes) :
    batch.foldl (fun d e => d.insert e.1 e.2) disk x = disk x ∨ ∃ e ∈ batch, e.1 = x := by
  induction batch generalizing disk with
  | nil => exact .inl rfl
  | cons e batch ih =>
    rcases ih (disk.insert e.1 e.2) with same | ⟨e', member, rfl⟩
    · by_cases here : x = e.1
      · exact .inr ⟨e, List.mem_cons_self .., here.symm⟩
      · exact .inl (same.trans (Function.update_of_ne here _ _))
    · exact .inr ⟨e', List.mem_cons_of_mem _ member, rfl⟩

/-- Loading adds read-only keys to memory and absent persistent keys to the database. -/
theorem load_spec (s : Store) (writes : Bool) (file : Option Bytes) :
    (∀ x, (s.loadDeviceProperties writes file).ro x = s.ro x ∨
      getAttribute x = .ro ∧ trim x = x) ∧
    ∀ x, (s.loadDeviceProperties writes file).disk x = s.disk x ∨ s.Addable x := by
  cases file with
  | none => exact ⟨fun _ => .inl rfl, fun _ => .inl rfl⟩
  | some file =>
    obtain ⟨ro, batch⟩ := loadLines_spec s (getlines 10 file) (s.ro, [])
    refine ⟨ro, ?_⟩
    intro x
    simp only [Store.loadDeviceProperties]
    split_ifs
    · rcases inserts_spec ((getlines 10 file).foldl s.loadLine (s.ro, [])).2 s.disk x with
        same | ⟨e, member, rfl⟩
      · exact .inl same
      · exact .inr ((batch e member).resolve_left List.not_mem_nil)
    · exact .inl rfl

/-! ### Every run -/

/-- The database and the read-only map hold keys of their class only. -/
structure Kept (s : Store) : Prop where
  disk : ∀ x, s.disk x ≠ none → getAttribute (trim x) = .persist
  ro : ∀ x, s.ro x ≠ none → getAttribute x = .ro

theorem Kept.new : Kept .new := ⟨fun _ stored => absurd rfl stored, fun _ stored => absurd rfl stored⟩

theorem Kept.step {s : Store} (kept : Kept s) (a : Action) : Kept (s.step a) := by
  cases a with
  | set writes key value =>
    have frame := set_untouched s writes key value
    refine ⟨?_, fun x stored => kept.ro x (frame.ro ▸ stored)⟩
    intro x stored
    by_cases other : x ≠ trim key ∨ getAttribute (trim key) ≠ .persist
    · exact kept.disk x (frame.disk x other ▸ stored)
    · simp only [not_or, not_not] at other
      rw [other.1, trim_idem, other.2]
  | init opens writes file =>
    obtain ⟨ro, disk⟩ := load_spec { s with persistDb := s.persistDb || opens } writes file
    constructor
    · intro x stored
      rcases disk x with same | addable
      · exact kept.disk x fun absent => stored (same.trans absent)
      · exact addable.1
    · intro x stored
      rcases ro x with same | added
      · exact kept.ro x fun absent => stored (same.trans absent)
      · exact added.1
  | deinit => exact ⟨kept.disk, kept.ro⟩
  | relaunch => exact ⟨kept.disk, Kept.new.ro⟩

theorem kept_of_run {s : Store} {ls : List Action} (run : Run StoreStep .new ls s) : Kept s := by
  refine run.preserves ?_ Kept.new
  rintro s a t kept rfl
  exact kept.step a

/-- The action sets the key. -/
def Action.Sets (k : Bytes) : Action → Prop
  | .set _ key _ => trim key = k
  | _ => False

theorem get_persist_iff {s : Store} {key v : Bytes} (attr : getAttribute (trim key) = .persist) :
    s.get key = some v ↔ s.persistDb = true ∧ s.disk (trim key) = some v := by
  have some' : trim key ≠ [] := by
    intro empty
    rw [empty] at attr
    exact absurd attr (by decide)
  cases up : s.persistDb <;> simp [Store.get, Store.dbGet, attr, some', up]

/-- Nothing but a `set` of the key changes what the database holds for it. -/
theorem disk_step {s : Store} {a : Action} {k v : Bytes} (trimmed : trim k = k)
    (untouched : ¬a.Sets k) (stored : s.disk k = some v) : (s.step a).disk k = some v := by
  cases a with
  | set writes key value =>
    exact ((set_untouched s writes key value).disk k (.inl (Ne.symm untouched))).trans stored
  | init opens writes file =>
    rcases (load_spec { s with persistDb := s.persistDb || opens } writes file).2 k with same | addable
    · exact same.trans stored
    · exact absurd (addable.2.symm.trans ((congrArg s.disk trimmed).trans stored)) (by simp)
  | deinit => exact stored
  | relaunch => exact stored

theorem disk_of_run {s t : Store} {ls : List Action} {k v : Bytes} (trimmed : trim k = k)
    (run : Run StoreStep s ls t) (untouched : ∀ a ∈ ls, ¬a.Sets k) (stored : s.disk k = some v) :
    t.disk k = some v := by
  have kept : ∀ {s : Store} {a : Action} {t : Store}, ¬a.Sets k → s.disk k = some v →
      StoreStep s a t → t.disk k = some v := by
    rintro s a t other stored rfl
    exact disk_step trimmed other stored
  exact @Run.preserves_of_labels _ _ _ (fun s => s.disk k = some v) _ kept _ _ _ run untouched stored

/-- The promises of the class of a key, in every state of every run from the first start. -/
structure KeepsClass (k : Bytes) : Prop where
  /-- A key with the read-only prefix is never changed by a `set`. -/
  readonly : roPrefix <+: k → ∀ ls s, Run StoreStep .new ls s → ∀ writes key value, trim key = k →
    (s.set writes key value).ret = false ∧ (s.set writes key value).store.get key = s.get key ∧
      (s.set writes key value).store.list = s.list
  /-- What was stored under a persistent key is there until the key is set again. -/
  durable : persistPrefix <+: k → ∀ ls s, Run StoreStep .new ls s → ∀ writes key value, trim key = k →
    trim value ≠ [] → (s.set writes key value).ret = true → ∀ ls' t,
      Run StoreStep (s.set writes key value).store ls' t → (∀ a ∈ ls', ¬a.Sets k) → t.persistDb = true →
        t.get key = some (trim value)
  /-- Any other key is only in the temporary map. -/
  temporary : ¬roPrefix <+: k → ¬persistPrefix <+: k → ∀ ls s, Run StoreStep .new ls s →
    s.ro k = none ∧ s.disk k = none ∧ ∀ key, trim key = k → s.get key = s.temp k

theorem keepsClass_of_regular {k : Bytes} (trimmed : trim k = k) (ro : ¬Repeats roPrefix k)
    (persist : ¬Repeats persistPrefix k) : KeepsClass k where
  readonly starts ls s run writes key value same := by
    have attr := getAttribute_ro_iff.mpr ⟨starts, fun again => ro ⟨starts, again⟩⟩
    obtain ⟨ret, store⟩ := set_readonly (same.symm ▸ attr) writes value
    exact ⟨ret, by rw [store], by rw [store]⟩
  durable starts ls s run writes key value same nonempty success ls' t run' untouched up := by
    subst same
    have attr := getAttribute_persist_iff.mpr ⟨starts, fun again => persist ⟨starts, again⟩⟩
    have stored := ((get_persist_iff attr).mp (get_set nonempty success)).2
    exact (get_persist_iff attr).mpr ⟨up, disk_of_run trimmed run' untouched stored⟩
  temporary noRo noPersist ls s run := by
    have attr := getAttribute_temp (fun starts => absurd starts noRo)
      (fun starts => absurd starts noPersist)
    have kept := kept_of_run run
    refine ⟨?_, ?_, ?_⟩
    · by_contra stored
      exact absurd ((kept.ro k stored).symm.trans attr) (by decide)
    · by_contra stored
      have class' := kept.disk k stored
      rw [trimmed, attr] at class'
      cases class'
    · rintro key rfl
      rw [Store.get, attr]
      rfl

/-- The promises hold for exactly the keys in which their prefix does not occur again. -/
theorem keepsClass_iff (key : Bytes) :
    KeepsClass (trim key) ↔ ¬Repeats roPrefix (trim key) ∧ ¬Repeats persistPrefix (trim key) := by
  constructor
  · intro keeps
    constructor
    · intro repeats
      have attr := getAttribute_temp (fun _ => repeats.2)
        fun starts => absurd repeats.1 (not_ro_of_persist starts)
      have accepted := set_temp_ret .new true [49] attr fun empty => by
        rw [empty] at repeats
        exact absurd repeats.1 (by decide)
      have refused := (keeps.readonly repeats.1 [] .new (.nil _) true key [49] rfl).1
      exact absurd (accepted.symm.trans refused) (by decide)
    · intro repeats
      have attr := getAttribute_temp (fun starts => absurd starts (not_ro_of_persist repeats.1))
        fun _ => repeats.2
      have accepted := set_temp_ret .new true [49] attr fun empty => by
        rw [empty] at repeats
        exact absurd repeats.1 (by decide)
      have restart : Run StoreStep (Store.new.set true key [49]).store [.relaunch, .init true true none]
          ((Store.new.set true key [49]).store.relaunch.init true true none) :=
        .cons rfl (.cons rfl (.nil _))
      have there := keeps.durable repeats.1 [] .new (.nil _) true key [49] rfl (by decide) accepted _ _
        restart (by simp [Action.Sets]) rfl
      rw [Store.get, attr] at there
      cases there
  · rintro ⟨ro, persist⟩
    exact keepsClass_of_regular (trim_idem key) ro persist

/-- `ro.x.ro.y` can be set, and `persist.x.persist.y` does not survive a restart. -/
theorem not_keepsClass_repeated :
    ¬KeepsClass (roPrefix ++ [120, 46] ++ roPrefix ++ [121]) ∧
    ¬KeepsClass (persistPrefix ++ [120, 46] ++ persistPrefix ++ [121]) := by
  constructor
  · intro keeps
    have refused := (keeps.readonly (by decide) [] .new (.nil _) true
      (roPrefix ++ [120, 46] ++ roPrefix ++ [121]) [49] (by decide)).1
    exact absurd refused (by decide)
  · intro keeps
    have there := keeps.durable (by decide) [] .new (.nil _) true
      (persistPrefix ++ [120, 46] ++ persistPrefix ++ [121]) [49] (by decide) (by decide) (by decide)
      [.relaunch, .init true true none] _ (.cons rfl (.cons rfl (.nil _))) (by simp [Action.Sets]) rfl
    exact absurd there (by decide)

end AmlCommonlib.PropertyServer
