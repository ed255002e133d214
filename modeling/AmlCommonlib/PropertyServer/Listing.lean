import AmlCommonlib.PropertyServer.Classes

/-! # Listing the properties

`list` reads the keys of the three stores as they are, `get` trims its argument and picks the store
by the class of the key. They agree as long as every store holds trimmed keys of its own class. The
loader of the properties file puts the key of a persistent property into the batch as the file has
it, with its blanks.
-/

namespace AmlCommonlib.PropertyServer

/-- Every store holds keys of its own class; in memory they are trimmed. -/
structure Placed (s : Store) : Prop extends Kept s where
  temp : ∀ x, s.temp x ≠ none → getAttribute x = .temp ∧ trim x = x
  roTrimmed : ∀ x, s.ro x ≠ none → trim x = x

theorem Placed.new : Placed .new :=
  ⟨.new, fun _ stored => absurd rfl stored, fun _ stored => absurd rfl stored⟩

theorem dbSet_temp {s : Store} {writes : Bool} {key value x : Bytes} (trimmed : trim key = key)
    (stored : (s.dbSet writes (getAttribute key) key value).2.temp x ≠ none) :
    s.temp x ≠ none ∨ getAttribute x = .temp ∧ trim x = x := by
  cases attr : getAttribute key with
  | temp =>
    rw [attr] at stored
    by_cases same : x = key
    · exact .inr (same ▸ ⟨attr, trimmed⟩)
    · have kept : (s.dbSet writes .temp key value).2.temp x = s.temp x :=
        Function.update_of_ne same _ _
      exact .inl (kept ▸ stored)
  | ro =>
    rw [attr] at stored
    exact .inl stored
  | persist =>
    rw [attr, Store.dbSet] at stored
    split_ifs at stored
    · exact .inl stored
    · exact .inl stored

theorem dbDel_temp {s : Store} {writes : Bool} {key x : Bytes}
    (stored : (s.dbDel writes (getAttribute key) key).2.temp x ≠ none) : s.temp x ≠ none := by
  cases attr : getAttribute key with
  | temp =>
    rw [attr] at stored
    by_cases same : x = key
    · subst same
      exact absurd (Function.update_self ..) stored
    · have kept : (s.dbDel writes .temp key).2.temp x = s.temp x := Function.update_of_ne same _ _
      exact kept ▸ stored
  | ro =>
    rw [attr] at stored
    exact stored
  | persist =>
    rw [attr, Store.dbDel] at stored
    split_ifs at stored
    · exact stored
    · exact stored

/-- The store a `set` leaves: the same, or that of one operation of the table of stores. -/
theorem set_store (s : Store) (writes : Bool) (key value : Bytes) :
    (s.set writes key value).store = s ∨
    (s.set writes key value).store =
      (s.dbSet writes (getAttribute (trim key)) (trim key) (trim value)).2 ∨
    (s.set writes key value).store = (s.dbDel writes (getAttribute (trim key)) (trim key)).2 := by
  by_cases readonly : getAttribute (trim key) = .ro
  · exact .inl (set_readonly readonly writes value).2
  · by_cases empty : trim key = []
    · left
      simp only [Store.set, Store.internalSet, empty, if_true]
    · rw [Store.set]
      rcases internalSet_cases readonly empty with
        ⟨old, -, ⟨-, done⟩ | ⟨-, -, done⟩ | ⟨-, -, done⟩⟩ | ⟨-, ⟨-, done⟩ | ⟨-, done⟩⟩ <;> rw [done]
      · exact .inr (.inr (changed_store ..))
      · exact .inl rfl
      · exact .inr (.inl (changed_store ..))
      · exact .inl rfl
      · exact .inr (.inl (changed_store ..))

theorem Placed.step {s : Store} (placed : Placed s) (a : Action) : Placed (s.step a) := by
  have kept := placed.toKept.step a
  cases a with
  | set writes key value =>
    have frame := set_untouched s writes key value
    refine ⟨kept, ?_, fun x stored => placed.roTrimmed x (frame.ro ▸ stored)⟩
    intro x stored
    rcases set_store s writes key value with same | same | same
    · exact placed.temp x (same ▸ stored)
    · rw [Store.step, same] at stored
      rcases dbSet_temp (trim_idem key) stored with before | here
      · exact placed.temp x before
      · exact here
    · rw [Store.step, same] at stored
      exact placed.temp x (dbDel_temp stored)
  | init opens writes file =>
    have ro := (load_spec { s with persistDb := s.persistDb || opens } writes file).1
    refine ⟨kept, ?_, ?_⟩
    · intro x stored
      cases file with
      | none => exact placed.temp x stored
      | some file => exact placed.temp x stored
    · intro x stored
      rcases ro x with same | added
      · exact placed.roTrimmed x fun absent => stored (same.trans absent)
      · exact added.2
  | deinit => exact ⟨kept, placed.temp, placed.roTrimmed⟩
  | relaunch => exact ⟨kept, Placed.new.temp, Placed.new.roTrimmed⟩

theorem placed_of_run {s : Store} {ls : List Action} (run : Run StoreStep .new ls s) : Placed s := by
  refine run.preserves ?_ Placed.new
  rintro s a t placed rfl
  exact placed.step a

/-- At a trimmed key, the list shows what the store of the key holds. -/
theorem Placed.list_eq {s : Store} (placed : Placed s) {key : Bytes} (trimmed : trim key = key) :
    s.list key = s.dbGet (getAttribute key) key := by
  have temp : getAttribute key ≠ .temp → s.temp key = none := by
    intro other
    by_contra stored
    exact other (placed.temp key stored).1
  have disk : getAttribute key ≠ .persist → s.disk key = none := by
    intro other
    by_contra stored
    exact other (trimmed ▸ placed.disk key stored)
  have ro : getAttribute key ≠ .ro → s.ro key = none := by
    intro other
    by_contra stored
    exact other (placed.ro key stored)
  cases attr : getAttribute key with
  | temp => simp [Store.list, Store.dbGet, disk (by simp [attr]), ro (by simp [attr])]
  | persist =>
    have nonempty : key ≠ [] := by
      rintro rfl
      exact absurd attr (by decide)
    cases up : s.persistDb <;>
      simp [Store.list, Store.dbGet, temp (by simp [attr]), ro (by simp [attr]), nonempty, up]
  | ro => simp [Store.list, Store.dbGet, temp (by simp [attr]), disk (by simp [attr])]

/-! ### Keys as the file has them -/

/-- `get` and `list` show the same entries; a key is listed in its trimmed form. -/
def Agrees (s : Store) : Prop := ∀ k v, s.list k = some v ↔ trim k = k ∧ s.get k = some v

/-- The database holds trimmed keys. -/
def DiskTrimmed (s : Store) : Prop := ∀ x, s.disk x ≠ none → trim x = x

theorem Placed.agrees {s : Store} (placed : Placed s) (disk : DiskTrimmed s) : Agrees s := by
  intro k v
  have get : trim k = k → s.get k = s.list k := by
    intro trimmed
    rw [placed.list_eq trimmed, Store.get, trimmed]
  constructor
  · intro listed
    have trimmed : trim k = k := by
      by_contra untrimmed
      have temp : s.temp k = none := by
        by_contra stored
        exact untrimmed (placed.temp k stored).2
      have disk' : s.disk k = none := by
        by_contra stored
        exact untrimmed (disk k stored)
      have ro : s.ro k = none := by
        by_contra stored
        exact untrimmed (placed.roTrimmed k stored)
      simp [Store.list, temp, disk', ro] at listed
    exact ⟨trimmed, (get trimmed).trans listed⟩
  · rintro ⟨trimmed, found⟩
    exact (get trimmed).symm.trans found

/-- The line adds a key with blanks to the database. -/
def Store.Misplaces (s : Store) (line : Bytes) : Prop :=
  match getlines 61 line with
  | k :: _ :: _ => s.Addable k ∧ trim k ≠ k
  | _ => False

instance (s : Store) (line : Bytes) : Decidable (s.Misplaces line) := by
  unfold Store.Misplaces Store.Addable
  split <;> infer_instance

theorem misplaces_iff {s : Store} {line : Bytes} :
    s.Misplaces line ↔
      ∃ k v rest, getlines 61 line = k :: v :: rest ∧ s.Addable k ∧ trim k ≠ k := by
  rw [Store.Misplaces]
  split
  next k v rest parts => simp [parts]
  next other =>
    simp only [false_iff]
    rintro ⟨k, v, rest, parts, -⟩
    exact other k v rest parts

/-- The action loads such a line into the open database. -/
def Store.Misloads (s : Store) : Action → Prop
  | .init opens writes (some file) =>
    (s.persistDb || opens) = true ∧ writes = true ∧ ∃ line ∈ getlines 10 file, s.Misplaces line
  | _ => False

instance (s : Store) (a : Action) : Decidable (s.Misloads a) := by
  unfold Store.Misloads
  split <;> infer_instance

theorem loadLine_keeps (s : Store) (acc : Map × List (Bytes × Bytes)) (line : Bytes)
    {e : Bytes × Bytes} (member : e ∈ acc.2) : e ∈ (s.loadLine acc line).2 := by
  simp only [Store.loadLine]
  repeat' split
  · exact member
  · exact List.mem_append_left _ member
  · exact member
  · exact member
  · exact member

theorem loadLines_keeps (s : Store) (lines : List Bytes) (acc : Map × List (Bytes × Bytes))
    {e : Bytes × Bytes} (member : e ∈ acc.2) : e ∈ (lines.foldl s.loadLine acc).2 := by
  induction lines generalizing acc with
  | nil => exact member
  | cons line lines ih => exact ih _ (loadLine_keeps s acc line member)

/-- A misplaced key reaches the batch. -/
theorem loadLines_adds {s : Store} (up : s.persistDb = true) {lines : List Bytes} {line k v : Bytes}
    {rest : List Bytes} (member : line ∈ lines) (parts : getlines 61 line = k :: v :: rest)
    (addable : s.Addable k) (acc : Map × List (Bytes × Bytes)) :
    (k, v) ∈ (lines.foldl s.loadLine acc).2 := by
  obtain ⟨before, after, rfl⟩ := List.append_of_mem member
  rw [List.foldl_append, List.foldl_cons]
  apply loadLines_keeps
  simp [Store.loadLine, parts, addable.1, addable.2, up]

theorem inserts_mem {batch : List (Bytes × Bytes)} {e : Bytes × Bytes} (disk : Map)
    (here : e ∈ batch ∨ disk e.1 ≠ none) :
    batch.foldl (fun d e => d.insert e.1 e.2) disk e.1 ≠ none := by
  induction batch generalizing disk with
  | nil => exact here.resolve_left List.not_mem_nil
  | cons e' batch ih =>
    apply ih
    by_cases same : e.1 = e'.1
    · right
      simp [same, Map.insert]
    · rcases here with member | stored
      · rcases List.mem_cons.mp member with rfl | later
        · exact absurd rfl same
        · exact .inl later
      · right
        change Function.update disk e'.1 (some e'.2) e.1 ≠ none
        rwa [Function.update_of_ne same]

/-- After a bad load the list shows a key that is not trimmed. -/
theorem not_agrees_of_misloads {s : Store} {a : Action} (bad : s.Misloads a) : ¬Agrees (s.step a) := by
  cases a with
  | init opens writes file =>
    cases file with
    | none => cases bad
    | some file =>
      obtain ⟨up, rfl, line, member, misplaced⟩ := bad
      obtain ⟨k, v, rest, parts, addable, untrimmed⟩ := misplaces_iff.mp misplaced
      intro agrees
      have batch : (k, v) ∈ ((getlines 10 file).foldl
          ({ s with persistDb := s.persistDb || opens } : Store).loadLine (s.ro, [])).2 := by
        apply loadLines_adds up member parts
        exact addable
      have stored := inserts_mem s.disk (.inl batch)
      have listed : (s.step (.init opens true (some file))).list k ≠ none := by
        simp only [Store.list, Store.step, Store.init, Store.loadDeviceProperties, up]
        cases s.temp k with
        | some v => simp
        | none =>
          obtain ⟨v', found⟩ := Option.ne_none_iff_exists'.mp stored
          simp only [up] at found
          simp [found]
      obtain ⟨v', found⟩ := Option.ne_none_iff_exists'.mp listed
      exact untrimmed ((agrees k v').mp found).1
  | set | deinit | relaunch => cases bad

theorem loadLine_trimmed {s : Store} {acc : Map × List (Bytes × Bytes)} {line : Bytes}
    (good : ¬s.Misplaces line) {e : Bytes × Bytes} (member : e ∈ (s.loadLine acc line).2) :
    e ∈ acc.2 ∨ trim e.1 = e.1 := by
  simp only [Store.loadLine] at member
  split at member
  next k v rest parts =>
    split at member
    next => exact .inl member
    next attr =>
      split_ifs at member with absent
      · rcases List.mem_append.mp member with old | new
        · exact .inl old
        · right
          rw [List.mem_singleton.mp new]
          by_contra untrimmed
          simp only [Bool.and_eq_true, Option.isNone_iff_eq_none] at absent
          exact good (misplaces_iff.mpr ⟨k, v, rest, parts, ⟨attr, absent.2⟩, untrimmed⟩)
      · exact .inl member
    next => exact .inl member
  next => exact .inl member

theorem loadLines_trimmed {s : Store} {lines : List Bytes} {acc : Map × List (Bytes × Bytes)}
    (good : ∀ line ∈ lines, ¬s.Misplaces line) {e : Bytes × Bytes}
    (member : e ∈ (lines.foldl s.loadLine acc).2) : e ∈ acc.2 ∨ trim e.1 = e.1 := by
  induction lines generalizing acc with
  | nil => exact .inl member
  | cons line lines ih =>
    rcases ih (fun l later => good l (List.mem_cons_of_mem _ later)) member with here | trimmed
    · exact loadLine_trimmed (good line (List.mem_cons_self ..)) here
    · exact .inr trimmed

theorem DiskTrimmed.step {s : Store} {a : Action} (disk : DiskTrimmed s) (good : ¬s.Misloads a) :
    DiskTrimmed (s.step a) := by
  cases a with
  | set writes key value =>
    intro x stored
    by_cases same : x = trim key
    · rw [same, trim_idem]
    · exact disk x ((set_untouched s writes key value).disk x (.inl same) ▸ stored)
  | init opens writes file =>
    cases file with
    | none => exact disk
    | some file =>
      intro x stored
      simp only [Store.step, Store.init, Store.loadDeviceProperties, Bool.and_eq_true] at stored
      split_ifs at stored with open'
      · have lines : ∀ line ∈ getlines 10 file,
            ¬({ s with persistDb := s.persistDb || opens } : Store).Misplaces line := by
          intro line member bad
          exact good ⟨open'.1, open'.2, line, member, bad⟩
        rcases inserts_spec _ s.disk x with same | ⟨e, member, rfl⟩
        · exact disk x (same ▸ stored)
        · exact (loadLines_trimmed lines member).resolve_left List.not_mem_nil
      · exact disk x stored
  | deinit => exact disk
  | relaunch => exact disk

/-! ### Every run -/

theorem agrees_of_guarded {s : Store} {ls : List Action}
    (run : Run (Guarded (fun s a => ¬s.Misloads a) StoreStep) .new ls s) : Agrees s := by
  have placed := placed_of_run (run.mono fun step => step.2)
  have trimmed : DiskTrimmed s := by
    refine run.preserves ?_ fun _ stored => absurd rfl stored
    rintro s a t disk ⟨good, rfl⟩
    exact disk.step good
  exact placed.agrees trimmed

/-- `get` and `list` agree throughout a run exactly if no start loads a persistent key with blanks
into the open database. -/
theorem agrees_throughout_iff {s : Store} {ls : List Action} (run : Run StoreStep .new ls s) :
    Throughout StoreStep Agrees .new ls ↔
      Run (Guarded (fun s a => ¬s.Misloads a) StoreStep) .new ls s := by
  apply throughout_iff_guarded
  · rintro s a t t' rfl rfl
    rfl
  · exact agrees_of_guarded
  · rintro s a t rfl bad
    exact not_agrees_of_misloads (not_not.mp bad)
  · exact run

/-- The line ` persist.x=1` is listed under a key that `get` does not look up. -/
theorem not_agrees_blank_line : ¬∀ ls s, Run StoreStep .new ls s → Agrees s := by
  intro agrees
  have bad : Store.new.Misloads (.init true true (some ([32] ++ persistPrefix ++ [120, 61, 49]))) := by
    decide +kernel
  exact not_agrees_of_misloads bad (agrees [_] _ (.cons rfl (.nil _)))

/-- `get` and `list` agree after loading `persist.x=1` and setting `x`. -/
theorem agrees_throughout_iff_sample :
    Throughout StoreStep Agrees .new
      [.init true true (some (persistPrefix ++ [120, 61, 49])), .set true [120] [50]] := by
  apply (agrees_throughout_iff (.cons rfl (.cons rfl (.nil _)))).mpr
  exact .cons ⟨by decide +kernel, rfl⟩ (.cons ⟨by decide +kernel, rfl⟩ (.nil _))

end AmlCommonlib.PropertyServer
