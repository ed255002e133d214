import AmlCommonlib.Utils.KeyEvents
import Mathlib.Data.List.Count

/-! # Queued keys and their records

A key up marks a record of `mKeyEventVec` as released, and may put the key into `key_queue`. Where no
key has a long press mode, a timer thread changes neither, and `WaitKey` takes one of each.
-/

namespace AmlCommonlib.Utils

/-- The key that `ProcessKey` is to put into the queue. -/
def InputPc.pendingKey : InputPc → Option ℤ
  | unlocked keyCode true _ | enqueuing keyCode _ => some keyCode
  | unlocked _ false _ | idle => none

/-- A thread that never repeats its key, with its record. -/
structure Press.Quiet (p : Press) : Prop where
  curlongPress : p.ke.curlongPress = false
  timer : p.timer ≠ .setCurlongPress ∧ p.timer ≠ .repeating ∧ p.timer ≠ .enqueuing

theorem Press.Quiet.up {p : Press} (quiet : p.Quiet) (value now : ℤ) :
    Press.Quiet { p with ke := p.ke.up value now } := by
  refine ⟨?_, quiet.timer⟩
  simp only [KeyEvent.up]
  split_ifs
  · rfl
  · exact quiet.curlongPress

namespace KeySystem

variable {keysMap : List KeyMapItem} {s t : KeySystem}

/-! ### What is to hold -/

/-- The event is of this key, and was released. -/
def released (s : KeySystem) (keyCode : ℤ) (k : ℕ) : Bool :=
  match s.presses[k]? with
  | some p => p.ke.keyCode = keyCode ∧ p.ke.keyState = 0
  | none => false

/-- How many released records of a key there are. -/
def records (s : KeySystem) (keyCode : ℤ) : ℕ := s.mKeyEventVec.countP (s.released keyCode)

/-- How often a key is in the queue, or about to be. -/
def keys (s : KeySystem) (keyCode : ℤ) : ℕ :=
  s.keyQueue.count keyCode + s.input.pendingKey.toList.count keyCode

/-- The input thread is between two keys. -/
def Settled (s : KeySystem) : Prop := s.input = .idle

/-- The key that a key up marks is the last one pressed, and it gets into the queue. -/
def registers (s : KeySystem) : Action → Bool
  | .processKey keyCode value _ =>
    value = 1 ∨ value = 2 ∨ s.keyLastDown = keyCode ∨ s.mKeyEventVec.all fun k => !s.isDown keyCode k
  | .enqueueKey now =>
    match s.input with
    | .enqueuing _ flag => s.keyQueue.length < 256 ∧ (checkEventTime s.lastQueueTime now ∨ flag)
    | _ => true
  | _ => true

/-- What the kernel reports: a code, and that the key goes down, is held or goes up. -/
def Action.isInput : Action → Bool
  | processKey keyCode value _ => 0 ≤ keyCode ∧ (value = 0 ∨ value = 1 ∨ value = 2)
  | _ => true

/-! ### Records -/

/-- The records are those of before, and what counts of them. -/
theorem records_congr (vec : t.mKeyEventVec = s.mKeyEventVec) {keyCode : ℤ}
    (same : ∀ k ∈ s.mKeyEventVec, t.released keyCode k = s.released keyCode k) :
    t.records keyCode = s.records keyCode := by
  rw [records, records, vec]
  exact List.countP_congr fun k member => by rw [same k member]

theorem released_congr (presses : t.presses = s.presses) (keyCode : ℤ) (k : ℕ) :
    t.released keyCode k = s.released keyCode k := by
  rw [released, released, presses]

theorem records_of_presses (vec : t.mKeyEventVec = s.mKeyEventVec) (presses : t.presses = s.presses)
    (keyCode : ℤ) : t.records keyCode = s.records keyCode :=
  records_congr vec fun k _ => released_congr presses keyCode k

/-- One of the records counts differently. -/
theorem countP_of_marked {l : List ℕ} (nodup : l.Nodup) {k : ℕ} (member : k ∈ l) {p q : ℕ → Bool}
    (before : p k = false) (others : ∀ i ∈ l, i ≠ k → q i = p i) :
    l.countP q = l.countP p + if q k then 1 else 0 := by
  have perm := List.perm_cons_erase member
  have fresh : k ∉ l.erase k := fun again => absurd again (nodup.not_mem_erase)
  rw [perm.countP_eq, perm.countP_eq p, List.countP_cons, List.countP_cons, before]
  have rest : (l.erase k).countP q = (l.erase k).countP p :=
    List.countP_congr fun i inside => by
      rw [others i (List.mem_of_mem_erase inside) fun same => fresh (same ▸ inside)]
  simp [rest]

theorem records_pos {keyCode : ℤ} : 0 < s.records keyCode ↔
    ∃ k ∈ s.mKeyEventVec, s.released keyCode k := List.countP_pos_iff

/-! ### Steps that change neither -/

/-- The records and the keys are those of before, and no thread repeats a key that did not. -/
structure Keeps (s t : KeySystem) : Prop where
  mKeyEventVec : t.mKeyEventVec = s.mKeyEventVec
  keyQueue : t.keyQueue = s.keyQueue
  input : t.input = s.input
  lastKey : t.lastKey = s.lastKey
  keyLastDown : t.keyLastDown = s.keyLastDown
  same : ∀ keyCode k, t.isDown keyCode k = s.isDown keyCode k ∧ t.released keyCode k = s.released keyCode k
  quiet : (∀ p ∈ s.presses, p.Quiet) → ∀ p ∈ t.presses, p.Quiet

/-- A press that is still of its key, and as far down. -/
theorem isDown_set {k : ℕ} {p p' : Press} (here : s.presses[k]? = some p)
    (presses : t.presses = s.presses.set k p') (code : p'.ke.keyCode = p.ke.keyCode)
    (state : p'.ke.keyState = p.ke.keyState) (c : ℤ) (i : ℕ) :
    t.isDown c i = s.isDown c i ∧ t.released c i = s.released c i := by
  rw [isDown, isDown, released, released, presses]
  by_cases same : i = k
  · subst same
    rw [List.getElem?_set_self (List.getElem?_eq_some_iff.mp here).1, here]
    simp [code, state]
  · rw [List.getElem?_set_ne (Ne.symm same)]
    exact ⟨rfl, rfl⟩

/-- A step of a thread that does not repeat its key. -/
theorem Keeps.setPress {k : ℕ} {p p' : Press} (here : s.presses[k]? = some p) (l : Option ℕ)
    (code : p'.ke.keyCode = p.ke.keyCode) (state : p'.ke.keyState = p.ke.keyState)
    (quiet : p'.Quiet) : Keeps s { s.setPress k p' with locked := l } where
  mKeyEventVec := rfl
  keyQueue := rfl
  input := rfl
  lastKey := rfl
  keyLastDown := rfl
  same := isDown_set here rfl code state
  quiet before q member := by
    obtain old | rfl := List.mem_or_eq_of_mem_set member
    · exact before q old
    · exact quiet

theorem timeKey_keeps (short : ∀ key, getKeyMode keysMap key = 0) {k : ℕ} {p : Press}
    (here : s.presses[k]? = some p) (quiet : p.Quiet) {now : Timeval}
    (taken : s.timeKey keysMap k p now = some t) : Keeps s t := by
  rw [timeKey] at taken
  split at taken
  case h_1 =>
    obtain ⟨-, taken⟩ := Option.ite_none_right_eq_some.mp taken
    cases taken
    refine .setPress here _ rfl rfl ⟨quiet.curlongPress, ?_⟩
    split_ifs <;> simp
  case h_2 =>
    cases taken
    refine .setPress here s.locked rfl rfl ⟨quiet.curlongPress, ?_⟩
    simp [short]
  case h_3 pc => exact absurd pc quiet.timer.1
  case h_4 =>
    split_ifs at taken
    · cases taken
      exact .setPress here s.locked rfl rfl ⟨quiet.curlongPress, by simp⟩
    · cases taken
      exact .setPress here _ rfl rfl ⟨quiet.curlongPress, by simp⟩
  case h_5 =>
    cases taken
    refine .setPress here _ rfl rfl ⟨quiet.curlongPress, ?_⟩
    rw [quiet.curlongPress]
    simp
  case h_6 pc => exact absurd pc quiet.timer.2.1
  case h_7 pc => exact absurd pc quiet.timer.2.2
  case h_8 => cases taken

theorem system_keeps (taken : s.step keysMap .system = some t) : Keeps s t := by
  obtain ⟨key, keyEvent, cur, commands, -, rfl⟩ := system_cases taken
  exact ⟨rfl, rfl, rfl, rfl, rfl, fun _ _ => ⟨rfl, rfl⟩, id⟩

theorem release_keeps (taken : s.step keysMap .release = some t) : Keeps s t := by
  simp only [step] at taken
  split at taken
  · rename_i k releasing
    cases taken
    refine ⟨rfl, rfl, rfl, rfl, rfl, fun c i => ?_, fun quiet q member => ?_⟩
    · simp only [isDown, released, List.getElem?_modify]
      cases s.presses[i]? with
      | none => exact ⟨rfl, rfl⟩
      | some p => by_cases same : k = i <;> simp [same]
    · obtain ⟨i, here⟩ := List.mem_iff_getElem?.mp member
      simp only [List.getElem?_modify, Option.map_eq_map, Option.map_eq_some_iff] at here
      obtain ⟨p, before, rfl⟩ := here
      have old := quiet p (List.mem_of_getElem? before)
      split_ifs <;> exact ⟨old.curlongPress, old.timer⟩
  · cases taken
    exact ⟨rfl, rfl, rfl, rfl, rfl, fun _ _ => ⟨rfl, rfl⟩, id⟩
  · cases taken

/-! ### The steps -/

/-- The state of every run over such a key map. -/
structure Counts (s : KeySystem) : Prop where
  inv : s.Inv
  quiet : ∀ p ∈ s.presses, p.Quiet
  down : s.keyLastDown = -1 ∨ ∃ k ∈ s.mKeyEventVec, s.isDown s.keyLastDown k
  lastKey : ∀ keyCode flag, s.input = .enqueuing keyCode flag → s.lastKey = keyCode
  covered : ∀ keyCode, s.keys keyCode ≤ s.records keyCode

/-- A step that adds as many records as keys, and one of `d` more. -/
def Shifts (s t : KeySystem) (d : Option ℤ) : Prop :=
  ∀ keyCode, t.records keyCode + s.keys keyCode =
    s.records keyCode + t.keys keyCode + d.toList.count keyCode

theorem Inv.mem_presses (inv : s.Inv) {k : ℕ} (member : k ∈ s.mKeyEventVec) :
    ∃ p : Press, s.presses[k]? = some p := by
  obtain ⟨p, here, -⟩ := inv.live k (List.mem_append_left _ member)
  exact ⟨p, here⟩

theorem Inv.nodup_vec (inv : s.Inv) : s.mKeyEventVec.Nodup :=
  (List.nodup_append.mp inv.nodup).1

theorem Shifts.of_same (records : ∀ c, t.records c = s.records c) (queue : t.keyQueue = s.keyQueue)
    (pending : t.input.pendingKey = s.input.pendingKey) : Shifts s t none := by
  intro c
  rw [records, keys, keys, queue, pending]
  rfl

theorem Keeps.shifts (keeps : Keeps s t) : Shifts s t none :=
  .of_same (fun c => records_congr keeps.mKeyEventVec fun k _ => (keeps.same c k).2) keeps.keyQueue
    (by rw [keeps.input])

/-- A new press, which is down. -/
theorem keyDown_shifts (inv : s.Inv) (idle : s.input = .idle) (keyCode now : ℤ) :
    Shifts s { s.keyDown keyCode 1 now with input := .unlocked keyCode false false } none := by
  intro c
  have old : ∀ k ∈ s.mKeyEventVec, ({ s.keyDown keyCode 1 now with
      input := .unlocked keyCode false false } : KeySystem).released c k = s.released c k := by
    intro k member
    obtain ⟨p, here⟩ := inv.mem_presses member
    have lt := (List.getElem?_eq_some_iff.mp here).1
    simp only [released, keyDown, List.getElem?_append_left lt]
  have new : ({ s.keyDown keyCode 1 now with
      input := .unlocked keyCode false false } : KeySystem).released c s.presses.length = false := by
    simp [released, keyDown]
  have records : ({ s.keyDown keyCode 1 now with
      input := .unlocked keyCode false false } : KeySystem).records c = s.records c := by
    change (s.mKeyEventVec ++ [s.presses.length]).countP _ = _
    rw [List.countP_append, List.countP_singleton, new, KeySystem.records]
    simpa using List.countP_congr fun k member => by rw [old k member]
  rw [records]
  simp [keys, keyDown, idle, InputPc.pendingKey]

/-- A key up marks a record, or finds none, and then the key is not the last one pressed. -/
theorem keyUp_shifts (counts : s.Counts) (idle : s.input = .idle) {keyCode : ℤ} (code : 0 ≤ keyCode)
    (now : ℤ) :
    ∃ d, (d = none ↔ s.registers (.processKey keyCode 0 now)) ∧ Shifts s (s.keyUp keyCode 0 now) d := by
  have pending : (s.keyUp keyCode 0 now).input.pendingKey =
      if s.keyLastDown = keyCode then some keyCode else none := by
    by_cases last : s.keyLastDown = keyCode <;> simp [keyUp, last, InputPc.pendingKey]
  cases down : s.mKeyEventVec.find? (s.isDown keyCode) with
  | none =>
    have none' := List.find?_eq_none.mp down
    have other : s.keyLastDown ≠ keyCode := by
      rintro rfl
      obtain nothing | ⟨k, member, isDown⟩ := counts.down
      · omega
      · exact none' k member isDown
    refine ⟨none, ?_, fun c => ?_⟩
    · simpa [registers, other] using none'
    · have presses : (s.keyUp keyCode 0 now).presses = s.presses := by simp [keyUp, down]
      have vec : (s.keyUp keyCode 0 now).mKeyEventVec = s.mKeyEventVec := rfl
      have same : (s.keyUp keyCode 0 now).records c = s.records c :=
        records_of_presses vec presses c
      rw [same]
      have queue : (s.keyUp keyCode 0 now).keyQueue = s.keyQueue := rfl
      rw [keys, keys, pending, queue, idle]
      simp [other, InputPc.pendingKey]
  | some k =>
    have member := List.mem_of_find?_eq_some down
    have isDown := List.find?_some down
    obtain ⟨p, here⟩ := counts.inv.mem_presses member
    have presses : (s.keyUp keyCode 0 now).presses =
        s.presses.modify k fun p => { p with ke := p.ke.up 0 now } := by simp [keyUp, down]
    obtain ⟨code', state⟩ : p.ke.keyCode = keyCode ∧ p.ke.keyState = 1 := by
      simpa [KeySystem.isDown, here] using isDown
    have vec : (s.keyUp keyCode 0 now).mKeyEventVec = s.mKeyEventVec := rfl
    have queue : (s.keyUp keyCode 0 now).keyQueue = s.keyQueue := rfl
    have marked (c : ℤ) : (s.keyUp keyCode 0 now).records c =
        s.records c + if keyCode = c then 1 else 0 := by
      have here' : (s.keyUp keyCode 0 now).released c k = decide (keyCode = c) := by
        rw [released, presses, List.getElem?_modify_eq, here]
        simp only [Option.map_eq_map, Option.map_some, KeyEvent.up]
        split_ifs <;> simp [code']
      have count := countP_of_marked counts.inv.nodup_vec member
        (p := s.released c) (q := (s.keyUp keyCode 0 now).released c) (by simp [released, here, state])
        fun i _ other => by rw [released, released, presses, List.getElem?_modify_ne _ _ (Ne.symm other)]
      rw [here'] at count
      rw [records, records, vec]
      simpa using count
    refine ⟨if s.keyLastDown = keyCode then none else some keyCode, ?_, fun c => ?_⟩
    · by_cases last : s.keyLastDown = keyCode
      · simp [registers, last]
      · simpa [registers, last] using ⟨k, member, isDown⟩
    · rw [marked, keys, keys, pending, queue, idle]
      by_cases last : s.keyLastDown = keyCode
      · simp [last, InputPc.pendingKey, List.count_singleton]
        omega
      · simp [last, InputPc.pendingKey, List.count_singleton]
        omega

/-- The key gets in, or is dropped. -/
theorem enqueueKey_shifts (counts : s.Counts) {keyCode : ℤ} {flag : Bool}
    (enqueuing : s.input = .enqueuing keyCode flag) (now : Timeval) :
    ∃ d, (d = none ↔ s.registers (.enqueueKey now)) ∧
      Shifts s { s.enqueue keyCode flag now with input := .idle } d := by
  have last := counts.lastKey keyCode flag enqueuing
  have vec : (s.enqueue keyCode flag now).mKeyEventVec = s.mKeyEventVec := by
    rw [enqueue]
    split_ifs <;> rfl
  have records (c : ℤ) : KeySystem.records { s.enqueue keyCode flag now with input := .idle } c =
      s.records c := records_of_presses vec (enqueue_presses ..) c
  have pending (c : ℤ) : s.keys c = s.keyQueue.count c + [keyCode].count c := by
    rw [keys, enqueuing]
    rfl
  by_cases accepted : s.keyQueue.length < 256 ∧ (checkEventTime s.lastQueueTime now ∨ flag)
  · refine ⟨none, by simpa [registers, enqueuing] using accepted, fun c => ?_⟩
    have queue : (s.enqueue keyCode flag now).keyQueue = s.keyQueue ++ [keyCode] := by
      rw [enqueue, if_pos ⟨accepted.1, .inr accepted.2⟩]
    rw [records, pending, keys, queue]
    simp [InputPc.pendingKey, List.count_append]
  · refine ⟨some keyCode, by simpa [registers, enqueuing] using accepted, fun c => ?_⟩
    have queue : (s.enqueue keyCode flag now).keyQueue = s.keyQueue := by
      rw [enqueue, if_neg]
      simpa [last] using accepted
    rw [records, pending, keys, queue]
    simp [InputPc.pendingKey]
    omega

/-- `WaitKey` finds a record for its key. -/
theorem isReady_of_counts (counts : s.Counts) {key : ℤ} {rest : List ℤ}
    (queue : s.keyQueue = key :: rest) :
    ∃ k p, s.mKeyEventVec.find? (s.isReady key) = some k ∧ k ∈ s.mKeyEventVec ∧
      s.presses[k]? = some p ∧ p.ke.curlongPress = false ∧ p.ke.keyCode = key ∧ p.ke.keyState = 0 := by
  have queued : 0 < s.keys key := by
    rw [keys, queue, List.count_cons_self]
    omega
  obtain ⟨i, member, isReleased⟩ :=
    records_pos.mp (Nat.lt_of_lt_of_le queued (counts.covered key))
  cases found : s.mKeyEventVec.find? (s.isReady key) with
  | none =>
    refine absurd ?_ (List.find?_eq_none.mp found i member)
    obtain ⟨p, here⟩ := counts.inv.mem_presses member
    simp only [released, here, isReady, decide_eq_true_eq] at isReleased ⊢
    exact ⟨isReleased.1, .inl isReleased.2⟩
  | some k =>
    have member' := List.mem_of_find?_eq_some found
    obtain ⟨p, here⟩ := counts.inv.mem_presses member'
    have quiet := (counts.quiet p (List.mem_of_getElem? here)).curlongPress
    have ready := List.find?_some found
    rw [isReady, here] at ready
    simp only [quiet, decide_eq_true_eq, Bool.false_eq_true, or_false] at ready
    exact ⟨k, p, rfl, member', here, quiet, ready⟩

theorem waitKey_cases (counts : s.Counts) (taken : s.step keysMap .waitKey = some t) :
    ∃ key rest k p waiter, s.keyQueue = key :: rest ∧ k ∈ s.mKeyEventVec ∧
      s.presses[k]? = some p ∧ p.ke.keyCode = key ∧ p.ke.keyState = 0 ∧
      t = { s with keyQueue := rest, mKeyEventVec := s.mKeyEventVec.erase k, waiter := waiter } := by
  simp only [step] at taken
  split at taken
  · rename_i key rest waiting free queue
    obtain ⟨k, p, found, member, here, quiet, code, state⟩ := isReady_of_counts counts queue
    simp only [found, here, Option.any_some, quiet, Bool.false_eq_true, if_false,
      Option.some.injEq] at taken
    exact ⟨key, rest, k, p, _, queue, member, here, code, state, taken.symm⟩
  · cases taken

/-- It takes the key and the record. -/
theorem waitKey_shifts {key : ℤ} {rest : List ℤ} (queue : s.keyQueue = key :: rest) {k : ℕ} {p : Press}
    (member : k ∈ s.mKeyEventVec) (here : s.presses[k]? = some p) (code : p.ke.keyCode = key)
    (state : p.ke.keyState = 0) (waiter : WaiterPc) :
    Shifts s { s with keyQueue := rest, mKeyEventVec := s.mKeyEventVec.erase k, waiter := waiter }
      none := by
  intro c
  have taken : s.released c k = decide (key = c) := by simp [released, here, code, state]
  have records := (List.perm_cons_erase member).countP_eq (s.released c)
  rw [List.countP_cons, taken] at records
  have after : KeySystem.records { s with
      keyQueue := rest, mKeyEventVec := s.mKeyEventVec.erase k, waiter := waiter } c =
      (s.mKeyEventVec.erase k).countP (s.released c) := rfl
  rw [after, keys, keys, queue, KeySystem.records, records, List.count_cons]
  simp
  omega

/-- A step adds as many records as keys exactly if it registers the key. -/
theorem step_shifts (short : ∀ key, getKeyMode keysMap key = 0) (counts : s.Counts) {a : Action}
    (input : a.isInput) (taken : s.step keysMap a = some t) :
    ∃ d, (d = none ↔ s.registers a) ∧ Shifts s t d := by
  cases a with
  | processKey keyCode value now =>
    simp only [step] at taken
    obtain ⟨⟨idle, -⟩, taken⟩ := Option.ite_none_right_eq_some.mp taken
    obtain ⟨code, known⟩ : 0 ≤ keyCode ∧ (value = 0 ∨ value = 1 ∨ value = 2) := by
      simpa [Action.isInput] using input
    obtain rfl | rfl | rfl := known
    · cases taken
      exact keyUp_shifts counts idle code now
    · cases taken
      exact ⟨none, by simp [registers], keyDown_shifts counts.inv idle keyCode now⟩
    · cases taken
      exact ⟨none, by simp [registers], .of_same (fun _ => rfl) rfl (by rw [idle]; rfl)⟩
  | setLastKey =>
    obtain ⟨keyCode, registerKey, flag, unlocked, rfl⟩ := setLastKey_cases taken
    refine ⟨none, by simp [registers], .of_same (fun _ => rfl) rfl ?_⟩
    rw [unlocked]
    cases registerKey <;> rfl
  | enqueueKey now =>
    obtain ⟨keyCode, flag, enqueuing, rfl⟩ := enqueueKey_cases taken
    exact enqueueKey_shifts counts enqueuing now
  | timeKey k now =>
    obtain ⟨p, here, taken⟩ := Option.bind_eq_some_iff.mp taken
    have keeps := timeKey_keeps short here (counts.quiet p (List.mem_of_getElem? here)) taken
    exact ⟨none, by simp [registers], keeps.shifts⟩
  | waitKey =>
    obtain ⟨key, rest, k, p, waiter, queue, member, here, code, state, rfl⟩ :=
      waitKey_cases counts taken
    exact ⟨none, by simp [registers], waitKey_shifts queue member here code state waiter⟩
  | system => exact ⟨none, by simp [registers], (system_keeps taken).shifts⟩
  | release => exact ⟨none, by simp [registers], (release_keeps taken).shifts⟩

theorem keyUp_quiet (quiet : ∀ p ∈ s.presses, p.Quiet) (keyCode value now : ℤ) :
    ∀ p ∈ (s.keyUp keyCode value now).presses, p.Quiet := by
  simp only [keyUp]
  split
  · intro q member
    obtain ⟨i, here⟩ := List.mem_iff_getElem?.mp member
    simp only [List.getElem?_modify, Option.map_eq_map, Option.map_eq_some_iff] at here
    obtain ⟨p, before, rfl⟩ := here
    have old := quiet p (List.mem_of_getElem? before)
    split_ifs
    · exact old.up value now
    · exact old
  · exact quiet

/-- The parts of the invariant that say nothing of numbers. -/
theorem Keeps.parts (keeps : Keeps s t) (counts : s.Counts) :
    (∀ p ∈ t.presses, p.Quiet) ∧
      (t.keyLastDown = -1 ∨ ∃ k ∈ t.mKeyEventVec, t.isDown t.keyLastDown k) ∧
      ∀ keyCode flag, t.input = .enqueuing keyCode flag → t.lastKey = keyCode := by
  rw [keeps.keyLastDown, keeps.mKeyEventVec, keeps.input, keeps.lastKey]
  refine ⟨keeps.quiet counts.quiet, ?_, counts.lastKey⟩
  simpa only [fun k => (keeps.same s.keyLastDown k).1] using counts.down

theorem parts_of_step (short : ∀ key, getKeyMode keysMap key = 0) (counts : s.Counts) {a : Action}
    (input : a.isInput) (taken : s.step keysMap a = some t) :
    (∀ p ∈ t.presses, p.Quiet) ∧
      (t.keyLastDown = -1 ∨ ∃ k ∈ t.mKeyEventVec, t.isDown t.keyLastDown k) ∧
      ∀ keyCode flag, t.input = .enqueuing keyCode flag → t.lastKey = keyCode := by
  cases a with
  | processKey keyCode value now =>
    simp only [step] at taken
    obtain ⟨-, taken⟩ := Option.ite_none_right_eq_some.mp taken
    obtain ⟨-, known⟩ : 0 ≤ keyCode ∧ (value = 0 ∨ value = 1 ∨ value = 2) := by
      simpa [Action.isInput] using input
    obtain rfl | rfl | rfl := known
    · cases taken
      exact ⟨keyUp_quiet counts.quiet keyCode 0 now, .inl rfl, by simp [keyUp]⟩
    · cases taken
      refine ⟨fun p member => ?_, .inr ⟨s.presses.length, ?_, ?_⟩, by simp⟩
      · obtain old | rfl := by simpa [keyDown] using member
        · exact counts.quiet p old
        · exact ⟨rfl, by simp⟩
      · simp [keyDown]
      · simp [keyDown, isDown]
    · cases taken
      exact ⟨counts.quiet, counts.down, by simp⟩
  | setLastKey =>
    obtain ⟨keyCode, registerKey, flag, -, rfl⟩ := setLastKey_cases taken
    refine ⟨counts.quiet, counts.down, fun c f enqueuing => ?_⟩
    dsimp only at enqueuing
    split_ifs at enqueuing
    exact (InputPc.enqueuing.inj enqueuing).1
  | enqueueKey now =>
    obtain ⟨keyCode, flag, -, rfl⟩ := enqueueKey_cases taken
    refine ⟨?_, ?_, by simp⟩
    · simpa [enqueue_presses] using counts.quiet
    · rw [enqueue]
      split_ifs <;> exact counts.down
  | timeKey k now =>
    obtain ⟨p, here, taken⟩ := Option.bind_eq_some_iff.mp taken
    exact (timeKey_keeps short here (counts.quiet p (List.mem_of_getElem? here)) taken).parts counts
  | waitKey =>
    obtain ⟨key, rest, k, p, waiter, -, -, here, -, state, rfl⟩ := waitKey_cases counts taken
    refine ⟨counts.quiet, ?_, counts.lastKey⟩
    obtain nothing | ⟨i, member, isDown⟩ := counts.down
    · exact .inl nothing
    · have other : i ≠ k := by
        rintro rfl
        simp [KeySystem.isDown, here, state] at isDown
      exact .inr ⟨i, (List.mem_erase_of_ne other).mpr member, isDown⟩
  | system => exact (system_keeps taken).parts counts
  | release => exact (release_keeps taken).parts counts

theorem Counts.step (short : ∀ key, getKeyMode keysMap key = 0) (counts : s.Counts) {a : Action}
    (input : a.isInput) (taken : s.step keysMap a = some t) : t.Counts where
  inv := counts.inv.step taken
  quiet := (parts_of_step short counts input taken).1
  down := (parts_of_step short counts input taken).2.1
  lastKey := (parts_of_step short counts input taken).2.2
  covered c := by
    obtain ⟨d, -, shifts⟩ := step_shifts short counts input taken
    have := shifts c
    have := counts.covered c
    omega

theorem Step.det (s : KeySystem) (a : Action) (t t' : KeySystem) (taken : Step keysMap s a t)
    (taken' : Step keysMap s a t') : t = t' :=
  Option.some.inj (taken.symm.trans taken')

end KeySystem

end AmlCommonlib.Utils
