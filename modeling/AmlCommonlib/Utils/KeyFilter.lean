import AmlCommonlib.Utils.KeyEvents

/-! # The filter of the key queue

`EnqueueKey` is to drop a key that comes again within 20 ms of itself. It compares with `last_key`,
which `ProcessKey` has set to the key itself by then, so a different key is dropped as well.
-/

namespace AmlCommonlib.Utils

/-- The microseconds that have passed. -/
def Timeval.until (before later : Timeval) : ℤ :=
  (later.sec - before.sec) * 1000000 + (later.usec - before.usec)

/-- A key that `checkEventTime` takes for a bounce is less than 20 ms late. -/
theorem until_lt_of_not_checkEventTime {before later : Timeval}
    (early : checkEventTime before later = false) : before.until later < 20000 := by
  have within : ¬((later.sec - before.sec) * 1000 < 0 ∨
      20 ≤ (later.sec - before.sec) * 1000 + (later.usec - before.usec).tdiv 1000) :=
    of_decide_eq_false early
  rw [Timeval.until]
  rcases Int.le_total 0 (later.usec - before.usec) with forward | backward
  · have floor := Int.tdiv_eq_ediv_of_nonneg forward (b := 1000)
    omega
  · have ceil := Int.tdiv_eq_ediv_of_nonneg (a := -(later.usec - before.usec)) (b := 1000) (by omega)
    rw [Int.neg_tdiv] at ceil
    omega

namespace KeySystem

variable {keysMap : List KeyMapItem} {s t : KeySystem}

/-! ### What is put into the queue -/

/-- `EnqueueKey` puts the key into the queue. -/
def accepts (s : KeySystem) (keyCode : ℤ) (flag : Bool) (now : Timeval) : Bool :=
  s.keyQueue.length < 256 ∧ (s.lastKey ≠ keyCode ∨ checkEventTime s.lastQueueTime now ∨ flag)

theorem enqueue_eq (keyCode : ℤ) (flag : Bool) (now : Timeval) :
    s.enqueue keyCode flag now =
      if s.accepts keyCode flag now then
        { s with keyQueue := s.keyQueue ++ [keyCode], lastQueueTime := now }
      else s := by
  simp only [enqueue, accepts, decide_eq_true_eq]

/-- The key that a step puts into the queue, with its time. -/
def puts (s : KeySystem) : Action → Option (ℤ × Timeval)
  | .enqueueKey now =>
    match s.input with
    | .enqueuing keyCode flag => if s.accepts keyCode flag now then some (keyCode, now) else none
    | _ => none
  | .timeKey k now =>
    match s.presses[k]? with
    | some p =>
      if p.timer = .enqueuing ∧ s.accepts p.keyCode false now then some (p.keyCode, now) else none
    | none => none
  | _ => none

/-- The queue, and when it last grew, behind a step that at most adds to it. -/
structure Adds (s t : KeySystem) (put : Option (ℤ × Timeval)) : Prop where
  keyQueue : t.keyQueue = s.keyQueue ++ (put.map Prod.fst).toList
  lastQueueTime : t.lastQueueTime = (put.map Prod.snd).getD s.lastQueueTime

theorem Adds.of_same (keyQueue : t.keyQueue = s.keyQueue)
    (lastQueueTime : t.lastQueueTime = s.lastQueueTime) : Adds s t none where
  keyQueue := by simp [keyQueue]
  lastQueueTime := lastQueueTime

theorem enqueue_adds (keyCode : ℤ) (flag : Bool) (now : Timeval) :
    Adds s (s.enqueue keyCode flag now)
      (if s.accepts keyCode flag now then some (keyCode, now) else none) := by
  rw [enqueue_eq]
  split_ifs
  · exact ⟨rfl, rfl⟩
  · exact .of_same rfl rfl

/-- A timer thread sets its press and the lock, or enqueues its key. -/
theorem timeKey_cases {k : ℕ} {p : Press} {now : Timeval} (taken : s.timeKey keysMap k p now = some t) :
    (p.timer ≠ .enqueuing ∧ ∃ p' l, t = { s.setPress k p' with locked := l }) ∨
      p.timer = .enqueuing ∧
        t = (s.enqueue p.keyCode false now).setPress k { p with timer := .repeating } := by
  rw [timeKey] at taken
  split at taken
  case h_1 pc =>
    obtain ⟨-, taken⟩ := Option.ite_none_right_eq_some.mp taken
    exact .inl ⟨by simp [pc], _, _, (Option.some.inj taken).symm⟩
  case h_2 pc => exact .inl ⟨by simp [pc], _, s.locked, (Option.some.inj taken).symm⟩
  case h_3 pc => exact .inl ⟨by simp [pc], _, s.locked, (Option.some.inj taken).symm⟩
  case h_4 pc =>
    split_ifs at taken
    · exact .inl ⟨by simp [pc], _, s.locked, (Option.some.inj taken).symm⟩
    · exact .inl ⟨by simp [pc], _, _, (Option.some.inj taken).symm⟩
  case h_5 pc => exact .inl ⟨by simp [pc], _, _, (Option.some.inj taken).symm⟩
  case h_6 pc => exact .inl ⟨by simp [pc], _, s.locked, (Option.some.inj taken).symm⟩
  case h_7 pc =>
    obtain ⟨-, taken⟩ := Option.ite_none_right_eq_some.mp taken
    exact .inr ⟨pc, (Option.some.inj taken).symm⟩
  case h_8 => cases taken

theorem timeKey_adds {k : ℕ} {p : Press} {now : Timeval} (here : s.presses[k]? = some p)
    (taken : s.timeKey keysMap k p now = some t) : Adds s t (s.puts (.timeKey k now)) := by
  simp only [puts, here]
  obtain ⟨other, p', l, rfl⟩ | ⟨enqueuing, rfl⟩ := timeKey_cases taken
  · rw [if_neg fun both => other both.1]
    exact .of_same rfl rfl
  · have adds := s.enqueue_adds p.keyCode false now
    simp only [enqueuing, true_and]
    exact ⟨adds.keyQueue, adds.lastQueueTime⟩

theorem enqueue_input (keyCode : ℤ) (flag : Bool) (now : Timeval) :
    (s.enqueue keyCode flag now).input = s.input ∧ (s.enqueue keyCode flag now).lastKey = s.lastKey ∧
      (s.enqueue keyCode flag now).keyLastDown = s.keyLastDown := by
  rw [enqueue]
  split_ifs <;> exact ⟨rfl, rfl, rfl⟩

/-- A timer thread leaves the input thread alone. -/
theorem timeKey_input {k : ℕ} {p : Press} {now : Timeval} (taken : s.timeKey keysMap k p now = some t) :
    t.input = s.input ∧ t.lastKey = s.lastKey ∧ t.keyLastDown = s.keyLastDown := by
  obtain ⟨-, p', l, rfl⟩ | ⟨-, rfl⟩ := timeKey_cases taken
  · exact ⟨rfl, rfl, rfl⟩
  · exact enqueue_input p.keyCode false now

/-- So does the consumer, which puts nothing into the queue. -/
theorem consumer_input {a : Action} (consumer : a = .waitKey ∨ a = .system ∨ a = .release)
    (taken : s.step keysMap a = some t) :
    t.input = s.input ∧ t.lastKey = s.lastKey ∧ t.keyLastDown = s.keyLastDown ∧
      t.lastQueueTime = s.lastQueueTime ∧ s.puts a = none := by
  obtain rfl | rfl | rfl := consumer
  · simp only [step] at taken
    split at taken
    · split at taken
      · cases taken
        exact ⟨rfl, rfl, rfl, rfl, rfl⟩
      · split_ifs at taken <;> cases taken <;> exact ⟨rfl, rfl, rfl, rfl, rfl⟩
    · cases taken
  · obtain ⟨key, keyEvent, cur, commands, -, rfl⟩ := system_cases taken
    exact ⟨rfl, rfl, rfl, rfl, rfl⟩
  · simp only [step] at taken
    split at taken <;> cases taken <;> exact ⟨rfl, rfl, rfl, rfl, rfl⟩

end KeySystem

/-- A state, and the key most recently put into the queue, with its time. -/
structure KeyHistory where
  system : KeySystem
  recent : Option (ℤ × Timeval)

namespace KeyHistory

open KeySystem (Action)

variable {keysMap : List KeyMapItem} {h h' : KeyHistory}

def start : KeyHistory := ⟨.start, none⟩

def step (keysMap : List KeyMapItem) (h : KeyHistory) (a : Action) : Option KeyHistory :=
  (h.system.step keysMap a).map fun t => ⟨t, (h.system.puts a).or h.recent⟩

def Step (keysMap : List KeyMapItem) (h : KeyHistory) (a : Action) (h' : KeyHistory) : Prop :=
  h.step keysMap a = some h'

/-! ### What is to hold -/

/-- The key that is down behind an event, of which `none` is that the presses overlap. -/
def held (down : Option ℤ) : Action → Option (Option ℤ)
  | .processKey keyCode value _ =>
    if value = 1 ∧ down = none then some (some keyCode)
    else if value = 2 ∧ down = some keyCode then some down
    else if value = 0 ∧ down = some keyCode then some none
    else none
  | _ => some down

/-- Each key is released before the next one is pressed. -/
def apart (actions : List Action) : Bool := (actions.foldlM held none).isSome

/-- What a step tells of the two clocks. -/
def monotonic : Action → Option ℤ
  | .processKey _ _ now => some now
  | _ => none

def timeOfDay : Action → Option Timeval
  | .enqueueKey now | .timeKey _ now => some now
  | _ => none

/-- The times do not decrease. -/
def ordered (actions : List Action) : Bool :=
  (actions.filterMap monotonic).Pairwise (· ≤ ·) ∧
    (actions.filterMap timeOfDay).Pairwise fun before later => 0 ≤ before.until later

/-- A key up is registered, and its key gets into the queue unless that is full or the key is a bounce
of the one most recently put there. -/
def Delivers (h : KeyHistory) (a : Action) (h' : KeyHistory) : Prop :=
  match a with
  | .processKey keyCode value _ => value = 0 → ∃ flag, h'.system.input = .unlocked keyCode true flag
  | .enqueueKey now =>
    ∀ keyCode flag, h.system.input = .enqueuing keyCode flag →
      h'.system.keyQueue = h.system.keyQueue ++ [keyCode] ∨ 256 ≤ h.system.keyQueue.length ∨
        ∃ time, h.recent = some (keyCode, time) ∧ time.until now < 20000
  | _ => True

/-- The queue is full, or 20 ms have passed, or the key ends a long press, or it is the one most
recently put into the queue. -/
def spaced (h : KeyHistory) : Action → Bool
  | .enqueueKey now =>
    match h.system.input with
    | .enqueuing keyCode flag =>
      256 ≤ h.system.keyQueue.length ∨ flag ∨ checkEventTime h.system.lastQueueTime now ∨
        h.recent.any fun (key, _) => key = keyCode
    | _ => true
  | _ => true

/-! ### The steps -/

/-- What the input thread and the queue know in every run of presses that do not overlap. -/
structure Holds (down : Option ℤ) (h : KeyHistory) : Prop where
  keyLastDown : ∀ keyCode, down = some keyCode → h.system.keyLastDown = keyCode
  lastKey : ∀ keyCode flag, h.system.input = .enqueuing keyCode flag → h.system.lastKey = keyCode
  recent : ∀ key time, h.recent = some (key, time) → h.system.lastQueueTime = time

theorem holds_start : Holds none start where
  keyLastDown := by simp
  lastKey := by simp [start, KeySystem.start]
  recent := by simp [start]

/-- The time of the last key is that of its queueing. -/
theorem Holds.put {down : Option ℤ} {t : KeySystem} {put : Option (ℤ × Timeval)}
    (holds : Holds down h) (adds : KeySystem.Adds h.system t put) (key : ℤ) (time : Timeval)
    (recent : put.or h.recent = some (key, time)) : t.lastQueueTime = time := by
  rw [adds.lastQueueTime]
  cases put with
  | none => exact holds.recent key time recent
  | some last =>
    cases recent
    rfl

/-- A step of another thread. -/
theorem Holds.of_input {down : Option ℤ} {t : KeySystem} {put : Option (ℤ × Timeval)}
    (holds : Holds down h) (adds : KeySystem.Adds h.system t put)
    (input : t.input = h.system.input ∧ t.lastKey = h.system.lastKey ∧
      t.keyLastDown = h.system.keyLastDown) : Holds down ⟨t, put.or h.recent⟩ where
  keyLastDown := by simpa only [input] using holds.keyLastDown
  lastKey := by simpa only [input] using holds.lastKey
  recent := holds.put adds

theorem Holds.step {down down' : Option ℤ} {a : Action} (holds : Holds down h)
    (apart : held down a = some down') (stepped : Step keysMap h a h') : Holds down' h' := by
  obtain ⟨t, taken, rfl⟩ := Option.map_eq_some_iff.mp stepped
  clear stepped
  cases a with
  | processKey keyCode value now =>
    simp only [KeySystem.step] at taken
    obtain ⟨-, taken⟩ := Option.ite_none_right_eq_some.mp taken
    simp only [held] at apart
    split_ifs at apart with pressed repeated released
    · obtain ⟨rfl, -⟩ := pressed
      cases apart
      cases taken
      exact ⟨fun c same => Option.some.inj same, by simp, holds.recent⟩
    · obtain ⟨rfl, -⟩ := repeated
      cases apart
      cases taken
      exact ⟨holds.keyLastDown, by simp, holds.recent⟩
    · obtain ⟨rfl, -⟩ := released
      cases apart
      cases taken
      exact ⟨by simp, by simp [KeySystem.keyUp], holds.recent⟩
  | setLastKey =>
    cases apart
    obtain ⟨keyCode, registerKey, flag, -, rfl⟩ := KeySystem.setLastKey_cases taken
    refine ⟨holds.keyLastDown, fun c f enqueuing => ?_, holds.recent⟩
    dsimp only at enqueuing
    split_ifs at enqueuing
    exact (InputPc.enqueuing.inj enqueuing).1
  | enqueueKey now =>
    cases apart
    obtain ⟨keyCode, flag, enqueuing, rfl⟩ := KeySystem.enqueueKey_cases taken
    have adds := h.system.enqueue_adds keyCode flag now
    have input := h.system.enqueue_input keyCode flag now
    simp only [KeySystem.puts, enqueuing]
    exact ⟨by simpa only [input] using holds.keyLastDown, by simp,
      holds.put ⟨adds.keyQueue, adds.lastQueueTime⟩⟩
  | timeKey k now =>
    cases apart
    obtain ⟨p, here, taken⟩ := Option.bind_eq_some_iff.mp taken
    exact holds.of_input (KeySystem.timeKey_adds here taken) (KeySystem.timeKey_input taken)
  | waitKey | system | release =>
    cases apart
    obtain ⟨input, lastKey, keyLastDown, lastQueueTime, puts⟩ :=
      KeySystem.consumer_input (by simp) taken
    rw [puts]
    refine ⟨?_, ?_, ?_⟩
    · simpa only [keyLastDown] using holds.keyLastDown
    · simpa only [input, lastKey] using holds.lastKey
    · simpa only [lastQueueTime, Option.none_or] using holds.recent

theorem queued_iff {keyCode : ℤ} {flag : Bool} (now : Timeval) (lastKey : h.system.lastKey = keyCode) :
    (h.system.enqueue keyCode flag now).keyQueue = h.system.keyQueue ++ [keyCode] ↔
      h.system.keyQueue.length < 256 ∧ (checkEventTime h.system.lastQueueTime now ∨ flag) := by
  rw [(h.system.enqueue_adds keyCode flag now).keyQueue]
  have accepts : h.system.accepts keyCode flag now ↔
      h.system.keyQueue.length < 256 ∧ (checkEventTime h.system.lastQueueTime now ∨ flag) := by
    simp [KeySystem.accepts, lastKey]
  rw [← accepts]
  split_ifs with accepted
  · simp [accepted]
  · simp [accepted]

/-- The key was not put there, with room for it: it came too early, and so it is a bounce exactly if the
one before was the same. -/
theorem delivers_iff_of_enqueue {down : Option ℤ} {keyCode : ℤ} {flag : Bool} {now : Timeval}
    (holds : Holds down h) (enqueuing : h.system.input = .enqueuing keyCode flag)
    (queue : h'.system.keyQueue = (h.system.enqueue keyCode flag now).keyQueue) :
    Delivers h (.enqueueKey now) h' ↔ h.spaced (.enqueueKey now) := by
  have queued := @queued_iff h keyCode flag now (holds.lastKey keyCode flag enqueuing)
  rw [← queue] at queued
  have spaced : h.spaced (.enqueueKey now) ↔ 256 ≤ h.system.keyQueue.length ∨ flag ∨
      checkEventTime h.system.lastQueueTime now ∨ ∃ time, h.recent = some (keyCode, time) := by
    simp [KeyHistory.spaced, enqueuing, Option.any_eq_true]
  rw [spaced]
  constructor
  · intro delivers
    obtain done | full | ⟨time, recent, -⟩ := delivers keyCode flag enqueuing
    · obtain ⟨-, late | long⟩ := queued.mp done
      · exact .inr (.inr (.inl late))
      · exact .inr (.inl long)
    · exact .inl full
    · exact .inr (.inr (.inr ⟨time, recent⟩))
  · intro condition c f same
    rw [enqueuing] at same
    cases same
    by_cases room : h.system.keyQueue.length < 256
    · by_cases late : checkEventTime h.system.lastQueueTime now ∨ flag
      · exact .inl (queued.mpr ⟨room, late⟩)
      · obtain full | long | late' | ⟨time, recent⟩ := condition
        · exact .inr (.inl full)
        · exact absurd (.inr long) late
        · exact absurd (.inl late') late
        · refine .inr (.inr ⟨time, recent, ?_⟩)
          rw [← holds.recent keyCode time recent]
          exact until_lt_of_not_checkEventTime (by simpa using fun early => late (.inl early))
    · exact .inr (.inl (Nat.le_of_not_lt room))

theorem delivers_iff_of_step {down down' : Option ℤ} {a : Action} (holds : Holds down h)
    (apart : held down a = some down') (stepped : Step keysMap h a h') :
    Delivers h a h' ↔ h.spaced a := by
  obtain ⟨t, taken, rfl⟩ := Option.map_eq_some_iff.mp stepped
  clear stepped
  cases a with
  | processKey keyCode value now =>
    simp only [KeySystem.step] at taken
    obtain ⟨-, taken⟩ := Option.ite_none_right_eq_some.mp taken
    refine iff_of_true ?_ rfl
    rintro rfl
    obtain rfl : down = some keyCode := by
      by_contra other
      simp [held, other] at apart
    cases taken
    simp [KeySystem.keyUp, holds.keyLastDown keyCode rfl]
  | enqueueKey now =>
    obtain ⟨keyCode, flag, enqueuing, rfl⟩ := KeySystem.enqueueKey_cases taken
    exact delivers_iff_of_enqueue holds enqueuing rfl
  | _ => exact iff_of_true trivial rfl

/-! ### Runs -/

theorem Step.det (h : KeyHistory) (a : Action) (t t' : KeyHistory) (taken : Step keysMap h a t)
    (taken' : Step keysMap h a t') : t = t' :=
  Option.some.inj (taken.symm.trans taken')

theorem delivers_iff_of_run {down : Option ℤ} {actions : List Action}
    (run : Run (Step keysMap) h actions h') (holds : Holds down h)
    (apart : (actions.foldlM held down).isSome) :
    Run (fun h a h' => Step keysMap h a h' ∧ Delivers h a h') h actions h' ↔
      Run (Guarded (fun h a => h.spaced a) (Step keysMap)) h actions h' := by
  induction run generalizing down with
  | nil h => simp [Run.nil_iff]
  | @cons h mid h' a rest head _ ih =>
    rw [List.foldlM_cons] at apart
    cases next : held down a with
    | none => simp [next] at apart
    | some down' =>
      rw [next] at apart
      have iff := delivers_iff_of_step holds next head
      have later := ih (holds.step next head) apart
      rw [Run.cons_iff, Run.cons_iff]
      constructor
      · rintro ⟨mid', ⟨taken, delivers⟩, onward⟩
        obtain rfl := Step.det _ _ _ _ head taken
        exact ⟨mid, ⟨iff.mp delivers, head⟩, later.mp onward⟩
      · rintro ⟨mid', ⟨spaced, taken⟩, onward⟩
        obtain rfl := Step.det _ _ _ _ head taken
        exact ⟨mid, ⟨head, iff.mpr spaced⟩, later.mpr onward⟩

/-- Keys get into the queue as they should exactly if no different key comes too early. -/
theorem delivers_iff_spaced {keysMap : List KeyMapItem} {actions : List Action} {h : KeyHistory}
    (apart : apart actions) (run : Run (Step keysMap) start actions h) :
    Run (fun h a h' => Step keysMap h a h' ∧ Delivers h a h') start actions h ↔
      Run (Guarded (fun h a => h.spaced a) (Step keysMap)) start actions h :=
  delivers_iff_of_run run holds_start apart

/-- The same key twice within 20 ms. -/
def bounce : List Action :=
  [.processKey 103 1 10, .setLastKey, .processKey 103 0 20, .setLastKey, .enqueueKey ⟨5, 0⟩,
    .processKey 103 1 30, .setLastKey, .processKey 103 0 40, .setLastKey, .enqueueKey ⟨5, 15000⟩]

theorem delivers_iff_spaced_bounce : ∃ h,
    Run (fun h a h' => Step [] h a h' ∧ Delivers h a h') start bounce h :=
  ⟨_, (delivers_iff_spaced (by decide) (run_of_foldlM rfl)).mpr (guarded_of_foldlM rfl)⟩

/-- Two different keys within 20 ms, up to the queueing of the second one. -/
def quick : List Action :=
  [.processKey 103 1 4990000, .setLastKey, .processKey 103 0 4999000, .setLastKey, .enqueueKey ⟨5, 0⟩,
    .processKey 116 1 5005000, .setLastKey, .processKey 116 0 5014000, .setLastKey]

theorem not_delivers_quick : ¬∀ keysMap actions h, apart actions → ordered actions →
    Run (Step keysMap) start actions h →
    Run (fun h a h' => Step keysMap h a h' ∧ Delivers h a h') start actions h := by
  intro delivers
  have run := delivers [] (quick ++ [.enqueueKey ⟨5, 15000⟩]) _ (by decide) (by decide)
    (run_of_foldlM rfl)
  obtain ⟨mid, before, last⟩ := Run.append_iff.mp run
  have plain : Run (Step []) start quick mid := before.mono fun taken => taken.1
  obtain rfl := plain.functional Step.det (run_of_foldlM rfl)
  obtain ⟨after, ⟨taken, put⟩, -⟩ := Run.cons_iff.mp last
  obtain rfl := Option.some.inj taken
  obtain queued | full | ⟨time, recent, -⟩ := put 116 false rfl
  · exact absurd queued (by decide)
  · exact absurd full (by decide)
  · cases recent

end KeyHistory

end AmlCommonlib.Utils
