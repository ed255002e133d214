import AmlCommonlib.SocketIpcV2.Registration

/-! # The clients of the v2 server

`epollEventHandlerWorker` one event after the other: what it does to `clientFdList` and to the
descriptors of its connections, whose numbers are used again once they are closed.
-/

namespace AmlCommonlib.SocketIpcV2

/-- The server between two events. -/
structure ClientServer where
  clientFdList : IntList
  /-- The descriptors of the connections. -/
  opened : List ℤ
  /-- No datum of the program: the bitmaps each connection has registered since it was accepted. -/
  registered : ℤ → List ℤ

inductive ServerEvent where
  | accept (connfd : ℤ)
  /-- A REGISTER frame; `bitmapStr` is its body with the memory behind it. -/
  | register (fd : ℤ) (bitmapStr : Bytes) (address pointer : ℕ)
  | businessData (fd : ℤ) (businessData : Bytes)
  /-- A `readn` that returns 0. -/
  | endOfFile (fd : ℤ)

namespace ClientServer

def start : ClientServer := ⟨.start, [], fun _ => []⟩

/-- One event, with the fuel for the list. A new descriptor is one that is not open, and events
come on open descriptors only. -/
def apply (fuel : ℕ) (s : ClientServer) : ServerEvent → Option ClientServer
  | .accept connfd =>
    if 0 ≤ connfd ∧ connfd ∉ s.opened then
      some { s with
        opened := connfd :: s.opened
        registered := Function.update s.registered connfd [] }
    else none
  | .register fd bitmapStr address pointer =>
    if fd ∈ s.opened then do
      let clientFdList ← handleRegisterMessage s.clientFdList address pointer bitmapStr fd
      let bitmap ← atoi? bitmapStr
      return { s with
        clientFdList := clientFdList
        registered := Function.update s.registered fd (s.registered fd ++ [bitmap]) }
    else none
  | .businessData fd _ => if fd ∈ s.opened then some s else none
  | .endOfFile fd =>
    if fd ∈ s.opened then do
      let clientFdList ← s.clientFdList.deleteIntNodeWithValue fuel fd
      return {
        clientFdList := clientFdList
        opened := s.opened.filter (· ≠ fd)
        registered := Function.update s.registered fd [] }
    else none

/-- `malloc` returns memory that is not in use. -/
def Allocates (s : ClientServer) : ServerEvent → Prop
  | .register _ _ address pointer =>
    s.clientFdList.list.heap address = none ∧ s.clientFdList.ints pointer = none
  | _ => True

/-- One event that is handled. -/
def Step (s : ClientServer) (e : ServerEvent) (s' : ClientServer) : Prop :=
  s.Allocates e ∧ ∃ fuel, s.apply fuel e = some s'

/-- A REGISTER frame comes on a connection that has not registered yet. -/
def FirstRegistration (s : ClientServer) : ServerEvent → Prop
  | .register fd _ _ _ => s.registered fd = []
  | _ => True

/-- The list as a sequence of registrations. -/
structure Tracks (s : ClientServer) (nodes : List (ℕ × ℤ × ℕ)) (entries : Sequence) : Prop where
  represents : s.clientFdList.Represents nodes entries
  entries : ∀ fd, (entries.elements.filter (·.value = fd)).map (·.nodeTypeData) = s.registered fd
  closed : ∀ fd, fd ∉ s.opened → s.registered fd = []

variable {s s' : ClientServer} {nodes : List (ℕ × ℤ × ℕ)} {entries : Sequence} {e : ServerEvent}

/-! ### What an event does -/

section Events

variable {fd : ℤ}

theorem step_accept : s.Step (.accept fd) s' ↔ 0 ≤ fd ∧ fd ∉ s.opened ∧
    s' = { s with opened := fd :: s.opened, registered := Function.update s.registered fd [] } := by
  simp [Step, Allocates, apply, and_assoc, eq_comm]

theorem step_register {bitmapStr : Bytes} {address pointer : ℕ} :
    s.Step (.register fd bitmapStr address pointer) s' ↔ fd ∈ s.opened ∧
      s.clientFdList.list.heap address = none ∧ s.clientFdList.ints pointer = none ∧
      ∃ bitmap list, atoi? bitmapStr = some bitmap ∧
        s.clientFdList.pushBack address pointer fd bitmap = some list ∧
        s' = { s with
          clientFdList := list
          registered := Function.update s.registered fd (s.registered fd ++ [bitmap]) } := by
  cases read : atoi? bitmapStr with
  | none => simp [Step, Allocates, apply, handleRegisterMessage, read]
  | some bitmap =>
    simp only [Step, Allocates, apply, handleRegisterMessage, read, Option.bind_eq_bind,
      Option.bind_some, Option.ite_none_right_eq_some, Option.bind_eq_some_iff, Option.pure_def,
      Option.some.injEq, exists_const]
    constructor
    · rintro ⟨⟨fresh, freshInt⟩, isOpen, list, pushed, rfl⟩
      exact ⟨isOpen, fresh, freshInt, bitmap, list, rfl, pushed, rfl⟩
    · rintro ⟨isOpen, fresh, freshInt, _, list, rfl, pushed, rfl⟩
      exact ⟨⟨fresh, freshInt⟩, isOpen, list, pushed, rfl⟩

theorem step_businessData {businessData : Bytes} :
    s.Step (.businessData fd businessData) s' ↔ fd ∈ s.opened ∧ s' = s := by
  simp [Step, Allocates, apply, eq_comm]

theorem step_endOfFile : s.Step (.endOfFile fd) s' ↔ fd ∈ s.opened ∧
    ∃ fuel list, s.clientFdList.deleteIntNodeWithValue fuel fd = some list ∧
      s' = ⟨list, s.opened.filter (· ≠ fd), Function.update s.registered fd []⟩ := by
  simp only [Step, Allocates, apply, true_and, Option.ite_none_right_eq_some, exists_and_left,
    Option.bind_eq_bind, Option.bind_eq_some_iff, Option.pure_def, Option.some.injEq]
  constructor
  · rintro ⟨isOpen, fuel, list, deleted, rfl⟩
    exact ⟨isOpen, fuel, list, deleted, rfl⟩
  · rintro ⟨isOpen, fuel, list, deleted, rfl⟩
    exact ⟨isOpen, fuel, list, deleted, rfl⟩

/-- What an event does is fixed, whatever the fuel. -/
theorem step_functional {s'' : ClientServer} (step : s.Step e s') (step' : s.Step e s'') :
    s' = s'' := by
  cases e with
  | accept connfd =>
    obtain ⟨-, -, rfl⟩ := step_accept.mp step
    obtain ⟨-, -, rfl⟩ := step_accept.mp step'
    rfl
  | register fd bitmapStr address pointer =>
    obtain ⟨-, -, -, bitmap, list, read, pushed, rfl⟩ := step_register.mp step
    obtain ⟨-, -, -, bitmap', list', read', pushed', rfl⟩ := step_register.mp step'
    obtain rfl := Option.some.inj (read.symm.trans read')
    obtain rfl := Option.some.inj (pushed.symm.trans pushed')
    rfl
  | businessData fd data =>
    obtain ⟨-, rfl⟩ := step_businessData.mp step
    obtain ⟨-, rfl⟩ := step_businessData.mp step'
    rfl
  | endOfFile fd =>
    obtain ⟨-, fuel, list, deleted, rfl⟩ := step_endOfFile.mp step
    obtain ⟨-, fuel', list', deleted', rfl⟩ := step_endOfFile.mp step'
    have more := IntList.deleteLoop_mono (Nat.le_max_left fuel fuel') deleted
    have more' := IntList.deleteLoop_mono (Nat.le_max_right fuel fuel') deleted'
    obtain rfl := Option.some.inj (more.symm.trans more')
    rfl

end Events

/-! ### The list tracks the registrations -/

theorem tracks_start : start.Tracks [] .start :=
  ⟨IntList.represents_start, fun _ => rfl, fun _ _ => rfl⟩

theorem Tracks.accept {connfd : ℤ} (tracks : s.Tracks nodes entries) (new : connfd ∉ s.opened) :
    Tracks { s with
      opened := connfd :: s.opened
      registered := Function.update s.registered connfd [] } nodes entries := by
  have same : Function.update s.registered connfd [] = s.registered := by
    rw [← tracks.closed connfd new]
    exact Function.update_eq_self ..
  refine ⟨tracks.represents, ?_, ?_⟩
  · simpa only [same] using tracks.entries
  · intro fd closed
    simp only [same]
    exact tracks.closed fd fun member => closed (List.mem_cons_of_mem _ member)

theorem Tracks.register {fd bitmap : ℤ} {address pointer : ℕ} {list : IntList}
    (tracks : s.Tracks nodes entries) (isOpen : fd ∈ s.opened)
    (fresh : s.clientFdList.list.heap address = none) (freshInt : s.clientFdList.ints pointer = none)
    (pushed : s.clientFdList.pushBack address pointer fd bitmap = some list) :
    ∃ nodes', Tracks { s with
      clientFdList := list
      registered := Function.update s.registered fd (s.registered fd ++ [bitmap]) } nodes'
      (entries.apply (.pushBack address pointer fd bitmap)) := by
  obtain ⟨list', pushed', represents⟩ :=
    @IntList.Represents.pushBack _ _ _ fd address pointer bitmap tracks.represents fresh freshInt
  obtain rfl := Option.some.inj (pushed.symm.trans pushed')
  refine ⟨_, represents, ?_, ?_⟩
  · intro other
    have old := tracks.entries other
    rw [Sequence.apply, List.filter_append, List.map_append, old]
    by_cases same : other = fd
    · subst same
      simp
    · simp [Function.update_of_ne same, Ne.symm same]
  · intro other closed
    have ne : other ≠ fd := fun same => closed (same ▸ isOpen)
    exact (Function.update_of_ne ne _ _).trans (tracks.closed other closed)

theorem Tracks.endOfFile {fd : ℤ} {list : IntList} {fuel : ℕ} (tracks : s.Tracks nodes entries)
    (deleted : s.clientFdList.deleteIntNodeWithValue fuel fd = some list) :
    ∃ nodes', Tracks ⟨list, s.opened.filter (· ≠ fd), Function.update s.registered fd []⟩ nodes'
      (entries.apply (.delete fd)) := by
  obtain ⟨nodes', represents⟩ := tracks.represents.step (⟨trivial, fuel, deleted⟩ :
    s.clientFdList.Step (.delete fd) list)
  refine ⟨nodes', represents, ?_, ?_⟩
  · intro other
    rw [Sequence.apply, List.filter_filter]
    by_cases same : other = fd
    · subst same
      simp
    · dsimp only
      rw [Function.update_of_ne same, ← tracks.entries other]
      congr 1
      apply List.filter_congr
      intro entry _
      by_cases isOther : entry.value = other <;> simp [isOther, same]
  · intro other closed
    by_cases same : other = fd
    · rw [same]
      exact Function.update_self ..
    · refine (Function.update_of_ne same _ _).trans (tracks.closed other ?_)
      simpa [same] using closed

theorem Tracks.step (tracks : s.Tracks nodes entries) (step : s.Step e s') :
    ∃ nodes' entries', s'.Tracks nodes' entries' := by
  cases e with
  | accept connfd =>
    obtain ⟨-, new, rfl⟩ := step_accept.mp step
    exact ⟨nodes, entries, tracks.accept new⟩
  | register fd bitmapStr address pointer =>
    obtain ⟨isOpen, fresh, freshInt, bitmap, list, -, pushed, rfl⟩ := step_register.mp step
    obtain ⟨nodes', tracks'⟩ := tracks.register isOpen fresh freshInt pushed
    exact ⟨nodes', _, tracks'⟩
  | businessData fd data =>
    obtain ⟨-, rfl⟩ := step_businessData.mp step
    exact ⟨nodes, entries, tracks⟩
  | endOfFile fd =>
    obtain ⟨-, fuel, list, deleted, rfl⟩ := step_endOfFile.mp step
    obtain ⟨nodes', tracks'⟩ := tracks.endOfFile deleted
    exact ⟨nodes', _, tracks'⟩

theorem tracks_run {events : List ServerEvent} (run : Run Step start events s) :
    ∃ nodes entries, s.Tracks nodes entries := by
  refine run.preserves_history (fun _ s => ∃ nodes entries, s.Tracks nodes entries) ?_
    ⟨[], .start, tracks_start⟩
  rintro past s e s' ⟨nodes, entries, tracks⟩ step
  exact tracks.step step

/-- Every connection has registered at most once. -/
def Settled (s : ClientServer) : Prop :=
  (∃ nodes entries, s.Tracks nodes entries) ∧ ∀ fd, (s.registered fd).length ≤ 1

theorem Settled.step (settled : s.Settled) (first : s.FirstRegistration e) (step : s.Step e s') :
    s'.Settled := by
  obtain ⟨⟨nodes, entries, tracks⟩, once⟩ := settled
  refine ⟨tracks.step step, ?_⟩
  intro other
  cases e with
  | accept connfd =>
    obtain ⟨-, -, rfl⟩ := step_accept.mp step
    rcases eq_or_ne other connfd with rfl | ne
    · simp
    · simpa [ne] using once other
  | register fd bitmapStr address pointer =>
    obtain ⟨-, -, -, bitmap, list, -, -, rfl⟩ := step_register.mp step
    rcases eq_or_ne other fd with rfl | ne
    · have none : s.registered other = [] := first
      simp [none]
    · simpa [ne] using once other
  | businessData fd data =>
    obtain ⟨-, rfl⟩ := step_businessData.mp step
    exact once other
  | endOfFile fd =>
    obtain ⟨-, fuel, list, -, rfl⟩ := step_endOfFile.mp step
    rcases eq_or_ne other fd with rfl | ne
    · simp
    · simpa [ne] using once other

end ClientServer

end AmlCommonlib.SocketIpcV2
