import AmlCommonlib.Lib.Latest
import AmlCommonlib.ServiceManager.Records

/-! # Whole runs of the service manager

The driver delivers what it likes: messages with any content, and the death of any service at any
time. The records stay in order, the strong references match the records, and a name stands for the
latest service registered under it that was not reported dead since.
-/

namespace AmlCommonlib.ServiceManager

namespace Manager

/-- One command of the driver; the result is that of the handler for a message. -/
def deliver (bs : Manager) : Return → ℤ × Manager
  | .transaction txn stack memory => bs.transaction txn stack memory
  | .deadBinder cookie => (0, bs.svcinfoDeath cookie)
  | _ => (0, bs)

end Manager

/-- The step of a command with its result. -/
def Deliver (bs : Manager) (l : Return × ℤ) (bs' : Manager) : Prop := bs.deliver l.1 = (l.2, bs')

variable {bs bs' : Manager}

/-- The loop handles a part of what the driver returns. -/
theorem binderParse_run (bs : Manager) (r : ℤ) (commands : List Return) :
    ∃ ls, ls.map Prod.fst <+: commands ∧ Run Deliver bs ls (bs.binderParse r commands).2 := by
  induction commands generalizing bs r with
  | nil => exact ⟨[], by simp, .nil _⟩
  | cons command rest ih =>
    have next : ∀ r', ∃ ls, ls.map Prod.fst <+: command :: rest ∧
        Run Deliver bs ls ((bs.deliver command).2.binderParse r' rest).2 := by
      intro r'
      obtain ⟨ls, part, run⟩ := ih (bs.deliver command).2 r'
      exact ⟨(command, (bs.deliver command).1) :: ls, by simpa using part, .cons rfl run⟩
    cases command with
    | other => exact ⟨[], List.nil_prefix, .nil _⟩
    | reply => exact next 0
    | failedReply => exact next (-1)
    | deadReply => exact next (-1)
    | _ => exact next r

theorem binderLoop_run (bs : Manager) (reads : List (List Return)) :
    ∃ ls, (ls.map Prod.fst).Sublist reads.flatten ∧ Run Deliver bs ls (bs.binderLoop reads) := by
  induction reads generalizing bs with
  | nil => exact ⟨[], by simp, .nil _⟩
  | cons commands rest ih =>
    obtain ⟨ls, part, run⟩ := binderParse_run bs 1 commands
    rw [Manager.binderLoop]
    simp only
    split_ifs with ends
    · exact ⟨ls, by simpa using part.sublist.trans (List.sublist_append_left ..), run⟩
    · obtain ⟨more, sub, later⟩ := ih (bs.binderParse 1 commands).2
      exact ⟨ls ++ more, by simpa using part.sublist.append sub, Run.append_iff.mpr ⟨_, run, later⟩⟩

/-! ### What one command does -/

/-- The registration that a command has made. -/
def registers : Return × ℤ → Option (Units × ℕ)
  | (.transaction txn _ _, 0) =>
    match txn.request with
    | .add s handle _ => some (s, handle)
    | _ => none
  | _ => none

/-- Commands that do not count references. -/
def Quiet (commands : List Command) : Prop :=
  ∀ h, .acquire h ∉ commands ∧ .release h ∉ commands

/-- What a command can do to the records. -/
inductive Effect (bs : Manager) (l : Return × ℤ) (bs' : Manager) : Prop
  | none (more : List Command) (quiet : Quiet more) (registered : registers l = none)
      (alive : ∀ si ∈ bs.svclist, l.1 = .deadBinder si.death → si.handle = 0)
      (records : bs'.svclist = bs.svclist) (written : bs'.written = bs.written ++ more)
  | died (si : Svcinfo) (dead : l.1 = .deadBinder si.death) (used : si.handle ≠ 0)
      (stores : Stores bs bs' si 0) (written : bs'.written = bs.written ++ [.release si.handle])
  | replaced (si : Svcinfo) (h : ℕ) (more : List Command) (quiet : Quiet more)
      (registered : registers l = some (si.name, h)) (registrable : Registrable si.name h)
      (stores : Stores bs bs' si h) (written : bs'.written = bs.written ++ takes si h ++ more)
  | added (s : Units) (h : ℕ) (isolated : Bool) (more : List Command) (quiet : Quiet more)
      (registered : registers l = some (s, h)) (registrable : Registrable s h)
      (fresh : ∀ si ∈ bs.svclist, si.name ≠ s)
      (records : bs'.svclist = ⟨h, bs.svclist.length, isolated, s⟩ :: bs.svclist)
      (written : bs'.written = bs.written ++
        [.acquire h, .requestDeathNotification h bs.svclist.length] ++ more)

theorem sendReply_records (bs : Manager) (reply : BinderIo) (buffer : ℕ) (status : ℤ) :
    (bs.sendReply reply buffer status).svclist = bs.svclist ∧
      ∃ more, Quiet more ∧ (bs.sendReply reply buffer status).written = bs.written ++ more := by
  rw [Manager.sendReply]
  split_ifs
  · exact ⟨rfl, [_, _], by simp [Quiet], List.append_assoc ..⟩
  · exact ⟨rfl, [_, _], by simp [Quiet], List.append_assoc ..⟩

/-- Only a registration changes the records. -/
theorem serve_records (wf : Wf bs) (reply : BinderIo) (memory : Bool) (request : Request) :
    ((bs.serve reply memory request).2.2 = bs ∧
      ((bs.serve reply memory request).1 = 0 → ∀ s h isolated, request ≠ .add s h isolated)) ∨
    ∃ s h isolated, request = .add s h isolated ∧ (bs.serve reply memory request).1 = 0 ∧
      bs.doAddService s h isolated memory = (0, (bs.serve reply memory request).2.2) := by
  cases request with
  | add s h isolated =>
    rcases outcome : bs.doAddService s h isolated memory with ⟨failed, bs'⟩
    simp only [Manager.serve, outcome]
    rcases doAddService_cases wf outcome with ⟨rfl, rfl, -⟩ | ⟨rfl, -⟩ | ⟨rfl, -⟩
    · exact .inl ⟨rfl, by simp⟩
    · exact .inr ⟨s, h, isolated, rfl, rfl, outcome⟩
    · exact .inr ⟨s, h, isolated, rfl, rfl, outcome⟩
  | list n =>
    refine .inl ⟨?_, by simp⟩
    simp only [Manager.serve]
    split <;> rfl
  | _ => exact .inl ⟨rfl, by simp⟩

theorem effect_of_deliver (wf : Wf bs) {l : Return × ℤ} (step : Deliver bs l bs') :
    Effect bs l bs' := by
  rcases l with ⟨command, result⟩
  cases command with
  | transaction txn stack memory =>
    have cases' := serve_records wf (bioInit stack.rdata 256 4) memory txn.request
    rw [Deliver, Manager.deliver, Manager.transaction, svcmgrHandler_eq] at step
    generalize bs.serve (bioInit stack.rdata 256 4) memory txn.request = served at step cases'
    obtain ⟨res, reply, mid⟩ := served
    obtain ⟨rfl, rfl⟩ := Prod.mk.inj step
    obtain ⟨records, more, quiet, written⟩ := sendReply_records mid reply txn.buffer res
    rcases cases' with ⟨same, other⟩ | ⟨s, h, isolated, request, done, outcome⟩
    · have none : registers (.transaction txn stack memory, res) = none := by
        unfold registers
        split
        · next equal =>
          obtain ⟨command, done⟩ := Prod.mk.inj equal
          obtain ⟨rfl, -, -⟩ := Return.transaction.inj command
          split
          · next request => exact absurd request (other done _ _ _)
          · rfl
        · rfl
      exact .none more quiet none (by simp) (records.trans (congrArg _ same))
        (written.trans (congrArg (·.written ++ more) same))
    · obtain rfl : res = 0 := done
      have registered : registers (.transaction txn stack memory, 0) = some (s, h) := by
        rw [registers, request]
      rcases doAddService_cases wf outcome with
        ⟨failed, -⟩ | ⟨-, registrable, si, rfl, stores, put⟩ | ⟨-, registrable, fresh, -, place, put⟩
      · exact absurd failed (by decide)
      · obtain ⟨left, right, before, after⟩ := stores
        exact .replaced si h more quiet registered registrable
          ⟨left, right, before, records.trans after⟩ (written.trans (congrArg (· ++ more) put))
      · exact .added s h isolated more quiet registered registrable fresh (records.trans place)
          (written.trans (congrArg (· ++ more) put))
  | deadBinder cookie =>
    obtain ⟨rfl, rfl⟩ := Prod.mk.inj step
    rcases svcinfoDeath_cases wf cookie with ⟨same, dead⟩ | ⟨si, rfl, used, stored, put⟩
    · refine .none [] (by simp [Quiet]) rfl (fun si member here => ?_) (by rw [same])
        (by rw [same, List.append_nil])
      exact dead si member (Return.deadBinder.inj here).symm
    · exact .died si rfl used stored put
  | _ =>
    obtain ⟨rfl, rfl⟩ := Prod.mk.inj step
    exact .none [] (by simp [Quiet]) rfl (by simp) rfl (List.append_nil _).symm

/-! ### The records in every state -/

theorem getRef_lt (bio : BinderIo) : bio.getRef.1 < 2 ^ 32 := by
  rw [BinderIo.getRef]
  split
  · next obj rest _ =>
    have narrow : (slice rest.data0 (obj + 8) 4).length ≤ 4 := List.length_take_le ..
    split_ifs
    · exact (ofLe_lt _).trans_le (Nat.pow_le_pow_right (by decide) narrow)
    · exact Nat.two_pow_pos 32
  · exact Nat.two_pow_pos 32

/-- A handle of a message is a word. -/
theorem registers_lt {l : Return × ℤ} {s : Units} {h : ℕ} (registered : registers l = some (s, h)) :
    h < 2 ^ 32 := by
  have read : ∀ code bio s h isolated, Request.read code bio = .add s h isolated → h < 2 ^ 32 := by
    intro code bio s h isolated request
    rw [Request.read] at request
    split at request
    · split at request <;> cases request
    · split at request
      · split at request
        · cases request
          exact getRef_lt _
        · cases request
      · split at request <;> cases request
  unfold registers at registered
  split at registered
  · next txn _ _ =>
    split at registered
    · next request =>
      cases registered
      rw [Txn.request] at request
      split at request
      · cases request
      · split at request
        · cases request
        · split at request
          · split at request
            · exact read _ _ _ _ _ request
            · cases request
          · cases request
    · cases registered
  · cases registered

theorem Wf.stores (wf : Wf bs) {si : Svcinfo} {handle : ℕ} (stores : Stores bs bs' si handle)
    (word : handle < 2 ^ 32) : Wf bs' := by
  obtain ⟨left, right, before, after⟩ := stores
  obtain ⟨places, names, bounds, words⟩ := wf
  have each : ∀ d ∈ bs'.svclist, d ∈ bs.svclist ∨ d = { si with handle } := by
    intro d member
    rw [after, List.mem_append, List.mem_cons] at member
    rcases member with left' | rfl | right'
    · exact .inl (by simp [before, left'])
    · exact .inr rfl
    · exact .inl (by simp [before, right'])
  refine ⟨?_, ?_, ?_, ?_⟩
  · simpa [before, after] using places
  · simpa [before, after] using names
  · intro d member
    rcases each d member with older | rfl
    · exact bounds d older
    · exact bounds si (by simp [before])
  · intro d member
    rcases each d member with older | rfl
    · exact words d older
    · exact word

theorem Wf.deliver (wf : Wf bs) {l : Return × ℤ} (step : Deliver bs l bs') : Wf bs' := by
  cases effect_of_deliver wf step with
  | none _ _ _ _ records =>
    obtain ⟨places, names, bounds, words⟩ := wf
    exact ⟨by rwa [records], by rwa [records], by rwa [records], by rwa [records]⟩
  | died _ _ _ stores => exact wf.stores stores (by decide)
  | replaced _ _ _ _ registered _ stores => exact wf.stores stores (registers_lt registered)
  | added s h isolated _ _ registered registrable fresh records =>
    obtain ⟨places, names, bounds, words⟩ := wf
    refine ⟨?_, ?_, ?_, ?_⟩
    · rw [records, List.map_cons, places, List.length_cons, List.range_succ, List.reverse_append]
      rfl
    · rw [records, List.map_cons, List.nodup_cons]
      refine ⟨?_, names⟩
      intro member
      obtain ⟨si, there, same⟩ := List.mem_map.mp member
      exact fresh si there same
    · rw [records]
      simpa using ⟨registrable.2, bounds⟩
    · rw [records]
      simpa using ⟨registers_lt registered, words⟩

/-- What never changes in a record. -/
def Svcinfo.key (si : Svcinfo) : Units × ℕ := (si.name, si.death)

/-- Records are only added, at the front. -/
theorem grows_deliver (wf : Wf bs) {l : Return × ℤ} (step : Deliver bs l bs') :
    ∃ added, bs'.svclist.map Svcinfo.key = added ++ bs.svclist.map Svcinfo.key := by
  have stored : ∀ {si handle}, Stores bs bs' si handle →
      bs'.svclist.map Svcinfo.key = bs.svclist.map Svcinfo.key := by
    rintro si handle ⟨left, right, before, after⟩
    simp [before, after, Svcinfo.key]
  cases effect_of_deliver wf step with
  | none _ _ _ _ records => exact ⟨[], by rw [records, List.nil_append]⟩
  | died _ _ _ stores => exact ⟨[], stored stores⟩
  | replaced _ _ _ _ _ _ stores => exact ⟨[], stored stores⟩
  | added s h _ _ _ _ _ _ records => exact ⟨[(s, bs.svclist.length)], by rw [records]; rfl⟩

theorem grows_run (wf : Wf bs) {ls : List (Return × ℤ)} (run : Run Deliver bs ls bs') :
    Wf bs' ∧ ∃ added, bs'.svclist.map Svcinfo.key = added ++ bs.svclist.map Svcinfo.key := by
  induction run with
  | nil => exact ⟨wf, [], rfl⟩
  | cons step _ ih =>
    obtain ⟨first, grown⟩ := grows_deliver wf step
    obtain ⟨wf', more, later⟩ := ih (wf.deliver step)
    exact ⟨wf', more ++ first, by rw [later, grown, List.append_assoc]⟩

theorem wf_start : Wf start := ⟨rfl, .nil, by simp [start], by simp [start]⟩

/-- The references to a service and the requests for the notification of its death. -/
structure Accounted (bs : Manager) : Prop where
  balance : ∀ h ≠ 0, bs.written.count (.acquire h) =
    bs.written.count (.release h) + bs.svclist.countP fun si => si.handle = h
  watched : ∀ si ∈ bs.svclist, si.handle ≠ 0 →
    .requestDeathNotification si.handle si.death ∈ bs.written

theorem Quiet.count {more : List Command} (quiet : Quiet more) (h : ℕ) :
    more.count (.acquire h) = 0 ∧ more.count (.release h) = 0 :=
  ⟨List.count_eq_zero.mpr (quiet h).1, List.count_eq_zero.mpr (quiet h).2⟩

theorem count_takes (si : Svcinfo) (handle : ℕ) {h : ℕ} (notZero : h ≠ 0) :
    (takes si handle).count (.acquire h) = (if handle = h then 1 else 0) ∧
      (takes si handle).count (.release h) = if si.handle = h then 1 else 0 := by
  rw [takes]
  split_ifs with used _ same <;> simp_all

/-- A handle is moved out of a record and another one into it. -/
theorem Stores.countP {si : Svcinfo} {handle : ℕ} (stores : Stores bs bs' si handle) (h : ℕ) :
    bs'.svclist.countP (fun d => d.handle = h) + (if si.handle = h then 1 else 0) =
      bs.svclist.countP (fun d => d.handle = h) + if handle = h then 1 else 0 := by
  obtain ⟨left, right, before, after⟩ := stores
  rw [before, after, List.countP_append, List.countP_append, List.countP_cons, List.countP_cons]
  simp only [decide_eq_true_eq]
  omega

theorem Stores.watched {si : Svcinfo} {handle : ℕ} (stores : Stores bs bs' si handle)
    (kept : ∀ command ∈ bs.written, command ∈ bs'.written)
    (here : handle ≠ 0 → .requestDeathNotification handle si.death ∈ bs'.written)
    (watched : ∀ d ∈ bs.svclist, d.handle ≠ 0 →
      .requestDeathNotification d.handle d.death ∈ bs.written) :
    ∀ d ∈ bs'.svclist, d.handle ≠ 0 → .requestDeathNotification d.handle d.death ∈ bs'.written := by
  obtain ⟨left, right, before, after⟩ := stores
  intro d member used
  rw [after, List.mem_append, List.mem_cons] at member
  rcases member with left' | rfl | right'
  · exact kept _ (watched d (by simp [before, left']) used)
  · exact here used
  · exact kept _ (watched d (by simp [before, right']) used)

theorem Accounted.deliver (accounted : Accounted bs) (wf : Wf bs) {l : Return × ℤ}
    (step : Deliver bs l bs') : Accounted bs' := by
  obtain ⟨balance, watched⟩ := accounted
  cases effect_of_deliver wf step with
  | none more quiet _ _ records written =>
    refine ⟨fun h used => ?_, ?_⟩
    · have := balance h used
      have counts := quiet.count h
      rw [written, records, List.count_append, List.count_append, counts.1, counts.2]
      omega
    · rw [records, written]
      exact fun si member used => List.mem_append_left _ (watched si member used)
  | died si _ used stores written =>
    refine ⟨fun h notZero => ?_, ?_⟩
    · have := balance h notZero
      have moved := stores.countP h
      rw [if_neg notZero.symm] at moved
      rw [written, List.count_append, List.count_append, List.count_singleton, List.count_singleton]
      simp only [beq_iff_eq, reduceCtorEq, if_false, Command.release.injEq]
      split_ifs at moved ⊢ <;> omega
    · exact stores.watched (by simp +contextual [written]) (absurd rfl) watched
  | replaced si handle more quiet _ registrable stores written =>
    refine ⟨fun h notZero => ?_, ?_⟩
    · have := balance h notZero
      have moved := stores.countP h
      have counts := quiet.count h
      have taken := count_takes si handle notZero
      rw [written]
      simp only [List.count_append, counts.1, counts.2, taken.1, taken.2]
      omega
    · exact stores.watched (by simp +contextual [written]) (by simp [written, takes]) watched
  | added s handle isolated more quiet _ registrable fresh records written =>
    refine ⟨fun h notZero => ?_, ?_⟩
    · have := balance h notZero
      have counts := quiet.count h
      have acquired : [Command.acquire handle,
          .requestDeathNotification handle bs.svclist.length].count (.acquire h) =
            if handle = h then 1 else 0 := by simp [List.count_cons]
      have released : [Command.acquire handle,
          .requestDeathNotification handle bs.svclist.length].count (.release h) = 0 := by simp
      rw [written, records, List.countP_cons]
      simp only [List.count_append, counts.1, counts.2, acquired, released, decide_eq_true_eq]
      omega
    · rw [records, written]
      intro si member used
      rcases List.mem_cons.mp member with rfl | older
      · simp
      · exact List.mem_append_left _ (List.mem_append_left _ (watched si older used))

/-! ### The name of a service -/

theorem doFindService_eq (wf : Wf bs) {si : Svcinfo} (member : si ∈ bs.svclist) :
    bs.doFindService si.name = si.handle := by
  rw [Manager.doFindService, findSvc]
  cases found : bs.svclist.find? fun d => d.name == si.name with
  | none => simpa using List.find?_eq_none.mp found si member
  | some d =>
    have same : d.name = si.name := by simpa using List.find?_some found
    have one := List.inj_on_of_nodup_map wf.names (List.mem_of_find?_eq_some found) member same
    rw [one]

theorem doFindService_none {s : Units} (unnamed : ∀ si ∈ bs.svclist, si.name ≠ s) :
    bs.doFindService s = 0 := by
  have none : findSvc bs.svclist s = none := List.find?_eq_none.mpr (by simpa using unnamed)
  rw [Manager.doFindService, none]

theorem Stores.mem {si : Svcinfo} {handle : ℕ} (stores : Stores bs bs' si handle) :
    si ∈ bs.svclist ∧ { si with handle } ∈ bs'.svclist := by
  obtain ⟨left, right, before, after⟩ := stores
  exact ⟨by simp [before], by simp [after]⟩

theorem Stores.find_other {si : Svcinfo} {handle : ℕ} (stores : Stores bs bs' si handle)
    {s : Units} (other : si.name ≠ s) : bs'.doFindService s = bs.doFindService s := by
  obtain ⟨left, right, before, after⟩ := stores
  simp [Manager.doFindService, findSvc, before, after, List.find?_append, other]

/-- The place of a record is where it was. -/
theorem Stores.place {si : Svcinfo} {handle : ℕ} (stores : Stores bs bs' si handle) {s : Units}
    {cookie : ℕ} (place : ∀ d ∈ bs'.svclist, d.name = s → d.death = cookie) :
    ∀ d ∈ bs.svclist, d.name = s → d.death = cookie := by
  obtain ⟨left, right, before, after⟩ := stores
  intro d member named
  rw [before, List.mem_append, List.mem_cons] at member
  rcases member with left' | rfl | right'
  · exact place d (by simp [after, left']) named
  · exact place { d with handle } (by simp [after]) named
  · exact place d (by simp [after, right']) named

/-- The command registers the name, or reports a death to the place of its record. -/
def concerns (s : Units) (cookie : ℕ) (l : Return × ℤ) : Bool :=
  (registers l).any (·.1 == s) ||
    match l.1 with
    | .deadBinder ptr => ptr == cookie
    | _ => false

theorem registers_deadBinder {l : Return × ℤ} {cookie : ℕ} (dead : l.1 = .deadBinder cookie) :
    registers l = none := by
  rcases l with ⟨command, result⟩
  obtain rfl : command = .deadBinder cookie := dead
  rfl

theorem concerns_registered {l : Return × ℤ} {name s : Units} {h cookie : ℕ}
    (registered : registers l = some (name, h)) : concerns s cookie l = (name == s) := by
  rw [concerns, registered]
  split
  · next dead => simp [registers_deadBinder dead] at registered
  · simp

theorem concerns_unregistered {l : Return × ℤ} {s : Units} {cookie : ℕ}
    (registered : registers l = none) : concerns s cookie l = true ↔ l.1 = .deadBinder cookie := by
  rw [concerns, registered]
  split
  · next dead => simp [dead]
  · next other => simpa using other cookie

/-- The service that a name stands for after the commands so far. -/
def lastRegistered (s : Units) (cookie : ℕ) (ls : List (Return × ℤ)) : ℕ :=
  ((latest (concerns s cookie) ls).bind registers).elim 0 Prod.snd

theorem lastRegistered_append (s : Units) (cookie : ℕ) (past : List (Return × ℤ)) (l : Return × ℤ) :
    lastRegistered s cookie (past ++ [l]) =
      if concerns s cookie l then ((registers l).map Prod.snd).getD 0
      else lastRegistered s cookie past := by
  rw [lastRegistered, latest_append, latest]
  cases here : concerns s cookie l with
  | false => simp [here, lastRegistered]
  | true => cases registered : registers l <;> simp [here, registered]

theorem lastRegistered_quiet {s : Units} {cookie : ℕ} {later : List (Return × ℤ)}
    (quiet : ∀ l ∈ later, concerns s cookie l = false) (past : List (Return × ℤ)) :
    lastRegistered s cookie (past ++ later) = lastRegistered s cookie past := by
  rw [lastRegistered, latest_append_none (latest_eq_none_iff.mpr quiet), ← lastRegistered]

theorem lastRegistered_registers {l : Return × ℤ} {s : Units} {h : ℕ}
    (registered : registers l = some (s, h)) (cookie : ℕ) (past : List (Return × ℤ)) :
    lastRegistered s cookie (past ++ [l]) = h := by
  rw [lastRegistered_append, concerns_registered registered, registered]
  simp

/-- A name stands for the last service registered under it, unless a death was reported to its record
since. -/
def Tracks (ls : List (Return × ℤ)) (bs : Manager) : Prop :=
  ∀ s cookie, (∀ si ∈ bs.svclist, si.name = s → si.death = cookie) →
    bs.doFindService s = lastRegistered s cookie ls

theorem Tracks.deliver {past : List (Return × ℤ)} (tracks : Tracks past bs) (wf : Wf bs)
    {l : Return × ℤ} (step : Deliver bs l bs') : Tracks (past ++ [l]) bs' := by
  have wf' := wf.deliver step
  intro s cookie place
  rw [lastRegistered_append]
  cases effect_of_deliver wf step with
  | none _ _ registered alive records =>
    have find : bs'.doFindService s = bs.doFindService s := by
      rw [Manager.doFindService, records, ← Manager.doFindService]
    rw [records] at place
    rw [find]
    split_ifs with here
    · rw [registered]
      rw [concerns_unregistered registered] at here
      by_cases named : ∃ si ∈ bs.svclist, si.name = s
      · obtain ⟨si, member, rfl⟩ := named
        rw [doFindService_eq wf member]
        exact alive si member (by rw [here, place si member rfl])
      · exact doFindService_none (by simpa using named)
    · exact tracks s cookie place
  | died si dead used stores =>
    have registered := registers_deadBinder dead
    have stored := doFindService_eq wf' stores.mem.2
    rw [registered]
    by_cases named : si.name = s
    · subst named
      have here : concerns si.name cookie l = true := by
        rw [concerns_unregistered registered, dead, place _ stores.mem.2 rfl]
      rw [if_pos here]
      exact stored
    · split_ifs with here
      · rw [concerns_unregistered registered, dead, Return.deadBinder.injEq] at here
        refine doFindService_none fun d member same => ?_
        have apart := List.inj_on_of_nodup_map wf'.nodup member stores.mem.2
          ((place d member same).trans here.symm)
        exact named (congrArg Svcinfo.name apart.symm |>.trans same)
      · rw [stores.find_other named]
        exact tracks s cookie (stores.place place)
  | replaced si h _ _ registered registrable stores =>
    rw [concerns_registered registered, registered]
    split_ifs with here
    · rw [← beq_iff_eq.mp here]
      exact doFindService_eq wf' stores.mem.2
    · rw [stores.find_other (by simpa using here)]
      exact tracks s cookie (stores.place place)
  | added name h isolated _ _ registered registrable fresh records =>
    rw [concerns_registered registered, registered]
    split_ifs with here
    · rw [← beq_iff_eq.mp here]
      have member : ⟨h, bs.svclist.length, isolated, name⟩ ∈ bs'.svclist := by simp [records]
      exact doFindService_eq wf' member
    · have other : ¬name = s := by simpa using here
      have find : bs'.doFindService s = bs.doFindService s := by
        simp [Manager.doFindService, findSvc, records, other]
      rw [find]
      exact tracks s cookie fun si member => place si (by simp [records, member])

/-- What holds of the service manager at any time. -/
theorem kept_run {ls : List (Return × ℤ)} (run : Run Deliver start ls bs) :
    Wf bs ∧ Accounted bs ∧ Tracks ls bs := by
  refine run.preserves_history (fun ls bs => Wf bs ∧ Accounted bs ∧ Tracks ls bs) ?_
    ⟨wf_start, ⟨by simp [start], by simp [start]⟩, fun s cookie _ => rfl⟩
  rintro past bs l bs' ⟨wf, accounted, tracks⟩ step
  exact ⟨wf.deliver step, accounted.deliver wf step, tracks.deliver wf step⟩

/-- Whatever the driver delivers, the service manager holds one strong reference for each record that
names a service, and has asked to be told of the death of that service. -/
theorem references_balanced (reads : List (List Return)) :
    Wf (start.binderLoop reads) ∧ Accounted (start.binderLoop reads) := by
  obtain ⟨ls, -, run⟩ := binderLoop_run start reads
  obtain ⟨wf, accounted, -⟩ := kept_run run
  exact ⟨wf, accounted⟩

end AmlCommonlib.ServiceManager
