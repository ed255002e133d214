import AmlCommonlib.Lib.Runs
import AmlCommonlib.ServiceManager.Manager

/-! # What a command does to the records

A message is read without regard to the records, so the handler is a function of the request that
the message holds. Every command leaves the records alone, stores one handle in one record, or adds
one record.
-/

namespace AmlCommonlib.ServiceManager

/-- What a message asks for. -/
inductive Request
  | refused
  | ping
  | find (name : Units)
  | add (name : Units) (handle : ℕ) (allowIsolated : Bool)
  | list (n : ℕ)
  deriving DecidableEq

/-- The request behind the interface name. -/
def Request.read (code : ℕ) (msg : BinderIo) : Request :=
  if code = SVC_MGR_GET_SERVICE ∨ code = SVC_MGR_CHECK_SERVICE then
    match msg.getString16 with
    | (some s, _) => .find s
    | (none, _) => .refused
  else if code = SVC_MGR_ADD_SERVICE then
    match msg.getString16 with
    | (some s, msg) => .add s msg.getRef.1 (msg.getRef.2.getUint32.1 ≠ 0)
    | (none, _) => .refused
  else if code = SVC_MGR_LIST_SERVICES then .list msg.getUint32.1
  else .refused

/-- The request of a message. -/
def Txn.request (txn : Txn) : Request :=
  if txn.target ≠ BINDER_SERVICE_MANAGER then .refused
  else if txn.code = PING_TRANSACTION then .ping
  else
    match (bioInitFromTxn txn).getUint32.2.getString16 with
    | (some id, msg) => if id = svcmgrId then .read txn.code msg else .refused
    | (none, _) => .refused

/-- The answer to a request. -/
def Manager.serve (bs : Manager) (reply : BinderIo) (memory : Bool) :
    Request → ℤ × BinderIo × Manager
  | .refused => (-1, reply, bs)
  | .ping => (0, reply, bs)
  | .find s =>
    (0, if bs.doFindService s = 0 then reply.putUint32 0 else reply.putRef (bs.doFindService s), bs)
  | .add s handle isolated =>
    let (failed, bs) := bs.doAddService s handle isolated memory
    if failed ≠ 0 then (-1, reply, bs) else (0, reply.putUint32 0, bs)
  | .list n =>
    match bs.svclist[n]? with
    | some si => (0, reply.putString16 si.name, bs)
    | none => (-1, reply, bs)

theorem svcmgrSwitch_eq (bs : Manager) (code : ℕ) (msg reply : BinderIo) (memory : Bool) :
    bs.svcmgrSwitch code msg reply memory = bs.serve reply memory (.read code msg) := by
  rw [Manager.svcmgrSwitch, Request.read]
  split
  · rcases msg.getString16 with ⟨_ | s, rest⟩
    · rfl
    · simp only [Manager.serve]
      split <;> rfl
  · split
    · rcases msg.getString16 with ⟨_ | s, rest⟩ <;> rfl
    · split <;> rfl

theorem svcmgrHandler_eq (bs : Manager) (txn : Txn) (reply : BinderIo) (memory : Bool) :
    bs.svcmgrHandler txn (bioInitFromTxn txn) reply memory = bs.serve reply memory txn.request := by
  rw [Manager.svcmgrHandler, Txn.request]
  split
  · rfl
  · split
    · rfl
    · simp only
      rcases (bioInitFromTxn txn).getUint32.2.getString16 with ⟨_ | id, msg⟩
      · rfl
      · simp only [ne_eq, ite_not, svcmgrSwitch_eq]
        split <;> rfl

/-! ### One record -/

section Records

variable {bs bs' : Manager}

/-- The records are numbered from the end of the list, and no two have one name. -/
structure Wf (bs : Manager) : Prop where
  places : bs.svclist.map (·.death) = (List.range bs.svclist.length).reverse
  names : (bs.svclist.map (·.name)).Nodup
  bounds : ∀ si ∈ bs.svclist, 0 < si.name.length ∧ si.name.length ≤ 127
  words : ∀ si ∈ bs.svclist, si.handle < 2 ^ 32

theorem Wf.nodup (wf : Wf bs) : (bs.svclist.map (·.death)).Nodup := by
  rw [wf.places]
  exact List.nodup_reverse.mpr List.nodup_range

/-- A handle is stored in one record. -/
theorem setHandle_split {left right : List Svcinfo} {si : Svcinfo}
    (nodup : (bs.svclist.map (·.death)).Nodup) (place : bs.svclist = left ++ si :: right)
    (handle : ℕ) : bs.setHandle si.death handle =
      { bs with svclist := left ++ { si with handle } :: right } := by
  rw [place, List.map_append, List.map_cons] at nodup
  obtain ⟨-, inner, apart⟩ := List.nodup_append.mp nodup
  have other : ∀ d ∈ left ++ right, d.death ≠ si.death := by
    intro d member same
    rcases List.mem_append.mp member with before | behind
    · exact apart _ (List.mem_map_of_mem before) _ (List.mem_cons_self ..) same
    · exact (List.nodup_cons.mp inner).1 (same ▸ List.mem_map_of_mem behind)
  have keep : ∀ part : List Svcinfo, part ⊆ left ++ right →
      part.map (fun d => if d.death = si.death then { d with handle } else d) = part := by
    intro part sub
    rw [List.map_congr_left (g := id), List.map_id]
    intro d member
    exact if_neg (other d (sub member))
  simp only [Manager.setHandle, place, List.map_append, List.map_cons,
    keep left (by simp), keep right (by simp), if_true]

/-- One record gets another handle. -/
def Stores (bs bs' : Manager) (si : Svcinfo) (handle : ℕ) : Prop :=
  ∃ left right, bs.svclist = left ++ si :: right ∧
    bs'.svclist = left ++ { si with handle } :: right

/-- The outcomes of a death notification. -/
theorem svcinfoDeath_cases (wf : Wf bs) (ptr : ℕ) :
    (bs.svcinfoDeath ptr = bs ∧ ∀ si ∈ bs.svclist, si.death = ptr → si.handle = 0) ∨
    ∃ si, si.death = ptr ∧ si.handle ≠ 0 ∧ Stores bs (bs.svcinfoDeath ptr) si 0 ∧
      (bs.svcinfoDeath ptr).written = bs.written ++ [.release si.handle] := by
  rw [Manager.svcinfoDeath]
  cases found : bs.svclist.find? fun si => si.death == ptr with
  | none =>
    refine .inl ⟨rfl, fun si member place => ?_⟩
    simpa [place] using List.find?_eq_none.mp found si member
  | some si =>
    have place : si.death = ptr := by simpa using List.find?_some found
    subst place
    have member := List.mem_of_find?_eq_some found
    simp only
    split_ifs with used
    · obtain ⟨left, right, split⟩ := List.append_of_mem member
      have stored := @setHandle_split (bs.write (.release si.handle)) _ _ _ wf.nodup split 0
      exact .inr ⟨si, rfl, used, ⟨left, right, split, by rw [stored]⟩, by rw [stored]; rfl⟩
    · refine .inl ⟨rfl, fun d there same => ?_⟩
      rw [List.inj_on_of_nodup_map wf.nodup there member same]
      exact not_not.mp used

/-- What is written when a record gets a handle; an older one is released before. -/
def takes (si : Svcinfo) (handle : ℕ) : List Command :=
  (if si.handle ≠ 0 then [.release si.handle] else []) ++
    [.acquire handle, .requestDeathNotification handle si.death]

/-- A handle and a name that can be registered. -/
def Registrable (s : Units) (handle : ℕ) : Prop := handle ≠ 0 ∧ 0 < s.length ∧ s.length ≤ 127

/-- The outcomes of a registration. -/
theorem doAddService_cases (wf : Wf bs) {s : Units} {handle : ℕ} {isolated memory : Bool}
    {failed : ℤ} (done : bs.doAddService s handle isolated memory = (failed, bs')) :
    (failed = -1 ∧ bs' = bs ∧
      (¬Registrable s handle ∨ (∀ si ∈ bs.svclist, si.name ≠ s) ∧ memory = false)) ∨
    (failed = 0 ∧ Registrable s handle ∧ ∃ si, si.name = s ∧ Stores bs bs' si handle ∧
      bs'.written = bs.written ++ takes si handle) ∨
    (failed = 0 ∧ Registrable s handle ∧ (∀ si ∈ bs.svclist, si.name ≠ s) ∧ memory = true ∧
      bs'.svclist = ⟨handle, bs.svclist.length, isolated, s⟩ :: bs.svclist ∧
      bs'.written = bs.written ++
        [.acquire handle, .requestDeathNotification handle bs.svclist.length]) := by
  rw [Manager.doAddService, findSvc] at done
  by_cases refused : handle = 0 ∨ s.length = 0 ∨ s.length > 127
  · rw [if_pos refused] at done
    obtain ⟨rfl, rfl⟩ := Prod.mk.inj done
    exact .inl ⟨rfl, rfl, .inl fun ⟨a, b, c⟩ => by omega⟩
  rw [if_neg refused] at done
  have registrable : Registrable s handle := by
    unfold Registrable
    omega
  cases found : bs.svclist.find? fun si => si.name == s with
  | none =>
    have fresh : ∀ si ∈ bs.svclist, si.name ≠ s := by simpa using found
    cases memory with
    | false =>
      rw [found] at done
      obtain ⟨rfl, rfl⟩ := Prod.mk.inj done
      exact .inl ⟨rfl, rfl, .inr ⟨fresh, rfl⟩⟩
    | true =>
      rw [found] at done
      obtain ⟨rfl, rfl⟩ := Prod.mk.inj done
      exact .inr (.inr ⟨rfl, registrable, fresh, rfl, rfl, by simp [Manager.write]⟩)
  | some si =>
    have named : si.name = s := by simpa using List.find?_some found
    have member := List.mem_of_find?_eq_some found
    obtain ⟨left, right, split⟩ := List.append_of_mem member
    rw [found] at done
    obtain ⟨rfl, rfl⟩ := Prod.mk.inj done
    refine .inr (.inl ⟨rfl, registrable, si, named, ?_⟩)
    rw [takes]
    split_ifs with used
    · rcases svcinfoDeath_cases wf si.death with ⟨-, dead⟩ | ⟨d, place, -, ⟨l, r, before, after⟩, put⟩
      · exact absurd (dead si member rfl) used
      · have same : d = si := by
          apply List.inj_on_of_nodup_map wf.nodup _ member place
          simp [before]
        subst same
        have nodup : ((bs.svcinfoDeath d.death).svclist.map (·.death)).Nodup := by
          rw [after]
          simpa [before] using wf.nodup
        have stored := setHandle_split nodup after handle
        exact ⟨⟨l, r, before, by simp [Manager.write, stored]⟩, by simp [Manager.write, stored, put]⟩
    · have stored := setHandle_split wf.nodup split handle
      exact ⟨⟨left, right, split, by simp [Manager.write, stored]⟩, by simp [Manager.write, stored]⟩

end Records

end AmlCommonlib.ServiceManager
