import AmlCommonlib.ServiceManager.Client

/-! # Clients and the service manager

The calls of a client between whatever else the driver delivers. A lookup finds the latest service
of the name, a registration is found by every later lookup, and a listing that other registrations
run into misses no service.
-/

namespace AmlCommonlib.ServiceManager

variable {d : Driver} {view : ℕ → Binder} {call : Call} {bs : Manager} {name : Units}

/-- No service has a longer name. -/
theorem doFindService_long (wf : Wf bs) (long : 127 < name.length) : bs.doFindService name = 0 := by
  refine doFindService_none fun si member named => ?_
  have := (wf.bounds si member).2
  rw [named] at this
  omega

theorem read_zero (d : Driver) (stack : Stack) :
    (d.received (stack.reply.putUint32 0)).readStrongBinder.1 = .null := by
  rw [Driver.received, sent_uint32]
  exact Parcel.readStrongBinder_none (show (leBytes 4 0).length < flatSize by decide)

/-- The reply to a lookup that finds a service. -/
theorem read_ref (delivers : d.Delivers view) {h : ℕ} (used : h ≠ 0) (word : h < 2 ^ 32)
    (stack : Stack) : (d.received (stack.reply.putRef h)).readStrongBinder.1 = view h := by
  obtain ⟨obj, type, handle, sent⟩ := @sent_ref stack h used word
  rw [Driver.received, sent, rewriteObjects_first, Parcel.readStrongBinder_object,
    delivers obj type, handle]

/-- A lookup is answered by the handle of the record, and changes no record. -/
theorem checkService_eq (wf : Wf bs) (delivers : d.Delivers view) (word : name.length < 2 ^ 32) :
    ∃ bs', bs'.svclist = bs.svclist ∧ checkService d call bs name =
      (if bs.doFindService name = 0 then .null else view (bs.doFindService name), bs') := by
  have handle : bs.doFindService name < 2 ^ 32 := by
    by_cases named : ∃ si ∈ bs.svclist, si.name = name
    · obtain ⟨si, member, rfl⟩ := named
      rw [doFindService_eq wf member]
      exact wf.words si member
    · rw [doFindService_none (by simpa using named)]
      exact Nat.two_pow_pos 32
  rw [checkService]
  rcases written_name call.policy.toNat name with written | ⟨written, long⟩
  · have asked := check_request d call word
    by_cases found : bs.doFindService name = 0
    · have served : bs.serve call.stack.reply call.memory (.find name) =
          (0, call.stack.reply.putUint32 0, bs) := by rw [Manager.serve, if_pos found]
      obtain ⟨bs', -, records, done⟩ := transact_served written asked served
      refine ⟨bs', records, ?_⟩
      rw [done, if_pos found]
      exact Prod.ext (read_zero d call.stack) rfl
    · have served : bs.serve call.stack.reply call.memory (.find name) =
          (0, call.stack.reply.putRef (bs.doFindService name), bs) := by
        rw [Manager.serve, if_neg found]
      obtain ⟨bs', -, records, done⟩ := transact_served written asked served
      refine ⟨bs', records, ?_⟩
      rw [done, if_neg found]
      exact Prod.ext (read_ref delivers found handle call.stack) rfl
  · have served : bs.serve call.stack.reply call.memory .refused = (-1, call.stack.reply, bs) := rfl
    obtain ⟨bs', -, records, done⟩ := transact_refused written (check_refused d call word) served
    refine ⟨bs', records, ?_⟩
    rw [done, if_pos (doFindService_long wf (by omega))]
    rfl

/-! ### Registrations -/

/-- The handle by which the service manager gets to know a service. -/
def Driver.handle (d : Driver) (service : Binder) : ℕ :=
  let obj := Parcel.flattenBinder service
  if obj.binder ≠ 0 ∧ (d.toManager obj).type = BINDER_TYPE_HANDLE then
    (d.toManager obj).handle.toNat
  else 0

/-- The parcel of a registration. -/
theorem written_add (call : Call) (short : name.length ≤ 127) (service : Binder) (isolated : Bool) :
    (((((({} : Parcel).writeInterfaceToken call.policy.toNat svcmgrId).2.writeString16 name).2
      ).writeStrongBinder service).2.writeInt32 (if isolated then 1 else 0)).2.Written
        (token call.policy.toNat ++ (string16 name ++ ((Parcel.flattenBinder service).encode ++
          leBytes 4 (if isolated then 1 else 0))))
        (if (Parcel.flattenBinder service).binder ≠ 0 then [64 + (string16 name).length] else []) := by
  have size : (string16 name).length < 300 := by
    have units : (unitBytes (name ++ [0])).length = 2 * (name.length + 1) := by
      rw [length_unitBytes, List.length_append, List.length_singleton]
    have bounds := padSize_bounds (show (unitBytes (name ++ [0])).length + 3 < 2 ^ 64 by omega)
    rw [string16, List.length_append, length_leBytes, length_padded (by omega)]
    omega
  rcases written_name call.policy.toNat name with written | ⟨-, long⟩
  · have object := written.writeObject (Parcel.flattenBinder service)
      (by rw [List.length_append, length_token, flatSize]; omega)
    have flag := (object.writeInt32 (if isolated then 1 else 0)
      (by simp only [List.length_append, length_token, length_encode, flatSize]; omega)).2
    rw [List.length_append, length_token, List.nil_append, List.append_assoc, List.append_assoc]
      at flag
    exact flag
  · omega

/-- A registration that the service manager has room for. -/
def Manager.Admits (bs : Manager) (name : Units) (handle : ℕ) (memory : Bool) : Prop :=
  Registrable name handle ∧ (memory = true ∨ ∃ si ∈ bs.svclist, si.name = name)

/-- The parcel of a registration under a name that is too long. -/
theorem written_add_long (call : Call) (name : Units) (service : Binder) (isolated : Bool) :
    ∃ front tail listed, (front = string16 name ∨ front = leBytes 4 name.length) ∧
      tail.length ≤ 28 ∧ (listed = [] ∨ listed = [(token call.policy.toNat ++ front).length]) ∧
      (((((({} : Parcel).writeInterfaceToken call.policy.toNat svcmgrId).2.writeString16 name).2
        ).writeStrongBinder service).2.writeInt32 (if isolated then 1 else 0)).2.Written
          (token call.policy.toNat ++ front ++ tail) listed := by
  obtain ⟨front, named, written⟩ : ∃ front, (front = string16 name ∨ front = leBytes 4 name.length) ∧
      ((({} : Parcel).writeInterfaceToken call.policy.toNat svcmgrId).2.writeString16 name).2.Written
        (token call.policy.toNat ++ front) [] := by
    rcases written_name call.policy.toNat name with written | ⟨written, -⟩
    · exact ⟨_, .inl rfl, written⟩
    · exact ⟨_, .inr rfl, written⟩
  obtain ⟨object, listed, few, behind, written⟩ :=
    written.writeObject_tail (Parcel.flattenBinder service)
  have positive : 0 < (leBytes 4 (if isolated then 1 else 0)).length := by simp
  obtain ⟨flag, more, written⟩ := written.restartWrite_tail positive
  rw [length_leBytes] at more
  rw [flatSize] at few
  refine ⟨front, object ++ flag, listed, named, by rw [List.length_append]; omega, behind, ?_⟩
  rw [← List.append_assoc]
  exact written

theorem serve_add_refused {memory : Bool} {h : ℕ} {isolated : Bool} (reply : BinderIo)
    (refused : ¬Registrable name h) :
    bs.serve reply memory (.add name h isolated) = (-1, reply, bs) := by
  have bad : h = 0 ∨ name.length = 0 ∨ name.length > 127 := by
    unfold Registrable at refused
    omega
  rw [Manager.serve, Manager.doAddService, if_pos bad]
  rfl

theorem registers_refused (command : Return) : registers (command, -1) = none := by
  cases command <;> rfl

theorem readExceptionCode_zero (d : Driver) (stack : Stack) :
    (d.received (stack.reply.putUint32 0)).readExceptionCode = NO_ERROR := by
  have front := @Parcel.readInt32_front 0 (by decide) []
  rw [List.append_nil] at front
  rw [Driver.received, sent_uint32, Parcel.readExceptionCode, rewriteObjects, List.foldl_nil, front]
  rfl

/-- A registration is made if the service manager admits it, and refused without effect
otherwise. -/
theorem addService_eq (wf : Wf bs) (word : name.length < 2 ^ 32) (service : Binder)
    (isolated : Bool) : ∃ l bs', Deliver bs l bs' ∧
      addService d call bs name service isolated = (l.2, bs') ∧
      (bs.Admits name (d.handle service) call.memory ∧ l.2 = 0 ∧
          registers l = some (name, d.handle service) ∨
        ¬bs.Admits name (d.handle service) call.memory ∧ l.2 = -1 ∧ registers l = none ∧
          bs'.svclist = bs.svclist) := by
  rw [addService]
  rcases Nat.lt_or_ge 127 name.length with long | short
  · have refused : ∀ h, ¬Registrable name h := fun h fits => by
      have := fits.2.2
      omega
    obtain ⟨front, tail, listed, named, few, behind, written⟩ :=
      written_add_long call name service isolated
    have served : ∃ request, (d.message call ADD_SERVICE_TRANSACTION
        (token call.policy.toNat ++ front ++ tail) listed).request = request ∧
        bs.serve call.stack.reply call.memory request = (-1, call.stack.reply, bs) := by
      rcases add_request_long d call word long behind few named with ⟨h, isolated, asked⟩ | asked
      · exact ⟨_, asked, serve_add_refused _ (refused h)⟩
      · exact ⟨_, asked, rfl⟩
    obtain ⟨request, asked, served⟩ := served
    obtain ⟨bs', delivered, records, done⟩ := transact_refused written asked served
    refine ⟨_, bs', delivered, ?_, .inr ⟨fun admits => refused _ admits.1, rfl,
      registers_refused _, records⟩⟩
    simp only [done]
    rfl
  · have written := written_add call short service isolated
    by_cases null : (Parcel.flattenBinder service).binder ≠ 0
    · rw [if_pos null] at written
      have asked := add_request d call word (Parcel.flattenBinder service) isolated
      have same : (if (d.toManager (Parcel.flattenBinder service)).type = BINDER_TYPE_HANDLE then
          (d.toManager (Parcel.flattenBinder service)).handle.toNat else 0) = d.handle service := by
        simp [Driver.handle, null]
      rw [same] at asked
      rcases outcome : bs.doAddService name (d.handle service) isolated call.memory with ⟨failed, mid⟩
      have made : failed = 0 ∧ bs.Admits name (d.handle service) call.memory ∨
          failed = -1 ∧ mid = bs ∧ ¬bs.Admits name (d.handle service) call.memory := by
        rcases doAddService_cases wf outcome with ⟨bad, rfl, refused | ⟨fresh, full⟩⟩ |
          ⟨good, fits, si, named, stores, -⟩ | ⟨good, fits, -, room, -⟩
        · exact .inr ⟨bad, rfl, fun admits => refused admits.1⟩
        · refine .inr ⟨bad, rfl, fun ⟨_, room⟩ => ?_⟩
          rcases room with room | ⟨si, member, named⟩
          · simp [full] at room
          · exact fresh si member named
        · exact .inl ⟨good, fits, .inr ⟨si, stores.mem.1, named⟩⟩
        · exact .inl ⟨good, fits, .inl room⟩
      rcases made with ⟨rfl, admits⟩ | ⟨rfl, rfl, refused⟩
      · have served : bs.serve call.stack.reply call.memory (.add name (d.handle service) isolated) =
            (0, call.stack.reply.putUint32 0, mid) := by
          rw [Manager.serve, outcome]
          rfl
        obtain ⟨bs', delivered, -, done⟩ := transact_served written asked served
        refine ⟨_, bs', delivered, ?_, .inl ⟨admits, rfl, ?_⟩⟩
        · simp only [done, if_true, readExceptionCode_zero]
          rfl
        · rw [Driver.delivery, registers, asked]
      · have served : mid.serve call.stack.reply call.memory
            (.add name (d.handle service) isolated) = (-1, call.stack.reply, mid) := by
          rw [Manager.serve, outcome]
          rfl
        obtain ⟨bs', delivered, records, done⟩ := transact_refused written asked served
        refine ⟨_, bs', delivered, ?_, .inr ⟨refused, rfl, registers_refused _, records⟩⟩
        simp only [done]
        rfl
    · rw [if_neg null] at written
      have zero : d.handle service = 0 := by
        rw [Driver.handle]
        simp [not_not.mp null]
      have refused : ¬Registrable name 0 := fun fits => fits.1 rfl
      obtain ⟨flag, asked⟩ := add_request_null d call word ((Parcel.flattenBinder service).encode ++
        leBytes 4 (if isolated then 1 else 0))
      obtain ⟨bs', delivered, records, done⟩ :=
        transact_refused written asked (serve_add_refused _ refused)
      refine ⟨_, bs', delivered, ?_, .inr ⟨fun admits => refused (zero ▸ admits.1), rfl,
        registers_refused _, records⟩⟩
      simp only [done]
      rfl

/-- A lookup at any time finds the service that was last registered under the name and has not been
reported dead since. -/
theorem checkService_latest {ls : List (Return × ℤ)} (run : Run Deliver start ls bs)
    (delivers : d.Delivers view) (word : name.length < 2 ^ 32) {cookie : ℕ}
    (place : ∀ si ∈ bs.svclist, si.name = name → si.death = cookie) (call : Call) :
    (checkService d call bs name).1 =
      if lastRegistered name cookie ls = 0 then .null else view (lastRegistered name cookie ls) := by
  obtain ⟨wf, -, tracks⟩ := kept_run run
  obtain ⟨bs', -, done⟩ := @checkService_eq d view call bs name wf delivers word
  rw [done, tracks name cookie place]

/-! A driver that knows a service by its cookie, and one registered service. -/

def sampleDriver : Driver where
  toManager obj := ⟨BINDER_TYPE_HANDLE, obj.flags, obj.cookie, 0⟩
  fromManager obj := ⟨BINDER_TYPE_HANDLE, obj.flags, obj.handle.toUInt64, 0⟩

def sampleCall : Call := ⟨0, ⟨List.replicate 256 0, List.length_replicate⟩, true, 0⟩

/-- The service manager after a registration. -/
def register (bs : Manager) (name : Units) (service : UInt64) : Manager :=
  (addService sampleDriver sampleCall bs name (.localBinder 1 service) false).2

theorem sampleDriver_delivers :
    sampleDriver.Delivers fun h => .remoteBinder (UInt32.ofNat h) := by
  intro obj _
  have low : obj.handle.toUInt64.toUInt32 = obj.handle := by
    apply UInt32.toNat_inj.mp
    rw [UInt64.toNat_toUInt32, UInt32.toNat_toUInt64]
    exact Nat.mod_eq_of_lt obj.handle.toNat_lt
  change Binder.remoteBinder obj.handle.toUInt64.toUInt32 =
    .remoteBinder (UInt32.ofNat obj.handle.toNat)
  rw [low, UInt32.ofNat_toNat]

theorem register_step (bs : Manager) (wf : Wf bs) {name : Units} (word : name.length < 2 ^ 32)
    (service : UInt64)
    (admits : bs.Admits name (sampleDriver.handle (.localBinder 1 service)) true) :
    ∃ l, Deliver bs l (register bs name service) ∧
      registers l = some (name, sampleDriver.handle (.localBinder 1 service)) := by
  obtain ⟨l, bs', step, done, ⟨-, -, registered⟩ | ⟨refused, -⟩⟩ :=
    @addService_eq sampleDriver sampleCall bs name wf word (.localBinder 1 service) false
  · refine ⟨l, ?_, registered⟩
    rw [register, done]
    exact step
  · exact absurd admits refused

theorem checkService_latest_registered :
    (checkService sampleDriver sampleCall (register start [97, 98] 7) [97, 98]).1 =
      .remoteBinder 7 := by
  let name : Units := [97, 98]
  have admits : start.Admits name (sampleDriver.handle (.localBinder 1 7)) true :=
    ⟨⟨by decide, by decide, by decide⟩, .inl rfl⟩
  obtain ⟨l, step, made⟩ := register_step start wf_start (by decide) 7 admits
  have place : ∀ si ∈ (register start name 7).svclist, si.name = name → si.death = 0 := by
    decide +kernel
  have last : lastRegistered name 0 [l] = 7 := lastRegistered_registers made 0 []
  have found := checkService_latest (.cons step (.nil _)) sampleDriver_delivers
    (show name.length < 2 ^ 32 by decide) place sampleCall
  rw [last] at found
  exact found

/-- The place of a record stays what it is. -/
theorem place_run (wf : Wf bs) {ls : List (Return × ℤ)} {bs' : Manager} (run : Run Deliver bs ls bs')
    {si : Svcinfo} (member : si ∈ bs.svclist) :
    ∀ d ∈ bs'.svclist, d.name = si.name → d.death = si.death := by
  obtain ⟨wf', added, grown⟩ := grows_run wf run
  have kept : si.key ∈ bs'.svclist.map Svcinfo.key := by
    rw [grown]
    exact List.mem_append_right _ (List.mem_map_of_mem member)
  obtain ⟨d', there, same⟩ := List.mem_map.mp kept
  obtain ⟨named, place⟩ := Prod.mk.inj same
  intro d member' named'
  rw [List.inj_on_of_nodup_map wf'.names member' there (named'.trans named.symm), place]

/-- A registration from a client is found by every client, until the name is registered again or a
death is reported to its record. -/
theorem addService_found {ls : List (Return × ℤ)} (run : Run Deliver start ls bs)
    (word : name.length < 2 ^ 32) {service : Binder}
    (admits : bs.Admits name (d.handle service) call.memory) (isolated : Bool) :
    ∃ bs₁ cookie, addService d call bs name service isolated = (NO_ERROR, bs₁) ∧
      ∀ later bs₂, Run Deliver bs₁ later bs₂ → (∀ l ∈ later, concerns name cookie l = false) →
        ∀ (d' : Driver) (view' : ℕ → Binder), d'.Delivers view' → ∀ call',
          (checkService d' call' bs₂ name).1 = view' (d.handle service) := by
  obtain ⟨wf, -⟩ := kept_run run
  obtain ⟨l, bs₁, step, done, made⟩ := @addService_eq d call bs name wf word service isolated
  rcases made with ⟨-, status, registered⟩ | ⟨refused, -⟩
  · have reached : Run Deliver start (ls ++ [l]) bs₁ :=
      Run.append_iff.mpr ⟨bs, run, .cons step (.nil _)⟩
    obtain ⟨wf₁, -, tracks₁⟩ := kept_run reached
    have recorded : ∃ si ∈ bs₁.svclist, si.name = name := by
      by_contra unnamed
      have nobody : ∀ si ∈ bs₁.svclist, si.name ≠ name := by simpa using unnamed
      have found := tracks₁ name 0 fun si member named => absurd named (nobody si member)
      rw [doFindService_none nobody, lastRegistered_registers registered] at found
      exact admits.1.1 found.symm
    obtain ⟨si, member, rfl⟩ := recorded
    refine ⟨bs₁, si.death, by rw [done, status]; rfl, ?_⟩
    intro later bs₂ after quiet d' view' delivers call'
    have whole : Run Deliver start (ls ++ [l] ++ later) bs₂ :=
      Run.append_iff.mpr ⟨bs₁, reached, after⟩
    rw [checkService_latest whole delivers word (place_run wf₁ after member),
      lastRegistered_quiet quiet, lastRegistered_registers registered, if_neg admits.1.1]
  · exact absurd admits refused

/-- A name that was registered before, beside another one, is registered again. -/
theorem addService_found_again : ∃ bs₁ cookie,
    addService sampleDriver sampleCall (register (register start [97] 5) [97, 98] 6) [97, 98]
        (.localBinder 1 7) true = (NO_ERROR, bs₁) ∧
      ∀ later bs₂, Run Deliver bs₁ later bs₂ →
        (∀ l ∈ later, concerns [97, 98] cookie l = false) →
          ∀ (d' : Driver) (view' : ℕ → Binder), d'.Delivers view' → ∀ call',
            (checkService d' call' bs₂ [97, 98]).1 =
              view' (sampleDriver.handle (.localBinder 1 7)) := by
  obtain ⟨first, step, -⟩ := @register_step start wf_start [97] (by decide) 5
    ⟨⟨by decide, by decide, by decide⟩, .inl rfl⟩
  have before := kept_run (.cons step (.nil _))
  obtain ⟨second, step', -⟩ := @register_step (register start [97] 5) before.1 [97, 98] (by decide) 6
    ⟨⟨by decide, by decide, by decide⟩, .inl rfl⟩
  exact addService_found (.cons step (.cons step' (.nil _))) (by decide)
    ⟨⟨by decide, by decide, by decide⟩, .inl rfl⟩ true

/-- The death of a service that was replaced takes the name from the one that replaced it: both have
the place of the record for their cookie. -/
example : (checkService sampleDriver sampleCall
    ((register (register start [97] 7) [97] 8).svcinfoDeath 0) [97]).1 = .null := by
  decide +kernel

end AmlCommonlib.ServiceManager
