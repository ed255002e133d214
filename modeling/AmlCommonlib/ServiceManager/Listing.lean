import AmlCommonlib.ServiceManager.ClientRuns

/-! # Listings

`listServices` asks for one service a call, so registrations run into a listing. New records come in
front of the ones that are still to be asked for, which moves them back but past no call.
-/

namespace AmlCommonlib.ServiceManager

variable {d : Driver} {call : Call} {bs bs' : Manager} {n : ℕ} {name : Units} {names : List Units}

/-- A name as a listing shows it: up to its first zero, and nothing of a text that no reply holds. -/
def shown (name : Units) : Units :=
  if (name.takeWhile (· ≠ 0)).length ≤ 109 then name.takeWhile (· ≠ 0) else []

theorem read_shown (d : Driver) (stack : Stack) (short : name.length ≤ 127) :
    (d.received (stack.reply.putString16 name)).readString16.1 = shown name := by
  have bound := (List.takeWhile_prefix (l := name) (· ≠ (0 : UInt16))).length_le
  rw [Driver.received, shown]
  split_ifs with fits
  · obtain ⟨padding, pad, sent⟩ := @sent_string16 stack name _ rfl fits
    rw [sent, rewriteObjects, List.foldl_nil]
    exact Parcel.readString16_sent (by omega) pad
  · rw [@sent_string16_long stack name _ rfl (by omega) (by omega), rewriteObjects, List.foldl_nil]
    exact Parcel.readString16_short (by omega)

/-- One call of a listing. -/
theorem listService_eq (wf : Wf bs) (word : n < 2 ^ 32) :
    ∃ l bs', Deliver bs l bs' ∧ bs'.svclist = bs.svclist ∧
      listService d call bs n = (bs.svclist[n]?.map fun si => shown si.name, bs') := by
  obtain ⟨-, written⟩ := (@written_token call.policy.toNat).writeInt32 n
    (by rw [length_token]; decide)
  have asked := list_request d call word
  rw [listService]
  cases found : bs.svclist[n]? with
  | none =>
    have served : bs.serve call.stack.reply call.memory (.list n) = (-1, call.stack.reply, bs) := by
      rw [Manager.serve, found]
    obtain ⟨bs', delivered, records, done⟩ := transact_refused written asked served
    exact ⟨_, bs', delivered, records, by simp only [done]; rfl⟩
  | some si =>
    have served : bs.serve call.stack.reply call.memory (.list n) =
        (0, call.stack.reply.putString16 si.name, bs) := by rw [Manager.serve, found]
    obtain ⟨bs', delivered, records, done⟩ := transact_served written asked served
    refine ⟨_, bs', delivered, records, ?_⟩
    have short := (wf.bounds si (List.mem_of_getElem? found)).2
    simp only [done, if_true, read_shown d call.stack short, Option.map_some]

/-- The loop of `listServices` from a call on, with what other processes do in between. -/
inductive Listing (d : Driver) : ℕ → Manager → List Units → Manager → Prop
  | ends {n : ℕ} {call : Call} {bs bs' : Manager}
      (done : listService d call bs n = (none, bs')) : Listing d n bs [] bs'
  | next {n : ℕ} {call : Call} {bs mid bs₁ bs₂ : Manager} {name : Units} {names : List Units}
      {others : List (Return × ℤ)} (found : listService d call bs n = (some name, mid))
      (between : Run Deliver mid others bs₁) (rest : Listing d (n + 1) bs₁ names bs₂) :
      Listing d n bs (name :: names) bs₂

/-- New records come in front of the old ones. -/
theorem grown_drop (wf : Wf bs) {ls : List (Return × ℤ)} (run : Run Deliver bs ls bs') {si : Svcinfo}
    (member : si ∈ bs.svclist.drop n) : ∃ si' ∈ bs'.svclist.drop n, si'.name = si.name := by
  obtain ⟨-, added, grown⟩ := grows_run wf run
  have behind : (bs.svclist.map Svcinfo.key).drop n ⊆ (bs'.svclist.map Svcinfo.key).drop n := by
    rw [grown]
    have back : (bs.svclist.map Svcinfo.key).drop n =
        ((added ++ bs.svclist.map Svcinfo.key).drop n).drop added.length := by
      rw [List.drop_drop, Nat.add_comm n, ← List.drop_drop, List.drop_left]
    rw [back]
    exact List.drop_subset ..
  have kept : si.key ∈ (bs'.svclist.map Svcinfo.key).drop n := by
    apply behind
    rw [← List.map_drop]
    exact List.mem_map_of_mem member
  rw [← List.map_drop] at kept
  obtain ⟨si', there, same⟩ := List.mem_map.mp kept
  exact ⟨si', there, (Prod.mk.inj same).1⟩

/-- What a listing still has to ask for is asked for. -/
theorem Listing.complete (listing : Listing d n bs names bs') (wf : Wf bs)
    (few : n + names.length < 2 ^ 32) :
    ∀ si ∈ bs.svclist.drop n, shown si.name ∈ names := by
  induction listing with
  | @ends n call bs bs' done =>
    obtain ⟨l, bs'', -, -, answer⟩ := @listService_eq d call bs n wf (by omega)
    have past : bs.svclist[n]? = none := by
      rw [answer] at done
      simpa using (Prod.mk.inj done).1
    rw [List.drop_of_length_le (List.getElem?_eq_none_iff.mp past)]
    simp
  | @next n call bs mid bs₁ bs₂ name names others found between rest ih =>
    rw [List.length_cons] at few
    obtain ⟨l, mid', delivered, records, answer⟩ := @listService_eq d call bs n wf (by omega)
    obtain ⟨asked, rfl⟩ := Prod.mk.inj (answer.symm.trans found)
    obtain ⟨si₀, here, rfl⟩ := Option.map_eq_some_iff.mp asked
    have wfMid := wf.deliver delivered
    have later := ih (grows_run wfMid between).1 (by omega)
    obtain ⟨inside, value⟩ := List.getElem?_eq_some_iff.mp here
    intro si member
    rw [List.drop_eq_getElem_cons inside, value, List.mem_cons] at member
    rcases member with rfl | behind
    · exact List.mem_cons_self ..
    · rw [← records] at behind
      obtain ⟨si', there, same⟩ := grown_drop wfMid between behind
      rw [← same]
      exact List.mem_cons_of_mem _ (later si' there)

/-- A listing is a run of the service manager. -/
theorem Listing.run (listing : Listing d n bs names bs') (wf : Wf bs)
    (few : n + names.length < 2 ^ 32) : ∃ ls, Run Deliver bs ls bs' := by
  induction listing with
  | @ends n call bs bs' done =>
    obtain ⟨l, bs'', delivered, -, answer⟩ := @listService_eq d call bs n wf (by omega)
    obtain ⟨-, rfl⟩ := Prod.mk.inj (answer.symm.trans done)
    exact ⟨[l], .cons delivered (.nil _)⟩
  | @next n call bs mid bs₁ bs₂ name names others found between rest ih =>
    rw [List.length_cons] at few
    obtain ⟨l, mid', delivered, -, answer⟩ := @listService_eq d call bs n wf (by omega)
    obtain ⟨-, rfl⟩ := Prod.mk.inj (answer.symm.trans found)
    obtain ⟨ls, later⟩ := ih (grows_run (wf.deliver delivered) between).1 (by omega)
    exact ⟨l :: (others ++ ls), .cons delivered (Run.append_iff.mpr ⟨_, between, later⟩)⟩

/-- A listing shows services that are registered at its end, and as many names as there are. -/
theorem Listing.sound (listing : Listing d n bs names bs') (wf : Wf bs)
    (few : n + names.length < 2 ^ 32) (inside : n ≤ bs.svclist.length) :
    n + names.length = bs'.svclist.length ∧
      ∀ name ∈ names, ∃ si ∈ bs'.svclist, shown si.name = name := by
  induction listing with
  | @ends n call bs bs' done =>
    obtain ⟨l, bs'', -, records, answer⟩ := @listService_eq d call bs n wf (by omega)
    obtain ⟨asked, rfl⟩ := Prod.mk.inj (answer.symm.trans done)
    have past := List.getElem?_eq_none_iff.mp (Option.map_eq_none_iff.mp asked)
    exact ⟨by rw [records, List.length_nil]; omega, by simp⟩
  | @next n call bs mid bs₁ bs₂ name names others found between rest ih =>
    rw [List.length_cons] at few ⊢
    obtain ⟨l, mid', delivered, records, answer⟩ := @listService_eq d call bs n wf (by omega)
    obtain ⟨asked, rfl⟩ := Prod.mk.inj (answer.symm.trans found)
    obtain ⟨si₀, here, rfl⟩ := Option.map_eq_some_iff.mp asked
    have wfMid := wf.deliver delivered
    obtain ⟨wf₁, added, grown⟩ := grows_run wfMid between
    have longer := congrArg List.length grown
    rw [List.length_append, List.length_map, List.length_map, records] at longer
    obtain ⟨before, -⟩ := List.getElem?_eq_some_iff.mp here
    obtain ⟨count, known⟩ := ih wf₁ (by omega) (by omega)
    refine ⟨by omega, ?_⟩
    intro name member
    rcases List.mem_cons.mp member with rfl | later
    · have present : si₀ ∈ mid'.svclist.drop 0 := by
        rw [records]
        exact List.mem_of_getElem? here
      obtain ⟨si₁, there, same⟩ := grown_drop wfMid between present
      obtain ⟨ls, run⟩ := rest.run wf₁ (by omega)
      obtain ⟨si₂, kept, same'⟩ := grown_drop wf₁ run there
      exact ⟨si₂, kept, by rw [same', same]⟩
    · exact known name later

/-- Whatever is registered and reported dead while a client lists the services, the listing shows
every service that was registered before it, only registered ones, and as many names as there are
services at its end. -/
theorem listServices_complete {ls : List (Return × ℤ)} (run : Run Deliver start ls bs)
    (listing : Listing d 0 bs names bs') (few : names.length < 2 ^ 32) :
    (∀ si ∈ bs.svclist, shown si.name ∈ names) ∧
      (∀ name ∈ names, ∃ si ∈ bs'.svclist, shown si.name = name) ∧
      names.length = bs'.svclist.length := by
  obtain ⟨wf, -⟩ := kept_run run
  obtain ⟨count, known⟩ := listing.sound wf (by omega) (Nat.zero_le _)
  exact ⟨listing.complete wf (by omega), known, by omega⟩

/-- The service manager behind a call of a listing. -/
def asked (bs : Manager) (n : ℕ) : Manager := (listService sampleDriver sampleCall bs n).2

theorem asked_eq {answer : Option Units}
    (known : (listService sampleDriver sampleCall bs n).1 = answer) :
    listService sampleDriver sampleCall bs n = (answer, asked bs n) :=
  Prod.ext known rfl

/-- A registration between two calls of a listing. -/
def interrupted : Manager := register (asked (register start [97] 7) 0) [98] 8

/-- The listing shows the older service twice and misses the new one. -/
theorem listServices_complete_interrupted :
    (∀ si ∈ (register start [97] 7).svclist, shown si.name ∈ [[97], [97]]) ∧
      (∀ name ∈ ([[97], [97]] : List Units), ∃ si ∈ (asked (asked interrupted 1) 2).svclist,
        shown si.name = name) ∧
      [[97], [97]].length = (asked (asked interrupted 1) 2).svclist.length := by
  obtain ⟨l, step, -⟩ := register_step start wf_start (show [97].length < 2 ^ 32 by decide) 7
    ⟨⟨by decide, by decide, by decide⟩, .inl rfl⟩
  have run : Run Deliver start [l] (register start [97] 7) := .cons step (.nil _)
  obtain ⟨wf, -⟩ := kept_run run
  obtain ⟨l', bs', step', -, done⟩ := @listService_eq sampleDriver sampleCall _ 0 wf (by decide)
  have wf' : Wf (asked (register start [97] 7) 0) := by
    rw [asked, done]
    exact wf.deliver step'
  obtain ⟨l'', between, -⟩ := register_step _ wf' (show [98].length < 2 ^ 32 by decide) 8
    ⟨⟨by decide, by decide, by decide⟩, .inl rfl⟩
  have ends : Listing sampleDriver 2 (asked interrupted 1) [] (asked (asked interrupted 1) 2) :=
    .ends (asked_eq (by decide +kernel))
  have second : Listing sampleDriver 1 interrupted [[97]] (asked (asked interrupted 1) 2) :=
    .next (asked_eq (by decide +kernel)) (.nil _) ends
  have first : Listing sampleDriver 0 (register start [97] 7) [[97], [97]]
      (asked (asked interrupted 1) 2) :=
    .next (asked_eq (by decide +kernel)) (.cons between (.nil _)) second
  exact listServices_complete run first (by decide)

end AmlCommonlib.ServiceManager
