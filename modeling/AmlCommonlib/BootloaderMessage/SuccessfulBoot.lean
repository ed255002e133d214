import AmlCommonlib.BootloaderMessage.SlotSwitching

/-! # Marking the active slot as successful

`set_successful_boot` looks for the active slot itself, and takes slot A where
`get_active_slot_from_misc` takes slot B: when the two priorities are equal.
-/

namespace AmlCommonlib.BootloaderMessage

/-- The decision of `get_active_slot_from_misc`. -/
def AvbABData.active (info : AvbABData) : SlotType :=
  if info.slotA.priority > info.slotB.priority then .slotA else .slotB

/-- The decision of `set_successful_boot`. -/
def AvbABData.booted (info : AvbABData) : SlotType :=
  if info.slotB.priority > info.slotA.priority then .slotB else .slotA

theorem getActiveSlotFromMisc_success (misc : Misc) :
    getActiveSlotFromMisc .success misc = some misc.info.active := rfl

/-- The two decisions differ exactly on equal priorities. -/
theorem AvbABData.booted_eq_active_iff (info : AvbABData) :
    info.booted = info.active ↔ info.slotA.priority ≠ info.slotB.priority := by
  simp only [booted, active]
  split_ifs with above below below
  · exact absurd above (UInt8.lt_asymm below)
  · exact iff_of_true rfl (UInt8.ne_of_lt above)
  · exact iff_of_true rfl (UInt8.ne_of_lt below).symm
  · have same := UInt8.le_antisymm (UInt8.not_lt.mp below) (UInt8.not_lt.mp above)
    simp [same]

theorem AvbABData.booted_of_tie {info : AvbABData}
    (tie : info.slotA.priority = info.slotB.priority) : info.active = .slotB ∧ info.booted = .slotA := by
  simp [active, booted, tie]

/-- What a successful `set_successful_boot` is to establish. -/
structure MarksActive (before after : Misc) : Prop where
  marked : ∀ s, getActiveSlotFromMisc .success before = some s →
    (after.info.slot s).successfulBoot ≠ 0 ∧ after.info.slot s.other = before.info.slot s.other
  counters : ∀ s, (after.info.slot s).priority = (before.info.slot s).priority ∧
    (after.info.slot s).triesRemaining = (before.info.slot s).triesRemaining
  active : getActiveSlotFromMisc .success after = getActiveSlotFromMisc .success before

/-- A write that returns 0 has stored everything. -/
theorem setBootloaderMessageBlock_done {io : MiscIo} {misc : Misc} {info : AvbABData}
    (done : (setBootloaderMessageBlock io misc.bytes info misc).2 = 0) :
    setBootloaderMessageBlock io misc.bytes info misc =
      setBootloaderMessageBlock .success misc.bytes info misc := by
  have results : io.writeOpen = true ∧ ¬io.written < miscbufSize := by
    by_contra failed
    simp only [setBootloaderMessageBlock] at done
    cases opened : io.writeOpen with
    | false => simp [opened] at done
    | true =>
      have short : io.written < miscbufSize := by simpa [opened] using failed
      simp [opened, short] at done
  obtain ⟨opened, whole⟩ := results
  have bound : ((copyInfo misc.bytes info.seal).take misc.bytes.length).length ≤ miscbufSize := by
    rw [List.length_take, misc.size]
    exact min_le_left ..
  have stored : ((copyInfo misc.bytes info.seal).take misc.bytes.length).take io.written =
      ((copyInfo misc.bytes info.seal).take misc.bytes.length).take miscbufSize := by
    rw [List.take_of_length_le bound, List.take_of_length_le (bound.trans (not_lt.mp whole))]
  apply Prod.ext
  · simp only [setBootloaderMessageBlock, opened, MiscIo.success, Bool.not_true,
      Bool.false_eq_true, if_false, Misc.overwrite, stored]
  · exact done

/-- The flag after marking. -/
def mark (flag : UInt8) : UInt8 := if flag ≠ 0 then flag else 1

theorem mark_ne_zero (flag : UInt8) : mark flag ≠ 0 := by
  simp only [mark]
  split_ifs with marked
  · exact marked
  · decide

theorem setSuccessfulBoot_eq (io : MiscIo) (misc : Misc) :
    setSuccessfulBoot io misc =
      if io.readOk then
        if (misc.info.slot misc.info.booted).successfulBoot ≠ 0 then (misc, 0)
        else setBootloaderMessageBlock io misc.bytes (misc.info.setSlot misc.info.booted
          { misc.info.slot misc.info.booted with successfulBoot := 1 }) misc
      else (misc, -1) := by
  simp only [setSuccessfulBoot, getBootloaderMessageBlock]
  cases io.readOk <;> rfl

/-- The slot that `set_successful_boot` takes for the active one is marked, and everything else in the
slots is as it was. -/
def MarksBooted (before after : Misc) : Prop :=
  ∀ s, after.info.slot s =
    if s = before.info.booted
    then { before.info.slot s with successfulBoot := mark (before.info.slot s).successfulBoot }
    else before.info.slot s

theorem setSuccessfulBoot_done {io : MiscIo} {misc : Misc} (done : (setSuccessfulBoot io misc).2 = 0) :
    MarksBooted misc (setSuccessfulBoot io misc).1 := by
  rw [setSuccessfulBoot_eq] at done ⊢
  cases read : io.readOk with
  | false => simp [read] at done
  | true =>
    simp only [read, if_true] at done ⊢
    by_cases marked : (misc.info.slot misc.info.booted).successfulBoot ≠ 0
    · rw [if_pos marked]
      intro s
      split_ifs with same
      · rw [same, mark, if_pos marked]
      · rfl
    · rw [if_neg marked] at done ⊢
      rw [setBootloaderMessageBlock_done done]
      obtain ⟨final, stored, bytes⟩ := setBootloaderMessageBlock_success misc
        (misc.info.setSlot misc.info.booted
          { misc.info.slot misc.info.booted with successfulBoot := 1 })
      intro s
      rw [stored, (written_spec bytes).2.2, AvbABData.seal_slot]
      split_ifs with same
      · rw [same, AvbABData.slot_setSlot, mark, if_neg marked]
      · obtain rfl := (misc.info.booted.eq_or_eq_other s).resolve_left same
        rw [AvbABData.slot_other_setSlot]

namespace MarksBooted

variable {before after : Misc}

theorem booted (marks : MarksBooted before after) :
    after.info.slot before.info.booted =
      { before.info.slot before.info.booted with
        successfulBoot := mark (before.info.slot before.info.booted).successfulBoot } := by
  rw [marks, if_pos rfl]

theorem other (marks : MarksBooted before after) {s : SlotType} (other : s ≠ before.info.booted) :
    after.info.slot s = before.info.slot s := by
  rw [marks, if_neg other]

theorem counters (marks : MarksBooted before after) (s : SlotType) :
    (after.info.slot s).priority = (before.info.slot s).priority ∧
      (after.info.slot s).triesRemaining = (before.info.slot s).triesRemaining := by
  rw [marks]
  split_ifs <;> exact ⟨rfl, rfl⟩

/-- The priorities decide which slot is active. -/
theorem active (marks : MarksBooted before after) :
    getActiveSlotFromMisc .success after = getActiveSlotFromMisc .success before := by
  have priorityA : after.info.slotA.priority = _ := (marks.counters .slotA).1
  have priorityB : after.info.slotB.priority = _ := (marks.counters .slotB).1
  rw [getActiveSlotFromMisc_success, getActiveSlotFromMisc_success, AvbABData.active, priorityA,
    priorityB]
  rfl

/-- Different priorities: the marked slot is the active one. -/
theorem marksActive_of_differ (marks : MarksBooted before after)
    (differ : before.info.slotA.priority ≠ before.info.slotB.priority) :
    MarksActive before after := by
  refine ⟨?_, marks.counters, marks.active⟩
  intro s isSlot
  obtain rfl : before.info.active = s := Option.some.inj isSlot
  rw [← (AvbABData.booted_eq_active_iff _).mpr differ, marks.booted, marks.other (SlotType.other_ne _)]
  exact ⟨mark_ne_zero _, rfl⟩

/-- Equal priorities: slot B is active and slot A gets marked. -/
theorem marksActive_of_tie (marks : MarksBooted before after)
    (tie : before.info.slotA.priority = before.info.slotB.priority) :
    MarksActive before after ↔
      before.info.slotA.successfulBoot ≠ 0 ∧ before.info.slotB.successfulBoot ≠ 0 := by
  obtain ⟨isActive, isBooted⟩ := AvbABData.booted_of_tie tie
  have slotA := marks.booted
  rw [isBooted] at slotA
  have slotB : after.info.slot .slotB = before.info.slotB := marks.other (by simp [isBooted])
  constructor
  · intro marked
    obtain ⟨markedB, keptA⟩ := marked.marked .slotB (by rw [getActiveSlotFromMisc_success, isActive])
    have flagA := congrArg AvbABSlotData.successfulBoot (slotA.symm.trans keptA)
    rw [slotB] at markedB
    exact ⟨fun zero => mark_ne_zero _ (flagA.trans zero), markedB⟩
  · rintro ⟨markedA, markedB⟩
    refine ⟨?_, marks.counters, marks.active⟩
    intro s isSlot
    obtain rfl : SlotType.slotB = s := by
      rw [getActiveSlotFromMisc_success, isActive] at isSlot
      exact Option.some.inj isSlot
    refine ⟨slotB ▸ markedB, slotA.trans ?_⟩
    have keptA : mark (before.info.slot .slotA).successfulBoot =
      (before.info.slot .slotA).successfulBoot := if_pos markedA
    rw [keptA]
    rfl

end MarksBooted

/-- For every content of the partition, a call that returns 0 marks the active slot exactly if the
priorities of the slots differ or both slots are marked already. -/
theorem marksActive_iff (io : MiscIo) (misc : Misc) (done : (setSuccessfulBoot io misc).2 = 0) :
    MarksActive misc (setSuccessfulBoot io misc).1 ↔
      misc.info.slotA.priority ≠ misc.info.slotB.priority ∨
        (misc.info.slotA.successfulBoot ≠ 0 ∧ misc.info.slotB.successfulBoot ≠ 0) := by
  have marks := setSuccessfulBoot_done done
  rcases eq_or_ne misc.info.slotA.priority misc.info.slotB.priority with tie | differ
  · rw [marks.marksActive_of_tie tie]
    simp only [tie, ne_eq, not_true_eq_false, false_or]
  · exact iff_of_true (marks.marksActive_of_differ differ) (.inl differ)

theorem marksActive_iff_reset :
    MarksActive (.ofInfo bootInfoReset) (setSuccessfulBoot .success (.ofInfo bootInfoReset)).1 ↔
      (Misc.ofInfo bootInfoReset).info.slotA.priority ≠
          (Misc.ofInfo bootInfoReset).info.slotB.priority ∨
        ((Misc.ofInfo bootInfoReset).info.slotA.successfulBoot ≠ 0 ∧
          (Misc.ofInfo bootInfoReset).info.slotB.successfulBoot ≠ 0) :=
  marksActive_iff .success _ (by decide +kernel)

/-- A partition that holds nothing but zeros. -/
def blankMisc : Misc where
  bytes := List.replicate miscbufSize 0
  size := List.length_replicate ..

/-- On a blank partition slot B is active and slot A gets marked. -/
theorem not_marksActive_blank :
    (setSuccessfulBoot .success blankMisc).2 = 0 ∧
      ¬MarksActive blankMisc (setSuccessfulBoot .success blankMisc).1 := by
  constructor
  · decide +kernel
  · intro marks
    have isActive : getActiveSlotFromMisc .success blankMisc = some .slotB := by decide +kernel
    refine (marks.marked .slotB isActive).1 ?_
    decide +kernel

end AmlCommonlib.BootloaderMessage
