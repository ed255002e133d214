import AmlCommonlib.BootloaderMessage.Fields

/-! # The slot suffix as a string

`set_active_slot` stores the two characters of the suffix and no terminator. The byte behind them is
never written by any operation, so it is the first content of the record that decides whether the
suffix ends.
-/

namespace AmlCommonlib.BootloaderMessage.Record

/-- `sizeof(bootctrl_suffix)`. -/
def bootctrlSuffixSize : ℕ := 4

/-- The string in `bootctrl_suffix`, if it ends inside. -/
def BootMessage.suffixText (info : BootMessage) : Option Bytes :=
  cstring? (slice info.bootinfo bootctrlSuffix bootctrlSuffixSize)

/-- The slot block designates a slot, in both ways. -/
structure Designates (misc : BootMessage) (slot : SlotType) : Prop where
  suffix : misc.suffixText = some (slotSuffix slot)
  active : getActiveSlotFromMisc true misc = some (slotCode slot)

/-- The byte behind the two characters. -/
def BootMessage.behindSuffix (info : BootMessage) : Option UInt8 := info.bootinfo[2]?

/-! ### What the operations write -/

/-- A switch writes the suffix and leaves the byte behind it. -/
theorem suffix_setActiveSlot (slot : SlotType) (misc : BootMessage) :
    ((Op.setActiveSlot slot).run .success misc).1.bootinfo.take 2 = slotSuffix slot ∧
      ((Op.setActiveSlot slot).run .success misc).1.behindSuffix = misc.behindSuffix := by
  have size := length_bootinfo misc
  have two := length_slotSuffix slot
  have room : bootctrlSuffix + (slotSuffix slot).length ≤ misc.bootinfo.length := by
    rw [two, size]
    decide
  have room' : activeSlot + [slotCode slot].length ≤
      (overwrite misc.bootinfo bootctrlSuffix (slotSuffix slot)).length := by
    rw [length_overwrite, size, List.length_singleton]
    decide
  simp only [BootMessage.behindSuffix, bootinfo_setActiveSlot]
  constructor
  · apply List.ext_getElem?
    intro i
    rw [List.getElem?_take]
    split_ifs with front
    · rw [getElem?_overwrite room', if_neg (by simp only [activeSlot]; omega),
        getElem?_overwrite room, if_pos (by simp only [bootctrlSuffix]; omega)]
      rfl
    · rw [List.getElem?_eq_none (by omega)]
  · rw [getElem?_overwrite room', if_neg (by simp only [activeSlot]; omega), getElem?_overwrite room,
      if_neg (by rw [two]; decide)]

/-- Through every sequence of operations: the characters are those of the last switch, the byte
behind them is the first one. -/
theorem suffix_runAll (misc : BootMessage) (ops : List Op) :
    (∀ slot, lastSlot ops = some slot → (runAll misc ops).bootinfo.take 2 = slotSuffix slot) ∧
      (runAll misc ops).behindSuffix = misc.behindSuffix := by
  induction ops using List.reverseRecOn with
  | nil =>
    refine ⟨?_, rfl⟩
    intro slot last
    cases last
  | append_singleton ops op ih =>
    rw [runAll_concat]
    cases switches : op.slot with
    | none =>
      have same : lastSlot (ops ++ [op]) = lastSlot ops := by simp [lastSlot, switches]
      rw [BootMessage.behindSuffix, bootinfo_run_other switches, same]
      exact ih
    | some switched =>
      cases op with
      | setActiveSlot switched =>
        obtain ⟨suffix, behind⟩ := suffix_setActiveSlot switched (runAll misc ops)
        refine ⟨?_, behind.trans ih.2⟩
        intro slot last
        obtain rfl : switched = slot := by simpa [lastSlot, Op.slot] using last
        exact suffix
      | _ => cases switches

/-- For every first content of the record and every sequence with a switch: the block designates the
last slot set exactly if the byte behind the two characters was zero from the start. -/
theorem designates_iff (misc : BootMessage) {ops : List Op} {slot : SlotType}
    (last : lastSlot ops = some slot) :
    Designates (runAll misc ops) slot ↔ misc.behindSuffix = some 0 := by
  obtain ⟨suffix, behind⟩ := suffix_runAll misc ops
  have active : getActiveSlotFromMisc true (runAll misc ops) = some (slotCode slot) := by
    rw [slot_runAll, last]
    rfl
  have field : slice (runAll misc ops).bootinfo bootctrlSuffix bootctrlSuffixSize =
      slotSuffix slot ++ ((runAll misc ops).bootinfo.drop 2).take 2 := by
    rw [← suffix slot last, ← List.take_add]
    rfl
  have plain : IsCString (slotSuffix slot) := by cases slot <;> decide
  have ends : (runAll misc ops).suffixText = some (slotSuffix slot) ↔
      (runAll misc ops).behindSuffix = some 0 := by
    rw [BootMessage.suffixText, field, cstring?_append_eq plain,
      List.getElem?_take_of_lt (by decide), List.getElem?_drop]
    rfl
  rw [← behind, ← ends]
  exact ⟨Designates.suffix, fun text => ⟨text, active⟩⟩

/-- A record on erased flash. -/
def erasedRecord : BootMessage := ⟨List.replicate recordSize 255, List.length_replicate⟩

theorem designates_iff_erased :
    Designates (runAll erasedRecord [.setActiveSlot .slotA, .setRecovery]) .slotA ↔
      erasedRecord.behindSuffix = some 0 :=
  designates_iff erasedRecord rfl

/-- On erased flash the suffix does not end in its field. -/
theorem not_designates_erased :
    lastSlot [.setActiveSlot .slotA] = some .slotA ∧
      ¬Designates (runAll erasedRecord [.setActiveSlot .slotA]) .slotA := by
  refine ⟨rfl, ?_⟩
  intro designates
  have unterminated : (runAll erasedRecord [.setActiveSlot .slotA]).suffixText = none := by
    decide +kernel
  cases designates.suffix.symm.trans unterminated

end AmlCommonlib.BootloaderMessage.Record
