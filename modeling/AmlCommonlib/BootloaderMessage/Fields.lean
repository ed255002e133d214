import AmlCommonlib.BootloaderMessage.Record

/-! # Field isolation in the boot message

Each operation writes the fields it is about, so the other fields stay as they were, the command is
that of the last recovery operation and the slot block that of the last switch.
-/

namespace AmlCommonlib.BootloaderMessage.Record

/-- The C string in a field. -/
def BootMessage.text (info : BootMessage) (f : Field) : Option Bytes := cstring? (info.get f)

theorem Field.fits (f : Field) : f.offset + f.size ≤ recordSize := by
  cases f <;> decide

theorem BootMessage.length_get (info : BootMessage) (f : Field) : (info.get f).length = f.size :=
  length_slice _ _ _ (by rw [info.size]; exact f.fits)

/-- Two fields have no byte in common. -/
theorem Field.apart {f g : Field} (different : f ≠ g) :
    f.offset + f.size ≤ g.offset ∨ g.offset + g.size ≤ f.offset := by
  cases f <;> cases g <;> first | exact absurd rfl different | decide

/-- A copy inside one field leaves the others. -/
theorem BootMessage.get_memcpy_other (info : BootMessage) {offset : ℕ} {src : Bytes} {f g : Field}
    (different : f ≠ g) (low : g.offset ≤ offset)
    (high : offset + src.length ≤ g.offset + g.size) : (info.memcpy offset src).get f = info.get f := by
  have inside := g.fits
  have apart := Field.apart different
  apply slice_overwrite_other
  · rw [info.size]
    omega
  · omega

/-- A copy inside a field is a copy into the field. -/
theorem BootMessage.get_memcpy_inside (info : BootMessage) {offset : ℕ} {src : Bytes} {f : Field}
    (low : f.offset ≤ offset) (high : offset + src.length ≤ f.offset + f.size) :
    (info.memcpy offset src).get f = overwrite (info.get f) (offset - f.offset) src :=
  slice_overwrite_inside (by rw [info.size]; exact f.fits) low high

@[simp] theorem length_strncpy (s : Bytes) (n : ℕ) : (strncpy s n).length = n := by
  simp [strncpy]

theorem length_bootinfo (info : BootMessage) : info.bootinfo.length = slotbufSize :=
  length_slice _ _ _ (by rw [info.size]; decide)

/-! ### What one operation touches -/

/-- The fields an operation is about; a refused one has none. -/
def Op.Touches : Op → Field → Prop
  | .setRecoveryOtapath none, _ => False
  | .setRecoveryOtapath (some _), f | .cleanRecoveryOtapath, f => f = .command ∨ f = .recovery
  | .setRecovery, f | .clearRecovery, f => f = .command
  | .setActiveSlot _, f => f = .slotSuffix

/-- An operation leaves every other field. -/
theorem get_run_other (op : Op) (misc : BootMessage) {f : Field} (other : ¬op.Touches f) :
    ((op.run .success misc).1).get f = misc.get f := by
  cases op with
  | setRecoveryOtapath path =>
    cases path with
    | none => rfl
    | some path =>
      obtain ⟨command, recovery⟩ := not_or.mp other
      simp only [Op.run, setRecoveryOtapath, update, RecordIo.success, Bool.not_true,
        Bool.false_eq_true, if_false, BootMessage.memset]
      rw [BootMessage.get_memcpy_other _ recovery (by decide) (by decide),
        BootMessage.get_memcpy_other _ recovery (by decide) (by rw [length_strncpy]; decide),
        BootMessage.get_memcpy_other _ recovery (by decide) (by rw [List.length_replicate]),
        BootMessage.get_memcpy_other _ command (by decide) (by decide),
        BootMessage.get_memcpy_other _ command (by decide) (by rw [length_strncpy]; decide)]
  | cleanRecoveryOtapath =>
    obtain ⟨command, recovery⟩ := not_or.mp other
    simp only [Op.run, cleanRecoveryOtapath, update, RecordIo.success, Bool.not_true,
      Bool.false_eq_true, if_false, BootMessage.memset]
    rw [BootMessage.get_memcpy_other _ recovery (by decide) (by rw [List.length_replicate]; decide),
      BootMessage.get_memcpy_other _ command (by decide) (by rw [List.length_replicate]; decide)]
  | setRecovery => exact BootMessage.get_memcpy_other _ other (by decide) (by decide)
  | clearRecovery =>
    exact BootMessage.get_memcpy_other _ other (by decide) (by rw [List.length_replicate]; decide)
  | setActiveSlot slot =>
    apply BootMessage.get_memcpy_other _ other (by decide)
    simp only [List.length_take, length_overwrite, length_bootinfo]
    decide

/-! ### The command and the slot after one operation -/

/-- What the operation makes of the command: set, cleared, or left alone. -/
def Op.recovery : Op → Option Bool
  | .setRecoveryOtapath _ | .setRecovery => some true
  | .cleanRecoveryOtapath | .clearRecovery => some false
  | .setActiveSlot _ => none

/-- A null path is refused. -/
def Op.accepted : Op → Bool
  | .setRecoveryOtapath none => false
  | _ => true

/-- The text of the command after an operation that sets or clears it. -/
def commandText (sets : Bool) : Bytes := if sets then cmdRunRecovery else []

/-- The copies of `set_recovery_otapath`: the padded command and a terminator in the last byte. -/
theorem cstring?_armed {old : Bytes} (size : old.length = 32) :
    cstring? (overwrite (overwrite old 0 (strncpy cmdRunRecovery 31)) 31 [0]) =
      some cmdRunRecovery := by
  have first : overwrite old 0 (strncpy cmdRunRecovery 31) =
      strncpy cmdRunRecovery 31 ++ old.drop 31 :=
    overwrite_zero (by rw [length_strncpy]; omega)
  have padded : strncpy cmdRunRecovery 31 = cmdRunRecovery ++ 0 :: List.replicate 17 0 := by decide
  rw [first, overwrite, List.take_left' (length_strncpy ..), padded, List.append_assoc,
    List.append_assoc, List.cons_append]
  exact cstring?_terminated (by decide) _

theorem cstring?_erased {old : Bytes} (size : old.length = 32) :
    cstring? (overwrite old 0 (List.replicate 32 0)) = some [] := by
  rw [overwrite_all (by rw [List.length_replicate, size])]
  rfl

theorem command_run {op : Op} (accepted : op.accepted = true) {sets : Bool}
    (recovery : op.recovery = some sets) (misc : BootMessage) :
    ((op.run .success misc).1).text .command = some (commandText sets) := by
  have size : (misc.get .command).length = 32 := misc.length_get .command
  have apart : Field.command ≠ .recovery := by decide
  cases op with
  | setRecoveryOtapath path =>
    cases path with
    | none => cases accepted
    | some path =>
      cases recovery
      simp only [BootMessage.text, Op.run, setRecoveryOtapath, update, RecordIo.success,
        Bool.not_true, Bool.false_eq_true, if_false, BootMessage.memset]
      rw [BootMessage.get_memcpy_other _ apart (by decide) (by decide),
        BootMessage.get_memcpy_other _ apart (by decide) (by rw [length_strncpy]; decide),
        BootMessage.get_memcpy_other _ apart (by decide) (by rw [List.length_replicate]),
        BootMessage.get_memcpy_inside _ (by decide) (by decide),
        BootMessage.get_memcpy_inside _ (by decide) (by rw [length_strncpy]; decide)]
      exact cstring?_armed size
  | cleanRecoveryOtapath =>
    cases recovery
    simp only [BootMessage.text, Op.run, cleanRecoveryOtapath, update, RecordIo.success,
      Bool.not_true, Bool.false_eq_true, if_false, BootMessage.memset]
    rw [BootMessage.get_memcpy_other _ apart (by decide) (by rw [List.length_replicate]; decide),
      BootMessage.get_memcpy_inside _ (by decide) (by rw [List.length_replicate]; decide)]
    exact cstring?_erased size
  | setRecovery =>
    cases recovery
    change cstring? ((misc.memcpy Field.command.offset (cmdRunRecovery ++ [0])).get .command) = _
    rw [BootMessage.get_memcpy_inside _ (by decide) (by decide)]
    have fits : (cmdRunRecovery ++ [0]).length ≤ (misc.get .command).length := by
      rw [size]
      decide
    rw [Nat.sub_self, overwrite_zero fits, List.append_assoc]
    exact cstring?_terminated (by decide) _
  | clearRecovery =>
    cases recovery
    change cstring? ((misc.memset Field.command.offset commandbufSize).get .command) = _
    rw [BootMessage.memset,
      BootMessage.get_memcpy_inside _ (by decide) (by rw [List.length_replicate]; decide)]
    exact cstring?_erased size
  | setActiveSlot slot => cases recovery

/-- A refused operation and a slot switch leave the command. -/
theorem command_run_other {op : Op} (other : op.accepted = false ∨ op.recovery = none)
    (misc : BootMessage) : ((op.run .success misc).1).text .command = misc.text .command := by
  have untouched : ¬op.Touches .command := by
    cases op with
    | setRecoveryOtapath path =>
      cases path with
      | none => exact id
      | some path => simp [Op.accepted, Op.recovery] at other
    | cleanRecoveryOtapath | setRecovery | clearRecovery => simp [Op.accepted, Op.recovery] at other
    | setActiveSlot =>
      intro same
      cases same
  rw [BootMessage.text, get_run_other op misc untouched]
  rfl

def Op.slot : Op → Option SlotType
  | .setActiveSlot slot => some slot
  | _ => none

theorem length_slotSuffix (slot : SlotType) : (slotSuffix slot).length = 2 := by
  cases slot <;> rfl

/-- A switch writes the two characters of the suffix and the active slot. -/
theorem bootinfo_setActiveSlot (slot : SlotType) (misc : BootMessage) :
    ((Op.setActiveSlot slot).run .success misc).1.bootinfo =
      overwrite (overwrite misc.bootinfo bootctrlSuffix (slotSuffix slot)) activeSlot
        [slotCode slot] := by
  let changed := overwrite (overwrite misc.bootinfo bootctrlSuffix (slotSuffix slot)) activeSlot
    [slotCode slot]
  have fits : changed.length = slotbufSize := by
    rw [length_overwrite, length_overwrite, length_bootinfo]
  change (misc.memcpy Field.slotSuffix.offset (changed.take slotbufSize)).get .slotSuffix = _
  rw [List.take_of_length_le fits.le,
    BootMessage.get_memcpy_inside _ (le_refl _) (by rw [fits]; decide), Nat.sub_self,
    overwrite_all (fits.trans (misc.length_get .slotSuffix).symm)]

theorem slot_run (slot : SlotType) (misc : BootMessage) :
    getActiveSlotFromMisc true ((Op.setActiveSlot slot).run .success misc).1 =
      some (slotCode slot) := by
  have room : activeSlot + [slotCode slot].length ≤
      (overwrite misc.bootinfo bootctrlSuffix (slotSuffix slot)).length := by
    rw [length_overwrite, length_bootinfo, List.length_singleton]
    decide
  rw [getActiveSlotFromMisc, if_pos rfl, bootinfo_setActiveSlot, getElem?_overwrite room]
  rfl

theorem bootinfo_run_other {op : Op} (other : op.slot = none) (misc : BootMessage) :
    (op.run .success misc).1.bootinfo = misc.bootinfo := by
  have untouched : ¬op.Touches .slotSuffix := by
    cases op with
    | setRecoveryOtapath path => cases path <;> simp [Op.Touches]
    | cleanRecoveryOtapath | setRecovery | clearRecovery => simp [Op.Touches]
    | setActiveSlot slot => cases other
  exact get_run_other op misc untouched

/-! ### Sequences of operations -/

theorem runAll_concat (misc : BootMessage) (ops : List Op) (op : Op) :
    runAll misc (ops ++ [op]) = (op.run .success (runAll misc ops)).1 := by
  rw [runAll, List.foldl_append]
  rfl

/-- Whether the last recovery operation sets the command. -/
def lastRecovery (ops : List Op) : Option Bool := (ops.filterMap Op.recovery).getLast?

def lastSlot (ops : List Op) : Option SlotType := (ops.filterMap Op.slot).getLast?

theorem command_runAll (misc : BootMessage) (ops : List Op) :
    (runAll misc ops).text .command =
      ((lastRecovery (ops.filter Op.accepted)).map commandText).or (misc.text .command) := by
  induction ops using List.reverseRecOn with
  | nil => rfl
  | append_singleton ops op ih =>
    rw [runAll_concat]
    cases accepted : op.accepted with
    | false =>
      rw [command_run_other (.inl accepted), ih]
      simp [List.filter_append, accepted]
    | true =>
      cases recovery : op.recovery with
      | none =>
        rw [command_run_other (.inr recovery), ih]
        simp [List.filter_append, accepted, lastRecovery, recovery]
      | some sets =>
        rw [command_run accepted recovery]
        simp [List.filter_append, accepted, lastRecovery, recovery]

theorem slot_runAll (misc : BootMessage) (ops : List Op) :
    getActiveSlotFromMisc true (runAll misc ops) =
      ((lastSlot ops).map slotCode).or (getActiveSlotFromMisc true misc) := by
  induction ops using List.reverseRecOn with
  | nil => rfl
  | append_singleton ops op ih =>
    rw [runAll_concat]
    cases slot : op.slot with
    | none =>
      rw [getActiveSlotFromMisc, bootinfo_run_other slot, ← getActiveSlotFromMisc, ih]
      simp [lastSlot, slot]
    | some value =>
      cases op with
      | setActiveSlot switched =>
        rw [slot_run]
        simp [lastSlot, Op.slot]
      | _ => cases slot

/-- Throughout the operations, recovery operations change no field but the command and its
arguments, and switches none but the slot block. -/
def FieldsIsolated (misc : BootMessage) (ops : List Op) : Prop :=
  ∀ before op after f, ops = before ++ op :: after → ¬op.Touches f →
    (runAll misc (before ++ [op])).get f = (runAll misc before).get f

/-- The command is that of the last of the counted recovery operations. -/
def CommandFollows (misc : BootMessage) (ops counted : List Op) : Prop :=
  ∀ sets, lastRecovery counted = some sets →
    ((runAll misc ops).text .command = some cmdRunRecovery ↔ sets = true) ∧
    (sets = false → (runAll misc ops).text .command = some [])

/-- `get_active_slot_misc` returns the slot of the last switch. -/
def SlotFollows (misc : BootMessage) (ops : List Op) : Prop :=
  ∀ slot, lastSlot ops = some slot →
    getActiveSlotFromMisc true (runAll misc ops) = some (slotCode slot)

/-- From every record and through every sequence of operations, fields stay isolated, the command is
that of the last recovery operation that was not refused and the slot that of the last switch. -/
theorem fields_isolated (misc : BootMessage) (ops : List Op) :
    FieldsIsolated misc ops ∧ CommandFollows misc ops (ops.filter Op.accepted) ∧
      SlotFollows misc ops := by
  refine ⟨?_, ?_, ?_⟩
  · intro before op after f _ other
    rw [runAll_concat]
    exact get_run_other op _ other
  · intro sets last
    rw [command_runAll, last]
    cases sets <;> simp [commandText, cmdRunRecovery]
  · intro slot last
    rw [slot_runAll, last]
    rfl

/-- A null path is the last recovery operation, and the command stays empty. -/
theorem not_commandFollows_null_path :
    ¬∀ misc ops, CommandFollows misc ops ops := by
  intro follows
  have last := (follows blankRecord [.setRecoveryOtapath none] true rfl).1.mpr rfl
  exact absurd last (by decide +kernel)

end AmlCommonlib.BootloaderMessage.Record
