import AmlCommonlib.BootloaderMessage.Avb

/-! # Slot switching over sequences of calls

`boot_info_set_active_slot` lowers the other slot only when its priority is exactly the maximum,
and `boot_info_validate` does not look at priorities. A priority above the maximum that the misc
partition starts with therefore survives until its own slot is activated, or the block is reset.
-/

namespace AmlCommonlib.BootloaderMessage

/-- A call of the library whose device calls succeed. -/
inductive MiscCall where
  | setActive (slot : SlotType)
  | setSuccessful
deriving DecidableEq, Repr

def MiscCall.run (misc : Misc) : MiscCall → Misc
  | .setActive slot => (setActiveSlot .success slot misc).1
  | .setSuccessful => (setSuccessfulBoot .success misc).1

/-- The misc partition after a sequence of calls. -/
def runCalls (misc : Misc) (calls : List MiscCall) : Misc := calls.foldl MiscCall.run misc

def MiscCall.slot? : MiscCall → Option SlotType
  | .setActive slot => some slot
  | .setSuccessful => none

/-- The arguments of the `set_active_slot` calls, in order. -/
def activated (calls : List MiscCall) : List SlotType := calls.filterMap MiscCall.slot?

/-- What the sequence is meant to establish, on the bytes of the partition. -/
structure Switched (initial final : Misc) (slot : SlotType) : Prop where
  active : getActiveSlotFromMisc .success final = some slot
  magic : (final.bytes.drop 2048).take 4 = avbAbMagic.toList
  crc : final.bytes.drop 2076 =
    (avbHtobe32 (avbCrc32 ((final.bytes.drop 2048).take 28))).toList
  front : final.bytes.take 2048 = initial.bytes.take 2048

/-! ### What one call stores -/

theorem copyInfo_eq (misc : Misc) (info : AvbABData) :
    copyInfo misc.bytes info = misc.bytes.take abMetadataMiscPartitionOffset ++ info.toBytes := by
  have size := misc.size
  have nothing : misc.bytes.drop (abMetadataMiscPartitionOffset + avbAbDataSize) = [] :=
    List.drop_eq_nil_of_le (by simp [size, miscbufSize, abMetadataMiscPartitionOffset, avbAbDataSize])
  rw [copyInfo, nothing, List.append_nil]

theorem length_front (misc : Misc) :
    (misc.bytes.take abMetadataMiscPartitionOffset).length = abMetadataMiscPartitionOffset := by
  simp [misc.size, miscbufSize, abMetadataMiscPartitionOffset]

/-- A successful write replaces the block and nothing in front of it. -/
theorem setBootloaderMessageBlock_success (misc : Misc) (info : AvbABData) :
    ∃ final, setBootloaderMessageBlock .success misc.bytes info misc = (final, 0) ∧
      final.bytes = misc.bytes.take abMetadataMiscPartitionOffset ++ info.seal.toBytes := by
  have length : (copyInfo misc.bytes info.seal).length = misc.bytes.length := by
    rw [copyInfo_eq, List.length_append, length_front, info.seal.length_toBytes, misc.size]
    rfl
  refine ⟨misc.overwrite (copyInfo misc.bytes info.seal) miscbufSize, rfl, ?_⟩
  have all : ((copyInfo misc.bytes info.seal).take misc.bytes.length).take miscbufSize =
      copyInfo misc.bytes info.seal := by
    rw [← misc.size, List.take_take, min_self, ← length, List.take_length]
  simp only [Misc.overwrite, all, length, List.drop_length, List.append_nil]
  exact copyInfo_eq misc info.seal

@[simp] theorem AvbABData.seal_slot (info : AvbABData) (s : SlotType) :
    info.seal.slot s = info.slot s := by
  cases s <;> rfl

@[simp] theorem AvbABData.slot_setSlot (info : AvbABData) (s : SlotType) (data : AvbABSlotData) :
    (info.setSlot s data).slot s = data := by
  cases s <;> rfl

@[simp] theorem AvbABData.slot_other_setSlot (info : AvbABData) (s : SlotType)
    (data : AvbABSlotData) : (info.setSlot s data).slot s.other = info.slot s.other := by
  cases s <;> rfl

@[simp] theorem AvbABData.slot_setSlot_other (info : AvbABData) (s : SlotType)
    (data : AvbABSlotData) : (info.setSlot s.other data).slot s = info.slot s := by
  cases s <;> rfl

@[simp] theorem AvbABData.setSlot_magic (info : AvbABData) (s : SlotType) (data : AvbABSlotData) :
    (info.setSlot s data).magic = info.magic := by
  cases s <;> rfl

@[simp] theorem AvbABData.setSlot_versionMajor (info : AvbABData) (s : SlotType)
    (data : AvbABSlotData) : (info.setSlot s data).versionMajor = info.versionMajor := by
  cases s <;> rfl

/-- The priority left to the slot that is not activated. -/
def demote (priority : UInt8) : UInt8 :=
  if priority = avbAbMaxPriority then avbAbMaxPriority - 1 else priority

theorem bootInfoSetActiveSlot_priority (info : AvbABData) (s : SlotType) :
    ((bootInfoSetActiveSlot info s).slot s).priority = avbAbMaxPriority ∧
      ((bootInfoSetActiveSlot info s).slot s.other).priority =
        demote (info.slot s.other).priority := by
  simp only [bootInfoSetActiveSlot, AvbABData.slot_other_setSlot, demote]
  split_ifs with top <;> simp

/-- Activating a slot never touches what `boot_info_validate` looks at. -/
theorem bootInfoSetActiveSlot_validate (info : AvbABData) (s : SlotType) :
    (bootInfoSetActiveSlot info s).magic = info.magic ∧
      (bootInfoSetActiveSlot info s).versionMajor = info.versionMajor := by
  simp only [bootInfoSetActiveSlot]
  split_ifs <;> simp

theorem bootInfoValidate_iff (info : AvbABData) :
    bootInfoValidate info = true ↔ info.magic = avbAbMagic ∧ info.versionMajor ≤ 1 := by
  simp [bootInfoValidate, avbAbMajorVersion]

/-- The metadata that `set_active_slot` goes on with. -/
def accepted (info : AvbABData) : AvbABData :=
  if bootInfoValidate info then info else bootInfoReset

theorem accepted_validate (info : AvbABData) :
    (accepted info).magic = avbAbMagic ∧ (accepted info).versionMajor ≤ 1 := by
  unfold accepted
  split_ifs with valid
  · exact (bootInfoValidate_iff info).mp valid
  · exact ⟨rfl, by decide⟩

/-- A successful `set_active_slot`. -/
theorem setActiveSlot_spec (misc : Misc) (s : SlotType) :
    ∃ (final : Misc) (info : AvbABData), setActiveSlot .success s misc = (final, 0) ∧
      final.bytes = misc.bytes.take abMetadataMiscPartitionOffset ++ info.seal.toBytes ∧
      info.magic = avbAbMagic ∧ info.versionMajor ≤ 1 ∧ (info.slot s).priority = avbAbMaxPriority ∧
      (info.slot s.other).priority = demote ((accepted misc.info).slot s.other).priority := by
  obtain ⟨magic, version⟩ := accepted_validate misc.info
  obtain ⟨magic', version'⟩ :=
    bootInfoSetActiveSlot_validate { accepted misc.info with rollFlag := 0 } s
  obtain ⟨own, other⟩ :=
    bootInfoSetActiveSlot_priority { accepted misc.info with rollFlag := 0 } s
  obtain ⟨final, done, bytes⟩ := setBootloaderMessageBlock_success misc
    (bootInfoSetActiveSlot { accepted misc.info with rollFlag := 0 } s)
  refine ⟨final, _, done, bytes, magic'.trans magic, version' ▸ version, own, other.trans ?_⟩
  cases s <;> rfl

/-- A successful `set_successful_boot` writes nothing, or a sealed block with the same magic,
version and priorities. -/
theorem setSuccessfulBoot_spec (misc : Misc) :
    setSuccessfulBoot .success misc = (misc, 0) ∨
      ∃ (final : Misc) (info : AvbABData), setSuccessfulBoot .success misc = (final, 0) ∧
        final.bytes = misc.bytes.take abMetadataMiscPartitionOffset ++ info.seal.toBytes ∧
        info.magic = misc.info.magic ∧ info.versionMajor = misc.info.versionMajor ∧
        ∀ t, (info.slot t).priority = (misc.info.slot t).priority := by
  simp only [setSuccessfulBoot, getBootloaderMessageBlock, MiscIo.success, if_true]
  generalize (if misc.info.slotB.priority > misc.info.slotA.priority then SlotType.slotB
    else SlotType.slotA) = s
  split_ifs with marked
  · exact .inl rfl
  · obtain ⟨final, done, bytes⟩ := setBootloaderMessageBlock_success misc
      (misc.info.setSlot s { misc.info.slot s with successfulBoot := 1 })
    refine .inr ⟨final, _, done, bytes, AvbABData.setSlot_magic .., AvbABData.setSlot_versionMajor ..,
      ?_⟩
    intro t
    cases s <;> cases t <;> rfl

/-! ### The invariant of a sequence of calls -/

/-- The slot opposite to `s` starts above the maximum and is never lowered. -/
def Stuck (initial : Misc) (calls : List MiscCall) (s : SlotType) : Prop :=
  bootInfoValidate initial.info = true ∧ s.other ∉ activated calls ∧
    avbAbMaxPriority < (initial.info.slot s.other).priority

/-- Before the first `set_active_slot`. -/
structure Untouched (initial misc : Misc) : Prop where
  valid : bootInfoValidate misc.info = bootInfoValidate initial.info
  priority : ∀ t, (misc.info.slot t).priority = (initial.info.slot t).priority

/-- After a `set_active_slot`, the last one with the argument `s`. -/
structure Activated (initial : Misc) (calls : List MiscCall) (s : SlotType) (misc : Misc) :
    Prop where
  block : ∃ info : AvbABData, misc.bytes.drop abMetadataMiscPartitionOffset = info.seal.toBytes
  valid : misc.info.magic = avbAbMagic ∧ misc.info.versionMajor ≤ 1
  top : (misc.info.slot s).priority = avbAbMaxPriority
  below : ¬Stuck initial calls s → (misc.info.slot s.other).priority < avbAbMaxPriority
  above : Stuck initial calls s → avbAbMaxPriority < (misc.info.slot s.other).priority

structure Tracks (initial : Misc) (calls : List MiscCall) (misc : Misc) : Prop where
  front : misc.bytes.take abMetadataMiscPartitionOffset =
    initial.bytes.take abMetadataMiscPartitionOffset
  before : activated calls = [] → Untouched initial misc
  after : ∀ s, (activated calls).getLast? = some s → Activated initial calls s misc

theorem demote_lt {priority : UInt8} (inRange : ¬avbAbMaxPriority < priority) :
    demote priority < avbAbMaxPriority := by
  unfold demote
  split_ifs with top
  · decide
  · exact UInt8.lt_of_le_of_ne (UInt8.not_lt.mp inRange) top

theorem lt_demote {priority : UInt8} (above : avbAbMaxPriority < priority) :
    avbAbMaxPriority < demote priority := by
  unfold demote
  rwa [if_neg (UInt8.ne_of_lt above).symm]

theorem activated_append (calls : List MiscCall) (call : MiscCall) :
    activated (calls ++ [call]) = activated calls ++ call.slot?.toList := by
  cases call <;> simp [activated, MiscCall.slot?]

theorem SlotType.eq_or_eq_other (s t : SlotType) : t = s ∨ t = s.other := by
  cases s <;> cases t <;> simp [SlotType.other]

theorem SlotType.other_ne (s : SlotType) : s.other ≠ s := by
  cases s <;> simp [SlotType.other]

/-- The front is kept by a write, and the block can be read again. -/
theorem written_spec {misc final : Misc} {info : AvbABData}
    (written : final.bytes = misc.bytes.take abMetadataMiscPartitionOffset ++ info.seal.toBytes) :
    final.bytes.take abMetadataMiscPartitionOffset =
        misc.bytes.take abMetadataMiscPartitionOffset ∧
      final.bytes.drop abMetadataMiscPartitionOffset = info.seal.toBytes ∧
      final.info = info.seal := by
  have block : final.bytes.drop abMetadataMiscPartitionOffset = info.seal.toBytes := by
    rw [written]
    exact List.drop_left' (length_front misc)
  refine ⟨?_, block, by rw [Misc.info, block, AvbABData.ofBytes_toBytes]⟩
  rw [written]
  exact List.take_left' (length_front misc)

/-- What the opposite slot is left with when `s` is activated after `calls`. -/
theorem Tracks.opposite {initial misc : Misc} {calls : List MiscCall}
    (tracks : Tracks initial calls misc) (s : SlotType) :
    (¬Stuck initial (calls ++ [.setActive s]) s →
        ¬avbAbMaxPriority < ((accepted misc.info).slot s.other).priority) ∧
      (Stuck initial (calls ++ [.setActive s]) s →
        avbAbMaxPriority < ((accepted misc.info).slot s.other).priority) := by
  have named : s.other ∈ activated (calls ++ [.setActive s]) ↔ s.other ∈ activated calls := by
    simp [activated_append, MiscCall.slot?, s.other_ne]
  simp only [Stuck, named]
  rcases List.eq_nil_or_concat (activated calls) with none | ⟨front, t, split⟩
  · obtain ⟨valid, priority⟩ := tracks.before none
    unfold accepted
    rw [valid, none]
    split_ifs with fine
    · simp [fine, priority]
    · refine ⟨?_, fun stuck => absurd stuck.1 fine⟩
      intro _
      cases s <;> decide
  · have last := tracks.after t (by simp [split])
    have fine : accepted misc.info = misc.info :=
      if_pos ((bootInfoValidate_iff misc.info).mpr last.valid)
    rw [fine]
    rcases s.eq_or_eq_other t with rfl | rfl
    · exact ⟨fun free => UInt8.lt_asymm (last.below free), last.above⟩
    · have member : s.other ∈ activated calls := by simp [split]
      exact ⟨fun _ => by rw [last.top]; exact UInt8.lt_irrefl _, fun stuck => absurd member stuck.2.1⟩

theorem Tracks.step {initial misc : Misc} {calls : List MiscCall}
    (tracks : Tracks initial calls misc) (call : MiscCall) :
    Tracks initial (calls ++ [call]) (call.run misc) := by
  cases call with
  | setActive s =>
    obtain ⟨final, info, done, bytes, magic, version, own, other⟩ := setActiveSlot_spec misc s
    obtain ⟨front, block, found⟩ := written_spec bytes
    obtain ⟨free, stuck⟩ := tracks.opposite s
    rw [MiscCall.run, done]
    refine ⟨front.trans tracks.front, ?_, ?_⟩
    · simp [activated_append, MiscCall.slot?]
    · intro t last
      obtain rfl : s = t := by simpa [activated_append, MiscCall.slot?] using last
      refine ⟨⟨info, block⟩, by rw [found]; exact ⟨magic, version⟩, ?_, ?_, ?_⟩
      · rw [found, AvbABData.seal_slot, own]
      · intro h
        rw [found, AvbABData.seal_slot, other]
        exact demote_lt (free h)
      · intro h
        rw [found, AvbABData.seal_slot, other]
        exact lt_demote (stuck h)
  | setSuccessful =>
    have same : activated (calls ++ [.setSuccessful]) = activated calls := by
      simp [activated_append, MiscCall.slot?]
    rcases setSuccessfulBoot_spec misc with done | ⟨final, info, done, bytes, magic, version, priority⟩
    · rw [MiscCall.run, done]
      refine ⟨tracks.front, same ▸ tracks.before, ?_⟩
      intro s last
      obtain ⟨block, valid, top, below, above⟩ := tracks.after s (same ▸ last)
      exact ⟨block, valid, top, by rwa [Stuck, same], by rwa [Stuck, same]⟩
    · obtain ⟨front, block, found⟩ := written_spec bytes
      have priority' : ∀ t, (final.info.slot t).priority = (misc.info.slot t).priority := by
        intro t
        rw [found, AvbABData.seal_slot, priority]
      have validate : bootInfoValidate final.info = bootInfoValidate misc.info := by
        rw [found]
        simp only [bootInfoValidate, AvbABData.seal, magic, version]
      rw [MiscCall.run, done]
      refine ⟨front.trans tracks.front, ?_, ?_⟩
      · intro none
        obtain ⟨valid, kept⟩ := tracks.before (same ▸ none)
        exact ⟨validate.trans valid, fun t => (priority' t).trans (kept t)⟩
      · intro s last
        obtain ⟨-, valid, top, below, above⟩ := tracks.after s (same ▸ last)
        refine ⟨⟨info, block⟩, ?_, (priority' s).trans top, ?_, ?_⟩
        · exact (bootInfoValidate_iff _).mp (validate.trans ((bootInfoValidate_iff _).mpr valid))
        · rwa [Stuck, same, priority']
        · rwa [Stuck, same, priority']

theorem tracks_run (initial : Misc) (calls : List MiscCall) :
    Tracks initial calls (runCalls initial calls) := by
  induction calls using List.reverseRecOn with
  | nil => exact ⟨rfl, fun _ => ⟨rfl, fun _ => rfl⟩, fun s last => by contradiction⟩
  | append_singleton calls call ih =>
    rw [runCalls, List.foldl_append]
    exact ih.step call

/-! ### The result of a sequence -/

/-- The bytes of a stored block. -/
theorem AvbABData.seal_bytes (info : AvbABData) :
    info.seal.toBytes.take 4 = info.magic.toList ∧ info.seal.toBytes.take 28 = info.covered ∧
      info.seal.toBytes.drop 28 = (avbHtobe32 (avbCrc32 info.covered)).toList := by
  refine ⟨?_, List.take_left' info.length_covered, List.drop_left' info.length_covered⟩
  simp only [AvbABData.toBytes, AvbABData.covered, List.append_assoc]
  exact List.take_left' (by simp [AvbABData.seal])

/-- Magic, checksum and front are right after every sequence that activates a slot, whatever the
partition held. -/
theorem Activated.bytes {initial misc : Misc} {calls : List MiscCall} {s : SlotType}
    (activated : Activated initial calls s misc) :
    (misc.bytes.drop 2048).take 4 = avbAbMagic.toList ∧
      misc.bytes.drop 2076 = (avbHtobe32 (avbCrc32 ((misc.bytes.drop 2048).take 28))).toList := by
  obtain ⟨info, block⟩ := activated.block
  have block : misc.bytes.drop 2048 = info.seal.toBytes := block
  obtain ⟨magic, covered, crc⟩ := info.seal_bytes
  have found : misc.info = info.seal := by
    rw [Misc.info, abMetadataMiscPartitionOffset, block, AvbABData.ofBytes_toBytes]
  have named : info.magic = avbAbMagic := by
    have valid := activated.valid.1
    rwa [found] at valid
  refine ⟨by rw [block, magic, named], ?_⟩
  rw [block, covered, ← crc, ← block, List.drop_drop]

/-- The decision of `get_active_slot_from_misc` when one slot has the maximal priority. -/
theorem getActiveSlot_iff {misc : Misc} {s : SlotType}
    (top : (misc.info.slot s).priority = avbAbMaxPriority)
    (apart : (misc.info.slot s.other).priority ≠ avbAbMaxPriority) :
    getActiveSlotFromMisc .success misc = some s ↔
      (misc.info.slot s.other).priority < avbAbMaxPriority := by
  cases s with
  | slotA =>
    simp only [AvbABData.slot, SlotType.other] at top ⊢
    simp [getActiveSlotFromMisc, getBootloaderMessageBlock, MiscIo.success, top]
  | slotB =>
    simp only [AvbABData.slot, SlotType.other] at top apart ⊢
    simp only [getActiveSlotFromMisc, getBootloaderMessageBlock, MiscIo.success, top, if_true,
      Option.map_some, Option.some.injEq]
    split_ifs with above
    · simp [UInt8.lt_asymm above]
    · simp [UInt8.lt_of_le_of_ne (UInt8.not_lt.mp above) apart]

/-- The last activation wins, with a well-formed block and an untouched front, unless the opposite
slot starts above the maximal priority in an accepted block and no call activates it. -/
theorem switched_iff (initial : Misc) {calls : List MiscCall} {s : SlotType}
    (last : (activated calls).getLast? = some s) :
    Switched initial (runCalls initial calls) s ↔ ¬Stuck initial calls s := by
  have tracks := tracks_run initial calls
  have final := tracks.after s last
  constructor
  · intro switched stuck
    have above := final.above stuck
    have below := (getActiveSlot_iff final.top (UInt8.ne_of_lt above).symm).mp switched.active
    exact UInt8.lt_asymm above below
  · intro free
    have below := final.below free
    obtain ⟨magic, crc⟩ := final.bytes
    exact ⟨(getActiveSlot_iff final.top (UInt8.ne_of_lt below)).mpr below, magic, crc, tracks.front⟩

/-- A misc partition with nothing in front of the block. -/
def Misc.ofInfo (info : AvbABData) : Misc where
  bytes := List.replicate abMetadataMiscPartitionOffset 0 ++ info.toBytes
  size := by
    rw [List.length_append, List.length_replicate, info.length_toBytes]
    rfl

/-- An accepted block whose slot B has the priority 200. -/
def outOfRange : Misc := .ofInfo { bootInfoReset with slotB := ⟨200, 7, 0, 0⟩ }

theorem switched_iff_both :
    Switched outOfRange (runCalls outOfRange [.setActive .slotB, .setActive .slotA]) .slotA ↔
      ¬Stuck outOfRange [.setActive .slotB, .setActive .slotA] .slotA :=
  switched_iff outOfRange rfl

/-- Activating slot A leaves slot B active. -/
theorem not_switched_outOfRange :
    ¬Switched outOfRange (runCalls outOfRange [.setActive .slotA]) .slotA := by
  intro switched
  have active := switched.active
  revert active
  decide +kernel

end AmlCommonlib.BootloaderMessage
