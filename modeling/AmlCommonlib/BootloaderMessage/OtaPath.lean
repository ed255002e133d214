import AmlCommonlib.BootloaderMessage.Fields
import AmlCommonlib.BootloaderMessage.SlotSwitching
import Mathlib.Logic.Relation

/-! # Writing and reading the path of an update

`set_recovery_otapath` stores any path and cuts it to its field. `get_recovery_otapath` gives back
no path of 256 bytes or more and none that is no URL, and copies it without a terminator. In between
other operations rewrite the same record.
-/

namespace AmlCommonlib.BootloaderMessage.Record

/-- The start of a URL, `http`. -/
def urlPrefix : Bytes := [104, 116, 116, 112]

/-- `get_recovery_otapath` with the caller's buffer; `none` is a read behind the record. -/
def getRecoveryOtapath (readOk : Bool) (misc : BootMessage) (path : Bytes) : Option (Bytes × ℤ) :=
  if !readOk then some (path, -1)
  else (cstring? (misc.bytes.drop Field.recovery.offset)).map fun recovery =>
    if recovery.length = 0 ∨ recovery.length ≥ 256 then (path, -1)
    else if recovery.take 4 ≠ urlPrefix then (path, -1)
    else (overwrite path 0 recovery, 0)

/-- The first bytes of the misc partition. -/
def Misc.record (misc : Misc) : BootMessage where
  bytes := misc.bytes.take recordSize
  size := by
    rw [List.length_take, misc.size]
    rfl

/-- Operations that are not about the path. -/
def Op.Keeps : Op → Prop
  | .setActiveSlot _ | .setRecovery | .clearRecovery => True
  | .setRecoveryOtapath _ | .cleanRecoveryOtapath => False

/-- One call between writing and reading. With AVB, `set_active_slot` has a block of its own on the
partition that the record starts. -/
inductive Between : BootMessage → BootMessage → Prop
  | call {op : Op} (keeps : op.Keeps) (readOk : Bool) (misc : BootMessage) :
      Between misc (op.run ⟨readOk, .done⟩ misc).1
  | avb (io : MiscIo) (slot : SlotType) (misc : Misc) :
      Between (Misc.record misc) (Misc.record (BootloaderMessage.setActiveSlot io slot misc).1)

/-- A later `get_recovery_otapath` leaves the path in the caller's buffer. -/
def Yields (misc : BootMessage) (buffer path : Bytes) : Prop :=
  ∃ result, getRecoveryOtapath true misc buffer = some (result, 0) ∧ cstring? result = some path

/-! ### What the record holds -/

theorem strncpy_eq (s : Bytes) (n : ℕ) : strncpy s n = s.take n ++ .replicate (n - s.length) 0 := by
  rw [strncpy, List.take_append, List.take_replicate, min_eq_left (Nat.sub_le ..)]

/-- The padding or the last byte of the field ends the string. -/
theorem cstring?_strncpy {s : Bytes} (plain : IsCString s) (n : ℕ) (rest : Bytes) :
    cstring? (strncpy s n ++ 0 :: rest) = some (s.take n) := by
  rw [strncpy_eq, List.append_assoc]
  cases n - s.length with
  | zero => exact cstring?_terminated (plain.take n) rest
  | succ k => exact cstring?_terminated (plain.take n) _

/-- The record from a field on. -/
theorem BootMessage.drop_eq_get (info : BootMessage) (f : Field) :
    info.bytes.drop f.offset = info.get f ++ info.bytes.drop (f.offset + f.size) := by
  rw [BootMessage.get, slice, ← List.drop_drop, List.take_append_drop]

/-- A copy that leaves one byte of the field, and a terminator there. -/
theorem overwrite_terminated {old s : Bytes} (room : old.length = s.length + 1) :
    overwrite (overwrite old 0 s) s.length [0] = s ++ [0] := by
  have tail : (old.drop s.length).drop 1 = [] := by
    apply List.drop_eq_nil_of_le
    rw [List.length_drop]
    omega
  have one : (s ++ old.drop s.length).length - s.length = 1 := by
    rw [List.length_append, List.length_drop]
    omega
  rw [overwrite_zero (by omega), overwrite, List.take_left, one, List.length_singleton,
    ← List.drop_drop, List.drop_left, tail, List.append_nil]
  rfl

/-- A `set_recovery_otapath` that returns 0 fills the field. -/
theorem setRecoveryOtapath_done {io : RecordIo} {path : Bytes} {misc stored : BootMessage}
    (set : setRecoveryOtapath io (some path) misc = (stored, 0)) :
    stored.get .recovery = strncpy path (Field.recovery.size - 1) ++ [0] := by
  obtain ⟨readOk, write⟩ := io
  cases readOk with
  | false => cases set
  | true =>
    cases write with
    | failed left => cases set
    | done =>
      cases set
      have erased : ∀ info : BootMessage, overwrite (info.get .recovery) 0
          (.replicate Field.recovery.size 0) = .replicate Field.recovery.size 0 := by
        intro info
        rw [overwrite_all (by rw [List.length_replicate, info.length_get])]
      have terminated := @overwrite_terminated (.replicate Field.recovery.size 0)
        (strncpy path (Field.recovery.size - 1)) (by rw [List.length_replicate, length_strncpy]; rfl)
      rw [length_strncpy] at terminated
      simp only [BootMessage.memset]
      rw [BootMessage.get_memcpy_inside _ (by decide) (by decide),
        BootMessage.get_memcpy_inside _ (by decide) (by rw [length_strncpy]; decide),
        BootMessage.get_memcpy_inside _ (by decide) (by rw [List.length_replicate]),
        Nat.sub_self, Nat.add_sub_cancel_left, erased]
      exact terminated

/-! ### What happens in between -/

/-- Writing the block of the AVB slots leaves the bytes in front of it, however much of it gets
through. -/
theorem overwrite_front (misc : Misc) (info : AvbABData) (written : ℕ) :
    (misc.overwrite (copyInfo misc.bytes info) written).bytes.take abMetadataMiscPartitionOffset =
      misc.bytes.take abMetadataMiscPartitionOffset := by
  apply List.ext_getElem?
  intro i
  simp only [Misc.overwrite, copyInfo_eq, List.getElem?_take]
  split_ifs with front
  · have inside : i < misc.bytes.length := by
      rw [misc.size]
      exact front.trans (by decide)
    rw [List.getElem?_append]
    split_ifs with through
    · rw [List.length_take, lt_min_iff] at through
      rw [List.getElem?_take_of_lt through.1, List.getElem?_take_of_lt inside,
        List.getElem?_append_left (by rwa [length_front]), List.getElem?_take_of_lt front]
    · rw [List.getElem?_drop, Nat.add_sub_cancel' (not_lt.mp through)]
  · rfl

theorem setBootloaderMessageBlock_front (io : MiscIo) (misc : Misc) (info : AvbABData) :
    (setBootloaderMessageBlock io misc.bytes info misc).1.bytes.take abMetadataMiscPartitionOffset =
      misc.bytes.take abMetadataMiscPartitionOffset := by
  cases opened : io.writeOpen with
  | false => simp [setBootloaderMessageBlock, opened]
  | true =>
    simp only [setBootloaderMessageBlock, opened, Bool.not_true, Bool.false_eq_true, if_false]
    exact overwrite_front misc info.seal io.written

theorem record_setActiveSlot (io : MiscIo) (slot : SlotType) (misc : Misc) :
    Misc.record (BootloaderMessage.setActiveSlot io slot misc).1 = Misc.record misc := by
  have front : (BootloaderMessage.setActiveSlot io slot misc).1.bytes.take
      abMetadataMiscPartitionOffset = misc.bytes.take abMetadataMiscPartitionOffset := by
    simp only [BootloaderMessage.setActiveSlot, getBootloaderMessageBlock]
    cases io.readOk with
    | false => rfl
    | true => exact setBootloaderMessageBlock_front io misc _
  have shorter : min recordSize abMetadataMiscPartitionOffset = recordSize := by decide
  simp only [Misc.record, BootMessage.mk.injEq]
  have cut := congrArg (List.take recordSize) front
  rwa [List.take_take, List.take_take, shorter] at cut

/-- The fields after a call in between. -/
theorem Between.recovery {misc misc' : BootMessage} (between : Between misc misc') :
    misc'.get .recovery = misc.get .recovery := by
  cases between with
  | @call op keeps readOk =>
    cases readOk with
    | false => cases op <;> first | rfl | exact keeps.elim
    | true =>
      apply get_run_other
      cases op <;> first | exact keeps.elim | simp [Op.Touches]
  | avb io slot misc => rw [record_setActiveSlot]

/-- What is written is the text that is read, cut to the field. -/
theorem text_of_set {io : RecordIo} {path : Bytes} {misc stored later : BootMessage}
    (plain : IsCString path) (set : setRecoveryOtapath io (some path) misc = (stored, 0))
    (between : Relation.ReflTransGen Between stored later) :
    cstring? (later.bytes.drop Field.recovery.offset) = some (path.take 767) := by
  have kept : later.get .recovery = stored.get .recovery := by
    clear set
    induction between with
    | refl => rfl
    | tail _ last ih => exact last.recovery.trans ih
  rw [BootMessage.drop_eq_get, kept, setRecoveryOtapath_done set, List.append_assoc]
  exact cstring?_strncpy plain 767 _

/-- A path that the reader accepts, and room for it before a terminator in the caller's buffer. -/
structure Readable (path buffer : Bytes) : Prop where
  short : path.length ≤ 255
  url : path.take 4 = urlPrefix
  terminated : buffer[path.length]? = some 0

/-- After a `set_recovery_otapath` that returned 0 and any calls in between, the path is read back
exactly if it is the start of a URL, of at most 255 bytes, and the buffer ends it. -/
theorem yields_iff {io : RecordIo} {path buffer : Bytes} {misc stored later : BootMessage}
    (plain : IsCString path) (room : 256 ≤ buffer.length)
    (set : setRecoveryOtapath io (some path) misc = (stored, 0))
    (between : Relation.ReflTransGen Between stored later) :
    Yields later buffer path ↔ Readable path buffer := by
  have text := text_of_set plain set between
  simp only [Yields, getRecoveryOtapath, text, Option.map_some, Bool.not_true, Bool.false_eq_true,
    if_false, Option.some.injEq]
  by_cases short : path.length ≤ 255
  · have whole : path.take 767 = path := List.take_of_length_le (by omega)
    rw [whole]
    by_cases url : path.take 4 = urlPrefix
    · have nonempty : path.length ≠ 0 := by
        intro empty
        rw [List.eq_nil_of_length_eq_zero empty] at url
        cases url
      have copied : overwrite buffer 0 path = path ++ buffer.drop path.length :=
        overwrite_zero (by omega)
      have accepted : ¬(path.length = 0 ∨ path.length ≥ 256) := by omega
      rw [if_neg accepted, if_neg (not_not.mpr url), copied]
      simp only [Prod.mk.injEq, and_true, exists_eq_left', cstring?_append_eq plain, List.getElem?_drop,
        Nat.add_zero]
      exact ⟨fun ends => ⟨short, url, ends⟩, Readable.terminated⟩
    · refine iff_of_false ?_ fun readable => url readable.url
      rintro ⟨result, returned, -⟩
      split_ifs at returned <;> simp at returned
  · have long : (path.take 767).length ≥ 256 := by
      rw [List.length_take]
      omega
    refine iff_of_false ?_ fun readable => short readable.short
    rintro ⟨result, returned, -⟩
    rw [if_pos (.inr long)] at returned
    cases returned

theorem setRecoveryOtapath_success (path : Bytes) (misc : BootMessage) :
    setRecoveryOtapath .success (some path) misc =
      ((setRecoveryOtapath .success (some path) misc).1, 0) := rfl

/-- `path_buf` of `urlmisc`. -/
def pathBuf : Bytes := List.replicate 256 0

/-- `http:a`. -/
def httpPath : Bytes := [104, 116, 116, 112, 58, 97]

/-- `ftp:a`. -/
def ftpPath : Bytes := [102, 116, 112, 58, 97]

theorem yields_iff_http :
    Yields (setRecovery .success (setRecoveryOtapath .success (some httpPath) blankRecord).1).1
      pathBuf httpPath ↔ Readable httpPath pathBuf := by
  have between := @Between.call .setRecovery trivial true
    (setRecoveryOtapath .success (some httpPath) blankRecord).1
  exact yields_iff (by decide) (by rw [pathBuf, List.length_replicate])
    (setRecoveryOtapath_success ..) (.single between)

/-- A path that is no URL is stored with success and never read back. -/
theorem not_yields_ftp :
    ∃ stored, setRecoveryOtapath .success (some ftpPath) blankRecord = (stored, 0) ∧
      ¬Yields stored pathBuf ftpPath := by
  refine ⟨_, setRecoveryOtapath_success .., ?_⟩
  rintro ⟨result, returned, -⟩
  have refused : (getRecoveryOtapath true
      (setRecoveryOtapath .success (some ftpPath) blankRecord).1 pathBuf).map Prod.snd =
        some (-1) := by
    decide +kernel
  have code := (congrArg (Option.map Prod.snd) returned).symm.trans refused
  cases code

end AmlCommonlib.BootloaderMessage.Record
