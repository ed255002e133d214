import AmlCommonlib.Lib.Endian
import AmlCommonlib.Lib.ProcMtd

/-! # The partition table

`mtd_scan_partitions` fills a table of 32 entries from `/proc/mtd`, and `get_mtd_by_name` looks into
it. An entry behind the end of the table is a write outside of it and has no result.
-/

namespace AmlCommonlib.BootloaderMessage.MtdTable

/-- `MtdPartition`. -/
structure MtdPartition where
  deviceIndex : ℤ
  size : ℤ
  eraseSize : ℤ
  name : Bytes
deriving DecidableEq

/-- `g_init`, and the first `g_mtd_number` entries of `mtdpartition`. -/
structure Globals where
  init : Bool
  mtdpartition : List MtdPartition
deriving DecidableEq

/-- The capacity of `mtdpartition`. -/
def capacity : ℕ := 32

/-- `sizeof(buf)`. -/
def bufSize : ℕ := 2048

/-- What the environment answers to one scan. -/
structure ScanIo where
  openOk : Bool
  read : Option Bytes
  /-- Whether the `strdup` for an entry has memory. -/
  strdupOk : ℕ → Bool

/-- Everything works, and the file has this text. -/
def ScanIo.success (text : Bytes) : ScanIo := ⟨true, some text, fun _ => true⟩

/-- Why the loop ends early. -/
inductive Stop
  /-- `return -1`, with the entries so far. -/
  | strdupFailed (mtdpartition : List MtdPartition)
  | outOfBounds

/-- `mtd%d: %llx %llx "%63[^"]`. -/
def scanFormat : List Directive := mtdFormat ++ [.literal 34, .span 63 34]

/-- The value of a `long long`. -/
def int64 (x : ℤ) : ℤ := Int.bmod x (2 ^ 64)

/-- The body of the loop, with the text from the line on. -/
def scanLine (strdupOk : ℕ → Bool) (mtdpartition : List MtdPartition) (bufp : Bytes) :
    Except Stop (List MtdPartition) :=
  match sscanf scanFormat bufp with
  | [.number mtdnum, .number _, .number mtderasesize, .text mtdname] =>
    if mtdpartition.length < capacity then
      if strdupOk mtdpartition.length then
        -- the size is that of the number, not `mtdsize`
        .ok (mtdpartition ++ [⟨int32 mtdnum, int32 mtdnum, int64 mtderasesize, mtdname⟩])
      else .error (.strdupFailed mtdpartition)
    else .error .outOfBounds
  | _ => .ok mtdpartition

/-- One pass of the loop. The buffer is zero behind what was read, so a string in it ends there. -/
def scanStep (strdupOk : ℕ → Bool) (st : Except Stop (List MtdPartition)) (bufp : Bytes) :
    Except Stop (List MtdPartition) :=
  st.bind fun table => scanLine strdupOk table (bufp.takeWhile (· != 0))

/-- `mtd_scan_partitions`. -/
def mtdScanPartitions (io : ScanIo) (g : Globals) : Option (Globals × ℤ) :=
  if g.init then some (g, 0)
  else if !io.openOk then some (g, -1)
  else match io.read with
    | none => some (g, -1)
    | some text =>
      match eachLine (scanStep io.strdupOk) (.ok g.mtdpartition) (text.take (bufSize - 1)) with
      | .ok table => some (⟨true, table⟩, 0)
      | .error (.strdupFailed table) => some (⟨false, table⟩, -1)
      | .error .outOfBounds => none

/-- `get_mtd_by_name`. -/
def getMtdByName (g : Globals) (name : Bytes) : ℤ :=
  match g.mtdpartition.find? fun p => p.name = name with
  | some p => p.deviceIndex
  | none => -1

/-- `g_init`, `g_mtd_number` and `mtdpartition` before the first scan. -/
def Globals.start : Globals := ⟨false, []⟩

/-! ### What the scan is for -/

/-- The entry of a line. -/
def entry (line : MtdLine) : MtdPartition := ⟨line.index, line.size, line.eraseSize, line.name⟩

/-- The scan succeeds, with a table of the lines in which names are found. -/
structure ScansTable (lines : List MtdLine) (g : Globals) : Prop where
  returned : mtdScanPartitions (.success (procMtd lines)) .start = some (g, 0)
  table : g.mtdpartition = lines.map entry
  lookup : ∀ name, getMtdByName g name =
    ((lines.find? fun line => line.name = name).map fun line => (line.index : ℤ)).getD (-1)

/-- A name of the kernel's form, and an erase size that fits a `u_int32_t`. -/
structure KernelForm (line : MtdLine) : Prop where
  nonempty : line.name ≠ []
  short : line.name.length ≤ 63
  unquoted : 34 ∉ line.name
  eraseSize : line.eraseSize < 2 ^ 32

/-! ### One line -/

/-- The entry that the loop makes of a line. -/
def scanned (line : MtdLine) : MtdPartition := { entry line with size := line.index }

theorem sscanf_line {line : MtdLine} (form : KernelForm line) (rest : Bytes) :
    sscanf scanFormat (line.text ++ rest) =
      [.number line.index, .number line.size, .number line.eraseSize, .text line.name] := by
  have name : ((line.name ++ 34 :: rest).take 63).takeWhile (· != 34) = line.name := by
    have plain : ∀ b ∈ line.name, (b != 34) = true := by
      intro b member
      have : b ≠ 34 := fun same => form.unquoted (same ▸ member)
      simpa using this
    rw [List.take_append, List.take_of_length_le form.short, List.takeWhile_append_of_pos plain]
    cases 63 - line.name.length <;> simp
  rw [scanFormat, sscanf_mtdFormat, sscanf_literal]
  simp [sscanf, Directive.read, takeText, name, form.nonempty]

theorem scanLine_line {line : MtdLine} (form : KernelForm line) (table : List MtdPartition)
    (rest : Bytes) : scanLine (fun _ => true) table (line.text ++ rest) =
      if table.length < capacity then .ok (table ++ [scanned line]) else .error .outOfBounds := by
  have index : int32 line.index = line.index :=
    int32_of_range (by omega) (by exact_mod_cast line.index_int)
  have eraseSize : int64 line.eraseSize = line.eraseSize := by
    have bound := form.eraseSize
    exact Int.bmod_eq_of_le (by omega) (by omega)
  simp only [scanLine, sscanf_line form, index, eraseSize, if_true]
  rfl

theorem scanStep_line {line : MtdLine} (form : KernelForm line) (st : Except Stop (List MtdPartition))
    (rest : Bytes) : scanStep (fun _ => true) st (line.text ++ 10 :: rest) =
      scanStep (fun _ => true) st line.text := by
  have alone := fun table => scanLine_line form table []
  simp only [List.append_nil] at alone
  simp only [scanStep, takeWhile_append_plain line.text_plain.1, takeWhile_plain line.text_plain.1,
    scanLine_line form, alone]

/-! ### The table -/

theorem foldl_error (strdupOk : ℕ → Bool) (stop : Stop) (ts : List Bytes) :
    ts.foldl (scanStep strdupOk) (.error stop) = .error stop := by
  induction ts with
  | nil => rfl
  | cons t ts ih => exact ih

/-- The entries of the lines, as long as there is room. -/
theorem foldl_lines {lines : List MtdLine} (form : ∀ line ∈ lines, KernelForm line)
    {table : List MtdPartition} (room : table.length ≤ capacity) :
    (lines.map MtdLine.text).foldl (scanStep fun _ => true) (.ok table) =
      if table.length + lines.length ≤ capacity then .ok (table ++ lines.map scanned)
      else .error .outOfBounds := by
  induction lines generalizing table with
  | nil => simp [room]
  | cons line lines ih =>
    have first : scanStep (fun _ => true) (.ok table) line.text =
        if table.length < capacity then .ok (table ++ [scanned line]) else .error .outOfBounds := by
      have alone := scanLine_line (form line (List.mem_cons_self ..)) table []
      rw [List.append_nil] at alone
      rw [scanStep, takeWhile_plain line.text_plain.1, Except.bind, alone]
    rw [List.map_cons, List.foldl_cons, first]
    split_ifs with free fits fits
    · rw [ih (fun l member => form l (List.mem_cons_of_mem _ member)) (by simp; omega), if_pos]
      · simp
      · simp only [List.length_append, List.length_cons, List.length_nil] at fits ⊢
        omega
    · rw [ih (fun l member => form l (List.mem_cons_of_mem _ member)) (by simp; omega), if_neg]
      simp only [List.length_append, List.length_cons, List.length_nil] at fits ⊢
      omega
    · simp only [List.length_cons] at fits
      omega
    · exact foldl_error ..

/-- What the scan makes of a text that fits its buffer. -/
theorem mtdScanPartitions_procMtd {lines : List MtdLine} (form : ∀ line ∈ lines, KernelForm line)
    (fits : (procMtd lines).length < bufSize) :
    mtdScanPartitions (.success (procMtd lines)) .start =
      if lines.length ≤ capacity then some (⟨true, lines.map scanned⟩, 0) else none := by
  have whole : (procMtd lines).take (bufSize - 1) = procMtd lines :=
    List.take_of_length_le (by omega)
  have plain := procMtd_plain lines
  have reads : ∀ t ∈ mtdHeader :: lines.map MtdLine.text, ∀ st rest,
      scanStep (fun _ => true) st (t ++ 10 :: rest) = scanStep (fun _ => true) st t := by
    simp only [List.forall_mem_cons, List.forall_mem_map]
    refine ⟨?_, fun line member => scanStep_line (form line member)⟩
    intro st rest
    have header : IsCString mtdHeader := by decide
    rw [scanStep, scanStep, takeWhile_append_plain header, takeWhile_plain header]
    rfl
  have scan : eachLine (scanStep fun _ => true) (.ok []) (procMtd lines) =
      if lines.length ≤ capacity then .ok (lines.map scanned) else .error .outOfBounds := by
    rw [procMtd, eachLine_unlines (fun t member => (plain t member).2) reads, List.foldl_cons]
    have first : scanStep (fun _ => true) (.ok []) mtdHeader = .ok [] := rfl
    rw [first, foldl_lines form (Nat.zero_le _), List.length_nil, Nat.zero_add, List.nil_append]
  simp only [mtdScanPartitions, Globals.start, ScanIo.success, Bool.not_true, Bool.false_eq_true,
    if_false, whole, scan]
  split_ifs <;> rfl

/-- For every text of the kernel's form that fits the buffer: the scan fills the table with the lines
exactly if there are at most 32, and each has a size that equals its number. -/
theorem scansTable_iff {lines : List MtdLine} (form : ∀ line ∈ lines, KernelForm line)
    (fits : (procMtd lines).length ≤ 2047) :
    (∃ g, ScansTable lines g) ↔
      lines.length ≤ capacity ∧ ∀ line ∈ lines, line.size = line.index := by
  have scan := mtdScanPartitions_procMtd form (Nat.lt_succ_of_le fits)
  constructor
  · rintro ⟨g, scans⟩
    have returned := scans.returned
    rw [scan] at returned
    split_ifs at returned with room
    cases returned
    refine ⟨room, ?_⟩
    intro line member
    have entries : scanned line = entry line := List.map_inj_left.mp scans.table line member
    have sizes : (line.index : ℤ) = line.size := congrArg MtdPartition.size entries
    omega
  · rintro ⟨room, sizes⟩
    have same : lines.map scanned = lines.map entry := by
      apply List.map_congr_left
      intro line member
      rw [scanned, ← sizes line member]
      rfl
    rw [if_pos room, same] at scan
    refine ⟨_, scan, rfl, ?_⟩
    intro name
    have found : (lines.map entry).find? (fun p => p.name = name) =
        (lines.find? fun line => line.name = name).map entry := List.find?_map ..
    simp only [getMtdByName, found]
    cases lines.find? fun line => line.name = name <;> rfl

/-- The partition `misc` of 128 KiB, as the only one. -/
def miscLine : MtdLine where
  index := 0
  size := 0x20000
  eraseSize := 0x20000
  name := [109, 105, 115, 99]
  index_int := by decide
  name_plain := by decide
  name_line := by decide

theorem miscLine_form : ∀ line ∈ [miscLine], KernelForm line := by
  intro line member
  rw [List.mem_singleton.mp member]
  exact ⟨by decide, by decide, by decide, by decide⟩

/-- The partition `boot` behind it. -/
def bootLine : MtdLine where
  index := 1
  size := 0x800000
  eraseSize := 0x20000
  name := [98, 111, 111, 116]
  index_int := by decide
  name_plain := by decide
  name_line := by decide

/-- Both with as many bytes as their numbers say, which is scanned, and with their own sizes. -/
theorem scansTable_iff_misc :
    (∃ g, ScansTable [{ miscLine with size := 0 }, { bootLine with size := 1 }] g) ∧
      ¬∃ g, ScansTable [miscLine, bootLine] g := by
  have form : ∀ line ∈ [miscLine, bootLine, { miscLine with size := 0 }, { bootLine with size := 1 }],
      KernelForm line := by
    simp only [List.mem_cons, List.not_mem_nil, or_false]
    rintro line (rfl | rfl | rfl | rfl)
    all_goals exact ⟨by decide, by decide, by decide, by decide⟩
  constructor
  · apply (scansTable_iff (fun line member => form line ?_) (by decide +kernel)).mpr
    · exact ⟨by decide, by decide⟩
    · exact List.mem_cons_of_mem _ (List.mem_cons_of_mem _ member)
  · rw [scansTable_iff (fun line member => form line ?_) (by decide +kernel)]
    · rintro ⟨-, sizes⟩
      exact absurd (sizes bootLine (by simp)) (by decide)
    · rcases List.mem_pair.mp member with rfl | rfl
      · exact List.mem_cons_self ..
      · exact List.mem_cons_of_mem _ (List.mem_cons_self ..)

/-- A table that fits is scanned without the sizes of its partitions. -/
theorem not_scansTable_misc : (∀ line ∈ [miscLine], KernelForm line) ∧
    (procMtd [miscLine]).length ≤ 2047 ∧ ¬∃ g, ScansTable [miscLine] g := by
  refine ⟨miscLine_form, by decide +kernel, ?_⟩
  rintro ⟨g, scans⟩
  have scan := mtdScanPartitions_procMtd miscLine_form (by decide +kernel)
  cases scans.returned.symm.trans scan
  have sizes := congrArg (List.map MtdPartition.size) scans.table
  revert sizes
  decide

end AmlCommonlib.BootloaderMessage.MtdTable
