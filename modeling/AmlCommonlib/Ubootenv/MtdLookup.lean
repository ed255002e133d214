import AmlCommonlib.Lib.Endian
import AmlCommonlib.Lib.ProcMtd
import Mathlib.Data.List.Find

/-! # The number of a partition

`mtd_name_to_number` reads the table of partitions once. A name is scanned as a word of 15 bytes with
its opening quote, so what is stored ends at the first blank, the first quote or its fourteenth byte.
-/

namespace AmlCommonlib.Ubootenv

/-- `MAX_MTD_PARTITIONS`. -/
def maxMtdPartitions : ℕ := 20

/-- `sizeof(buf)`; the last byte is a terminator. -/
def mtdBufSize : ℕ := 1024

/-- An entry of `mtd_part_map`. -/
structure MtdPart where
  name : Bytes
  number : ℤ
deriving DecidableEq

/-- What the environment answers to one `find_mtd_partitions`. -/
structure MtdIo where
  openOk : Bool
  read : Option Bytes
  /-- What the buffer held behind the text. -/
  garbage : Bytes

/-- `mtd%d: %x %x %15s`. -/
def partFormat : List Directive := mtdFormat ++ [.word 15]

/-- The body of the loop, with the string from the line on. -/
def findLine (mtdPartMap : List MtdPart) (pmtdbufp : Bytes) : List MtdPart :=
  match sscanf partFormat pmtdbufp with
  | [.number mtdnum, .number _, .number _, .text (34 :: mtdname)] =>
    if mtdPartMap.length < maxMtdPartitions then
      mtdPartMap ++ [⟨mtdname.takeWhile (· != 34), int32 mtdnum⟩]
    else mtdPartMap
  | _ => mtdPartMap

/-- `find_mtd_partitions`. A string in the buffer may go on behind the text. -/
def findMtdPartitions (io : MtdIo) (mtdPartMap : List MtdPart) : List MtdPart :=
  if !io.openOk then mtdPartMap
  else match io.read with
    | none => mtdPartMap
    | some text =>
      eachLine (fun map pmtdbufp => findLine map ((pmtdbufp ++ io.garbage ++ [0]).takeWhile (· != 0)))
        mtdPartMap (text.take (mtdBufSize - 1))

/-- `mtd_name_to_number`; without a map `mtd_part_count` is still negative. -/
def mtdNameToNumber (io : MtdIo) (name : Bytes) (mtdPartMap : Option (List MtdPart)) :
    List MtdPart × ℤ :=
  let map := match mtdPartMap with
    | some map => map
    | none => findMtdPartitions io []
  (map, match map.find? fun part => part.name = name with
    | some part => part.number
    | none => -1)

/-- The lookup finds the first partition with exactly this name. -/
def FindsExactly (lines : List MtdLine) (garbage : Bytes) : Prop :=
  ∀ name, IsCString name → (mtdNameToNumber ⟨true, some (procMtd lines), garbage⟩ name none).2 =
    ((lines.find? fun line => line.name = name).map fun line => (line.index : ℤ)).getD (-1)

/-! ### What is stored of a name -/

def storedName (name : Bytes) : Bytes :=
  ((name.take 14).takeWhile fun b => !isBlank b).takeWhile (· != 34)

/-- A name that is stored as it is. -/
structure NameStored (name : Bytes) : Prop where
  short : name.length ≤ 14
  word : ∀ b ∈ name, isBlank b = false
  unquoted : 34 ∉ name

theorem nameStored_storedName (name : Bytes) : NameStored (storedName name) where
  short := by
    have cut : (storedName name).length ≤ (name.take 14).length :=
      ((List.takeWhile_prefix _).trans (List.takeWhile_prefix _)).length_le
    exact cut.trans (List.length_take_le ..)
  word b member := by
    have inside := List.mem_takeWhile_imp ((List.takeWhile_prefix _).subset member)
    simpa using inside
  unquoted member := by simpa using List.mem_takeWhile_imp member

theorem NameStored.same {name : Bytes} (stored : NameStored name) : storedName name = name := by
  have word : name.takeWhile (fun b => !isBlank b) = name := by
    apply List.takeWhile_eq_self_iff.mpr
    intro b member
    simp [stored.word b member]
  have unquoted : name.takeWhile (· != 34) = name := by
    apply List.takeWhile_eq_self_iff.mpr
    intro b member
    have : b ≠ 34 := fun same => stored.unquoted (same ▸ member)
    simpa using this
  rw [storedName, List.take_of_length_le stored.short, word, unquoted]

/-- The closing quote ends the name wherever the width cuts the word. -/
theorem cut_at_quote (name rest : Bytes) (width : ℕ) :
    ((((name ++ 34 :: rest).take width).takeWhile fun b => !isBlank b).takeWhile (· != 34)) =
      ((name.take width).takeWhile fun b => !isBlank b).takeWhile (· != 34) := by
  induction name generalizing width with
  | nil =>
    cases width with
    | zero => rfl
    | succ width => simp [show isBlank 34 = false from rfl]
  | cons b name ih =>
    cases width with
    | zero => rfl
    | succ width =>
      simp only [List.cons_append, List.take_succ_cons, List.takeWhile_cons]
      split_ifs
      · simp only [List.takeWhile_cons, ih]
      · rfl

/-! ### The table -/

theorem sscanf_part (line : MtdLine) (rest : Bytes) : ∃ word,
    sscanf partFormat (line.text ++ rest) = [.number line.index, .number line.size,
      .number line.eraseSize, .text (34 :: word)] ∧ word.takeWhile (· != 34) = storedName line.name := by
  refine ⟨((line.name ++ 34 :: rest).take 14).takeWhile fun b => !isBlank b, ?_, cut_at_quote ..⟩
  rw [partFormat, sscanf_mtdFormat]
  simp [sscanf, Directive.read, takeText, show isBlank 34 = false from rfl]

theorem findLine_line (map : List MtdPart) (line : MtdLine) (rest : Bytes) :
    findLine map (line.text ++ rest) = if map.length < maxMtdPartitions then
      map ++ [⟨storedName line.name, line.index⟩] else map := by
  obtain ⟨word, scanned, name⟩ := sscanf_part line rest
  have index : int32 line.index = line.index :=
    int32_of_range (by omega) (by exact_mod_cast line.index_int)
  simp only [findLine, scanned, name, index]

/-- The entry of a line. -/
def storedPart (line : MtdLine) : MtdPart := ⟨storedName line.name, line.index⟩

theorem foldl_findLine {lines : List MtdLine} {map : List MtdPart}
    (room : map.length + lines.length ≤ maxMtdPartitions) :
    (lines.map MtdLine.text).foldl findLine map = map ++ lines.map storedPart := by
  induction lines generalizing map with
  | nil => simp
  | cons line lines ih =>
    simp only [List.length_cons] at room
    have first : findLine map line.text = map ++ [storedPart line] := by
      have alone := findLine_line map line []
      rw [List.append_nil, if_pos (by omega)] at alone
      exact alone
    rw [List.map_cons, List.foldl_cons, first, ih]
    · simp
    · simp only [List.length_append, List.length_cons, List.length_nil]
      omega

/-- The map after the first call, whatever the buffer held before. -/
theorem findMtdPartitions_procMtd {lines : List MtdLine} (fits : (procMtd lines).length < mtdBufSize)
    (room : lines.length ≤ maxMtdPartitions) (garbage : Bytes) :
    findMtdPartitions ⟨true, some (procMtd lines), garbage⟩ [] = lines.map storedPart := by
  have whole : (procMtd lines).take (mtdBufSize - 1) = procMtd lines :=
    List.take_of_length_le (by omega)
  have plain := procMtd_plain lines
  have reads : ∀ t ∈ mtdHeader :: lines.map MtdLine.text, ∀ map rest,
      findLine map ((t ++ 10 :: rest ++ garbage ++ [0]).takeWhile (· != 0)) = findLine map t := by
    simp only [List.forall_mem_cons, List.forall_mem_map, List.append_assoc]
    constructor
    · intro map rest
      rw [takeWhile_append_plain (by decide)]
      rfl
    · intro line _ map rest
      have alone := findLine_line map line []
      rw [List.append_nil] at alone
      rw [takeWhile_append_plain line.text_plain.1, findLine_line, alone]
  simp only [findMtdPartitions, Bool.not_true, Bool.false_eq_true, if_false, whole]
  rw [procMtd, eachLine_unlines (fun t member => (plain t member).2) reads, List.foldl_cons]
  have first : findLine [] mtdHeader = [] := rfl
  rw [first, foldl_findLine (by simpa using room), List.nil_append]

/-- For every text of the kernel's form that fits the buffer and the table, and whatever the buffer
held before: the lookup is exact for all names exactly if every name of a partition has at most 14
bytes, and none of them is a blank or a quote. -/
theorem findsExactly_iff {lines : List MtdLine} (fits : (procMtd lines).length ≤ 1023)
    (room : lines.length ≤ maxMtdPartitions) (garbage : Bytes) :
    FindsExactly lines garbage ↔ ∀ line ∈ lines, NameStored line.name := by
  have table := findMtdPartitions_procMtd (Nat.lt_succ_of_le fits) room garbage
  have looked : ∀ name, (mtdNameToNumber ⟨true, some (procMtd lines), garbage⟩ name none).2 =
      ((lines.find? fun line => storedName line.name = name).map
        fun line => (line.index : ℤ)).getD (-1) := by
    intro name
    have found : (lines.map storedPart).find? (fun part => part.name = name) =
        (lines.find? fun line => storedName line.name = name).map storedPart := List.find?_map ..
    simp only [mtdNameToNumber, table, found]
    cases lines.find? fun line => storedName line.name = name <;> rfl
  constructor
  · intro exact line member
    by_contra notStored
    have missing : (lines.find? fun l => storedName l.name = line.name) = none := by
      apply List.find?_eq_none.mpr
      intro l _ same
      exact notStored (of_decide_eq_true same ▸ nameStored_storedName l.name)
    have present : (lines.find? fun l => l.name = line.name).isSome = true :=
      List.find?_isSome.mpr ⟨line, member, by simp⟩
    obtain ⟨first, found⟩ := Option.isSome_iff_exists.mp present
    have number := exact line.name line.name_plain
    rw [looked, missing, found] at number
    simp only [Option.map_none, Option.getD_none, Option.map_some, Option.getD_some] at number
    omega
  · intro stored name _
    rw [looked]
    have same : (lines.find? fun line => storedName line.name = name) =
        lines.find? fun line => line.name = name := by
      apply List.find?_congr
      intro line member
      rw [(stored line member).same]
    rw [same]

/-- A partition with a name that is stored as it is. -/
def ubootenvLine : MtdLine where
  index := 3
  size := 0x20000
  eraseSize := 0x20000
  name := [117, 98, 111, 111, 116, 101, 110, 118]
  index_int := by decide
  name_plain := by decide
  name_line := by decide

/-- A partition with a name of 15 bytes. -/
def longLine : MtdLine where
  index := 5
  size := 0x20000
  eraseSize := 0x20000
  name := List.replicate 15 97
  index_int := by decide
  name_plain := by decide
  name_line := by decide

/-- The partition `dtb`. -/
def dtbLine : MtdLine where
  index := 6
  size := 0x20000
  eraseSize := 0x20000
  name := [100, 116, 98]
  index_int := by decide
  name_plain := by decide
  name_line := by decide

/-- Every name of two partitions is found as it is, and not with a long one behind them. -/
theorem findsExactly_iff_ubootenv : FindsExactly [dtbLine, ubootenvLine] [] ∧
    ¬FindsExactly [dtbLine, ubootenvLine, longLine] [] := by
  constructor
  · apply (findsExactly_iff (by decide +kernel) (by decide) []).mpr
    simp only [List.mem_cons, List.not_mem_nil, or_false]
    rintro line (rfl | rfl)
    all_goals exact ⟨by decide, by decide +kernel, by decide⟩
  · rw [findsExactly_iff (by decide +kernel) (by decide) []]
    intro stored
    exact absurd (stored longLine (by simp)).short (by decide)

/-- A partition with a long name is not found under its name. -/
theorem not_findsExactly_long : (procMtd [longLine]).length ≤ 1023 ∧
    [longLine].length ≤ maxMtdPartitions ∧ ¬FindsExactly [longLine] [] := by
  refine ⟨by decide +kernel, by decide, ?_⟩
  intro exact
  have number := exact longLine.name (by decide)
  revert number
  decide +kernel

end AmlCommonlib.Ubootenv
