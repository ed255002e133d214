import AmlCommonlib.BootloaderMessage.MtdTable
import AmlCommonlib.BootloaderMessage.Record

/-! # The boot message on NAND

`set_bootloader_message_mtd` erases the good blocks of the `misc` partition and writes one page into
the first of them; `get_bootloader_message_mtd` reads one page of it. The page buffer has the size of
a page, the copies have the size of the record. Erased flash holds ones and a write can only clear
them. A copy that leaves the page buffer has no result.
-/

namespace AmlCommonlib.BootloaderMessage.Nand

open MtdTable Record

/-- The sizes of `MEMGETINFO`. -/
structure MtdInfo where
  size : ℕ
  erasesize : ℕ
  writesize : ℕ
  size_u32 : size < 2 ^ 32
  size_blocks : erasesize ∣ size
  erasesize_pow : ∃ k, erasesize = 2 ^ k
  erasesize_pages : writesize ∣ erasesize
  writesize_pow : ∃ k, writesize = 2 ^ k

/-- The contents of the partition, and the blocks that `MEMERASE` was called for. -/
structure Flash where
  mem : ℕ → UInt8
  erased : List ℕ

/-- A device: its sizes, and whether the block at an offset is bad. -/
structure Mtd extends MtdInfo where
  bad : ℕ → Bool

/-- What the system calls of one function answer. -/
structure NandIo where
  openOk : Bool
  fstatOk : Bool
  isChr : Bool
  memGetInfoOk : Bool
  memGetBadBlockOk : ℕ → Bool
  memEraseOk : ℕ → Bool
  mallocOk : Bool
  /-- The bytes that `read` or `write` moves, where that is not a page. -/
  moved : Option ℕ

/-- Nothing fails on a good block. -/
def NandIo.success : NandIo :=
  ⟨true, true, true, true, fun _ => true, fun _ => true, true, none⟩

/-! ### The driver -/

/-- `MEMGETBADBLOCK`. -/
def Mtd.memGetBadBlock (io : NandIo) (d : Mtd) (offs : ℕ) : ℤ :=
  if !io.memGetBadBlockOk offs then -1 else if d.bad offs then 1 else 0

/-- `MEMERASE` of one block; it fails on a bad one. -/
def Mtd.memErase (io : NandIo) (d : Mtd) (start : ℕ) (f : Flash) : Flash × ℤ :=
  if !io.memEraseOk start || d.bad start then ({ f with erased := start :: f.erased }, -1)
  else
    (⟨fun i => if start ≤ i ∧ i < start + d.erasesize then 255 else f.mem i, start :: f.erased⟩, 0)

/-- `write` of a page or a part of one. -/
def Flash.program (f : Flash) (offset : ℕ) (page : Bytes) : Flash :=
  { f with mem := fun i =>
      if offset ≤ i ∧ i < offset + page.length then f.mem i &&& page.getD (i - offset) 0 else f.mem i }

/-! ### The functions -/

/-- `get_mtd_size`; the unsigned size is returned as an `int`. -/
def getMtdSize (io : NandIo) (d : Mtd) : ℤ :=
  if !io.openOk then -1 else if !io.memGetInfoOk then -1 else int32 d.size

/-- The loop of `nand_erase` up to `limit`. -/
def eraseLoop (io : NandIo) (d : Mtd) (limit : ℕ) : ℕ → ℕ → Flash → Flash × ℤ
  | 0, _, f => (f, 0)
  | fuel + 1, start, f =>
    if start < limit then
      if 0 < d.memGetBadBlock io start then eraseLoop io d limit fuel (start + d.erasesize) f
      else if d.memGetBadBlock io start < 0 then (f, -1)
      else
        match d.memErase io start f with
        | (f, ret) =>
          if ret < 0 then (f, -1) else eraseLoop io d limit fuel (start + d.erasesize) f
    else (f, 0)

/-- Passes of a loop over the blocks. -/
def Mtd.blocks (d : Mtd) : ℕ := d.size / d.erasesize + 1

/-- `nand_erase`. -/
def nandErase (io : NandIo) (d : Mtd) (offset len : ℕ) (f : Flash) : Flash × ℤ :=
  if !io.openOk then (f, -1)
  else if !io.fstatOk then (f, -1)
  else if !io.isChr then (f, -1)
  else if !io.memGetInfoOk then (f, -1)
  else eraseLoop io d (offset + len) d.blocks offset f

/-- The loop of `next_good_eraseblock`. -/
def nextGoodEraseblock (io : NandIo) (d : Mtd) : ℕ → ℕ → ℕ
  | 0, blockOffset => blockOffset
  | fuel + 1, blockOffset =>
    if d.size ≤ blockOffset then blockOffset
    else if d.memGetBadBlock io blockOffset = 0 then blockOffset
    else nextGoodEraseblock io d fuel (blockOffset + d.erasesize)

/-- The block of an offset: `offset & ~(erasesize - 1)`. -/
def Mtd.blockStart (d : Mtd) (offset : ℕ) : ℕ := offset - offset % d.erasesize

/-- The part that `nand_read` and `nand_write` share: the offset of the page, if there is one. -/
def findPage (io : NandIo) (d : Mtd) (mtdOffset : ℕ) : Option ℕ :=
  if !io.openOk then none
  else if !io.memGetInfoOk then none
  else if mtdOffset &&& (d.writesize - 1) ≠ 0 then none
  else if !io.mallocOk then none
  else
    let offset := nextGoodEraseblock io d d.blocks (d.blockStart mtdOffset)
    if d.size ≤ offset then none else some offset

/-- `lseek` fails; it gets the offset as an `int`. -/
def seekFails (offset : ℕ) : Bool := int32 offset < 0

/-- `nand_read` into `data`. -/
def nandRead (io : NandIo) (d : Mtd) (mtdOffset : ℕ) (data : Bytes) (len : ℕ) (f : Flash) :
    Option (Bytes × ℤ) :=
  match findPage io d mtdOffset with
  | none => some (data, -1)
  | some offset =>
    if seekFails offset then some (data, -1)
    else if io.moved.getD d.writesize ≠ d.writesize then some (data, -1)
    else if d.writesize < len then none
    else some (overwrite data 0 ((window f.mem offset d.writesize).take len), 0)

/-- The page buffer of `nand_write`. -/
def Mtd.pageOf (d : Mtd) (data : Bytes) : Bytes := data ++ .replicate (d.writesize - data.length) 0

/-- `nand_write`. -/
def nandWrite (io : NandIo) (d : Mtd) (mtdOffset : ℕ) (data : Bytes) (f : Flash) :
    Option (Flash × ℤ) :=
  match findPage io d mtdOffset with
  | none => some (f, -1)
  | some offset =>
    -- the copy into the page buffer comes before `lseek`
    if d.writesize < data.length then none
    else if seekFails offset then some (f, -1)
    else
      let size := io.moved.getD d.writesize
      let f := f.program offset ((d.pageOf data).take size)
      if size ≠ d.writesize then some (f, -1) else some (f, 0)

/-- `misc` -/
def miscName : Bytes := [109, 105, 115, 99]

/-- `get_bootloader_message_mtd` into `out`. -/
def getBootloaderMessageMtd (io : NandIo) (g : Globals) (d : Mtd) (f : Flash) (out : BootMessage) :
    Option (Bytes × ℤ) :=
  if getMtdByName g miscName < 0 then some (out.bytes, -1)
  else (nandRead io d 0 (.replicate recordSize 0) recordSize f).map fun (temp, ret) =>
    if ret < 0 then (out.bytes, -1) else (temp, 0)

/-- `set_bootloader_message_mtd`, with the answers to each of its three calls. -/
def setBootloaderMessageMtd (sizeIo eraseIo writeIo : NandIo) (g : Globals) (d : Mtd)
    (message : BootMessage) (f : Flash) : Option (Flash × ℤ) :=
  if getMtdByName g miscName < 0 then some (f, -1)
  else if getMtdSize sizeIo d < 0 then some (f, -1)
  else
    match nandErase eraseIo d 0 (getMtdSize sizeIo d).toNat f with
    | (f, ret) =>
      if ret < 0 then some (f, -1)
      else (nandWrite writeIo d 0 message.bytes f).map fun (f, ret) =>
        if ret < 0 then (f, -1) else (f, 0)

/-! ### What is to hold -/

/-- Writing succeeds inside the page buffer, no bad block is erased, and reading gives the message. -/
structure KeepsMessage (g : Globals) (d : Mtd) (f : Flash) (message : BootMessage) : Prop where
  stored : ∃ f', setBootloaderMessageMtd .success .success .success g d message f = some (f', 0) ∧
    (∀ start ∈ f'.erased, start ∈ f.erased ∨ d.bad start = false) ∧
    ∀ out, getBootloaderMessageMtd .success g d f' out = some (message.bytes, 0)

/-- Some block is good. -/
def Mtd.HasGood (d : Mtd) : Prop := ∃ b, d.erasesize ∣ b ∧ b < d.size ∧ d.bad b = false

/-! ### The loops -/

variable {d : Mtd}

theorem Mtd.erasesize_pos (d : Mtd) : 0 < d.erasesize := by
  obtain ⟨k, pow⟩ := d.erasesize_pow
  rw [pow]
  exact Nat.two_pow_pos k

/-- Two aligned offsets are the same or a block apart. -/
theorem Mtd.next_block {a b : ℕ} (left : d.erasesize ∣ a) (right : d.erasesize ∣ b) (after : a ≤ b) :
    a = b ∨ a + d.erasesize ≤ b := by
  rcases Nat.eq_or_lt_of_le after with same | later
  · exact .inl same
  · have apart := Nat.le_of_dvd (by omega) (Nat.dvd_sub right left)
    exact .inr (by omega)

/-- What an erased part of the flash looks like. -/
def Flash.Blank (f : Flash) (offset n : ℕ) : Prop := ∀ i, offset ≤ i → i < offset + n → f.mem i = 255

/-- A block is good or bad to a device that answers. -/
theorem memGetBadBlock_success (d : Mtd) (offs : ℕ) :
    d.memGetBadBlock .success offs = if d.bad offs then 1 else 0 := rfl

theorem memErase_good {start : ℕ} (good : d.bad start = false) (f : Flash) :
    ∃ f', d.memErase .success start f = (f', 0) ∧ f'.Blank start d.erasesize ∧
      (∀ i, f.mem i = 255 → f'.mem i = 255) ∧ f'.erased = start :: f.erased := by
  refine ⟨_, by rw [Mtd.memErase, good]; rfl, ?_, ?_, rfl⟩
  · intro i low high
    simp [low, high]
  · intro i ones
    simp [ones]

theorem eraseLoop_bad {limit fuel start : ℕ} (inside : start < limit) (bad : d.bad start = true)
    (f : Flash) : eraseLoop .success d limit (fuel + 1) start f =
      eraseLoop .success d limit fuel (start + d.erasesize) f := by
  rw [eraseLoop, if_pos inside, memGetBadBlock_success, bad, if_pos rfl, if_pos Int.one_pos]

theorem eraseLoop_good {limit fuel start : ℕ} {f f' : Flash} (inside : start < limit)
    (good : d.bad start = false) (erased : d.memErase .success start f = (f', 0)) :
    eraseLoop .success d limit (fuel + 1) start f =
      eraseLoop .success d limit fuel (start + d.erasesize) f' := by
  rw [eraseLoop, if_pos inside, memGetBadBlock_success, good, if_neg Bool.false_ne_true,
    if_neg (lt_irrefl 0), if_neg (lt_irrefl 0), erased]
  exact if_neg (lt_irrefl 0)

/-- Every good block from `start` to `limit` gets erased, and no bad one. -/
structure Erases (d : Mtd) (limit start : ℕ) (f f' : Flash) : Prop where
  kept : ∀ i, f.mem i = 255 → f'.mem i = 255
  blank : ∀ b, d.erasesize ∣ b → start ≤ b → b < limit → d.bad b = false → f'.Blank b d.erasesize
  spared : ∀ b ∈ f'.erased, b ∈ f.erased ∨ d.bad b = false

theorem Erases.none {limit start : ℕ} (nothing : limit ≤ start) (f : Flash) :
    Erases d limit start f f := by
  refine ⟨fun _ ones => ones, ?_, fun b member => .inl member⟩
  intro b _ low high
  omega

theorem Erases.bad {limit start : ℕ} {f f' : Flash} (aligned : d.erasesize ∣ start)
    (bad : d.bad start = true) (rest : Erases d limit (start + d.erasesize) f f') :
    Erases d limit start f f' := by
  refine ⟨rest.kept, ?_, rest.spared⟩
  intro b block low high good
  rcases Mtd.next_block aligned block low with rfl | later
  · rw [bad] at good
    cases good
  · exact rest.blank b block later high good

theorem Erases.good {limit start : ℕ} {f f₁ f' : Flash} (aligned : d.erasesize ∣ start)
    (good : d.bad start = false) (blank : f₁.Blank start d.erasesize)
    (kept : ∀ i, f.mem i = 255 → f₁.mem i = 255) (record : f₁.erased = start :: f.erased)
    (rest : Erases d limit (start + d.erasesize) f₁ f') : Erases d limit start f f' where
  kept i ones := rest.kept i (kept i ones)
  blank b block low high isGood := by
    rcases Mtd.next_block aligned block low with rfl | later
    · intro i low high
      exact rest.kept i (blank i low high)
    · exact rest.blank b block later high isGood
  spared b member := by
    rcases rest.spared b member with old | isGood
    · rw [record] at old
      rcases List.mem_cons.mp old with rfl | old
      · exact .inr good
      · exact .inl old
    · exact .inr isGood

theorem eraseLoop_spec {limit : ℕ} (fuel : ℕ) :
    ∀ {start : ℕ} (f : Flash), d.erasesize ∣ start → limit ≤ start + fuel * d.erasesize →
      ∃ f', eraseLoop .success d limit fuel start f = (f', 0) ∧ Erases d limit start f f' := by
  induction fuel with
  | zero =>
    intro start f aligned enough
    exact ⟨f, rfl, .none (by omega) f⟩
  | succ fuel ih =>
    intro start f aligned enough
    have aligned' : d.erasesize ∣ start + d.erasesize := Nat.dvd_add_self_right.mpr aligned
    rw [Nat.succ_mul] at enough
    by_cases inside : start < limit
    · cases bad : d.bad start with
      | true =>
        obtain ⟨f', done, rest⟩ := ih f aligned' (by omega)
        exact ⟨f', (eraseLoop_bad inside bad f).trans done, .bad aligned bad rest⟩
      | false =>
        obtain ⟨f₁, erased, blank, kept, record⟩ := memErase_good bad f
        obtain ⟨f', done, rest⟩ := ih f₁ aligned' (by omega)
        exact ⟨f', (eraseLoop_good inside bad erased).trans done,
          .good aligned bad blank kept record rest⟩
    · exact ⟨f, by rw [eraseLoop, if_neg inside], .none (not_lt.mp inside) f⟩

/-- The search ends at a good block if there is one from its start on. -/
theorem nextGood_spec (fuel : ℕ) : ∀ {start good : ℕ}, d.erasesize ∣ start → d.erasesize ∣ good →
    start ≤ good → good < d.size → d.bad good = false → good < start + fuel * d.erasesize →
      ∃ found, nextGoodEraseblock .success d fuel start = found ∧ d.erasesize ∣ found ∧
        found < d.size ∧ d.bad found = false := by
  induction fuel with
  | zero =>
    intro start good _ _ low _ _ enough
    omega
  | succ fuel ih =>
    intro start good aligned block low high isGood enough
    rw [Nat.succ_mul] at enough
    rw [nextGoodEraseblock, if_neg (by omega), memGetBadBlock_success]
    cases bad : d.bad start with
    | true =>
      have later : start + d.erasesize ≤ good := by
        rcases Mtd.next_block aligned block low with rfl | later
        · rw [bad] at isGood
          cases isGood
        · exact later
      exact ih (Nat.dvd_add_self_right.mpr aligned) block later high isGood (by omega)
    | false => exact ⟨start, rfl, aligned, by omega, bad⟩

/-! ### One page -/

/-- The loops over the blocks have passes enough. -/
theorem Mtd.blocks_cover (d : Mtd) : d.size < d.blocks * d.erasesize := by
  rw [blocks, Nat.succ_mul]
  exact Nat.lt_div_mul_add d.erasesize_pos

theorem Mtd.writesize_le (d : Mtd) : d.writesize ≤ d.erasesize :=
  Nat.le_of_dvd d.erasesize_pos d.erasesize_pages

/-- Reading and writing take the same page, at the start of a good block. -/
theorem findPage_spec (good : d.HasGood) :
    ∃ offset, findPage .success d 0 = some offset ∧ d.erasesize ∣ offset ∧ offset < d.size ∧
      d.bad offset = false := by
  obtain ⟨b, block, inside, isGood⟩ := good
  obtain ⟨offset, found, aligned, high, isGood⟩ := nextGood_spec d.blocks (dvd_zero d.erasesize)
    block (Nat.zero_le b) inside isGood (by have := d.blocks_cover; omega)
  refine ⟨offset, ?_, aligned, high, isGood⟩
  simp only [findPage, NandIo.success, Mtd.blockStart, Nat.zero_and, Nat.zero_sub, Bool.not_true,
    Bool.false_eq_true, if_false, ne_eq, not_true_eq_false]
  rw [← NandIo.success, found, if_neg (Nat.not_le.mpr high)]

theorem seekFails_small {offset : ℕ} (small : offset < 2 ^ 31) : seekFails offset = false := by
  have offset : int32 offset = offset := int32_of_range (by omega) (by omega)
  rw [seekFails, offset, decide_eq_false_iff_not]
  omega

/-- A page written to erased flash is read back. -/
theorem window_program {f : Flash} {offset : ℕ} {page : Bytes} (blank : f.Blank offset page.length) :
    window (f.program offset page).mem offset page.length = page := by
  apply List.ext_getElem
  · exact length_window ..
  · intro i _ inside
    have ones := blank (offset + i) (by omega) (by omega)
    simp only [window, List.getElem_map, List.getElem_range, Flash.program]
    rw [if_pos (by omega), ones, Nat.add_sub_cancel_left, List.getD_eq_getElem?_getD,
      List.getElem?_eq_getElem inside, Option.getD_some]
    exact UInt8.neg_one_and

theorem getMtdSize_success (small : d.size < 2 ^ 31) : getMtdSize .success d = d.size := by
  simp only [getMtdSize, NandIo.success, Bool.not_true, Bool.false_eq_true, if_false]
  exact int32_of_range (by omega) (by omega)

/-- The sign of a large size is lost. -/
theorem getMtdSize_negative (large : ¬d.size < 2 ^ 31) : getMtdSize .success d < 0 := by
  have bound := d.size_u32
  have wrapped : int32 d.size = d.size - 2 ^ 32 := by
    rw [int32, ← Int.sub_bmod_right]
    exact Int.bmod_eq_of_le (by omega) (by omega)
  simp only [getMtdSize, NandIo.success, Bool.not_true, Bool.false_eq_true, if_false, wrapped]
  omega

theorem nandErase_success (d : Mtd) (f : Flash) :
    ∃ f', nandErase .success d 0 d.size f = (f', 0) ∧ Erases d d.size 0 f f' := by
  obtain ⟨f', done, erases⟩ := @eraseLoop_spec d (0 + d.size) d.blocks 0 f (dvd_zero _)
    (by have := d.blocks_cover; omega)
  rw [Nat.zero_add] at erases
  exact ⟨f', done, erases⟩

/-- Erasing the partition leaves a page at the start of a good block blank. -/
theorem Erases.blank_page {offset : ℕ} {f f' : Flash} (erases : Erases d d.size 0 f f')
    (aligned : d.erasesize ∣ offset) (inside : offset < d.size) (good : d.bad offset = false) :
    f'.Blank offset d.writesize := by
  intro i low high
  have page := d.writesize_le
  exact erases.blank offset aligned (Nat.zero_le _) inside good i low (by omega)

theorem Mtd.length_pageOf {data : Bytes} (fits : data.length ≤ d.writesize) :
    (d.pageOf data).length = d.writesize := by
  rw [pageOf, List.length_append, List.length_replicate]
  omega

/-- A write inside of the page buffer programs the page. -/
theorem nandWrite_fits {offset : ℕ} (page : findPage .success d 0 = some offset)
    (small : offset < 2 ^ 31) {data : Bytes} (fits : data.length ≤ d.writesize) (f : Flash) :
    nandWrite .success d 0 data f = some (f.program offset (d.pageOf data), 0) := by
  have whole : (d.pageOf data).take d.writesize = d.pageOf data :=
    List.take_of_length_le (Mtd.length_pageOf fits).le
  rw [nandWrite, page]
  simp only [if_neg (not_lt.mpr fits), seekFails_small small, Bool.false_eq_true, if_false,
    NandIo.success, Option.getD_none, ne_eq, not_true_eq_false, whole]

/-- A longer one leaves it. -/
theorem nandWrite_overflow {offset : ℕ} (page : findPage .success d 0 = some offset) {data : Bytes}
    (long : d.writesize < data.length) (f : Flash) : nandWrite .success d 0 data f = none := by
  rw [nandWrite, page]
  exact if_pos long

/-- What was written to erased flash is read back. -/
theorem nandRead_program {offset : ℕ} (page : findPage .success d 0 = some offset)
    (small : offset < 2 ^ 31) {data buffer : Bytes} (same : buffer.length = data.length)
    (fits : data.length ≤ d.writesize) {f : Flash} (blank : f.Blank offset d.writesize) :
    nandRead .success d 0 buffer data.length (f.program offset (d.pageOf data)) =
      some (data, 0) := by
  have length := Mtd.length_pageOf fits
  have content : window (f.program offset (d.pageOf data)).mem offset d.writesize = d.pageOf data := by
    have whole := @window_program f offset (d.pageOf data) (length.symm ▸ blank)
    rwa [length] at whole
  have front : (d.pageOf data).take data.length = data := List.take_left
  rw [nandRead, page]
  simp only [seekFails_small small, Bool.false_eq_true, if_false, NandIo.success, Option.getD_none,
    ne_eq, not_true_eq_false, if_neg (not_lt.mpr fits), content, front]
  rw [overwrite_all same.symm]

/-! ### The message -/

variable {g : Globals}

/-- With a partition of that name and a size that is an `int`, all depends on the write. -/
theorem setBootloaderMessageMtd_small (named : 0 ≤ getMtdByName g miscName) (small : d.size < 2 ^ 31)
    {f f₁ : Flash} (erased : nandErase .success d 0 d.size f = (f₁, 0)) (message : BootMessage) :
    setBootloaderMessageMtd .success .success .success g d message f =
      (nandWrite .success d 0 message.bytes f₁).map fun (f, ret) =>
        if ret < 0 then (f, -1) else (f, 0) := by
  have positive : ¬(d.size : ℤ) < 0 := by omega
  rw [setBootloaderMessageMtd, if_neg (not_lt.mpr named), getMtdSize_success small, if_neg positive,
    Int.toNat_natCast, erased]
  exact if_neg (lt_irrefl 0)

/-- A size from 2 GiB on is taken for an error. -/
theorem setBootloaderMessageMtd_large (named : 0 ≤ getMtdByName g miscName)
    (large : ¬d.size < 2 ^ 31) (f : Flash) (message : BootMessage) :
    setBootloaderMessageMtd .success .success .success g d message f = some (f, -1) := by
  rw [setBootloaderMessageMtd, if_neg (not_lt.mpr named), if_pos (getMtdSize_negative large)]

/-- A page that is narrower than the message ends the write outside of the page buffer. -/
theorem setBootloaderMessageMtd_narrow (named : 0 ≤ getMtdByName g miscName) (good : d.HasGood)
    (small : d.size < 2 ^ 31) (narrow : d.writesize < recordSize) (f : Flash) (message : BootMessage) :
    setBootloaderMessageMtd .success .success .success g d message f = none := by
  obtain ⟨offset, page, -⟩ := findPage_spec good
  obtain ⟨f₁, erased, -⟩ := nandErase_success d f
  rw [setBootloaderMessageMtd_small named small erased,
    nandWrite_overflow page (message.size.symm ▸ narrow)]
  rfl

/-- For every geometry, every set of bad blocks with a good one left, every earlier content and every
message: writing succeeds inside its buffers, erases no bad block and is read back exactly if a page
has room for the message and the size of the partition is a positive `int`. -/
theorem keepsMessage_iff (named : 0 ≤ getMtdByName g miscName) (good : d.HasGood) (f : Flash)
    (message : BootMessage) :
    KeepsMessage g d f message ↔ recordSize ≤ d.writesize ∧ d.size < 2 ^ 31 := by
  by_cases small : d.size < 2 ^ 31
  · constructor
    · rintro ⟨f', stored, -⟩
      refine ⟨?_, small⟩
      by_contra narrow
      rw [setBootloaderMessageMtd_narrow named good small (not_le.mp narrow)] at stored
      cases stored
    · rintro ⟨wide, -⟩
      obtain ⟨offset, page, aligned, inside, isGood⟩ := findPage_spec good
      obtain ⟨f₁, erased, erases⟩ := nandErase_success d f
      have blank := erases.blank_page aligned inside isGood
      have message_size : message.bytes.length = recordSize := message.size
      have fits : message.bytes.length ≤ d.writesize := message_size.symm ▸ wide
      refine ⟨⟨f₁.program offset (d.pageOf message.bytes), ?_, erases.spared, ?_⟩⟩
      · rw [setBootloaderMessageMtd_small named small erased, nandWrite_fits page (by omega) fits]
        rfl
      · intro out
        have buffer : (List.replicate recordSize (0 : UInt8)).length = message.bytes.length := by
          rw [List.length_replicate, message_size]
        have read := nandRead_program page (by omega) buffer fits blank
        rw [message_size] at read
        rw [getBootloaderMessageMtd, if_neg (not_lt.mpr named), read]
        rfl
  · refine iff_of_false ?_ fun conditions => small conditions.2
    rintro ⟨f', stored, -⟩
    rw [setBootloaderMessageMtd_large named small] at stored
    simp at stored

/-- One partition with the name `misc`. -/
def miscGlobals : Globals := ⟨true, [⟨3, 3, 0x20000, miscName⟩]⟩

/-- Eight blocks of 128 KiB, the first of them bad, with pages of 2 KiB. -/
def largePage : Mtd where
  size := 0x100000
  erasesize := 0x20000
  writesize := 2048
  size_u32 := by decide
  size_blocks := by decide
  erasesize_pow := ⟨17, rfl⟩
  erasesize_pages := by decide
  writesize_pow := ⟨11, rfl⟩
  bad offset := offset = 0

/-- The same with blocks of 16 KiB and pages of 512 bytes. -/
def smallPage : Mtd where
  size := 0x100000
  erasesize := 0x4000
  writesize := 512
  size_u32 := by decide
  size_blocks := by decide
  erasesize_pow := ⟨14, rfl⟩
  erasesize_pages := by decide
  writesize_pow := ⟨9, rfl⟩
  bad offset := offset = 0

/-- A flash that was never written. -/
def erasedFlash : Flash := ⟨fun _ => 255, []⟩

theorem hasGood_largePage : largePage.HasGood := ⟨0x20000, by decide, by decide, rfl⟩

theorem hasGood_smallPage : smallPage.HasGood := ⟨0x4000, by decide, by decide, rfl⟩

theorem keepsMessage_iff_largePage :
    KeepsMessage miscGlobals largePage erasedFlash blankRecord ↔
      recordSize ≤ largePage.writesize ∧ largePage.size < 2 ^ 31 :=
  keepsMessage_iff (by decide) hasGood_largePage erasedFlash blankRecord

/-- A page of 512 bytes has no room for the message. -/
theorem not_keepsMessage_smallPage : ¬KeepsMessage miscGlobals smallPage erasedFlash blankRecord := by
  rintro ⟨f', stored, -⟩
  rw [setBootloaderMessageMtd_narrow (by decide) hasGood_smallPage (by decide) (by decide)] at stored
  cases stored

end AmlCommonlib.BootloaderMessage.Nand
