import AmlCommonlib.Lib.Endian
import AmlCommonlib.Lib.Fgets
import Mathlib.Data.List.DropRight

/-! # Properties of the device

`AmlDeviceGetProperty`: a name is looked up in the environment, and else searched for in the lines of a
file. `getline` keeps its buffer from line to line, and the search counts with the size of that buffer,
so the size it is given by `allocate` is part of the model.
-/

namespace AmlCommonlib.DeviceProperty

/-- What `getline` reads of a file, each line with its line end. -/
def getlines : Bytes → List Bytes
  | [] => []
  | c :: rest =>
    if c = 10 then [10] :: getlines rest
    else
      match getlines rest with
      | [] => [[c]]
      | line :: later => (c :: line) :: later

/-- The loops that step over a kind of character, counting down. -/
def skip (p : UInt8 → Bool) : ℤ → Bytes → ℤ × Bytes
  | n, [] => (n, [])
  | n, c :: rest => if p c ∧ 1 ≤ n then skip p (n - 1) rest else (n, c :: rest)

/-- `' '`. -/
def isSpace (c : UInt8) : Bool := c = 32

/-- `' '` or `'='`. -/
def isSeparator (c : UInt8) : Bool := c = 32 ∨ c = 61

/-- `' '`, `'\r'` or `'\n'`. -/
def isTrailing (c : UInt8) : Bool := c = 32 ∨ c = 13 ∨ c = 10

/-- What the loop does with a line. -/
inductive Scan where
  /-- It goes on. -/
  | next
  /-- It steps out of the buffer, over a name whose length is no `int`. -/
  | undefined
  /-- It ends with what is left of the line. -/
  | used (rest : Bytes)
deriving DecidableEq

/-- A pass of the loop, up to the test of the length, for a line in a buffer of a size. -/
def scan (valuename : Bytes) (size : ℕ) (line : Bytes) : Scan :=
  let (remainderLength, remainder) := skip isSpace size line
  if remainder.head? = some 35 ∨ remainderLength ≤ 1 then .next
  else
    match strstr remainder valuename with
    | none => .next
    | some found =>
      let len := int32 valuename.length
      let place := line.length - found.length + len
      if place < 0 ∨ line.length < place then .undefined
      else
        let (remainderLength, remainder) :=
          skip isSeparator (remainderLength - len) (line.drop place.toNat)
        if 1 < remainderLength then .used remainder else .next

/-- The first line that ends the loop, as the string in the buffer, with what is left of it; `none` is
that the loop steps out of the buffer there. -/
def usedLine (allocate : ℕ → ℕ → ℕ) (valuename : Bytes) : ℕ → List Bytes → Option (Bytes × Option Bytes)
  | _, [] => none
  | size, raw :: later =>
    let size := allocate size (raw.length + 1)
    let line := raw.takeWhile (· != 0)
    match scan valuename size line with
    | .next => usedLine allocate valuename size later
    | .undefined => some (line, none)
    | .used rest => some (line, some rest)

/-- The value returned, and the bytes written from `value[0]` on. -/
structure Outcome where
  result : ℤ
  written : Bytes
deriving DecidableEq

def success : ℤ := 0
def failed : ℤ := -1
def parameterInvalid : ℤ := 0x1000
def openFileFailed : ℤ := 0x1002
def outputNotEnough : ℤ := 0x1003

/-- What the library finds around it: the environment, the files that can be opened, and the size of
the buffer that `getline` leaves, given the size before and the bytes it needs. -/
structure Device where
  savedSystemPropertyFile : Option Bytes
  getenv : Bytes → Option Bytes
  fopen : Bytes → Option Bytes
  allocate : ℕ → ℕ → ℕ
  isCString_getenv : ∀ name env, getenv name = some env → IsCString env
  le_allocate : ∀ size needed, needed ≤ allocate size needed

/-- `DEVICE_PROPERTYIES_FILE`. -/
def exportSystemPropertyFile : Bytes :=
  [68, 69, 86, 73, 67, 69, 95, 80, 82, 79, 80, 69, 82, 84, 89, 73, 69, 83, 95, 70, 73, 76, 69]

/-- `/etc/device.properties`. -/
def defaultSystemPropertyFile : Bytes :=
  [47, 101, 116, 99, 47, 100, 101, 118, 105, 99, 101, 46, 112, 114, 111, 112, 101, 114, 116, 105, 101,
    115]

/-- `strncpy`: padded, but terminated only if the string is shorter. -/
def strncpy (s : Bytes) (n : ℕ) : Bytes := s.take n ++ List.replicate (n - s.length) 0

namespace Device

/-- `AmlDeviceParsePropertyFile`; `none` when its behaviour is undefined. -/
def parsePropertyFile (d : Device) (filename valuename : Bytes) (length : ℤ) : Option Outcome :=
  match d.fopen filename with
  | none => some ⟨openFileFailed, []⟩
  | some contents =>
    match usedLine d.allocate valuename 0 (getlines contents) with
    | none => some ⟨failed, []⟩
    | some (_, none) => none
    | some (_, some rest) =>
      if length < rest.length then some ⟨outputNotEnough, []⟩
      else some ⟨success, rest.rdropWhile isTrailing ++ [0]⟩

/-- The file that is searched. -/
def propertyFile (d : Device) : Bytes :=
  match d.savedSystemPropertyFile with
  | some file => file
  | none => (d.getenv exportSystemPropertyFile).getD defaultSystemPropertyFile

/-- `AmlDeviceGetProperty`, where `none` is a null name; `value` is whether the buffer is not null. -/
def getProperty (d : Device) (name : Option Bytes) (value : Bool) (length : ℤ) : Option Outcome :=
  match name, value with
  | some name, true =>
    if length ≤ 0 then some ⟨parameterInvalid, []⟩
    else
      match d.getenv name with
      | some env =>
        if length < env.length then some ⟨outputNotEnough, []⟩
        else some ⟨success, strncpy env length.toNat⟩
      | none => d.parsePropertyFile d.propertyFile name length
  | _, _ => some ⟨parameterInvalid, []⟩

/-- The default file alone, and a buffer that starts with 120 bytes and doubles. -/
def single (contents : Bytes) : Device where
  savedSystemPropertyFile := none
  getenv _ := none
  fopen file := if file = defaultSystemPropertyFile then some contents else none
  allocate size needed :=
    if needed ≤ max size 120 then max size 120 else max needed (2 * max size 120)
  isCString_getenv := by simp
  le_allocate size needed := by
    split_ifs with enough
    · exact enough
    · exact Nat.le_max_left ..

end Device

/-! ### The loops over a line -/

/-- With more room than characters the count does not matter. -/
theorem skip_eq (p : UInt8 → Bool) {n : ℤ} {s : Bytes} (room : s.length < n) :
    skip p n s = (n - (s.length - (s.dropWhile p).length), s.dropWhile p) := by
  induction s generalizing n with
  | nil => simp [skip]
  | cons c rest ih =>
    rw [List.length_cons] at room
    cases drops : p c with
    | true =>
      rw [skip, if_pos ⟨drops, by omega⟩, ih (by omega), List.dropWhile_cons_of_pos drops,
        List.length_cons]
      congr 1
      omega
    | false =>
      rw [skip, if_neg (by simp [drops]), List.dropWhile_cons_of_neg (by simp [drops])]
      simp

/-! ### The line that ends the search -/

/-- The text behind the name, and behind the spaces and `=` there; `none` if the length of the name, as
an `int`, leads out of the line. -/
def behindName (valuename line : Bytes) : Option Bytes :=
  let found := (strstr (line.dropWhile isSpace) valuename).getD []
  let place := line.length - found.length + int32 valuename.length
  if place < 0 ∨ line.length < place then none
  else some ((line.drop place.toNat).dropWhile isSeparator)

/-- The line is not a comment, and the name is in it. If it starts with the name and nothing follows,
the buffer must have more room than the line needs. -/
def Ends (valuename : Bytes) (size : ℕ) (line : Bytes) : Prop :=
  (line.dropWhile isSpace).head? ≠ some 35 ∧ valuename <:+: line.dropWhile isSpace ∧
    (valuename <+: line.dropWhile isSpace → behindName valuename line = some [] →
      size ≠ line.length + 1)

instance (valuename : Bytes) (size : ℕ) (line : Bytes) : Decidable (Ends valuename size line) :=
  inferInstanceAs (Decidable (_ ∧ _ ∧ _))

/-- The lines as strings, each with the size of the buffer it is read into. -/
def buffers (allocate : ℕ → ℕ → ℕ) : ℕ → List Bytes → List (ℕ × Bytes)
  | _, [] => []
  | size, raw :: later =>
    let size := allocate size (raw.length + 1)
    (size, raw.takeWhile (· != 0)) :: buffers allocate size later

theorem behindName_eq {valuename line text : Bytes}
    (found : strstr (line.dropWhile isSpace) valuename = some text) :
    behindName valuename line =
      if line.length - text.length + int32 valuename.length < 0 ∨
          line.length < line.length - text.length + int32 valuename.length then none
      else some ((line.drop (line.length - text.length +
        int32 valuename.length : ℤ).toNat).dropWhile isSeparator) := by
  rw [behindName, found]
  rfl

theorem ends_iff {valuename line text : Bytes} {size : ℕ}
    (found : strstr (line.dropWhile isSpace) valuename = some text)
    (plain : (line.dropWhile isSpace).head? ≠ some 35) :
    Ends valuename size line ↔
      (text.length = (line.dropWhile isSpace).length → behindName valuename line = some [] →
        size ≠ line.length + 1) := by
  have inside : valuename <:+: line.dropWhile isSpace := strstr_isSome_iff.mp (by simp [found])
  rw [Ends, ← length_strstr_iff found]
  exact ⟨fun ends => ends.2.2, fun room => ⟨plain, inside, room⟩⟩

/-- In a line of spaces only the empty name is found, and nothing is behind it. -/
theorem behindName_spaces {valuename line text : Bytes}
    (found : strstr (line.dropWhile isSpace) valuename = some text)
    (spaces : line.dropWhile isSpace = []) :
    behindName valuename line = some [] := by
  obtain ⟨starts, suffix⟩ := strstr_spec found
  rw [spaces] at suffix
  obtain rfl := List.suffix_nil.mp suffix
  obtain rfl := List.prefix_nil.mp starts
  have zero : int32 ([] : Bytes).length = 0 := int32_of_range (by decide) (by decide)
  rw [behindName_eq found, zero, List.length_nil, if_neg (by omega),
    List.drop_of_length_le (by omega)]
  rfl

/-- A pass of the loop. -/
theorem scan_eq {valuename line : Bytes} {size : ℕ} (room : line.length < size) :
    scan valuename size line =
      if Ends valuename size line then
        match behindName valuename line with
        | none => .undefined
        | some rest => .used rest
      else .next := by
  have shorter := (List.dropWhile_suffix isSpace (l := line)).length_le
  simp only [scan, skip_eq isSpace (n := size) (s := line) (by omega)]
  by_cases comment : (line.dropWhile isSpace).head? = some 35
  · rw [if_pos (.inl comment), if_neg fun ends => ends.1 comment]
  cases found : strstr (line.dropWhile isSpace) valuename with
  | none =>
    have other : ¬Ends valuename size line := fun ends => strstr_eq_none_iff.mp found ends.2.1
    rw [if_neg other]
    split_ifs <;> rfl
  | some text =>
    have later := (strstr_spec found).2.length_le
    have ends := @ends_iff valuename line text size found comment
    have behind := behindName_eq found
    simp only [comment, false_or]
    by_cases nothing : (size - (line.length - (line.dropWhile isSpace).length) : ℤ) ≤ 1
    · have spaces : line.dropWhile isSpace = [] := List.length_eq_zero_iff.mp (by omega)
      rw [if_pos nothing, if_neg fun holds => ?_]
      exact ends.mp holds (by omega) (behindName_spaces found spaces) (by omega)
    rw [if_neg nothing]
    by_cases outside : (line.length - text.length + int32 valuename.length : ℤ) < 0 ∨
        line.length < (line.length - text.length + int32 valuename.length : ℤ)
    · rw [if_pos outside] at behind ⊢
      rw [if_pos (ends.mpr fun _ left => by simp [behind] at left), behind]
    rw [if_neg outside] at behind ⊢
    generalize place : (line.length - text.length + int32 valuename.length : ℤ) = start at *
    have dropped : ((line.drop start.toNat).length : ℤ) = line.length - start := by
      rw [List.length_drop]
      omega
    rw [skip_eq isSeparator (by rw [dropped]; omega), behind]
    rw [behind] at ends
    simp only [dropped]
    generalize (line.drop start.toNat).dropWhile isSeparator = rest at ends ⊢
    by_cases passed : text.length = (line.dropWhile isSpace).length ∧ rest = [] ∧
        size = line.length + 1
    · obtain ⟨same, rfl, full⟩ := passed
      rw [if_neg fun holds => ends.mp holds same rfl full, if_neg]
      rw [List.length_nil]
      omega
    · have holds : Ends valuename size line :=
        ends.mpr fun same left full => passed ⟨same, Option.some.inj left, full⟩
      have positive : rest ≠ [] → 0 < rest.length := List.length_pos_iff.mpr
      rw [if_pos holds, if_pos]
      by_contra few
      refine passed ⟨by omega, ?_, by omega⟩
      by_contra nonempty
      have := positive nonempty
      omega

/-- The search ends with the first line that ends it. -/
theorem usedLine_eq {allocate : ℕ → ℕ → ℕ} (enough : ∀ size needed, needed ≤ allocate size needed)
    (valuename : Bytes) (size : ℕ) (lines : List Bytes) :
    usedLine allocate valuename size lines =
      ((buffers allocate size lines).find? fun b => Ends valuename b.1 b.2).map
        fun b => (b.2, behindName valuename b.2) := by
  induction lines generalizing size with
  | nil => rfl
  | cons raw later ih =>
    have needed := enough size (raw.length + 1)
    have shorter := (List.takeWhile_prefix (· != 0) (l := raw)).length_le
    rw [usedLine, buffers, scan_eq (by omega)]
    by_cases ends : Ends valuename (allocate size (raw.length + 1)) (raw.takeWhile (· != 0))
    · rw [if_pos ends, List.find?_cons_of_pos (by simpa using ends)]
      cases behind : behindName valuename (raw.takeWhile (· != 0)) <;> simp [behind]
    · rw [if_neg ends, List.find?_cons_of_neg (by simpa using ends)]
      exact ih _

theorem suffix_of_behindName {valuename line rest : Bytes}
    (left : behindName valuename line = some rest) : rest <:+ line := by
  simp only [behindName] at left
  split_ifs at left
  cases left
  exact (List.dropWhile_suffix ..).trans (List.drop_suffix ..)

theorem isCString_of_mem_buffers {allocate : ℕ → ℕ → ℕ} {size : ℕ} {lines : List Bytes}
    {b : ℕ × Bytes} (member : b ∈ buffers allocate size lines) : IsCString b.2 := by
  induction lines generalizing size with
  | nil => cases member
  | cons raw later ih =>
    obtain rfl | member := List.mem_cons.mp member
    · exact takeWhile_isCString raw
    · exact ih member

/-- Every line but the last one has its line end. -/
theorem ended_getlines (contents : Bytes) :
    (getlines contents).IsChain fun raw _ => raw.getLast? = some 10 := by
  induction contents with
  | nil => exact .nil
  | cons c rest ih =>
    rw [getlines]
    split_ifs
    · exact List.isChain_cons.mpr ⟨fun _ _ => rfl, ih⟩
    · cases tail : getlines rest with
      | nil => exact .singleton _
      | cons line later =>
        rw [tail] at ih
        obtain ⟨ended, others⟩ := List.isChain_cons.mp ih
        refine List.isChain_cons.mpr ⟨fun next member => ?_, others⟩
        rw [List.getLast?_cons, ended next member]
        rfl

namespace Device

/-- The line of the file that ends the search; there is none if it cannot be opened. -/
def endingLine (d : Device) (valuename : Bytes) : Option Bytes :=
  ((buffers d.allocate 0 (getlines ((d.fopen d.propertyFile).getD []))).find? fun b =>
    Ends valuename b.1 b.2).map Prod.snd

variable {d : Device} {valuename line : Bytes}

theorem isCString_endingLine (ending : d.endingLine valuename = some line) : IsCString line := by
  obtain ⟨b, found, rfl⟩ := Option.map_eq_some_iff.mp ending
  exact isCString_of_mem_buffers (List.mem_of_find?_eq_some found)

/-- The search in the file of the library. -/
theorem parsePropertyFile_eq (d : Device) (valuename : Bytes) (length : ℤ) :
    d.parsePropertyFile d.propertyFile valuename length =
      match d.endingLine valuename with
      | none => some ⟨if (d.fopen d.propertyFile).isSome then failed else openFileFailed, []⟩
      | some line =>
        match behindName valuename line with
        | none => none
        | some rest =>
          if length < rest.length then some ⟨outputNotEnough, []⟩
          else some ⟨success, rest.rdropWhile isTrailing ++ [0]⟩ := by
  rw [parsePropertyFile, endingLine]
  cases d.fopen d.propertyFile with
  | none => rfl
  | some contents =>
    simp only [usedLine_eq d.le_allocate, Option.getD_some]
    cases (buffers d.allocate 0 (getlines contents)).find? fun b => Ends valuename b.1 b.2 with
    | none => rfl
    | some b =>
      simp only [Option.map_some]
      cases behindName valuename b.2 <;> rfl

end Device

end AmlCommonlib.DeviceProperty
