import AmlCommonlib.ServiceManager.Client
import AmlCommonlib.ServiceManager.ObjectList

/-! # Parcels round trip

A parcel is written value by value, sent with its list of objects, which the driver rewrites, and
read in the same order. Every value comes back; an object comes back as the driver has rewritten it.
-/

namespace AmlCommonlib.ServiceManager

/-- A value that is written into a parcel. -/
inductive Item
  | int32 (val : UInt32)
  | string16 (s : Units)
  | strongBinder (val : Binder)

/-- What a reader asks for. -/
inductive Kind
  | int32
  | string16
  | strongBinder

/-- What a reader gets. -/
inductive Value
  | int32 (val : ℤ)
  | string16 (s : Units)
  | strongBinder (val : Binder)
  deriving DecidableEq

namespace Parcel

def write (p : Parcel) : Item → ℤ × Parcel
  | .int32 val => p.writeInt32 val.toNat
  | .string16 s => p.writeString16 s
  | .strongBinder val => p.writeStrongBinder val

def read (p : Parcel) : Kind → Value × Parcel
  | .int32 => (.int32 p.readInt32.1, p.readInt32.2)
  | .string16 => (.string16 p.readString16.1, p.readString16.2)
  | .strongBinder => (.strongBinder p.readStrongBinder.1, p.readStrongBinder.2)

/-- The parcel behind some writes, whose results are not looked at. -/
def writeAll (p : Parcel) (items : List Item) : Parcel := items.foldl (fun p item => (p.write item).2) p

def readAll (p : Parcel) : List Kind → List Value × Parcel
  | [] => ([], p)
  | kind :: kinds =>
    ((p.read kind).1 :: ((p.read kind).2.readAll kinds).1, ((p.read kind).2.readAll kinds).2)

end Parcel

namespace Item

def kind : Item → Kind
  | .int32 _ => .int32
  | .string16 _ => .string16
  | .strongBinder _ => .strongBinder

/-- The object of a value, unless it is not listed. -/
def object? : Item → Option FlatObject
  | .strongBinder val =>
    if (Parcel.flattenBinder val).binder ≠ 0 then some (Parcel.flattenBinder val) else none
  | _ => none

/-- The bytes of a value in the message, of which a listed object is rewritten. -/
def bytes (f : FlatObject → FlatObject) : Item → Bytes
  | .int32 val => leBytes 4 val.toNat
  | .string16 s => ServiceManager.string16 s
  | .strongBinder val =>
    if (Parcel.flattenBinder val).binder ≠ 0 then (f (Parcel.flattenBinder val)).encode
    else (Parcel.flattenBinder val).encode

/-- What is read for a value. An object that is neither listed nor null is lost. -/
def delivered (f : FlatObject → FlatObject) : Item → Value
  | .int32 val => .int32 (AmlCommonlib.int32 val.toNat)
  | .string16 s => .string16 s
  | .strongBinder val => .strongBinder <| Parcel.unflattenBinder <|
    if (Parcel.flattenBinder val).binder ≠ 0 then some (f (Parcel.flattenBinder val))
    else if (Parcel.flattenBinder val).cookie = 0 then some (Parcel.flattenBinder val) else none

end Item

/-- The bytes of all values. -/
def allBytes (f : FlatObject → FlatObject) (items : List Item) : Bytes := items.flatMap (Item.bytes f)

/-- Where the listed objects of some values are, from a position on. -/
def offsets : ℕ → List Item → List ℕ
  | _, [] => []
  | pos, item :: items =>
    (if item.object?.isSome then [pos] else []) ++ offsets (pos + (item.bytes id).length) items

variable {f : FlatObject → FlatObject} {items : List Item} {pos : ℕ}

theorem length_bytes (f : FlatObject → FlatObject) (item : Item) :
    (item.bytes f).length = (item.bytes id).length := by
  cases item with
  | int32 val => rfl
  | string16 s => rfl
  | strongBinder val =>
    simp only [Item.bytes]
    split_ifs <;> simp

theorem length_bytes_object {item : Item} (listed : item.object?.isSome) :
    (item.bytes id).length = flatSize := by
  cases item with
  | int32 val => simp [Item.object?] at listed
  | string16 s => simp [Item.object?] at listed
  | strongBinder val =>
    simp only [Item.bytes]
    split_ifs <;> simp

/-- The listed objects are one behind the other. -/
theorem ascending_offsets (pos : ℕ) (items : List Item) :
    Ascending (offsets pos items) ∧ ∀ o ∈ offsets pos items, pos ≤ o := by
  induction items generalizing pos with
  | nil => exact ⟨List.Pairwise.nil, by simp [offsets]⟩
  | cons item items ih =>
    obtain ⟨ordered, above⟩ := ih (pos + (item.bytes id).length)
    rw [offsets]
    split_ifs with listed
    · have size := length_bytes_object listed
      rw [List.singleton_append, ascending_cons, List.forall_mem_cons]
      refine ⟨⟨fun o member => ?_, ordered⟩, le_rfl, fun o member => ?_⟩
      · have := above o member
        omega
      · have := above o member
        omega
    · rw [List.nil_append]
      refine ⟨ordered, fun o member => ?_⟩
      have := above o member
      omega

theorem offsets_le {o : ℕ} (member : o ∈ offsets pos items) :
    o + flatSize ≤ pos + (allBytes id items).length := by
  induction items generalizing pos with
  | nil => simp [offsets] at member
  | cons item items ih =>
    rw [offsets, List.mem_append] at member
    simp only [allBytes, List.flatMap_cons, List.length_append] at ih ⊢
    rcases member with here | later
    · split_ifs at here with listed
      · rw [List.mem_singleton.mp here, length_bytes_object listed]
        omega
      · cases here
    · have := ih later
      omega

/-! ### Writing -/

namespace Parcel

variable {p : Parcel} {data : Bytes} {objects : List ℕ}

theorem Written.writeString16_small (written : p.Written data objects) (s : Units)
    (small : data.length + (string16 s).length ≤ 2 ^ 30) :
    (p.writeString16 s).2.Written (data ++ string16 s) objects := by
  have size : (unitBytes (s ++ [0])).length = (s.length + 1) * 2 := by
    rw [length_unitBytes, List.length_append, List.length_singleton]
    omega
  have length : (string16 s).length = 4 + (padded (unitBytes (s ++ [0]))).length := by
    rw [ServiceManager.string16, List.length_append, length_leBytes]
  have whole : (unitBytes (s ++ [0])).length ≤ (padded (unitBytes (s ++ [0]))).length := by
    rw [padded, List.length_append]
    omega
  obtain ⟨done, front⟩ := written.writeInt32 s.length (by omega)
  have positive : 0 < (padded (unitBytes (s ++ [0]))).length := by omega
  obtain ⟨-, full⟩ := front.restartWrite_small positive
    (by rw [List.length_append, length_leBytes]; omega)
  rw [List.append_assoc] at full
  rw [Parcel.writeString16]
  simp only [done, if_true, Parcel.writeInplace]
  rw [if_neg (by rw [INT32_MAX]; omega)]
  exact full

/-- One write. -/
theorem Written.write (written : p.Written data objects) (item : Item)
    (small : data.length + (item.bytes id).length ≤ 2 ^ 30) :
    (p.write item).2.Written (data ++ item.bytes id)
      (objects ++ if item.object?.isSome then [data.length] else []) := by
  cases item with
  | int32 val =>
    obtain ⟨-, kept⟩ := written.writeInt32 val.toNat (by simpa [Item.bytes] using small)
    simp only [Item.object?, Option.isSome_none, Bool.false_eq_true, if_false, List.append_nil]
    exact kept
  | string16 s =>
    have kept := written.writeString16_small s small
    simp only [Item.object?, Option.isSome_none, Bool.false_eq_true, if_false, List.append_nil]
    exact kept
  | strongBinder val =>
    have size : (Item.bytes id (.strongBinder val)) = (flattenBinder val).encode := by
      simp only [Item.bytes, id, ite_self]
    rw [size, length_encode] at small
    have kept := written.writeObject (flattenBinder val) small
    rw [size]
    simp only [Item.object?, Parcel.write, Parcel.writeStrongBinder]
    split_ifs at kept ⊢ with listed
    · exact kept
    · simp_all
    · simp_all
    · simpa using kept

/-- All writes. -/
theorem Written.writeAll (written : p.Written data objects) (items : List Item)
    (small : data.length + (allBytes id items).length ≤ 2 ^ 30) :
    (p.writeAll items).Written (data ++ allBytes id items)
      (objects ++ offsets data.length items) := by
  induction items generalizing p data objects with
  | nil => simpa [Parcel.writeAll, allBytes, offsets] using written
  | cons item items ih =>
    simp only [allBytes, List.flatMap_cons, List.length_append] at small ih ⊢
    have first := written.write item (by omega)
    have rest := ih first (by rw [List.length_append]; omega)
    rw [List.length_append, List.append_assoc, List.append_assoc] at rest
    exact rest

end Parcel

/-! ### In the driver -/

theorem rewriteObjects_append (f : FlatObject → FlatObject) (data : Bytes) (front behind : List ℕ) :
    rewriteObjects f data (front ++ behind) = rewriteObjects f (rewriteObjects f data front) behind :=
  List.foldl_append

/-- What becomes of one value. -/
theorem rewriteObjects_item (f : FlatObject → FlatObject) (before rest : Bytes) (item : Item) :
    rewriteObjects f (before ++ (item.bytes id ++ rest))
      (if item.object?.isSome then [before.length] else []) = before ++ (item.bytes f ++ rest) := by
  cases item with
  | int32 val => rfl
  | string16 s => rfl
  | strongBinder val =>
    simp only [Item.bytes, Item.object?, id, ite_self]
    split_ifs with listed none none
    · have here : (before ++ ((Parcel.flattenBinder val).encode ++ rest)).drop before.length =
          (Parcel.flattenBinder val).encode ++ rest := List.drop_left
      have found := slice_of_drop here
      rw [length_encode] at found
      rw [rewriteObjects, List.foldl_cons, List.foldl_nil, found, decode_encode]
      exact overwrite_part rfl rfl (by simp)
    · exact absurd rfl none
    · exact absurd none (by simp)
    · rfl

/-- What becomes of a message. -/
theorem rewriteObjects_items (f : FlatObject → FlatObject) (before : Bytes) (items : List Item) :
    rewriteObjects f (before ++ allBytes id items) (offsets before.length items) =
      before ++ allBytes f items := by
  induction items generalizing before with
  | nil => rfl
  | cons item items ih =>
    have onwards := ih (before ++ item.bytes f)
    rw [List.length_append, length_bytes] at onwards
    simp only [allBytes, List.flatMap_cons] at onwards ⊢
    rw [offsets, rewriteObjects_append, rewriteObjects_item, ← List.append_assoc, onwards,
      List.append_assoc]

/-! ### Reading -/

namespace Parcel

/-- A message of which a part has been read. -/
structure Placed (p : Parcel) (before rest : Bytes) (objects : List ℕ) : Prop where
  whole : p.mData = before ++ rest
  pos : p.mDataPos = before.length
  listed : p.mObjects = objects

variable {p : Parcel} {before rest : Bytes} {objects : List ℕ}

/-- What is behind the position. -/
theorem Placed.drop (placed : p.Placed before rest objects) : p.mData.drop p.mDataPos = rest := by
  rw [placed.whole, placed.pos, List.drop_left]

/-- Behind a field. -/
theorem Placed.advance {field : Bytes} (placed : p.Placed before (field ++ rest) objects)
    {p' : Parcel} (data : p'.mData = p.mData) (pos : p'.mDataPos = p.mDataPos + field.length)
    (same : p'.mObjects = p.mObjects) : p'.Placed (before ++ field) rest objects :=
  ⟨by rw [data, placed.whole, List.append_assoc], by rw [pos, placed.pos, List.length_append],
    same.trans placed.listed⟩

theorem Placed.readInt32 {n : ℕ} (placed : p.Placed before (leBytes 4 n ++ rest) objects)
    (word : n < 2 ^ 32) : p.readInt32.1 = int32 n ∧
      p.readInt32.2.Placed (before ++ leBytes 4 n) rest objects := by
  have value := slice_of_drop placed.drop
  rw [length_leBytes] at value
  have inside : p.mDataPos + 4 ≤ p.mData.length := by
    rw [placed.whole, placed.pos, List.length_append, List.length_append, length_leBytes]
    omega
  rw [Parcel.readInt32, if_pos inside, value, ofLe_leBytes_of_lt (by omega)]
  exact ⟨by simp only, placed.advance rfl (by rw [length_leBytes]) rfl⟩

theorem Placed.readInplace {bytes : Bytes} (placed : p.Placed before (padded bytes ++ rest) objects)
    (small : bytes.length ≤ INT32_MAX) : (p.readInplace bytes.length).1 = some bytes ∧
      (p.readInplace bytes.length).2.Placed (before ++ padded bytes) rest objects := by
  rw [INT32_MAX] at small
  have size := @length_padded bytes (by omega)
  have inside : p.mDataPos + padSize bytes.length ≤ p.mData.length := by
    rw [placed.whole, placed.pos, List.length_append, List.length_append, size]
    omega
  have value : slice p.mData p.mDataPos bytes.length = bytes := by
    have here := placed.drop
    rw [padded, List.append_assoc] at here
    exact slice_of_drop here
  rw [Parcel.readInplace, if_neg (by rw [INT32_MAX]; omega), if_pos inside, value]
  exact ⟨rfl, placed.advance rfl (by rw [size]) rfl⟩

theorem Placed.readString16 {s : Units} (placed : p.Placed before (string16 s ++ rest) objects)
    (small : s.length < 2 ^ 30 - 1) : p.readString16.1 = s ∧
      p.readString16.2.Placed (before ++ string16 s) rest objects := by
  have size : (unitBytes (s ++ [0])).length = (s.length + 1) * 2 := by
    rw [length_unitBytes, List.length_append, List.length_singleton]
    omega
  rw [ServiceManager.string16, List.append_assoc] at placed
  obtain ⟨length, front⟩ := placed.readInt32 (by omega)
  obtain ⟨units, behind⟩ := front.readInplace (by rw [size, INT32_MAX]; omega)
  rw [int32_of_range (by omega) (by omega)] at length
  rw [size] at units behind
  rw [List.append_assoc] at behind
  rw [Parcel.readString16]
  simp only [length, Int.toNat_natCast]
  rw [if_pos (by rw [INT32_MAX]; omega)]
  generalize p.readInt32.2.readInplace ((s.length + 1) * 2) = read at units behind
  obtain ⟨answer, behind'⟩ := read
  cases units
  refine ⟨?_, behind⟩
  simp only [ofUnitBytes_unitBytes, List.take_left]

/-- An object is lost if it is neither null nor listed. -/
theorem Placed.readObject {obj : FlatObject} (placed : p.Placed before (obj.encode ++ rest) objects)
    (ascending : Ascending objects) :
    (p.readObject.1 = if (obj.cookie = 0 ∧ obj.binder = 0) ∨ before.length ∈ objects then some obj
      else none) ∧ p.readObject.2.Placed (before ++ obj.encode) rest objects := by
  have value := slice_of_drop placed.drop
  rw [length_encode] at value
  have inside : p.mDataPos + flatSize ≤ p.mData.length := by
    rw [placed.whole, placed.pos, List.length_append, List.length_append, length_encode]
    omega
  have handed : ∀ other, p.readObject.1 = some other ↔
      other = obj ∧ ((other.cookie = 0 ∧ other.binder = 0) ∨ before.length ∈ objects) := by
    intro other
    rw [readObject_eq_some_iff (by rw [placed.listed]; exact ascending), value, decode_encode,
      placed.listed]
    simp only [inside, true_and]
    rw [placed.pos]
  constructor
  · split_ifs with vetted
    · exact (handed obj).mpr ⟨rfl, vetted⟩
    · refine Option.eq_none_iff_forall_ne_some.mpr fun other taken => ?_
      obtain ⟨rfl, shown⟩ := (handed other).mp taken
      exact vetted shown
  · obtain ⟨data, same⟩ := p.readObject_keeps
    refine placed.advance data ?_ same
    rw [Parcel.readObject]
    simp only
    rw [if_pos inside, length_encode]
    split_ifs
    · rfl
    · split <;> rfl

/-- One read. -/
theorem Placed.read {item : Item} (placed : p.Placed before (item.bytes f ++ rest) objects)
    (ascending : Ascending objects) (small : (item.bytes id).length ≤ 2 ^ 30)
    (here : before.length ∈ objects ↔ item.object?.isSome) :
    (p.read item.kind).1 = item.delivered f ∧
      (p.read item.kind).2.Placed (before ++ item.bytes f) rest objects := by
  cases item with
  | int32 val =>
    obtain ⟨value, behind⟩ := @Placed.readInt32 p before rest objects _ placed val.toNat_lt
    exact ⟨congrArg Value.int32 value, behind⟩
  | string16 s =>
    have length : (string16 s).length ≤ 2 ^ 30 := small
    rw [ServiceManager.string16, List.length_append, length_leBytes, padded, List.length_append,
      length_unitBytes, List.length_append, List.length_singleton] at length
    obtain ⟨value, behind⟩ := @Placed.readString16 p before rest objects s placed (by omega)
    exact ⟨congrArg Value.string16 value, behind⟩
  | strongBinder val =>
    simp only [Item.bytes, Item.object?, Item.delivered, Item.kind, Parcel.read,
      Parcel.readStrongBinder] at placed here ⊢
    split_ifs at placed here ⊢ with listed null
    · obtain ⟨value, behind⟩ := placed.readObject ascending
      rw [if_pos (.inr (here.mpr rfl))] at value
      exact ⟨by rw [value], behind⟩
    · obtain ⟨value, behind⟩ := placed.readObject ascending
      rw [if_pos (.inl ⟨null, not_not.mp listed⟩)] at value
      exact ⟨by rw [value], behind⟩
    · obtain ⟨value, behind⟩ := placed.readObject ascending
      rw [if_neg (by rintro (⟨zero, -⟩ | there); exacts [null zero, absurd (here.mp there) (by simp)])]
        at value
      exact ⟨by rw [value], behind⟩

/-- All reads. -/
theorem Placed.readAll (items : List Item) (placed : p.Placed before (allBytes f items) objects)
    (ascending : Ascending objects) (small : (allBytes id items).length ≤ 2 ^ 30)
    (ahead : ∀ o, before.length ≤ o → (o ∈ objects ↔ o ∈ offsets before.length items)) :
    (p.readAll (items.map Item.kind)).1 = items.map (Item.delivered f) ∧
      (p.readAll (items.map Item.kind)).2.Placed (before ++ allBytes f items) [] objects := by
  induction items generalizing p before with
  | nil => exact ⟨rfl, by simpa [allBytes, Parcel.readAll] using placed⟩
  | cons item items ih =>
    have above := (ascending_offsets (before.length + (item.bytes id).length) items).2
    simp only [allBytes, List.flatMap_cons, List.length_append] at placed small ih ⊢
    have positive : 0 < (item.bytes id).length := by
      cases item with
      | int32 val => simp [Item.bytes]
      | string16 s => simp [Item.bytes, ServiceManager.string16]
      | strongBinder val => simp [Item.bytes, flatSize]
    have here : before.length ∈ objects ↔ item.object?.isSome := by
      rw [ahead _ le_rfl, offsets, List.mem_append]
      split_ifs with listed
      · simp [listed]
      · simp only [listed, List.not_mem_nil, false_or, Bool.false_eq_true, iff_false]
        intro there
        have := above _ there
        omega
    obtain ⟨value, behind⟩ := placed.read ascending (by omega) here
    have length : (before ++ item.bytes f).length = before.length + (item.bytes id).length := by
      rw [List.length_append, length_bytes]
    obtain ⟨values, last⟩ := ih behind (by omega) (by
      intro o beyond
      rw [length] at beyond ⊢
      rw [ahead o (by omega), offsets, List.mem_append]
      split_ifs
      · rw [List.mem_singleton]
        constructor
        · rintro (rfl | there)
          · omega
          · exact there
        · exact .inr
      · simp)
    rw [List.append_assoc] at last
    exact ⟨by rw [List.map_cons, List.map_cons, ← value, ← values]; rfl, last⟩

end Parcel

/-- Any values that are written into a parcel are read from the message on the other side, in their
order and up to its end, and objects as the driver has rewritten them. -/
theorem parcel_roundTrip (f : FlatObject → FlatObject) (items : List Item)
    (small : (allBytes id items).length ≤ 2 ^ 30) :
    let p := ({} : Parcel).writeAll items
    let read := (Parcel.ipcSetDataReference (rewriteObjects f p.mData p.mObjects)
      p.mObjects).readAll (items.map Item.kind)
    read.1 = items.map (Item.delivered f) ∧ read.2.mDataPos = read.2.mData.length := by
  intro p read
  obtain ⟨-, -, whole, listed⟩ := Parcel.written_empty.writeAll items (by simpa using small)
  have ascending := (ascending_offsets 0 items).1
  have sent : rewriteObjects f p.mData p.mObjects = allBytes f items := by
    rw [whole, listed]
    exact rewriteObjects_items f [] items
  have objects : p.mObjects = offsets 0 items := listed
  have start : (Parcel.ipcSetDataReference (allBytes f items) (offsets 0 items)).Placed []
      (allBytes f items) (offsets 0 items) := by
    have space : ∀ o ∈ offsets 0 items, o + flatSize < 2 ^ 64 := by
      intro o member
      have inside := offsets_le member
      omega
    rw [Parcel.ipcSetDataReference_eq _ space, if_pos ascending]
    exact ⟨rfl, rfl, rfl⟩
  obtain ⟨values, last⟩ := start.readAll items ascending small (fun o _ => Iff.rfl)
  simp only [read]
  rw [sent, objects]
  exact ⟨values, by rw [last.pos, last.whole, List.append_nil]⟩

/-- A negative number, a text with a zero inside, an object of the writer and none. -/
def sampleItems : List Item :=
  [.int32 0xFFFFFFFF, .string16 [104, 0, 105], .strongBinder (.localBinder 16 32),
    .strongBinder .null]

/-- Every object becomes the same handle. -/
def toHandle (obj : FlatObject) : FlatObject := ⟨BINDER_TYPE_HANDLE, obj.flags, 3, 0⟩

theorem parcel_roundTrip_sample :
    let p := ({} : Parcel).writeAll sampleItems
    let read := (Parcel.ipcSetDataReference (rewriteObjects toHandle p.mData p.mObjects)
      p.mObjects).readAll (sampleItems.map Item.kind)
    read.1 = [.int32 (-1), .string16 [104, 0, 105], .strongBinder (.remoteBinder 3),
      .strongBinder .null] ∧ read.2.mDataPos = read.2.mData.length := by
  obtain ⟨values, last⟩ := parcel_roundTrip toHandle sampleItems (by decide +kernel)
  have shown : sampleItems.map (Item.delivered toHandle) = [.int32 (-1), .string16 [104, 0, 105],
      .strongBinder (.remoteBinder 3), .strongBinder .null] := by decide +kernel
  exact ⟨values.trans shown, last⟩

end AmlCommonlib.ServiceManager
