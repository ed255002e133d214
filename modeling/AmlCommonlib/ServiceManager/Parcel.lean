import AmlCommonlib.ServiceManager.BinderIo

/-! # Parcels

The other side of the messages: what a client of libbinder writes into a parcel for the service
manager and reads from the reply. A parcel that is written owns its memory, which never runs out; a
reply refers to the memory of the driver.
-/

namespace AmlCommonlib.ServiceManager

def NO_ERROR : ℤ := 0
def NO_MEMORY : ℤ := -12
def BAD_VALUE : ℤ := -22
def INT32_MAX : ℕ := 2147483647
def EX_HAS_REPLY_HEADER : ℤ := -128
def STRICT_MODE_PENALTY_GATHER : ℕ := 0x400000

/-- `struct flat_binder_object`; the handle is the low half of `binder`. -/
structure FlatObject where
  type : UInt32
  flags : UInt32
  binder : UInt64
  cookie : UInt64
  deriving DecidableEq

def FlatObject.handle (obj : FlatObject) : UInt32 := obj.binder.toUInt32

def FlatObject.encode (obj : FlatObject) : Bytes :=
  leBytes 4 obj.type.toNat ++ leBytes 4 obj.flags.toNat ++ leBytes 8 obj.binder.toNat ++
    leBytes 8 obj.cookie.toNat

def FlatObject.decode (bytes : Bytes) : FlatObject where
  type := UInt32.ofNat (ofLe (slice bytes 0 4))
  flags := UInt32.ofNat (ofLe (slice bytes 4 4))
  binder := UInt64.ofNat (ofLe (slice bytes 8 8))
  cookie := UInt64.ofNat (ofLe (slice bytes 16 8))

/-- `sp<IBinder>`: nothing, an object of this process or the proxy of one elsewhere. -/
inductive Binder
  | null
  | localBinder (refs cookie : UInt64)
  | remoteBinder (handle : UInt32)
  deriving DecidableEq

/-- `Parcel`, with `mDataSize` bytes of data. -/
structure Parcel where
  mError : ℤ := NO_ERROR
  mData : Bytes := []
  mDataPos : ℕ := 0
  mDataCapacity : ℕ := 0
  mObjects : List ℕ := []
  mNextObjectHint : ℕ := 0

namespace Parcel

/-! ### Writing -/

/-- `finishWrite` behind bytes that are stored at the position. -/
def put (p : Parcel) (bytes : Bytes) : Parcel :=
  { p with
    mData := p.mData.take p.mDataPos ++ bytes ++ p.mData.drop (p.mDataPos + bytes.length)
    mDataPos := p.mDataPos + bytes.length }

/-- `continueWrite` to more than the data. -/
def continueWrite (p : Parcel) (desired : ℕ) : ℤ × Parcel :=
  if desired > INT32_MAX then (BAD_VALUE, p)
  else if desired > p.mDataCapacity then (NO_ERROR, { p with mDataCapacity := desired })
  else (NO_ERROR, p)

def growData (p : Parcel) (len : ℕ) : ℤ × Parcel :=
  if len > INT32_MAX then (BAD_VALUE, p)
  else
    let newSize := (p.mData.length + len) * 3 / 2
    if newSize ≤ p.mData.length then (NO_MEMORY, p) else p.continueWrite newSize

/-- Stores bytes at the position; the parcel grows if it has to. -/
def restartWrite (p : Parcel) (bytes : Bytes) : ℤ × Parcel :=
  if p.mDataPos + bytes.length ≤ p.mDataCapacity then (NO_ERROR, p.put bytes)
  else
    let (err, p) := p.growData bytes.length
    if err = NO_ERROR then (NO_ERROR, p.put bytes) else (err, p)

/-- `writeAligned` of a 32-bit value. -/
def writeInt32 (p : Parcel) (val : ℕ) : ℤ × Parcel := p.restartWrite (leBytes 4 val)

/-- `writeInplace` for the caller's bytes, with zeros up to the padded size; whether there is
memory. -/
def writeInplace (p : Parcel) (bytes : Bytes) : Bool × Parcel :=
  if bytes.length > INT32_MAX then (false, p)
  else
    let padding := padSize bytes.length - bytes.length
    let (err, p) := p.restartWrite (bytes ++ List.replicate padding 0)
    (err = NO_ERROR, p)

def writeString16 (p : Parcel) (str : Units) : ℤ × Parcel :=
  let (err, p) := p.writeInt32 str.length
  if err = NO_ERROR then
    let (data, p) := p.writeInplace (unitBytes (str ++ [0]))
    (if data then NO_ERROR else p.mError, p)
  else (err, p)

def writeInterfaceToken (p : Parcel) (policy : ℕ) (interface : Units) : ℤ × Parcel :=
  (p.writeInt32 (policy ||| STRICT_MODE_PENALTY_GATHER)).2.writeString16 interface

/-- `writeObject` of an object that is not a file descriptor, without `nullMetaData`. -/
def writeObject (p : Parcel) (val : FlatObject) : ℤ × Parcel :=
  let (err, written) := p.restartWrite val.encode
  if err = NO_ERROR ∧ val.binder ≠ 0 then
    (err, { written with mObjects := p.mObjects ++ [p.mDataPos] })
  else (err, written)

/-- `flatten_binder`. -/
def flattenBinder : Binder → FlatObject
  | .remoteBinder handle =>
    ⟨BINDER_TYPE_HANDLE, 0x7f ||| FLAT_BINDER_FLAG_ACCEPTS_FDS, handle.toUInt64, 0⟩
  | .localBinder refs cookie =>
    ⟨BINDER_TYPE_BINDER, 0x7f ||| FLAT_BINDER_FLAG_ACCEPTS_FDS, refs, cookie⟩
  | .null => ⟨BINDER_TYPE_BINDER, 0x7f ||| FLAT_BINDER_FLAG_ACCEPTS_FDS, 0, 0⟩

def writeStrongBinder (p : Parcel) (val : Binder) : ℤ × Parcel := p.writeObject (flattenBinder val)

/-! ### Reading -/

/-- `ipcSetDataReference`, with the offsets as `binder_size_t`. -/
def ipcSetDataReference (data : Bytes) (objects : List ℕ) : Parcel :=
  let ascending := objects.foldl
    (fun (minOffset : Option ℕ) offset => minOffset.bind fun low =>
      if offset < low then none else some ((offset + flatSize) % 2 ^ 64)) (some 0)
  { mData := data
    mDataCapacity := data.length
    mObjects := if ascending.isSome then objects else [] }

/-- `setDataPosition` to a position that does not abort. -/
def setDataPosition (p : Parcel) (pos : ℕ) : Parcel :=
  { p with mDataPos := pos, mNextObjectHint := 0 }

/-- `readAligned` of a signed 32-bit value, zero if there is none. -/
def readInt32 (p : Parcel) : ℤ × Parcel :=
  if p.mDataPos + 4 ≤ p.mData.length then
    (int32 (ofLe (slice p.mData p.mDataPos 4)), { p with mDataPos := p.mDataPos + 4 })
  else (0, p)

/-- `readInplace`: the bytes behind the pointer it returns. -/
def readInplace (p : Parcel) (len : ℕ) : Option Bytes × Parcel :=
  if len > INT32_MAX then (none, p)
  else if p.mDataPos + padSize len ≤ p.mData.length then
    (some (slice p.mData p.mDataPos len), { p with mDataPos := p.mDataPos + padSize len })
  else (none, p)

def readString16 (p : Parcel) : Units × Parcel :=
  let (size, p) := p.readInt32
  if 0 ≤ size ∧ size < INT32_MAX then
    match p.readInplace ((size.toNat + 1) * 2) with
    | (some bytes, p) => ((ofUnitBytes bytes).take size.toNat, p)
    | (none, p) => ([], p)
  else ([], p)

/-- The search of `readObject` forwards from the hint; the fuel is the number of objects. -/
def searchForward (objs : List ℕ) (dpos : ℕ) : ℕ → ℕ → ℕ
  | 0, opos => opos
  | fuel + 1, opos =>
    if opos < objs.length - 1 ∧ objs.getD opos 0 < dpos then searchForward objs dpos fuel (opos + 1)
    else opos

/-- The search of `readObject` backwards. -/
def searchBackward (objs : List ℕ) (dpos : ℕ) : ℕ → ℕ
  | 0 => 0
  | opos + 1 => if objs.getD (opos + 1) 0 > dpos then searchBackward objs dpos opos else opos + 1

/-- Where `readObject` finds an object that starts at the position. -/
def findObject (objs : List ℕ) (dpos hint : ℕ) : Option ℕ :=
  if objs = [] then none
  else
    let opos := if hint < objs.length then searchForward objs dpos objs.length hint
      else objs.length - 1
    if objs.getD opos 0 = dpos then some opos
    else
      let opos := searchBackward objs dpos opos
      if objs.getD opos 0 = dpos then some opos else none

/-- `readObject` without `nullMetaData`. -/
def readObject (p : Parcel) : Option FlatObject × Parcel :=
  let dpos := p.mDataPos
  if dpos + flatSize ≤ p.mData.length then
    let obj := FlatObject.decode (slice p.mData dpos flatSize)
    let p := { p with mDataPos := dpos + flatSize }
    if obj.cookie = 0 ∧ obj.binder = 0 then (some obj, p)
    else
      match findObject p.mObjects dpos p.mNextObjectHint with
      | some opos => (some obj, { p with mNextObjectHint := opos + 1 })
      | none => (none, p)
  else (none, p)

/-- `unflatten_binder`. -/
def unflattenBinder : Option FlatObject → Binder
  | some flat =>
    if flat.type = BINDER_TYPE_BINDER then
      if flat.cookie = 0 then .null else .localBinder flat.binder flat.cookie
    else if flat.type = BINDER_TYPE_HANDLE then .remoteBinder flat.handle
    else .null
  | none => .null

def readStrongBinder (p : Parcel) : Binder × Parcel :=
  let (flat, p) := p.readObject
  (unflattenBinder flat, p)

def readExceptionCode (p : Parcel) : ℤ :=
  let exceptionCode := p.readInt32.1
  if exceptionCode = EX_HAS_REPLY_HEADER then 0 else exceptionCode

end Parcel

end AmlCommonlib.ServiceManager
