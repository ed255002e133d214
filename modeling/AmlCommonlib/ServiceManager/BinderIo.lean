import AmlCommonlib.Lib.Block
import AmlCommonlib.Lib.Masks
import AmlCommonlib.Lib.Units

/-! # Messages of the service manager

`binder_io` of the service manager on a 64-bit machine. A pointer into a message is its distance
from the start of the message.
-/

namespace AmlCommonlib.ServiceManager

def BIO_F_SHARED : ℕ := 1
def BIO_F_OVERFLOW : ℕ := 2

def BINDER_TYPE_BINDER : UInt32 := 0x73622a85
def BINDER_TYPE_HANDLE : UInt32 := 0x73682a85
def FLAT_BINDER_FLAG_ACCEPTS_FDS : UInt32 := 0x100

/-- `sizeof(struct flat_binder_object)`. -/
def flatSize : ℕ := 24

/-- `(size + 3) & ~3` on a `size_t`. -/
def padSize (size : ℕ) : ℕ := (size + 3) % 2 ^ 64 &&& complement 64 (2 ^ 2 - 1)

theorem padSize_eq {size : ℕ} (word : size + 3 < 2 ^ 64) : padSize size = (size + 3) / 4 * 4 := by
  rw [padSize, Nat.mod_eq_of_lt word]
  exact and_complement (by decide) word

/-- `struct binder_io`. -/
structure BinderIo where
  data0 : Bytes
  data : ℕ
  offs0 : List ℕ
  offs : ℕ
  dataAvail : ℕ
  offsAvail : ℕ
  flags : ℕ

/-- A command for a node: `struct binder_transaction_data`, with the memory it points to. -/
structure Txn where
  target : ℕ
  code : ℕ
  data : Bytes
  offsets : List ℕ
  buffer : ℕ

def bioInitFromTxn (txn : Txn) : BinderIo where
  data0 := txn.data
  data := 0
  offs0 := txn.offsets
  offs := 0
  dataAvail := txn.data.length
  offsAvail := txn.offsets.length
  flags := BIO_F_SHARED

/-- `bio_init` on memory that holds `data` bytes. -/
def bioInit (data : Bytes) (maxdata maxoffs : ℕ) : BinderIo :=
  let n := maxoffs * 8
  if n > maxdata then ⟨[], 0, [], 0, 0, 0, BIO_F_OVERFLOW⟩
  else {
    data0 := data.drop n
    data := 0
    offs0 := (List.range maxoffs).map fun i => ofLe (slice data (8 * i) 8)
    offs := 0
    dataAvail := maxdata - n
    offsAvail := maxoffs
    flags := 0 }

namespace BinderIo

def overflow (bio : BinderIo) : BinderIo := { bio with flags := bio.flags ||| BIO_F_OVERFLOW }

/-- `memcpy` to a pointer into the message. -/
def store (bio : BinderIo) (ptr : ℕ) (src : Bytes) : BinderIo :=
  { bio with data0 := overwrite bio.data0 ptr src }

/-- `bio_alloc`. -/
def alloc (bio : BinderIo) (size : ℕ) : Option ℕ × BinderIo :=
  let size := padSize size
  if size > bio.dataAvail then (none, bio.overflow)
  else (some bio.data, { bio with data := bio.data + size, dataAvail := bio.dataAvail - size })

theorem alloc_room {bio : BinderIo} {size : ℕ} (room : padSize size ≤ bio.dataAvail) :
    bio.alloc size = (some bio.data, { bio with
      data := bio.data + padSize size
      dataAvail := bio.dataAvail - padSize size }) := by
  rw [alloc, if_neg (by omega)]

/-- `bio_alloc_obj`. -/
def allocObj (bio : BinderIo) : Option ℕ × BinderIo :=
  match bio.alloc flatSize with
  | (some obj, bio) =>
    if bio.offsAvail ≠ 0 then
      (some obj, { bio with
        offsAvail := bio.offsAvail - 1
        offs0 := bio.offs0.set bio.offs obj
        offs := bio.offs + 1 })
    else (none, bio.overflow)
  | (none, bio) => (none, bio.overflow)

theorem allocObj_room {bio : BinderIo} (room : flatSize ≤ bio.dataAvail)
    (free : bio.offsAvail ≠ 0) : bio.allocObj = (some bio.data, { bio with
      data := bio.data + flatSize
      dataAvail := bio.dataAvail - flatSize
      offsAvail := bio.offsAvail - 1
      offs0 := bio.offs0.set bio.offs bio.data
      offs := bio.offs + 1 }) := by
  have size : padSize flatSize = flatSize := rfl
  rw [allocObj, alloc_room (by omega), size]
  simp only [if_pos free]

/-- `bio_put_uint32`. -/
def putUint32 (bio : BinderIo) (n : ℕ) : BinderIo :=
  match bio.alloc 4 with
  | (some ptr, bio) => bio.store ptr (leBytes 4 n)
  | (none, bio) => bio

/-- `bio_put_ref`. -/
def putRef (bio : BinderIo) (handle : ℕ) : BinderIo :=
  match if handle ≠ 0 then bio.allocObj else bio.alloc flatSize with
  | (none, bio) => bio
  | (some obj, bio) =>
    let bio := bio.store (obj + 4) (leBytes 4 (0x7f ||| FLAT_BINDER_FLAG_ACCEPTS_FDS).toNat)
    let bio := bio.store obj (leBytes 4 BINDER_TYPE_HANDLE.toNat)
    let bio := bio.store (obj + 8) (leBytes 4 handle)
    bio.store (obj + 16) (leBytes 8 0)

/-- `MAX_BIO_SIZE / sizeof(uint16_t)`. -/
def maxUnits : ℕ := 2 ^ 30 / 2

/-- `bio_put_string16` of the string in `str`, which ends before its first zero. -/
def putString16 (bio : BinderIo) (str : Units) : BinderIo :=
  let str := str.takeWhile (· ≠ 0)
  if str.length ≥ maxUnits then bio.putUint32 0xffffffff
  else
    let bio := bio.putUint32 str.length
    match bio.alloc ((str.length + 1) * 2) with
    | (some ptr, bio) => bio.store ptr (unitBytes (str ++ [0]))
    | (none, bio) => bio

/-- `bio_get`. -/
def get (bio : BinderIo) (size : ℕ) : Option ℕ × BinderIo :=
  let size := padSize size
  if bio.dataAvail < size then (none, { bio with dataAvail := 0 }.overflow)
  else (some bio.data, { bio with data := bio.data + size, dataAvail := bio.dataAvail - size })

/-- `bio_get_uint32`. -/
def getUint32 (bio : BinderIo) : ℕ × BinderIo :=
  match bio.get 4 with
  | (some ptr, bio) => (ofLe (slice bio.data0 ptr 4), bio)
  | (none, bio) => (0, bio)

/-- `bio_get_string16`: the units behind the pointer it returns. -/
def getString16 (bio : BinderIo) : Option Units × BinderIo :=
  let (len, bio) := bio.getUint32
  match bio.get ((len + 1) * 2 % 2 ^ 64) with
  | (some ptr, bio) => (some (ofUnitBytes (slice bio.data0 ptr (2 * len))), bio)
  | (none, bio) => (none, bio)

/-- `_bio_get_obj`. -/
def getObj (bio : BinderIo) : Option ℕ × BinderIo :=
  if (slice bio.offs0 bio.offs bio.offsAvail).any (· == bio.data) then bio.get flatSize
  else (none, { bio with dataAvail := 0 }.overflow)

/-- `bio_get_ref`. -/
def getRef (bio : BinderIo) : ℕ × BinderIo :=
  match bio.getObj with
  | (some obj, bio) =>
    if ofLe (slice bio.data0 obj 4) = BINDER_TYPE_HANDLE.toNat then
      (ofLe (slice bio.data0 (obj + 8) 4), bio)
    else (0, bio)
  | (none, bio) => (0, bio)

end BinderIo

end AmlCommonlib.ServiceManager
