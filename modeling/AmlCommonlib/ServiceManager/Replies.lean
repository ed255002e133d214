import AmlCommonlib.ServiceManager.Manager
import AmlCommonlib.ServiceManager.Messages

/-! # Replies

A reply is made in a buffer on the stack that holds 224 bytes behind four offsets. What the stack
holds before shows through where nothing is stored.
-/

namespace AmlCommonlib.ServiceManager

variable {stack : Stack}

/-- What is sent of a reply. -/
def BinderIo.sent (bio : BinderIo) : Bytes × List ℕ :=
  (bio.data0.take bio.data, bio.offs0.take bio.offs)

/-- An empty reply. -/
def Stack.reply (stack : Stack) : BinderIo := bioInit stack.rdata 256 4

/-- The memory of a reply. -/
def Stack.room (stack : Stack) : Bytes := stack.rdata.drop 32

theorem Stack.length_room (stack : Stack) : stack.room.length = 224 := by
  rw [Stack.room, List.length_drop, stack.size]

/-- The parts of the memory that an answer fills. -/
theorem exists_parts {α : Type*} {block : List α} {a b : ℕ} (room : a + b ≤ block.length) :
    ∃ part rest, block = part ++ rest ∧ part.length = a ∧ b ≤ rest.length :=
  ⟨block.take a, block.drop a, (List.take_append_drop ..).symm, by rw [List.length_take]; omega,
    by rw [List.length_drop]; omega⟩

/-- A number at the start of a reply. -/
theorem putUint32_reply (stack : Stack) (n : ℕ) : ∃ rest : Bytes, rest.length = 220 ∧
    stack.reply.putUint32 n = { stack.reply with
      data0 := leBytes 4 n ++ rest
      data := 4
      dataAvail := 220 } := by
  have room := stack.length_room
  obtain ⟨part, rest, whole, size, -⟩ := exists_parts (show 4 + 220 ≤ stack.room.length by omega)
  have length : rest.length = 220 := by
    rw [whole, List.length_append] at room
    omega
  have stored : overwrite stack.room 0 (leBytes 4 n) = leBytes 4 n ++ rest := by
    rw [whole]
    exact overwrite_start (by rw [length_leBytes, size])
  have avail : stack.reply.dataAvail = 224 := rfl
  have place := @BinderIo.alloc_room stack.reply 4 (by rw [avail]; decide)
  refine ⟨rest, length, ?_⟩
  rw [BinderIo.putUint32, place, ← stored]
  rfl

theorem sent_uint32 (n : ℕ) : (stack.reply.putUint32 n).sent = (leBytes 4 n, []) := by
  obtain ⟨rest, -, put⟩ := putUint32_reply stack n
  rw [put, BinderIo.sent]
  refine Prod.ext ?_ rfl
  exact List.take_left' (length_leBytes ..)

/-- The object that names a service; half of its union is left over. -/
theorem sent_ref {handle : ℕ} (used : handle ≠ 0) (word : handle < 2 ^ 32) :
    ∃ obj : FlatObject, obj.type = BINDER_TYPE_HANDLE ∧ obj.handle.toNat = handle ∧
      (stack.reply.putRef handle).sent = (obj.encode, [0]) := by
  have room := stack.length_room
  obtain ⟨a, rest, wholeA, sizeA, roomA⟩ := exists_parts (show 4 + 20 ≤ stack.room.length by omega)
  obtain ⟨b, rest, rfl, sizeB, roomB⟩ := exists_parts (show 4 + 16 ≤ rest.length by omega)
  obtain ⟨c, rest, rfl, sizeC, roomC⟩ := exists_parts (show 4 + 12 ≤ rest.length by omega)
  obtain ⟨d, rest, rfl, sizeD, roomD⟩ := exists_parts (show 4 + 8 ≤ rest.length by omega)
  obtain ⟨e, rest, rfl, sizeE, -⟩ := exists_parts (show 8 + 0 ≤ rest.length by omega)
  let flags : UInt32 := 0x7f ||| FLAT_BINDER_FLAG_ACCEPTS_FDS
  let union : Bytes := leBytes 4 handle ++ d
  have unionSize : union.length = 8 := by simp [union, sizeD]
  have unionWord : ofLe union < 2 ^ 64 := by simpa [unionSize] using ofLe_lt union
  refine ⟨⟨BINDER_TYPE_HANDLE, flags, UInt64.ofNat (ofLe union), 0⟩, rfl, ?_, ?_⟩
  · rw [FlatObject.handle, UInt64.toNat_toUInt32, UInt64.toNat_ofNat', Nat.mod_eq_of_lt unionWord,
      ofLe_append, length_leBytes, ofLe_leBytes_of_lt (by omega)]
    omega
  · let kind := leBytes 4 BINDER_TYPE_HANDLE.toNat
    have first : overwrite stack.room 4 (leBytes 4 flags.toNat) =
        a ++ (leBytes 4 flags.toNat ++ (c ++ (d ++ (e ++ rest)))) :=
      overwrite_part wholeA sizeA (by simp [sizeB])
    have second : overwrite (overwrite stack.room 4 (leBytes 4 flags.toNat)) 0 kind =
        kind ++ (leBytes 4 flags.toNat ++ (c ++ (d ++ (e ++ rest)))) := by
      rw [first]
      exact overwrite_start (by simp [kind, sizeA])
    have third : overwrite (overwrite (overwrite stack.room 4 (leBytes 4 flags.toNat)) 0 kind) 8
        (leBytes 4 handle) =
          (kind ++ leBytes 4 flags.toNat) ++ (leBytes 4 handle ++ (d ++ (e ++ rest))) :=
      overwrite_part (by rw [second, List.append_assoc]) (by simp [kind]) (by simp [sizeC])
    have fourth : overwrite (overwrite (overwrite (overwrite stack.room 4 (leBytes 4 flags.toNat)) 0
        kind) 8 (leBytes 4 handle)) 16 (leBytes 8 0) =
          (kind ++ leBytes 4 flags.toNat ++ union) ++ (leBytes 8 0 ++ rest) :=
      @overwrite_part _ _ (kind ++ leBytes 4 flags.toNat ++ union) e rest _ _
        (by simp [third, union]) (by simp [kind, unionSize]) (by simp [sizeE])
    have put : (stack.reply.putRef handle).sent =
        ((overwrite (overwrite (overwrite (overwrite stack.room 4 (leBytes 4 flags.toNat)) 0 kind) 8
          (leBytes 4 handle)) 16 (leBytes 8 0)).take 24, [0]) := by
      have avail : stack.reply.dataAvail = 224 := rfl
      have place := @BinderIo.allocObj_room stack.reply (by rw [avail]; decide)
        (show 4 ≠ 0 by decide)
      rw [BinderIo.putRef, if_pos used, place]
      rfl
    rw [put, fourth, ← List.append_assoc, List.take_left' (by simp [kind, unionSize])]
    have word : leBytes 8 (ofLe union) = union := unionSize ▸ leBytes_ofLe union
    rw [FlatObject.encode, UInt64.toNat_ofNat', Nat.mod_eq_of_lt unionWord, word]
    rfl

/-! ### Strings -/

/-- A string is sent up to its first zero. -/
theorem sent_string16 {s text : Units} (cut : s.takeWhile (· ≠ 0) = text) (fits : text.length ≤ 109) : ∃ padding : Bytes,
    padding.length = padSize ((text.length + 1) * 2) - (text.length + 1) * 2 ∧
    (stack.reply.putString16 s).sent =
      (leBytes 4 text.length ++ (unitBytes (text ++ [0]) ++ padding), []) := by
  obtain ⟨rest, room, put⟩ := putUint32_reply stack text.length
  have pad := padSize_eq (show (text.length + 1) * 2 + 3 < 2 ^ 64 by omega)
  have size : (unitBytes (text ++ [0])).length = (text.length + 1) * 2 := by
    rw [length_unitBytes, List.length_append, List.length_singleton]
    omega
  obtain ⟨part, behind, whole, length, more⟩ := exists_parts
    (show (text.length + 1) * 2 + (padSize ((text.length + 1) * 2) - (text.length + 1) * 2) ≤
      rest.length by omega)
  refine ⟨behind.take (padSize ((text.length + 1) * 2) - (text.length + 1) * 2), ?_, ?_⟩
  · rw [List.length_take]
    omega
  rw [BinderIo.putString16, cut]
  simp only [BinderIo.maxUnits, put, BinderIo.alloc]
  rw [if_neg (by omega), if_neg (by omega)]
  have stored : overwrite (leBytes 4 text.length ++ rest) 4 (unitBytes (text ++ [0])) =
      leBytes 4 text.length ++ (unitBytes (text ++ [0]) ++ behind) :=
    overwrite_part (by rw [whole]) (by simp) (by rw [size, length])
  simp only [BinderIo.store, BinderIo.sent, stored]
  refine Prod.ext ?_ rfl
  simp only
  rw [List.take_append, List.take_append, length_leBytes, size,
    List.take_of_length_le (by rw [length_leBytes]; omega),
    List.take_of_length_le (by rw [size]; omega)]
  congr 3
  omega

/-- Only the length of a longer string is sent. -/
theorem sent_string16_long {s text : Units} (cut : s.takeWhile (· ≠ 0) = text) (long : 109 < text.length) (small : text.length < 2 ^ 29) :
    (stack.reply.putString16 s).sent = (leBytes 4 text.length, []) := by
  obtain ⟨rest, room, put⟩ := putUint32_reply stack text.length
  have pad := padSize_eq (show (text.length + 1) * 2 + 3 < 2 ^ 64 by omega)
  rw [BinderIo.putString16, cut]
  simp only [BinderIo.maxUnits, put, BinderIo.alloc]
  rw [if_neg (by omega), if_pos (by omega)]
  simp only [BinderIo.overflow, BinderIo.sent]
  rw [List.take_left' (length_leBytes ..)]
  rfl

/-! ### Reading in the client -/

theorem decode_encode (obj : FlatObject) : FlatObject.decode obj.encode = obj := by
  have whole : obj.encode = leBytes 4 obj.type.toNat ++ (leBytes 4 obj.flags.toNat ++
      (leBytes 8 obj.binder.toNat ++ (leBytes 8 obj.cookie.toNat ++ []))) := by
    simp [FlatObject.encode]
  have behind : obj.encode.drop 4 = leBytes 4 obj.flags.toNat ++
      (leBytes 8 obj.binder.toNat ++ (leBytes 8 obj.cookie.toNat ++ [])) := by
    rw [whole, List.drop_left' (length_leBytes ..)]
  have union : obj.encode.drop 8 =
      leBytes 8 obj.binder.toNat ++ (leBytes 8 obj.cookie.toNat ++ []) := by
    rw [show 8 = 4 + 4 from rfl, ← List.drop_drop, behind, List.drop_left' (length_leBytes ..)]
  have last : obj.encode.drop 16 = leBytes 8 obj.cookie.toNat ++ [] := by
    rw [show 16 = 8 + 8 from rfl, ← List.drop_drop, union, List.drop_left' (length_leBytes ..)]
  have parts : ofLe (slice obj.encode 0 4) = obj.type.toNat ∧
      ofLe (slice obj.encode 4 4) = obj.flags.toNat ∧
      ofLe (slice obj.encode 8 8) = obj.binder.toNat ∧
      ofLe (slice obj.encode 16 8) = obj.cookie.toNat := by
    refine ⟨?_, ?_, ?_, ?_⟩
    · rw [slice, List.drop_zero, whole, List.take_left' (length_leBytes ..)]
      exact ofLe_leBytes_of_lt obj.type.toNat_lt
    · rw [slice, behind, List.take_left' (length_leBytes ..)]
      exact ofLe_leBytes_of_lt obj.flags.toNat_lt
    · rw [slice, union, List.take_left' (length_leBytes ..)]
      exact ofLe_leBytes_of_lt obj.binder.toNat_lt
    · rw [slice, last, List.take_left' (length_leBytes ..)]
      exact ofLe_leBytes_of_lt obj.cookie.toNat_lt
  rw [FlatObject.decode, parts.1, parts.2.1, parts.2.2.1, parts.2.2.2, UInt32.ofNat_toNat,
    UInt32.ofNat_toNat, UInt64.ofNat_toNat, UInt64.ofNat_toNat]

namespace Parcel

theorem ipcSetDataReference_nil (data : Bytes) :
    ipcSetDataReference data [] = { mData := data, mDataCapacity := data.length } := rfl

theorem ipcSetDataReference_zero (data : Bytes) : ipcSetDataReference data [0] =
    { mData := data, mDataCapacity := data.length, mObjects := [0] } := rfl

/-- The one object of a reply. -/
theorem readStrongBinder_object (obj : FlatObject) :
    (ipcSetDataReference obj.encode [0]).readStrongBinder.1 = unflattenBinder (some obj) := by
  have object : FlatObject.decode (slice obj.encode 0 flatSize) = obj := by
    rw [slice, List.drop_zero, List.take_of_length_le (by simp), decode_encode]
  have found : findObject [0] 0 0 = some 0 := by decide
  rw [ipcSetDataReference_zero, readStrongBinder, readObject]
  simp only [object, found]
  rw [if_pos (by simp)]
  split_ifs <;> rfl

/-- A reply that is too short for an object. -/
theorem readStrongBinder_none {data : Bytes} (short : data.length < flatSize) :
    (ipcSetDataReference data []).readStrongBinder.1 = .null := by
  rw [ipcSetDataReference_nil, readStrongBinder, readObject, if_neg (by simpa using short)]
  rfl

theorem readInt32_front {n : ℕ} (small : n < 2 ^ 31) (rest : Bytes) :
    (ipcSetDataReference (leBytes 4 n ++ rest) []).readInt32 =
      ((n : ℤ), { ipcSetDataReference (leBytes 4 n ++ rest) [] with mDataPos := 4 }) := by
  have value : slice (leBytes 4 n ++ rest) 0 4 = leBytes 4 n := by
    rw [slice, List.drop_zero, List.take_left' (length_leBytes ..)]
  rw [ipcSetDataReference_nil, readInt32]
  simp only [value]
  rw [if_pos (by simp), ofLe_leBytes_of_lt (by omega), int32_of_range (by omega) (by omega)]

/-- The bytes behind the length of a string. -/
theorem readInplace_front {n size : ℕ} (small : size ≤ INT32_MAX) (rest : Bytes) :
    ({ ipcSetDataReference (leBytes 4 n ++ rest) [] with mDataPos := 4 } : Parcel).readInplace size =
      if padSize size ≤ rest.length then (some (rest.take size),
        { ipcSetDataReference (leBytes 4 n ++ rest) [] with mDataPos := 4 + padSize size })
      else (none, { ipcSetDataReference (leBytes 4 n ++ rest) [] with mDataPos := 4 }) := by
  rw [readInplace, if_neg (by omega), ipcSetDataReference_nil]
  simp only [slice, List.drop_left' (length_leBytes ..), List.length_append, length_leBytes,
    Nat.add_le_add_iff_left]

/-- A string that was sent as a whole. -/
theorem readString16_sent {text : Units} {padding : Bytes} (small : text.length < 2 ^ 20)
    (pad : padding.length = padSize ((text.length + 1) * 2) - (text.length + 1) * 2) :
    (ipcSetDataReference (leBytes 4 text.length ++ (unitBytes (text ++ [0]) ++ padding))
      []).readString16.1 = text := by
  have size : (unitBytes (text ++ [0])).length = (text.length + 1) * 2 := by
    rw [length_unitBytes, List.length_append, List.length_singleton]
    omega
  have bounds := padSize_bounds (show (text.length + 1) * 2 + 3 < 2 ^ 64 by omega)
  have inside : padSize ((text.length + 1) * 2) ≤ (unitBytes (text ++ [0]) ++ padding).length := by
    rw [List.length_append, size, pad]
    omega
  rw [readString16, readInt32_front (by omega)]
  simp only [Int.toNat_natCast]
  rw [if_pos (by rw [INT32_MAX]; omega), readInplace_front (by rw [INT32_MAX]; omega),
    if_pos inside, List.take_left' size]
  simp only [ofUnitBytes_unitBytes]
  exact List.take_left

/-- A string of which only the length was sent. -/
theorem readString16_short {n : ℕ} (small : n < 2 ^ 20) :
    (ipcSetDataReference (leBytes 4 n) []).readString16.1 = [] := by
  have bounds := padSize_bounds (show (n + 1) * 2 + 3 < 2 ^ 64 by omega)
  rw [← List.append_nil (leBytes 4 n), readString16, readInt32_front (by omega)]
  simp only [Int.toNat_natCast]
  rw [if_pos (by rw [INT32_MAX]; omega), readInplace_front (by rw [INT32_MAX]; omega),
    if_neg (by rw [List.length_nil]; omega)]

end Parcel

end AmlCommonlib.ServiceManager
