import AmlCommonlib.ServiceManager.Parcel

/-! # What is written is what is read

A message is a sequence of padded fields. A parcel that is written grows by one field a call, and
the service manager reads the fields back one by one; the reply goes the other way. A field that a
parcel has no room for is left out, which the reader notices.
-/

namespace AmlCommonlib.ServiceManager

/-- Bytes with zeros up to the padded size. -/
def padded (bytes : Bytes) : Bytes :=
  bytes ++ List.replicate (padSize bytes.length - bytes.length) 0

/-- A string as a field: the length, the units and the terminator. -/
def string16 (s : Units) : Bytes := leBytes 4 s.length ++ padded (unitBytes (s ++ [0]))

theorem padSize_bounds {size : ℕ} (word : size + 3 < 2 ^ 64) :
    size ≤ padSize size ∧ padSize size < size + 4 := by
  rw [padSize_eq word]
  omega

theorem length_padded {bytes : Bytes} (word : bytes.length + 3 < 2 ^ 64) :
    (padded bytes).length = padSize bytes.length := by
  have := padSize_bounds word
  rw [padded, List.length_append, List.length_replicate]
  omega

@[simp] theorem length_encode (obj : FlatObject) : obj.encode.length = flatSize := by
  simp [FlatObject.encode, flatSize]

/-! ### Reading in the service manager -/

/-- The part of the memory behind a position starts with a field. -/
theorem slice_of_drop {α : Type*} {block field rest : List α} {pos : ℕ}
    (here : block.drop pos = field ++ rest) : slice block pos field.length = field := by
  rw [slice, here, List.take_left]

namespace BinderIo

/-- What is left to read. -/
def Reading (bio : BinderIo) (rest : Bytes) : Prop :=
  bio.data0.drop bio.data = rest ∧ bio.dataAvail = rest.length

/-- Behind a field of a size. -/
def advance (bio : BinderIo) (size : ℕ) : BinderIo :=
  { bio with data := bio.data + size, dataAvail := bio.dataAvail - size }

variable {bio : BinderIo} {field rest : Bytes}

theorem Reading.advance (reading : bio.Reading (field ++ rest)) :
    (bio.advance field.length).Reading rest := by
  obtain ⟨here, avail⟩ := reading
  constructor
  · change bio.data0.drop (bio.data + field.length) = rest
    rw [← List.drop_drop, here, List.drop_left]
  · change bio.dataAvail - field.length = rest.length
    rw [avail, List.length_append]
    omega

theorem Reading.get (reading : bio.Reading (field ++ rest)) {size : ℕ}
    (padded : padSize size = field.length) :
    bio.get size = (some bio.data, bio.advance field.length) := by
  rw [BinderIo.get, padded, if_neg (by rw [reading.2, List.length_append]; omega)]
  rfl

theorem Reading.getUint32 {n : ℕ} (reading : bio.Reading (leBytes 4 n ++ rest)) (word : n < 2 ^ 32) :
    bio.getUint32 = (n, bio.advance 4) ∧ (bio.advance 4).Reading rest := by
  have next := reading.advance
  have there := reading.get (show padSize 4 = (leBytes 4 n).length by rw [length_leBytes]; rfl)
  rw [length_leBytes] at next there
  refine ⟨?_, next⟩
  rw [BinderIo.getUint32, there]
  have value : slice bio.data0 bio.data 4 = leBytes 4 n := by
    simpa using slice_of_drop reading.1
  simp only [BinderIo.advance, value]
  rw [ofLe_leBytes_of_lt (by omega)]

/-- A string whose padding holds anything. -/
theorem Reading.getString16_units {s : Units} {padding : Bytes} {size : ℕ}
    (reading : bio.Reading (leBytes 4 s.length ++ (unitBytes s ++ padding ++ rest)))
    (word : s.length < 2 ^ 32) (whole : (unitBytes s ++ padding).length = size)
    (padded : padSize ((s.length + 1) * 2) = size) :
    bio.getString16 = (some s, bio.advance (4 + size)) ∧ (bio.advance (4 + size)).Reading rest := by
  obtain ⟨length, behind⟩ := reading.getUint32 word
  have small : (s.length + 1) * 2 % 2 ^ 64 = (s.length + 1) * 2 := Nat.mod_eq_of_lt (by omega)
  have next := behind.advance
  have there := behind.get (padded.trans whole.symm)
  rw [whole] at next there
  have text : slice (bio.advance 4).data0 (bio.advance 4).data (2 * s.length) = unitBytes s := by
    have behind' := behind.1
    rw [List.append_assoc] at behind'
    simpa using slice_of_drop behind'
  have twice : (bio.advance 4).advance size = bio.advance (4 + size) := by
    simp only [BinderIo.advance, Nat.add_assoc, Nat.sub_sub]
  rw [twice] at next there
  refine ⟨?_, next⟩
  rw [BinderIo.getString16, length]
  simp only [small, there]
  change (some (ofUnitBytes (slice bio.data0 (bio.data + 4) (2 * s.length))), _) = _
  rw [show slice bio.data0 (bio.data + 4) (2 * s.length) = unitBytes s from text,
    ofUnitBytes_unitBytes]

theorem Reading.getString16 {s : Units} (reading : bio.Reading (string16 s ++ rest))
    (word : s.length < 2 ^ 32) :
    bio.getString16 = (some s, bio.advance (string16 s).length) ∧
      (bio.advance (string16 s).length).Reading rest := by
  have size : (unitBytes (s ++ [0])).length = (s.length + 1) * 2 := by
    rw [length_unitBytes, List.length_append, List.length_singleton]
    omega
  have whole : (padded (unitBytes (s ++ [0]))).length = _ := length_padded (by omega)
  obtain ⟨padding, split⟩ : ∃ padding, padded (unitBytes (s ++ [0])) = unitBytes s ++ padding :=
    ⟨_, by rw [padded, unitBytes_append, List.append_assoc]⟩
  have length : (string16 s).length = 4 + padSize ((s.length + 1) * 2) := by
    rw [ServiceManager.string16, List.length_append, length_leBytes, whole, size]
  rw [length]
  rw [ServiceManager.string16, split, List.append_assoc] at reading
  exact reading.getString16_units word (by rw [← split, whole, size]) rfl

/-- A string whose units are missing. -/
theorem Reading.getString16_none {n : ℕ} (reading : bio.Reading (leBytes 4 n ++ rest))
    (word : n < 2 ^ 32) (short : rest.length < (n + 1) * 2) : bio.getString16.1 = none := by
  obtain ⟨length, behind⟩ := reading.getUint32 word
  have small : (n + 1) * 2 % 2 ^ 64 = (n + 1) * 2 := Nat.mod_eq_of_lt (by omega)
  have pad := padSize_bounds (show (n + 1) * 2 + 3 < 2 ^ 64 by omega)
  have avail := behind.2
  rw [BinderIo.getString16, length]
  simp only [small]
  rw [BinderIo.get, if_pos (by omega)]

/-- The two fields of an object that are read in place. -/
theorem slices_of_object {block : Bytes} {pos : ℕ} {obj : FlatObject}
    (here : block.drop pos = obj.encode ++ rest) :
    ofLe (slice block pos 4) = obj.type.toNat ∧
      ofLe (slice block (pos + 8) 4) = obj.handle.toNat := by
  simp only [FlatObject.encode, List.append_assoc] at here
  have behind : block.drop (pos + 8) =
      leBytes 8 obj.binder.toNat ++ (leBytes 8 obj.cookie.toNat ++ rest) := by
    rw [← List.drop_drop, here, ← List.append_assoc]
    exact List.drop_left' (by simp)
  constructor
  · rw [show slice block pos 4 = leBytes 4 obj.type.toNat by simpa using slice_of_drop here]
    exact ofLe_leBytes_of_lt obj.type.toNat_lt
  · rw [slice, behind, List.take_append_of_le_length (by simp), take_leBytes (by decide), ofLe_leBytes,
      FlatObject.handle, UInt64.toNat_toUInt32]
    rfl

/-- No object is listed. -/
theorem getRef_unlisted (none : slice bio.offs0 bio.offs bio.offsAvail = []) : bio.getRef.1 = 0 := by
  rw [BinderIo.getRef, BinderIo.getObj, none]
  rfl

theorem Reading.getRef {obj : FlatObject} (reading : bio.Reading (obj.encode ++ rest))
    (listed : bio.data ∈ slice bio.offs0 bio.offs bio.offsAvail) :
    bio.getRef = (if obj.type = BINDER_TYPE_HANDLE then obj.handle.toNat else 0,
        bio.advance flatSize) ∧ (bio.advance flatSize).Reading rest := by
  have there := reading.get (show padSize flatSize = obj.encode.length by rw [length_encode]; rfl)
  have next := reading.advance
  rw [length_encode] at there next
  refine ⟨?_, next⟩
  have found : (slice bio.offs0 bio.offs bio.offsAvail).any (· == bio.data) = true := by
    simpa using listed
  obtain ⟨type, handle⟩ := slices_of_object reading.1
  rw [BinderIo.getRef, BinderIo.getObj, if_pos found, there]
  simp only [BinderIo.advance, type, handle, UInt32.toNat_inj]
  split_ifs <;> rfl

end BinderIo

/-! ### Writing in the client -/

namespace Parcel

/-- What a client has written so far. -/
structure Written (p : Parcel) (data : Bytes) (objects : List ℕ) : Prop where
  error : p.mError = NO_ERROR
  pos : p.mDataPos = data.length
  whole : p.mData = data
  listed : p.mObjects = objects

theorem written_empty : Written {} [] [] := ⟨rfl, rfl, rfl, rfl⟩

variable {p : Parcel} {data bytes : Bytes} {objects : List ℕ}

theorem Written.put (written : p.Written data objects) (bytes : Bytes) :
    (p.put bytes).Written (data ++ bytes) objects := by
  obtain ⟨error, pos, rfl, rfl⟩ := written
  exact ⟨error, by simp [Parcel.put, pos], by simp [Parcel.put, pos], rfl⟩

theorem Written.continueWrite (written : p.Written data objects) (desired : ℕ) :
    (p.continueWrite desired).2.Written data objects := by
  obtain ⟨error, pos, whole, listed⟩ := written
  rw [Parcel.continueWrite]
  split_ifs <;> exact ⟨error, pos, whole, listed⟩

theorem Written.growData (written : p.Written data objects) {len : ℕ} (positive : 0 < len) :
    (p.growData len).2.Written data objects ∧
      ((p.growData len).1 ≠ NO_ERROR → 2 ^ 30 < data.length + len) := by
  rw [Parcel.growData, written.whole]
  split_ifs with large
  · exact ⟨written, fun _ => by rw [INT32_MAX] at large; omega⟩
  · rw [if_neg (by omega)]
    refine ⟨written.continueWrite _, fun failed => ?_⟩
    rw [Parcel.continueWrite] at failed
    split_ifs at failed with above
    · rw [INT32_MAX] at above
      omega
    · exact absurd rfl failed
    · exact absurd rfl failed

/-- A write is done as a whole or not at all; only a large parcel has no room. -/
theorem Written.restartWrite (written : p.Written data objects) (positive : 0 < bytes.length) :
    ((p.restartWrite bytes).1 = NO_ERROR ∧ (p.restartWrite bytes).2.Written (data ++ bytes) objects) ∨
      (p.restartWrite bytes).1 ≠ NO_ERROR ∧ (p.restartWrite bytes).2.Written data objects ∧
        2 ^ 30 < data.length + bytes.length := by
  rw [Parcel.restartWrite]
  split_ifs with room
  · exact .inl ⟨rfl, written.put bytes⟩
  · obtain ⟨kept, above⟩ := written.growData positive
    simp only
    split_ifs with done
    · exact .inl ⟨rfl, kept.put bytes⟩
    · exact .inr ⟨done, kept, above done⟩

/-- A write into a parcel with room. -/
theorem Written.restartWrite_small (written : p.Written data objects) (positive : 0 < bytes.length)
    (small : data.length + bytes.length ≤ 2 ^ 30) : (p.restartWrite bytes).1 = NO_ERROR ∧
      (p.restartWrite bytes).2.Written (data ++ bytes) objects := by
  rcases written.restartWrite positive with done | ⟨-, -, large⟩
  · exact done
  · omega

theorem Written.writeInt32 (written : p.Written data objects) (val : ℕ)
    (small : data.length + 4 ≤ 2 ^ 30) : (p.writeInt32 val).1 = NO_ERROR ∧
      (p.writeInt32 val).2.Written (data ++ leBytes 4 val) objects :=
  written.restartWrite_small (by simp) (by simpa using small)

/-- A string is written as a field, or only its length. -/
theorem Written.writeString16 (written : p.Written data objects) (s : Units)
    (small : data.length ≤ 2 ^ 20) :
    (p.writeString16 s).2.Written (data ++ string16 s) objects ∨
      (p.writeString16 s).2.Written (data ++ leBytes 4 s.length) objects ∧ 2 ^ 28 ≤ s.length := by
  obtain ⟨done, length⟩ := written.writeInt32 s.length (by omega)
  have size : (unitBytes (s ++ [0])).length = (s.length + 1) * 2 := by
    rw [length_unitBytes, List.length_append, List.length_singleton]
    omega
  rw [Parcel.writeString16]
  simp only [done, if_true, Parcel.writeInplace]
  split_ifs with large
  · refine .inr ⟨length, ?_⟩
    rw [INT32_MAX] at large
    omega
  · have positive : 0 < (padded (unitBytes (s ++ [0]))).length := by
      rw [padded, List.length_append]
      omega
    rcases length.restartWrite positive with ⟨-, full⟩ | ⟨-, kept, above⟩
    · rw [List.append_assoc] at full
      exact .inl full
    · refine .inr ⟨kept, ?_⟩
      rw [INT32_MAX] at large
      have := padSize_bounds (show (unitBytes (s ++ [0])).length + 3 < 2 ^ 64 by omega)
      rw [length_padded (by omega), List.length_append, length_leBytes] at above
      omega

/-- An object is listed unless it is null. -/
theorem Written.writeObject (written : p.Written data objects) (val : FlatObject)
    (small : data.length + flatSize ≤ 2 ^ 30) : (p.writeObject val).2.Written
      (data ++ val.encode) (if val.binder ≠ 0 then objects ++ [data.length] else objects) := by
  have positive : 0 < val.encode.length := by
    rw [length_encode]
    decide
  obtain ⟨done, error, pos, whole, listed⟩ :=
    written.restartWrite_small positive (by rw [length_encode]; exact small)
  rw [Parcel.writeObject]
  simp only [done, true_and]
  split_ifs
  · exact ⟨error, pos, whole, by rw [written.listed, written.pos]⟩
  · exact ⟨error, pos, whole, listed⟩

/-- In any case a write leaves what was written, with at most the bytes behind it. -/
theorem Written.restartWrite_tail (written : p.Written data objects) (positive : 0 < bytes.length) :
    ∃ tail, tail.length ≤ bytes.length ∧
      (p.restartWrite bytes).2.Written (data ++ tail) objects := by
  rcases written.restartWrite positive with ⟨-, full⟩ | ⟨-, kept, -⟩
  · exact ⟨bytes, le_rfl, full⟩
  · exact ⟨[], by simp, by rwa [List.append_nil]⟩

theorem Written.writeObject_tail (written : p.Written data objects) (val : FlatObject) :
    ∃ tail listed, tail.length ≤ flatSize ∧ (listed = [] ∨ listed = [data.length]) ∧
      (p.writeObject val).2.Written (data ++ tail) (objects ++ listed) := by
  have positive : 0 < val.encode.length := by
    rw [length_encode]
    decide
  obtain ⟨tail, length, error, pos, whole, same⟩ := written.restartWrite_tail positive
  rw [length_encode] at length
  rw [Parcel.writeObject]
  simp only
  split_ifs
  · exact ⟨tail, [data.length], length, .inr rfl, error, pos, whole,
      by rw [written.listed, written.pos]⟩
  · exact ⟨tail, [], length, .inl rfl, error, pos, whole, by rw [same, List.append_nil]⟩

end Parcel

end AmlCommonlib.ServiceManager
