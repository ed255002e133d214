import AmlCommonlib.Lib.Runs
import AmlCommonlib.ServiceManager.Parcel

/-! # The objects of a message

A message lists where its objects are, and the driver looks at no others. A reader takes an object
only from a place in the list, which it searches from a hint on.
-/

namespace AmlCommonlib.ServiceManager

variable {objects : List ℕ} {data : Bytes} {dpos hint : ℕ}

/-- Objects one behind the other. -/
def Ascending (objects : List ℕ) : Prop := objects.Pairwise fun a b => a + flatSize ≤ b

instance (objects : List ℕ) : Decidable (Ascending objects) :=
  inferInstanceAs (Decidable (objects.Pairwise _))

theorem ascending_cons {o : ℕ} : Ascending (o :: objects) ↔
    (∀ o' ∈ objects, o + flatSize ≤ o') ∧ Ascending objects :=
  List.pairwise_cons

namespace Parcel

/-! ### The check of the list -/

/-- The loop of `ipcSetDataReference` over offsets behind which there is space for an object. -/
theorem foldl_ascending {objects : List ℕ} (space : ∀ o ∈ objects, o + flatSize < 2 ^ 64) (low : ℕ) :
    (objects.foldl (fun (minOffset : Option ℕ) offset => minOffset.bind fun low =>
      if offset < low then none else some ((offset + flatSize) % 2 ^ 64)) (some low)).isSome ↔
        Ascending objects ∧ ∀ o ∈ objects, low ≤ o := by
  have stopped : ∀ rest : List ℕ, rest.foldl (fun (minOffset : Option ℕ) offset =>
      minOffset.bind fun low => if offset < low then none
        else some ((offset + flatSize) % 2 ^ 64)) none = none := by
    intro rest
    induction rest with
    | nil => rfl
    | cons o rest ih => exact ih
  induction objects generalizing low with
  | nil => simp [Ascending]
  | cons o rest ih =>
    obtain ⟨here, others⟩ := List.forall_mem_cons.mp space
    rw [List.foldl_cons, Option.bind_some, Nat.mod_eq_of_lt here]
    split_ifs with before
    · rw [stopped]
      simp [before]
    · have onwards : _ ↔ Ascending rest ∧ ∀ o' ∈ rest, o + flatSize ≤ o' :=
        ih others (o + flatSize)
      rw [onwards, ascending_cons, List.forall_mem_cons]
      constructor
      · rintro ⟨rest, above⟩
        exact ⟨⟨above, rest⟩, by omega, fun o' member => by have := above o' member; omega⟩
      · rintro ⟨⟨above, rest⟩, -, -⟩
        exact ⟨rest, above⟩

/-- A list with objects that overlap, or out of order, is dropped. -/
theorem ipcSetDataReference_eq (data : Bytes) (space : ∀ o ∈ objects, o + flatSize < 2 ^ 64) :
    ipcSetDataReference data objects =
      { mData := data
        mDataCapacity := data.length
        mObjects := if Ascending objects then objects else [] } := by
  have checked := foldl_ascending space 0
  simp only [Nat.zero_le, implies_true, and_true] at checked
  rw [ipcSetDataReference]
  simp only [checked]

/-! ### The search -/

theorem searchForward_lt {opos : ℕ} (inside : opos < objects.length) (fuel : ℕ) :
    searchForward objects dpos fuel opos < objects.length := by
  induction fuel generalizing opos with
  | zero => exact inside
  | succ fuel ih =>
    rw [searchForward]
    split_ifs with on
    · exact ih (by omega)
    · exact inside

theorem searchBackward_le (opos : ℕ) : searchBackward objects dpos opos ≤ opos := by
  induction opos with
  | zero => exact le_rfl
  | succ opos ih =>
    rw [searchBackward]
    split_ifs
    · omega
    · exact le_rfl

theorem ascending_getD (ascending : Ascending objects) {i j : ℕ} (before : i < j)
    (inside : j < objects.length) : objects.getD i 0 < objects.getD j 0 := by
  rw [List.getD_eq_getElem _ _ inside, List.getD_eq_getElem _ _ (before.trans inside)]
  have apart := List.pairwise_iff_getElem.mp ascending i j (before.trans inside) inside before
  rw [flatSize] at apart
  omega

/-- The search forwards passes no object at the position. -/
theorem le_searchForward (ascending : Ascending objects) {k : ℕ} (inside : k < objects.length)
    {fuel opos : ℕ} (enough : objects.length ≤ opos + fuel + 1) :
    k ≤ searchForward objects (objects.getD k 0) fuel opos := by
  induction fuel generalizing opos with
  | zero =>
    rw [searchForward]
    omega
  | succ fuel ih =>
    rw [searchForward]
    split_ifs with on
    · exact ih (by omega)
    · rcases Nat.lt_or_ge opos k with before | behind
      · exact absurd ⟨by omega, ascending_getD ascending before inside⟩ on
      · exact behind

/-- The search backwards ends at the object. -/
theorem searchBackward_eq (ascending : Ascending objects) {k r : ℕ} (behind : k ≤ r)
    (inside : r < objects.length) :
    searchBackward objects (objects.getD k 0) r = k := by
  induction r with
  | zero =>
    rw [searchBackward]
    omega
  | succ r ih =>
    rw [searchBackward]
    rcases Nat.eq_or_lt_of_le behind with rfl | before
    · rw [if_neg (lt_irrefl _)]
    · rw [if_pos (ascending_getD ascending before inside)]
      exact ih (by omega) (by omega)

/-- Where the first search ends, whatever the hint. -/
def firstGuess (objects : List ℕ) (dpos hint : ℕ) : ℕ :=
  if hint < objects.length then searchForward objects dpos objects.length hint
  else objects.length - 1

theorem findObject_eq (some : objects ≠ []) : findObject objects dpos hint =
    if objects.getD (firstGuess objects dpos hint) 0 = dpos then .some (firstGuess objects dpos hint)
    else if objects.getD (searchBackward objects dpos (firstGuess objects dpos hint)) 0 = dpos then
      .some (searchBackward objects dpos (firstGuess objects dpos hint)) else none := by
  rw [findObject, if_neg some]
  rfl

theorem firstGuess_lt (some : objects ≠ []) : firstGuess objects dpos hint < objects.length := by
  have positive := List.length_pos_of_ne_nil some
  rw [firstGuess]
  split_ifs with inside
  · exact searchForward_lt inside _
  · omega

/-- An object is found wherever the search starts, and nothing else is. -/
theorem findObject_isSome_iff (ascending : Ascending objects) :
    (findObject objects dpos hint).isSome ↔ dpos ∈ objects := by
  rcases eq_or_ne objects [] with rfl | some
  · simp [findObject]
  have guess : firstGuess objects dpos hint < objects.length := firstGuess_lt some
  have member : ∀ i, i < objects.length → objects.getD i 0 ∈ objects := by
    intro i inside
    rw [List.getD_eq_getElem _ _ inside]
    exact List.getElem_mem inside
  constructor
  · intro found
    rw [findObject_eq some] at found
    split_ifs at found with first second
    · exact first ▸ member _ guess
    · exact second ▸ member _ (lt_of_le_of_lt (searchBackward_le _) guess)
    · simp at found
  · intro listed
    obtain ⟨k, inside, rfl⟩ := List.getElem_of_mem listed
    rw [← List.getD_eq_getElem _ 0 inside] at guess ⊢
    have behind : k ≤ firstGuess objects (objects.getD k 0) hint := by
      rw [firstGuess]
      split_ifs
      · exact le_searchForward ascending inside (by omega)
      · omega
    rw [findObject_eq some, searchBackward_eq ascending behind guess, if_pos rfl]
    split_ifs <;> rfl

/-! ### What a reader gets -/

/-- A use of a parcel by a reader. -/
inductive Access
  | int32
  | inplace (len : ℕ)
  | string16
  | object
  | position (pos : ℕ)

/-- The parcel behind a use. -/
def access (p : Parcel) : Access → Parcel
  | .int32 => p.readInt32.2
  | .inplace len => (p.readInplace len).2
  | .string16 => p.readString16.2
  | .object => p.readObject.2
  | .position pos => p.setDataPosition pos

/-- The step of a use. -/
def Accesses (p : Parcel) (a : Access) (p' : Parcel) : Prop := p' = p.access a

theorem readInt32_keeps (p : Parcel) :
    p.readInt32.2.mData = p.mData ∧ p.readInt32.2.mObjects = p.mObjects := by
  rw [readInt32]
  split_ifs <;> exact ⟨rfl, rfl⟩

theorem readInplace_keeps (p : Parcel) (len : ℕ) :
    (p.readInplace len).2.mData = p.mData ∧ (p.readInplace len).2.mObjects = p.mObjects := by
  rw [readInplace]
  split_ifs <;> exact ⟨rfl, rfl⟩

theorem readString16_keeps (p : Parcel) :
    p.readString16.2.mData = p.mData ∧ p.readString16.2.mObjects = p.mObjects := by
  obtain ⟨data, objects⟩ := p.readInt32_keeps
  obtain ⟨data', objects'⟩ := p.readInt32.2.readInplace_keeps ((p.readInt32.1.toNat + 1) * 2)
  rw [readString16]
  simp only
  split_ifs
  · split
    · next bytes behind read =>
      rw [read] at data' objects'
      exact ⟨data'.trans data, objects'.trans objects⟩
    · next behind read =>
      rw [read] at data' objects'
      exact ⟨data'.trans data, objects'.trans objects⟩
  · exact ⟨data, objects⟩

theorem readObject_keeps (p : Parcel) :
    p.readObject.2.mData = p.mData ∧ p.readObject.2.mObjects = p.mObjects := by
  rw [readObject]
  simp only
  split_ifs
  · exact ⟨rfl, rfl⟩
  · split <;> exact ⟨rfl, rfl⟩
  · exact ⟨rfl, rfl⟩

/-- No use changes the message. -/
theorem access_keeps (p : Parcel) (a : Access) :
    (p.access a).mData = p.mData ∧ (p.access a).mObjects = p.mObjects := by
  cases a with
  | int32 => exact p.readInt32_keeps
  | inplace len => exact p.readInplace_keeps len
  | string16 => exact p.readString16_keeps
  | object => exact p.readObject_keeps
  | position pos => exact ⟨rfl, rfl⟩

theorem readObject_eq_some_iff {p : Parcel} (ascending : Ascending p.mObjects) (obj : FlatObject) :
    p.readObject.1 = some obj ↔ p.mDataPos + flatSize ≤ p.mData.length ∧
      obj = .decode (slice p.mData p.mDataPos flatSize) ∧
        ((obj.cookie = 0 ∧ obj.binder = 0) ∨ p.mDataPos ∈ p.mObjects) := by
  have search := @findObject_isSome_iff p.mObjects p.mDataPos p.mNextObjectHint ascending
  rw [readObject]
  simp only
  split_ifs with inside null
  · simp only [inside, true_and, Option.some.injEq]
    constructor
    · rintro rfl
      exact ⟨rfl, .inl null⟩
    · rintro ⟨rfl, -⟩
      rfl
  · cases found : findObject p.mObjects p.mDataPos p.mNextObjectHint with
    | none =>
      rw [found] at search
      simp only [Option.isSome_none, Bool.false_eq_true, false_iff] at search
      simp only [reduceCtorEq, false_iff]
      rintro ⟨-, rfl, isNull | listed⟩
      · exact null isNull
      · exact search listed
    | some opos =>
      rw [found] at search
      have listed : p.mDataPos ∈ p.mObjects := search.mp rfl
      simp only [inside, listed, or_true, and_true, true_and, Option.some.injEq]
      exact eq_comm
  · simp [inside]

/-- Whatever message comes in and however it is read before, an object is handed out exactly if it
is inside the message, and null or at a place that the message lists; and a list whose objects
overlap or are out of order lists none. Behind each listed place there is space for an object. -/
theorem readObject_vetted {uses : List Access} {p : Parcel}
    (space : ∀ o ∈ objects, o + flatSize < 2 ^ 64)
    (run : Run Accesses (ipcSetDataReference data objects) uses p) (obj : FlatObject) :
    p.readObject.1 = some obj ↔ p.mDataPos + flatSize ≤ data.length ∧
      obj = .decode (slice data p.mDataPos flatSize) ∧
        ((obj.cookie = 0 ∧ obj.binder = 0) ∨ Ascending objects ∧ p.mDataPos ∈ objects) := by
  have received := ipcSetDataReference_eq data space
  have kept : p.mData = data ∧ p.mObjects = if Ascending objects then objects else [] := by
    refine @Run.preserves _ _ _ (fun p : Parcel => p.mData = data ∧ p.mObjects = _) ?_ _ _ _ run
      (by rw [received]; exact ⟨rfl, rfl⟩)
    rintro p a p' ⟨rfl, same⟩ rfl
    exact ⟨(p.access_keeps a).1, (p.access_keeps a).2.trans same⟩
  obtain ⟨rfl, same⟩ := kept
  have ascending : Ascending p.mObjects := by
    rw [same]
    split_ifs with holds
    · exact holds
    · exact List.Pairwise.nil
  rw [readObject_eq_some_iff ascending, same]
  split_ifs with holds <;> simp [holds]

/-- A handle in the bytes of a message. -/
def forged : FlatObject := ⟨BINDER_TYPE_HANDLE, 0, 7, 0⟩

/-- The message lists the second of two handles and not the first. -/
theorem readObject_vetted_forged :
    let p := ipcSetDataReference (forged.encode ++ forged.encode) [24]
    ((p.access .object).access (.position 0)).readObject.1 ≠ some forged ∧
      ((p.access .object).access (.position 24)).readObject.1 = some forged := by
  intro p
  have run : ∀ pos, Run Accesses p [.object, .position pos]
      ((p.access .object).access (.position pos)) := fun _ => .cons rfl (.cons rfl (.nil _))
  constructor
  · rw [Ne, readObject_vetted (by decide) (run 0)]
    rintro ⟨-, -, null | ⟨-, listed⟩⟩
    · exact absurd null (by decide)
    · exact absurd listed (by decide)
  · rw [readObject_vetted (by decide) (run 24)]
    exact ⟨by decide, by decide +kernel, .inr (by decide)⟩

end Parcel

end AmlCommonlib.ServiceManager
