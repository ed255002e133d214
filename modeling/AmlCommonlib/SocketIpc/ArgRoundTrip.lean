import AmlCommonlib.SocketIpc.Codec

/-! # Arguments through the codec

What is packed is always found again at its place in the buffer. The decoder stores only as many
bytes of a number as the type has on the wire, while the stubs declare an `int` for the 8- and
16-bit types: there the value arrives if and only if the bytes above were right before.
-/

namespace AmlCommonlib.SocketIpc

/-- The arguments of a type: representable numbers, C strings, blocks with their length. -/
def TypeId.Accepts (type : TypeId) : Arg → Prop
  | .number v => type ≠ .str ∧ type ≠ .ptr ∧
      match type with
      | .u8 | .u16 | .u32 | .u64 => 0 ≤ v ∧ v < (256 ^ type.len : ℕ)
      | _ => -(256 ^ type.len : ℕ) ≤ 2 * v ∧ 2 * v < (256 ^ type.len : ℕ)
  | .string s => type = .str ∧ ∀ text, s = some text → IsCString text
  | .block p len => type = .ptr ∧ len = p.length

/-- The variables a stub declares for a type, with any content. -/
def TypeId.Declares (type : TypeId) : Var → Prop
  | .number mem => type ≠ .str ∧ type ≠ .ptr ∧ mem.length = type.ctypeSize
  | .str _ => type = .str
  | .ptr _ _ => type = .ptr

/-- One position of a call: a type with an argument for it and an output variable. -/
structure Item where
  type : TypeId
  arg : Arg
  var : Var
  accepts : type.Accepts arg
  declares : type.Declares var

/-- What an item takes in the message. -/
def Item.size (item : Item) : ℕ :=
  match item.arg with
  | .number _ => item.type.len
  | .string none => 4
  | .string (some s) => s.length + 5
  | .block p _ => p.length + 4

/-- The variable equals the argument; pointers lead into the received message. -/
def Delivered (mem : ℕ → UInt8) (type : TypeId) : Arg → Var → Prop
  | .number v, .number bytes => type.value bytes = v
  | .string none, .str p => p = none
  | .string (some s), .str p => ∃ start, p = some start ∧ window mem start (s.length + 1) = s ++ [0]
  | .block p plen, .ptr q len => len = plen ∧
      if p = [] then q = none else ∃ start, q = some start ∧ window mem start p.length = p
  | _, _ => False

/-- The bytes of a number variable above the width on the wire are those of the argument. -/
def Item.Prepared (item : Item) : Prop :=
  match item.arg, item.var with
  | .number v, .number mem =>
      mem.drop item.type.len =
        (leBytes item.type.ctypeSize (toUnsigned item.type.ctypeSize v)).drop item.type.len
  | _, _ => True

def totalSize (items : List Item) : ℕ := (items.map Item.size).sum

def format (items : List Item) : List ℤ := items.map (·.type.code)

/-- Packing into `len` bytes and unpacking what was packed, on both sides the total size. -/
def RoundTrips (items : List Item) (len : ℤ) : Prop :=
  ∃ bytes, ipcPackVa len (format items) (items.map Item.arg) = some ((totalSize items : ℤ), bytes) ∧
    bytes.length = totalSize items ∧
    ∀ mem, window mem 0 bytes.length = bytes →
      (ipcUpackVa mem (format items) 0 (totalSize items)).ret = totalSize items ∧
      List.Forall₂ (fun item var => Delivered mem item.type item.arg var) items
        (storeAll (items.map Item.var) (ipcUpackVa mem (format items) 0 (totalSize items)).writes)

/-! ### One item -/

/-- The bytes of an item in the message. -/
def Item.packed (item : Item) : Bytes :=
  match item.arg with
  | .number v => (leBytes item.type.len (toUnsigned item.type.ctypeSize v)).reverse
  | .string none => (leBytes 4 0).reverse
  | .string (some s) => (leBytes 4 (s.length + 1)).reverse ++ (s ++ [0])
  | .block p _ => (leBytes 4 p.length).reverse ++ p

theorem TypeId.len_le_ctypeSize {type : TypeId} : type.len ≤ type.ctypeSize := by
  cases type <;> decide

theorem TypeId.ctypeSize_le {type : TypeId} : type.ctypeSize ≤ 8 := by
  cases type <;> decide

theorem Item.length_packed (item : Item) : item.packed.length = item.size := by
  obtain ⟨type, arg, -, -, -⟩ := item
  cases arg with
  | number v => simp [packed, size]
  | string s =>
    cases s with
    | none => simp [packed, size]
    | some s => simp [packed, size]; omega
  | block p len => simp [packed, size]; omega

theorem Item.size_pos (item : Item) : 0 < item.size := by
  obtain ⟨type, arg, -, -, -⟩ := item
  cases arg with
  | number v => cases type <;> simp [size, TypeId.len]
  | string s => cases s <;> simp [size]
  | block p len => simp [size]

theorem toUnsigned_natCast {width x : ℕ} (bound : x < 256 ^ width) :
    toUnsigned width (x : ℤ) = x := by
  have same : (toUnsigned width (x : ℤ) : ℤ) = x :=
    toUnsigned_of_range (Int.natCast_nonneg x) (by exact_mod_cast bound)
  exact_mod_cast same

theorem packItem_number {type : TypeId} {v len : ℤ} (notStr : type ≠ .str) (notPtr : type ≠ .ptr)
    (fits : type.len ≤ len) :
    packItem type len (.number v) =
      some (.ok (leBytes type.len (toUnsigned type.ctypeSize v)).reverse) := by
  have room : ¬len < type.len := by omega
  have narrow : ∀ x, (leBytes 8 x).take type.len = leBytes type.len x :=
    take_leBytes (TypeId.len_le_ctypeSize.trans TypeId.ctypeSize_le)
  simp only [packItem, notStr, notPtr, or_self, if_false, ipcPackNumber, room, narrow,
    TypeId.ctypeSize]
  split_ifs <;> rfl

/-- Where header and block fit, both are written. -/
theorem ipcPackPointer_fits {len tlen : ℤ} (ptr : Bytes) (positive : 0 ≤ tlen)
    (fits : tlen + 4 ≤ len) (bound : len < 2 ^ 31) :
    ipcPackPointer len tlen ptr =
      some (.ok ((leBytes 4 (toUnsigned 4 tlen)).reverse ++ ptr.take tlen.toNat)) := by
  have sum : int32 (tlen + 4) = tlen + 4 := int32_of_range (by omega) (by omega)
  have room : ¬len < tlen + 4 := by omega
  simp [ipcPackPointer, sum, room, positive]

theorem packItem_none {len : ℤ} (fits : 4 ≤ len) (bound : len < 2 ^ 31) :
    packItem .str len (.string none) = some (.ok (leBytes 4 0).reverse) := by
  simp [packItem, ipcPackPointer_fits [] (le_refl 0) (by simpa using fits) bound, toUnsigned]

theorem packItem_string {s : Bytes} {len : ℤ} (fits : s.length + 5 ≤ len) (bound : len < 2 ^ 31) :
    packItem .str len (.string (some s)) =
      some (.ok ((leBytes 4 (s.length + 1)).reverse ++ (s ++ [0]))) := by
  have short : int32 (s.length + 1) = (s.length + 1 : ℕ) := by
    rw [int32_of_range (by omega) (by omega)]
    push_cast
    rfl
  have whole : (s ++ [0]).take (s.length + 1) = s ++ [0] := List.take_of_length_le (by simp)
  have packed := ipcPackPointer_fits (s ++ [0]) (Int.natCast_nonneg (s.length + 1)) (by omega)
    bound
  rw [toUnsigned_natCast (by omega), Int.toNat_natCast, whole] at packed
  simp only [packItem, if_true, short, packed]

theorem packItem_block {p : Bytes} {plen len : ℤ} (positive : 0 ≤ plen) (fits : plen + 4 ≤ len)
    (bound : len < 2 ^ 31) :
    packItem .ptr len (.block p plen) =
      some (.ok ((leBytes 4 plen.toNat).reverse ++ p.take plen.toNat)) := by
  have value : toUnsigned 4 plen = plen.toNat := by
    zify
    rw [toUnsigned_of_range (by omega) (by omega)]
    omega
  simp only [packItem, if_true, ipcPackPointer_fits p positive fits bound, value]

/-- Where an item fits, its `pack` function writes its bytes. -/
theorem packItem_eq (item : Item) {len : ℤ} (fits : item.size ≤ len) (bound : len < 2 ^ 31) :
    packItem item.type len item.arg = some (.ok item.packed) := by
  have accepts := item.accepts
  unfold Item.size at fits
  unfold Item.packed
  generalize item.arg = arg, item.type = type at accepts fits ⊢
  cases arg with
  | number v =>
    obtain ⟨notStr, notPtr, -⟩ := accepts
    exact packItem_number notStr notPtr (by simpa using fits)
  | string s =>
    obtain ⟨rfl, -⟩ := accepts
    cases s with
    | none => exact packItem_none (by simpa using fits) bound
    | some s => exact packItem_string (by simpa using fits) bound
  | block p plen =>
    obtain ⟨rfl, rfl⟩ := accepts
    rw [packItem_block (Int.natCast_nonneg _) (by simpa using fits) bound, Int.toNat_natCast,
      List.take_length]

/-- A declared variable has the value of the argument exactly when its bytes are the argument's. -/
theorem value_eq_iff {type : TypeId} {v : ℤ} (accepts : type.Accepts (.number v)) {bytes : Bytes}
    (length : bytes.length = type.ctypeSize) :
    type.value bytes = v ↔ bytes = leBytes type.ctypeSize (toUnsigned type.ctypeSize v) := by
  have bound := length ▸ ofLe_lt bytes
  have exact' : bytes = leBytes type.ctypeSize (toUnsigned type.ctypeSize v) ↔
      ofLe bytes = toUnsigned type.ctypeSize v := by
    rw [← ofLe_leBytes_of_lt (toUnsigned_lt type.ctypeSize v), ofLe_inj (by simp [length]),
      ofLe_leBytes_of_lt (toUnsigned_lt _ _)]
  rw [exact']
  obtain ⟨-, -, range⟩ := accepts
  cases signed : type.ctypeSigned with
  | false =>
    have positive : 0 ≤ v ∧ v < 256 ^ type.ctypeSize := by
      cases type <;> simp_all [TypeId.ctypeSigned, TypeId.len, TypeId.ctypeSize]
    have same := toUnsigned_of_range positive.1 positive.2
    simp only [TypeId.value, signed, Bool.false_eq_true, if_false]
    omega
  | true =>
    have inRange : -(256 ^ type.ctypeSize : ℕ) ≤ 2 * v ∧ 2 * v < (256 ^ type.ctypeSize : ℕ) := by
      cases type <;> simp_all [TypeId.ctypeSigned, TypeId.len, TypeId.ctypeSize] <;> omega
    have back := toSigned_toUnsigned inRange.1 inRange.2
    simp only [TypeId.value, signed, if_true]
    constructor
    · intro same
      exact toSigned_inj bound (toUnsigned_lt _ _) (same.trans back.symm)
    · intro same
      rw [same, back]

/-- The length in front of a packed string or block is read back. -/
theorem itemLength_eq {mem : ℕ → UInt8} {pos n : ℕ} {rest : Bytes} (bound : n < 2 ^ 31)
    (filled : window mem pos ((leBytes 4 n).reverse ++ rest).length =
      (leBytes 4 n).reverse ++ rest) :
    itemLength mem pos = n ∧ window mem (pos + 4) rest.length = rest := by
  obtain ⟨header, body⟩ := window_eq_append filled
  simp only [List.length_reverse, length_leBytes] at header body
  refine ⟨?_, body⟩
  rw [itemLength, header, List.reverse_reverse, ofLe_leBytes_of_lt (by omega)]
  exact int32_of_range (by omega) (by omega)

/-- What is stored to a number variable is completed by the bytes above. -/
theorem stored_eq_iff {narrow wide x : ℕ} (fits : narrow ≤ wide) {mem : Bytes} :
    leBytes narrow x ++ mem.drop narrow = leBytes wide x ↔
      mem.drop narrow = (leBytes wide x).drop narrow := by
  have split : leBytes wide x = leBytes narrow x ++ (leBytes wide x).drop narrow := by
    rw [← take_leBytes fits x, List.take_append_drop]
  constructor
  · intro same
    rw [split] at same
    exact List.append_cancel_left same
  · intro same
    rw [same, ← split]

/-- At the place of an item its `upack` function consumes it, and the variable it stores to gets
the argument if and only if it was prepared. -/
theorem upackItem_spec (item : Item) {mem : ℕ → UInt8} {pos : ℕ} {len : ℤ}
    (filled : window mem pos item.packed.length = item.packed) (fits : item.size ≤ len)
    (bound : len < 2 ^ 31) :
    (upackItem item.type mem pos len).ret = item.size ∧
      ∃ w, (upackItem item.type mem pos len).write = some w ∧
        (Delivered mem item.type item.arg (item.var.store w) ↔ item.Prepared) := by
  have accepts := item.accepts
  have declares := item.declares
  unfold Item.size at fits ⊢
  unfold Item.packed at filled
  unfold Item.Prepared
  generalize item.arg = arg, item.var = var, item.type = type at accepts declares fits filled ⊢
  match arg, var with
  | .number v, .number mem' =>
    obtain ⟨notStr, notPtr, length⟩ := declares
    have room : ¬len < type.len := by simpa using fits
    have bytes : window mem pos type.len =
        (leBytes type.len (toUnsigned type.ctypeSize v)).reverse := by simpa using filled
    simp only [upackItem_number (not_or.mpr ⟨notStr, notPtr⟩), ipcUpackNumber, room, if_false, bytes,
      List.reverse_reverse, true_and]
    refine ⟨_, rfl, ?_⟩
    simp only [Var.store, Delivered, length_leBytes]
    have width : (leBytes type.len (toUnsigned type.ctypeSize v) ++ mem'.drop type.len).length =
        type.ctypeSize := by
      have le := type.len_le_ctypeSize
      simp [length, le]
    rw [value_eq_iff accepts width, stored_eq_iff type.len_le_ctypeSize]
  | .string none, .str p =>
    obtain rfl : type = .str := declares
    have header : window mem pos ((leBytes 4 0).reverse ++ []).length = (leBytes 4 0).reverse ++ [] := by
      simpa using filled
    obtain ⟨length, -⟩ := itemLength_eq (by decide) header
    simp [upackItem, ipcUpackPointer, length, Var.store, Delivered, int32]
  | .string (some text), .str p =>
    obtain rfl : type = .str := declares
    have room : (text.length : ℤ) + 5 ≤ len := by simpa using fits
    obtain ⟨length, body⟩ := itemLength_eq (by omega) filled
    have nonzero : ((text.length + 1 : ℕ) : ℤ) ≠ 0 := by omega
    have free : ¬(((text.length + 1 : ℕ) : ℤ) < 0 ∧ len < ((text.length + 1 : ℕ) : ℤ) + 4) := by
      omega
    simp only [upackItem, ipcUpackPointer, length, free, if_false, nonzero, ne_eq, not_false_eq_true,
      if_true, reduceCtorEq]
    refine ⟨(int32_of_range (by omega) (by omega)).trans (by push_cast; ring), _, rfl, ?_⟩
    simp only [Var.store, Delivered, iff_true]
    exact ⟨pos + 4, rfl, by simpa using body⟩
  | .block block plen, .ptr q len' =>
    obtain ⟨rfl, rfl⟩ := accepts
    have room : (block.length : ℤ) + 4 ≤ len := by simpa using fits
    obtain ⟨length, body⟩ := itemLength_eq (by omega) filled
    have free : ¬((block.length : ℤ) < 0 ∧ len < (block.length : ℤ) + 4) := by omega
    simp only [upackItem, ipcUpackPointer, length, free, if_false, if_true]
    refine ⟨(int32_of_range (by omega) (by omega)).trans (by push_cast; ring), _, rfl, ?_⟩
    simp only [Var.store, Delivered, iff_true, true_and]
    split_ifs with empty nonzero nonzero
    · simp [empty] at nonzero
    · rfl
    · exact ⟨pos + 4, rfl, body⟩
    · exact absurd (List.length_eq_zero_iff.mp (by simpa using nonzero)) empty
  | .number v, .str p => exact absurd declares accepts.1
  | .number v, .ptr p l => exact absurd declares accepts.2.1
  | .string s, .number mem' => exact absurd accepts.1 declares.1
  | .string s, .ptr p l => exact absurd (accepts.1.symm.trans declares) (by decide)
  | .block b l, .number mem' => exact absurd accepts.1 declares.2.1
  | .block b l, .str p => exact absurd (accepts.1.symm.trans declares) (by decide)

/-! ### Whole calls -/

theorem ipcPackVa_eq (items : List Item) {len : ℤ} (fits : totalSize items ≤ len)
    (bound : len < 2 ^ 31) :
    ipcPackVa len (format items) (items.map Item.arg) =
      some ((totalSize items : ℤ), (items.map Item.packed).flatten) := by
  induction items generalizing len with
  | nil => rfl
  | cons item rest ih =>
    have total : totalSize (item :: rest) = item.size + totalSize rest := by simp [totalSize]
    have tail := @ih (len - item.packed.length)
      (by rw [item.length_packed]; omega) (by omega)
    have head := packItem_eq item (by omega : (item.size : ℤ) ≤ len) bound
    simp only [format, List.map_cons, ipcPackVa, buildinType_code, head]
    rw [format] at tail
    rw [tail]
    simp [total, item.length_packed]

theorem length_flatten_packed (items : List Item) :
    (items.map Item.packed).flatten.length = totalSize items := by
  simp [totalSize, List.length_flatten, Function.comp_def, Item.length_packed]

/-- Decoding at the place of the packed items. -/
theorem ipcUpackVa_spec (items : List Item) {mem : ℕ → UInt8} {pos : ℕ} {len : ℤ}
    (filled : window mem pos (items.map Item.packed).flatten.length = (items.map Item.packed).flatten)
    (fits : totalSize items ≤ len) (bound : len < 2 ^ 31) :
    (ipcUpackVa mem (format items) pos len).ret = totalSize items ∧
      (List.Forall₂ (fun item var => Delivered mem item.type item.arg var) items
        (storeAll (items.map Item.var) (ipcUpackVa mem (format items) pos len).writes) ↔
      ∀ item ∈ items, item.Prepared) := by
  induction items generalizing pos len with
  | nil => simp [format, ipcUpackVa, totalSize, storeAll]
  | cons item rest ih =>
    have total : totalSize (item :: rest) = item.size + totalSize rest := by simp [totalSize]
    simp only [List.map_cons, List.flatten_cons] at filled
    obtain ⟨here, there⟩ := window_eq_append filled
    obtain ⟨ret, w, write, delivered⟩ := upackItem_spec item here
      (by omega : (item.size : ℤ) ≤ len) bound
    rw [item.length_packed] at there
    obtain ⟨ret', delivered'⟩ := @ih (pos + item.size) (len - item.size) there
      (by omega) (by omega)
    have some' : ¬(item.size : ℤ) ≤ 0 := by
      have positive := item.size_pos
      omega
    have left : int32 (len - item.size) = len - item.size :=
      int32_of_range (by omega) (by omega)
    simp only [format, List.map_cons, ipcUpackVa, buildinType_code, ret, some', if_false,
      left, Int.toNat_natCast, write, Option.toList_some, List.singleton_append, storeAll,
      List.forall₂_cons, List.forall_mem_cons, delivered]
    rw [format] at ret' delivered'
    rw [ret', total, delivered', int32_of_range (by omega) (by omega)]
    exact ⟨by push_cast; rfl, Iff.rfl⟩

/-- The codec gives back a call if and only if the narrow variables were prepared. -/
theorem argsDelivered_iff (items : List Item) {len : ℤ} (fits : totalSize items ≤ len)
    (bound : len < 2 ^ 31) :
    RoundTrips items len ↔ ∀ item ∈ items, item.Prepared := by
  have packed := ipcPackVa_eq items fits bound
  have length := length_flatten_packed items
  constructor
  · rintro ⟨bytes, packed', -, decoded⟩
    obtain ⟨-, rfl⟩ := Prod.mk.inj (Option.some.inj (packed.symm.trans packed'))
    have filled := window_getD (items.map Item.packed).flatten
    obtain ⟨-, delivered⟩ := ipcUpackVa_spec items filled le_rfl (by omega)
    exact delivered.mp (decoded _ filled).2
  · intro prepared
    refine ⟨_, packed, length, ?_⟩
    intro mem filled
    obtain ⟨ret, delivered⟩ := ipcUpackVa_spec items filled (le_refl (totalSize items : ℤ)) (by omega)
    exact ⟨ret, delivered.mpr prepared⟩

/-- An `i8` argument with an output variable of the given content. -/
def byteItem (v : ℤ) (range : -(256 : ℕ) ≤ 2 * v ∧ 2 * v < (256 : ℕ)) (stale : UInt8) : Item where
  type := .i8
  arg := .number v
  var := .number [stale, stale, stale, stale]
  accepts := ⟨by decide, by decide, range⟩
  declares := ⟨by decide, by decide, rfl⟩

/-- A string argument. -/
def textItem (text : Bytes) (plain : IsCString text) : Item where
  type := .str
  arg := .string (some text)
  var := .str none
  accepts := ⟨rfl, fun _ same => Option.some.inj same ▸ plain⟩
  declares := rfl

/-- A negative byte arrives in a variable that was all ones. -/
theorem argsDelivered_iff_sample :
    RoundTrips [byteItem (-1) (by decide) 255, textItem [97, 98] (by decide)] 8192 ↔
      ∀ item ∈ [byteItem (-1) (by decide) 255, textItem [97, 98] (by decide)], item.Prepared :=
  argsDelivered_iff _ (by decide) (by decide)

/-- The same byte arrives as 255 in a variable that was zero. -/
theorem not_roundTrips_stale : ¬RoundTrips [byteItem (-1) (by decide) 0] 8192 := by
  rintro ⟨bytes, packed, -, decoded⟩
  obtain rfl : [255] = bytes := congrArg Prod.snd (Option.some.inj packed)
  obtain ⟨-, delivered⟩ := decoded ([255].getD · 0) (window_getD [255])
  have value : TypeId.i8.value [255, 0, 0, 0] = -1 := (List.forall₂_cons.mp delivered).1
  exact absurd value (by decide)

end AmlCommonlib.SocketIpc
