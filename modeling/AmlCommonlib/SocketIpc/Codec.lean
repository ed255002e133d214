import AmlCommonlib.Lib.Endian

/-! # Packing and unpacking of call arguments

`ipc_pack_va` and `ipc_upack_va` of `aml_socketipc.c` on a little-endian host. The format is a list
of type codes without its terminating 0. The decoder is given the memory behind its buffer pointer,
of which only the first `len` bytes have been received, and reports what it reads and hands out.
-/

namespace AmlCommonlib.SocketIpc

/-- The built-in types. -/
inductive TypeId where
  | i8
  | u8
  | i16
  | u16
  | i32
  | u32
  | i64
  | u64
  | str
  | ptr
deriving DecidableEq, Repr

/-- `SIPC_TYPE_ID`. -/
def TypeId.code : TypeId → ℤ
  | .i8 => 1
  | .u8 => 2
  | .i16 => 3
  | .u16 => 4
  | .i32 => 5
  | .u32 => 6
  | .i64 => 7
  | .u64 => 8
  | .str => 9
  | .ptr => 10

/-- The entry of `g_ipc_buildin_types` a code selects, none for a customer type. -/
def buildinType (ch : ℤ) : Option TypeId :=
  match ch with
  | 1 => some .i8
  | 2 => some .u8
  | 3 => some .i16
  | 4 => some .u16
  | 5 => some .i32
  | 6 => some .u32
  | 7 => some .i64
  | 8 => some .u64
  | 9 => some .str
  | 10 => some .ptr
  | _ => none

@[simp] theorem buildinType_code (t : TypeId) : buildinType t.code = some t := by
  cases t <;> rfl

/-- `type->len`. -/
def TypeId.len : TypeId → ℕ
  | .i8 | .u8 => 1
  | .i16 | .u16 => 2
  | .i32 | .u32 | .str | .ptr => 4
  | .i64 | .u64 => 8

/-- `SIPC_ERR_PARAM`. -/
def sipcErrParam : ℤ := -1

/-! ### Packing -/

/-- An argument as the caller passes it. -/
inductive Arg where
  | number (v : ℤ)
  /-- The text in front of the terminating NUL, or `NULL`. -/
  | string (s : Option Bytes)
  /-- The bytes behind a pointer and the length given with it. -/
  | block (p : Bytes) (len : ℤ)
deriving DecidableEq, Repr

/-- `_ipc_pack_number`. -/
def ipcPackNumber (type : TypeId) (len : ℤ) (v : ℤ) : Except ℤ Bytes :=
  if len < type.len then .error sipcErrParam
  else
    -- `va_arg` reads a `uint32_t` for the narrow types and widens it
    let val64 := if type.len = 8 then toUnsigned 8 v else toUnsigned 4 v
    .ok ((leBytes 8 val64).take type.len).reverse

/-- `_ipc_pack_pointer` of `tlen` bytes at `ptr`, none when `memcpy` leaves the buffer. -/
def ipcPackPointer (len tlen : ℤ) (ptr : Bytes) : Option (Except ℤ Bytes) :=
  if tlen < 0 ∨ len < int32 (tlen + 4) then some (.error sipcErrParam)
  -- the sum in the check has wrapped around
  else if len < tlen + 4 then none
  else some (.ok ((leBytes 4 (toUnsigned 4 tlen)).reverse ++ ptr.take tlen.toNat))

/-- The `pack` function of a type, none when it leaves the buffer or the argument is not of the
type's kind. -/
def packItem (type : TypeId) (len : ℤ) : Arg → Option (Except ℤ Bytes)
  | .number v => if type = .str ∨ type = .ptr then none else some (ipcPackNumber type len v)
  | .string s =>
    if type = .str then
      match s with
      | none => ipcPackPointer len 0 []
      | some s => ipcPackPointer len (int32 (s.length + 1)) (s ++ [0])
    else none
  | .block p plen => if type = .ptr then ipcPackPointer len plen p else none

/-- `ipc_pack_va` into `len` bytes: the sum it returns and what it writes. -/
def ipcPackVa : ℤ → List ℤ → List Arg → Option (ℤ × Bytes)
  | _, [], _ => some (0, [])
  | len, ch :: fmt, args =>
    match buildinType ch with
    | none => some (0, [])
    | some type =>
      match args with
      | [] => none
      | arg :: va =>
        match packItem type len arg with
        | none => none
        | some (.error _) => some (0, [])
        | some (.ok bytes) =>
          (ipcPackVa (len - bytes.length) fmt va).map fun (ret, more) =>
            (bytes.length + ret, bytes ++ more)

/-! ### Unpacking -/

/-- A store through an output pointer; pointers into the buffer are offsets. -/
inductive Write where
  | number (bytes : Bytes)
  | str (p : Option ℕ)
  | ptr (p : Option ℕ) (len : ℤ)
deriving DecidableEq, Repr

/-- What the decoder does with the buffer. -/
inductive Event where
  | read (offset : ℕ)
  | handOut (type : TypeId) (start : ℕ) (len : ℤ)
  | advance (offset : ℕ)
deriving DecidableEq, Repr

/-- The result of an `upack` function. -/
structure ItemResult where
  ret : ℤ
  write : Option Write
  events : List Event

def reads (pos n : ℕ) : List Event := (List.range n).map fun i => .read (pos + i)

/-- `_ipc_upack_number`. -/
def ipcUpackNumber (type : TypeId) (mem : ℕ → UInt8) (pos : ℕ) (len : ℤ) : ItemResult :=
  if len < type.len then ⟨sipcErrParam, none, []⟩
  else ⟨type.len, some (.number (window mem pos type.len).reverse), reads pos type.len⟩

/-- The big-endian length in front of a string or a block. -/
def itemLength (mem : ℕ → UInt8) (pos : ℕ) : ℤ := int32 (ofLe (window mem pos 4).reverse)

/-- `_ipc_upack_pointer`. -/
def ipcUpackPointer (type : TypeId) (mem : ℕ → UInt8) (pos : ℕ) (len : ℤ) : ItemResult :=
  let tlen := itemLength mem pos
  if tlen < 0 ∧ len < tlen + 4 then ⟨sipcErrParam, none, reads pos 4⟩
  else
    let ptr := if tlen ≠ 0 then some (pos + 4) else none
    ⟨int32 (tlen + 4), some (if type = .ptr then .ptr ptr tlen else .str ptr),
      reads pos 4 ++ if tlen ≠ 0 then [.handOut type (pos + 4) tlen] else []⟩

/-- The `upack` function of a type. -/
def upackItem (type : TypeId) : (ℕ → UInt8) → ℕ → ℤ → ItemResult :=
  match type with
  | .str | .ptr => ipcUpackPointer type
  | _ => ipcUpackNumber type

theorem upackItem_number {type : TypeId} (kind : ¬(type = .str ∨ type = .ptr)) :
    upackItem type = ipcUpackNumber type := by
  cases type with
  | str => exact absurd (.inl rfl) kind
  | ptr => exact absurd (.inr rfl) kind
  | _ => rfl

theorem upackItem_pointer {type : TypeId} (kind : type = .str ∨ type = .ptr) :
    upackItem type = ipcUpackPointer type := by
  rcases kind with rfl | rfl <;> rfl

/-- The sum `ipc_upack_va` returns, its stores and what it does with the buffer. -/
structure Upacked where
  ret : ℤ
  writes : List Write
  events : List Event

/-- `ipc_upack_va`. -/
def ipcUpackVa (mem : ℕ → UInt8) : List ℤ → ℕ → ℤ → Upacked
  | [], _, _ => ⟨0, [], []⟩
  | ch :: fmt, pos, len =>
    match buildinType ch with
    | none => ⟨0, [], []⟩
    | some type =>
      let item := upackItem type mem pos len
      if item.ret ≤ 0 then ⟨0, item.write.toList, item.events⟩
      else
        let next := pos + item.ret.toNat
        let rest := ipcUpackVa mem fmt next (int32 (len - item.ret))
        ⟨int32 (item.ret + rest.ret), item.write.toList ++ rest.writes,
          item.events ++ .advance next :: rest.events⟩

/-! ### Variables of the generated stubs -/

/-- The size of the C type a stub declares: `int` for the narrow types. -/
def TypeId.ctypeSize (type : TypeId) : ℕ := if type.len = 8 then 8 else 4

/-- Only `uint32_t` and `uint64_t` are declared unsigned. -/
def TypeId.ctypeSigned : TypeId → Bool
  | .u32 | .u64 => false
  | _ => true

/-- A declared variable: the bytes of a number, or pointers. -/
inductive Var where
  | number (mem : Bytes)
  | str (p : Option ℕ)
  | ptr (p : Option ℕ) (len : ℤ)
deriving DecidableEq, Repr

/-- The value of a number variable of the declared type. -/
def TypeId.value (type : TypeId) (mem : Bytes) : ℤ :=
  if type.ctypeSigned then toSigned type.ctypeSize (ofLe mem) else ofLe mem

/-- A store covers the low bytes of a number and the whole of a pointer. -/
def Var.store : Var → Write → Var
  | .number mem, .number bytes => .number (bytes ++ mem.drop bytes.length)
  | _, .str p => .str p
  | _, .ptr p len => .ptr p len
  | v, .number _ => v

/-- The variables of a stub after a decode that may have stopped early. -/
def storeAll : List Var → List Write → List Var
  | v :: vars, w :: writes => v.store w :: storeAll vars writes
  | vars, _ => vars

end AmlCommonlib.SocketIpc
