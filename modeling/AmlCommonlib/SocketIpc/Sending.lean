import AmlCommonlib.SocketIpc.Calls
import AmlCommonlib.SocketIpc.Hostile

/-! # Sending calls and responses

`ipc_call_va` and `ipc_resp_va` up to the datagram they send. The packer leaves its loop at the
first item that cannot be packed and returns the bytes it has packed so far, so its callers, who ask
for the sign of its result only, never see a failure. A length next to the largest `int` wraps around
in the check, and the block is copied beyond the buffer; then there is no result.
-/

namespace AmlCommonlib.SocketIpc

/-- `SIPC_ERR_UNKNOWN`. -/
def sipcErrUnknown : ℤ := -8

/-- `SIPC_Function`: what a call uses of it. -/
structure SipcFunction where
  name : Bytes
  callId : ℤ
  argfmt : List TypeId
  /-- Absent for an asynchronous function. -/
  retfmt : Option (List TypeId)
deriving DecidableEq, Repr

/-- What the system does around a datagram: `sendto`, `select` and `recvfrom`, with the output
variables of the call. -/
structure SocketEnv where
  sendto : Bytes → ℤ
  select : ℤ
  recvfrom : ℕ → UInt8
  rlen : ℕ
  vars : List Var

/-- `ipc_call_va` on a peer with this `ipc_id`, or on `NULL`: the result, and the datagram that has
been given to `sendto`. -/
def ipcCallVa (env : SocketEnv) (ipc : Option ℤ) (func : SipcFunction) (va : List Arg) :
    Option (ℤ × Option Bytes) :=
  match ipc with
  | none => some (sipcErrParam, none)
  | some ipcId => do
    let (len1, header) ← ipcPackVa sipcMaxMessageSize callArgfmt
      [.number ipcId, .number func.callId, .string (some func.name)]
    if len1 ≤ 0 then return (len1, none)
    let (len2, args) ← ipcPackVa (sipcMaxMessageSize - len1) (func.argfmt.map TypeId.code) va
    if len2 < 0 then return (len2, none)
    let buf := header ++ args
    if env.sendto buf ≠ len1 + len2 then return (sipcErrIo, some buf)
    match func.retfmt with
    | none => return (sipcNoErr, some buf)
    | some retfmt =>
      if 0 < env.select then
        return ((ipcCallEnd env.recvfrom env.rlen retfmt env.vars).1, some buf)
      else if env.select = 0 then return (sipcErrTimeout, some buf)
      else return (sipcErrUnknown, some buf)

/-- `ipc_resp_va`, with the status in front of the output values. -/
def ipcRespVaSend (env : SocketEnv) (fmt : Option (List TypeId)) (status : ℤ) (va : List Arg) :
    Option (ℤ × Option Bytes) := do
  let (len1, header) ← ipcPackVa sipcMaxMessageSize callRetfmt [.number status]
  if len1 ≤ 0 then return (len1, none)
  let (len2, values) ← match fmt with
    | none => some (0, [])
    | some fmt => ipcPackVa (sipcMaxMessageSize - len1) (fmt.map TypeId.code) va
  if len2 < 0 then return (len2, none)
  let buf := header ++ values
  if env.sendto buf ≠ len1 + len2 then return (sipcErrIo, some buf)
  return (sipcNoErr, some buf)

/-! ### What a whole message is -/

/-- The arguments that can be passed for a type: any number, any text, and blocks with any length
that is no more than the memory behind the pointer. -/
def TypeId.Passes (type : TypeId) : Arg → Prop
  | .number _ => type ≠ .str ∧ type ≠ .ptr
  | .string s => type = .str ∧ ∀ text, s = some text → IsCString text
  | .block p len => type = .ptr ∧ -2 ^ 31 ≤ len ∧ len < 2 ^ 31 ∧ len ≤ p.length

/-- The bytes of an argument; a block of a negative length has none. -/
def TypeId.wire (type : TypeId) : Arg → Option Bytes
  | .number v => some (leBytes type.len (toUnsigned type.ctypeSize v)).reverse
  | .string none => some (leBytes 4 0).reverse
  | .string (some s) => some ((leBytes 4 (s.length + 1)).reverse ++ (s ++ [0]))
  | .block p len =>
    if len < 0 then none else some ((leBytes 4 len.toNat).reverse ++ p.take len.toNat)

/-- The bytes of all arguments. -/
def wires : List TypeId → List Arg → Option Bytes
  | type :: types, arg :: args => do
    let bytes ← type.wire arg
    let rest ← wires types args
    return bytes ++ rest
  | _, _ => some []

/-- All arguments can be packed into `len` bytes. -/
def Fits (len : ℕ) (types : List TypeId) (args : List Arg) : Prop :=
  ∃ bytes, wires types args = some bytes ∧ bytes.length ≤ len

/-- A packing that counts as successful has packed every argument. -/
def PackedWhole (types : List TypeId) (args : List Arg) (result : ℤ × Bytes) : Prop :=
  0 ≤ result.1 → wires types args = some result.2

/-- A datagram is sent with every argument, or not at all and with a negative result. -/
def SentWhole (types : List TypeId) (args : List Arg) (result : ℤ × Option Bytes) : Prop :=
  match result.2 with
  | some datagram => wires types args = some datagram
  | none => result.1 < 0

/-! ### Packing -/

variable {type : TypeId} {arg : Arg} {types types' : List TypeId} {args args' : List Arg} {len : ℕ}

theorem wires_append (same : types.length = args.length) :
    wires (types ++ types') (args ++ args') = do
      let first ← wires types args
      let second ← wires types' args'
      return first ++ second := by
  induction types generalizing args with
  | nil =>
    obtain rfl : args = [] := by simpa using same.symm
    simp [wires]
  | cons type types ih =>
    cases args with
    | nil => cases same
    | cons arg args =>
      have tail := ih (Nat.succ.inj same)
      simp only [List.cons_append, wires, tail, Option.bind_eq_bind, Option.bind_assoc,
        Option.pure_def, Option.bind_some, List.append_assoc]

/-- What is packed is never more than the space there is. -/
theorem packItem_le (passes : type.Passes arg) (len : ℕ) {bytes : Bytes}
    (packed : packItem type len arg = some (.ok bytes)) : bytes.length ≤ len := by
  have pointer : ∀ (tlen : ℤ) (ptr : Bytes),
      ipcPackPointer len tlen ptr = some (.ok bytes) → bytes.length ≤ len := by
    intro tlen ptr packed
    rw [ipcPackPointer] at packed
    split_ifs at packed with refused beyond
    · cases packed
    · cases packed
      simp only [List.length_append, List.length_reverse, length_leBytes, List.length_take]
      omega
  cases arg with
  | number v =>
    obtain ⟨notStr, notPtr⟩ := passes
    simp only [packItem, notStr, notPtr, or_self, if_false, ipcPackNumber] at packed
    split_ifs at packed with refused
    · cases packed
    all_goals
      cases packed
      simp only [List.length_reverse, List.length_take, length_leBytes]
      omega
  | string s =>
    obtain ⟨rfl, -⟩ := passes
    cases s with
    | none => exact pointer 0 [] (by simpa only [packItem, if_true] using packed)
    | some s => exact pointer _ (s ++ [0]) (by simpa only [packItem, if_true] using packed)
  | block p plen =>
    obtain ⟨rfl, -⟩ := passes
    exact pointer plen p (by simpa only [packItem, if_true] using packed)

/-- What fits is packed as it is. -/
theorem packItem_of_wire {bytes : Bytes} (passes : type.Passes arg) (whole : type.wire arg = some bytes)
    (fits : bytes.length ≤ len) (short : len < 2 ^ 31) : packItem type len arg = some (.ok bytes) := by
  cases arg with
  | number v =>
    obtain ⟨notStr, notPtr⟩ := passes
    cases whole
    exact packItem_number notStr notPtr (by simpa using fits)
  | string s =>
    obtain ⟨rfl, -⟩ := passes
    cases s with
    | none =>
      cases whole
      exact packItem_none (by simpa using fits) (by omega)
    | some s =>
      cases whole
      have room : s.length + 5 ≤ len := by simpa [Nat.add_comm, Nat.add_left_comm] using fits
      exact packItem_string (by omega) (by omega)
  | block p plen =>
    obtain ⟨rfl, low, high, backed⟩ := passes
    simp only [TypeId.wire] at whole
    split_ifs at whole with negative
    cases whole
    have room : plen.toNat + 4 ≤ len := by
      simp only [List.length_append, List.length_reverse, length_leBytes, List.length_take] at fits
      omega
    exact packItem_block (by omega) (by omega) (by omega)

/-- What fits in front of the last arguments fits by itself and leaves space for them. -/
theorem Fits.split (same : types.length = args.length)
    (fits : Fits len (types ++ types') (args ++ args')) :
    ∃ first, wires types args = some first ∧ first.length ≤ len ∧
      Fits (len - first.length) types' args' := by
  obtain ⟨all, isAll, bound⟩ := fits
  simp only [wires_append same, Option.bind_eq_bind, Option.bind_eq_some_iff, Option.pure_def,
    Option.some.injEq] at isAll
  obtain ⟨first, isFirst, second, isSecond, rfl⟩ := isAll
  rw [List.length_append] at bound
  exact ⟨first, isFirst, by omega, second, isSecond, by omega⟩

theorem Fits.cons (fits : Fits len (type :: types) (arg :: args)) :
    ∃ item, type.wire arg = some item ∧ item.length ≤ len ∧ Fits (len - item.length) types args := by
  have same : [type].length = [arg].length := rfl
  obtain ⟨first, isFirst, bound, rest⟩ := Fits.split same fits
  simp only [wires, Option.bind_eq_bind, Option.bind_some, Option.pure_def, List.append_nil,
    Option.bind_eq_some_iff, Option.some.injEq] at isFirst
  obtain ⟨item, isItem, rfl⟩ := isFirst
  exact ⟨item, isItem, bound, rest⟩

/-- The packer leaves the buffer, with arguments that do not fit, or returns the number of the bytes
it has packed, whatever stopped it. -/
theorem ipcPackVa_spec (passed : List.Forall₂ TypeId.Passes types args) (short : len < 2 ^ 31) :
    (ipcPackVa len (types.map TypeId.code) args = none ∧ ¬Fits len types args) ∨
    ∃ bytes, ipcPackVa len (types.map TypeId.code) args = some ((bytes.length : ℤ), bytes) ∧
      bytes.length ≤ len ∧
      ∀ whole, wires types args = some whole → whole.length ≤ len → bytes = whole := by
  induction passed generalizing len with
  | nil => exact .inr ⟨[], rfl, by simp, by simp [wires]⟩
  | @cons type arg types args passes _ ih =>
    have packs : Fits len (type :: types) (arg :: args) → ∃ item, type.wire arg = some item ∧
        packItem type len arg = some (.ok item) ∧ Fits (len - item.length) types args := by
      intro fits
      obtain ⟨item, isItem, bound, rest⟩ := fits.cons
      exact ⟨item, isItem, packItem_of_wire passes isItem bound short, rest⟩
    rcases packed : packItem type len arg with _ | r | item
    · refine .inl ⟨by simp [ipcPackVa, packed], ?_⟩
      intro fits
      obtain ⟨item, -, packed', -⟩ := packs fits
      cases packed.symm.trans packed'
    · refine .inr ⟨[], by simp [ipcPackVa, packed], by simp, ?_⟩
      intro whole isWhole fits
      obtain ⟨item, -, packed', -⟩ := packs ⟨whole, isWhole, fits⟩
      cases packed.symm.trans packed'
    · have room := packItem_le passes len packed
      have left : ((len - item.length : ℕ) : ℤ) = (len : ℤ) - item.length := by omega
      rcases @ih (len - item.length) (by omega) with ⟨beyond, unfit⟩ | ⟨rest, packedRest, boundRest, wholeRest⟩
      · rw [left] at beyond
        refine .inl ⟨by simp [ipcPackVa, packed, beyond], ?_⟩
        intro fits
        obtain ⟨item', -, packed', fitsRest⟩ := packs fits
        cases packed.symm.trans packed'
        exact unfit fitsRest
      · rw [left] at packedRest
        refine .inr ⟨item ++ rest, ?_, ?_, ?_⟩
        · simp [ipcPackVa, packed, packedRest]
        · rw [List.length_append]
          omega
        · intro whole isWhole fits
          obtain ⟨item', isItem, packed', rest', isRest, fitsRest⟩ := packs ⟨whole, isWhole, fits⟩
          cases packed.symm.trans packed'
          rw [wholeRest rest' isRest fitsRest]
          simpa [wires, isItem, isRest] using isWhole

/-- All arguments have been packed exactly if they fit. -/
theorem wires_eq_iff {bytes : Bytes} (bound : bytes.length ≤ len)
    (whole : ∀ whole, wires types args = some whole → whole.length ≤ len → bytes = whole) :
    wires types args = some bytes ↔ Fits len types args := by
  constructor
  · intro packed
    exact ⟨bytes, packed, bound⟩
  · rintro ⟨all, isAll, fits⟩
    rw [isAll, whole all isAll fits]

/-- A number in front of a format is packed whenever there is space for it. -/
theorem ipcPackVa_number_pos {v : ℤ} {fmt : List ℤ} {ret : ℤ} {bytes : Bytes}
    (number : type.Passes (.number v)) (room : type.len ≤ len) (short : len < 2 ^ 31)
    (packed : ipcPackVa len (type.code :: fmt) (.number v :: args) = some (ret, bytes)) :
    0 < bytes.length := by
  have item := @packItem_of_wire type (.number v) len _ number rfl (by simpa using room) short
  simp only [ipcPackVa, buildinType_code, item, Option.map_eq_some_iff, Prod.mk.injEq,
    Prod.exists] at packed
  obtain ⟨-, more, -, -, rfl⟩ := packed
  have positive := type.len_pos
  simp
  omega

/-- Header and arguments one behind the other are as good as one packing. -/
theorem pack_behind {header : Bytes} (same : types.length = args.length)
    (bound : header.length ≤ len)
    (whole : ∀ whole, wires types args = some whole → whole.length ≤ len → header = whole)
    (passed : List.Forall₂ TypeId.Passes types' args') (short : len < 2 ^ 31) :
    (ipcPackVa ((len : ℤ) - header.length) (types'.map TypeId.code) args' = none ∧
      ¬Fits len (types ++ types') (args ++ args')) ∨
    ∃ bytes, ipcPackVa ((len : ℤ) - header.length) (types'.map TypeId.code) args' =
        some ((bytes.length : ℤ), bytes) ∧ (header ++ bytes).length ≤ len ∧
      ∀ whole, wires (types ++ types') (args ++ args') = some whole → whole.length ≤ len →
        header ++ bytes = whole := by
  have left : ((len - header.length : ℕ) : ℤ) = (len : ℤ) - header.length := by omega
  rcases @ipcPackVa_spec types' args' (len - header.length) passed (by omega) with
    ⟨beyond, unfit⟩ | ⟨bytes, packed, bound', whole'⟩
  · rw [left] at beyond
    refine .inl ⟨beyond, ?_⟩
    intro fits
    obtain ⟨first, isFirst, boundFirst, fitsRest⟩ := fits.split same
    obtain rfl := whole first isFirst boundFirst
    exact unfit fitsRest
  · rw [left] at packed
    refine .inr ⟨bytes, packed, by rw [List.length_append]; omega, ?_⟩
    intro all isAll fits
    obtain ⟨first, isFirst, boundFirst, second, isSecond, fitsSecond⟩ :=
      Fits.split same ⟨all, isAll, fits⟩
    obtain rfl := whole first isFirst boundFirst
    rw [whole' second isSecond fitsSecond]
    simpa [wires_append same, isFirst, isSecond] using isAll

/-! ### Calls and responses -/

/-- The types of the header of a call, and what is in it. -/
def callTypes : List TypeId := [.i32, .i32, .str]

def callArgs (ipcId : ℤ) (func : SipcFunction) : List Arg :=
  [.number ipcId, .number func.callId, .string (some func.name)]

section Outcomes

variable {env : SocketEnv} {ipcId status : ℤ} {func : SipcFunction} {va outs : List Arg}
  {fmt : Option (List TypeId)}

/-- Whatever the arguments are, something is sent, unless the packer leaves the buffer. -/
theorem ipcCallVa_sends (name : IsCString func.name)
    (passed : List.Forall₂ TypeId.Passes func.argfmt va) :
    (ipcCallVa env (some ipcId) func va = none ∧
      ¬Fits sipcMaxMessageSize (callTypes ++ func.argfmt) (callArgs ipcId func ++ va)) ∨
    ∃ r datagram, ipcCallVa env (some ipcId) func va = some (r, some datagram) ∧
      datagram.length ≤ sipcMaxMessageSize ∧
      ∀ whole, wires (callTypes ++ func.argfmt) (callArgs ipcId func ++ va) = some whole →
        whole.length ≤ sipcMaxMessageSize → datagram = whole := by
  have headerPassed : List.Forall₂ TypeId.Passes callTypes (callArgs ipcId func) :=
    .cons (by simp [TypeId.Passes]) <| .cons (by simp [TypeId.Passes]) <|
      .cons (by simpa [TypeId.Passes] using name) .nil
  have headerFmt : callTypes.map TypeId.code = callArgfmt := rfl
  rcases @ipcPackVa_spec _ _ sipcMaxMessageSize headerPassed (by decide) with
    ⟨beyond, unfit⟩ | ⟨header, packed, bound, whole⟩
  · left
    rw [headerFmt, callArgs] at beyond
    refine ⟨by simp [ipcCallVa, beyond], ?_⟩
    intro fits
    obtain ⟨first, isFirst, boundFirst, -⟩ := fits.split rfl
    exact unfit ⟨first, isFirst, boundFirst⟩
  · have positive : 0 < header.length :=
      @ipcPackVa_number_pos .i32 _ sipcMaxMessageSize _ _ _ _ (by simp [TypeId.Passes]) (by decide)
        (by decide) packed
    have someHeader : ¬(header.length : ℤ) ≤ 0 := by omega
    rw [headerFmt, callArgs] at packed
    rcases pack_behind rfl bound whole passed (by decide) with
      ⟨beyond, unfit⟩ | ⟨args, packedArgs, bound', whole'⟩
    · refine .inl ⟨?_, unfit⟩
      simp only [ipcCallVa, packed, beyond, Option.bind_eq_bind, Option.bind_some, someHeader,
        if_false, Option.bind_none]
    · have someArgs : ¬(args.length : ℤ) < 0 := by omega
      have sent : ∃ r, ipcCallVa env (some ipcId) func va = some (r, some (header ++ args)) := by
        simp only [ipcCallVa, packed, packedArgs, Option.bind_eq_bind, Option.bind_some, someHeader,
          someArgs, if_false, Option.pure_def]
        cases func.retfmt with
        | none => split_ifs <;> exact ⟨_, rfl⟩
        | some retfmt => split_ifs <;> exact ⟨_, rfl⟩
      obtain ⟨r, sent⟩ := sent
      exact .inr ⟨r, header ++ args, sent, bound', whole'⟩

/-- The two packings of a response. -/
theorem ipcRespVa_packs (status : ℤ) (passed : List.Forall₂ TypeId.Passes types args) :
    ∃ header, ipcPackVa sipcMaxMessageSize callRetfmt [.number status] =
        some ((header.length : ℤ), header) ∧ 0 < header.length ∧
      ((ipcPackVa ((sipcMaxMessageSize : ℤ) - header.length) (types.map TypeId.code) args = none ∧
        ¬Fits sipcMaxMessageSize (.i32 :: types) (.number status :: args)) ∨
      ∃ values, ipcPackVa ((sipcMaxMessageSize : ℤ) - header.length) (types.map TypeId.code) args =
          some ((values.length : ℤ), values) ∧
        (header ++ values).length ≤ sipcMaxMessageSize ∧
        ∀ whole, wires (.i32 :: types) (.number status :: args) = some whole →
          whole.length ≤ sipcMaxMessageSize → header ++ values = whole) := by
  have headerPassed : List.Forall₂ TypeId.Passes [.i32] [.number status] :=
    .cons (by simp [TypeId.Passes]) .nil
  rcases @ipcPackVa_spec _ _ sipcMaxMessageSize headerPassed (by decide) with
    ⟨-, unfit⟩ | ⟨header, packed, bound, whole⟩
  · exact absurd ⟨_, rfl, by simp [TypeId.len, sipcMaxMessageSize]⟩ unfit
  · have positive : 0 < header.length :=
      @ipcPackVa_number_pos .i32 _ sipcMaxMessageSize _ _ _ _ (by simp [TypeId.Passes]) (by decide)
        (by decide) packed
    exact ⟨header, packed, positive, pack_behind rfl bound whole passed (by decide)⟩

/-- Whatever the output values are, something is sent, unless the packer leaves the buffer. -/
theorem ipcRespVaSend_sends (passed : List.Forall₂ TypeId.Passes (fmt.getD []) outs) :
    (ipcRespVaSend env fmt status outs = none ∧
      ¬Fits sipcMaxMessageSize (.i32 :: fmt.getD []) (.number status :: outs)) ∨
    ∃ r datagram, ipcRespVaSend env fmt status outs = some (r, some datagram) ∧
      datagram.length ≤ sipcMaxMessageSize ∧
      ∀ whole, wires (.i32 :: fmt.getD []) (.number status :: outs) = some whole →
        whole.length ≤ sipcMaxMessageSize → datagram = whole := by
  obtain ⟨header, packed, positive, rest⟩ := ipcRespVa_packs status passed
  have someHeader : ¬(header.length : ℤ) ≤ 0 := by omega
  cases fmt with
  | none =>
    rcases rest with ⟨beyond, -⟩ | ⟨values, packedValues, bound, whole⟩
    · simp [ipcPackVa] at beyond
    · have nothing : values = [] := by
        cases outs <;> simp_all [ipcPackVa]
      subst nothing
      have sent : ∃ r, ipcRespVaSend env none status outs = some (r, some (header ++ [])) := by
        simp only [ipcRespVaSend, packed, Option.bind_eq_bind, Option.bind_some, someHeader,
          if_false, Option.pure_def, lt_irrefl]
        split_ifs <;> exact ⟨_, rfl⟩
      obtain ⟨r, sent⟩ := sent
      exact .inr ⟨r, header ++ [], sent, bound, whole⟩
  | some fmt =>
    rw [Option.getD_some] at rest
    rcases rest with ⟨beyond, unfit⟩ | ⟨values, packedValues, bound, whole⟩
    · refine .inl ⟨?_, unfit⟩
      simp only [ipcRespVaSend, packed, beyond, Option.bind_eq_bind, Option.bind_some, someHeader,
        if_false, Option.bind_none]
    · have someValues : ¬(values.length : ℤ) < 0 := by omega
      have sent : ∃ r, ipcRespVaSend env (some fmt) status outs =
          some (r, some (header ++ values)) := by
        simp only [ipcRespVaSend, packed, packedValues, Option.bind_eq_bind, Option.bind_some,
          someHeader, someValues, if_false, Option.pure_def]
        split_ifs <;> exact ⟨_, rfl⟩
      obtain ⟨r, sent⟩ := sent
      exact .inr ⟨r, header ++ values, sent, bound, whole⟩

/-- Something that fits in the buffer is sent, so it is whole exactly if everything fits. -/
theorem sentWhole_iff {types : List TypeId} {args : List Arg} {r : ℤ} {datagram : Bytes}
    (bound : datagram.length ≤ len)
    (whole : ∀ whole, wires types args = some whole → whole.length ≤ len → datagram = whole) :
    SentWhole types args (r, some datagram) ↔ Fits len types args :=
  wires_eq_iff bound whole

/-- What the packer returns tells that everything was packed, and calls and responses are sent whole
or not at all, exactly if the arguments fit. -/
theorem sent_whole_iff {types : List TypeId} {args : List Arg} {len : ℕ} {ipc : Option ℤ}
    (short : len < 2 ^ 31) (name : IsCString func.name)
    (passed : List.Forall₂ TypeId.Passes types args)
    (passedCall : List.Forall₂ TypeId.Passes func.argfmt va)
    (passedResp : List.Forall₂ TypeId.Passes (fmt.getD []) outs) :
    ((∃ result, ipcPackVa len (types.map TypeId.code) args = some result ∧
        PackedWhole types args result) ↔ Fits len types args) ∧
    ((∃ result, ipcCallVa env ipc func va = some result ∧
        SentWhole (callTypes ++ func.argfmt) (callArgs (ipc.getD 0) func ++ va) result) ↔
      ipc = none ∨ Fits sipcMaxMessageSize (callTypes ++ func.argfmt)
        (callArgs (ipc.getD 0) func ++ va)) ∧
    ((∃ result, ipcRespVaSend env fmt status outs = some result ∧
        SentWhole (.i32 :: fmt.getD []) (.number status :: outs) result) ↔
      Fits sipcMaxMessageSize (.i32 :: fmt.getD []) (.number status :: outs)) := by
  refine ⟨?_, ?_, ?_⟩
  · rcases ipcPackVa_spec passed short with ⟨beyond, unfit⟩ | ⟨bytes, packed, bound, whole⟩
    · simp [beyond, unfit]
    · rw [packed, ← wires_eq_iff bound whole]
      simp [PackedWhole]
  · cases ipc with
    | none => simp [ipcCallVa, SentWhole, sipcErrParam]
    | some ipcId =>
      rcases @ipcCallVa_sends env ipcId func va name passedCall with
        ⟨beyond, unfit⟩ | ⟨r, datagram, sent, bound, whole⟩
      · simp [beyond, unfit]
      · rw [sent, Option.getD_some, ← sentWhole_iff bound whole]
        simp
        rfl
  · rcases @ipcRespVaSend_sends env status outs fmt passedResp with
      ⟨beyond, unfit⟩ | ⟨r, datagram, sent, bound, whole⟩
    · simp [beyond, unfit]
    · rw [sent, ← sentWhole_iff bound whole]
      simp
      rfl

end Outcomes

/-- A peer whose socket takes every datagram, and on which nothing answers. -/
def quietEnv : SocketEnv := ⟨fun buf => buf.length, 0, fun _ => 0, 0, []⟩

/-- `add(3)` with its response, and one number packed by itself. -/
theorem sent_whole_iff_number :
    (∃ result, ipcPackVa 100 ([.i32].map TypeId.code) [.number 7] = some result ∧
      PackedWhole [.i32] [.number 7] result) ∧
    (∃ result, ipcCallVa quietEnv (some 1) ⟨[97, 100, 100], 5, [.i32], none⟩ [.number 3] =
        some result ∧ SentWhole (callTypes ++ [.i32])
          (callArgs 1 ⟨[97, 100, 100], 5, [.i32], none⟩ ++ [.number 3]) result) ∧
    ∃ result, ipcRespVaSend quietEnv (some [.i32]) sipcNoErr [.number 4] = some result ∧
      SentWhole [.i32, .i32] [.number sipcNoErr, .number 4] result := by
  have iffs := @sent_whole_iff quietEnv sipcNoErr ⟨[97, 100, 100], 5, [.i32], none⟩ [.number 3]
    [.number 4] (some [.i32]) [.i32] [.number 7] 100 (some 1) (by decide) (by decide)
    (.cons (by simp [TypeId.Passes]) .nil) (.cons (by simp [TypeId.Passes]) .nil)
    (.cons (by simp [TypeId.Passes]) .nil)
  refine ⟨iffs.1.mpr ⟨_, rfl, by decide⟩, iffs.2.1.mpr (.inr ⟨_, rfl, by decide⟩),
    iffs.2.2.mpr ⟨_, rfl, by decide⟩⟩

/-- A block of a negative length: the call is sent without it. -/
theorem not_sent_whole_negative :
    ¬∀ (func : SipcFunction) (va : List Arg), List.Forall₂ TypeId.Passes func.argfmt va →
      (∃ result, ipcPackVa sipcMaxMessageSize (func.argfmt.map TypeId.code) va = some result ∧
        PackedWhole func.argfmt va result) ∧
      ∃ result, ipcCallVa quietEnv (some 1) func va = some result ∧
        SentWhole (callTypes ++ func.argfmt) (callArgs 1 func ++ va) result := by
  intro holds
  have passed : List.Forall₂ TypeId.Passes [.ptr] [.block [] (-1)] :=
    .cons ⟨rfl, by decide, by decide, by decide⟩ .nil
  obtain ⟨-, result, called, whole⟩ := holds ⟨[97], 5, [.ptr], none⟩ _ passed
  rcases @ipcCallVa_sends quietEnv 1 ⟨[97], 5, [.ptr], none⟩ [.block [] (-1)] (by decide) passed with
    ⟨beyond, -⟩ | ⟨r, datagram, sent, -⟩
  · cases called.symm.trans beyond
  · rw [called] at sent
    cases sent
    cases whole

end AmlCommonlib.SocketIpc
