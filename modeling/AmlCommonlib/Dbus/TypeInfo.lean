import AmlCommonlib.Dbus.DataType

/-! # The C type descriptions

`ambus_data_type_info` and the functions it points to in `aml-dbus.c`. Descriptions nest as the C++
types do, but `unpack` composes its return value differently, writes into memory that nothing has
initialised, and never looks at what `sd_bus_message_exit_container` returns.
-/

namespace AmlCommonlib.Dbus

mutual

/-- The C object of a description: arrays with a count and chained maps are lists. -/
@[reducible] def Ty.CVal : Ty → Type
  | .simple s => s.Val
  | .string => CStr
  | .seq elem => List elem.CVal
  | .map key value => List (key.CVal × value.CVal)
  | .struct first rest => first.CVal × rest.CVal

@[reducible] def Tys.CVal : Tys → Type
  | .nil => Unit
  | .cons first rest => first.CVal × rest.CVal

end

/-- The fields of an object, or the arguments of a call, of which those that are written so far are
known. -/
@[reducible] def Tys.Written : Tys → Type
  | .nil => Unit
  | .cons first rest => Option first.CVal × rest.Written

def Tys.unwritten : (ts : Tys) → ts.Written
  | .nil => ()
  | .cons _ rest => (none, rest.unwritten)

/-- The object, once all its fields are written. -/
def Tys.complete : (ts : Tys) → ts.Written → Option ts.CVal
  | .nil, _ => some ()
  | .cons _ rest, fields => fields.1.bind fun v => (rest.complete fields.2).map fun vs => (v, vs)

/-! ### Packing -/

/-- The loop of `ambus_data_pack_array`. -/
def dataPackEach {α : Type} (pack : α → Writer → ℤ × Writer) : List α → ℤ → Writer → ℤ × Writer
  | [], r, w => (r, w)
  | x :: rest, r, w =>
    if 0 ≤ r then
      let (r, w) := pack x w
      dataPackEach pack rest r w
    else (r, w)

/-- The loop of `ambus_data_pack_map`. The `break` given to `AMBUS_CHECK` leaves only the loop of the
macro, so an entry is packed to its end, and only the result of its value counts. -/
def dataPackEntries {K V : Type} (sig : Sig) (packKey : K → Writer → ℤ × Writer)
    (packValue : V → Writer → ℤ × Writer) : List (K × V) → ℤ → Writer → ℤ × Writer
  | [], r, w => (r, w)
  | e :: rest, r, w =>
    if 0 ≤ r then
      let (_, w) := openContainer sig w
      let (_, w) := packKey e.1 w
      let (r, w) := packValue e.2 w
      dataPackEntries sig packKey packValue rest r (closeContainer w)
    else (r, w)

mutual

/-- `type->pack(type, m, val)`. -/
def Ty.dataPack : (t : Ty) → t.CVal → Writer → ℤ × Writer
  | .simple s, v, w => appendBasic s.code (s.toCT v) w
  | .string, v, w => appendString v w
  | .seq elem, v, w =>
    let (r, w) := openContainer (.array elem.signature) w
    let (r, w) := dataPackEach elem.dataPack v r w
    (r, closeContainer w)
  | .map key value, v, w =>
    let sig := .entry key.signature value.signature
    let (r, w) := openContainer (.array sig) w
    if r < 0 then (r, w)
    else
      let (r, w) := dataPackEntries sig key.dataPack value.dataPack v r w
      (r, closeContainer w)
  | .struct first rest, v, w =>
    let (r, w) := openContainer (.struct (.cons first.signature rest.signature)) w
    let (r, w) :=
      if 0 ≤ r then
        let (r, w) := first.dataPack v.1 w
        rest.ambusPackAll (fun _ => true) r v.2 w
      else (r, w)
    (r, closeContainer w)

/-- `ambus_pack_all` from one argument on, where `selected` says which arguments are packed, and the
loop over the fields of a struct. -/
def Tys.ambusPackAll : (ts : Tys) → (selected : ℕ → Bool) → ℤ → ts.CVal → Writer → ℤ × Writer
  | .nil, _, r, _, w => (r, w)
  | .cons first rest, selected, r, v, w =>
    if 0 ≤ r then
      let (r, w) := if selected 0 then first.dataPack v.1 w else (r, w)
      rest.ambusPackAll (fun i => selected (i + 1)) r v.2 w
    else (r, w)

end

/-! ### Unpacking -/

/-- `sd_bus_message_exit_container`, as far as it leaves the innermost container that was entered,
whatever is left of it. -/
def leaveContainer : Reader → Reader
  | _ :: outer :: below => outer :: below
  | m => m

/-- The loop of `ambus_data_unpack_array`; the array is written if it ends without an error. -/
def dataUnpackEach {α : Type} (unpack : Reader → Unpacked (Option α)) :
    ℕ → Reader → Unpacked (Option (List α))
  | 0, m => ⟨0, none, m⟩
  | fuel + 1, m =>
    let u := unpack m
    if 0 < u.ret then
      let us := dataUnpackEach unpack fuel u.msg
      ⟨us.ret, (u.val.bind fun x => us.val.map fun xs => x :: xs), us.msg⟩
    else ⟨u.ret, if 0 ≤ u.ret then some [] else none, u.msg⟩

/-- The loop of `ambus_data_unpack_map`: an entry is dropped if its key or its value is not positive,
and either ends the loop. -/
def dataUnpackEntries {K V : Type} (sig : Sig) (unpackKey : Reader → Unpacked (Option K))
    (unpackValue : Reader → Unpacked (Option V)) : ℕ → ℤ → Reader → Unpacked (Option (List (K × V)))
  | 0, _, m => ⟨0, none, m⟩
  | fuel + 1, r, m =>
    if 0 < r then
      let (r, m) := enterContainer sig m
      if 0 < r then
        let k := unpackKey m
        if 0 < k.ret then
          let v := unpackValue k.msg
          let us := dataUnpackEntries sig unpackKey unpackValue fuel v.ret (leaveContainer v.msg)
          if 0 < v.ret then
            let e := k.val.bind fun x => v.val.map fun y => (x, y)
            ⟨us.ret, (e.bind fun e => us.val.map fun es => e :: es), us.msg⟩
          else us
        else dataUnpackEntries sig unpackKey unpackValue fuel k.ret (leaveContainer k.msg)
      else ⟨r, some [], m⟩
    else ⟨r, some [], m⟩

mutual

/-- `type->unpack(type, m, val)`. The loops take a node in every turn, so the size of the message
bounds them. -/
def Ty.dataUnpack : (t : Ty) → Reader → Unpacked (Option t.CVal)
  | .simple s, m =>
    let (r, ct, m) := readBasic s.code m
    ⟨r, ct.map s.ofCT, m⟩
  | .string, m =>
    let (r, s, m) := readString m
    ⟨r, s, m⟩
  | .seq elem, m =>
    let (_, m) := enterContainer (.array elem.signature) m
    let u := dataUnpackEach elem.dataUnpack (Reader.size m + 1) m
    { u with msg := leaveContainer u.msg }
  | .map key value, m =>
    let sig := .entry key.signature value.signature
    let (r, m) := enterContainer (.array sig) m
    dataUnpackEntries sig key.dataUnpack value.dataUnpack (Reader.size m + 1) r m
  | .struct first rest, m =>
    let (r, m) := enterContainer (.struct (.cons first.signature rest.signature)) m
    if 0 ≤ r then
      let u := first.dataUnpack m
      let us := rest.ambusUnpackAll (fun _ => true) u.ret u.msg
      ⟨us.ret, (Tys.cons first rest).complete (u.val, us.val), leaveContainer us.msg⟩
    else ⟨r, none, leaveContainer m⟩

/-- `ambus_unpack_all` from one argument on, where `selected` says which arguments are unpacked, and
the loop over the fields of a struct. -/
def Tys.ambusUnpackAll : (ts : Tys) → (selected : ℕ → Bool) → ℤ → Reader → Unpacked ts.Written
  | .nil, _, r, m => ⟨r, (), m⟩
  | .cons first rest, selected, r, m =>
    if 0 ≤ r then
      let u := if selected 0 then first.dataUnpack m else ⟨r, none, m⟩
      let us := rest.ambusUnpackAll (fun i => selected (i + 1)) u.ret u.msg
      ⟨us.ret, (u.val, us.val), us.msg⟩
    else ⟨r, (none, rest.unwritten), m⟩

end

end AmlCommonlib.Dbus
