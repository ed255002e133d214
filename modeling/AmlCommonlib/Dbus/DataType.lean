import AmlCommonlib.Dbus.Message
import AmlCommonlib.Lib.Endian

/-! # The C++ data types of the D-Bus wrapper

Every template instance of `ambus_data_type` is a tree of type constructors. `pack` and `unpack` are
recursive in that tree, and the return value of `unpack` serves both as "an item was read" and as an
error code: each template composes it in its own way.
-/

namespace AmlCommonlib.Dbus

/-- `ambus_simple_type<T, sig, CT>`: a type cast to and from what the message stores, where the cast
loses no value of the type. -/
structure SimpleType where
  code : Char
  Val : Type
  decEq : DecidableEq Val
  zero : Val
  toCT : Val → Bytes
  ofCT : Bytes → Val
  ofCT_toCT : ∀ v, ofCT (toCT v) = v
  exists_ne_zero : ∃ v, v ≠ zero

/-- A number of `width` bytes that is copied as it is. -/
def SimpleType.word (code : Char) (width : ℕ) (positive : 0 < width) : SimpleType where
  code := code
  Val := Fin (256 ^ width)
  decEq := inferInstance
  zero := ⟨0, Nat.pow_pos (by decide)⟩
  toCT v := leBytes width v
  ofCT ct := ⟨ofLe ct % 256 ^ width, Nat.mod_lt _ (Nat.pow_pos (by decide))⟩
  ofCT_toCT v := by
    apply Fin.ext
    change ofLe (leBytes width v) % 256 ^ width = v
    rw [ofLe_leBytes, Nat.mod_mod, Nat.mod_eq_of_lt v.isLt]
  exists_ne_zero := by
    refine ⟨⟨1, Nat.one_lt_pow (by omega) (by decide)⟩, ?_⟩
    intro same
    exact one_ne_zero (congrArg Fin.val same)

def SimpleType.char : SimpleType := .word 'y' 1 (by decide)

def SimpleType.uint8 : SimpleType := .word 'y' 1 (by decide)

def SimpleType.int8 : SimpleType := .word 'y' 1 (by decide)

def SimpleType.int16 : SimpleType := .word 'n' 2 (by decide)

def SimpleType.uint16 : SimpleType := .word 'q' 2 (by decide)

def SimpleType.int32 : SimpleType := .word 'i' 4 (by decide)

def SimpleType.uint32 : SimpleType := .word 'u' 4 (by decide)

def SimpleType.int64 : SimpleType := .word 'x' 8 (by decide)

def SimpleType.uint64 : SimpleType := .word 't' 8 (by decide)

def SimpleType.double : SimpleType := .word 'd' 8 (by decide)

/-- `bool` travels as an `int`. -/
def SimpleType.bool : SimpleType where
  code := 'b'
  Val := Bool
  decEq := inferInstance
  zero := false
  toCT v := leBytes 4 v.toNat
  ofCT ct := ofLe ct ≠ 0
  ofCT_toCT v := by cases v <;> decide
  exists_ne_zero := ⟨true, by decide⟩

mutual

/-- The types with a D-Bus codec. `AMBUS_STRUCT_DEFINE` takes at least one member. -/
inductive Ty : Type 1
  | simple (s : SimpleType)
  | string
  | seq (elem : Ty)
  | map (key value : Ty)
  | struct (first : Ty) (rest : Tys)

/-- Argument and member lists. -/
inductive Tys : Type 1
  | nil
  | cons (first : Ty) (rest : Tys)

end

/-- The entries of a map in the order of its iterator. -/
abbrev Entries (K V : Type) := {entries : List (K × V) // (entries.map Prod.fst).Nodup}

mutual

@[reducible] def Ty.Val : Ty → Type
  | .simple s => s.Val
  | .string => Bytes
  | .seq elem => List elem.Val
  | .map key value => Entries key.Val value.Val
  | .struct first rest => first.Val × rest.Val

@[reducible] def Tys.Val : Tys → Type
  | .nil => Unit
  | .cons first rest => first.Val × rest.Val

end

mutual

def Ty.decEq : (t : Ty) → DecidableEq t.Val
  | .simple s => s.decEq
  | .string => inferInstanceAs (DecidableEq Bytes)
  | .seq elem =>
    have := elem.decEq
    inferInstanceAs (DecidableEq (List elem.Val))
  | .map key value =>
    have := key.decEq
    have := value.decEq
    inferInstanceAs (DecidableEq (Entries key.Val value.Val))
  | .struct first rest =>
    have := first.decEq
    have := rest.decEq
    inferInstanceAs (DecidableEq (first.Val × rest.Val))

def Tys.decEq : (ts : Tys) → DecidableEq ts.Val
  | .nil => inferInstanceAs (DecidableEq Unit)
  | .cons first rest =>
    have := first.decEq
    have := rest.decEq
    inferInstanceAs (DecidableEq (first.Val × rest.Val))

end

instance (t : Ty) : DecidableEq t.Val := t.decEq

instance (ts : Tys) : DecidableEq ts.Val := ts.decEq

mutual

/-- A new object. -/
def Ty.empty : (t : Ty) → t.Val
  | .simple s => s.zero
  | .string => ([] : Bytes)
  | .seq elem => ([] : List elem.Val)
  | .map key value => (⟨[], List.nodup_nil⟩ : Entries key.Val value.Val)
  | .struct first rest => (first.empty, rest.empty)

def Tys.empty : (ts : Tys) → ts.Val
  | .nil => ()
  | .cons first rest => (first.empty, rest.empty)

end

mutual

/-- `ambus_data_type<T>::signature`. -/
def Ty.signature : Ty → Sig
  | .simple s => .basic s.code
  | .string => .basic 's'
  | .seq elem => .array elem.signature
  | .map key value => .array (.entry key.signature value.signature)
  | .struct first rest => .struct (.cons first.signature rest.signature)

def Tys.signature : Tys → Sigs
  | .nil => .nil
  | .cons first rest => .cons first.signature rest.signature

end

/-! ### Maps -/

section Entries

variable {K V : Type} [DecidableEq K]

/-- What `val[k]` refers to, given the value of a new entry. -/
def Entries.at (fresh : V) (k : K) (val : Entries K V) : V :=
  ((val.1.find? (·.1 = k)).map Prod.snd).getD fresh

def assign (k : K) (v : V) : List (K × V) → List (K × V)
  | [] => [(k, v)]
  | (k', v') :: rest => if k' = k then (k', v) :: rest else (k', v') :: assign k v rest

theorem mem_assign {k : K} {v : V} {entries : List (K × V)} {e : K × V}
    (member : e ∈ assign k v entries) : e = (k, v) ∨ e ∈ entries := by
  induction entries with
  | nil => simpa [assign] using member
  | cons head rest ih =>
    obtain ⟨k', v'⟩ := head
    rw [assign] at member
    split_ifs at member with same
    · subst same
      rcases List.mem_cons.mp member with rfl | later
      · exact .inl rfl
      · exact .inr (List.mem_cons_of_mem _ later)
    · rcases List.mem_cons.mp member with rfl | later
      · exact .inr (List.mem_cons_self ..)
      · exact (ih later).imp id (List.mem_cons_of_mem _)

theorem keys_assign (k : K) (v : V) (entries : List (K × V)) :
    (assign k v entries).map Prod.fst =
      if k ∈ entries.map Prod.fst then entries.map Prod.fst else entries.map Prod.fst ++ [k] := by
  induction entries with
  | nil => simp [assign]
  | cons head rest ih =>
    obtain ⟨k', v'⟩ := head
    rw [assign]
    split_ifs with same <;> simp_all [List.mem_cons, eq_comm]

theorem nodup_assign {k : K} {v : V} {entries : List (K × V)}
    (nodup : (entries.map Prod.fst).Nodup) : ((assign k v entries).map Prod.fst).Nodup := by
  rw [keys_assign]
  split_ifs with present
  · exact nodup
  · exact List.Nodup.append nodup (List.nodup_singleton k) (by simpa using present)

theorem assign_of_notMem {k : K} {v : V} {entries : List (K × V)}
    (absent : k ∉ entries.map Prod.fst) : assign k v entries = entries ++ [(k, v)] := by
  induction entries with
  | nil => rfl
  | cons head rest ih =>
    simp only [List.map_cons, List.mem_cons, not_or] at absent
    rw [assign, if_neg (Ne.symm absent.1), ih absent.2, List.cons_append]

/-- `val[k] = v`: a key that is new goes to the end, as the keys of a packed map arrive in the order
of its iterator. -/
def Entries.assign (k : K) (v : V) (val : Entries K V) : Entries K V :=
  ⟨Dbus.assign k v val.1, nodup_assign val.2⟩

theorem Entries.at_of_notMem {k : K} {fresh : V} {val : Entries K V}
    (absent : k ∉ val.1.map Prod.fst) : val.at fresh k = fresh := by
  have none' : val.1.find? (·.1 = k) = none := by
    refine List.find?_eq_none.mpr fun e member same => absent ?_
    exact List.mem_map.mpr ⟨e, member, by simpa using same⟩
  rw [Entries.at, none']
  rfl

theorem Entries.assign_of_notMem {k : K} {v : V} {val : Entries K V}
    (absent : k ∉ val.1.map Prod.fst) : (val.assign k v).1 = val.1 ++ [(k, v)] :=
  Dbus.assign_of_notMem absent

end Entries

/-! ### Packing -/

/-- `for (it = begin; r >= 0 && it != end; ++it) r = pack(it)`. -/
def packEach {α : Type} (pack : α → Writer → ℤ × Writer) : List α → ℤ → Writer → Writer
  | [], _, w => w
  | x :: rest, r, w =>
    if 0 ≤ r then
      let (r, w) := pack x w
      packEach pack rest r w
    else w

mutual

/-- `ambus_data_type<T>::pack`. -/
def Ty.pack : (t : Ty) → t.Val → Writer → ℤ × Writer
  | .simple s, v, w => appendBasic s.code (s.toCT v) w
  | .string, v, w => appendString ⟨v.takeWhile (· != 0), takeWhile_isCString v⟩ w
  | .seq elem, v, w =>
    let (r, w) := openContainer (.array elem.signature) w
    (0, closeContainer (packEach elem.pack v r w))
  | .map key value, v, w =>
    let sig := .entry key.signature value.signature
    let (r, w) := openContainer (.array sig) w
    let packEntry e w :=
      let (r, w) := openContainer sig w
      if 0 ≤ r then
        let (r, w) := key.pack e.1 w
        let (r, w) := if 0 ≤ r then value.pack e.2 w else (r, w)
        (r, closeContainer w)
      else (r, w)
    (0, closeContainer (packEach packEntry v.1 r w))
  | .struct first rest, v, w =>
    let (r, w) := openContainer (.struct (.cons first.signature rest.signature)) w
    let (r, w) :=
      if 0 ≤ r then
        let (ret, w) := first.pack v.1 w
        if 0 ≤ ret then rest.packall (fun _ => true) v.2 w else (ret, w)
      else (r, w)
    (r, closeContainer w)

/-- `ambus_data_pack<Args...>::packall`, where `selected` is the test `is_output == output`. -/
def Tys.packall : (ts : Tys) → (selected : ℕ → Bool) → ts.Val → Writer → ℤ × Writer
  | .nil, _, _, w => (0, w)
  | .cons first rest, selected, v, w =>
    let (ret, w) := if selected 0 then first.pack v.1 w else (0, w)
    if 0 ≤ ret then rest.packall (fun i => selected (i + 1)) v.2 w else (ret, w)

end

/-! ### Unpacking -/

/-- What a call of `unpack` returns and leaves in the object and the message. -/
structure Unpacked (α : Type) where
  ret : ℤ
  val : α
  msg : Reader

/-- `while ((r = unpack(msg, item)) > 0) val.push_back(item)`; one object serves all items. -/
def unpackEach {α : Type} (unpack : Reader → α → Unpacked α) :
    ℕ → Reader → α → List α → List α × Reader
  | 0, m, _, val => (val, m)
  | fuel + 1, m, item, val =>
    let u := unpack m item
    if 0 < u.ret then unpackEach unpack fuel u.msg u.val (val ++ [u.val]) else (val, u.msg)

/-- The loop over the entries of a map. -/
def unpackEntries {K V : Type} [DecidableEq K] (sig : Sig) (newKey : K) (newValue : V)
    (unpackKey : Reader → K → Unpacked K) (unpackValue : Reader → V → Unpacked V) :
    ℕ → Reader → Entries K V → Unpacked (Entries K V)
  | 0, m, val => ⟨0, val, m⟩
  | fuel + 1, m, val =>
    let (r, m) := enterContainer sig m
    if 0 < r then
      let k := unpackKey m newKey
      if 0 < k.ret then
        let u := unpackValue k.msg (val.at newValue k.val)
        unpackEntries sig newKey newValue unpackKey unpackValue fuel (exitContainer u.msg).2
          (val.assign k.val u.val)
      else
        unpackEntries sig newKey newValue unpackKey unpackValue fuel (exitContainer k.msg).2 val
    else ⟨r, val, m⟩

mutual

/-- `ambus_data_type<T>::unpack`. The loops take a node in every turn, so the size of the message
bounds them. -/
def Ty.unpack : (t : Ty) → Reader → t.Val → Unpacked t.Val
  | .simple s, m, val =>
    let (r, ct, m) := readBasic s.code m
    ⟨r, if 0 < r then (ct.map s.ofCT).getD val else val, m⟩
  | .string, m, val =>
    let (r, ptr, m) := readString m
    ⟨r, if 0 ≤ r then (ptr.map Subtype.val).getD val else val, m⟩
  | .seq elem, m, val =>
    let (_, m) := enterContainer (.array elem.signature) m
    let (val, m) := unpackEach elem.unpack (Reader.size m + 1) m elem.empty val
    ⟨0, val, (exitContainer m).2⟩
  | .map key value, m, val =>
    let sig := .entry key.signature value.signature
    let (_, m) := enterContainer (.array sig) m
    let u := unpackEntries sig key.empty value.empty key.unpack value.unpack (Reader.size m + 1) m val
    { u with msg := (exitContainer u.msg).2 }
  | .struct first rest, m, val =>
    let (r, m) := enterContainer (.struct (.cons first.signature rest.signature)) m
    if 0 ≤ r then
      let u := first.unpack m val.1
      let us := if 0 < u.ret then rest.unpackall (fun _ => true) u.msg val.2 else ⟨u.ret, val.2, u.msg⟩
      ⟨us.ret, (u.val, us.val), (exitContainer us.msg).2⟩
    else ⟨r, val, (exitContainer m).2⟩

/-- `ambus_data_pack<Args...>::unpackall`. -/
def Tys.unpackall : (ts : Tys) → (selected : ℕ → Bool) → Reader → ts.Val → Unpacked ts.Val
  | .nil, _, m, vals => ⟨1, vals, m⟩
  | .cons first rest, selected, m, vals =>
    let u := if selected 0 then first.unpack m vals.1 else ⟨1, vals.1, m⟩
    let us :=
      if 0 < u.ret then rest.unpackall (fun i => selected (i + 1)) u.msg vals.2
      else ⟨u.ret, vals.2, u.msg⟩
    ⟨us.ret, (u.val, us.val), us.msg⟩

end

theorem Ty.unpack_struct {first : Ty} {rest : Tys} {m : Reader} {val : (Ty.struct first rest).Val} :
    (Ty.struct first rest).unpack m val =
      let entered := enterContainer (Ty.struct first rest).signature m
      let u :=
        if 0 ≤ entered.1 then (Tys.cons first rest).unpackall (fun _ => true) entered.2 val
        else ⟨entered.1, val, entered.2⟩
      { u with msg := (exitContainer u.msg).2 } := by
  simp only [Ty.unpack, Tys.unpackall, Ty.signature, if_true]
  split_ifs <;> rfl

end AmlCommonlib.Dbus
