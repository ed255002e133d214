import AmlCommonlib.Lib.Endian

/-! # Strings of 16-bit units

UTF-16 strings in memory, two bytes a unit, least significant first.
-/

namespace AmlCommonlib

/-- The units of a string without its terminator. -/
abbrev Units := List UInt16

/-- The memory of the units. -/
def unitBytes (s : Units) : Bytes := s.flatMap fun u => leBytes 2 u.toNat

/-- The units in memory. -/
def ofUnitBytes : Bytes → Units
  | low :: high :: rest => UInt16.ofNat (ofLe [low, high]) :: ofUnitBytes rest
  | _ => []

@[simp] theorem length_unitBytes (s : Units) : (unitBytes s).length = 2 * s.length := by
  induction s with
  | nil => rfl
  | cons u s ih =>
    rw [unitBytes, List.flatMap_cons, List.length_append, length_leBytes, ← unitBytes, ih,
      List.length_cons]
    omega

theorem unitBytes_append (s t : Units) : unitBytes (s ++ t) = unitBytes s ++ unitBytes t :=
  List.flatMap_append

theorem ofUnitBytes_unit (u : UInt16) (rest : Bytes) :
    ofUnitBytes (leBytes 2 u.toNat ++ rest) = u :: ofUnitBytes rest := by
  have word : ofLe (leBytes 2 u.toNat) = u.toNat := ofLe_leBytes_of_lt u.toNat_lt
  change UInt16.ofNat (ofLe (leBytes 2 u.toNat)) :: ofUnitBytes rest = _
  rw [word, UInt16.ofNat_toNat]

@[simp] theorem ofUnitBytes_unitBytes (s : Units) : ofUnitBytes (unitBytes s) = s := by
  induction s with
  | nil => rfl
  | cons u s ih => rw [unitBytes, List.flatMap_cons, ofUnitBytes_unit, ← unitBytes, ih]

end AmlCommonlib
