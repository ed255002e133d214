import AmlCommonlib.Containers.SortedVector
import AmlCommonlib.Lib.Units
import Mathlib.Data.List.Lex
import Mathlib.Data.Prod.Lex

/-! # The permission cache

The verdicts on permissions are kept in a sorted vector by uid and name, beside a pool of the names.
Names are made from C strings: they have no unit that is zero.
-/

namespace AmlCommonlib.Binder

open Containers

/-- The comparison behind the `<` of `String16`. Where one string ends, the other's unit counts. -/
def strzcmp16 : Units → Units → ℤ
  | [], [] => 0
  | [], v :: _ => 0 - v.toNat
  | u :: _, [] => u.toNat - 0
  | u :: s, v :: t => if (u.toNat : ℤ) - v.toNat ≠ 0 then u.toNat - v.toNat else strzcmp16 s t

theorem strzcmp16_neg {s t : Units} (plain : 0 ∉ s) (plain' : 0 ∉ t) :
    strzcmp16 s t < 0 ↔ s.map UInt16.toNat < t.map UInt16.toNat := by
  fun_induction strzcmp16 s t with
  | case1 => simp
  | case2 v t =>
    have unit : v.toNat ≠ 0 := fun zero =>
      plain' (List.mem_cons.2 (.inl (UInt16.toNat_inj.1 zero.symm)))
    simp only [List.map_nil, List.map_cons, List.nil_lt_cons, iff_true]
    omega
  | case3 u s => simp
  | case4 u s v t differ =>
    rw [List.map_cons, List.map_cons, List.cons_lt_cons_iff]
    have apart : u.toNat ≠ v.toNat := fun same => differ (by omega)
    omega
  | case5 u s v t equal ih =>
    have same : u.toNat = v.toNat := by omega
    rw [List.map_cons, List.map_cons, List.cons_lt_cons_iff,
      ih (mt (List.mem_cons_of_mem _) plain) (mt (List.mem_cons_of_mem _) plain')]
    simp [same]

/-- The name of a permission. -/
structure Name where
  units : Units
  plain : 0 ∉ units
  deriving DecidableEq

namespace Name

instance : LT Name := ⟨fun a b => strzcmp16 a.units b.units < 0⟩

instance : DecidableLT Name := fun a b => inferInstanceAs (Decidable (strzcmp16 a.units b.units < 0))

def key (name : Name) : List ℕ := name.units.map UInt16.toNat

theorem lt_iff (a b : Name) : a < b ↔ a.key < b.key := strzcmp16_neg a.plain b.plain

theorem key_injective : Function.Injective key := by
  rintro ⟨s, plain⟩ ⟨t, plain'⟩ equal
  rw [Name.mk.injEq]
  exact List.map_injective_iff.2 (fun u v same => UInt16.toNat_inj.1 same) equal

end Name

structure Entry where
  name : Name
  uid : ℕ
  granted : Bool

namespace Entry

instance : LT Entry := ⟨fun a b => if a.uid = b.uid then a.name < b.name else a.uid < b.uid⟩

instance : DecidableLT Entry := fun a b =>
  inferInstanceAs (Decidable (if a.uid = b.uid then a.name < b.name else a.uid < b.uid))

/-- What an entry is sorted by. -/
def keyOf (permission : Name) (uid : ℕ) : ℕ ×ₗ List ℕ := toLex (uid, permission.key)

def key (e : Entry) : ℕ ×ₗ List ℕ := keyOf e.name e.uid

theorem lt_iff (a b : Entry) : a < b ↔ a.key < b.key := by
  rw [key, key, keyOf, keyOf, Prod.Lex.toLex_lt_toLex]
  change (if a.uid = b.uid then a.name < b.name else a.uid < b.uid) ↔ _
  split_ifs with same
  · simp [same, Name.lt_iff]
  · simp [same]

theorem keyOf_inj {permission permission' : Name} {uid uid' : ℕ} :
    keyOf permission uid = keyOf permission' uid' ↔ permission = permission' ∧ uid = uid' := by
  simp only [keyOf, toLex_inj, Prod.mk.injEq, Name.key_injective.eq_iff]
  exact and_comm

end Entry

structure PermissionCache where
  mPermissionNamesPool : List Name := []
  mCache : List Entry := []

namespace PermissionCache

/-- The cached verdict, if there is one. -/
def check (c : PermissionCache) (permission : Name) (uid : ℕ) : Option (Option Bool) :=
  match indexOf c.mCache ⟨permission, uid, false⟩ with
  | none => none
  | some index => if 0 ≤ index then c.mCache[index.toNat]?.map fun e => some e.granted else some none

/-- The pool's name, or the permission once it is in the pool. The first name of the pool is added
again when it is asked for. -/
def poolName (pool : List Name) (permission : Name) : Option (Name × List Name) :=
  match indexOf pool permission with
  | none => none
  | some index =>
    if 0 < index then pool[index.toNat]?.map fun name => (name, pool)
    else (add pool permission).map fun added => (permission, added.2)

def cache (c : PermissionCache) (permission : Name) (uid : ℕ) (granted : Bool) :
    Option PermissionCache :=
  match poolName c.mPermissionNamesPool permission with
  | none => none
  | some (name, pool) =>
    match indexOf c.mCache ⟨name, uid, granted⟩ with
    | none => none
    | some index =>
      if index < 0 then (add c.mCache ⟨name, uid, granted⟩).map fun added => ⟨pool, added.2⟩
      else some ⟨pool, c.mCache⟩

/-- The answer, and whether the authority was asked for it: `verdict` is what the authority says. -/
def checkPermission (own : ℕ) (c : PermissionCache) (permission : Name) (pid uid : ℕ) (verdict : Bool) :
    Option ((Bool × Bool) × PermissionCache) :=
  if uid = 0 ∨ pid = own then some ((true, false), c)
  else
    match c.check permission uid with
    | none => none
    | some (some granted) => some ((granted, false), c)
    | some none => (c.cache permission uid verdict).map fun c' => ((verdict, true), c')

/-- What the cache says of a permission and a uid. -/
def verdicts (c : PermissionCache) (permission : Name) (uid : ℕ) : Option Bool :=
  (find Entry.key c.mCache (Entry.keyOf permission uid)).map (·.granted)

/-- Both vectors are sorted and every cached name is in the pool. -/
structure Ready (c : PermissionCache) : Prop where
  names : Sorted Name.key c.mPermissionNamesPool
  entries : Sorted Entry.key c.mCache
  pooled : ∀ e ∈ c.mCache, (find Name.key c.mPermissionNamesPool e.name.key).isSome

theorem ready_empty : Ready {} := ⟨.nil, .nil, fun _ member => absurd member List.not_mem_nil⟩

theorem Ready.check {c : PermissionCache} (ready : Ready c) (permission : Name) (uid : ℕ) :
    c.check permission uid = some (c.verdicts permission uid) := by
  unfold PermissionCache.check verdicts
  obtain ⟨missing, index⟩ | ⟨i, e, found, index, at_i⟩ :=
    indexOf_cases Entry.lt_iff ready.entries ⟨permission, uid, false⟩
  · rw [index]
    change _ = some ((find Entry.key c.mCache (Entry.key ⟨permission, uid, false⟩)).map _)
    rw [missing]
    exact if_neg (by decide)
  · rw [index]
    change _ = some ((find Entry.key c.mCache (Entry.key ⟨permission, uid, false⟩)).map _)
    rw [found]
    dsimp only
    rw [if_pos (by omega), Int.toNat_natCast, at_i]
    rfl

/-- The pool has the name afterwards, and loses none. -/
theorem poolName_spec {pool : List Name} (sorted : Sorted Name.key pool) (permission : Name) :
    ∃ pool', poolName pool permission = some (permission, pool') ∧ Sorted Name.key pool' ∧
      (find Name.key pool' permission.key).isSome ∧
      ∀ k, (find Name.key pool k).isSome → (find Name.key pool' k).isSome := by
  have added : ∃ pool', (add pool permission).map (fun added => (permission, added.2)) =
      some (permission, pool') ∧ Sorted Name.key pool' ∧
      (find Name.key pool' permission.key).isSome ∧
      ∀ k, (find Name.key pool k).isSome → (find Name.key pool' k).isSome := by
    refine ⟨_, by rw [add_spec Name.lt_iff sorted]; rfl, sorted_with sorted permission, ?_, fun k => ?_⟩
    · rw [find_with, if_pos rfl]
      rfl
    · rw [find_with]
      split_ifs
      · exact fun _ => rfl
      · exact id
  unfold poolName
  obtain ⟨-, index⟩ | ⟨i, name, found, index, at_i⟩ := indexOf_cases Name.lt_iff sorted permission
  · rw [index]
    exact added
  · rw [index]
    dsimp only
    split_ifs with later
    · obtain rfl : name = permission := Name.key_injective (find_eq_some found).2
      rw [Int.toNat_natCast, at_i]
      exact ⟨pool, rfl, sorted, by rw [found]; rfl, fun _ => id⟩
    · exact added

/-- A verdict is kept from the first time it is cached. -/
theorem Ready.cache {c : PermissionCache} (ready : Ready c) (permission : Name) (uid : ℕ)
    (granted : Bool) : ∃ c', c.cache permission uid granted = some c' ∧ Ready c' ∧
      ∀ other id, c'.verdicts other id = if c.verdicts other id = none ∧ other = permission ∧ id = uid
        then some granted else c.verdicts other id := by
  obtain ⟨pool, named, names, present, kept⟩ := poolName_spec ready.names permission
  unfold PermissionCache.cache
  rw [named]
  dsimp only
  obtain ⟨missing, index⟩ | ⟨i, e, found, index, at_i⟩ :=
    indexOf_cases Entry.lt_iff ready.entries ⟨permission, uid, granted⟩
  · rw [index]
    dsimp only
    rw [if_pos (show nameNotFound < 0 by decide), add_spec Entry.lt_iff ready.entries]
    refine ⟨_, rfl, ⟨names, sorted_with ready.entries _, fun e member => ?_⟩, fun other id => ?_⟩
    · rcases mem_with member with rfl | old
      · exact present
      · exact kept _ (ready.pooled e old)
    · unfold verdicts
      rw [find_with]
      change find Entry.key c.mCache (Entry.keyOf permission uid) = none at missing
      split_ifs with same new new
      · rfl
      · obtain ⟨rfl, rfl⟩ := Entry.keyOf_inj.1 same
        exact absurd ⟨by rw [missing]; rfl, rfl, rfl⟩ new
      · exact absurd (Entry.keyOf_inj.2 new.2) same
      · rfl
  · rw [index]
    dsimp only
    rw [if_neg (by omega)]
    refine ⟨_, rfl, ⟨names, ready.entries, fun e member => kept _ (ready.pooled e member)⟩,
      fun other id => (if_neg ?_).symm⟩
    rintro ⟨new, rfl, rfl⟩
    change Option.map _ (find Entry.key c.mCache (Entry.key ⟨other, id, granted⟩)) = none at new
    rw [found] at new
    cases new

end PermissionCache

/-- A request, with what the authority says of it then. -/
structure Request where
  permission : Name
  pid : ℕ
  uid : ℕ
  verdict : Bool

/-- Root and the own process are not checked. -/
def Request.Privileged (own : ℕ) (r : Request) : Prop := r.uid = 0 ∨ r.pid = own

instance (own : ℕ) (r : Request) : Decidable (r.Privileged own) :=
  inferInstanceAs (Decidable (r.uid = 0 ∨ r.pid = own))

/-- The first request of a permission and a uid that is checked. -/
def firstChecked (own : ℕ) (requests : List Request) (permission : Name) (uid : ℕ) : Option Request :=
  requests.find? fun r => ¬r.Privileged own ∧ r.permission = permission ∧ r.uid = uid

namespace PermissionCache

/-- The cache behind some requests. -/
def serve (own : ℕ) (c : PermissionCache) (requests : List Request) : Option PermissionCache :=
  requests.foldlM (fun c r => (c.checkPermission own r.permission r.pid r.uid r.verdict).map (·.2)) c

/-- One request: what is cached is answered, and what is not is asked for and cached. -/
theorem Ready.checkPermission {c : PermissionCache} (ready : Ready c) (own : ℕ) (r : Request) :
    ∃ c', c.checkPermission own r.permission r.pid r.uid r.verdict =
        some (if r.Privileged own then (true, false)
          else ((c.verdicts r.permission r.uid).getD r.verdict,
            (c.verdicts r.permission r.uid).isNone), c') ∧ Ready c' ∧
      ∀ permission uid, c'.verdicts permission uid = (c.verdicts permission uid).or
        (if ¬r.Privileged own ∧ r.permission = permission ∧ r.uid = uid then some r.verdict
          else none) := by
  unfold PermissionCache.checkPermission
  by_cases privileged : r.Privileged own
  · refine ⟨c, ?_, ready, fun permission uid => ?_⟩
    · rw [if_pos privileged]
      exact if_pos privileged
    · rw [if_neg (fun checked => checked.1 privileged), Option.or_none]
  · simp only [if_neg privileged, if_neg (show ¬(r.uid = 0 ∨ r.pid = own) from privileged),
      ready.check]
    rcases cached : c.verdicts r.permission r.uid with - | granted
    · obtain ⟨c', stored, ready', stored_eq⟩ := ready.cache r.permission r.uid r.verdict
      refine ⟨c', by rw [stored]; rfl, ready', fun permission uid => ?_⟩
      rw [stored_eq]
      split_ifs with new asked asked
      · rw [new.1]
        rfl
      · exact absurd ⟨privileged, new.2.1.symm, new.2.2.symm⟩ asked
      · obtain ⟨-, rfl, rfl⟩ := asked
        exact absurd ⟨cached, rfl, rfl⟩ new
      · rw [Option.or_none]
    · refine ⟨c, rfl, ready, fun permission uid => ?_⟩
      split_ifs with asked
      · obtain ⟨-, rfl, rfl⟩ := asked
        rw [cached, Option.some_or]
      · rw [Option.or_none]

/-- Behind every sequence of requests the cache is ready and has the verdicts of the first ones. -/
theorem serve_spec (own : ℕ) (requests : List Request) :
    ∃ c, serve own {} requests = some c ∧ Ready c ∧ ∀ permission uid,
      c.verdicts permission uid = (firstChecked own requests permission uid).map (·.verdict) := by
  induction requests using List.reverseRecOn with
  | nil => exact ⟨{}, rfl, ready_empty, fun _ _ => rfl⟩
  | append_singleton requests r ih =>
    obtain ⟨c, served, ready, stored_eq⟩ := ih
    obtain ⟨c', answered, ready', stored_eq'⟩ := ready.checkPermission own r
    refine ⟨c', ?_, ready', fun permission uid => ?_⟩
    · unfold serve at served ⊢
      rw [List.foldlM_append, served]
      simp [answered]
    · rw [stored_eq', stored_eq, firstChecked, firstChecked, List.find?_append, Option.map_or]
      congr 1
      split_ifs with asked
      · rw [List.find?_cons_of_pos (by simpa using asked)]
        rfl
      · rw [List.find?_cons_of_neg (by simpa using asked)]
        rfl

end PermissionCache

/-- Whatever was asked before, a request is answered with what the authority said of its permission
and uid the first time they were checked, for whichever process; it asks only that first time. Root and
the own process are always granted. -/
theorem permission_first_verdict (own : ℕ) (before : List Request) (r : Request) :
    ∃ c c', PermissionCache.serve own {} before = some c ∧
      c.checkPermission own r.permission r.pid r.uid r.verdict =
        some (if r.Privileged own then (true, false)
          else match firstChecked own before r.permission r.uid with
            | some first => (first.verdict, false)
            | none => (r.verdict, true), c') := by
  obtain ⟨c, served, ready, stored_eq⟩ := PermissionCache.serve_spec own before
  obtain ⟨c', answered, -, -⟩ := ready.checkPermission own r
  refine ⟨c, c', served, answered.trans ?_⟩
  rw [stored_eq]
  rcases firstChecked own before r.permission r.uid with - | first
  · rfl
  · rfl

end AmlCommonlib.Binder
