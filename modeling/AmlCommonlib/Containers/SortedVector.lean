import Mathlib.Data.List.Basic
import Mathlib.Data.List.Pairwise
import Mathlib.Order.Defs.LinearOrder
import Mathlib.Order.Basic
import Mathlib.Tactic.Linarith
import Mathlib.Tactic.SplitIfs

/-! # Sorted vectors

The sorted vectors of libutils, with an item for every key. The items are ordered by their `<`, and
a key orders them the same way. Every allocation is taken to succeed.
-/

namespace AmlCommonlib.Containers

variable {α κ : Type*}

def nameNotFound : ℤ := -2
def badIndex : ℤ := -75
def badValue : ℤ := -22
def noError : ℤ := 0

section Vector

variable [LT α] [DecidableLT α]

def strictlyOrderType (lhs rhs : α) : ℤ := if lhs < rhs then 1 else 0

def compareType (lhs rhs : α) : ℤ := strictlyOrderType rhs lhs - strictlyOrderType lhs rhs

/-- The search between `l` and `h`: the index or `NAME_NOT_FOUND`, and the order. `none` is a read
outside of the items. -/
def binarySearch (items : List α) (item : α) (l h : ℤ) : Option (ℤ × ℤ) :=
  if l ≤ h then
    match items[(l + (h - l) / 2).toNat]? with
    | none => none
    | some curr =>
      if compareType curr item = 0 then some (l + (h - l) / 2, l + (h - l) / 2)
      else if compareType curr item < 0 then binarySearch items item (l + (h - l) / 2 + 1) h
      else binarySearch items item l (l + (h - l) / 2 - 1)
  else some (nameNotFound, l)
termination_by (h + 1 - l).toNat

def indexOrderOf (items : List α) (item : α) : Option (ℤ × ℤ) :=
  if items = [] then some (nameNotFound, 0) else binarySearch items item 0 (items.length - 1)

def insertAt (items : List α) (item : α) (index : ℕ) : ℤ × List α :=
  if items.length < index then (badIndex, items)
  else (index, items.take index ++ item :: items.drop index)

def replaceAt (items : List α) (item : α) (index : ℕ) : ℤ × List α :=
  if items.length ≤ index then (badIndex, items) else (index, items.set index item)

def insertVectorAt (items vector : List α) (index : ℕ) : ℤ × List α :=
  if items.length < index then (badIndex, items)
  else (index, items.take index ++ (vector ++ items.drop index))

def removeItemsAt (items : List α) (index count : ℕ) : ℤ × List α :=
  if items.length < index + count then (badValue, items)
  else (index, items.take index ++ items.drop (index + count))

def indexOf (items : List α) (item : α) : Option ℤ := (indexOrderOf items item).map (·.1)

def add (items : List α) (item : α) : Option (ℤ × List α) :=
  (indexOrderOf items item).map fun found =>
    if found.1 < 0 then insertAt items item found.2.toNat else replaceAt items item found.1.toNat

def remove (items : List α) (item : α) : Option (ℤ × List α) :=
  (indexOf items item).map fun i =>
    (i, if 0 ≤ i then (removeItemsAt items i.toNat 1).2 else items)

/-- The naive merge, that stops at the first error. -/
def merge (items : List α) : List α → Option (ℤ × List α)
  | [] => some (noError, items)
  | item :: rest =>
    match add items item with
    | none => none
    | some (err, items') => if err < 0 then some (err, items') else merge items' rest

/-- The merge of a sorted vector. The first comparison of an empty vector is with what the start of
its storage still holds, its second one with a null pointer; `none` is a read through one. -/
def mergeSorted (leftover : Option α) (items vector : List α) : Option (ℤ × List α) :=
  match vector with
  | [] => some (noError, items)
  | first :: rest =>
    match items with
    | [] =>
      match leftover with
      | none => none
      | some old =>
        if compareType ((first :: rest).getLast (by simp)) old ≤ 0 then
          some (insertVectorAt [] (first :: rest) 0)
        else none
    | front :: behind =>
      if compareType ((first :: rest).getLast (by simp)) front ≤ 0 then
        some (insertVectorAt (front :: behind) (first :: rest) 0)
      else if 0 ≤ compareType first ((front :: behind).getLast (by simp)) then
        some (insertVectorAt (front :: behind) (first :: rest) (front :: behind).length)
      else merge (front :: behind) (first :: rest)

end Vector

section Sections

variable [LinearOrder κ] (key : α → κ)

/-- The keys ascend, so that no two items have one key. -/
def Sorted (items : List α) : Prop := items.Pairwise (key · < key ·)

instance (items : List α) : Decidable (Sorted key items) :=
  inferInstanceAs (Decidable (items.Pairwise (key · < key ·)))

/-- The items whose keys are smaller than `k`. -/
def below (items : List α) (k : κ) : List α := items.filter (key · < k)

def same (items : List α) (k : κ) : List α := items.filter (key · = k)

def above (items : List α) (k : κ) : List α := items.filter (k < key ·)

/-- The item that has the key. -/
def find (items : List α) (k : κ) : Option α := items.find? (key · = k)

variable {key} {items : List α}

theorem mem_below {x : α} {k : κ} : x ∈ below key items k ↔ x ∈ items ∧ key x < k := by
  simp [below]

theorem mem_same {x : α} {k : κ} : x ∈ same key items k ↔ x ∈ items ∧ key x = k := by
  simp [same]

theorem mem_above {x : α} {k : κ} : x ∈ above key items k ↔ x ∈ items ∧ k < key x := by
  simp [above]

theorem sections_eq (sorted : Sorted key items) (k : κ) :
    below key items k ++ (same key items k ++ above key items k) = items := by
  induction items with
  | nil => rfl
  | cons x rest ih =>
    obtain ⟨larger, tail⟩ := List.pairwise_cons.1 sorted
    -- Behind an item whose key is not smaller than `k` every key is larger than `k`.
    have past : k ≤ key x → below key rest k = [] ∧ same key rest k = [] ∧ above key rest k = rest := by
      intro reached
      have each : ∀ y ∈ rest, k < key y := fun y listed => reached.trans_lt (larger y listed)
      refine ⟨List.filter_eq_nil_iff.2 ?_, List.filter_eq_nil_iff.2 ?_, List.filter_eq_self.2 ?_⟩
      · intro y listed
        simpa using (each y listed).le
      · intro y listed
        simpa using (each y listed).ne'
      · intro y listed
        simpa using each y listed
    rcases lt_trichotomy (key x) k with smaller | equal | larger
    · have rest_eq := ih tail
      simp only [below, same, above] at rest_eq ⊢
      simp only [List.filter_cons, smaller, smaller.ne, smaller.not_gt, decide_true, decide_false,
        if_true, Bool.false_eq_true, if_false, List.cons_append, rest_eq]
    · obtain ⟨none_below, none_same, all_above⟩ := past equal.ge
      simp only [below, same, above] at none_below none_same all_above ⊢
      simp only [List.filter_cons, equal, lt_irrefl, decide_true, decide_false, if_true,
        Bool.false_eq_true, if_false, none_below, none_same, all_above, List.nil_append,
        List.cons_append]
    · obtain ⟨none_below, none_same, all_above⟩ := past larger.le
      simp only [below, same, above] at none_below none_same all_above ⊢
      simp only [List.filter_cons, larger, larger.ne', larger.not_gt, decide_true, decide_false,
        if_true, Bool.false_eq_true, if_false, none_below, none_same, all_above, List.nil_append]

theorem length_same_le (sorted : Sorted key items) (k : κ) : (same key items k).length ≤ 1 := by
  have distinct : (same key items k).Pairwise (key · < key ·) := sorted.filter _
  rcases found : same key items k with - | ⟨x, - | ⟨y, rest⟩⟩
  · simp
  · simp
  · have first : key x = k := (mem_same.1 (found ▸ List.mem_cons_self)).2
    have second : key y = k :=
      (mem_same.1 (found ▸ List.mem_cons_of_mem _ List.mem_cons_self)).2
    rw [found] at distinct
    have apart := (List.pairwise_cons.1 distinct).1 y List.mem_cons_self
    exact absurd (first.trans second.symm) apart.ne

/-- Where an item stands among the sections tells how its key compares. -/
theorem position (sorted : Sorted key items) (k : κ) {i : ℕ} {x : α} (at_i : items[i]? = some x) :
    (key x < k ↔ i < (below key items k).length) ∧
      (k < key x ↔ (below key items k).length + (same key items k).length ≤ i) := by
  rw [← sections_eq sorted k, List.getElem?_append, List.getElem?_append] at at_i
  split_ifs at at_i with first second
  · have smaller := (mem_below.1 (List.mem_of_getElem? at_i)).2
    exact ⟨⟨fun _ => first, fun _ => smaller⟩, ⟨fun larger => absurd larger smaller.not_gt, by omega⟩⟩
  · have equal := (mem_same.1 (List.mem_of_getElem? at_i)).2
    exact ⟨⟨fun smaller => absurd equal smaller.ne, by omega⟩,
      ⟨fun larger => absurd equal larger.ne', by omega⟩⟩
  · have larger := (mem_above.1 (List.mem_of_getElem? at_i)).2
    exact ⟨⟨fun smaller => absurd smaller larger.not_gt, by omega⟩, ⟨by omega, fun _ => larger⟩⟩

theorem length_sections (sorted : Sorted key items) (k : κ) :
    (below key items k).length + (same key items k).length + (above key items k).length =
      items.length := by
  have lengths := congrArg List.length (sections_eq sorted k)
  rw [List.length_append, List.length_append] at lengths
  omega

theorem take_below (sorted : Sorted key items) (k : κ) :
    items.take (below key items k).length = below key items k := by
  calc
    items.take (below key items k).length =
        (below key items k ++ (same key items k ++ above key items k)).take
          (below key items k).length := by rw [sections_eq sorted]
    _ = below key items k := List.take_left

theorem drop_below (sorted : Sorted key items) (k : κ) :
    items.drop (below key items k).length = same key items k ++ above key items k := by
  calc
    items.drop (below key items k).length =
        (below key items k ++ (same key items k ++ above key items k)).drop
          (below key items k).length := by rw [sections_eq sorted]
    _ = same key items k ++ above key items k := List.drop_left

theorem find_same (k : κ) : find key items k = (same key items k).head? := by
  rw [find, same, List.head?_filter]

theorem find_reverse (sorted : Sorted key items) (k : κ) :
    find key items.reverse k = find key items k := by
  have single := length_same_le sorted k
  rw [find_same, find_same, same, List.filter_reverse, ← same]
  revert single
  rcases same key items k with - | ⟨x, - | ⟨y, rest⟩⟩
  · exact fun _ => rfl
  · exact fun _ => rfl
  · exact fun single => absurd single (by simp)

theorem key_le_getLast (sorted : Sorted key items) {x back : α} (member : x ∈ items)
    (last : items.getLast? = some back) : key x ≤ key back := by
  obtain ⟨front, rfl⟩ := List.getLast?_eq_some_iff.1 last
  rcases List.mem_append.1 member with earlier | here
  · exact ((List.pairwise_append.1 sorted).2.2 x earlier back List.mem_cons_self).le
  · rw [List.mem_singleton.1 here]

theorem mem_with {item x : α}
    (member : x ∈ below key items (key item) ++ item :: above key items (key item)) :
    x = item ∨ x ∈ items := by
  rcases List.mem_append.1 member with low | rest
  · exact .inr (mem_below.1 low).1
  · exact (List.mem_cons.1 rest).imp_right fun high => (mem_above.1 high).1

/-- Two sorted vectors are sorted one behind the other if the keys ascend where they meet. -/
theorem sorted_append_iff {behind : List α} (sorted : Sorted key items)
    (sorted_behind : Sorted key behind) {back front : α} (last : items.getLast? = some back)
    (first : behind.head? = some front) : Sorted key (items ++ behind) ↔ key back < key front := by
  refine List.pairwise_append.trans ⟨fun all => ?_, fun meet => ⟨sorted, sorted_behind, ?_⟩⟩
  · exact all.2.2 back (List.mem_of_getLast? last) front (List.mem_of_head? first)
  · intro x member y rest
    have up := (key_le_getLast sorted member last).trans_lt meet
    obtain ⟨tail, rfl⟩ := List.head?_eq_some_iff.1 first
    rcases List.mem_cons.1 rest with rfl | later
    · exact up
    · exact up.trans ((List.pairwise_cons.1 sorted_behind).1 y later)

theorem find_append (items behind : List α) (k : κ) :
    find key (items ++ behind) k = (find key items k).or (find key behind k) := List.find?_append

theorem find_cons (item : α) (items : List α) (k : κ) :
    find key (item :: items) k = if key item = k then some item else find key items k := by
  unfold find
  split_ifs with equal
  · exact List.find?_cons_of_pos (by simpa using equal)
  · exact List.find?_cons_of_neg (by simpa using equal)

theorem find_eq_some {k : κ} {x : α} (found : find key items k = some x) : x ∈ items ∧ key x = k := by
  unfold find at found
  exact ⟨List.mem_of_find?_eq_some found, by simpa using List.find?_some found⟩

theorem find_of_mem (sorted : Sorted key items) {x : α} (member : x ∈ items) :
    find key items (key x) = some x := by
  have single := length_same_le sorted (key x)
  have here : x ∈ same key items (key x) := mem_same.2 ⟨member, rfl⟩
  rw [find_same]
  revert single here
  rcases same key items (key x) with - | ⟨y, - | ⟨z, rest⟩⟩
  · exact fun _ here => absurd here List.not_mem_nil
  · exact fun _ here => congrArg some (List.mem_singleton.1 here).symm
  · exact fun single _ => absurd single (by simp)

theorem find_append_comm {behind : List α} (sorted : Sorted key (items ++ behind)) (k : κ) :
    find key (items ++ behind) k = (find key behind k).or (find key items k) := by
  rw [find_append]
  rcases here : find key items k with - | x
  · rw [Option.none_or, Option.or_none]
  rcases there : find key behind k with - | y
  · rw [Option.none_or, Option.or_none]
  obtain ⟨⟨member, rfl⟩, rest, equal⟩ := And.intro (find_eq_some here) (find_eq_some there)
  exact absurd equal.symm ((List.pairwise_append.1 sorted).2.2 x member y rest).ne

theorem sorted_without (sorted : Sorted key items) (k : κ) :
    Sorted key (below key items k ++ above key items k) := by
  refine List.pairwise_append.2 ⟨sorted.filter _, sorted.filter _, ?_⟩
  intro x low y high
  exact (mem_below.1 low).2.trans (mem_above.1 high).2

theorem sorted_with (sorted : Sorted key items) (item : α) :
    Sorted key (below key items (key item) ++ item :: above key items (key item)) := by
  refine List.pairwise_append.2 ⟨sorted.filter _, List.pairwise_cons.2 ⟨?_, sorted.filter _⟩, ?_⟩
  · intro y high
    exact (mem_above.1 high).2
  · intro x low y rest
    rcases List.mem_cons.1 rest with rfl | high
    · exact (mem_below.1 low).2
    · exact (mem_below.1 low).2.trans (mem_above.1 high).2

/-- A section is the items whose keys pass a test. -/
theorem find_filter (test : κ → Prop) [DecidablePred test] (k : κ) :
    find key (items.filter fun x => test (key x)) k = if test k then find key items k else none := by
  unfold find
  rw [List.find?_filter]
  split_ifs with passes
  · refine congrArg (fun wanted => items.find? wanted) (funext fun x => ?_)
    rcases eq_or_ne (key x) k with rfl | other
    · simp [passes]
    · simp [other]
  · refine List.find?_eq_none.2 fun x _ => ?_
    rcases eq_or_ne (key x) k with rfl | other
    · simp [passes]
    · simp [other]

theorem find_below (k k' : κ) :
    find key (below key items k) k' = if k' < k then find key items k' else none :=
  find_filter (· < k) k'

theorem find_above (k k' : κ) :
    find key (above key items k) k' = if k < k' then find key items k' else none :=
  find_filter (k < ·) k'

theorem find_without (k k' : κ) :
    find key (below key items k ++ above key items k) k' =
      if k' = k then none else find key items k' := by
  rw [find_append, find_below, find_above]
  rcases lt_trichotomy k' k with smaller | rfl | larger
  · rw [if_pos smaller, if_neg smaller.not_gt, if_neg smaller.ne, Option.or_none]
  · rw [if_neg (lt_irrefl k'), if_pos rfl, Option.or_none]
  · rw [if_neg larger.not_gt, if_pos larger, if_neg larger.ne', Option.none_or]

theorem find_with (item : α) (k : κ) :
    find key (below key items (key item) ++ item :: above key items (key item)) k =
      if k = key item then some item else find key items k := by
  rw [find_append, find_cons, find_below, find_above]
  rcases lt_trichotomy k (key item) with smaller | rfl | larger
  · rw [if_pos smaller, if_neg smaller.ne', if_neg smaller.not_gt, if_neg smaller.ne, Option.or_none]
  · rw [if_neg (lt_irrefl _), if_pos rfl, if_pos rfl, Option.none_or]
  · rw [if_neg larger.not_gt, if_neg larger.ne, if_pos larger, if_neg larger.ne', Option.none_or]

end Sections

section Operations

variable [LT α] [DecidableLT α] [LinearOrder κ] {key : α → κ} (order : ∀ a b : α, a < b ↔ key a < key b)
  {items : List α}

include order

theorem compareType_eq_zero {a b : α} : compareType a b = 0 ↔ key a = key b := by
  unfold compareType strictlyOrderType
  simp only [order]
  rcases lt_trichotomy (key a) (key b) with smaller | equal | larger
  · simp [smaller, smaller.not_gt, smaller.ne]
  · simp [equal]
  · simp [larger, larger.not_gt, larger.ne']

theorem compareType_neg {a b : α} : compareType a b < 0 ↔ key a < key b := by
  unfold compareType strictlyOrderType
  simp only [order]
  rcases lt_trichotomy (key a) (key b) with smaller | equal | larger
  · simp [smaller, smaller.not_gt]
  · simp [equal]
  · simp [larger, larger.not_gt]

theorem compareType_le_zero {a b : α} : compareType a b ≤ 0 ↔ key a ≤ key b := by
  rw [le_iff_lt_or_eq, le_iff_lt_or_eq, compareType_neg order, compareType_eq_zero order]

theorem zero_le_compareType {a b : α} : 0 ≤ compareType a b ↔ key b ≤ key a := by
  rw [← not_lt, compareType_neg order, not_lt]

/-- The loop narrows the range, and what it has left holds the item's order and the item's index. -/
theorem binarySearch_spec (sorted : Sorted key items) (item : α) (l h : ℤ) (from_start : 0 ≤ l)
    (to_end : h < items.length) (low : l ≤ (below key items (key item)).length)
    (high : (below key items (key item)).length + (same key items (key item)).length ≤ h + 1) :
    binarySearch items item l h =
      some (if same key items (key item) = [] then nameNotFound
        else ((below key items (key item)).length : ℤ), ((below key items (key item)).length : ℤ)) := by
  have single := length_same_le sorted (key item)
  fun_induction binarySearch items item l h with
  | case1 l h range outside =>
    rw [List.getElem?_eq_none_iff] at outside
    omega
  | case2 l h range curr at_mid equal =>
    obtain ⟨before, behind⟩ := position sorted (key item) at_mid
    rw [compareType_eq_zero order] at equal
    have not_before := mt before.2 (by simp [equal])
    have not_behind := mt behind.2 (by simp [equal])
    have found : same key items (key item) ≠ [] := List.ne_nil_of_length_pos (by omega)
    rw [if_neg found, Option.some_inj, Prod.mk.injEq]
    omega
  | case3 l h range curr at_mid unequal smaller ih =>
    have before := (position sorted (key item) at_mid).1.1 ((compareType_neg order).1 smaller)
    exact ih (by omega) to_end (by omega) high
  | case4 l h range curr at_mid unequal larger ih =>
    rw [compareType_eq_zero order] at unequal
    rw [compareType_neg order] at larger
    have behind := (position sorted (key item) at_mid).2.1
      (lt_of_le_of_ne (not_lt.1 larger) (Ne.symm unequal))
    exact ih from_start (by omega) low (by omega)
  | case5 l h range =>
    have missing : same key items (key item) = [] := List.eq_nil_of_length_eq_zero (by omega)
    rw [if_pos missing, Option.some_inj, Prod.mk.injEq]
    omega

/-- The index of the item with the key, if there is one, and the number of smaller keys. -/
theorem indexOrderOf_spec (sorted : Sorted key items) (item : α) :
    indexOrderOf items item =
      some (if same key items (key item) = [] then nameNotFound
        else ((below key items (key item)).length : ℤ), ((below key items (key item)).length : ℤ)) := by
  rcases items with - | ⟨x, rest⟩
  · rfl
  · have lengths := length_sections sorted (key item)
    rw [indexOrderOf, if_neg (List.cons_ne_nil x rest)]
    exact binarySearch_spec order sorted item 0 _ le_rfl (by omega) (by omega) (by omega)

theorem indexOf_spec (sorted : Sorted key items) (item : α) :
    indexOf items item = some (if same key items (key item) = [] then nameNotFound
      else ((below key items (key item)).length : ℤ)) := by
  rw [indexOf, indexOrderOf_spec order sorted]
  rfl

/-- `indexOf` gives the index of the item that has the key. -/
theorem indexOf_cases (sorted : Sorted key items) (item : α) :
    (find key items (key item) = none ∧ indexOf items item = some nameNotFound) ∨
      ∃ (i : ℕ) (x : α), find key items (key item) = some x ∧ indexOf items item = some (i : ℤ) ∧
        items[i]? = some x := by
  rw [indexOf_spec order sorted, find_same]
  rcases found : same key items (key item) with - | ⟨x, rest⟩
  · exact .inl ⟨rfl, rfl⟩
  · refine .inr ⟨_, x, rfl, congrArg some (if_neg (List.cons_ne_nil x rest)), ?_⟩
    have behind := drop_below sorted (key item)
    rw [found, List.cons_append] at behind
    rw [← Nat.add_zero (below key items (key item)).length, ← List.getElem?_drop, behind]
    rfl

/-- `add` puts the item between the smaller keys and the larger ones, in the place of the item that had
its key. -/
theorem add_spec (sorted : Sorted key items) (item : α) :
    add items item = some (((below key items (key item)).length : ℤ),
      below key items (key item) ++ item :: above key items (key item)) := by
  have lengths := length_sections sorted (key item)
  have single := length_same_le sorted (key item)
  rw [add, indexOrderOf_spec order sorted, Option.map_some]
  rcases found : same key items (key item) with - | ⟨old, rest⟩
  · have rest_eq := drop_below sorted (key item)
    rw [found] at rest_eq
    rw [if_pos rfl, if_pos (show nameNotFound < 0 by decide), insertAt, Int.toNat_natCast,
      if_neg (by omega), take_below sorted, rest_eq, List.nil_append]
  · have alone : rest = [] := by
      rw [found, List.length_cons] at single
      exact List.eq_nil_of_length_eq_zero (by omega)
    subst alone
    have split := sections_eq sorted (key item)
    rw [found] at split lengths
    simp only [List.length_cons, List.length_nil] at lengths
    rw [if_neg (List.cons_ne_nil _ _), if_neg (by omega), replaceAt, Int.toNat_natCast,
      if_neg (by omega)]
    have replaced : items.set (below key items (key item)).length item =
        below key items (key item) ++ item :: above key items (key item) := by
      calc
        items.set (below key items (key item)).length item =
            (below key items (key item) ++ ([old] ++ above key items (key item))).set
              (below key items (key item)).length item := by rw [split]
        _ = below key items (key item) ++ item :: above key items (key item) := by
          rw [List.set_append_right _ _ le_rfl, Nat.sub_self]
          rfl
    rw [replaced]

theorem remove_spec (sorted : Sorted key items) (item : α) :
    remove items item = some (if same key items (key item) = [] then nameNotFound
        else ((below key items (key item)).length : ℤ),
      below key items (key item) ++ above key items (key item)) := by
  have lengths := length_sections sorted (key item)
  have single := length_same_le sorted (key item)
  rw [remove, indexOf_spec order sorted, Option.map_some]
  rcases found : same key items (key item) with - | ⟨old, rest⟩
  · have split := sections_eq sorted (key item)
    rw [found, List.nil_append] at split
    rw [if_pos rfl, if_neg (show ¬0 ≤ nameNotFound by decide), split]
  · have rest_eq := drop_below sorted (key item)
    have alone : rest = [] := by
      rw [found, List.length_cons] at single
      exact List.eq_nil_of_length_eq_zero (by omega)
    subst alone
    rw [found] at rest_eq lengths
    simp only [List.length_cons, List.length_nil] at lengths
    rw [if_neg (List.cons_ne_nil _ _), if_pos (by omega), removeItemsAt, Int.toNat_natCast,
      if_neg (by omega), take_below sorted, ← List.drop_drop, rest_eq]
    rfl

/-- The merge stays sorted, and of the items with one key the last one that is merged is kept. -/
theorem merge_spec (sorted : Sorted key items) (vector : List α) :
    ∃ out, merge items vector = some (noError, out) ∧ Sorted key out ∧
      ∀ k, find key out k = (find key vector.reverse k).or (find key items k) := by
  induction vector generalizing items with
  | nil => exact ⟨items, rfl, sorted, fun k => rfl⟩
  | cons item rest ih =>
    obtain ⟨out, merged, ordered, found⟩ := ih (sorted_with sorted item)
    refine ⟨out, ?_, ordered, fun k => ?_⟩
    · rw [merge, add_spec order sorted]
      exact (if_neg (by omega)).trans merged
    · rw [found, find_with, List.reverse_cons, find_append, find_cons, Option.or_assoc]
      rcases eq_or_ne (key item) k with rfl | other
      · rw [if_pos rfl, if_pos rfl, Option.some_or]
      · rw [if_neg other, if_neg other.symm]
        rfl

theorem mergeSorted_cons {first front last back : α} {rest behind : List α}
    (last_eq : (first :: rest).getLast? = some last)
    (back_eq : (front :: behind).getLast? = some back) (leftover : Option α) :
    mergeSorted leftover (front :: behind) (first :: rest) =
      if key last ≤ key front then some (0, first :: rest ++ front :: behind)
      else if key back ≤ key first then
        some (((front :: behind).length : ℤ), front :: behind ++ first :: rest)
      else merge (front :: behind) (first :: rest) := by
  rw [List.getLast?_eq_some_getLast (List.cons_ne_nil _ _), Option.some_inj] at last_eq back_eq
  simp only [mergeSorted, last_eq, back_eq, compareType_le_zero order, zero_le_compareType order,
    insertVectorAt, Nat.not_lt_zero, lt_irrefl, if_false, List.take_zero, List.drop_zero,
    List.take_length, List.drop_length, List.nil_append, List.append_nil, Nat.cast_zero]

/-- An empty vector takes over the other one if its storage still holds a key that is not smaller. -/
theorem mergeSorted_nil {first last : α} {rest : List α}
    (last_eq : (first :: rest).getLast? = some last) (leftover : Option α) :
    mergeSorted leftover [] (first :: rest) =
      if ∃ old ∈ leftover, key last ≤ key old then some (0, first :: rest) else none := by
  rw [List.getLast?_eq_some_getLast (List.cons_ne_nil _ _), Option.some_inj] at last_eq
  cases leftover with
  | none => simp [mergeSorted]
  | some old =>
    simp only [mergeSorted, last_eq, compareType_le_zero order, insertVectorAt, List.length_nil,
      lt_irrefl, if_false, List.take_nil, List.drop_nil, List.append_nil, List.nil_append,
      Nat.cast_zero, Option.mem_def, Option.some_inj, exists_eq_left']

/-- Two sorted vectors are merged right unless the larger keys start with the key that the smaller
keys end with, in either order: then both items stay. A vector is merged into an empty one only if the
storage of that still holds a key that is not smaller. -/
theorem mergeSorted_iff {vector : List α} (leftover : Option α) (sorted : Sorted key items)
    (sorted_vector : Sorted key vector) :
    (∃ err out, mergeSorted leftover items vector = some (err, out) ∧ Sorted key out ∧
        ∀ k, find key out k = (find key vector k).or (find key items k)) ↔
      vector = [] ∨
        (items ≠ [] ∧ vector.getLast?.map key ≠ items.head?.map key ∧
          vector.head?.map key ≠ items.getLast?.map key) ∨
        (items = [] ∧ ∃ old ∈ leftover, ∃ last ∈ vector.getLast?, key last ≤ key old) := by
  rcases vector with - | ⟨first, rest⟩
  · exact ⟨fun _ => .inl rfl, fun _ => ⟨noError, items, rfl, sorted, fun k => rfl⟩⟩
  rcases items with - | ⟨front, behind⟩
  · obtain ⟨last, last_eq⟩ : ∃ last, (first :: rest).getLast? = some last :=
      ⟨_, List.getLast?_eq_some_getLast (List.cons_ne_nil _ _)⟩
    rw [mergeSorted_nil order last_eq, last_eq]
    simp only [reduceCtorEq, ne_eq, not_true_eq_false, false_and, true_and, false_or,
      Option.mem_def, Option.some_inj, exists_eq_left']
    split_ifs with taken
    · refine iff_of_true ⟨0, _, rfl, sorted_vector, fun k => ?_⟩ taken
      exact (Option.or_none ..).symm
    · exact iff_of_false (by rintro ⟨err, out, merged, -⟩; cases merged) taken
  obtain ⟨last, last_eq⟩ : ∃ last, (first :: rest).getLast? = some last :=
    ⟨_, List.getLast?_eq_some_getLast (List.cons_ne_nil _ _)⟩
  obtain ⟨back, back_eq⟩ : ∃ back, (front :: behind).getLast? = some back :=
    ⟨_, List.getLast?_eq_some_getLast (List.cons_ne_nil _ _)⟩
  have first_le := key_le_getLast sorted_vector List.mem_cons_self last_eq
  have front_le := key_le_getLast sorted List.mem_cons_self back_eq
  have before := sorted_append_iff sorted_vector sorted last_eq
    (List.head?_cons : (front :: behind).head? = _)
  have after := sorted_append_iff sorted sorted_vector back_eq
    (List.head?_cons : (first :: rest).head? = _)
  rw [mergeSorted_cons order last_eq back_eq, last_eq, back_eq]
  simp only [List.head?_cons, Option.map_some, ne_eq, Option.some_inj, reduceCtorEq, not_false_eq_true,
    true_and, false_and, false_or, or_false]
  split_ifs with in_front at_end
  · constructor
    · rintro ⟨err, out, merged, ordered, -⟩
      obtain ⟨-, rfl⟩ := Prod.mk.inj (Option.some_inj.1 merged)
      have meet := before.1 ordered
      exact ⟨meet.ne, ((first_le.trans_lt meet).trans_le front_le).ne⟩
    · rintro ⟨apart, -⟩
      exact ⟨0, _, rfl, before.2 (in_front.lt_of_ne apart), fun k => find_append _ _ k⟩
  · constructor
    · rintro ⟨err, out, merged, ordered, -⟩
      obtain ⟨-, rfl⟩ := Prod.mk.inj (Option.some_inj.1 merged)
      exact ⟨fun equal => in_front equal.le, (after.1 ordered).ne'⟩
    · rintro ⟨-, apart⟩
      have ordered := after.2 (at_end.lt_of_ne (Ne.symm apart))
      exact ⟨_, _, rfl, ordered, fun k => find_append_comm ordered k⟩
  · refine ⟨fun _ => ⟨fun equal => in_front equal.le, fun equal => at_end equal.ge⟩, fun _ => ?_⟩
    obtain ⟨out, merged, ordered, found⟩ := merge_spec order sorted (first :: rest)
    refine ⟨noError, out, merged, ordered, fun k => ?_⟩
    rw [found, find_reverse sorted_vector]

end Operations

theorem mergeSorted_iff_sample :
    ∃ err out, mergeSorted none [(1 : ℕ), 3] [2, 5] = some (err, out) ∧ Sorted id out ∧
      ∀ k, find id out k = (find id [2, 5] k).or (find id [1, 3] k) :=
  (mergeSorted_iff (fun _ _ => Iff.rfl : ∀ a b : ℕ, a < b ↔ id a < id b) none (by decide)
    (by decide)).2 (.inr (.inl ⟨by decide, by decide, by decide⟩))

end AmlCommonlib.Containers
