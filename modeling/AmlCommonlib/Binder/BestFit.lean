import AmlCommonlib.Binder.MemoryDealer

/-! # Best fit keeps the heap tiled

The chunks tile the heap and no two neighbours are free, whatever is allocated and deallocated. The
blocks that are handed out are the taken chunks, so a request fails only when no position of the
heap is clear for it, and the list is determined by the blocks in use.
-/

namespace AmlCommonlib.Binder

variable {page : PageSize} {s t : SimpleBestFitAllocator} {size flags : ℕ}

/-- The chunks tile the heap, without free neighbours. -/
structure Wf (s : SimpleBestFitAllocator) : Prop where
  small : s.mHeapSize < 2 ^ 33
  tiles : Tiles Chunk.start Chunk.size 0 s.mList (s.mHeapSize / kMemoryAlign)
  coalesced : Coalesced (·.free = true) s.mList

/-- The blocks in use, by their units. -/
def SimpleBestFitAllocator.taken (s : SimpleBestFitAllocator) : List Chunk :=
  s.mList.filter (!·.free)

theorem mem_taken {c : Chunk} : c ∈ s.taken ↔ c ∈ s.mList ∧ c.free = false := by
  simp [SimpleBestFitAllocator.taken]

/-! ### Pages -/

theorem PageSize.pos (page : PageSize) : 0 < page.size := Nat.two_pow_pos _

theorem PageSize.align_dvd (page : PageSize) : kMemoryAlign ∣ page.size :=
  pow_dvd_pow 2 page.lower

theorem PageSize.size_le (page : PageSize) : page.size ≤ 2 ^ 30 :=
  Nat.pow_le_pow_right (by omega) page.upper

theorem pageFloor_eq {x : ℕ} (word : x < 2 ^ 64) : pageFloor page x = x / page.size * page.size :=
  and_complement (by have := page.upper; omega) word

theorem pageRound_eq {x : ℕ} (word : x + page.size ≤ 2 ^ 64) :
    pageRound page x = (x + page.size - 1) / page.size * page.size := by
  have positive := page.pos
  have inside : (x + page.size - 1) % 2 ^ 64 = x + page.size - 1 := Nat.mod_eq_of_lt (by omega)
  rw [pageRound, inside]
  exact pageFloor_eq (by omega)

theorem pageRound_bounds {x : ℕ} (word : x + page.size ≤ 2 ^ 64) :
    x ≤ pageRound page x ∧ pageRound page x < x + page.size ∧ page.size ∣ pageRound page x := by
  rw [pageRound_eq word]
  have positive := page.pos
  have parts := Nat.div_add_mod (x + page.size - 1) page.size
  have rest := Nat.mod_lt (x + page.size - 1) positive
  rw [Nat.mul_comm] at parts
  exact ⟨by omega, by omega, Nat.dvd_mul_left ..⟩

theorem PageSize.units_pos (page : PageSize) : 0 < page.size / kMemoryAlign :=
  Nat.div_pos (Nat.le_of_dvd page.pos page.align_dvd) (by decide)

theorem extra_eq {start : ℕ} (word : start < 2 ^ 64) : extra page flags start =
    if flags &&& PAGE_ALIGNED ≠ 0 then
      (page.size / kMemoryAlign - start % (page.size / kMemoryAlign)) % (page.size / kMemoryAlign)
    else 0 := by
  have units : page.size / kMemoryAlign = 2 ^ (page.bits - 5) := by
    have split : page.size = 2 ^ (page.bits - 5) * kMemoryAlign := by
      rw [PageSize.size, show kMemoryAlign = 2 ^ 5 from rfl, ← pow_add]
      congr 1
      have := page.lower
      omega
    rw [split, Nat.mul_div_cancel _ (by decide)]
  rw [extra, units]
  have small : page.bits - 5 ≤ 64 := by have := page.upper; omega
  rw [neg_and_mask small word]

theorem extra_le {start : ℕ} (word : start < 2 ^ 64) : extra page flags start ≤ 2 ^ 30 := by
  rw [extra_eq word]
  split_ifs
  · have below := Nat.mod_lt (page.size / kMemoryAlign - start % (page.size / kMemoryAlign))
      page.units_pos
    have := page.size_le
    have := Nat.div_le_self page.size kMemoryAlign
    omega
  · omega

/-- A request with these flags may start at the unit. -/
def Aligned (page : PageSize) (flags unit : ℕ) : Prop :=
  flags &&& PAGE_ALIGNED ≠ 0 → page.size ∣ unit * kMemoryAlign

theorem aligned_iff {unit : ℕ} :
    Aligned page flags unit ↔ (flags &&& PAGE_ALIGNED ≠ 0 → page.size / kMemoryAlign ∣ unit) := by
  have split := Nat.div_mul_cancel page.align_dvd
  rw [Aligned]
  refine imp_congr_right fun _ => ?_
  nth_rewrite 1 [← split]
  exact Nat.mul_dvd_mul_iff_right (by decide)

theorem extra_aligned {start : ℕ} (word : start < 2 ^ 64) :
    Aligned page flags (start + extra page flags start) := by
  rw [aligned_iff]
  intro asked
  rw [extra_eq word, if_pos asked]
  exact dvd_next_multiple page.units_pos

/-- No aligned position comes before the one that `extra` leads to. -/
theorem extra_least {start unit : ℕ} (word : start < 2 ^ 64) (le : start ≤ unit)
    (aligned : Aligned page flags unit) : start + extra page flags start ≤ unit := by
  rw [aligned_iff] at aligned
  rw [extra_eq word]
  split_ifs with asked
  · exact next_multiple_le page.units_pos le (aligned asked)
  · exact le

/-! ### The search -/

/-- The chunk can hold the units of a request behind the padding of its alignment. -/
def Fits (page : PageSize) (size flags : ℕ) (c : Chunk) : Prop :=
  c.free = true ∧ size + extra page flags c.start ≤ c.size

/-- The chunk that is kept is one of the two, and not longer than either. -/
theorem bestOf_cases (best : Option Node) (cur : Node) :
    (bestOf best cur = cur ∨ best = some (bestOf best cur)) ∧
      (bestOf best cur).chunk.size ≤ cur.chunk.size ∧
      ∀ node, best = some node → (bestOf best cur).chunk.size ≤ node.chunk.size := by
  cases best with
  | none => simp [bestOf]
  | some node =>
    rw [bestOf]
    split_ifs with smaller
    · exact ⟨.inl rfl, le_rfl, by rintro _ ⟨⟩; omega⟩
    · exact ⟨.inr rfl, by omega, by rintro _ ⟨⟩; omega⟩

section Search

variable {before rest : List Chunk} {best : Option Node}

theorem search_none (word : ∀ c ∈ rest, size + extra page flags c.start < 2 ^ 64)
    (failed : search page size flags before best rest = none) :
    best = none ∧ ∀ c ∈ rest, ¬Fits page size flags c := by
  induction rest generalizing before best with
  | nil => exact ⟨failed, by simp⟩
  | cons cur next ih =>
    obtain ⟨inside, word⟩ := List.forall_mem_cons.mp word
    rw [search, Nat.mod_eq_of_lt inside] at failed
    split_ifs at failed with fits exact
    · cases (ih word failed).1
    · obtain ⟨empty, others⟩ := ih word failed
      exact ⟨empty, List.forall_mem_cons.mpr ⟨fits, others⟩⟩

theorem search_some {node : Node} (word : ∀ c ∈ rest, size + extra page flags c.start < 2 ^ 64)
    (fit : ∀ b, best = some b → Fits page size flags b.chunk)
    (found : search page size flags before best rest = some node) :
    (node.toList = before.reverse ++ rest ∨ best = some node) ∧ Fits page size flags node.chunk ∧
      (∀ c ∈ rest, Fits page size flags c → node.chunk.size ≤ c.size) ∧
      ∀ b, best = some b → node.chunk.size ≤ b.chunk.size := by
  induction rest generalizing before best with
  | nil =>
    obtain rfl : best = some node := found
    exact ⟨.inr rfl, fit node rfl, by simp, by rintro _ ⟨⟩; exact le_rfl⟩
  | cons cur next ih =>
    obtain ⟨inside, word⟩ := List.forall_mem_cons.mp word
    rw [search, Nat.mod_eq_of_lt inside] at found
    obtain ⟨which, below, beneath⟩ := bestOf_cases best ⟨before, cur, next⟩
    have here : (Node.mk before cur next).toList = before.reverse ++ cur :: next := rfl
    split_ifs at found with fits exact
    · -- an exact fit ends the loop, and nothing that fits is shorter
      obtain rfl := Option.some.inj found
      refine ⟨?_, ?_, ?_, beneath⟩
      · rcases which with same | kept
        · exact .inl (by rw [same]; exact here)
        · exact .inr kept
      · rcases which with same | kept
        · rw [same]
          exact fits
        · exact fit _ kept
      · intro c member holds
        have := holds.2
        exact le_trans below (by rw [exact]; omega)
    · have fit' : ∀ b, some (bestOf best ⟨before, cur, next⟩) = some b → Fits page size flags b.chunk := by
        rintro _ ⟨⟩
        rcases which with same | kept
        · rw [same]
          exact fits
        · exact fit _ kept
      obtain ⟨place, holds, least, under⟩ := ih word fit' found
      have le := under _ rfl
      refine ⟨?_, holds, ?_, fun b eq => le.trans (beneath b eq)⟩
      · rcases place with place | last
        · exact .inl (by simpa using place)
        · obtain rfl := Option.some.inj last
          rcases which with same | kept
          · exact .inl (by rw [same]; exact here)
          · exact .inr kept
      · exact List.forall_mem_cons.mpr ⟨fun _ => le.trans below, least⟩
    · obtain ⟨place, holds, least, under⟩ := ih word fit found
      refine ⟨?_, holds, ?_, under⟩
      · rcases place with place | last
        · exact .inl (by simpa using place)
        · exact .inr last
      · exact List.forall_mem_cons.mpr ⟨fun bad => absurd bad fits, least⟩

end Search

/-! ### Allocating -/

theorem units_bounds (word : size + kMemoryAlign ≤ 2 ^ 64) :
    size ≤ units size * kMemoryAlign ∧ units size * kMemoryAlign < size + kMemoryAlign := by
  have inside : (size + kMemoryAlign - 1) % 2 ^ 64 = size + kMemoryAlign - 1 :=
    Nat.mod_eq_of_lt (by rw [kMemoryAlign] at *; omega)
  rw [units, inside, kMemoryAlign]
  omega

theorem units_pos (positive : 0 < size) (word : size + kMemoryAlign ≤ 2 ^ 64) : 0 < units size := by
  have := (units_bounds word).1
  rcases Nat.eq_zero_or_pos (units size) with zero | some
  · rw [zero] at this
    omega
  · exact some

theorem units_le (size : ℕ) : units size < 2 ^ 59 := by
  have := Nat.mod_lt (size + kMemoryAlign - 1) (Nat.two_pow_pos 64)
  rw [units]
  generalize (size + kMemoryAlign - 1) % 2 ^ 64 = bytes at this
  rw [kMemoryAlign]
  omega

/-- The free chunk at a place, if there is room for one. -/
def gapAt (start size : ℕ) : List Chunk := if size = 0 then [] else [⟨start, size, true⟩]

/-- What is left of a chunk around the block that is cut from it. -/
def cut (c : Chunk) (padding size : ℕ) : List Chunk :=
  gapAt c.start padding ++ ⟨c.start + padding, size, false⟩ ::
    gapAt (c.start + padding + size) (c.size - (size + padding))

theorem carve_eq {node : Node} (small : node.chunk.size < 2 ^ 28)
    (fits : Fits page size flags node.chunk) : carve page size flags node =
      (node.before.reverse ++ cut node.chunk (extra page flags node.chunk.start) size ++ node.after,
        node.chunk.start + extra page flags node.chunk.start) := by
  have room := fits.2
  have mod : ∀ x ≤ node.chunk.size, x % 2 ^ 28 = x := fun x le => Nat.mod_eq_of_lt (by omega)
  rw [carve]
  by_cases larger : node.chunk.size > size
  · simp only [larger, ↓reduceIte, cut, gapAt, chunkT]
    rw [mod size (by omega), mod (extra page flags node.chunk.start) (by omega),
      mod (node.chunk.size - (size + extra page flags node.chunk.start)) (by omega)]
    have tailFree := Nat.pos_iff_ne_zero (n := node.chunk.size -
      (size + extra page flags node.chunk.start))
    simp only [gt_iff_lt, tailFree, ite_not, ne_eq, Nat.add_assoc, List.append_assoc]
  · have none : extra page flags node.chunk.start = 0 := by omega
    have exact : node.chunk.size - size = 0 := by omega
    simp only [larger, ↓reduceIte, none, cut, gapAt, mod size (by omega), Nat.add_zero,
      List.nil_append, exact]

variable {result : ℤ}

theorem Wf.heap_lt (wf : Wf s) : s.mHeapSize / kMemoryAlign < 2 ^ 28 := by
  have := wf.small
  rw [kMemoryAlign]
  omega

/-- The outcomes of a request. -/
theorem alloc_cases (wf : Wf s) (done : alloc page s size flags = (result, t)) :
    (size = 0 ∧ result = 0 ∧ t = s) ∨
    (0 < size ∧ result = NO_MEMORY ∧ t = s ∧ ∀ c ∈ s.mList, ¬Fits page (units size) flags c) ∨
    (0 < size ∧ ∃ left c right, s.mList = left ++ c :: right ∧ Fits page (units size) flags c ∧
      (∀ d ∈ s.mList, Fits page (units size) flags d → c.size ≤ d.size) ∧
      result = ((c.start + extra page flags c.start) * kMemoryAlign : ℕ) ∧
      t = { s with mList := left ++ cut c (extra page flags c.start) (units size) ++ right }) := by
  have heap := wf.heap_lt
  rw [alloc] at done
  split_ifs at done with zero
  · cases done
    exact .inl ⟨zero, rfl, rfl⟩
  · have positive : 0 < size := by omega
    have word : ∀ c ∈ s.mList, units size + extra page flags c.start < 2 ^ 64 := by
      intro c member
      have inside := wf.tiles.bounds member
      have padding : extra page flags c.start ≤ 2 ^ 30 := extra_le (by omega)
      have := units_le size
      omega
    rcases found : search page (units size) flags [] none s.mList with _ | node
    · rw [found] at done
      cases done
      exact .inr (.inl ⟨positive, rfl, rfl, (search_none word found).2⟩)
    · rw [found] at done
      obtain ⟨place, fits, least, -⟩ := search_some word (by simp) found
      have place : s.mList = node.toList := (show node.toList = s.mList by simpa using place).symm
      have inside := wf.tiles.bounds (c := node.chunk) (by simp [place, Node.toList])
      have small : node.chunk.size < 2 ^ 28 := by omega
      simp only [carve_eq small fits] at done
      cases done
      exact .inr (.inr ⟨positive, _, _, _, place, fits, least, rfl, rfl⟩)

theorem alloc_fails_iff (wf : Wf s) (positive : 0 < size) :
    (allocate page s size flags).1 = NO_MEMORY ↔
      ∀ c ∈ s.mList, ¬Fits page (units size) flags c := by
  rcases done : alloc page s size flags with ⟨result, next⟩
  simp only [allocate, done]
  obtain ⟨zero, -, -⟩ | ⟨-, rfl, -, none⟩ | ⟨-, left, c, right, place, fits, -, rfl, -⟩ :=
    alloc_cases wf done
  · omega
  · simpa using none
  · have member : c ∈ s.mList := by simp [place]
    constructor
    · intro negative
      rw [NO_MEMORY] at negative
      omega
    · intro none
      exact absurd fits (none c member)

theorem tiles_gapAt (start size : ℕ) :
    Tiles Chunk.start Chunk.size start (gapAt start size) (start + size) := by
  rw [gapAt]
  split_ifs with zero
  · exact Tiles.nil_iff.mpr (by omega)
  · exact .cons rfl (Nat.pos_of_ne_zero zero) (.nil _)

theorem tiles_cut {c : Chunk} {padding : ℕ} (positive : 0 < size) (room : size + padding ≤ c.size) :
    Tiles Chunk.start Chunk.size c.start (cut c padding size) (c.start + c.size) := by
  rw [cut, Tiles.append_iff]
  refine ⟨_, tiles_gapAt .., .cons rfl positive ?_⟩
  have tail := tiles_gapAt (c.start + padding + size) (c.size - (size + padding))
  rwa [show c.start + padding + size + (c.size - (size + padding)) = c.start + c.size by omega] at tail

theorem coalesced_cut {left right : List Chunk} {c : Chunk} {padding : ℕ} (isFree : c.free = true)
    (coalesced : Coalesced (·.free = true) (left ++ c :: right)) :
    Coalesced (·.free = true) (left ++ cut c padding size ++ right) := by
  have joined : Coalesced (·.free = true) (left ++ [c] ++ right) := by simpa using coalesced
  have before : Coalesced (·.free = true) (left ++ [c]) := List.IsChain.left_of_append joined
  have behind : Coalesced (·.free = true) (c :: right) := List.IsChain.right_of_append coalesced
  have shape : left ++ cut c padding size ++ right = (left ++ gapAt c.start padding) ++
      ⟨c.start + padding, size, false⟩ ::
        (gapAt (c.start + padding + size) (c.size - (size + padding)) ++ right) := by
    simp [cut]
  rw [shape, coalesced_split (by simp)]
  constructor
  · rw [gapAt]
    split_ifs
    · rw [List.append_nil]
      exact List.IsChain.left_of_append before
    · exact before.replace_last isFree
  · rw [gapAt]
    split_ifs
    · exact behind.tail
    · exact behind.replace_first isFree

theorem Wf.alloc (wf : Wf s) (word : size + kMemoryAlign ≤ 2 ^ 64)
    (done : alloc page s size flags = (result, t)) : Wf t := by
  obtain ⟨-, -, rfl⟩ | ⟨-, -, rfl, -⟩ | ⟨positive, left, c, right, place, fits, -, -, rfl⟩ :=
    alloc_cases wf done
  · exact wf
  · exact wf
  · have tiles := wf.tiles
    have coalesced := wf.coalesced
    rw [place] at tiles coalesced
    obtain ⟨mid, before, behind⟩ := Tiles.append_iff.mp tiles
    obtain ⟨rfl, -, behind⟩ := Tiles.cons_iff.mp behind
    refine ⟨wf.small, ?_, coalesced_cut fits.1 coalesced⟩
    have middle := tiles_cut (units_pos positive word) fits.2
    exact Tiles.append_iff.mpr ⟨_, Tiles.append_iff.mpr ⟨_, before, middle⟩, behind⟩

/-! ### Deallocating -/

theorem findChunk_none {start : ℕ} {before rest : List Chunk}
    (missing : findChunk start before rest = none) : ∀ c ∈ rest, c.start ≠ start := by
  induction rest generalizing before with
  | nil => simp
  | cons cur next ih =>
    rw [findChunk] at missing
    split_ifs at missing with same
    exact List.forall_mem_cons.mpr ⟨same, ih missing⟩

theorem findChunk_some {start : ℕ} {before rest : List Chunk} {node : Node}
    (found : findChunk start before rest = some node) :
    node.toList = before.reverse ++ rest ∧ node.chunk.start = start := by
  induction rest generalizing before with
  | nil => cases found
  | cons cur next ih =>
    rw [findChunk] at found
    split_ifs at found with same
    · obtain rfl := Option.some.inj found
      exact ⟨rfl, same⟩
    · obtain ⟨place, here⟩ := ih found
      exact ⟨by simpa using place, here⟩

/-- A chunk is joined to a free one before it. -/
theorem mergeBack_cases (before : List Chunk) {cur : Chunk} (positive : 0 < cur.size) :
    (∃ p ps, before = p :: ps ∧ p.free = true ∧
      mergeBack before cur = { p with size := (p.size + cur.size) % 2 ^ 28 } :: ps) ∨
    ((∀ p ∈ before.head?, p.free = false) ∧ mergeBack before cur = cur :: before) := by
  cases before with
  | nil => exact .inr ⟨by simp, rfl⟩
  | cons p ps =>
    cases isFree : p.free with
    | true => exact .inl ⟨p, ps, rfl, isFree, by simp [mergeBack, isFree]⟩
    | false => exact .inr ⟨by simp [isFree], by simp [mergeBack, isFree, positive.ne']⟩

theorem mergeFreed_stop {before next : List Chunk} {cur : Chunk}
    (taken : ∀ d ∈ next.head?, d.free = false) :
    mergeFreed before cur next = (mergeBack before cur).reverse ++ next := by
  cases next with
  | nil => simp [mergeFreed]
  | cons d next => simp [mergeFreed, taken d (by simp)]

/-- Behind a free chunk of a list without free neighbours is a taken one. -/
theorem head_taken {c : Chunk} {rest : List Chunk} (isFree : c.free = true)
    (coalesced : Coalesced (·.free = true) (c :: rest)) : ∀ d ∈ rest.head?, d.free = false := by
  intro d head
  have apart := (List.isChain_cons.mp coalesced).1 d head
  simpa [isFree] using apart

/-- Some chunks around a freed one become a single free chunk of their whole length. -/
def Joined (left : List Chunk) (c : Chunk) (right result : List Chunk) : Prop :=
  ∃ left' front back right' lo len, left = left' ++ front ∧ right = back ++ right' ∧
    (∀ d ∈ front ++ back, d.free = true) ∧ (∀ d ∈ left'.getLast?, d.free = false) ∧
    (∀ d ∈ right'.head?, d.free = false) ∧
    Tiles Chunk.start Chunk.size lo (front ++ c :: back) (lo + len) ∧
    result = left' ++ ⟨lo, len, true⟩ :: right'

/-- What the first round of the merge makes of the chunk and those before it. -/
theorem mergeBack_joins {before : List Chunk} {cur : Chunk} {hi : ℕ} (isFree : cur.free = true)
    (tiles : Tiles Chunk.start Chunk.size 0 (before.reverse ++ [cur]) hi) (small : hi < 2 ^ 28)
    (coalesced : Coalesced (·.free = true) before.reverse) :
    ∃ ps front lo len, before.reverse = ps.reverse ++ front ∧ (∀ d ∈ front, d.free = true) ∧
      (∀ d ∈ ps.head?, d.free = false) ∧ lo + len = hi ∧
      Tiles Chunk.start Chunk.size lo (front ++ [cur]) hi ∧
      mergeBack before cur = ⟨lo, len, true⟩ :: ps := by
  have inside := tiles.bounds (c := cur) (by simp)
  have ends : cur.start + cur.size = hi := by
    obtain ⟨mid, -, last⟩ := Tiles.append_iff.mp tiles
    obtain ⟨here, -, last⟩ := Tiles.cons_iff.mp last
    have := Tiles.nil_iff.mp last
    omega
  obtain ⟨p, ps, rfl, free, merged⟩ | ⟨taken, merged⟩ := mergeBack_cases before inside.2.1
  · rw [List.reverse_cons, List.append_assoc] at tiles
    obtain ⟨mid, -, last⟩ := Tiles.append_iff.mp tiles
    obtain ⟨rfl, -, cons⟩ := Tiles.cons_iff.mp last
    obtain ⟨next, -, -⟩ := Tiles.cons_iff.mp cons
    refine ⟨ps, [p], p.start, p.size + cur.size, by simp, by simp [free], ?_, by omega, last, ?_⟩
    · intro d head
      rw [List.reverse_cons] at coalesced
      have apart := (List.isChain_append.mp coalesced).2.2 d (by simpa using head) p (by simp)
      simpa [free] using apart
    · rw [merged, Nat.mod_eq_of_lt (by omega), free]
  · refine ⟨before, [], cur.start, cur.size, by simp, by simp, taken, ends, ?_, ?_⟩
    · exact .cons rfl inside.2.1 (Tiles.nil_iff.mpr ends)
    · rw [merged, ← isFree]

theorem tiles_flag {front back : List Chunk} {c : Chunk} {lo hi : ℕ} (free : Bool) :
    Tiles Chunk.start Chunk.size lo (front ++ { c with free := free } :: back) hi ↔
      Tiles Chunk.start Chunk.size lo (front ++ c :: back) hi := by
  simp [Tiles.append_iff, Tiles.cons_iff]

theorem mergeFreed_joins {before after : List Chunk} {cur : Chunk} {hi : ℕ}
    (isFree : cur.free = true)
    (tiles : Tiles Chunk.start Chunk.size 0 (before.reverse ++ cur :: after) hi) (small : hi < 2 ^ 28)
    (coalesced : Coalesced (·.free = true) before.reverse)
    (coalesced' : Coalesced (·.free = true) after) :
    Joined before.reverse cur after (mergeFreed before cur after) := by
  obtain ⟨mid, first, last⟩ := Tiles.append_iff.mp
    (show Tiles Chunk.start Chunk.size 0 ((before.reverse ++ [cur]) ++ after) hi by simpa using tiles)
  have le := last.le
  obtain ⟨ps, front, lo, len, split, frees, ends, rfl, middle, merged⟩ :=
    mergeBack_joins isFree first (by omega) coalesced
  cases after with
  | nil =>
    refine ⟨ps.reverse, front, [], [], lo, len, split, rfl, by simpa using frees, ?_, by simp,
      middle, ?_⟩
    · simpa using ends
    · simp [mergeFreed, merged]
  | cons n next =>
    cases free : n.free with
    | false =>
      refine ⟨ps.reverse, front, [], n :: next, lo, len, split, rfl, by simpa using frees, ?_,
        by simp [free], middle, ?_⟩
      · simpa using ends
      · simp [mergeFreed, free, merged]
    | true =>
      obtain ⟨here, positive, behind⟩ := Tiles.cons_iff.mp last
      have le := behind.le
      refine ⟨ps.reverse, front, [n], next, lo, len + n.size, split, rfl, ?_, ?_,
        head_taken free coalesced', ?_, ?_⟩
      · intro d member
        rcases List.mem_append.mp member with member | member
        · exact frees d member
        · rw [List.mem_singleton.mp member, free]
      · simpa using ends
      · have whole := Tiles.append_iff.mpr ⟨_, middle, .cons here positive (.nil _)⟩
        simpa [Nat.add_assoc] using whole
      · -- the second round joins `n` to the free chunk that the first one has left before it
        rw [mergeFreed, if_pos free, mergeFreed_stop (head_taken free coalesced'), merged]
        have small : (len + n.size) % 2 ^ 28 = len + n.size := Nat.mod_eq_of_lt (by omega)
        simp only [mergeBack, true_or, ↓reduceIte, small, List.reverse_cons, List.append_assoc,
          List.singleton_append]

/-- The outcomes of `deallocate`, whatever offset it is given. -/
theorem deallocate_cases {offset : ℕ} (wf : Wf s) (done : deallocate s offset = (result, t)) :
    (result = NAME_NOT_FOUND ∧ t = s ∧ ∀ c ∈ s.mList, c.start ≠ offset / kMemoryAlign) ∨
    (result = NO_ERROR ∧ ∃ left c right, s.mList = left ++ c :: right ∧
      c.start = offset / kMemoryAlign ∧ t.mHeapSize = s.mHeapSize ∧
      Joined left { c with free := true } right t.mList) := by
  rw [deallocate, dealloc] at done
  rcases found : findChunk (offset / kMemoryAlign) [] s.mList with _ | node
  · simp only [found] at done
    cases done
    exact .inl ⟨rfl, rfl, findChunk_none found⟩
  · simp only [found] at done
    cases done
    obtain ⟨place, here⟩ := findChunk_some found
    have place : node.before.reverse ++ node.chunk :: node.after = s.mList := place
    have tiles := wf.tiles
    have coalesced := wf.coalesced
    rw [← place] at tiles coalesced
    refine .inr ⟨rfl, node.before.reverse, node.chunk, node.after, place.symm, here, rfl, ?_⟩
    apply mergeFreed_joins rfl ?_ wf.heap_lt coalesced.left_of_append coalesced.right_of_append.tail
    exact (tiles_flag true).mpr tiles

theorem Wf.deallocate {offset : ℕ} (wf : Wf s) (done : deallocate s offset = (result, t)) : Wf t := by
  obtain ⟨-, rfl, -⟩ | ⟨-, left, c, right, place, -, heap, joined⟩ := deallocate_cases wf done
  · exact wf
  · obtain ⟨left', front, back, right', lo, len, rfl, rfl, -, ends, ends', middle, list⟩ := joined
    have tiles := wf.tiles
    have coalesced := wf.coalesced
    rw [place] at tiles coalesced
    rw [List.append_assoc] at tiles coalesced
    obtain ⟨mid, first, rest⟩ := Tiles.append_iff.mp tiles
    have shape : front ++ c :: (back ++ right') = (front ++ c :: back) ++ right' := by simp
    rw [shape] at rest
    obtain ⟨mid', between, last⟩ := Tiles.append_iff.mp rest
    obtain ⟨rfl, rfl⟩ := ((tiles_flag true).mp middle).ends (by simp) between
    have positive := between.lt (by simp)
    refine ⟨heap ▸ wf.small, ?_, ?_⟩
    · rw [list, heap]
      exact Tiles.append_iff.mpr ⟨_, first, .cons rfl (show 0 < len by omega) last⟩
    · rw [list, Coalesced, List.isChain_append, List.isChain_cons]
      refine ⟨coalesced.left_of_append, ⟨?_, ?_⟩, ?_⟩
      · intro d head both
        simp [ends' d head] at both
      · rw [shape] at coalesced
        exact coalesced.right_of_append.right_of_append
      · intro d last e head both
        simp [ends d last] at both

/-! ### The blocks in use -/

/-- Every chunk but the given one lies apart from it. -/
theorem Wf.apart {c d : Chunk} (wf : Wf s) (first : c ∈ s.mList) (second : d ∈ s.mList)
    (different : c ≠ d) : c.start + c.size ≤ d.start ∨ d.start + d.size ≤ c.start := by
  by_contra meet
  exact different (wf.tiles.eq_of_meet first second (by omega) (by omega))

theorem filter_gapAt (start size : ℕ) : (gapAt start size).filter (!·.free) = [] := by
  rw [gapAt]
  split_ifs <;> rfl

theorem taken_cut {left right : List Chunk} {c : Chunk} {padding : ℕ}
    (place : s.mList = left ++ c :: right) (isFree : c.free = true) :
    ({ s with mList := left ++ cut c padding size ++ right } : SimpleBestFitAllocator).taken.Perm
      (⟨c.start + padding, size, false⟩ :: s.taken) := by
  have before : s.taken = left.filter (!·.free) ++ right.filter (!·.free) := by
    simp [SimpleBestFitAllocator.taken, place, isFree]
  have behind : ({ s with mList := left ++ cut c padding size ++ right } :
      SimpleBestFitAllocator).taken = left.filter (!·.free) ++
        ⟨c.start + padding, size, false⟩ :: right.filter (!·.free) := by
    simp [SimpleBestFitAllocator.taken, cut, filter_gapAt]
  rw [before, behind]
  exact List.perm_middle

theorem taken_joined {left right : List Chunk} {c : Chunk} (wf : Wf s)
    (place : s.mList = left ++ c :: right)
    (joined : Joined left { c with free := true } right t.mList) :
    t.taken = s.taken.filter (·.start ≠ c.start) := by
  obtain ⟨left', front, back, right', lo, len, rfl, rfl, frees, -, -, -, list⟩ := joined
  have tiles := wf.tiles
  rw [place] at tiles
  have order := List.pairwise_append.mp tiles.pairwise
  have frontFree : front.filter (!·.free) = [] := by
    rw [List.filter_eq_nil_iff]
    intro d member
    simp [frees d (by simp [member])]
  have backFree : back.filter (!·.free) = [] := by
    rw [List.filter_eq_nil_iff]
    intro d member
    simp [frees d (by simp [member])]
  have other : ∀ d ∈ left' ++ right', d.start ≠ c.start := by
    intro d member
    rcases List.mem_append.mp member with member | member
    · have := order.2.2 d (by simp [member]) c (by simp)
      have := (tiles.bounds (c := d) (by simp [member])).2.1
      omega
    · have := (List.pairwise_cons.mp order.2.1).1 d (by simp [member])
      have := (tiles.bounds (c := c) (by simp)).2.1
      omega
  have keep : ∀ xs : List Chunk, (∀ d ∈ xs, d.start ≠ c.start) →
      (xs.filter (!·.free)).filter (·.start ≠ c.start) = xs.filter (!·.free) := by
    intro xs different
    rw [List.filter_eq_self]
    intro d member
    simpa using different d (List.mem_filter.mp member).1
  have gone : ([c].filter (!·.free)).filter (·.start ≠ c.start) = [] := by
    cases free : c.free <;> simp [free]
  have split : s.taken = left'.filter (!·.free) ++ [c].filter (!·.free) ++ right'.filter (!·.free) := by
    rw [SimpleBestFitAllocator.taken, place, ← List.singleton_append]
    simp only [List.filter_append, frontFree, backFree, List.nil_append, List.append_assoc]
  rw [split, List.filter_append, List.filter_append, gone,
    keep left' fun d member => other d (by simp [member]),
    keep right' fun d member => other d (by simp [member])]
  simp [SimpleBestFitAllocator.taken, list]

/-- A request finds no chunk exactly if every position it could start at runs into a block. -/
theorem Wf.no_room_iff (wf : Wf s) (positive : 0 < size) :
    (∀ c ∈ s.mList, ¬Fits page size flags c) ↔
      ∀ u, Aligned page flags u → u + size ≤ s.mHeapSize / kMemoryAlign →
        ∃ c ∈ s.taken, u < c.start + c.size ∧ c.start < u + size := by
  have heap := wf.heap_lt
  constructor
  · intro none u aligned inside
    by_contra clear
    obtain ⟨c, member, isFree, low, high⟩ := wf.tiles.gap wf.coalesced positive (Nat.zero_le u) inside
      (by
        intro c member left right
        by_contra taken
        exact clear ⟨c, mem_taken.mpr ⟨member, by simpa using taken⟩, left, right⟩)
    have bounds := wf.tiles.bounds member
    have first := extra_least (by omega) low aligned
    exact none c member ⟨isFree, by omega⟩
  · rintro blocked c member ⟨isFree, room⟩
    have bounds := wf.tiles.bounds member
    have aligned : Aligned page flags (c.start + extra page flags c.start) :=
      extra_aligned (by omega)
    obtain ⟨d, taken, left, right⟩ := blocked _ aligned (by omega)
    obtain ⟨member', isTaken⟩ := mem_taken.mp taken
    have different : c ≠ d := by
      rintro rfl
      rw [isFree] at isTaken
      cases isTaken
    have := wf.apart member member' different
    omega

end AmlCommonlib.Binder
