import AmlCommonlib.Binder.BestFit
import Mathlib.Data.List.Perm.Basic

/-! # The blocks that a heap hands out

The callers of an allocator see offsets only. What they hold after any calls, with arbitrary sizes,
flags and offsets, are the taken chunks of its list, so blocks are apart, a request fails only when
there is no room, and the allocator forgets how it came to the blocks in use.
-/

namespace AmlCommonlib.Binder

inductive Action where
  | allocate (size flags : ℕ)
  | deallocate (offset : ℕ)

/-- A size whose rounding to units stays inside a `size_t`. -/
def Action.Proper : Action → Prop
  | .allocate size _ => size + kMemoryAlign ≤ 2 ^ 64
  | .deallocate _ => True

def call (page : PageSize) (s : SimpleBestFitAllocator) : Action → ℤ × SimpleBestFitAllocator
  | .allocate size flags => allocate page s size flags
  | .deallocate offset => deallocate s offset

/-- A call, labelled with what it returns. -/
def Call (page : PageSize) (s : SimpleBestFitAllocator) (l : Action × ℤ)
    (t : SimpleBestFitAllocator) : Prop :=
  call page s l.1 = (l.2, t)

/-- A block as its owner knows it. -/
structure Block where
  offset : ℕ
  size : ℕ
  flags : ℕ
deriving DecidableEq

/-- The units of the heap that the block occupies. -/
def Block.chunk (b : Block) : Chunk := ⟨b.offset / kMemoryAlign, units b.size, false⟩

/-- The blocks in use after a call. -/
def use (used : List Block) : Action × ℤ → List Block
  | (.allocate size flags, result) =>
    if size = 0 ∨ result < 0 then used else ⟨result.toNat, size, flags⟩ :: used
  | (.deallocate offset, _) => used.filter (·.offset / kMemoryAlign ≠ offset / kMemoryAlign)

/-- The blocks in use after some calls. -/
def blocks (ls : List (Action × ℤ)) : List Block := ls.foldl use []

variable {page : PageSize} {s t : SimpleBestFitAllocator} {used : List Block}

/-- What holds of a block that the allocator has handed out. -/
structure Block.Sound (page : PageSize) (b : Block) : Prop where
  unit : kMemoryAlign ∣ b.offset
  positive : 0 < b.size
  word : b.size + kMemoryAlign ≤ 2 ^ 64
  aligned : b.flags &&& PAGE_ALIGNED ≠ 0 → page.size ∣ b.offset

/-- The blocks in use are the taken chunks. -/
structure Tracks (page : PageSize) (heap : ℕ) (used : List Block) (s : SimpleBestFitAllocator) :
    Prop where
  wf : Wf s
  heap : s.mHeapSize = heap
  sound : ∀ b ∈ used, b.Sound page
  same : (used.map Block.chunk).Perm s.taken

section Steps

variable {heap : ℕ} {result : ℤ}

theorem Tracks.allocate {size flags : ℕ} (tracks : Tracks page heap used s)
    (word : size + kMemoryAlign ≤ 2 ^ 64) (done : allocate page s size flags = (result, t)) :
    Tracks page heap (use used (.allocate size flags, result)) t := by
  have wf := tracks.wf.alloc word done
  obtain ⟨zero, rfl, rfl⟩ | ⟨-, rfl, rfl, -⟩ | ⟨positive, left, c, right, place, fits, -, rfl, rfl⟩ :=
    alloc_cases tracks.wf done
  · simpa [use, zero] using tracks
  · simpa [use, NO_MEMORY] using tracks
  · have member : c ∈ s.mList := by simp [place]
    have bounds := tracks.wf.tiles.bounds member
    have small := tracks.wf.heap_lt
    have whole : ¬(size = 0 ∨
        (((c.start + extra page flags c.start) * kMemoryAlign : ℕ) : ℤ) < 0) := by omega
    rw [use, if_neg whole, Int.toNat_natCast]
    refine ⟨wf, tracks.heap, ?_, ?_⟩
    · refine List.forall_mem_cons.mpr ⟨⟨Nat.dvd_mul_left .., positive, word, ?_⟩, tracks.sound⟩
      exact extra_aligned (by omega)
    · rw [List.map_cons, Block.chunk, Nat.mul_div_cancel _ (by decide)]
      exact (tracks.same.cons _).trans (taken_cut place fits.1).symm

theorem Tracks.deallocate {offset : ℕ} (tracks : Tracks page heap used s)
    (done : deallocate s offset = (result, t)) :
    Tracks page heap (use used (.deallocate offset, result)) t := by
  have wf := tracks.wf.deallocate done
  have kept : ∀ b ∈ use used (.deallocate offset, result), b.Sound page :=
    fun b member => tracks.sound b (List.mem_filter.mp member).1
  have gone : (use used (.deallocate offset, result)).map Block.chunk =
      (used.map Block.chunk).filter (·.start ≠ offset / kMemoryAlign) := by
    rw [use, List.filter_map]
    rfl
  refine ⟨wf, ?_, kept, gone ▸ (tracks.same.filter _).trans ?_⟩
  · obtain ⟨-, rfl, -⟩ | ⟨-, -, -, -, -, -, heap, -⟩ := deallocate_cases tracks.wf done
    · exact tracks.heap
    · exact heap.trans tracks.heap
  · obtain ⟨-, rfl, missing⟩ | ⟨-, left, c, right, place, here, -, joined⟩ :=
      deallocate_cases tracks.wf done
    · rw [List.filter_eq_self.mpr]
      intro c member
      simpa using missing c (mem_taken.mp member).1
    · rw [taken_joined tracks.wf place joined, here]

theorem Tracks.call {l : Action × ℤ} (tracks : Tracks page heap used s) (proper : l.1.Proper)
    (taken : Call page s l t) : Tracks page heap (use used l) t := by
  obtain ⟨action, result⟩ := l
  cases action with
  | allocate size flags => exact tracks.allocate proper taken
  | deallocate offset => exact tracks.deallocate taken

end Steps

/-! ### What the callers see of a state -/

section Tracked

variable {heap : ℕ}

/-- The bytes of a block lie in the units it occupies. -/
theorem Tracks.bytes {b : Block} (tracks : Tracks page heap used s) (member : b ∈ used) :
    b.chunk ∈ s.mList ∧ b.chunk.start * kMemoryAlign = b.offset ∧
      b.size ≤ b.chunk.size * kMemoryAlign ∧ b.chunk.size * kMemoryAlign < b.size + kMemoryAlign := by
  have sound := tracks.sound b member
  have place := tracks.same.subset (List.mem_map_of_mem (f := Block.chunk) member)
  exact ⟨(mem_taken.mp place).1, Nat.div_mul_cancel sound.unit, units_bounds sound.word⟩

theorem Tracks.apart (tracks : Tracks page heap used s) :
    used.Pairwise fun a b => a.offset + a.size ≤ b.offset ∨ b.offset + b.size ≤ a.offset := by
  have apart : (used.map Block.chunk).Pairwise fun c d =>
      c.start + c.size ≤ d.start ∨ d.start + d.size ≤ c.start := by
    rw [tracks.same.pairwise_iff Or.symm]
    exact (tracks.wf.tiles.pairwise.filter _).imp Or.inl
  refine (List.pairwise_map.mp apart).imp_of_mem ?_
  intro a b left right apart
  have first := tracks.bytes left
  have second := tracks.bytes right
  rw [kMemoryAlign] at first second
  omega

theorem Tracks.inside {b : Block} (tracks : Tracks page heap used s) (member : b ∈ used) :
    b.offset + b.size ≤ heap := by
  obtain ⟨place, bytes⟩ := tracks.bytes member
  have inside := (tracks.wf.tiles.bounds place).2.2
  rw [tracks.heap] at inside
  rw [kMemoryAlign] at bytes inside
  omega

/-- A state is determined by the units in use. -/
theorem Tracks.determined {used' : List Block} (tracks : Tracks page heap used s)
    (tracks' : Tracks page heap used' t)
    (same : ∀ c, c ∈ used.map Block.chunk ↔ c ∈ used'.map Block.chunk) : s = t := by
  have heap : s.mHeapSize = t.mHeapSize := tracks.heap.trans tracks'.heap.symm
  have lists : s.mList = t.mList := by
    have tiles' := tracks'.wf.tiles
    rw [← heap] at tiles'
    refine tracks.wf.tiles.unique ?_ tiles' tracks.wf.coalesced tracks'.wf.coalesced ?_
    · rintro ⟨start, length, free⟩ ⟨start', length', free'⟩ rfl rfl same
      congr
      exact Bool.eq_iff_iff.mpr same
    · intro c isTaken
      have isTaken : c.free = false := by simpa using isTaken
      have left : c ∈ s.mList ↔ c ∈ used.map Block.chunk := by
        rw [tracks.same.mem_iff, mem_taken]
        simp [isTaken]
      have right : c ∈ t.mList ↔ c ∈ used'.map Block.chunk := by
        rw [tracks'.same.mem_iff, mem_taken]
        simp [isTaken]
      rw [left, right, same]
  cases s
  cases t
  simp_all

end Tracked

/-- The heap as it is created has room for whole pages and no block. -/
theorem tracks_init {size : ℕ} (positive : 0 < size) (small : size + page.size ≤ 2 ^ 33) :
    Tracks page (pageRound page size) [] (simpleBestFitAllocator page size) := by
  obtain ⟨le, lt, dvd⟩ := pageRound_bounds (show size + page.size ≤ 2 ^ 64 by omega)
  have align := page.align_dvd.trans dvd
  have some : 0 < pageRound page size / kMemoryAlign :=
    Nat.div_pos (Nat.le_of_dvd (by omega) align) (by decide)
  have units : pageRound page size / kMemoryAlign % 2 ^ 28 = pageRound page size / kMemoryAlign := by
    apply Nat.mod_eq_of_lt
    rw [kMemoryAlign]
    omega
  refine ⟨⟨?_, ?_, coalesced_singleton _⟩, rfl, by simp, ?_⟩
  · change pageRound page size < 2 ^ 33
    omega
  · change Tiles _ _ 0 [chunkT 0 (pageRound page size / kMemoryAlign)]
      (pageRound page size / kMemoryAlign)
    rw [chunkT, units]
    exact .cons rfl some (Tiles.nil_iff.mpr (Nat.zero_add _))
  · exact List.Perm.nil

/-! ### Two pages of 4 KiB with one block at the start of the second -/

private def fourKiB : PageSize := ⟨12, by decide, by decide⟩

private theorem two_pages_run : Run (Call fourKiB) (simpleBestFitAllocator fourKiB 8000)
    [(.allocate 100 0, 0), (.allocate 64 PAGE_ALIGNED, 4096), (.deallocate 0, 0)]
    ⟨[⟨0, 128, true⟩, ⟨128, 2, false⟩, ⟨130, 126, true⟩], 8192⟩ := by
  have first : call fourKiB (simpleBestFitAllocator fourKiB 8000) (.allocate 100 0) =
      (0, ⟨[⟨0, 4, false⟩, ⟨4, 252, true⟩], 8192⟩) := by decide +kernel
  have second : call fourKiB ⟨[⟨0, 4, false⟩, ⟨4, 252, true⟩], 8192⟩ (.allocate 64 PAGE_ALIGNED) =
      (4096, ⟨[⟨0, 4, false⟩, ⟨4, 124, true⟩, ⟨128, 2, false⟩, ⟨130, 126, true⟩], 8192⟩) := by
    decide +kernel
  have third : call fourKiB
      ⟨[⟨0, 4, false⟩, ⟨4, 124, true⟩, ⟨128, 2, false⟩, ⟨130, 126, true⟩], 8192⟩ (.deallocate 0) =
      (0, ⟨[⟨0, 128, true⟩, ⟨128, 2, false⟩, ⟨130, 126, true⟩], 8192⟩) := by decide +kernel
  exact .cons first (.cons second (.cons third (.nil _)))

private theorem two_pages_proper : ∀ l ∈ [(Action.allocate 100 0, (0 : ℤ)),
    (.allocate 64 PAGE_ALIGNED, 4096), (.deallocate 0, 0)], l.1.Proper := by
  simp [Action.Proper, kMemoryAlign]

/-! ### All calls -/

section Runs

variable {size : ℕ} {ls : List (Action × ℤ)}

/-- After any calls the blocks in use are the taken chunks. -/
theorem tracks_run (positive : 0 < size) (small : size + page.size ≤ 2 ^ 33)
    (run : Run (Call page) (simpleBestFitAllocator page size) ls t) (proper : ∀ l ∈ ls, l.1.Proper) :
    Tracks page (pageRound page size) (blocks ls) t := by
  have guarded : Run (Guarded (fun _ l => l.1.Proper) (Call page)) (simpleBestFitAllocator page size)
      ls t := run.guarded (fun _ _ holds => holds) proper
  refine guarded.preserves_history
    (fun ls t => Tracks page (pageRound page size) (blocks ls) t) ?_ (tracks_init positive small)
  intro past s l t tracks taken
  rw [blocks, List.foldl_append]
  exact tracks.call taken.1 taken.2

/-- Blocks in use never overlap, stay inside the heap, and start where they were asked to, whatever
was allocated and deallocated before. -/
theorem blocks_apart (positive : 0 < size) (small : size + page.size ≤ 2 ^ 33)
    (run : Run (Call page) (simpleBestFitAllocator page size) ls t) (proper : ∀ l ∈ ls, l.1.Proper) :
    ((blocks ls).Pairwise fun a b => a.offset + a.size ≤ b.offset ∨ b.offset + b.size ≤ a.offset) ∧
      ∀ b ∈ blocks ls, kMemoryAlign ∣ b.offset ∧ b.offset + b.size ≤ pageRound page size ∧
        (b.flags &&& PAGE_ALIGNED ≠ 0 → page.size ∣ b.offset) := by
  have tracks := tracks_run positive small run proper
  refine ⟨tracks.apart, ?_⟩
  intro b member
  have sound := tracks.sound b member
  exact ⟨sound.unit, tracks.inside member, sound.aligned⟩

theorem blocks_apart_two_pages :
    (([⟨4096, 64, 1⟩] : List Block).Pairwise fun a b =>
      a.offset + a.size ≤ b.offset ∨ b.offset + b.size ≤ a.offset) ∧
      ∀ b ∈ ([⟨4096, 64, 1⟩] : List Block), kMemoryAlign ∣ b.offset ∧
        b.offset + b.size ≤ pageRound fourKiB 8000 ∧
        (b.flags &&& PAGE_ALIGNED ≠ 0 → 4096 ∣ b.offset) :=
  blocks_apart (by decide) (by decide +kernel) two_pages_run two_pages_proper

/-- A request fails exactly if every position it could start at runs into a block in use, whatever
was allocated and deallocated before. -/
theorem allocate_fails_iff {request flags : ℕ} (positive : 0 < size)
    (small : size + page.size ≤ 2 ^ 33)
    (run : Run (Call page) (simpleBestFitAllocator page size) ls t) (proper : ∀ l ∈ ls, l.1.Proper)
    (some : 0 < request) (word : request + kMemoryAlign ≤ 2 ^ 64) :
    (allocate page t request flags).1 = NO_MEMORY ↔
      ∀ o, kMemoryAlign ∣ o → (flags &&& PAGE_ALIGNED ≠ 0 → page.size ∣ o) →
        o + request ≤ pageRound page size →
        ∃ b ∈ blocks ls, o < b.offset + b.size ∧ b.offset < o + request := by
  have tracks := tracks_run positive small run proper
  have whole := tracks.heap
  have units := units_bounds word
  have align : kMemoryAlign ∣ pageRound page size :=
    page.align_dvd.trans (pageRound_bounds (by omega)).2.2
  rw [alloc_fails_iff tracks.wf some, tracks.wf.no_room_iff (units_pos some word), whole]
  constructor
  · intro blocked o unit aligned inside
    obtain ⟨u, rfl⟩ := unit
    rw [Nat.mul_comm] at inside aligned
    have inside' : u + Binder.units request ≤ pageRound page size / kMemoryAlign := by
      rw [kMemoryAlign] at *
      omega
    obtain ⟨c, member, left, right⟩ := blocked u aligned inside'
    obtain ⟨b, inUse, rfl⟩ := List.mem_map.mp (tracks.same.symm.subset member)
    have bytes := tracks.bytes inUse
    refine ⟨b, inUse, ?_⟩
    rw [kMemoryAlign] at *
    omega
  · intro blocked u aligned inside
    have inside' : u * kMemoryAlign + request ≤ pageRound page size := by
      rw [kMemoryAlign] at *
      omega
    obtain ⟨b, inUse, left, right⟩ := blocked _ (Nat.dvd_mul_left ..) aligned inside'
    have bytes := tracks.bytes inUse
    refine ⟨b.chunk, tracks.same.subset (List.mem_map_of_mem inUse), ?_⟩
    rw [kMemoryAlign] at *
    omega

theorem allocate_fails_iff_two_pages :
    (allocate fourKiB
      ⟨[⟨0, 128, true⟩, ⟨128, 2, false⟩, ⟨130, 126, true⟩], 8192⟩ 4097 0).1 = NO_MEMORY ↔
      ∀ o, kMemoryAlign ∣ o → (0 &&& PAGE_ALIGNED ≠ 0 → 4096 ∣ o) →
        o + 4097 ≤ pageRound fourKiB 8000 →
        ∃ b ∈ ([⟨4096, 64, 1⟩] : List Block), o < b.offset + b.size ∧ b.offset < o + 4097 :=
  allocate_fails_iff (by decide) (by decide +kernel) two_pages_run two_pages_proper (by decide)
    (by decide)

end Runs

end AmlCommonlib.Binder
