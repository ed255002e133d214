import AmlCommonlib.Binder.BlockRuns

/-! # The objects of a memory dealer

A dealer uses its allocator properly: every object of nonzero size is a block in use and is given
back once. Objects then never share a byte, the pages that a destructor gives back to the kernel
belong to no other object, and a dealer without objects has the heap it was created with.
-/

namespace AmlCommonlib.Binder

def DealerAction.Proper : DealerAction → Prop
  | .allocate size => size + kMemoryAlign ≤ 2 ^ 64
  | .destroy _ => True

/-- An action on the dealer, labelled with its outcome. -/
def Deal (page : PageSize) (d : MemoryDealer) (l : DealerAction × Outcome) (d' : MemoryDealer) : Prop :=
  d.act page l.1 = some (l.2, d')

/-- The block that an object stands for. -/
def Allocation.block (a : Allocation) : Block := ⟨a.offset, a.size, 0⟩

/-- The blocks of the objects that have a record in the allocator. -/
def MemoryDealer.blocks (d : MemoryDealer) : List Block :=
  (d.objects.filter (·.size ≠ 0)).map Allocation.block

variable {page : PageSize} {d d' : MemoryDealer} {size : ℕ}

/-- The allocator of the dealer is in a state that calls can lead to, with the objects as its blocks
in use. -/
def Owns (page : PageSize) (size : ℕ) (d : MemoryDealer) : Prop :=
  ∃ ls, Run (Call page) (simpleBestFitAllocator page size) ls d.mAllocator ∧
    (∀ l ∈ ls, l.1.Proper) ∧ (blocks ls).Perm d.blocks

theorem blocks_snoc (ls : List (Action × ℤ)) (l : Action × ℤ) :
    blocks (ls ++ [l]) = use (blocks ls) l := by
  simp [blocks]

theorem Owns.allocate {request : ℕ} {outcome : Outcome} (owns : Owns page size d)
    (proper : request + kMemoryAlign ≤ 2 ^ 64)
    (done : d.allocate page request = (outcome, d')) : Owns page size d' := by
  obtain ⟨ls, run, all, same⟩ := owns
  rcases first : Binder.allocate page d.mAllocator request 0 with ⟨offset, allocator⟩
  have run' : Run (Call page) (simpleBestFitAllocator page size)
      (ls ++ [(.allocate request 0, offset)]) allocator :=
    Run.append_iff.mpr ⟨_, run, .cons first (.nil _)⟩
  have all' : ∀ l ∈ ls ++ [(Action.allocate request 0, offset)], l.1.Proper := by
    simp only [List.forall_mem_append, List.forall_mem_singleton]
    exact ⟨all, proper⟩
  simp only [MemoryDealer.allocate, first] at done
  refine ⟨_, ?_, all', ?_⟩
  · split_ifs at done <;> cases done <;> exact run'
  · rw [blocks_snoc, use]
    split_ifs at done with holds
    · cases done
      by_cases zero : request = 0
      · simpa [zero, MemoryDealer.blocks] using same
      · have whole : ¬(request = 0 ∨ offset < 0) := by omega
        rw [if_neg whole]
        simpa [MemoryDealer.blocks, zero, Allocation.block] using same
    · cases done
      rw [if_pos (by omega)]
      exact same

/-- The other blocks of a heap start in other units. -/
theorem Tracks.other_start {heap : ℕ} {used rest : List Block} {b c : Block}
    {s : SimpleBestFitAllocator} (tracks : Tracks page heap used s) (shape : used.Perm (b :: rest))
    (member : c ∈ rest) : c.offset / kMemoryAlign ≠ b.offset / kMemoryAlign := by
  have apart : ((b :: rest).map Block.chunk).Pairwise fun c d =>
      c.start + c.size ≤ d.start ∨ d.start + d.size ≤ c.start := by
    rw [((shape.map Block.chunk).symm.trans tracks.same).pairwise_iff Or.symm]
    exact (tracks.wf.tiles.pairwise.filter _).imp Or.inl
  have apart := (List.pairwise_cons.mp apart).1 c.chunk (List.mem_map_of_mem member)
  have first := tracks.sound b (shape.symm.subset (List.mem_cons_self ..))
  have second := tracks.sound c (shape.symm.subset (List.mem_cons_of_mem _ member))
  have := units_pos first.positive first.word
  have := units_pos second.positive second.word
  simp only [Block.chunk] at apart
  omega

theorem Owns.destroy {freed : Allocation} {outcome : Outcome} (positive : 0 < size)
    (small : size + page.size ≤ 2 ^ 33) (owns : Owns page size d) (member : freed ∈ d.objects)
    (done : d.destroy page freed = (outcome, d')) : Owns page size d' := by
  obtain ⟨ls, run, all, same⟩ := owns
  have tracks := tracks_run positive small run all
  have split := List.perm_cons_erase member
  by_cases zero : freed.size = 0
  · simp only [MemoryDealer.destroy, zero, ne_eq, not_true_eq_false, ↓reduceIte] at done
    cases done
    refine ⟨ls, run, all, same.trans ?_⟩
    have := (split.filter (·.size ≠ 0)).map Allocation.block
    simpa [MemoryDealer.blocks, zero] using this
  · rcases first : deallocate d.mAllocator freed.offset with ⟨status, allocator⟩
    simp only [MemoryDealer.destroy, zero, ne_eq, not_false_eq_true, ↓reduceIte, first] at done
    cases done
    refine ⟨ls ++ [(.deallocate freed.offset, status)],
      Run.append_iff.mpr ⟨_, run, ?_⟩, ?_, ?_⟩
    · exact .cons (show Call page _ (.deallocate freed.offset, status) _ from first) (.nil _)
    · simp only [List.forall_mem_append, List.forall_mem_singleton]
      exact ⟨all, trivial⟩
    · have shape : d.blocks.Perm (freed.block ::
          ((d.objects.erase freed).filter (·.size ≠ 0)).map Allocation.block) := by
        have := (split.filter (·.size ≠ 0)).map Allocation.block
        simpa [MemoryDealer.blocks, zero] using this
      rw [blocks_snoc, use]
      refine ((same.trans shape).filter _).trans ?_
      rw [List.filter_cons_of_neg (by simp [Allocation.block]), List.filter_eq_self.mpr]
      · exact .refl _
      · intro b inside
        simpa [Allocation.block] using tracks.other_start (same.trans shape) inside

/-! ### The pages of a destroyed object -/

section Runs

variable {ls : List (DealerAction × Outcome)}

theorem owns_run (positive : 0 < size) (small : size + page.size ≤ 2 ^ 33)
    (run : Run (Deal page) (memoryDealer page size) ls d) (proper : ∀ l ∈ ls, l.1.Proper) :
    Owns page size d := by
  refine @Run.preserves_of_labels _ _ _ (Owns page size) (fun l => l.1.Proper) ?_ _ _ _ run proper
    ⟨[], .nil _, by simp, .refl _⟩
  rintro d ⟨action, outcome⟩ d' proper owns taken
  cases action with
  | allocate request => exact owns.allocate proper (Option.some.inj taken)
  | destroy freed =>
    simp only [Deal, MemoryDealer.act] at taken
    split_ifs at taken with member
    exact owns.destroy positive small member (Option.some.inj taken)

theorem Owns.tracks (positive : 0 < size) (small : size + page.size ≤ 2 ^ 33)
    (owns : Owns page size d) : Tracks page (pageRound page size) d.blocks d.mAllocator := by
  obtain ⟨calls, inner, all, same⟩ := owns
  have tracks := tracks_run positive small inner all
  exact ⟨tracks.wf, tracks.heap, fun b member => tracks.sound b (same.symm.subset member),
    (same.symm.map _).trans tracks.same⟩

theorem mem_blocks {a : Allocation} (member : a ∈ d.objects) (some : a.size ≠ 0) :
    a.block ∈ d.blocks :=
  List.mem_map_of_mem (List.mem_filter.mpr ⟨member, by simpa using some⟩)

/-- Objects with a record in the allocator do not share a byte. -/
theorem Tracks.objects_pairwise {heap : ℕ} (tracks : Tracks page heap d.blocks d.mAllocator) :
    d.objects.Pairwise fun a b => a.size ≠ 0 → b.size ≠ 0 →
      a.offset + a.size ≤ b.offset ∨ b.offset + b.size ≤ a.offset := by
  have objects := tracks.apart
  rw [MemoryDealer.blocks, List.pairwise_map, List.pairwise_filter] at objects
  refine objects.imp ?_
  intro a b holds some some'
  exact holds (by simpa using some) (by simpa using some')

/-! ### Four pages with an object of no size, a small one and one that covers a page -/

private def pageOf4096 : PageSize := ⟨12, Nat.le_add_right 5 7, Nat.le_add_right 12 18⟩

private theorem four_pages_run : Run (Deal pageOf4096) (memoryDealer pageOf4096 16384)
    [(.allocate 0, { memory := some ⟨0, 0⟩ }), (.allocate 100, { memory := some ⟨0, 100⟩ }),
      (.allocate 9000, { memory := some ⟨128, 9000⟩ })]
    ⟨⟨[⟨0, 4, false⟩, ⟨4, 282, false⟩, ⟨286, 226, true⟩], 16384⟩, [⟨128, 9000⟩, ⟨0, 100⟩, ⟨0, 0⟩]⟩ := by
  have small : (memoryDealer pageOf4096 16384).act pageOf4096 (.allocate 0) =
      some ({ memory := some ⟨0, 0⟩ }, ⟨⟨[⟨0, 512, true⟩], 16384⟩, [⟨0, 0⟩]⟩) := by rfl
  have first : MemoryDealer.act pageOf4096 ⟨⟨[⟨0, 512, true⟩], 16384⟩, [⟨0, 0⟩]⟩ (.allocate 100) =
      some ({ memory := some ⟨0, 100⟩ },
        ⟨⟨[⟨0, 4, false⟩, ⟨4, 508, true⟩], 16384⟩, [⟨0, 100⟩, ⟨0, 0⟩]⟩) := by rfl
  have second : MemoryDealer.act pageOf4096
      ⟨⟨[⟨0, 4, false⟩, ⟨4, 508, true⟩], 16384⟩, [⟨0, 100⟩, ⟨0, 0⟩]⟩ (.allocate 9000) =
      some ({ memory := some ⟨128, 9000⟩ }, ⟨⟨[⟨0, 4, false⟩, ⟨4, 282, false⟩, ⟨286, 226, true⟩],
        16384⟩, [⟨128, 9000⟩, ⟨0, 100⟩, ⟨0, 0⟩]⟩) := by rfl
  exact .cons small (.cons first (.cons second (.nil _)))

private theorem four_pages_proper : ∀ l ∈ [(DealerAction.allocate 0,
      ({ memory := some ⟨0, 0⟩ } : Outcome)), (.allocate 100, { memory := some ⟨0, 100⟩ }),
      (.allocate 9000, { memory := some ⟨128, 9000⟩ })], l.1.Proper := by
  simp [DealerAction.Proper, kMemoryAlign]

/-! ### All actions -/

/-- Objects of nonzero size never share a byte and stay inside the heap, and without such objects
the dealer has the heap it was created with. -/
theorem objects_apart (positive : 0 < size) (small : size + page.size ≤ 2 ^ 33)
    (run : Run (Deal page) (memoryDealer page size) ls d) (proper : ∀ l ∈ ls, l.1.Proper) :
    (d.objects.Pairwise fun a b => a.size ≠ 0 → b.size ≠ 0 →
        a.offset + a.size ≤ b.offset ∨ b.offset + b.size ≤ a.offset) ∧
      (∀ a ∈ d.objects, a.size ≠ 0 → a.offset + a.size ≤ pageRound page size) ∧
      ((∀ a ∈ d.objects, a.size = 0) → d.mAllocator = simpleBestFitAllocator page size) := by
  have tracks := (owns_run positive small run proper).tracks positive small
  refine ⟨tracks.objects_pairwise, ?_, ?_⟩
  · intro a member some
    exact tracks.inside (mem_blocks member some)
  · intro empty
    have none : d.blocks = [] := by
      rw [MemoryDealer.blocks, List.filter_eq_nil_iff.mpr]
      · rfl
      · intro a member
        simpa using empty a member
    rw [none] at tracks
    exact tracks.determined (tracks_init positive small) (by simp)

theorem objects_apart_four_pages :
    (([⟨128, 9000⟩, ⟨0, 100⟩, ⟨0, 0⟩] : List Allocation).Pairwise fun a b => a.size ≠ 0 →
        b.size ≠ 0 → a.offset + a.size ≤ b.offset ∨ b.offset + b.size ≤ a.offset) ∧
      (∀ a ∈ ([⟨128, 9000⟩, ⟨0, 100⟩, ⟨0, 0⟩] : List Allocation), a.size ≠ 0 →
        a.offset + a.size ≤ pageRound pageOf4096 16384) ∧
      ((∀ a ∈ ([⟨128, 9000⟩, ⟨0, 100⟩, ⟨0, 0⟩] : List Allocation), a.size = 0) →
        (⟨[⟨0, 4, false⟩, ⟨4, 282, false⟩, ⟨286, 226, true⟩], 16384⟩ : SimpleBestFitAllocator) =
          simpleBestFitAllocator pageOf4096 16384) :=
  objects_apart (by decide) (by decide) four_pages_run four_pages_proper

end Runs

end AmlCommonlib.Binder
