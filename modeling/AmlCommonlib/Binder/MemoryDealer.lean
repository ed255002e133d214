import AmlCommonlib.Lib.Masks
import AmlCommonlib.Lib.Runs
import AmlCommonlib.Lib.Tiling

/-! # The heap of a memory dealer

`SimpleBestFitAllocator` keeps one list of chunks for the whole heap, counted in units of 32 bytes,
and splits and merges them in place. `MemoryDealer` hands out `Allocation` objects over it, whose
destructors give their pages back to the kernel and their chunk back to the list.
-/

namespace AmlCommonlib.Binder

/-- `getpagesize()`, a power of two. -/
structure PageSize where
  bits : ℕ
  lower : 5 ≤ bits
  upper : bits ≤ 30

def PageSize.size (page : PageSize) : ℕ := 2 ^ page.bits

def kMemoryAlign : ℕ := 32

/-- The flag of a request for a page boundary. -/
def PAGE_ALIGNED : ℕ := 1

def NO_MEMORY : ℤ := -12
def NO_ERROR : ℤ := 0
def NAME_NOT_FOUND : ℤ := -2

/-- A `chunk_t` without its links. -/
structure Chunk where
  start : ℕ
  size : ℕ
  free : Bool
deriving DecidableEq

/-- The constructor of `chunk_t`, whose `size` is a field of 28 bits. -/
def chunkT (start size : ℕ) : Chunk := ⟨start, size % 2 ^ 28, true⟩

structure SimpleBestFitAllocator where
  mList : List Chunk
  mHeapSize : ℕ
deriving DecidableEq

/-- Rounding up to whole pages, on a `size_t`. -/
def pageRound (page : PageSize) (size : ℕ) : ℕ :=
  (size + page.size - 1) % 2 ^ 64 &&& complement 64 (page.size - 1)

/-- Rounding down to whole pages. -/
def pageFloor (page : PageSize) (offset : ℕ) : ℕ := offset &&& complement 64 (page.size - 1)

def simpleBestFitAllocator (page : PageSize) (size : ℕ) : SimpleBestFitAllocator :=
  { mList := [chunkT 0 (pageRound page size / kMemoryAlign)], mHeapSize := pageRound page size }

/-- A pointer to a chunk of the list: what is before it, nearest first, and what is after it. -/
structure Node where
  before : List Chunk
  chunk : Chunk
  after : List Chunk

def Node.toList (node : Node) : List Chunk := node.before.reverse ++ node.chunk :: node.after

/-- The units in front of the next page boundary, if the request asks for one. -/
def extra (page : PageSize) (flags start : ℕ) : ℕ :=
  if flags &&& PAGE_ALIGNED ≠ 0 then
    (2 ^ 64 - start) % 2 ^ 64 &&& (page.size / kMemoryAlign - 1)
  else 0

/-- `free_chunk` after a chunk that can hold the request. -/
def bestOf (freeChunk : Option Node) (cur : Node) : Node :=
  match freeChunk with
  | none => cur
  | some best => if cur.chunk.size < best.chunk.size then cur else best

/-- The loop of `alloc` over the list, with `free_chunk` as its accumulator. -/
def search (page : PageSize) (size flags : ℕ) (before : List Chunk) (freeChunk : Option Node) :
    List Chunk → Option Node
  | [] => freeChunk
  | cur :: next =>
    if cur.free ∧ cur.size ≥ (size + extra page flags cur.start) % 2 ^ 64 then
      if cur.size = size then some (bestOf freeChunk ⟨before, cur, next⟩)
      else search page size flags (cur :: before) (some (bestOf freeChunk ⟨before, cur, next⟩)) next
    else search page size flags (cur :: before) freeChunk next

/-- What `alloc` does with the chunk it has chosen: the list, and where the block starts. -/
def carve (page : PageSize) (size flags : ℕ) (node : Node) : List Chunk × ℕ :=
  let start := node.chunk.start
  let taken : Chunk := ⟨start, size % 2 ^ 28, false⟩
  if node.chunk.size > size then
    let extra := extra page flags start
    let front := if extra ≠ 0 then [chunkT start extra] else []
    let taken := { taken with start := start + extra }
    let tailFree := node.chunk.size - (size + extra)
    let tail := if tailFree > 0 then [chunkT (taken.start + taken.size) tailFree] else []
    (node.before.reverse ++ (front ++ taken :: tail) ++ node.after, taken.start)
  else (node.before.reverse ++ [taken] ++ node.after, start)

/-- The size of a request in units of the list, on a `size_t`. -/
def units (size : ℕ) : ℕ := (size + kMemoryAlign - 1) % 2 ^ 64 / kMemoryAlign

def alloc (page : PageSize) (s : SimpleBestFitAllocator) (size flags : ℕ) :
    ℤ × SimpleBestFitAllocator :=
  if size = 0 then (0, s)
  else
    match search page (units size) flags [] none s.mList with
    | some node =>
      let (chunks, start) := carve page (units size) flags node
      ((start * kMemoryAlign : ℕ), { s with mList := chunks })
    | none => (NO_MEMORY, s)

/-- The search of `dealloc` for the chunk with a start. -/
def findChunk (start : ℕ) (before : List Chunk) : List Chunk → Option Node
  | [] => none
  | cur :: next =>
    if cur.start = start then some ⟨before, cur, next⟩ else findChunk start (cur :: before) next

/-- The chunks up to `cur`, nearest first, after one round of the merge. -/
def mergeBack (before : List Chunk) (cur : Chunk) : List Chunk :=
  match before with
  | p :: ps =>
    if p.free ∨ cur.size = 0 then { p with size := (p.size + cur.size) % 2 ^ 28 } :: ps
    else cur :: p :: ps
  | [] => [cur]

/-- The merge of a freed chunk with its neighbours: the loop goes on while the next one is free. -/
def mergeFreed (before : List Chunk) (cur : Chunk) : List Chunk → List Chunk
  | [] => (mergeBack before cur).reverse
  | n :: next =>
    if n.free then mergeFreed (mergeBack before cur) n next
    else (mergeBack before cur).reverse ++ n :: next

def dealloc (s : SimpleBestFitAllocator) (start : ℕ) : Option SimpleBestFitAllocator :=
  match findChunk (start / kMemoryAlign) [] s.mList with
  | some node =>
    some { s with mList := mergeFreed node.before { node.chunk with free := true } node.after }
  | none => none

/-- `allocate` with its result as the `ssize_t` its callers read it as. -/
def allocate (page : PageSize) (s : SimpleBestFitAllocator) (size flags : ℕ) :
    ℤ × SimpleBestFitAllocator := alloc page s size flags

def deallocate (s : SimpleBestFitAllocator) (offset : ℕ) : ℤ × SimpleBestFitAllocator :=
  match dealloc s offset with
  | some freed => (NO_ERROR, freed)
  | none => (NAME_NOT_FOUND, s)

/-! ### The dealer and its objects -/

/-- An `Allocation` by the part of the heap that it stands for. -/
structure Allocation where
  offset : ℕ
  size : ℕ
deriving DecidableEq

/-- A dealer with the objects that are still referenced. -/
structure MemoryDealer where
  mAllocator : SimpleBestFitAllocator
  objects : List Allocation

def memoryDealer (page : PageSize) (size : ℕ) : MemoryDealer :=
  { mAllocator := simpleBestFitAllocator page size, objects := [] }

/-- The pages that `~Allocation` gives back with `madvise`: where they start and their bytes. -/
def discard (page : PageSize) (freed : Allocation) : Option (ℕ × ℕ) :=
  let freeStart := freed.offset
  let freeEnd := freeStart + freed.size
  let start := pageFloor page freeStart
  let stop := pageRound page freeEnd
  let start := if start < freeStart then freeStart else start
  let stop := if stop > freeEnd then freeEnd else stop
  let start := pageRound page start
  let stop := pageFloor page stop
  if start < stop then some (start, stop - start) else none

inductive DealerAction where
  | allocate (size : ℕ)
  /-- The last reference to an object goes away. -/
  | destroy (freed : Allocation)

/-- What an action hands out or gives back, with the status of the allocator. -/
structure Outcome where
  memory : Option Allocation := none
  discarded : Option (ℕ × ℕ) := none
  status : ℤ := NO_ERROR
deriving DecidableEq

def MemoryDealer.allocate (page : PageSize) (d : MemoryDealer) (size : ℕ) : Outcome × MemoryDealer :=
  let (offset, allocator) := Binder.allocate page d.mAllocator size 0
  if offset ≥ 0 then
    let memory : Allocation := ⟨offset.toNat, size⟩
    ({ memory := some memory }, { mAllocator := allocator, objects := memory :: d.objects })
  else ({ status := offset }, { d with mAllocator := allocator })

/-- `~Allocation`; an object of size 0 has no record in the allocator. -/
def MemoryDealer.destroy (page : PageSize) (d : MemoryDealer) (freed : Allocation) :
    Outcome × MemoryDealer :=
  let objects := d.objects.erase freed
  if freed.size ≠ 0 then
    let (status, allocator) := deallocate d.mAllocator freed.offset
    ({ discarded := discard page freed, status := status },
      { mAllocator := allocator, objects := objects })
  else ({}, { d with objects := objects })

/-- Only an object that is referenced can lose its last reference. -/
def MemoryDealer.act (page : PageSize) (d : MemoryDealer) :
    DealerAction → Option (Outcome × MemoryDealer)
  | .allocate size => some (d.allocate page size)
  | .destroy freed => if freed ∈ d.objects then some (d.destroy page freed) else none

end AmlCommonlib.Binder
