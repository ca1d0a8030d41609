/-
The physical frame allocator (`memory/physical.rs`).

Three structures share the frames: the bitmap of `FrameAllocator`, the stacks of up to 16 frames that the first 32 cores
keep (`CORE_CACHES`), and the 8-bit reference counters (`FRAME_REFS`).
- `allocate`: the search of the bitmap, one 64-bit word at a time from the hint on.
- `allocateContiguous`: the search for a run, of at most 32 frames whatever was asked for.
- `allocateFrame`, `allocateContiguousFrames`, `incrementRef`, `decrementRef`, `deallocateFrame`, `drainLocalCache`:
  the functions of the module, each one step here; the core they run on is an argument.

Addresses are numbers and a frame is an address divided by the page size. The compare-and-swap loops of the counters are
the updates they make. Left out: the debug assertion on a popped frame, the statistics, and the walk over the boot page
tables in `init`, which is given the frames it finds.
-/
import Kontsnor.Core.BitScan

namespace Kontsnor.Memory

open Function

open BitScan (Bitmap isSet firstClear)

def MAX_FRAMES : ℕ := 4 * 1024 * 1024

def BITMAP_SIZE : ℕ := MAX_FRAMES / 8

def PAGE_SIZE : ℕ := 4096

def frameOf (physAddr : ℕ) : ℕ := physAddr / PAGE_SIZE

/-! ## The global allocator -/

structure FrameAllocator where
  bitmap : Bitmap
  totalFrames : ℕ
  allocatedFrames : ℕ
  nextFreeHint : ℕ
  initialized : Bool

namespace FrameAllocator

/-- all frames are in use -/
def new : FrameAllocator := ⟨fun _ => BitVec.allOnes 64, 0, 0, 0, false⟩

variable (a : FrameAllocator) (frameIndex : ℕ)

def markFree : FrameAllocator :=
  if frameIndex < MAX_FRAMES then { a with bitmap := BitScan.clear a.bitmap frameIndex } else a

def markUsed : FrameAllocator :=
  if frameIndex < MAX_FRAMES then { a with bitmap := BitScan.mark a.bitmap frameIndex } else a

def isFree : Bool :=
  if MAX_FRAMES ≤ frameIndex then false else !isSet a.bitmap frameIndex

/-- hand out one frame, and start the next search behind it -/
def take (frameIndex : ℕ) : ℕ × FrameAllocator :=
  (frameIndex * PAGE_SIZE, { a.markUsed frameIndex with
    allocatedFrames := a.allocatedFrames + 1
    nextFreeHint := (frameIndex + 1) % MAX_FRAMES })

/-- the `while searched < MAX_FRAMES` loop of `allocate`; every turn moves on by at least one frame, so there are no more
turns than frames -/
def search (a : FrameAllocator) : ℕ → ℕ → ℕ → Option (ℕ × FrameAllocator)
  | 0, _, _ => none
  | turns + 1, searched, index =>
    if searched < MAX_FRAMES then
      let advance := 64 - index % 64
      if index / 64 * 8 + 8 ≤ BITMAP_SIZE then
        match firstClear (a.bitmap (index / 64)) (index % 64) with
        | none => search a turns (searched + advance) ((index + advance) % MAX_FRAMES)
        | some freeBit =>
          let freeFrameIndex := index / 64 * 64 + freeBit
          if freeFrameIndex < MAX_FRAMES then some (a.take freeFrameIndex)
          else search a turns (searched + advance) ((index + advance) % MAX_FRAMES)
      else if a.isFree index then some (a.take index)
      else search a turns (searched + 1) ((index + 1) % MAX_FRAMES)
    else none

def allocate : Option (ℕ × FrameAllocator) :=
  if a.initialized = false then none else a.search MAX_FRAMES 0 a.nextFreeHint

/-- the first of the frames behind `index` that is not free: its distance -/
def obstacle (index count : ℕ) : Option ℕ :=
  (List.range' 1 (count - 1)).find? fun i => decide (MAX_FRAMES ≤ index + i) || !a.isFree (index + i)

/-- hand out `count` frames in a row -/
def takeRun (index count : ℕ) : ℕ × FrameAllocator :=
  let a' := (List.range count).foldl (fun a i => a.markUsed (index + i)) a
  (index * PAGE_SIZE, { a' with
    allocatedFrames := a.allocatedFrames + count
    nextFreeHint := (index + count) % MAX_FRAMES })

def searchRun (a : FrameAllocator) (count : ℕ) : ℕ → ℕ → ℕ → Option (ℕ × FrameAllocator)
  | 0, _, _ => none
  | turns + 1, searched, index =>
    if searched < MAX_FRAMES then
      if index / 64 * 8 + 8 ≤ BITMAP_SIZE ∧ firstClear (a.bitmap (index / 64)) (index % 64) = none then
        let advance := 64 - index % 64
        searchRun a count turns (searched + advance) ((index + advance) % MAX_FRAMES)
      else if a.isFree index then
        match a.obstacle index count with
        | some i => searchRun a count turns (searched + (i + 1)) ((index + (i + 1)) % MAX_FRAMES)
        | none => some (a.takeRun index count)
      else searchRun a count turns (searched + 1) ((index + 1) % MAX_FRAMES)
    else none

def allocateContiguous (count : ℕ) : Option (ℕ × FrameAllocator) :=
  if a.initialized = false ∨ count = 0 then none
  else if count = 1 then a.allocate
  else a.searchRun (min count 32) MAX_FRAMES 0 a.nextFreeHint

def deallocate (physAddr : ℕ) : FrameAllocator :=
  let frameIndex := frameOf physAddr
  if frameIndex < MAX_FRAMES ∧ a.isFree frameIndex = false then
    { a.markFree frameIndex with
      allocatedFrames := a.allocatedFrames - 1
      nextFreeHint := if frameIndex < a.nextFreeHint then frameIndex else a.nextFreeHint }
  else a

end FrameAllocator

/-! ## The module -/

/-- the statics of the module; a core cache has its top at the front -/
structure Physical where
  global : FrameAllocator
  caches : ℕ → List ℕ
  refs : ℕ → UInt8

namespace Physical

/-- `init`: free the frames of the usable regions, then reserve those of the page tables -/
def init (usableFrames pageTableFrames : List ℕ) : Physical where
  global :=
    { pageTableFrames.foldl FrameAllocator.markUsed (usableFrames.foldl FrameAllocator.markFree .new) with
      initialized := true }
  caches _ := []
  refs _ := 0

/-- the bulk allocation into an empty cache: the first frame is for the caller -/
def refill : ℕ → FrameAllocator → List ℕ → Option ℕ → Option ℕ × List ℕ × FrameAllocator
  | 0, a, cache, first => (first, cache, a)
  | n + 1, a, cache, first =>
    match a.allocate with
    | none => (first, cache, a)
    | some (f, a) =>
      match first with
      | none => refill n a cache (some f)
      | some _ =>
        if cache.length < 15 then refill n a (f :: cache) first
        else refill n (a.deallocate f) cache first

variable (s : Physical) (core : ℕ)

/-- a frame for `core`, from its cache, from the global allocator through the cache, or directly -/
def grab : Option ℕ × Physical :=
  if core < 32 then
    match s.caches core with
    | f :: rest => (some f, { s with caches := update s.caches core rest })
    | [] =>
      let (first, cache, a) := refill 8 s.global [] none
      (first, { s with global := a, caches := update s.caches core cache })
  else
    match s.global.allocate with
    | none => (none, s)
    | some (f, a) => (some f, { s with global := a })

def setRef (frame : ℕ) : Physical :=
  if frame < MAX_FRAMES then { s with refs := update s.refs frame 1 } else s

def setRefs (frame count : ℕ) : Physical :=
  (List.range count).foldl (fun s i => s.setRef (frame + i)) s

def allocateFrame : Option ℕ × Physical :=
  match s.grab core with
  | (none, s) => (none, s)
  | (some f, s) => (some f, s.setRef (frameOf f))

def allocateContiguousFrames (core count : ℕ) : Option ℕ × Physical :=
  if count = 0 then (none, s)
  else if count = 1 then s.allocateFrame core
  else
    match s.global.allocateContiguous count with
    | none => (none, s)
    | some (start, a) => (some start, setRefs { s with global := a } (frameOf start) count)

def incrementRef (physAddr : ℕ) : Physical :=
  if frameOf physAddr < MAX_FRAMES then
    { s with refs := update s.refs (frameOf physAddr) (s.refs (frameOf physAddr) + 1) }
  else s

/-- the counter goes down by one, unless it is 0 -/
def dropRef (frame : ℕ) : Physical :=
  if s.refs frame = 0 then s else { s with refs := update s.refs frame (s.refs frame - 1) }

def decrementRef (physAddr : ℕ) : UInt8 × Physical :=
  if frameOf physAddr < MAX_FRAMES then
    let s' := s.dropRef (frameOf physAddr)
    (s'.refs (frameOf physAddr), s')
  else (0, s)

/-- give the top `n` frames of a cache back to the global allocator -/
def spill : ℕ → FrameAllocator → List ℕ → List ℕ × FrameAllocator
  | n + 1, a, f :: rest => spill n (a.deallocate f) rest
  | _, a, cache => (cache, a)

/-- a frame without references goes to the cache of the core, which is made room in first, or to the global allocator -/
def reclaim (core physAddr : ℕ) : Physical :=
  if core < 32 then
    if (s.caches core).length < 16 then
      { s with caches := update s.caches core (physAddr :: s.caches core) }
    else
      let (cache, a) := spill 8 s.global (s.caches core)
      { s with global := a, caches := update s.caches core (physAddr :: cache) }
  else { s with global := s.global.deallocate physAddr }

def deallocateFrame (core physAddr : ℕ) : Physical :=
  if frameOf physAddr < MAX_FRAMES then
    if s.refs (frameOf physAddr) = 0 then s
    else
      let s' := s.dropRef (frameOf physAddr)
      if s'.refs (frameOf physAddr) ≠ 0 then s' else s'.reclaim core physAddr
  else s.reclaim core physAddr

def drainLocalCache : Physical :=
  if core < 32 then
    let (cache, a) := spill (s.caches core).length s.global (s.caches core)
    { s with global := a, caches := update s.caches core cache }
  else s

end Physical

end Kontsnor.Memory
