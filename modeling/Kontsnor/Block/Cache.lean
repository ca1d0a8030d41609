/-
The block buffer cache (`drivers/block/cache.rs`).

`BlockCacheInner` is the state under the lock: the entries, the second-chance queue and the dirty counter. `BlockCache`
pairs it with the device below. The methods follow the source:
- `evictOne`: `BlockCacheInner::evict_one`. The `while` loop is `evictLoop`, with one unit of fuel for each queue
  element it may pop (`CachePolicy.lean` shows that the fuel `evictOne` gives always suffices).
- `makeRoom`: the `while let Some(..) = inner.evict_one(..)` loop with its write-backs.
- `readBlock`, `writeBlock`, `flush`: the trait methods. A buffer is the list of its bytes; a method that returns an
  error leaves the buffer's contents open, so a failed read returns no bytes.

Left out: the alignment of the buffers handed to the device (`AlignedBuffer`, `AlignedStackBuf`,
`write_device_aligned`). Each alignment case hands the same bytes to the same device method, and a failed allocation
of a bounce buffer is not modelled; `flush` has the same loop twice, with and without a staging buffer.
-/
import Kontsnor.Block.Device

namespace Kontsnor.Block

open Std (ExtTreeMap)

/-! ## Model -/

structure CacheEntry where
  data : List UInt8
  referenced : Bool
  dirty : Bool

structure BlockCacheInner where
  entries : ExtTreeMap ℕ CacheEntry
  fifoQueue : List ℕ
  dirtyCount : ℕ

structure BlockCache (D : Type) where
  inner : BlockCacheInner
  device : D

def BlockCache.new {D : Type} (device : D) : BlockCache D := ⟨⟨∅, [], 0⟩, device⟩

def evictLoop (maxBlocks : ℕ) : ℕ → BlockCacheInner → Option (ℕ × List UInt8) × BlockCacheInner
  | 0, s => (none, s)
  | fuel + 1, s =>
    if maxBlocks ≤ s.entries.size then
      match s.fifoQueue with
      | [] => (none, s)
      | b :: q =>
        match s.entries[b]? with
        | none => evictLoop maxBlocks fuel { s with fifoQueue := q }
        | some entry =>
          if entry.referenced then
            -- second chance: clear the bit and go to the back
            evictLoop maxBlocks fuel
              { s with entries := s.entries.insert b { entry with referenced := false }, fifoQueue := q ++ [b] }
          else if entry.dirty then
            (some (b, entry.data), ⟨s.entries.erase b, q, s.dirtyCount - 1⟩)
          else (none, ⟨s.entries.erase b, q, s.dirtyCount⟩)
    else (none, s)

def evictOne (maxBlocks : ℕ) (s : BlockCacheInner) : Option (ℕ × List UInt8) × BlockCacheInner :=
  evictLoop maxBlocks (2 * s.fifoQueue.length + 1) s

section Methods

variable {D : Type} (B : BlockDevice D) (maxBlocks : ℕ)

/-- call a method of the device below -/
def onDevice {α : Type} (m : DevM D α) : DevM (BlockCache D) α := fun c =>
  match m c.device with
  | .ok a d => .ok a { c with device := d }
  | .error e d => .error e { c with device := d }

variable (f : BlockCacheInner → BlockCacheInner)

def onInner : DevM (BlockCache D) Unit :=
  modify fun c => { c with inner := f c.inner }

@[simp] theorem onInner_bind {α : Type} (k : Unit → DevM (BlockCache D) α)
    (c : BlockCache D) : (onInner f >>= k) c = k () { c with inner := f c.inner } := rfl

/-- evict and write back until `evict_one` has nothing dirty to hand over -/
def makeRoomLoop : ℕ → DevM (BlockCache D) Unit
  | 0 => pure ()
  | fuel + 1 => fun c =>
    match evictOne maxBlocks c.inner with
    | (none, inner) => .ok () { c with inner := inner }
    | (some (b, data), inner) =>
      (do onDevice (B.writeBlock b data); makeRoomLoop fuel) { c with inner := inner }

def makeRoom : DevM (BlockCache D) Unit := fun c => makeRoomLoop B maxBlocks (c.inner.entries.size + 1) c

def BlockCacheInner.reference (b : ℕ) (entry : CacheEntry) (s : BlockCacheInner) : BlockCacheInner :=
  { s with entries := s.entries.insert b { entry with referenced := true } }

/-- all blocks of the range are cached: copy them out -/
def readHits (block : ℕ) : ℕ → DevM (BlockCache D) (List UInt8)
  | 0 => pure []
  | n + 1 => do
    match (← get).inner.entries[block]? with
    | some entry =>
      onInner (.reference block entry)
      return entry.data ++ (← readHits (block + 1) n)
    | none => readHits (block + 1) n  -- the `unwrap` that the hit test made safe

/-- a clean entry for a block just read -/
def BlockCacheInner.insertClean (b : ℕ) (data : List UInt8) (s : BlockCacheInner) : BlockCacheInner :=
  { s with entries := s.entries.insert b ⟨data, false, false⟩, fifoQueue := s.fifoQueue ++ [b] }

/-- step 3 of `read_block`: a cached block takes precedence over `buf`, what the device returned; a block that is not
cached is inserted from `buf` -/
def fillCache (buf : List UInt8) (block i : ℕ) : ℕ → DevM (BlockCache D) (List UInt8)
  | 0 => pure []
  | n + 1 => do
    match (← get).inner.entries[block + i]? with
    | some entry =>
      onInner (.reference (block + i) entry)
      return entry.data ++ (← fillCache buf block (i + 1) n)
    | none =>
      makeRoom B maxBlocks
      onInner (.insertClean (block + i) (chunk B.blockSize buf i))
      return chunk B.blockSize buf i ++ (← fillCache buf block (i + 1) n)

def readBlock (block len : ℕ) : DevM (BlockCache D) (List UInt8) := do
  if len % B.blockSize ≠ 0 then throw .InvalidParam
  let numBlocks := len / B.blockSize
  let c ← get
  if ∀ i < numBlocks, c.inner.entries.contains (block + i) then
    readHits block numBlocks
  else
    let buf ← onDevice (B.readBlock block len)
    fillCache B maxBlocks buf block 0 numBlocks

def BlockCacheInner.overwrite (b : ℕ) (entry : CacheEntry) (data : List UInt8) (s : BlockCacheInner) :
    BlockCacheInner :=
  { s with
    entries := s.entries.insert b ⟨data, true, true⟩
    dirtyCount := if entry.dirty then s.dirtyCount else s.dirtyCount + 1 }

/-- a dirty entry for a block that is not cached -/
def BlockCacheInner.insertDirty (b : ℕ) (data : List UInt8) (s : BlockCacheInner) : BlockCacheInner :=
  ⟨s.entries.insert b ⟨data, false, true⟩, s.fifoQueue ++ [b], s.dirtyCount + 1⟩

def writeLoop (data : List UInt8) (block i : ℕ) : ℕ → DevM (BlockCache D) Unit
  | 0 => pure ()
  | n + 1 => do
    match (← get).inner.entries[block + i]? with
    | some entry => onInner (.overwrite (block + i) entry (chunk B.blockSize data i))
    | none =>
      makeRoom B maxBlocks
      onInner (.insertDirty (block + i) (chunk B.blockSize data i))
    writeLoop data block (i + 1) n

def writeBlock (block : ℕ) (data : List UInt8) : DevM (BlockCache D) Unit := do
  if data.length % B.blockSize ≠ 0 then throw .InvalidParam
  writeLoop B maxBlocks data block 0 (data.length / B.blockSize)

/-- the numbers of the dirty blocks, ascending -/
def BlockCacheInner.dirtyBlocks (s : BlockCacheInner) : List ℕ :=
  s.entries.keys.filter fun b => match s.entries[b]? with
    | some entry => entry.dirty
    | none => false

/-- collect one chunk: the run of at most 128 consecutive blocks at the head of the list that are still cached, and
the blocks left for later chunks; `n` blocks are already in the chunk, which starts at `start` -/
def gather (s : BlockCacheInner) (start : ℕ) : ℕ → List ℕ → List (List UInt8) × List ℕ
  | _, [] => ([], [])
  | n, b :: rest =>
    if b = start + n ∧ n < 128 then
      match s.entries[b]? with
      | some entry => let (datas, left) := gather s start (n + 1) rest; (entry.data :: datas, left)
      | none => ([], if n = 0 then rest else b :: rest)
    else ([], b :: rest)

/-- clear the dirty bit of a block whose data is still what was written out -/
def BlockCacheInner.settle (b : ℕ) (data : List UInt8) (s : BlockCacheInner) : BlockCacheInner :=
  match s.entries[b]? with
  | some entry =>
    if entry.data = data ∧ entry.dirty then
      { s with entries := s.entries.insert b { entry with dirty := false }, dirtyCount := s.dirtyCount - 1 }
    else s
  | none => s

def BlockCacheInner.settleAll (start : ℕ) : List (List UInt8) → BlockCacheInner → BlockCacheInner
  | [], s => s
  | data :: datas, s => settleAll (start + 1) datas (s.settle start data)

/-- the chunks of `flush`, for the sorted dirty blocks that are left -/
def flushLoop : ℕ → List ℕ → DevM (BlockCache D) Unit
  | 0, _ => pure ()
  | _, [] => pure ()
  | fuel + 1, b :: rest => do
    let (datas, left) := gather (← get).inner b 0 (b :: rest)
    if datas ≠ [] then
      onDevice (B.writeBlock b datas.flatten)
      onInner (.settleAll b datas)
    flushLoop fuel left

def flush : DevM (BlockCache D) Unit := do
  let blocks := (← get).inner.dirtyBlocks
  flushLoop B blocks.length blocks
  onDevice B.flush

end Methods

/-! ## Runs -/

inductive Op where
  | read (block len : ℕ)
  | write (block : ℕ) (data : List UInt8)
  | flush

/-- what a call returns: the bytes read (none for a write or a flush) or the error -/
abbrev Reply := Except DriverError (List UInt8)

def reply {σ α : Type} (f : α → List UInt8) : EStateM.Result DriverError σ α → Reply × σ
  | .ok a s => (.ok (f a), s)
  | .error e s => (.error e, s)

def step {D : Type} (B : BlockDevice D) (maxBlocks : ℕ) (c : BlockCache D) : Op → Reply × BlockCache D
  | .read block len => reply id (readBlock B maxBlocks block len c)
  | .write block data => reply (fun _ => []) (writeBlock B maxBlocks block data c)
  | .flush => reply (fun _ => []) (flush B c)

def replies {D : Type} (B : BlockDevice D) (maxBlocks : ℕ) (c : BlockCache D) : List Op → List Reply
  | [] => []
  | o :: ops => (step B maxBlocks c o).1 :: replies B maxBlocks (step B maxBlocks c o).2 ops

end Kontsnor.Block
