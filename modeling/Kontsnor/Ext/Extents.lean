/-
The extent tree of an inode (`fs/ext/file.rs`, `fs/ext/mod.rs`): lookup and insertion.

`ExtInode` is what the methods of an inode share: the filesystem, the raw inode and the one-extent cache.
- `resolveExtentBlockLen`: the cache first, then the root in `i_block`, then node by node down to a leaf.
- `allocateExtentBlockChunk`: allocate a run, then register it. The ways to do so are the source's: extend the last
  extent of the root or insert into it (`registerInRoot`), split the root (`splitRoot`), extend an extent of a leaf
  or insert into it (`registerInLeaf`), add a leaf (`addLeaf`), grow the tree by a level (`growTree`).
- `getOrAllocBlockChunk`: look up, and allocate if there is no mapping.

The descent of a lookup is a `loop` in the source; `descend` gives it fuel for one node per block of the filesystem,
so only a tree with a cycle can run out. The recursion of an insertion is at most one level deep, since a grown tree has
an index node below its root and the insertion then gives up (`allocateExtentBlockChunk` has fuel for two levels).
-/
import Kontsnor.Ext.Alloc

namespace Kontsnor.Ext

open Words (Buffer)

/-! ## Model -/

/-- `ExtentCache`: the extent resolved last; empty if `len = 0` -/
structure ExtentCache where
  start : ℕ
  len : ℕ
  physStart : ℕ
deriving DecidableEq, Repr

namespace ExtentCache

def new : ExtentCache := ⟨0, 0, 0⟩

variable (c : ExtentCache)

def get (fileBlock : ℕ) : Option (ℕ × ℕ) :=
  if 0 < c.len ∧ c.start ≤ fileBlock ∧ fileBlock < add32 c.start c.len then
    some ((c.physStart + (fileBlock - c.start)) % 2 ^ 32, sub32 (add32 c.start c.len) fileBlock)
  else none

def update (logicalStart length physicalStart : ℕ) : ExtentCache :=
  if 0 < length then ⟨logicalStart, length, physicalStart⟩ else c

def invalidate : ExtentCache := ⟨0, 0, c.physStart⟩

end ExtentCache

structure ExtInode (D : Type) where
  fs : ExtFileSystem D
  raw : ExtRawInode
  extentCache : ExtentCache

abbrev InoM (D : Type) := EStateM String (ExtInode D)

variable (buf : Buffer)

def extents (n : ℕ) : List Ext4Extent := (List.range n).map fun i => .ofSlot (slot buf i)

def indices (n : ℕ) : List Ext4ExtentIdx := (List.range n).map fun i => .ofSlot (slot buf i)

/-- the index entry a lookup follows: the first one with the largest key up to `fileBlock` -/
def bestIdx (fileBlock : ℕ) (l : List Ext4ExtentIdx) : Option Ext4ExtentIdx :=
  l.foldl (fun best idx =>
    if idx.eiBlock ≤ fileBlock then
      match best with
      | none => some idx
      | some b => if b.eiBlock < idx.eiBlock then some idx else some b
    else best) none

/-- the position an insertion goes to: the last one with the largest key up to `fileBlock`, or 0 -/
def targetPos (fileBlock : ℕ) (l : List Ext4ExtentIdx) : ℕ :=
  (l.zipIdx.foldl (fun (pos, best) (idx, i) =>
    if idx.eiBlock ≤ fileBlock ∧ (i = 0 ∨ best ≤ idx.eiBlock) then (i, idx.eiBlock) else (pos, best)) (0, 0)).1

/-- the position of the first key above `fileBlock`, or the end -/
def insertPos (fileBlock : ℕ) (keys : List ℕ) : ℕ := keys.findIdx fun k => decide (fileBlock < k)

/-- move the entries `pos .. num` up by one, last one first -/
def shiftSlots (pos num : ℕ) : Buffer :=
  (List.range' pos (num - pos)).reverse.foldl (fun b i => setSlot b (i + 1) (slot b i)) buf

/-- how many 12-byte entries fit behind the header of a block -/
def maxEntries (blockSize : ℕ) : ℕ := (blockSize - 12) / 12

section Methods

variable {D : Type} [Store D] (P : Params) (ino : ℕ)

def onFs {α : Type} (m : FsM D α) : InoM D α := fun s =>
  match m s.fs with
  | .ok a fs => .ok a { s with fs := fs }
  | .error e fs => .error e { s with fs := fs }

theorem read_bind {α : Type} (block : ℕ) (f : Buffer → InoM Image α) (s : ExtInode Image) :
    (onFs (readBlocks block) >>= f) s = f (s.fs.device block) s := rfl

/-- answer a lookup from an extent, and remember the extent -/
def answerFrom (ext : Ext4Extent) (fileBlock : ℕ) : InoM D (ℕ × ℕ) := do
  modify fun s => { s with extentCache := s.extentCache.update ext.eeBlock ext.len ext.startBlock }
  return ((ext.startBlock + (fileBlock - ext.eeBlock)) % 2 ^ 32, sub32 (add32 ext.eeBlock ext.len) fileBlock)

/-- descend from a child block to a leaf -/
def descend (fileBlock : ℕ) : ℕ → ℕ → InoM D (ℕ × ℕ)
  | 0, _ => throw "Extent tree has a cycle"
  | fuel + 1, childBlock => do
    let buf ← onFs (readBlocks childBlock)
    let hdr := readHeader buf
    if hdr.ehMagic ≠ 0xF30A then throw "Invalid extent child header magic"
    if hdr.ehDepth = 0 then
      match (extents buf (min hdr.ehEntries (maxEntries P.blockSize))).find? (·.covers fileBlock) with
      | some ext => answerFrom ext fileBlock
      | none => if maxEntries P.blockSize < hdr.ehEntries then throw "Extent entry out of bounds" else return (0, 0)
    else if maxEntries P.blockSize < hdr.ehEntries then throw "Extent index entry out of bounds"
    else
      match bestIdx fileBlock (indices buf hdr.ehEntries) with
      | some best => descend fileBlock fuel best.leafBlock
      | none => return (0, 0)

def resolveExtentBlockLen (iBlock : Fin 15 → UInt32) (fileBlock : ℕ) : InoM D (ℕ × ℕ) := do
  let s ← get
  match s.extentCache.get fileBlock with
  | some hit => return hit
  | none =>
    let buf := rootBuf iBlock
    let hdr := readHeader buf
    if hdr.ehMagic ≠ 0xF30A then throw "Invalid extent header magic"
    if hdr.ehDepth = 0 then
      match (extents buf (min hdr.ehEntries 4)).find? (·.covers fileBlock) with
      | some ext => answerFrom ext fileBlock
      | none => return (0, 0)
    else
      match bestIdx fileBlock (indices buf (min hdr.ehEntries 4)) with
      | some best => descend P fileBlock (s.fs.superblock.sBlocksCount + 1) best.leafBlock
      | none => return (0, 0)

variable (root : Buffer) (newBlocks : ℕ)

/-- store the root and the block count in the raw inode, and write the inode -/
def saveInode : InoM D Unit := do
  modify fun s => { s with
    raw := (s.raw.setIBlock root).setIBlocks (add32 s.raw.iBlocks (P.blockSize / 512 * newBlocks % 2 ^ 32)) }
  let s ← get
  onFs (writeInode P ino s.raw)

/-- the same when the root has not changed -/
def saveCount : InoM D Unit := do
  modify fun s => { s with
    raw := s.raw.setIBlocks (add32 s.raw.iBlocks (P.blockSize / 512 * newBlocks % 2 ^ 32)) }
  let s ← get
  onFs (writeInode P ino s.raw)

/-- the run `phys .. phys + n` continues the extent, logically and physically, and the lengths add up -/
def canMerge (ext : Ext4Extent) (fileBlock phys n : ℕ) : Bool :=
  add32 ext.eeBlock ext.len == fileBlock && ext.startBlock + ext.len == phys && ext.eeLen + n ≤ 32767

def newExtent (fileBlock phys n : ℕ) : Ext4Extent := ⟨fileBlock, n % 65536, phys / 2 ^ 32 % 65536, phys % 2 ^ 32⟩

def newIdx (fileBlock block : ℕ) : Ext4ExtentIdx := ⟨fileBlock, block % 2 ^ 32, block / 2 ^ 32 % 65536⟩

/-- a node with one more entry at `pos` -/
def insertSlot (buf : Buffer) (hdr : Ext4ExtentHeader) (pos : ℕ) (s : Slot) : Buffer :=
  updateHeader (setSlot (shiftSlots buf pos hdr.ehEntries) pos s) { hdr with ehEntries := hdr.ehEntries + 1 }

section

variable (hdr : Ext4ExtentHeader)
include hdr

variable (fileBlock phys n : ℕ)

/-- a full root moves into a new leaf, with the new extent behind the old ones -/
def splitRoot : InoM D Unit := do
  let leafBlock ← onFs (allocateBlock P)
  let old : Buffer := fun w => if 3 ≤ w ∧ w < 15 then root w else 0
  let leaf := setSlot (writeHeader old ⟨0xF30A, hdr.ehEntries + 1, maxEntries P.blockSize % 65536, 0⟩) 4
    (newExtent fileBlock phys n).toSlot
  onFs (writeBlocks leafBlock leaf)
  let firstEeBlock := (Ext4Extent.ofSlot (slot leaf 0)).eeBlock
  saveInode P ino
    (setSlot (writeHeader (fun _ => 0) ⟨0xF30A, 1, 4, 1⟩) 0 (newIdx firstEeBlock leafBlock).toSlot) (1 + n)

/-- a new leaf with the new extent, and an index entry for it in the root -/
def addLeaf : InoM D Unit := do
  let newLeafBlock ← onFs (allocateBlock P)
  let leaf := setSlot (writeHeader (fun _ => 0) ⟨0xF30A, 1, maxEntries P.blockSize % 65536, 0⟩) 0
    (newExtent fileBlock phys n).toSlot
  onFs (writeBlocks newLeafBlock leaf)
  let pos := insertPos fileBlock ((indices root hdr.ehEntries).map Ext4ExtentIdx.eiBlock)
  saveInode P ino (insertSlot root hdr pos (newIdx fileBlock newLeafBlock).toSlot) (1 + n)

/-- the entries of a full root move into an index block, one level below a new root -/
def growTree : InoM D Unit := do
  let newIdxBlock ← onFs (allocateBlock P)
  let old : Buffer := fun w => if 3 ≤ w ∧ w < 15 then root w else 0
  let node := writeHeader old ⟨0xF30A, hdr.ehEntries, maxEntries P.blockSize % 65536, hdr.ehDepth⟩
  onFs (writeBlocks newIdxBlock node)
  let firstIdxBlock := (Ext4ExtentIdx.ofSlot (slot node 0)).eiBlock
  saveInode P ino (setSlot (writeHeader (fun _ => 0) ⟨0xF30A, 1, 4, hdr.ehDepth + 1⟩) 0
    (newIdx firstIdxBlock newIdxBlock).toSlot) 1

end

/-- the root buffer and header an insertion works on: a root without the magic number counts as an empty one -/
def openRoot (iBlock : Fin 15 → UInt32) : Buffer × Ext4ExtentHeader :=
  let buf := rootBuf iBlock
  let hdr := readHeader buf
  if hdr.ehMagic ≠ 0xF30A then (writeHeader buf ⟨0xF30A, 0, 4, 0⟩, ⟨0xF30A, 0, 4, 0⟩) else (buf, hdr)

/-- registration in a root of depth 0 -/
def registerInRoot (hdr : Ext4ExtentHeader) (fileBlock phys n : ℕ) : InoM D Unit :=
  let last := Ext4Extent.ofSlot (slot root (hdr.ehEntries - 1))
  if 0 < hdr.ehEntries ∧ canMerge last fileBlock phys n then
    saveInode P ino (setSlot root (hdr.ehEntries - 1) { last with eeLen := last.eeLen + n }.toSlot) n
  else if hdr.ehEntries < hdr.ehMax then
    let pos := insertPos fileBlock ((extents root hdr.ehEntries).map Ext4Extent.eeBlock)
    saveInode P ino (insertSlot root hdr pos (newExtent fileBlock phys n).toSlot) n
  else splitRoot P ino root hdr fileBlock phys n

/-- registration in a leaf that has room, if it has -/
def registerInLeaf (leafBlock : ℕ) (leaf : Buffer) (hdr : Ext4ExtentHeader) (fileBlock phys n : ℕ) :
    Option (InoM D Unit) :=
  match (extents leaf hdr.ehEntries).findIdx? (canMerge · fileBlock phys n) with
  | some i =>
    let ext := Ext4Extent.ofSlot (slot leaf i)
    some do
      onFs (writeBlocks leafBlock (setSlot leaf i { ext with eeLen := ext.eeLen + n }.toSlot))
      saveCount P ino n
  | none =>
    if hdr.ehEntries < hdr.ehMax then
      let pos := insertPos fileBlock ((extents leaf hdr.ehEntries).map Ext4Extent.eeBlock)
      some do
        onFs (writeBlocks leafBlock (insertSlot leaf hdr pos (newExtent fileBlock phys n).toSlot))
        saveCount P ino n
    else none

def allocateExtentBlockChunk : ℕ → ℕ → ℕ → InoM D (ℕ × ℕ)
  | 0, _, _ => throw "Extent tree grows without end"
  | fuel + 1, fileBlock, count => do
    modify fun s => { s with extentCache := s.extentCache.invalidate }
    let (newPhysStart, allocCount) ← onFs (allocateBlocksContiguous P 0 count)
    let s ← get
    let (root, rootHdr) := openRoot s.raw.iBlock
    if rootHdr.ehDepth = 0 then
      registerInRoot P ino root rootHdr fileBlock newPhysStart allocCount
      return (newPhysStart, allocCount)
    else if rootHdr.ehEntries = 0 then throw "Corrupted Ext4 extent index: 0 entries at depth >= 1"
    else
      let target := targetPos fileBlock (indices root rootHdr.ehEntries)
      let leafBlock := (Ext4ExtentIdx.ofSlot (slot root target)).leafBlock
      let leaf ← onFs (readBlocks leafBlock)
      let leafHdr := readHeader leaf
      if leafHdr.ehMagic ≠ 0xF30A then throw "Corrupted extent leaf header"
      if leafHdr.ehDepth = 0 then
        match registerInLeaf P ino leafBlock leaf leafHdr fileBlock newPhysStart allocCount with
        | some register =>
          register
          return (newPhysStart, allocCount)
        | none =>
          if rootHdr.ehEntries < rootHdr.ehMax then
            addLeaf P ino root rootHdr fileBlock newPhysStart allocCount
            return (newPhysStart, allocCount)
          else
            growTree P ino root rootHdr
            allocateExtentBlockChunk fuel fileBlock allocCount
      else throw "Ext4 extent tree maximum capacity exceeded"

/-- `ExtInode::get_or_alloc_block_chunk`, for an inode with the extent flag -/
def getOrAllocBlockChunk (fileBlock count : ℕ) : InoM D (ℕ × ℕ) := do
  let s ← get
  match ← attempt (resolveExtentBlockLen P s.raw.iBlock fileBlock) with
  | some (physBlock, len) =>
    if physBlock ≠ 0 then return (physBlock, max (min len count) 1)
    else allocateExtentBlockChunk P ino 2 fileBlock count
  | none => allocateExtentBlockChunk P ino 2 fileBlock count

end Methods

end Kontsnor.Ext
