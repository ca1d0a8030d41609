/-
The consistency check of a mount (`ExtFileSystem::mount` in `fs/ext/mod.rs`).

The superblock and the group descriptors are in memory already; `checkDescriptors` is the bound check on the latter.
- `healZeroBitmaps`: a bitmap that is all zeros is filled in with the metadata of its group.
- `reserveGroup`, `scanInodes`: bitmaps are computed from scratch, into the two lists of `Mounting`. Every inode in
  use is traced: an extent tree by `traceNode`, block pointers by `tracePointers`.
- `compareBitmaps`, `heal`: if a computed bitmap differs from the one on the disk, all of them are written, with the
  counters, the superblock and the group descriptors.

The superblock and the descriptors go back to the disk in an encoding that nothing here reads again; it is a parameter
(`Encoding`). Left out: reading them, the feature checks, and the reads of the journal and of the root directory at the
end. The recursion over extent nodes has a bound on its depth, which is a parameter of the whole check: the source
returns where some bound is enough, and for a tree with a cycle none is.
-/
import Kontsnor.Ext.Resolve
import Kontsnor.Ext.Dealloc

namespace Kontsnor.Ext

open List

open Fallible (forEach)
open Words (Buffer bit setBit setBits)

/-! ## Model -/

/-- how the superblock and the group descriptors are written into blocks -/
structure Encoding where
  superblock : Superblock → Buffer → Buffer
  descriptors : List GroupDescriptor → ℕ → Buffer

/-- the state of a mount: the filesystem, the computed bitmaps, and the block of the inode table that was read last -/
structure Mounting (D : Type) where
  fs : ExtFileSystem D
  calcBlockBitmaps : List Buffer
  calcInodeBitmaps : List Buffer
  blockCacheIdx : ℕ
  blockCacheBuf : Buffer

abbrev MountM (D : Type) := EStateM String (Mounting D)

/-- the blocks of an extent, in 64 bits -/
def Ext4Extent.run (e : Ext4Extent) : List ℕ := (range e.len).map fun b => e.startBlock + b

/-- the first `n` bits that are clear -/
def countFreeBits (bitmap : Buffer) (n : ℕ) : ℕ := (range n).countP fun i => !bit bitmap i

/-- the word `i` of the first `n` bytes agrees for all `i` -/
def sameBytes (n : ℕ) (a b : Buffer) : Bool := (range (n / 4)).all fun i => a i == b i

def isPowerOf (n base : ℕ) : Bool :=
  let rec divide : ℕ → ℕ → ℕ
    | 0, n => n
    | fuel + 1, n => if n % base = 0 then divide fuel (n / base) else n
  n != 0 && divide n n == 1

variable (P : Params)

def markPhysBlock (sb : Superblock) (bitmaps : List Buffer) (physBlock : ℕ) : List Buffer :=
  if sb.sFirstDataBlock ≤ physBlock ∧ physBlock < sb.totalBlocks then
    let bGroup := (physBlock - sb.sFirstDataBlock) / sb.sBlocksPerGroup
    let localB := (physBlock - sb.sFirstDataBlock) % sb.sBlocksPerGroup
    if bGroup < bitmaps.length ∧ localB / 8 < P.blockSize then bitmaps.modify bGroup fun b => setBit b localB
    else bitmaps
  else bitmaps

/-- the blocks of group `g`, and its inodes; the last group has what is left -/
def lastOr (n g total first per : ℕ) : ℕ := if g + 1 = n then (total - first - g * per) % 2 ^ 32 else per

def itBlocks : ℕ := (P.inodesPerGroup * P.inodeSize + P.blockSize - 1) / P.blockSize % 2 ^ 32

/-- where the group descriptors start, and how many blocks they take -/
def gdtBlock : ℕ := if P.blockSize = 1024 then 2 else 1

def gdtBlocks (sb : Superblock) (n : ℕ) : ℕ := (n * sb.descSize + P.blockSize - 1) / P.blockSize

section Methods

variable {D : Type} [Store D] (P : Params) (E : Encoding)

def inMount {α : Type} (m : FsM D α) : MountM D α := fun s =>
  match m s.fs with
  | .ok a fs => .ok a { s with fs := fs }
  | .error e fs => .error e { s with fs := fs }

def checkDescriptors : FsM D Unit := do
  let s ← get
  forEach (fun gd =>
    if s.superblock.totalBlocks ≤ gd.blockBitmap P.is64bit ∨ s.superblock.totalBlocks ≤ gd.inodeBitmap P.is64bit ∨
        s.superblock.totalBlocks ≤ gd.inodeTable P.is64bit then
      throw "Metadata blocks exceed filesystem blocks count"
    else pure ()) s.groupDescriptors

/-- write the superblock (bytes 1024 to 2048 of the device) and the group descriptors back -/
def writeMetadata : FsM D Unit := do
  let s ← get
  let sbBlock := 1024 / P.blockSize
  let old ← readBlocks sbBlock
  writeBlocks sbBlock (E.superblock s.superblock old)
  forEach (fun b => writeBlocks (gdtBlock P + b) (E.descriptors s.groupDescriptors b))
    (range (gdtBlocks P s.superblock s.groupDescriptors.length))

/-- the bits behind the last block of a group are set -/
def padded (bitmap : Buffer) (n : ℕ) : Buffer := setBits bitmap n (8 * P.blockSize - n)

variable (sb : Superblock)

def groupBlocksOf (n g : ℕ) : ℕ := lastOr n g sb.totalBlocks sb.sFirstDataBlock sb.sBlocksPerGroup

def groupInodesOf (n g : ℕ) : ℕ := lastOr n g sb.sInodesCount 0 P.inodesPerGroup

def countGroup (g : ℕ) (blockBitmap inodeBitmap : Buffer) (s : ExtFileSystem D) : ExtFileSystem D :=
  let n := s.groupDescriptors.length
  let blocks := countFreeBits blockBitmap (groupBlocksOf s.superblock n g)
  let inodes := countFreeBits inodeBitmap (groupInodesOf P s.superblock n g)
  { s with
    groupDescriptors := s.groupDescriptors.modify g fun gd =>
      (gd.setFreeBlocksCount P.is64bit blocks).setFreeInodesCount P.is64bit inodes }

def countAll (blocks inodes : ℕ) (s : ExtFileSystem D) : ExtFileSystem D :=
  { s with superblock := { s.superblock.setFreeBlocks blocks with sFreeInodesCount := inodes % 2 ^ 32 } }

/-- an all-zero block bitmap, with the blocks of the group up to the end of its inode table and the padding set -/
def zeroBlockBitmap (n g : ℕ) (gd : GroupDescriptor) : Buffer :=
  let start := groupStart sb g
  let stop := min (gd.inodeTable P.is64bit + itBlocks P) sb.totalBlocks
  padded P (setBits (fun _ => 0) 0 (min (min (stop - start) sb.sBlocksPerGroup) (8 * P.blockSize)))
    (groupBlocksOf sb n g)

/-- an all-zero inode bitmap, with the first ten inodes of the first group and the padding set -/
def zeroInodeBitmap (n g : ℕ) : Buffer :=
  padded P (setBits (fun _ => 0) 0 (if g = 0 then 10 else 0)) (groupInodesOf P sb n g)

def writeWhen (changed : Bool) (block : ℕ) (buf : Buffer) : FsM D Unit :=
  if changed then writeBlocks block buf else pure ()

/-- fill in the bitmaps of a group that are all zeros; whether any was -/
def healGroup (g : ℕ) : FsM D Bool := do
  let s ← get
  let n := s.groupDescriptors.length
  let gd := s.groupDescriptors.getD g default
  let blockBitmap ← readBlocks (gd.blockBitmap P.is64bit)
  let inodeBitmap ← readBlocks (gd.inodeBitmap P.is64bit)
  let noBlocks := sameBytes P.blockSize blockBitmap fun _ => 0
  let noInodes := sameBytes P.blockSize inodeBitmap fun _ => 0
  let blockBitmap' := if noBlocks then zeroBlockBitmap P s.superblock n g gd else blockBitmap
  let inodeBitmap' := if noInodes then zeroInodeBitmap P s.superblock n g else inodeBitmap
  writeWhen noBlocks (gd.blockBitmap P.is64bit) blockBitmap'
  writeWhen noInodes (gd.inodeBitmap P.is64bit) inodeBitmap'
  modify fun s => if noBlocks || noInodes then countGroup P g blockBitmap' inodeBitmap' s else s
  return noBlocks || noInodes

/-- the groups from `g` on; whether any bitmap was filled in -/
def healGroups : List ℕ → FsM D Bool
  | [] => return false
  | g :: rest => do
    let healed ← healGroup P g
    let others ← healGroups rest
    return healed || others

def healZeroBitmaps : FsM D Unit := do
  let s ← get
  let healed ← healGroups P (range s.groupDescriptors.length)
  if healed then
    -- here the sums are over the counters of the groups, which have 16 bits without the 64-bit feature
    modify fun s => countAll (s.groupDescriptors.map fun gd => gd.freeBlocksCount P.is64bit).sum
      (s.groupDescriptors.map fun gd => gd.freeInodesCount P.is64bit).sum s
    writeMetadata P E

/-! ### Computed bitmaps -/

def mark (physBlock : ℕ) : MountM D Unit :=
  modify fun s => { s with calcBlockBitmaps := markPhysBlock P s.fs.superblock s.calcBlockBitmaps physBlock }

/-- the bitmaps, the inode table, and the copies of the superblock and of the descriptors in group `g` -/
def reserveGroup (g : ℕ) : MountM D Unit := do
  let s ← get
  let sb := s.fs.superblock
  let n := s.fs.groupDescriptors.length
  let gd := s.fs.groupDescriptors.getD g default
  mark P (gd.blockBitmap P.is64bit)
  mark P (gd.inodeBitmap P.is64bit)
  forEach (fun b => mark P (gd.inodeTable P.is64bit + b)) (range (itBlocks P))
  let start := g * sb.sBlocksPerGroup + sb.sFirstDataBlock
  let isSparse := sb.sFeatureRoCompat.testBit 0
  if !isSparse || g == 0 || g == 1 || isPowerOf g 3 || isPowerOf g 5 || isPowerOf g 7 then
    mark P start
    forEach (fun gb => mark P (start + (gb + 1))) (range (gdtBlocks P sb n))

def reserveInodes : MountM D Unit :=
  modify fun s => { s with calcInodeBitmaps := s.calcInodeBitmaps.modify 0 fun b => setBits b 0 10 }

/-- `trace_node`, of a node with room for `room` entries, down to `depth` levels below it -/
def traceNode : ℕ → Buffer → ℕ → MountM D Unit
  | depth, buf, room =>
    let header := readHeader buf
    if header.ehMagic ≠ 0xF30A then pure ()
    else if header.ehDepth = 0 then
      forEach (fun ext => forEach (mark P) ext.run) (extents buf (min header.ehEntries room))
    else
      match depth with
      | 0 => throw "Extent tree is too deep"
      | depth + 1 =>
        forEach (fun idx => do
          mark P idx.leafBlock
          match ← attempt (inMount (readBlocks idx.leafBlock)) with
          | some child => traceNode depth child (maxEntries P.blockSize)
          | none => pure ()) (indices buf (min header.ehEntries room))

/-- a block of pointers: mark it, and hand its pointers on -/
def traceBehind (block : ℕ) (inner : ℕ → MountM D Unit) : MountM D Unit := do
  let s ← get
  if block ≠ 0 ∧ block < s.fs.superblock.totalBlocks then
    mark P block
    match ← attempt (inMount (readBlocks block)) with
    | some buf => forEach inner (refs P buf)
    | none => pure ()

def tracePointers (iBlock : Fin 15 → UInt32) : MountM D Unit := do
  forEach (mark P) (directs iBlock)
  traceBehind P (iBlock 12).toNat (mark P)
  traceBehind P (iBlock 13).toNat fun sib => traceBehind P sib (mark P)

/-- the inode is in use: mark its bit and trace its blocks -/
def traceInode (depth ino : ℕ) (raw : ExtRawInode) : MountM D Unit := do
  let iIdx := (ino - 1) % P.inodesPerGroup
  modify fun s => { s with
    calcInodeBitmaps := s.calcInodeBitmaps.modify ((ino - 1) / P.inodesPerGroup) fun b =>
      if iIdx / 8 < P.blockSize then setBit b iIdx else b }
  if raw.isExtents then traceNode P depth (rootBuf raw.iBlock) 4
  else tracePointers P raw.iBlock

/-- read a block of the inode table, unless it is the one read last -/
def fetchTable (block : ℕ) : MountM D Unit := do
  let s ← get
  if s.blockCacheIdx ≠ block then
    let buf ← inMount (readBlocks block)
    modify fun s => { s with blockCacheIdx := block, blockCacheBuf := buf }

/-- one turn of the scan over the inodes; the source leaves the loop at the first inode without a group, and there
are only such inodes behind it -/
def scanInode (depth ino : ℕ) : MountM D Unit := do
  let s ← get
  match s.fs.groupDescriptors[(ino - 1) / P.inodesPerGroup]? with
  | none => pure ()
  | some gd =>
    fetchTable (inodeBlock P gd ino)
    let s ← get
    let raw := readRawInode P s.blockCacheBuf (inodeOffset P ino % P.blockSize)
    if 0 < raw.iLinksCount ∧ raw.iMode ≠ 0 then traceInode P depth ino raw

variable (depth : ℕ)

def scanInodes : MountM D Unit := do
  let s ← get
  forEach (scanInode P depth) (range' 2 (s.fs.superblock.sInodesCount - 1))

/-- the padding of the computed bitmaps of group `g` -/
def padGroup (g : ℕ) : MountM D Unit :=
  modify fun s => { s with
    calcBlockBitmaps := s.calcBlockBitmaps.modify g fun b =>
      padded P b (groupBlocksOf s.fs.superblock s.fs.groupDescriptors.length g)
    calcInodeBitmaps := s.calcInodeBitmaps.modify g fun b =>
      padded P b (groupInodesOf P s.fs.superblock s.fs.groupDescriptors.length g) }

/-- whether a bitmap on the disk differs from the computed one, in the groups from the given one on -/
def compareBitmaps (calcBlock calcInode : List Buffer) : List ℕ → FsM D Bool
  | [] => return false
  | g :: rest => do
    let s ← get
    let gd := s.groupDescriptors.getD g default
    let blockBitmap ← readBlocks (gd.blockBitmap P.is64bit)
    if !sameBytes P.blockSize blockBitmap (calcBlock.getD g fun _ => 0) then return true
    else
      let inodeBitmap ← readBlocks (gd.inodeBitmap P.is64bit)
      if !sameBytes P.blockSize inodeBitmap (calcInode.getD g fun _ => 0) then return true
      else compareBitmaps calcBlock calcInode rest

/-- write the computed bitmaps of group `g`, and count -/
def rewriteGroup (calcBlock calcInode : List Buffer) (g : ℕ) : FsM D Unit := do
  let s ← get
  let gd := s.groupDescriptors.getD g default
  writeBlocks (gd.blockBitmap P.is64bit) (calcBlock.getD g fun _ => 0)
  writeBlocks (gd.inodeBitmap P.is64bit) (calcInode.getD g fun _ => 0)
  modify (countGroup P g (calcBlock.getD g fun _ => 0) (calcInode.getD g fun _ => 0))

def heal (calcBlock calcInode : List Buffer) : FsM D Unit := do
  let s ← get
  let groups := range s.groupDescriptors.length
  forEach (rewriteGroup P calcBlock calcInode) groups
  let n := s.groupDescriptors.length
  modify (countAll
    (groups.map fun g => countFreeBits (calcBlock.getD g fun _ => 0) (groupBlocksOf s.superblock n g)).sum
    (groups.map fun g => countFreeBits (calcInode.getD g fun _ => 0) (groupInodesOf P s.superblock n g)).sum)
  writeMetadata P E

def computeBitmaps : MountM D Unit := do
  let s ← get
  forEach (reserveGroup P) (range s.fs.groupDescriptors.length)
  reserveInodes
  scanInodes P depth
  forEach (padGroup P) (range s.fs.groupDescriptors.length)

/-- the state the computation starts from -/
def blank (fs : ExtFileSystem D) : Mounting D where
  fs := fs
  calcBlockBitmaps := replicate fs.groupDescriptors.length fun _ => 0
  calcInodeBitmaps := replicate fs.groupDescriptors.length fun _ => 0
  blockCacheIdx := 0
  blockCacheBuf _ := 0

/-- compare the computed bitmaps with those on the disk, and heal if they differ -/
def settle (calcBlock calcInode : List Buffer) : FsM D Unit := do
  let s ← get
  let mismatch ← compareBitmaps P calcBlock calcInode (range s.groupDescriptors.length)
  if mismatch then heal P E calcBlock calcInode

/-- what a mount does to the disk once the superblock and the descriptors are read -/
def mountCheck : FsM D Unit := do
  checkDescriptors P
  healZeroBitmaps P E
  let s ← get
  match computeBitmaps P depth (blank s) with
  | .error e _ => throw e
  | .ok () s' => settle P E s'.calcBlockBitmaps s'.calcInodeBitmaps

end Methods

end Kontsnor.Ext
