/-
Block and inode allocation of the ext driver (`fs/ext/alloc.rs`).

`ExtFileSystem` is the mutable part of a mounted filesystem: the device, the superblock and the group descriptors in
memory. `Params` is the fixed part. The device is reached only through `read_blocks` and `write_blocks`, which move one
filesystem block; `Store` is that interface, with the error text as the failure. `Image` is a device that never fails.

- `allocateBlocksContiguous`: the scan of one bitmap is `scanLoop`, with its skip over full 64-bit chunks, its early
  stop and its longest run; the loop over the groups is `allocGroups`.
- `allocateInode`: the scan of one bitmap is `findInode`, a loop over 64-bit chunks and then one over bits.
- `writeInode`: the record of an inode is written over its place in the inode table. The errors are the source's texts.

Left out: `bg_pad`, checksums and the other fields no modelled function reads. An index past the end of a bitmap, where
the source stops with a panic, reads a zero bit; a filesystem in which a group has no more blocks than its bitmap has
bits (`Sound`) never gets there.
-/
import Kontsnor.Core.Fallible
import Kontsnor.Ext.Layout

namespace Kontsnor.Ext

open Words (Buffer bit setBit setBits full64)

/-! ## Model -/

/-- a device seen through `read_blocks` and `write_blocks` -/
class Store (D : Type) where
  readBlocks : ℕ → EStateM String D Buffer
  writeBlocks : ℕ → Buffer → EStateM String D Unit

/-- a device whose transfers never fail -/
abbrev Image := ℕ → Buffer

instance : Store Image where
  readBlocks block := fun d => .ok (d block) d
  writeBlocks block buf := fun d => .ok () (Function.update d block buf)

structure Superblock where
  sInodesCount : ℕ
  sBlocksCount : ℕ
  sFreeBlocksCount : ℕ
  sFreeBlocksCountHi : ℕ
  sFreeInodesCount : ℕ
  sFirstDataBlock : ℕ
  sBlocksPerGroup : ℕ
  sFeatureIncompat : ℕ
  sBlocksCountHi : ℕ
  sFeatureRoCompat : ℕ
  sDescSize : ℕ
deriving DecidableEq, Repr

structure GroupDescriptor where
  bgBlockBitmap : ℕ
  bgInodeBitmap : ℕ
  bgInodeTable : ℕ
  bgFreeBlocksCount : ℕ
  bgFreeBlocksCountHi : ℕ
  bgFreeInodesCount : ℕ
  bgUsedDirsCount : ℕ
  bgBlockBitmapHi : ℕ
  bgInodeBitmapHi : ℕ
  bgInodeTableHi : ℕ
  bgFreeInodesCountHi : ℕ
deriving DecidableEq, Repr, Inhabited

/-- the fields of `ExtFileSystem` that a mount fixes -/
structure Params where
  blockSize : ℕ
  inodesPerGroup : ℕ
  inodeSize : ℕ
  is64bit : Bool

structure ExtFileSystem (D : Type) where
  device : D
  superblock : Superblock
  groupDescriptors : List GroupDescriptor
  metadataDirty : Bool

/-- a method that may fail with a text and keeps the state it reached -/
abbrev FsM (D : Type) := EStateM String (ExtFileSystem D)

namespace Superblock

variable (sb : Superblock)

def has64bit : Bool := sb.sFeatureIncompat.testBit 7

def totalBlocks : ℕ :=
  if sb.has64bit then sb.sBlocksCountHi * 2 ^ 32 + sb.sBlocksCount else sb.sBlocksCount

def descSize : ℕ := if sb.has64bit ∧ 32 ≤ sb.sDescSize then sb.sDescSize else 32

def freeBlocks : ℕ :=
  if sb.has64bit then sb.sFreeBlocksCountHi * 2 ^ 32 + sb.sFreeBlocksCount else sb.sFreeBlocksCount

def setFreeBlocks (n : ℕ) : Superblock :=
  { sb with
    sFreeBlocksCount := n % 2 ^ 32
    sFreeBlocksCountHi := if sb.has64bit then n / 2 ^ 32 % 2 ^ 32 else sb.sFreeBlocksCountHi }

end Superblock

namespace GroupDescriptor

variable (gd : GroupDescriptor) (is64bit : Bool)

def freeBlocksCount : ℕ :=
  if is64bit then gd.bgFreeBlocksCountHi * 2 ^ 16 + gd.bgFreeBlocksCount else gd.bgFreeBlocksCount

def setFreeBlocksCount (n : ℕ) : GroupDescriptor :=
  { gd with
    bgFreeBlocksCount := n % 2 ^ 16
    bgFreeBlocksCountHi := if is64bit then n / 2 ^ 16 % 2 ^ 16 else gd.bgFreeBlocksCountHi }

/-- a block number of a descriptor, with its upper half if the filesystem has one -/
def wide (is64bit : Bool) (lo hi : ℕ) : ℕ := if is64bit then hi * 2 ^ 32 + lo else lo

def blockBitmap : ℕ := wide is64bit gd.bgBlockBitmap gd.bgBlockBitmapHi

def inodeBitmap : ℕ := wide is64bit gd.bgInodeBitmap gd.bgInodeBitmapHi

def inodeTable : ℕ := wide is64bit gd.bgInodeTable gd.bgInodeTableHi

def freeInodesCount : ℕ :=
  if is64bit then gd.bgFreeInodesCountHi * 2 ^ 16 + gd.bgFreeInodesCount else gd.bgFreeInodesCount

def setFreeInodesCount (n : ℕ) : GroupDescriptor :=
  { gd with
    bgFreeInodesCount := n % 2 ^ 16
    bgFreeInodesCountHi := if is64bit then n / 2 ^ 16 % 2 ^ 16 else gd.bgFreeInodesCountHi }

end GroupDescriptor

/-- the run the scan of one bitmap has found so far, and the run it is in -/
structure Scan where
  bestStart : Option ℕ
  bestLen : ℕ
  currStart : Option ℕ
  currLen : ℕ
deriving DecidableEq, Repr

def Scan.extend (s : Scan) (i : ℕ) : Scan :=
  match s.currStart with
  | none => { s with currStart := some i, currLen := 1 }
  | some _ => { s with currLen := s.currLen + 1 }

/-- the current run becomes the best one if it is longer -/
def Scan.keepBest (s : Scan) : Scan :=
  if s.bestLen < s.currLen then { s with bestStart := s.currStart, bestLen := s.currLen } else s

/-- the `while i < group_blocks` loop; each turn uses one unit of fuel and moves on by at least one bit -/
def scanLoop (bitmap : Buffer) (groupBlocks requested : ℕ) : ℕ → ℕ → Scan → Scan
  | 0, _, s => s
  | fuel + 1, i, s =>
    if i < groupBlocks then
      if s.currStart = none ∧ i + 64 ≤ groupBlocks ∧ i % 64 = 0 ∧ full64 bitmap i = true then
        scanLoop bitmap groupBlocks requested fuel (i + 64) s
      else if bit bitmap i = false then
        if (s.extend i).currLen = requested then
          { s.extend i with bestStart := (s.extend i).currStart, bestLen := (s.extend i).currLen }
        else scanLoop bitmap groupBlocks requested fuel (i + 1) (s.extend i)
      else scanLoop bitmap groupBlocks requested fuel (i + 1) { s.keepBest with currStart := none, currLen := 0 }
    else s

/-- the best run of free blocks in a group: its start and its length -/
def findRun (bitmap : Buffer) (groupBlocks requested : ℕ) : Option (ℕ × ℕ) :=
  let run := (scanLoop bitmap groupBlocks requested groupBlocks 0 ⟨none, 0, none, 0⟩).keepBest
  match run.bestStart with
  | some startIdx => if 0 < run.bestLen then some (startIdx, run.bestLen) else none
  | none => none

section Methods

variable {D : Type} [Store D] (P : Params)

def onDevice {α : Type} (m : EStateM String D α) : FsM D α := fun s =>
  match m s.device with
  | .ok a d => .ok a { s with device := d }
  | .error e d => .error e { s with device := d }

variable (block : ℕ)

def readBlocks : FsM D Buffer := onDevice (Store.readBlocks block)

theorem readBlocks_bind {α : Type} (f : Buffer → FsM Image α) (fs : ExtFileSystem Image) :
    (readBlocks block >>= f) fs = f (fs.device block) fs := rfl

def writeBlocks (buf : Buffer) : FsM D Unit := onDevice (Store.writeBlocks block buf)

export Fallible (attempt)

def groupBlocks (sb : Superblock) (numGroups g : ℕ) : ℕ :=
  if g + 1 = numGroups then sub32 (sub32 sb.sBlocksCount sb.sFirstDataBlock) (g * sb.sBlocksPerGroup)
  else sb.sBlocksPerGroup

def groupStart (sb : Superblock) (g : ℕ) : ℕ := g * sb.sBlocksPerGroup + sb.sFirstDataBlock

/-- the descriptor and the superblock after `n` blocks of group `g` were taken -/
def takeBlocks (g n : ℕ) (s : ExtFileSystem D) : ExtFileSystem D :=
  { s with
    groupDescriptors := s.groupDescriptors.modify g fun gd =>
      gd.setFreeBlocksCount P.is64bit (gd.freeBlocksCount P.is64bit - n)
    superblock := s.superblock.setFreeBlocks (s.superblock.freeBlocks - n)
    metadataDirty := true }

/-- the bitmap of group `g` was full despite its descriptor: correct the counter -/
def noFreeBlocks (g : ℕ) (s : ExtFileSystem D) : ExtFileSystem D :=
  { s with groupDescriptors := s.groupDescriptors.modify g fun gd => { gd with bgFreeBlocksCount := 0 } }

/-- the loop over the groups, from `start_group` on -/
def allocGroups (startGroup requested : ℕ) : List ℕ → FsM D (ℕ × ℕ)
  | [] => throw "No free blocks found in bitmap"
  | gOffset :: rest => do
    let s ← get
    let g := (startGroup + gOffset) % s.groupDescriptors.length
    let gd := s.groupDescriptors.getD g default
    if gd.bgFreeBlocksCount = 0 then allocGroups startGroup requested rest
    else match ← attempt (readBlocks gd.bgBlockBitmap) with
      | none => allocGroups startGroup requested rest
      | some bitmap =>
        match findRun bitmap (groupBlocks s.superblock s.groupDescriptors.length g) requested with
        | some (startIdx, bestLen) =>
          let allocLen := min bestLen requested
          writeBlocks gd.bgBlockBitmap (setBits bitmap startIdx allocLen)
          modify (takeBlocks P g allocLen)
          return ((groupStart s.superblock g + startIdx) % 2 ^ 32, allocLen)
        | none =>
          modify (noFreeBlocks g)
          allocGroups startGroup requested rest

def allocateBlocksContiguous (preferredBlock count : ℕ) : FsM D (ℕ × ℕ) := do
  let s ← get
  if s.superblock.sFreeBlocksCount = 0 then throw "No free blocks"
  let numGroups := s.groupDescriptors.length
  let requested := min (min count 128) s.superblock.sFreeBlocksCount
  if requested = 0 then throw "No free blocks"
  let startGroup :=
    if s.superblock.sFirstDataBlock < preferredBlock then
      (preferredBlock - s.superblock.sFirstDataBlock) / s.superblock.sBlocksPerGroup % numGroups
    else 0
  allocGroups P startGroup requested (List.range numGroups)

def allocateBlock : FsM D ℕ := do
  let (block, _) ← allocateBlocksContiguous P 0 1
  return block

/-- the block of the inode table that holds inode `ino`, and the word its record starts at -/
def inodePlace (gd : GroupDescriptor) (ino : ℕ) : ℕ × ℕ :=
  let offset := (ino - 1) % P.inodesPerGroup * P.inodeSize
  (gd.bgInodeTable + offset / P.blockSize, offset % P.blockSize / 4)

/-- a table block with the record that starts at word `start` overwritten -/
def storeInode (buf : Buffer) (start : ℕ) (raw : ExtRawInode) : Buffer := fun w =>
  if h : start ≤ w ∧ w < start + min P.inodeSize 160 / 4 then raw.word ⟨w - start, by omega⟩ else buf w

def writeInode (ino : ℕ) (raw : ExtRawInode) : FsM D Unit := do
  let s ← get
  match s.groupDescriptors[(ino - 1) / P.inodesPerGroup]? with
  | none => throw "Group descriptor index out of bounds"
  | some gd =>
    let (block, start) := inodePlace P gd ino
    let buf ← readBlocks block
    writeBlocks block (storeInode P buf start raw)

end Methods

/-! ## Inodes -/

/-- `(!chunk).trailing_zeros()` of the 64-bit chunk at bit `i` -/
def trailingOnes64 (bitmap : Buffer) (i : ℕ) : ℕ := ((List.range 64).find? fun k => !bit bitmap (i + k)).getD 64

/-- the `while i + 64 <= group_inodes` loop: the first clear bit of the first chunk that is not full, or the bit behind
the last whole chunk -/
def candidateLoop (bitmap : Buffer) (groupInodes : ℕ) : ℕ → ℕ → ℕ
  | 0, i => i
  | fuel + 1, i =>
    if i + 64 ≤ groupInodes then
      if full64 bitmap i = false ∧ i + trailingOnes64 bitmap i < groupInodes then i + trailingOnes64 bitmap i
      else candidateLoop bitmap groupInodes fuel (i + 64)
    else i

/-- the `while i < group_inodes` loop -/
def clearLoop (bitmap : Buffer) (groupInodes : ℕ) : ℕ → ℕ → Option ℕ
  | 0, _ => none
  | fuel + 1, i =>
    if i < groupInodes then
      if bit bitmap i = false then some i else clearLoop bitmap groupInodes fuel (i + 1)
    else none

/-- the clear bit of a group that its next inode gets -/
def findInode (bitmap : Buffer) (groupInodes : ℕ) : Option ℕ :=
  clearLoop bitmap groupInodes groupInodes (candidateLoop bitmap groupInodes groupInodes 0)

section Inodes

variable {D : Type} [Store D] (P : Params)

def groupInodes (sb : Superblock) (numGroups g : ℕ) : ℕ :=
  if g + 1 = numGroups then sub32 sb.sInodesCount (g * P.inodesPerGroup) else P.inodesPerGroup

/-- the descriptor and the superblock after an inode of group `g` was taken -/
def takeInode (g : ℕ) (isDir : Bool) (s : ExtFileSystem D) : ExtFileSystem D :=
  { s with
    groupDescriptors := s.groupDescriptors.modify g fun gd =>
      { gd with
        bgFreeInodesCount := gd.bgFreeInodesCount - 1
        bgUsedDirsCount := if isDir then (gd.bgUsedDirsCount + 1) % 2 ^ 16 else gd.bgUsedDirsCount }
    superblock := { s.superblock with sFreeInodesCount := s.superblock.sFreeInodesCount - 1 }
    metadataDirty := true }

/-- the bitmap of group `g` was full despite its descriptor: correct the counter -/
def noFreeInodes (g : ℕ) (s : ExtFileSystem D) : ExtFileSystem D :=
  { s with groupDescriptors := s.groupDescriptors.modify g fun gd => { gd with bgFreeInodesCount := 0 } }

def allocInodeGroups (isDir : Bool) : List ℕ → FsM D ℕ
  | [] => throw "No free inodes found in bitmap"
  | g :: rest => do
    let s ← get
    let gd := s.groupDescriptors.getD g default
    if gd.bgFreeInodesCount = 0 then allocInodeGroups isDir rest
    else match ← attempt (readBlocks gd.bgInodeBitmap) with
      | none => allocInodeGroups isDir rest
      | some bitmap =>
        match findInode bitmap (groupInodes P s.superblock s.groupDescriptors.length g) with
        | some i =>
          writeBlocks gd.bgInodeBitmap (setBit bitmap i)
          modify (takeInode g isDir)
          return (g * P.inodesPerGroup + i + 1) % 2 ^ 32
        | none =>
          modify (noFreeInodes g)
          allocInodeGroups isDir rest

def allocateInode (isDir : Bool) : FsM D ℕ := do
  let s ← get
  if s.superblock.sFreeInodesCount = 0 then throw "No free inodes"
  allocInodeGroups P isDir (List.range s.groupDescriptors.length)

end Inodes

end Kontsnor.Ext
