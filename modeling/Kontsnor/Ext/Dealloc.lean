/-
Release of blocks and inodes (`fs/ext/alloc.rs`, `fs/ext/file.rs`).

- `deallocateBlock`, `deallocateInode`: clear one bit, if it is set, and count.
- `deallocateInodeAndBlocks`: what `Drop for ExtInode` calls for an inode without links. It reads `i_block` as twelve
  block pointers, a single and a double indirect one, whatever the inode's flags say.
- `deallocateExtentNode`, `deallocateExtentTree`: what a truncation calls for an inode with the extent flag.

The errors of single releases are dropped, as in the source (`let _ =`). The entry of the inode cache that
`deallocate_inode` removes is left out. The recursion over extent nodes has the depth in the root's header as fuel.
-/
import Kontsnor.Core.Fallible
import Kontsnor.Ext.Extents

namespace Kontsnor.Ext

open Fallible (forEach)
open Words (Buffer bit clearBit)

/-! ## Model -/

/-- `is_fast_symlink`: the target is taken to be stored in `i_block` -/
def ExtRawInode.isFastSymlink (raw : ExtRawInode) : Bool := raw.isSymlink && (raw.iSize < 60 || raw.iBlocks == 0)

section Methods

variable {D : Type} [Store D] (P : Params)

/-- the descriptor and the superblock after a block of group `g` was given back -/
def giveBlock (g : ℕ) (s : ExtFileSystem D) : ExtFileSystem D :=
  { s with
    groupDescriptors := s.groupDescriptors.modify g fun gd =>
      { gd with bgFreeBlocksCount := (gd.bgFreeBlocksCount + 1) % 2 ^ 16 }
    superblock := { s.superblock with sFreeBlocksCount := add32 s.superblock.sFreeBlocksCount 1 }
    metadataDirty := true }

def deallocateBlock (blockNum : ℕ) : FsM D Unit := do
  if blockNum = 0 then return ()
  let s ← get
  let relative := sub32 blockNum s.superblock.sFirstDataBlock
  let g := relative / s.superblock.sBlocksPerGroup
  let i := relative % s.superblock.sBlocksPerGroup
  match s.groupDescriptors[g]? with
  | none => throw "Block number out of filesystem bounds"
  | some gd =>
    let bitmap ← readBlocks gd.bgBlockBitmap
    if bit bitmap i = true then
      writeBlocks gd.bgBlockBitmap (clearBit bitmap i)
      modify (giveBlock g)

/-- the descriptor and the superblock after an inode of group `g` was given back -/
def giveInode (g : ℕ) (isDir : Bool) (s : ExtFileSystem D) : ExtFileSystem D :=
  { s with
    groupDescriptors := s.groupDescriptors.modify g fun gd =>
      { gd with
        bgFreeInodesCount := (gd.bgFreeInodesCount + 1) % 2 ^ 16
        bgUsedDirsCount := if isDir then gd.bgUsedDirsCount - 1 else gd.bgUsedDirsCount }
    superblock := { s.superblock with sFreeInodesCount := add32 s.superblock.sFreeInodesCount 1 }
    metadataDirty := true }

def deallocateInode (ino : ℕ) (isDir : Bool) : FsM D Unit := do
  if ino = 0 then return ()
  let s ← get
  let g := (ino - 1) / P.inodesPerGroup
  let i := (ino - 1) % P.inodesPerGroup
  match s.groupDescriptors[g]? with
  | none => throw "Inode number out of filesystem bounds"
  | some gd =>
    let bitmap ← readBlocks gd.bgInodeBitmap
    if bit bitmap i = true then
      writeBlocks gd.bgInodeBitmap (clearBit bitmap i)
      modify (giveInode g isDir)

/-- release a block, unless it is 0; an error is dropped -/
def freeBlock (block : ℕ) : FsM D Unit := do
  if block ≠ 0 then
    let _ ← attempt (deallocateBlock block)

/-- the pointers in a block of pointers -/
def refs (buf : Buffer) : List ℕ := (List.range (P.blockSize / 4)).map fun j => (buf j).toNat

/-- read a block, release what its contents lead to, and then the block -/
def releaseBehind (block : ℕ) (inner : Buffer → FsM D Unit) : FsM D Unit := do
  match ← attempt (readBlocks block) with
  | some buf => inner buf
  | none => pure ()
  freeBlock (block % 2 ^ 32)

/-- release the blocks that a block of pointers names, and the block -/
def freeIndirect (sib : ℕ) : FsM D Unit :=
  if sib = 0 then pure () else releaseBehind sib fun buf => forEach freeBlock (refs P buf)

def freeDoubleIndirect (dib : ℕ) : FsM D Unit :=
  if dib = 0 then pure () else releaseBehind dib fun buf => forEach (freeIndirect P) (refs P buf)

variable (iBlock : Fin 15 → UInt32)

def directs : List ℕ := (List.finRange 12).map fun i => (iBlock (i.castLE (by omega))).toNat

/-- release what `i_block` names, read as direct, single and double indirect block pointers -/
def freePointers : FsM D Unit := do
  forEach freeBlock (directs iBlock)
  freeIndirect P (iBlock 12).toNat
  freeDoubleIndirect P (iBlock 13).toNat

def deallocateInodeAndBlocks (ino : ℕ) (raw : ExtRawInode) (isDir : Bool) : FsM D Unit := do
  if raw.isFastSymlink = false then freePointers P raw.iBlock
  deallocateInode P ino isDir

def Ext4Extent.blocks (e : Ext4Extent) : List ℕ := (List.range e.len).map fun b => (e.startBlock + b) % 2 ^ 32

/-- `ExtInode::deallocate_extent_node`, of a node with room for `room` entries -/
def deallocateExtentNode : ℕ → Buffer → ℕ → FsM D Unit
  | fuel, buf, room =>
    let header := readHeader buf
    if header.ehMagic ≠ 0xF30A then pure ()
    else if header.ehDepth = 0 then
      forEach (fun ext => forEach freeBlock ext.blocks) (extents buf (min header.ehEntries room))
    else
      match fuel with
      -- the source has no bound: a run that comes here is not one of its runs
      | 0 => throw "extent tree deeper than its root says"
      | fuel + 1 =>
        forEach (fun idx => releaseBehind idx.leafBlock fun child =>
          deallocateExtentNode fuel child (maxEntries P.blockSize)) (indices buf (min header.ehEntries room))

/-- the release of the blocks in `ExtInode::deallocate_extent_tree` -/
def deallocateExtentTree : FsM D Unit :=
  deallocateExtentNode P (readHeader (rootBuf iBlock)).ehDepth (rootBuf iBlock) 4

end Methods

end Kontsnor.Ext
