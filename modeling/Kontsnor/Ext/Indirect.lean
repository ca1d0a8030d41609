/-
Block allocation for any inode (`fs/ext/file.rs`).

- `getOrAllocIndirectBlock`: an inode without the extent flag. Blocks of pointers are allocated where they are missing and
  filled with zeros; a data block is not.
- `getOrAllocChunk`: by the extent flag.
- `resolveBlockRun`: the lookup that also gives the length of the run.
-/
import Kontsnor.Ext.Resolve

namespace Kontsnor.Ext

def ExtRawInode.setPointer (raw : ExtRawInode) (i block : ℕ) : ExtRawInode :=
  ⟨fun w => if w.1 = 10 + i then UInt32.ofNat block else raw.word w⟩

section Methods

variable {D : Type} [Store D] (P : Params) (ino : ℕ)

/-- a new block of pointers, all 0 -/
def allocateZeroed : InoM D ℕ := do
  let block ← onFs (allocateBlock P)
  onFs (writeBlocks block fun _ => 0)
  return block

/-- the block of pointers that `i_block[i]` names, allocated if there is none -/
def rootPointer (i : ℕ) : InoM D ℕ := do
  let s ← get
  let block := (rootBuf s.raw.iBlock i).toNat
  if block ≠ 0 then return block
  else
    let block ← allocateZeroed P
    modify fun s => { s with raw := s.raw.setPointer i block }
    saveCount P ino 1
    return block

/-- the data block that pointer `i` of a block of pointers names, allocated if there is none -/
def dataPointer (sib i : ℕ) : InoM D ℕ := do
  let buf ← onFs (readBlocks sib)
  let physBlock := (buf i).toNat
  if physBlock ≠ 0 then return physBlock
  else
    let physBlock ← onFs (allocateBlock P)
    onFs (writeBlocks sib (Function.update buf i (UInt32.ofNat physBlock)))
    saveCount P ino 1
    return physBlock

def getOrAllocIndirectBlock (fileBlock : ℕ) : InoM D ℕ := do
  let refsPerBlock := P.blockSize / 4
  if fileBlock < 12 then
    let s ← get
    let physBlock := (rootBuf s.raw.iBlock fileBlock).toNat
    if physBlock ≠ 0 then return physBlock
    else
      let newBlock ← onFs (allocateBlock P)
      modify fun s => { s with raw := s.raw.setPointer fileBlock newBlock }
      saveCount P ino 1
      return newBlock
  else if fileBlock - 12 < refsPerBlock then
    let sib ← rootPointer P ino 12
    dataPointer P ino sib (fileBlock - 12)
  else if fileBlock - 12 - refsPerBlock < refsPerBlock * refsPerBlock then
    let doubleIndex := fileBlock - 12 - refsPerBlock
    let dib ← rootPointer P ino 13
    let double ← onFs (readBlocks dib)
    let sib := (double (doubleIndex / refsPerBlock)).toNat
    if sib ≠ 0 then dataPointer P ino sib (doubleIndex % refsPerBlock)
    else
      let sib ← allocateZeroed P
      onFs (writeBlocks dib (Function.update double (doubleIndex / refsPerBlock) (UInt32.ofNat sib)))
      saveCount P ino 1
      dataPointer P ino sib (doubleIndex % refsPerBlock)
  else throw "Triple indirect blocks are unsupported in this phase."

def getOrAllocChunk (fileBlock count : ℕ) : InoM D (ℕ × ℕ) := do
  let s ← get
  if s.raw.isExtents then getOrAllocBlockChunk P ino fileBlock count
  else
    let phys ← getOrAllocIndirectBlock P ino fileBlock
    return (phys, 1)

def resolveBlockRun (fileBlock : ℕ) : InoM D (ℕ × ℕ) := do
  let s ← get
  match s.extentCache.get fileBlock with
  | some hit => return hit
  | none => resolveBlockFromFlagsAndBlock P s.raw fileBlock

end Methods

end Kontsnor.Ext
