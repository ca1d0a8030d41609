/-
Block lookup for any inode (`fs/ext/file.rs`, `fs/ext/mod.rs`).

- `readRawInode`, `getExtInode`: the record of an inode in the inode table.
- `resolveIndirectBlockRun`: an inode without the extent flag. Twelve direct pointers, a single and a double indirect
  block; the run of adjacent blocks behind the answer goes into the one-extent cache.
- `resolveBlock`: the cache first, then by the extent flag.

Left out: the counters of `kstats` and the fields of the VFS inode that `get_ext_inode` fills in.
-/
import Kontsnor.Ext.Extents

namespace Kontsnor.Ext

open Words (Buffer)

/-! ## Model -/

/-- `read_raw_inode`: the record at a byte offset of a block, cut at the end of the block -/
def readRawInode (P : Params) (buf : Buffer) (offset : ℕ) : ExtRawInode where
  word w := if 4 * w.1 < min (min P.inodeSize 160) (P.blockSize - offset) then buf (offset / 4 + w.1) else 0

/-- the run that starts with the pointer `phys` at `index` goes on while the next pointers are the next blocks; the run
of a hole goes on while they are 0 -/
def runLength (pointer : ℕ → ℕ) (phys index limit : ℕ) : ℕ → ℕ → ℕ
  | 0, runLen => runLen
  | fuel + 1, runLen =>
    if index + runLen < limit ∧ pointer (index + runLen) = (if phys = 0 then 0 else add32 phys runLen) then
      runLength pointer phys index limit fuel (runLen + 1)
    else runLen

theorem runLength_bounds (pointer : ℕ → ℕ) (phys fuel : ℕ) {index limit runLen : ℕ} (hle : index + runLen ≤ limit)
    (h : ∀ i, 0 < i → i < runLen → pointer (index + i) = if phys = 0 then 0 else add32 phys i) :
    runLen ≤ runLength pointer phys index limit fuel runLen ∧
      index + runLength pointer phys index limit fuel runLen ≤ limit ∧
      ∀ i, 0 < i → i < runLength pointer phys index limit fuel runLen →
        pointer (index + i) = if phys = 0 then 0 else add32 phys i := by
  induction fuel generalizing runLen with
  | zero => exact ⟨le_rfl, hle, h⟩
  | succ fuel ih =>
    rw [runLength]
    by_cases hnext : index + runLen < limit ∧ pointer (index + runLen) = if phys = 0 then 0 else add32 phys runLen
    · rw [if_pos hnext]
      have hstep : ∀ i, 0 < i → i < runLen + 1 → pointer (index + i) = if phys = 0 then 0 else add32 phys i := by
        intro i h0 hi
        rcases lt_or_ge i runLen with hlt | hge
        · exact h i h0 hlt
        · have : i = runLen := by omega
          rw [this]
          exact hnext.2
      obtain ⟨h1, h2, h3⟩ := ih (by omega) hstep
      exact ⟨by omega, h2, h3⟩
    · rw [if_neg hnext]
      exact ⟨le_rfl, hle, h⟩

section Methods

variable {D : Type} [Store D] (P : Params)

/-- the byte offset of an inode in the table of its group -/
def inodeOffset (ino : ℕ) : ℕ := (ino - 1) % P.inodesPerGroup * P.inodeSize % 2 ^ 32

def inodeBlock (gd : GroupDescriptor) (ino : ℕ) : ℕ := gd.inodeTable P.is64bit + inodeOffset P ino / P.blockSize

/-- `ExtFileSystem::get_ext_inode`, up to the raw inode -/
def getExtInode (ino : ℕ) : FsM D ExtRawInode := do
  if ino = 0 then throw "Invalid inode number 0"
  else
    let s ← get
    match s.groupDescriptors[(ino - 1) / P.inodesPerGroup]? with
    | none => throw "Group descriptor index out of bounds"
    | some gd =>
      let buf ← readBlocks (inodeBlock P gd ino)
      return readRawInode P buf (inodeOffset P ino % P.blockSize)

/-- answer a lookup from the pointer at `index`, and remember the run -/
def answerPointer (pointer : ℕ → ℕ) (fileBlock index limit : ℕ) : InoM D (ℕ × ℕ) := do
  let phys := pointer index
  let runLen := runLength pointer phys index limit limit 1
  if phys ≠ 0 then modify fun s => { s with extentCache := s.extentCache.update fileBlock runLen phys }
  return (phys, runLen)

def resolveIndirectBlockRun (iBlock : Fin 15 → UInt32) (fileBlock : ℕ) : InoM D (ℕ × ℕ) := do
  let refsPerBlock := P.blockSize / 4
  if fileBlock < 12 then answerPointer (fun i => (rootBuf iBlock i).toNat) fileBlock fileBlock 12
  else if fileBlock - 12 < refsPerBlock then
    let sib := (iBlock 12).toNat
    if sib = 0 then return (0, refsPerBlock - (fileBlock - 12))
    else
      let ind ← onFs (readBlocks sib)
      answerPointer (fun i => (ind i).toNat) fileBlock (fileBlock - 12) refsPerBlock
  else if fileBlock - 12 - refsPerBlock < refsPerBlock * refsPerBlock then
    let doubleIndex := fileBlock - 12 - refsPerBlock
    let dib := (iBlock 13).toNat
    if dib = 0 then return (0, 1)
    else
      let double ← onFs (readBlocks dib)
      let sib := (double (doubleIndex / refsPerBlock)).toNat
      if sib = 0 then return (0, 1)
      else
        let ind ← onFs (readBlocks sib)
        answerPointer (fun i => (ind i).toNat) fileBlock (doubleIndex % refsPerBlock) refsPerBlock
  else throw "Triple indirect blocks are unsupported in this phase."

/-- `ExtInode::resolve_block_from_flags_and_block`, with the length of the run -/
def resolveBlockFromFlagsAndBlock (raw : ExtRawInode) (fileBlock : ℕ) : InoM D (ℕ × ℕ) :=
  if raw.isExtents then resolveExtentBlockLen P raw.iBlock fileBlock
  else resolveIndirectBlockRun P raw.iBlock fileBlock

def resolveBlock (fileBlock : ℕ) : InoM D ℕ := do
  let s ← get
  match s.extentCache.get fileBlock with
  | some (physBlock, _) => return physBlock
  | none =>
    let (physBlock, _) ← resolveBlockFromFlagsAndBlock P s.raw fileBlock
    return physBlock

end Methods

end Kontsnor.Ext
