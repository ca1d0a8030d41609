/-
Files of the ext driver (`fs/ext/file.rs`, `fs/ext/mod.rs`): direct reads and writes, truncation, metadata.

`Opened` is an inode in memory: the raw inode with its filesystem and extent cache, the VFS inode, the pages of the page
cache that belong to it, and its readahead state. Memory is outside of the model: `memory` is what the frame allocator will
answer, one `Grant` for each request.

- `readFile`, `writeFile`: block by block, without the page cache.
- `truncateFile`: length 0 releases the blocks; any other length only sets the size.
- `setPermissions`, `setOwner`, `incNlink`, `decNlink`, and `openInode`, which fills the VFS inode from the record on disk.

A transfer of several blocks is a loop over single ones. Errors are error numbers. Left out: locks, times, statistics, and
the pages of other inodes.
-/
import Kontsnor.Core.Bytes
import Kontsnor.Core.OrderedMap
import Kontsnor.Fs.Vfs
import Kontsnor.Ext.Dealloc
import Kontsnor.Ext.Indirect

namespace Kontsnor.Ext

open Function

open Bytes (ByteBuffer bytesOf wordsOf splice slice)
open Fallible (forEach)
open Words (low high pack)

/-! ## Fields of the raw inode -/

namespace ExtRawInode

variable (raw : ExtRawInode)

def iUid : ℕ := high (raw.word 0)

def iGid : ℕ := low (raw.word 6)

def setISize (size : ℕ) : ExtRawInode := ⟨update raw.word 1 (UInt32.ofNat size)⟩

def setIMode (mode : ℕ) : ExtRawInode := ⟨update raw.word 0 (pack mode raw.iUid)⟩

def setIUid (uid : ℕ) : ExtRawInode := ⟨update raw.word 0 (pack raw.iMode (uid % 65536))⟩

def setIGid (gid : ℕ) : ExtRawInode :=
  ⟨update raw.word 6 (pack (gid % 65536) raw.iLinksCount)⟩

def setILinksCount (n : ℕ) : ExtRawInode := ⟨update raw.word 6 (pack raw.iGid n)⟩

end ExtRawInode

/-! ## State -/

/-- the fields of the VFS `Inode` that the driver keeps; `mode` is `permissions.mode` -/
structure VfsInode where
  fileType : Fs.FileType
  size : ℕ
  mode : ℕ
  nlink : ℕ
  uid : ℕ
  gid : ℕ
  blocks : ℕ

/-- a page of the cache, with the contents of its frame -/
structure Page where
  bytes : ByteBuffer
  dirty : Bool

structure ReadaheadState where
  lastOffset : ℕ
  windowPages : ℕ
deriving DecidableEq, Repr

/-- the answer to a request for frames: what a new frame holds, and which pages were evicted for it (if clean) -/
structure Grant where
  granted : Bool
  evicted : List ℕ
  frame : ByteBuffer

structure Opened (D : Type) where
  inode : ExtInode D
  vfs : VfsInode
  pages : OrderedMap Page
  readahead : ReadaheadState
  memory : List Grant

abbrev FileM (D : Type) := EStateM ℤ (Opened D)

def EIO : ℤ := -5

def ENOMEM : ℤ := -12

section Methods

variable {D : Type} [Store D] (P : Params) (ino : ℕ)

/-- `.map_err(|_| -5)` -/
def onInode {α : Type} (m : InoM D α) : FileM D α := fun s =>
  match m s.inode with
  | .ok a i => .ok a { s with inode := i }
  | .error _ i => .error EIO { s with inode := i }

/-- the bytes of `n` blocks -/
def readRun : ℕ → ℕ → FsM D ByteBuffer
  | 0, _ => return fun _ => 0
  | n + 1, block => do
    let buf ← readBlocks block
    let rest ← readRun n (block + 1)
    return fun i => if i < P.blockSize then bytesOf buf i else rest (i - P.blockSize)

/-- write bytes over whole blocks -/
def writeRun : ℕ → ℕ → ByteBuffer → FsM D Unit
  | 0, _, _ => return ()
  | n + 1, block, bytes => do
    writeBlocks block (wordsOf bytes)
    writeRun n (block + 1) fun i => bytes (i + P.blockSize)

/-! ## Direct reads and writes -/

/-- what a read takes from one block; a hole reads as zeros -/
def readChunk (physBlock blockOffset bytesToRead : ℕ) : FileM D (List UInt8) :=
  if physBlock = 0 then pure (List.replicate bytesToRead 0)
  else do
    let buf ← onInode (onFs (readBlocks physBlock))
    return slice (bytesOf buf) blockOffset bytesToRead

/-- the loop of `read_file` -/
def readLoop (fileSize : ℕ) : ℕ → ℕ → ℕ → FileM D (List UInt8)
  | 0, _, _ => return []
  | fuel + 1, currentOffset, remaining =>
    if 0 < remaining ∧ currentOffset < fileSize then do
      let fileBlock := currentOffset / P.blockSize % 2 ^ 32
      let blockOffset := currentOffset % P.blockSize
      let physBlock ← onInode (resolveBlock P fileBlock)
      let bytesToRead := min remaining (min (P.blockSize - blockOffset) (fileSize - currentOffset))
      let chunk ← readChunk physBlock blockOffset bytesToRead
      let rest ← readLoop fileSize fuel (currentOffset + bytesToRead) (remaining - bytesToRead)
      return chunk ++ rest
    else return []

def readFile (offset len : ℕ) : FileM D (List UInt8) := do
  let s ← get
  if s.vfs.size ≤ offset then return []
  else if s.vfs.fileType = .symlink ∧ s.vfs.size < 60 then
    return slice (bytesOf (rootBuf s.inode.raw.iBlock)) offset (min len (s.vfs.size - offset))
  else readLoop P s.vfs.size len offset len

/-- `if end > vfs.size { vfs.size = end; raw.i_size = end as u32 }` -/
def growTo (target : ℕ) (s : Opened D) : Opened D :=
  if s.vfs.size < target then
    { s with vfs := { s.vfs with size := target }, inode := { s.inode with raw := s.inode.raw.setISize (target % 2 ^ 32) } }
  else s

/-- the loop of `write_file`, and the offset it ends at -/
def writeLoop : ℕ → ℕ → List UInt8 → FileM D ℕ
  | 0, currentOffset, _ => return currentOffset
  | fuel + 1, currentOffset, data =>
    if data = [] then return currentOffset
    else do
      let fileBlock := currentOffset / P.blockSize % 2 ^ 32
      let blockOffset := currentOffset % P.blockSize
      if blockOffset = 0 ∧ P.blockSize ≤ data.length then
        let chunkReq := min (data.length / P.blockSize % 2 ^ 32) 64
        let (physStart, allocCount) ← onInode (getOrAllocChunk P ino fileBlock chunkReq)
        onInode (onFs (writeRun P allocCount physStart fun i => data.getD i 0))
        writeLoop fuel (currentOffset + allocCount * P.blockSize) (data.drop (allocCount * P.blockSize))
      else
        let (physBlock, _) ← onInode (getOrAllocChunk P ino fileBlock 1)
        let bytesToWrite := min data.length (P.blockSize - blockOffset)
        let buf ← onInode (onFs (readBlocks physBlock))
        onInode (onFs (writeBlocks physBlock (wordsOf (splice (bytesOf buf) blockOffset (data.take bytesToWrite)))))
        writeLoop fuel (currentOffset + bytesToWrite) (data.drop bytesToWrite)

/-- write the record of the inode -/
def writeBack : FileM D Unit := do
  let s ← get
  onInode (onFs (writeInode P ino s.inode.raw))

/-- `vfs.blocks = raw.i_blocks`, and write the record -/
def finishWrite : FileM D Unit := do
  modify fun s => { s with vfs := { s.vfs with blocks := s.inode.raw.iBlocks } }
  writeBack P ino

def writeFile (offset : ℕ) (buf : List UInt8) : FileM D ℕ := do
  let s ← get
  if s.vfs.fileType = .symlink ∧ offset + buf.length < 60 then
    let block := wordsOf (splice (bytesOf (rootBuf s.inode.raw.iBlock)) offset buf)
    modify fun s => { s with inode := { s.inode with raw := s.inode.raw.setIBlock block } }
    modify (growTo (offset + buf.length))
    writeBack P ino
    return buf.length
  else
    let currentOffset ← writeLoop P ino buf.length offset buf
    modify (growTo currentOffset)
    finishWrite P ino
    return buf.length

/-! ## Truncation -/

def pageCacheTruncate (size : ℕ) (s : Opened D) : Opened D :=
  let alignedSize := (size + 4095) % 2 ^ 64 / 4096 * 4096
  { s with pages := s.pages.without fun offset => alignedSize ≤ offset }

def invalidateExtentCache : InoM D Unit := modify fun s => { s with extentCache := s.extentCache.invalidate }

/-- release a block, unless it is 0 -/
def releaseBlock (block : ℕ) : FsM D Unit := if block = 0 then pure () else deallocateBlock block

def releaseIndirect (sib : ℕ) : FsM D Unit :=
  if sib = 0 then pure ()
  else do
    let buf ← readBlocks sib
    forEach releaseBlock (refs P buf)
    deallocateBlock sib

def releaseDouble (dib : ℕ) : FsM D Unit :=
  if dib = 0 then pure ()
  else do
    let buf ← readBlocks dib
    forEach (releaseIndirect P) (refs P buf)
    deallocateBlock dib

/-- release what an inode without the extent flag names; a pointer is cleared when what is behind it is released -/
def releasePointers : InoM D Unit := do
  let s ← get
  onFs (forEach releaseBlock (directs s.raw.iBlock))
  modify fun s => { s with raw := s.raw.setIBlock fun w => if w < 12 then 0 else rootBuf s.raw.iBlock w }
  let s ← get
  onFs (releaseIndirect P (s.raw.iBlock 12).toNat)
  modify fun s => { s with raw := s.raw.setPointer 12 0 }
  let s ← get
  onFs (releaseDouble P (s.raw.iBlock 13).toNat)
  modify fun s => { s with raw := s.raw.setPointer 13 0 }

/-- release the extent tree, and start a new one -/
def releaseExtents : InoM D Unit := do
  let s ← get
  let _ ← attempt (onFs (deallocateExtentTree P s.raw.iBlock))
  invalidateExtentCache
  modify fun s => { s with raw := s.raw.setIBlock (writeHeader (fun _ => 0) ⟨0xF30A, 0, 4, 0⟩) }

/-- release what the inode names; the target of a fast symlink stands in `i_block` -/
def releaseBlocks : InoM D Unit := do
  let s ← get
  if s.raw.isFastSymlink then return ()
  else if s.raw.isExtents then releaseExtents P
  else releasePointers P

/-- the sizes and block counts of both inodes become 0 -/
def emptied (s : Opened D) : Opened D :=
  { s with
    inode := { s.inode with raw := (s.inode.raw.setISize 0).setIBlocks 0 }
    vfs := { s.vfs with size := 0, blocks := 0 } }

/-- the sizes of both inodes change -/
def resized (size : ℕ) (s : Opened D) : Opened D :=
  { s with
    inode := { s.inode with raw := s.inode.raw.setISize (size % 2 ^ 32) }
    vfs := { s.vfs with size := size } }

def truncateFile (size : ℕ) : FileM D Unit := do
  onInode invalidateExtentCache
  modify (pageCacheTruncate size)
  if size = 0 then
    onInode (releaseBlocks P)
    modify emptied
    writeBack P ino
  else
    modify (resized size)
    writeBack P ino

/-! ## Metadata -/

def setPermissions (mode : ℕ) : FileM D Unit := do
  modify fun s =>
    let newMode := s.inode.raw.iMode / 4096 * 4096 + mode % 4096
    { s with
      inode := { s.inode with raw := s.inode.raw.setIMode newMode }
      vfs := { s.vfs with mode := newMode } }
  writeBack P ino

def setOwner (uid gid : ℕ) : FileM D Unit := do
  modify fun s => { s with
    inode := { s.inode with raw := (s.inode.raw.setIUid uid).setIGid gid }
    vfs := { s.vfs with uid := uid, gid := gid } }
  writeBack P ino

def setLinks (n : ℕ) (s : Opened D) : Opened D :=
  { s with
    inode := { s.inode with raw := s.inode.raw.setILinksCount n }
    vfs := { s.vfs with nlink := n } }

def incNlink : FileM D Unit := do
  modify fun s => setLinks (min (s.inode.raw.iLinksCount + 1) 65535) s
  writeBack P ino

def decNlink : FileM D Unit := do
  modify fun s => setLinks (s.inode.raw.iLinksCount - 1) s
  writeBack P ino

/-- the VFS inode that `get_ext_inode` fills in -/
def vfsOf (raw : ExtRawInode) : VfsInode where
  fileType := if raw.isDir then .directory else if raw.isSymlink then .symlink else .regular
  size := raw.fileSize
  mode := raw.iMode
  nlink := raw.iLinksCount
  uid := raw.iUid
  gid := raw.iGid
  blocks := raw.iBlocks

def openInode (memory : List Grant) : FsM D (Opened D) := do
  let raw ← getExtInode P ino
  let fs ← get
  return ⟨⟨fs, raw, .new⟩, vfsOf raw, [], ⟨2 ^ 64 - 1, 32⟩, memory⟩

/-- `Drop for ExtInode`: an inode without links is given back; the error is dropped -/
def dropInode (s : Opened D) : ExtFileSystem D :=
  if s.inode.raw.iLinksCount = 0 then
    Fallible.final (deallocateInodeAndBlocks P ino s.inode.raw s.inode.raw.isDir s.inode.fs)
  else s.inode.fs

end Methods

end Kontsnor.Ext
