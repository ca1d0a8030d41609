/-
Reads and writes through the page cache (`memory/page_cache.rs`, `fs/ext/file.rs`).

A page is kept under its file offset, a multiple of 4096, with the contents of its frame.
- `getOrCreatePageInner`: the page, read with `read_direct` if it is missing.
- `getOrCreatePageForWrite`: the page, marked dirty; it is not read if the caller says so or if it lies behind the end.
- `readPageCache`: a missing page is read together with those behind it, as far as the window, the end of the file and the
  run of blocks go. The run is read as one piece into adjacent frames. If there are no such frames, one page is read with
  `getOrCreatePageInner`.
- `writePageCache`: maps the blocks, in chunks of 32 to 128, and then copies the bytes page by page.

Which clean pages an eviction takes is decided by the CLOCK order over all inodes and by the reference flags; here it is an
input (`Grant.evicted`). Left out: the shards, the counters of dirty pages and concurrent callers.
-/
import Kontsnor.Ext.File

namespace Kontsnor.Ext

open Bytes (ByteBuffer splice slice)

def pageOf (offset : ℕ) : ℕ := offset / 4096 * 4096

section Methods

variable {D : Type} [Store D] (P : Params) (ino : ℕ)

/-! ## The cache -/

def pageCacheGet (offset : ℕ) : FileM D (Option Page) := do
  let s ← get
  return s.pages.get offset

def putPage (offset : ℕ) (page : Page) (s : Opened D) : Opened D := { s with pages := s.pages.insert offset page }

/-- `page_cache_insert_or_get`: the bytes under the offset afterwards -/
def pageCacheInsertOrGet (offset : ℕ) (page : Page) : FileM D ByteBuffer := do
  let s ← get
  match s.pages.get offset with
  | some existing => return existing.bytes
  | none =>
    modify (putPage offset page)
    return page.bytes

/-- the pages among `offsets` that are clean leave the cache -/
def evictClean (offsets : List ℕ) (s : Opened D) : Opened D :=
  { s with pages := s.pages.without fun offset =>
      decide (offset ∈ offsets) && (s.pages.get offset).any fun page => !page.dirty }

/-- the next answer of the frame allocator -/
def nextGrant : FileM D Grant := do
  let s ← get
  match s.memory with
  | [] => return ⟨true, [], fun _ => 0⟩
  | grant :: rest =>
    modify fun s => { s with memory := rest }
    return grant

/-- `allocate_frame`, and once more after an eviction if there was no frame -/
def allocateFrame : FileM D ByteBuffer := do
  let grant ← nextGrant
  modify (evictClean grant.evicted)
  if grant.granted then return grant.frame else throw ENOMEM

/-- the calls of `read_direct` that fill a frame -/
def fillLoop (aligned : ℕ) : ℕ → ℕ → FileM D (List UInt8)
  | 0, _ => return []
  | fuel + 1, total =>
    if total < 4096 then do
      let chunk ← readFile P (aligned + total) (4096 - total)
      if chunk = [] then return []
      else
        let rest ← fillLoop aligned fuel (total + chunk.length)
        return chunk ++ rest
    else return []

variable (offset : ℕ)

def getOrCreatePageInner : FileM D ByteBuffer := do
  match ← pageCacheGet (pageOf offset) with
  | some page => return page.bytes
  | none =>
    let _ ← allocateFrame
    let data ← fillLoop P (pageOf offset) 4096 0
    pageCacheInsertOrGet (pageOf offset) ⟨fun i => data.getD i 0, false⟩

def markDirty (s : Opened D) : Opened D :=
  match s.pages.get offset with
  | some page => putPage offset { page with dirty := true } s
  | none => s

/-- `get_or_create_page_for_write`; the frame of a page that is written in full keeps what it held -/
def getOrCreatePageForWrite (skipRead isFullPage : Bool) : FileM D Unit := do
  let s ← get
  if (s.pages.get (pageOf offset)).isSome then modify (markDirty (pageOf offset))
  else if skipRead ∨ s.vfs.size ≤ pageOf offset then
    let frame ← allocateFrame
    modify (putPage (pageOf offset) ⟨if isFullPage then frame else fun _ => 0, true⟩)
  else
    let _ ← getOrCreatePageInner P offset
    modify (markDirty (pageOf offset))

/-! ## Reads -/

/-- the window for a missing page, doubled while the reads are sequential -/
def readWindow (filePageOffset : ℕ) : FileM D ℕ := do
  let s ← get
  let windowPages :=
    if (s.readahead.lastOffset + 4096) % 2 ^ 64 = filePageOffset then min (s.readahead.windowPages * 2 % 2 ^ 32) 32 else 8
  modify fun s => { s with readahead := ⟨filePageOffset, windowPages⟩ }
  return windowPages

/-- the pages of a hole; `first` is the page that was asked for -/
def holePages (filePageOffset fileSize : ℕ) : List ℕ → Option ByteBuffer → FileM D (Option ByteBuffer)
  | [], first => return first
  | i :: rest, first =>
    let pageOffset := filePageOffset + i * 4096
    if fileSize ≤ pageOffset then return first
    else do
      match ← pageCacheGet pageOffset with
      | some page => holePages filePageOffset fileSize rest (if i = 0 then some page.bytes else first)
      | none =>
        let grant ← nextGrant
        if grant.granted then
          let bytes ← pageCacheInsertOrGet pageOffset ⟨fun _ => 0, false⟩
          holePages filePageOffset fileSize rest (if i = 0 then some bytes else first)
        else holePages filePageOffset fileSize rest first

/-- the pages of a run that was read as one piece -/
def runPages (filePageOffset fileSize : ℕ) (run : ByteBuffer) : List ℕ → ByteBuffer → FileM D ByteBuffer
  | [], first => return first
  | i :: rest, first =>
    let pageOffset := filePageOffset + i * 4096
    if fileSize ≤ pageOffset ∧ 0 < i then runPages filePageOffset fileSize run rest first
    else do
      let bytes ← pageCacheInsertOrGet pageOffset ⟨fun j => run (i * 4096 + j), false⟩
      runPages filePageOffset fileSize run rest (if i = 0 then bytes else first)

variable {α : Type} (m : FileM D α)

/-- `.map_err(|_| -5)` of an error number -/
def asIoError : FileM D α := fun s =>
  match m s with
  | .ok a s => .ok a s
  | .error _ s => .error EIO s

omit [Store D] in
theorem asIoError_maintains {m : FileM D α} {I : Opened D → Prop} {E : Opened D → Prop} {Q : α → Prop}
    (h : Fallible.Maintains I (fun _ => E) m Q) : Fallible.Maintains I (fun _ => E) (asIoError m) Q := by
  intro s hs
  have hr := h s hs
  rw [asIoError]
  cases hm : m s with
  | ok a s' =>
    rw [hm] at hr
    exact hr
  | error e s' =>
    rw [hm] at hr
    exact hr

/-- the pages of a run, if there are adjacent frames and the transfer succeeds -/
def readBatch (filePageOffset fileSize physStart batchPages : ℕ) : FileM D (Option ByteBuffer) := do
  let grant ← nextGrant
  if grant.granted then
    match ← attempt (onInode (onFs (readRun P (batchPages * 4096 / P.blockSize) physStart))) with
    | some run =>
      let cut : ByteBuffer := fun j => if filePageOffset + j < fileSize then run j else 0
      let first ← runPages filePageOffset fileSize cut (List.range batchPages) fun _ => 0
      return some first
    | none => return none
  else return none

/-- a page that is not in the cache -/
def readMissing (filePageOffset fileSize : ℕ) : FileM D ByteBuffer := do
  let windowPages ← readWindow filePageOffset
  let maxPagesToEof := (fileSize - filePageOffset + 4095) / 4096
  let targetPages := max (min windowPages maxPagesToEof) 1
  let fileBlock := filePageOffset / P.blockSize % 2 ^ 32
  let (physStart, remainingBlocks) ← onInode (resolveBlockRun P fileBlock)
  let blocksPerPage := max (4096 / P.blockSize) 1
  let pagesInExtent := if blocksPerPage ≤ remainingBlocks then remainingBlocks / blocksPerPage else 1
  let batchPages := max (min targetPages pagesInExtent) 1
  if physStart = 0 then
    match ← holePages filePageOffset fileSize (List.range batchPages) none with
    | some first => return first
    | none => throw EIO
  else
    match ← readBatch P filePageOffset fileSize physStart batchPages with
    | some first => return first
    | none =>
      modify fun s => { s with readahead := { s.readahead with windowPages := 1 } }
      asIoError (getOrCreatePageInner P filePageOffset)

def readPage (filePageOffset fileSize : ℕ) : FileM D ByteBuffer := do
  match ← pageCacheGet filePageOffset with
  | some page =>
    modify fun s => { s with readahead := { s.readahead with lastOffset := filePageOffset } }
    return page.bytes
  | none => readMissing P filePageOffset fileSize

def readPagesLoop (fileSize : ℕ) : ℕ → ℕ → ℕ → FileM D (List UInt8)
  | 0, _, _ => return []
  | fuel + 1, currentOffset, remaining =>
    if 0 < remaining ∧ currentOffset < fileSize then do
      let page ← readPage P (pageOf currentOffset) fileSize
      let pageOffset := currentOffset % 4096
      let bytesToRead := min remaining (min (4096 - pageOffset) (fileSize - currentOffset))
      let rest ← readPagesLoop fileSize fuel (currentOffset + bytesToRead) (remaining - bytesToRead)
      return slice page pageOffset bytesToRead ++ rest
    else return []

def readPageCache (offset len : ℕ) : FileM D (List UInt8) := do
  let s ← get
  if s.vfs.size ≤ offset then return [] else readPagesLoop P s.vfs.size len offset len

/-! ## Writes -/

/-- map block `b`, unless it is in the chunk `(start, count)` that was mapped last -/
def mapChunk (remainingBytes b : ℕ) : ℕ × ℕ → FileM D (ℕ × ℕ)
  | (start, count) =>
    if start ≤ b ∧ b < add32 start count then pure (start, count)
    else do
      let neededBlocks := (remainingBytes + P.blockSize - 1) / P.blockSize % 2 ^ 32
      let chunkReq := max 32 (min neededBlocks 128)
      let (_, pCount) ← onInode (getOrAllocChunk P ino b chunkReq)
      return (b, max pCount 1)

/-- the loop that maps the blocks of one page -/
def mapLoop (remainingBytes endFileBlock : ℕ) : ℕ → ℕ → ℕ × ℕ → FileM D (ℕ × ℕ)
  | 0, _, chunk => return chunk
  | fuel + 1, b, chunk =>
    if b ≤ endFileBlock then do
      let chunk ← mapChunk P ino remainingBytes b chunk
      mapLoop remainingBytes endFileBlock fuel (add32 chunk.1 chunk.2) chunk
    else return chunk

/-- copy into a page that is in the cache -/
def copyIntoPage (offset pageOffset : ℕ) (data : List UInt8) (s : Opened D) : Opened D :=
  match s.pages.get offset with
  | some page => putPage offset { page with bytes := splice page.bytes pageOffset data } s
  | none => s

/-- the part of a write that goes to one page; the result is the chunk of blocks that was mapped last -/
def writeOnePage (currentOffset : ℕ) (data : List UInt8) (chunk : ℕ × ℕ) : FileM D (ℕ × ℕ) := do
  let fileBlock := currentOffset / P.blockSize % 2 ^ 32
  let pageOffset := currentOffset % 4096
  let bytesToWrite := min data.length (4096 - pageOffset)
  let endFileBlock := (currentOffset + bytesToWrite - 1) / P.blockSize % 2 ^ 32
  let chunk ← mapLoop P ino data.length endFileBlock (endFileBlock + 1 - fileBlock) fileBlock chunk
  let s ← get
  let oldSize := s.vfs.size
  modify (growTo (currentOffset + bytesToWrite))
  let isFullPage : Bool := pageOffset = 0 && bytesToWrite = 4096
  let isNewPage : Bool := oldSize ≤ pageOf currentOffset
  asIoError (getOrCreatePageForWrite P (pageOf currentOffset) (isFullPage || isNewPage) isFullPage)
  modify (copyIntoPage (pageOf currentOffset) pageOffset (data.take bytesToWrite))
  return chunk

def writePagesLoop : ℕ → ℕ → List UInt8 → ℕ × ℕ → FileM D Unit
  | 0, _, _, _ => return ()
  | fuel + 1, currentOffset, data, chunk =>
    if data = [] then return ()
    else do
      let chunk ← writeOnePage P ino currentOffset data chunk
      let bytesToWrite := min data.length (4096 - currentOffset % 4096)
      writePagesLoop fuel (currentOffset + bytesToWrite) (data.drop bytesToWrite) chunk

def writePageCache (buf : List UInt8) : FileM D ℕ := do
  writePagesLoop P ino buf.length offset buf (0, 0)
  finishWrite P ino
  return buf.length

end Methods

end Kontsnor.Ext
