/-
A task with open files and mappings (`fs/file.rs`, `syscall/fs/io.rs`, `syscall/memory.rs`, and the page-fault handler). Its
descriptors are a table of `Process`, each open on a node with flags and an offset.

- `fileDescWrite`, `pwrite64`, `writev`, `ftruncate`: the ways to change the bytes behind a descriptor. The first and the last
  ask whether the descriptor is open for writing.
- `Session.mmap` and `Session.store`: a mapping, and a store to a mapped address with the page faults that it takes. A page
  shows a page of a file in the page cache, or a frame that is the task's own. A store to a page of the cache changes the
  file, or the disk behind a block device; the write-back then writes the same bytes once more.

What a page fault finds (`Access`) is given with the store, such as the reference counter of the frame. The bytes that `read`
puts into the memory of the task are stores like others, so `read` only moves the offset.
-/
import Kontsnor.Memory.AddressSpace
import Kontsnor.Process.Creds
import Kontsnor.Process.Descriptors
import Kontsnor.Fs.Calls

namespace Kontsnor.Fs

open Fallible (final value attempt)
open Memory (AddressSpace MappedRegion MappedInode MmapArgs PageFlags PAGE_SIZE protWrite)
open Process (FdTable)
open OpenFlags

/-! ## Descriptors -/

structure FileDescription where
  ino : Ino
  flags : UInt32
  offset : ℕ
  deriving DecidableEq

/-! ## Reading and writing -/

namespace FileDescription

def read (d : FileDescription) (count : ℕ) : Op FileDescription := do
  let s ← get
  if isReadable d.flags = false then fail .EBADF
  else if (s.node d.ino).isFile then
    let bytes ← Fs.read d.ino d.offset count
    pure { d with offset := d.offset + bytes.length }
  else
    let _ ← Fs.read d.ino 0 count
    pure d

def write (d : FileDescription) (bytes : List UInt8) : Op (ℕ × FileDescription) := do
  let s ← get
  if isWritable d.flags = false then fail .EBADF
  else if (s.node d.ino).isFile then
    let offset := if has d.flags O_APPEND then (s.node d.ino).data.length else d.offset
    let n ← Fs.write d.ino offset bytes
    pure (n, { d with offset := offset + n })
  else
    let n ← Fs.write d.ino 0 bytes
    pure (n, d)

end FileDescription

/-- the loop of `file_desc_write`, in chunks of a page; `left` bounds the rounds, each of which writes a byte -/
def fileDescWrite : ℕ → FileDescription → List UInt8 → ℕ → Op (ℕ × FileDescription)
  | 0, d, _, total => pure (total, d)
  | left + 1, d, bytes, total => do
    let s ← get
    if bytes = [] then pure (total, d)
    else
      let chunk := bytes.take 4096
      let result ← attempt (d.write chunk)
      match result with
      | none => if 0 < total then pure (total, d) else fail Errno.EIO
      | some (0, d') => pure (total, d')
      | some (n, d') =>
        if n < chunk.length ∧ (s.node d.ino).isFile = false then pure (total + n, d')
        else fileDescWrite left d' (bytes.drop n) (total + n)

/-- the loop of `sys_pwrite64`: the inode is written, whatever the descriptor is open for -/
def pwrite64 : ℕ → Ino → ℕ → List UInt8 → ℕ → Op ℕ
  | 0, _, _, _, total => pure total
  | left + 1, i, offset, bytes, total => do
    if bytes = [] then pure total
    else
      let chunk := bytes.take 4096
      let result ← attempt (Fs.write i offset chunk)
      match result with
      | none => if 0 < total then pure total else fail Errno.EIO
      | some 0 => pure total
      | some n =>
        if n < chunk.length then pure (total + n) else pwrite64 left i (offset + n) (bytes.drop n) (total + n)

/-- the loop of `sys_writev`; a buffer that cannot be read is `none` -/
def writev : FileDescription → List (Option (List UInt8)) → ℕ → Op (ℕ × FileDescription)
  | d, [], total => pure (total, d)
  | d, none :: _, total => if 0 < total then pure (total, d) else fail .EINVAL
  | d, some bytes :: rest, total => do
    let result ← attempt (fileDescWrite bytes.length d bytes 0)
    match result with
    | none => if 0 < total then pure (total, d) else fail Errno.EIO
    | some (n, d') => writev d' rest (total + n)

def ftruncate (d : FileDescription) (length : ℕ) : Op Unit := do
  let s ← get
  if isWritable d.flags = false then fail .EINVAL
  else if (s.node d.ino).isFile = false then fail .EINVAL
  else truncate d.ino length

/-! ## The task -/

/-- what a page shows -/
inductive Shown
  /-- the page of a file that begins at the offset, in the page cache -/
  | file (i : Ino) (offset : ℕ)
  | own
  deriving DecidableEq

structure Page where
  page : ℕ
  shown : Shown
  flags : PageFlags
  deriving DecidableEq

structure Session where
  files : Files
  creds : Process.Creds
  fds : FdTable FileDescription
  rlimit : ℕ
  space : AddressSpace
  pages : List Page

/-- what the paths of a call are resolved with -/
structure Names where
  ctx : FsContext
  umask : UInt32
  mountNs : Option (List (Mount Ino))
  mounts : List (Mount Ino)
  dentryCache : Path → Option Ino

namespace Session

def effective (s : Session) : Creds := ⟨s.creds.uids.effective, s.creds.gids.effective⟩

variable (s : Session)

def caller (n : Names) : Caller := ⟨s.effective, n.ctx, n.umask, n.mountNs, n.mounts, n.dentryCache⟩

def dirOf (dfd : ℤ) : Option Ino :=
  (s.fds.lookup dfd).bind fun d => if (s.files.node d.ino).isDir then some d.ino else none

/-- the call is made for what it does to the files -/
def onFiles {α : Type} (s : Session) (op : Op α) : Session := { s with files := final (op s.files) }

/-- a call that opens a node, and the descriptor for it -/
def openNode (flags : UInt32) (op : Op Ino) : Session :=
  let s' := s.onFiles op
  match value (op s.files) with
  | none => s'
  | some i => { s' with fds := (s.fds.allocFd s.rlimit ⟨i, flags, 0⟩ (has flags O_CLOEXEC)).2 }

/-- a call on a descriptor that may move its offset -/
def onDesc {α : Type} (s : Session) (fd : ℤ) (op : FileDescription → Op α) (after : α → FileDescription) : Session :=
  match s.fds.lookup fd with
  | none => s
  | some d =>
    let s' := s.onFiles (op d)
    match value (op d s.files) with
    | none => s'
    | some a => { s' with fds := s.fds.put fd.toNat (after a) }

/-! ### Mappings -/

/-- what `mmap` reads of the inode behind a descriptor -/
def mappedInode (d : FileDescription) : MappedInode :=
  ⟨(s.files.node d.ino).dev, d.ino, (s.files.node d.ino).fileType == .charDevice, (s.files.node d.ino).rdev⟩

/-- the arguments of `mmap` with the descriptor looked up -/
def mmapArgs (addr length prot flags : ℕ) (fd : ℤ) (offset : UInt64) : MmapArgs :=
  ⟨addr, length, prot, flags, fd, offset, (s.fds.lookup fd).map s.mappedInode⟩

def mmap (m : MmapArgs) : Session :=
  match s.space.mmap m with
  | .error _ => s
  | .ok (r, space) =>
    let firstPage := r.start / PAGE_SIZE
    let count := r.len / PAGE_SIZE
    let pages := if m.replaces then s.pages.filter fun p => !(firstPage ≤ p.page && p.page < firstPage + count)
      else s.pages
    -- the frame buffer is mapped at once
    let vram := if m.file.any (·.isDevFb0) then
        ((List.range' firstPage count).filter fun p => !pages.any (·.page == p)).map fun p =>
          ⟨p, .own, ⟨true, false, true, false⟩⟩
      else []
    { s with space := space, pages := pages ++ vram }

/-- what a page fault meets -/
structure Access where
  /-- the task or its address space is locked, so that the regions cannot be looked at -/
  locked : Bool
  /-- the reference counter of the frame -/
  refs : UInt8
  memoryOk : Bool
  readOk : Bool
  tablesOk : Bool
  deriving DecidableEq

def pageAt (addr : ℕ) : Option Page := s.pages.find? (·.page == addr / PAGE_SIZE)

variable (a : Access)

/-- demand paging: the page of a region, and whether it is copied on a write -/
def demandShown (r : MappedRegion) (pageOffset : UInt64) : Option (Shown × Bool) :=
  match r.inode with
  | some inode =>
    if inode.isDevFb0 then some (.own, false)
    else if a.readOk then
      some (.file inode.ino ((r.offset + pageOffset).toNat / PAGE_SIZE * PAGE_SIZE), !r.isShared && protWrite r.prot)
    else none
  | none => if a.memoryOk then some (.own, false) else none

variable (addr : ℕ)

def demandPage : Session :=
  match s.space.mmapRegions.find? (·.covers addr) with
  | none => s
  | some r =>
    let page := addr / PAGE_SIZE
    if (s.pageAt addr).isSome then s
    else
      match demandShown a r (UInt64.ofNat (page * PAGE_SIZE - r.start)) with
      | none => s
      | some (shown, cow) =>
        if a.tablesOk then { s with pages := s.pages ++ [⟨page, shown, Memory.Machine.demandFlags r.prot cow⟩] } else s

def setPage (page : ℕ) (shown : Shown) (flags : PageFlags) : Session :=
  { s with pages := s.pages.map fun p => if p.page == page then ⟨page, shown, flags⟩ else p }

def writeFault : Session :=
  match s.pageAt addr with
  | none => s.demandPage a addr
  | some p =>
    match p.flags.writeFault a.refs (s.space.writeAllowed a.locked addr) with
    | .allow flags => s.setPage p.page p.shown flags
    | .copy flags => if a.memoryOk then s.setPage p.page .own flags else s
    | .writable | .refuse => s

/-- the page that a store goes to, once it is writable -/
def writablePage : Option Page := (s.pageAt addr).filter (·.flags.writable)

/-- up to two faults make the page of a store writable, the first maps it and the second copies it -/
def faulted : Session :=
  let s1 := if (s.writablePage addr).isSome then s else s.writeFault a addr
  if (s1.writablePage addr).isSome then s1 else s1.writeFault a addr

/-- the file in the page cache that a store goes to, and the page of it -/
def storesTo : Option (Ino × ℕ) :=
  match s.writablePage addr with
  | some ⟨_, .file i offset, _⟩ => some (i, offset)
  | _ => none

/-- what a store does to the file behind a page -/
def put (byte : UInt8) : Session :=
  match s.storesTo addr with
  | none => s
  | some (i, offset) =>
    let files := s.files.update i fun n => n.withData (n.data.set (offset + addr % PAGE_SIZE) byte)
    { s with files := if (s.files.node i).driver = .blockDev then files.spill else files }

def store (byte : UInt8) : Session := (s.faulted a addr).put addr byte

end Session

end Kontsnor.Fs
