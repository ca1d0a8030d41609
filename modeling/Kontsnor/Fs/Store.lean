/-
The files of the mounted file systems and the operations of their drivers (`fs/inode.rs`, `fs/tmpfs.rs`, and `ExtInode` of
`fs/ext/mod.rs` and `fs/ext/dir.rs`).

- A node is what implements `InodeOps`: a directory or a file of tmpfs, an inode of ext, a block device, or a node of
  another driver, which has the defaults of the trait for everything that changes it.
- `Files` holds all nodes. A new node takes the number `next`; no number is used twice.
- Each operation is a function in `Op`: it returns or fails, and keeps the state it reached.

An operation of ext can fail at a transfer of the device. `troubles` says for each operation to come whether it fails before
or after the directory or the inode was changed. Looking up a name does not fail. The entries `.` and `..` are left out:
paths are normalized before they get here. The blocks behind an ext directory or file are left out here as well: what a write
to a block device makes of the nodes of ext is given (`spills`), one function for each such write to come.
-/
import Mathlib.Data.List.AList
import Kontsnor.Errno
import Kontsnor.Core.Fallible
import Kontsnor.Fs.Vfs

namespace Kontsnor.Fs

/-- a call fails with an error, or a recursion goes deeper than the kernel stack -/
inductive Failure
  | errno (e : Errno)
  | overflow
  deriving DecidableEq, Repr

abbrev Ino := ℕ

/-! ## Nodes -/

inductive Driver
  | tmpFsDir | tmpFsFile | extInode | blockDev | other
  deriving DecidableEq, Repr

structure Node where
  driver : Driver
  inode : Inode
  dev : ℕ
  rdev : ℕ
  nlink : ℕ
  data : List UInt8
  entries : AList fun _ : Name => Ino

namespace Node

def fileType (n : Node) : FileType := n.inode.fileType

variable (n : Node)

def isDir : Bool := n.fileType == .directory

def isFile : Bool := n.fileType == .regular

/-- `lookup` in a directory; a file of tmpfs has the default -/
def lookup (n : Node) (name : Name) : Option Ino :=
  if n.driver = .tmpFsFile then none else n.entries.lookup name

/-- `readdir` without `.` and `..` -/
def names : List Name := if n.driver = .tmpFsFile then [] else n.entries.keys

def withMode (mode : UInt16) : Node := { n with inode := { n.inode with mode := mode } }

def withOwner (uid gid : UInt32) : Node := { n with inode := { n.inode with uid := uid, gid := gid } }

def withEntries (entries : AList fun _ : Name => Ino) : Node := { n with entries := entries }

def withNlink (nlink : ℕ) : Node := { n with nlink := nlink }

def withData (data : List UInt8) : Node := { n with data := data }

/-- a node of ext is what its disk has -/
def reread (m : Node) : Node := if n.driver = .extInode then { m with driver := n.driver, dev := n.dev } else n

end Node

/-- a device transfer of the operation fails, before or after the change; of a write, `n` bytes are done then -/
inductive Trouble
  | none
  | before
  | after (n : ℕ)
  deriving DecidableEq, Repr

/-- what is transferred -/
def Trouble.done (bytes : List UInt8) : Trouble → List UInt8
  | .none => bytes
  | .before => []
  | .after n => bytes.take n

structure Files where
  node : Ino → Node
  next : Ino
  troubles : List Trouble
  spills : List (Ino → Node → Node) := []

abbrev Op := EStateM Failure Files

def fail {α : Type} (e : Errno) : Op α := throw (.errno e)

namespace Files

def lookup (s : Files) (d : Ino) (name : Name) : Option Ino := (s.node d).lookup name

variable (s : Files)

/-- the type that `readdir` shows for an entry: ext knows three -/
def entryType (d i : Ino) : FileType :=
  if (s.node d).driver = .extInode then
    match (s.node i).fileType with
    | .directory => .directory
    | .symlink => .symlink
    | _ => .regular
  else (s.node i).fileType

/-- the text of a symbolic link: at most 4096 bytes of it are read -/
def target (i : Ino) : Option Path :=
  ((ByteArray.mk ((s.node i).data.take 4096).toArray).utf8Decode?).map Array.toList

def tree : Tree Ino where
  inode i := (s.node i).inode
  lookup := s.lookup
  target := s.target

def update (s : Files) (i : Ino) (f : Node → Node) : Files :=
  { s with node := Function.update s.node i (f (s.node i)) }

def add (n : Node) : Files :=
  { s with node := Function.update s.node s.next n, next := s.next + 1 }

/-- a block device was written -/
def spill : Files :=
  { s with
    node := fun i => (s.node i).reread (s.spills.headD (fun _ n => n) i (s.node i))
    spills := s.spills.tail }

end Files

/-! ## Steps of the drivers -/

variable (i : Ino)

def change (f : Node → Node) : Op Unit := modify fun s => s.update i f

def alloc (n : Node) : Op Ino := do
  let s ← get
  modify fun s => s.add n
  pure s.next

/-- what the device does to the operation at hand -/
def trouble : Op Trouble := do
  let s ← get
  modify fun s => { s with troubles := s.troubles.tail }
  pure (s.troubles.headD .none)

variable (d : Ino) (name : Name)

def setEntry (i : Ino) : Op Unit := change d fun n => n.withEntries (n.entries.insert name i)

def dropEntry : Op Unit := change d fun n => n.withEntries (n.entries.erase name)

variable (t : FileType)

/-- the file types that tmpfs and ext can create -/
def creatable : Bool := t == .regular || t == .directory || t == .symlink

/-! ## Creating -/

def TMPFS_DEV_ID : ℕ := 2

def Inode.new : Inode := ⟨t, if t = .directory then 0o755 else 0o644, 0, 0⟩

def tmpFsNode : Node :=
  ⟨if t = .directory then .tmpFsDir else .tmpFsFile, Inode.new t, TMPFS_DEV_ID, 0, 1, [], ∅⟩

def extMode : FileType → UInt16
  | .directory => 0x4000 ||| 0o755
  | .symlink => 0xA000 ||| 0o777
  | _ => 0x8000 ||| 0o644

def extNode (dev : ℕ) : Node :=
  ⟨.extInode, ⟨t, extMode t, 0, 0⟩, dev, 0, if t = .directory then 2 else 1, [], ∅⟩

def createDirEntry : Op (Option Ino) := do
  let s ← get
  if creatable t = false ∨ (s.lookup d name).isSome then pure none
  else
    let r ← trouble
    if r = .before then pure none
    else
      let i ← alloc (extNode t (s.node d).dev)
      setEntry d name i
      -- a failure from here on leaves the entry
      if r = .none then
        change d fun n => n.withNlink (if t = .directory then n.nlink + 1 else n.nlink)
        pure (some i)
      else pure none

def create : Op (Option Ino) := do
  let s ← get
  match (s.node d).driver with
  | .tmpFsDir =>
    if creatable t then
      let i ← alloc (tmpFsNode t)
      setEntry d name i
      pure (some i)
    else pure none
  | .extInode => createDirEntry d name t
  | .tmpFsFile | .blockDev | .other => pure none

def mkdir : Op (Option Ino) := create d name .directory

/-! ## Removing and linking -/

def decNlink : Op Unit := change i fun n => n.withNlink (n.nlink - 1)

def unlink : Op Unit := do
  let s ← get
  match (s.node d).driver with
  | .tmpFsDir => if (s.lookup d name).isSome then dropEntry d name else fail .ENOENT
  | .extInode =>
    match s.lookup d name with
    | none => fail .ENOENT
    | some i =>
      let r ← trouble
      if r = .before then fail .ENOENT
      else
        dropEntry d name
        if r = .none then decNlink i else fail Errno.EIO
  | .tmpFsFile | .blockDev | .other => fail .EPERM

def unlinkEntry : Op (Option Ino) := do
  let s ← get
  match (s.node d).driver with
  | .tmpFsDir =>
    dropEntry d name
    pure (s.lookup d name)
  | .extInode =>
    match s.lookup d name with
    | none => pure none
    | some i =>
      if (s.node d).isDir = false ∨ (s.node i).isDir then pure none
      else
        let r ← trouble
        if r = .before then pure none
        else
          dropEntry d name
          pure (some i)
  | .tmpFsFile | .blockDev | .other => pure none

def linkEntry (i : Ino) : Op Unit := do
  let s ← get
  match (s.node d).driver with
  | .tmpFsDir => setEntry d name i
  | .extInode =>
    if (s.node d).isDir = false then fail .ENOTDIR
    else if (s.lookup d name).isSome then fail .EEXIST
    else if (s.node i).dev ≠ (s.node d).dev then fail .EXDEV
    else
      let r ← trouble
      if r = .before then fail Errno.EIO
      else
        setEntry d name i
        if r = .none then pure () else fail Errno.EIO
  | .tmpFsFile | .blockDev | .other => fail .ENOSYS

def rmdir : Op Unit := do
  let s ← get
  match (s.node d).driver, s.lookup d name with
  | .tmpFsFile, _ | .blockDev, _ | .other, _ => fail .EPERM
  | _, none => fail .ENOENT
  | .tmpFsDir, some i =>
    if (s.node i).isDir = false then fail .ENOTDIR
    else if (s.node i).names ≠ [] then fail .ENOTEMPTY
    else dropEntry d name
  | .extInode, some i =>
    if (s.node i).isDir = false then fail .ENOTDIR
    else if (s.node i).names ≠ [] then fail .ENOTEMPTY
    else
      let r ← trouble
      if r = .before then fail .ENOENT
      else
        dropEntry d name
        change d fun n => n.withNlink (if 2 < n.nlink then n.nlink - 1 else n.nlink)
        if r = .none then
          decNlink i
          decNlink i
        else fail Errno.EIO

def incNlink : Op Unit := do
  let s ← get
  match (s.node i).driver with
  | .tmpFsDir | .tmpFsFile => change i fun n => n.withNlink (n.nlink + 1)
  | .extInode =>
    change i fun n => n.withNlink (n.nlink + 1)
    let r ← trouble
    if r = .none then pure () else fail Errno.EIO
  | .blockDev | .other => pure ()

/-! ## Metadata -/

def setPermissions (mode : UInt16) : Op Unit := do
  let s ← get
  match (s.node i).driver with
  | .tmpFsDir | .tmpFsFile => change i fun n => n.withMode mode
  | .extInode =>
    -- the inode in memory has the new mode before it is written
    change i fun n => n.withMode ((n.inode.mode &&& 0xF000) ||| (mode &&& 0x0FFF))
    let r ← trouble
    if r = .none then pure () else fail Errno.EIO
  | .blockDev | .other => fail .EPERM

def setOwner (uid gid : UInt32) : Op Unit := do
  let s ← get
  match (s.node i).driver with
  | .tmpFsDir | .tmpFsFile => change i fun n => n.withOwner uid gid
  | .extInode =>
    change i fun n => n.withOwner uid gid
    let r ← trouble
    if r = .none then pure () else fail Errno.EIO
  | .blockDev | .other => fail .EPERM

/-- an ext inode is dropped from memory and read again: the disk has 16 bits for each owner -/
def reload : Op Unit := do
  let s ← get
  match (s.node i).driver with
  | .extInode => change i fun n => n.withOwner n.inode.uid.toUInt16.toUInt32 n.inode.gid.toUInt16.toUInt32
  | .tmpFsDir | .tmpFsFile | .blockDev | .other => pure ()

/-! ## Contents -/

/-- `bytes` stand at `offset`, after zeros if the file was shorter -/
def writeAt (data : List UInt8) (offset : ℕ) (bytes : List UInt8) : List UInt8 :=
  (data.take offset ++ List.replicate (offset - data.length) 0) ++ bytes ++ data.drop (offset + bytes.length)

def resize (data : List UInt8) (size : ℕ) : List UInt8 := data.take size ++ List.replicate (size - data.length) 0

def read (offset count : ℕ) : Op (List UInt8) := do
  let s ← get
  match (s.node i).driver with
  | .tmpFsFile => pure (((s.node i).data.drop offset).take count)
  | .extInode =>
    let r ← trouble
    if r = .none then pure (((s.node i).data.drop offset).take count) else fail Errno.EIO
  | .blockDev =>
    let found := ((s.node i).data.drop offset).take count
    if found = [] then pure []
    else
      let r ← trouble
      if r.done found = [] then fail Errno.EIO else pure (r.done found)
  | .tmpFsDir | .other => fail .EPERM

def write (offset : ℕ) (bytes : List UInt8) : Op ℕ := do
  let s ← get
  match (s.node i).driver with
  | .tmpFsFile =>
    change i fun n => n.withData (writeAt n.data offset bytes)
    pure bytes.length
  | .extInode =>
    let r ← trouble
    match r with
    | .before => fail Errno.EIO
    | .after n =>
      change i fun node => node.withData (writeAt node.data offset (bytes.take n))
      pure (min n bytes.length)
    | .none =>
      change i fun n => n.withData (writeAt n.data offset bytes)
      pure bytes.length
  | .blockDev =>
    let size := (s.node i).data.length
    if bytes = [] then pure 0
    else if size ≤ offset then fail .ENOSPC
    else
      let r ← trouble
      let done := r.done (bytes.take (size - offset))
      if done = [] then fail Errno.EIO
      else
        change i fun n => n.withData (writeAt n.data offset done)
        modify Files.spill
        pure done.length
  | .tmpFsDir | .other => fail .EPERM

def truncate (size : ℕ) : Op Unit := do
  let s ← get
  match (s.node i).driver with
  | .tmpFsFile => change i fun n => n.withData (resize n.data size)
  | .extInode =>
    let r ← trouble
    if r = .before then fail Errno.EIO
    else
      change i fun n => n.withData (resize n.data size)
      if r = .none then pure () else fail Errno.EIO
  | .tmpFsDir | .blockDev | .other => fail .EPERM

end Kontsnor.Fs
