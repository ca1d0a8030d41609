/-
The system calls that change directories, metadata and contents by path (`syscall/fs/open.rs`, `syscall/fs/meta.rs`).

Each call looks its paths up through `Vfs.lookupFollow`, with the credentials of the caller, makes its own checks and calls
the drivers of `Store`. `Caller` is what a call finds beside the files: the task, its mounts and the dentry cache. The cache
is given with the call, whatever earlier calls left in it.

`rename` moves an entry from one directory to the other where the drivers can do so, and copies and deletes otherwise.
`copyDirRec` and `removeDirRec` recurse over the tree below a directory; `depth` is how deep the kernel stack lets them go.
-/
import Kontsnor.Fs.Store

namespace Kontsnor.Fs

open Fallible (ignore succeeds attempt forEach)

/-! ## Paths and permissions -/

/-- `split_path`: what is before the last slash, and what is after it -/
def splitPath (path : Path) : Path × Name :=
  let name := (path.reverse.takeWhile (· ≠ '/')).reverse
  if '/' ∈ path then
    let dir := path.take (path.length - name.length - 1)
    (if dir = [] then ['/'] else dir, name)
  else (['.'], path)

structure Caller where
  creds : Creds
  ctx : FsContext
  umask : UInt32
  mountNs : Option (List (Mount Ino))
  mounts : List (Mount Ino)
  dentryCache : Path → Option Ino

def MAY_WRITE : UInt16 := 0o200

def MAY_READ : UInt16 := 0o400

namespace Caller

variable (c : Caller) (s : Files)

def vfs : Vfs Ino := ⟨s.tree, c.mountNs, c.mounts, c.dentryCache⟩

def find (path : Path) (followLast : Bool) : Option Ino :=
  ((c.vfs s).lookupFollow c.creds c.ctx path followLast).2

def may (i : Ino) (mask : UInt16) : Bool :=
  checkPermissionWithCreds (s.node i).inode mask c.creds

end Caller

section

variable (c : Caller) (path : Path)

def lookupFollow (followLast : Bool) : Op Ino := do
  let s ← get
  match c.find s path followLast with
  | some i => pure i
  | none => fail .ENOENT

/-- `vfs::lookup`, with `ENOENT` if there is nothing -/
def lookup : Op Ino := lookupFollow c path true

def checkPermission (i : Ino) (mask : UInt16) : Op Unit := do
  let s ← get
  if c.may s i mask then pure () else fail .EACCES

/-- the directory that a path lies in, to be changed -/
def writableParent : Op Ino := do
  let parent ← lookup c (splitPath path).1
  let s ← get
  if (s.node parent).isDir = false then fail .ENOTDIR
  else
    checkPermission c parent MAY_WRITE
    checkPermission c parent MAY_EXEC
    pure parent

end

/-! ## `open` -/

namespace OpenFlags

def O_CREAT : UInt32 := 0o100
def O_EXCL : UInt32 := 0o200
def O_TRUNC : UInt32 := 0o1000
def O_APPEND : UInt32 := 0o2000
def O_DIRECTORY : UInt32 := 0o200000
def O_NOFOLLOW : UInt32 := 0x20000
def O_CLOEXEC : UInt32 := 0x80000

def has (flags flag : UInt32) : Bool := flags &&& flag != 0

def isReadable (flags : UInt32) : Bool := flags &&& 3 == 0 || flags &&& 3 == 2

def isWritable (flags : UInt32) : Bool := flags &&& 3 == 1 || flags &&& 3 == 2

end OpenFlags

open OpenFlags

variable (c : Caller)

def checkOpenExisting (i : Ino) (flags : UInt32) (followLast : Bool) : Op Unit := do
  let s ← get
  if followLast = false ∧ (s.node i).fileType = .symlink then fail .ELOOP
  else if has flags O_CREAT ∧ has flags O_EXCL then fail .EEXIST
  else if has flags O_DIRECTORY ∧ (s.node i).isDir = false then fail .ENOTDIR
  else if (s.node i).isDir ∧ isWritable flags then fail .EISDIR
  else if isReadable flags ∧ c.may s i MAY_READ = false then fail .EACCES
  else if isWritable flags ∧ c.may s i MAY_WRITE = false then fail .EACCES
  -- the access mode does not matter for the truncation
  else if has flags O_TRUNC ∧ (s.node i).isFile then truncate i 0
  else pure ()

/-- the permissions of a new file -/
def fileMode (umask mode : UInt32) : UInt16 :=
  (((if mode = 0 then 0o644 else mode) &&& 0x0FFF) &&& ~~~umask).toUInt16

def createFile (parent : Ino) (name : Name) (mode : UInt32) : Op Ino := do
  let made ← create parent name .regular
  match made with
  | some i =>
    ignore (setPermissions i (fileMode c.umask mode))
    pure i
  | none => fail .ENOSPC

def ptyNode : Node := ⟨.other, Inode.new .charDevice, 0, 0, 1, [], ∅⟩

variable (path : Path)

/-- `sys_open_with_resolved_path` up to the descriptor: the inode that is opened -/
def openWithResolvedPath (flags mode : UInt32) : Op Ino := do
  if path = "/dev/ptmx".toList then alloc ptyNode
  else
    let followLast := !has flags O_NOFOLLOW
    let s ← get
    match c.find s path followLast with
    | some i =>
      checkOpenExisting c i flags followLast
      pure i
    | none =>
      if has flags O_CREAT then
        let parent ← writableParent c path
        createFile c parent (splitPath path).2 mode
      else fail .ENOENT

/-- `sys_openat` for a name in an open directory, up to the descriptor -/
def openatIn (parent : Ino) (name : Name) (flags mode : UInt32) : Op Ino := do
  let s ← get
  match s.lookup parent name with
  | some i =>
    checkOpenExisting c i flags (!has flags O_NOFOLLOW)
    pure i
  | none =>
    if has flags O_CREAT then
      checkPermission c parent MAY_WRITE
      checkPermission c parent MAY_EXEC
      createFile c parent name mode
    else fail .ENOENT

/-! ## Directories and links -/

def sysMkdir : Op Unit := do
  let s ← get
  if (c.find s path true).isSome then fail .EEXIST
  else
    let parent ← writableParent c path
    let made ← mkdir parent (splitPath path).2
    match made with
    | some _ => pure ()
    | none => fail .EACCES

def sysRmdir : Op Unit := do
  let parent ← writableParent c path
  rmdir parent (splitPath path).2

def sysUnlink : Op Unit := do
  let parent ← writableParent c path
  unlink parent (splitPath path).2

/-- `AT_SYMLINK_FOLLOW` -/
def followsLink (flags : UInt32) : Bool := flags &&& 0x400 != 0

def sysLink (old new : Path) (flags : UInt32) : Op Unit := do
  let src ← lookupFollow c old (followsLink flags)
  let s ← get
  if (s.node src).isDir then fail .EPERM
  else
    let parent ← lookup c (splitPath new).1
    if (s.node parent).isDir = false then fail .ENOTDIR
    else if (s.node src).dev ≠ (s.node parent).dev then fail .EXDEV
    else
      checkPermission c parent MAY_WRITE
      checkPermission c parent MAY_EXEC
      if (s.lookup parent (splitPath new).2).isSome then fail .EEXIST
      else
        linkEntry parent (splitPath new).2 src
        let counted ← succeeds (incNlink src)
        if counted then pure ()
        else
          ignore (unlinkEntry parent (splitPath new).2)
          fail Errno.EIO

def sysSymlink (target : Path) (path : Path) : Op Unit := do
  let s ← get
  if (c.find s path true).isSome then fail .EEXIST
  else
    let parent ← lookup c (splitPath path).1
    if (s.node parent).isDir = false then fail .ENOTDIR
    else
      let made ← create parent (splitPath path).2 .symlink
      match made with
      | none => fail .ENOSPC
      | some i =>
        let bytes := (String.ofList target).toUTF8.data.toList
        let n ← write i 0 bytes
        if n = bytes.length then pure () else fail .ENOSPC

/-! ## `rename` -/

namespace Files

/-- `readdir`: names with the types that it shows -/
def readdir (s : Files) (d : Ino) : List (Name × FileType) :=
  (s.node d).names.filterMap fun name => (s.lookup d name).map fun i => (name, s.entryType d i)

end Files

/-- a file gets the permissions and the owner of another -/
def applyMetadata (i : Ino) (inode : Inode) : Op Unit := do
  ignore (setPermissions i inode.mode)
  ignore (setOwner i inode.uid inode.gid)

/-- the copy of one file in `copy_dir_rec` -/
def copyFile (src dst : Ino) (name : Name) (t : FileType) : Op Unit := do
  let made ← create dst name t
  match made with
  | none => pure ()
  | some i =>
    let s ← get
    applyMetadata i (s.node src).inode
    let size := (s.node src).data.length
    if 0 < size then
      let buf ← attempt (read src 0 size)
      match buf with
      | some bytes => ignore (write i 0 bytes)
      | none => pure ()
    else pure ()

/-- a directory for the copy; `create` is tried where `mkdir` fails -/
def makeDir (d : Ino) (name : Name) : Op (Option Ino) := do
  let made ← mkdir d name
  match made with
  | some i => pure (some i)
  | none => create d name .directory

def copyDirRec : ℕ → Ino → Ino → Op Unit
  | 0, _, _ => throw .overflow
  | depth + 1, src, dst => do
    let s ← get
    forEach (fun entry => do
      let s ← get
      match s.lookup src entry.1 with
      | none => pure ()
      | some child =>
        if entry.2 = .directory then
          let made ← makeDir dst entry.1
          match made with
          | some childDst => copyDirRec depth child childDst
          | none => pure ()
        else copyFile child dst entry.1 entry.2) (s.readdir src)

def removeDirRec : ℕ → Ino → Op Unit
  | 0, _ => throw .overflow
  | depth + 1, dir => do
    let s ← get
    forEach (fun entry => do
      if entry.2 = .directory then
        let s ← get
        match s.lookup dir entry.1 with
        | some child => removeDirRec depth child
        | none => pure ()
        ignore (rmdir dir entry.1)
      else ignore (unlink dir entry.1)) (s.readdir dir)

/-- the paths of a `rename` as far as they are looked up -/
structure Move where
  src : Ino
  oldParent : Ino
  oldName : Name
  newParent : Ino
  newName : Name
  deriving DecidableEq

/-- the entry goes from one directory to the other; `clear` makes room for it -/
def moveEntry (m : Move) (clear : Op Unit) : Op Bool := do
  let node ← unlinkEntry m.oldParent m.oldName
  match node with
  | none => pure false
  | some i =>
    ignore clear
    let linked ← succeeds (linkEntry m.newParent m.newName i)
    if linked then pure true
    else
      ignore (linkEntry m.oldParent m.oldName i)
      pure false

def renameDir (depth : ℕ) (m : Move) : Op Unit := do
  let moved ← moveEntry m (rmdir m.newParent m.newName)
  if moved then pure ()
  else
    let made ← makeDir m.newParent m.newName
    match made with
    | none => fail .ENOSPC
    | some newDir =>
      copyDirRec depth m.src newDir
      removeDirRec depth m.src
      ignore (rmdir m.oldParent m.oldName)

def renameFile (m : Move) : Op Unit := do
  let moved ← moveEntry m (unlink m.newParent m.newName)
  if moved then pure ()
  else
    let s ← get
    let size := (s.node m.src).data.length
    let buf ← attempt (if 0 < size then read m.src 0 size else pure [])
    -- the buffer stays zero where the read fails
    let bytes := buf.getD (List.replicate size 0)
    ignore (if (s.lookup m.newParent m.newName).isSome then unlink m.newParent m.newName else pure ())
    let made ← create m.newParent m.newName (s.node m.src).fileType
    match made with
    | none => fail .ENOSPC
    | some i =>
      applyMetadata i (s.node m.src).inode
      ignore (if 0 < size then write i 0 bytes else pure 0)
      ignore (unlink m.oldParent m.oldName)

variable (c : Caller)

def sysRename (depth : ℕ) (old new : Path) : Op Unit := do
  let oldParent ← lookup c (splitPath old).1
  let src ← lookup c old
  let newParent ← lookup c (splitPath new).1
  let s ← get
  let m : Move := ⟨src, oldParent, (splitPath old).2, newParent, (splitPath new).2⟩
  if (s.node src).fileType = .directory then renameDir depth m else renameFile m

/-! ## Metadata -/

/-- `sys_chmod_with_resolved_path_follow`; `uid` is the real user id -/
def sysChmod (uid : UInt32) (path : Path) (mode : UInt32) (followLast : Bool) : Op Unit := do
  let i ← lookupFollow c path followLast
  let s ← get
  if c.creds.euid ≠ 0 ∧ c.creds.euid ≠ (s.node i).inode.uid ∧ uid ≠ (s.node i).inode.uid then fail .EPERM
  else setPermissions i mode.toUInt16

/-- `u32::MAX` leaves an owner as it is -/
def chooseOwner (id old : UInt32) : UInt32 := if id = 0xFFFFFFFF then old else id

def changeInodeOwner (i : Ino) (uid gid : UInt32) : Op Unit := do
  let s ← get
  let inode := (s.node i).inode
  if c.creds.euid ≠ 0 ∧ inode.uid ≠ c.creds.euid then fail .EPERM
  else setOwner i (chooseOwner uid inode.uid) (chooseOwner gid inode.gid)

def sysChown (path : Path) (uid gid : UInt32) (followLast : Bool) : Op Unit := do
  let i ← lookupFollow c path followLast
  changeInodeOwner c i uid gid

/-- `sys_execve` up to the new image: the file whose mode and owner give the credentials. `loads`: the image can be read,
and is a program or a script whose interpreter is one -/
def execFile (path : Path) (loads : Bool) : Op Ino := do
  let i ← lookup c path
  checkPermission c i MAY_EXEC
  let s ← get
  if (s.node i).data.length = 0 then fail .ENOEXEC
  else if loads then pure i
  else fail .ENOEXEC

end Kontsnor.Fs
