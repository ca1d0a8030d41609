/-
Looking up a path (`fs/vfs.rs`, `resolve_mount` and `lookup_follow`, and `check_permission_with_creds` of `fs/inode.rs`).

`lookupFollow` walks a path component by component from the root of the file system that is mounted there. At a symbolic
link it makes a new path of the target and what is left, and starts again; there are at most 20 such rounds more. Beside
the inode, it returns what each round walked. The dentry cache is the one at the call: an entry that the call itself adds
is what its directory gave for that path.
-/
import Kontsnor.Fs.Path

namespace Kontsnor.Fs

inductive FileType
  | regular | directory | charDevice | blockDevice | pipe | symlink | socket
  deriving DecidableEq, Repr

structure Inode where
  fileType : FileType
  mode : UInt16
  uid : UInt32
  gid : UInt32

structure Creds where
  euid : UInt32
  egid : UInt32

def MAY_EXEC : UInt16 := 0o100

def checkPermissionWithCreds (inode : Inode) (mask : UInt16) (creds : Creds) : Bool :=
  if creds.euid = 0 then
    !(mask &&& MAY_EXEC != 0 && inode.fileType == .regular && inode.mode &&& 0o111 == 0)
  else if creds.euid = inode.uid then inode.mode &&& mask == mask
  else if creds.egid = inode.gid then (inode.mode <<< 3) &&& mask == mask
  else (inode.mode <<< 6) &&& mask == mask

/-- the inodes of the mounted file systems -/
structure Tree (ι : Type) where
  inode : ι → Inode
  lookup : ι → Name → Option ι
  /-- the target of a symbolic link, as far as it can be read and is text -/
  target : ι → Option Path

/-- a mount point and the root of the file system there -/
structure Mount (ι : Type) where
  path : Path
  root : Option ι

structure Vfs (ι : Type) where
  tree : Tree ι
  /-- the mount namespace of the task -/
  mountNs : Option (List (Mount ι))
  mounts : List (Mount ι)
  dentryCache : Path → Option ι

variable {ι : Type}

/-- a mount point that the path begins with takes the place of a shorter one -/
def longerMount (path : Path) (best : Option (Mount ι)) (m : Mount ι) : Option (Mount ι) :=
  if m.path.isPrefixOf path then
    match best with
    | some b => if m.path.length ≤ b.path.length then some b else some m
    | none => some m
  else best

theorem longerMount_eq (path : Path) (best : Option (Mount ι)) (m : Mount ι) :
    longerMount path best m = if m.path <+: path then
      match best with
      | some b => if m.path.length ≤ b.path.length then some b else some m
      | none => some m
    else best := by
  simp [longerMount]

def bestMount (mounts : List (Mount ι)) (path : Path) : Option (Mount ι) := mounts.foldl (longerMount path) none

namespace Vfs

variable (v : Vfs ι)

def bestMatch (path : Path) : Option (Mount ι) :=
  (v.mountNs.bind fun mounts => bestMount mounts path).or (bestMount v.mounts path)

def resolveMount (path : Path) : Option (Option ι × Path) :=
  (v.bestMatch path).map fun m =>
    let remaining := path.drop m.path.length
    (m.root, if remaining = [] then ['/'] else remaining)

/-- how the walk of a path ends -/
inductive WalkEnd (ι : Type)
  | found (node : ι)
  | failed
  | link (dir target : Path) (remainder : List Name)

def pushPath (resolvedTillNow : Path) (component : Name) : Path :=
  if resolvedTillNow = ['/'] then resolvedTillNow ++ component else resolvedTillNow ++ '/' :: component

/-- the components are looked up one after the other; also the paths that are reached on the way -/
def walk (v : Vfs ι) (creds : Creds) (followLast : Bool) : ι → Path → List Name → List Path × WalkEnd ι
  | current, _, [] => ([], .found current)
  | current, resolvedTillNow, component :: remainder =>
    if checkPermissionWithCreds (v.tree.inode current) MAY_EXEC creds then
      let path := pushPath resolvedTillNow component
      match (v.dentryCache path).or (v.tree.lookup current component) with
      | none => ([path], .failed)
      | some next =>
        if (v.tree.inode next).fileType = .symlink ∧ (remainder ≠ [] ∨ followLast = true) then
          match v.tree.target next with
          | some target => ([path], .link resolvedTillNow target remainder)
          | none => ([path], .failed)
        else
          let (visited, last) := v.walk creds followLast next path remainder
          (path :: visited, last)
    else ([], .failed)

/-- the path that a symbolic link in the directory `dir` stands for -/
def expandTarget (dir target : Path) : Path :=
  if startsWithSlash target then normalize target else normalize (join dir target)

def expand (dir target : Path) (remainder : List Name) : Path :=
  normalize (remainder.foldl join (expandTarget dir target))

/-- where the walk of a path begins -/
def mountPath (path remaining : Path) : Path :=
  if remaining = ['/'] then path else path.take (path.length - remaining.length)

/-- one round: a path is walked from the root of the file system that is mounted there -/
def round (creds : Creds) (followLast : Bool) (path : Path) : List Path × WalkEnd ι :=
  match v.resolveMount path with
  | some (some root, remaining) =>
    let r := v.walk creds followLast root (mountPath path remaining) (parts remaining)
    (mountPath path remaining :: r.1, r.2)
  | _ => ([], .failed)

/-- the path of a round and the paths reached in it -/
structure Round where
  path : Path
  visited : List Path
  deriving DecidableEq

/-- the rounds, with at most `n` symbolic links -/
def rounds (v : Vfs ι) (creds : Creds) (followLast : Bool) : ℕ → Path → List Round × Option ι
  | n, path =>
    let r := v.round creds followLast path
    match r.2, n with
    | .found node, _ => ([⟨path, r.1⟩], some node)
    | .failed, _ => ([⟨path, r.1⟩], none)
    | .link _ _ _, 0 => ([⟨path, r.1⟩], none)
    | .link dir target remainder, n + 1 =>
      let s := v.rounds creds followLast n (expand dir target remainder)
      (⟨path, r.1⟩ :: s.1, s.2)

def lookupFollow (creds : Creds) (ctx : FsContext) (path : Path) (followLast : Bool) : List Round × Option ι :=
  v.rounds creds followLast 20 (resolveRelativePath ctx path)

end Vfs

end Kontsnor.Fs
