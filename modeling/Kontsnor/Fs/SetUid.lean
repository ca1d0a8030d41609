/-
Files that run as root (`change_inode_owner` and `sys_chmod_with_resolved_path_follow` of `syscall/fs/meta.rs`,
`calculate_exec_creds`).

A task without root ids makes files, changes their modes and owners, links, renames and executes them. `Session.Confined` is
what its calls must meet: none makes a file that belongs to root and has the set-user-id bit, neither in memory nor on the
disk, where an owner has 16 bits, and none writes to a block device.
- `NoRootSetUid`, `Unprivileged.step`: then there is never such a file, and the ids of the task stay other than 0.
-/
import Kontsnor.Fs.SessionSpec

namespace Kontsnor.Fs

open OpenFlags Node Function Runs Fallible

/-! ## The calls -/

inductive FileCall
  | open (n : Names) (path : Path) (flags mode : UInt32)
  | openat (n : Names) (dfd : ℤ) (name : Name) (flags mode : UInt32)
  | write (fd : ℤ) (bytes : List UInt8)
  | chmod (n : Names) (path : Path) (mode : UInt32) (followLast : Bool)
  | chown (n : Names) (path : Path) (uid gid : UInt32) (followLast : Bool)
  | link (n : Names) (old new : Path) (flags : UInt32)
  | rename (n : Names) (depth : ℕ) (old new : Path)
  /-- `shared`: other tasks have the descriptor table too -/
  | execve (n : Names) (path : Path) (loads shared : Bool)
  /-- the kernel drops an inode of ext from memory; it is read again when it is needed -/
  | reload (i : Ino)

namespace Session

/-- the credentials after executing a file -/
def execCreds (s : Session) (i : Ino) : Process.Creds :=
  let inode := (s.files.node i).inode
  let ids := Process.calculateExecCreds inode.mode inode.uid inode.gid s.creds.uids.real s.creds.gids.real
  { uids := { s.creds.uids with effective := ids.1 }, gids := { s.creds.gids with effective := ids.2 } }

def stepFile (s : Session) : FileCall → Session
  | .open n path flags mode => s.openNode flags (openWithResolvedPath (s.caller n) path flags mode)
  | .openat n dfd name flags mode =>
    match s.dirOf dfd with
    | none => s
    | some d => s.openNode flags (openatIn (s.caller n) d name flags mode)
  | .write fd bytes => s.onDesc fd (fun d => fileDescWrite bytes.length d bytes 0) (·.2)
  | .chmod n path mode followLast => s.onFiles (sysChmod (s.caller n) s.creds.uids.real path mode followLast)
  | .chown n path uid gid followLast => s.onFiles (sysChown (s.caller n) path uid gid followLast)
  | .link n old new flags => s.onFiles (sysLink (s.caller n) old new flags)
  | .rename n depth old new => s.onFiles (sysRename (s.caller n) depth old new)
  | .execve n path loads shared =>
    match value (execFile (s.caller n) path loads s.files) with
    | none => s
    | some i => { s with creds := s.execCreds i, fds := s.fds.execve shared }
  | .reload i => s.onFiles (reload i)

end Session

/-! ## The set-user-id bit -/

def setUid (mode : UInt16) : Bool := mode &&& 0o4000 != 0

theorem setUid_eq (mode : UInt16) : setUid mode = mode.toBitVec[11] := by
  have hzero : mode &&& 0o4000 = 0 ↔ mode.toBitVec[11] = false := by
    rw [← UInt16.toBitVec_inj]
    constructor
    · intro h
      simpa using congrArg (fun b : BitVec 16 => b[11]) h
    · intro h
      ext i hi
      interval_cases i <;> simp [h]
  rw [Bool.eq_iff_iff, setUid, bne_iff_ne, Ne, hzero, Bool.not_eq_false]

/-- ext keeps the type bits of the old mode, and takes the others -/
theorem setUid_ext (old mode : UInt16) : setUid ((old &&& 0xF000) ||| (mode &&& 0x0FFF)) = setUid mode := by
  rw [setUid_eq, setUid_eq]
  simp

variable {mode : UInt32}

theorem setUid_fileMode {umask : UInt32} (h : setUid mode.toUInt16 = false) : setUid (fileMode umask mode) = false := by
  have hbit : mode.toBitVec[11] = false := by
    rw [setUid_eq, UInt32.toBitVec_toUInt16, BitVec.getElem_setWidth] at h
    exact h
  rw [setUid_eq]
  unfold fileMode
  split_ifs
  · simp
  · simp [hbit]

/-- no root behind the bit: not in memory, and for a node of ext not in the 16 bits that the disk has -/
def Node.Tame (n : Node) : Prop :=
  setUid n.inode.mode = true → n.inode.uid ≠ 0 ∧ (n.driver = .extInode → n.inode.uid.toUInt16 ≠ 0)

variable {uid : UInt32}

theorem ne_zero_of_toUInt16 (h : uid.toUInt16 ≠ 0) : uid ≠ 0 := by
  rintro rfl
  exact h rfl

variable {n : Node}

theorem Node.tame_of_not_setUid (h : setUid n.inode.mode = false) : n.Tame := by
  intro hset
  rw [h] at hset
  cases hset

theorem Node.Tame.chmod (hn : n.Tame) {mode : UInt16}
    (h : setUid mode = true → n.inode.uid ≠ 0 ∧ (n.driver = .extInode → n.inode.uid.toUInt16 ≠ 0)) :
    (n.chmod mode).Tame := by
  unfold Node.chmod
  cases hd : n.driver with
  | tmpFsDir => exact fun hset => ⟨(h hset).1, fun hext => absurd (hd.symm.trans hext) (by decide)⟩
  | tmpFsFile => exact fun hset => ⟨(h hset).1, fun hext => absurd (hd.symm.trans hext) (by decide)⟩
  | extInode =>
    intro hset
    exact h ((setUid_ext _ mode).symm.trans hset)
  | blockDev => exact hn
  | other => exact hn

theorem Node.Tame.chown (hn : n.Tame) {gid : UInt32}
    (h : setUid n.inode.mode = true → uid ≠ 0 ∧ (n.driver = .extInode → uid.toUInt16 ≠ 0)) : (n.chown uid gid).Tame := by
  unfold Node.chown
  split
  · exact h
  · exact h
  · exact h
  · exact hn
  · exact hn

/-! ## The calls keep the files tame -/

variable {i : Ino} {path : Path}

section

/-- a node that does not run as root, and is no block device if it is a new one -/
def Tame (n0 : ℕ) (i : Ino) (n : Node) : Prop := n.Tame ∧ (n0 ≤ i → n.driver ≠ .blockDev)

/-- no file runs as root, and no number from `n0` on is one of a block device -/
abbrev Harmless (n0 : ℕ) (s : Files) : Prop := Holds n0 (Tame n0) s

variable {n0 : ℕ}

theorem tame_tmpFs (t : FileType) : Tame n0 i (tmpFsNode t) :=
  ⟨tame_of_not_setUid (by cases t <;> decide), fun _ => by cases t <;> decide⟩

theorem tame_ext (t : FileType) (dev : ℕ) : Tame n0 i (extNode t dev) :=
  ⟨tame_of_not_setUid (show setUid (extMode t) = false by cases t <;> decide), nofun⟩

theorem stable_tame : Stable n0 (Tame n0) where
  nlink _ _ _ h := h
  tmpFs _ _ t := tame_tmpFs t
  ext _ _ t dev := tame_ext t dev

variable {s : Files} {c : Caller}

theorem Harmless.update (hs : Harmless n0 s) {f : Node → Node} (hf : (f (s.node i)).Tame)
    (hdriver : (f (s.node i)).driver = (s.node i).driver) (ts : List Trouble) :
    Harmless n0 { s.update i f with troubles := ts } := by
  refine ⟨hs.1, fun j => ?_⟩
  by_cases hj : j = i
  · simp only [Files.update, hj, update_self]
    exact ⟨hf, fun hi => hdriver ▸ (hs.2 i).2 hi⟩
  · simp only [Files.update, update_of_ne hj]
    exact hs.2 j

theorem mayChmod_tame {mode : UInt16} (h : setUid mode = false) : MayChmod (Tame n0) i mode := fun _ hn =>
  ⟨⟨tame_of_not_setUid h, hn.2⟩, ⟨tame_of_not_setUid ((setUid_ext _ mode).trans h), hn.2⟩⟩

theorem keeps_createFile_tame (h : setUid mode.toUInt16 = false) (parent : Ino) (name : Name) :
    Respects (Holds n0 (Tame n0)) (createFile c parent name mode) :=
  (keeps_createFile stable_tame (fun _ _ _ hn => hn) fun _ _ => mayChmod_tame (setUid_fileMode h)).mono fun _ _ => trivial

theorem keeps_checkOpenExisting_tame (i : Ino) (flags : UInt32) {followLast : Bool} :
    Respects (Holds n0 (Tame n0)) (checkOpenExisting c i flags followLast) :=
  (keeps_checkOpenExisting fun _ _ _ _ hn => hn).mono fun _ _ => trivial

theorem Harmless.open (hs : Harmless n0 s) {flags : UInt32}
    (h : has flags O_CREAT = true → c.find s path (!has flags O_NOFOLLOW) = none → setUid mode.toUInt16 = false) :
    Harmless n0 (final (openWithResolvedPath c path flags mode s)) := by
  refine (kept_openWithResolvedPath (Q := fun _ => True) hs ?_ (fun i _ => ?_) fun hcreat hfind parent name =>
    keeps_createFile_tame (h hcreat hfind) parent name).1
  · exact (keeps_alloc fun _ _ => ⟨tame_of_not_setUid (by decide), nofun⟩).mono fun _ _ => trivial
  · exact keeps_checkOpenExisting_tame i flags

theorem Harmless.openat (hs : Harmless n0 s) {parent : Ino} {name : Name} {flags : UInt32}
    (h : has flags O_CREAT = true → s.lookup parent name = none → setUid mode.toUInt16 = false) :
    Harmless n0 (final (openatIn c parent name flags mode s)) := by
  refine (kept_openatIn (Q := fun _ => True) hs (fun i _ => ?_) fun hcreat hfind =>
    keeps_createFile_tame (h hcreat hfind) parent name).1
  exact keeps_checkOpenExisting_tame i flags

theorem Harmless.write (hs : Harmless n0 s) {d : FileDescription} (h : (s.node d.ino).driver ≠ .blockDev) {left : ℕ}
    {bytes : List UInt8} {total : ℕ} : Harmless n0 (final (fileDescWrite left d bytes total s)) := by
  have hwrite : MayWrite (fun i n => Tame n0 i n ∧ (i = d.ino → n.driver ≠ .blockDev)) d.ino :=
    ⟨fun _ _ hn => hn, fun n hn hdisk => absurd hdisk (hn.2 rfl)⟩
  have hstart : Holds n0 (fun i n => Tame n0 i n ∧ (i = d.ino → n.driver ≠ .blockDev)) s :=
    ⟨hs.1, fun i => ⟨hs.2 i, fun hi => hi ▸ h⟩⟩
  exact ((keeps_fileDescWrite fun _ => hwrite).final hstart).mono fun _ _ hn => hn.1

theorem sysChmod_eq (followLast : Bool) :
    sysChmod c uid path mode followLast s =
      match c.find s path followLast with
      | none => .error (.errno .ENOENT) s
      | some i =>
        if c.creds.euid ≠ 0 ∧ c.creds.euid ≠ (s.node i).inode.uid ∧ uid ≠ (s.node i).inode.uid then .error (.errno .EPERM) s
        else setPermissions i mode.toUInt16 s := by
  unfold sysChmod
  cases hfind : c.find s path followLast with
  | none => exact bind_error (by rw [lookupFollow_eq, hfind]) _
  | some i =>
    rw [bind_ok (by rw [lookupFollow_eq, hfind]), get_bind]
    dsimp only
    split_ifs <;> rfl

/-- the owner of the file is the task, so it is not root; what the disk has of it is asked for -/
theorem Harmless.chmod (hs : Harmless n0 s) (heuid : c.creds.euid ≠ 0) (huid : uid ≠ 0)
    {followLast : Bool}
    (h : setUid mode.toUInt16 = true → ∀ i ∈ c.find s path followLast, (s.node i).driver = .extInode →
      (s.node i).inode.uid.toUInt16 ≠ 0) :
    Harmless n0 (final (sysChmod c uid path mode followLast s)) := by
  rw [sysChmod_eq]
  cases hfind : c.find s path followLast with
  | none => exact hs
  | some i =>
    dsimp only
    split_ifs with hperm
    · exact hs
    · obtain ⟨ts, hfinal⟩ := final_setPermissions i mode.toUInt16 s
      rw [hfinal]
      refine hs.update ((hs.2 i).1.chmod fun hset => ⟨?_, h hset i hfind⟩) (driver_chmod _ _) ts
      intro hroot
      rw [hroot] at hperm
      exact hperm ⟨heuid, heuid, huid⟩

theorem sysChown_eq (uid gid : UInt32) (followLast : Bool) :
    sysChown c path uid gid followLast s =
      match c.find s path followLast with
      | none => .error (.errno .ENOENT) s
      | some i =>
        if c.creds.euid ≠ 0 ∧ (s.node i).inode.uid ≠ c.creds.euid then .error (.errno .EPERM) s
        else setOwner i (chooseOwner uid (s.node i).inode.uid) (chooseOwner gid (s.node i).inode.gid) s := by
  unfold sysChown
  cases hfind : c.find s path followLast with
  | none => exact bind_error (by rw [lookupFollow_eq, hfind]) _
  | some i =>
    rw [bind_ok (by rw [lookupFollow_eq, hfind])]
    unfold changeInodeOwner
    rw [get_bind]
    dsimp only
    split_ifs <;> rfl

theorem Harmless.chown (hs : Harmless n0 s) (heuid : c.creds.euid ≠ 0) {gid : UInt32}
    {followLast : Bool}
    (h : ∀ i ∈ c.find s path followLast, (s.node i).inode.uid = c.creds.euid → setUid (s.node i).inode.mode = true →
      chooseOwner uid (s.node i).inode.uid ≠ 0 ∧
      ((s.node i).driver = .extInode → (chooseOwner uid (s.node i).inode.uid).toUInt16 ≠ 0)) :
    Harmless n0 (final (sysChown c path uid gid followLast s)) := by
  rw [sysChown_eq]
  cases hfind : c.find s path followLast with
  | none => exact hs
  | some i =>
    dsimp only
    split_ifs with hperm
    · exact hs
    · rw [not_and, not_not] at hperm
      obtain ⟨ts, hfinal⟩ := final_setOwner i (chooseOwner uid (s.node i).inode.uid)
        (chooseOwner gid (s.node i).inode.gid) s
      rw [hfinal]
      exact hs.update ((hs.2 i).1.chown (h i hfind (hperm heuid))) (driver_chown _ _ _) ts

theorem Harmless.link (hs : Harmless n0 s) (old new : Path) (flags : UInt32) :
    Harmless n0 (final (sysLink c old new flags s)) := by
  refine (keeps_sysLink stable_tame (P := fun _ => True) (Q := fun _ => True) ?_ ?_ ?_ ?_ old new flags).final hs
  · exact fun _ _ _ _ => trivial
  · exact fun _ _ _ _ => trivial
  · exact fun _ _ _ _ _ _ hn => hn
  · exact fun _ _ _ _ _ _ _ _ hn => hn

theorem Harmless.reload (hs : Harmless n0 s) (i : Ino) : Harmless n0 (final (Fs.reload i s)) := by
  unfold Fs.reload
  rw [get_bind]
  cases hd : (s.node i).driver with
  | extInode =>
    refine hs.update (f := fun n => n.withOwner n.inode.uid.toUInt16.toUInt32 n.inode.gid.toUInt16.toUInt32) ?_ rfl s.troubles
    intro hset
    have hstored : (s.node i).inode.uid.toUInt16.toUInt32.toUInt16 ≠ 0 := by
      rw [UInt16.toUInt16_toUInt32]
      exact ((hs.2 i).1 hset).2 hd
    exact ⟨ne_zero_of_toUInt16 hstored, fun _ => hstored⟩
  | tmpFsDir => exact hs
  | tmpFsFile => exact hs
  | blockDev => exact hs
  | other => exact hs

/-! ### Copies -/

/-- the files of `W` can be copied to ext as well -/
def Watched (n0 : ℕ) (W : Ino → Prop) (i : Ino) (n : Node) : Prop :=
  Tame n0 i n ∧ (W i → setUid n.inode.mode = true → n.inode.uid.toUInt16 ≠ 0)

variable {W : Ino → Prop}

theorem watched_of_not_setUid (hn : Tame n0 i n) (h : setUid n.inode.mode = false) : Watched n0 W i n := by
  refine ⟨hn, fun _ hset => ?_⟩
  rw [h] at hset
  cases hset

theorem stable_watched (n0 : ℕ) {n1 : ℕ} : Stable n1 (Watched n0 W) where
  nlink _ _ _ h := h
  tmpFs _ _ t := watched_of_not_setUid (tame_tmpFs t) (by cases t <;> decide)
  ext _ _ t dev := watched_of_not_setUid (tame_ext t dev) (show setUid (extMode t) = false by cases t <;> decide)

/-- the copy has the bit and the owner of the original, whatever it had before -/
theorem watched_copied (hn : Watched n0 W i n) {inode : Inode} (h : setUid inode.mode = true → inode.uid.toUInt16 ≠ 0) :
    Watched n0 W i ((n.chmod inode.mode).chown inode.uid inode.gid) := by
  have hcopied : ∀ mode, setUid mode = setUid inode.mode → n.driver ≠ .blockDev → n.driver ≠ .other →
      Watched n0 W i ((n.withMode mode).chown inode.uid inode.gid) := by
    intro mode hmode hblock hother
    have howned : Watched n0 W i ((n.withMode mode).withOwner inode.uid inode.gid) := by
      refine ⟨⟨fun hset => ?_, hn.1.2⟩, fun _ hset => h (hmode ▸ hset)⟩
      have hstored := h (hmode ▸ hset)
      exact ⟨ne_zero_of_toUInt16 hstored, fun _ => hstored⟩
    unfold chown
    split
    · exact howned
    · exact howned
    · exact howned
    · next hd => exact absurd hd hblock
    · next hd => exact absurd hd hother
  unfold chmod
  cases hd : n.driver with
  | tmpFsDir | tmpFsFile => exact hcopied inode.mode rfl (by rw [hd]; decide) (by rw [hd]; decide)
  | extInode => exact hcopied _ (setUid_ext _ _) (by rw [hd]; decide) (by rw [hd]; decide)
  | blockDev | other =>
    simp only [chown, hd]
    exact hn

theorem keeps_applyMetadata {n1 : ℕ} {inode : Inode} (h : setUid inode.mode = true → inode.uid.toUInt16 ≠ 0) (i : Ino) :
    Respects (Holds n1 (Watched n0 W)) (applyMetadata i inode) := by
  rintro s ⟨hnext, hs⟩
  -- between the two changes the file may run as root
  obtain ⟨ts1, h1⟩ := final_setPermissions i inode.mode s
  obtain ⟨ts2, h2⟩ := final_setOwner i inode.uid inode.gid (final (setPermissions i inode.mode s))
  show Holds n1 (Watched n0 W) (final (setOwner i inode.uid inode.gid _)) ∧ True
  rw [h2, h1]
  refine ⟨⟨hnext, fun j => ?_⟩, trivial⟩
  by_cases hj : j = i
  · simp only [Files.update, hj, update_self]
    exact watched_copied (hs i) h
  · simp only [Files.update, update_of_ne hj]
    exact hs j

theorem moves_watched (n1 : ℕ) (m : Move) : Moves n1 (Watched n0 W) m fun _ => True where
  dropOld _ _ _ _ hn := hn
  dropNew _ _ _ _ hn := hn
  moved _ _ _ _ _ := trivial
  setOld _ _ _ hn := hn
  setNew _ _ _ hn := hn
  made _ _ _ hn := hn

theorem fresh_watched (hn0 : n0 ≤ s.next) : Fresh s.next (Watched n0 W) W where
  entry _ _ _ _ _ _ hn := hn
  content _ _ _ _ hn := hn
  plain _ hi _ hn := hn.1.2 (hn0.trans hi)
  metadata _ hsrc _ hn i _ := keeps_applyMetadata (hn.2 hsrc) i

theorem Harmless.rename (hs : Harmless n0 s) {depth : ℕ} {old new : Path}
    (h : ∀ m ∈ c.move s old new, m.Unmoved s → ∀ i, m.Copied s i → setUid (s.node i).inode.mode = true →
      (s.node i).inode.uid.toUInt16 ≠ 0) :
    Harmless n0 (final (sysRename c depth old new s)) := by
  rw [sysRename_eq]
  cases hm : c.move s old new with
  | none => exact hs
  | some m =>
    dsimp only
    by_cases hmoved : m.Unmoved s
    · have hwatched : Holds s.next (Watched n0 (m.Copied s)) s := ⟨le_rfl, fun i => ⟨hs.2 i, h m hm hmoved i⟩⟩
      have hkept := kept_rename (stable_watched n0) (fresh_watched hs.1) (moves_watched s.next m)
        (fun _ _ _ _ _ _ _ _ hn => hn) depth hwatched
      exact ⟨hs.1.trans hkept.1, fun i => (hkept.2 i).1⟩
    · rw [final_rename_of_moved hmoved]
      have hwatched : Holds n0 (Watched n0 fun _ => False) s := ⟨hs.1, fun i => ⟨hs.2 i, nofun⟩⟩
      have hmoves : Moves n0 (Watched n0 fun _ => False) m fun _ => True := moves_watched n0 m
      have hkept := keeps_moveEntry hmoves (keeps_clear (stable_watched n0) hmoves.dropNew (s.node m.src).isDir)
      exact (hkept.final hwatched).mono fun _ _ hn => hn.1

end

/-! ## Runs -/

namespace Session

variable (s : Session)

/-- what the calls of the task must meet -/
def Confined : FileCall → Prop
  -- a file is not made with the bit
  | .open n path flags mode => has flags O_CREAT = true →
      (s.caller n).find s.files path (!has flags O_NOFOLLOW) = none → setUid mode.toUInt16 = false
  | .openat _ dfd name flags mode => has flags O_CREAT = true → ∀ d ∈ s.dirOf dfd, s.files.lookup d name = none →
      setUid mode.toUInt16 = false
  -- an owner of whom the disk keeps 0 does not set the bit
  | .chmod n path mode followLast => setUid mode.toUInt16 = true →
      ∀ i ∈ (s.caller n).find s.files path followLast, (s.files.node i).driver = .extInode →
        (s.files.node i).inode.uid.toUInt16 ≠ 0
  -- a file with the bit is not given to root
  | .chown n path uid _ followLast => ∀ i ∈ (s.caller n).find s.files path followLast,
      (s.files.node i).inode.uid = s.creds.uids.effective → setUid (s.files.node i).inode.mode = true →
      chooseOwner uid (s.files.node i).inode.uid ≠ 0 ∧
      ((s.files.node i).driver = .extInode → (chooseOwner uid (s.files.node i).inode.uid).toUInt16 ≠ 0)
  -- nor copied if the disk would keep 0
  | .rename n _ old new => ∀ m ∈ (s.caller n).move s.files old new, m.Unmoved s.files → ∀ i, m.Copied s.files i →
      setUid (s.files.node i).inode.mode = true → (s.files.node i).inode.uid.toUInt16 ≠ 0
  -- a disk is not written
  | .write fd _ => ∀ d ∈ s.fds.lookup fd, (s.files.node d.ino).driver ≠ .blockDev
  | .link _ _ _ _ | .execve _ _ _ _ | .reload _ => True

/-- no file runs as root, and the task is not root -/
structure Unprivileged (n0 : ℕ) : Prop where
  files : Harmless n0 s.files
  real : s.creds.uids.real ≠ 0
  effective : s.creds.uids.effective ≠ 0

section

variable {s : Session} {n0 : ℕ}

theorem Unprivileged.onFiles (h : s.Unprivileged n0) {α : Type} {op : Op α}
    (hop : Harmless n0 (final (op s.files))) : (s.onFiles op).Unprivileged n0 :=
  ⟨hop, h.real, h.effective⟩

theorem Unprivileged.openNode (h : s.Unprivileged n0) (flags : UInt32) {op : Op Ino}
    (hop : Harmless n0 (final (op s.files))) : (s.openNode flags op).Unprivileged n0 := by
  unfold Session.openNode
  cases value (op s.files) with
  | none => exact h.onFiles hop
  | some i => exact ⟨hop, h.real, h.effective⟩

theorem Unprivileged.onDesc (h : s.Unprivileged n0) {α : Type} (fd : ℤ) {op : FileDescription → Op α}
    {after : α → FileDescription} (hop : ∀ d ∈ s.fds.lookup fd, Harmless n0 (final (op d s.files))) :
    (s.onDesc fd op after).Unprivileged n0 := by
  unfold Session.onDesc
  cases hd : s.fds.lookup fd with
  | none => exact h
  | some d =>
    dsimp only
    cases value (op d s.files) with
    | none => exact h.onFiles (hop d hd)
    | some a => exact ⟨hop d hd, h.real, h.effective⟩

/-- **One step.** -/
theorem Unprivileged.step {e : FileCall} (h : s.Unprivileged n0) (hok : s.Confined e) : (s.stepFile e).Unprivileged n0 := by
  cases e with
  | «open» n path flags mode => exact h.openNode flags (h.files.open hok)
  | openat n dfd name flags mode =>
    unfold stepFile
    dsimp only
    cases hd : s.dirOf dfd with
    | none => exact h
    | some d => exact h.openNode flags (h.files.openat fun hcreat => hok hcreat d hd)
  | write fd bytes => exact h.onDesc fd fun d hd => h.files.write (hok d hd)
  | chmod n path mode followLast => exact h.onFiles (h.files.chmod h.effective h.real hok)
  | chown n path uid gid followLast => exact h.onFiles (h.files.chown h.effective hok)
  | link n old new flags => exact h.onFiles (h.files.link old new flags)
  | rename n depth old new => exact h.onFiles (h.files.rename hok)
  | execve n path loads shared =>
    unfold stepFile
    dsimp only
    cases value (execFile (s.caller n) path loads s.files) with
    | none => exact h
    | some i =>
      refine ⟨h.files, h.real, ?_⟩
      show (if (s.files.node i).inode.mode &&& 0o4000 ≠ 0 then (s.files.node i).inode.uid else s.creds.uids.real) ≠ 0
      split_ifs with hset
      · exact ((h.files.2 i).1 (bne_iff_ne.2 hset)).1
      · exact h.real
  | reload i => exact h.onFiles (h.files.reload i)

end

end Session

end Kontsnor.Fs
