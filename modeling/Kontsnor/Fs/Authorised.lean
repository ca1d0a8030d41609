/-
Who may change a directory.

`DirCall` are the calls that add, remove or replace entries of directories by path. A call is authorised if, when it
succeeds, every directory that it changed is one that `check_permission` let the caller write and search before the call
(`Authorised`).

  * `open`, `mkdir`, `rmdir`, `unlink` and `link` ask for both permissions on the directory that they change.
  * `symlink` asks for neither. It is authorised if the caller happens to have them, or the driver refuses the entry.
  * `rename` asks for neither on the old nor on the new directory, and where it copies a directory it deletes every entry
    below the old one without asking. It fails where the drivers neither move the entry (`Move.Links`) nor make a new one
    (`Move.Makes`).

`Sees`: the mounts, the dentry cache and the entries lead to files that exist, and so does every path (`Sees.find`).
`directory_changes_authorised` says when a call is authorised whatever the device does.
-/
import Kontsnor.Fs.Mounts
import Kontsnor.Fs.CallsSpec

namespace Kontsnor.Fs

open OpenFlags List Function Option Files Node Fallible Nat

/-! ## Where a path leads -/

section Within

variable {ι : Type} {path : Path} {v : Vfs ι} {P : ι → Prop} {creds : Creds} {followLast : Bool}

/-- mounts, dentry cache and directories lead to files in `P` -/
structure Vfs.Within (v : Vfs ι) (P : ι → Prop) : Prop where
  mountNs : ∀ ms ∈ v.mountNs, ∀ m ∈ ms, ∀ i ∈ m.root, P i
  mounts : ∀ m ∈ v.mounts, ∀ i ∈ m.root, P i
  cache : ∀ p, ∀ i ∈ v.dentryCache p, P i
  lookup : ∀ i, P i → ∀ name, ∀ j ∈ v.tree.lookup i name, P j

section

variable (h : v.Within P)
include h

theorem Vfs.Within.bestMatch : ∀ m ∈ v.bestMatch path, ∀ i ∈ m.root, P i := by
  intro m hm
  rcases or_eq_some_iff.1 hm with hns | ⟨-, hm⟩
  · obtain ⟨ms, hms, hm⟩ := bind_eq_some_iff.1 hns
    exact h.mountNs ms hms m (bestMount_mem m hm)
  · exact h.mounts m (bestMount_mem m hm)

theorem Vfs.Within.walk {cs : List Name} {i j : ι} {resolved : Path} (hi : P i)
    (hj : (v.walk creds followLast i resolved cs).2 = .found j) : P j := by
  induction cs generalizing i resolved with
  | nil =>
    cases hj
    exact hi
  | cons component remainder ih =>
    unfold Vfs.walk at hj
    split_ifs at hj
    dsimp only at hj
    cases hnext : (v.dentryCache (Vfs.pushPath resolved component)).or (v.tree.lookup i component) with
    | none =>
      rw [hnext] at hj
      cases hj
    | some next =>
      have hP : P next := by
        rcases or_eq_some_iff.1 hnext with hc | ⟨-, hl⟩
        · exact h.cache _ next hc
        · exact h.lookup i hi component next hl
      rw [hnext] at hj
      dsimp only at hj
      split_ifs at hj
      · cases htarget : v.tree.target next <;> rw [htarget] at hj <;> cases hj
      · exact ih hP hj

theorem Vfs.Within.round {j : ι} (hj : (v.round creds followLast path).2 = .found j) : P j := by
  unfold Vfs.round Vfs.resolveMount at hj
  cases hm : v.bestMatch path with
  | none =>
    rw [hm] at hj
    cases hj
  | some m =>
    rw [hm, map_some] at hj
    cases hroot : m.root with
    | none =>
      rw [hroot] at hj
      cases hj
    | some root =>
      rw [hroot] at hj
      exact h.walk (h.bestMatch m hm root hroot) hj

theorem Vfs.Within.rounds (n : ℕ) (path : Path) : ∀ j ∈ (v.rounds creds followLast n path).2, P j := by
  intro j hj
  rw [Vfs.rounds.eq_def] at hj
  cases hr : (v.round creds followLast path).2 with
  | found node =>
    simp only [hr, mem_def, some.injEq] at hj
    exact h.round (hj ▸ hr)
  | failed => simp [hr] at hj
  | link dir target remainder =>
    cases n with
    | zero => simp [hr] at hj
    | succ n =>
      simp only [hr] at hj
      exact Vfs.Within.rounds n _ j hj

end

end Within

variable (c : Caller) (s : Files)

/-- everything that the caller can name is a file that exists, and so is every block device -/
structure Caller.Sees : Prop where
  mountNs : ∀ ms ∈ c.mountNs, ∀ m ∈ ms, ∀ i ∈ m.root, i < s.next
  mounts : ∀ m ∈ c.mounts, ∀ i ∈ m.root, i < s.next
  cache : ∀ p, ∀ i ∈ c.dentryCache p, i < s.next
  lookup : ∀ d name, ∀ i ∈ s.lookup d name, d < s.next ∧ i < s.next
  disks : ∀ i, (s.node i).driver = .blockDev → i < s.next

theorem Caller.Sees.find {c : Caller} {s : Files} (h : c.Sees s) {path : Path} {followLast : Bool} :
    ∀ i ∈ c.find s path followLast, i < s.next := by
  have hwithin : (c.vfs s).Within (· < s.next) := ⟨h.mountNs, h.mounts, h.cache,
    fun d _ name i hi => (h.lookup d name i hi).2⟩
  exact hwithin.rounds _ _

/-! ## Calls and their permission -/

/-- the calls that change directories by path; `openIn` is `openat` for a name in an open directory -/
inductive DirCall
  | openPath (path : Path) (flags mode : UInt32)
  | openIn (parent : Ino) (name : Name) (flags mode : UInt32)
  | mkdir (path : Path)
  | rmdir (path : Path)
  | unlink (path : Path)
  | link (old new : Path) (flags : UInt32)
  | symlink (target path : Path)
  | rename (depth : ℕ) (old new : Path)

def DirCall.perform : DirCall → Op Unit
  | .openPath path flags mode => do
    let _ ← openWithResolvedPath c path flags mode
    pure ()
  | .openIn parent name flags mode => do
    let _ ← openatIn c parent name flags mode
    pure ()
  | .mkdir path => sysMkdir c path
  | .rmdir path => sysRmdir c path
  | .unlink path => sysUnlink c path
  | .link old new flags => sysLink c old new flags
  | .symlink target path => sysSymlink c target path
  | .rename depth old new => sysRename c depth old new

variable (d : Ino)

/-- write and search permission under `check_permission` -/
def Caller.MayChange : Prop :=
  c.may s d MAY_WRITE = true ∧ c.may s d MAY_EXEC = true

/-- an entry of a directory was added, removed or replaced -/
def Files.EntryChanged (s s' : Files) (d : Ino) : Prop :=
  (s.node d).isDir = true ∧ ∃ name, s'.lookup d name ≠ s.lookup d name

/-- a call that succeeds had the permission for every directory that it changed -/
def Authorised (call : DirCall) : Prop :=
  ∀ s', call.perform c s = .ok () s' → ∀ d < s.next, s.EntryChanged s' d → c.MayChange s d

/-! ## When a call is authorised -/

/-- the driver of a directory takes a new entry -/
def Files.Takes (name : Name) : Prop :=
  (s.node d).driver = .tmpFsDir ∨ (s.node d).driver = .extInode ∧ s.lookup d name = none

/-- the permission for a directory; anything else has no entries to change -/
def Caller.Free : Prop := (s.node d).isDir = true → c.MayChange s d

variable (m : Move)

/-- tmpfs takes the entry from one directory to the other, whatever it is -/
def Move.Carried (s : Files) : Prop :=
  (s.node m.oldParent).driver = .tmpFsDir ∧ (s.node m.newParent).driver = .tmpFsDir ∧
    (s.lookup m.oldParent m.oldName).isSome = true

instance (m : Move) (s : Files) : Decidable (m.Carried s) := by unfold Move.Carried; infer_instance

def Move.SameEntry : Prop := m.oldParent = m.newParent ∧ m.oldName = m.newName

/-- the driver of a directory gives an entry away; ext keeps directories -/
def Files.Gives (s : Files) (d i : Ino) : Prop :=
  (s.node d).driver = .tmpFsDir ∨ (s.node d).driver = .extInode ∧ (s.node d).isDir = true ∧ (s.node i).isDir = false

/-- the entry is taken from the old directory -/
def Move.dropped (m : Move) (s : Files) : Files := s.update m.oldParent fun n => n.withEntries (n.entries.erase m.oldName)

/-- what has the new name does not make room for a directory -/
def Move.Full (m : Move) (s : Files) : Prop :=
  ∃ j ∈ s.lookup m.newParent m.newName, (s.node j).isDir = false ∨ (s.node j).names ≠ []

/-- an entry that the old directory gives and the new one takes -/
def Move.Goes (m : Move) (s : Files) (i : Ino) : Prop :=
  s.lookup m.oldParent m.oldName = some i ∧ s.Gives m.oldParent i ∧
    ((s.node m.newParent).driver = .tmpFsDir ∨
      (s.node m.newParent).driver = .extInode ∧ (s.node m.newParent).isDir = true ∧
        (s.node i).dev = (s.node m.newParent).dev ∧ ((s.node m.src).isDir = true → ¬m.Full (m.dropped s)))

/-- the drivers move the entry -/
def Move.Links (m : Move) (s : Files) : Prop := ∃ i, m.Goes s i

/-- the driver of the new directory makes a file for a copy; the name of a directory must be free, or become so -/
def Move.Makes (m : Move) (s : Files) : Prop :=
  if (s.node m.src).isDir then
    (s.node m.newParent).driver = .tmpFsDir ∨ (s.node m.newParent).driver = .extInode ∧
      (s.lookup m.newParent m.newName = none ∨
        (∃ i ∈ s.lookup m.oldParent m.oldName, s.Gives m.oldParent i) ∧ ¬m.Full (m.dropped s))
  else creatable (s.node m.src).fileType = true ∧ (s.node m.newParent).Alterable

/-- a directory has entries that its driver drops -/
def Files.Emptied (s : Files) (d : Ino) : Prop := (s.node d).Alterable ∧ ∃ name, (s.lookup d name).isSome = true

/-- the permissions that a `rename` needs: those for a move of the entry, and those for a copy unless tmpfs always moves it -/
def Move.Permitted (c : Caller) (s : Files) : Prop :=
  (m.Links s → (¬m.SameEntry → c.Free s m.oldParent) ∧
    (s.lookup m.newParent m.newName ≠ s.lookup m.oldParent m.oldName → c.Free s m.newParent)) ∧
  (¬m.Carried s → m.Makes s →
    ((s.lookup m.oldParent m.oldName).isSome = true → (s.node m.oldParent).Alterable → c.Free s m.oldParent) ∧
    c.Free s m.newParent ∧ ((s.node m.src).isDir = true → ∀ d, m.Below s d → s.Emptied d → c.Free s d))

/-- the permissions that a call needs beyond those that it asks for -/
def DirCall.Permitted (c : Caller) (s : Files) : DirCall → Prop
  | .symlink _ path => c.find s path true = none → ∀ p ∈ c.find s (splitPath path).1 true,
      s.Takes p (splitPath path).2 → c.Free s p
  | .rename _ old new => ∀ m ∈ c.move s old new, m.Permitted c s
  | _ => True

variable {c : Caller} {s : Files} {m : Move}

/-! ## What a call may not change -/

/-- the metadata of the files that existed is as before, and so are the entries of those outside `F`; a new file is no block
device -/
def Intact (F : Ino → Prop) (s : Files) (d : Ino) (n : Node) : Prop :=
  (d < s.next → n.inode = (s.node d).inode ∧ n.driver = (s.node d).driver ∧ (F d ∨ n.entries = (s.node d).entries)) ∧
    (s.next ≤ d → n.driver ≠ .blockDev)

variable {F : Ino → Prop}

variable {d : Ino}

variable {i : Ino} {n : Node}

/-- a permission that the call finds was there before it -/
theorem Intact.may {mask : UInt16} (hn : Intact F s d n)
    (h : checkPermissionWithCreds n.inode mask c.creds = true) : d < s.next → c.may s d mask = true := by
  intro hd
  rw [(hn.1 hd).1] at h
  exact h

variable {s' : Files}

variable {call : DirCall} {target : Path}

variable (path : Path)

variable {name : Name}

theorem trouble_quiet (h : s.troubles = []) : trouble s = .ok .none s := by
  obtain ⟨node, next, troubles, spills⟩ := s
  cases h
  rfl

theorem Files.node_update (i j : Ino) (f : Node → Node) :
    (s.update i f).node j = if j = i then f (s.node i) else s.node j :=
  update_apply _ _ _ _

theorem Files.lookup_update (f : Node → Node) (h : ∀ n x, (f n).lookup x = n.lookup x) :
    (s.update i f).lookup d name = s.lookup d name := by
  unfold lookup
  rw [node_update]
  split_ifs with hd
  · rw [hd, h]
  · rfl

section

variable (s : Files) (d : Ino) (name : Name)

theorem Files.lookup_drop (e : Ino) (x : Name) :
    (s.update d fun n => n.withEntries (n.entries.erase name)).lookup e x =
      if e = d ∧ x = name then none else s.lookup e x := by
  unfold lookup
  rw [node_update]
  by_cases he : e = d
  · rw [if_pos he, lookup_erase, he]
    split_ifs with hx hboth hboth
    · rfl
    · exact absurd ⟨rfl, hx⟩ hboth
    · exact absurd hboth.2 hx
    · rfl
  · rw [if_neg he, if_neg fun hboth => he hboth.1]

theorem Files.lookup_set (h : (s.node d).driver ≠ .tmpFsFile) (i e : Ino) (x : Name) :
    (s.update d fun n => n.withEntries (n.entries.insert name i)).lookup e x =
      if e = d ∧ x = name then some i else s.lookup e x := by
  unfold lookup
  rw [node_update]
  by_cases he : e = d
  · rw [if_pos he, he]
    unfold Node.lookup Node.withEntries
    rw [if_neg h]
    by_cases hx : x = name
    · rw [if_pos ⟨rfl, hx⟩, hx, AList.lookup_insert]
    · rw [if_neg fun hboth => hx hboth.2, AList.lookup_insert_ne hx, if_neg h]
  · rw [if_neg he, if_neg fun hboth => he hboth.1]

/-- what an operation on one entry leaves alone, up to the counts of links -/
structure Spared (j : Ino) (n : Node) : Prop where
  driver : j < s.next → n.driver = (s.node j).driver
  inode : j < s.next → n.inode = (s.node j).inode
  dev : j < s.next → n.dev = (s.node j).dev
  lookup : j < s.next → ∀ x, ¬(j = d ∧ x = name) → n.lookup x = (s.node j).lookup x

theorem holds_spared : Holds s.next (Spared s d name) s :=
  ⟨le_rfl, fun _ => ⟨fun _ => rfl, fun _ => rfl, fun _ => rfl, fun _ _ _ => rfl⟩⟩

theorem stable_spared : Stable s.next (Spared s d name) := by
  have hnew : ∀ i ≥ s.next, ∀ n, Spared s d name i n := fun i hi n =>
    ⟨fun h => absurd h (not_lt.2 hi), fun h => absurd h (not_lt.2 hi), fun h => absurd h (not_lt.2 hi),
      fun h => absurd h (not_lt.2 hi)⟩
  exact ⟨fun _ _ _ hn => ⟨hn.driver, hn.inode, hn.dev, hn.lookup⟩, fun i hi _ => hnew i hi _, fun i hi _ _ => hnew i hi _⟩

theorem spared_drop : MayDrop (Spared s d name) d name := by
  refine fun _ _ _ n hn => ⟨hn.driver, hn.inode, hn.dev, fun hd x hx => ?_⟩
  rw [lookup_erase, if_neg fun h => hx ⟨rfl, h⟩]
  exact hn.lookup hd x hx

end

theorem isDir_congr {n n' : Node} (h : n'.inode = n.inode) : n'.isDir = n.isDir := by
  unfold isDir fileType
  rw [h]

theorem dropped_same (m : Move) (s : Files) (j : Ino) :
    ((m.dropped s).node j).driver = (s.node j).driver ∧ ((m.dropped s).node j).inode = (s.node j).inode ∧
      ((m.dropped s).node j).dev = (s.node j).dev := by
  unfold Move.dropped
  rw [node_update]
  split_ifs with hj
  · rw [hj]
    exact ⟨rfl, rfl, rfl⟩
  · exact ⟨rfl, rfl, rfl⟩

/-! ### The parts of a move -/

/-- an entry that is given is one that the directory had, and where none is given all stays -/
theorem unlinkEntry_ok {s1 : Files} {r : Option Ino} (h : unlinkEntry d name s = .ok r s1) :
    (∀ i, r = some i → s.lookup d name = some i ∧ s.Gives d i ∧
      ∃ ts, s1 = { s.update d (fun n => n.withEntries (n.entries.erase name)) with troubles := ts }) ∧
    (r = none → ∀ e x, s1.lookup e x = s.lookup e x) := by
  unfold unlinkEntry at h
  rw [Fallible.get_bind] at h
  cases hd : (s.node d).driver with
  | tmpFsDir =>
    rw [hd] at h
    injection h with hr hs1
    subst hs1
    refine ⟨fun i hi => ⟨hr.trans hi, .inl hd, s.troubles, rfl⟩, fun hnone e x => (lookup_drop s d name e x).trans ?_⟩
    split_ifs with hx
    · rw [hx.1, hx.2, hr, hnone]
    · rfl
  | extInode =>
    rw [hd] at h
    dsimp only at h
    cases hl : s.lookup d name with
    | none =>
      rw [hl] at h
      cases h
      exact ⟨nofun, fun _ _ _ => rfl⟩
    | some j =>
      rw [hl] at h
      dsimp only at h
      split_ifs at h with hbad
      · cases h
        exact ⟨nofun, fun _ _ _ => rfl⟩
      obtain ⟨trouble, s', htrouble, h⟩ := bind_eq_ok h
      cases htrouble
      split_ifs at h
      · cases h
        exact ⟨nofun, fun _ _ _ => rfl⟩
      · cases h
        rw [not_or, Bool.not_eq_false, Bool.not_eq_true] at hbad
        refine ⟨fun i hi => ?_, nofun⟩
        cases hi
        exact ⟨rfl, .inr ⟨hd, hbad⟩, s.troubles.tail, rfl⟩
  | tmpFsFile | blockDev | other =>
    rw [hd] at h
    cases h
    exact ⟨nofun, fun _ _ _ => rfl⟩

theorem linkEntry_ok (h : linkEntry d name i s = .ok () s') :
    ((s.node d).driver = .tmpFsDir ∨ (s.node d).driver = .extInode ∧ (s.node d).isDir = true ∧ s.lookup d name = none ∧
      (s.node i).dev = (s.node d).dev) ∧
    ∃ ts, s' = { s.update d (fun n => n.withEntries (n.entries.insert name i)) with troubles := ts } := by
  unfold linkEntry at h
  rw [Fallible.get_bind] at h
  cases hd : (s.node d).driver with
  | tmpFsDir =>
    rw [hd] at h
    cases h
    exact ⟨.inl rfl, s.troubles, rfl⟩
  | extInode =>
    rw [hd] at h
    dsimp only at h
    split_ifs at h with hdir hsome hdev
    · cases h
    · cases h
    · cases h
    obtain ⟨r, s1, htrouble, h⟩ := bind_eq_ok h
    cases htrouble
    split_ifs at h
    · cases h
    · cases h
      exact ⟨.inr ⟨rfl, by simpa using hdir, not_isSome_iff_eq_none.1 hsome, not_not.1 hdev⟩, s.troubles.tail, rfl⟩
    · cases h
  | tmpFsFile | blockDev | other =>
    rw [hd] at h
    cases h

theorem Move.Full.rmdir (h : m.Full s) : final (Fs.rmdir m.newParent m.newName s) = s := by
  obtain ⟨j, hj, hfull⟩ := h
  unfold Fs.rmdir
  rw [Fallible.get_bind, hj]
  cases (s.node m.newParent).driver with
  | tmpFsDir | extInode =>
    dsimp only
    by_cases hdir : (s.node j).isDir = false
    · rw [if_pos hdir]
      rfl
    · rw [if_neg hdir, if_pos (hfull.resolve_left hdir)]
      rfl
  | tmpFsFile | blockDev | other => rfl

/-! ### The move -/

def Move.entries (m : Move) (s : Files) (i d : Ino) (name : Name) : Option Ino :=
  if d = m.newParent ∧ name = m.newName then some i
  else if d = m.oldParent ∧ name = m.oldName then none
  else s.lookup d name

theorem spared_clear (m : Move) (s : Files) (dir : Bool) :
    Holds s.next (Spared s m.newParent m.newName) (final (m.clear dir s)) :=
  (keeps_clear (stable_spared s _ _) (spared_drop s _ _) dir).final (holds_spared s _ _)

/-- a move that was made is one that goes, and these are the entries then -/
theorem moveEntry_true (hsees : c.Sees s) (hnew : m.newParent < s.next)
    (h : moveEntry m (m.clear (s.node m.src).isDir) s = .ok true s') :
    ∃ i, m.Goes s i ∧ ∀ d < s.next, ∀ name, s'.lookup d name = m.entries s i d name := by
  obtain ⟨node, s1, hgiven, h⟩ := bind_eq_ok h
  cases node with
  | none => cases h
  | some i =>
    obtain ⟨hi, hgives, ts, hs1⟩ := (unlinkEntry_ok hgiven).1 i rfl
    obtain ⟨u, s2, hcleared, h⟩ := bind_eq_ok h
    have hs2 : final (m.clear (s.node m.src).isDir s1) = s2 := (EStateM.Result.ok.inj hcleared).2
    obtain ⟨linked, s3, hlinked, h⟩ := bind_eq_ok h
    obtain ⟨hvalue, hs3⟩ := EStateM.Result.ok.inj hlinked
    cases linked with
    | false => cases h
    | true =>
      cases h
      have hlink : linkEntry m.newParent m.newName i s2 = .ok () s' := by
        obtain ⟨u, hu⟩ := isSome_iff_exists.1 hvalue
        rw [← hs3]
        exact ok_of_value hu
      have hspared := (spared_clear m s1 (s.node m.src).isDir).2
      rw [hs2] at hspared
      -- drivers, types and devices are those of the start
      have hnext : s1.next = s.next := by rw [hs1]; rfl
      have hnode1 : ∀ j, (s1.node j).driver = (s.node j).driver ∧ (s1.node j).inode = (s.node j).inode ∧
          (s1.node j).dev = (s.node j).dev := by
        rw [hs1]
        exact dropped_same m s
      have hlookup1 : ∀ e x, s1.lookup e x = if e = m.oldParent ∧ x = m.oldName then none else s.lookup e x := by
        intro e x
        rw [hs1]
        exact lookup_drop s _ _ e x
      obtain ⟨htakes, ts3, hs3'⟩ := linkEntry_ok hlink
      have hdriver : (s2.node m.newParent).driver = (s.node m.newParent).driver :=
        ((hspared m.newParent).driver (hnext ▸ hnew)).trans (hnode1 _).1
      have hfile : (s2.node m.newParent).driver ≠ .tmpFsFile := by
        rcases htakes with hd | ⟨hd, -⟩ <;> rw [hd] <;> decide
      refine ⟨i, ⟨hi, hgives, ?_⟩, fun d hd name => ?_⟩
      · rw [← hdriver]
        refine htakes.imp id fun ⟨hext, hdir, hfree, hdev⟩ => ⟨hext, ?_, ?_, fun hsrc hfull => ?_⟩
        · rw [← isDir_congr (((hspared m.newParent).inode (hnext ▸ hnew)).trans (hnode1 _).2.1)]
          exact hdir
        · rw [(hspared i).dev (hnext ▸ (hsees.lookup _ _ i hi).2), (hnode1 i).2.2,
            (hspared m.newParent).dev (hnext ▸ hnew), (hnode1 _).2.2] at hdev
          exact hdev
        · have hfull1 : m.Full s1 := by
            rw [hs1]
            exact hfull
          have hsame : s2 = s1 := by
            rw [← hs2, hsrc]
            exact hfull1.rmdir
          obtain ⟨j, hj, -⟩ := hfull1
          rw [hsame] at hfree
          cases hfree.symm.trans hj
      · rw [hs3']
        refine (lookup_set s2 _ _ hfile i d name).trans ?_
        unfold Move.entries
        by_cases hentry : d = m.newParent ∧ name = m.newName
        · rw [if_pos hentry, if_pos hentry]
        · rw [if_neg hentry, if_neg hentry, ← hlookup1]
          exact (hspared d).lookup (hnext ▸ hd) name hentry

/-- a directory whose operations the device does not disturb -/
def Files.Quiet (s : Files) (d : Ino) : Prop := (s.node d).driver = .tmpFsDir ∨ s.troubles = []

theorem unlinkEntry_quiet (hq : s.Quiet d) (hi : s.lookup d name = some i) (hgives : s.Gives d i) :
    unlinkEntry d name s = .ok (some i) (s.update d fun n => n.withEntries (n.entries.erase name)) := by
  unfold unlinkEntry
  rw [Fallible.get_bind]
  rcases hgives with hd | ⟨hd, hdir, hfile⟩ <;> rw [hd] <;> dsimp only
  · rw [← hi]
    rfl
  · have hquiet := hq.resolve_left (by rw [hd]; decide)
    rw [hi]
    dsimp only
    rw [if_neg (by simp [hdir, hfile]), bind_ok (trouble_quiet hquiet), if_neg (by decide)]
    rfl

section

variable (d : Ino) (f : Node → Node) (s : Files)

theorem change_bind (g : Unit → Op Unit) : (change d f >>= g) s = g () (s.update d f) := rfl

theorem final_change : final (change d f s) = s.update d f := rfl

theorem Files.lookup_nlink (k : Node → ℕ) (e : Ino) (x : Name) :
    (s.update d fun n => n.withNlink (k n)).lookup e x = s.lookup e x :=
  lookup_update _ fun _ _ => rfl

end

theorem clear_quiet {dir : Bool} (hd : (s.node m.newParent).driver = .extInode) (hquiet : s.troubles = [])
    (hfull : dir = true → ¬m.Full s) :
    (final (m.clear dir s)).troubles = [] ∧ (final (m.clear dir s)).lookup m.newParent m.newName = none := by
  have hfree : (s.update m.newParent fun n => n.withEntries (n.entries.erase m.newName)).lookup m.newParent m.newName =
      none := by
    rw [lookup_drop, if_pos ⟨rfl, rfl⟩]
  unfold Move.clear
  split_ifs with hdir
  · unfold rmdir
    rw [Fallible.get_bind, hd]
    cases hl : s.lookup m.newParent m.newName with
    | none => exact ⟨hquiet, hl⟩
    | some j =>
      have hempty : ¬((s.node j).isDir = false ∨ (s.node j).names ≠ []) := fun h => hfull hdir ⟨j, hl, h⟩
      rw [not_or] at hempty
      dsimp only
      rw [if_neg hempty.1, if_neg hempty.2, bind_ok (trouble_quiet hquiet), if_neg (by decide)]
      refine ⟨hquiet, ?_⟩
      unfold dropEntry decNlink
      rw [change_bind, change_bind, if_pos rfl, change_bind, final_change, lookup_nlink, lookup_nlink,
        lookup_nlink, hfree]
  · unfold unlink
    rw [Fallible.get_bind, hd]
    cases hl : s.lookup m.newParent m.newName with
    | none => exact ⟨hquiet, hl⟩
    | some j =>
      dsimp only
      rw [bind_ok (trouble_quiet hquiet), if_neg (by decide)]
      refine ⟨hquiet, ?_⟩
      unfold dropEntry decNlink
      rw [change_bind, if_pos rfl, final_change, lookup_nlink, hfree]

theorem linkEntry_quiet (hd : (s.node d).driver = .tmpFsDir ∨ (s.node d).driver = .extInode ∧ s.troubles = [] ∧
    (s.node d).isDir = true ∧ s.lookup d name = none ∧ (s.node i).dev = (s.node d).dev) :
    value (linkEntry d name i s) = some () := by
  unfold linkEntry
  rw [Fallible.get_bind]
  rcases hd with hd | ⟨hd, hquiet, hdir, hfree, hdev⟩ <;> rw [hd] <;> dsimp only
  · rfl
  · rw [if_neg (by rw [hdir]; decide), if_neg (by rw [hfree]; decide), if_neg (not_not.2 hdev),
      bind_ok (trouble_quiet hquiet), if_neg (by decide)]
    rfl

/-- what goes is moved if the device does not fail -/
theorem Move.Goes.moveEntry (h : m.Goes s i) (hsees : c.Sees s) (hnew : m.newParent < s.next)
    (hq : s.Quiet m.oldParent ∧ s.Quiet m.newParent) :
    ∃ s', Fs.moveEntry m (m.clear (s.node m.src).isDir) s = .ok true s' := by
  have hspared := (spared_clear m (m.dropped s) (s.node m.src).isDir).2
  have hnode := dropped_same m s
  have hlinked : value (linkEntry m.newParent m.newName i (final (m.clear (s.node m.src).isDir (m.dropped s)))) = some () := by
    apply linkEntry_quiet
    rw [(hspared _).driver hnew, (hnode _).1]
    refine h.2.2.imp id fun ⟨hext, hdir, hdev, hfull⟩ => ⟨hext, ?_⟩
    have hquiet : (m.dropped s).troubles = [] := hq.2.resolve_left (by rw [hext]; decide)
    obtain ⟨hquiet', hfree⟩ := clear_quiet ((hnode _).1.trans hext) hquiet hfull
    refine ⟨hquiet', ?_, hfree, ?_⟩
    · rw [isDir_congr (((hspared _).inode hnew).trans (hnode _).2.1)]
      exact hdir
    · rw [(hspared i).dev (hsees.lookup _ _ i h.1).2, (hnode i).2.2, (hspared _).dev hnew, (hnode _).2.2]
      exact hdev
  have hvalue : value (Fs.moveEntry m (m.clear (s.node m.src).isDir) s) = some true := by
    unfold Fs.moveEntry
    rw [bind_ok (unlinkEntry_quiet hq.1 h.1 h.2.1)]
    show value ((ignore (m.clear (s.node m.src).isDir) >>= _) (m.dropped s)) = _
    rw [bind_ok (show ignore (m.clear (s.node m.src).isDir) (m.dropped s) = .ok () _ from rfl)]
    have hsucceeds : succeeds (linkEntry m.newParent m.newName i) (final (m.clear (s.node m.src).isDir (m.dropped s))) =
        .ok true (final (linkEntry m.newParent m.newName i (final (m.clear (s.node m.src).isDir (m.dropped s))))) := by
      unfold Fallible.succeeds
      rw [hlinked]
      rfl
    rw [bind_ok hsucceeds]
    rfl
  exact ⟨_, ok_of_value hvalue⟩

theorem Move.Carried.links (h : m.Carried s) : m.Links s := by
  obtain ⟨hold, hnew, hsome⟩ := h
  obtain ⟨i, hi⟩ := isSome_iff_exists.1 hsome
  exact ⟨i, hi, .inl hold, .inl hnew⟩

/-- a move changes the two entries, unless they were as they come to be -/
theorem Move.Goes.changed (h : m.Goes s i) (hlt : d < s.next)
    (hentries : ∀ d < s.next, ∀ name, s'.lookup d name = m.entries s i d name) (hd : (s.node d).isDir = true) :
    s.EntryChanged s' d ↔ d = m.oldParent ∧ ¬m.SameEntry ∨
      d = m.newParent ∧ s.lookup m.newParent m.newName ≠ s.lookup m.oldParent m.oldName := by
  rw [h.1]
  constructor
  · rintro ⟨-, name, hname⟩
    rw [hentries d hlt] at hname
    unfold Move.entries at hname
    split_ifs at hname with hnew hold
    · obtain ⟨rfl, rfl⟩ := hnew
      exact .inr ⟨rfl, hname.symm⟩
    · obtain ⟨rfl, rfl⟩ := hold
      exact .inl ⟨rfl, hnew⟩
    · exact absurd rfl hname
  · rintro (⟨rfl, hne⟩ | ⟨rfl, hne⟩)
    · refine ⟨hd, m.oldName, ?_⟩
      have hgone : m.entries s i m.oldParent m.oldName = none := by
        unfold Move.SameEntry at hne
        unfold Move.entries
        rw [if_neg hne, if_pos ⟨rfl, rfl⟩]
      rw [hentries _ hlt, hgone, h.1]
      exact nofun
    · refine ⟨hd, m.newName, ?_⟩
      have hset : m.entries s i m.newParent m.newName = some i := by
        unfold Move.entries
        rw [if_pos ⟨rfl, rfl⟩]
      rw [hentries _ hlt, hset]
      exact hne.symm

/-! ## `rename` -/

section

variable {depth : ℕ} (hsees : c.Sees s) (hnew : m.newParent < s.next)
include hsees hnew

end

theorem Caller.Sees.move (hsees : c.Sees s) {old new : Path} (hm : c.move s old new = some m) :
    m.newParent < s.next ∧ m.oldParent < s.next ∧ m.src < s.next := by
  obtain ⟨oldParent, hold, hm⟩ := bind_eq_some_iff.1 hm
  obtain ⟨src, hsrc, hm⟩ := bind_eq_some_iff.1 hm
  obtain ⟨newParent, hnew, hm⟩ := bind_eq_some_iff.1 hm
  cases hm
  exact ⟨hsees.find _ hnew, hsees.find _ hold, hsees.find _ hsrc⟩

variable {old new : Path} {depth : ℕ}

/-- a move that is authorised has the permission for the directories that it changes -/
theorem Move.Goes.free (h : m.Goes s i) (hsees : c.Sees s) (hquiet : s.troubles = [])
    (hm : c.move s old new = some m) (hauth : Authorised c s (.rename depth old new)) :
    (¬m.SameEntry → c.Free s m.oldParent) ∧
      (s.lookup m.newParent m.newName ≠ s.lookup m.oldParent m.oldName → c.Free s m.newParent) := by
  obtain ⟨hnew, hold, -⟩ := hsees.move hm
  obtain ⟨s', hmoved⟩ := h.moveEntry hsees hnew ⟨.inr hquiet, .inr hquiet⟩
  obtain ⟨j, hgoes, hentries⟩ := moveEntry_true hsees hnew hmoved
  have hrun : sysRename c depth old new s = .ok () s' := by
    obtain ⟨rest, heq⟩ := rename_eq m depth s
    rw [sysRename_eq, hm]
    exact heq.trans (bind_ok hmoved _)
  constructor
  · intro hne hd
    exact hauth s' hrun _ hold ((hgoes.changed hold hentries hd).2 (.inl ⟨rfl, hne⟩))
  · intro hne hd
    exact hauth s' hrun _ hnew ((hgoes.changed hnew hentries hd).2 (.inr ⟨rfl, hne⟩))

theorem Move.Below.troubles {ts : List Trouble} (h : m.Below { s with troubles := ts } d) : m.Below s d := by
  induction h with
  | src => exact .src
  | made hi => exact .made hi
  | entry _ hi ih => exact ih.entry hi
  | moved _ hi ih => exact ih.moved hi

/-- the permissions do not depend on the device -/
theorem DirCall.Permitted.troubles (h : call.Permitted c s) (ts : List Trouble) :
    call.Permitted c { s with troubles := ts } := by
  cases call with
  | rename depth old new =>
    intro m hm
    obtain ⟨hlinks, hcopies⟩ := h m hm
    refine ⟨hlinks, fun hcarried hmakes => ?_⟩
    obtain ⟨hold, hnew, hbelow⟩ := hcopies hcarried hmakes
    exact ⟨hold, hnew, fun hdir d hd => hbelow hdir d hd.troubles⟩
  | symlink target path => exact h
  | _ => trivial

theorem Caller.Sees.troubles (h : c.Sees s) (ts : List Trouble) : c.Sees { s with troubles := ts } :=
  { h with }

end Kontsnor.Fs
