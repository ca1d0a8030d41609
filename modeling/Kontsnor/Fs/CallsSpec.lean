/-
What the calls leave alone.

The lemmas of `StoreSpec` carried along the calls of `Calls`, for any statement `R` about single nodes. Looking up and
checking changes nothing (`lookupFollow_eq`, `keeps_checkPermission`). For `rename`, `Moves R m Q` is what `R` must allow
of the two directories, and `Fresh R B` of the files that it makes as copies of those in `B`. It copies and deletes only what is
below the source (`Move.Below`), since entries lead from there to files that are below it, too (`Move.Leads`).
-/
import Kontsnor.Fs.StoreSpec
import Kontsnor.Fs.Calls

namespace Kontsnor.Fs

open Fallible (Keeps Respects final value value_of_ok get_bind bind_ok bind_error)
open OpenFlags

variable {n0 : ℕ} {R : Ino → Node → Prop} {c : Caller}

/-! ## Looking up and checking -/

section

variable (c : Caller) (path : Path) (followLast : Bool)

theorem lookupFollow_eq (s : Files) :
    lookupFollow c path followLast s =
      match c.find s path followLast with
      | some i => .ok i s
      | none => .error (.errno .ENOENT) s := by
  unfold lookupFollow
  rw [get_bind]
  cases c.find s path followLast <;> rfl

theorem keeps_lookupFollow : Respects (Holds n0 R) (lookupFollow c path followLast) := by
  intro s hs
  rw [lookupFollow_eq]
  cases c.find s path followLast with
  | none => exact hs
  | some i => exact ⟨hs, trivial⟩

end

theorem keeps_checkPermission {i : Ino} {mask : UInt16} {P : Prop}
    (h : ∀ n, R i n → checkPermissionWithCreds n.inode mask c.creds = true → P) :
    Keeps (Holds n0 R) (checkPermission c i mask) fun _ => P := by
  refine .get fun s hs => ?_
  exact .ite (fun hmay => .pure (h _ (hs.2 i) hmay)) fun _ => .fail

variable {Q : Ino → Prop}

theorem keeps_writableParent {path : Path} {P : Ino → Prop}
    (hP : ∀ i n, R i n → checkPermissionWithCreds n.inode MAY_WRITE c.creds = true → P i)
    (hQ : ∀ i n, R i n → checkPermissionWithCreds n.inode MAY_EXEC c.creds = true → Q i) :
    Keeps (Holds n0 R) (writableParent c path) fun i => P i ∧ Q i := by
  refine (keeps_lookupFollow c _ true).bind fun parent _ => ?_
  refine .get fun s _ => ?_
  refine .check fun _ => ?_
  refine (keeps_checkPermission (hP parent)).bind fun _ hp => ?_
  exact (keeps_checkPermission (hQ parent)).bind fun _ hq => .pure ⟨hp, hq⟩

/-! ## `open` -/

theorem keeps_checkOpenExisting {i : Ino} {flags : UInt32} {followLast : Bool}
    (h : has flags O_TRUNC = true → (isWritable flags = true → ∃ n, R i n ∧
      checkPermissionWithCreds n.inode MAY_WRITE c.creds = true) → MayResize R i) :
    Keeps (Holds n0 R) (checkOpenExisting c i flags followLast) fun _ => isWritable flags = true → ∃ n, R i n ∧
      checkPermissionWithCreds n.inode MAY_WRITE c.creds = true := by
  refine .get fun s hs => ?_
  refine .check fun _ => ?_
  refine .check fun _ => ?_
  refine .check fun _ => ?_
  refine .check fun _ => ?_
  refine .check fun _ => ?_
  refine .check fun hwrite => ?_
  have hmay : isWritable flags = true → ∃ n, R i n ∧ checkPermissionWithCreds n.inode MAY_WRITE c.creds = true := by
    intro hw
    refine ⟨s.node i, hs.2 i, ?_⟩
    rw [not_and, Bool.not_eq_false] at hwrite
    exact hwrite hw
  refine .ite (fun htrunc => ?_) fun _ => .pure hmay
  exact (keeps_truncate (h htrunc.1 hmay) 0).mono fun _ _ => hmay

theorem keeps_createFile (hR : Stable n0 R) {parent : Ino} {name : Name} {mode : UInt32}
    (hset : ∀ i ≥ n0, MaySet R parent name i) (hmode : ∀ i ≥ n0, MayChmod R i (fileMode c.umask mode)) :
    Keeps (Holds n0 R) (createFile c parent name mode) fun i => n0 ≤ i := by
  refine (keeps_create hR hset .regular).bind fun made hmade => ?_
  cases made with
  | none => exact .fail
  | some i =>
    have hi := hmade i rfl
    exact (keeps_setPermissions (hmode i hi)).ignore.bind fun _ _ => .pure hi

theorem kept_openWithResolvedPath {s : Files} (hs : Holds n0 R s) {path : Path} {flags mode : UInt32}
    (hpty : Keeps (Holds n0 R) (alloc ptyNode) Q)
    (hold : ∀ i, c.find s path (!has flags O_NOFOLLOW) = some i →
      Keeps (Holds n0 R) (checkOpenExisting c i flags (!has flags O_NOFOLLOW)) fun _ => Q i)
    (hnew : has flags O_CREAT = true → c.find s path (!has flags O_NOFOLLOW) = none → ∀ parent name,
      Keeps (Holds n0 R) (createFile c parent name mode) Q) :
    Holds n0 R (final (openWithResolvedPath c path flags mode s)) ∧
      ∀ i ∈ value (openWithResolvedPath c path flags mode s), Q i := by
  unfold openWithResolvedPath
  by_cases hpath : path = "/dev/ptmx".toList
  · rw [if_pos hpath]
    exact hpty.outcome hs
  · rw [if_neg hpath, get_bind]
    cases hfind : c.find s path (!has flags O_NOFOLLOW) with
    | some i => exact Keeps.outcome ((hold i hfind).bind fun _ hi => .pure hi) hs
    | none =>
      refine Keeps.outcome (Q := Q) (.ite (fun hcreat => ?_) fun _ => .fail) hs
      have hparent : Keeps (Holds n0 R) (writableParent c path) fun _ => True ∧ True :=
        keeps_writableParent (fun _ _ _ _ => trivial) fun _ _ _ _ => trivial
      exact hparent.bind fun parent _ => hnew hcreat hfind parent _

theorem kept_openatIn {s : Files} (hs : Holds n0 R s) {parent : Ino} {name : Name} {flags mode : UInt32}
    (hold : ∀ i, s.lookup parent name = some i →
      Keeps (Holds n0 R) (checkOpenExisting c i flags (!has flags O_NOFOLLOW)) fun _ => Q i)
    (hnew : has flags O_CREAT = true → s.lookup parent name = none → Keeps (Holds n0 R) (createFile c parent name mode) Q) :
    Holds n0 R (final (openatIn c parent name flags mode s)) ∧ ∀ i ∈ value (openatIn c parent name flags mode s), Q i := by
  unfold openatIn
  rw [get_bind]
  have hmay : ∀ mask, Respects (Holds n0 R) (checkPermission c parent mask) :=
    fun mask => keeps_checkPermission fun _ _ _ => trivial
  cases hfind : s.lookup parent name with
  | some i => exact Keeps.outcome ((hold i hfind).bind fun _ hi => .pure hi) hs
  | none =>
    refine Keeps.outcome (Q := Q) (.ite (fun hcreat => ?_) fun _ => .fail) hs
    exact (hmay MAY_WRITE).bind fun _ _ => (hmay MAY_EXEC).bind fun _ _ => hnew hcreat hfind

/-! ## `link` -/

theorem keeps_sysLink (hR : Stable n0 R) {P : Ino → Prop}
    (hP : ∀ i n, R i n → checkPermissionWithCreds n.inode MAY_WRITE c.creds = true → P i)
    (hQ : ∀ i n, R i n → checkPermissionWithCreds n.inode MAY_EXEC c.creds = true → Q i)
    (hset : ∀ d, P d → Q d → ∀ name i, MaySet R d name i) (hdrop : ∀ d, P d → Q d → ∀ name, MayDrop R d name)
    (old new : Path) (flags : UInt32) : Respects (Holds n0 R) (sysLink c old new flags) := by
  refine (keeps_lookupFollow c old _).bind fun src _ => ?_
  refine .get fun s _ => ?_
  refine .check fun _ => ?_
  refine (keeps_lookupFollow c _ true).bind fun parent _ => ?_
  refine .check fun _ => ?_
  refine .check fun _ => ?_
  refine (keeps_checkPermission (hP parent)).bind fun _ hp => ?_
  refine (keeps_checkPermission (hQ parent)).bind fun _ hq => ?_
  refine .check fun _ => ?_
  refine (keeps_linkEntry (hset parent hp hq _ src)).bind fun _ _ => ?_
  refine (keeps_incNlink hR src).succeeds.bind fun counted _ => ?_
  refine .early trivial fun _ => ?_
  refine (keeps_unlinkEntry (hdrop parent hp hq _) fun _ _ _ _ _ => trivial).ignore.bind fun _ _ => ?_
  exact .fail

/-! ## `rename` -/

/-- what `rename` may do to the files that it adds; `B` are those that it copies -/
structure Fresh (n0 : ℕ) (R : Ino → Node → Prop) (B : Ino → Prop) : Prop where
  entry : ∀ d ≥ n0, ∀ name, ∀ i ≥ n0, MaySet R d name i
  content : ∀ i ≥ n0, MayResize R i
  plain : ∀ i ≥ n0, ∀ n, R i n → n.driver ≠ .blockDev
  metadata : ∀ src, B src → ∀ n, R src n → ∀ i ≥ n0, Respects (Holds n0 R) (applyMetadata i n.inode)

theorem Fresh.mayWrite {B : Ino → Prop} (hF : Fresh n0 R B) {i : Ino} (hi : n0 ≤ i) : MayWrite R i :=
  ⟨hF.content i hi, fun n hn hdisk => absurd hdisk (hF.plain i hi n hn)⟩

/-- what `rename` may do to the two directories: `Q` is what is linked under the old name -/
structure Moves (n0 : ℕ) (R : Ino → Node → Prop) (m : Move) (Q : Ino → Prop) : Prop where
  dropOld : MayDrop R m.oldParent m.oldName
  dropNew : MayDrop R m.newParent m.newName
  moved : ∀ n, R m.oldParent n → n.Alterable → ∀ i ∈ n.lookup m.oldName, Q i
  setOld : ∀ i, Q i → MaySet R m.oldParent m.oldName i
  setNew : ∀ i, Q i → MaySet R m.newParent m.newName i
  made : ∀ i ≥ n0, MaySet R m.newParent m.newName i

variable {m : Move} {B : Ino → Prop}

theorem keeps_moveEntry (hM : Moves n0 R m Q) {clear : Op Unit}
    (hclear : Respects (Holds n0 R) clear) : Respects (Holds n0 R) (moveEntry m clear) := by
  refine (keeps_unlinkEntry hM.dropOld hM.moved).bind fun node hnode => ?_
  cases node with
  | none => exact .pure trivial
  | some i =>
    have hi := hnode i rfl
    refine hclear.ignore.bind fun _ _ => ?_
    refine (keeps_linkEntry (hM.setNew i hi)).succeeds.bind fun linked _ => ?_
    refine .early trivial fun _ => ?_
    exact (keeps_linkEntry (hM.setOld i hi)).ignore.drop

section

variable (hR : Stable n0 R)
include hR

theorem keeps_copyFile (hF : Fresh n0 R B) {src : Ino} (hsrc : B src) {dst : Ino} (hdst : n0 ≤ dst) {name : Name}
    {t : FileType} : Respects (Holds n0 R) (copyFile src dst name t) := by
  refine (keeps_create hR (hF.entry dst hdst name) t).bind fun made hmade => ?_
  cases made with
  | none => exact .pure trivial
  | some i =>
    have hi := hmade i rfl
    refine .get fun s hs => ?_
    refine (hF.metadata src hsrc _ (hs.2 src) i hi).bind fun _ _ => ?_
    refine .ite (fun _ => ?_) fun _ => .pure trivial
    refine (keeps_read src 0 _).attempt.bind fun buf _ => ?_
    cases buf with
    | none => exact .pure trivial
    | some bytes => exact (keeps_write (hF.mayWrite hi) 0 bytes).ignore

theorem keeps_makeDir {d : Ino} {name : Name} (h : ∀ i ≥ n0, MaySet R d name i) :
    Keeps (Holds n0 R) (makeDir d name) fun r => ∀ i ∈ r, n0 ≤ i := by
  refine (keeps_create hR h .directory).bind fun made hmade => ?_
  cases made with
  | none => exact keeps_create hR h .directory
  | some i => exact .pure hmade

section

variable (hclosed : ∀ d, B d → ∀ n, R d n → ∀ name, ∀ child ∈ n.lookup name, B child) {depth : ℕ}
include hclosed

/-- the copy is one of files of `B`, and goes into directories that the call made -/
theorem keeps_copyDirRec (hF : Fresh n0 R B) {src : Ino} (hsrc : B src) {dst : Ino} (hdst : n0 ≤ dst) :
    Respects (Holds n0 R) (copyDirRec depth src dst) := by
  induction depth generalizing src dst with
  | zero => exact .fail
  | succ depth ih =>
    refine .get fun s _ => ?_
    refine .forEach fun entry _ => ?_
    refine .get fun s hs => ?_
    cases hl : s.lookup src entry.1 with
    | none => exact .pure trivial
    | some child =>
      have hchild := hclosed src hsrc _ (hs.2 src) entry.1 child hl
      refine .ite (fun _ => ?_) fun _ => keeps_copyFile hR hF hchild hdst
      refine (keeps_makeDir hR (hF.entry dst hdst entry.1)).bind fun made hmade => ?_
      cases made with
      | none => exact .pure trivial
      | some childDst => exact ih hchild (hmade childDst rfl)

theorem keeps_removeDirRec (hdrop : ∀ d, B d → ∀ name, MayDrop R d name) {dir : Ino} (hdir : B dir) :
    Respects (Holds n0 R) (removeDirRec depth dir) := by
  induction depth generalizing dir with
  | zero => exact .fail
  | succ depth ih =>
    refine .get fun s _ => ?_
    refine .forEach fun entry _ => ?_
    refine .ite (fun _ => ?_) fun _ => (keeps_unlink hR (hdrop dir hdir entry.1)).ignore
    refine .get fun s hs => ?_
    have hrest : Respects (Holds n0 R) (Fallible.ignore (rmdir dir entry.1)) :=
      (keeps_rmdir hR (hdrop dir hdir entry.1)).ignore
    cases hchild : s.lookup dir entry.1 with
    | none => exact hrest
    | some child => exact (ih (hclosed dir hdir _ (hs.2 dir) entry.1 child hchild)).bind fun _ _ => hrest

theorem keeps_renameDir (hF : Fresh n0 R B) (hM : Moves n0 R m Q) (hdrop : ∀ d, B d → ∀ name, MayDrop R d name)
    (hsrc : B m.src) : Respects (Holds n0 R) (renameDir depth m) := by
  refine (keeps_moveEntry hM (keeps_rmdir hR hM.dropNew)).bind fun moved _ => ?_
  refine .early trivial fun _ => ?_
  refine (keeps_makeDir hR hM.made).bind fun made hmade => ?_
  cases made with
  | none => exact .fail
  | some newDir =>
    refine (keeps_copyDirRec hR hclosed hF hsrc (hmade newDir rfl)).bind fun _ _ => ?_
    refine (keeps_removeDirRec hR hclosed hdrop hsrc).bind fun _ _ => ?_
    exact (keeps_rmdir hR hM.dropOld).ignore

end

theorem keeps_renameFile (hF : Fresh n0 R B) (hM : Moves n0 R m Q) (hsrc : B m.src) :
    Respects (Holds n0 R) (renameFile m) := by
  refine (keeps_moveEntry hM (keeps_unlink hR hM.dropNew)).bind fun moved _ => ?_
  refine .early trivial fun _ => ?_
  refine .get fun s hs => ?_
  have hread : Respects (Holds n0 R) (if 0 < (s.node m.src).data.length then read m.src 0 (s.node m.src).data.length
      else pure []) :=
    .ite (fun _ => keeps_read _ _ _) fun _ => .pure trivial
  have hclear : Respects (Holds n0 R) (if (s.lookup m.newParent m.newName).isSome then unlink m.newParent m.newName
      else pure ()) :=
    .ite (fun _ => keeps_unlink hR hM.dropNew) fun _ => .pure trivial
  refine hread.attempt.bind fun buf _ => ?_
  refine hclear.ignore.bind fun _ _ => ?_
  refine (keeps_create hR hM.made _).bind fun made hmade => ?_
  cases made with
  | none => exact .fail
  | some i =>
    have hi := hmade i rfl
    refine (hF.metadata m.src hsrc _ (hs.2 m.src) i hi).bind fun _ _ => ?_
    have hwrite : ∀ bytes, Respects (Holds n0 R) (if 0 < (s.node m.src).data.length then write i 0 bytes else pure 0) :=
      fun bytes => .ite (fun _ => keeps_write (hF.mayWrite hi) 0 bytes) fun _ => .pure trivial
    refine (hwrite _).ignore.bind fun _ _ => ?_
    exact (keeps_unlink hR hM.dropOld).ignore

end

/-- what makes room for the entry -/
def Move.clear (m : Move) (dir : Bool) : Op Unit :=
  if dir then rmdir m.newParent m.newName else unlink m.newParent m.newName

theorem keeps_clear (hR : Stable n0 R) (h : MayDrop R m.newParent m.newName) (dir : Bool) :
    Respects (Holds n0 R) (m.clear dir) :=
  .ite (fun _ => keeps_rmdir hR h) fun _ => keeps_unlink hR h

/-- the entry cannot be moved, so that the files are copied -/
def Move.Unmoved (m : Move) (s : Files) : Prop := value (moveEntry m (m.clear (s.node m.src).isDir) s) = some false

/-- a `rename` is the move, and what follows where the entry was not moved -/
theorem rename_eq (m : Move) (depth : ℕ) (s : Files) :
    ∃ rest, (if (s.node m.src).fileType = .directory then renameDir depth m s else renameFile m s) =
      (moveEntry m (m.clear (s.node m.src).isDir) >>= fun moved => if moved then pure () else rest) s := by
  unfold Node.isDir
  split_ifs with htype
  · rw [htype]
    exact ⟨_, rfl⟩
  · rw [beq_eq_false_iff_ne.2 htype]
    exact ⟨_, rfl⟩

theorem final_rename_of_moved {s : Files} (h : ¬m.Unmoved s) (depth : ℕ) :
    final (if (s.node m.src).fileType = .directory then renameDir depth m s else renameFile m s) =
      final (moveEntry m (m.clear (s.node m.src).isDir) s) := by
  obtain ⟨rest, heq⟩ := rename_eq m depth s
  rw [heq]
  cases hmove : moveEntry m (m.clear (s.node m.src).isDir) s with
  | error e s' =>
    rw [bind_error hmove]
    rfl
  | ok moved s' =>
    rw [bind_ok hmove]
    cases moved with
    | true => rfl
    | false => exact absurd (value_of_ok hmove) h

/-! ### Below the source -/

/-- what is linked under the old name, or new -/
def Move.Moved (m : Move) (s : Files) (i : Ino) : Prop := s.lookup m.oldParent m.oldName = some i ∨ s.next ≤ i

/-- the files below the source of a `rename`, and those that it makes; if the new name is among them, what is moved comes
below the source too -/
inductive Move.Below (m : Move) (s : Files) : Ino → Prop
  | src : m.Below s m.src
  | made {i : Ino} : s.next ≤ i → m.Below s i
  | entry {d i : Ino} {name : Name} : m.Below s d → s.lookup d name = some i → m.Below s i
  | moved {i : Ino} : m.Below s m.newParent → s.lookup m.oldParent m.oldName = some i → m.Below s i

/-- the old name leads to what is moved, and entries below the source to files below it -/
structure Move.Leads (m : Move) (s : Files) (d : Ino) (n : Node) : Prop where
  old : d = m.oldParent → ∀ i ∈ n.lookup m.oldName, m.Moved s i
  below : m.Below s d → ∀ name, ∀ i ∈ n.lookup name, m.Below s i

variable {s : Files} {d i : Ino} {n : Node}

theorem leads_initial (m : Move) (s : Files) (d : Ino) : m.Leads s d (s.node d) where
  old h _ hi := .inl (h ▸ hi)
  below hd _ _ hi := hd.entry hi

theorem leads_empty (h : n.entries = ∅) : m.Leads s d n := by
  have hnone : ∀ name, n.lookup name = none := by
    intro name
    unfold Node.lookup
    rw [h, AList.lookup_empty, ite_self]
  constructor
  · intro _ i hi
    rw [hnone] at hi
    cases hi
  · intro _ name i hi
    rw [hnone] at hi
    cases hi

theorem leads_set {name : Name} (hold : m.Moved s i) (hbelow : m.Below s d → m.Below s i) :
    MaySet (m.Leads s) d name i := by
  refine fun n hn => ⟨fun hd j hj => ?_, fun hd x j hj => ?_⟩
  · rcases Node.lookup_insert hj with ⟨-, rfl⟩ | hj
    · exact hold
    · exact hn.old hd j hj
  · rcases Node.lookup_insert hj with ⟨-, rfl⟩ | hj
    · exact hbelow hd
    · exact hn.below hd x j hj

theorem leads_drop (d : Ino) (name : Name) : MayDrop (m.Leads s) d name := fun _ _ _ _ hn =>
  ⟨fun hd j hj => hn.old hd j (Node.mem_of_lookup_erase hj), fun hd x j hj => hn.below hd x j (Node.mem_of_lookup_erase hj)⟩

theorem leads_metadata (i : Ino) (inode : Inode) : Respects (Holds n0 (m.Leads s)) (applyMetadata i inode) := by
  refine (keeps_setPermissions fun n hn => ⟨⟨hn.old, hn.below⟩, ⟨hn.old, hn.below⟩⟩).ignore.bind fun _ _ => ?_
  exact (keeps_setOwner fun n hn => ⟨hn.old, hn.below⟩).ignore

section

/-- the files that a `rename` copies if it cannot move the entry -/
def Move.Copied (m : Move) (s : Files) (i : Ino) : Prop := i = m.src ∨ (s.node m.src).isDir = true ∧ m.Below s i

variable (hR : Stable s.next R) (hF : Fresh s.next R (m.Copied s)) (hM : Moves s.next R m Q)
include hR hF hM

theorem keeps_renameDir_below (hdir : (s.node m.src).isDir = true)
    (hdrop : ∀ d, m.Below s d → ∀ name, MayDrop R d name) (depth : ℕ) :
    Respects (Holds s.next fun d n => R d n ∧ m.Leads s d n) (renameDir depth m) := by
  refine keeps_renameDir (B := m.Below s) (Q := fun i => Q i ∧ m.Moved s i) ?_ (fun d hd n hn => hn.2.below hd) ?_ ?_ ?_ .src
  · exact
      { nlink := fun i n k hn => ⟨hR.nlink i n k hn.1, hn.2.old, hn.2.below⟩
        tmpFs := fun i hi t => ⟨hR.tmpFs i hi t, leads_empty rfl⟩
        ext := fun i hi t dev => ⟨hR.ext i hi t dev, leads_empty rfl⟩ }
  · exact
      { entry := fun d hd name i hi n hn => ⟨hF.entry d hd name i hi n hn.1, leads_set (.inr hi) (fun _ => .made hi) n hn.2⟩
        content := fun i hi n data hn => ⟨hF.content i hi n data hn.1, hn.2.old, hn.2.below⟩
        plain := fun i hi n hn => hF.plain i hi n hn.1
        metadata := fun src hsrc n hn i hi =>
          keeps_and (hF.metadata src (.inr ⟨hdir, hsrc⟩) n hn.1 i hi) (leads_metadata i n.inode) }
  · exact
      { dropOld := fun n hn halter n' hn' => ⟨hM.dropOld n hn.1 halter n' hn'.1, leads_drop _ _ n hn.2 halter n' hn'.2⟩
        dropNew := fun n hn halter n' hn' => ⟨hM.dropNew n hn.1 halter n' hn'.1, leads_drop _ _ n hn.2 halter n' hn'.2⟩
        moved := fun n hn halter i hi => ⟨hM.moved n hn.1 halter i hi, hn.2.old rfl i hi⟩
        setOld := fun i hi n hn => ⟨hM.setOld i hi.1 n hn.1, leads_set hi.2 (fun hd => hi.2.elim hd.entry .made) n hn.2⟩
        setNew := fun i hi n hn => ⟨hM.setNew i hi.1 n hn.1, leads_set hi.2 (fun hd => hi.2.elim hd.moved .made) n hn.2⟩
        made := fun i hi n hn => ⟨hM.made i hi n hn.1, leads_set (.inr hi) (fun _ => .made hi) n hn.2⟩ }
  · exact fun d hd name n hn halter n' hn' =>
      ⟨hdrop d hd name n hn.1 halter n' hn'.1, leads_drop d name n hn.2 halter n' hn'.2⟩

/-- **A `rename`** keeps what its two directories, the files that it makes and, for a directory, those below it keep. -/
theorem kept_rename (hdrop : (s.node m.src).isDir = true → ∀ d, m.Below s d → ∀ name, MayDrop R d name) (depth : ℕ)
    (hs : Holds s.next R s) :
    Holds s.next R (final (if (s.node m.src).fileType = .directory then renameDir depth m s else renameFile m s)) := by
  split_ifs with htype
  · have hdir : (s.node m.src).isDir = true := by
      unfold Node.isDir
      rw [htype]
      rfl
    have hstart : Holds s.next (fun d n => R d n ∧ m.Leads s d n) s :=
      ⟨hs.1, fun d => ⟨hs.2 d, leads_initial m s d⟩⟩
    exact ((keeps_renameDir_below hR hF hM hdir (hdrop hdir) depth).final hstart).mono fun _ _ hn => hn.1
  · exact (keeps_renameFile hR hF hM (.inl rfl)).final hs

end

/-- the paths of a `rename` that are found -/
def Caller.move (c : Caller) (s : Files) (old new : Path) : Option Move := do
  let oldParent ← c.find s (splitPath old).1 true
  let src ← c.find s old true
  let newParent ← c.find s (splitPath new).1 true
  some ⟨src, oldParent, (splitPath old).2, newParent, (splitPath new).2⟩

theorem sysRename_eq (depth : ℕ) (old new : Path) (s : Files) :
    sysRename c depth old new s =
      match c.move s old new with
      | none => .error (.errno .ENOENT) s
      | some m => if (s.node m.src).fileType = .directory then renameDir depth m s else renameFile m s := by
  have hfound : ∀ {path : Path} {i : Ino}, c.find s path true = some i → lookup c path s = .ok i s := by
    intro path i h
    unfold lookup
    rw [lookupFollow_eq, h]
  have hlost : ∀ {path : Path}, c.find s path true = none → lookup c path s = .error (.errno .ENOENT) s := by
    intro path h
    unfold lookup
    rw [lookupFollow_eq, h]
  unfold sysRename Caller.move
  cases hp : c.find s (splitPath old).1 true with
  | none => exact bind_error (hlost hp) _
  | some oldParent =>
    rw [bind_ok (hfound hp)]
    cases hs : c.find s old true with
    | none => exact bind_error (hlost hs) _
    | some src =>
      rw [bind_ok (hfound hs)]
      cases hn : c.find s (splitPath new).1 true with
      | none => exact bind_error (hlost hn) _
      | some newParent =>
        rw [bind_ok (hfound hn), get_bind]
        dsimp only [Option.bind_eq_bind, Option.bind_some]
        split_ifs <;> rfl

end Kontsnor.Fs
