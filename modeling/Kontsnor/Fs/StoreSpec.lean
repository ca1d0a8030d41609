/-
What the operations of the drivers leave alone.

An invariant of the files is a statement `R i n` for every number `i` and the node `n` there (`Holds`). Each operation changes
one node in one way, and adds nodes with new numbers. `Stable R` is what the drivers need of `R` on their own; whether an
entry may be set or dropped, contents written or metadata changed, is asked where an operation does so. A write to a block
device can change every node of ext. The lemmas are in the form of `Fallible.Keeps`, so that they compose along a call.
-/
import Kontsnor.Fs.Store

namespace Kontsnor.Fs

open Function

open Fallible (Keeps Maintains Respects final get_bind)

variable {n0 : ℕ} {R : Ino → Node → Prop}

/-- `R` holds of every node, and the numbers below `n0` are taken -/
def Holds (n0 : ℕ) (R : Ino → Node → Prop) (s : Files) : Prop := n0 ≤ s.next ∧ ∀ i, R i (s.node i)

theorem Holds.mono {R' : Ino → Node → Prop} {s : Files} (hs : Holds n0 R s) (h : ∀ i n, R i n → R' i n) : Holds n0 R' s :=
  ⟨hs.1, fun i => h i _ (hs.2 i)⟩

theorem keeps_and {R' : Ino → Node → Prop} {α : Type} {op : Op α} (h : Respects (Holds n0 R) op)
    (h' : Respects (Holds n0 R') op) : Respects (Holds n0 fun i n => R i n ∧ R' i n) op := by
  intro s hs
  have hr := h s (hs.mono fun _ _ hn => hn.1)
  have hr' := h' s (hs.mono fun _ _ hn => hn.2)
  cases hop : op s with
  | ok a s' =>
    rw [hop] at hr hr'
    exact ⟨⟨hr.1.1, fun i => ⟨hr.1.2 i, hr'.1.2 i⟩⟩, trivial⟩
  | error e s' =>
    rw [hop] at hr hr'
    exact ⟨hr.1, fun i => ⟨hr.2 i, hr'.2 i⟩⟩

/-! ## Entries -/

variable {i : Ino} {name : Name}

theorem Node.lookup_insert {n : Node} {x : Name} {j : Ino}
    (h : j ∈ (n.withEntries (n.entries.insert name i)).lookup x) : x = name ∧ j = i ∨ j ∈ n.lookup x := by
  unfold lookup withEntries at h
  unfold lookup
  by_cases hd : n.driver = .tmpFsFile
  · rw [if_pos hd] at h
    cases h
  rw [if_neg hd] at h ⊢
  by_cases hx : x = name
  · subst hx
    rw [AList.lookup_insert] at h
    cases h
    exact .inl ⟨rfl, rfl⟩
  · rw [AList.lookup_insert_ne hx] at h
    exact .inr h

theorem Node.lookup_erase (n : Node) (name x : Name) :
    (n.withEntries (n.entries.erase name)).lookup x = if x = name then none else n.lookup x := by
  unfold lookup withEntries
  by_cases hx : x = name
  · rw [if_pos hx, hx, AList.lookup_erase, ite_self]
  · rw [if_neg hx, AList.lookup_erase_ne hx]

theorem Node.mem_of_lookup_erase {n : Node} {x : Name} {j : Ino}
    (h : j ∈ (n.withEntries (n.entries.erase name)).lookup x) : j ∈ n.lookup x := by
  rw [lookup_erase] at h
  split_ifs at h
  · cases h
  · exact h

/-- the driver changes entries -/
def Node.Alterable (n : Node) : Prop := n.driver = .tmpFsDir ∨ n.driver = .extInode

/-- link counts change and nodes are added without further questions -/
structure Stable (n0 : ℕ) (R : Ino → Node → Prop) : Prop where
  nlink : ∀ i n k, R i n → R i (n.withNlink k)
  tmpFs : ∀ i ≥ n0, ∀ t, R i (tmpFsNode t)
  ext : ∀ i ≥ n0, ∀ t dev, R i (extNode t dev)

section

variable (R : Ino → Node → Prop)

/-- a node may be linked under a name -/
def MaySet (d : Ino) (name : Name) (i : Ino) : Prop :=
  ∀ n, R d n → R d (n.withEntries (n.entries.insert name i))

def MayDrop (d : Ino) (name : Name) : Prop :=
  ∀ n, R d n → n.Alterable → ∀ n', R d n' → R d (n'.withEntries (n'.entries.erase name))

/-- the modes that `set_permissions` gives on tmpfs and on ext -/
def MayChmod (i : Ino) (mode : UInt16) : Prop :=
  ∀ n, R i n → R i (n.withMode mode) ∧ R i (n.withMode ((n.inode.mode &&& 0xF000) ||| (mode &&& 0x0FFF)))

def MayResize (i : Ino) : Prop := ∀ n data, R i n → R i (n.withData data)

/-- contents may be written; those of a block device are what the nodes of ext are read from -/
structure MayWrite (i : Ino) : Prop where
  data : MayResize R i
  disk : ∀ n, R i n → n.driver = .blockDev → ∀ j n' m, R j n' → R j (n'.reread m)

end

/-! ## Steps -/

theorem keeps_change {f : Node → Node} (hf : ∀ n, R i n → R i (f n)) : Respects (Holds n0 R) (change i f) := by
  apply Maintains.modify
  rintro s ⟨hnext, hR⟩
  refine ⟨hnext, fun j => ?_⟩
  unfold Files.update
  dsimp only
  by_cases hj : j = i
  · rw [hj, update_self]
    exact hf _ (hR i)
  · rw [update_of_ne hj]
    exact hR j

theorem keeps_alloc {n : Node} (hn : ∀ i ≥ n0, R i n) : Keeps (Holds n0 R) (alloc n) fun i => n0 ≤ i := by
  rintro s ⟨hnext, hR⟩
  refine ⟨⟨Nat.le_succ_of_le hnext, fun j => ?_⟩, hnext⟩
  by_cases hj : j = s.next
  · rw [hj]
    simp only [Files.add, update_self]
    exact hn _ hnext
  · simp only [Files.add, update_of_ne hj]
    exact hR j

theorem keeps_trouble : Respects (Holds n0 R) trouble := fun _ hs => ⟨hs, trivial⟩

variable {d : Ino}

theorem keeps_setEntry (h : MaySet R d name i) : Respects (Holds n0 R) (setEntry d name i) :=
  keeps_change h

theorem keeps_dropEntry (h : MayDrop R d name) {n : Node} (hn : R d n) (halter : n.Alterable) :
    Respects (Holds n0 R) (dropEntry d name) :=
  keeps_change (h n hn halter)

theorem keeps_withNlink (hR : Stable n0 R) {k : Node → ℕ} :
    Respects (Holds n0 R) (change i fun n => n.withNlink (k n)) :=
  keeps_change fun n => hR.nlink i n (k n)

theorem keeps_returns (r : Trouble) : Respects (Holds n0 R) (if r = .none then pure () else fail Errno.EIO) :=
  .early trivial fun _ => .fail

/-! ## Operations on directories -/

theorem keeps_create (hR : Stable n0 R) (h : ∀ i ≥ n0, MaySet R d name i) (t : FileType) :
    Keeps (Holds n0 R) (create d name t) fun r => ∀ i ∈ r, n0 ≤ i := by
  have hnone : ∀ i ∈ (none : Option Ino), n0 ≤ i := nofun
  have hsome : ∀ {i : Ino}, n0 ≤ i → ∀ j ∈ some i, n0 ≤ j := by
    rintro i hi j hj
    cases hj
    exact hi
  refine .get fun s hs => ?_
  cases (s.node d).driver with
  | tmpFsDir =>
    refine .ite (fun _ => ?_) fun _ => .pure hnone
    refine (keeps_alloc fun i hi => hR.tmpFs i hi t).bind fun i hi => ?_
    exact (keeps_setEntry (h i hi)).bind fun _ _ => .pure (hsome hi)
  | extInode =>
    refine .get fun s _ => ?_
    refine .early hnone fun _ => ?_
    refine keeps_trouble.bind fun r _ => ?_
    refine .early hnone fun _ => ?_
    refine (keeps_alloc fun i hi => hR.ext i hi t _).bind fun i hi => ?_
    refine (keeps_setEntry (h i hi)).bind fun _ _ => ?_
    refine .ite (fun _ => ?_) fun _ => .pure hnone
    exact (keeps_withNlink hR).bind fun _ _ => .pure (hsome hi)
  | tmpFsFile => exact .pure hnone
  | blockDev => exact .pure hnone
  | other => exact .pure hnone

theorem keeps_decNlink (hR : Stable n0 R) (i : Ino) : Respects (Holds n0 R) (decNlink i) :=
  keeps_withNlink hR

theorem keeps_unlink (hR : Stable n0 R) (h : MayDrop R d name) : Respects (Holds n0 R) (unlink d name) := by
  refine .get fun s hs => ?_
  cases hd : (s.node d).driver with
  | tmpFsDir => exact .ite (fun _ => keeps_dropEntry h (hs.2 d) (.inl hd)) fun _ => .fail
  | extInode =>
    cases s.lookup d name with
    | none => exact .fail
    | some i =>
      refine keeps_trouble.bind fun r _ => ?_
      refine .check fun _ => ?_
      refine (keeps_dropEntry h (hs.2 d) (.inr hd)).bind fun _ _ => ?_
      exact .ite (fun _ => keeps_decNlink hR i) fun _ => .fail
  | tmpFsFile | blockDev | other => exact .fail

theorem keeps_unlinkEntry (h : MayDrop R d name) {Q : Ino → Prop}
    (hQ : ∀ n, R d n → n.Alterable → ∀ i ∈ n.lookup name, Q i) :
    Keeps (Holds n0 R) (unlinkEntry d name) fun r => ∀ i ∈ r, Q i := by
  have hnone : ∀ i ∈ (none : Option Ino), Q i := nofun
  refine .get fun s hs => ?_
  have hfound := hQ _ (hs.2 d)
  cases hd : (s.node d).driver with
  | tmpFsDir => exact (keeps_dropEntry h (hs.2 d) (.inl hd)).bind fun _ _ => .pure (hfound (.inl hd))
  | extInode =>
    cases hl : s.lookup d name with
    | none => exact .pure hnone
    | some i =>
      refine .early hnone fun _ => ?_
      refine keeps_trouble.bind fun r _ => ?_
      refine .early hnone fun _ => ?_
      refine (keeps_dropEntry h (hs.2 d) (.inr hd)).bind fun _ _ => .pure ?_
      rintro j hj
      cases hj
      exact hfound (.inr hd) i hl
  | tmpFsFile => exact .pure hnone
  | blockDev => exact .pure hnone
  | other => exact .pure hnone

theorem keeps_linkEntry (h : MaySet R d name i) : Respects (Holds n0 R) (linkEntry d name i) := by
  refine .get fun s _ => ?_
  cases (s.node d).driver with
  | tmpFsDir => exact keeps_setEntry h
  | extInode =>
    refine .check fun _ => ?_
    refine .check fun _ => ?_
    refine .check fun _ => ?_
    refine keeps_trouble.bind fun r _ => ?_
    refine .check fun _ => ?_
    exact (keeps_setEntry h).bind fun _ _ => keeps_returns r
  | tmpFsFile | blockDev | other => exact .fail

theorem keeps_rmdir (hR : Stable n0 R) (h : MayDrop R d name) : Respects (Holds n0 R) (rmdir d name) := by
  refine .get fun s hs => ?_
  split
  · exact .fail
  · exact .fail
  · exact .fail
  · exact .fail
  · rename_i hd _
    refine .check fun _ => ?_
    exact .check fun _ => keeps_dropEntry h (hs.2 d) (.inl hd)
  · rename_i hd _
    refine .check fun _ => ?_
    refine .check fun _ => ?_
    refine keeps_trouble.bind fun r _ => ?_
    refine .check fun _ => ?_
    refine (keeps_dropEntry h (hs.2 d) (.inr hd)).bind fun _ _ => ?_
    refine (keeps_withNlink hR).bind fun _ _ => ?_
    refine .ite (fun _ => ?_) fun _ => .fail
    exact (keeps_decNlink hR _).bind fun _ _ => keeps_decNlink hR _

theorem keeps_incNlink (hR : Stable n0 R) (i : Ino) : Respects (Holds n0 R) (incNlink i) := by
  refine .get fun s _ => ?_
  cases (s.node i).driver with
  | tmpFsDir => exact keeps_withNlink hR
  | tmpFsFile => exact keeps_withNlink hR
  | extInode => exact (keeps_withNlink hR).bind fun _ _ => keeps_trouble.bind fun r _ => keeps_returns r
  | blockDev => exact .pure trivial
  | other => exact .pure trivial

/-! ## Metadata and contents -/

theorem keeps_setPermissions {mode : UInt16} (h : MayChmod R i mode) :
    Respects (Holds n0 R) (setPermissions i mode) := by
  refine .get fun s _ => ?_
  cases (s.node i).driver with
  | tmpFsDir => exact keeps_change fun n hn => (h n hn).1
  | tmpFsFile => exact keeps_change fun n hn => (h n hn).1
  | extInode =>
    refine (keeps_change fun n hn => (h n hn).2).bind fun _ _ => ?_
    exact keeps_trouble.bind fun r _ => keeps_returns r
  | blockDev | other => exact .fail

theorem keeps_setOwner {uid gid : UInt32} (h : ∀ n, R i n → R i (n.withOwner uid gid)) :
    Respects (Holds n0 R) (setOwner i uid gid) := by
  refine .get fun s _ => ?_
  cases (s.node i).driver with
  | tmpFsDir => exact keeps_change h
  | tmpFsFile => exact keeps_change h
  | extInode => exact (keeps_change h).bind fun _ _ => keeps_trouble.bind fun r _ => keeps_returns r
  | blockDev | other => exact .fail

theorem keeps_read (i : Ino) (offset count : ℕ) : Respects (Holds n0 R) (read i offset count) := by
  refine .get fun s _ => ?_
  cases (s.node i).driver with
  | tmpFsFile => exact .pure trivial
  | extInode =>
    refine keeps_trouble.bind fun r _ => ?_
    exact .early trivial fun _ => .fail
  | blockDev =>
    refine .early trivial fun _ => ?_
    exact keeps_trouble.bind fun r _ => .check fun _ => .pure trivial
  | tmpFsDir | other => exact .fail

theorem keeps_spill (h : ∀ i n m, R i n → R i (n.reread m)) :
    Respects (Holds n0 R) (modify Files.spill : Op Unit) :=
  Maintains.modify fun _ hs => ⟨hs.1, fun i => h i _ _ (hs.2 i)⟩

theorem keeps_write (h : MayWrite R i) (offset : ℕ) (bytes : List UInt8) :
    Respects (Holds n0 R) (write i offset bytes) := by
  have hdata : ∀ f : Node → List UInt8, Respects (Holds n0 R) (change i fun n => n.withData (f n)) :=
    fun f => keeps_change fun n => h.data n (f n)
  refine .get fun s hs => ?_
  cases hd : (s.node i).driver with
  | tmpFsFile => exact (hdata _).drop
  | extInode =>
    refine keeps_trouble.bind fun r _ => ?_
    cases r with
    | before => exact .fail
    | after n => exact (hdata _).drop
    | none => exact (hdata _).drop
  | blockDev =>
    refine .early trivial fun _ => ?_
    refine .check fun _ => ?_
    refine keeps_trouble.bind fun r _ => ?_
    refine .check fun _ => ?_
    exact (hdata _).bind fun _ _ => (keeps_spill (h.disk _ (hs.2 i) hd)).drop
  | tmpFsDir | other => exact .fail

theorem keeps_truncate (h : MayResize R i) (size : ℕ) : Respects (Holds n0 R) (truncate i size) := by
  have hdata : ∀ f : Node → List UInt8, Respects (Holds n0 R) (change i fun n => n.withData (f n)) :=
    fun f => keeps_change fun n => h n (f n)
  refine .get fun s _ => ?_
  cases (s.node i).driver with
  | tmpFsFile => exact hdata _
  | extInode =>
    refine keeps_trouble.bind fun r _ => ?_
    refine .check fun _ => ?_
    exact (hdata _).bind fun _ _ => keeps_returns r
  | tmpFsDir | blockDev | other => exact .fail

/-! ## The node after a change of metadata -/

/-- what `set_permissions` makes of a node, whether the device fails or not -/
def Node.chmod (n : Node) (mode : UInt16) : Node :=
  match n.driver with
  | .tmpFsDir | .tmpFsFile => n.withMode mode
  | .extInode => n.withMode ((n.inode.mode &&& 0xF000) ||| (mode &&& 0x0FFF))
  | .blockDev | .other => n

/-- what `set_owner` makes of a node -/
def Node.chown (n : Node) (uid gid : UInt32) : Node :=
  match n.driver with
  | .tmpFsDir | .tmpFsFile | .extInode => n.withOwner uid gid
  | .blockDev | .other => n

theorem Node.driver_chmod (n : Node) (mode : UInt16) : (n.chmod mode).driver = n.driver := by
  unfold Node.chmod
  split <;> rfl

theorem Node.driver_chown (n : Node) (uid gid : UInt32) : (n.chown uid gid).driver = n.driver := by
  unfold Node.chown
  split <;> rfl

/-- the change stays where the device fails afterwards -/
theorem final_returns {s : Files} :
    final ((trouble >>= fun r => if r = .none then pure () else fail Errno.EIO : Op Unit) s) =
      { s with troubles := s.troubles.tail } := by
  show final ((if s.troubles.headD .none = .none then pure () else fail Errno.EIO : Op Unit) _) = _
  split_ifs <;> rfl

theorem final_setPermissions (i : Ino) (mode : UInt16) (s : Files) :
    ∃ ts, final (setPermissions i mode s) = { s.update i (·.chmod mode) with troubles := ts } := by
  unfold setPermissions Files.update
  rw [get_bind]
  cases hd : (s.node i).driver with
  | tmpFsDir | tmpFsFile =>
    simp only [Node.chmod, hd]
    exact ⟨_, rfl⟩
  | extInode =>
    simp only [Node.chmod, hd]
    exact ⟨_, final_returns⟩
  | blockDev | other =>
    simp only [Node.chmod, hd, update_eq_self]
    exact ⟨s.troubles, rfl⟩

theorem final_setOwner (i : Ino) (uid gid : UInt32) (s : Files) :
    ∃ ts, final (setOwner i uid gid s) = { s.update i (·.chown uid gid) with troubles := ts } := by
  unfold setOwner Files.update
  rw [get_bind]
  cases hd : (s.node i).driver with
  | tmpFsDir | tmpFsFile =>
    simp only [Node.chown, hd]
    exact ⟨_, rfl⟩
  | extInode =>
    simp only [Node.chown, hd]
    exact ⟨_, final_returns⟩
  | blockDev | other =>
    simp only [Node.chown, hd, update_eq_self]
    exact ⟨s.troubles, rfl⟩

end Kontsnor.Fs
