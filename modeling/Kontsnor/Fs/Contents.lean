/-
Who changes the bytes of a file: `open`, `read`, `write`, `pwrite64`, `writev`, `ftruncate`, `mmap` and stores to mappings.

`f` is a regular file that a task may not write and has neither open nor mapped. `Session.Orderly f` is what the calls of the
task must meet so that `f` stays as it is: truncation only with an open for writing, `pwrite64` and shared writable mappings
only through a descriptor that is open for writing, page faults whose handler can see the regions and the references, and, if
`f` is a file of ext, no bytes for a block device.
- `Session.Guarded f`: no descriptor for `f` is open for writing, no mapping of it is shared and writable, and no page that
  shows it is writable.
-/
import Kontsnor.Memory.Regions
import Kontsnor.Fs.SessionSpec

namespace Kontsnor.Fs

open Fallible (Keeps Respects value final)
open Memory (AddressSpace MappedRegion MmapArgs PageFlags PAGE_SIZE protWrite Backing Tidy view)
open Process (FdTable)
open OpenFlags List Bool Runs

/-! ## The calls -/

inductive IoCall
  | open (n : Names) (path : Path) (flags mode : UInt32)
  | openat (n : Names) (dfd : ℤ) (name : Name) (flags mode : UInt32)
  | read (fd : ℤ) (count : ℕ)
  | write (fd : ℤ) (bytes : List UInt8)
  | pwrite64 (fd : ℤ) (offset : ℕ) (bytes : List UInt8)
  | writev (fd : ℤ) (iov : List (Option (List UInt8)))
  | ftruncate (fd : ℤ) (length : ℕ)
  | mmap (addr length prot flags : ℕ) (fd : ℤ) (offset : UInt64)
  | store (a : Session.Access) (addr : ℕ) (byte : UInt8)

namespace Session

def stepIo (s : Session) : IoCall → Session
  | .open n path flags mode => s.openNode flags (openWithResolvedPath (s.caller n) path flags mode)
  | .openat n dfd name flags mode =>
    match s.dirOf dfd with
    | none => s
    | some d => s.openNode flags (openatIn (s.caller n) d name flags mode)
  | .read fd count => s.onDesc fd (fun d => d.read count) id
  | .write fd bytes => s.onDesc fd (fun d => fileDescWrite bytes.length d bytes 0) (·.2)
  | .pwrite64 fd offset bytes =>
    match s.fds.lookup fd with
    | none => s
    | some d => s.onFiles (Fs.pwrite64 bytes.length d.ino offset bytes 0)
  | .writev fd iov => s.onDesc fd (fun d => Fs.writev d iov 0) (·.2)
  | .ftruncate fd length =>
    match s.fds.lookup fd with
    | none => s
    | some d => s.onFiles (Fs.ftruncate d length)
  | .mmap addr length prot flags fd offset => s.mmap (s.mmapArgs addr length prot flags fd offset)
  | .store a addr byte => s.store a addr byte

/-! ## What the calls must meet -/

variable (f : Ino)

def Maps (b : Backing) : Prop := ∃ i ∈ b.inode, i.ino = f

instance (f : Ino) (b : Backing) : Decidable (Maps f b) := by
  unfold Maps
  infer_instance

/-- a block device, where `f` is a file of ext -/
def Behind (s : Files) (f i : Ino) : Prop := (s.node i).driver = .blockDev ∧ (s.node f).driver = .extInode

instance (s : Files) (f i : Ino) : Decidable (Behind s f i) := by
  unfold Behind
  infer_instance

variable (a : AddressSpace)

def viewPage (page : ℕ) : Option Backing := view a.mmapRegions (page * PAGE_SIZE)

/-- for stores to a mapping of `f`, the handler sees the regions, and the counter of the frame shows that the page cache has
the frame as well -/
def Orderly (s : Session) : IoCall → Prop
  | .open n path flags _ => (s.caller n).find s.files path (!has flags O_NOFOLLOW) = some f → has flags O_TRUNC = true →
      isWritable flags = true
  | .openat _ dfd name flags _ => ∀ d ∈ s.dirOf dfd, s.files.lookup d name = some f → has flags O_TRUNC = true →
      isWritable flags = true
  | .write fd _ | .writev fd _ => ∀ d ∈ s.fds.lookup fd, isWritable d.flags = true → ¬Behind s.files f d.ino
  | .pwrite64 fd _ _ => ∀ d ∈ s.fds.lookup fd, (d.ino = f → isWritable d.flags = true) ∧ ¬Behind s.files f d.ino
  | .mmap _ _ prot flags fd _ => ∀ d ∈ s.fds.lookup fd, d.ino = f → flags &&& 1 ≠ 0 → protWrite prot = true →
      isWritable d.flags = true
  | .store a addr _ => (∀ b ∈ viewPage s.space (addr / PAGE_SIZE), Maps f b → a.locked = false ∧ 1 < a.refs) ∧
      ∀ p ∈ (s.faulted a addr).storesTo addr, ¬Behind s.files f p.1
  | .read _ _ | .ftruncate _ _ => True

/-! ## The invariant -/

/-- the bytes of `f`, what decides who may write them, and the driver -/
def Kept (kept : Node) (i : Ino) (n : Node) : Prop :=
  i = f → n.data = kept.data ∧ n.inode = kept.inode ∧ n.driver = kept.driver

/-- beside `f`, a node that is written keeps its driver -/
def Beside (kept : Node) (b : Ino) (driver : Driver) (i : Ino) (n : Node) : Prop :=
  Kept f kept i n ∧ (i = b → n.driver = driver)

/-- a page that shows `f` is read only, and stays so unless it is copied -/
def ReadOnly (p : Page) : Prop :=
  ∀ offset, p.shown = .file f offset → p.flags.writable = false ∧
    ∀ b ∈ viewPage a p.page, Maps f b ∧ (p.flags.cow = false → protWrite b.prot = false)

structure MapsGuarded (pages : List Page) : Prop where
  tidy : Tidy a.mmapRegions
  bump : a.mmapBump % PAGE_SIZE = 0
  covered : ∀ p ∈ pages, (viewPage a p.page).isSome
  /-- no mapping of `f` is shared and writable -/
  region : ∀ page, ∀ b ∈ viewPage a page, Maps f b → ¬ (b.isShared = true ∧ protWrite b.prot = true)
  page : ∀ p ∈ pages, ReadOnly f a p

structure Guarded (kept : Node) (creds : Process.Creds) (s : Session) : Prop where
  files : Holds (f + 1) (Kept f kept) s.files
  creds : s.creds = creds
  fds : ∀ d, s.fds.Has d → d.ino = f → isWritable d.flags = false
  maps : MapsGuarded f s.space s.pages

variable {f : Ino} {kept : Node} {creds : Process.Creds} {s : Session} {flags : UInt32}

/-! ## Descriptors -/

theorem stable_kept : Stable (f + 1) (Kept f kept) where
  nlink _ _ _ h := h
  tmpFs _ hi _ heq := absurd heq (Nat.ne_of_gt hi)
  ext _ hi _ _ heq := absurd heq (Nat.ne_of_gt hi)

theorem mayResize_kept {i : Ino} (h : i ≠ f) : MayResize (Kept f kept) i := fun _ _ _ heq => absurd heq h

/-- a block device may be written unless `f` is a file of ext -/
theorem mayWrite_beside {b : Ino} (hb : b ≠ f) {driver : Driver}
    (hdisk : ¬ (driver = .blockDev ∧ kept.driver = .extInode)) : MayWrite (Beside f kept b driver) b where
  data n data hn := ⟨mayResize_kept hb n data hn.1, hn.2⟩
  disk n hn hdriver j n' m hn' := by
    have hext : kept.driver ≠ .extInode := fun hext => hdisk ⟨(hn.2 rfl).symm.trans hdriver, hext⟩
    unfold Node.reread
    split_ifs with hn'ext
    · refine ⟨fun hj => absurd ((hn'.1 hj).2.2.symm.trans hn'ext) hext, hn'.2⟩
    · exact hn'

section

variable (h : s.Guarded f kept creds)
include h

theorem Guarded.ne_of_writable {d : FileDescription} (hd : s.fds.Has d) (hw : isWritable d.flags = true) : d.ino ≠ f := by
  intro heq
  rw [h.fds d hd heq] at hw
  cases hw

theorem Guarded.mayWrite {b : Ino} (hb : b ≠ f) (hdisk : ¬Behind s.files f b) :
    MayWrite (Beside f kept b (s.files.node b).driver) b := by
  refine mayWrite_beside hb fun hbad => hdisk ⟨hbad.1, ?_⟩
  rw [((h.files.2 f) rfl).2.2]
  exact hbad.2

theorem Guarded.outcome {b : Ino} {α : Type} {op : Op α} {Q : α → Prop}
    (hop : Keeps (Holds (f + 1) (Beside f kept b (s.files.node b).driver)) op Q) :
    Holds (f + 1) (Kept f kept) (final (op s.files)) ∧ ∀ a ∈ value (op s.files), Q a := by
  have hstart : Holds (f + 1) (Beside f kept b (s.files.node b).driver) s.files :=
    ⟨h.files.1, fun i => ⟨h.files.2 i, fun hi => by rw [hi]⟩⟩
  obtain ⟨hfiles, hvalue⟩ := hop.outcome hstart
  exact ⟨hfiles.mono fun _ _ hn => hn.1, hvalue⟩

theorem Guarded.onFiles {α : Type} {op : Op α}
    (hop : Holds (f + 1) (Kept f kept) (final (op s.files))) : (s.onFiles op).Guarded f kept creds :=
  ⟨hop, h.creds, h.fds, h.maps⟩

theorem Guarded.onDesc {α : Type} (fd : ℤ) {op : FileDescription → Op α}
    {after : α → FileDescription}
    (hop : ∀ d ∈ s.fds.lookup fd, Holds (f + 1) (Kept f kept) (final (op d s.files)) ∧
      ∀ a ∈ value (op d s.files), d.Same (after a)) :
    (s.onDesc fd op after).Guarded f kept creds := by
  unfold Session.onDesc
  cases hd : s.fds.lookup fd with
  | none => exact h
  | some d =>
    have hhas := FdTable.has_of_lookup hd
    obtain ⟨hfiles, hsame⟩ := hop d hd
    dsimp only
    cases hv : value (op d s.files) with
    | none => exact ⟨hfiles, h.creds, h.fds, h.maps⟩
    | some a =>
      obtain ⟨hino, hflags⟩ := hsame a hv
      refine ⟨hfiles, h.creds, fun d' hd' heq => ?_, h.maps⟩
      rcases FdTable.has_put hd' with rfl | hold
      · rw [hflags]
        exact h.fds d hhas (hino.symm.trans heq)
      · exact h.fds d' hold heq

theorem Guarded.openNode {op : Op Ino}
    (hop : Holds (f + 1) (Kept f kept) (final (op s.files)) ∧
      ∀ i ∈ value (op s.files), i = f → isWritable flags = false) :
    (s.openNode flags op).Guarded f kept creds := by
  unfold Session.openNode
  cases hv : value (op s.files) with
  | none => exact ⟨hop.1, h.creds, h.fds, h.maps⟩
  | some i =>
    refine ⟨hop.1, h.creds, fun d hd heq => ?_, h.maps⟩
    rcases FdTable.has_allocFd hd with rfl | hold
    · exact hop.2 i hv heq
    · exact h.fds d hold heq

end

/-! ## `open` -/

section Open

variable {c : Caller} (hno : checkPermissionWithCreds kept.inode MAY_WRITE c.creds = false)

include hno

theorem not_may_write {n : Node} (hn : Kept f kept f n) : checkPermissionWithCreds n.inode MAY_WRITE c.creds = false := by
  rw [(hn rfl).2.1]
  exact hno

theorem keepsContent_openExisting {i : Ino} {followLast : Bool}
    (h : i = f → has flags O_TRUNC = true → isWritable flags = true) :
    Keeps (Holds (f + 1) (Kept f kept)) (checkOpenExisting c i flags followLast) fun _ =>
      i = f → isWritable flags = false := by
  -- an open for writing needs the permission that is missing
  have hrefused : (isWritable flags = true → ∃ n, Kept f kept i n ∧
      checkPermissionWithCreds n.inode MAY_WRITE c.creds = true) → i = f → isWritable flags = false := by
    rintro hmay rfl
    cases hw : isWritable flags with
    | false => rfl
    | true =>
      obtain ⟨n, hn, hperm⟩ := hmay hw
      rw [not_may_write hno hn] at hperm
      cases hperm
  refine (keeps_checkOpenExisting fun htrunc hmay => ?_).mono fun _ hmay => hrefused hmay
  apply mayResize_kept
  intro heq
  have hw := h heq htrunc
  rw [hrefused hmay heq] at hw
  cases hw

omit hno in
theorem keeps_createFile_kept (parent : Ino) (name : Name) (flags mode : UInt32) :
    Keeps (Holds (f + 1) (Kept f kept)) (createFile c parent name mode) fun i => i = f → isWritable flags = false := by
  refine (keeps_createFile stable_kept (fun _ _ _ hn => hn) fun i hi n _ => ?_).mono fun i hi heq => ?_
  · exact ⟨fun heq => absurd heq (Nat.ne_of_gt hi), fun heq => absurd heq (Nat.ne_of_gt hi)⟩
  · exact absurd heq (Nat.ne_of_gt hi)

theorem kept_open {s : Files} (hs : Holds (f + 1) (Kept f kept) s) {path : Path} {mode : UInt32}
    (h : c.find s path (!has flags O_NOFOLLOW) = some f → has flags O_TRUNC = true → isWritable flags = true) :
    Holds (f + 1) (Kept f kept) (final (openWithResolvedPath c path flags mode s)) ∧
      ∀ i ∈ value (openWithResolvedPath c path flags mode s), i = f → isWritable flags = false := by
  refine kept_openWithResolvedPath hs ?_ (fun i hi => ?_) fun _ _ parent name => keeps_createFile_kept parent name flags mode
  · exact (keeps_alloc fun i hi heq => absurd heq (Nat.ne_of_gt hi)).mono fun i hi heq => absurd heq (Nat.ne_of_gt hi)
  · exact keepsContent_openExisting hno fun heq => h (hi.trans (congrArg some heq))

theorem kept_openat {s : Files} (hs : Holds (f + 1) (Kept f kept) s) {parent : Ino} {name : Name} {mode : UInt32}
    (h : s.lookup parent name = some f → has flags O_TRUNC = true → isWritable flags = true) :
    Holds (f + 1) (Kept f kept) (final (openatIn c parent name flags mode s)) ∧
      ∀ i ∈ value (openatIn c parent name flags mode s), i = f → isWritable flags = false := by
  refine kept_openatIn hs (fun i hi => ?_) fun _ _ => keeps_createFile_kept parent name flags mode
  exact keepsContent_openExisting hno fun heq => h (hi.trans (congrArg some heq))

end Open

/-! ## `mmap` -/

variable {rs : List MappedRegion}

/-- the regions and pages that stay when a range is cleared to be replaced -/
theorem MapsGuarded.cleared {a : AddressSpace} {pages : List Page} (h : MapsGuarded f a pages) {resolved alignedLen : ℕ}
    (hmod : alignedLen % PAGE_SIZE = 0) (hrange : Memory.UserRange resolved alignedLen) {replaces : Bool}
    (hfree : replaces = false → ∀ r ∈ a.mmapRegions, r.stop ≤ resolved ∨ resolved + alignedLen ≤ r.start)
    {pages' : List Page}
    (hpages : pages' = if replaces then pages.filter fun p =>
      !(resolved / PAGE_SIZE ≤ p.page && p.page < resolved / PAGE_SIZE + alignedLen / PAGE_SIZE) else pages)
    (hrs : rs = if replaces then Memory.unmapRange resolved (resolved + alignedLen) a.mmapRegions else a.mmapRegions) :
    Tidy rs ∧ (∀ x ∈ rs, x.stop ≤ resolved ∨ resolved + alignedLen ≤ x.start) ∧
    (∀ addr, ∀ b ∈ view rs addr, view a.mmapRegions addr = some b) ∧
    ∀ p ∈ pages', p ∈ pages ∧ view rs (p.page * PAGE_SIZE) = view a.mmapRegions (p.page * PAGE_SIZE) := by
  obtain ⟨htidy, hout, hold, hkeep⟩ := h.tidy.replaced hmod hrange hfree hrs
  refine ⟨htidy, hout, hold, fun p hp => ?_⟩
  cases replaces with
  | false =>
    subst hpages
    exact ⟨hp, hkeep p.page nofun⟩
  | true =>
    subst hpages
    obtain ⟨hmem, hnot⟩ := mem_filter.1 hp
    refine ⟨hmem, hkeep p.page fun _ hin => ?_⟩
    simp [mem_range'_1.1 hin] at hnot

/-- a region is added where nothing is, with pages that are the task's own -/
theorem MapsGuarded.install {a a' : AddressSpace} {pages pages' own : List Page} (h : MapsGuarded f a pages)
    {r : MappedRegion} (htidy : Tidy rs) (haligned : r.Aligned)
    (hout : ∀ x ∈ rs, x.stop ≤ r.start ∨ r.stop ≤ x.start)
    (hold : ∀ addr, ∀ b ∈ view rs addr, view a.mmapRegions addr = some b)
    (hkeep : ∀ p ∈ pages', p ∈ pages ∧ view rs (p.page * PAGE_SIZE) = view a.mmapRegions (p.page * PAGE_SIZE))
    (hm : ∀ i ∈ r.inode, i.ino = f → ¬ (r.isShared = true ∧ protWrite r.prot = true))
    (hown : ∀ p ∈ own, p.shown = .own ∧ r.covers (p.page * PAGE_SIZE) = true)
    (hregions : a'.mmapRegions = rs ++ [r]) (hbump : a'.mmapBump % PAGE_SIZE = 0) :
    MapsGuarded f a' (pages' ++ own) := by
  have hview : ∀ addr, view a'.mmapRegions addr =
      (view rs addr).or (if r.covers addr then some (r.backing addr) else none) := by
    intro addr
    rw [hregions, Memory.view_append, Memory.view_cons]
    rfl
  have hsame : ∀ p ∈ pages', viewPage a' p.page = viewPage a p.page := by
    intro p hp
    obtain ⟨hmem, heq⟩ := hkeep p hp
    obtain ⟨b, hb⟩ := Option.isSome_iff_exists.1 (h.covered p hmem)
    unfold viewPage at hb ⊢
    rw [hview, heq, hb]
    rfl
  constructor
  · rw [hregions]
    exact htidy.append haligned hout
  · exact hbump
  · intro p hp
    rcases mem_append.1 hp with hp | hp
    · rw [hsame p hp]
      exact h.covered p (hkeep p hp).1
    · unfold viewPage
      rw [hview, (hown p hp).2]
      cases view rs (p.page * PAGE_SIZE) <;> rfl
  · intro page b hb hmaps
    unfold viewPage at hb
    rw [hview, Option.mem_def, Option.or_eq_some_iff] at hb
    rcases hb with hb | ⟨-, hb⟩
    · exact h.region page b (hold _ b hb) hmaps
    · split_ifs at hb
      cases hb
      obtain ⟨i, hi, hino⟩ := hmaps
      exact hm i hi hino
  · intro p hp offset hshown
    rcases mem_append.1 hp with hp | hp
    · rw [hsame p hp]
      exact h.page p (hkeep p hp).1 offset hshown
    · rw [(hown p hp).1] at hshown
      cases hshown

theorem mmap_frame (s : Session) (m : MmapArgs) :
    (s.mmap m).files = s.files ∧ (s.mmap m).creds = s.creds ∧ (s.mmap m).fds = s.fds := by
  unfold Session.mmap
  cases s.space.mmap m <;> exact ⟨rfl, rfl, rfl⟩

theorem MapsGuarded.mmap (h : MapsGuarded f s.space s.pages) {m : MmapArgs}
    (hm : ∀ i ∈ m.file, i.ino = f → ¬ (m.isShared = true ∧ protWrite m.prot = true)) :
    MapsGuarded f (s.mmap m).space (s.mmap m).pages := by
  unfold Session.mmap
  cases hmap : s.space.mmap m with
  | error e => exact h
  | ok found =>
    obtain ⟨r, space⟩ := found
    obtain ⟨resolved, alignedLen, bump, rfl, rfl, -, hmod, -, hrange, hbump, hfree⟩ := Memory.mmap_spec h.bump hmap
    dsimp only
    obtain ⟨htidy, hout, hold, hkeep⟩ := h.cleared hmod hrange hfree rfl rfl
    generalize (if m.replaces = true then s.pages.filter fun p =>
      !(decide (resolved / PAGE_SIZE ≤ p.page) && decide (p.page < resolved / PAGE_SIZE + alignedLen / PAGE_SIZE))
      else s.pages) = pages at hkeep ⊢
    refine h.install htidy (r := ⟨resolved, alignedLen, m.file, m.offset, m.isShared, m.prot, false⟩) ⟨hrange.aligned, hmod⟩ hout
      hold hkeep hm (fun p hp => ?_) rfl hbump
    split_ifs at hp
    · obtain ⟨page, hpage, rfl⟩ := mem_map.1 hp
      refine ⟨rfl, ?_⟩
      have hin := mem_range'_1.1 (mem_filter.1 hpage).1
      have haligned := hrange.aligned
      rw [MappedRegion.covers_iff]
      unfold MappedRegion.stop
      unfold PAGE_SIZE at *
      dsimp only
      omega
    · cases hp

/-! ## Stores -/

variable {addr : ℕ} {a : Access}

section Stores

variable {space : AddressSpace} {pages : List Page}

theorem MapsGuarded.update (h : MapsGuarded f space pages) {p : Page} {pages' : List Page}
    (hnew : ∀ q ∈ pages', q = p ∨ q ∈ pages) (hcov : (viewPage space p.page).isSome) (hro : ReadOnly f space p) :
    MapsGuarded f space pages' where
  tidy := h.tidy
  bump := h.bump
  covered q hq := by
    rcases hnew q hq with rfl | hq
    · exact hcov
    · exact h.covered q hq
  region := h.region
  page q hq := by
    rcases hnew q hq with rfl | hq
    · exact hro
    · exact h.page q hq

theorem MapsGuarded.setPage (h : MapsGuarded f s.space s.pages) {page : ℕ} {shown : Shown} {flags : PageFlags}
    (hcov : (viewPage s.space page).isSome) (hro : ReadOnly f s.space ⟨page, shown, flags⟩) :
    MapsGuarded f s.space (s.setPage page shown flags).pages := by
  refine h.update (p := ⟨page, shown, flags⟩) (fun q hq => ?_) hcov hro
  obtain ⟨p, hp, rfl⟩ := mem_map.1 hq
  split_ifs
  · exact .inl rfl
  · exact .inr hp

theorem readOnly_of_ne {p : Page} (h : ∀ offset, p.shown ≠ .file f offset) : ReadOnly f space p :=
  fun offset hshown => absurd hshown (h offset)

theorem MapsGuarded.viewPage_of_mem (h : MapsGuarded f space pages) {r : MappedRegion} (hr : r ∈ space.mmapRegions)
    (hcov : r.covers addr = true) :
    viewPage space (addr / PAGE_SIZE) = some (r.backing (addr / PAGE_SIZE * PAGE_SIZE)) := by
  apply Memory.view_of_mem h.tidy.apart hr
  rw [(h.tidy.aligned r hr).covers_page]
  exact hcov

theorem MapsGuarded.demandPage (h : MapsGuarded f s.space s.pages) (a : Access) (addr : ℕ) :
    ∃ pages, s.demandPage a addr = { s with pages := pages } ∧ MapsGuarded f s.space pages := by
  unfold Session.demandPage
  cases hfind : s.space.mmapRegions.find? (·.covers addr) with
  | none => exact ⟨s.pages, rfl, h⟩
  | some r =>
    have hr := mem_of_find?_eq_some hfind
    have hcov : r.covers addr = true := by simpa using find?_some hfind
    have hview := h.viewPage_of_mem hr hcov
    dsimp only
    by_cases hpresent : (s.pageAt addr).isSome = true
    · rw [if_pos hpresent]
      exact ⟨s.pages, rfl, h⟩
    · rw [if_neg hpresent]
      cases hshown : demandShown a r (UInt64.ofNat (addr / PAGE_SIZE * PAGE_SIZE - r.start)) with
      | none => exact ⟨s.pages, rfl, h⟩
      | some found =>
        obtain ⟨shown, cow⟩ := found
        dsimp only
        by_cases htables : a.tablesOk = true
        · rw [if_pos htables]
          refine ⟨_, rfl, h.update (fun q hq => (mem_append.1 hq).symm.imp_left mem_singleton.1) (by rw [hview]; rfl)
            fun offset hfile => ?_⟩
          -- only a mapping of the file shows it, and then the page is copied on a write or not written at all
          have hmaps : Maps f (r.backing (addr / PAGE_SIZE * PAGE_SIZE)) ∧ cow = (!r.isShared && protWrite r.prot) := by
            unfold demandShown at hshown
            cases hi : r.inode with
            | none =>
              simp only [hi] at hshown
              split_ifs at hshown
              cases hshown
              cases hfile
            | some i =>
              simp only [hi] at hshown
              split_ifs at hshown
              · cases hshown
                cases hfile
              · cases hshown
                cases hfile
                exact ⟨⟨i, hi, rfl⟩, rfl⟩
          have hro := h.region _ _ hview hmaps.1
          replace hro : ¬ (r.isShared = true ∧ protWrite r.prot = true) := hro
          rw [hview]
          simp only [Memory.Machine.demandFlags, Option.mem_def, Option.some.injEq, forall_eq']
          refine ⟨?_, hmaps.1, ?_⟩
          · cases hs : r.isShared <;> cases hw : protWrite r.prot <;> simp_all
          · intro hcow
            show protWrite r.prot = false
            cases hs : r.isShared <;> cases hw : protWrite r.prot <;> simp_all
        · rw [if_neg htables]
          exact ⟨s.pages, rfl, h⟩

theorem MapsGuarded.writeFault (h : MapsGuarded f s.space s.pages)
    (hok : ∀ b ∈ viewPage s.space (addr / PAGE_SIZE), Maps f b → a.locked = false ∧ 1 < a.refs) :
    ∃ pages, s.writeFault a addr = { s with pages := pages } ∧ MapsGuarded f s.space pages := by
  unfold Session.writeFault
  cases hp : s.pageAt addr with
  | none => exact h.demandPage a addr
  | some p =>
    have hmem : p ∈ s.pages := mem_of_find?_eq_some hp
    have hpage : p.page = addr / PAGE_SIZE := by simpa using find?_some hp
    have hcov := h.covered p hmem
    obtain ⟨b, hb⟩ := Option.isSome_iff_exists.1 hcov
    -- where the page shows `f`, the handler sees that it does
    have hshows : ∀ offset, p.shown = .file f offset → a.locked = false ∧ 1 < a.refs ∧
        (p.flags.cow = false → protWrite b.prot = false) := by
      intro offset hfile
      obtain ⟨-, hro⟩ := h.page p hmem offset hfile
      obtain ⟨hmaps, hprot⟩ := hro b hb
      obtain ⟨hlocked, hrefs⟩ := hok b (hpage ▸ hb) hmaps
      exact ⟨hlocked, hrefs, hprot⟩
    dsimp only
    cases hfault : p.flags.writeFault a.refs (s.space.writeAllowed a.locked addr) with
    | allow flags =>
      refine ⟨_, rfl, h.setPage hcov (readOnly_of_ne fun offset hfile => ?_)⟩
      obtain ⟨hlocked, hrefs, hprot⟩ := hshows offset hfile
      rcases Memory.PageFlags.of_writeFault_allow hfault with ⟨-, hle⟩ | ⟨hcow, hallowed⟩
      · exact absurd hrefs (UInt8.not_lt.2 hle)
      · rw [AddressSpace.writeAllowed, hlocked, Bool.false_or, any_eq_true] at hallowed
        obtain ⟨r, hr, hallow⟩ := hallowed
        rw [and_eq_true] at hallow
        have hview := h.viewPage_of_mem hr hallow.1
        rw [← hpage, hb, Option.some.injEq] at hview
        have hread := hprot hcow
        rw [hview] at hread
        exact absurd hallow.2 (eq_false_iff.1 hread)
    | copy flags =>
      dsimp only
      split_ifs
      · refine ⟨_, rfl, h.setPage hcov (readOnly_of_ne fun offset hfile => ?_)⟩
        cases hfile
      · exact ⟨s.pages, rfl, h⟩
    | writable => exact ⟨s.pages, rfl, h⟩
    | refuse => exact ⟨s.pages, rfl, h⟩

section

variable (h : s.Guarded f kept creds)
include h

/-- the page that a store goes to does not show `f` -/
theorem Guarded.put (addr : ℕ) (byte : UInt8) (hdisk : ∀ p ∈ s.storesTo addr, ¬Behind s.files f p.1) :
    (s.put addr byte).Guarded f kept creds := by
  unfold Session.put
  cases hto : s.storesTo addr with
  | none => exact h
  | some found =>
    obtain ⟨i, offset⟩ := found
    have hne : i ≠ f := by
      rintro rfl
      unfold storesTo at hto
      split at hto
      · rename_i page j offset flags hp
        cases hto
        obtain ⟨hat, hwritable⟩ := Option.filter_eq_some_iff.1 hp
        have hro := (h.maps.page _ (mem_of_find?_eq_some hat) _ rfl).1
        exact absurd hwritable (eq_false_iff.1 hro)
      · cases hto
    have hwrite := h.mayWrite hne (hdisk _ hto)
    have hchanged : Holds (f + 1) (Beside f kept i (s.files.node i).driver)
        (s.files.update i fun n => n.withData (n.data.set (offset + addr % PAGE_SIZE) byte)) := by
      refine (keeps_change fun n hn => hwrite.data n _ hn).final (x := change i _) ?_
      exact ⟨h.files.1, fun j => ⟨h.files.2 j, fun hj => by rw [hj]⟩⟩
    dsimp only
    split_ifs with hblock
    · have hspilled := (keeps_spill (hwrite.disk _ ⟨h.files.2 i, fun _ => rfl⟩ hblock)).final hchanged
      exact ⟨hspilled.mono fun _ _ hn => hn.1, h.creds, h.fds, h.maps⟩
    · exact ⟨hchanged.mono fun _ _ hn => hn.1, h.creds, h.fds, h.maps⟩

theorem Guarded.fault (hok : ∀ b ∈ viewPage s.space (addr / PAGE_SIZE), Maps f b → a.locked = false ∧ 1 < a.refs) :
    ∃ pages, (if (s.writablePage addr).isSome then s else s.writeFault a addr) = { s with pages := pages } ∧
      MapsGuarded f s.space pages := by
  split_ifs
  · exact ⟨s.pages, rfl, h.maps⟩
  · exact h.maps.writeFault hok

theorem Guarded.faulted (hok : ∀ b ∈ viewPage s.space (addr / PAGE_SIZE), Maps f b → a.locked = false ∧ 1 < a.refs) :
    ∃ pages, s.faulted a addr = { s with pages := pages } ∧ MapsGuarded f s.space pages := by
  obtain ⟨pages1, heq1, hmaps1⟩ := h.fault hok
  have h1 : Guarded f kept creds { s with pages := pages1 } := ⟨h.files, h.creds, h.fds, hmaps1⟩
  obtain ⟨pages2, heq2, hmaps2⟩ := h1.fault hok
  refine ⟨pages2, ?_, hmaps2⟩
  unfold Session.faulted
  dsimp only
  rw [heq1]
  exact heq2

theorem Guarded.store (byte : UInt8)
    (hok : ∀ b ∈ viewPage s.space (addr / PAGE_SIZE), Maps f b → a.locked = false ∧ 1 < a.refs)
    (hdisk : ∀ p ∈ (s.faulted a addr).storesTo addr, ¬Behind s.files f p.1) : (s.store a addr byte).Guarded f kept creds := by
  obtain ⟨pages, heq, hmaps⟩ := h.faulted hok
  unfold Session.store
  rw [heq] at hdisk ⊢
  have h2 : Guarded f kept creds { s with pages := pages } := ⟨h.files, h.creds, h.fds, hmaps⟩
  exact h2.put addr byte hdisk

end

end Stores

/-! ## Runs -/

/-- a descriptor for `f` is not open for writing, so a mapping of it is not both shared and writable -/
theorem Guarded.mmapArgs {addr length prot flags : ℕ} {fd : ℤ} {offset : UInt64} (h : s.Guarded f kept creds)
    (hok : s.Orderly f (.mmap addr length prot flags fd offset)) :
    ∀ i ∈ (s.mmapArgs addr length prot flags fd offset).file, i.ino = f →
      ¬ ((s.mmapArgs addr length prot flags fd offset).isShared = true ∧
        protWrite (s.mmapArgs addr length prot flags fd offset).prot = true) := by
  rintro i hi hino ⟨hshared, hprot⟩
  unfold MmapArgs.file at hi
  split_ifs at hi
  · cases hi
  · obtain ⟨hdesc, -⟩ := Option.mem_filter_iff.1 hi
    obtain ⟨d, hd, rfl⟩ := Option.map_eq_some_iff.1 hdesc
    have hw := hok d hd hino (bne_iff_ne.1 hshared) hprot
    exact h.ne_of_writable (FdTable.has_of_lookup hd) hw hino

/-- **One step.** -/
theorem Guarded.step {e : IoCall}
    (hno : checkPermissionWithCreds kept.inode MAY_WRITE ⟨creds.uids.effective, creds.gids.effective⟩ = false)
    (h : s.Guarded f kept creds) (hok : s.Orderly f e) : (s.stepIo e).Guarded f kept creds := by
  have hcaller : ∀ n, checkPermissionWithCreds kept.inode MAY_WRITE (s.caller n).creds = false := by
    intro n
    show checkPermissionWithCreds kept.inode MAY_WRITE ⟨s.creds.uids.effective, s.creds.gids.effective⟩ = false
    rw [h.creds]
    exact hno
  cases e with
  | «open» n path flags mode => exact h.openNode (kept_open (hcaller n) h.files hok)
  | openat n dfd name flags mode =>
    unfold stepIo
    dsimp only
    cases hd : s.dirOf dfd with
    | none => exact h
    | some d => exact h.openNode (kept_openat (hcaller n) h.files (hok d hd))
  | read fd count => exact h.onDesc fd fun d _ => (keeps_descRead d count).outcome h.files
  | write fd bytes =>
    refine h.onDesc fd fun d hd => h.outcome (b := d.ino) (keeps_fileDescWrite fun hw => ?_)
    exact h.mayWrite (h.ne_of_writable (FdTable.has_of_lookup hd) hw) (hok d hd hw)
  | pwrite64 fd offset bytes =>
    unfold stepIo
    dsimp only
    cases hd : s.fds.lookup fd with
    | none => exact h
    | some d =>
      obtain ⟨hw, hdisk⟩ := hok d hd
      have hne : d.ino ≠ f := fun heq => h.ne_of_writable (FdTable.has_of_lookup hd) (hw heq) heq
      exact h.onFiles (h.outcome (keeps_pwrite64 (h.mayWrite hne hdisk))).1
  | writev fd iov =>
    refine h.onDesc fd fun d hd => h.outcome (b := d.ino) (keeps_writev fun hw => ?_)
    exact h.mayWrite (h.ne_of_writable (FdTable.has_of_lookup hd) hw) (hok d hd hw)
  | ftruncate fd length =>
    unfold stepIo
    dsimp only
    cases hd : s.fds.lookup fd with
    | none => exact h
    | some d =>
      refine h.onFiles ((keeps_ftruncate (fun hw => ?_) length).final h.files)
      exact mayResize_kept (h.ne_of_writable (FdTable.has_of_lookup hd) hw)
  | mmap addr length prot flags fd offset =>
    have hm := h.mmapArgs hok
    show (s.mmap (s.mmapArgs addr length prot flags fd offset)).Guarded f kept creds
    generalize s.mmapArgs addr length prot flags fd offset = m at hm ⊢
    obtain ⟨hfiles, hcreds, hfds⟩ := mmap_frame s m
    refine ⟨?_, hcreds.trans h.creds, ?_, h.maps.mmap hm⟩
    · rw [hfiles]
      exact h.files
    · rw [hfds]
      exact h.fds
  | store a addr byte => exact h.store byte hok.1 hok.2

end Session

end Kontsnor.Fs
