/-
Address spaces: `mmap` and `mprotect` (`syscall/memory.rs`), `clone_parent_page_table` (`memory/virtual.rs`), and the
page-fault handler (`arch/x86_64/interrupts.rs`).

- An address space is its list of mapped regions, the program break and the address the search for a gap starts at.
- The leaf entries of all page tables are one list: the address space (`root`), the page, the frame and the flags. The
  tables above the leaves are left out. Whether a frame for one could be had is an argument of the operation, and the
  frames they take are taken by `kernelAlloc`.
- `Machine.step`: a system call, a page fault, a page read into the page cache or evicted from it, a frame taken or given
  back by the rest of the kernel.

`BIT_9` of an entry is `cow`. Frames come from the allocator of `Frames`, whose world also counts the references to each
frame; those to the frame buffer are not counted there. Left out: the write-back of shared pages, and the field of a region
that is only shown (`pathname`). The calls that `Machine` does not have are in `RegionCalls` and `FaultHandler`.
-/
import Kontsnor.Errno
import Kontsnor.Memory.FramesSpec

namespace Kontsnor.Memory

/-! ## Regions -/

/-- what the memory calls read of an inode -/
structure MappedInode where
  dev : ℕ
  ino : ℕ
  charDevice : Bool
  rdev : ℕ
deriving DecidableEq

namespace MappedInode

def isDevZero (i : MappedInode) : Bool := i.charDevice && i.rdev == (1 <<< 8 ||| 5)

def isDevFb0 (i : MappedInode) : Bool := i.charDevice && i.rdev == 29 <<< 8

end MappedInode

structure MappedRegion where
  start : ℕ
  len : ℕ
  inode : Option MappedInode
  offset : UInt64
  isShared : Bool
  prot : ℕ
  isStack : Bool
deriving DecidableEq

namespace MappedRegion

variable (r : MappedRegion)

def stop : ℕ := r.start + r.len

def covers (addr : ℕ) : Bool := r.start ≤ addr && addr < r.stop

/-- the part of the region from `start` to `stop` -/
def part (start stop : ℕ) : MappedRegion :=
  { r with start := start, len := stop - start, offset := r.offset + UInt64.ofNat (start - r.start) }

end MappedRegion

def protWrite (prot : ℕ) : Bool := prot &&& 2 != 0

def protExec (prot : ℕ) : Bool := prot &&& 4 != 0

structure AddressSpace where
  brk : ℕ
  mmapBump : ℕ
  mmapRegions : List MappedRegion

/-- the loop of `unmap_range`; a region that sticks out on both sides ends it -/
def unmapRange (unmapStart unmapEnd : ℕ) : List MappedRegion → List MappedRegion
  | [] => []
  | r :: rest =>
    if r.stop ≤ unmapStart ∨ unmapEnd ≤ r.start then r :: unmapRange unmapStart unmapEnd rest
    else if unmapStart ≤ r.start ∧ r.stop ≤ unmapEnd then unmapRange unmapStart unmapEnd rest
    else if r.start < unmapStart ∧ unmapEnd < r.stop then
      r.part r.start unmapStart :: r.part unmapEnd r.stop :: rest
    else if r.start < unmapStart then r.part r.start unmapStart :: unmapRange unmapStart unmapEnd rest
    else r.part unmapEnd r.stop :: unmapRange unmapStart unmapEnd rest

/-- `mprotect` on one region: the part to the left, the part in the range with the new protection, the part to the right -/
def protectRegion (protStart protEnd prot : ℕ) (r : MappedRegion) : List MappedRegion :=
  if r.stop ≤ protStart ∨ protEnd ≤ r.start then [r]
  else
    (if r.start < protStart then [r.part r.start protStart] else []) ++
    [{ r.part (max r.start protStart) (min r.stop protEnd) with prot := prot }] ++
    (if protEnd < r.stop then [r.part protEnd r.stop] else [])

/-! ## Where a mapping goes -/

def USER_END : ℕ := 0x00007FFFFFFFFFFF

def MMAP_END : ℕ := 0x00007FFF00000000

def saturatingAdd (a b : ℕ) : ℕ := min (a + b) (2 ^ 64 - 1)

def pageUp (addr : ℕ) : ℕ := (addr + 4095) / PAGE_SIZE * PAGE_SIZE

/-- `length.checked_add(4095)`, rounded down to whole pages -/
def alignLen (length : ℕ) : Option ℕ := if length + 4095 < 2 ^ 64 then some (pageUp length) else none

/-- the test for an overlap, with the end of the region as `saturating_add` gives it -/
def MappedRegion.overlaps (r : MappedRegion) (start stop : ℕ) : Bool :=
  start < saturatingAdd r.start r.len && r.start < stop

namespace AddressSpace

/-- the end of what lies in the way of a candidate -/
def overlappingEnd (a : AddressSpace) (candidate candidateEnd : ℕ) : Option ℕ :=
  if candidate < a.brk then some a.brk
  else a.mmapRegions.foldl (fun found r =>
    if r.overlaps candidate candidateEnd then some (max (found.getD 0) (saturatingAdd r.start r.len)) else found) none

theorem lt_of_overlappingEnd {a : AddressSpace} {candidate candidateEnd e : ℕ}
    (h : a.overlappingEnd candidate candidateEnd = some e) : candidate < e := by
  unfold overlappingEnd at h
  split_ifs at h with hbrk
  · cases h
    exact hbrk
  · revert h
    refine List.foldlRecOn (motive := fun found => found = some e → candidate < e) a.mmapRegions _ nofun
      fun found hfound r _ => ?_
    split_ifs with hover
    · rintro ⟨⟩
      have hlt : candidate < saturatingAdd r.start r.len := by
        simp only [MappedRegion.overlaps, Bool.and_eq_true, decide_eq_true_eq] at hover
        exact hover.1
      exact hlt.trans_le (le_max_right _ _)
    · exact hfound

theorem le_pageUp (addr : ℕ) : addr ≤ pageUp addr := by
  unfold pageUp PAGE_SIZE
  omega

/-- the loop over candidates -/
def findGap (a : AddressSpace) (alignedLen candidate : ℕ) : Except Errno ℕ :=
  if 2 ^ 64 ≤ candidate + alignedLen then .error .ENOMEM
  else if MMAP_END < candidate + alignedLen then .error .ENOMEM
  else
    match _h : a.overlappingEnd candidate (candidate + alignedLen) with
    | some e => findGap a alignedLen (pageUp e)
    | none => .ok candidate
termination_by MMAP_END + 1 - candidate
decreasing_by
  have hlt := lt_of_overlappingEnd _h
  have hle := le_pageUp e
  omega

/-- a fixed address must be a page of user space, and so must the end -/
def fixedRange (addr alignedLen : ℕ) : Bool :=
  addr % PAGE_SIZE == 0 && addr != 0 && addr + alignedLen < 2 ^ 64 && addr + alignedLen ≤ USER_END

/-- a hint is taken if it is a page and nothing is there -/
def hintOk (a : AddressSpace) (addr alignedLen : ℕ) : Bool :=
  addr != 0 && addr % PAGE_SIZE == 0 && saturatingAdd addr alignedLen ≤ USER_END && !(addr < a.brk) &&
    !a.mmapRegions.any (·.overlaps addr (saturatingAdd addr alignedLen))

end AddressSpace

/-- the arguments of `mmap`; `desc` is the inode that the descriptor `fd` is open on -/
structure MmapArgs where
  addr : ℕ
  length : ℕ
  prot : ℕ
  flags : ℕ
  fd : ℤ
  offset : UInt64
  desc : Option MappedInode

namespace MmapArgs

variable (m : MmapArgs)

def isShared : Bool := m.flags &&& 0x01 != 0

def isFixed : Bool := m.flags &&& 0x10 != 0

def isAnon : Bool := m.flags &&& 0x20 != 0 || m.fd == -1

def isFixedNoreplace : Bool := m.flags &&& 0x100000 != 0

/-- what is there is unmapped first -/
def replaces : Bool := m.isFixed && !m.isFixedNoreplace

/-- the inode behind the mapping; `/dev/zero` counts as none -/
def file : Option MappedInode :=
  if m.isAnon then none else m.desc.filter fun i => !i.isDevZero

end MmapArgs

/-- the address of a new mapping, and the new start of the search -/
def AddressSpace.place (a : AddressSpace) (m : MmapArgs) (alignedLen : ℕ) : Except Errno (ℕ × ℕ) :=
  if m.isFixedNoreplace then
    if !fixedRange m.addr alignedLen then .error .EINVAL
    else if m.addr < a.brk then .error .EEXIST
    else if a.mmapRegions.any (·.overlaps m.addr (m.addr + alignedLen)) then .error .EEXIST
    else .ok (m.addr, max a.mmapBump (m.addr + alignedLen))
  else if m.isFixed then
    if !fixedRange m.addr alignedLen then .error .EINVAL else .ok (m.addr, max a.mmapBump (m.addr + alignedLen))
  else if a.hintOk m.addr alignedLen then .ok (m.addr, a.mmapBump)
  else (a.findGap alignedLen a.mmapBump).map fun candidate => (candidate, candidate + alignedLen)

/-- `sys_mmap` up to the pages: the new region, and the address space with it -/
def AddressSpace.mmap (a : AddressSpace) (m : MmapArgs) : Except Errno (MappedRegion × AddressSpace) :=
  if m.length = 0 then .error .EINVAL
  else if !m.isAnon && m.desc.isNone then .error .EBADF
  else
    match alignLen m.length with
    | none => .error .EINVAL
    | some alignedLen =>
      match a.place m alignedLen with
      | .error e => .error e
      | .ok (resolved, bump) =>
        let regions := if m.replaces then unmapRange resolved (resolved + alignedLen) a.mmapRegions else a.mmapRegions
        let region : MappedRegion := ⟨resolved, alignedLen, m.file, m.offset, m.isShared, m.prot, false⟩
        .ok (region, { a with mmapBump := bump, mmapRegions := regions ++ [region] })

/-- a region allows a write, or the regions cannot be looked at -/
def AddressSpace.writeAllowed (a : AddressSpace) (locked : Bool) (addr : ℕ) : Bool :=
  locked || a.mmapRegions.any fun r => r.covers addr && protWrite r.prot

/-! ## Page tables -/

structure PageFlags where
  writable : Bool
  cow : Bool
  user : Bool
  noExecute : Bool
deriving DecidableEq

structure Leaf where
  root : ℕ
  page : ℕ
  frame : ℕ
  flags : PageFlags
deriving DecidableEq

/-- what a write to a page that is mapped comes to -/
inductive WriteFault
  /-- the entry gets other flags -/
  | allow (flags : PageFlags)
  /-- a copy gets them, in place of the page -/
  | copy (flags : PageFlags)
  | writable
  | refuse

/-- the part of `page_fault_handler_inner` for a write to a page that is mapped -/
def PageFlags.writeFault (flags : PageFlags) (refs : UInt8) (allowed : Bool) : WriteFault :=
  if flags.cow then
    if refs ≤ 1 then .allow { flags with writable := true, cow := false }
    else .copy { flags with writable := true, cow := false }
  else if flags.writable then .writable
  else if allowed then .allow { flags with writable := true }
  else .refuse

theorem PageFlags.of_writeFault_allow {flags flags' : PageFlags} {refs : UInt8} {allowed : Bool}
    (h : flags.writeFault refs allowed = .allow flags') : flags.cow = true ∧ refs ≤ 1 ∨ flags.cow = false ∧ allowed = true := by
  unfold writeFault at h
  split_ifs at h with hcow hrefs hwritable hallowed
  · exact .inl ⟨hcow, hrefs⟩
  · exact .inr ⟨Bool.eq_false_iff.2 hcow, hallowed⟩

/-- a page in the page cache -/
structure CachedPage where
  dev : ℕ
  ino : ℕ
  offset : ℕ
  frame : ℕ
deriving DecidableEq

structure Machine where
  world : World
  /-- `get_lfb_phys()` -/
  lfb : UInt64
  /-- the number of address spaces there are -/
  live : ℕ
  spaces : ℕ → AddressSpace
  leaves : List Leaf
  cache : List CachedPage
  /-- what the rest of the kernel has allocated -/
  kernel : List ℕ

def isVramAddr (lfb : UInt64) (phys : ℕ) : Bool :=
  (lfb.toNat ≤ phys && phys < lfb.toNat + 16 * 1024 * 1024) ||
  (0xe0000000 ≤ phys && phys < 0xe0000000 + 16 * 1024 * 1024) ||
  (0xfd000000 ≤ phys && phys < 0xfd000000 + 16 * 1024 * 1024)

namespace Machine

variable (s : Machine)

def isVram (frame : ℕ) : Bool := isVramAddr s.lfb (frame * PAGE_SIZE)

def call (c : Call) : Machine := { s with world := s.world.step c }

def deallocate (core frame : ℕ) : Machine := s.call (.deallocateFrame core (frame * PAGE_SIZE))

/-- a frame for the caller, unless there is none -/
def allocate (core : ℕ) : Option ℕ × Machine :=
  ((s.world.phys.allocateFrame core).1.map frameOf, s.call (.allocateFrame core))

def incrementRef (s : Machine) (frame : ℕ) : Machine :=
  if s.isVram frame then { s with world := ⟨s.world.phys.incrementRef (frame * PAGE_SIZE), s.world.held⟩ }
  else s.call (.incrementRef (frame * PAGE_SIZE))

def lookup (root page : ℕ) : Option Leaf :=
  s.leaves.find? fun l => l.root == root && l.page == page

/-- `set_addr` on the entry of a page -/
def setLeaf (root page : ℕ) (frame : ℕ) (flags : PageFlags) : Machine :=
  { s with leaves := s.leaves.map fun l =>
      if l.root == root && l.page == page then ⟨root, page, frame, flags⟩ else l }

/-- `map_user_page_no_shootdown`; the failure is that of an entry that exists, or of a table -/
def mapUserPage (root page frame : ℕ) (flags : PageFlags) (tablesOk : Bool) : Option Machine :=
  if (s.lookup root page).isSome || !tablesOk then none
  else some { s with leaves := s.leaves ++ [⟨root, page, frame, flags⟩] }

def releasePage (core root : ℕ) (s : Machine) (page : ℕ) : Machine :=
  match s.lookup root page with
  | none => s
  | some l =>
    let s' := { s with leaves := s.leaves.filter fun l => !(l.root == root && l.page == page) }
    if s.isVram l.frame then s' else s'.deallocate core l.frame

def setSpace (root : ℕ) (a : AddressSpace) : Machine :=
  { s with spaces := Function.update s.spaces root a }

/-! ## The calls -/

/-- page `i` of a mapping of the frame buffer -/
def mapVram (root firstPage : ℕ) (base : UInt64) (tablesOk : ℕ → Bool) (s : Machine) (i : ℕ) : Machine :=
  let frame := frameOf (base + UInt64.ofNat (i * PAGE_SIZE)).toNat
  (s.mapUserPage root (firstPage + i) frame ⟨true, false, true, false⟩ (tablesOk i)).getD s

def mmap (core root : ℕ) (m : MmapArgs) (tablesOk : ℕ → Bool) : Except Errno ℕ × Machine :=
  match (s.spaces root).mmap m with
  | .error e => (.error e, s)
  | .ok (r, a) =>
    let firstPage := r.start / PAGE_SIZE
    let pages := r.len / PAGE_SIZE
    let s1 := if m.replaces then (List.range' firstPage pages).foldl (releasePage core root) s else s
    let s2 := s1.setSpace root a
    let s3 := if m.file.any (·.isDevFb0) then
        (List.range pages).foldl (mapVram root firstPage (s.lfb + m.offset) tablesOk) s2
      else s2
    (.ok r.start, s3)

/-- the flags of an entry after `mprotect` -/
def protectFlags (prot : ℕ) (isShared isFileBacked : Bool) (flags : PageFlags) : PageFlags :=
  if prot = 0 then { flags with user := false }
  else if protWrite prot then
    if isShared || !isFileBacked then ⟨true, false, true, !protExec prot⟩
    else ⟨flags.writable, flags.cow || !flags.writable, true, !protExec prot⟩
  else ⟨false, false, true, !protExec prot⟩

/-- `mprotect` on the entry of one page -/
def protectPage (root prot : ℕ) (s : Machine) (page : ℕ) : Machine :=
  let (isShared, isFileBacked) :=
    (((s.spaces root).mmapRegions.find? (·.covers (page * PAGE_SIZE))).map fun r =>
      (r.isShared, r.inode.isSome)).getD (false, false)
  { s with leaves := s.leaves.map fun l =>
      if l.root == root && l.page == page then { l with flags := protectFlags prot isShared isFileBacked l.flags } else l }

def mprotect (root addr length prot : ℕ) : Except Errno Unit × Machine :=
  if length = 0 ∨ addr % PAGE_SIZE ≠ 0 then (.error .EINVAL, s)
  else
    match alignLen length with
    | none => (.error .EINVAL, s)
    | some alignedLen =>
      if 2 ^ 64 ≤ addr + alignedLen ∨ USER_END < addr + alignedLen then (.error .EINVAL, s)
      else
        let pages := List.range' (addr / PAGE_SIZE) (alignedLen / PAGE_SIZE)
        let a := s.spaces root
        if pages.all fun page => a.mmapRegions.any (·.covers (page * PAGE_SIZE)) then
          let s' := s.setSpace root
            { a with mmapRegions := a.mmapRegions.flatMap (protectRegion addr (addr + alignedLen) prot) }
          (.ok (), pages.foldl (protectPage root prot) s')
        else (.error .ENOMEM, s)

/-- the flags of an entry and of its copy after `fork` -/
def cowFlags (isShared : Bool) (flags : PageFlags) : PageFlags :=
  if (flags.writable || flags.cow) && !isShared then { flags with writable := false, cow := true } else flags

/-- whether some region that covers the page is shared -/
def sharedMapping (root page : ℕ) : Bool :=
  (s.spaces root).mmapRegions.any fun r => r.covers (page * PAGE_SIZE) && r.isShared

/-- the walk of `clone_parent_page_table` reaches the entry: it is one of the parent's, below the page where a table for
the child could not be had -/
def cloned (parent : ℕ) (failsAt : Option ℕ) (l : Leaf) : Bool :=
  l.root == parent && failsAt.all fun page => l.page < page

/-- `fork`, with `clone_parent_page_table` -/
def fork (parent : ℕ) (failsAt : Option ℕ) : Except Errno Unit × Machine :=
  let walked := s.leaves.filter (cloned parent failsAt)
  let marked := s.leaves.map fun l =>
    if cloned parent failsAt l then { l with flags := cowFlags (s.sharedMapping l.root l.page) l.flags } else l
  let s' := (walked.map (·.frame)).foldl incrementRef { s with leaves := marked }
  match failsAt with
  | some _ => (.error .ENOMEM, s')
  | none =>
    let child := walked.map fun l =>
      { l with root := s.live, flags := cowFlags (s.sharedMapping l.root l.page) l.flags }
    (.ok (), { s' with
      live := s.live + 1
      spaces := Function.update s.spaces s.live (s.spaces parent)
      leaves := marked ++ child })

/-- `page_cache_get`, at the page of the offset -/
def cachedPage (inode : MappedInode) (fileOffset : UInt64) : Option CachedPage :=
  s.cache.find? fun c =>
    c.dev == inode.dev && c.ino == inode.ino && c.offset == fileOffset.toNat / PAGE_SIZE * PAGE_SIZE

/-- `get_or_create_page`; it runs out of memory only after the page cache could not give anything back -/
def getOrCreatePage (core : ℕ) (inode : MappedInode) (fileOffset : UInt64) (readOk : Bool) : Option ℕ × Machine :=
  match s.cachedPage inode fileOffset with
  | some c => (some c.frame, s)
  | none =>
    match s.allocate core with
    | (none, s) => (none, s)
    | (some frame, s) =>
      if readOk then
        let c : CachedPage := ⟨inode.dev, inode.ino, fileOffset.toNat / PAGE_SIZE * PAGE_SIZE, frame⟩
        (some frame, { s with cache := s.cache ++ [c] })
      else (none, s.deallocate core frame)

end Machine

/-- a page fault: what caused it, and what the handler meets -/
structure Fault where
  core : ℕ
  root : ℕ
  addr : ℕ
  write : Bool
  /-- the task or its address space is locked, so that the regions cannot be looked at -/
  locked : Bool
  readOk : Bool
  tablesOk : Bool

inductive FaultOutcome where
  | resolved
  | error (errno : ℤ)
  | unmapped
deriving DecidableEq

namespace Machine

variable (s : Machine) (f : Fault)

/-- the frame for a page of a region, and whether the page is copied on a write -/
def demandFrame (r : MappedRegion) (pageOffset : UInt64) : Except ℤ (ℕ × Bool) × Machine :=
  match r.inode with
  | some inode =>
    if inode.isDevFb0 then (.ok (frameOf (s.lfb + r.offset + pageOffset).toNat, false), s)
    else
      match s.getOrCreatePage f.core inode (r.offset + pageOffset) f.readOk with
      | (some frame, s) => (.ok (frame, !r.isShared && protWrite r.prot), s)
      | (none, s) => (.error (-5), s)
  | none =>
    match s.allocate f.core with
    | (some frame, s) => (.ok (frame, false), s)
    | (none, s) => (.error (-12), s)

/-- the flags of a page that is mapped on demand -/
def demandFlags (prot : ℕ) (doCow : Bool) : PageFlags where
  writable := protWrite prot && !doCow
  cow := doCow
  user := true
  noExecute := prot &&& 5 == 0

def demandPage : FaultOutcome × Machine :=
  if f.addr < 0x0000800000000000 then
    match (s.spaces f.root).mmapRegions.find? (·.covers f.addr) with
    | none => (.unmapped, s)
    | some r =>
      let page := f.addr / PAGE_SIZE
      if (s.lookup f.root page).isSome then (.resolved, s)
      else
        match s.demandFrame f r (UInt64.ofNat (page * PAGE_SIZE - r.start)) with
        | (.error e, s) => (.error e, s)
        | (.ok (frame, doCow), s) =>
          let counted := r.inode.isSome && !s.isVram frame
          let s := if counted then s.incrementRef frame else s
          match s.mapUserPage f.root page frame (demandFlags r.prot doCow) f.tablesOk with
          | some s => (.resolved, s)
          | none =>
            if s.isVram frame then (.error (-12), s)
            else if r.inode.isSome then (.error (-12), s.call (.decrementRef (frame * PAGE_SIZE)))
            else (.error (-12), s.deallocate f.core frame)
  else (.unmapped, s)

def writeAllowed : Bool := (s.spaces f.root).writeAllowed f.locked f.addr

/-- `page_fault_handler_inner` up to the growth of stacks -/
def pageFault : FaultOutcome × Machine :=
  let page := f.addr / PAGE_SIZE
  match (if f.write then s.lookup f.root page else none) with
  | none => s.demandPage f
  | some l =>
    match l.flags.writeFault (s.world.phys.refs l.frame) (s.writeAllowed f) with
    | .allow flags => (.resolved, s.setLeaf f.root page l.frame flags)
    | .copy flags =>
      match s.allocate f.core with
      | (some frame, s) => (.resolved, (s.setLeaf f.root page frame flags).deallocate f.core l.frame)
      | (none, s) => s.demandPage f
    | .writable => (.resolved, s)
    | .refuse => s.demandPage f

/-- `page_cache_evict_clean_pages` on one page that is clean and not referenced -/
def evict (core : ℕ) (c : CachedPage) : Machine :=
  if c ∈ s.cache ∧ s.world.phys.refs c.frame ≤ 1 then
    { s with cache := s.cache.erase c }.deallocate core c.frame
  else s

end Machine

/-! ## Runs -/

inductive MachineEvent where
  | mmap (core root : ℕ) (m : MmapArgs) (tablesOk : ℕ → Bool)
  | mprotect (root addr length prot : ℕ)
  | fork (parent : ℕ) (failsAt : Option ℕ)
  | pageFault (f : Fault)
  | readPage (core : ℕ) (inode : MappedInode) (fileOffset : UInt64) (readOk : Bool)
  | evict (core : ℕ) (c : CachedPage)
  | kernelAlloc (core : ℕ)
  | kernelFree (core frame : ℕ)

/-- the address space that an event is about -/
def MachineEvent.root : MachineEvent → Option ℕ
  | mmap _ root _ _ => some root
  | mprotect root _ _ _ => some root
  | fork parent _ => some parent
  | pageFault f => some f.root
  | _ => none

namespace Machine

def perform (s : Machine) : MachineEvent → Machine
  | .mmap core root m tablesOk => (s.mmap core root m tablesOk).2
  | .mprotect root addr length prot => (s.mprotect root addr length prot).2
  | .fork parent failsAt => (s.fork parent failsAt).2
  | .pageFault f => (s.pageFault f).2
  | .readPage core inode fileOffset readOk => (s.getOrCreatePage core inode fileOffset readOk).2
  | .evict core c => s.evict core c
  | .kernelAlloc core =>
    match s.allocate core with
    | (some frame, s) => { s with kernel := frame :: s.kernel }
    | (none, s) => s
  | .kernelFree core frame =>
    if frame ∈ s.kernel then { s with kernel := s.kernel.erase frame }.deallocate core frame else s

/-- an event of an address space that does not exist changes nothing -/
def step (s : Machine) (e : MachineEvent) : Machine := if e.root.all (· < s.live) then s.perform e else s

/-- one process with nothing mapped -/
def boot (usableFrames pageTableFrames : List ℕ) (lfb : UInt64) (brk mmapBump : ℕ) : Machine where
  world := World.boot usableFrames pageTableFrames
  lfb := lfb
  live := 1
  spaces _ := ⟨brk, mmapBump, []⟩
  leaves := []
  cache := []
  kernel := []

end Machine

end Kontsnor.Memory
