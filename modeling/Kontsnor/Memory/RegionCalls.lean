/-
The other calls that change regions: `sys_munmap` and `sys_mremap` (`syscall/memory.rs`), `sys_shmat` (`syscall/ipc.rs`), and
the memory part of `sys_execve` (`syscall/process/lifecycle.rs`).

- Sums of addresses wrap where the code does not check them.
- `VirtAddr::new` panics on an address that is not canonical. A call that does has no result (`none`).
- `map_user_page`, which only `sys_shmat` calls, takes the lock of the page tables and then calls a function that takes it
  again. Here every update of the page tables completes.

A region is changed by a function on address spaces; the call on `Machine` is that function, with the page tables. Left out:
the entries of the upper half, the contents of segments, and the arguments on the stack (only the number of its pages counts).
-/
import Kontsnor.Memory.Brk

namespace Kontsnor.Memory

def wrappingAdd (a b : ℕ) : ℕ := (a + b) % 2 ^ 64

def wrappingPred (a : ℕ) : ℕ := (a + (2 ^ 64 - 1)) % 2 ^ 64

/-- no page of the range makes `VirtAddr::new` panic -/
def canonicalRange (addr len : ℕ) : Bool :=
  (List.range (len / PAGE_SIZE)).all fun i => canonical (wrappingAdd addr (i * PAGE_SIZE))

/-! ## `munmap` -/

def MMAP_BASE : ℕ := 0x0000500000000000

def MMAP_LIMIT : ℕ := 0x0000700000000000

namespace AddressSpace

/-- the end of the last region between the two limits -/
def highestRemaining (rs : List MappedRegion) : ℕ :=
  ((rs.filter fun r => MMAP_BASE ≤ r.start && r.start < MMAP_LIMIT).map (·.stop)).foldl max MMAP_BASE

/-- the regions without the range; the search for gaps starts lower if the range was the last -/
def unmap (a : AddressSpace) (unmapStart unmapEnd : ℕ) : AddressSpace :=
  let regions := unmapRange unmapStart unmapEnd a.mmapRegions
  { a with
    mmapRegions := regions
    mmapBump := if a.mmapBump ≤ unmapEnd ∧ unmapStart < MMAP_LIMIT then highestRemaining regions else a.mmapBump }

end AddressSpace

/-- the length of the range of `munmap`, if the call accepts it -/
def munmapLen (addr length : ℕ) : Option ℕ :=
  if length = 0 ∨ addr % PAGE_SIZE ≠ 0 then none
  else (alignLen length).filter fun alignedLen => addr + alignedLen < 2 ^ 64 && addr + alignedLen ≤ USER_END

namespace Machine

def munmap (s : Machine) (core root addr length : ℕ) : Except Errno Unit × Machine :=
  match munmapLen addr length with
  | none => (.error .EINVAL, s)
  | some alignedLen =>
    let s' := (List.range' (addr / PAGE_SIZE) (alignedLen / PAGE_SIZE)).foldl (releasePage core root) s
    (.ok (), s'.setSpace root ((s.spaces root).unmap addr (addr + alignedLen)))

end Machine

/-! ## `mremap` -/

structure MremapArgs where
  oldAddress : ℕ
  oldSize : ℕ
  newSize : ℕ
  flags : ℕ
  newAddress : ℕ

namespace MremapArgs

def mayMove (m : MremapArgs) : Bool := m.flags &&& 1 != 0

def isFixed (m : MremapArgs) : Bool := m.flags &&& 2 != 0

end MremapArgs

def MappedRegion.coversOld (oldAddress oldLen : ℕ) (r : MappedRegion) : Bool :=
  r.start ≤ oldAddress && wrappingAdd oldAddress oldLen ≤ wrappingAdd r.start r.len

namespace AddressSpace

def canGrowInplace (a : AddressSpace) (oldAddress oldLen newLen : ℕ) : Bool :=
  a.mmapRegions.all fun r => r.coversOld oldAddress oldLen ||
    wrappingAdd r.start r.len ≤ wrappingAdd oldAddress oldLen || wrappingAdd oldAddress newLen ≤ r.start

/-- a region that ends at the new end of the range, if that is later -/
def grownRegion (oldAddress newLen : ℕ) (r : MappedRegion) : MappedRegion :=
  let len := wrappingAdd (oldAddress - r.start) newLen
  if wrappingAdd r.start r.len < wrappingAdd r.start len then { r with len := len } else r

/-- the first region that covers the range is the one that grows; the search for gaps starts at its end if it did before -/
def growInplace (a : AddressSpace) (oldAddress oldLen newLen : ℕ) : Option AddressSpace :=
  if a.canGrowInplace oldAddress oldLen newLen then
    (a.mmapRegions.findIdx? (·.coversOld oldAddress oldLen)).bind fun i => a.mmapRegions[i]?.map fun r =>
      let oldEnd := wrappingAdd r.start r.len
      let newEnd := wrappingAdd r.start (grownRegion oldAddress newLen r).len
      { a with
        mmapRegions := a.mmapRegions.modify i (grownRegion oldAddress newLen)
        mmapBump := if oldEnd < newEnd ∧ oldEnd = a.mmapBump then newEnd else a.mmapBump }
  else none

end AddressSpace

/-- a region moved to `target` -/
def MappedRegion.moved (oldAddress target newLen : ℕ) (r : MappedRegion) : MappedRegion :=
  { r with start := target, len := newLen, offset := r.offset + UInt64.ofNat (oldAddress - r.start) }

namespace Machine

variable (s : Machine) (core root : ℕ) (m : MremapArgs)

/-- where a mapping is moved to; a fixed range is unmapped first -/
def moveTarget (oldLen newLen : ℕ) : Except Errno ℕ × Machine :=
  if m.isFixed then
    if m.newAddress % PAGE_SIZE ≠ 0 then (.error .EINVAL, s)
    else if wrappingAdd m.newAddress newLen ≤ m.oldAddress ∨ wrappingAdd m.oldAddress oldLen ≤ m.newAddress then
      ((s.munmap core root m.newAddress newLen).1.map fun _ => m.newAddress, (s.munmap core root m.newAddress newLen).2)
    else (.error .EINVAL, s)
  else
    let a := s.spaces root
    let nextBump := a.mmapBump + newLen
    if 2 ^ 64 ≤ nextBump ∨ USER_END < nextBump then (.error .ENOMEM, s)
    else (.ok a.mmapBump, s.setSpace root { a with mmapBump := nextBump })

/-- the entry of page `i` is moved, unless there is one at its new place -/
def movePage (root oldPage newPage : ℕ) (tablesOk : ℕ → Bool) (s : Machine) (i : ℕ) : Machine :=
  match s.lookup root (oldPage + i) with
  | none => s
  | some l =>
    match s.mapUserPage root (newPage + i) l.frame l.flags (tablesOk i) with
    | none => s
    | some s' => { s' with leaves := s'.leaves.filter fun l => !(l.root == root && l.page == oldPage + i) }

/-- `sys_mremap` once the mapping cannot grow where it is -/
def moveMapping (oldLen newLen : ℕ) (tablesOk : ℕ → Bool) : Option (Except Errno ℕ × Machine) :=
  if !m.mayMove then some (.error .ENOMEM, s)
  else
    match s.moveTarget core root m oldLen newLen with
    | (.error e, s) => some (.error e, s)
    | (.ok target, s) =>
      match (s.spaces root).mmapRegions.find? (·.coversOld m.oldAddress oldLen) with
      | none => some (.error .EFAULT, s)
      | some r =>
        if canonicalRange m.oldAddress oldLen then
          let s := (List.range (oldLen / PAGE_SIZE)).foldl
            (movePage root (m.oldAddress / PAGE_SIZE) (target / PAGE_SIZE) tablesOk) s
          -- what this returns is not looked at
          let s := (s.munmap core root m.oldAddress oldLen).2
          let a := s.spaces root
          some (.ok target, s.setSpace root { a with mmapRegions := a.mmapRegions ++ [r.moved m.oldAddress target newLen] })
        else none

def mremap (tablesOk : ℕ → Bool) : Option (Except Errno ℕ × Machine) :=
  if m.oldAddress % PAGE_SIZE ≠ 0 then some (.error .EINVAL, s)
  else
    match alignLen m.oldSize, alignLen m.newSize with
    | some oldLen, some newLen =>
      if oldLen = 0 ∨ newLen = 0 then some (.error .EINVAL, s)
      else if newLen < oldLen then
        let shrunk := s.munmap core root (wrappingAdd m.oldAddress newLen) (oldLen - newLen)
        some (shrunk.1.map fun _ => m.oldAddress, shrunk.2)
      else if oldLen < newLen then
        match (s.spaces root).growInplace m.oldAddress oldLen newLen with
        | some a => some (.ok m.oldAddress, s.setSpace root a)
        | none => s.moveMapping core root m oldLen newLen tablesOk
      else some (.ok m.oldAddress, s)
    | _, _ => some (.error .EINVAL, s)

end Machine

/-! ## `shmat` -/

def shmReadOnly (shmflg : ℕ) : Bool := shmflg &&& 0o10000 != 0

def shmRound (shmflg : ℕ) : Bool := shmflg &&& 0o20000 != 0

/-- the address of a segment of `mapLen` bytes, and the new start of the search; what is there is not looked at -/
def AddressSpace.attachAt (a : AddressSpace) (shmaddr shmflg mapLen : ℕ) : Except Errno (ℕ × ℕ) :=
  if shmaddr ≠ 0 then
    if shmRound shmflg then .ok (shmaddr / PAGE_SIZE * PAGE_SIZE, a.mmapBump)
    else if shmaddr % PAGE_SIZE ≠ 0 then .error .EINVAL
    else .ok (shmaddr, a.mmapBump)
  else if 2 ^ 64 ≤ a.mmapBump + mapLen then .error .ENOMEM
  else .ok (a.mmapBump, a.mmapBump + mapLen)

def shmRegion (addr mapLen shmflg : ℕ) : MappedRegion where
  start := addr
  len := mapLen
  inode := none
  offset := 0
  isShared := true
  prot := if shmReadOnly shmflg then 1 else 3
  isStack := false

namespace Machine

/-- the frames of a segment are mapped one after the other; the frames that were stay mapped if one cannot be -/
def mapSegment (root : ℕ) (flags : PageFlags) (tablesOk : ℕ → Bool) : List ℕ → ℕ → Machine →
    Option (Except Errno Unit × Machine)
  | [], _, s => some (.ok (), s)
  | frame :: frames, vaddr, s =>
    if 2 ^ 64 ≤ vaddr then some (.error .EINVAL, s)
    else if !canonical vaddr then none
    else
      match s.mapUserPage root (vaddr / PAGE_SIZE) frame flags (tablesOk (vaddr / PAGE_SIZE)) with
      | none => some (.error .ENOMEM, s)
      | some s => mapSegment root flags tablesOk frames (vaddr + PAGE_SIZE) s

/-- `sys_shmat` on a segment with these frames -/
def shmat (s : Machine) (root : ℕ) (frames : List ℕ) (shmaddr shmflg : ℕ) (tablesOk : ℕ → Bool) :
    Option (Except Errno ℕ × Machine) :=
  let a := s.spaces root
  let mapLen := frames.length * PAGE_SIZE
  match a.attachAt shmaddr shmflg mapLen with
  | .error e => some (.error e, s)
  | .ok (addr, bump) =>
    let a := { a with mmapBump := bump }
    let flags : PageFlags := ⟨!shmReadOnly shmflg, false, true, false⟩
    match mapSegment root flags tablesOk frames addr (s.setSpace root a) with
    | none => none
    | some (.error e, s) => some (.error e, s)
    | some (.ok (), s) =>
      some (.ok addr, s.setSpace root { a with mmapRegions := a.mmapRegions ++ [shmRegion addr mapLen shmflg] })

end Machine

/-! ## `execve` -/

structure LoadSegment where
  vaddr : ℕ
  fileOffset : ℕ
  memSize : ℕ
  read : Bool
  write : Bool
  execute : Bool

namespace LoadSegment

def prot (g : LoadSegment) : ℕ := (if g.read then 1 else 0) + (if g.write then 2 else 0) + (if g.execute then 4 else 0)

def region (inode : MappedInode) (bias : ℕ) (g : LoadSegment) : MappedRegion :=
  let pageStart := wrappingAdd g.vaddr bias / PAGE_SIZE * PAGE_SIZE
  let pageEnd := wrapUp (wrappingAdd g.vaddr bias + g.memSize)
  ⟨pageStart, wrappingAdd pageEnd (2 ^ 64 - pageStart), some inode, UInt64.ofNat (g.fileOffset / PAGE_SIZE * PAGE_SIZE),
    false, g.prot, false⟩

end LoadSegment

/-- what `execve` reads of a program; `stackPages` is the number of pages that its arguments take -/
structure Program where
  inode : MappedInode
  isPie : Bool
  segments : List LoadSegment
  interpreter : Option (MappedInode × List LoadSegment)
  stackPages : ℕ

def USER_SPACE_BASE : ℕ := 0x400000

def INTERPRETER_BASE : ℕ := 0x00007FFFF7F00000

def USER_STACK_TOP : ℕ := 0x00007FFFFFFF0000

def STACK_SIZE : ℕ := 8 * 1024 * 1024

def stackRegion : MappedRegion := ⟨USER_STACK_TOP - STACK_SIZE, STACK_SIZE, none, 0, false, 3, true⟩

def Program.mainBias (x : Program) : ℕ :=
  if x.isPie || ((x.segments.map (·.vaddr)).min?.getD 0) == 0 then USER_SPACE_BASE else 0

namespace Machine

/-- `n` pages from `page` on get frames -/
def mapFresh (core root : ℕ) (flags : PageFlags) (tablesOk : ℕ → Bool) : ℕ → ℕ → Machine → Option Machine
  | 0, _, s => some s
  | n + 1, page, s =>
    match s.allocate core with
    | (none, _) => none
    | (some frame, s) =>
      (s.mapUserPage root page frame flags (tablesOk page)).bind (mapFresh core root flags tablesOk n (page + 1))

/-- what `map_elf_segments` has done so far -/
structure Loading where
  maxVaddr : ℕ
  regions : List MappedRegion
  machine : Machine

/-- one segment of `map_elf_segments` -/
def mapElfSegment (core root : ℕ) (inode : MappedInode) (bias : ℕ) (tablesOk : ℕ → Bool) (p : Loading) (g : LoadSegment) :
    Option Loading :=
  if g.memSize = 0 then some p
  else
    let vaddr := wrappingAdd g.vaddr bias
    let stop := wrappingAdd vaddr g.memSize
    let last := wrappingPred stop
    if !canonical vaddr || !canonical last then none
    else
      (mapFresh core root ⟨g.write, false, true, !g.execute⟩ tablesOk (last / PAGE_SIZE + 1 - vaddr / PAGE_SIZE)
        (vaddr / PAGE_SIZE) p.machine).map fun s => ⟨max p.maxVaddr stop, p.regions ++ [g.region inode bias], s⟩

def mapElfSegments (core root : ℕ) (inode : MappedInode) (bias : ℕ) (tablesOk : ℕ → Bool) (gs : List LoadSegment)
    (rs : List MappedRegion) (s : Machine) : Option Loading :=
  gs.foldlM (mapElfSegment core root inode bias tablesOk) ⟨0, rs, s⟩

/-- the new address space: the segments of the program and of its interpreter, and the stack -/
def execve (s : Machine) (core root : ℕ) (x : Program) (tablesOk : ℕ → Bool) : Option Machine := do
  let main ← mapElfSegments core root x.inode x.mainBias tablesOk x.segments [] s
  let loaded ← x.interpreter.elim (some main) fun i =>
    mapElfSegments core root i.1 INTERPRETER_BASE tablesOk i.2 main.regions main.machine
  guard (x.stackPages ≤ 128)
  let s ← mapFresh core root ⟨true, false, true, true⟩ tablesOk x.stackPages (USER_STACK_TOP / PAGE_SIZE - x.stackPages)
    loaded.machine
  return s.setSpace root ⟨wrapUp main.maxVaddr, MMAP_BASE, loaded.regions ++ [stackRegion]⟩

end Machine

end Kontsnor.Memory
