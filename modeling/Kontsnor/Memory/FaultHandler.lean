/-
The whole of `page_fault_handler_inner` (`arch/x86_64/interrupts.rs`), and the pages that the kernel maps before it touches
user memory (`ensure_page_mapped`, `validate_user_ptr`, `syscall/validation.rs`).

What the handler does first is `Machine.pageFault`. A fault that is not resolved there, on a page that is not present and near
the stack pointer, grows a stack: the first region marked as a stack grows down, or else the anonymous writable region that
ends closest below the address grows up. Neither looks at the regions in between.

The regions change only where a stack grows (`onlyEntries_pageFault`).

A fault of user code that is not resolved ends in `SIGSEGV` and the end of the process; one of the kernel ends the process or
the system.
-/
import Kontsnor.Memory.Brk

namespace Kontsnor.Memory

/-! ## The growth of stacks -/

/-- a page fault as the processor reports it; `rsp` is the stack pointer of the user code -/
structure Trap extends Fault where
  fetch : Bool
  /-- `PROTECTION_VIOLATION`: the page is present -/
  violation : Bool
  isUser : Bool
  rsp : ℕ

def STACK_GUARD_THRESHOLD : ℕ := 65536 + 32 * 8

def MAX_STACK_SIZE : ℕ := 8 * 1024 * 1024

namespace Trap

def nearRsp (t : Trap) : Bool :=
  t.rsp != 0 && t.rsp - STACK_GUARD_THRESHOLD ≤ t.addr && t.addr ≤ saturatingAdd t.rsp STACK_GUARD_THRESHOLD

/-- the fault may be one of a stack -/
def onStack (t : Trap) : Bool := (t.isUser || t.addr < 0x0000800000000000) && !t.violation && t.nearRsp

end Trap

def pageDown (addr : ℕ) : ℕ := addr / PAGE_SIZE * PAGE_SIZE

namespace MappedRegion

variable (addr : ℕ) (r : MappedRegion)

def downTo : MappedRegion :=
  { r with start := pageDown addr, len := r.len + (r.start - pageDown addr) }

def upTo : MappedRegion :=
  if r.stop < pageDown addr + PAGE_SIZE then { r with len := r.len + (pageDown addr + PAGE_SIZE - r.stop) } else r

/-- a stack that may grow down to the address -/
def reachesDown : Bool := addr < r.start && r.stop - MAX_STACK_SIZE ≤ addr

/-- a region that may grow up to the address -/
def reachesUp : Bool :=
  r.inode.isNone && protWrite r.prot && r.stop ≤ addr && addr < r.stop + MAX_STACK_SIZE

end MappedRegion

/-- the place of the main stack, if it is to grow -/
def mainStack (addr : ℕ) (rs : List MappedRegion) : Option ℕ :=
  (rs.findIdx? (·.isStack)).filter fun i => rs[i]?.any (·.reachesDown addr)

/-- `max_by_key`: the place of the last of the regions that end highest, starting with `best` at place `i` -/
def nearestFrom (addr : ℕ) : List MappedRegion → ℕ → Option (ℕ × ℕ) → Option ℕ
  | [], _, best => best.map (·.2)
  | r :: rs, i, best =>
    nearestFrom addr rs (i + 1)
      (if r.reachesUp addr && best.all (fun b => b.1 ≤ r.stop) then some (r.stop, i) else best)

/-- the place of the region that is taken for the stack of a thread -/
def threadStack (addr : ℕ) (rs : List MappedRegion) : Option ℕ := nearestFrom addr rs 0 none

/-- the regions once a stack has grown -/
def growRegions (addr : ℕ) (rs : List MappedRegion) : Option (List MappedRegion) :=
  match mainStack addr rs with
  | some i => some (rs.modify i (·.downTo addr))
  | none => (threadStack addr rs).map fun i => rs.modify i (·.upTo addr)

namespace Machine

def stackFlags : PageFlags := ⟨true, false, true, true⟩

/-- `map_stack_page`; a page that is mapped already is as good -/
def mapStackPage (s : Machine) (core root page : ℕ) (tablesOk : Bool) : Bool × Machine :=
  match s.allocate core with
  | (none, s) => (false, s)
  | (some frame, s) =>
    match s.mapUserPage root page frame stackFlags tablesOk with
    | some s => (true, s)
    | none => ((s.lookup root page).isSome, s.deallocate core frame)

/-- the growth of stacks; the regions change even if the page cannot be mapped -/
def growStack (s : Machine) (t : Trap) : Bool × Machine :=
  if t.onStack then
    match growRegions t.addr (s.spaces t.root).mmapRegions with
    | none => (false, s)
    | some rs =>
      (s.setSpace t.root { s.spaces t.root with mmapRegions := rs }).mapStackPage t.core t.root (t.addr / PAGE_SIZE)
        t.tablesOk
  else (false, s)

end Machine

/-! ## The handler -/

inductive TrapOutcome where
  /-- back to the instruction that faulted -/
  | returned
  /-- `SIGSEGV` -/
  | signal
  /-- the kernel cannot go on -/
  | stopped
deriving DecidableEq

namespace Machine

variable (s : Machine)

/-- `page_fault_handler_inner`; it panics on an address that is not canonical -/
def handle (t : Trap) : TrapOutcome × Machine :=
  if !canonical t.addr then (.stopped, s)
  else
    match s.pageFault t.toFault with
    | (.resolved, s) => (.returned, s)
    | (_, s) =>
      match s.growStack t with
      | (true, s) => (.returned, s)
      | (false, s) => (if t.isUser then .signal else .stopped, s)

/-! ## Pages that the kernel maps -/

/-- the flags that `ensure_page_mapped` gives a page -/
def ensureFlags (prot : ℕ) (doCow : Bool) : PageFlags where
  writable := protWrite prot && !doCow
  cow := doCow
  user := true
  noExecute := !protExec prot

/-- the region of a page, and the regions; the main stack may grow -/
def ensureRegion (addr : ℕ) (rs : List MappedRegion) : Option (MappedRegion × List MappedRegion) :=
  match rs.find? (·.covers addr) with
  | some r => some (r, rs)
  | none => (mainStack addr rs).bind fun i => rs[i]?.map fun r => (r.downTo addr, rs.modify i (·.downTo addr))

/-- the frame for a page of a region, and whether the page is copied on a write; a frame buffer is a file here -/
def ensureFrame (core : ℕ) (r : MappedRegion) (pageOffset : UInt64) (readOk : Bool) : Option (ℕ × Bool) × Machine :=
  match r.inode with
  | some inode =>
    match s.getOrCreatePage core inode (r.offset + pageOffset) readOk with
    | (some frame, s) => (some (frame, !r.isShared && protWrite r.prot), s)
    | (none, s) => (none, s)
  | none =>
    match s.allocate core with
    | (some frame, s) => (some (frame, false), s)
    | (none, s) => (none, s)

def ensurePageMapped (core root page : ℕ) (readOk tablesOk : Bool) : Bool × Machine :=
  if (s.lookup root page).isSome then (true, s)
  else
    match ensureRegion (page * PAGE_SIZE) (s.spaces root).mmapRegions with
    | none => (false, s)
    | some (r, rs) =>
      let s := s.setSpace root { s.spaces root with mmapRegions := rs }
      match s.ensureFrame core r (UInt64.ofNat (page * PAGE_SIZE - r.start)) readOk with
      | (none, s) => (false, s)
      | (some (frame, doCow), s) =>
        let s := if r.inode.isSome then s.incrementRef frame else s
        match s.mapUserPage root page frame (ensureFlags r.prot doCow) tablesOk with
        | some s => (true, s)
        | none =>
          if r.inode.isSome then (false, s.call (.decrementRef (frame * PAGE_SIZE)))
          else (false, s.deallocate core frame)

/-- the loop of `validate_user_ptr`: `n` pages from `page` on -/
def ensurePages (core root : ℕ) (readOk tablesOk : ℕ → Bool) : ℕ → ℕ → Machine → Bool × Machine
  | 0, _, s => (true, s)
  | n + 1, page, s =>
    match s.ensurePageMapped core root page (readOk page) (tablesOk page) with
    | (false, s) => (false, s)
    | (true, s) => ensurePages core root readOk tablesOk n (page + 1) s

/-- `validate_user_ptr`; `validate_user_ptr_write` does the same -/
def validateUserPtr (core root ptr size : ℕ) (readOk tablesOk : ℕ → Bool) : Bool × Machine :=
  if ptr = 0 then (false, s)
  else if 2 ^ 64 ≤ ptr + size ∨ USER_END < ptr + size then (false, s)
  else if size = 0 then (true, s)
  else ensurePages core root readOk tablesOk (pageUp (ptr + size) / PAGE_SIZE - ptr / PAGE_SIZE) (ptr / PAGE_SIZE) s

end Machine

/-! ## Which stack grows -/

variable {rs : List MappedRegion} {addr i : ℕ}

theorem mainStack_spec (h : mainStack addr rs = some i) : ∃ r, rs[i]? = some r ∧ r.reachesDown addr = true := by
  obtain ⟨-, hreach⟩ := Option.filter_eq_some_iff.1 h
  cases hr : rs[i]? with
  | none =>
    rw [hr] at hreach
    cases hreach
  | some r =>
    rw [hr] at hreach
    exact ⟨r, rfl, hreach⟩

theorem nearestFrom_spec {k : ℕ} {best : Option (ℕ × ℕ)} (h : nearestFrom addr rs i best = some k) :
    best.map (·.2) = some k ∨ ∃ j r, k = i + j ∧ rs[j]? = some r ∧ r.reachesUp addr = true := by
  induction rs generalizing i best with
  | nil => exact .inl h
  | cons r rs ih =>
    rcases ih h with hbest | ⟨j, r', rfl, hr', hreach⟩
    · split_ifs at hbest with hr
      · cases hbest
        exact .inr ⟨0, r, rfl, rfl, (Bool.and_eq_true_iff.1 hr).1⟩
      · exact .inl hbest
    · exact .inr ⟨j + 1, r', by omega, hr', hreach⟩

theorem threadStack_spec (h : threadStack addr rs = some i) : ∃ r, rs[i]? = some r ∧ r.reachesUp addr = true := by
  rcases nearestFrom_spec h with hnone | ⟨j, r, rfl, hr, hreach⟩
  · cases hnone
  · rw [Nat.zero_add]
    exact ⟨r, hr, hreach⟩

theorem pageDown_le (addr : ℕ) : pageDown addr ≤ addr := Nat.div_mul_le_self _ _

theorem pageDown_mod (addr : ℕ) : pageDown addr % PAGE_SIZE = 0 := Nat.mul_mod_left _ _

theorem lt_pageDown (addr : ℕ) : addr < pageDown addr + PAGE_SIZE := by
  unfold pageDown PAGE_SIZE
  omega

/-! ## Faults leave the regions as they are -/

namespace Machine

variable {s s' : Machine} {core root : ℕ}

/-- only entries and frames differ -/
structure OnlyEntries (s s' : Machine) : Prop where
  live : s'.live = s.live
  spaces : s'.spaces = s.spaces

theorem SameMap.onlyEntries (h : SameMap s s') : OnlyEntries s s' := ⟨h.live, h.spaces⟩

theorem OnlyEntries.trans {s'' : Machine} (h : OnlyEntries s s') (h' : OnlyEntries s' s'') : OnlyEntries s s'' :=
  ⟨h'.live.trans h.live, h'.spaces.trans h.spaces⟩

theorem onlyEntries_mapUserPage {page frame : ℕ} {flags : PageFlags} {ok : Bool}
    (h : s.mapUserPage root page frame flags ok = some s') : OnlyEntries s s' := by
  obtain ⟨-, rfl⟩ := mapUserPage_some h
  exact ⟨rfl, rfl⟩

section

variable (s : Machine) (f : Fault)

theorem sameMap_demandFrame (r : MappedRegion) (pageOffset : UInt64) : SameMap s (s.demandFrame f r pageOffset).2 := by
  unfold demandFrame
  cases r.inode with
  | some inode =>
    dsimp only
    have hget := sameMap_getOrCreatePage s f.core inode (r.offset + pageOffset) f.readOk
    split_ifs
    · exact SameMap.refl s
    · split <;> (next hr => rw [hr] at hget; exact hget)
  | none =>
    dsimp only
    split <;> (next hal => exact sameMap_of_allocate hal)

theorem sameMap_counted (counted : Bool) (frame : ℕ) :
    SameMap s (if counted = true then s.incrementRef frame else s) := by
  split_ifs
  · exact SameMap.incrementRef s frame
  · exact SameMap.refl s

theorem onlyEntries_demandPage : OnlyEntries s (s.demandPage f).2 := by
  unfold demandPage
  by_cases huser : f.addr < 0x0000800000000000
  · rw [if_pos huser]
    cases (s.spaces f.root).mmapRegions.find? (·.covers f.addr) with
    | none => exact ⟨rfl, rfl⟩
    | some r =>
      dsimp only
      by_cases hthere : (s.lookup f.root (f.addr / PAGE_SIZE)).isSome = true
      · rw [if_pos hthere]
        exact ⟨rfl, rfl⟩
      rw [if_neg hthere]
      have hframe := (sameMap_demandFrame s f r (UInt64.ofNat (f.addr / PAGE_SIZE * PAGE_SIZE - r.start))).onlyEntries
      cases hd : s.demandFrame f r (UInt64.ofNat (f.addr / PAGE_SIZE * PAGE_SIZE - r.start)) with
      | mk result s1 =>
        rw [hd] at hframe
        cases result with
        | error e => exact hframe
        | ok found =>
          obtain ⟨frame, doCow⟩ := found
          dsimp only
          have hcount := hframe.trans (sameMap_counted s1 (r.inode.isSome && !s1.isVram frame) frame).onlyEntries
          generalize (if (r.inode.isSome && !s1.isVram frame) = true then s1.incrementRef frame else s1) = s2 at hcount ⊢
          split
          · next hmap => exact hcount.trans (onlyEntries_mapUserPage hmap)
          · split_ifs <;> exact hcount.trans ⟨rfl, rfl⟩
  · rw [if_neg huser]
    exact ⟨rfl, rfl⟩

theorem onlyEntries_pageFault : OnlyEntries s (s.pageFault f).2 := by
  unfold pageFault
  dsimp only
  cases (if f.write = true then s.lookup f.root (f.addr / PAGE_SIZE) else none) with
  | none => exact onlyEntries_demandPage s f
  | some l =>
    dsimp only
    cases l.flags.writeFault (s.world.phys.refs l.frame) (s.writeAllowed f) with
    | allow flags => exact ⟨rfl, rfl⟩
    | copy flags =>
      dsimp only
      split
      · next hal => exact (sameMap_of_allocate hal).onlyEntries.trans ⟨rfl, rfl⟩
      · next hal => exact (sameMap_of_allocate hal).onlyEntries.trans (onlyEntries_demandPage _ f)
    | writable => exact ⟨rfl, rfl⟩
    | refuse => exact onlyEntries_demandPage s f

theorem onlyEntries_mapStackPage {core root page : ℕ} {tablesOk : Bool} :
    OnlyEntries s (s.mapStackPage core root page tablesOk).2 := by
  unfold mapStackPage
  split
  · next hal => exact (sameMap_of_allocate hal).onlyEntries
  · next hal =>
    have hsame := (sameMap_of_allocate hal).onlyEntries
    split
    · next hmap => exact hsame.trans (onlyEntries_mapUserPage hmap)
    · exact hsame.trans ⟨rfl, rfl⟩

end

end Machine

end Kontsnor.Memory
