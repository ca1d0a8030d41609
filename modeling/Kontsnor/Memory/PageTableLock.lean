/-
The page-table lock.

`PAGE_TABLE_LOCK` is a plain spin lock: a CPU that takes it once more while it holds it spins forever. The helpers of `virtual.rs`
take it for the time of one access, and system calls, teardown, pointer validation and page faults are sequences of helpers. What
page tables, regions and the frame allocator answer on the way is given with a run (`Cpu.answers`), so every path of a call is a
run of it. Allocating and releasing frames under the lock, and the shoot-downs, do not take it.
- `mapUserPage` takes the lock and calls `mapUserPageNoShootdown`, which takes it again. Only `shmat` calls it.

**Main result.** `reacquires_iff`.
-/
import Kontsnor.Core.Fallible
import Kontsnor.Memory.RegionCalls

namespace Kontsnor.Memory.PageTableLock

open Fallible List

/-- a CPU in the kernel: whether it holds the lock, and what it is going to be answered -/
structure Cpu where
  holds : Bool
  answers : List Bool

/-- the one way not to go on: spinning for a lock that the CPU itself holds -/
inductive Spins
  | forever

abbrev Code := EStateM Spins Cpu

def answer : Code Bool := do
  let cpu ← get
  modify fun cpu => { cpu with answers := cpu.answers.tail }
  return cpu.answers.headD false

/-- `let _lock = PAGE_TABLE_LOCK.lock()`, up to the end of the guard's scope -/
def guarded {α : Type} (body : Code α) : Code α := do
  let cpu ← get
  if cpu.holds then throw .forever
  else
    modify fun cpu => { cpu with holds := true }
    let result ← body
    modify fun cpu => { cpu with holds := false }
    return result

/-! ## The helpers -/

def mapUserPageNoShootdown : Code Bool := guarded answer

def mapUserPage : Code Bool := guarded mapUserPageNoShootdown

def ensureDirectoryPermissions : Code Unit := guarded (pure ())

def translatePageInTable : Code Bool := guarded answer

def unmapUserPageNoShootdown : Code Bool := guarded answer

def unmapUserPage : Code Bool := unmapUserPageNoShootdown

def cloneParentPageTable : Code Bool := guarded answer

def freeUserPageTable : Code Bool := guarded answer

/-! ## `shmat` -/

structure ShmatArgs where
  /-- the number of pages of the segment, if the id is registered -/
  segment : Option ℕ
  /-- the address space of the caller, if it has a task -/
  space : Option AddressSpace
  shmaddr : ℕ
  shmflg : ℕ

inductive Outcome
  | attached
  | failed (e : Errno)
  | panicked

variable (a : ShmatArgs)

def mapPages (base : ℕ) : List ℕ → Code Outcome
  | [] => return .attached
  | i :: is => do
    if 2 ^ 64 ≤ base + i * PAGE_SIZE then return .failed .EINVAL
    else if !canonical (base + i * PAGE_SIZE) then return .panicked
    else if ← mapUserPage then mapPages base is
    else return .failed .ENOMEM

def sysShmat : Code Outcome :=
  match a.segment, a.space with
  | none, _ => return .failed .EINVAL
  | some _, none => return .failed .ESRCH
  | some pages, some space =>
    match space.attachAt a.shmaddr a.shmflg (pages * PAGE_SIZE) with
    | .error e => return .failed e
    | .ok (base, _) => mapPages base (range pages)

/-- the call is not refused, and the segment has a first page -/
def ShmatArgs.mapsPage : Bool :=
  a.segment.any fun pages => a.space.any fun space => 0 < pages &&
    (space.attachAt a.shmaddr a.shmflg (pages * PAGE_SIZE)).toOption.any fun r => r.1 < 2 ^ 64 && canonical r.1

/-! ## The other calls -/

section

variable (pages : ℕ)

/-- a range of pages is unmapped, by `munmap`, by `mmap` with MAP_FIXED, or by `brk` -/
def unmapPages : Code Unit :=
  forEach (fun _ => do
    let _ ← unmapUserPageNoShootdown
    return ()) (range pages)

def sysShmdt (pages : Option ℕ) : Code Unit :=
  forEach (fun _ => do
    let _ ← unmapUserPage
    return ()) (range (pages.getD 0))

/-- `/dev/fb0` is mapped at once -/
def mapFrameBuffer : Code Unit :=
  forEach (fun _ => do
    ensureDirectoryPermissions
    let _ ← mapUserPageNoShootdown
    return ()) (range pages)

def sysMmap (replaces isDevFb0 : Bool) : Code Unit := do
  unmapPages (if replaces then pages else 0)
  mapFrameBuffer (if isDevFb0 then pages else 0)

/-- the entries are written without the lock -/
def sysMprotect : Code Unit :=
  forEach (fun _ => do
    let _ ← answer
    return ()) (range pages)

end

/-- one page after the other as long as there are frames -/
def growHeap : ℕ → Code Unit
  | 0 => return ()
  | n + 1 => do
    if ← answer then
      let _ ← mapUserPageNoShootdown
      growHeap n
    else return ()

def sysBrk (grows : Bool) (pages : ℕ) : Code Unit := if grows then growHeap pages else unmapPages pages

def fork : Code Unit := do
  let _ ← cloneParentPageTable
  return ()

def dropAddressSpace (pageTableRoot kernelPml4 : ℕ) : Code Unit := do
  if pageTableRoot ≠ 0 ∧ pageTableRoot ≠ kernelPml4 then
    let _ ← freeUserPageTable
    return ()
  else return ()

def ensurePageMapped : Code Bool := do
  -- `translate_addr` looks without the lock
  if ← answer then return true
  else if ← answer then
    -- there is a region, and a frame for the page
    let _ ← unmapUserPageNoShootdown
    ensureDirectoryPermissions
    mapUserPageNoShootdown
  else return false

def validateUserPtr : ℕ → Code Bool
  | 0 => return true
  | n + 1 => do
    if ← ensurePageMapped then validateUserPtr n
    else return false

/-- a frame for a page that has none -/
def mapNewPage : Code Bool := do
  if ← answer then
    ensureDirectoryPermissions
    mapUserPageNoShootdown
  else return false

def demandPage : Code Bool := do
  if ← answer then
    if ← translatePageInTable then return true
    else mapNewPage
  else return false

/-- a write looks at the entry under the lock, and may copy the page there; the lock is dropped before demand paging -/
def pageFaultHandlerInner (write userAddr nearRsp : Bool) : Code Bool := do
  if ← (if write then guarded answer else return false) then return true
  else if ← (if userAddr then demandPage else return false) then return true
  else if nearRsp then
    if ← answer then mapNewPage
    else return false
  else return false

inductive Call
  | shmat (a : ShmatArgs)
  | shmdt (pages : Option ℕ)
  | mmap (pages : ℕ) (replaces isDevFb0 : Bool)
  | munmap (pages : ℕ)
  | mprotect (pages : ℕ)
  | brk (grows : Bool) (pages : ℕ)
  | fork
  | teardown (pageTableRoot kernelPml4 : ℕ)
  | validate (pages : ℕ)
  | pageFault (write userAddr nearRsp : Bool)

/-- the call is made by a CPU that does not hold the lock -/
def Call.reacquires (call : Call) (answers : List Bool) : Prop :=
  match call with
  | .shmat a => Hangs (sysShmat a)
  | .shmdt pages => Hangs (sysShmdt pages)
  | .mmap pages replaces isDevFb0 => Hangs (sysMmap pages replaces isDevFb0)
  | .munmap pages => Hangs (unmapPages pages)
  | .mprotect pages => Hangs (sysMprotect pages)
  | .brk grows pages => Hangs (sysBrk grows pages)
  | .fork => Hangs PageTableLock.fork
  | .teardown pageTableRoot kernelPml4 => Hangs (dropAddressSpace pageTableRoot kernelPml4)
  | .validate pages => Hangs (validateUserPtr pages)
  | .pageFault write userAddr nearRsp => Hangs (pageFaultHandlerInner write userAddr nearRsp)
where
  Hangs {α : Type} (code : Code α) : Prop := value (code ⟨false, answers⟩) = none

def Call.mapsSegment : Call → Bool
  | .shmat a => a.mapsPage
  | _ => false

/-! ## Taking the lock once -/

/-- from a free lock to a free lock, without spinning for it -/
abbrev Calm {α : Type} (code : Code α) : Prop := Maintains (fun cpu => cpu.holds = false) (fun _ _ => False) code fun _ => True

theorem maintains_answer (held : Bool) : Maintains (fun cpu => cpu.holds = held) (fun _ _ => False) answer fun _ => True :=
  fun _ h => ⟨h, trivial⟩

variable {α : Type}

theorem calm_guarded {body : Code α}
    (hbody : Maintains (fun cpu => cpu.holds = true) (fun _ _ => False) body fun _ => True) : Calm (guarded body) := by
  intro cpu hfree
  have h := hbody { cpu with holds := true } rfl
  cases hr : body { cpu with holds := true } with
  | error e cpu' =>
    rw [hr] at h
    exact h.elim
  | ok a cpu' =>
    have hrun : guarded body cpu = .ok a { cpu' with holds := false } := by
      simp only [guarded, get_bind, hfree, Bool.false_eq_true, if_false, modify_bind, bind_ok hr, pure_apply]
    rw [hrun]
    exact ⟨rfl, trivial⟩

theorem calm_access : Calm (guarded answer) := calm_guarded (maintains_answer true)

theorem calm_ensureDirectoryPermissions : Calm ensureDirectoryPermissions := calm_guarded (.pure trivial)

/-- a question, and what is done about the answer -/
theorem Calm.ask {c : Code Bool} {x y : Code α} (hc : Calm c) (hx : Calm x) (hy : Calm y) :
    Calm (do if ← c then x else y) :=
  hc.bind fun _ _ => .ite (fun _ => hx) fun _ => hy

theorem calm_unmapPages (pages : ℕ) : Calm (unmapPages pages) := Maintains.forEach fun _ _ => calm_access.drop

theorem calm_growHeap (n : ℕ) : Calm (growHeap n) := by
  induction n with
  | zero => exact .pure trivial
  | succ n ih => exact Calm.ask (maintains_answer false) (calm_access.bind fun _ _ => ih) (.pure trivial)

theorem calm_mapNewPage : Calm mapNewPage :=
  Calm.ask (maintains_answer false) (calm_ensureDirectoryPermissions.bind fun _ _ => calm_access) (.pure trivial)

theorem calm_validateUserPtr (n : ℕ) : Calm (validateUserPtr n) := by
  have hmapped : Calm ensurePageMapped := by
    refine Calm.ask (maintains_answer false) (.pure trivial) (Calm.ask (maintains_answer false) ?_ (.pure trivial))
    exact calm_access.bind fun _ _ => calm_ensureDirectoryPermissions.bind fun _ _ => calm_access
  induction n with
  | zero => exact .pure trivial
  | succ n ih => exact Calm.ask hmapped ih (.pure trivial)

theorem calm_pageFaultHandlerInner (write userAddr nearRsp : Bool) : Calm (pageFaultHandlerInner write userAddr nearRsp) := by
  have hno : Calm (return false : Code Bool) := .pure trivial
  have hyes : Calm (return true : Code Bool) := .pure trivial
  have hdemand : Calm demandPage := Calm.ask (maintains_answer false) (Calm.ask calm_access hyes calm_mapNewPage) hno
  have hgrow := Calm.ask (maintains_answer false) calm_mapNewPage hno
  refine Calm.ask (.ite (fun _ => calm_access) fun _ => hno) hyes ?_
  exact Calm.ask (.ite (fun _ => hdemand) fun _ => hno) hyes (.ite (fun _ => hgrow) fun _ => hno)

/-! ## Taking it twice -/

theorem mapUserPage_spins (answers : List Bool) : mapUserPage ⟨false, answers⟩ = .error .forever ⟨true, answers⟩ := rfl

theorem Calm.returns {code : Code α} (h : Calm code) (answers : List Bool) : value (code ⟨false, answers⟩) ≠ none := by
  have hr := h ⟨false, answers⟩ rfl
  intro hnone
  cases hcode : code ⟨false, answers⟩ with
  | ok a cpu =>
    rw [hcode] at hnone
    cases hnone
  | error e cpu =>
    rw [hcode] at hr
    exact hr

theorem mapPages_hangs_iff (base pages : ℕ) (answers : List Bool) :
    value (mapPages base (range pages) ⟨false, answers⟩) = none ↔ 0 < pages ∧ base < 2 ^ 64 ∧ canonical base = true := by
  cases pages with
  | zero => simp [mapPages, value]
  | succ n =>
    rw [range_succ_eq_map, mapPages, Nat.zero_mul, Nat.add_zero]
    by_cases hlt : 2 ^ 64 ≤ base
    · rw [if_pos hlt]
      exact iff_of_false (by simp [value]) fun h => absurd h.2.1 (not_lt.2 hlt)
    · rw [if_neg hlt]
      cases canonical base with
      | false => simp [value]
      | true => simpa [bind_error (mapUserPage_spins answers), value] using hlt

theorem sysShmat_hangs_iff (answers : List Bool) : value (sysShmat a ⟨false, answers⟩) = none ↔ a.mapsPage = true := by
  unfold sysShmat ShmatArgs.mapsPage
  cases a.segment with
  | none => simp [value]
  | some pages =>
    cases a.space with
    | none => simp [value]
    | some space =>
      cases haddr : space.attachAt a.shmaddr a.shmflg (pages * PAGE_SIZE) with
      | error e => simp [haddr, value, Except.toOption]
      | ok r => simpa [haddr, Except.toOption] using mapPages_hangs_iff r.1 pages answers

/-- **The lock is taken by its holder** exactly in a `shmat` that comes to map a page. -/
theorem reacquires_iff (call : Call) (answers : List Bool) : ¬ call.reacquires answers ↔ call.mapsSegment = false := by
  have hcalm : ∀ {α : Type} {code : Code α}, Calm code → (¬ value (code ⟨false, answers⟩) = none ↔ false = false) :=
    fun h => iff_of_true (h.returns answers) rfl
  cases call with
  | shmat a => exact (not_congr (sysShmat_hangs_iff a answers)).trans (iff_of_eq (Bool.not_eq_true _))
  | shmdt pages => exact hcalm (.forEach fun _ _ => calm_access.drop)
  | mmap pages replaces isDevFb0 =>
    refine hcalm ((calm_unmapPages _).bind fun _ _ => .forEach fun _ _ => ?_)
    exact calm_ensureDirectoryPermissions.bind fun _ _ => calm_access.drop
  | munmap pages => exact hcalm (calm_unmapPages pages)
  | mprotect pages => exact hcalm (.forEach fun _ _ => (maintains_answer false).drop)
  | brk grows pages => exact hcalm (.ite (fun _ => calm_growHeap pages) fun _ => calm_unmapPages pages)
  | fork => exact hcalm (calm_access.drop)
  | teardown root kernel => exact hcalm (.ite (fun _ => calm_access.drop) fun _ => .pure trivial)
  | validate pages => exact hcalm (calm_validateUserPtr pages)
  | pageFault write userAddr nearRsp => exact hcalm (calm_pageFaultHandlerInner write userAddr nearRsp)

/-- a segment of one page, attached where there is room -/
theorem shmat_reacquires : (Call.shmat ⟨some 1, some ⟨0, 0x500000000000, []⟩, 0, 0⟩).reacquires [true] := rfl

end Kontsnor.Memory.PageTableLock
