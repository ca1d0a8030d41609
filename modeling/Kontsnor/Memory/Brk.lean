/-
The program break (`sys_brk`, `syscall/process/lifecycle.rs`).

The heap of an address space is the pages from `start_brk` to the break, rounded up. `sys_brk` maps or unmaps the pages between
the old and the new break one by one. Addresses are rounded in wrapping arithmetic. `VirtAddr::new` panics on an address that is
not canonical, and so does the iterator over pages when it steps out of the lower half. Out of memory in the middle of the loop,
the call returns the old break and leaves the pages it has mapped; a page that cannot be mapped, because it is or because there is
no frame for a page table, is passed over. Tables come from the same allocator as pages.

**Main result.** `sysBrk_ok_iff`.
-/
import Kontsnor.Memory.CopyOnWriteCalls

namespace Kontsnor.Memory

open Option Function List Nat

/-! ## The call -/

/-- `(addr + 4095) & !4095` -/
def wrapUp (addr : ℕ) : ℕ := (addr + 4095) % 2 ^ 64 / PAGE_SIZE * PAGE_SIZE

/-- the addresses that `VirtAddr::new` takes -/
def canonical (addr : ℕ) : Bool := addr < 2 ^ 47 || 2 ^ 64 - 2 ^ 47 ≤ addr

/-- the last page of the lower half; the iterator over pages cannot step beyond it -/
def LAST_PAGE : ℕ := 2 ^ 35 - 1

def heapFlags : PageFlags := ⟨true, false, true, true⟩

inductive GrowResult where
  | panic
  | outOfMemory (s : Machine)
  | done (s : Machine)

inductive BrkResult where
  | panic
  | returned (brk : ℕ) (s : Machine)

/-- out of memory, the old break is returned -/
def GrowResult.finish (brk : ℕ) (moved : Machine → BrkResult) : GrowResult → BrkResult
  | .panic => .panic
  | .outOfMemory s => .returned brk s
  | .done s => moved s

/-- page tables, each by its level and its number among those of the level -/
abbrev Tables := List (ℕ × ℕ)

/-- the tables that `map_to` goes through for a page, below the one of level 4 -/
def tablesFor (page : ℕ) : Tables := [(3, page / 2 ^ 27), (2, page / 2 ^ 18), (1, page / 2 ^ 9)]

/-- `map_to`, up to the entry of the page: each table that is missing takes a frame; are all of them there then? -/
def makeTables (core : ℕ) : Tables → Tables → World → Bool × Tables × World
  | [], tables, w => (true, tables, w)
  | t :: path, tables, w =>
    if t ∈ tables then makeTables core path tables w
    else
      match (w.phys.allocateFrame core).1 with
      | none => (false, tables, w.step (.allocateFrame core))
      | some _ => makeTables core path (t :: tables) (w.step (.allocateFrame core))

namespace Machine

/-- `n` pages from `page` on are mapped; what the mapping of a page returns is not looked at -/
def growHeap (core root : ℕ) : ℕ → ℕ → Tables → Machine → GrowResult
  | 0, _, _, s => .done s
  | n + 1, page, tables, s =>
    if page = LAST_PAGE then .panic
    else
      match s.allocate core with
      | (none, s) => .outOfMemory s
      | (some frame, s) =>
        let (ok, tables, world) := makeTables core (tablesFor page) tables s.world
        let s := { s with world }
        growHeap core root n (page + 1) tables ((s.mapUserPage root page frame heapFlags ok).getD s)

def unmapHeapPage (core root : ℕ) (s : Machine) (page : ℕ) : Machine :=
  match s.lookup root page with
  | none => s
  | some l => { s with leaves := s.leaves.filter fun l => !(l.root == root && l.page == page) }.deallocate core l.frame

def shrinkHeap (core root n page : ℕ) (s : Machine) : Option Machine :=
  if page ≤ LAST_PAGE ∧ LAST_PAGE < page + n then none
  else some ((range' page n).foldl (unmapHeapPage core root) s)

variable (s : Machine)

/-- `tables` are those of the address space -/
def sysBrk (core root startBrk addr : ℕ) (tables : Tables) : BrkResult :=
  let a := s.spaces root
  let moved (s : Machine) : BrkResult := .returned addr (s.setSpace root { a with brk := addr })
  if addr = 0 ∨ addr < startBrk then .returned a.brk s
  else if addr = a.brk then .returned a.brk s
  else
    let new := wrapUp addr
    let cur := wrapUp a.brk
    if cur < new then
      if a.mmapRegions.any (·.overlaps cur new) then .returned a.brk s
      else if !canonical cur || !canonical (new - 1) then .panic
      else (growHeap core root (new / PAGE_SIZE - cur / PAGE_SIZE) (cur / PAGE_SIZE) tables s).finish a.brk moved
    else if new < cur then
      if !canonical new || !canonical (cur - 1) then .panic
      else (shrinkHeap core root (cur / PAGE_SIZE - new / PAGE_SIZE) (new / PAGE_SIZE) s).elim .panic moved
    else moved s

/-! ## What it is for -/

/-- a user page that can be written, or is copied when it is -/
def HeapPage (root page : ℕ) : Prop :=
  ∃ l, s.lookup root page = some l ∧ l.flags.user = true ∧ l.flags.noExecute = true ∧ (l.flags.writable || l.flags.cow) = true

/-- an address space with a heap: it lies in user space, and is mapped -/
structure Heap (root startBrk : ℕ) : Prop where
  le : startBrk ≤ (s.spaces root).brk
  user : (s.spaces root).brk ≤ 2 ^ 47
  mapped : ∀ page, startBrk ≤ page * PAGE_SIZE → page * PAGE_SIZE < pageUp (s.spaces root).brk → s.HeapPage root page
  leaves : ∀ l ∈ s.leaves, l.page ≤ LAST_PAGE

structure SameMappings (s s' : Machine) : Prop where
  lookup : ∀ root page, s'.lookup root page = s.lookup root page
  regions : ∀ root, (s'.spaces root).mmapRegions = (s.spaces root).mmapRegions

/-- the heap goes up to the new break, and nothing else has changed -/
structure HeapMoved (s s' : Machine) (root startBrk : ℕ) : Prop where
  heap : ∀ page, startBrk ≤ page * PAGE_SIZE → page * PAGE_SIZE < pageUp (s'.spaces root).brk → s'.HeapPage root page
  above : ∀ page, pageUp (s'.spaces root).brk ≤ page * PAGE_SIZE → page * PAGE_SIZE < pageUp (s.spaces root).brk →
    s'.lookup root page = none
  outside : ∀ root' page, root' ≠ root ∨ page * PAGE_SIZE < startBrk ∨
    max (pageUp (s.spaces root).brk) (pageUp (s'.spaces root).brk) ≤ page * PAGE_SIZE →
    s'.lookup root' page = s.lookup root' page
  regions : ∀ root', (s'.spaces root').mmapRegions = (s.spaces root').mmapRegions

def BrkOk (root startBrk : ℕ) : BrkResult → Prop
  | .panic => False
  | .returned _ s' =>
    ((s'.spaces root).brk ≠ (s.spaces root).brk → HeapMoved s s' root startBrk) ∧
    ((s'.spaces root).brk = (s.spaces root).brk → SameMappings s s')

/-! ## When it does it -/

/-- what the allocator has for the page number `i` from `page` on: no frame, or one, and then all missing tables or not -/
def supply (core : ℕ) : ℕ → Tables → World → ℕ → Option Bool
  | page, tables, w, 0 =>
    (w.phys.allocateFrame core).1.map fun _ => (makeTables core (tablesFor page) tables (w.step (.allocateFrame core))).1
  | page, tables, w, i + 1 =>
    let r := makeTables core (tablesFor page) tables (w.step (.allocateFrame core))
    supply core (page + 1) r.2.1 r.2.2 i

/-- there are frames for all pages and for the tables of those that are free, and no page is mapped to anything else -/
def Room (core root : ℕ) (tables : Tables) (first n : ℕ) : Prop :=
  ∀ i < n, (supply core first tables s.world i).isSome ∧
    (s.lookup root (first + i) = none ∧ supply core first tables s.world i = some true ∨ s.HeapPage root (first + i))

/-- there are no frames from some page on, and no page before it can be mapped -/
def Stuck (core root : ℕ) (tables : Tables) (first n : ℕ) : Prop :=
  ∃ k < n, first + k < LAST_PAGE ∧ supply core first tables s.world k = none ∧
    ∀ i < k, (supply core first tables s.world i).isSome ∧
      ((s.lookup root (first + i)).isSome ∨ supply core first tables s.world i ≠ some true)

/-- the break is not to be moved, or there is a heap, the sum does not overflow and the pages between can be worked on -/
def BrkWhen (core root startBrk addr : ℕ) (tables : Tables) : Prop :=
  let cur := pageUp (s.spaces root).brk
  let new := pageUp addr
  addr = 0 ∨ addr < startBrk ∨ addr = (s.spaces root).brk ∨
    s.Heap root startBrk ∧ addr + 4095 < 2 ^ 64 ∧ (new < cur → cur < 2 ^ 47) ∧
    (cur < new → (s.spaces root).mmapRegions.any (·.overlaps cur new) = true ∨
      cur < 2 ^ 47 ∧ canonical (new - 1) = true ∧
        (new < 2 ^ 47 ∧ s.Room core root tables (cur / PAGE_SIZE) (new / PAGE_SIZE - cur / PAGE_SIZE) ∨
          s.Stuck core root tables (cur / PAGE_SIZE) (new / PAGE_SIZE - cur / PAGE_SIZE)))

/-! ## Growing -/

variable {s s' : Machine} {core root page : ℕ} {tables : Tables} {answer : ℕ → Option Bool}

theorem lookup_append (s : Machine) (l : Leaf) (root page : ℕ) :
    lookup { s with leaves := s.leaves ++ [l] } root page =
      (s.lookup root page).or (if l.root = root ∧ l.page = page then some l else none) := by
  unfold lookup
  rw [find?_append, find?_singleton]
  simp only [Bool.and_eq_true, beq_iff_eq]

section

variable (s : Machine) (root page frame : ℕ) (flags : PageFlags) (ok : Bool)

theorem lookup_mapUserPage (root' page' : ℕ) :
    ((s.mapUserPage root page frame flags ok).getD s).lookup root' page' =
      if root' = root ∧ page' = page ∧ s.lookup root page = none ∧ ok = true then some ⟨root, page, frame, flags⟩
      else s.lookup root' page' := by
  unfold mapUserPage
  by_cases hfree : (s.lookup root page).isSome || !ok
  · rw [if_pos hfree, getD_none, if_neg]
    rintro ⟨-, -, hnone, hok⟩
    rw [hnone, hok] at hfree
    cases hfree
  · rw [if_neg hfree, getD_some, lookup_append]
    rw [Bool.or_eq_true, not_or, not_isSome_iff_eq_none, Bool.not_eq_true', Bool.not_eq_false] at hfree
    by_cases hhere : root' = root ∧ page' = page
    · obtain ⟨rfl, rfl⟩ := hhere
      rw [hfree.1, if_pos ⟨rfl, rfl⟩, if_pos ⟨rfl, rfl, rfl, hfree.2⟩]
      rfl
    · rw [if_neg fun h => hhere ⟨h.1.symm, h.2.symm⟩, if_neg fun h => hhere ⟨h.1, h.2.1⟩, or_none]

theorem mapUserPage_same :
    ((s.mapUserPage root page frame flags ok).getD s).world = s.world ∧
      ((s.mapUserPage root page frame flags ok).getD s).spaces = s.spaces := by
  unfold mapUserPage
  split_ifs <;> exact ⟨rfl, rfl⟩

end

/-- the first `k` pages have been tried, with these answers of the allocator -/
structure Grown (root : ℕ) (answer : ℕ → Option Bool) (first k : ℕ) (s s' : Machine) : Prop where
  spaces : s'.spaces = s.spaces
  fresh : ∀ i < k, s.lookup root (first + i) = none → answer i = some true → s'.HeapPage root (first + i)
  same : ∀ root' page', s'.lookup root' page' = s.lookup root' page' ∨
    root' = root ∧ ∃ i < k, page' = first + i ∧ s.lookup root page' = none ∧ answer i = some true

variable {first n : ℕ}

theorem Grown.zero (hworld : s'.leaves = s.leaves) (hspaces : s'.spaces = s.spaces) : Grown root answer first 0 s s' where
  spaces := hspaces
  fresh i hi := absurd hi (not_lt_zero i)
  same root' page' := by
    left
    rw [lookup, lookup, hworld]

theorem Grown.cons {s1 : Machine} {k frame : ℕ} {ok : Bool} (hleaves : s1.leaves = s.leaves) (hspaces : s1.spaces = s.spaces)
    (hok : answer 0 = some ok)
    (h : Grown root (fun i => answer (i + 1)) (first + 1) k ((s1.mapUserPage root first frame heapFlags ok).getD s1) s') :
    Grown root answer first (k + 1) s s' := by
  have hlookup : ∀ root' page', s1.lookup root' page' = s.lookup root' page' := by
    intro root' page'
    rw [lookup, lookup, hleaves]
  have hmap := lookup_mapUserPage s1 root first frame heapFlags ok
  have hsame := (mapUserPage_same s1 root first frame heapFlags ok).2
  generalize (s1.mapUserPage root first frame heapFlags ok).getD s1 = s2 at h hmap hsame
  simp only [hlookup] at hmap
  refine ⟨h.spaces.trans (hsame.trans hspaces), fun i hi hnone hyes => ?_, fun root' page' => ?_⟩
  · cases i with
    | zero =>
      have hleaf : s2.lookup root first = some ⟨root, first, frame, heapFlags⟩ := by
        rw [hmap, if_pos ⟨rfl, rfl, hnone, some.inj (hok.symm.trans hyes)⟩]
      refine ⟨⟨root, first, frame, heapFlags⟩, ?_, rfl, rfl, rfl⟩
      rcases h.same root first with hsame' | ⟨-, i, -, hi, -⟩
      · exact hsame'.trans hleaf
      · omega
    | succ i =>
      have heq : first + (i + 1) = first + 1 + i := by omega
      rw [heq] at hnone ⊢
      refine h.fresh i (by omega) ?_ hyes
      rw [hmap, if_neg fun hh => by omega]
      exact hnone
  · rcases h.same root' page' with hsame' | ⟨hroot, i, hi, rfl, hnone, hyes⟩
    · rw [hsame', hmap]
      split_ifs with hhere
      · obtain ⟨hroot, rfl, hnone, rfl⟩ := hhere
        exact .inr ⟨hroot, 0, succ_pos k, rfl, hnone, hok⟩
      · exact .inl rfl
    · rw [hmap, if_neg fun hh => by omega] at hnone
      exact .inr ⟨hroot, i + 1, by omega, by omega, hnone, hyes⟩

/-- after `k` pages the loop is done, or ends where no frame can be had, or panics at the last page -/
theorem growHeap_spec (core root n : ℕ) : ∀ (first : ℕ) (tables : Tables) (s : Machine), ∃ k ≤ n,
    (∀ i < k, (supply core first tables s.world i).isSome ∧ first + i ≠ LAST_PAGE) ∧
    (growHeap core root n first tables s = .panic ∧ k < n ∧ first + k = LAST_PAGE ∨
      ∃ s', Grown root (supply core first tables s.world) first k s s' ∧
        (growHeap core root n first tables s = .done s' ∧ k = n ∨
          growHeap core root n first tables s = .outOfMemory s' ∧ k < n ∧ supply core first tables s.world k = none ∧
            first + k ≠ LAST_PAGE)) := by
  induction n with
  | zero =>
    intro first tables s
    exact ⟨0, le_rfl, fun i hi => absurd hi (not_lt_zero i), .inr ⟨s, Grown.zero rfl rfl, .inl ⟨rfl, rfl⟩⟩⟩
  | succ n ih =>
    intro first tables s
    rw [growHeap]
    by_cases hlast : first = LAST_PAGE
    · rw [if_pos hlast]
      exact ⟨0, Nat.zero_le _, fun i hi => absurd hi (not_lt_zero i), .inl ⟨rfl, succ_pos n, hlast⟩⟩
    rw [if_neg hlast]
    have hzero : supply core first tables s.world 0 =
        (s.allocate core).1.map fun _ => (makeTables core (tablesFor first) tables (s.allocate core).2.world).1 := by
      rw [allocate, Option.map_map]
      rfl
    have hnext : (fun i => supply core first tables s.world (i + 1)) = supply core (first + 1)
        (makeTables core (tablesFor first) tables (s.allocate core).2.world).2.1
        (makeTables core (tablesFor first) tables (s.allocate core).2.world).2.2 := rfl
    have hleaves : (s.allocate core).2.leaves = s.leaves := rfl
    have hspaces : (s.allocate core).2.spaces = s.spaces := rfl
    generalize supply core first tables s.world = answer at hzero hnext ⊢
    generalize s.allocate core = r at hleaves hspaces hzero hnext ⊢
    obtain ⟨found, s1⟩ := r
    cases found with
    | none =>
      exact ⟨0, Nat.zero_le _, fun i hi => absurd hi (not_lt_zero i),
        .inr ⟨s1, Grown.zero hleaves hspaces, .inr ⟨rfl, succ_pos n, hzero, hlast⟩⟩⟩
    | some frame =>
      dsimp only at hzero hnext ⊢
      generalize makeTables core (tablesFor first) tables s1.world = made at hzero hnext ⊢
      obtain ⟨ok, tables', world⟩ := made
      dsimp only at hzero hnext ⊢
      have hworld := (mapUserPage_same { s1 with world := world } root first frame heapFlags ok).1
      have hleaves' : ({ s1 with world := world } : Machine).leaves = s.leaves := hleaves
      have hspaces' : ({ s1 with world := world } : Machine).spaces = s.spaces := hspaces
      have hrest := ih (first + 1) tables' (({ s1 with world := world }.mapUserPage root first frame heapFlags ok).getD
        { s1 with world := world })
      rw [hworld, ← hnext] at hrest
      obtain ⟨k, hk, hav, hend⟩ := hrest
      refine ⟨k + 1, succ_le_succ hk, fun i hi => ?_, ?_⟩
      · -- the answers that are left are those after the first one
        cases i with
        | zero => exact ⟨by rw [hzero]; rfl, hlast⟩
        | succ i =>
          obtain ⟨hsome, hne⟩ := hav i (by omega)
          exact ⟨hsome, by omega⟩
      · rcases hend with ⟨hpanic, hlt, hpage⟩ | ⟨s', hg, hend⟩
        · exact .inl ⟨hpanic, by omega, by omega⟩
        · refine .inr ⟨s', hg.cons hleaves' hspaces' hzero, ?_⟩
          rcases hend with ⟨hdone, heq⟩ | ⟨hout, hlt, hstop, hne⟩
          · exact .inl ⟨hdone, by omega⟩
          · exact .inr ⟨hout, by omega, hstop, by omega⟩

/-! ## Shrinking -/

theorem lookup_filter (s : Machine) (root page root' page' : ℕ) :
    lookup { s with leaves := s.leaves.filter fun l => !(l.root == root && l.page == page) } root' page' =
      if root' = root ∧ page' = page then none else s.lookup root' page' := by
  unfold lookup
  rw [find?_filter]
  split_ifs with hhere
  · rw [hhere.1, hhere.2, find?_eq_none]
    intro l _ hl
    simp only [Bool.not_eq_true', Bool.and_eq_false_iff, Bool.and_eq_true, beq_iff_eq, beq_eq_false_iff_ne,
      decide_eq_true_eq] at hl
    omega
  · congr 1
    funext l
    rw [Bool.eq_iff_iff]
    simp only [Bool.not_eq_true', Bool.and_eq_false_iff, Bool.and_eq_true, beq_iff_eq, beq_eq_false_iff_ne,
      decide_eq_true_eq]
    omega

theorem lookup_unmapHeapPage (core root page root' page' : ℕ) :
    (unmapHeapPage core root s page).lookup root' page' =
      if root' = root ∧ page' = page then none else s.lookup root' page' := by
  unfold unmapHeapPage
  cases hl : s.lookup root page with
  | none =>
    split_ifs with hhere
    · rw [hhere.1, hhere.2, hl]
    · rfl
  | some l => exact lookup_filter s root page root' page'

theorem unmapHeapPage_same (s : Machine) (core root page : ℕ) :
    (unmapHeapPage core root s page).spaces = s.spaces ∧ ∀ l ∈ (unmapHeapPage core root s page).leaves, l ∈ s.leaves := by
  unfold unmapHeapPage
  cases s.lookup root page with
  | none => exact ⟨rfl, fun l hl => hl⟩
  | some l => exact ⟨rfl, fun l hl => (mem_filter.1 hl).1⟩

theorem shrinkHeap_spec (h : shrinkHeap core root n first s = some s') :
    s'.spaces = s.spaces ∧ (∀ l ∈ s'.leaves, l ∈ s.leaves) ∧ ∀ root' page', s'.lookup root' page' =
      if root' = root ∧ first ≤ page' ∧ page' < first + n then none else s.lookup root' page' := by
  have hloop : ∀ (n first : ℕ) (s : Machine),
      ((range' first n).foldl (unmapHeapPage core root) s).spaces = s.spaces ∧
      (∀ l ∈ ((range' first n).foldl (unmapHeapPage core root) s).leaves, l ∈ s.leaves) ∧
      ∀ root' page', ((range' first n).foldl (unmapHeapPage core root) s).lookup root' page' =
        if root' = root ∧ first ≤ page' ∧ page' < first + n then none else s.lookup root' page' := by
    intro n
    induction n with
    | zero =>
      intro first s
      refine ⟨rfl, fun l hl => hl, fun root' page' => ?_⟩
      rw [if_neg fun h => by omega]
      rfl
    | succ n ih =>
      intro first s
      rw [range'_succ, foldl_cons]
      obtain ⟨hspaces, hleaves, hlookup⟩ := ih (first + 1) (unmapHeapPage core root s first)
      obtain ⟨hspaces', hleaves'⟩ := unmapHeapPage_same s core root first
      refine ⟨hspaces.trans hspaces', fun l hl => hleaves' l (hleaves l hl), fun root' page' => ?_⟩
      rw [hlookup, lookup_unmapHeapPage]
      split_ifs <;> first | rfl | omega
  unfold shrinkHeap at h
  split_ifs at h
  cases h
  exact hloop n first s

/-! ## The call does what it is for -/

theorem wrapUp_eq {addr : ℕ} (h : addr + 4095 < 2 ^ 64) : wrapUp addr = pageUp addr := by
  rw [wrapUp, mod_eq_of_lt h, pageUp]

theorem wrapUp_overflow {addr : ℕ} (h : 2 ^ 64 ≤ addr + 4095) (hlt : addr < 2 ^ 64) : wrapUp addr = 0 := by
  have hmod : (addr + 4095) % 2 ^ 64 / PAGE_SIZE = 0 := by
    unfold PAGE_SIZE
    omega
  rw [wrapUp, hmod, zero_mul]

variable {startBrk addr : ℕ}

section

variable (s : Machine)

theorem BrkOk.same (root startBrk brk : ℕ) : BrkOk s root startBrk (.returned brk s) :=
  ⟨fun h => absurd rfl h, fun _ => ⟨fun _ _ => rfl, fun _ => rfl⟩⟩

theorem spaces_setSpace (root : ℕ) (a : AddressSpace) : ((s.setSpace root a).spaces root) = a :=
  update_self ..

end

/-- the break has been moved: what that has to do to the pages -/
theorem moved_ok_iff (hspaces : s'.spaces = s.spaces) (hne : addr ≠ (s.spaces root).brk) :
    BrkOk s root startBrk (.returned addr (s'.setSpace root { s.spaces root with brk := addr })) ↔
      (∀ page, startBrk ≤ page * PAGE_SIZE → page * PAGE_SIZE < pageUp addr → s'.HeapPage root page) ∧
      (∀ page, pageUp addr ≤ page * PAGE_SIZE → page * PAGE_SIZE < pageUp (s.spaces root).brk → s'.lookup root page = none) ∧
      ∀ root' page, root' ≠ root ∨ page * PAGE_SIZE < startBrk ∨
        max (pageUp (s.spaces root).brk) (pageUp addr) ≤ page * PAGE_SIZE → s'.lookup root' page = s.lookup root' page := by
  have hbrk : ((s'.setSpace root { s.spaces root with brk := addr }).spaces root).brk = addr :=
    congrArg _ (spaces_setSpace ..)
  constructor
  · rintro ⟨hmoved, -⟩
    obtain ⟨heap, above, outside, -⟩ := hmoved (by rwa [hbrk])
    rw [hbrk] at heap above outside
    exact ⟨heap, above, outside⟩
  · rintro ⟨heap, above, outside⟩
    refine ⟨fun _ => ⟨by rwa [hbrk], by rwa [hbrk], by rwa [hbrk], fun root' => ?_⟩, fun h => absurd (hbrk.symm.trans h) hne⟩
    change (update s'.spaces root _ root').mmapRegions = _
    rw [hspaces]
    by_cases h : root' = root
    · rw [h, update_self]
    · rw [update_of_ne h]

theorem done_ok_iff (hheap : s.Heap root startBrk) (hne : addr ≠ (s.spaces root).brk)
    (hcur : pageUp (s.spaces root).brk = first * PAGE_SIZE) (hnew : pageUp addr = (first + n) * PAGE_SIZE)
    (hgrown : Grown root answer first n s s') :
    BrkOk s root startBrk (.returned addr (s'.setSpace root { s.spaces root with brk := addr })) ↔
      ∀ i < n, s.lookup root (first + i) = none ∧ answer i = some true ∨ s.HeapPage root (first + i) := by
  have hsize : 0 < PAGE_SIZE := by decide
  have hstart : startBrk ≤ first * PAGE_SIZE := by
    rw [← hcur]
    exact hheap.le.trans (AddressSpace.le_pageUp _)
  rw [moved_ok_iff hgrown.spaces hne, hcur, hnew]
  constructor
  · rintro ⟨heap, -⟩ i hi
    obtain ⟨l, hl, hflags⟩ := heap (first + i) (hstart.trans (Nat.mul_le_mul_right _ (Nat.le_add_right ..)))
      (mul_lt_mul_of_pos_right (by omega) hsize)
    rcases hgrown.same root (first + i) with hsame | ⟨-, j, -, heq, hnone, hok⟩
    · exact .inr ⟨l, hsame.symm.trans hl, hflags⟩
    · obtain rfl := Nat.add_left_cancel heq
      exact .inl ⟨hnone, hok⟩
  · intro h
    refine ⟨fun page hge hlt => ?_, fun page hge hlt => ?_, fun root' page hout => ?_⟩
    · have hlt := lt_of_mul_lt_mul_right hlt
      -- a page that was there before is as it was, and one that was not is new
      have hkept : s.HeapPage root page → s'.HeapPage root page := by
        rintro ⟨l, hl, hflags⟩
        rcases hgrown.same root page with hsame | ⟨-, -, -, -, hnone, -⟩
        · exact ⟨l, hsame.trans hl, hflags⟩
        · cases hnone.symm.trans hl
      by_cases hold : page < first
      · apply hkept
        refine hheap.mapped page hge ?_
        rw [hcur]
        exact mul_lt_mul_of_pos_right hold hsize
      · obtain ⟨i, rfl⟩ := Nat.exists_eq_add_of_le (Nat.not_lt.1 hold)
        rcases h i (by omega) with ⟨hnone, hok⟩ | hpage
        · exact hgrown.fresh i (by omega) hnone hok
        · exact hkept hpage
    · have := lt_of_mul_lt_mul_right (hge.trans_lt hlt)
      omega
    · rcases hgrown.same root' page with hsame | ⟨hroot, i, hi, rfl, -⟩
      · exact hsame
      · have hge' := mul_le_mul_right PAGE_SIZE (Nat.le_add_right first i)
        have hlt' := mul_lt_mul_of_pos_right (Nat.add_lt_add_left hi first) hsize
        rcases hout with hroot' | hlow | hhigh
        · exact absurd hroot hroot'
        · omega
        · have := (le_max_right _ _).trans hhigh
          omega

theorem outOfMemory_ok_iff {k brk : ℕ} (hgrown : Grown root answer first k s s') :
    BrkOk s root startBrk (.returned brk s') ↔ ∀ i < k, (s.lookup root (first + i)).isSome ∨ answer i ≠ some true := by
  have hbrk : (s'.spaces root).brk = (s.spaces root).brk := by rw [hgrown.spaces]
  constructor
  · intro h i hi
    by_contra hnot
    rw [not_or, not_isSome_iff_eq_none, not_not] at hnot
    obtain ⟨l, hl, -⟩ := hgrown.fresh i hi hnot.1 hnot.2
    rw [(h.2 hbrk).lookup, hnot.1] at hl
    cases hl
  · intro h
    refine ⟨fun hne => absurd hbrk hne, fun _ => ⟨fun root' page => ?_, fun root' => by rw [hgrown.spaces]⟩⟩
    rcases hgrown.same root' page with hsame | ⟨-, i, hi, rfl, hnone, hok⟩
    · exact hsame
    · rcases h i hi with hsome | hfalse
      · rw [hnone] at hsome
        cases hsome
      · exact absurd hok hfalse

section

variable (hheap : s.Heap root startBrk) (hne : addr ≠ (s.spaces root).brk)
include hheap hne

/-- what growing does is right exactly if there is room for it, or if nothing could be done -/
theorem grow_ok_iff (hcur : pageUp (s.spaces root).brk = first * PAGE_SIZE)
    (hnew : pageUp addr = (first + n) * PAGE_SIZE) (hfirst : first ≤ LAST_PAGE) :
    BrkOk s root startBrk ((growHeap core root n first tables s).finish (s.spaces root).brk fun s' =>
        .returned addr (s'.setSpace root { s.spaces root with brk := addr })) ↔
      first + n ≤ LAST_PAGE ∧ s.Room core root tables first n ∨ s.Stuck core root tables first n := by
  obtain ⟨k, -, hav, ⟨hpanic, hk, hpage⟩ | ⟨s', hgrown, ⟨hdone, rfl⟩ | ⟨hout, hk, hstop, hne⟩⟩⟩ :=
    growHeap_spec core root n first tables s
  · rw [hpanic]
    refine iff_of_false id ?_
    rintro (⟨hle, -⟩ | ⟨k', -, hlt, hstop, -⟩)
    · omega
    · exact isSome_iff_ne_none.1 (hav k' (by omega)).1 hstop
  · rw [hdone]
    refine (done_ok_iff hheap hne hcur hnew hgrown).trans ⟨fun h => .inl ⟨?_, fun i hi => ⟨(hav i hi).1, h i hi⟩⟩, ?_⟩
    · by_contra hgt
      exact (hav (LAST_PAGE - first) (by omega)).2 (by omega)
    · rintro (⟨-, hroom⟩ | ⟨k', hk', -, hstop, -⟩) i hi
      · exact (hroom i hi).2
      · exact absurd hstop (isSome_iff_ne_none.1 (hav k' hk').1)
  · rw [hout]
    refine (outOfMemory_ok_iff hgrown).trans ⟨fun h => .inr ⟨k, hk, ?_, hstop, fun i hi => ⟨(hav i hi).1, h i hi⟩⟩, ?_⟩
    · by_contra hge
      exact (hav (LAST_PAGE - first) (by omega)).2 (by omega)
    · rintro (⟨-, hroom⟩ | ⟨k', hk', -, hstop', hbefore⟩)
      · exact absurd hstop (isSome_iff_ne_none.1 (hroom k hk).1)
      · -- the first frame that cannot be had is the same one
        have heq : k' = k := by
          rcases lt_trichotomy k' k with hlt | heq | hgt
          · exact absurd hstop' (isSome_iff_ne_none.1 (hav k' hlt).1)
          · exact heq
          · exact absurd hstop (isSome_iff_ne_none.1 (hbefore k hgt).1)
        subst heq
        exact fun i hi => (hbefore i hi).2

/-- shrinking is right unless the heap reaches the end of user space -/
theorem shrink_ok_iff (hcur : pageUp (s.spaces root).brk = (first + n) * PAGE_SIZE)
    (hnew : pageUp addr = first * PAGE_SIZE) (hn : 0 < n) (hstart : startBrk ≤ addr) :
    BrkOk s root startBrk ((shrinkHeap core root n first s).elim .panic fun s' =>
        .returned addr (s'.setSpace root { s.spaces root with brk := addr })) ↔ first + n ≤ LAST_PAGE := by
  have hsize : 0 < PAGE_SIZE := by decide
  have hfirst : first ≤ LAST_PAGE := by
    have hle : (first + n) * PAGE_SIZE ≤ 2 ^ 47 := by
      have := hheap.user
      rw [← hcur, pageUp]
      unfold PAGE_SIZE
      omega
    unfold PAGE_SIZE at hle
    unfold LAST_PAGE
    omega
  cases hshrink : shrinkHeap core root n first s with
  | none =>
    refine iff_of_false id ?_
    unfold shrinkHeap at hshrink
    split_ifs at hshrink with hlast
    omega
  | some s' =>
    refine iff_of_true ?_ ?_
    · obtain ⟨hspaces, -, hshrunk⟩ := shrinkHeap_spec hshrink
      refine (moved_ok_iff hspaces hne).2 ?_
      rw [hcur, hnew]
      refine ⟨fun page hge hlt => ?_, fun page hge hlt => ?_, fun root' page hout => ?_⟩
      · obtain ⟨l, hl, hflags⟩ := hheap.mapped page hge (by
          rw [hcur]
          exact hlt.trans (mul_lt_mul_of_pos_right (by omega) hsize))
        refine ⟨l, ?_, hflags⟩
        rw [hshrunk, if_neg]
        · exact hl
        · have := lt_of_mul_lt_mul_right hlt
          omega
      · rw [hshrunk, if_pos ⟨rfl, Nat.le_of_mul_le_mul_right hge hsize, Nat.lt_of_mul_lt_mul_right hlt⟩]
      · rw [hshrunk, if_neg]
        rintro ⟨hroot, hge, hlt⟩
        have hge' := mul_le_mul_right PAGE_SIZE hge
        have hlt' := mul_lt_mul_of_pos_right hlt hsize
        rcases hout with hroot' | hlow | hhigh
        · exact hroot' hroot
        · have hup := AddressSpace.le_pageUp addr
          omega
        · have := (le_max_left _ _).trans hhigh
          omega
    · unfold shrinkHeap at hshrink
      split_ifs at hshrink with hlast
      omega

theorem level_ok (heq : pageUp addr = pageUp (s.spaces root).brk) :
    BrkOk s root startBrk (.returned addr (s.setSpace root { s.spaces root with brk := addr })) := by
  rw [moved_ok_iff rfl hne, heq]
  exact ⟨hheap.mapped, fun page hge hlt => absurd hlt (not_lt.2 hge), fun _ _ _ => rfl⟩

omit hne in
/-- a sum that overflows moves the break to where there is nothing -/
theorem overflow_not_ok (h : 2 ^ 64 ≤ addr + 4095) (hspaces : s'.spaces = s.spaces) (hleaves : ∀ l ∈ s'.leaves, l ∈ s.leaves) :
    ¬BrkOk s root startBrk (.returned addr (s'.setSpace root { s.spaces root with brk := addr })) := by
  have hle := hheap.le
  have huser := hheap.user
  rw [moved_ok_iff hspaces (by omega)]
  rintro ⟨heap, -⟩
  obtain ⟨l, hl, -⟩ := heap (LAST_PAGE + 1) (by unfold LAST_PAGE PAGE_SIZE; omega) (by
    have hup := AddressSpace.le_pageUp addr
    unfold LAST_PAGE PAGE_SIZE
    omega)
  obtain ⟨hmem, -, hpage⟩ := lookup_some hl
  have hlast := hheap.leaves l (hleaves l hmem)
  omega

end

theorem pageUp_pages (addr : ℕ) : pageUp addr = pageUp addr / PAGE_SIZE * PAGE_SIZE :=
  (Nat.div_mul_cancel (Nat.dvd_of_mod_eq_zero (pageUp_mod addr))).symm

theorem pages_between {lo hi : ℕ} (h : pageUp lo < pageUp hi) :
    pageUp lo / PAGE_SIZE + (pageUp hi / PAGE_SIZE - pageUp lo / PAGE_SIZE) = pageUp hi / PAGE_SIZE ∧
      0 < pageUp hi / PAGE_SIZE - pageUp lo / PAGE_SIZE := by
  have hdiv := Nat.div_lt_div_of_lt_of_dvd (Nat.dvd_of_mod_eq_zero (pageUp_mod hi)) h
  omega

theorem lt_end_iff : first * PAGE_SIZE < 2 ^ 47 ↔ first ≤ LAST_PAGE := by
  unfold PAGE_SIZE LAST_PAGE
  omega

theorem canonical_user (h : addr ≤ 2 ^ 47) : canonical addr = true ↔ addr < 2 ^ 47 := by
  unfold canonical
  simp only [Bool.or_eq_true, decide_eq_true_eq]
  omega

theorem brkOk_iff_of_heap (hheap : s.Heap root startBrk) (haddr : addr < 2 ^ 64) :
    BrkOk s root startBrk (s.sysBrk core root startBrk addr tables) ↔ s.BrkWhen core root startBrk addr tables := by
  unfold sysBrk BrkWhen
  by_cases hearly : addr = 0 ∨ addr < startBrk
  · rw [if_pos hearly]
    exact iff_of_true (BrkOk.same ..) (hearly.imp_right .inl)
  rw [if_neg hearly]
  by_cases hbrk : addr = (s.spaces root).brk
  · rw [if_pos hbrk]
    exact iff_of_true (BrkOk.same ..) (.inr (.inr (.inl hbrk)))
  rw [if_neg hbrk]
  rw [not_or] at hearly
  have huser := hheap.user
  have hcur : wrapUp (s.spaces root).brk = pageUp (s.spaces root).brk := wrapUp_eq (by omega)
  have hcurle : pageUp (s.spaces root).brk ≤ 2 ^ 47 := by
    unfold pageUp PAGE_SIZE
    omega
  rw [hcur, or_iff_right hearly.1, or_iff_right hearly.2, or_iff_right hbrk, and_iff_right hheap]
  by_cases hover : addr + 4095 < 2 ^ 64
  · rw [wrapUp_eq hover, and_iff_right hover]
    have hpages := pageUp_pages (s.spaces root).brk
    have hpages' := pageUp_pages addr
    rcases lt_trichotomy (pageUp (s.spaces root).brk) (pageUp addr) with hlt | heq | hgt
    · have hsum := (pages_between hlt).1
      rw [if_pos hlt, and_iff_right fun h => absurd h (by omega), forall_prop_of_true hlt]
      by_cases hregion : (s.spaces root).mmapRegions.any (·.overlaps (pageUp (s.spaces root).brk) (pageUp addr)) = true
      · rw [if_pos hregion]
        exact iff_of_true (BrkOk.same ..) (.inl hregion)
      rw [if_neg hregion, or_iff_right hregion]
      by_cases hcanon : canonical (pageUp (s.spaces root).brk) = true ∧ canonical (pageUp addr - 1) = true
      · rw [if_neg (by rw [hcanon.1, hcanon.2]; decide), and_iff_right ((canonical_user hcurle).1 hcanon.1),
          and_iff_right hcanon.2]
        have hfirst := (canonical_user hcurle).1 hcanon.1
        rw [hpages, lt_end_iff] at hfirst
        refine (grow_ok_iff hheap hbrk hpages (by rw [hsum]; exact hpages') hfirst).trans (or_congr_left ?_)
        rw [hsum, ← lt_end_iff, ← hpages']
      · rw [if_pos]
        · exact iff_of_false id fun h => hcanon ⟨(canonical_user hcurle).2 h.1, h.2.1⟩
        · rw [not_and_or, Bool.not_eq_true, Bool.not_eq_true] at hcanon
          rcases hcanon with h | h <;> simp [h]
    · rw [if_neg (by omega), if_neg (by omega)]
      refine iff_of_true (level_ok hheap hbrk heq.symm) ⟨fun h => ?_, fun h => ?_⟩ <;> omega
    · obtain ⟨hsum, hpos⟩ := pages_between hgt
      have hnew : canonical (pageUp addr) = true := (canonical_user (by omega)).2 (by omega)
      have hlast : canonical (pageUp (s.spaces root).brk - 1) = true := (canonical_user (by omega)).2 (by omega)
      rw [if_neg (by omega), if_pos hgt, if_neg (by rw [hnew, hlast]; decide)]
      refine (shrink_ok_iff hheap hbrk (by rw [hsum]; exact hpages) hpages' hpos (not_lt.1 hearly.2)).trans ?_
      rw [hsum, ← lt_end_iff, ← hpages]
      exact ⟨fun h => ⟨fun _ => h, fun h' => absurd h' (by omega)⟩, fun h => h.1 hgt⟩
  · have hwrap := wrapUp_overflow (not_lt.1 hover) haddr
    rw [hwrap, if_neg (not_lt_zero _)]
    refine iff_of_false (fun hok => ?_) fun h => hover h.1
    split_ifs at hok with hzero hcanon
    · exact hok
    · cases hshrink : shrinkHeap core root (pageUp (s.spaces root).brk / PAGE_SIZE - 0 / PAGE_SIZE) (0 / PAGE_SIZE) s with
      | none =>
        rw [hshrink] at hok
        exact hok
      | some s' =>
        rw [hshrink] at hok
        exact overflow_not_ok hheap (not_lt.1 hover) (shrinkHeap_spec hshrink).1 (shrinkHeap_spec hshrink).2.1 hok
    · exact overflow_not_ok hheap (not_lt.1 hover) rfl (fun l hl => hl) hok

/-- **When `sys_brk` changes only the heap.** In every address space it does not panic, and maps the heap up to the new break and
changes nothing else or leaves all as it was, if `BrkWhen` holds; in one with a heap, exactly then. -/
theorem sysBrk_ok_iff (s : Machine) (core root startBrk addr : ℕ) (tables : Tables) (haddr : addr < 2 ^ 64) :
    (s.BrkWhen core root startBrk addr tables → BrkOk s root startBrk (s.sysBrk core root startBrk addr tables)) ∧
    (s.Heap root startBrk →
      (BrkOk s root startBrk (s.sysBrk core root startBrk addr tables) ↔ s.BrkWhen core root startBrk addr tables)) := by
  refine ⟨fun h => ?_, fun hheap => brkOk_iff_of_heap hheap haddr⟩
  have hwhen := h
  rcases h with h0 | hlow | hsame | ⟨hheap, -⟩
  · rw [sysBrk, if_pos (.inl h0)]
    exact BrkOk.same ..
  · rw [sysBrk, if_pos (.inr hlow)]
    exact BrkOk.same ..
  · unfold sysBrk
    dsimp only
    rw [if_pos hsame]
    split_ifs
    · exact BrkOk.same ..
    · exact BrkOk.same ..
  · exact (brkOk_iff_of_heap hheap haddr).2 hwhen

/-! ## One page of code below the heap -/

/-- a program whose heap is empty; the free frames are those in the caches of the CPUs -/
def codePage (frames : List ℕ) : Machine where
  world := ⟨⟨.new, fun _ => frames.map (· * PAGE_SIZE), fun _ => 0⟩, fun _ => 0⟩
  lfb := 0xfd000000
  live := 1
  spaces _ := ⟨0x5000, 0x500000000000, []⟩
  leaves := [⟨0, 4, 7, ⟨false, false, true, false⟩⟩]
  cache := []
  kernel := []

theorem codePage_heap {frames : List ℕ} : (codePage frames).Heap 0 0x5000 := by
  have hbrk : ((codePage frames).spaces 0).brk = 0x5000 := rfl
  have hup : pageUp 0x5000 = 0x5000 := rfl
  refine ⟨by rw [hbrk], by rw [hbrk]; decide, fun page hge hlt => ?_, fun l hl => ?_⟩
  · rw [hbrk, hup] at hlt
    exact absurd hlt (not_lt.2 hge)
  · obtain rfl := mem_singleton.1 hl
    decide

/-- two pages, and the three tables above them -/
theorem sysBrk_two_pages : (codePage [10, 11, 12, 13, 14]).Heap 0 0x5000 ∧
    BrkOk (codePage [10, 11, 12, 13, 14]) 0 0x5000 ((codePage [10, 11, 12, 13, 14]).sysBrk 0 0 0x5000 0x6800 []) := by
  have hbrk : ((codePage [10, 11, 12, 13, 14]).spaces 0).brk = 0x5000 := rfl
  have hcur : pageUp 0x5000 = 0x5000 := by norm_num [pageUp, PAGE_SIZE]
  have hnew : pageUp 0x6800 = 0x7000 := by norm_num [pageUp, PAGE_SIZE]
  have hcanon : canonical (0x7000 - 1) = true := (canonical_user (by norm_num)).2 (by norm_num)
  have hall : ∀ i < 2, supply 0 5 [] (codePage [10, 11, 12, 13, 14]).world i = some true ∧
      (codePage [10, 11, 12, 13, 14]).lookup 0 (5 + i) = none := by
    decide +kernel
  have hroom : (codePage [10, 11, 12, 13, 14]).Room 0 0 [] 5 2 := by
    intro i hi
    obtain ⟨hyes, hnone⟩ := hall i hi
    exact ⟨by rw [hyes]; rfl, .inl ⟨hnone, hyes⟩⟩
  refine ⟨codePage_heap, (sysBrk_ok_iff _ 0 0 0x5000 0x6800 [] (by norm_num)).1 ?_⟩
  unfold BrkWhen
  rw [hbrk, hcur, hnew]
  exact .inr (.inr (.inr ⟨codePage_heap, by norm_num, fun h => absurd h (by norm_num), fun _ =>
    .inr ⟨by norm_num, hcanon, .inl ⟨by norm_num, hroom⟩⟩⟩))

/-- what a call has returned, and the break and a page afterwards -/
def BrkResult.observe (page : ℕ) : BrkResult → Option (ℕ × ℕ × Bool)
  | .panic => none
  | .returned brk s => some (brk, (s.spaces 0).brk, (s.lookup 0 page).isSome)

theorem exists_of_observe {r : BrkResult} {brk brk' : ℕ} {mapped : Bool}
    (h : BrkResult.observe page r = some (brk, brk', mapped)) :
    ∃ s', r = .returned brk s' ∧ (s'.spaces 0).brk = brk' ∧ (s'.lookup 0 page).isSome = mapped := by
  cases r with
  | panic => cases h
  | returned brk s =>
    cases h
    exact ⟨s, rfl, rfl, rfl⟩

/-- those of the page of code -/
def codeTables : Tables := tablesFor 4

/-- an address that is not canonical panics; one whose rounding overflows unmaps the code; with one frame for two pages, the first
stays mapped although the break does not move -/
theorem brk_changes_mappings :
    BrkResult.observe 4 ((codePage [10]).sysBrk 0 0 0x5000 0x900000000000 []) = none ∧
    (∃ s', (codePage [10]).sysBrk 0 0 0x5000 (2 ^ 64 - 1) [] = .returned (2 ^ 64 - 1) s' ∧
      ((codePage [10]).lookup 0 4).isSome ∧ s'.lookup 0 4 = none ∧
      ¬BrkOk (codePage [10]) 0 0x5000 (.returned (2 ^ 64 - 1) s')) ∧
    ∃ s', (codePage [10]).sysBrk 0 0 0x5000 0x7000 codeTables = .returned 0x5000 s' ∧
      (codePage [10]).lookup 0 5 = none ∧ (s'.lookup 0 5).isSome ∧ ¬BrkOk (codePage [10]) 0 0x5000 (.returned 0x5000 s') := by
  have hbrk : ((codePage [10]).spaces 0).brk = 0x5000 := rfl
  have hcode : ((codePage [10]).lookup 0 4).isSome := by decide
  have hfree : (codePage [10]).lookup 0 5 = none := by decide
  refine ⟨by decide +kernel, ?_, ?_⟩
  · have hrun : BrkResult.observe 4 ((codePage [10]).sysBrk 0 0 0x5000 (2 ^ 64 - 1) []) =
        some (2 ^ 64 - 1, 2 ^ 64 - 1, false) := by decide +kernel
    obtain ⟨s', hs', hbrk', hpage⟩ := exists_of_observe hrun
    rw [isSome_eq_false_iff, isNone_iff_eq_none] at hpage
    refine ⟨s', hs', hcode, hpage, fun hok => ?_⟩
    have hmoved := hok.1 (by rw [hbrk, hbrk']; norm_num)
    have hsame := hmoved.outside 0 4 (.inr (.inl (by norm_num [PAGE_SIZE])))
    rw [← hsame, hpage] at hcode
    cases hcode
  · have hrun : BrkResult.observe 5 ((codePage [10]).sysBrk 0 0 0x5000 0x7000 codeTables) = some (0x5000, 0x5000, true) := by
      decide +kernel
    obtain ⟨s', hs', hbrk', hpage⟩ := exists_of_observe hrun
    refine ⟨s', hs', hfree, hpage, fun hok => ?_⟩
    rw [(hok.2 (hbrk'.trans hbrk.symm)).lookup, hfree] at hpage
    cases hpage

end Machine

end Kontsnor.Memory
