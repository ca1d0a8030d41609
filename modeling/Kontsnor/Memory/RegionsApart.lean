/-
Regions do not overlap.

`execve` starts with an address space that is laid out (`Laid`) if the segments of the program are in user space and off the
stack (`laid_execve`). A stack that grows keeps it so if no region is between it and the fault (`laid_handle`); it does not look.

**Main result.** `regions_apart`.
-/
import Kontsnor.Memory.RegionsLaid

namespace Kontsnor.Memory

open MappedRegion List Bool Runs Nat

/-! ## The growth of stacks -/

/-- no region is between the stack that grows and the page of the address -/
def stackClear (addr : ℕ) (rs : List MappedRegion) : Bool :=
  match mainStack addr rs with
  | some i => rs[i]?.all fun r => rs.all fun x => x.stop ≤ pageDown addr || r.start ≤ x.start
  | none =>
    match threadStack addr rs with
    | some i => rs[i]?.all fun r => rs.all fun x => x.stop ≤ r.stop || pageDown addr + PAGE_SIZE ≤ x.start
    | none => true

variable {a : AddressSpace} {addr : ℕ}

theorem AddressSpace.Laid.growDown (h : a.Laid) {i : ℕ} {r : MappedRegion}
    (hi : a.mmapRegions[i]? = some r) (hlt : addr < r.start)
    (hclear : ∀ x ∈ a.mmapRegions, x.stop ≤ pageDown addr ∨ r.start ≤ x.start) :
    AddressSpace.Laid { a with mmapRegions := a.mmapRegions.modify i (·.downTo addr) } := by
  have hmem : r ∈ a.mmapRegions := mem_of_getElem? hi
  have hdown := pageDown_le addr
  have hstop : (r.downTo addr).stop = r.stop := by
    change pageDown addr + (r.len + (r.start - pageDown addr)) = r.start + r.len
    omega
  refine h.modify hi ⟨pageDown_mod addr, ?_⟩ (hstop.trans_le (h.user r hmem)) ?_ fun x hx hapart => ?_
  · have halign := h.tidy.aligned r hmem
    have hmod := pageDown_mod addr
    obtain ⟨h1, h2⟩ := halign
    change (r.len + (r.start - pageDown addr)) % PAGE_SIZE = 0
    unfold PAGE_SIZE at *
    omega
  · have hpos := h.pos r hmem
    change 0 < r.len + (r.start - pageDown addr)
    omega
  · have hxpos := h.pos x hx
    have hxstop : x.stop = x.start + x.len := rfl
    rcases hclear x hx with hle | hle
    · exact .inl hle
    · rcases hapart with hx' | hx'
      · omega
      · exact .inr (hstop.trans_le hx')

theorem AddressSpace.Laid.growUp (h : a.Laid) {i : ℕ} {r : MappedRegion}
    (hi : a.mmapRegions[i]? = some r) (hle : r.stop ≤ addr) (huser : addr < USER_TOP)
    (hclear : ∀ x ∈ a.mmapRegions, x.stop ≤ r.stop ∨ pageDown addr + PAGE_SIZE ≤ x.start) :
    AddressSpace.Laid { a with mmapRegions := a.mmapRegions.modify i (·.upTo addr) } := by
  have hmem : r ∈ a.mmapRegions := mem_of_getElem? hi
  have hup := lt_pageDown addr
  have hmod := pageDown_mod addr
  have hlonger : r.stop < pageDown addr + PAGE_SIZE := hle.trans_lt hup
  have hupTo : r.upTo addr = { r with len := r.len + (pageDown addr + PAGE_SIZE - r.stop) } := if_pos hlonger
  have hstop : (r.upTo addr).stop = pageDown addr + PAGE_SIZE := by
    have hrstop : r.stop = r.start + r.len := rfl
    rw [hupTo]
    change r.start + (r.len + (pageDown addr + PAGE_SIZE - r.stop)) = _
    omega
  obtain ⟨h1, h2⟩ := h.tidy.aligned r hmem
  have h3 := (h.tidy.aligned r hmem).stop_mod
  refine h.modify hi ?_ ?_ ?_ fun x hx hapart => ?_
  · rw [hupTo]
    refine ⟨h1, ?_⟩
    change (r.len + (pageDown addr + PAGE_SIZE - r.stop)) % PAGE_SIZE = 0
    unfold PAGE_SIZE at *
    omega
  · rw [hstop]
    have hdown := pageDown_le addr
    unfold USER_TOP PAGE_SIZE at *
    omega
  · have hpos := h.pos r hmem
    rw [hupTo]
    change 0 < r.len + (pageDown addr + PAGE_SIZE - r.stop)
    omega
  · have hxpos := h.pos x hx
    have hxstop : x.stop = x.start + x.len := rfl
    rcases hclear x hx with hx' | hx'
    · rcases hapart with hx'' | hx''
      · rw [hupTo]
        exact .inl hx''
      · omega
    · exact .inr (hstop.trans_le hx')

variable {rs : List MappedRegion}

theorem AddressSpace.Laid.growRegions (h : a.Laid) (huser : addr < USER_TOP)
    (hclear : stackClear addr a.mmapRegions = true) (hgrow : Memory.growRegions addr a.mmapRegions = some rs) :
    AddressSpace.Laid { a with mmapRegions := rs } := by
  unfold Memory.growRegions at hgrow
  unfold stackClear at hclear
  cases hmain : mainStack addr a.mmapRegions with
  | some i =>
    rw [hmain] at hgrow hclear
    cases hgrow
    obtain ⟨r, hr, hreach⟩ := mainStack_spec hmain
    simp only [hr, Option.all_some, all_eq_true, or_eq_true, decide_eq_true_eq] at hclear
    simp only [reachesDown, and_eq_true, decide_eq_true_eq] at hreach
    exact h.growDown hr hreach.1 hclear
  | none =>
    rw [hmain] at hgrow hclear
    obtain ⟨i, hthread, rfl⟩ := Option.map_eq_some_iff.1 hgrow
    rw [hthread] at hclear
    obtain ⟨r, hr, hreach⟩ := threadStack_spec hthread
    simp only [hr, Option.all_some, all_eq_true, or_eq_true, decide_eq_true_eq] at hclear
    simp only [reachesUp, and_eq_true, decide_eq_true_eq] at hreach
    exact h.growUp hr hreach.1.2 huser hclear

theorem lt_of_growRegions (h : a.Laid) (hcan : canonical addr = true)
    (hgrow : growRegions addr a.mmapRegions = some rs) : addr < USER_TOP := by
  have hnear : addr < USER_TOP + MAX_STACK_SIZE := by
    unfold growRegions at hgrow
    cases hmain : mainStack addr a.mmapRegions with
    | some i =>
      obtain ⟨r, hr, hreach⟩ := mainStack_spec hmain
      have huser := h.user r (mem_of_getElem? hr)
      simp only [reachesDown, and_eq_true, decide_eq_true_eq] at hreach
      unfold MappedRegion.stop at huser
      omega
    | none =>
      rw [hmain] at hgrow
      obtain ⟨i, hthread, -⟩ := Option.map_eq_some_iff.1 hgrow
      obtain ⟨r, hr, hreach⟩ := threadStack_spec hthread
      have huser := h.user r (mem_of_getElem? hr)
      simp only [reachesUp, and_eq_true, decide_eq_true_eq] at hreach
      omega
  unfold canonical at hcan
  rw [or_eq_true, decide_eq_true_eq, decide_eq_true_eq] at hcan
  unfold USER_TOP MAX_STACK_SIZE at *
  omega

namespace Machine

variable {s : Machine} {core root : ℕ}

theorem laid_growStack {t : Trap} (h : (s.spaces t.root).Laid) (huser : canonical t.addr = true)
    (hclear : t.onStack = true → stackClear t.addr (s.spaces t.root).mmapRegions = true) :
    ((s.growStack t).2.spaces t.root).Laid := by
  unfold growStack
  by_cases hon : t.onStack = true
  · rw [if_pos hon]
    cases hgrow : growRegions t.addr (s.spaces t.root).mmapRegions with
    | none => exact h
    | some rs =>
      rw [(onlyEntries_mapStackPage _).spaces, spaces_setSpace]
      exact h.growRegions (lt_of_growRegions h huser hgrow) (hclear hon) hgrow
  · rw [if_neg hon]
    exact h

/-- a fault that demand paging does not resolve finds nothing between it and the stack -/
def faultClear (s : Machine) (t : Trap) : Bool :=
  (s.pageFault t.toFault).1 == .resolved || !t.onStack || stackClear t.addr (s.spaces t.root).mmapRegions

theorem laid_handle {t : Trap} (h : (s.spaces t.root).Laid) (hclear : s.faultClear t = true) :
    ((s.handle t).2.spaces t.root).Laid := by
  unfold handle
  by_cases hcan : (!canonical t.addr) = true
  · rw [if_pos hcan]
    exact h
  rw [if_neg hcan]
  have hspaces := (onlyEntries_pageFault s t.toFault).spaces
  unfold faultClear at hclear
  rw [or_eq_true, or_eq_true, beq_iff_eq, not_eq_true'] at hclear
  cases hfault : s.pageFault t.toFault with
  | mk outcome s1 =>
    rw [hfault] at hspaces hclear
    have hlaid : (s1.spaces t.root).Laid := by
      rw [hspaces]
      exact h
    have hgrow : outcome ≠ .resolved → ((s1.growStack t).2.spaces t.root).Laid := by
      intro hne
      refine laid_growStack hlaid (by simpa using hcan) fun hon => ?_
      rw [hspaces]
      rcases hclear with (heq | hoff) | hclear
      · exact absurd heq hne
      · rw [hoff] at hon
        cases hon
      · exact hclear
    cases outcome with
    | resolved => exact hlaid
    | error e =>
      have hgrow := hgrow nofun
      dsimp only
      split <;> (next hr => rw [hr] at hgrow; exact hgrow)
    | unmapped =>
      have hgrow := hgrow nofun
      dsimp only
      split <;> (next hr => rw [hr] at hgrow; exact hgrow)

/-! ## `execve` -/

/-- what mapping `n` new pages does -/
structure Mapped (root first n : ℕ) (s s' : Machine) : Prop where
  fresh : ∀ i < n, s.lookup root (first + i) = none
  mapped : ∀ i < n, (s'.lookup root (first + i)).isSome
  still : ∀ page, (s.lookup root page).isSome → (s'.lookup root page).isSome

theorem mapFresh_spec {flags : PageFlags} {tablesOk : ℕ → Bool} {n first : ℕ} {s' : Machine}
    (h : mapFresh core root flags tablesOk n first s = some s') : Mapped root first n s s' := by
  induction n generalizing first s with
  | zero =>
    cases h
    exact ⟨fun i hi => absurd hi (not_lt_zero i), fun i hi => absurd hi (not_lt_zero i), fun _ hp => hp⟩
  | succ n ih =>
    unfold mapFresh at h
    cases hal : s.allocate core with
    | mk o s1 =>
      have hleaves : ∀ page, s1.lookup root page = s.lookup root page := by
        cases hal
        exact fun _ => rfl
      rw [hal] at h
      cases o with
      | none => cases h
      | some frame =>
        obtain ⟨s2, hmap, h⟩ := Option.bind_eq_some_iff.1 h
        obtain ⟨hnone, rfl⟩ := mapUserPage_some hmap
        obtain ⟨hfresh, hmapped, hstill⟩ := ih h
        have hlook : ∀ page, (s1.lookup root page).isSome ∨ page = first →
            (lookup { s1 with leaves := s1.leaves ++ [⟨root, first, frame, flags⟩] } root page).isSome := by
          intro page hpage
          rw [lookup_append]
          rcases hpage with hpage | rfl
          · rw [Option.isSome_or, hpage, Bool.true_or]
          · rw [if_pos ⟨rfl, rfl⟩, Option.isSome_or, Option.isSome_some, Bool.or_true]
        refine ⟨fun i hi => ?_, fun i hi => ?_, fun page hpage => ?_⟩
        · cases i with
          | zero => exact (hleaves first).symm.trans hnone
          | succ i =>
            have heq : first + (i + 1) = first + 1 + i := by omega
            have hi := hfresh i (by omega)
            rw [lookup_append, Option.or_eq_none_iff, hleaves] at hi
            rw [heq]
            exact hi.1
        · cases i with
          | zero => exact hstill first (hlook first (.inr rfl))
          | succ i =>
            have heq : first + (i + 1) = first + 1 + i := by omega
            rw [heq]
            exact hmapped i (by omega)
        · refine hstill page (hlook page (.inl ?_))
          rw [hleaves]
          exact hpage

end Machine

/-- a segment in user space and off the stack -/
def LoadSegment.inPlace (bias : ℕ) (g : LoadSegment) : Bool :=
  g.memSize == 0 || wrappingAdd g.vaddr bias + g.memSize ≤ USER_STACK_TOP - STACK_SIZE ||
    (USER_STACK_TOP ≤ wrappingAdd g.vaddr bias && wrappingAdd g.vaddr bias + g.memSize ≤ USER_TOP)

def Program.inPlace (x : Program) : Bool :=
  x.segments.all (·.inPlace x.mainBias) && x.interpreter.all fun i => i.2.all (·.inPlace INTERPRETER_BASE)

theorem stackRegion_stop : stackRegion.stop = USER_STACK_TOP := by
  unfold MappedRegion.stop stackRegion USER_STACK_TOP STACK_SIZE
  norm_num

/-- the region of a segment in its place -/
structure LoadSegment.Placed (bias : ℕ) (inode : MappedInode) (g : LoadSegment) : Prop where
  aligned : (g.region inode bias).Aligned
  user : (g.region inode bias).stop ≤ USER_TOP
  pos : 0 < (g.region inode bias).len
  off : (g.region inode bias).Apart stackRegion
  start : (g.region inode bias).start = wrappingAdd g.vaddr bias / PAGE_SIZE * PAGE_SIZE
  stop : (g.region inode bias).stop = pageUp (wrappingAdd g.vaddr bias + g.memSize)
  sum : wrappingAdd g.vaddr bias + g.memSize ≤ USER_TOP

variable {bias : ℕ}

theorem LoadSegment.placed {g : LoadSegment} (inode : MappedInode) (hmem : g.memSize ≠ 0)
    (h : g.inPlace bias = true) : g.Placed bias inode := by
  unfold inPlace at h
  simp only [or_eq_true, and_eq_true, beq_iff_eq, decide_eq_true_eq] at h
  have hcases : wrappingAdd g.vaddr bias + g.memSize ≤ USER_STACK_TOP - STACK_SIZE ∨
      USER_STACK_TOP ≤ wrappingAdd g.vaddr bias ∧ wrappingAdd g.vaddr bias + g.memSize ≤ USER_TOP := by tauto
  have hsum : wrappingAdd g.vaddr bias + g.memSize ≤ USER_TOP := by
    have hle : USER_STACK_TOP - STACK_SIZE ≤ USER_TOP := by decide +kernel
    rcases hcases with hlow | hhigh
    · exact hlow.trans hle
    · exact hhigh.2
  have hup : wrapUp (wrappingAdd g.vaddr bias + g.memSize) = pageUp (wrappingAdd g.vaddr bias + g.memSize) := by
    apply Machine.wrapUp_eq
    unfold USER_TOP at hsum
    omega
  have hlen : (g.region inode bias).len =
      pageUp (wrappingAdd g.vaddr bias + g.memSize) - wrappingAdd g.vaddr bias / PAGE_SIZE * PAGE_SIZE := by
    change wrappingAdd (wrapUp _) _ = _
    unfold wrappingAdd pageUp PAGE_SIZE USER_TOP at *
    omega
  have hstart : (g.region inode bias).start = wrappingAdd g.vaddr bias / PAGE_SIZE * PAGE_SIZE := rfl
  have hstop : (g.region inode bias).stop = pageUp (wrappingAdd g.vaddr bias + g.memSize) := by
    rw [MappedRegion.stop, hstart, hlen]
    unfold pageUp PAGE_SIZE
    omega
  refine ⟨⟨?_, ?_⟩, ?_, ?_, ?_, hstart, hstop, hsum⟩
  · rw [hstart]
    exact mul_mod_left _ _
  · rw [hlen]
    unfold pageUp PAGE_SIZE
    omega
  · rw [hstop]
    unfold pageUp PAGE_SIZE USER_TOP at *
    omega
  · rw [hlen]
    unfold pageUp PAGE_SIZE
    omega
  · unfold Apart
    have hbottom : stackRegion.start = USER_STACK_TOP - STACK_SIZE := rfl
    rw [hstop, hstart, stackRegion_stop, hbottom]
    unfold pageUp PAGE_SIZE USER_STACK_TOP STACK_SIZE at *
    omega

namespace Machine

variable {s : Machine} {core root : ℕ} {tablesOk : ℕ → Bool} {inode : MappedInode}

/-- segments that have been mapped -/
structure Loaded (root : ℕ) (rs : List MappedRegion) (s : Machine) : Prop where
  laid : AddressSpace.Laid ⟨0, MMAP_BASE, rs⟩
  off : ∀ r ∈ rs, r.Apart stackRegion
  mapped : ∀ r ∈ rs, ∀ page, r.covers (page * PAGE_SIZE) = true → (s.lookup root page).isSome

theorem Loaded.nil (root : ℕ) (s : Machine) : Loaded root [] s where
  laid := ⟨⟨.nil, nofun⟩, nofun, nofun, by decide⟩
  off _ hr := by cases hr
  mapped _ hr := by cases hr

/-- a page is mapped once, so the regions of segments are apart -/
theorem Loaded.push {g : LoadSegment} {s' : Machine}
    (h : Loaded root rs s) (hg : g.Placed bias inode)
    (hmap : Mapped root (wrappingAdd g.vaddr bias / PAGE_SIZE)
      ((wrappingAdd g.vaddr bias + g.memSize - 1) / PAGE_SIZE + 1 - wrappingAdd g.vaddr bias / PAGE_SIZE) s s') :
    Loaded root (rs ++ [g.region inode bias]) s' := by
  have hcov : ∀ page, (g.region inode bias).covers (page * PAGE_SIZE) = true → ∃ i,
      i < (wrappingAdd g.vaddr bias + g.memSize - 1) / PAGE_SIZE + 1 - wrappingAdd g.vaddr bias / PAGE_SIZE ∧
      page = wrappingAdd g.vaddr bias / PAGE_SIZE + i := by
    intro page hpage
    rw [covers_iff, hg.start, hg.stop] at hpage
    refine ⟨page - wrappingAdd g.vaddr bias / PAGE_SIZE, ?_, ?_⟩ <;> unfold pageUp PAGE_SIZE at * <;> omega
  refine ⟨h.laid.push hg.aligned hg.user hg.pos fun r hr => ?_, fun r hr => ?_, fun r hr page hpage => ?_⟩
  · by_contra hmeet
    -- the first page that both regions have
    have hr1 := (h.laid.tidy.aligned r hr).1
    have hg1 := hg.aligned.1
    have hrpos : r.start < r.stop := Nat.lt_add_of_pos_right (h.laid.pos r hr)
    have hgpos : (g.region inode bias).start < (g.region inode bias).stop := Nat.lt_add_of_pos_right hg.pos
    unfold Apart at hmeet
    obtain ⟨page, hpage⟩ : ∃ page, page * PAGE_SIZE = max r.start (g.region inode bias).start := by
      refine ⟨max r.start (g.region inode bias).start / PAGE_SIZE, ?_⟩
      unfold PAGE_SIZE at *
      omega
    have hin : r.covers (page * PAGE_SIZE) = true := by
      rw [covers_iff]
      omega
    obtain ⟨i, hi, rfl⟩ := hcov page (by rw [covers_iff]; omega)
    have hsome := h.mapped r hr _ hin
    rw [hmap.fresh i hi] at hsome
    cases hsome
  · rcases mem_append.1 hr with hr | hr
    · exact h.off r hr
    · rw [mem_singleton.1 hr]
      exact hg.off
  · rcases mem_append.1 hr with hr | hr
    · exact hmap.still page (h.mapped r hr page hpage)
    · rw [mem_singleton.1 hr] at hpage
      obtain ⟨i, hi, rfl⟩ := hcov page hpage
      exact hmap.mapped i hi

theorem loaded_mapElfSegment {g : LoadSegment}
    (hplace : g.inPlace bias = true) {p p' : Loading} (h : Loaded root p.regions p.machine)
    (hr : mapElfSegment core root inode bias tablesOk p g = some p') : Loaded root p'.regions p'.machine := by
  unfold mapElfSegment at hr
  by_cases hmem : g.memSize = 0
  · rw [if_pos hmem] at hr
    cases hr
    exact h
  have hg := LoadSegment.placed inode hmem hplace
  have hlast : wrappingPred (wrappingAdd (wrappingAdd g.vaddr bias) g.memSize) =
      wrappingAdd g.vaddr bias + g.memSize - 1 := by
    rw [wrappingAdd_eq hg.sum]
    exact wrappingPred_eq (by omega) hg.sum
  dsimp only at hr
  rw [hlast] at hr
  split_ifs at hr with hcan
  obtain ⟨s', hmap, rfl⟩ := Option.map_eq_some_iff.1 hr
  exact h.push hg (mapFresh_spec hmap)

theorem loaded_mapElfSegments {gs : List LoadSegment}
    (hgs : ∀ g ∈ gs, g.inPlace bias = true) {p' : Loading} (h : Loaded root rs s)
    (hr : mapElfSegments core root inode bias tablesOk gs rs s = some p') : Loaded root p'.regions p'.machine := by
  have hfold : ∀ p : Loading, Loaded root p.regions p.machine →
      gs.foldlM (mapElfSegment core root inode bias tablesOk) p = some p' → Loaded root p'.regions p'.machine := by
    clear hr
    induction gs with
    | nil =>
      intro p hp hr
      cases hr
      exact hp
    | cons g gs ih =>
      intro p hp hr
      obtain ⟨p1, hp1, hr⟩ := Option.bind_eq_some_iff.1 hr
      have hload := loaded_mapElfSegment (hgs g mem_cons_self) hp hp1
      exact ih (fun g' hg' => hgs g' (mem_cons_of_mem _ hg')) p1 hload hr
  exact hfold ⟨0, rs, s⟩ h hr

theorem laid_execve {x : Program} {s' : Machine} (hx : x.inPlace = true)
    (hr : s.execve core root x tablesOk = some s') : (s'.spaces root).Laid := by
  unfold Program.inPlace at hx
  rw [and_eq_true, all_eq_true] at hx
  obtain ⟨main, hmain, hr⟩ := Option.bind_eq_some_iff.1 hr
  obtain ⟨loaded, hinterp, hr⟩ := Option.bind_eq_some_iff.1 hr
  obtain ⟨-, -, hr⟩ := Option.bind_eq_some_iff.1 hr
  obtain ⟨s3, -, hr⟩ := Option.bind_eq_some_iff.1 hr
  cases hr
  have hloaded := loaded_mapElfSegments hx.1 (Loaded.nil root s) hmain
  have hloaded : Loaded root loaded.regions loaded.machine := by
    cases hi : x.interpreter with
    | none =>
      rw [hi] at hinterp
      cases hinterp
      exact hloaded
    | some i =>
      rw [hi] at hinterp hx
      exact loaded_mapElfSegments (all_eq_true.1 hx.2) hloaded hinterp
  rw [spaces_setSpace]
  have hstack : stackRegion.Aligned := by constructor <;> decide +kernel
  have hlaid := hloaded.laid.push hstack (by decide +kernel) (by decide +kernel) hloaded.off
  exact { hlaid with }

end Machine

/-! ## Runs -/

inductive RegionEvent where
  | mmap (core : ℕ) (m : MmapArgs) (tablesOk : ℕ → Bool)
  | munmap (core addr length : ℕ)
  | mprotect (addr length prot : ℕ)
  | mremap (core : ℕ) (m : MremapArgs) (tablesOk : ℕ → Bool)
  | shmat (frames : List ℕ) (shmaddr shmflg : ℕ) (tablesOk : ℕ → Bool)
  | brk (core startBrk addr : ℕ) (tables : Tables)
  | fault (t : Trap)

namespace Machine

variable {s : Machine} {core root : ℕ}

/-- an operation of the process with the address space `root`; one that panics changes nothing -/
def regionStep (root : ℕ) (s : Machine) : RegionEvent → Machine
  | .mmap core m tablesOk => (s.mmap core root m tablesOk).2
  | .munmap core addr length => (s.munmap core root addr length).2
  | .mprotect addr length prot => (s.mprotect root addr length prot).2
  | .mremap core m tablesOk => ((s.mremap core root m tablesOk).map (·.2)).getD s
  | .shmat frames shmaddr shmflg tablesOk => ((s.shmat root frames shmaddr shmflg tablesOk).map (·.2)).getD s
  | .brk core startBrk addr tables => (s.sysBrk core root startBrk addr tables).machine s
  | .fault t => (s.handle { t with root := root }).2

/-- the operation finds its place free -/
def clear (root : ℕ) (s : Machine) : RegionEvent → Bool
  | .mremap _ m _ => mremapClear (s.spaces root) m
  | .shmat frames shmaddr shmflg _ => shmatClear (s.spaces root) frames shmaddr shmflg
  | .fault t => s.faultClear { t with root := root }
  | _ => true

theorem laid_regionStep (root : ℕ) (s : Machine) (e : RegionEvent) (h : (s.spaces root).Laid) (hclear : s.clear root e = true) :
    ((s.regionStep root e).spaces root).Laid := by
  cases e with
  | mmap core m tablesOk => exact laid_mmap h core m tablesOk
  | munmap core addr length => exact laid_munmap h core addr length
  | mprotect addr length prot => exact laid_mprotect h addr length prot
  | mremap core m tablesOk =>
    dsimp only [clear] at hclear
    dsimp only [regionStep]
    cases hr : s.mremap core root m tablesOk with
    | none => exact h
    | some result =>
      exact laid_mremap h hclear hr
  | shmat frames shmaddr shmflg tablesOk =>
    dsimp only [regionStep]
    cases hr : s.shmat root frames shmaddr shmflg tablesOk with
    | none => exact h
    | some result =>
      exact laid_shmat h hclear hr
  | brk core startBrk addr tables => exact laid_sysBrk h core startBrk addr tables
  | fault t => exact laid_handle (t := { t with root := root }) h hclear

/-- **Regions do not overlap.** A program whose segments are in their place starts with regions that are apart and in user
space, and they are so after every run whose operations find their place free. -/
theorem regions_apart {x : Program} {tablesOk : ℕ → Bool} {s s0 : Machine} (hx : x.inPlace = true)
    (hexec : s.execve core root x tablesOk = some s0) {es : List RegionEvent}
    (hes : Each (regionStep root) (fun s e => s.clear root e = true) s0 es) :
    ((run (regionStep root) s0 es).spaces root).mmapRegions.Pairwise Apart ∧
      ∀ r ∈ ((run (regionStep root) s0 es).spaces root).mmapRegions, r.stop ≤ USER_TOP := by
  have hlaid : ((run (regionStep root) s0 es).spaces root).Laid :=
    invariant (I := fun s => (s.spaces root).Laid) (laid_regionStep root) (laid_execve hx hexec) hes
  exact ⟨hlaid.tidy.apart, hlaid.user⟩

/-! ## A program of one page -/

/-- one page of code and one of arguments -/
def onePage : Program := ⟨⟨0, 2, false, 0⟩, false, [⟨0x400000, 0, 4096, true, false, true⟩], none, 1⟩

/-- an anonymous mapping of one page at a hint -/
def hinted (addr prot : ℕ) : RegionEvent := .mmap 0 ⟨addr, 4096, prot, 0x22, -1, 0, none⟩ fun _ => true

/-- `mremap` to two pages, which may move the mapping -/
def enlarge (addr : ℕ) : RegionEvent := .mremap 0 ⟨addr, 4096, 8192, 1, 0⟩ fun _ => true

/-- a push below the page at the address -/
def push (addr : ℕ) : RegionEvent := .fault ⟨⟨0, 1, addr, true, false, true, true⟩, false, false, true, addr⟩

instance : DecidableRel Apart := fun r r' => inferInstanceAs (Decidable (r.stop ≤ r'.start ∨ r'.stop ≤ r.start))

/-- a mapping that grows in place, one that moves, and a stack that grows into free pages -/
theorem regions_apart_onePage : ∃ s0, (codePage [10, 11, 12]).execve 0 1 onePage (fun _ => true) = some s0 ∧
    ((run (regionStep 1) s0 [hinted 0x600000000000 3, enlarge 0x600000000000, hinted 0x600000003000 1,
      enlarge 0x600000001000, push 0x600000002000, .munmap 0 0x600000000000 4096]).spaces 1).mmapRegions.Pairwise Apart := by
  have hrun : ((codePage [10, 11, 12]).execve 0 1 onePage fun _ => true).map (fun s0 =>
      decide (Each (regionStep 1) (fun s e => s.clear 1 e = true) s0 [hinted 0x600000000000 3, enlarge 0x600000000000,
        hinted 0x600000003000 1, enlarge 0x600000001000, push 0x600000002000, .munmap 0 0x600000000000 4096])) =
      some true := by decide +kernel
  obtain ⟨s0, hexec, hclear⟩ := Option.map_eq_some_iff.1 hrun
  exact ⟨s0, hexec, (regions_apart (by decide +kernel) hexec (of_decide_eq_true hclear)).1⟩

/-- a mapping is moved to where a hint has put another; a stack grows over a mapping that cannot be written -/
theorem regions_overlap :
    (∃ s0, (codePage [10, 11]).execve 0 1 onePage (fun _ => true) = some s0 ∧
      ¬ ((run (regionStep 1) s0 [hinted 0x500000000000 3, hinted 0x600000000000 3, hinted 0x600000001000 3,
        enlarge 0x600000000000]).spaces 1).mmapRegions.Pairwise Apart) ∧
    ∃ s0, (codePage [10, 11, 12]).execve 0 1 onePage (fun _ => true) = some s0 ∧
      ¬ ((run (regionStep 1) s0 [hinted 0x600000000000 3, hinted 0x600000001000 1,
        push 0x600000002000]).spaces 1).mmapRegions.Pairwise Apart := by
  have hmove : ((codePage [10, 11]).execve 0 1 onePage fun _ => true).map (fun s0 =>
      decide (((run (regionStep 1) s0 [hinted 0x500000000000 3, hinted 0x600000000000 3, hinted 0x600000001000 3,
        enlarge 0x600000000000]).spaces 1).mmapRegions.Pairwise Apart)) = some false := by decide +kernel
  have hstack : ((codePage [10, 11, 12]).execve 0 1 onePage fun _ => true).map (fun s0 =>
      decide (((run (regionStep 1) s0 [hinted 0x600000000000 3, hinted 0x600000001000 1,
        push 0x600000002000]).spaces 1).mmapRegions.Pairwise Apart)) = some false := by decide +kernel
  obtain ⟨s0, hexec, hnot⟩ := Option.map_eq_some_iff.1 hmove
  obtain ⟨s1, hexec1, hnot1⟩ := Option.map_eq_some_iff.1 hstack
  exact ⟨⟨s0, hexec, of_decide_eq_false hnot⟩, s1, hexec1, of_decide_eq_false hnot1⟩

end Machine

end Kontsnor.Memory
