/-
Regions laid out side by side.

An address space is `Laid` out if its regions are apart, on page boundaries, not empty and in user space. `munmap`, `mmap`,
`mprotect` and `brk` keep it so. The others keep it so if the place they take is free:
- `mremap` that moves a mapping takes the place where the search for gaps starts, and so does `shmat`; a hint can have put a
  mapping there (`laid_mremap`, `laid_shmat`);
- `mremap` that grows a mapping in place, and `shmat` at a given address, do not look at the end of user space.
-/
import Kontsnor.Memory.RegionCalls
import Kontsnor.Memory.FaultHandler

namespace Kontsnor.Memory

open MappedRegion List AddressSpace Option Nat

/-- the end of the lower half -/
def USER_TOP : ℕ := 2 ^ 47

structure AddressSpace.Laid (a : AddressSpace) : Prop where
  tidy : Tidy a.mmapRegions
  user : ∀ r ∈ a.mmapRegions, r.stop ≤ USER_TOP
  pos : ∀ r ∈ a.mmapRegions, 0 < r.len
  bump : a.mmapBump % PAGE_SIZE = 0

/-! ## Regions that come, go and grow -/

namespace AddressSpace.Laid

variable {a : AddressSpace}

theorem rebump (h : a.Laid) {bump : ℕ} (hbump : bump % PAGE_SIZE = 0) : AddressSpace.Laid { a with mmapBump := bump } :=
  ⟨h.tidy, h.user, h.pos, hbump⟩

theorem push (h : a.Laid) {r : MappedRegion} (hr : r.Aligned) (huser : r.stop ≤ USER_TOP) (hpos : 0 < r.len)
    (hfree : ∀ r' ∈ a.mmapRegions, r'.Apart r) : AddressSpace.Laid { a with mmapRegions := a.mmapRegions ++ [r] } where
  tidy := h.tidy.append hr hfree
  user x hx := by
    rcases mem_append.1 hx with hx | hx
    · exact h.user x hx
    · rw [mem_singleton.1 hx]
      exact huser
  pos x hx := by
    rcases mem_append.1 hx with hx | hx
    · exact h.pos x hx
    · rw [mem_singleton.1 hx]
      exact hpos
  bump := h.bump

theorem modify (h : a.Laid) {i : ℕ} {r : MappedRegion} {f : MappedRegion → MappedRegion} (hi : a.mmapRegions[i]? = some r)
    (hf : (f r).Aligned) (huser : (f r).stop ≤ USER_TOP) (hpos : 0 < (f r).len)
    (hfree : ∀ x ∈ a.mmapRegions, x.Apart r → x.Apart (f r)) :
    AddressSpace.Laid { a with mmapRegions := a.mmapRegions.modify i f } := by
  obtain ⟨hlt, rfl⟩ := List.getElem?_eq_some_iff.1 hi
  have hsplit : a.mmapRegions = a.mmapRegions.take i ++ a.mmapRegions[i] :: a.mmapRegions.drop (i + 1) := by
    rw [cons_getElem_drop_succ, take_append_drop]
  have hnew : a.mmapRegions.modify i f = a.mmapRegions.take i ++ f a.mmapRegions[i] :: a.mmapRegions.drop (i + 1) :=
    modify_eq_take_cons_drop hlt
  have hmem : ∀ x ∈ a.mmapRegions.modify i f, x = f a.mmapRegions[i] ∨ x ∈ a.mmapRegions := by
    intro x hx
    rw [hnew, mem_append, mem_cons] at hx
    rcases hx with hx | hx | hx
    · exact .inr (mem_of_mem_take hx)
    · exact .inl hx
    · exact .inr (mem_of_mem_drop hx)
  have htidy := h.tidy
  rw [hsplit] at htidy
  refine ⟨?_, fun x hx => ?_, fun x hx => ?_, h.bump⟩
  · rw [hnew]
    obtain ⟨-, hdrop, hcross⟩ := pairwise_append.1 htidy.apart
    obtain ⟨hhead, -⟩ := pairwise_cons.1 hdrop
    refine htidy.replace hf fun x hx => ?_
    rcases mem_append.1 hx with hx | hx
    · exact hfree x (mem_of_mem_take hx) (hcross x hx _ mem_cons_self)
    · exact hfree x (mem_of_mem_drop hx) (hhead x hx).symm
  · rcases hmem x hx with rfl | hx
    · exact huser
    · exact h.user x hx
  · rcases hmem x hx with rfl | hx
    · exact hpos
    · exact h.pos x hx

theorem highestRemaining_mod {rs : List MappedRegion} (h : ∀ r ∈ rs, r.Aligned) :
    highestRemaining rs % PAGE_SIZE = 0 := by
  refine foldlRecOn (motive := fun m => m % PAGE_SIZE = 0) _ max (by decide) fun m hm x hx => ?_
  rcases max_choice m x with hmax | hmax <;> rw [hmax]
  · exact hm
  · obtain ⟨r, hr, rfl⟩ := mem_map.1 hx
    exact (h r (mem_of_mem_filter hr)).stop_mod

theorem unmapRange (h : a.Laid) {lo hi : ℕ} (hle : lo ≤ hi) (hlo : lo % PAGE_SIZE = 0) (hhi : hi % PAGE_SIZE = 0) :
    AddressSpace.Laid { a with mmapRegions := Memory.unmapRange lo hi a.mmapRegions } where
  tidy := h.tidy.unmapRange hle hlo hhi
  user x hx := by
    obtain ⟨r, hr, hx⟩ := (mem_unmapRange h.tidy.apart).1 hx
    exact (cutRegion_within hx).2.trans (h.user r hr)
  pos x hx := by
    obtain ⟨r, hr, hx⟩ := (mem_unmapRange h.tidy.apart).1 hx
    exact cutRegion_pos (h.pos r hr) hx
  bump := h.bump

theorem unmap (h : a.Laid) {lo hi : ℕ} (hle : lo ≤ hi) (hlo : lo % PAGE_SIZE = 0) (hhi : hi % PAGE_SIZE = 0) :
    (a.unmap lo hi).Laid := by
  have hrest := h.unmapRange hle hlo hhi
  refine hrest.rebump ?_
  split_ifs
  · exact highestRemaining_mod hrest.tidy.aligned
  · exact h.bump

end AddressSpace.Laid

/-! ## What the page tables have to do with it -/

namespace Machine

variable {s : Machine} {core root : ℕ}

theorem spaces_movePages (root oldPage newPage : ℕ) (tablesOk : ℕ → Bool) {is : List ℕ} (s : Machine) :
    (is.foldl (movePage root oldPage newPage tablesOk) s).spaces = s.spaces := by
  induction is generalizing s with
  | nil => rfl
  | cons i is ih =>
    rw [foldl_cons, ih]
    unfold movePage
    split
    · rfl
    · split
      · rfl
      · next h => exact ((onlyEntries_mapUserPage h).spaces :)

theorem spaces_mapSegment {flags : PageFlags} {tablesOk : ℕ → Bool} {frames : List ℕ} {vaddr : ℕ} {s' : Machine}
    {e : Except Errno Unit} (h : mapSegment root flags tablesOk frames vaddr s = some (e, s')) : s'.spaces = s.spaces := by
  induction frames generalizing vaddr s with
  | nil =>
    cases h
    rfl
  | cons frame frames ih =>
    unfold mapSegment at h
    by_cases hover : 2 ^ 64 ≤ vaddr
    · rw [if_pos hover] at h
      cases h
      rfl
    rw [if_neg hover] at h
    by_cases hcan : (!canonical vaddr) = true
    · rw [if_pos hcan] at h
      cases h
    rw [if_neg hcan] at h
    cases hmap : s.mapUserPage root (vaddr / PAGE_SIZE) frame flags (tablesOk (vaddr / PAGE_SIZE)) with
    | none =>
      rw [hmap] at h
      cases h
      rfl
    | some s1 =>
      rw [hmap] at h
      exact (ih h).trans (onlyEntries_mapUserPage hmap).spaces

theorem munmapLen_spec {addr length alignedLen : ℕ} (h : munmapLen addr length = some alignedLen) :
    UserRange addr alignedLen ∧ alignedLen % PAGE_SIZE = 0 ∧ 0 < alignedLen := by
  unfold munmapLen at h
  split_ifs at h with hbad
  obtain ⟨hlen, hin⟩ := filter_eq_some_iff.1 h
  simp only [Bool.and_eq_true, decide_eq_true_eq] at hin
  obtain ⟨hmod, hpos⟩ := alignLen_spec (by omega) hlen
  exact ⟨⟨by omega, hin.2⟩, hmod, hpos⟩

theorem munmapLen_aligned {addr length alignedLen : ℕ} (hmod : length % PAGE_SIZE = 0)
    (h : munmapLen addr length = some alignedLen) : alignedLen = length := by
  unfold munmapLen at h
  split_ifs at h
  obtain ⟨hlen, -⟩ := filter_eq_some_iff.1 h
  unfold alignLen at hlen
  split_ifs at hlen
  rw [← some.inj hlen]
  unfold pageUp PAGE_SIZE at *
  omega

theorem laid_munmap (h : (s.spaces root).Laid) (core addr length : ℕ) :
    ((s.munmap core root addr length).2.spaces root).Laid := by
  unfold munmap
  cases hlen : munmapLen addr length with
  | none => exact h
  | some alignedLen =>
    obtain ⟨hrange, hmod, -⟩ := munmapLen_spec hlen
    rw [spaces_setSpace]
    exact h.unmap (le_add_right _ _) hrange.aligned (page_add hrange.aligned hmod)

/-! ## `mmap`, `mprotect` and `brk` -/

theorem spaces_mapVrams (root firstPage : ℕ) (base : UInt64) (tablesOk : ℕ → Bool) (is : List ℕ) :
    (is.foldl (mapVram root firstPage base tablesOk) s).spaces = s.spaces := by
  induction is generalizing s with
  | nil => rfl
  | cons i is ih =>
    rw [foldl_cons, ih]
    exact (mapUserPage_same s root _ _ _ _).2

theorem spaces_protectPages (root prot : ℕ) (pages : List ℕ) :
    (pages.foldl (protectPage root prot) s).spaces = s.spaces := by
  induction pages generalizing s with
  | nil => rfl
  | cons page pages ih =>
    rw [foldl_cons, ih]
    rfl

theorem laid_mmap (h : (s.spaces root).Laid) (core : ℕ) (m : MmapArgs) (tablesOk : ℕ → Bool) :
    ((s.mmap core root m tablesOk).2.spaces root).Laid := by
  unfold mmap
  cases hmap : (s.spaces root).mmap m with
  | error e => exact h
  | ok found =>
    obtain ⟨r, a⟩ := found
    obtain ⟨resolved, alignedLen, bump, rfl, rfl, hup, hmod, hpos, hrange, hbump, hfree⟩ := mmap_spec h.bump hmap
    dsimp only
    -- the frame buffer changes entries only
    rw [apply_ite (fun s : Machine => s.spaces root), spaces_mapVrams, ite_self, spaces_setSpace]
    set rs := if m.replaces = true then
      unmapRange resolved (resolved + alignedLen) (s.spaces root).mmapRegions else (s.spaces root).mmapRegions with hrs
    have hlaid : AddressSpace.Laid { s.spaces root with mmapRegions := rs } := by
      rw [hrs]
      split_ifs
      · exact h.unmapRange (le_add_right _ _) hrange.aligned (page_add hrange.aligned hmod)
      · exact h
    have hout := (h.tidy.replaced hmod hrange hfree hrs).2.1
    have huser : resolved + alignedLen ≤ USER_TOP := hrange.below.trans (by decide)
    exact (hlaid.push (r := ⟨resolved, alignedLen, m.file, m.offset, m.isShared, m.prot, false⟩) ⟨hrange.aligned, hmod⟩
      huser hpos hout).rebump hbump

theorem laid_mprotect (h : (s.spaces root).Laid) (addr length prot : ℕ) :
    ((s.mprotect root addr length prot).2.spaces root).Laid := by
  rcases s.mprotect_cases root addr length prot with heq | ⟨hmod, hpos, heq⟩ <;> rw [heq]
  · exact h
  have hlt : addr < addr + pageUp length := Nat.lt_add_of_pos_right hpos
  have hstop := page_add hmod (pageUp_mod length)
  rw [spaces_protectPages, spaces_setSpace]
  refine ⟨h.tidy.protect hlt hmod hstop, fun x hx => ?_, fun x hx => ?_, h.bump⟩
  · obtain ⟨r, hr, hx⟩ := mem_flatMap.1 hx
    exact (protectRegion_spec hlt hmod hstop (h.tidy.aligned r hr) hx).1.2.trans (h.user r hr)
  · obtain ⟨r, hr, hx⟩ := mem_flatMap.1 hx
    have hstop : r.start < r.stop := Nat.lt_add_of_pos_right (h.pos r hr)
    rcases mem_protectRegion hx with hx | ⟨rfl, hmeet⟩
    · exact cutRegion_pos (h.pos r hr) hx
    · exact Nat.sub_pos_of_lt (by omega)

end Machine

/-- the machine after `brk`; a panic leaves it as it is -/
def BrkResult.machine (s : Machine) : BrkResult → Machine
  | .panic => s
  | .returned _ s' => s'

namespace Machine

variable {s : Machine} {core root : ℕ}

theorem laid_growHeap (h : (s.spaces root).Laid) (core n first brk : ℕ) (tables : Tables) {moved : Machine → BrkResult}
    (hmoved : ∀ s', (((moved s').machine s).spaces root).Laid) :
    ((((growHeap core root n first tables s).finish brk moved).machine s).spaces root).Laid := by
  rcases growHeap_spec core root n first tables s with ⟨k, -, -, ⟨hr, -⟩ | ⟨s', hgrown, ⟨hr, -⟩ | ⟨hr, -⟩⟩⟩ <;> rw [hr]
  · exact h
  · exact hmoved s'
  · exact hgrown.spaces ▸ h

theorem laid_sysBrk (h : (s.spaces root).Laid) (core startBrk addr : ℕ) (tables : Tables) :
    (((s.sysBrk core root startBrk addr tables).machine s).spaces root).Laid := by
  have hmoved : ∀ s' : Machine, ((BrkResult.returned addr (s'.setSpace root { s.spaces root with brk := addr })).machine
      s |>.spaces root).Laid := by
    intro s'
    rw [BrkResult.machine, spaces_setSpace]
    exact { h with }
  unfold sysBrk
  dsimp only
  split_ifs with h0 h1 h2 h3 h4 h5 h6
  · exact h
  · exact h
  · exact h
  · exact h
  · exact laid_growHeap h core _ _ _ tables hmoved
  · exact h
  · cases hshrink : shrinkHeap core root (wrapUp (s.spaces root).brk / PAGE_SIZE - wrapUp addr / PAGE_SIZE)
        (wrapUp addr / PAGE_SIZE) s with
    | none => exact h
    | some s' => exact hmoved s'
  · exact hmoved s

end Machine

/-! ## `mremap` -/

/-- no region meets the range -/
def rangeFree (rs : List MappedRegion) (lo hi : ℕ) : Bool := rs.all fun r => r.stop ≤ lo || hi ≤ r.start

theorem rangeFree_iff {rs : List MappedRegion} {lo hi : ℕ} :
    rangeFree rs lo hi = true ↔ ∀ r ∈ rs, r.stop ≤ lo ∨ hi ≤ r.start := by
  simp [rangeFree]

/-- the regions that `munmap` leaves -/
def AddressSpace.regionsWithout (a : AddressSpace) (addr length : ℕ) : List MappedRegion :=
  (munmapLen addr length).elim a.mmapRegions fun alignedLen => unmapRange addr (addr + alignedLen) a.mmapRegions

/-- `mremap` finds its place free: a mapping that grows in place ends in user space, and one that moves is put where nothing
is -/
def mremapClear (a : AddressSpace) (m : MremapArgs) : Bool :=
  match alignLen m.oldSize, alignLen m.newSize with
  | some oldLen, some newLen =>
    if newLen ≤ oldLen then true
    else if (a.growInplace m.oldAddress oldLen newLen).isSome then m.oldAddress + newLen ≤ USER_TOP
    else !m.mayMove || m.isFixed ||
      rangeFree (a.regionsWithout m.oldAddress oldLen) a.mmapBump (a.mmapBump + newLen)
  | _, _ => true

theorem wrappingAdd_eq {a b : ℕ} (h : a + b ≤ USER_TOP) : wrappingAdd a b = a + b :=
  mod_eq_of_lt (h.trans_lt (by decide))

theorem wrappingPred_eq {a : ℕ} (hpos : 0 < a) (h : a ≤ USER_TOP) : wrappingPred a = a - 1 := by
  unfold wrappingPred USER_TOP at *
  omega

namespace AddressSpace.Laid

variable {a : AddressSpace} {oldAddress oldLen newLen : ℕ}

theorem grownRegion_eq {r : MappedRegion} (hstart : r.start ≤ oldAddress) (hend : oldAddress + newLen ≤ USER_TOP)
    (hr : r.stop ≤ USER_TOP) : grownRegion oldAddress newLen r =
      if r.stop < oldAddress + newLen then { r with len := oldAddress - r.start + newLen } else r := by
  have hlen : wrappingAdd (oldAddress - r.start) newLen = oldAddress - r.start + newLen := wrappingAdd_eq (by omega)
  have hsum : r.start + (oldAddress - r.start + newLen) = oldAddress + newLen := by omega
  have hstop : wrappingAdd r.start r.len = r.stop := wrappingAdd_eq hr
  unfold grownRegion
  dsimp only
  rw [hlen, hstop, wrappingAdd_eq (hsum.trans_le hend), hsum]

theorem growInplace (h : a.Laid) {a' : AddressSpace} (hold : oldAddress % PAGE_SIZE = 0) (hmod : newLen % PAGE_SIZE = 0)
    (hpos : 0 < oldLen) (hlt : oldLen < newLen) (hend : oldAddress + newLen ≤ USER_TOP)
    (hgrow : a.growInplace oldAddress oldLen newLen = some a') : a'.Laid := by
  unfold AddressSpace.growInplace at hgrow
  split_ifs at hgrow with hcan
  obtain ⟨i, hi, hgrow⟩ := bind_eq_some_iff.1 hgrow
  obtain ⟨r, hr, rfl⟩ := map_eq_some_iff.1 hgrow
  have hmem : r ∈ a.mmapRegions := mem_of_getElem? hr
  have hruser := h.user r hmem
  have hralign := h.tidy.aligned r hmem
  obtain ⟨hstart, hcov⟩ : r.start ≤ oldAddress ∧ oldAddress + oldLen ≤ r.stop := by
    obtain ⟨hi', hcov, -⟩ := findIdx?_eq_some_iff_getElem.1 hi
    obtain ⟨_, rfl⟩ := List.getElem?_eq_some_iff.1 hr
    rw [coversOld, Bool.and_eq_true, decide_eq_true_eq, decide_eq_true_eq, wrappingAdd_eq (by omega),
      wrappingAdd_eq hruser] at hcov
    exact hcov
  have hgrown := grownRegion_eq hstart hend hruser
  have hlaid : AddressSpace.Laid { a with mmapRegions := a.mmapRegions.modify i (grownRegion oldAddress newLen) } := by
    by_cases hlonger : r.stop < oldAddress + newLen
    · rw [if_pos hlonger] at hgrown
      have hstop : (grownRegion oldAddress newLen r).stop = oldAddress + newLen := by
        rw [hgrown]
        change r.start + (oldAddress - r.start + newLen) = _
        omega
      refine h.modify hr ?_ (hstop.trans_le hend) ?_ fun x hx hapart => ?_
      · rw [hgrown]
        refine ⟨hralign.1, ?_⟩
        have hs := hralign.1
        unfold PAGE_SIZE at *
        dsimp only
        omega
      · rw [hgrown]
        dsimp only
        omega
      · -- another region does not cover the range, so it was looked at
        have hxuser := h.user x hx
        have hxpos := h.pos x hx
        have hxstop : x.stop = x.start + x.len := rfl
        have hx := all_eq_true.1 hcan x hx
        rw [Bool.or_eq_true, Bool.or_eq_true, coversOld, Bool.and_eq_true, decide_eq_true_eq, decide_eq_true_eq,
          decide_eq_true_eq, decide_eq_true_eq, wrappingAdd_eq (by omega), wrappingAdd_eq hxuser,
          wrappingAdd_eq hend] at hx
        unfold Apart at hapart ⊢
        rw [hstop, hgrown]
        dsimp only
        omega
    · rw [if_neg hlonger] at hgrown
      refine h.modify hr ?_ ?_ ?_ fun x hx hapart => ?_
      · rw [hgrown]
        exact hralign
      · rw [hgrown]
        exact hruser
      · rw [hgrown]
        exact h.pos r hmem
      · rw [hgrown]
        exact hapart
  refine hlaid.rebump ?_
  split_ifs with hbump
  · rw [hgrown]
    split_ifs with hlonger
    · dsimp only
      rw [wrappingAdd_eq (by omega)]
      unfold PAGE_SIZE at *
      omega
    · rw [wrappingAdd_eq hruser]
      exact hralign.stop_mod
  · exact h.bump

theorem mem_regionsWithout (hrs : a.mmapRegions.Pairwise Apart) {addr length : ℕ} {x : MappedRegion}
    (h : x ∈ a.regionsWithout addr length) :
    ∃ r ∈ a.mmapRegions, x.Within r := by
  unfold regionsWithout at h
  cases hlen : munmapLen addr length with
  | none =>
    rw [hlen] at h
    exact ⟨x, h, le_rfl, le_rfl⟩
  | some alignedLen =>
    rw [hlen] at h
    obtain ⟨r, hr, hx⟩ := (mem_unmapRange hrs).1 h
    exact ⟨r, hr, cutRegion_within hx⟩

end AddressSpace.Laid

namespace Machine

variable {s : Machine} {core root : ℕ}

theorem regions_munmap (s : Machine) (core root addr length : ℕ) :
    ((s.munmap core root addr length).2.spaces root).mmapRegions = (s.spaces root).regionsWithout addr length := by
  unfold munmap regionsWithout
  cases hlen : munmapLen addr length with
  | none => rfl
  | some alignedLen =>
    rw [spaces_setSpace]
    rfl

variable {m : MremapArgs} {s' : Machine} {tablesOk : ℕ → Bool} {e : Except Errno ℕ}

section

variable (h : (s.spaces root).Laid)
include h

/-- a target is a range of pages of user space; a fixed one is free, and another is where the search for gaps starts -/
theorem moveTarget_spec {oldLen newLen target : ℕ}
    (hmod : newLen % PAGE_SIZE = 0) (ht : s.moveTarget core root m oldLen newLen = (.ok target, s')) :
    (s'.spaces root).Laid ∧ UserRange target newLen ∧
    (m.isFixed = true ∧ rangeFree (s'.spaces root).mmapRegions target (target + newLen) = true ∨
      m.isFixed = false ∧ target = (s.spaces root).mmapBump ∧
        (s'.spaces root).mmapRegions = (s.spaces root).mmapRegions) := by
  unfold moveTarget at ht
  by_cases hfixed : m.isFixed = true
  · rw [if_pos hfixed] at ht
    by_cases halign : m.newAddress % PAGE_SIZE ≠ 0
    · rw [if_pos halign] at ht
      cases ht
    split_ifs at ht with hold
    · obtain ⟨hok, hs⟩ := Prod.mk.inj ht
      have hlaid := laid_munmap h core m.newAddress newLen
      have hrs := regions_munmap s core root m.newAddress newLen
      unfold regionsWithout at hrs
      cases hlen : munmapLen m.newAddress newLen with
      | none =>
        unfold munmap at hok
        rw [hlen] at hok
        cases hok
      | some alignedLen =>
        have htarget : m.newAddress = target := by
          unfold munmap at hok
          rw [hlen] at hok
          exact Except.ok.inj hok
        rw [hlen] at hrs
        obtain ⟨hrange, -, -⟩ := munmapLen_spec hlen
        cases munmapLen_aligned hmod hlen
        subst htarget hs
        refine ⟨hlaid, hrange, .inl ⟨hfixed, ?_⟩⟩
        rw [hrs, rangeFree_iff]
        exact fun r hr => outside_of_unmapRange h.tidy.apart hr
    · cases ht
  · rw [if_neg hfixed] at ht
    dsimp only at ht
    split_ifs at ht with hend
    · cases ht
    · obtain ⟨hok, rfl⟩ := Prod.mk.inj ht
      cases Except.ok.inj hok
      rw [spaces_setSpace]
      exact ⟨h.rebump (page_add h.bump hmod), ⟨h.bump, by omega⟩, .inr ⟨Bool.eq_false_iff.2 hfixed, rfl, rfl⟩⟩

theorem moveTarget_error {oldLen newLen : ℕ} {e : Errno}
    (ht : s.moveTarget core root m oldLen newLen = (.error e, s')) : (s'.spaces root).Laid := by
  unfold moveTarget at ht
  dsimp only at ht
  split_ifs at ht
  · cases ht
    exact h
  · obtain ⟨-, rfl⟩ := Prod.mk.inj ht
    exact laid_munmap h core _ _
  · cases ht
    exact h
  · cases ht
    exact h
  · cases ht

theorem laid_moveMapping {oldLen newLen : ℕ}
    (hmod : newLen % PAGE_SIZE = 0) (hpos : 0 < newLen)
    (hclear : (!m.mayMove || m.isFixed ||
      rangeFree ((s.spaces root).regionsWithout m.oldAddress oldLen) (s.spaces root).mmapBump
        ((s.spaces root).mmapBump + newLen)) = true)
    (hr : s.moveMapping core root m oldLen newLen tablesOk = some (e, s')) : (s'.spaces root).Laid := by
  unfold moveMapping at hr
  by_cases hmove : (!m.mayMove) = true
  · rw [if_pos hmove] at hr
    cases hr
    exact h
  rw [if_neg hmove] at hr
  cases ht : s.moveTarget core root m oldLen newLen with
  | mk r s1 =>
    rw [ht] at hr
    cases r with
    | error e' =>
      cases hr
      exact moveTarget_error h ht
    | ok target =>
      obtain ⟨hlaid, hrange, hfree⟩ := moveTarget_spec h hmod ht
      dsimp only at hr
      cases hfind : (s1.spaces root).mmapRegions.find? (·.coversOld m.oldAddress oldLen) with
      | none =>
        rw [hfind] at hr
        cases hr
        exact hlaid
      | some r =>
        rw [hfind] at hr
        split_ifs at hr with hcan
        cases hr
        rw [spaces_setSpace]
        set s2 := (range (oldLen / PAGE_SIZE)).foldl
          (movePage root (m.oldAddress / PAGE_SIZE) (target / PAGE_SIZE) tablesOk) s1 with hs2
        have hspaces : s2.spaces = s1.spaces := spaces_movePages root _ _ tablesOk s1
        have hlaid2 : (s2.spaces root).Laid := by
          rw [hspaces]
          exact hlaid
        refine (laid_munmap hlaid2 core m.oldAddress oldLen).push (r := r.moved m.oldAddress target newLen)
          ⟨hrange.aligned, hmod⟩ (hrange.below.trans (by decide)) hpos fun x hx => ?_
        rw [regions_munmap, hspaces] at hx
        rcases hfree with ⟨-, hfree⟩ | ⟨hfixed, rfl, hsame⟩
        · obtain ⟨r', hr', hw⟩ := AddressSpace.Laid.mem_regionsWithout hlaid.tidy.apart hx
          rcases rangeFree_iff.1 hfree r' hr' with hle | hle
          · exact .inl (hw.2.trans hle)
          · exact .inr (hle.trans hw.1)
        · have hmay : m.mayMove = true := by simpa using hmove
          rw [hmay, hfixed] at hclear
          unfold regionsWithout at hx hclear
          rw [hsame] at hx
          exact rangeFree_iff.1 hclear x hx

theorem laid_mremap
    (hclear : mremapClear (s.spaces root) m = true) (hr : s.mremap core root m tablesOk = some (e, s')) :
    (s'.spaces root).Laid := by
  unfold mremap at hr
  unfold mremapClear at hclear
  by_cases halign : m.oldAddress % PAGE_SIZE ≠ 0
  · rw [if_pos halign] at hr
    cases hr
    exact h
  rw [if_neg halign] at hr
  cases hold : alignLen m.oldSize with
  | none =>
    rw [hold] at hr
    cases hr
    exact h
  | some oldLen =>
    cases hnew : alignLen m.newSize with
    | none =>
      rw [hold, hnew] at hr
      cases hr
      exact h
    | some newLen =>
      rw [hold, hnew] at hr hclear
      dsimp only at hr hclear
      by_cases hzero : oldLen = 0 ∨ newLen = 0
      · rw [if_pos hzero] at hr
        cases hr
        exact h
      rw [if_neg hzero] at hr
      have hmod : newLen % PAGE_SIZE = 0 := by
        unfold alignLen at hnew
        split_ifs at hnew
        cases hnew
        exact pageUp_mod m.newSize
      by_cases hshrink : newLen < oldLen
      · rw [if_pos hshrink] at hr
        cases hr
        exact laid_munmap h core _ _
      rw [if_neg hshrink] at hr
      by_cases hgrow : oldLen < newLen
      · rw [if_pos hgrow] at hr
        rw [if_neg (by omega)] at hclear
        cases hin : (s.spaces root).growInplace m.oldAddress oldLen newLen with
        | some a =>
          rw [hin] at hr hclear
          cases hr
          rw [spaces_setSpace]
          have hend : m.oldAddress + newLen ≤ USER_TOP := by simpa using hclear
          exact h.growInplace (not_not.1 halign) hmod (by omega) hgrow hend hin
        | none =>
          rw [hin] at hr hclear
          exact laid_moveMapping h hmod (by omega) hclear hr
      · rw [if_neg hgrow] at hr
        cases hr
        exact h

end

/-! ## `shmat` -/

end Machine

/-- `shmat` finds its place free, and in user space; a segment has at least one page -/
def shmatClear (a : AddressSpace) (frames : List ℕ) (shmaddr shmflg : ℕ) : Bool :=
  match a.attachAt shmaddr shmflg (frames.length * PAGE_SIZE) with
  | .error _ => true
  | .ok (addr, _) => frames != [] && addr + frames.length * PAGE_SIZE ≤ USER_TOP &&
      rangeFree a.mmapRegions addr (addr + frames.length * PAGE_SIZE)

theorem attachAt_mod {a : AddressSpace} {shmaddr shmflg mapLen addr bump : ℕ} (hbump : a.mmapBump % PAGE_SIZE = 0)
    (hmod : mapLen % PAGE_SIZE = 0) (h : a.attachAt shmaddr shmflg mapLen = .ok (addr, bump)) :
    addr % PAGE_SIZE = 0 ∧ bump % PAGE_SIZE = 0 := by
  unfold attachAt at h
  split_ifs at h with hnull hround halign hend
  · cases h
    exact ⟨mul_mod_left _ _, hbump⟩
  · cases h
    exact ⟨not_not.1 halign, hbump⟩
  · cases h
    exact ⟨hbump, page_add hbump hmod⟩

namespace Machine

variable {s : Machine} {core root : ℕ}

theorem laid_shmat (h : (s.spaces root).Laid) {frames : List ℕ} {shmaddr shmflg : ℕ} {tablesOk : ℕ → Bool}
    {e : Except Errno ℕ} {s' : Machine} (hclear : shmatClear (s.spaces root) frames shmaddr shmflg = true)
    (hr : s.shmat root frames shmaddr shmflg tablesOk = some (e, s')) : (s'.spaces root).Laid := by
  have hmod : frames.length * PAGE_SIZE % PAGE_SIZE = 0 := mul_mod_left _ _
  unfold shmat at hr
  unfold shmatClear at hclear
  dsimp only at hr
  cases hat : (s.spaces root).attachAt shmaddr shmflg (frames.length * PAGE_SIZE) with
  | error e' =>
    rw [hat] at hr
    cases hr
    exact h
  | ok found =>
    obtain ⟨addr, bump⟩ := found
    obtain ⟨haddr, hbump⟩ := attachAt_mod h.bump hmod hat
    rw [hat] at hr hclear
    dsimp only at hr hclear
    rw [Bool.and_eq_true, Bool.and_eq_true, decide_eq_true_eq, rangeFree_iff] at hclear
    obtain ⟨⟨hne, huser⟩, hfree⟩ := hclear
    cases hmap : mapSegment root ⟨!shmReadOnly shmflg, false, true, false⟩ tablesOk frames addr
        (s.setSpace root { s.spaces root with mmapBump := bump }) with
    | none =>
      rw [hmap] at hr
      cases hr
    | some result =>
      obtain ⟨r, s1⟩ := result
      have hspaces : s1.spaces root = { s.spaces root with mmapBump := bump } := by
        rw [spaces_mapSegment hmap, spaces_setSpace]
      rw [hmap] at hr
      cases r with
      | error e' =>
        cases hr
        rw [hspaces]
        exact h.rebump hbump
      | ok u =>
        cases hr
        rw [spaces_setSpace]
        have hpos : 0 < frames.length * PAGE_SIZE := by
          have hlen : 0 < frames.length := length_pos_iff.2 (by simpa using hne)
          exact mul_pos hlen (by decide)
        exact (h.rebump hbump).push (r := shmRegion addr _ shmflg) ⟨haddr, hmod⟩ huser hpos hfree

end Machine

end Kontsnor.Memory
