/-
What is mapped at an address.

The regions of an address space are kept apart and on page boundaries (`Tidy`), so a list of regions is a partial
function from addresses: `view`, which gives the file, the offset in it, the protection and whether the mapping is
shared. The operations on regions are operations on that function.
-/
import Kontsnor.Memory.AddressSpace

namespace Kontsnor.Memory

open List Bool AddressSpace Nat

/-- what a page is mapped from -/
structure Backing where
  inode : Option MappedInode
  isShared : Bool
  offset : UInt64
  prot : ℕ

def MappedRegion.backing (r : MappedRegion) (addr : ℕ) : Backing :=
  ⟨r.inode, r.isShared, r.offset + UInt64.ofNat (addr - r.start), r.prot⟩

def view (rs : List MappedRegion) (addr : ℕ) : Option Backing := (rs.find? (·.covers addr)).map (·.backing addr)

/-- the two regions do not overlap -/
def MappedRegion.Apart (r r' : MappedRegion) : Prop := r.stop ≤ r'.start ∨ r'.stop ≤ r.start

def MappedRegion.Aligned (r : MappedRegion) : Prop := r.start % PAGE_SIZE = 0 ∧ r.len % PAGE_SIZE = 0

structure Tidy (rs : List MappedRegion) : Prop where
  apart : rs.Pairwise MappedRegion.Apart
  aligned : ∀ r ∈ rs, r.Aligned

/-! ## Views -/

namespace MappedRegion

variable {r r' : MappedRegion} {addr lo hi : ℕ}

theorem covers_iff : r.covers addr = true ↔ r.start ≤ addr ∧ addr < r.stop := by
  simp [covers]

theorem Apart.symm (h : r.Apart r') : r'.Apart r := Or.symm h

theorem Apart.not_covers (h : r.Apart r') (hr : r.covers addr = true) : r'.covers addr = false := by
  rw [covers_iff] at hr
  rw [← not_eq_true, covers_iff]
  rcases h with h | h <;> omega

theorem stop_part (h : lo ≤ hi) : (r.part lo hi).stop = hi := Nat.add_sub_cancel' h

theorem part_covers (h : lo ≤ hi) : (r.part lo hi).covers addr = true ↔ lo ≤ addr ∧ addr < hi := by
  rw [covers_iff, stop_part h]
  rfl

theorem backing_part (h1 : r.start ≤ lo) (h2 : lo ≤ addr) : (r.part lo hi).backing addr = r.backing addr := by
  have hoff : addr - r.start = (lo - r.start) + (addr - lo) := by omega
  simp only [backing, part, hoff, UInt64.ofNat_add, UInt64.add_assoc]

/-- `r` lies in `r'` -/
def Within (r r' : MappedRegion) : Prop := r'.start ≤ r.start ∧ r.stop ≤ r'.stop

theorem Within.apart {x y : MappedRegion} (hx : x.Within r) (hy : y.Within r') (h : r.Apart r') : x.Apart y := by
  obtain ⟨hx1, hx2⟩ := hx
  obtain ⟨hy1, hy2⟩ := hy
  rcases h with h | h
  · exact .inl (hx2.trans (h.trans hy1))
  · exact .inr (hy2.trans (h.trans hx1))

theorem part_within (h1 : r.start ≤ lo) (h : lo ≤ hi) (h2 : hi ≤ r.stop) : (r.part lo hi).Within r :=
  ⟨h1, (stop_part h).trans_le h2⟩

theorem page_add {x y : ℕ} (hx : x % PAGE_SIZE = 0) (hy : y % PAGE_SIZE = 0) : (x + y) % PAGE_SIZE = 0 := by
  rw [add_mod, hx, hy]
  rfl

theorem Aligned.stop_mod (h : r.Aligned) : r.stop % PAGE_SIZE = 0 := page_add h.1 h.2

theorem part_aligned (h1 : lo % PAGE_SIZE = 0) (h2 : hi % PAGE_SIZE = 0) : (r.part lo hi).Aligned := by
  refine ⟨h1, ?_⟩
  simp only [part]
  unfold PAGE_SIZE at *
  omega

/-- a region on page boundaries covers an address if it covers its page -/
theorem Aligned.covers_page (h : r.Aligned) : r.covers (addr / PAGE_SIZE * PAGE_SIZE) = r.covers addr := by
  have h1 := h.1
  have h2 := h.stop_mod
  rw [Bool.eq_iff_iff, covers_iff, covers_iff]
  unfold PAGE_SIZE at *
  omega

end MappedRegion

open MappedRegion

theorem view_cons (r : MappedRegion) (rs : List MappedRegion) (addr : ℕ) :
    view (r :: rs) addr = if r.covers addr then some (r.backing addr) else view rs addr := by
  unfold view
  split <;> simp_all

theorem view_append (rs rs' : List MappedRegion) (addr : ℕ) :
    view (rs ++ rs') addr = (view rs addr).or (view rs' addr) := by
  unfold view
  rw [find?_append]
  cases rs.find? (·.covers addr) <;> rfl

variable {rs : List MappedRegion} {x : MappedRegion}

theorem view_eq_none {addr : ℕ} : view rs addr = none ↔ ∀ r ∈ rs, r.covers addr = false := by
  simp [view]

theorem exists_of_view {addr : ℕ} {b : Backing} (h : view rs addr = some b) :
    ∃ r ∈ rs, r.covers addr = true ∧ r.backing addr = b := by
  obtain ⟨r, hr, rfl⟩ := Option.map_eq_some_iff.1 h
  have hcov : r.covers addr = true := by simpa using find?_some hr
  exact ⟨r, mem_of_find?_eq_some hr, hcov, rfl⟩

/-- with regions apart, the region that covers an address is what the view shows -/
theorem view_of_mem (h : rs.Pairwise Apart) {r : MappedRegion} (hr : r ∈ rs) {addr : ℕ}
    (hcov : r.covers addr = true) : view rs addr = some (r.backing addr) := by
  induction rs with
  | nil => cases hr
  | cons r' rs ih =>
    obtain ⟨hhead, htail⟩ := pairwise_cons.1 h
    rw [view_cons]
    rcases mem_cons.1 hr with rfl | hr
    · rw [if_pos hcov]
    · have hnot : r'.covers addr = false := (hhead r hr).symm.not_covers hcov
      rw [hnot]
      exact ih htail hr

theorem any_view (h : rs.Pairwise Apart) (addr : ℕ) (p : MappedRegion → Bool)
    (q : Backing → Bool) (hpq : ∀ r, q (r.backing addr) = p r) :
    (rs.any fun r => r.covers addr && p r) = (view rs addr).any q := by
  cases hv : view rs addr with
  | none =>
    rw [view_eq_none] at hv
    rw [Option.any_none, any_eq_false]
    intro r hr
    rw [hv r hr, Bool.false_and]
    exact false_ne_true
  | some b =>
    obtain ⟨r, hr, hcov, rfl⟩ := exists_of_view hv
    rw [Option.any_some, hpq]
    cases hp : p r with
    | true => exact any_eq_true.2 ⟨r, hr, by rw [hcov, hp]; rfl⟩
    | false =>
      rw [any_eq_false]
      intro r' hr' hboth
      rw [and_eq_true] at hboth
      have hv' := view_of_mem h hr' hboth.1
      rw [hv] at hv'
      have hq := hpq r'
      rw [← Option.some.inj hv', hpq, hp] at hq
      rw [← hq] at hboth
      cases hboth.2

/-! ## Tidy regions -/

theorem Tidy.append {r : MappedRegion} (h : Tidy rs) (hr : r.Aligned) (hfree : ∀ r' ∈ rs, r'.Apart r) :
    Tidy (rs ++ [r]) where
  apart := by
    refine pairwise_append.2 ⟨h.apart, pairwise_singleton _ _, fun r' hr' x hx => ?_⟩
    rw [mem_singleton.1 hx]
    exact hfree r' hr'
  aligned x hx := by
    rcases mem_append.1 hx with hx | hx
    · exact h.aligned x hx
    · rw [mem_singleton.1 hx]
      exact hr

theorem Tidy.replace {xs ys : List MappedRegion} {r r' : MappedRegion} (h : Tidy (xs ++ r :: ys)) (hr' : r'.Aligned)
    (hfree : ∀ x ∈ xs ++ ys, x.Apart r') : Tidy (xs ++ r' :: ys) where
  apart := by
    obtain ⟨hxs, hys, hcross⟩ := pairwise_append.1 h.apart
    obtain ⟨-, hys⟩ := pairwise_cons.1 hys
    refine pairwise_append.2 ⟨hxs, pairwise_cons.2 ⟨fun y hy => ?_, hys⟩, fun x hx y hy => ?_⟩
    · exact (hfree y (mem_append_right _ hy)).symm
    · rcases mem_cons.1 hy with rfl | hy
      · exact hfree x (mem_append_left _ hx)
      · exact hcross x hx y (mem_cons_of_mem _ hy)
  aligned x hx := by
    rcases mem_append.1 hx with hx | hx
    · exact h.aligned x (mem_append_left _ hx)
    rcases mem_cons.1 hx with rfl | hx
    · exact hr'
    · exact h.aligned x (mem_append_right _ (mem_cons_of_mem _ hx))

theorem Tidy.flatMap (h : Tidy rs) {g : MappedRegion → List MappedRegion}
    (hg : ∀ r ∈ rs, (g r).Pairwise Apart ∧ ∀ x ∈ g r, x.Within r ∧ x.Aligned) : Tidy (rs.flatMap g) where
  apart := by
    rw [pairwise_flatMap]
    refine ⟨fun r hr => (hg r hr).1, h.apart.imp_of_mem fun hr hr' hapart x hx y hy => ?_⟩
    exact ((hg _ hr).2 x hx).1.apart ((hg _ hr').2 y hy).1 hapart
  aligned x hx := by
    obtain ⟨r, hr, hx⟩ := mem_flatMap.1 hx
    exact ((hg r hr).2 x hx).2

theorem view_part_ite {r : MappedRegion} {c : Prop} [Decidable c] {lo hi : ℕ} (h : c → lo ≤ hi) (hlo : r.start ≤ lo) (addr : ℕ) :
    view (if c then [r.part lo hi] else []) addr =
      if c ∧ lo ≤ addr ∧ addr < hi then some (r.backing addr) else none := by
  by_cases hc : c
  · rw [if_pos hc, view_cons]
    by_cases hin : lo ≤ addr ∧ addr < hi
    · rw [if_pos ((part_covers (h hc)).2 hin), if_pos ⟨hc, hin⟩, backing_part hlo hin.1]
    · rw [if_neg (fun hcov => hin ((part_covers (h hc)).1 hcov)), if_neg fun hall => hin hall.2]
      rfl
  · rw [if_neg hc, if_neg fun hall => hc hall.1]
    rfl

/-! ## `unmap_range` -/

section Unmap

variable {unmapStart unmapEnd : ℕ} {rs : List MappedRegion} {r : MappedRegion}

/-- what is left of a region -/
def cutRegion (unmapStart unmapEnd : ℕ) (r : MappedRegion) : List MappedRegion :=
  if r.stop ≤ unmapStart ∨ unmapEnd ≤ r.start then [r]
  else
    (if r.start < unmapStart then [r.part r.start unmapStart] else []) ++
    (if unmapEnd < r.stop then [r.part unmapEnd r.stop] else [])

/-- with regions apart, a region that sticks out on both sides is the only one in the range -/
theorem unmapRange_eq (hrs : rs.Pairwise Apart) : unmapRange unmapStart unmapEnd rs = rs.flatMap (cutRegion unmapStart unmapEnd) := by
  induction rs with
  | nil => rfl
  | cons r rs ih =>
    obtain ⟨hhead, htail⟩ := pairwise_cons.1 hrs
    rw [flatMap_cons, unmapRange, ih htail, cutRegion]
    by_cases hout : r.stop ≤ unmapStart ∨ unmapEnd ≤ r.start
    · rw [if_pos hout, if_pos hout]
      rfl
    split_ifs with hin hleft hright hboth hright hleft hright <;> try omega
    · rfl
    · have hrest : rs.flatMap (cutRegion unmapStart unmapEnd) = rs.flatMap fun r' => [r'] := by
        refine flatMap_congr fun r' hr' => if_pos ?_
        rcases hhead r' hr' with h | h <;> omega
      rw [hrest, flatMap_singleton']
      rfl
    · rfl
    · rfl

theorem mem_cutRegion (h : x ∈ cutRegion unmapStart unmapEnd r) :
    x = r ∧ (r.stop ≤ unmapStart ∨ unmapEnd ≤ r.start) ∨
    x = r.part r.start unmapStart ∧ r.start < unmapStart ∧ unmapStart < r.stop ∨
    x = r.part unmapEnd r.stop ∧ r.start < unmapEnd ∧ unmapEnd < r.stop := by
  by_cases hout : r.stop ≤ unmapStart ∨ unmapEnd ≤ r.start
  · rw [cutRegion, if_pos hout, mem_singleton] at h
    exact .inl ⟨h, hout⟩
  · rw [cutRegion, if_neg hout, mem_append] at h
    rcases h with h | h
    · split_ifs at h with hleft
      · exact .inr (.inl ⟨mem_singleton.1 h, hleft, by omega⟩)
      · cases h
    · split_ifs at h with hright
      · exact .inr (.inr ⟨mem_singleton.1 h, by omega, hright⟩)
      · cases h

theorem cutRegion_within (h : x ∈ cutRegion unmapStart unmapEnd r) : x.Within r := by
  rcases mem_cutRegion h with ⟨rfl, -⟩ | ⟨rfl, h1, h2⟩ | ⟨rfl, h1, h2⟩
  · exact ⟨le_rfl, le_rfl⟩
  · exact part_within le_rfl h1.le h2.le
  · exact part_within h1.le h2.le le_rfl

theorem cutRegion_aligned (hr : r.Aligned) (h1 : unmapStart % PAGE_SIZE = 0) (h2 : unmapEnd % PAGE_SIZE = 0)
    (h : x ∈ cutRegion unmapStart unmapEnd r) : x.Aligned := by
  rcases mem_cutRegion h with ⟨rfl, -⟩ | ⟨rfl, -⟩ | ⟨rfl, -⟩
  · exact hr
  · exact part_aligned hr.1 h1
  · exact part_aligned h2 hr.stop_mod

theorem cutRegion_pos (hr : 0 < r.len) (h : x ∈ cutRegion unmapStart unmapEnd r) : 0 < x.len := by
  rcases mem_cutRegion h with ⟨rfl, -⟩ | ⟨rfl, hlt, -⟩ | ⟨rfl, -, hlt⟩
  · exact hr
  · exact Nat.sub_pos_of_lt hlt
  · exact Nat.sub_pos_of_lt hlt

theorem mem_unmapRange (hrs : rs.Pairwise Apart) :
    x ∈ unmapRange unmapStart unmapEnd rs ↔ ∃ r ∈ rs, x ∈ cutRegion unmapStart unmapEnd r := by
  rw [unmapRange_eq hrs, mem_flatMap]

theorem outside_of_unmapRange (hrs : rs.Pairwise Apart)
    (h : x ∈ unmapRange unmapStart unmapEnd rs) : x.stop ≤ unmapStart ∨ unmapEnd ≤ x.start := by
  obtain ⟨r, -, hx⟩ := (mem_unmapRange hrs).1 h
  rcases mem_cutRegion hx with ⟨rfl, hout⟩ | ⟨rfl, hlt, -⟩ | ⟨rfl, -⟩
  · exact hout
  · exact .inl (stop_part hlt.le).le
  · exact .inr le_rfl

theorem Tidy.unmapRange (h : Tidy rs) (hle : unmapStart ≤ unmapEnd) (h1 : unmapStart % PAGE_SIZE = 0)
    (h2 : unmapEnd % PAGE_SIZE = 0) : Tidy (unmapRange unmapStart unmapEnd rs) := by
  rw [unmapRange_eq h.apart]
  refine h.flatMap fun r hr => ⟨?_, fun x hx => ⟨cutRegion_within hx, cutRegion_aligned (h.aligned r hr) h1 h2 hx⟩⟩
  rw [cutRegion]
  split_ifs with hout hleft hright hright
  · exact pairwise_singleton _ _
  · exact pairwise_pair.2 (.inl ((stop_part hleft.le).trans_le hle))
  all_goals simp

theorem view_cutRegion (addr : ℕ) :
    view (cutRegion unmapStart unmapEnd r) addr =
      if r.covers addr ∧ ¬(unmapStart ≤ addr ∧ addr < unmapEnd) then some (r.backing addr) else none := by
  by_cases hout : r.stop ≤ unmapStart ∨ unmapEnd ≤ r.start
  · rw [cutRegion, if_pos hout, view_cons]
    exact if_congr (by rw [covers_iff]; omega) rfl rfl
  · rw [cutRegion, if_neg hout, view_append, view_part_ite (fun h => h.le) le_rfl,
      view_part_ite (fun h => h.le) (by omega)]
    by_cases hleft : r.start < unmapStart ∧ r.start ≤ addr ∧ addr < unmapStart
    · rw [if_pos hleft, Option.some_or, if_pos (by rw [covers_iff]; omega)]
    · rw [if_neg hleft]
      exact if_congr (by rw [covers_iff]; omega) rfl rfl

theorem view_unmapRange (hrs : rs.Pairwise Apart) (addr : ℕ) :
    view (unmapRange unmapStart unmapEnd rs) addr =
      if unmapStart ≤ addr ∧ addr < unmapEnd then none else view rs addr := by
  rw [unmapRange_eq hrs]
  clear hrs
  induction rs with
  | nil => simp [view]
  | cons r rs ih =>
    rw [flatMap_cons, view_append, ih, view_cutRegion, view_cons]
    by_cases hin : unmapStart ≤ addr ∧ addr < unmapEnd
    · simp [hin]
    · cases r.covers addr <;> simp [hin]

end Unmap

/-! ## `mprotect` -/

section Protect

variable {protStart protEnd prot : ℕ} {rs : List MappedRegion} {r : MappedRegion}

/-- the part of a region in the range, with its new protection -/
def protectedPart (protStart protEnd prot : ℕ) (r : MappedRegion) : MappedRegion :=
  { r.part (max r.start protStart) (min r.stop protEnd) with prot := prot }

theorem protectRegion_of_meets (h : ¬ (r.stop ≤ protStart ∨ protEnd ≤ r.start)) :
    protectRegion protStart protEnd prot r =
      (if r.start < protStart then [r.part r.start protStart] else []) ++ [protectedPart protStart protEnd prot r] ++
      (if protEnd < r.stop then [r.part protEnd r.stop] else []) := if_neg h

theorem mem_protectRegion (h : x ∈ protectRegion protStart protEnd prot r) :
    x ∈ cutRegion protStart protEnd r ∨
      x = protectedPart protStart protEnd prot r ∧ ¬ (r.stop ≤ protStart ∨ protEnd ≤ r.start) := by
  by_cases hout : r.stop ≤ protStart ∨ protEnd ≤ r.start
  · rw [protectRegion, if_pos hout] at h
    rw [cutRegion, if_pos hout]
    exact .inl h
  · rw [protectRegion_of_meets hout, mem_append, mem_append, mem_singleton] at h
    rw [cutRegion, if_neg hout, mem_append]
    rcases h with (h | h) | h
    · exact .inl (.inl h)
    · exact .inr ⟨h, hout⟩
    · exact .inl (.inr h)

theorem view_protectedPart (hmeet : max r.start protStart ≤ min r.stop protEnd) (addr : ℕ) :
    view [protectedPart protStart protEnd prot r] addr =
      if max r.start protStart ≤ addr ∧ addr < min r.stop protEnd then some { r.backing addr with prot := prot }
      else none := by
  have hcov : (protectedPart protStart protEnd prot r).covers addr = true ↔ _ :=
    part_covers (r := r) hmeet
  rw [view_cons]
  by_cases hin : max r.start protStart ≤ addr ∧ addr < min r.stop protEnd
  · have hb : (r.part (max r.start protStart) (min r.stop protEnd)).backing addr = r.backing addr :=
      backing_part (le_max_left _ _) hin.1
    rw [if_pos (hcov.2 hin), if_pos hin, ← hb]
    rfl
  · rw [if_neg (fun hc => hin (hcov.1 hc)), if_neg hin]
    rfl

section

variable (hlt : protStart < protEnd)
include hlt

theorem view_protectRegion (addr : ℕ) :
    view (protectRegion protStart protEnd prot r) addr =
      if r.covers addr then some (if protStart ≤ addr ∧ addr < protEnd then { r.backing addr with prot := prot }
        else r.backing addr) else none := by
  have hcov : r.covers addr = true ↔ r.start ≤ addr ∧ addr < r.stop := covers_iff
  have hstop : r.start ≤ r.stop := le_add_right _ _
  by_cases hout : r.stop ≤ protStart ∨ protEnd ≤ r.start
  · rw [protectRegion, if_pos hout, view_cons]
    by_cases hc : r.covers addr = true
    · have hin := hcov.1 hc
      rw [if_pos hc, if_pos hc, if_neg (by omega)]
    · rw [if_neg hc, if_neg hc]
      rfl
  · rw [protectRegion_of_meets hout, view_append, view_append, view_part_ite (fun h => h.le) le_rfl,
      view_part_ite (fun h => h.le) (by omega), view_protectedPart (by omega)]
    by_cases hc : r.covers addr = true
    · have hin := hcov.1 hc
      rw [if_pos hc]
      by_cases hbelow : addr < protStart
      · rw [if_pos (by omega), if_neg (by omega : ¬ (protStart ≤ addr ∧ addr < protEnd))]
        rfl
      · by_cases habove : protEnd ≤ addr
        · rw [if_neg (by omega), if_neg (by omega), if_pos (by omega),
            if_neg (by omega : ¬ (protStart ≤ addr ∧ addr < protEnd))]
          rfl
        · rw [if_neg (by omega), if_pos (by omega), if_neg (by omega),
            if_pos (by omega : protStart ≤ addr ∧ addr < protEnd)]
          rfl
    · have hnin : ¬ (r.start ≤ addr ∧ addr < r.stop) := fun h => hc (hcov.2 h)
      rw [if_neg (by omega), if_neg (by omega), if_neg (by omega), if_neg hc]
      rfl

theorem view_protect (rs : List MappedRegion) (addr : ℕ) :
    view (rs.flatMap (protectRegion protStart protEnd prot)) addr =
      (view rs addr).map fun b => if protStart ≤ addr ∧ addr < protEnd then { b with prot := prot } else b := by
  induction rs with
  | nil => rfl
  | cons r rs ih =>
    rw [flatMap_cons, view_append, ih, view_protectRegion hlt, view_cons]
    cases r.covers addr <;> rfl

theorem protectRegion_spec (h1 : protStart % PAGE_SIZE = 0)
    (h2 : protEnd % PAGE_SIZE = 0) (hr : r.Aligned) (h : x ∈ protectRegion protStart protEnd prot r) :
    x.Within r ∧ x.Aligned := by
  have hstop : r.start ≤ r.stop := le_add_right _ _
  rcases mem_protectRegion h with h | ⟨rfl, hmeet⟩
  · exact ⟨cutRegion_within h, cutRegion_aligned hr h1 h2 h⟩
  · have hle : max r.start protStart ≤ min r.stop protEnd := by omega
    refine ⟨part_within (r := r) (le_max_left _ _) hle (min_le_left _ _), part_aligned (r := r) ?_ ?_⟩
    · rcases max_choice r.start protStart with h | h <;> rw [h]
      · exact hr.1
      · exact h1
    · rcases min_choice r.stop protEnd with h | h <;> rw [h]
      · exact hr.stop_mod
      · exact h2

theorem protectRegion_apart : (protectRegion protStart protEnd prot r).Pairwise Apart := by
  have hstop : r.start ≤ r.stop := le_add_right _ _
  by_cases hout : r.stop ≤ protStart ∨ protEnd ≤ r.start
  · rw [protectRegion, if_pos hout]
    exact pairwise_singleton _ _
  · have hmeet : max r.start protStart ≤ min r.stop protEnd := by omega
    have hmid : (protectedPart protStart protEnd prot r).stop = min r.stop protEnd := stop_part (r := r) hmeet
    have hleft : r.start < protStart → (r.part r.start protStart).stop = protStart := fun h => stop_part h.le
    have hlm : r.start < protStart → (r.part r.start protStart).Apart (protectedPart protStart protEnd prot r) :=
      fun h => .inl ((hleft h).trans_le (le_max_right _ _))
    have hmr : (protectedPart protStart protEnd prot r).Apart (r.part protEnd r.stop) :=
      .inl (hmid.trans_le (min_le_right _ _))
    have hlr : r.start < protStart → (r.part r.start protStart).Apart (r.part protEnd r.stop) :=
      fun h => .inl ((hleft h).trans_le hlt.le)
    rw [protectRegion_of_meets hout]
    split_ifs with hl hr hr
    · simpa using ⟨⟨hlm hl, hlr hl⟩, hmr⟩
    · simpa using hlm hl
    · simpa using hmr
    · simp

end

theorem Tidy.protect (h : Tidy rs) (hlt : protStart < protEnd) (h1 : protStart % PAGE_SIZE = 0)
    (h2 : protEnd % PAGE_SIZE = 0) : Tidy (rs.flatMap (protectRegion protStart protEnd prot)) :=
  h.flatMap fun r hr => ⟨protectRegion_apart hlt, fun _ hx => protectRegion_spec hlt h1 h2 (h.aligned r hr) hx⟩

/-- `AddressSpace::unmap_range`; an empty range changes nothing -/
def unmapRegions (unmapStart unmapEnd : ℕ) (rs : List MappedRegion) : List MappedRegion :=
  if unmapEnd ≤ unmapStart then rs else unmapRange unmapStart unmapEnd rs

/-- **Region surgery.** `unmap_range` takes away the pages of the range, the splitting of `mprotect` changes their protection,
and both leave everything else, and the regions apart. -/
theorem region_surgery_exact (rs : List MappedRegion) (h : Tidy rs) (lo hi prot : ℕ) (hlo : lo % PAGE_SIZE = 0)
    (hhi : hi % PAGE_SIZE = 0) :
    (Tidy (unmapRegions lo hi rs) ∧
      ∀ addr, view (unmapRegions lo hi rs) addr = if lo ≤ addr ∧ addr < hi then none else view rs addr) ∧
    (lo < hi → Tidy (rs.flatMap (protectRegion lo hi prot)) ∧
      ∀ addr, view (rs.flatMap (protectRegion lo hi prot)) addr =
        (view rs addr).map fun b => if lo ≤ addr ∧ addr < hi then { b with prot := prot } else b) := by
  refine ⟨?_, fun hlt => ⟨h.protect hlt hlo hhi, view_protect hlt rs⟩⟩
  by_cases hempty : hi ≤ lo
  · rw [unmapRegions, if_pos hempty]
    exact ⟨h, fun addr => by rw [if_neg (by omega)]⟩
  · rw [unmapRegions, if_neg hempty]
    exact ⟨h.unmapRange (by omega) hlo hhi, view_unmapRange h.apart⟩

/-- the middle page of three of a file -/
theorem region_surgery_middle :
    Tidy [⟨0x1000, 0x3000, some ⟨1, 2, false, 0⟩, 0x8000, false, 3, false⟩] ∧
      (view (unmapRegions 0x2000 0x3000 [⟨0x1000, 0x3000, some ⟨1, 2, false, 0⟩, 0x8000, false, 3, false⟩]) 0x3000).map
        (·.offset) = some 0xA000 := by
  have htidy : Tidy [⟨0x1000, 0x3000, some ⟨1, 2, false, 0⟩, 0x8000, false, 3, false⟩] :=
    ⟨pairwise_singleton _ _, fun r hr => by cases mem_singleton.1 hr; exact ⟨rfl, rfl⟩⟩
  refine ⟨htidy, ?_⟩
  rw [(region_surgery_exact _ htidy 0x2000 0x3000 1 (by decide) (by decide)).1.2]
  decide

end Protect

/-! ## Where a mapping goes -/

theorem pageUp_mod (addr : ℕ) : pageUp addr % PAGE_SIZE = 0 := mul_mod_left _ _

variable {alignedLen : ℕ} {length : ℕ}

theorem alignLen_eq (h : alignLen length = some alignedLen) : alignedLen = pageUp length := by
  unfold alignLen at h
  split_ifs at h
  exact (Option.some.inj h).symm

theorem alignLen_spec (hpos : 0 < length) (h : alignLen length = some alignedLen) :
    alignedLen % PAGE_SIZE = 0 ∧ 0 < alignedLen := by
  rw [alignLen_eq h]
  refine ⟨pageUp_mod length, ?_⟩
  exact hpos.trans_le (le_pageUp length)

/-- `mprotect` changes nothing, or the regions and the entries of its range -/
theorem Machine.mprotect_cases (s : Machine) (root addr length prot : ℕ) : (s.mprotect root addr length prot).2 = s ∨
    addr % PAGE_SIZE = 0 ∧ 0 < pageUp length ∧ (s.mprotect root addr length prot).2 =
      (range' (addr / PAGE_SIZE) (pageUp length / PAGE_SIZE)).foldl (protectPage root prot) (s.setSpace root
        { s.spaces root with
          mmapRegions := (s.spaces root).mmapRegions.flatMap (protectRegion addr (addr + pageUp length) prot) }) := by
  unfold mprotect
  split_ifs with hbad
  · exact .inl rfl
  cases hal : alignLen length with
  | none => exact .inl rfl
  | some alignedLen =>
    cases alignLen_eq hal
    dsimp only
    split_ifs
    · exact .inl rfl
    · exact .inr ⟨by omega, (alignLen_spec (by omega) hal).2, rfl⟩
    · exact .inl rfl

/-- the test for overlaps is exact below the end of user space -/
theorem apart_of_not_overlaps {r : MappedRegion} {lo hi : ℕ} (h : r.overlaps lo hi = false) (hlo : lo ≤ USER_END) :
    r.stop ≤ lo ∨ hi ≤ r.start := by
  have hend : USER_END < 2 ^ 64 - 1 := by decide
  unfold MappedRegion.overlaps saturatingAdd at h
  rw [and_eq_false_iff, decide_eq_false_iff_not, decide_eq_false_iff_not] at h
  unfold MappedRegion.stop
  omega

variable {a : AddressSpace}

theorem not_overlaps_of_overlappingEnd {candidate candidateEnd : ℕ}
    (h : a.overlappingEnd candidate candidateEnd = none) : ∀ r ∈ a.mmapRegions, r.overlaps candidate candidateEnd = false := by
  unfold overlappingEnd at h
  split_ifs at h
  have hfold : ∀ (rs : List MappedRegion) (found : Option ℕ),
      rs.foldl (fun found r => if r.overlaps candidate candidateEnd then
        some (max (found.getD 0) (saturatingAdd r.start r.len)) else found) found = none →
      found = none ∧ ∀ r ∈ rs, r.overlaps candidate candidateEnd = false := by
    intro rs
    induction rs with
    | nil => exact fun found hnone => ⟨hnone, nofun⟩
    | cons r rs ih =>
      intro found hnone
      obtain ⟨hfound, hrs⟩ := ih _ hnone
      dsimp only at hfound
      split_ifs at hfound with hover
      refine ⟨hfound, fun r' hr' => ?_⟩
      rcases mem_cons.1 hr' with rfl | hr'
      · exact eq_false_iff.2 hover
      · exact hrs r' hr'
  exact (hfold a.mmapRegions none h).2

/-- the range `[addr, addr + alignedLen)` is a range of pages of user space -/
structure UserRange (addr alignedLen : ℕ) : Prop where
  aligned : addr % PAGE_SIZE = 0
  below : addr + alignedLen ≤ USER_END

theorem findGap_spec {candidate found : ℕ} (hmod : candidate % PAGE_SIZE = 0)
    (h : a.findGap alignedLen candidate = .ok found) :
    UserRange found alignedLen ∧ ∀ r ∈ a.mmapRegions, r.stop ≤ found ∨ found + alignedLen ≤ r.start := by
  have hend : MMAP_END ≤ USER_END := by decide
  fun_induction findGap a alignedLen candidate with
  | case1 => cases h
  | case2 => cases h
  | case3 candidate h1 h2 e he ih => exact ih (pageUp_mod e) h
  | case4 candidate h1 h2 he =>
    cases h
    refine ⟨⟨hmod, by omega⟩, fun r hr => ?_⟩
    exact apart_of_not_overlaps (not_overlaps_of_overlappingEnd he r hr) (by omega)

theorem userRange_of_fixedRange {addr : ℕ} (h : fixedRange addr alignedLen = true) : UserRange addr alignedLen := by
  simp only [fixedRange, and_eq_true, beq_iff_eq, decide_eq_true_eq] at h
  exact ⟨h.1.1.1, h.2⟩

/-- the regions next to a new mapping, where those in its range are taken out if it replaces them -/
theorem Tidy.replaced {rs' : List MappedRegion} (h : Tidy rs) {addr : ℕ} (hmod : alignedLen % PAGE_SIZE = 0)
    (hrange : UserRange addr alignedLen) {replaces : Bool}
    (hfree : replaces = false → ∀ r ∈ rs, r.stop ≤ addr ∨ addr + alignedLen ≤ r.start)
    (hrs : rs' = if replaces then Memory.unmapRange addr (addr + alignedLen) rs else rs) :
    Tidy rs' ∧ (∀ r ∈ rs', r.stop ≤ addr ∨ addr + alignedLen ≤ r.start) ∧
    (∀ addr, ∀ b ∈ view rs' addr, view rs addr = some b) ∧
    ∀ page, (replaces = true → page ∉ range' (addr / PAGE_SIZE) (alignedLen / PAGE_SIZE)) →
      view rs' (page * PAGE_SIZE) = view rs (page * PAGE_SIZE) := by
  cases replaces with
  | false =>
    subst hrs
    exact ⟨h, hfree rfl, fun _ _ hb => hb, fun _ _ => rfl⟩
  | true =>
    simp only [if_true] at hrs
    subst hrs
    have hle : addr ≤ addr + alignedLen := le_add_right _ _
    refine ⟨h.unmapRange hle hrange.aligned (page_add hrange.aligned hmod), fun r hr => outside_of_unmapRange h.apart hr,
      fun addr' b hb => ?_, fun page hpage => ?_⟩
    · rw [Option.mem_def, view_unmapRange h.apart] at hb
      split_ifs at hb
      exact hb
    · rw [view_unmapRange h.apart, if_neg]
      rintro ⟨hlo, hhi⟩
      apply hpage rfl
      rw [mem_range'_1]
      have := hrange.aligned
      unfold PAGE_SIZE at *
      omega

/-- the range is in user space, and no region is in the way unless it is to be replaced -/
theorem place_spec {m : MmapArgs} {addr bump : ℕ} (hlen : alignedLen % PAGE_SIZE = 0)
    (hbump : a.mmapBump % PAGE_SIZE = 0) (h : a.place m alignedLen = .ok (addr, bump)) :
    UserRange addr alignedLen ∧ bump % PAGE_SIZE = 0 ∧
    (m.replaces = false → ∀ r ∈ a.mmapRegions, r.stop ≤ addr ∨ addr + alignedLen ≤ r.start) := by
  have hmax : ∀ {x : ℕ}, x % PAGE_SIZE = 0 → max a.mmapBump (x + alignedLen) % PAGE_SIZE = 0 := by
    intro x hx
    rcases max_choice a.mmapBump (x + alignedLen) with hm | hm <;> rw [hm]
    · exact hbump
    · exact page_add hx hlen
  unfold place at h
  split_ifs at h with hno hrange hbrk hover hfixed hrange hhint
  · obtain ⟨rfl, rfl⟩ : m.addr = addr ∧ _ = bump := by simpa using h
    have hur := userRange_of_fixedRange (by simpa using hrange)
    refine ⟨hur, hmax hur.aligned, fun _ r hr => ?_⟩
    rw [any_eq_true] at hover
    apply apart_of_not_overlaps _ ((le_add_right _ _).trans hur.below)
    exact eq_false_iff.2 fun ho => hover ⟨r, hr, ho⟩
  · obtain ⟨rfl, rfl⟩ : m.addr = addr ∧ _ = bump := by simpa using h
    have hur := userRange_of_fixedRange (by simpa using hrange)
    refine ⟨hur, hmax hur.aligned, fun hrep => ?_⟩
    rw [MmapArgs.replaces, hfixed, eq_false_iff.2 hno] at hrep
    cases hrep
  · obtain ⟨rfl, rfl⟩ : m.addr = addr ∧ a.mmapBump = bump := by simpa using h
    simp only [hintOk, and_eq_true, beq_iff_eq, decide_eq_true_eq, not_eq_true'] at hhint
    obtain ⟨⟨⟨⟨_, hmod⟩, hend⟩, _⟩, hover⟩ := hhint
    have hsat : saturatingAdd m.addr alignedLen = m.addr + alignedLen := by
      have : USER_END < 2 ^ 64 - 1 := by decide
      unfold saturatingAdd at hend ⊢
      omega
    rw [hsat] at hend hover
    refine ⟨⟨hmod, hend⟩, hbump, fun _ r hr => ?_⟩
    rw [any_eq_false] at hover
    apply apart_of_not_overlaps _ ((le_add_right _ _).trans hend)
    exact eq_false_iff.2 fun ho => hover r hr ho
  · cases hgap : a.findGap alignedLen a.mmapBump with
    | error e => rw [hgap] at h; cases h
    | ok candidate =>
      rw [hgap] at h
      obtain ⟨rfl, rfl⟩ : candidate = addr ∧ candidate + alignedLen = bump := by
        simpa [Except.map] using h
      obtain ⟨hur, hfree⟩ := findGap_spec hbump hgap
      exact ⟨hur, page_add hur.aligned hlen, fun _ => hfree⟩

theorem mmap_spec {a' : AddressSpace} {m : MmapArgs} {r : MappedRegion} (hbump : a.mmapBump % PAGE_SIZE = 0)
    (h : a.mmap m = .ok (r, a')) :
    ∃ resolved alignedLen bump, r = ⟨resolved, alignedLen, m.file, m.offset, m.isShared, m.prot, false⟩ ∧
      a' = { a with
        mmapBump := bump
        mmapRegions := (if m.replaces then unmapRange resolved (resolved + alignedLen) a.mmapRegions
          else a.mmapRegions) ++ [r] } ∧
      alignedLen = pageUp m.length ∧ alignedLen % PAGE_SIZE = 0 ∧ 0 < alignedLen ∧ UserRange resolved alignedLen ∧
      bump % PAGE_SIZE = 0 ∧
      (m.replaces = false → ∀ r ∈ a.mmapRegions, r.stop ≤ resolved ∨ resolved + alignedLen ≤ r.start) := by
  unfold AddressSpace.mmap at h
  by_cases hlen : m.length = 0
  · rw [if_pos hlen] at h
    cases h
  rw [if_neg hlen] at h
  by_cases hbad : (!m.isAnon && m.desc.isNone) = true
  · rw [if_pos hbad] at h
    cases h
  rw [if_neg hbad] at h
  cases hal : alignLen m.length with
  | none =>
    rw [hal] at h
    cases h
  | some alignedLen =>
    obtain ⟨hmod, hpos⟩ := alignLen_spec (pos_of_ne_zero hlen) hal
    rw [hal] at h
    dsimp only at h
    cases hplace : a.place m alignedLen with
    | error e =>
      rw [hplace] at h
      cases h
    | ok found =>
      obtain ⟨resolved, bump⟩ := found
      rw [hplace] at h
      obtain ⟨hrange, hbump', hfree⟩ := place_spec hmod hbump hplace
      cases h
      exact ⟨resolved, alignedLen, bump, rfl, rfl, alignLen_eq hal, hmod, hpos, hrange, hbump', hfree⟩

end Kontsnor.Memory
