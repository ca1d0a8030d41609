/-
Copy-on-write under `mmap`, `mprotect` and `fork`.

Each call keeps `Machine.Inv` under a condition on the state before it (`MmapAllowed`, `MprotectAllowed`, `ForkAllowed`).
-/
import Kontsnor.Memory.CopyOnWrite

namespace Kontsnor.Memory

open List Function MappedRegion

namespace Machine

/-! ## Looking up an entry -/

section Lookup

variable {s : Machine} {root page : ℕ} {l : Leaf}

theorem key_iff : (l.root == root && l.page == page) = true ↔ l.root = root ∧ l.page = page := by
  rw [Bool.and_eq_true, beq_iff_eq, beq_iff_eq]

theorem lookup_some (h : s.lookup root page = some l) : l ∈ s.leaves ∧ l.root = root ∧ l.page = page := by
  have hkey := find?_some h
  exact ⟨mem_of_find?_eq_some h, key_iff.1 hkey⟩

theorem lookup_none (h : s.lookup root page = none) : ∀ l ∈ s.leaves, ¬ (l.root = root ∧ l.page = page) :=
  fun l hl hkey => find?_eq_none.1 h l hl (key_iff.2 hkey)

theorem lookup_split (hkeys : s.leaves.Pairwise Leaf.Other) (h : s.lookup root page = some l) :
    ∃ xs ys, s.leaves = xs ++ l :: ys ∧ ∀ l' ∈ xs ++ ys, (l'.root == root && l'.page == page) = false := by
  obtain ⟨hmem, rfl, rfl⟩ := lookup_some h
  obtain ⟨xs, ys, hsplit⟩ := append_of_mem hmem
  refine ⟨xs, ys, hsplit, fun l' hl' => ?_⟩
  rw [hsplit, pairwise_append, pairwise_cons] at hkeys
  have hother : l'.Other l := by
    rcases mem_append.1 hl' with hx | hy
    · exact hkeys.2.2 l' hx l mem_cons_self
    · exact (hkeys.2.1.1 l' hy).symm
  exact Bool.eq_false_iff.2 fun hkey => hother (key_iff.1 hkey)

theorem setLeaf_split {xs ys : List Leaf} (hl : l.root = root ∧ l.page = page) (hs : s.leaves = xs ++ l :: ys)
    (hother : ∀ l' ∈ xs ++ ys, (l'.root == root && l'.page == page) = false) (frame : ℕ) (flags : PageFlags) :
    (s.setLeaf root page frame flags).leaves = xs ++ ⟨root, page, frame, flags⟩ :: ys := by
  have hid : ∀ zs : List Leaf, (∀ l' ∈ zs, (l'.root == root && l'.page == page) = false) →
      zs.map (fun l => if l.root == root && l.page == page then ⟨root, page, frame, flags⟩ else l) = zs := by
    intro zs hz
    conv_rhs => rw [← map_id zs]
    apply map_congr_left
    intro l' hl'
    rw [hz l' hl']
    rfl
  simp only [setLeaf, hs, map_append, map_cons, key_iff.2 hl, if_true]
  rw [hid xs fun l' h => hother l' (mem_append_left _ h), hid ys fun l' h => hother l' (mem_append_right _ h)]

theorem mapUserPage_some {s' : Machine} {frame : ℕ} {flags : PageFlags} {tablesOk : Bool}
    (h : s.mapUserPage root page frame flags tablesOk = some s') :
    s.lookup root page = none ∧ s' = { s with leaves := s.leaves ++ [⟨root, page, frame, flags⟩] } := by
  unfold mapUserPage at h
  split_ifs at h with hno
  rw [Bool.or_eq_true, not_or, Bool.not_eq_true, Option.isSome_eq_false_iff, Option.isNone_iff_eq_none] at hno
  exact ⟨hno.1, (Option.some.inj h).symm⟩

end Lookup

/-! ## `mmap` -/

namespace Inv

variable {usable : ℕ → Bool} {s : Machine}

/-- an entry goes away, and its frame has a reference that nothing accounts for -/
theorem slack_of_removed (h : Inv usable s) {xs ys : List Leaf} {l : Leaf} (hs : s.leaves = xs ++ l :: ys)
    (hv : s.isVram l.frame = false) :
    references { s with leaves := xs ++ ys } l.frame < s.world.held l.frame := by
  have hcount := h.counted l.frame
  refine lt_of_lt_of_le ?_ hcount
  unfold references
  rw [hs]
  show (if s.isVram l.frame then 0 else (xs ++ ys).countP _) + _ + _ <
    (if s.isVram l.frame then 0 else (xs ++ l :: ys).countP _) + _ + _
  simp only [hv, Bool.false_eq_true, if_false, countP_append, countP_cons, beq_self_eq_true, if_true]
  omega

theorem releasePage (h : Inv usable s) (core root page : ℕ) : Inv usable (s.releasePage core root page) := by
  unfold Machine.releasePage
  cases hl : s.lookup root page with
  | none => exact h
  | some l =>
    obtain ⟨xs, ys, hs, hother⟩ := lookup_split h.keys hl
    obtain ⟨-, hroot, hpage⟩ := lookup_some hl
    have hfilter : s.leaves.filter (fun l => !(l.root == root && l.page == page)) = xs ++ ys := by
      have hid : (xs ++ ys).filter (fun l => !(l.root == root && l.page == page)) = xs ++ ys :=
        filter_eq_self.2 fun l' hl' => by rw [hother l' hl']; rfl
      rw [hs, filter_append, filter_cons, key_iff.2 ⟨hroot, hpage⟩]
      simpa using hid
    have hsub : (xs ++ ys).Sublist s.leaves := by
      rw [hs]
      exact (Sublist.refl xs).append (sublist_cons_self l ys)
    have hthin := h.thin hsub (Sublist.refl s.cache) (Sublist.refl s.kernel)
    simp only [hfilter]
    cases hv : s.isVram l.frame with
    | true => exact hthin
    | false => exact (hthin.drop core (h.slack_of_removed hs hv)).1

end Inv

/-- only entries and frames differ, and no entry is new -/
structure Released (s s' : Machine) : Prop where
  lfb : s'.lfb = s.lfb
  live : s'.live = s.live
  spaces : s'.spaces = s.spaces
  sub : ∀ l ∈ s'.leaves, l ∈ s.leaves

theorem releasePage_released (core root : ℕ) (s : Machine) (page : ℕ) : Released s (releasePage core root s page) ∧
    ∀ l ∈ (releasePage core root s page).leaves, ¬ (l.root = root ∧ l.page = page) := by
  unfold releasePage
  cases hl : s.lookup root page with
  | none => exact ⟨⟨rfl, rfl, rfl, fun _ h => h⟩, lookup_none hl⟩
  | some l =>
    have hsub : ∀ l' ∈ s.leaves.filter (fun l => !(l.root == root && l.page == page)),
        l' ∈ s.leaves ∧ ¬ (l'.root = root ∧ l'.page = page) := by
      intro l' hl'
      obtain ⟨hmem, hnot⟩ := mem_filter.1 hl'
      refine ⟨hmem, fun hkey => ?_⟩
      simp [hkey.1, hkey.2] at hnot
    simp only
    split_ifs
    · exact ⟨⟨rfl, rfl, rfl, fun l' h => (hsub l' h).1⟩, fun l' h => (hsub l' h).2⟩
    · exact ⟨⟨rfl, rfl, rfl, fun l' h => (hsub l' h).1⟩, fun l' h => (hsub l' h).2⟩

theorem releasePages_released (core root : ℕ) (pages : List ℕ) (s : Machine) :
    Released s (pages.foldl (releasePage core root) s) ∧
    ∀ l ∈ (pages.foldl (releasePage core root) s).leaves, ¬ (l.root = root ∧ l.page ∈ pages) := by
  induction pages generalizing s with
  | nil => exact ⟨⟨rfl, rfl, rfl, fun _ h => h⟩, fun _ _ h => by cases h.2⟩
  | cons page pages ih =>
    obtain ⟨hr1, hno1⟩ := releasePage_released core root s page
    obtain ⟨hr2, hno2⟩ := ih (releasePage core root s page)
    refine ⟨⟨hr2.lfb.trans hr1.lfb, hr2.live.trans hr1.live, hr2.spaces.trans hr1.spaces,
      fun l hl => hr1.sub l (hr2.sub l hl)⟩, ?_⟩
    rintro l hl ⟨hroot, hpage⟩
    rcases mem_cons.1 hpage with rfl | hpage
    · exact hno1 l (hr2.sub l hl) ⟨hroot, rfl⟩
    · exact hno2 l hl ⟨hroot, hpage⟩

variable {usable : ℕ → Bool} {s : Machine}

theorem Inv.releasePages (h : Inv usable s) (core root : ℕ) {pages : List ℕ} :
    Inv usable (pages.foldl (Machine.releasePage core root) s) :=
  foldlRecOn (motive := Inv usable) pages _ h fun _ h page _ => h.releasePage core root page

namespace Inv

variable {usable : ℕ → Bool} {s : Machine} {root : ℕ}

section

variable (h : Inv usable s)
include h

theorem cached_held {c : CachedPage} (hc : c ∈ s.cache) : 0 < s.world.held c.frame := by
  have hpos : 0 < s.cache.countP (·.frame == c.frame) := countP_pos_iff.2 ⟨c, hc, beq_self_eq_true _⟩
  have hle := h.counted c.frame
  unfold references at hle
  omega

theorem cached_plain {c : CachedPage} (hc : c ∈ s.cache) : s.isVram c.frame = false :=
  h.plain _ (h.backed.usable_of_held (h.cached_held hc))

/-- the regions of one address space change -/
theorem respace (root : ℕ) (a : AddressSpace) {g : Leaf → PageFlags} (htidy : Tidy a.mmapRegions)
    (hbump : a.mmapBump % PAGE_SIZE = 0) (hunmixed : (s.setSpace root a).Unmixed) (hfb : (s.setSpace root a).FbShared)
    (hsound : ∀ {l b}, s.Shows l b → ∃ b', (s.setSpace root a).view l.root l.page = some b' ∧
      b.isShared = b'.isShared ∧ s.Sound { l with flags := g l } b') :
    Inv usable { s.setSpace root a with leaves := s.leaves.map fun l => { l with flags := g l } } :=
  h.reflag ((forall_update_iff s.spaces fun _ a => Tidy a.mmapRegions).2 ⟨htidy, fun r _ => h.tidy r⟩)
    ((forall_update_iff s.spaces fun _ a => a.mmapBump % PAGE_SIZE = 0).2 ⟨hbump, fun r _ => h.bump r⟩) hunmixed hfb hsound

theorem fitsVram {l : Leaf} {b : Backing} (hview : s.view l.root l.page = some b) (hlive : l.root < s.live)
    (hfree : s.lookup l.root l.page = none) (hb : b.isShared = true) (hv : s.isVram l.frame = true)
    (hcow : l.flags.cow = false) (hwrites : protWrite b.prot = true → l.flags.writable = true) : Fits s l b := by
  refine ⟨hview, hlive, lookup_none hfree, fun hnv => ?_, ⟨fun hbad => ?_, fun c hc hf => ?_, fun _ => hb, fun hbad => ?_,
    fun hp => .inl (hwrites hp)⟩, fun l' b' hs hf => ?_⟩
  · rw [hv] at hnv
    cases hnv
  · rw [hb] at hbad
    cases hbad
  · have hplain := h.cached_plain hc
    rw [← hf, hv] at hplain
    cases hplain
  · rw [hcow] at hbad
    cases hbad
  · exact ((h.sound hs).vram (hf ▸ hv)).trans hb.symm

theorem mapVram {firstPage i : ℕ} {base : UInt64} {b : Backing} (hroot : root < s.live)
    (hview : s.view root (firstPage + i) = some b) (hb : b.isShared = true)
    (hv : s.isVram (frameOf (base + UInt64.ofNat (i * PAGE_SIZE)).toNat) = true) (tablesOk : ℕ → Bool) :
    Inv usable (s.mapVram root firstPage base tablesOk i) := by
  unfold Machine.mapVram
  cases hmap : s.mapUserPage root (firstPage + i) (frameOf (base + UInt64.ofNat (i * PAGE_SIZE)).toNat)
    ⟨true, false, true, false⟩ (tablesOk i) with
  | none =>
    simp only [hmap, Option.getD_none]
    exact h
  | some s' =>
    obtain ⟨hfree, rfl⟩ := mapUserPage_some hmap
    simp only [hmap, Option.getD_some]
    exact h.add (h.fitsVram hview hroot hfree hb hv rfl fun _ => rfl)

theorem mapVrams {firstPage : ℕ} {base : UInt64} (hroot : root < s.live) (tablesOk : ℕ → Bool) (is : List ℕ)
    (hview : ∀ i ∈ is, ∃ b, s.view root (firstPage + i) = some b ∧ b.isShared = true ∧
      s.isVram (frameOf (base + UInt64.ofNat (i * PAGE_SIZE)).toNat) = true) :
    Inv usable (is.foldl (Machine.mapVram root firstPage base tablesOk) s) := by
  induction is generalizing s with
  | nil => exact h
  | cons i is ih =>
    obtain ⟨b, hb, hshared, hv⟩ := hview i mem_cons_self
    have h' := h.mapVram hroot hb hshared hv tablesOk
    -- the step adds an entry and nothing else
    obtain ⟨leaves, heq⟩ : ∃ leaves, s.mapVram root firstPage base tablesOk i = { s with leaves := leaves } := by
      unfold Machine.mapVram mapUserPage
      split_ifs <;> exact ⟨_, rfl⟩
    rw [foldl_cons]
    rw [heq] at h' ⊢
    exact ih h' hroot fun j hj => hview j (mem_cons_of_mem _ hj)

end

end Inv

variable {rs : List MappedRegion} {r : MappedRegion}

theorem view_new (hr : r.start % PAGE_SIZE = 0)
    (hout : ∀ x ∈ rs, x.stop ≤ r.start ∨ r.stop ≤ x.start) (hlen : r.len % PAGE_SIZE = 0) {i : ℕ}
    (hi : i < r.len / PAGE_SIZE) :
    Memory.view (rs ++ [r]) ((r.start / PAGE_SIZE + i) * PAGE_SIZE) =
      some ⟨r.inode, r.isShared, r.offset + UInt64.ofNat (i * PAGE_SIZE), r.prot⟩ := by
  have haddr : (r.start / PAGE_SIZE + i) * PAGE_SIZE = r.start + i * PAGE_SIZE := by
    unfold PAGE_SIZE at *
    omega
  have hin : i * PAGE_SIZE < r.len := by
    unfold PAGE_SIZE at *
    omega
  have hcov : r.covers (r.start + i * PAGE_SIZE) = true := by
    rw [covers_iff]
    unfold stop
    omega
  have hnone : Memory.view rs (r.start + i * PAGE_SIZE) = none := by
    rw [view_eq_none]
    intro x hx
    rw [← Bool.not_eq_true, covers_iff]
    have := hout x hx
    have hstop : r.stop = r.start + r.len := rfl
    omega
  rw [haddr, view_append, hnone, view_cons, if_pos hcov]
  simp [backing]

theorem backing_of_covers (hr : r.Aligned) {page : ℕ} (hc : r.covers (page * PAGE_SIZE) = true) :
    ∃ k < r.len / PAGE_SIZE, (r.backing (page * PAGE_SIZE)).offset = r.offset + UInt64.ofNat (k * PAGE_SIZE) := by
  obtain ⟨h1, h2⟩ := hr
  rw [covers_iff] at hc
  unfold stop at hc
  refine ⟨page - r.start / PAGE_SIZE, ?_, ?_⟩
  · unfold PAGE_SIZE at *
    omega
  · have heq : page * PAGE_SIZE - r.start = (page - r.start / PAGE_SIZE) * PAGE_SIZE := by
      unfold PAGE_SIZE at *
      omega
    simp only [backing, heq]

/-- a new region next to the others, of a file that is mapped in the same way everywhere -/
theorem Inv.install (h : Inv usable s) {root : ℕ} (hroot : root < s.live) {a : AddressSpace}
    (ha : a.mmapRegions = rs ++ [r]) (hbump : a.mmapBump % PAGE_SIZE = 0) (htidy : Tidy rs) (hr : r.Aligned)
    (hout : ∀ x ∈ rs, x.stop ≤ r.start ∨ r.stop ≤ x.start)
    (hsub : ∀ page b, Memory.view rs (page * PAGE_SIZE) = some b → s.view root page = some b)
    (hkeep : ∀ l ∈ s.leaves, l.root = root → Memory.view rs (l.page * PAGE_SIZE) = s.view root l.page)
    (hfb : ∀ i, r.inode = some i → i.isDevFb0 = true → r.isShared = true ∧ ∀ k < r.len / PAGE_SIZE,
      s.isVram (frameOf (s.lfb + r.offset + UInt64.ofNat (k * PAGE_SIZE)).toNat) = true)
    (hmix : ∀ i, r.inode = some i → i.isDevFb0 = false → ∀ b i', s.Views b → b.inode = some i' → i'.dev = i.dev →
      i'.ino = i.ino → b.isShared = r.isShared) :
    Inv usable (s.setSpace root a) := by
  have hnew : ∀ b, (s.setSpace root a).Views b → s.Views b ∨
      (b.inode = r.inode ∧ b.isShared = r.isShared ∧
        ∃ k < r.len / PAGE_SIZE, b.offset = r.offset + UInt64.ofNat (k * PAGE_SIZE)) := by
    rintro b ⟨root', hlive, page, hv⟩
    by_cases hr' : root' = root
    · simp only [view, setSpace, hr', update_self, ha, view_append] at hv
      cases hrs : Memory.view rs (page * PAGE_SIZE) with
      | some b' =>
        rw [hrs] at hv
        cases hv
        exact .inl ⟨root, hroot, page, hsub page _ hrs⟩
      | none =>
        rw [hrs, view_cons] at hv
        by_cases hc : r.covers (page * PAGE_SIZE) = true
        · rw [if_pos hc] at hv
          cases hv
          exact .inr ⟨rfl, rfl, backing_of_covers hr hc⟩
        · rw [if_neg hc] at hv
          cases hv
    · simp only [view, setSpace, update_of_ne hr'] at hv
      exact .inl ⟨root', hlive, page, hv⟩
  have hsame : ∀ {l b}, s.Shows l b → (s.setSpace root a).view l.root l.page = some b := by
    intro l b hl
    by_cases hlr : l.root = root
    · have hb := hl.2
      rw [hlr] at hb ⊢
      simp only [view, setSpace, update_self]
      rw [ha, view_append, hkeep l hl.1 hlr, hb]
      rfl
    · simp only [view, setSpace, update_of_ne hlr]
      exact hl.2
  have hres := h.respace root a (g := Leaf.flags) ?_ hbump ?_ ?_ fun {l b} hl => ⟨b, hsame hl, rfl, h.sound hl⟩
  · rwa [show s.leaves.map (fun l => { l with flags := l.flags }) = s.leaves from map_id _] at hres
  · rw [ha]
    exact htidy.append hr hout
  · intro b b' i i' hb hb' hi hi' hf hf' hdev hino
    rcases hnew b hb with hb | ⟨hin, hsh, -⟩ <;> rcases hnew b' hb' with hb' | ⟨hin', hsh', -⟩
    · exact h.unmixed b b' i i' hb hb' hi hi' hf hf' hdev hino
    · rw [hsh']
      exact hmix i' (hin'.symm.trans hi') hf' b i hb hi hdev hino
    · rw [hsh]
      exact (hmix i (hin.symm.trans hi) hf b' i' hb' hi' hdev.symm hino.symm).symm
    · rw [hsh, hsh']
  · intro b i hb hi hf
    rcases hnew b hb with hb | ⟨hin, hsh, k, hk, hoff⟩
    · exact h.fb0 b i hb hi hf
    · obtain ⟨hshared, hvram⟩ := hfb i (hin.symm.trans hi) hf
      refine ⟨hsh.trans hshared, ?_⟩
      rw [hoff, ← UInt64.add_assoc]
      exact hvram k hk

/-- what `mmap` must meet: `/dev/fb0` is mapped shared and inside the frame buffer, and another file in the way that all
its regions map it -/
def MmapAllowed (s : Machine) (m : MmapArgs) : Prop :=
  ∀ i ∈ m.file,
    (i.isDevFb0 = true → m.isShared = true ∧ ∀ k < pageUp m.length / PAGE_SIZE,
      s.isVram (frameOf (s.lfb + m.offset + UInt64.ofNat (k * PAGE_SIZE)).toNat) = true) ∧
    (i.isDevFb0 = false → ∀ root < s.live, ∀ r ∈ (s.spaces root).mmapRegions, ∀ i' ∈ r.inode,
      i'.dev = i.dev → i'.ino = i.ino → r.isShared = m.isShared)

theorem MmapAllowed.views {m : MmapArgs} (h : s.MmapAllowed m) {i : MappedInode} (hi : m.file = some i)
    (hf : i.isDevFb0 = false) {b : Backing} {i' : MappedInode} (hb : s.Views b) (hi' : b.inode = some i')
    (hdev : i'.dev = i.dev) (hino : i'.ino = i.ino) : b.isShared = m.isShared := by
  obtain ⟨root, hroot, page, hv⟩ := hb
  obtain ⟨r, hr, -, rfl⟩ := exists_of_view hv
  exact (h i hi).2 hf root hroot r hr i' hi' hdev hino

theorem Inv.cleared (h : Inv usable s) {core root : ℕ}
    {resolved alignedLen : ℕ} (hmod : alignedLen % PAGE_SIZE = 0) (hrange : UserRange resolved alignedLen)
    {replaces : Bool}
    (hfree : replaces = false → ∀ r ∈ (s.spaces root).mmapRegions, r.stop ≤ resolved ∨ resolved + alignedLen ≤ r.start)
    {s1 : Machine}
    (hs1 : s1 = if replaces then
      (range' (resolved / PAGE_SIZE) (alignedLen / PAGE_SIZE)).foldl (Machine.releasePage core root) s else s)
    (hrs : rs = if replaces then unmapRange resolved (resolved + alignedLen) (s.spaces root).mmapRegions
      else (s.spaces root).mmapRegions) :
    (Inv usable s1 ∧ Released s s1) ∧ Tidy rs ∧
    (∀ x ∈ rs, x.stop ≤ resolved ∨ resolved + alignedLen ≤ x.start) ∧
    (∀ page b, Memory.view rs (page * PAGE_SIZE) = some b → s1.view root page = some b) ∧
    ∀ l ∈ s1.leaves, l.root = root → Memory.view rs (l.page * PAGE_SIZE) = s1.view root l.page := by
  obtain ⟨htidy, hout, hsub, hkeep⟩ := (h.tidy root).replaced hmod hrange hfree hrs
  obtain ⟨hreleased, hno⟩ := releasePages_released core root
    (range' (resolved / PAGE_SIZE) (alignedLen / PAGE_SIZE)) s
  have hinv : Inv usable s1 ∧ Released s s1 ∧ ∀ l ∈ s1.leaves, l.root = root →
      replaces = true → l.page ∉ range' (resolved / PAGE_SIZE) (alignedLen / PAGE_SIZE) := by
    rw [hs1]
    split_ifs with hrep
    · exact ⟨h.releasePages core root, hreleased, fun l hl hlr _ hp => hno l hl ⟨hlr, hp⟩⟩
    · exact ⟨h, ⟨rfl, rfl, rfl, fun _ hl => hl⟩, fun _ _ _ hbad => absurd hbad hrep⟩
  obtain ⟨h1, hrel, hgone⟩ := hinv
  have hviews : ∀ r p, s1.view r p = s.view r p := by
    intro r p
    unfold view
    rw [hrel.spaces]
  refine ⟨⟨h1, hrel⟩, htidy, hout, fun page b hv => ?_, fun l hl hlr => ?_⟩
  · rw [hviews]
    exact hsub _ b hv
  · rw [hviews]
    exact hkeep l.page (hgone l hl hlr)

theorem Inv.mmap (h : Inv usable s) (core : ℕ) {root : ℕ} (hroot : root < s.live) {m : MmapArgs} (hok : s.MmapAllowed m)
    (tablesOk : ℕ → Bool) : Inv usable (s.mmap core root m tablesOk).2 := by
  unfold Machine.mmap
  cases hmap : (s.spaces root).mmap m with
  | error e => exact h
  | ok found =>
    obtain ⟨r, a⟩ := found
    obtain ⟨resolved, alignedLen, bump, rfl, rfl, hup, hmod, hpos, hrange, hbump, hfree⟩ := mmap_spec (h.bump root) hmap
    dsimp only
    obtain ⟨⟨h1, hrel⟩, htidy, hout, hsub, hkeep⟩ := h.cleared hmod hrange hfree rfl rfl
    generalize (if m.replaces = true then
      (range' (resolved / PAGE_SIZE) (alignedLen / PAGE_SIZE)).foldl (Machine.releasePage core root) s
      else s) = s1 at h1 hrel hsub hkeep ⊢
    generalize (if m.replaces = true then
      unmapRange resolved (resolved + alignedLen) (s.spaces root).mmapRegions
      else (s.spaces root).mmapRegions) = rs at htidy hout hsub hkeep ⊢
    have hvram1 : ∀ f, s1.isVram f = s.isVram f := by
      intro f
      unfold isVram
      rw [hrel.lfb]
    have hviews1 : ∀ b, s1.Views b → s.Views b := by
      rintro b ⟨r, hr, page, hv⟩
      unfold view at hv
      rw [hrel.spaces] at hv
      exact ⟨r, hrel.live ▸ hr, page, hv⟩
    have hfb : ∀ i, m.file = some i → i.isDevFb0 = true → m.isShared = true ∧ ∀ k < alignedLen / PAGE_SIZE,
        s1.isVram (frameOf (s1.lfb + m.offset + UInt64.ofNat (k * PAGE_SIZE)).toNat) = true := by
      intro i hi hf
      obtain ⟨hshared, hv⟩ := (hok i hi).1 hf
      refine ⟨hshared, fun k hk => ?_⟩
      rw [hvram1, hrel.lfb]
      exact hv k (hup ▸ hk)
    have hlive1 : root < s1.live := hrel.live ▸ hroot
    have h2 := h1.install hlive1
      (a := { s.spaces root with mmapBump := bump, mmapRegions := rs ++
        [⟨resolved, alignedLen, m.file, m.offset, m.isShared, m.prot, false⟩] }) rfl hbump htidy ⟨hrange.aligned, hmod⟩ hout
      hsub hkeep hfb (fun i hi hf b i' hb hi' hdev hino => hok.views hi hf (hviews1 b hb) hi' hdev hino)
    split_ifs with hdev
    · obtain ⟨i, hi, hf⟩ := (Option.any_eq_true _ _).1 hdev
      obtain ⟨hshared, hv⟩ := hfb i hi hf
      apply h2.mapVrams hlive1
      intro k hk
      refine ⟨⟨m.file, m.isShared, m.offset + UInt64.ofNat (k * PAGE_SIZE), m.prot⟩, ?_, hshared, ?_⟩
      · simp only [view, setSpace, update_self]
        exact view_new (r := ⟨resolved, alignedLen, m.file, m.offset, m.isShared, m.prot, false⟩) hrange.aligned hout hmod
          (mem_range.1 hk)
      · rw [← hrel.lfb]
        exact hv k (mem_range.1 hk)
    · exact h2

/-! ## `mprotect` -/

/-- the flags of an entry after `mprotect` -/
def protectedFlags (s : Machine) (prot : ℕ) (l : Leaf) : PageFlags :=
  let kind := ((s.view l.root l.page).map fun b => (b.isShared, b.inode.isSome)).getD (false, false)
  protectFlags prot kind.1 kind.2 l.flags

theorem protectPage_eq (root prot : ℕ) (page : ℕ) :
    protectPage root prot s page = { s with leaves := s.leaves.map fun l =>
      { l with flags := if l.root = root ∧ l.page = page then s.protectedFlags prot l else l.flags } } := by
  unfold protectPage
  dsimp only
  congr 1
  apply map_congr_left
  intro l _
  by_cases hkey : l.root = root ∧ l.page = page
  · obtain ⟨rfl, rfl⟩ := hkey
    simp only [beq_self_eq_true, Bool.and_self, if_true, and_self, protectedFlags, view, Memory.view, Option.map_map]
    rfl
  · rw [Bool.eq_false_iff.2 fun h => hkey (key_iff.1 h), if_neg hkey]
    rfl

theorem protectPages_eq (root prot : ℕ) {pages : List ℕ} (hnodup : pages.Nodup) :
    pages.foldl (protectPage root prot) s = { s with leaves := s.leaves.map fun l =>
      { l with flags := if l.root = root ∧ l.page ∈ pages then s.protectedFlags prot l else l.flags } } := by
  induction pages generalizing s with
  | nil => simp
  | cons page pages ih =>
    obtain ⟨hnot, hrest⟩ := nodup_cons.1 hnodup
    rw [foldl_cons, ih hrest, protectPage_eq]
    simp only [map_map]
    congr 1
    apply map_congr_left
    intro l _
    simp only [comp]
    by_cases hr : l.root = root
    · subst hr
      by_cases hp : l.page = page
      · subst hp
        simp [hnot]
      · simp only [hp, and_false, if_false, true_and, mem_cons, false_or]
        rfl
    · simp [hr]

/-- what `mprotect` must meet: it makes no page of private anonymous memory writable whose frame has other references -/
def MprotectAllowed (s : Machine) (root addr length prot : ℕ) : Prop :=
  protWrite prot = true → ∀ l ∈ s.leaves, l.root = root → addr ≤ l.page * PAGE_SIZE →
    l.page * PAGE_SIZE < addr + pageUp length → ∀ r ∈ (s.spaces root).mmapRegions,
    r.covers (l.page * PAGE_SIZE) = true → r.isShared = false → r.inode = none →
    l.flags.writable = true ∨ s.world.phys.refs l.frame ≤ 1

/-- an entry of a page that gets another protection -/
theorem Inv.sound_protect (h : Inv usable s) {l : Leaf} {b : Backing} (hl : s.Shows l b) {prot : ℕ}
    (hone : protWrite prot = true → b.isShared = false → b.inode = none →
      l.flags.writable = true ∨ s.world.phys.refs l.frame ≤ 1) :
    s.Sound { l with flags := protectFlags prot b.isShared b.inode.isSome l.flags } { b with prot := prot } := by
  have hs := h.sound hl
  refine { hs with sole := fun hsh hwr => ?_, cow := fun hcow => ?_, writes := fun hprot => ?_ }
  · unfold protectFlags at hwr
    split_ifs at hwr with h0 hpw hanon
    · exact hs.sole hsh hwr
    · have hnone : b.inode = none := by simpa [show b.isShared = false from hsh] using hanon
      rcases hone hpw hsh hnone with hwas | hrefs
      · exact hs.sole hsh hwas
      · exact (h.held_eq_one hl hsh hrefs : s.world.held l.frame = 1)
    · exact hs.sole hsh hwr
  · unfold protectFlags at hcow
    split_ifs at hcow with h0 hpw hanon
    · exact hs.cow hcow
    · rw [Bool.or_eq_true, not_or] at hanon
      exact Bool.eq_false_iff.2 hanon.1
  · have h0 : prot ≠ 0 := by
      rintro rfl
      change protWrite 0 = true at hprot
      exact absurd hprot (by decide)
    unfold protectFlags
    rw [if_neg h0, if_pos hprot]
    split_ifs
    · exact .inl rfl
    · cases l.flags.writable
      · exact .inr (Bool.or_true _)
      · exact .inl rfl

theorem Inv.mprotect (h : Inv usable s) {root addr length prot : ℕ} (hok : s.MprotectAllowed root addr length prot) :
    Inv usable (s.mprotect root addr length prot).2 := by
  rcases s.mprotect_cases root addr length prot with heq | ⟨hmod, hpos, heq⟩ <;> rw [heq]
  · exact h
  -- regions and entries change together
  set a : AddressSpace := { s.spaces root with
    mmapRegions := (s.spaces root).mmapRegions.flatMap (protectRegion addr (addr + pageUp length) prot) } with ha
  have hlt : addr < addr + pageUp length := Nat.lt_add_of_pos_right hpos
  have hup := pageUp_mod length
  have hin : ∀ p, p ∈ range' (addr / PAGE_SIZE) (pageUp length / PAGE_SIZE) ↔
      addr ≤ p * PAGE_SIZE ∧ p * PAGE_SIZE < addr + pageUp length := by
    intro p
    rw [mem_range'_1]
    unfold PAGE_SIZE at *
    omega
  have hview : ∀ r p, (s.setSpace root a).view r p = (s.view r p).map fun b =>
      if r = root ∧ p ∈ range' (addr / PAGE_SIZE) (pageUp length / PAGE_SIZE) then { b with prot := prot } else b := by
    intro r p
    by_cases hr : r = root
    · simp only [view, setSpace, hr, update_self, ha, view_protect hlt, true_and, hin]
    · simp [view, setSpace, hr]
  have hviews : ∀ b', (s.setSpace root a).Views b' →
      ∃ b, s.Views b ∧ b'.inode = b.inode ∧ b'.isShared = b.isShared ∧ b'.offset = b.offset := by
    rintro b' ⟨r, hr, p, hv⟩
    rw [hview] at hv
    obtain ⟨b, hb, rfl⟩ := Option.map_eq_some_iff.1 hv
    refine ⟨b, ⟨r, hr, p, hb⟩, ?_⟩
    split_ifs <;> exact ⟨rfl, rfl, rfl⟩
  rw [protectPages_eq root prot nodup_range']
  refine h.respace root a ((h.tidy root).protect hlt hmod (page_add hmod hup)) (h.bump root) ?_ ?_ ?_
  · intro b1 b2 i1 i2 hb1 hb2 hi1 hi2
    obtain ⟨c1, hc1, hin1, hsh1, -⟩ := hviews b1 hb1
    obtain ⟨c2, hc2, hin2, hsh2, -⟩ := hviews b2 hb2
    rw [hsh1, hsh2]
    exact h.unmixed c1 c2 i1 i2 hc1 hc2 (hin1 ▸ hi1) (hin2 ▸ hi2)
  · intro b1 i hb1 hi1
    obtain ⟨c1, hc1, hin1, hsh1, hoff1⟩ := hviews b1 hb1
    rw [hsh1, hoff1]
    exact h.fb0 c1 i hc1 (hin1 ▸ hi1)
  · intro l b hl
    have hv := hview l.root l.page
    rw [hl.2, Option.map_some] at hv
    refine ⟨_, hv, ?_⟩
    split_ifs with hkey
    · refine ⟨rfl, ?_⟩
      rw [if_pos hkey] at hv
      have hflags : (s.setSpace root a).protectedFlags prot l = protectFlags prot b.isShared b.inode.isSome l.flags := by
        unfold protectedFlags
        rw [hv]
        rfl
      rw [hflags]
      refine h.sound_protect hl fun hpw hsh hnone => ?_
      obtain ⟨r, hr, hrc, rfl⟩ := exists_of_view hl.2
      have hpages := (hin l.page).1 hkey.2
      rw [hkey.1] at hr
      exact hok hpw l hl.1 hkey.1 hpages.1 hpages.2 r hr hrc hsh hnone
    · exact ⟨rfl, h.sound hl⟩

/-! ## `fork` -/

/-- what `fork` must meet: no counter of 8 bits overflows -/
def ForkAllowed (s : Machine) (parent : ℕ) (failsAt : Option ℕ) : Prop :=
  ∀ l ∈ s.leaves, cloned parent failsAt l = true → s.isVram l.frame = true ∨
    (s.world.phys.refs l.frame).toNat + ((s.leaves.filter (cloned parent failsAt)).map (·.frame)).count l.frame ≤ 255

theorem sharedMapping_of_shows (h : Inv usable s) {l : Leaf} {b : Backing}
    (hl : s.Shows l b) : s.sharedMapping l.root l.page = b.isShared := by
  unfold sharedMapping
  rw [any_view (h.tidy l.root).apart _ (·.isShared) (·.isShared) fun _ => rfl]
  rw [show Memory.view (s.spaces l.root).mmapRegions (l.page * PAGE_SIZE) = some b from hl.2]
  rfl

theorem writable_cowFlags (flags : PageFlags) : (cowFlags false flags).writable ≠ true := by
  unfold cowFlags
  split_ifs with hany
  · exact Bool.false_ne_true
  · exact fun hwr => hany (by rw [hwr]; rfl)

/-- the flags of an entry after the walk -/
def markFlags (s : Machine) (parent : ℕ) (failsAt : Option ℕ) (l : Leaf) : PageFlags :=
  if cloned parent failsAt l then cowFlags (s.sharedMapping l.root l.page) l.flags else l.flags

/-- a copy of the parent's regions and entries for the child, and the references counted -/
def withChild (s : Machine) (w : World) (parent : ℕ) : Machine := { s with
  world := w
  live := s.live + 1
  spaces := update s.spaces s.live (s.spaces parent)
  leaves := s.leaves ++ (s.leaves.filter (·.root == parent)).map fun l => { l with root := s.live } }

theorem incrementRef_eq (s : Machine) (f : ℕ) : ∃ w, s.incrementRef f = { s with world := w } := by
  unfold incrementRef
  split_ifs
  · exact ⟨_, rfl⟩
  · exact ⟨_, rfl⟩

namespace Inv

variable {usable : ℕ → Bool} {s : Machine}

section

variable (h : Inv usable s)
include h

theorem raises {fs : List ℕ}
    (hlt : ∀ f ∈ fs, s.isVram f = false → 0 < s.world.held f ∧ s.world.held f + fs.count f ≤ 255)
    (hno : ∀ l b, s.Shows l b → b.isShared = false → l.flags.writable = true → l.frame ∉ fs) :
    ∃ w, fs.foldl incrementRef s = { s with world := w } ∧ Inv usable { s with world := w } ∧
      ∀ g, w.held g = s.world.held g + if s.isVram g then 0 else fs.count g := by
  induction fs generalizing s with
  | nil => exact ⟨s.world, rfl, h, fun g => by simp⟩
  | cons f fs ih =>
    obtain ⟨hinv, hheld⟩ := h.raise (fun hv => (hlt f mem_cons_self hv).1)
      (fun hv => by
        have := (hlt f mem_cons_self hv).2
        rw [count_cons_self] at this
        omega)
      fun l b hl hb hw he => hno l b hl hb hw (he ▸ mem_cons_self)
    obtain ⟨w, hw⟩ := s.incrementRef_eq f
    rw [hw] at hinv hheld
    have hlt' : ∀ g ∈ fs, s.isVram g = false → 0 < w.held g ∧ w.held g + fs.count g ≤ 255 := by
      intro g hg hv
      obtain ⟨hpos, hle⟩ := hlt g (mem_cons_of_mem _ hg) hv
      have heq : w.held g = s.world.held g + if f = g ∧ s.isVram f = false then 1 else 0 := hheld g
      rw [count_cons] at hle
      by_cases he : f = g
      · subst he
        rw [if_pos ⟨rfl, hv⟩] at heq
        rw [if_pos (beq_self_eq_true f)] at hle
        omega
      · rw [if_neg fun hc => he hc.1] at heq
        omega
    obtain ⟨w', hfold, hinv', hheld'⟩ := ih hinv hlt'
      fun l b hl hb hwr he => hno l b hl hb hwr (mem_cons_of_mem _ he)
    refine ⟨w', ?_, hinv', fun g => ?_⟩
    · rw [foldl_cons, hw]
      exact hfold
    · have h1 : w'.held g = w.held g + if s.isVram g then 0 else fs.count g := hheld' g
      have h2 : w.held g = s.world.held g + if f = g ∧ s.isVram f = false then 1 else 0 := hheld g
      rw [h1, h2, count_cons]
      by_cases he : f = g
      · subst he
        cases hv : s.isVram f <;> simp
        omega
      · simp [he]

theorem marked (parent : ℕ) (failsAt : Option ℕ) :
    Inv usable { s with leaves := s.leaves.map fun l => { l with flags := s.markFlags parent failsAt l } } := by
  refine h.reflag h.tidy h.bump h.unmixed h.fb0 fun {l b} hl => ⟨b, hl.2, rfl, ?_⟩
  have hs := h.sound hl
  unfold markFlags
  rw [sharedMapping_of_shows h hl]
  split_ifs
  · refine { hs with sole := fun hsh hwr => ?_, cow := fun hcow => ?_, writes := fun hprot => ?_ }
    · dsimp only at hwr
      rw [hsh] at hwr
      exact absurd hwr (writable_cowFlags l.flags)
    · unfold cowFlags at hcow
      split_ifs at hcow with hany
      · simp only [Bool.and_eq_true, Bool.not_eq_true'] at hany
        exact hany.2
      · exact hs.cow hcow
    · unfold cowFlags
      split_ifs
      · exact .inr rfl
      · exact hs.writes hprot
  · exact hs

theorem child {parent : ℕ} (hparent : parent < s.live) {w : World}
    (h2 : Inv usable { s with world := w })
    (hheld : ∀ g, w.held g = s.world.held g + if s.isVram g then 0 else
      (s.leaves.filter (·.root == parent)).countP (·.frame == g)) :
    Inv usable (s.withChild w parent) := by
  set s3 := s.withChild w parent with hs3
  have hold : ∀ root page, root < s.live → s3.view root page = s.view root page := by
    intro root page hlt
    simp only [view, hs3, withChild, update_of_ne hlt.ne]
  have hnew : ∀ page, s3.view s.live page = s.view parent page := by
    intro page
    simp only [view, hs3, withChild, update_self]
  have hviews : ∀ b, s3.Views b → s.Views b := by
    rintro b ⟨root, hroot, page, hv⟩
    rcases Nat.lt_succ_iff_lt_or_eq.1 hroot with hlt | rfl
    · exact ⟨root, hlt, page, hold root page hlt ▸ hv⟩
    · exact ⟨parent, hparent, page, hnew page ▸ hv⟩
  have hmem : ∀ l ∈ s3.leaves, l ∈ s.leaves ∨ ∃ m ∈ s.leaves, m.root = parent ∧ l = { m with root := s.live } := by
    intro l hl
    rcases mem_append.1 hl with hl | hl
    · exact .inl hl
    · obtain ⟨m, hm, rfl⟩ := mem_map.1 hl
      obtain ⟨hm, hp⟩ := mem_filter.1 hm
      exact .inr ⟨m, hm, beq_iff_eq.1 hp, rfl⟩
  refine h2.redraw hs3 (fun _ hc => hc) (fun f => ?_) ?_ (fun l hl => ?_) ?_ ?_ ?_ ?_ (fun l hl => ?_) ?_
  · have hcount := h.counted f
    unfold references at hcount ⊢
    simp only [hs3, withChild, countP_append, countP_map]
    rw [hheld f]
    show (if s.isVram f then 0 else s.leaves.countP (·.frame == f) +
      (s.leaves.filter (·.root == parent)).countP (·.frame == f)) + _ + _ ≤ _
    split_ifs at hcount ⊢ <;> omega
  · refine pairwise_append.2 ⟨h.keys, ?_, ?_⟩
    · rw [pairwise_map]
      apply (h.keys.sublist filter_sublist).imp_of_mem
      intro l l' hl hl' hne hkey
      have h1 := beq_iff_eq.1 (mem_filter.1 hl).2
      have h2 := beq_iff_eq.1 (mem_filter.1 hl').2
      exact hne ⟨h1.trans h2.symm, hkey.2⟩
    · intro l hl l' hl' hkey
      obtain ⟨m, -, rfl⟩ := mem_map.1 hl'
      exact absurd hkey.1 (h.live l hl).ne
  · rcases hmem l hl with hl | ⟨m, hm, hp, rfl⟩
    · exact (h.live l hl).trans (Nat.lt_succ_self _)
    · exact Nat.lt_succ_self _
  · exact (forall_update_iff s.spaces fun _ a => Tidy a.mmapRegions).2 ⟨h.tidy parent, fun r _ => h.tidy r⟩
  · exact (forall_update_iff s.spaces fun _ a => a.mmapBump % PAGE_SIZE = 0).2 ⟨h.bump parent, fun r _ => h.bump r⟩
  · exact fun b b' i i' hb hb' => h.unmixed b b' i i' (hviews b hb) (hviews b' hb')
  · exact fun b i hb => h.fb0 b i (hviews b hb)
  · rcases hmem l hl with hm | ⟨m, hm, hp, rfl⟩
    · obtain ⟨b, hb⟩ := h.shown l hm
      exact ⟨b, hl, (hold l.root l.page (h.live l hm)).trans hb.2⟩
    · obtain ⟨b, hb⟩ := h.shown m hm
      exact ⟨b, hl, (hnew m.page).trans (hp ▸ hb.2)⟩
  · -- every entry is one of the old ones, seen from the same or from the new address space
    rintro l b ⟨hl, hb⟩
    rcases hmem l hl with hl | ⟨m, hm, hp, rfl⟩
    · have hs : s.Shows l b := ⟨hl, hold l.root l.page (h.live l hl) ▸ hb⟩
      exact ⟨h2.sound hs, l, b, hs, rfl, rfl⟩
    · have hs : s.Shows m b := ⟨hm, by rw [hp, ← hnew]; exact hb⟩
      have hsound := h2.sound hs
      exact ⟨{ hsound with }, m, b, hs, rfl, rfl⟩

theorem fork {parent : ℕ} (hparent : parent < s.live) {failsAt : Option ℕ}
    (hok : s.ForkAllowed parent failsAt) :
    Inv usable (s.fork parent failsAt).2 := by
  have h1 := h.marked parent failsAt
  have hmark : (s.leaves.map fun l => if cloned parent failsAt l then
      { l with flags := cowFlags (s.sharedMapping l.root l.page) l.flags } else l) =
      s.leaves.map fun l => { l with flags := s.markFlags parent failsAt l } := by
    apply map_congr_left
    intro l _
    unfold markFlags
    split_ifs <;> rfl
  unfold Machine.fork
  dsimp only
  rw [hmark]
  set s1 : Machine := { s with leaves := s.leaves.map fun l => { l with flags := s.markFlags parent failsAt l } } with hs1
  set fs := (s.leaves.filter (cloned parent failsAt)).map (·.frame) with hfs
  have hlt : ∀ f ∈ fs, s1.isVram f = false → 0 < s1.world.held f ∧ s1.world.held f + fs.count f ≤ 255 := by
    intro f hf hv
    obtain ⟨l, hl, rfl⟩ := mem_map.1 hf
    obtain ⟨hl, hc⟩ := mem_filter.1 hl
    have hpos := h.held_pos hl hv
    refine ⟨hpos, ?_⟩
    rcases hok l hl hc with hbad | hle
    · rw [show s.isVram l.frame = false from hv] at hbad
      cases hbad
    · rw [h.backed.refs_eq (h.backed.usable_of_held hpos)] at hle
      exact hle
  -- a frame that is counted is not that of a writable private page any more
  have hno : ∀ l b, s1.Shows l b → b.isShared = false → l.flags.writable = true → l.frame ∉ fs := by
    intro l b hl hb hwr hf
    obtain ⟨l', hl', hfr⟩ := mem_map.1 hf
    obtain ⟨hl', hc⟩ := mem_filter.1 hl'
    have hm' : ({ l' with flags := s.markFlags parent failsAt l' } : Leaf) ∈ s1.leaves := mem_map_of_mem hl'
    have heq := h1.alone hl hb hwr hm' hfr
    obtain ⟨b', hb'⟩ := h.shown l' hl'
    have hbb : b' = b := by
      have hv := hl.2
      rw [← heq] at hv
      exact Option.some.inj (hb'.2.symm.trans hv)
    rw [← heq] at hwr
    simp only [markFlags, hc, if_true, sharedMapping_of_shows h hb', hbb, hb] at hwr
    exact writable_cowFlags l'.flags hwr
  obtain ⟨w, hfold, h2, hheld⟩ := h1.raises hlt hno
  rw [hfold]
  cases failsAt with
  | some page => exact h2
  | none =>
    have hcl : cloned parent none = fun l => l.root == parent := by
      funext l
      exact Bool.and_true _
    have hfilter : s1.leaves.filter (·.root == parent) =
        (s.leaves.filter (cloned parent none)).map fun l => { l with flags := s.markFlags parent none l } := by
      rw [hs1, hcl]
      exact filter_map
    have hcount : ∀ g, fs.count g = (s1.leaves.filter (·.root == parent)).countP (·.frame == g) := by
      intro g
      rw [hfilter, hfs, countP_map, count, countP_map]
      rfl
    have hchild : ((s.leaves.filter (cloned parent none)).map fun l =>
        { l with root := s.live, flags := cowFlags (s.sharedMapping l.root l.page) l.flags }) =
        (s1.leaves.filter (·.root == parent)).map fun l => { l with root := s.live } := by
      rw [hfilter, map_map]
      apply map_congr_left
      intro l hl
      have hc := (mem_filter.1 hl).2
      simp only [comp, markFlags, hc, if_true]
    have hres := h1.child hparent h2 fun g => by rw [hheld g, hcount g]
    rw [withChild, ← hchild] at hres
    exact hres

end

end Inv

/-! ## Steps that change no mapping -/

/-- regions and entries are the same -/
structure SameMap (s s' : Machine) : Prop where
  live : s'.live = s.live
  spaces : s'.spaces = s.spaces
  leaves : s'.leaves = s.leaves

theorem SameMap.refl (s : Machine) : SameMap s s := ⟨rfl, rfl, rfl⟩

theorem SameMap.trans {s' s'' : Machine} (h : SameMap s s') (h' : SameMap s' s'') : SameMap s s'' :=
  ⟨h'.live.trans h.live, h'.spaces.trans h.spaces, h'.leaves.trans h.leaves⟩

variable {s s' : Machine}

section

variable (h : SameMap s s')
include h

theorem SameMap.lookup (root page : ℕ) : s'.lookup root page = s.lookup root page := by
  rw [Machine.lookup, h.leaves]
  rfl

theorem SameMap.view {root page : ℕ} : s'.view root page = s.view root page := by
  unfold Machine.view
  rw [h.spaces]

end

theorem SameMap.incrementRef (s : Machine) (f : ℕ) : SameMap s (s.incrementRef f) := by
  obtain ⟨w, hw⟩ := s.incrementRef_eq f
  rw [hw]
  exact ⟨rfl, rfl, rfl⟩

theorem sameMap_of_allocate {core : ℕ} {o : Option ℕ} (h : s.allocate core = (o, s')) : SameMap s s' := by
  cases h
  exact ⟨rfl, rfl, rfl⟩

theorem sameMap_getOrCreatePage (s : Machine) (core : ℕ) (inode : MappedInode) (fileOffset : UInt64) (readOk : Bool) :
    SameMap s (s.getOrCreatePage core inode fileOffset readOk).2 := by
  unfold getOrCreatePage
  split
  · exact SameMap.refl s
  · split
    · next hal => exact sameMap_of_allocate hal
    · next s1 hal =>
      have hsame := sameMap_of_allocate hal
      split_ifs <;> exact hsame.trans ⟨rfl, rfl, rfl⟩

end Machine

end Kontsnor.Memory
