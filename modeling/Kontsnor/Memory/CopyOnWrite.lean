/-
The invariant behind copy-on-write.

Three things refer to a frame: entries of page tables, the page cache and the rest of the kernel. The allocator counts
these references in 8 bits, for the frames that it has (`World.Backed`). What a page of an address space maps is
`Machine.view`. `Machine.Inv`: every reference is counted, every entry lies in a region and fits what is mapped there
(`Leaf.Sound`), and the pages with one frame are all private or all shared (`kind`).
-/
import Kontsnor.Memory.Regions

namespace Kontsnor.Memory

open List Function

/-! ## Frames behind the page tables -/

namespace Physical

variable {usable : ℕ → Bool}

/-- the state without the counters of frames that the allocator does not have, such as those of the frame buffer -/
def veil (usable : ℕ → Bool) (p : Physical) : Physical :=
  { p with refs := fun f => if usable f then p.refs f else 0 }

theorem veil_update {refs : ℕ → UInt8} {f : ℕ} (hf : usable f = true) (c : UInt8) :
    (fun g => if usable g then update refs f c g else 0) = update (fun g => if usable g then refs g else 0) f c := by
  funext g
  by_cases hg : g = f
  · rw [hg, update_self, update_self, if_pos hf]
  · rw [update_of_ne hg, update_of_ne hg]

variable {addr : ℕ}

section

variable (p : Physical)

theorem veil_incrementRef (hf : usable (frameOf addr) = true) :
    (p.incrementRef addr).veil usable = (p.veil usable).incrementRef addr := by
  unfold incrementRef
  split_ifs
  · simp only [veil, veil_update hf, hf, if_true]
  · rfl

theorem veil_outside (hf : usable (frameOf addr) = false) : (p.incrementRef addr).veil usable = p.veil usable := by
  unfold incrementRef
  split_ifs
  · unfold veil
    simp only
    congr 1
    funext g
    by_cases hg : g = frameOf addr
    · rw [hg, hf]
      rfl
    · rw [update_of_ne hg]
  · rfl

theorem veil_dropRef {f : ℕ} (hf : usable f = true) : (p.dropRef f).veil usable = (p.veil usable).dropRef f := by
  have href : (p.veil usable).refs f = p.refs f := if_pos hf
  unfold dropRef
  rw [href]
  split_ifs
  · rfl
  · simp only [veil, veil_update hf]

theorem veil_reclaim (core addr : ℕ) : (p.reclaim core addr).veil usable = (p.veil usable).reclaim core addr := by
  unfold reclaim veil
  split_ifs <;> rfl

theorem veil_deallocateFrame (core : ℕ) (hf : usable (frameOf addr) = true) :
    (p.deallocateFrame core addr).veil usable = (p.veil usable).deallocateFrame core addr := by
  have href : ∀ q : Physical, (q.veil usable).refs (frameOf addr) = q.refs (frameOf addr) := fun q => if_pos hf
  unfold deallocateFrame
  simp only [← veil_dropRef p hf, href]
  split_ifs
  · rfl
  · rfl
  · exact veil_reclaim _ core addr
  · exact veil_reclaim p core addr

theorem veil_decrementRef (hf : usable (frameOf addr) = true) :
    (p.decrementRef addr).2.veil usable = ((p.veil usable).decrementRef addr).2 := by
  unfold decrementRef
  split_ifs
  · exact veil_dropRef p hf
  · rfl

end

end Physical

/-- ownership holds for the frames that the allocator has -/
def World.Backed (usable : ℕ → Bool) (w : World) : Prop := Owned usable ⟨w.phys.veil usable, w.held⟩

namespace World.Backed

variable {usable : ℕ → Bool} {w : World}

variable {f : ℕ}

section

variable (h : w.Backed usable)
include h

theorem usable_of_held (hf : 0 < w.held f) : usable f = true := by
  apply Owned.usable_of_pos h
  show 0 < w.phys.slots f + min 1 (w.held f)
  omega

theorem refs_eq (hf : usable f = true) : (w.phys.refs f).toNat = w.held f := by
  have hc := h.counted f (h.below f hf)
  simpa [Physical.veil, hf] using hc

/-- an allocation: the frame was held by nobody, and gets its first reference -/
theorem allocate (core : ℕ) : (w.step (.allocateFrame core)).Backed usable ∧
    ∀ f, (w.phys.allocateFrame core).1.map frameOf = some f → usable f = true ∧ w.held f = 0 := by
  obtain ⟨hslots, hrefs⟩ := allocateFrame_grants w.phys core
  have hfresh : ∀ f ∈ ((w.phys.allocateFrame core).1.map frameOf).toList, usable f = true ∧ w.held f = 0 := by
    intro f hf
    have hcount := count_pos_iff.2 hf
    have hle := hslots f
    have hpos : 0 < w.phys.slots f := by omega
    refine ⟨?_, Owned.unheld h hpos⟩
    apply Owned.usable_of_pos h
    exact Nat.add_pos_left hpos _
  refine ⟨?_, fun f hf => hfresh f (by rw [hf]; exact mem_singleton_self f)⟩
  have hgrants : (w.phys.veil usable).Grants ((w.phys.allocateFrame core).2.veil usable)
      ((w.phys.allocateFrame core).1.map frameOf).toList := by
    refine ⟨hslots, fun f hf => ?_⟩
    by_cases hu : usable f = true
    · simpa [Physical.veil, hu] using hrefs f hf
    · have hnot : f ∉ ((w.phys.allocateFrame core).1.map frameOf).toList := fun hmem => hu (hfresh f hmem).1
      rw [if_neg hnot]
      simp [Physical.veil, hu]
  exact Owned.grant h hgrants

/-- a counter that the allocator does not look at -/
theorem outside (hf : usable f = false) : (⟨w.phys.incrementRef (f * PAGE_SIZE), w.held⟩ : World).Backed usable := by
  unfold World.Backed
  rw [Physical.veil_outside _ (by rwa [frameOf_mul])]
  exact h

theorem increment (hpos : 0 < w.held f) (hlt : w.held f < 255) :
    (w.step (.incrementRef (f * PAGE_SIZE))).Backed usable := by
  have hu : usable (frameOf (f * PAGE_SIZE)) = true := by
    rw [frameOf_mul]
    exact h.usable_of_held hpos
  have hrule : 0 < w.held (frameOf (f * PAGE_SIZE)) ∧ w.held (frameOf (f * PAGE_SIZE)) < 255 := by
    rw [frameOf_mul]
    exact ⟨hpos, hlt⟩
  have hallowed : World.Allowed ⟨w.phys.veil usable, w.held⟩ (.incrementRef (f * PAGE_SIZE)) :=
    ⟨nofun, hrule⟩
  have hstep := Owned.step h hallowed
  unfold World.Backed
  simp only [World.step, World.perform, w.phys.veil_incrementRef hu]
  exact hstep

/-- a reference is dropped, by `deallocate_frame` or by `decrement_ref` -/
theorem deallocate (core : ℕ) (hpos : 0 < w.held f) :
    (w.step (.deallocateFrame core (f * PAGE_SIZE))).Backed usable ∧
    (w.step (.decrementRef (f * PAGE_SIZE))).Backed usable := by
  have hu : usable (frameOf (f * PAGE_SIZE)) = true := by
    rw [frameOf_mul]
    exact h.usable_of_held hpos
  have hheld : ∀ g ∈ [frameOf (f * PAGE_SIZE)], 0 < w.held g := by
    intro g hg
    rw [mem_singleton.1 hg, frameOf_mul]
    exact hpos
  have hall1 : World.Allowed ⟨w.phys.veil usable, w.held⟩ (.deallocateFrame core (f * PAGE_SIZE)) := ⟨hheld, trivial⟩
  have hall2 : World.Allowed ⟨w.phys.veil usable, w.held⟩ (.decrementRef (f * PAGE_SIZE)) := ⟨hheld, trivial⟩
  have h1 := Owned.step h hall1
  have h2 := Owned.step h hall2
  unfold World.Backed
  simp only [World.step, World.perform, w.phys.veil_deallocateFrame core hu, w.phys.veil_decrementRef hu]
  exact ⟨h1, h2⟩

end

end World.Backed

/-! ## The invariant -/

namespace Leaf

/-- two entries of different pages -/
def Other (l l' : Leaf) : Prop := ¬ (l.root = l'.root ∧ l.page = l'.page)

theorem Other.symm {l l' : Leaf} (h : l.Other l') : l'.Other l := fun ⟨h1, h2⟩ => h ⟨h1.symm, h2.symm⟩

/-- what an entry must meet at a page where `b` is mapped -/
structure Sound (held : ℕ → ℕ) (isVram : ℕ → Bool) (cache : List CachedPage) (l : Leaf) (b : Backing) : Prop where
  /-- a writable private page has its frame for itself -/
  sole : b.isShared = false → l.flags.writable = true → held l.frame = 1
  /-- a page with a frame of the page cache maps that file -/
  file : ∀ c ∈ cache, l.frame = c.frame → ∃ i, b.inode = some i ∧ i.isDevFb0 = false ∧ i.dev = c.dev ∧ i.ino = c.ino
  vram : isVram l.frame = true → b.isShared = true
  cow : l.flags.cow = true → b.isShared = false
  /-- a page that may be written is writable or copied on a write -/
  writes : protWrite b.prot = true → l.flags.writable = true ∨ l.flags.cow = true

end Leaf

namespace Machine

def view (s : Machine) (root page : ℕ) : Option Backing := Memory.view (s.spaces root).mmapRegions (page * PAGE_SIZE)

variable (s : Machine)

/-- `l` is an entry, and `b` is mapped at its page -/
def Shows (l : Leaf) (b : Backing) : Prop := l ∈ s.leaves ∧ s.view l.root l.page = some b

abbrev Sound : Leaf → Backing → Prop := Leaf.Sound s.world.held s.isVram s.cache

/-- the references to a frame from page tables, from the page cache and from the rest of the kernel -/
def references (f : ℕ) : ℕ :=
  (if s.isVram f then 0 else s.leaves.countP (·.frame == f)) + s.cache.countP (·.frame == f) + s.kernel.count f

/-- some page of an address space is mapped from `b` -/
def Views (b : Backing) : Prop := ∃ root < s.live, ∃ page, s.view root page = some b

/-- every file is mapped shared or private, not both -/
def Unmixed : Prop :=
  ∀ b b' i i', s.Views b → s.Views b' → b.inode = some i → b'.inode = some i' → i.isDevFb0 = false →
    i'.isDevFb0 = false → i.dev = i'.dev → i.ino = i'.ino → b.isShared = b'.isShared

/-- `/dev/fb0` is mapped shared, and only where the frame buffer is -/
def FbShared : Prop :=
  ∀ b i, s.Views b → b.inode = some i → i.isDevFb0 = true →
    b.isShared = true ∧ s.isVram (frameOf (s.lfb + b.offset).toNat) = true

structure Inv (usable : ℕ → Bool) (s : Machine) : Prop where
  backed : s.world.Backed usable
  plain : ∀ f, usable f = true → s.isVram f = false
  /-- every reference is counted -/
  counted : ∀ f, s.references f ≤ s.world.held f
  keys : s.leaves.Pairwise Leaf.Other
  live : ∀ l ∈ s.leaves, l.root < s.live
  tidy : ∀ root, Tidy (s.spaces root).mmapRegions
  bump : ∀ root, (s.spaces root).mmapBump % PAGE_SIZE = 0
  unmixed : s.Unmixed
  fb0 : s.FbShared
  shown : ∀ l ∈ s.leaves, ∃ b, s.Shows l b
  sound : ∀ {l b}, s.Shows l b → s.Sound l b
  /-- pages with one frame are all private or all shared -/
  kind : ∀ l l' b b', s.Shows l b → s.Shows l' b' → l.frame = l'.frame → b.isShared = b'.isShared
  /-- a frame holds a page of one file -/
  origin : ∀ c ∈ s.cache, ∀ c' ∈ s.cache, c.frame = c'.frame → c.dev = c'.dev ∧ c.ino = c'.ino

theorem two_le_countP {α : Type} {p : α → Bool} {xs : List α} {x y : α} (hx : x ∈ xs) (hy : y ∈ xs) (hne : x ≠ y)
    (hpx : p x = true) (hpy : p y = true) : 2 ≤ xs.countP p := by
  obtain ⟨as, bs, rfl⟩ := append_of_mem hx
  rw [countP_append, countP_cons, if_pos hpx]
  rcases mem_append.1 hy with hy | hy
  · have := countP_pos_iff.2 ⟨y, hy, hpy⟩
    omega
  · rcases mem_cons.1 hy with hy | hy
    · exact absurd hy.symm hne
    · have := countP_pos_iff.2 ⟨y, hy, hpy⟩
      omega

namespace Inv

variable {usable : ℕ → Bool} {s : Machine}

variable {l : Leaf} {b : Backing}

theorem not_vram (h : Inv usable s) (hl : s.Shows l b) (hb : b.isShared = false) : s.isVram l.frame = false := by
  cases hv : s.isVram l.frame with
  | false => rfl
  | true =>
    rw [(h.sound hl).vram hv] at hb
    cases hb

theorem references_pos (hl : l ∈ s.leaves) (hv : s.isVram l.frame = false) : 0 < s.references l.frame := by
  have hc : 0 < s.leaves.countP (·.frame == l.frame) := countP_pos_iff.2 ⟨l, hl, beq_self_eq_true _⟩
  unfold references
  rw [hv]
  simp only [Bool.false_eq_true, if_false]
  omega

section

variable (h : Inv usable s)
include h

theorem held_pos (hl : l ∈ s.leaves) (hv : s.isVram l.frame = false) : 0 < s.world.held l.frame :=
  (references_pos hl hv).trans_le (h.counted l.frame)

variable (hl : s.Shows l b)
include hl

variable (hb : b.isShared = false)
include hb

theorem refs_eq : (s.world.phys.refs l.frame).toNat = s.world.held l.frame :=
  h.backed.refs_eq (h.backed.usable_of_held (h.held_pos hl.1 (h.not_vram hl hb)))

theorem held_eq_one
    (hrefs : s.world.phys.refs l.frame ≤ 1) : s.world.held l.frame = 1 := by
  have hpos := h.held_pos hl.1 (h.not_vram hl hb)
  have heq := h.refs_eq hl hb
  have hle : (s.world.phys.refs l.frame).toNat ≤ 1 := UInt8.le_iff_toNat_le.1 hrefs
  omega

theorem alone {l' : Leaf}
    (hw : l.flags.writable = true) (hl' : l' ∈ s.leaves) (hf : l'.frame = l.frame) : l' = l := by
  by_contra hne
  have hone := (h.sound hl).sole hb hw
  have hle := h.counted l.frame
  have htwo : 2 ≤ s.leaves.countP (·.frame == l.frame) :=
    two_le_countP hl.1 hl' (Ne.symm hne) (beq_self_eq_true _) (by rw [hf]; exact beq_self_eq_true _)
  unfold references at hle
  rw [h.not_vram hl hb] at hle
  simp only [Bool.false_eq_true, if_false] at hle
  omega

theorem not_cached
    (hw : l.flags.writable = true) {c : CachedPage} (hc : c ∈ s.cache) : c.frame ≠ l.frame := by
  intro hf
  have hone := (h.sound hl).sole hb hw
  have hle := h.counted l.frame
  have h1 : 0 < s.leaves.countP (·.frame == l.frame) := countP_pos_iff.2 ⟨l, hl.1, beq_self_eq_true _⟩
  have h2 : 0 < s.cache.countP (·.frame == l.frame) :=
    countP_pos_iff.2 ⟨c, hc, by rw [hf]; exact beq_self_eq_true _⟩
  unfold references at hle
  rw [h.not_vram hl hb] at hle
  simp only [Bool.false_eq_true, if_false] at hle
  omega

end

/-! ### Single changes -/

theorem references_leaf (f : ℕ) : references { s with leaves := s.leaves ++ [l] } f =
    s.references f + if l.frame = f ∧ s.isVram f = false then 1 else 0 := by
  have hvram : isVram { s with leaves := s.leaves ++ [l] } f = s.isVram f := rfl
  unfold references
  simp only [hvram, countP_append, countP_singleton, beq_iff_eq]
  cases s.isVram f <;> simp
  omega

theorem counted_one (h : Inv usable s) {f : ℕ} (hslack : s.references f < s.world.held f) (g : ℕ) :
    s.references g + (if f = g then 1 else 0) ≤ s.world.held g := by
  split_ifs with he
  · rw [← he]
    exact hslack
  · exact h.counted g

theorem reworld (h : Inv usable s) {w : World} (hback : w.Backed usable) (hcount : ∀ f, s.references f ≤ w.held f)
    (hsole : ∀ l b, s.Shows l b → b.isShared = false → l.flags.writable = true → w.held l.frame = 1) :
    Inv usable { s with world := w } :=
  { h with backed := hback, counted := hcount, sound := fun hl => { h.sound hl with sole := hsole _ _ hl } }

variable {leaves : List Leaf} {cache : List CachedPage}

theorem references_le {kernel : List ℕ} (hl : leaves.Sublist s.leaves)
    (hc : cache.Sublist s.cache) (hk : kernel.Sublist s.kernel) (f : ℕ) :
    references { s with leaves := leaves, cache := cache, kernel := kernel } f ≤ s.references f := by
  have h1 : leaves.countP (·.frame == f) ≤ s.leaves.countP (·.frame == f) := hl.countP_le
  have h2 : cache.countP (·.frame == f) ≤ s.cache.countP (·.frame == f) := hc.countP_le
  have h3 := hk.count_le f
  show (if s.isVram f then 0 else leaves.countP (·.frame == f)) + cache.countP (·.frame == f) + kernel.count f ≤
    (if s.isVram f then 0 else s.leaves.countP (·.frame == f)) + s.cache.countP (·.frame == f) + s.kernel.count f
  split_ifs <;> omega

/-- address spaces and entries are drawn anew: what an entry shows fits, and its frame was shown in the same way before -/
theorem redraw (h : Inv usable s) {live : ℕ} {spaces : ℕ → AddressSpace} {kernel : List ℕ} {s' : Machine}
    (hs' : s' = { s with live := live, spaces := spaces, leaves := leaves, cache := cache, kernel := kernel })
    (hc : cache ⊆ s.cache)
    (hcounted : ∀ f, s'.references f ≤ s.world.held f) (hkeys : leaves.Pairwise Leaf.Other)
    (hlive : ∀ l ∈ leaves, l.root < live) (htidy : ∀ root, Tidy (spaces root).mmapRegions)
    (hbump : ∀ root, (spaces root).mmapBump % PAGE_SIZE = 0) (hunmixed : s'.Unmixed) (hfb : s'.FbShared)
    (hshown : ∀ l ∈ leaves, ∃ b, s'.Shows l b)
    (hback : ∀ {l b'}, s'.Shows l b' → s.Sound l b' ∧ ∃ m b, s.Shows m b ∧ m.frame = l.frame ∧ b.isShared = b'.isShared) :
    Inv usable s' := by
  subst hs'
  refine { h with
    counted := hcounted, keys := hkeys, live := hlive, tidy := htidy, bump := hbump, unmixed := hunmixed, fb0 := hfb
    shown := hshown
    sound := fun hl => ?_
    kind := fun l1 l2 b1 b2 hl1 hl2 hf => ?_
    origin := fun c hmem c' hmem' => h.origin c (hc hmem) c' (hc hmem') }
  · obtain ⟨hsound, -⟩ := hback hl
    exact { hsound with file := fun c hmem => hsound.file c (hc hmem) }
  · obtain ⟨-, m1, c1, hm1, hf1, hsh1⟩ := hback hl1
    obtain ⟨-, m2, c2, hm2, hf2, hsh2⟩ := hback hl2
    rw [← hsh1, ← hsh2]
    exact h.kind m1 m2 c1 c2 hm1 hm2 (hf1.trans (hf.trans hf2.symm))

variable (h : Inv usable s)
include h

theorem reduced {kernel : List ℕ} (hl : leaves ⊆ s.leaves) (hkeys : leaves.Pairwise Leaf.Other)
    (hc : cache ⊆ s.cache)
    (hcount : ∀ f, references { s with leaves := leaves, cache := cache, kernel := kernel } f ≤ s.references f) :
    Inv usable { s with leaves := leaves, cache := cache, kernel := kernel } := by
  refine h.redraw rfl hc (fun f => (hcount f).trans (h.counted f)) hkeys (fun l hmem => h.live l (hl hmem)) h.tidy h.bump
    h.unmixed h.fb0 (fun l hmem => ?_) fun {l b} hs => ⟨h.sound ⟨hl hs.1, hs.2⟩, l, b, ⟨hl hs.1, hs.2⟩, rfl, rfl⟩
  obtain ⟨b, hb⟩ := h.shown l (hl hmem)
  exact ⟨b, hmem, hb.2⟩

theorem thin {kernel : List ℕ}
    (hl : leaves.Sublist s.leaves) (hc : cache.Sublist s.cache) (hk : kernel.Sublist s.kernel) :
    Inv usable { s with leaves := leaves, cache := cache, kernel := kernel } :=
  h.reduced hl.subset (h.keys.sublist hl) hc.subset (references_le hl hc hk)

theorem perm (hp : leaves.Perm s.leaves) : Inv usable { s with leaves := leaves } := by
  refine h.reduced hp.subset ((hp.pairwise_iff fun hx => hx.symm).2 h.keys) (fun _ hc => hc) fun f => ?_
  unfold references
  rw [show ({ s with leaves := leaves } : Machine).leaves.countP (·.frame == f) = s.leaves.countP (·.frame == f) from
    hp.countP_eq _]
  exact le_rfl

/-- what a new entry must meet -/
structure Fits (s : Machine) (l : Leaf) (b : Backing) : Prop where
  view : s.view l.root l.page = some b
  live : l.root < s.live
  free : ∀ l' ∈ s.leaves, l'.Other l
  counted : s.isVram l.frame = false → s.references l.frame < s.world.held l.frame
  sound : s.Sound l b
  kind : ∀ l' b', s.Shows l' b' → l'.frame = l.frame → b'.isShared = b.isShared

theorem add (hfit : Fits s l b) : Inv usable { s with leaves := s.leaves ++ [l] } := by
  have hshows : ∀ {l' : Leaf} {b' : Backing}, Shows { s with leaves := s.leaves ++ [l] } l' b' →
      s.Shows l' b' ∨ (l' = l ∧ b' = b) := by
    rintro l' b' ⟨hmem, hv⟩
    rcases mem_append.1 hmem with hmem | hmem
    · exact .inl ⟨hmem, hv⟩
    · cases mem_singleton.1 hmem
      exact .inr ⟨rfl, Option.some.inj (hv.symm.trans hfit.view)⟩
  refine { h with
    counted := fun f => ?_
    keys := pairwise_append.2 ⟨h.keys, pairwise_singleton _ _, fun l1 h1 l2 h2 => ?_⟩
    live := fun l' hmem => ?_
    shown := fun l' hmem => ?_
    sound := fun {l' b'} hs => ?_
    kind := fun l1 l2 b1 b2 hs1 hs2 hf => ?_ }
  · rw [references_leaf]
    split_ifs with he
    · obtain ⟨rfl, hv⟩ := he
      exact hfit.counted hv
    · exact h.counted f
  · rw [mem_singleton.1 h2]
    exact hfit.free l1 h1
  · rcases mem_append.1 hmem with hmem | hmem
    · exact h.live l' hmem
    · rw [mem_singleton.1 hmem]
      exact hfit.live
  · rcases mem_append.1 hmem with hm | hm
    · obtain ⟨b', hb'⟩ := h.shown l' hm
      exact ⟨b', hmem, hb'.2⟩
    · exact ⟨b, hmem, by rw [mem_singleton.1 hm]; exact hfit.view⟩
  · rcases hshows hs with hs | ⟨rfl, rfl⟩
    · exact h.sound hs
    · exact hfit.sound
  · rcases hshows hs1 with h1 | ⟨rfl, rfl⟩ <;> rcases hshows hs2 with h2 | ⟨rfl, rfl⟩
    · exact h.kind l1 l2 b1 b2 h1 h2 hf
    · exact hfit.kind l1 b1 h1 hf
    · exact (hfit.kind l2 b2 h2 hf.symm).symm
    · rfl

/-- entries get other flags, and address spaces other regions -/
theorem reflag {spaces : ℕ → AddressSpace} {g : Leaf → PageFlags} (htidy : ∀ root, Tidy (spaces root).mmapRegions)
    (hbump : ∀ root, (spaces root).mmapBump % PAGE_SIZE = 0) (hunmixed : Unmixed { s with spaces := spaces })
    (hfb : FbShared { s with spaces := spaces })
    (hsound : ∀ {l b}, s.Shows l b → ∃ b', Memory.view (spaces l.root).mmapRegions (l.page * PAGE_SIZE) = some b' ∧
      b.isShared = b'.isShared ∧ s.Sound { l with flags := g l } b') :
    Inv usable { s with spaces := spaces, leaves := s.leaves.map fun l => { l with flags := g l } } := by
  refine h.redraw rfl (fun _ hc => hc) (fun f => ?_) (pairwise_map.2 h.keys) (fun l' hmem => ?_) htidy hbump hunmixed hfb
    (fun l' hmem => ?_) ?_
  · have hcount := h.counted f
    unfold references at hcount ⊢
    simp only [countP_map]
    exact hcount
  · obtain ⟨l, hl, rfl⟩ := mem_map.1 hmem
    exact h.live l hl
  · obtain ⟨l, hl, rfl⟩ := mem_map.1 hmem
    obtain ⟨b, hb⟩ := h.shown l hl
    obtain ⟨b', hb', -⟩ := hsound hb
    exact ⟨b', hmem, hb'⟩
  · rintro l' b' ⟨hmem, hv⟩
    obtain ⟨l, hl, rfl⟩ := mem_map.1 hmem
    obtain ⟨b, hb⟩ := h.shown l hl
    obtain ⟨b'', hb'', hsh, hs⟩ := hsound hb
    cases hv.symm.trans hb''
    exact ⟨hs, l, b, hb, rfl, hsh⟩

/-! ### Frames taken and given back -/

theorem drop (core : ℕ) {f : ℕ} (hslack : s.references f < s.world.held f) :
    Inv usable (s.deallocate core f) ∧ Inv usable (s.call (.decrementRef (f * PAGE_SIZE))) := by
  have hpos : 0 < s.world.held f := Nat.zero_lt_of_lt hslack
  obtain ⟨hb1, hb2⟩ := h.backed.deallocate core hpos
  have hheld : ∀ g, s.world.held g - [frameOf (f * PAGE_SIZE)].count g = s.world.held g - if f = g then 1 else 0 := by
    intro g
    rw [frameOf_mul, count_singleton]
    simp
  have hcount : ∀ g, s.references g ≤ s.world.held g - [frameOf (f * PAGE_SIZE)].count g := by
    intro g
    rw [hheld]
    split_ifs with he
    · rw [← he]
      omega
    · exact h.counted g
  have hsole : ∀ l b, s.Shows l b → b.isShared = false → l.flags.writable = true →
      s.world.held l.frame - [frameOf (f * PAGE_SIZE)].count l.frame = 1 := by
    intro l b hl hb hw
    have hone := (h.sound hl).sole hb hw
    have hne : ¬ f = l.frame := by
      intro he
      have := references_pos hl.1 (h.not_vram hl hb)
      rw [he] at hslack
      omega
    rw [hheld, if_neg hne]
    exact hone
  exact ⟨h.reworld hb1 hcount hsole, h.reworld hb2 hcount hsole⟩

/-- one more reference to a frame that has some, and that is not the frame of a writable private page -/
theorem raise {f : ℕ} (hpos : s.isVram f = false → 0 < s.world.held f)
    (hlt : s.isVram f = false → s.world.held f < 255)
    (hno : ∀ l b, s.Shows l b → b.isShared = false → l.flags.writable = true → l.frame ≠ f) :
    Inv usable (s.incrementRef f) ∧
    ∀ g, (s.incrementRef f).world.held g = s.world.held g + if f = g ∧ s.isVram f = false then 1 else 0 := by
  unfold incrementRef
  cases hv : s.isVram f with
  | true =>
    have hu : usable f = false := by
      cases hu : usable f with
      | false => rfl
      | true => rw [h.plain f hu] at hv; cases hv
    refine ⟨h.reworld (h.backed.outside hu) h.counted fun _ _ hl => (h.sound hl).sole, fun g => ?_⟩
    simp
  | false =>
    have hheld : ∀ g, (s.world.step (.incrementRef (f * PAGE_SIZE))).held g = s.world.held g + if f = g then 1 else 0 := by
      simp only [World.step, World.gained, World.dropped, frameOf_mul, count_singleton, count_nil]
      simp
    refine ⟨?_, fun g => ?_⟩
    rotate_left
    · show (s.world.step _).held g = _
      simpa using hheld g
    apply h.reworld (h.backed.increment (hpos hv) (hlt hv))
    · intro g
      exact (h.counted g).trans (by rw [hheld]; omega)
    · intro l b hl hb hw
      rw [hheld, if_neg (Ne.symm (hno l b hl hb hw))]
      exact (h.sound hl).sole hb hw

end Inv

end Machine

end Kontsnor.Memory
