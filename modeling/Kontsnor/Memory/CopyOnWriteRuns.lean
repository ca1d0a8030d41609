/-
Copy-on-write isolation over runs.

A page fault keeps `Machine.Inv` as well (`Inv.pageFault`): the only reference makes the page writable, another makes a
copy. So the invariant holds after every run whose steps meet `Machine.Allowed`.
-/
import Kontsnor.Memory.CopyOnWriteCalls

namespace Kontsnor.Memory

open List Option Bool FrameAllocator Runs Nat

namespace Machine

/-! ## Page faults -/

variable {s : Machine} {f : ℕ}

/-- a frame that has just been allocated: nothing refers to it -/
structure Fresh (usable : ℕ → Bool) (s : Machine) (f : ℕ) : Prop where
  usable : usable f = true
  unused : s.references f = 0
  held : s.world.held f = 1

theorem Fresh.slack {usable : ℕ → Bool} (h : Fresh usable s f) : s.references f < s.world.held f := by
  rw [h.unused, h.held]
  exact one_pos

namespace Inv

variable {usable : ℕ → Bool} {s : Machine}

section

variable (h : Inv usable s)
include h

theorem not_referenced (hnew : Fresh usable s f) : (∀ l ∈ s.leaves, l.frame ≠ f) ∧ ∀ c ∈ s.cache, c.frame ≠ f := by
  have hzero := hnew.unused
  unfold references at hzero
  rw [h.plain f hnew.usable] at hzero
  simp only [false_eq_true, if_false, Nat.add_eq_zero_iff] at hzero
  refine ⟨fun l hl he => ?_, fun c hc he => ?_⟩
  · have := countP_eq_zero.1 hzero.1.1 l hl
    simp [he] at this
  · have := countP_eq_zero.1 hzero.1.2 c hc
    simp [he] at this

theorem allocated {core : ℕ} {o : Option ℕ} {s1 : Machine} (ha : s.allocate core = (o, s1)) :
    Inv usable s1 ∧ ∀ f, o = some f → Fresh usable s1 f := by
  obtain ⟨hback, hfresh⟩ := h.backed.allocate core
  obtain rfl : (s.allocate core).1 = o := congrArg Prod.fst ha
  obtain rfl : (s.allocate core).2 = s1 := congrArg Prod.snd ha
  have hheld : ∀ g, (s.allocate core).2.world.held g = s.world.held g + (s.allocate core).1.toList.count g := fun g => rfl
  refine ⟨h.reworld hback (fun g => (h.counted g).trans (Nat.le_add_right ..)) fun l b hl hb hw => ?_,
    fun f hf => ?_⟩
  · have hone := (h.sound hl).sole hb hw
    have hnot : l.frame ∉ (s.allocate core).1.toList := by
      intro hmem
      have := (hfresh l.frame (mem_toList.1 hmem)).2
      omega
    exact (hheld l.frame).trans (by rw [count_eq_zero_of_not_mem hnot, hone])
  · obtain ⟨hu, hzero⟩ := hfresh f hf
    refine ⟨hu, ?_, ?_⟩
    · exact le_zero.1 (hzero ▸ h.counted f)
    · rw [hheld, hzero, hf]
      simp

theorem cache {c : CachedPage} (hnew : Fresh usable s c.frame) : Inv usable { s with cache := s.cache ++ [c] } := by
  obtain ⟨hno, hnoc⟩ := h.not_referenced hnew
  refine { h with
    counted := fun f => ?_
    sound := fun {l b} hl => { h.sound hl with file := fun c' hc' hf => ?_ }
    origin := fun c1 h1 c2 h2 hf => ?_ }
  · have hcount := h.counted_one hnew.slack f
    show (if s.isVram f then 0 else s.leaves.countP _) + (s.cache ++ [c]).countP (·.frame == f) + s.kernel.count f ≤ _
    rw [countP_append, countP_singleton]
    unfold references at hcount
    simp only [beq_iff_eq]
    omega
  · rcases mem_append.1 hc' with hc' | hc'
    · exact (h.sound hl).file c' hc' hf
    · rw [mem_singleton.1 hc'] at hf
      exact absurd hf (hno l hl.1)
  · rcases mem_append.1 h1 with h1 | h1 <;> rcases mem_append.1 h2 with h2 | h2
    · exact h.origin c1 h1 c2 h2 hf
    · rw [mem_singleton.1 h2] at hf
      exact absurd hf (hnoc c1 h1)
    · rw [mem_singleton.1 h1] at hf
      exact absurd hf.symm (hnoc c2 h2)
    · rw [mem_singleton.1 h1, mem_singleton.1 h2]
      exact ⟨rfl, rfl⟩

/-- a page of a file, from the cache or read into it -/
theorem getOrCreatePage (core : ℕ) (inode : MappedInode) (fileOffset : UInt64) (readOk : Bool) :
    Inv usable (s.getOrCreatePage core inode fileOffset readOk).2 ∧
    ∀ frame, (s.getOrCreatePage core inode fileOffset readOk).1 = some frame →
      ∃ c ∈ (s.getOrCreatePage core inode fileOffset readOk).2.cache, c.frame = frame ∧ c.dev = inode.dev ∧
        c.ino = inode.ino ∧ ((s.cachedPage inode fileOffset = some c ∧
          (s.getOrCreatePage core inode fileOffset readOk).2 = s) ∨
          (s.getOrCreatePage core inode fileOffset readOk).2.world.held frame = 1) := by
  unfold Machine.getOrCreatePage
  cases hc : s.cachedPage inode fileOffset with
  | some c =>
    refine ⟨h, fun frame hf => ?_⟩
    have hkey := find?_some hc
    simp only [and_eq_true, beq_iff_eq] at hkey
    exact ⟨c, mem_of_find?_eq_some hc, some.inj hf, hkey.1.1, hkey.1.2, .inl ⟨rfl, rfl⟩⟩
  | none =>
    rcases ha : s.allocate core with ⟨r, s1⟩
    obtain ⟨h1, hfresh⟩ := h.allocated ha
    cases r with
    | none => exact ⟨h1, nofun⟩
    | some f =>
      have hnew := hfresh f rfl
      cases readOk with
      | true =>
        refine ⟨h1.cache hnew, fun frame hf => ?_⟩
        cases hf
        exact ⟨_, mem_append_right _ (mem_singleton_self _), rfl, rfl, rfl, .inr hnew.held⟩
      | false => exact ⟨(h1.drop core hnew.slack).1, nofun⟩

theorem fits {l : Leaf} {b : Backing} (hnew : Fresh usable s l.frame)
    (hview : s.view l.root l.page = some b) (hlive : l.root < s.live) (hfree : ∀ l' ∈ s.leaves, l'.Other l)
    (hcow : l.flags.cow = false) (hwrites : protWrite b.prot = true → l.flags.writable = true) : Fits s l b := by
  obtain ⟨hno, hnoc⟩ := h.not_referenced hnew
  refine ⟨hview, hlive, hfree, fun _ => hnew.slack, ⟨fun _ _ => hnew.held, fun c hc hf => absurd hf.symm (hnoc c hc),
    fun hbad => ?_, fun hbad => ?_, fun hp => .inl (hwrites hp)⟩, fun l' _ hl' hf => absurd hf (hno l' hl'.1)⟩
  · rw [h.plain _ hnew.usable] at hbad
    cases hbad
  · rw [hcow] at hbad
    cases hbad

end

end Inv

/-- the cached page that the fault is about to map -/
def demanded (s : Machine) (f : Fault) : Option CachedPage :=
  ((s.spaces f.root).mmapRegions.find? (·.covers f.addr)).bind fun r => r.inode.bind fun i =>
    s.cachedPage i (r.offset + UInt64.ofNat (f.addr / PAGE_SIZE * PAGE_SIZE - r.start))

/-- what a page fault must meet: on demand paging the counter of a cached page does not overflow, and a write with the
regions out of reach makes no page of private memory writable whose frame has other references -/
def FaultAllowed (s : Machine) (f : Fault) : Prop :=
  ((s.lookup f.root (f.addr / PAGE_SIZE)).isNone = true → ∀ c ∈ s.demanded f, (s.world.phys.refs c.frame).toNat < 255) ∧
  (f.write = true → f.locked = true → ∀ l ∈ s.lookup f.root (f.addr / PAGE_SIZE), l.flags.cow = true ∨ l.flags.writable = true ∨
    s.sharedMapping f.root (f.addr / PAGE_SIZE) = true ∨ s.world.phys.refs l.frame ≤ 1)

namespace Inv

variable {usable : ℕ → Bool} {s : Machine}

/-- a page of the page cache gets an entry, and its frame a reference -/
theorem fitsCached (h : Inv usable s) {root page : ℕ} {c : CachedPage} {b : Backing} {i : MappedInode} (hc : c ∈ s.cache)
    (hlt : s.world.held c.frame < 255) (hroot : root < s.live) (hview : s.view root page = some b)
    (hfree : s.lookup root page = none) (hi : b.inode = some i) (hfb : i.isDevFb0 = false) (hdev : c.dev = i.dev)
    (hino : c.ino = i.ino) : Inv usable (s.incrementRef c.frame) ∧
    Fits (s.incrementRef c.frame) ⟨root, page, c.frame, demandFlags b.prot (!b.isShared && protWrite b.prot)⟩ b := by
  have hv := h.cached_plain hc
  obtain ⟨h2, hheld⟩ := h.raise (fun _ => h.cached_held hc) (fun _ => hlt)
    fun l b hl hb hwr he => h.not_cached hl hb hwr hc he.symm
  obtain ⟨w, hw⟩ := s.incrementRef_eq c.frame
  rw [hw] at h2 hheld ⊢
  refine ⟨h2, hview, hroot, lookup_none hfree, fun _ => ?_, ⟨fun hsh hwr => ?_, fun c' hc' hf => ?_, fun hbad => ?_,
    fun hcow => ?_, fun hp => ?_⟩, fun l' b' hl' hf => ?_⟩
  · have heq : w.held c.frame = s.world.held c.frame + 1 := by simpa [hv] using hheld c.frame
    have hle := h.counted c.frame
    show s.references c.frame < w.held c.frame
    omega
  · simp [demandFlags, hsh] at hwr
  · obtain ⟨ho1, ho2⟩ := h.origin c hc c' hc' hf
    exact ⟨i, hi, hfb, hdev.symm.trans ho1, hino.symm.trans ho2⟩
  · cases hv.symm.trans hbad
  · simp only [demandFlags, and_eq_true, not_eq_true'] at hcow
    exact hcow.1
  · simp only [demandFlags, hp]
    cases b.isShared <;> simp
  · obtain ⟨i', hi', hfb', hdev', hino'⟩ := (h.sound hl').file c hc hf
    exact h.unmixed b' b i' i ⟨l'.root, h.live l' hl'.1, l'.page, hl'.2⟩ ⟨root, hroot, page, hview⟩ hi' hi hfb' hfb
      (hdev'.trans hdev) (hino'.trans hino)

/-- the frame of a demanded page, with the reference for the new entry counted -/
theorem demandFrame (h : Inv usable s) {f : Fault} {r : MappedRegion} {page : ℕ} (hroot : f.root < s.live)
    (hview : s.view f.root page = some (r.backing (page * PAGE_SIZE))) (hfree : s.lookup f.root page = none)
    (hcap : ∀ i ∈ r.inode, ∀ c, s.cachedPage i (r.offset + UInt64.ofNat (page * PAGE_SIZE - r.start)) = some c →
      (s.world.phys.refs c.frame).toNat < 255)
    {res : Except ℤ (ℕ × Bool)} {s1 : Machine}
    (hres : s.demandFrame f r (UInt64.ofNat (page * PAGE_SIZE - r.start)) = (res, s1)) :
    Inv usable s1 ∧ ∀ frame doCow, res = .ok (frame, doCow) →
      ∀ s2, s2 = (if r.inode.isSome && !s1.isVram frame then s1.incrementRef frame else s1) →
      Inv usable s2 ∧ Fits s2 ⟨f.root, page, frame, demandFlags r.prot doCow⟩ (r.backing (page * PAGE_SIZE)) := by
  unfold Machine.demandFrame at hres
  cases hi : r.inode with
  | none =>
    rw [hi] at hres
    rcases ha : s.allocate f.core with ⟨o, s'⟩
    obtain ⟨h1, hfresh⟩ := h.allocated ha
    have hsame := sameMap_of_allocate ha
    simp only [ha] at hres
    cases o with
    | none =>
      obtain ⟨rfl, rfl⟩ := Prod.mk.inj hres
      exact ⟨h1, nofun⟩
    | some g =>
      obtain ⟨rfl, rfl⟩ := Prod.mk.inj hres
      refine ⟨h1, fun frame doCow hok s2 hs2 => ?_⟩
      obtain ⟨rfl, rfl⟩ := Prod.mk.inj (Except.ok.inj hok)
      subst hs2
      refine ⟨h1, h1.fits (hfresh g rfl) (hsame.view.trans hview) (hsame.live ▸ hroot) ?_ rfl
        fun hp => (Bool.and_true _).trans hp⟩
      rw [hsame.leaves]
      exact lookup_none hfree
  | some i =>
    rw [hi] at hres
    have hbi : (r.backing (page * PAGE_SIZE)).inode = some i := hi
    cases hfb : i.isDevFb0 with
    | true =>
      simp only [hfb, if_true] at hres
      obtain ⟨rfl, rfl⟩ := Prod.mk.inj hres
      refine ⟨h, fun frame doCow hok s2 hs2 => ?_⟩
      obtain ⟨rfl, rfl⟩ := Prod.mk.inj (Except.ok.inj hok)
      obtain ⟨hshared, hv⟩ := h.fb0 _ i ⟨f.root, hroot, page, hview⟩ hbi hfb
      rw [show (r.backing (page * PAGE_SIZE)).offset = r.offset + UInt64.ofNat (page * PAGE_SIZE - r.start) from rfl,
        ← UInt64.add_assoc] at hv
      rw [hv] at hs2
      subst hs2
      exact ⟨h, h.fitsVram hview hroot hfree hshared hv rfl fun hp => (Bool.and_true _).trans hp⟩
    | false =>
      simp only [hfb, false_eq_true, if_false] at hres
      have hsame := sameMap_getOrCreatePage s f.core i (r.offset + UInt64.ofNat (page * PAGE_SIZE - r.start)) f.readOk
      obtain ⟨h1, hpage⟩ := h.getOrCreatePage f.core i (r.offset + UInt64.ofNat (page * PAGE_SIZE - r.start)) f.readOk
      rcases hg : s.getOrCreatePage f.core i (r.offset + UInt64.ofNat (page * PAGE_SIZE - r.start)) f.readOk with ⟨o, s'⟩
      rw [hg] at h1 hsame hpage
      change Inv usable s' at h1
      cases o with
      | none =>
        simp only [hg] at hres
        obtain ⟨rfl, rfl⟩ := Prod.mk.inj hres
        exact ⟨h1, nofun⟩
      | some g =>
        simp only [hg] at hres
        obtain ⟨rfl, rfl⟩ := Prod.mk.inj hres
        refine ⟨h1, fun frame doCow hok s2 hs2 => ?_⟩
        obtain ⟨rfl, rfl⟩ := Prod.mk.inj (Except.ok.inj hok)
        obtain ⟨c, hc, rfl, hdev, hino, hcase⟩ := hpage g rfl
        simp only at hc hcase
        have hlt : s'.world.held c.frame < 255 := by
          rcases hcase with ⟨hfound, hss⟩ | hone
          · have hcap' := hcap i hi c hfound
            subst hss
            rwa [h.backed.refs_eq (h.backed.usable_of_held (h.cached_held hc))] at hcap'
          · omega
        rw [isSome_some, Bool.true_and, h1.cached_plain hc, Bool.not_false, if_pos rfl] at hs2
        subst hs2
        exact h1.fitsCached hc hlt (hsame.live ▸ hroot) (hsame.view.trans hview) ((hsame.lookup _ _).trans hfree) hbi hfb
          hdev hino

end Inv

variable {l : Leaf}

theorem demandPage_present {f : Fault} (hl : s.lookup f.root (f.addr / PAGE_SIZE) = some l) :
    (s.demandPage f).2 = s := by
  unfold demandPage
  split_ifs
  · split
    · rfl
    · simp only [hl, isSome_some, if_true]
  · rfl

namespace Inv

variable {usable : ℕ → Bool} {s : Machine} {flags : PageFlags} {root page : ℕ}

section

variable (h : Inv usable s)
include h

theorem demandPage {f : Fault} (hroot : f.root < s.live) (hok : s.FaultAllowed f) : Inv usable (s.demandPage f).2 := by
  cases hl : s.lookup f.root (f.addr / PAGE_SIZE) with
  | some l =>
    rw [demandPage_present hl]
    exact h
  | none =>
    unfold Machine.demandPage
    split_ifs with haddr
    · cases hr : (s.spaces f.root).mmapRegions.find? (·.covers f.addr) with
      | none => exact h
      | some r =>
        have hmem := mem_of_find?_eq_some hr
        have hcov : r.covers (f.addr / PAGE_SIZE * PAGE_SIZE) = true := by
          rw [((h.tidy f.root).aligned r hmem).covers_page]
          simpa using find?_some hr
        have hview : s.view f.root (f.addr / PAGE_SIZE) = some (r.backing (f.addr / PAGE_SIZE * PAGE_SIZE)) :=
          view_of_mem (h.tidy f.root).apart hmem hcov
        simp only [hl, isSome_none, false_eq_true, if_false]
        have hcap : ∀ i ∈ r.inode, ∀ c,
            s.cachedPage i (r.offset + UInt64.ofNat (f.addr / PAGE_SIZE * PAGE_SIZE - r.start)) = some c →
            (s.world.phys.refs c.frame).toNat < 255 := by
          intro i hi c hc
          refine hok.1 (by rw [hl]; rfl) c ?_
          unfold demanded
          rw [hr, bind_some, mem_def.1 hi, bind_some]
          exact hc
        rcases hd : s.demandFrame f r (UInt64.ofNat (f.addr / PAGE_SIZE * PAGE_SIZE - r.start)) with ⟨res, s1⟩
        obtain ⟨h1, hfits⟩ := h.demandFrame hroot hview hl hcap hd
        cases res with
        | error e => exact h1
        | ok pair =>
          obtain ⟨frame, doCow⟩ := pair
          obtain ⟨h2, hfit⟩ := hfits frame doCow rfl _ rfl
          simp only
          generalize (if (r.inode.isSome && !s1.isVram frame) = true then s1.incrementRef frame else s1) = s2
            at h2 hfit ⊢
          cases hmap : s2.mapUserPage f.root (f.addr / PAGE_SIZE) frame (demandFlags r.prot doCow) f.tablesOk with
          | some s3 =>
            obtain ⟨-, rfl⟩ := mapUserPage_some hmap
            exact h2.add hfit
          | none =>
            split_ifs with hv hsome
            · exact h2
            · exact (h2.drop 0 (hfit.counted (eq_false_iff.2 hv))).2
            · exact (h2.drop f.core (hfit.counted (eq_false_iff.2 hv))).1
    · exact h

theorem setFlags (hl : s.lookup root page = some l)
    (hsound : ∀ b, s.Shows l b → s.Sound { l with flags := flags } b) :
    Inv usable (s.setLeaf root page l.frame flags) := by
  obtain ⟨hmem, rfl, rfl⟩ := lookup_some hl
  have heq : (s.leaves.map fun l' => if l'.root == l.root && l'.page == l.page then ⟨l.root, l.page, l.frame, flags⟩ else l') =
      s.leaves.map fun l' => { l' with flags := if l' = l then flags else l'.flags } := by
    apply map_congr_left
    intro l' hl'
    by_cases he : l' = l
    · subst he
      simp
    · have hb : (l'.root == l.root && l'.page == l.page) = false := by
        obtain ⟨xs, ys, hs, hother⟩ := lookup_split h.keys hl
        apply hother
        rw [hs] at hl'
        simpa [he] using hl'
      rw [hb, if_neg he]
      rfl
  unfold setLeaf
  rw [heq]
  refine h.reflag h.tidy h.bump h.unmixed h.fb0 fun {l' b} hl' => ⟨b, hl'.2, rfl, ?_⟩
  split_ifs with he
  · subst he
    exact hsound b hl'
  · exact h.sound hl'

/-- a private page gets a frame of its own, and gives the old one back -/
theorem copy {core : ℕ} {s1 : Machine}
    (hl : s.lookup root page = some l) (hcow : l.flags.cow = true) (ha : s.allocate core = (some f, s1))
    (hflags : flags.writable = true ∧ flags.cow = false) :
    Inv usable ((s1.setLeaf root page f flags).deallocate core l.frame) := by
  obtain ⟨h1, hfresh⟩ := h.allocated ha
  have hnew := hfresh f rfl
  have hl1 := ((sameMap_of_allocate ha).lookup root page).trans hl
  obtain ⟨hmem, hroot, hpage⟩ := lookup_some hl1
  obtain ⟨b, hb⟩ := h1.shown l hmem
  have hprivate := (h1.sound hb).cow hcow
  obtain ⟨xs, ys, hs, hother⟩ := lookup_split h1.keys hl1
  have hset : s1.setLeaf root page f flags = { s1 with leaves := xs ++ ⟨root, page, f, flags⟩ :: ys } := by
    have := setLeaf_split ⟨hroot, hpage⟩ hs hother f flags
    rw [← this]
    rfl
  have hsub : (xs ++ ys).Sublist s1.leaves := by
    rw [hs]
    exact (Sublist.refl xs).append (sublist_cons_self l ys)
  have h2 : Inv usable { s1 with leaves := xs ++ ys } :=
    h1.thin hsub (Sublist.refl s1.cache) (Sublist.refl s1.kernel)
  have hfresh2 : Fresh usable { s1 with leaves := xs ++ ys } f := by
    refine ⟨hnew.usable, le_zero.1 ?_, hnew.held⟩
    exact hnew.unused ▸ references_le hsub (Sublist.refl s1.cache) (Sublist.refl s1.kernel) f
  have hfit : Fits { s1 with leaves := xs ++ ys } ⟨root, page, f, flags⟩ b := by
    refine h2.fits hfresh2 ?_ (hroot ▸ h1.live l hmem) (fun l' hl' hkey => ?_) hflags.2 fun _ => hflags.1
    · rw [← hroot, ← hpage]
      exact hb.2
    · have hne := hother l' hl'
      rw [← not_eq_true, and_eq_true, beq_iff_eq, beq_iff_eq] at hne
      exact hne hkey
  have h3 : Inv usable { s1 with leaves := xs ++ ⟨root, page, f, flags⟩ :: ys } := by
    apply (h2.add hfit).perm
    refine (perm_middle).trans ?_
    exact (perm_append_singleton _ _).symm
  have hslack : references { s1 with leaves := xs ++ ⟨root, page, f, flags⟩ :: ys } l.frame < s1.world.held l.frame := by
    have hrem := h1.slack_of_removed hs (h1.not_vram hb hprivate)
    have hne : (f == l.frame) = false := by simpa using ((h1.not_referenced hnew).1 l hmem).symm
    have heq : references { s1 with leaves := xs ++ ⟨root, page, f, flags⟩ :: ys } l.frame =
        references { s1 with leaves := xs ++ ys } l.frame := by
      unfold references
      simp only [countP_append, countP_cons, hne, false_eq_true, if_false, add_zero]
      rfl
    rw [heq]
    exact hrem
  rw [hset]
  exact (h3.drop core hslack).1

/-- **A page fault** keeps the invariant. -/
theorem pageFault {f : Fault} (hroot : f.root < s.live) (hok : s.FaultAllowed f) : Inv usable (s.pageFault f).2 := by
  unfold Machine.pageFault
  cases hf : f.write with
  | false => exact h.demandPage hroot hok
  | true =>
    simp only [if_true]
    cases hl : s.lookup f.root (f.addr / PAGE_SIZE) with
    | none => exact h.demandPage hroot hok
    | some l =>
      obtain ⟨hmem, hlr, hlp⟩ := lookup_some hl
      dsimp only
      unfold PageFlags.writeFault
      split_ifs with hcow hrefs hwr hallow
      · -- the only reference: the page becomes writable
        refine h.setFlags hl fun b hb => { h.sound hb with sole := fun hsh _ => ?_, cow := nofun, writes := fun _ => .inl rfl }
        exact (h.held_eq_one hb hsh hrefs : s.world.held l.frame = 1)
      · rcases ha : s.allocate f.core with ⟨o, s1⟩
        cases o with
        | none =>
          rw [demandPage_present (((sameMap_of_allocate ha).lookup _ _).trans hl)]
          exact (h.allocated ha).1
        | some g =>
          have hflags : ({ l.flags with writable := true, cow := false } : PageFlags).writable = true ∧
            ({ l.flags with writable := true, cow := false } : PageFlags).cow = false := ⟨rfl, rfl⟩
          exact h.copy hl hcow ha hflags
      · exact h
      · -- neither writable nor marked: the regions allow no write, so they could not be looked at
        refine h.setFlags hl fun b hb =>
          { h.sound hb with sole := fun hsh _ => ?_, cow := fun hc => absurd hc hcow, writes := fun _ => .inl rfl }
        have hnoregion : ¬ protWrite b.prot = true := by
          intro hprot
          rcases (h.sound hb).writes hprot with hbad | hbad
          · exact hwr hbad
          · exact hcow hbad
        have hlocked : f.locked = true := by
          unfold Machine.writeAllowed AddressSpace.writeAllowed at hallow
          rw [or_eq_true] at hallow
          rcases hallow with hlocked | hany
          · exact hlocked
          · obtain ⟨r, hr, hboth⟩ := any_eq_true.1 hany
            rw [and_eq_true] at hboth
            have hcov : r.covers (l.page * PAGE_SIZE) = true := by
              rw [hlp, ((h.tidy f.root).aligned r hr).covers_page]
              exact hboth.1
            have hv := view_of_mem (h.tidy f.root).apart hr hcov
            rw [← hlr] at hv
            cases some.inj (hb.2.symm.trans hv)
            exact absurd hboth.2 hnoregion
        rcases hok.2 hf hlocked l hl with hbad | hbad | hbad | hle
        · exact absurd hbad hcow
        · exact absurd hbad hwr
        · rw [← hlr, ← hlp, sharedMapping_of_shows h hb, hsh] at hbad
          cases hbad
        · exact (h.held_eq_one hb hsh hle : s.world.held l.frame = 1)
      · rw [demandPage_present hl]
        exact h

end

/-! ## The rest of the kernel -/

theorem references_eq : s.references f =
    (if s.isVram f then 0 else s.leaves.countP (·.frame == f)) + s.cache.countP (·.frame == f) + s.kernel.count f := rfl

variable (h : Inv usable s)
include h

theorem evict (core : ℕ) (c : CachedPage) : Inv usable (s.evict core c) := by
  unfold Machine.evict
  split_ifs with hc
  · have h1 : Inv usable { s with cache := s.cache.erase c } :=
      h.thin (Sublist.refl s.leaves) erase_sublist (Sublist.refl s.kernel)
    refine (h1.drop core ?_).1
    have hcount : s.cache.countP (·.frame == c.frame) = (s.cache.erase c).countP (·.frame == c.frame) + 1 := by
      rw [(perm_cons_erase hc.1).countP_eq, countP_cons, if_pos (beq_self_eq_true c.frame)]
    have hle := h.counted c.frame
    rw [references_eq] at hle ⊢
    show (if s.isVram c.frame then 0 else s.leaves.countP _) + (s.cache.erase c).countP _ + s.kernel.count c.frame < _
    simp only
    omega
  · exact h

theorem kernelFree (core : ℕ) {frame : ℕ} (hmem : frame ∈ s.kernel) :
    Inv usable ({ s with kernel := s.kernel.erase frame }.deallocate core frame) := by
  have h1 : Inv usable { s with kernel := s.kernel.erase frame } :=
    h.thin (Sublist.refl s.leaves) (Sublist.refl s.cache) erase_sublist
  refine (h1.drop core ?_).1
  have hcount : s.kernel.count frame = (s.kernel.erase frame).count frame + 1 := by
    rw [(perm_cons_erase hmem).count_eq, count_cons_self]
  have hle := h.counted frame
  rw [references_eq] at hle ⊢
  show (if s.isVram frame then 0 else s.leaves.countP _) + s.cache.countP _ + (s.kernel.erase frame).count frame < _
  simp only
  omega

theorem kernelAlloc (hnew : Fresh usable s f) : Inv usable { s with kernel := f :: s.kernel } := by
  refine { h with counted := fun g => ?_ }
  have hcount := h.counted_one hnew.slack g
  rw [references_eq] at hcount ⊢
  show (if s.isVram g then 0 else s.leaves.countP _) + s.cache.countP _ + (f :: s.kernel).count g ≤ s.world.held g
  simp only [count_cons, beq_iff_eq]
  omega

end Inv

/-! ## Runs -/

/-- what the steps of a run must meet -/
def Allowed (s : Machine) : MachineEvent → Prop
  | .mmap _ _ m _ => s.MmapAllowed m
  | .mprotect root addr length prot => s.MprotectAllowed root addr length prot
  | .fork parent failsAt => s.ForkAllowed parent failsAt
  | .pageFault f => s.FaultAllowed f
  | .readPage _ _ _ _ | .evict _ _ | .kernelAlloc _ | .kernelFree _ _ => True

/-- **One step** keeps the invariant. -/
theorem Inv.step {usable : ℕ → Bool} {e : MachineEvent} (h : Inv usable s) (hok : s.Allowed e) : Inv usable (s.step e) := by
  unfold Machine.step
  split_ifs with hlive
  · cases e with
    | mmap core root m tablesOk => exact h.mmap core (by simpa [MachineEvent.root] using hlive) hok tablesOk
    | mprotect root addr length prot => exact h.mprotect hok
    | fork parent failsAt => exact h.fork (by simpa [MachineEvent.root] using hlive) hok
    | pageFault f => exact h.pageFault (by simpa [MachineEvent.root] using hlive) hok
    | readPage core inode fileOffset readOk => exact (h.getOrCreatePage core inode fileOffset readOk).1
    | evict core c => exact h.evict core c
    | kernelAlloc core =>
      rcases ha : s.allocate core with ⟨o, s1⟩
      obtain ⟨h1, hfresh⟩ := h.allocated ha
      simp only [perform, ha]
      cases o with
      | none => exact h1
      | some f => exact h1.kernelAlloc (hfresh f rfl)
    | kernelFree core frame =>
      unfold perform
      dsimp only
      split_ifs with hmem
      · exact h.kernelFree core hmem
      · exact h
  · exact h

/-! ### The start -/

theorem isFree_markFrees {us : List ℕ} {a : FrameAllocator}
    (h : (us.foldl markFree a).isFree f = true) : f ∈ us ∨ a.isFree f = true := by
  induction us generalizing a with
  | nil => exact .inr h
  | cons u us ih =>
    rcases ih h with hmem | hfree
    · exact .inl (mem_cons_of_mem _ hmem)
    · by_cases hu : u < MAX_FRAMES
      · rw [isFree_markFree a hu, or_eq_true, decide_eq_true_eq] at hfree
        rcases hfree with rfl | hfree
        · exact .inl mem_cons_self
        · exact .inr hfree
      · rw [markFree, if_neg hu] at hfree
        exact .inr hfree

theorem isFree_markUseds {us : List ℕ} {a : FrameAllocator}
    (h : (us.foldl markUsed a).isFree f = true) : a.isFree f = true := by
  induction us generalizing a with
  | nil => exact h
  | cons u us ih =>
    have hfree := ih h
    rw [isFree_markUsed, and_eq_true] at hfree
    exact hfree.2

variable {usableFrames pageTableFrames : List ℕ}

theorem mem_of_isFree_boot
    (h : (World.boot usableFrames pageTableFrames).phys.global.isFree f = true) : f ∈ usableFrames := by
  have h1 : (pageTableFrames.foldl markUsed
    (usableFrames.foldl markFree .new)).isFree f = true := h
  rcases isFree_markFrees (isFree_markUseds h1) with hmem | hbad
  · exact hmem
  · exfalso
    unfold isFree new BitScan.isSet at hbad
    split_ifs at hbad
    rw [BitVec.getLsbD_allOnes, decide_eq_true (mod_lt f (by decide))] at hbad
    cases hbad

theorem Inv.boot {lfb : UInt64} {brk mmapBump : ℕ}
    (hvram : ∀ f ∈ usableFrames, isVramAddr lfb (f * PAGE_SIZE) = false) (hbump : mmapBump % PAGE_SIZE = 0) :
    Inv (World.boot usableFrames pageTableFrames).phys.global.isFree
      (boot usableFrames pageTableFrames lfb brk mmapBump) := by
  have hnone : ∀ l b, ¬ (Machine.boot usableFrames pageTableFrames lfb brk mmapBump).Shows l b := by
    rintro l b ⟨hl, -⟩
    cases hl
  have hviews : ∀ b, ¬ (Machine.boot usableFrames pageTableFrames lfb brk mmapBump).Views b := by
    rintro b ⟨root, -, page, hv⟩
    cases hv
  exact
    { backed := by
        have hveil : (World.boot usableFrames pageTableFrames).phys.veil
            (World.boot usableFrames pageTableFrames).phys.global.isFree =
            (World.boot usableFrames pageTableFrames).phys := by
          unfold Physical.veil
          congr 1
          funext f
          exact ite_self _
        show Owned _ ⟨(World.boot usableFrames pageTableFrames).phys.veil _, _⟩
        rw [hveil]
        exact owned_boot usableFrames pageTableFrames
      plain := fun f hf => hvram f (mem_of_isFree_boot hf)
      counted := fun f => by
        show (if _ then 0 else 0) + 0 + 0 ≤ 0
        split_ifs <;> exact le_rfl
      keys := Pairwise.nil
      live := nofun
      tidy := fun _ => ⟨Pairwise.nil, nofun⟩
      bump := fun _ => hbump
      unmixed := fun b _ _ _ hb => absurd hb (hviews b)
      fb0 := fun b _ hb => absurd hb (hviews b)
      shown := nofun
      sound := fun hl => absurd hl (hnone _ _)
      kind := fun l _ b _ hl => absurd hl (hnone l b)
      origin := nofun }

/-! ### Isolation -/

/-- the frame is mapped at a page of a private region -/
def PrivateFrame (s : Machine) (f : ℕ) : Prop :=
  ∃ l ∈ s.leaves, l.frame = f ∧ ∃ r ∈ (s.spaces l.root).mmapRegions, r.covers (l.page * PAGE_SIZE) = true ∧
    r.isShared = false

/-- the frame is mapped in two address spaces, or mapped and also in the page cache -/
def SharedFrame (s : Machine) (f : ℕ) : Prop :=
  (∃ l ∈ s.leaves, ∃ l' ∈ s.leaves, l.frame = f ∧ l'.frame = f ∧ l.root ≠ l'.root) ∨
  ((∃ l ∈ s.leaves, l.frame = f) ∧ ∃ c ∈ s.cache, c.frame = f)

/-- such a frame is writable nowhere -/
def Isolated (s : Machine) : Prop :=
  ∀ f, s.PrivateFrame f → s.SharedFrame f → ∀ l ∈ s.leaves, l.frame = f → l.flags.writable = false

variable (s : Machine)

instance (m : MmapArgs) : Decidable (s.MmapAllowed m) := by
  unfold MmapAllowed
  infer_instance

instance (root addr length prot : ℕ) : Decidable (s.MprotectAllowed root addr length prot) := by
  unfold MprotectAllowed
  infer_instance

instance (parent : ℕ) (failsAt : Option ℕ) : Decidable (s.ForkAllowed parent failsAt) := by
  unfold ForkAllowed
  infer_instance

instance (f : Fault) : Decidable (s.FaultAllowed f) := by
  unfold FaultAllowed
  infer_instance

instance : ∀ e, Decidable (s.Allowed e)
  | .mmap _ _ m _ => inferInstanceAs (Decidable (s.MmapAllowed m))
  | .mprotect root addr length prot => inferInstanceAs (Decidable (s.MprotectAllowed root addr length prot))
  | .fork parent failsAt => inferInstanceAs (Decidable (s.ForkAllowed parent failsAt))
  | .pageFault f => inferInstanceAs (Decidable (s.FaultAllowed f))
  | .readPage _ _ _ _ | .evict _ _ | .kernelAlloc _ | .kernelFree _ _ => isTrue trivial

def writeFault (root : ℕ) : MachineEvent := .pageFault ⟨0, root, 0x10000, true, false, true, true⟩

end Machine

end Kontsnor.Memory
