/-
Runs of `get_or_alloc_block_chunk` on an inode that starts with an empty extent root, over a device that does not fail.

An insertion can register a run where a lookup does not find it: a split of the root puts the new extent last, under the
key of the first one, and an insertion into the first leaf leaves the leaf's key above the new block. Where older extents
overlap the new range, what a lookup finds depends on the cache of the last extent found. `Placed` is the condition on
the state before a call that excludes both.

An insertion does not look at what is mapped behind the block it fills either. `Sparing` is the condition that the
range is unmapped, and that a leaf which has to be added takes no mapped block over.
-/
import Kontsnor.Ext.TreeSpares
import Kontsnor.Ext.ExtentInsert

namespace Kontsnor.Ext

open List

open Fallible (get_bind bind_ok value value_of_ok final)

/-! ## Runs -/

section Definitions

variable (P : Params) (ino : ℕ) (s : ExtInode Image)

def Unmapped (b : ℕ) : Prop := ∀ p len s', resolveExtentBlockLen P s.raw.iBlock b s = .ok (p, len) s' → p = 0

def Maps (b p : ℕ) : Prop := ∃ len s', resolveExtentBlockLen P s.raw.iBlock b s = .ok (p, len) s'

variable (call : UInt32 × UInt32)

def afterCall : ExtInode Image :=
  final (getOrAllocBlockChunk P ino call.1.toNat call.2.toNat s)

/-- the state after lookups, whether they failed or not -/
def afterLookups (lookups : List UInt32) : ExtInode Image :=
  lookups.foldl (fun s b => final (resolveExtentBlockLen P s.raw.iBlock b.toNat s)) s

/-- a call on an unmapped block that succeeds maps the range it returns, and later lookups do not change that -/
def NewVisible : Prop :=
  ∀ p n s', getOrAllocBlockChunk P ino call.1.toNat call.2.toNat s = .ok (p, n) s' → Unmapped P s call.1.toNat →
    ∀ lookups, ∀ k < n, Maps P (afterLookups P s' lookups) (call.1.toNat + k) (p + k)

/-- the run the bitmaps offer for an unmapped block has a place in the tree where a lookup finds it -/
def Placed : Prop :=
  Unmapped P s call.1.toNat → ∀ p n fs', allocateBlocksContiguous P 0 call.2.toNat s.fs = .ok (p, n) fs' →
    Room P fs' (treeOf s) ⟨call.1.toNat, n, p⟩ → (treeOf s).Shows (maxEntries P.blockSize) ⟨call.1.toNat, n, p⟩

end Definitions

/-- a property of every call of a run and the state it starts in -/
def AllCalls (P : Params) (ino : ℕ) (property : ExtInode Image → UInt32 × UInt32 → Prop) :
    ExtInode Image → List (UInt32 × UInt32) → Prop
  | _, [] => True
  | s, call :: calls => property s call ∧ AllCalls P ino property (afterCall P ino s call) calls

/-- an inode with an empty root and an empty cache -/
structure Empty (P : Params) (ino : ℕ) (s : ExtInode Image) : Prop where
  held : Held P ino s.fs
  root : (readHeader (rootBuf s.raw.iBlock)).ehMagic ≠ 0xF30A ∨ readHeader (rootBuf s.raw.iBlock) = ⟨0xF30A, 0, 4, 0⟩
  cache : s.extentCache.len = 0

/-- the cache is empty or holds a piece that a lookup found -/
def CacheIs (t : Tree) (c : ExtentCache) : Prop := c.len = 0 ∨ ∃ b e, t.find b = some e ∧ c = ⟨e.first, e.len, e.phys⟩

variable {P : Params} {ino b p : ℕ} {s s' : ExtInode Image} {t t' : Tree} {call : UInt32 × UInt32}

theorem Empty.inv (h : Empty P ino s) : Inv P ino s (.flat []) where
  held := h.held
  tree := by
    refine ⟨by simp, by simp, ?_⟩
    rcases h.root with hm | hh
    · exact .inr ⟨rfl, hm⟩
    · exact .inl ⟨hh, fun i hi => absurd hi (Nat.not_lt_zero i)⟩
  nodup := nodup_nil
  node b hb := absurd hb not_mem_nil
  data e he := absurd he not_mem_nil

theorem CacheIs.get_none {c : ExtentCache} (h : c.len = 0) (b : ℕ) : c.get b = none := by
  simp [ExtentCache.get, h]

theorem find_bounded (h : Inv P ino s t) {e : Piece} (hf : t.find b = some e) : e.Bounded ∧ e.Covers b := by
  obtain ⟨hmem, hcov⟩ := Tree.find_spec hf
  refine ⟨?_, hcov⟩
  cases t with
  | flat xs => exact h.tree.2.1 e hmem
  | deep ns =>
    obtain ⟨l, hl, he⟩ := mem_flatMap.1 hmem
    exact h.tree.2.2.2.pieces l hl e he
  | grown node ns =>
    obtain ⟨l, hl, he⟩ := mem_flatMap.1 hmem
    exact h.tree.2.2.2.2.pieces l hl e he

theorem CacheIs.hit (h : Inv P ino s t) {hit : ℕ × ℕ} (hc : CacheIs t s.extentCache)
    (hg : s.extentCache.get b = some hit) :
    ∃ c e, t.find c = some e ∧ s.extentCache = ⟨e.first, e.len, e.phys⟩ ∧ e.Covers b ∧ hit.1 = e.image b ∧ 0 < hit.1 := by
  rcases hc with h0 | ⟨c, e, hf, hc⟩
  · rw [CacheIs.get_none h0] at hg; cases hg
  obtain ⟨hb, hcov⟩ := find_bounded h hf
  obtain ⟨_, _, hbelow⟩ := hcov
  rw [hc, ExtentCache.get] at hg
  split_ifs at hg with hin
  obtain ⟨_, h1, h2⟩ := hin
  have hadd : add32 e.first e.len = e.first + e.len := Nat.mod_eq_of_lt hbelow
  rw [hadd] at h2
  have hphys := hb.phys_below; have hpos := hb.phys_pos
  have himage : (e.phys + (b - e.first)) % 2 ^ 32 = e.image b := Nat.mod_eq_of_lt (by omega)
  cases hg
  refine ⟨c, e, hf, hc, ⟨h1, h2, hbelow⟩, himage, ?_⟩
  simp only [himage, Piece.image]
  omega

/-! ## One call -/

/-- a lookup answers from a piece that the tree finds, and caches one; or it finds none -/
theorem resolve_cases (h : Inv P ino s t) (hk : t.Ascends) (hc : CacheIs t s.extentCache) (b : ℕ) :
    (∃ c e len c', t.find c = some e ∧ e.Covers b ∧ e.image b ≠ 0 ∧ CacheIs t c' ∧
      resolveExtentBlockLen P s.raw.iBlock b s = .ok (e.image b, len) { s with extentCache := c' }) ∨
    (t.find b = none ∧ (resolveExtentBlockLen P s.raw.iBlock b s = .ok (0, 0) s ∨
      ∃ msg, resolveExtentBlockLen P s.raw.iBlock b s = .error msg s)) := by
  cases hget : s.extentCache.get b with
  | some hit =>
    obtain ⟨c, e, hf, _, hcov, himage, hpos⟩ := hc.hit h hget
    refine .inl ⟨c, e, hit.2, s.extentCache, hf, hcov, himage ▸ hpos.ne', hc, ?_⟩
    rw [resolveExtentBlockLen, get_bind]
    simp only [hget, ← himage]
    rfl
  | none =>
    have hspec := resolve_spec h hk hget
    cases hf : t.find b with
    | some e =>
      obtain ⟨hb, hcov⟩ := find_bounded h hf
      have hpos : e.image b ≠ 0 := by have := hb.phys_pos; unfold Piece.image; omega
      rw [hf] at hspec
      exact .inl ⟨b, e, _, _, hf, hcov, hpos, .inr ⟨b, e, hf, rfl⟩, hspec⟩
    | none =>
      rw [hf] at hspec
      exact .inr ⟨rfl, hspec⟩

/-- a call on a mapped block only looks it up; one on an unmapped block is an insertion -/
theorem getOrAlloc_cases (h : Inv P ino s t) (hk : t.Ascends) (hc : CacheIs t s.extentCache) (b count : ℕ) :
    (¬Unmapped P s b ∧ ∃ p len c, CacheIs t c ∧
      getOrAllocBlockChunk P ino b count s = .ok (p, len) { s with extentCache := c }) ∨
    (Unmapped P s b ∧ t.find b = none ∧
      getOrAllocBlockChunk P ino b count s = allocateExtentBlockChunk P ino 2 b count s) := by
  rcases resolve_cases h hk hc b with ⟨_, e, len, c, _, _, hp, hcc, hr⟩ | ⟨hf, hr | ⟨msg, hr⟩⟩
  · have hat : attempt (resolveExtentBlockLen P s.raw.iBlock b) s =
        .ok (some (e.image b, len)) { s with extentCache := c } := by rw [attempt, hr]
    refine .inl ⟨fun hu => hp (hu _ _ _ hr), e.image b, max (min len count) 1, c, hcc, ?_⟩
    rw [getOrAllocBlockChunk, get_bind, bind_ok hat]
    simp only [ne_eq, hp, not_false_eq_true, if_true]
    rfl
  · have hat : attempt (resolveExtentBlockLen P s.raw.iBlock b) s = .ok (some (0, 0)) s := by rw [attempt, hr]
    refine .inr ⟨fun p len s' hr' => ?_, hf, ?_⟩
    · rw [hr] at hr'; cases hr'; rfl
    · rw [getOrAllocBlockChunk, get_bind, bind_ok hat]
      simp only [ne_eq, not_true_eq_false, if_false]
  · have hat : attempt (resolveExtentBlockLen P s.raw.iBlock b) s = .ok none s := by rw [attempt, hr]
    refine .inr ⟨fun p len s' hr' => ?_, hf, ?_⟩
    · rw [hr] at hr'; cases hr'
    · rw [getOrAllocBlockChunk, get_bind, bind_ok hat]

/-! ## New ranges are found -/

/-- the state of a run in which every new range has been found -/
structure Good (P : Params) (ino : ℕ) (s : ExtInode Image) (t : Tree) : Prop where
  inv : Inv P ino s t
  ordered : t.Ordered (maxEntries P.blockSize)
  cache : CacheIs t s.extentCache

theorem afterCall_ok {v : ℕ × ℕ}
    (h : getOrAllocBlockChunk P ino call.1.toNat call.2.toNat s = .ok v s') : afterCall P ino s call = s' := by
  rw [afterCall, h]; rfl

theorem afterCall_error {e : String}
    (h : getOrAllocBlockChunk P ino call.1.toNat call.2.toNat s = .error e s') : afterCall P ino s call = s' := by
  rw [afterCall, h]; rfl

theorem GrowsTo.ordered {cap : ℕ} (h : t.GrowsTo t') (ho : t.Ordered cap) : t'.Ordered cap := by
  rcases h with rfl | ⟨node, ns, rfl, rfl⟩
  · exact ho
  · exact ho

theorem Good.cached (g : Good P ino s t) {c : ExtentCache} (hc : CacheIs t c) : Good P ino { s with extentCache := c } t :=
  ⟨⟨g.inv.held, g.inv.tree, g.inv.nodup, g.inv.node, g.inv.data⟩, g.ordered, hc⟩

theorem Good.afterLookups (g : Good P ino s t) (lookups : List UInt32) : Good P ino (afterLookups P s lookups) t := by
  induction lookups generalizing s with
  | nil => exact g
  | cons b rest ih =>
    refine ih (s := final (resolveExtentBlockLen P s.raw.iBlock b.toNat s)) ?_
    rcases resolve_cases g.inv g.ordered.ascends g.cache b.toNat with
      ⟨_, _, _, c, _, _, _, hc, hr⟩ | ⟨_, hr | ⟨_, hr⟩⟩
    · rw [hr]; exact g.cached hc
    · rw [hr]; exact g
    · rw [hr]; exact g

theorem Good.maps_of_visible {x : Piece} {k : ℕ} (g : Good P ino s t) (hv : Visible t.lookup x)
    (ha : ∀ e ∈ t.pieces, e.Agrees x) (hk : k < x.len) : Maps P s (x.first + k) (x.phys + k) := by
  rcases resolve_cases g.inv g.ordered.ascends g.cache (x.first + k) with
    ⟨c, e, len, c', hf, hcov, _, _, hr⟩ | ⟨hf, _⟩
  · rw [ha e (Tree.find_spec hf).1 k hk hcov] at hr
    exact ⟨len, _, hr⟩
  · have := hv k hk
    rw [Tree.lookup_eq_find, hf] at this
    cases this

/-- what a call comes to -/
inductive Called (P : Params) (ino : ℕ) (s : ExtInode Image) (t : Tree) (call : UInt32 × UInt32) : Prop
  | mapped (hm : ¬Unmapped P s call.1.toNat) (g : Good P ino (afterCall P ino s call) t)
  | inserted {p n : ℕ} {fs' : ExtFileSystem Image} {t' : Tree} (hu : Unmapped P s call.1.toNat)
      (hnone : t.lookup call.1.toNat = none)
      (hr : getOrAllocBlockChunk P ino call.1.toNat call.2.toNat s = .ok (p, n) (afterCall P ino s call))
      (ha : allocateBlocksContiguous P 0 call.2.toNat s.fs = .ok (p, n) fs')
      (hroom : Room P fs' (treeOf s) ⟨call.1.toNat, n, p⟩) (hb : Piece.Bounded ⟨call.1.toNat, n, p⟩)
      (hstep : Tree.Step (maxEntries P.blockSize) (newNode P fs') ⟨call.1.toNat, n, p⟩ t t')
      (g : Piece.Fits ⟨call.1.toNat, n, p⟩ → Good P ino (afterCall P ino s call) t')
  | failed {t' : Tree} (hr : ∀ v s', getOrAllocBlockChunk P ino call.1.toNat call.2.toNat s ≠ .ok v s')
      (hgrow : t.GrowsTo t') (g : Good P ino (afterCall P ino s call) t')

theorem Good.called (g : Good P ino s t) (call : UInt32 × UInt32) : Called P ino s t call := by
  obtain ⟨h, ho, hc⟩ := id g
  rcases getOrAlloc_cases h ho.ascends hc call.1.toNat call.2.toNat with ⟨hm, p, len, c, hcc, hr⟩ | ⟨hu, hnone, hr⟩
  · exact .mapped hm (by rw [afterCall_ok hr]; exact g.cached hcc)
  · have hins := allocate_spec h ho call.1.toNat_lt 0 call.2.toNat
    have hlook : t.lookup call.1.toNat = none := by rw [Tree.lookup_eq_find, hnone]; rfl
    rw [← hr] at hins
    cases hres : getOrAllocBlockChunk P ino call.1.toNat call.2.toNat s with
    | ok v s' =>
      rw [hres] at hins
      obtain ⟨hcache, fs', ha, hroom, hb, t', hstep, hinv, _⟩ := hins
      refine .inserted hu hlook (by rw [afterCall_ok hres]; exact hres) ha (by rw [treeOf_eq h]; exact hroom) hb hstep
        fun hfits => ?_
      rw [afterCall_ok hres]
      exact ⟨hinv, hstep.ordered ho h.held.cap_bounds.1 hlook hfits, .inl hcache⟩
    | error e s' =>
      rw [hres] at hins
      obtain ⟨hcache, _, t', hgrow, hinv⟩ := hins
      refine .failed (fun v s'' hok => by rw [hres] at hok; cases hok) hgrow ?_
      rw [afterCall_error hres]
      exact ⟨hinv, GrowsTo.ordered hgrow ho, .inl hcache⟩

/-- one placed call: the new range is found from then on, and the run goes on -/
theorem newVisible_of_placed (g : Good P ino s t) (hpl : Placed P s call) :
    NewVisible P ino s call ∧ ∃ t', Good P ino (afterCall P ino s call) t' := by
  cases g.called call with
  | mapped hm g' => exact ⟨fun p n s' _ hu => absurd hu hm, t, g'⟩
  | failed hr hgrow g' => exact ⟨fun p n s' hok => absurd hok (hr _ _), _, g'⟩
  | inserted hu hnone hr ha hroom hb hstep hnext =>
    have hshows := hpl hu _ _ _ ha hroom
    rw [treeOf_eq g.inv] at hshows
    obtain ⟨hbelow, hap, hreach⟩ := hshows hstep.register_isSome
    have g' := hnext { hb with below := hbelow }
    refine ⟨fun p n s' hok _ lookups k hk => ?_, _, g'⟩
    cases hr.symm.trans hok
    exact (g'.afterLookups lookups).maps_of_visible (hstep.visible g.ordered hnone hbelow hap hreach)
      (fun e he => (hstep.arises he).agrees hap) hk

theorem Good.visible_of_placed (g : Good P ino s t) {calls : List (UInt32 × UInt32)}
    (h : AllCalls P ino (Placed P) s calls) : AllCalls P ino (NewVisible P ino) s calls := by
  induction calls generalizing s t with
  | nil => trivial
  | cons call calls ih =>
    obtain ⟨hpl, hrest⟩ := h
    obtain ⟨hvis, t', g'⟩ := newVisible_of_placed g hpl
    exact ⟨hvis, ih g' hrest⟩

theorem Empty.good (h : Empty P ino s) : Good P ino s (.flat []) :=
  ⟨h.inv, ⟨by simp, Pairwise.nil, by simp⟩, .inl h.cache⟩

/-- a new inode: an extent header without entries -/
def newInode : ExtInode Image := ⟨smallFs, ⟨fun w => if w = 10 then 0xF30A else if w = 11 then 4 else 0⟩, .new⟩

theorem newInode_empty : Empty smallParams 2 newInode where
  held :=
    { sound := smallFs_sound
      blockSize_ge := by decide
      blockSize_le := by decide
      group := by decide
      guarded := by
        rintro b (rfl | hb | rfl) hd
        · exact absurd hd.1 (by decide)
        · cases mem_singleton.1 hb
          decide
        · decide
      table := by decide }
  root := .inr (by decide)
  cache := rfl

/-- **In a run of placed calls every new range is found from then on.** -/
theorem insertions_visible (P : Params) (ino : ℕ) (s : ExtInode Image) (h : Empty P ino s)
    (calls : List (UInt32 × UInt32)) (hpl : AllCalls P ino (Placed P) s calls) :
    AllCalls P ino (NewVisible P ino) s calls :=
  h.good.visible_of_placed hpl

/-- a hole in front of a mapped block is filled -/
theorem front_insertion_found : AllCalls smallParams 2 (NewVisible smallParams 2) newInode [(7, 2), (4, 3)] := by
  refine insertions_visible smallParams 2 newInode newInode_empty [(7, 2), (4, 3)] ⟨?_, ?_, trivial⟩
  · intro _ p n fs' ha _
    have hv : value (allocateBlocksContiguous smallParams 0 2 smallFs) = some (17, 2) := by decide +kernel
    have htree : treeOf newInode = .flat [] := by decide +kernel
    cases (value_of_ok ha).symm.trans hv
    rw [htree]
    exact fun _ => ⟨by decide, fun e he => absurd he not_mem_nil, fun hr => absurd hr (by decide)⟩
  · intro _ p n fs' ha _
    have hv : value (allocateBlocksContiguous smallParams 0 3 (afterCall smallParams 2 newInode (7, 2)).fs) =
        some (19, 3) := by decide +kernel
    have htree : treeOf (afterCall smallParams 2 newInode (7, 2)) = .flat [⟨7, 2, 17⟩] := by decide +kernel
    cases (value_of_ok ha).symm.trans hv
    rw [htree]
    refine fun _ => ⟨by decide, fun e he => ?_, fun hr => absurd hr (by decide)⟩
    cases mem_singleton.1 he
    decide

/-- the fifth of five blocks in descending order is registered, and not found -/
theorem descending_not_found :
    ¬AllCalls smallParams 2 (NewVisible smallParams 2) newInode [(50, 1), (40, 1), (30, 1), (20, 1), (10, 1)] := by
  rintro ⟨_, _, _, _, h, _⟩
  generalize hs : afterCall smallParams 2 _ (20, 1) = s at h
  have hcall : value (getOrAllocBlockChunk smallParams 2 10 1 s) = some (21, 1) := by rw [← hs]; decide +kernel
  have hbefore : value (resolveExtentBlockLen smallParams s.raw.iBlock 10 s) = some (0, 0) := by
    rw [← hs]; decide +kernel
  have hafter : value (resolveExtentBlockLen smallParams (afterCall smallParams 2 s (10, 1)).raw.iBlock 10
      (afterCall smallParams 2 s (10, 1))) = some (0, 0) := by rw [← hs]; decide +kernel
  cases hr : getOrAllocBlockChunk smallParams 2 10 1 s with
  | error e s' => rw [hr] at hcall; cases hcall
  | ok v s' =>
    cases (value_of_ok hr).symm.trans hcall
    have hunmapped : Unmapped smallParams s 10 := fun p len s'' hp => by
      cases (value_of_ok hp).symm.trans hbefore; rfl
    obtain ⟨len, s'', hmap⟩ := h 21 1 s' hr hunmapped [] 0 Nat.zero_lt_one
    have hs' : afterCall smallParams 2 s (10, 1) = s' := afterCall_ok hr
    rw [hs'] at hafter
    cases (value_of_ok hmap).symm.trans hafter

/-! ## Old mappings are kept -/

/-- every block that is mapped before a call is mapped to the same block after it -/
def Keeps (P : Params) (ino : ℕ) (s : ExtInode Image) (call : UInt32 × UInt32) : Prop :=
  ∀ b p, p ≠ 0 → Maps P s b p → Maps P (afterCall P ino s call) b p

/-- the run the bitmaps offer for an unmapped block has only unmapped blocks behind it, and hides none -/
def Sparing (P : Params) (s : ExtInode Image) (call : UInt32 × UInt32) : Prop :=
  Unmapped P s call.1.toNat → ∀ p n fs', allocateBlocksContiguous P 0 call.2.toNat s.fs = .ok (p, n) fs' →
    Room P fs' (treeOf s) ⟨call.1.toNat, n, p⟩ → (treeOf s).Spares (maxEntries P.blockSize) ⟨call.1.toNat, n, p⟩

theorem Good.maps_iff (g : Good P ino s t) (ht : t.Tidy) (hp : p ≠ 0) : Maps P s b p ↔ t.lookup b = some p := by
  rcases resolve_cases g.inv g.ordered.ascends g.cache b with ⟨c, e, len, c', hf, hcov, _, _, hr⟩ | ⟨hf, hr⟩
  · rw [ht.find_covers g.ordered.ascends hf hcov, Option.some_inj]
    constructor
    · rintro ⟨len, s', hr'⟩
      rw [hr] at hr'; cases hr'; rfl
    · rintro rfl
      exact ⟨len, _, hr⟩
  · rw [Tree.lookup_eq_find, hf]
    refine iff_of_false ?_ (by simp)
    rintro ⟨len, s', hr'⟩
    rcases hr with hr | ⟨msg, hr⟩
    · rw [hr] at hr'; cases hr'; exact hp rfl
    · rw [hr] at hr'; cases hr'

theorem GrowsTo.lookup (h : t.GrowsTo t') : t'.lookup b = t.lookup b := by
  rcases h with rfl | ⟨node, ns, rfl, rfl⟩ <;> rfl

theorem GrowsTo.tidy (h : t.GrowsTo t') (ht : t.Tidy) : t'.Tidy := by
  rcases h with rfl | ⟨node, ns, rfl, rfl⟩ <;> exact ht

/-- one sparing call keeps the mappings, and the run goes on -/
theorem keeps_of_sparing (g : Good P ino s t) (ht : t.Tidy) (hsp : Sparing P s call) :
    Keeps P ino s call ∧ ∃ t', Good P ino (afterCall P ino s call) t' ∧ t'.Tidy := by
  -- it is enough to find the next tree with the old mappings in it
  suffices hnext : ∃ t', Good P ino (afterCall P ino s call) t' ∧ t'.Tidy ∧
      ∀ b p, t.lookup b = some p → t'.lookup b = some p by
    obtain ⟨t', g', ht', hkeep⟩ := hnext
    exact ⟨fun b p hp hm => (g'.maps_iff ht' hp).2 (hkeep b p ((g.maps_iff ht hp).1 hm)), t', g', ht'⟩
  cases g.called call with
  | mapped hm g' => exact ⟨t, g', ht, fun _ _ hl => hl⟩
  | failed hr hgrow g' => exact ⟨_, g', GrowsTo.tidy hgrow ht, fun b q hq => by rw [GrowsTo.lookup hgrow, hq]⟩
  | @inserted p n fs' t' hu hnone hr ha hroom hb hstep hnext =>
    have hspares := hsp hu p n fs' ha hroom
    rw [treeOf_eq g.inv] at hspares
    obtain ⟨hbelow, hfree, hhide⟩ := hspares hstep.register_isSome
    have hfits : Piece.Fits ⟨call.1.toNat, n, p⟩ := { hb with below := hbelow }
    exact ⟨t', hnext hfits, hstep.tidy ht g.ordered hfits hfree hhide,
      fun b q hq => hstep.keeps ht g.ordered hfits hfree hhide hq⟩

theorem Good.keeps_of_sparing (g : Good P ino s t) (ht : t.Tidy) {calls : List (UInt32 × UInt32)}
    (h : AllCalls P ino (Sparing P) s calls) : AllCalls P ino (Keeps P ino) s calls := by
  induction calls generalizing s t with
  | nil => trivial
  | cons call calls ih =>
    obtain ⟨hsp, hrest⟩ := h
    obtain ⟨hkeep, t', g', ht'⟩ := Ext.keeps_of_sparing g ht hsp
    exact ⟨hkeep, ih g' ht' hrest⟩

/-- **In a run of sparing calls no call changes a mapping.** -/
theorem insertions_keep (P : Params) (ino : ℕ) (s : ExtInode Image) (h : Empty P ino s) (calls : List (UInt32 × UInt32))
    (hsp : AllCalls P ino (Sparing P) s calls) : AllCalls P ino (Keeps P ino) s calls :=
  h.good.keeps_of_sparing ⟨by simp, Pairwise.nil⟩ hsp

/-- a second block behind the first -/
theorem second_insertion_keeps : AllCalls smallParams 2 (Keeps smallParams 2) newInode [(5, 1), (6, 2)] := by
  refine insertions_keep smallParams 2 newInode newInode_empty [(5, 1), (6, 2)] ⟨?_, ?_, trivial⟩
  · intro _ p n fs' ha _
    have hv : value (allocateBlocksContiguous smallParams 0 1 smallFs) = some (17, 1) := by decide +kernel
    have htree : treeOf newInode = .flat [] := by decide +kernel
    cases (value_of_ok ha).symm.trans hv
    exact fun _ => ⟨by decide, fun k _ => rfl, trivial⟩
  · intro _ p n fs' ha _
    have hv : value (allocateBlocksContiguous smallParams 0 2 (afterCall smallParams 2 newInode (5, 1)).fs) =
        some (18, 2) := by decide +kernel
    have htree : treeOf (afterCall smallParams 2 newInode (5, 1)) = .flat [⟨5, 1, 17⟩] := by decide +kernel
    cases (value_of_ok ha).symm.trans hv
    refine fun _ => ⟨by decide, fun k hk => ?_, trivial⟩
    exact lookup_eq_none.2 fun e he hc => by
      cases mem_singleton.1 he
      have hlt : 6 + k < 5 + 1 := hc.2.1
      omega

/-- two blocks asked for in front of a mapped one: its mapping is lost -/
theorem front_insertion_remaps : ¬AllCalls smallParams 2 (Keeps smallParams 2) newInode [(5, 1), (4, 2)] := by
  rintro ⟨_, h, _⟩
  have hbefore : value (resolveExtentBlockLen smallParams (afterCall smallParams 2 newInode (5, 1)).raw.iBlock 5
      (afterCall smallParams 2 newInode (5, 1))) = some (17, 1) := by decide +kernel
  have hafter : value (resolveExtentBlockLen smallParams
      (afterCall smallParams 2 (afterCall smallParams 2 newInode (5, 1)) (4, 2)).raw.iBlock 5
      (afterCall smallParams 2 (afterCall smallParams 2 newInode (5, 1)) (4, 2))) = some (19, 1) := by decide +kernel
  cases hr : resolveExtentBlockLen smallParams (afterCall smallParams 2 newInode (5, 1)).raw.iBlock 5
      (afterCall smallParams 2 newInode (5, 1)) with
  | error e s' => rw [hr] at hbefore; cases hbefore
  | ok v s' =>
    cases (value_of_ok hr).symm.trans hbefore
    obtain ⟨len, s'', hmap⟩ := h 5 17 (by decide) ⟨1, s', hr⟩
    cases (value_of_ok hmap).symm.trans hafter

end Kontsnor.Ext
