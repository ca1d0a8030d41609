/-
What a call of `get_or_alloc_block_chunk` leaves behind, over a device that does not fail.

The insertion takes the data blocks from the bitmaps before it knows whether the tree has a place for them, and no error
path gives them back. `Accommodated` is the condition on the state before a call under which there is such a place: the
node that will take the run has a free entry, or it can be split and a block for the new node will be left.
-/
import Kontsnor.Ext.AccountingRuns
import Kontsnor.Ext.ExtentRuns

namespace Kontsnor.Ext

open List Function GroupDescriptor Nat

open Fallible (modify_bind bind_ok bind_error value)
open Words (Buffer)

/-! ## The blocks of a tree -/

def Piece.Has (e : Piece) (b : ℕ) : Prop := e.phys ≤ b ∧ b < e.phys + e.len

def Occupies (xs : List Piece) (b : ℕ) : Prop := ∃ e ∈ xs, e.Has b

/-- the blocks that belong to the tree: its nodes and its data -/
def Tree.Holds (t : Tree) (b : ℕ) : Prop := b ∈ t.nodes ∨ Occupies t.pieces b

variable {taken : List ℕ} {ns : List Leaf}

section Holds

variable {xs ys : List Piece} {e x : Piece} {b cap : ℕ}

theorem occupies_cons : Occupies (e :: xs) b ↔ e.Has b ∨ Occupies xs b := by
  simp [Occupies]

theorem occupies_append : Occupies (xs ++ ys) b ↔ Occupies xs b ∨ Occupies ys b := by
  simp [Occupies, or_and_right, exists_or]

theorem not_occupies_nil : ¬Occupies [] b := by
  rintro ⟨e, he, _⟩
  exact not_mem_nil he

theorem has_grow (h : x.Continues e) : (e.grow x.len).Has b ↔ e.Has b ∨ x.Has b := by
  obtain ⟨_, hphys, _⟩ := h
  simp only [Piece.Has, Piece.grow]
  omega

theorem occupies_perm (hp : xs.Perm ys) : Occupies xs b ↔ Occupies ys b := by
  simp [Occupies, hp.mem_iff]

theorem Takes.occupies (h : Takes xs x ys) : Occupies ys b ↔ Occupies xs b ∨ x.Has b := by
  rcases h with hp | ⟨e, rest, hxs, hc, hys⟩
  · rw [occupies_perm hp, occupies_cons]
    exact or_comm
  · rw [occupies_perm hys, occupies_perm hxs, occupies_cons, occupies_cons, has_grow hc]
    tauto

theorem occupies_flatMap : Occupies (ns.flatMap Leaf.pieces) b ↔ ∃ l ∈ ns, Occupies l.pieces b := by
  constructor
  · rintro ⟨e, he, hb⟩
    obtain ⟨l, hl, hel⟩ := mem_flatMap.1 he
    exact ⟨l, hl, e, hel, hb⟩
  · rintro ⟨l, hl, e, he, hb⟩
    exact ⟨e, mem_flatMap.2 ⟨l, hl, he⟩, hb⟩

theorem occupies_set {j : ℕ} {l l' : Leaf} (hj : ns[j]? = some l)
    (hl : Occupies l'.pieces b ↔ Occupies l.pieces b ∨ x.Has b) :
    Occupies ((ns.set j l').flatMap Leaf.pieces) b ↔ Occupies (ns.flatMap Leaf.pieces) b ∨ x.Has b := by
  obtain ⟨hlt, rfl⟩ := List.getElem?_eq_some_iff.1 hj
  have hsplit : ns.flatMap Leaf.pieces = (ns.take j).flatMap Leaf.pieces ++ (ns[j].pieces ++
      (ns.drop (j + 1)).flatMap Leaf.pieces) := by
    rw [← flatMap_cons, ← flatMap_append, getElem_cons_drop, take_append_drop]
  rw [hsplit, set_eq_take_append_cons_drop, if_pos hlt, flatMap_append, flatMap_cons]
  simp only [occupies_append, hl]
  tauto

section Step

variable {newBlock : ℕ} {t t' : Tree} (hs : Tree.Step cap newBlock x t t')
include hs

theorem Tree.Step.occupies : Occupies t'.pieces b ↔ Occupies t.pieces b ∨ x.Has b := by
  have hno : ¬Occupies [] b := not_occupies_nil
  cases hs with
  | root hr => exact (registerFlat_takes hr).occupies
  | split hr =>
    simp only [pieces, flatMap_cons, flatMap_nil, append_nil, occupies_append, occupies_cons]
    tauto
  | leaf htarget hr => exact occupies_set htarget (registerLeaf_takes hr).occupies
  | @add ns l htarget hr hlen =>
    have hperm : (insertLeaf ns ⟨x.first, newBlock, [x]⟩).Perm (⟨x.first, newBlock, [x]⟩ :: ns) :=
      Ascending.perm_insertBy _ _
    simp only [pieces, occupies_flatMap, hperm.mem_iff, mem_cons, exists_eq_or_imp, occupies_cons, hno, or_false]
    exact or_comm

variable (ht : t.Takes cap x newBlock taken)
include ht

theorem Tree.Step.nodes_iff : b ∈ t'.nodes ↔ b ∈ t.nodes ∨ b ∈ taken := by
  cases hs with
  | root hr =>
    rcases ht with ⟨hsp, -⟩ | ⟨-, rfl⟩
    · cases hr.symm.trans hsp
    · simp [nodes]
  | split hr =>
    rcases ht with ⟨-, rfl⟩ | ⟨hsp, -⟩
    · simp [nodes]
    · exact absurd hr hsp
  | @leaf ns l ys htarget hr =>
    rcases ht with ⟨hsp, -⟩ | ⟨-, rfl⟩
    · cases hr.symm.trans (hsp l htarget)
    · rw [nodes, map_set_of_eq Leaf.block { l with pieces := ys } htarget rfl]
      simp [nodes]
  | @add ns l htarget hr hlen =>
    rcases ht with ⟨-, rfl⟩ | ⟨hsp, -⟩
    · have hperm : (insertLeaf ns ⟨x.first, newBlock, [x]⟩).Perm (⟨x.first, newBlock, [x]⟩ :: ns) :=
        Ascending.perm_insertBy _ _
      rw [nodes, (hperm.map Leaf.block).mem_iff, map_cons, mem_cons, mem_singleton, or_comm]
      rfl
    · refine absurd (fun m hm => ?_) hsp
      cases htarget.symm.trans hm
      exact hr

theorem Tree.Step.holds_iff : t'.Holds b ↔ t.Holds b ∨ x.Has b ∨ b ∈ taken := by
  rw [Holds, Holds, hs.nodes_iff ht, hs.occupies]
  tauto

end Step

end Holds

/-! ## The books over a stretch of work -/

variable {count : ℕ}

section Work

variable {P : Params} {fs fs' : ExtFileSystem Image}

theorem Books.bitmaps_eq (h : Books P fs) (h32 : fs.superblock.totalBlocks < 2 ^ 32) :
    (shape P fs).bitmaps = (layout fs).bitmaps := by
  refine map_congr_left fun gd hgd => ?_
  obtain ⟨g, hg, rfl⟩ := getElem_of_mem hgd
  have hlow := h.bgBlockBitmap h32 hg
  rw [descriptor, getD_eq_getElem _ _ hg] at hlow
  exact hlow.symm

theorem Books.write (h : Books P fs) {b : ℕ} (hb : b ∉ (shape P fs).bitmaps ++ (shape P fs).inodeBitmaps) (v : Buffer) :
    Books P { fs with device := update fs.device b v } where
  sound := h.sound
  blocks := by
    refine h.blocks.congr rfl (fun _ _ => rfl) (fun g hg => ?_) (fun _ _ => rfl) rfl
    refine update_of_ne (fun he => hb ?_) v fs.device
    exact mem_append_left _ (he ▸ field_mem hg)
  inodes := by
    refine h.inodes.congr rfl (fun _ _ => rfl) (fun g hg => ?_) (fun _ _ => rfl) rfl
    refine update_of_ne (fun he => hb ?_) v fs.device
    exact mem_append_right _ (he ▸ field_mem hg)

theorem Books.alloc (h : Books P fs) (h32 : fs.superblock.totalBlocks < 2 ^ 32) (hcount : 0 < count) :
    (∃ p n fs', allocateBlocksContiguous P 0 count fs = .ok (p, n) fs' ∧ Books P fs' ∧ shape P fs' = shape P fs ∧
      n ≤ min count 128 ∧ fs'.superblock.freeBlocks + n = fs.superblock.freeBlocks ∧ 0 < n) ∨
    (∃ e, allocateBlocksContiguous P 0 count fs = .error e fs) ∧ fs.superblock.freeBlocks = 0 := by
  rcases allocateBlocksContiguous_cases h h32 0 hcount with
    ⟨g, hg, start, k, hpos, hk, hk128, hfree, hin, hok⟩ | ⟨herr, hnone⟩
  · exact .inl ⟨_, k, _, hok, h.takeBlocks h32 hg hfree hin, (step_takeBlocks h h32 hg k _).same, le_min hk hk128,
      h.freeBlocks_taken hg h32 hfree hin, hpos⟩
  · refine .inr ⟨herr, ?_⟩
    rw [show fs.superblock.freeBlocks = (blockPool P fs).total from rfl, h.blocks.total]
    exact Finset.sum_eq_zero fun g hg => hnone g (Finset.mem_range.1 hg)

theorem Work.layout_eq {written : List ℕ} (h : Work P fs fs' taken written) (hs : (layout fs).Sound P.blockSize) :
    layout fs' = layout fs := by
  induction h with
  | done fs => rfl
  | @alloc fs fs1 fs2 count p n taken written ha _ ih =>
    have hspec := allocateBlocksContiguous_spec hs 0 count
    rw [ha] at hspec
    exact (ih (hspec.1 ▸ hs)).trans hspec.1
  | write b v _ ih => exact ih hs

/-- what a stretch of work comes to: the books are right, and exactly the blocks taken are newly marked -/
structure Settled (P : Params) (fs fs' : ExtFileSystem Image) (taken : List ℕ) : Prop where
  books : Books P fs'
  same : shape P fs' = shape P fs
  layout_eq : layout fs' = layout fs
  bits : ∀ b, (layout fs).Data b → (layout fs).used fs'.device b = (decide (b ∈ taken) || (layout fs).used fs.device b)
  fresh : ∀ b ∈ taken, (layout fs).Data b ∧ (layout fs).used fs.device b = false

theorem Work.settled {written : List ℕ} (h : Work P fs fs' taken written) (hs : (layout fs).Sound P.blockSize)
    (hb : Books P fs) (h32 : fs.superblock.totalBlocks < 2 ^ 32)
    (hw : ∀ w ∈ written, w ∉ (shape P fs).bitmaps ++ (shape P fs).inodeBitmaps) : Settled P fs fs' taken := by
  induction h with
  | done fs => exact ⟨hb, rfl, rfl, fun b _ => by simp, fun b hm => absurd hm not_mem_nil⟩
  | @alloc fs fs1 fs2 count p n taken written ha _ ih =>
    have hspec := allocateBlocksContiguous_spec hs 0 count
    rw [ha] at hspec
    obtain ⟨hl, hall, hn⟩ := hspec
    have hcount : 0 < count := by have := hall.pos; omega
    obtain ⟨hb1, hsame⟩ : Books P fs1 ∧ shape P fs1 = shape P fs := by
      rcases hb.alloc h32 hcount with ⟨p', n', fs', ha', hbooks, hshape, _⟩ | ⟨⟨e, herr⟩, _⟩
      · rw [ha] at ha'
        cases ha'
        exact ⟨hbooks, hshape⟩
      · rw [ha] at herr; cases herr
    have htotal : fs1.superblock.totalBlocks = fs.superblock.totalBlocks := congrArg Shape.totalBlocks hsame
    have hrest := ih (hl ▸ hs) hb1 (htotal ▸ h32) (by rw [hsame]; exact hw)
    have hrange : ∀ b, b ∈ range' p n ↔ p ≤ b ∧ b < p + n := fun b => by
      rw [mem_range'_1]
    refine ⟨hrest.books, hrest.same.trans hsame, hrest.layout_eq.trans hl, fun b hd => ?_, fun b hm => ?_⟩
    · have hbits := hrest.bits b (hl ▸ hd)
      rw [hl, hall.used b hd] at hbits
      rw [hbits]
      simp only [mem_append, hrange, Bool.decide_or, Bool.decide_and]
      cases decide (b ∈ taken) <;> simp
    · rcases mem_append.1 hm with hm | hm
      · obtain ⟨h1, h2⟩ := (hrange b).1 hm
        exact ⟨⟨hall.lower.trans h1, h2.trans_le hall.upper⟩, hall.free b h1 h2⟩
      · obtain ⟨hd, hfree⟩ := hrest.fresh b hm
        rw [hl] at hd hfree
        rw [hall.used b hd, Bool.or_eq_false_iff] at hfree
        exact ⟨hd, hfree.2⟩
  | @write fs fs2 taken written b v _ ih =>
    have hnot := hw b mem_cons_self
    have hrest := ih hs (hb.write hnot v) h32 fun w hm => hw w (mem_cons_of_mem b hm)
    have hmap : b ∉ (layout fs).bitmaps := by
      rw [← hb.bitmaps_eq h32]
      exact fun hm => hnot (mem_append_left _ hm)
    have hused : ∀ c, (layout fs).Data c → (layout fs).used (update fs.device b v) c =
        (layout fs).used fs.device c := fun c hc => used_update hs hmap v hc
    refine ⟨hrest.books, hrest.same, hrest.layout_eq, fun c hd => ?_, fun c hm => ?_⟩
    · rw [← hused c hd]
      exact hrest.bits c hd
    · obtain ⟨hd, hfree⟩ := hrest.fresh c hm
      exact ⟨hd, (hused c hd).symm.trans hfree⟩

end Work

/-! ## What a call leaves behind -/

/-- block `b` is a node or a data block of the inode -/
def Reachable (s : ExtInode Image) (b : ℕ) : Prop := (treeOf s).Holds b

def NewlySet (s s' : ExtInode Image) (b : ℕ) : Prop :=
  (layout s.fs).Data b ∧ (layout s.fs).used s.fs.device b = false ∧ (layout s.fs).used s'.fs.device b = true

variable (P : Params)

/-- a call that succeeds marks what the inode newly holds, and one that fails changes neither the device nor the counters
nor the root -/
structure AllOrNothing (ino : ℕ) (s : ExtInode Image) (call : UInt32 × UInt32) : Prop where
  all : ∀ v s', getOrAllocBlockChunk P ino call.1.toNat call.2.toNat s = .ok v s' →
    ∀ b, NewlySet s s' b ↔ Reachable s' b ∧ ¬Reachable s b
  nothing : ∀ e s', getOrAllocBlockChunk P ino call.1.toNat call.2.toNat s = .error e s' → s'.fs = s.fs ∧ s'.raw = s.raw

/-- a call succeeds if its block is mapped or a block is free -/
def Served (ino : ℕ) (s : ExtInode Image) (call : UInt32 × UInt32) : Prop :=
  (Unmapped P s call.1.toNat → 0 < s.fs.superblock.freeBlocks) →
    ∃ v s', getOrAllocBlockChunk P ino call.1.toNat call.2.toNat s = .ok v s'

/-- the node that takes a run at file block `b` has a free entry -/
def Tree.HasRoom (cap b : ℕ) : Tree → Prop
  | flat xs => xs.length < 4
  | deep ns => ∀ l, ns[target ns b]? = some l → l.pieces.length < cap
  | grown _ _ => False

/-- the tree can take another node -/
def Tree.CanSplit : Tree → Prop
  | flat _ => True
  | deep ns => ns.length < 4
  | grown _ _ => False

/-- there is a place for what the call will insert -/
def Accommodated (s : ExtInode Image) (call : UInt32 × UInt32) : Prop :=
  0 < call.2.toNat ∧ call.1.toNat + min call.2.toNat 128 < 2 ^ 32 ∧
    (Unmapped P s call.1.toNat → s.fs.superblock.freeBlocks = 0 ∨
      (treeOf s).HasRoom (maxEntries P.blockSize) call.1.toNat ∨
      (treeOf s).CanSplit ∧ min call.2.toNat 128 < s.fs.superblock.freeBlocks)

/-- an inode with an empty root on a filesystem whose books are right and whose inode bitmaps are marked -/
structure Fresh (ino : ℕ) (s : ExtInode Image) : Prop where
  empty : Empty P ino s
  books : Books P s.fs
  u32 : s.fs.superblock.totalBlocks < 2 ^ 32
  guarded : ∀ b ∈ (shape P s.fs).inodeBitmaps, (layout s.fs).Data b → (layout s.fs).used s.fs.device b = true
  table : tableBlock P (layout s.fs) ino ∉ (shape P s.fs).inodeBitmaps

/-- the state of a run of accommodated calls -/
structure InBooks (ino : ℕ) (s : ExtInode Image) (t : Tree) : Prop where
  good : Good P ino s t
  books : Books P s.fs
  u32 : s.fs.superblock.totalBlocks < 2 ^ 32
  guarded : ∀ b ∈ (shape P s.fs).inodeBitmaps, (layout s.fs).Data b → (layout s.fs).used s.fs.device b = true
  table : tableBlock P (layout s.fs) ino ∉ (shape P s.fs).inodeBitmaps
  nodes : ∀ b ∈ t.nodes, b ∉ (shape P s.fs).inodeBitmaps

variable {fs1 : ExtFileSystem Image}

section Calls

variable {P : Params} {ino : ℕ} {s s' : ExtInode Image} {t t' : Tree}

theorem Fresh.inBooks (h : Fresh P ino s) : InBooks P ino s (.flat []) :=
  ⟨h.empty.good, h.books, h.u32, h.guarded, h.table, fun _ hb => absurd hb not_mem_nil⟩

theorem Inv.used_of_holds (h : Inv P ino s t) {b : ℕ} (hb : t.Holds b) :
    (layout s.fs).Data b ∧ (layout s.fs).used s.fs.device b = true := by
  rcases hb with hb | ⟨e, he, h1, h2⟩
  · obtain ⟨hd, hu, _⟩ := h.node b hb
    exact ⟨hd, hu⟩
  · have := h.data e he (b - e.phys) (by omega)
    rwa [Nat.add_sub_cancel' h1] at this

theorem target_lt (h : ns ≠ []) (b : ℕ) : target ns b < ns.length := by
  have hpos : 0 < ns.length := length_pos_of_ne_nil h
  have hle : (ns.countP fun l => decide (l.key ≤ b)) ≤ ns.length := countP_le_length
  unfold target
  omega

theorem registerLeaf_full {cap : ℕ} {x : Piece} {xs : List Piece} (hr : registerLeaf cap xs x = none) : cap ≤ xs.length := by
  unfold registerLeaf at hr
  split at hr
  · cases hr
  · split_ifs at hr with hlt
    exact not_lt.1 hlt

theorem register_isSome_of_room {cap : ℕ} {x : Piece} (ho : t.Ordered cap) (h : t.HasRoom cap x.first ∨ t.CanSplit) :
    (t.register cap x 0).isSome := by
  cases t with
  | flat xs =>
    cases hr : registerFlat xs x <;> simp [Tree.register, hr]
  | deep ns =>
    have hlt := target_lt ho.ne_nil x.first
    have ht := getElem?_eq_getElem hlt
    cases hr : registerLeaf cap ns[target ns x.first].pieces x with
    | some ys => simp [Tree.register, ht, hr]
    | none =>
      have hlen : ns.length < 4 := by
        rcases h with hroom | hsplit
        · exact absurd (hroom _ ht) (not_lt.2 (registerLeaf_full hr))
        · exact hsplit
      simp [Tree.register, ht, hr, hlen]
  | grown node ns => rcases h with h | h <;> exact absurd h (by simp [Tree.HasRoom, Tree.CanSplit])

theorem not_splits_of_room {cap : ℕ} {x : Piece} (ho : t.Ordered cap) (h : t.HasRoom cap x.first) : ¬t.Splits cap x := by
  intro hs
  cases t with
  | flat xs =>
    rw [Tree.Splits, registerFlat] at hs
    split at hs
    · split_ifs at hs with hc h4
      exact h4 h
    · cases hs
  | deep ns =>
    have hlt := target_lt ho.ne_nil x.first
    have ht := getElem?_eq_getElem hlt
    exact absurd (h _ ht) (not_lt.2 (registerLeaf_full (hs _ ht)))
  | grown node ns => exact h

/-- the state after an insertion that took `taken` -/
theorem InBooks.settled (a : InBooks P ino s t) {x : Piece}
    (ha : allocateBlocksContiguous P 0 count s.fs = .ok (x.phys, x.len) fs1) (hroom : Room P fs1 t x)
    (hstep : Tree.Step (maxEntries P.blockSize) (newNode P fs1) x t t')
    (ht : t.Takes (maxEntries P.blockSize) x (newNode P fs1) taken) (hinv : Inv P ino s' t')
    (hw : Worked P ino fs1 s'.fs taken t'.nodes) :
    Settled P s.fs s'.fs (range' x.phys x.len ++ taken) ∧ ∀ b ∈ t'.nodes, b ∉ (shape P s.fs).inodeBitmaps := by
  obtain ⟨hl, _, _⟩ := alloc_ok a.good.inv.held ha
  -- the block of a new node was free, so it is no bitmap
  have hnodes : ∀ b ∈ t'.nodes, b ∉ (shape P s.fs).inodeBitmaps := by
    intro b hb hm
    rcases (hstep.nodes_iff ht).1 hb with hb | hb
    · exact a.nodes b hb hm
    · rcases ht with ⟨hsp, rfl⟩ | ⟨-, rfl⟩
      swap
      · cases hb
      obtain ⟨c, fs2, hc⟩ := hroom hsp
      obtain ⟨_, hh⟩ := allocateBlock_ok (hl.held a.good.inv.held) hc
      rw [newNode_eq hc] at hb
      cases mem_singleton.1 hb
      have hd := hh.data b le_rfl (lt_succ_self b)
      have hfree := hh.free b le_rfl (lt_succ_self b)
      rw [hl.layout_eq] at hd hfree
      rw [hl.used b hd (a.guarded b hm hd)] at hfree
      cases hfree
  obtain ⟨written, hwork, hin⟩ := hw
  refine ⟨(Work.alloc ha hwork).settled a.good.inv.held.sound a.books a.u32 fun w hm => ?_, hnodes⟩
  rw [mem_append, a.books.bitmaps_eq a.u32, not_or]
  rcases hin w hm with rfl | hnode
  · rw [hl.layout_eq]
    exact ⟨a.good.inv.held.table, a.table⟩
  · refine ⟨fun hb => (hinv.node w hnode).2.2 (.inr (.inl ?_)), hnodes w hnode⟩
    have hsound : (layout fs1).Sound P.blockSize := hl.layout_eq ▸ a.good.inv.held.sound
    rw [hwork.layout_eq hsound, hl.layout_eq]
    exact hb

theorem AllOrNothing.of_ok {call : UInt32 × UInt32} {v : ℕ × ℕ}
    (hr : getOrAllocBlockChunk P ino call.1.toNat call.2.toNat s = .ok v s')
    (h : ∀ b, NewlySet s s' b ↔ Reachable s' b ∧ ¬Reachable s b) : AllOrNothing P ino s call where
  all v' s'' hr' := by
    rw [hr] at hr'
    cases hr'
    exact h
  nothing e s'' hr' := by
    rw [hr] at hr'
    cases hr'

theorem AllOrNothing.of_error {call : UInt32 × UInt32} {e : String}
    (hr : getOrAllocBlockChunk P ino call.1.toNat call.2.toNat s = .error e s') (h : s'.fs = s.fs ∧ s'.raw = s.raw) :
    AllOrNothing P ino s call where
  all v' s'' hr' := by
    rw [hr] at hr'
    cases hr'
  nothing e s'' hr' := by
    rw [hr] at hr'
    cases hr'
    exact h

/-- the newly marked blocks of an insertion are those the tree newly holds -/
theorem newlySet_iff {x : Piece} (h : Inv P ino s t) (hinv : Inv P ino s' t')
    (hset : Settled P s.fs s'.fs (range' x.phys x.len ++ taken))
    (hholds : ∀ b, t'.Holds b ↔ t.Holds b ∨ x.Has b ∨ b ∈ taken) (b : ℕ) :
    NewlySet s s' b ↔ Reachable s' b ∧ ¬Reachable s b := by
  have hmem : b ∈ range' x.phys x.len ++ taken ↔ x.Has b ∨ b ∈ taken := by
    rw [mem_append, mem_range'_1]
    rfl
  rw [Reachable, Reachable, treeOf_eq h, treeOf_eq hinv, hholds b]
  constructor
  · rintro ⟨hd, hfree, hused⟩
    rw [hset.bits b hd, hfree, Bool.or_false, decide_eq_true_eq, hmem] at hused
    refine ⟨.inr hused, fun hold => ?_⟩
    rw [(h.used_of_holds hold).2] at hfree
    cases hfree
  · rintro ⟨hnew, hold⟩
    have hb := hmem.2 (hnew.resolve_left hold)
    obtain ⟨hd, hfree⟩ := hset.fresh b hb
    refine ⟨hd, hfree, ?_⟩
    rw [hset.bits b hd, decide_eq_true hb, Bool.true_or]

theorem InBooks.cached (a : InBooks P ino s t) {c : ExtentCache} (hc : CacheIs t c) :
    InBooks P ino { s with extentCache := c } t :=
  ⟨⟨⟨a.good.inv.held, a.good.inv.tree, a.good.inv.nodup, a.good.inv.node, a.good.inv.data⟩, a.good.ordered, hc⟩, a.books,
    a.u32, a.guarded, a.table, a.nodes⟩

theorem newlySet_cached (c : ExtentCache) (b : ℕ) :
    NewlySet s { s with extentCache := c } b ↔ Reachable { s with extentCache := c } b ∧ ¬Reachable s b := by
  refine iff_of_false ?_ fun h => h.2 h.1
  rintro ⟨_, h1, h2⟩
  rw [h1] at h2
  cases h2

theorem allocate_none {fuel b : ℕ} {e : String} (ha : allocateBlocksContiguous P 0 count s.fs = .error e s.fs) :
    allocateExtentBlockChunk P ino (fuel + 1) b count s = .error e { s with extentCache := s.extentCache.invalidate } := by
  rw [allocateExtentBlockChunk, modify_bind, bind_error (onFs_alloc_error ha)]
  rfl

section

variable (a : InBooks P ino s t)
include a

theorem InBooks.room {b p n : ℕ} (hbooks : Books P fs1)
    (hsame : shape P fs1 = shape P s.fs) (hn : n ≤ min count 128)
    (hfree : fs1.superblock.freeBlocks + n = s.fs.superblock.freeBlocks)
    (h : t.HasRoom (maxEntries P.blockSize) b ∨ t.CanSplit ∧ min count 128 < s.fs.superblock.freeBlocks) :
    Room P fs1 t ⟨b, n, p⟩ := by
  intro hsp
  rcases h with hroom | ⟨_, hlt⟩
  · exact absurd hsp (not_splits_of_room a.good.ordered hroom)
  · have htotal : fs1.superblock.totalBlocks = s.fs.superblock.totalBlocks := congrArg Shape.totalBlocks hsame
    rcases hbooks.alloc (htotal ▸ a.u32) one_pos with ⟨q, m, fs2, hq, _⟩ | ⟨_, hzero⟩
    · exact ⟨q, fs2, by rw [allocateBlock, bind_ok hq]; rfl⟩
    · omega

/-- **One accommodated call.** -/
theorem InBooks.call {call : UInt32 × UInt32} (hc : Accommodated P s call) :
    (AllOrNothing P ino s call ∧ Served P ino s call) ∧ ∃ t', InBooks P ino (afterCall P ino s call) t' := by
  obtain ⟨hcount, hbelow, hplace⟩ := hc
  have hinv := a.good.inv
  have hfb : call.1.toNat < 2 ^ 32 := call.1.toNat_lt
  rw [treeOf_eq hinv] at hplace
  rcases getOrAlloc_cases hinv a.good.ordered.ascends a.good.cache call.1.toNat call.2.toNat with
    ⟨_, p, len, c, hcc, hr⟩ | ⟨hu, hnone, hr⟩
  · -- mapped already
    rw [afterCall_ok hr]
    exact ⟨⟨.of_ok hr (newlySet_cached c), fun _ => ⟨_, _, hr⟩⟩, t, a.cached hcc⟩
  · rcases a.books.alloc a.u32 hcount with ⟨p, n, fs1, ha, hbooks, hsame, hn, hfree, hpos⟩ | ⟨⟨e, ha⟩, hzero⟩
    · have hwhere := (hplace hu).resolve_left (by omega)
      have hroom : Room P fs1 t ⟨call.1.toNat, n, p⟩ := a.room hbooks hsame hn hfree hwhere
      have hsome : (t.register (maxEntries P.blockSize) ⟨call.1.toNat, n, p⟩ 0).isSome :=
        register_isSome_of_room a.good.ordered (hwhere.imp_right And.left)
      have hins := allocate_spec hinv a.good.ordered hfb 0 call.2.toNat
      rw [← hr] at hins
      cases hres : getOrAllocBlockChunk P ino call.1.toNat call.2.toNat s with
      | error e s' =>
        rw [hres] at hins
        rw [hins.2.1 p n fs1 ha hroom] at hsome
        cases hsome
      | ok v s' =>
        obtain ⟨p', n'⟩ := v
        rw [hres] at hins
        obtain ⟨hcache, fs2, ha', _, hb, t', hstep, hinv', taken, htakes, hwork⟩ := hins
        rw [ha] at ha'
        cases ha'
        obtain ⟨hset, hnodes⟩ := a.settled (x := ⟨call.1.toNat, n, p⟩) ha hroom hstep htakes hinv' hwork
        have hlook : t.lookup call.1.toNat = none := by rw [Tree.lookup_eq_find, hnone]; rfl
        have hfits : Piece.Fits ⟨call.1.toNat, n, p⟩ :=
          { hb with below := by simp only; omega }
        have htotal : s'.fs.superblock.totalBlocks = s.fs.superblock.totalBlocks :=
          congrArg Shape.totalBlocks hset.same
        have hholds : ∀ b, t'.Holds b ↔ t.Holds b ∨ Piece.Has ⟨call.1.toNat, n, p⟩ b ∨ b ∈ taken :=
          fun b => hstep.holds_iff htakes
        rw [afterCall_ok hres]
        refine ⟨⟨.of_ok hres (newlySet_iff hinv hinv' hset hholds), fun _ => ⟨_, _, hres⟩⟩, t', ?_⟩
        refine ⟨⟨hinv', hstep.ordered a.good.ordered hinv.held.cap_bounds.1 hlook hfits, .inl hcache⟩, hset.books,
          htotal ▸ a.u32, fun b hm hd => ?_, ?_, ?_⟩
        · rw [hset.same] at hm
          rw [hset.layout_eq] at hd ⊢
          rw [hset.bits b hd, a.guarded b hm hd, Bool.or_true]
        · rw [hset.layout_eq, hset.same]
          exact a.table
        · rw [hset.same]
          exact hnodes
    · -- nothing is free
      rw [allocate_none ha] at hr
      rw [afterCall_error hr]
      refine ⟨⟨.of_error hr ⟨rfl, rfl⟩, fun hpos => ?_⟩, t, a.cached (.inl rfl)⟩
      have := hpos hu
      omega

theorem InBooks.calls {calls : List (UInt32 × UInt32)} (h : AllCalls P ino (Accommodated P) s calls) :
    AllCalls P ino (fun s call => AllOrNothing P ino s call ∧ Served P ino s call) s calls := by
  induction calls generalizing s t with
  | nil => trivial
  | cons call calls ih =>
    obtain ⟨hcall, hrest⟩ := h
    obtain ⟨hdone, t', a'⟩ := a.call hcall
    exact ⟨hdone, ih a' hrest⟩

end

end Calls

/-- **In a run of accommodated calls every call is all or nothing.** -/
theorem insertions_all_or_nothing (P : Params) (ino : ℕ) (s : ExtInode Image) (h : Fresh P ino s)
    (calls : List (UInt32 × UInt32)) (hc : AllCalls P ino (Accommodated P) s calls) :
    AllCalls P ino (fun s call => AllOrNothing P ino s call ∧ Served P ino s call) s calls :=
  h.inBooks.calls hc

/-- one group of 63 blocks of which the last five are free, and the inode of `newInode` on it -/
def tightInode : ExtInode Image where
  fs :=
    { device b w :=
        if b = 3 then if w = 1 then 0x83FFFFFF else 0xFFFFFFFF
        else if b = 4 then if w = 0 then 0xFFFFFF03 else 0xFFFFFFFF
        else 0
      superblock := ⟨8, 64, 5, 0, 6, 1, 8192, 0, 0, 0, 0⟩
      groupDescriptors := [⟨3, 4, 5, 5, 0, 6, 1, 0, 0, 0, 0⟩]
      metadataDirty := false }
  raw := newInode.raw
  extentCache := .new

theorem tightInode_books : Books smallParams tightInode.fs where
  sound := paddedFs_books.sound
  blocks := by
    refine ⟨by decide, fun g hg i h1 h2 => ?_, by decide +kernel, by decide⟩
    obtain rfl : g = 0 := lt_one_iff.1 hg
    refine bit_padding (n := 63) (k := 2) (by decide) (fun j hj => ?_) h1
    have h1 : j ≠ 1 := by omega
    simp [blockPool, descriptor, tightInode, blockBitmap, wide, smallParams, h1]
  inodes := by
    refine ⟨by decide, fun g hg i h1 h2 => ?_, by decide +kernel, by decide⟩
    obtain rfl : g = 0 := lt_one_iff.1 hg
    refine bit_padding (n := 8) (k := 1) (by decide) (fun j hj => ?_) h1
    have h0 : j ≠ 0 := by omega
    simp [inodePool, descriptor, tightInode, inodeBitmap, wide, smallParams, h0]

theorem tightInode_fresh : Fresh smallParams 2 tightInode where
  empty :=
    { held :=
        { sound := ⟨by decide, by decide, by decide, by decide, by decide, by decide⟩
          blockSize_ge := by decide
          blockSize_le := by decide
          group := by decide
          guarded := by
            rintro b (rfl | hb | rfl) hd
            · exact absurd hd.1 (by decide)
            · cases mem_singleton.1 hb
              decide
            · decide
          table := by decide }
      root := .inr (by decide)
      cache := rfl }
  books := tightInode_books
  u32 := by decide
  guarded := by
    intro b hb _
    cases mem_singleton.1 hb
    decide
  table := by decide

/-- the first two calls find room in the root -/
theorem first_insertions_all_or_nothing :
    AllCalls smallParams 2 (fun s call => AllOrNothing smallParams 2 s call ∧ Served smallParams 2 s call) tightInode
      [(10, 1), (20, 1)] := by
  refine insertions_all_or_nothing smallParams 2 tightInode tightInode_fresh [(10, 1), (20, 1)] ⟨?_, ?_, trivial⟩
  · have htree : treeOf tightInode = .flat [] := by decide +kernel
    refine ⟨by decide, by decide, fun _ => .inr (.inl ?_)⟩
    exact (by decide : 0 < 4)
  · have htree : treeOf (afterCall smallParams 2 tightInode (10, 1)) = .flat [⟨10, 1, 59⟩] := by decide +kernel
    refine ⟨by decide, by decide, fun _ => .inr (.inl ?_)⟩
    exact (by decide : 1 < 4)

theorem not_allOrNothing {P : Params} {ino : ℕ} {s : ExtInode Image} {call : UInt32 × UInt32}
    (hcall : value (getOrAllocBlockChunk P ino call.1.toNat call.2.toNat s) = none)
    (hcount : (afterCall P ino s call).fs.superblock.sFreeBlocksCount ≠ s.fs.superblock.sFreeBlocksCount) :
    ¬AllOrNothing P ino s call := by
  intro h
  cases hr : getOrAllocBlockChunk P ino call.1.toNat call.2.toNat s with
  | ok v s' => rw [hr] at hcall; cases hcall
  | error e s' =>
    obtain ⟨hfs, _⟩ := h.nothing e s' hr
    rw [afterCall_error hr, hfs] at hcount
    exact hcount rfl

/-- four single blocks fill the root; the fifth is taken, there is no block for a leaf, and the call fails without giving
it back -/
theorem split_without_block_leaks : Fresh smallParams 2 tightInode ∧
    ¬AllCalls smallParams 2 (AllOrNothing smallParams 2) tightInode [(10, 1), (20, 1), (30, 1), (40, 1), (50, 1)] := by
  refine ⟨tightInode_fresh, ?_⟩
  rintro ⟨_, _, _, _, h, _⟩
  revert h
  exact not_allOrNothing (by decide +kernel) (by decide +kernel)

end Kontsnor.Ext
