/-
What the release of an inode frees, over a device that does not fail.

`ownedBlocks` are the blocks an inode reaches through its mapping, read the way lookups read `i_block`: as the text of a
short symlink, as an extent tree, or as block pointers. `Freed fs fs' bs`: exactly the bits of `bs` were cleared, and no
block but a bitmap was written.
-/
import Kontsnor.Ext.AllocSpec
import Kontsnor.Ext.Dealloc

namespace Kontsnor.Ext

open List Function Layout ExtRawInode Bool Nat

open Fallible (get_bind bind_ok forEach final)
open Words (Buffer bit clearBit bit_clearBit)

/-! ## What an inode owns -/

section Mapping

variable (P : Params) (d : Image)

/-- the pointers behind a block of pointers, and the block -/
def indirectBlocks (sib : ℕ) : List ℕ :=
  if sib = 0 then [] else refs P (d sib) ++ [sib]

def doubleIndirectBlocks (dib : ℕ) : List ℕ :=
  if dib = 0 then [] else (refs P (d dib)).flatMap (indirectBlocks P d) ++ [dib]

/-- `i_block` read as block pointers; a pointer that is 0 names no block -/
def pointerBlocks (iBlock : Fin 15 → UInt32) : List ℕ :=
  directs iBlock ++ (indirectBlocks P d (iBlock 12).toNat ++ doubleIndirectBlocks P d (iBlock 13).toNat)

/-- the blocks below a node of an extent tree -/
def nodeBlocks : ℕ → Buffer → ℕ → List ℕ
  | fuel, buf, room =>
    let header := readHeader buf
    if header.ehMagic ≠ 0xF30A then []
    else if header.ehDepth = 0 then (extents buf (min header.ehEntries room)).flatMap Ext4Extent.blocks
    else
      match fuel with
      | 0 => []
      | fuel + 1 => (indices buf (min header.ehEntries room)).flatMap fun idx =>
          nodeBlocks fuel (d idx.leafBlock) (maxEntries P.blockSize) ++ [idx.leafBlock % 2 ^ 32]

/-- the levels below a node, as its header has it -/
def level (buf : Buffer) : ℕ := if (readHeader buf).ehMagic = 0xF30A then (readHeader buf).ehDepth else 0

/-- `child` is a node right below an index node -/
def ChildOf (child node : Buffer × ℕ) : Prop :=
  (readHeader node.1).ehMagic = 0xF30A ∧ (readHeader node.1).ehDepth ≠ 0 ∧
    ∃ idx ∈ indices node.1 (min (readHeader node.1).ehEntries node.2), child = (d idx.leafBlock, maxEntries P.blockSize)

/-- on every way down from the node, the levels decrease -/
inductive Descends : Buffer × ℕ → Prop
  | intro {node : Buffer × ℕ} (level_lt : ∀ child, ChildOf P d child node → level child.1 < level node.1)
      (below : ∀ child, ChildOf P d child node → Descends child) : Descends node

/-- the blocks of `i_block` read as the root of an extent tree -/
def extentBlocks (iBlock : Fin 15 → UInt32) : List ℕ :=
  nodeBlocks P d (readHeader (rootBuf iBlock)).ehDepth (rootBuf iBlock) 4

/-- the target of the symlink is in `i_block`, as `read_file` decides it -/
def ExtRawInode.isInline (raw : ExtRawInode) : Bool := raw.isSymlink && raw.fileSize < 60

/-- the blocks the inode reaches through its mapping -/
def ownedBlocks (raw : ExtRawInode) : List ℕ :=
  (if raw.isInline then [] else if raw.isExtents then extentBlocks P d raw.iBlock
    else pointerBlocks P d raw.iBlock).filter (· ≠ 0)

end Mapping

/-! ## One release -/

/-- the filesystem around the release: every bitmap is a block of its own, and in use -/
structure Mounted (P : Params) (fs : ExtFileSystem Image) : Prop where
  sound : (layout fs).Sound P.blockSize
  bitmap : ∀ b ∈ (layout fs).bitmaps, 0 < b ∧ (layout fs).Data b ∧ (layout fs).used fs.device b = true
  inodeBitmap : ∀ b ∈ (layout fs).inodeBitmaps, b ∉ (layout fs).bitmaps
  inodeDistinct : (layout fs).inodeBitmaps.Nodup

/-- exactly the bits of the pointers `bs` were cleared, and only bitmaps were written -/
structure Freed (fs fs' : ExtFileSystem Image) (bs : List ℕ) : Prop where
  layout_eq : layout fs' = layout fs
  used : ∀ c, (layout fs).Data c →
    (layout fs).used fs'.device c = ((layout fs).used fs.device c && decide (c ∈ bs → c = 0))
  frame : ∀ c, c ∉ (layout fs).bitmaps → fs'.device c = fs.device c

variable {P : Params} {fs fs' fs'' : ExtFileSystem Image} {blockSize b : ℕ} {bs : List ℕ}

theorem Freed.refl (fs : ExtFileSystem Image) : Freed fs fs [] :=
  ⟨rfl, fun c _ => by simp, fun c _ => rfl⟩

theorem Freed.trans {bs' : List ℕ} (h : Freed fs fs' bs) (h' : Freed fs' fs'' bs') : Freed fs fs'' (bs ++ bs') where
  layout_eq := h'.layout_eq.trans h.layout_eq
  used c hc := by
    have h2 := h'.used c (by rw [h.layout_eq]; exact hc)
    rw [h.layout_eq] at h2
    rw [h2, h.used c hc, Bool.and_assoc]
    congr 1
    rw [← decide_and]
    exact decide_eq_decide.2 (by rw [mem_append]; tauto)
  frame c hc := by rw [h'.frame c (by rw [h.layout_eq]; exact hc), h.frame c hc]

theorem Layout.bit_inj {l : Layout} (h : l.Sound blockSize) {r g i c : ℕ} (hg : g < l.bitmaps.length)
    (hr : g = r / l.blocksPerGroup ∧ i = r % l.blocksPerGroup) (hc : l.Data c) (hb : l.bitmap (l.group c) = l.bitmap g)
    (hi : l.index c = i) : r = c - l.firstDataBlock := by
  have hgrp := h.bitmap_inj (h.group_lt hc) hg hb
  have h1 := div_add_mod r l.blocksPerGroup
  have h2 := div_add_mod (c - l.firstDataBlock) l.blocksPerGroup
  rw [group] at hgrp
  rw [index] at hi
  rw [hgrp, hi, hr.1, hr.2, h1] at h2
  exact h2

@[simp] theorem layout_giveBlock {D : Type} (g : ℕ) (s : ExtFileSystem D) : layout (giveBlock g s) = layout s := by
  simp only [layout, giveBlock]
  rw [map_modify_of_eq, map_modify_of_eq, map_modify_of_eq] <;> exact fun _ => rfl

section

variable (fs : ExtFileSystem Image)

/-- the group and the bit that a release computes -/
def releaseGroup (b : ℕ) : ℕ :=
  sub32 b fs.superblock.sFirstDataBlock / fs.superblock.sBlocksPerGroup

def releaseBit (b : ℕ) : ℕ :=
  sub32 b fs.superblock.sFirstDataBlock % fs.superblock.sBlocksPerGroup

/-- the state a release leaves, if its group exists -/
def released (b : ℕ) (gd : GroupDescriptor) : ExtFileSystem Image :=
  if bit (fs.device gd.bgBlockBitmap) (releaseBit fs b) = true then
    giveBlock (releaseGroup fs b) { fs with
      device := update fs.device gd.bgBlockBitmap
        (clearBit (fs.device gd.bgBlockBitmap) (releaseBit fs b)) }
  else fs

theorem deallocateBlock_eq (h0 : b ≠ 0) :
    deallocateBlock b fs = match fs.groupDescriptors[releaseGroup fs b]? with
      | none => .error "Block number out of filesystem bounds" fs
      | some gd => .ok () (released fs b gd) := by
  rw [deallocateBlock, if_neg h0, get_bind]
  change (match fs.groupDescriptors[releaseGroup fs b]? with
    | none => _
    | some gd => _ : FsM Image Unit) fs = _
  cases fs.groupDescriptors[releaseGroup fs b]? with
  | none => rfl
  | some gd =>
    simp only
    rw [readBlocks_bind, released]
    change (if bit (fs.device gd.bgBlockBitmap) (releaseBit fs b) = true then _ else _ : FsM Image Unit) fs = _
    split_ifs <;> rfl

end

/-- **A release clears the bit of its block and no other.** -/
theorem freeBlock_freed (h : (layout fs).Sound P.blockSize) (hb : b < 2 ^ 32) :
    ∃ fs', freeBlock b fs = .ok () fs' ∧ Freed fs fs' [b] := by
  by_cases h0 : b = 0
  · subst h0
    exact ⟨fs, rfl, rfl, fun c _ => by simp, fun _ _ => rfl⟩
  have hrel : ∀ c, (layout fs).Data c →
      (sub32 b (layout fs).firstDataBlock = c - (layout fs).firstDataBlock ↔ c = b) := by
    intro c hc
    obtain ⟨h1, h2⟩ := hc
    have := h.u32
    rw [sub32]; omega
  have hlen : (layout fs).bitmaps.length = fs.groupDescriptors.length := by simp [layout]
  have heq := deallocateBlock_eq fs h0
  cases hgd : fs.groupDescriptors[releaseGroup fs b]? with
  | none =>
    -- no such group: the error is dropped, and `b` is no block of the filesystem
    rw [hgd] at heq
    have hat : attempt (deallocateBlock b) fs = .ok none fs := by rw [attempt, heq]
    refine ⟨fs, by rw [freeBlock, if_pos h0, bind_ok hat]; rfl, rfl, fun c hc => ?_, fun _ _ => rfl⟩
    have hne : c ≠ b := fun he => by
      have hlt := h.group_lt hc
      rw [group, ← (hrel c hc).2 he, hlen] at hlt
      exact absurd (getElem?_eq_none_iff.1 hgd) (not_le.2 hlt)
    simp [hne]
  | some gd =>
    rw [hgd] at heq
    have hat : attempt (deallocateBlock b) fs = .ok (some ()) (released fs b gd) := by rw [attempt, heq]
    refine ⟨released fs b gd, by rw [freeBlock, if_pos h0, bind_ok hat]; rfl, ?_⟩
    obtain ⟨hglt, hgd'⟩ := List.getElem?_eq_some_iff.1 hgd
    have hglt' : releaseGroup fs b < (layout fs).bitmaps.length := by rw [hlen]; exact hglt
    have hbm : gd.bgBlockBitmap = (layout fs).bitmap (releaseGroup fs b) := by
      rw [bitmap, getD_eq_getElem _ _ hglt']
      simp [layout, hgd']
    -- the bit of a block is this one exactly if it is the block
    have hbit : ∀ c, (layout fs).Data c → (layout fs).bitmap ((layout fs).group c) = gd.bgBlockBitmap →
        ((layout fs).index c = releaseBit fs b ↔ c = b) := by
      intro c hc hgrp
      rw [hbm] at hgrp
      constructor
      · intro hi
        exact (hrel c hc).1 (bit_inj h hglt' ⟨rfl, rfl⟩ hc hgrp hi)
      · intro he
        rw [index, ← (hrel c hc).2 he]; rfl
    have hother : ∀ c, (layout fs).Data c → c = b → (layout fs).bitmap ((layout fs).group c) = gd.bgBlockBitmap := by
      intro c hc he
      rw [hbm, group, ← (hrel c hc).2 he]; rfl
    unfold released
    split_ifs with hset
    · refine ⟨by rw [layout_giveBlock]; rfl, fun c hc => ?_, fun c hc => ?_⟩
      · show bit (update fs.device gd.bgBlockBitmap _ _) _ = _
        rw [used]
        by_cases hgrp : (layout fs).bitmap ((layout fs).group c) = gd.bgBlockBitmap
        · rw [hgrp, update_self, bit_clearBit, Bool.and_comm]
          congr 1
          simp only [hbit c hc hgrp, mem_singleton, ← decide_not]
          exact decide_eq_decide.2 (by omega)
        · rw [update_of_ne hgrp]
          have hne : c ≠ b := fun he => hgrp (hother c hc he)
          simp [hne]
      · have hne : c ≠ gd.bgBlockBitmap := by
          rintro rfl
          refine hc ?_
          rw [hbm, bitmap, getD_eq_getElem _ _ hglt']; exact getElem_mem hglt'
        exact update_of_ne hne _ _
    · refine ⟨rfl, fun c hc => ?_, fun _ _ => rfl⟩
      by_cases he : c = b
      · subst he
        have hgrp := hother c hc rfl
        rw [used, hgrp, (hbit c hc hgrp).2 rfl]
        simp [hset]
      · simp [he]

/-! ## Walks of releases -/

/-- the freed pointers `bs` are those of the walk `ws`, unless both have a bitmap among them: a bitmap changes during the
walk, and so does what it seems to point to -/
def Walked (l : Layout) (bs ws : List ℕ) : Prop := bs = ws ∨ ∃ m ∈ l.bitmaps, m ≠ 0 ∧ m ∈ bs ∧ m ∈ ws

theorem Walked.append {l : Layout} {bs' ws ws' : List ℕ} (h : Walked l bs ws) (h' : Walked l bs' ws') :
    Walked l (bs ++ bs') (ws ++ ws') := by
  rcases h with rfl | ⟨m, hm, h0, h1, h2⟩
  · rcases h' with rfl | ⟨m, hm, h0, h1, h2⟩
    · exact .inl rfl
    · exact .inr ⟨m, hm, h0, mem_append_right _ h1, mem_append_right _ h2⟩
  · exact .inr ⟨m, hm, h0, mem_append_left _ h1, mem_append_left _ h2⟩

/-- from every state that has the layout, and the contents `d` off the bitmaps, `run` frees the pointers `ws` -/
def FreesOn (l : Layout) (d : Image) (run : FsM Image Unit) (ws : List ℕ) : Prop :=
  ∀ fs : ExtFileSystem Image, layout fs = l → (∀ c, c ∉ l.bitmaps → fs.device c = d c) →
    ∃ fs' bs, run fs = .ok () fs' ∧ Freed fs fs' bs ∧ Walked l bs ws

theorem refs_lt (P : Params) (buf : Buffer) : ∀ b ∈ refs P buf, b < 2 ^ 32 := by
  intro b hb
  obtain ⟨j, _, rfl⟩ := mem_map.1 hb
  exact (buf j).toNat_lt

section Walks

variable {l : Layout} {d : Image}

theorem FreesOn.pure : FreesOn l d (Pure.pure ()) [] := fun fs _ _ => ⟨fs, [], rfl, Freed.refl fs, .inl rfl⟩

theorem FreesOn.seq {run run' : FsM Image Unit} {ws ws' : List ℕ} (h : FreesOn l d run ws) (h' : FreesOn l d run' ws') :
    FreesOn l d (run >>= fun _ => run') (ws ++ ws') := by
  intro fs hl hd
  obtain ⟨fs1, bs, hr, hf, hw⟩ := h fs hl hd
  obtain ⟨fs2, bs', hr', hf', hw'⟩ := h' fs1 (hf.layout_eq.trans hl) fun c hc => by
    rw [hf.frame c (by rwa [hl]), hd c hc]
  exact ⟨fs2, bs ++ bs', by rw [bind_ok hr, hr'], hf.trans hf', hw.append hw'⟩

theorem FreesOn.forEach {α : Type} {f : α → FsM Image Unit} {ws : α → List ℕ} {as : List α}
    (h : ∀ a ∈ as, FreesOn l d (f a) (ws a)) : FreesOn l d (forEach f as) (as.flatMap ws) := by
  induction as with
  | nil => exact FreesOn.pure
  | cons a as ih =>
    exact (h a mem_cons_self).seq (ih fun b hb => h b (mem_cons_of_mem _ hb))

section

variable (hs : l.Sound blockSize)
include hs

theorem FreesOn.freeBlock (hb : b < 2 ^ 32) : FreesOn l d (freeBlock b) [b] := by
  intro fs hl _
  obtain ⟨fs', hr, hf⟩ := freeBlock_freed (P := ⟨blockSize, 0, 0, false⟩) (by rw [hl]; exact hs) hb
  exact ⟨fs', [b], hr, hf, .inl rfl⟩

theorem FreesOn.freeEach (hb : ∀ b ∈ bs, b < 2 ^ 32) : FreesOn l d (Fallible.forEach Ext.freeBlock bs) bs := by
  have := FreesOn.forEach (d := d) fun b h => FreesOn.freeBlock hs (hb b h)
  rwa [flatMap_singleton'] at this

theorem FreesOn.behind_of_not_mem {inner : Buffer → FsM Image Unit} {ws : List ℕ} (hb : b ∉ l.bitmaps)
    (h : FreesOn l d (inner (d b)) ws) : FreesOn l d (releaseBehind b inner) (ws ++ [b % 2 ^ 32]) := by
  intro fs hl hd
  have hrun : releaseBehind b inner fs = (inner (d b) >>= fun _ => Ext.freeBlock (b % 2 ^ 32)) fs := by
    rw [← hd b hb]; rfl
  rw [hrun]
  exact h.seq (FreesOn.freeBlock hs (Nat.mod_lt b (Nat.two_pow_pos 32))) fs hl hd

theorem FreesOn.behind (hm : ∀ m ∈ l.bitmaps, 0 < m ∧ m < 2 ^ 32)
    {inner : Buffer → FsM Image Unit} {ws : Buffer → List ℕ} (h : ∀ buf, FreesOn l d (inner buf) (ws buf)) (b : ℕ) :
    FreesOn l d (releaseBehind b inner) (ws (d b) ++ [b % 2 ^ 32]) := by
  by_cases hbm : b ∈ l.bitmaps
  swap
  · exact FreesOn.behind_of_not_mem hs hbm (h (d b))
  intro fs hl hd
  have hrun : releaseBehind b inner fs = (inner (fs.device b) >>= fun _ => Ext.freeBlock (b % 2 ^ 32)) fs := rfl
  obtain ⟨fs1, bs, hr, hf, hw⟩ := h (fs.device b) fs hl hd
  obtain ⟨fs2, bs', hr', hf', hw'⟩ := FreesOn.freeBlock (d := d) hs (Nat.mod_lt b (Nat.two_pow_pos 32)) fs1
    (hf.layout_eq.trans hl) fun c hc => by rw [hf.frame c (by rwa [hl]), hd c hc]
  refine ⟨fs2, bs ++ bs', by rw [hrun, bind_ok hr, hr'], hf.trans hf', ?_⟩
  obtain ⟨hpos, hlt⟩ := hm b hbm
  rw [mod_eq_of_lt hlt] at hw' ⊢
  refine .inr ⟨b, hbm, hpos.ne', mem_append_right _ ?_, mem_append_right _ (mem_singleton_self b)⟩
  rcases hw' with rfl | ⟨m, _, _, h1, h2⟩
  · exact mem_singleton_self b
  · rwa [← mem_singleton.1 h2]

end

variable (hs : l.Sound P.blockSize) (hm : ∀ m ∈ l.bitmaps, 0 < m ∧ m < 2 ^ 32)

include hs hm

theorem FreesOn.freeIndirect {sib : ℕ} (hlt : sib < 2 ^ 32) :
    FreesOn l d (freeIndirect P sib) (indirectBlocks P d sib) := by
  unfold Ext.freeIndirect indirectBlocks
  split_ifs with h0
  · exact FreesOn.pure
  · have := FreesOn.behind (d := d) hs hm (fun buf => FreesOn.freeEach hs (refs_lt P buf)) sib
    rwa [mod_eq_of_lt hlt] at this

theorem FreesOn.freeDoubleIndirect {dib : ℕ} (hlt : dib < 2 ^ 32) :
    FreesOn l d (freeDoubleIndirect P dib) (doubleIndirectBlocks P d dib) := by
  unfold Ext.freeDoubleIndirect doubleIndirectBlocks
  split_ifs with h0
  · exact FreesOn.pure
  · have := FreesOn.behind (d := d) hs hm
      (fun buf => FreesOn.forEach fun sib hmem => FreesOn.freeIndirect hs hm (refs_lt P buf sib hmem)) dib
    rwa [mod_eq_of_lt hlt] at this

/-- the release of an inode, up to its bit: a walk over `i_block` as block pointers -/
theorem freesOn_pointers (iBlock : Fin 15 → UInt32) :
    FreesOn l d (freePointers P iBlock) (pointerBlocks P d iBlock) := by
  have hdirect : ∀ b ∈ directs iBlock, b < 2 ^ 32 := by
    intro b hb
    obtain ⟨i, _, rfl⟩ := mem_map.1 hb
    exact UInt32.toNat_lt _
  exact (FreesOn.freeEach hs hdirect).seq
    ((FreesOn.freeIndirect hs hm (UInt32.toNat_lt _)).seq (FreesOn.freeDoubleIndirect hs hm (UInt32.toNat_lt _)))

/-- a truncation walks the extent tree, if its levels decrease and no bitmap is part of it -/
theorem freesOn_node (fuel : ℕ) (buf : Buffer) (room : ℕ) (hlevel : level buf ≤ fuel) (hdesc : Descends P d (buf, room))
    (hown : ∀ m ∈ l.bitmaps, m ∉ nodeBlocks P d fuel buf room) :
    FreesOn l d (deallocateExtentNode P fuel buf room) (nodeBlocks P d fuel buf room) := by
  have hext : ∀ e : Ext4Extent, ∀ b ∈ e.blocks, b < 2 ^ 32 := by
    intro e b hb
    obtain ⟨k, _, rfl⟩ := mem_map.1 hb
    exact Nat.mod_lt _ (Nat.two_pow_pos 32)
  induction fuel generalizing buf room with
  | zero =>
    unfold deallocateExtentNode nodeBlocks
    dsimp only
    split_ifs with hmagic hleaf
    · exact FreesOn.pure
    · exact FreesOn.forEach fun e _ => FreesOn.freeEach hs (hext e)
    · rw [level, if_pos (not_ne_iff.1 hmagic)] at hlevel
      exact absurd (le_zero.1 hlevel) hleaf
  | succ fuel ih =>
    unfold nodeBlocks at hown
    unfold deallocateExtentNode nodeBlocks
    dsimp only at hown ⊢
    split_ifs at hown ⊢ with hmagic hleaf
    · exact FreesOn.pure
    · exact FreesOn.forEach fun e _ => FreesOn.freeEach hs (hext e)
    · obtain ⟨hlt, hbelow⟩ := hdesc
      refine FreesOn.forEach fun idx hidx => ?_
      have hchild : ChildOf P d (d idx.leafBlock, maxEntries P.blockSize) (buf, room) :=
        ⟨not_ne_iff.1 hmagic, hleaf, idx, hidx, rfl⟩
      have hin : ∀ m ∈ l.bitmaps, m ∉ nodeBlocks P d fuel (d idx.leafBlock) (maxEntries P.blockSize) ++
          [idx.leafBlock % 2 ^ 32] := fun m hmem hin => hown m hmem (mem_flatMap.2 ⟨idx, hidx, hin⟩)
      refine FreesOn.behind_of_not_mem hs (fun hbm => hin _ hbm (mem_append_right _ ?_))
        (ih _ _ ?_ (hbelow _ hchild) fun m hmem h => hin m hmem (mem_append_left _ h))
      · rw [mod_eq_of_lt (hm _ hbm).2]
        exact mem_singleton_self _
      · have := hlt _ hchild
        exact Nat.le_of_lt_succ (this.trans_le hlevel)

end Walks

theorem Mounted.bitmap_bounds (h : Mounted P fs) : ∀ m ∈ (layout fs).bitmaps, 0 < m ∧ m < 2 ^ 32 := by
  intro m hm
  obtain ⟨hpos, hd, _⟩ := h.bitmap m hm
  exact ⟨hpos, hd.2.trans h.sound.u32⟩

theorem level_le (buf : Buffer) : level buf ≤ (readHeader buf).ehDepth := by
  unfold level
  split_ifs
  · exact le_rfl
  · exact zero_le _

/-- **The release of a truncation frees exactly the extent tree**, if its levels decrease and no bitmap is part of it. -/
theorem deallocateExtentTree_freed (h : Mounted P fs) (iBlock : Fin 15 → UInt32)
    (hdesc : Descends P fs.device (rootBuf iBlock, 4))
    (hown : ∀ m ∈ (layout fs).bitmaps, m ∉ extentBlocks P fs.device iBlock) :
    ∃ fs', deallocateExtentTree P iBlock fs = .ok () fs' ∧ Freed fs fs' (extentBlocks P fs.device iBlock) := by
  obtain ⟨fs', bs, hr, hf, hw⟩ := freesOn_node h.sound h.bitmap_bounds (readHeader (rootBuf iBlock)).ehDepth
    (rootBuf iBlock) 4 (level_le _) hdesc hown fs rfl fun _ _ => rfl
  rcases hw with rfl | ⟨m, hmem, _, _, h2⟩
  · exact ⟨fs', hr, hf⟩
  · exact absurd h2 (hown m hmem)

/-! ## The release of an inode -/

def Layout.inodeUsed (l : Layout) (P : Params) (d : Image) (ino : ℕ) : Bool :=
  bit (d (l.inodeBitmaps.getD (inodeGroup P ino) 0)) (inodeIndex P ino)

def Layout.HasInode (l : Layout) (P : Params) (ino : ℕ) : Prop :=
  0 < ino ∧ inodeGroup P ino < l.inodeBitmaps.length

@[simp] theorem layout_giveInode {D : Type} (g : ℕ) (isDir : Bool) (s : ExtFileSystem D) :
    layout (giveInode g isDir s) = layout s := by
  simp only [layout, giveInode]
  rw [map_modify_of_eq, map_modify_of_eq, map_modify_of_eq] <;> exact fun _ => rfl

/-- the state the release of an inode's bit leaves -/
def releasedInode (P : Params) (fs : ExtFileSystem Image) (ino : ℕ) (isDir : Bool) (gd : GroupDescriptor) :
    ExtFileSystem Image :=
  if bit (fs.device gd.bgInodeBitmap) (inodeIndex P ino) = true then
    giveInode (inodeGroup P ino) isDir { fs with
      device := update fs.device gd.bgInodeBitmap
        (clearBit (fs.device gd.bgInodeBitmap) (inodeIndex P ino)) }
  else fs

variable {ino : ℕ}

theorem deallocateInode_eq (h0 : ino ≠ 0) (isDir : Bool) {gd : GroupDescriptor}
    (hgd : fs.groupDescriptors[inodeGroup P ino]? = some gd) :
    deallocateInode P ino isDir fs = .ok () (releasedInode P fs ino isDir gd) := by
  unfold inodeGroup at hgd
  rw [deallocateInode, if_neg h0, get_bind]
  simp only [hgd]
  rw [readBlocks_bind]
  unfold releasedInode inodeIndex
  split_ifs <;> rfl

theorem deallocateInode_spec (hnd : (layout fs).inodeBitmaps.Nodup) (hi : (layout fs).HasInode P ino) (isDir : Bool) :
    ∃ fs', deallocateInode P ino isDir fs = .ok () fs' ∧ layout fs' = layout fs ∧
      (∀ i, (layout fs).HasInode P i →
        (layout fs).inodeUsed P fs'.device i = ((layout fs).inodeUsed P fs.device i && decide (i ≠ ino))) ∧
      ∀ c, c ∉ (layout fs).inodeBitmaps → fs'.device c = fs.device c := by
  obtain ⟨hpos, hlt⟩ := hi
  have hlen : (layout fs).inodeBitmaps.length = fs.groupDescriptors.length := by simp [layout]
  have hlt' : inodeGroup P ino < fs.groupDescriptors.length := by rw [← hlen]; exact hlt
  obtain ⟨gd, hgd⟩ : ∃ gd, fs.groupDescriptors[inodeGroup P ino]? = some gd :=
    ⟨_, List.getElem?_eq_getElem hlt'⟩
  have hbm : (layout fs).inodeBitmaps[inodeGroup P ino] = gd.bgInodeBitmap := by
    simp [layout, (List.getElem?_eq_some_iff.1 hgd).2]
  -- the bit of an inode is this one exactly if it is the inode
  have hbit : ∀ i, (layout fs).HasInode P i → (layout fs).inodeBitmaps.getD (inodeGroup P i) 0 = gd.bgInodeBitmap →
      (inodeIndex P i = inodeIndex P ino ↔ i = ino) := by
    intro i hi' hsame
    rw [getD_eq_getElem _ _ hi'.2, ← hbm] at hsame
    have hg := (Nodup.getElem_inj_iff hnd).1 hsame
    constructor
    · intro hmod
      have h1 : P.inodesPerGroup * inodeGroup P i + inodeIndex P i = i - 1 := div_add_mod _ _
      have h2 : P.inodesPerGroup * inodeGroup P ino + inodeIndex P ino = ino - 1 := div_add_mod _ _
      rw [hg, hmod, h2] at h1
      have := hi'.1
      omega
    · rintro rfl; rfl
  have hsame : (layout fs).inodeBitmaps.getD (inodeGroup P ino) 0 = gd.bgInodeBitmap := by
    rw [getD_eq_getElem _ _ hlt, hbm]
  refine ⟨releasedInode P fs ino isDir gd, deallocateInode_eq hpos.ne' isDir hgd, ?_, fun i hi' => ?_, fun c hc => ?_⟩
  · unfold releasedInode
    split_ifs
    · rw [layout_giveInode]; rfl
    · rfl
  · unfold releasedInode
    split_ifs with hset
    · show bit (update fs.device gd.bgInodeBitmap _ _) _ = _
      rw [Layout.inodeUsed]
      by_cases hgrp : (layout fs).inodeBitmaps.getD (inodeGroup P i) 0 = gd.bgInodeBitmap
      · rw [hgrp, update_self, bit_clearBit, Bool.and_comm]
        simp [hbit i hi' hgrp]
      · have hne : i ≠ ino := fun he => hgrp (he ▸ hsame)
        rw [update_of_ne hgrp]
        simp [hne]
    · by_cases he : i = ino
      · subst he
        rw [Layout.inodeUsed, hsame]
        simp [hset]
      · simp [he]
  · unfold releasedInode
    split_ifs
    · have hne : c ≠ gd.bgInodeBitmap := by
        rintro rfl
        exact hc (hbm ▸ getElem_mem hlt)
      exact update_of_ne hne _ _
    · rfl

/-- the release clears the bits of what the inode owns, the bit of the inode, and no other bit -/
def FreesExactly (P : Params) (fs : ExtFileSystem Image) (ino : ℕ) (raw : ExtRawInode) (isDir : Bool) : Prop :=
  ∃ fs', deallocateInodeAndBlocks P ino raw isDir fs = .ok () fs' ∧
    (∀ b, (layout fs).Data b → (layout fs).used fs'.device b =
      ((layout fs).used fs.device b && decide (b ∉ ownedBlocks P fs.device raw))) ∧
    ∀ i, (layout fs).HasInode P i → (layout fs).inodeUsed P fs'.device i =
      ((layout fs).inodeUsed P fs.device i && decide (i ≠ ino))

/-- what the release takes for the blocks of the inode are, among the blocks in use, the blocks it owns: always so for
block pointers and for the text of a short symlink; for a symlink that only counts no blocks, if it maps none; for an
extent tree, if its words read as block pointers name its blocks -/
def PointersAgree (P : Params) (fs : ExtFileSystem Image) (raw : ExtRawInode) : Prop :=
  if raw.isFastSymlink then
    raw.isInline ∨ ∀ b, (layout fs).Data b → (layout fs).used fs.device b = true → b ∉ ownedBlocks P fs.device raw
  else
    raw.isExtents = true → ∀ b, b ≠ 0 → (layout fs).Data b → (layout fs).used fs.device b = true →
      (b ∈ pointerBlocks P fs.device raw.iBlock ↔ b ∈ extentBlocks P fs.device raw.iBlock)

theorem isFastSymlink_of_isInline {raw : ExtRawInode} (h : raw.isInline = true) : raw.isFastSymlink = true := by
  simp only [isInline, and_eq_true, decide_eq_true_eq] at h
  obtain ⟨hsym, hsize⟩ := h
  have hdir : raw.isDir = false := by
    simp only [isSymlink, isDir, beq_iff_eq] at hsym ⊢
    rw [hsym]; rfl
  rw [fileSize, hdir] at hsize
  have hlt : raw.iSize < 60 := by
    simp only [false_eq_true, if_false] at hsize
    omega
  simp [isFastSymlink, hsym, hlt]

/-- the bits a release moves: those of the pointers it walked, and the bit of the inode -/
theorem deallocate_effect (h : Mounted P fs) (hi : (layout fs).HasInode P ino) (raw : ExtRawInode) (isDir : Bool) :
    ∃ fs' bs, deallocateInodeAndBlocks P ino raw isDir fs = .ok () fs' ∧
      (∀ b, (layout fs).Data b → (layout fs).used fs'.device b =
        ((layout fs).used fs.device b && decide (b ∈ bs → b = 0))) ∧
      (∀ i, (layout fs).HasInode P i → (layout fs).inodeUsed P fs'.device i =
        ((layout fs).inodeUsed P fs.device i && decide (i ≠ ino))) ∧
      Walked (layout fs) bs (if raw.isFastSymlink then [] else pointerBlocks P fs.device raw.iBlock) := by
  obtain ⟨fs1, bs, hwalk, hfreed, hwalked⟩ : ∃ fs1 bs,
      deallocateInodeAndBlocks P ino raw isDir fs = deallocateInode P ino isDir fs1 ∧ Freed fs fs1 bs ∧
      Walked (layout fs) bs (if raw.isFastSymlink then [] else pointerBlocks P fs.device raw.iBlock) := by
    rw [deallocateInodeAndBlocks]
    cases raw.isFastSymlink with
    | true => exact ⟨fs, [], rfl, Freed.refl fs, .inl rfl⟩
    | false =>
      obtain ⟨fs1, bs, hr, hf, hw⟩ := freesOn_pointers h.sound h.bitmap_bounds raw.iBlock fs rfl fun _ _ => rfl
      exact ⟨fs1, bs, bind_ok hr _, hf, hw⟩
  have hlay := hfreed.layout_eq
  obtain ⟨fs2, hrun, _, hbits, hframe⟩ := deallocateInode_spec (P := P)
    (show (layout fs1).inodeBitmaps.Nodup by rw [hlay]; exact h.inodeDistinct) (by rw [hlay]; exact hi) isDir
  rw [hlay] at hbits hframe
  refine ⟨fs2, bs, hwalk.trans hrun, fun b hb => ?_, fun i hi' => ?_, hwalked⟩
  · -- the inode bitmaps are no block bitmaps
    have hlt := h.sound.group_lt hb
    have hmem : (layout fs).bitmap ((layout fs).group b) ∈ (layout fs).bitmaps := by
      rw [bitmap, getD_eq_getElem _ _ hlt]; exact getElem_mem hlt
    rw [← hfreed.used b hb, used, used, hframe _ fun hin => h.inodeBitmap _ hin hmem]
  · have hmem : (layout fs).inodeBitmaps.getD (inodeGroup P i) 0 ∈ (layout fs).inodeBitmaps := by
      rw [getD_eq_getElem _ _ hi'.2]; exact getElem_mem hi'.2
    have hsame : (layout fs).inodeUsed P fs1.device i = (layout fs).inodeUsed P fs.device i := by
      rw [Layout.inodeUsed, Layout.inodeUsed, hfreed.frame _ (h.inodeBitmap _ hmem)]
    rw [hbits i hi', hsame]

theorem smallFs_mounted : Mounted smallParams smallFs where
  sound := smallFs_sound
  bitmap b hb := by
    cases mem_singleton.1 hb
    exact ⟨by decide, ⟨by decide, by decide⟩, by decide⟩
  inodeBitmap b hb := by
    cases mem_singleton.1 hb
    decide
  inodeDistinct := nodup_singleton _

/-- a regular file with block 10 by a block pointer, and block 11 by block 9 -/
def pointerFile : ExtRawInode := ⟨fun w => if w = 0 then 0x8000 else if w = 10 then 10 else if w = 22 then 9 else 0⟩

/-- one with block 10 by an extent -/
def extentFile : ExtRawInode :=
  ⟨fun w => if w = 0 then 0x8000 else if w = 8 then 0x80000 else
    if w = 10 then 0x1F30A else if w = 11 then 4 else if w = 14 then 1 else if w = 15 then 10 else 0⟩

/-- one with blocks 10 and 11 by an extent in block 8 -/
def indexFile : ExtRawInode :=
  ⟨fun w => if w = 0 then 0x8000 else if w = 8 then 0x80000 else
    if w = 10 then 0x1F30A else if w = 11 then 0x10004 else if w = 14 then 8 else 0⟩

theorem indexFile_descends : Descends smallParams smallFs.device (rootBuf indexFile.iBlock, 4) := by
  have hidx : indices (rootBuf indexFile.iBlock) (min (readHeader (rootBuf indexFile.iBlock)).ehEntries 4) =
      [⟨0, 8, 0⟩] := by decide +kernel
  have hlevel : level (smallFs.device 8) = 0 ∧ level (rootBuf indexFile.iBlock) = 1 := by decide +kernel
  have hchild : ∀ child, ChildOf smallParams smallFs.device child (rootBuf indexFile.iBlock, 4) →
      child = (smallFs.device 8, maxEntries smallParams.blockSize) := by
    rintro child ⟨-, -, idx, hmem, rfl⟩
    rw [hidx] at hmem
    cases mem_singleton.1 hmem
    rfl
  refine .intro (fun child h => ?_) fun child h => ?_
  · rw [hchild child h, hlevel.1, hlevel.2]
    exact Nat.zero_lt_one
  · rw [hchild child h]
    have hleaf : ∀ child, ¬ChildOf smallParams smallFs.device child (smallFs.device 8, maxEntries smallParams.blockSize) :=
      fun _ h => h.2.1 (by decide +kernel)
    exact .intro (fun child h => absurd h (hleaf child)) fun child h => absurd h (hleaf child)

theorem indexFile_freed : ∃ fs', deallocateExtentTree smallParams indexFile.iBlock smallFs = .ok () fs' ∧
    Freed smallFs fs' [10, 11, 8] := by
  have hown : extentBlocks smallParams smallFs.device indexFile.iBlock = [10, 11, 8] := by decide +kernel
  refine hown ▸ deallocateExtentTree_freed smallFs_mounted indexFile.iBlock indexFile_descends fun m hm => ?_
  cases mem_singleton.1 hm
  rw [hown]
  decide

/-- **The release of an inode frees exactly what the inode owns if and only if the pointers agree.** -/
theorem deallocate_exact_iff (P : Params) (fs : ExtFileSystem Image) (ino : ℕ) (raw : ExtRawInode) (isDir : Bool)
    (h : Mounted P fs) (hi : (layout fs).HasInode P ino)
    (hown : ∀ m ∈ (layout fs).bitmaps, m ∉ ownedBlocks P fs.device raw) :
    FreesExactly P fs ino raw isDir ↔ PointersAgree P fs raw := by
  obtain ⟨fs', bs, hrun, hbits, hinodes, hwalked⟩ := deallocate_effect h hi raw isDir
  -- exactness, bit by bit
  have hexact : FreesExactly P fs ino raw isDir ↔ ∀ b, (layout fs).Data b → (layout fs).used fs.device b = true →
      ((b ∈ bs → b = 0) ↔ b ∉ ownedBlocks P fs.device raw) := by
    constructor
    · rintro ⟨fs'', hrun', hblocks, _⟩ b hb hu
      rw [hrun] at hrun'
      cases hrun'
      have := (hbits b hb).symm.trans (hblocks b hb)
      rw [hu, Bool.true_and, Bool.true_and, decide_eq_decide] at this
      exact this
    · intro hall
      refine ⟨fs', hrun, fun b hb => ?_, hinodes⟩
      rw [hbits b hb]
      cases hu : (layout fs).used fs.device b with
      | false => rfl
      | true => rw [Bool.true_and, Bool.true_and, decide_eq_decide]; exact hall b hb hu
  rw [hexact, PointersAgree]
  cases hfast : raw.isFastSymlink with
  | true =>
    rw [hfast] at hwalked
    have hbs : ∀ b, ¬b ∈ bs := by
      rcases hwalked with rfl | ⟨m, _, _, _, hm⟩
      · intro b; exact not_mem_nil
      · cases hm
    simp only [if_true, hbs, false_imp_iff, true_iff]
    constructor
    · intro hall; exact .inr hall
    · rintro (hin | hall)
      · intro b _ _
        rw [ownedBlocks, if_pos hin]; exact not_mem_nil
      · exact hall
  | false =>
    rw [hfast] at hwalked
    have hin : ¬raw.isInline = true := fun hin => by
      rw [isFastSymlink_of_isInline hin] at hfast; cases hfast
    have howned : ∀ b, b ∈ ownedBlocks P fs.device raw ↔
        b ∈ (if raw.isExtents then extentBlocks P fs.device raw.iBlock else pointerBlocks P fs.device raw.iBlock) ∧
          b ≠ 0 := by
      intro b
      rw [ownedBlocks, if_neg hin, mem_filter, decide_eq_true_iff]
    rcases hwalked with rfl | ⟨m, hm, h0, hmb, hmp⟩
    · cases hx : raw.isExtents with
      | false =>
        refine iff_of_true (fun b _ _ => ?_) (by simp)
        rw [howned, hx]; simp only [false_eq_true, if_false]; tauto
      | true =>
        simp only [howned, hx, if_true, true_imp_iff]
        constructor
        · intro hall b hb0 hb hu
          have := hall b hb hu
          tauto
        · intro hall b hb hu
          by_cases hb0 : b = 0
          · simp [hb0]
          · have := hall b hb0 hb hu
            tauto
    · -- a bitmap is freed: the release is wrong, and the pointers do not agree
      obtain ⟨_, hmd, hmu⟩ := h.bitmap m hm
      refine iff_of_false (fun hall => ?_) fun hagree => ?_
      · exact h0 ((hall m hmd hmu).2 (hown m hm) hmb)
      · cases hx : raw.isExtents with
        | false =>
          refine hown m hm ((howned m).2 ?_)
          rw [hx]; exact ⟨hmp, h0⟩
        | true =>
          refine hown m hm ((howned m).2 ?_)
          rw [hx]; exact ⟨(hagree hx m h0 hmd hmu).1 hmp, h0⟩

theorem pointerFile_exact : ownedBlocks smallParams smallFs.device pointerFile = [10, 11, 9] ∧
    FreesExactly smallParams smallFs 2 pointerFile false := by
  have hown : ownedBlocks smallParams smallFs.device pointerFile = [10, 11, 9] := by decide +kernel
  refine ⟨hown, (deallocate_exact_iff smallParams smallFs 2 pointerFile false smallFs_mounted
    ⟨by decide, by decide⟩ fun m hm => ?_).2 ?_⟩
  · cases mem_singleton.1 hm
    rw [hown]; decide
  · intro hx
    exact absurd hx (by decide)

/-- block 4 is the inode bitmap, and in use; the file with the extent owns block 10 only; its release frees block 4 -/
theorem extentFile_frees_other : Mounted smallParams smallFs ∧
    ownedBlocks smallParams smallFs.device extentFile = [10] ∧ (layout smallFs).used smallFs.device 10 = true ∧
    ¬FreesExactly smallParams smallFs 2 extentFile false := by
  have hown : ownedBlocks smallParams smallFs.device extentFile = [10] := by decide +kernel
  refine ⟨smallFs_mounted, hown, by decide, ?_⟩
  rintro ⟨fs', hrun, hblocks, _⟩
  have h4 := hblocks 4 ⟨by decide, by decide⟩
  have hfreed : (layout smallFs).used (final (deallocateInodeAndBlocks smallParams 2 extentFile false smallFs)).device 4 =
      false := by decide +kernel
  rw [hrun] at hfreed
  rw [hown, show (layout smallFs).used fs'.device 4 = false from hfreed] at h4
  revert h4
  decide

end Kontsnor.Ext
