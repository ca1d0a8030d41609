/-
What the check of a mount marks, over a device that does not fail.

`Owns P d raw b`: `b` is a block of the inode, by its extent tree (`Reaches`) or its block pointers. `Marks fs run B`: on
the filesystem `fs`, `run` sets the bits of the blocks `B` in the computed bitmaps and clears none. `Stays P fs fs'`: a step
moved no metadata, and wrote only bitmaps, the superblock and the descriptors.
-/
import Kontsnor.Ext.DeallocSpec
import Kontsnor.Ext.Check

namespace Kontsnor.Ext

open List Function Fallible

open Words (Buffer bit setBit bit_setBit bit_setBits)

/-! ## What an inode reaches -/

/-- block `b` is in the part of an extent tree below a node: an index or leaf node, or a block of data -/
inductive Reaches (P : Params) (d : Image) : Buffer → ℕ → ℕ → Prop
  | data {buf room e b} (magic : (readHeader buf).ehMagic = 0xF30A) (depth : (readHeader buf).ehDepth = 0)
      (entry : e ∈ extents buf (min (readHeader buf).ehEntries room)) (block : b ∈ e.run) : Reaches P d buf room b
  | node {buf room idx} (magic : (readHeader buf).ehMagic = 0xF30A) (depth : (readHeader buf).ehDepth ≠ 0)
      (entry : idx ∈ indices buf (min (readHeader buf).ehEntries room)) : Reaches P d buf room idx.leafBlock
  | under {buf room idx b} (magic : (readHeader buf).ehMagic = 0xF30A) (depth : (readHeader buf).ehDepth ≠ 0)
      (entry : idx ∈ indices buf (min (readHeader buf).ehEntries room))
      (child : Reaches P d (d idx.leafBlock) (maxEntries P.blockSize) b) : Reaches P d buf room b

/-- the blocks of an inode, index and indirect blocks included; a pointer that is 0 names no block -/
def Owns (P : Params) (d : Image) (raw : ExtRawInode) (b : ℕ) : Prop :=
  if raw.isExtents then Reaches P d (rootBuf raw.iBlock) 4 b else b ≠ 0 ∧ b ∈ pointerBlocks P d raw.iBlock

variable {P : Params} {B : ℕ → Prop} {f : Mounting Image → Mounting Image} {c : ℕ} {d' d : Image}

theorem Reaches.congr {buf : Buffer} {room : ℕ}
    (hd : ∀ c, Reaches P d buf room c → d' c = d c) (b : ℕ) : Reaches P d' buf room b ↔ Reaches P d buf room b := by
  constructor
  · intro h
    induction h with
    | data magic depth entry block => exact .data magic depth entry block
    | node magic depth entry => exact .node magic depth entry
    | under magic depth entry child ih =>
      rw [hd _ (.node magic depth entry)] at ih
      exact .under magic depth entry (ih fun c hc => hd c (.under magic depth entry hc))
  · intro h
    induction h with
    | data magic depth entry block => exact .data magic depth entry block
    | node magic depth entry => exact .node magic depth entry
    | under magic depth entry child ih =>
      refine .under magic depth entry ?_
      rw [hd _ (.node magic depth entry)]
      exact ih fun c hc => hd c (.under magic depth entry hc)

theorem pointerBlocks_congr {iBlock : Fin 15 → UInt32} (hd : ∀ c, c ≠ 0 ∧ c ∈ pointerBlocks P d iBlock → d' c = d c) :
    pointerBlocks P d' iBlock = pointerBlocks P d iBlock := by
  have hind : ∀ sib, (∀ c, c ≠ 0 ∧ c ∈ indirectBlocks P d sib → d' c = d c) →
      indirectBlocks P d' sib = indirectBlocks P d sib := by
    intro sib hc
    unfold indirectBlocks at hc ⊢
    split_ifs with h0
    · rfl
    · rw [if_neg h0] at hc
      rw [hc sib ⟨h0, by simp⟩]
  have hdouble : ∀ dib, (∀ c, c ≠ 0 ∧ c ∈ doubleIndirectBlocks P d dib → d' c = d c) →
      doubleIndirectBlocks P d' dib = doubleIndirectBlocks P d dib := by
    intro dib hc
    unfold doubleIndirectBlocks at hc ⊢
    split_ifs with h0
    · rfl
    · rw [if_neg h0] at hc
      rw [hc dib ⟨h0, by simp⟩]
      congr 1
      refine flatMap_congr fun sib hsib => hind sib fun c hcs => hc c ⟨hcs.1, ?_⟩
      exact mem_append_left _ (mem_flatMap.2 ⟨sib, hsib, hcs.2⟩)
  unfold pointerBlocks at hd ⊢
  rw [hind _ fun c hc => hd c ⟨hc.1, mem_append_right _ (mem_append_left _ hc.2)⟩,
    hdouble _ fun c hc => hd c ⟨hc.1, mem_append_right _ (mem_append_right _ hc.2)⟩]

theorem Owns.congr {raw : ExtRawInode} (hd : ∀ c, Owns P d raw c → d' c = d c) (b : ℕ) :
    Owns P d' raw b ↔ Owns P d raw b := by
  unfold Owns at hd ⊢
  split_ifs at hd ⊢
  · exact Reaches.congr hd b
  · rw [pointerBlocks_congr hd]

/-! ## The computed bitmaps -/

def HasBit {D : Type} (fs : ExtFileSystem D) (b : ℕ) : Prop :=
  fs.superblock.sFirstDataBlock ≤ b ∧ b < fs.superblock.totalBlocks

/-- the groups cover the blocks, and a bitmap has a bit for each block of its group -/
structure Covered (P : Params) {D : Type} (fs : ExtFileSystem D) : Prop where
  pos : 0 < fs.superblock.sBlocksPerGroup
  fits : fs.superblock.sBlocksPerGroup ≤ 8 * P.blockSize
  groups : fs.superblock.totalBlocks ≤
    fs.superblock.sFirstDataBlock + fs.groupDescriptors.length * fs.superblock.sBlocksPerGroup

theorem Covered.group_lt {D : Type} {fs : ExtFileSystem D} (h : Covered P fs) {b : ℕ} (hb : HasBit fs b) :
    (layout fs).group b < fs.groupDescriptors.length := by
  have hg := h.groups
  obtain ⟨h1, h2⟩ := hb
  refine (Nat.div_lt_iff_lt_mul h.pos).2 ?_
  simp only [layout]
  omega

theorem Covered.index_lt {D : Type} {fs : ExtFileSystem D} (h : Covered P fs) (b : ℕ) : (layout fs).index b < 8 * P.blockSize :=
  (Nat.mod_lt _ h.pos).trans_le h.fits

abbrev noBits : Buffer := fun _ => 0

def Mounting.Marked (s : Mounting Image) (b : ℕ) : Prop :=
  bit (s.calcBlockBitmaps.getD ((layout s.fs).group b) noBits) ((layout s.fs).index b) = true

/-- the block of the inode table that was read last is as it is on the disk -/
def Mounting.Fresh (s : Mounting Image) : Prop := s.blockCacheIdx ≠ 0 → s.blockCacheBuf = s.fs.device s.blockCacheIdx

/-- the state of the check on `fs` -/
structure Checking (fs : ExtFileSystem Image) (s : Mounting Image) : Prop where
  fs_eq : s.fs = fs
  len : s.calcBlockBitmaps.length = fs.groupDescriptors.length
  fresh : s.Fresh

/-- bits are only ever set -/
def Grows (s s' : Mounting Image) : Prop := ∀ b, s.Marked b → s'.Marked b

/-- `run` keeps the state of the check and every bit, and marks the blocks `B` -/
def Marks (fs : ExtFileSystem Image) (run : MountM Image Unit) (B : ℕ → Prop) : Prop :=
  ∀ s s', Checking fs s → run s = .ok () s' → Checking fs s' ∧ Grows s s' ∧ ∀ b, B b → HasBit fs b → s'.Marked b

section Marks

variable {P : Params} {fs : ExtFileSystem Image} {B' : ℕ → Prop}

theorem Marks.mono {run : MountM Image Unit} (h : Marks fs run B) (hB : ∀ b, B' b → B b) : Marks fs run B' := by
  intro s s' hs hr
  obtain ⟨h1, h2, h3⟩ := h s s' hs hr
  exact ⟨h1, h2, fun b hb => h3 b (hB b hb)⟩

theorem Marks.pure : Marks fs (Pure.pure ()) fun _ => False := by
  intro s s' hs hr
  cases hr
  exact ⟨hs, fun _ hb => hb, fun _ hb => hb.elim⟩

theorem Marks.throw {e : String} : Marks fs (MonadExcept.throw e) B := by
  intro s s' _ hr
  cases hr

theorem Marks.seq {run run' : MountM Image Unit} (h : Marks fs run B) (h' : Marks fs run' B') :
    Marks fs (run >>= fun _ => run') fun b => B b ∨ B' b := by
  intro s s'' hs hr
  obtain ⟨_, s', hrun, hrun'⟩ := bind_eq_ok hr
  obtain ⟨h1, h2, h3⟩ := h s s' hs hrun
  obtain ⟨h1', h2', h3'⟩ := h' s' s'' h1 hrun'
  refine ⟨h1', fun b hb => h2' b (h2 b hb), fun b hb hbit => ?_⟩
  rcases hb with hb | hb
  · exact h2' b (h3 b hb hbit)
  · exact h3' b hb hbit

theorem Marks.forEach {α : Type} {f : α → MountM Image Unit} {B : α → ℕ → Prop} {as : List α}
    (h : ∀ a ∈ as, Marks fs (f a) (B a)) : Marks fs (forEach f as) fun b => ∃ a ∈ as, B a b := by
  induction as with
  | nil => exact Marks.pure.mono fun b hb => by simp at hb
  | cons a as ih =>
    refine ((h a mem_cons_self).seq (ih fun c hc => h c (mem_cons_of_mem _ hc))).mono ?_
    rintro b ⟨c, hc, hb⟩
    rcases mem_cons.1 hc with rfl | hc
    · exact .inl hb
    · exact .inr ⟨c, hc, hb⟩

theorem Marks.get {f : Mounting Image → MountM Image Unit} (h : ∀ s, Checking fs s → Marks fs (f s) B) :
    Marks fs (MonadState.get >>= f) B :=
  fun s s' hs hr => h s hs s s' hs hr

theorem Marks.read {f : Option Buffer → MountM Image Unit}
    (h : Marks fs (f (some (fs.device c))) B) : Marks fs (attempt (inMount (readBlocks c)) >>= f) B := by
  intro s s' hs hr
  have hread : attempt (inMount (readBlocks c)) s = .ok (some (fs.device c)) s := by rw [← hs.fs_eq]; rfl
  rw [bind_ok hread] at hr
  exact h s s' hs hr

/-- a step that changes the computed block bitmaps only, setting bits -/
theorem Marks.change
    (hfs : ∀ s, (f s).fs = s.fs) (hidx : ∀ s, (f s).blockCacheIdx = s.blockCacheIdx)
    (hbuf : ∀ s, (f s).blockCacheBuf = s.blockCacheBuf)
    (hlen : ∀ s, (f s).calcBlockBitmaps.length = s.calcBlockBitmaps.length)
    (hgrow : ∀ s g i, bit (s.calcBlockBitmaps.getD g noBits) i = true → bit ((f s).calcBlockBitmaps.getD g noBits) i = true)
    (hmark : ∀ s b, Checking fs s → B b → HasBit fs b → (f s).Marked b) : Marks fs (modify f) B := by
  intro s s' hs hr
  cases hr
  refine ⟨⟨(hfs s).trans hs.fs_eq, (hlen s).trans hs.len, ?_⟩, fun b hb => ?_, fun b => hmark s b hs⟩
  · intro h0
    rw [hidx s] at h0
    rw [hidx s, hbuf s, hfs s]
    exact hs.fresh h0
  · unfold Mounting.Marked at *
    rw [hfs s]
    exact hgrow s _ _ hb

theorem markPhysBlock_length {sb : Superblock} {l : List Buffer} {b : ℕ} :
    (markPhysBlock P sb l b).length = l.length := by
  simp only [markPhysBlock]
  split_ifs <;> simp

theorem markPhysBlock_grows {sb : Superblock} {l : List Buffer} (b g i : ℕ) (h : bit (l.getD g noBits) i = true) :
    bit ((markPhysBlock P sb l b).getD g noBits) i = true := by
  simp only [markPhysBlock]
  split_ifs
  · rw [getD_modify]
    split_ifs
    · rw [bit_setBit, h, Bool.or_true]
    · exact h
  · exact h
  · exact h

theorem Marks.mark (hc : Covered P fs) (b : ℕ) : Marks fs (Ext.mark P b) (· = b) := by
  refine Marks.change (fun _ => rfl) (fun _ => rfl) (fun _ => rfl) (fun s => markPhysBlock_length)
    (fun s => markPhysBlock_grows b) ?_
  intro s c hs hcb hbit
  subst hcb
  have hg := hc.group_lt hbit
  have hi : (layout fs).index c / 8 < P.blockSize := Nat.div_lt_of_lt_mul (hc.index_lt c)
  obtain ⟨rfl, hlen, _⟩ := hs
  rw [← hlen] at hg
  unfold HasBit at hbit
  unfold Layout.group layout at hg
  unfold Layout.index layout at hi
  unfold Mounting.Marked Layout.group Layout.index layout
  simp only [markPhysBlock, if_pos hbit, if_pos (And.intro hg hi)]
  rw [getD_modify, if_pos ⟨rfl, hg⟩, bit_setBit]
  simp

theorem Marks.markEach (hc : Covered P fs) (bs : List ℕ) : Marks fs (Fallible.forEach (Ext.mark P) bs) (· ∈ bs) :=
  (Marks.forEach fun b _ => Marks.mark hc b).mono fun b hb => ⟨b, hb, rfl⟩

/-! ## The traces -/

/-- **The trace of an extent tree marks every block of it.** -/
theorem Marks.traceNode (hc : Covered P fs) (depth : ℕ) (buf : Buffer) (room : ℕ) :
    Marks fs (traceNode P depth buf room) (Reaches P fs.device buf room) := by
  -- by induction on the levels the trace may go down, with one case per kind of node
  unfold Ext.traceNode
  simp only
  split_ifs with hmagic hdepth
  · exact Marks.pure.mono fun b hb => hmagic (by cases hb <;> assumption)
  · refine (Marks.forEach fun e _ => Marks.markEach hc e.run).mono fun b hb => ?_
    cases hb with
    | data _ _ entry block => exact ⟨_, entry, block⟩
    | node _ hd _ => exact absurd hdepth hd
    | under _ hd _ _ => exact absurd hdepth hd
  · cases depth with
    | zero => exact Marks.throw
    | succ depth =>
      refine (Marks.forEach fun idx _ => (Marks.mark hc idx.leafBlock).seq
        (Marks.read (Marks.traceNode hc depth (fs.device idx.leafBlock) (maxEntries P.blockSize)))).mono fun b hb => ?_
      cases hb with
      | data _ hd _ _ => exact absurd hd hdepth
      | node _ _ entry => exact ⟨_, entry, .inl rfl⟩
      | under _ _ entry child => exact ⟨_, entry, .inr child⟩

/-- **The trace of a tree whose levels decrease returns**, if it may go down as far as the header of the root says. -/
theorem traceNode_returns {node : Buffer × ℕ} (h : Descends P fs.device node) {depth : ℕ} (hd : level node.1 ≤ depth)
    {s : Mounting Image} (hs : s.fs = fs) :
    ∃ s', Ext.traceNode P depth node.1 node.2 s = .ok () s' ∧ s'.fs = fs := by
  have hmark : ∀ b s, s.fs = fs → ∃ s', Ext.mark P b s = .ok () s' ∧ s'.fs = fs := fun b s hs => ⟨_, rfl, hs⟩
  induction h generalizing depth s with
  | @intro node hlt _ ih =>
    unfold Ext.traceNode
    dsimp only
    split_ifs with hmagic hleaf
    · exact ⟨s, rfl, hs⟩
    · exact forEach_returns (fun e _ => forEach_returns fun b _ => hmark b) s hs
    · have hlevel : level node.1 = (readHeader node.1).ehDepth := if_pos (not_ne_iff.1 hmagic)
      obtain ⟨depth, rfl⟩ := Nat.exists_eq_succ_of_ne_zero (n := depth) (by omega)
      refine forEach_returns (fun idx hidx s hs => ?_) s hs
      have hchild : ChildOf P fs.device (fs.device idx.leafBlock, maxEntries P.blockSize) node :=
        ⟨not_ne_iff.1 hmagic, hleaf, idx, hidx, rfl⟩
      have hle : level (fs.device idx.leafBlock) ≤ depth :=
        Nat.le_of_lt_succ ((hlt _ hchild : level (fs.device idx.leafBlock) < level node.1).trans_le hd)
      obtain ⟨s1, hr1, hs1⟩ := hmark idx.leafBlock s hs
      obtain ⟨s2, hr2, hs2⟩ := ih _ hchild hle hs1
      have hread : attempt (inMount (readBlocks idx.leafBlock)) s1 = .ok (some (fs.device idx.leafBlock)) s1 := by
        rw [← hs1]; rfl
      exact ⟨s2, by rw [bind_ok hr1, bind_ok hread]; exact hr2, hs2⟩

/-- one level of index nodes is enough for a root with one leaf -/
theorem traceNode_returns_index : level (rootBuf indexFile.iBlock) = 1 ∧ ∀ s : Mounting Image, s.fs = smallFs →
    ∃ s', Ext.traceNode smallParams 1 (rootBuf indexFile.iBlock) 4 s = .ok () s' ∧ s'.fs = smallFs :=
  ⟨by decide +kernel, fun _ hs => traceNode_returns indexFile_descends (by decide +kernel) hs⟩

theorem Marks.traceBehind (hc : Covered P fs) {block : ℕ} {inner : ℕ → MountM Image Unit} {B : ℕ → ℕ → Prop}
    (h : ∀ p, Marks fs (inner p) (B p)) :
    Marks fs (traceBehind P block inner) fun b => block ≠ 0 ∧ block < fs.superblock.totalBlocks ∧
      (b = block ∨ ∃ p ∈ refs P (fs.device block), B p b) := by
  refine Marks.get fun s hs => ?_
  rw [hs.fs_eq]
  split_ifs with hin
  · exact ((Marks.mark hc block).seq (Marks.read (Marks.forEach fun p _ => h p))).mono fun b hb => hb.2.2
  · exact Marks.pure.mono fun b hb => hin ⟨hb.1, hb.2.1⟩

/-- **The trace of block pointers marks every block that they lead to**, if these are blocks of the filesystem. -/
theorem Marks.tracePointers (hc : Covered P fs) (iBlock : Fin 15 → UInt32) :
    Marks fs (tracePointers P iBlock) fun b => (∀ c ∈ pointerBlocks P fs.device iBlock, c < fs.superblock.totalBlocks) ∧
      b ∈ pointerBlocks P fs.device iBlock := by
  refine ((Marks.markEach hc (directs iBlock)).seq ((Marks.traceBehind hc fun p => Marks.mark hc p).seq
    (Marks.traceBehind hc fun sib => Marks.traceBehind hc fun p => Marks.mark hc p))).mono ?_
  rintro b ⟨hin, hb⟩
  simp only [pointerBlocks, mem_append] at hb hin
  have hind : ∀ sib, b ∈ indirectBlocks P fs.device sib →
      (∀ c ∈ indirectBlocks P fs.device sib, c < fs.superblock.totalBlocks) →
      sib ≠ 0 ∧ sib < fs.superblock.totalBlocks ∧ (b = sib ∨ ∃ p ∈ refs P (fs.device sib), b = p) := by
    intro sib hb hall
    unfold indirectBlocks at hb hall
    split_ifs at hb hall with h0
    · simp at hb
    · rcases mem_append.1 hb with hb' | hb'
      · exact ⟨h0, hall _ (by simp), .inr ⟨b, hb', rfl⟩⟩
      · exact ⟨h0, hall _ (by simp), .inl (mem_singleton.1 hb')⟩
  rcases hb with hb | hb | hb
  · exact .inl hb
  · exact .inr (.inl (hind _ hb fun c hc => hin c (.inr (.inl hc))))
  · refine .inr (.inr ?_)
    have hall : ∀ c ∈ doubleIndirectBlocks P fs.device (iBlock 13).toNat, c < fs.superblock.totalBlocks :=
      fun c hc => hin c (.inr (.inr hc))
    unfold doubleIndirectBlocks at hb hall
    split_ifs at hb hall with h0
    · simp at hb
    · refine ⟨h0, hall _ (by simp), ?_⟩
      rcases mem_append.1 hb with hb' | hb'
      · obtain ⟨sib, hsib, hb''⟩ := mem_flatMap.1 hb'
        exact .inr ⟨sib, hsib, hind sib hb'' fun c hcs => hall c (mem_append_left _ (mem_flatMap.2 ⟨sib, hsib, hcs⟩))⟩
      · exact .inl (mem_singleton.1 hb')

/-! ## The scan -/

def Bounded (P : Params) (fs : ExtFileSystem Image) (raw : ExtRawInode) : Prop :=
  ∀ c, Owns P fs.device raw c → c < fs.superblock.totalBlocks

theorem Marks.keep (hfs : ∀ s, (f s).fs = s.fs)
    (hidx : ∀ s, (f s).blockCacheIdx = s.blockCacheIdx) (hbuf : ∀ s, (f s).blockCacheBuf = s.blockCacheBuf)
    (hcalc : ∀ s, (f s).calcBlockBitmaps = s.calcBlockBitmaps) : Marks fs (modify f) fun _ => False :=
  Marks.change hfs hidx hbuf (fun s => by rw [hcalc]) (fun s g i h => by rwa [hcalc]) fun _ _ _ h => h.elim

theorem Marks.traceInode (hc : Covered P fs) (depth ino : ℕ) {raw : ExtRawInode} :
    Marks fs (traceInode P depth ino raw) fun b => Bounded P fs raw ∧ Owns P fs.device raw b := by
  have hbits : Marks fs (modify fun s => { s with
      calcInodeBitmaps := s.calcInodeBitmaps.modify ((ino - 1) / P.inodesPerGroup) fun b =>
        if (ino - 1) % P.inodesPerGroup / 8 < P.blockSize then setBit b ((ino - 1) % P.inodesPerGroup) else b })
      fun _ => False :=
    Marks.keep (fun _ => rfl) (fun _ => rfl) (fun _ => rfl) (fun _ => rfl)
  unfold Ext.traceInode Bounded Owns
  by_cases hx : raw.isExtents = true
  · simp only [hx, if_true]
    exact (hbits.seq (Marks.traceNode hc depth _ _)).mono fun b hb => .inr hb.2
  · simp only [hx]
    refine (hbits.seq (Marks.tracePointers hc raw.iBlock)).mono ?_
    rintro b ⟨hin, hb⟩
    refine .inr ⟨fun c hcb => ?_, hb.2⟩
    rcases Nat.eq_zero_or_pos c with rfl | hpos
    · exact Nat.pos_of_ne_zero fun h0 => absurd (hin b hb) (by simp [h0])
    · exact hin c ⟨hpos.ne', hcb⟩

theorem fetchTable_ok {s s' : Mounting Image} {block : ℕ} (hs : Checking fs s) (hr : fetchTable block s = .ok () s') :
    Checking fs s' ∧ Grows s s' ∧ (block ≠ 0 → s'.blockCacheBuf = fs.device block) := by
  obtain ⟨rfl, hlen, hfresh⟩ := hs
  by_cases hidx : s.blockCacheIdx = block
  · have : fetchTable block s = .ok () s := by rw [fetchTable, get_bind, if_neg (not_not.2 hidx)]; rfl
    rw [this] at hr
    cases hr
    exact ⟨⟨rfl, hlen, hfresh⟩, fun _ hb => hb, fun h0 => by rw [hfresh (hidx ▸ h0), hidx]⟩
  · have : fetchTable block s = .ok () { s with blockCacheIdx := block, blockCacheBuf := s.fs.device block } := by
      rw [fetchTable, get_bind, if_pos hidx]; rfl
    rw [this] at hr
    cases hr
    exact ⟨⟨rfl, hlen, fun _ => rfl⟩, fun _ hb => hb, fun _ => rfl⟩

def recordOf (P : Params) (d : Image) (gd : GroupDescriptor) (ino : ℕ) : ExtRawInode :=
  readRawInode P (d (inodeBlock P gd ino)) (inodeOffset P ino % P.blockSize)

/-- an inode of the scan that is in use, with blocks of the filesystem only -/
structure Scanned (P : Params) (fs : ExtFileSystem Image) (ino : ℕ) (raw : ExtRawInode) : Prop where
  record : ∃ gd, fs.groupDescriptors[(ino - 1) / P.inodesPerGroup]? = some gd ∧ inodeBlock P gd ino ≠ 0 ∧
    raw = recordOf P fs.device gd ino
  links : 0 < raw.iLinksCount
  mode : raw.iMode ≠ 0
  bounded : Bounded P fs raw

theorem Marks.scanInode (hc : Covered P fs) (depth ino : ℕ) :
    Marks fs (scanInode P depth ino) fun b => ∃ raw, Scanned P fs ino raw ∧ Owns P fs.device raw b := by
  intro s s' hs hr
  rw [Ext.scanInode, get_bind, hs.fs_eq] at hr
  cases hgd : fs.groupDescriptors[(ino - 1) / P.inodesPerGroup]? with
  | none =>
    rw [hgd] at hr
    cases hr
    refine ⟨hs, fun _ hb => hb, ?_⟩
    rintro b ⟨raw, hraw, _⟩
    obtain ⟨gd, hgd', _⟩ := hraw.record
    rw [hgd] at hgd'
    cases hgd'
  | some gd =>
    rw [hgd] at hr
    obtain ⟨_, s1, hf, hr⟩ := bind_eq_ok hr
    rw [get_bind] at hr
    obtain ⟨hs1, hg1, hbuf⟩ := fetchTable_ok hs hf
    -- an inode that is bounded and in use is the one the scan has read
    have hread : ∀ raw, Scanned P fs ino raw →
        raw = readRawInode P s1.blockCacheBuf (inodeOffset P ino % P.blockSize) := by
      intro raw hraw
      obtain ⟨gd', hgd', h0, rfl⟩ := hraw.record
      rw [hgd] at hgd'
      cases hgd'
      rw [hbuf h0]; rfl
    split_ifs at hr with huse
    · obtain ⟨hs', hg', hm⟩ := Marks.traceInode hc depth ino s1 s' hs1 hr
      refine ⟨hs', fun b hb => hg' b (hg1 b hb), ?_⟩
      rintro b ⟨raw, hraw, hown⟩ hbit
      have heq := hread raw hraw
      subst heq
      exact hm b ⟨hraw.bounded, hown⟩ hbit
    · cases hr
      refine ⟨hs1, hg1, ?_⟩
      rintro b ⟨raw, hraw, _⟩
      have heq := hread raw hraw
      subst heq
      exact absurd ⟨hraw.links, hraw.mode⟩ huse

theorem Marks.reserveGroup (hc : Covered P fs) (g : ℕ) : Marks fs (reserveGroup P g) fun _ => False := by
  refine Marks.get fun s _ => ?_
  simp only
  have htail : ∀ start n, Marks fs (Ext.mark P start >>= fun _ =>
      Fallible.forEach (fun gb => Ext.mark P (start + (gb + 1))) (range n)) fun _ => False := fun start n =>
    ((Marks.mark hc start).seq (Marks.forEach fun gb _ => Marks.mark hc (start + (gb + 1)))).mono fun _ h => h.elim
  have hhead : ∀ {run : MountM Image Unit} (a b c n : ℕ), Marks fs run (fun _ => False) →
      Marks fs (Ext.mark P a >>= fun _ => Ext.mark P b >>= fun _ =>
        Fallible.forEach (fun k => Ext.mark P (c + k)) (range n) >>= fun _ => run) fun _ => False :=
    fun a b c n hrun => ((Marks.mark hc a).seq ((Marks.mark hc b).seq
      ((Marks.forEach fun k _ => Marks.mark hc (c + k)).seq hrun))).mono fun _ h => h.elim
  refine hhead _ _ _ _ ?_
  split_ifs
  · exact htail _ _
  · exact Marks.pure

theorem Marks.padGroup (g : ℕ) : Marks fs (padGroup P g) fun _ => False := by
  refine Marks.change (fun _ => rfl) (fun _ => rfl) (fun _ => rfl) (fun s => by simp) (fun s g' i h => ?_)
    fun _ _ _ h => h.elim
  rw [getD_modify]
  split_ifs
  · rw [padded, bit_setBits, h, Bool.or_true]
  · exact h

/-- **The check marks every block of every inode it scans.** -/
theorem Marks.computeBitmaps (hc : Covered P fs) (depth : ℕ) :
    Marks fs (computeBitmaps P depth) fun b => ∃ ino raw, 2 ≤ ino ∧ ino ≤ fs.superblock.sInodesCount ∧
      Scanned P fs ino raw ∧ Owns P fs.device raw b := by
  have hscan : Marks fs (scanInodes P depth) fun b => ∃ ino raw, 2 ≤ ino ∧ ino ≤ fs.superblock.sInodesCount ∧
      Scanned P fs ino raw ∧ Owns P fs.device raw b := by
    refine Marks.get fun s hs => ?_
    rw [hs.fs_eq]
    refine (Marks.forEach fun ino _ => Marks.scanInode hc depth ino).mono ?_
    rintro b ⟨ino, raw, h1, h2, hb⟩
    exact ⟨ino, by rw [mem_range'_1]; omega, raw, hb⟩
  have hinodes : Marks fs reserveInodes fun _ => False :=
    Marks.keep (fun _ => rfl) (fun _ => rfl) (fun _ => rfl) (fun _ => rfl)
  refine Marks.get fun s hs => ?_
  refine ((Marks.forEach fun g _ => Marks.reserveGroup hc g).seq (hinodes.seq (hscan.seq
    (Marks.forEach fun g _ => Marks.padGroup g)))).mono fun b hb => .inr (.inr (.inl hb))

end Marks

/-! ## What the check leaves alone -/

section

variable (P : Params)

/-- the bitmaps and the inode table of a group -/
def spots (gd : GroupDescriptor) : ℕ × ℕ × ℕ :=
  (gd.blockBitmap P.is64bit, gd.inodeBitmap P.is64bit, gd.inodeTable P.is64bit)

/-- where everything is: the superblock without its counters, and the blocks of the descriptors -/
def place {D : Type} (fs : ExtFileSystem D) : Superblock × List (ℕ × ℕ × ℕ) :=
  ({ fs.superblock with sFreeBlocksCount := 0, sFreeBlocksCountHi := 0, sFreeInodesCount := 0 },
    fs.groupDescriptors.map (spots P))

/-- the block of the superblock and those of the descriptors -/
def Header {D : Type} (fs : ExtFileSystem D) (c : ℕ) : Prop :=
  c = 1024 / P.blockSize ∨ (gdtBlock P ≤ c ∧ c < gdtBlock P + gdtBlocks P fs.superblock fs.groupDescriptors.length)

/-- the blocks a mount may write: the bitmaps and the headers -/
def Written {D : Type} (fs : ExtFileSystem D) (c : ℕ) : Prop :=
  (∃ gd ∈ fs.groupDescriptors, c = gd.blockBitmap P.is64bit ∨ c = gd.inodeBitmap P.is64bit) ∨ Header P fs c

end

/-- the place of everything is the same, and only blocks in `W` have changed -/
structure Changes (P : Params) (W : ℕ → Prop) (fs fs' : ExtFileSystem Image) : Prop where
  place_eq : place P fs' = place P fs
  frame : ∀ c, ¬ W c → fs'.device c = fs.device c

abbrev Stays (P : Params) (fs : ExtFileSystem Image) : ExtFileSystem Image → Prop := Changes P (Written P fs) fs

variable {g : ℕ}

section Frame

variable {P : Params} {fs fs' fs'' : ExtFileSystem Image}

section Place

variable (h : place P fs' = place P fs)

include h

theorem place_length : fs'.groupDescriptors.length = fs.groupDescriptors.length := by
  have := congrArg (fun p => p.2.length) h
  simpa [place] using this

theorem place_first : fs'.superblock.sFirstDataBlock = fs.superblock.sFirstDataBlock :=
  congrArg (fun p => p.1.sFirstDataBlock) h

theorem place_perGroup : fs'.superblock.sBlocksPerGroup = fs.superblock.sBlocksPerGroup :=
  congrArg (fun p => p.1.sBlocksPerGroup) h

theorem place_total : fs'.superblock.totalBlocks = fs.superblock.totalBlocks :=
  congrArg (fun p => p.1.totalBlocks) h

theorem place_inodes : fs'.superblock.sInodesCount = fs.superblock.sInodesCount :=
  congrArg (fun p => p.1.sInodesCount) h

theorem place_desc : fs'.superblock.descSize = fs.superblock.descSize :=
  congrArg (fun p => p.1.descSize) h

theorem place_spots : fs'.groupDescriptors.map (spots P) = fs.groupDescriptors.map (spots P) :=
  congrArg Prod.snd h

theorem place_mem {gd : GroupDescriptor} (hgd : gd ∈ fs'.groupDescriptors) :
    ∃ gd' ∈ fs.groupDescriptors, spots P gd' = spots P gd := by
  rw [← mem_map, ← place_spots h]
  exact mem_map_of_mem hgd

theorem place_group (g : ℕ) : spots P (fs'.groupDescriptors.getD g default) =
    spots P (fs.groupDescriptors.getD g default) := by
  have hg := congrArg (·.getD g (spots P default)) (place_spots h)
  simpa only [getD_map] using hg

theorem place_getElem? {gd : GroupDescriptor} (hgd : fs.groupDescriptors[g]? = some gd) :
    ∃ gd', fs'.groupDescriptors[g]? = some gd' ∧ spots P gd' = spots P gd := by
  have hmap := congrArg (·[g]?) (place_spots h)
  simp only [getElem?_map, hgd, Option.map_some] at hmap
  exact Option.map_eq_some_iff.1 hmap

theorem header_congr : Header P fs' c ↔ Header P fs c := by
  rw [Header, Header, gdtBlocks, gdtBlocks, place_length h, place_desc h]

theorem written_congr (c : ℕ) : Written P fs' c ↔ Written P fs c := by
  have hex : ∀ fs : ExtFileSystem Image,
      (∃ gd ∈ fs.groupDescriptors, c = gd.blockBitmap P.is64bit ∨ c = gd.inodeBitmap P.is64bit) ↔
      ∃ t ∈ fs.groupDescriptors.map (spots P), c = t.1 ∨ c = t.2.1 := by
    simp [spots]
  rw [Written, Written, header_congr h, hex, hex, place_spots h]

theorem hasBit_congr (b : ℕ) : HasBit fs' b ↔ HasBit fs b := by
  rw [HasBit, HasBit, place_first h, place_total h]

theorem group_congr (b : ℕ) : (layout fs').group b = (layout fs).group b := by
  simp only [Layout.group, layout, place_first h, place_perGroup h]

theorem index_congr (b : ℕ) : (layout fs').index b = (layout fs).index b := by
  simp only [Layout.index, layout, place_first h, place_perGroup h]

theorem covered_congr (hc : Covered P fs) : Covered P fs' := by
  obtain ⟨h1, h2, h3⟩ := hc
  refine ⟨?_, ?_, ?_⟩
  · rwa [place_perGroup h]
  · rwa [place_perGroup h]
  · rwa [place_total h, place_first h, place_length h, place_perGroup h]

end Place

variable {W W' : ℕ → Prop}

theorem Changes.rfl : Changes P W fs fs := ⟨Eq.refl _, fun _ _ => Eq.refl _⟩

theorem Changes.trans (h : Changes P W fs fs') (h' : Changes P W fs' fs'') : Changes P W fs fs'' :=
  ⟨h'.place_eq.trans h.place_eq, fun c hc => (h'.frame c hc).trans (h.frame c hc)⟩

theorem Changes.mono (h : Changes P W fs fs') (hW : ∀ c, W c → W' c) : Changes P W' fs fs' :=
  ⟨h.place_eq, fun c hc => h.frame c fun hw => hc (hW c hw)⟩

theorem Changes.write (hc : W c) (buf : Buffer) : Changes P W fs { fs with device := update fs.device c buf } where
  place_eq := Eq.refl _
  frame c' hc' := update_of_ne (by rintro rfl; exact hc' hc) _ _

theorem Stays.trans (h : Stays P fs fs') (h' : Stays P fs' fs'') : Stays P fs fs'' :=
  Changes.trans h (h'.mono fun c => (written_congr h.place_eq c).1)

@[simp] theorem spots_setCounts (gd : GroupDescriptor) {b i : ℕ} :
    spots P ((gd.setFreeBlocksCount P.is64bit b).setFreeInodesCount P.is64bit i) = spots P gd := rfl

theorem Changes.countGroup {b i : Buffer} : Changes P W fs (countGroup P g b i fs) where
  place_eq := by
    simp only [place, Ext.countGroup]
    rw [map_modify_of_eq fun gd => spots_setCounts gd]
  frame _ _ := Eq.refl _

theorem Changes.when {c : Bool} (h : Changes P W fs fs') : Changes P W fs (if c then fs' else fs) := by
  cases c
  · exact .rfl
  · exact h

theorem Changes.countAll {b i : ℕ} : Changes P W fs (countAll b i fs) := ⟨Eq.refl _, fun _ _ => Eq.refl _⟩

theorem getD_mem (hg : g < fs.groupDescriptors.length) : fs.groupDescriptors.getD g default ∈ fs.groupDescriptors := by
  rw [getD_eq_getElem _ _ hg]
  exact getElem_mem hg

theorem writeWhen_changes {changed : Bool} {buf : Buffer} (hc : W c)
    (h : writeWhen changed c buf fs = .ok () fs') : Changes P W fs fs' := by
  cases changed with
  | false => cases h; exact .rfl
  | true => cases h; exact .write hc buf

theorem healGroup_stays (hg : g < fs.groupDescriptors.length) {a : Bool}
    (h : healGroup P g fs = .ok a fs') : Stays P fs fs' := by
  rw [healGroup, get_bind, readBlocks_bind, readBlocks_bind] at h
  obtain ⟨_, fs1, hw1, h⟩ := bind_eq_ok h
  obtain ⟨_, fs2, hw2, h⟩ := bind_eq_ok h
  have h1 : Changes P (Written P fs) fs fs1 := writeWhen_changes (.inl ⟨_, getD_mem hg, .inl rfl⟩) hw1
  have h2 : Changes P (Written P fs) fs1 fs2 := writeWhen_changes (.inl ⟨_, getD_mem hg, .inr rfl⟩) hw2
  cases h
  exact (h1.trans h2).trans (.when .countGroup)

theorem healGroups_stays {gs : List ℕ} (hgs : ∀ g ∈ gs, g < fs.groupDescriptors.length) {a : Bool}
    (h : healGroups P gs fs = .ok a fs') : Stays P fs fs' := by
  induction gs generalizing fs a with
  | nil => cases h; exact .rfl
  | cons g rest ih =>
    obtain ⟨_, fs1, hr, h⟩ := bind_eq_ok h
    obtain ⟨_, fs2, hr', h⟩ := bind_eq_ok h
    cases h
    have h1 := healGroup_stays (hgs g mem_cons_self) hr
    refine h1.trans (ih (fun g hg => ?_) hr')
    rw [place_length h1.place_eq]
    exact hgs g (mem_cons_of_mem _ hg)

theorem writeEach_changes {f : ℕ → Buffer} {bs : List ℕ} (hbs : ∀ b ∈ bs, W (gdtBlock P + b))
    (h : forEach (fun b => writeBlocks (gdtBlock P + b) (f b)) bs fs = .ok () fs') : Changes P W fs fs' := by
  induction bs generalizing fs with
  | nil => cases h; exact .rfl
  | cons b bs ih =>
    exact (Changes.write (hbs b mem_cons_self) (f b)).trans (ih (fun b' hb' => hbs b' (mem_cons_of_mem _ hb')) h)

theorem writeMetadata_changes {E : Encoding} (h : writeMetadata P E fs = .ok () fs') : Changes P (Header P fs) fs fs' := by
  refine (Changes.write (.inl rfl) _).trans (writeEach_changes (fun b hb => ?_) h)
  rw [mem_range] at hb
  exact .inr ⟨Nat.le_add_right _ _, Nat.add_lt_add_left hb _⟩

theorem healZeroBitmaps_stays {E : Encoding} (h : healZeroBitmaps P E fs = .ok () fs') : Stays P fs fs' := by
  rw [healZeroBitmaps, get_bind] at h
  obtain ⟨healed, fs1, hr, h⟩ := bind_eq_ok h
  have h1 := healGroups_stays (fun g hg => mem_range.1 hg) hr
  cases healed with
  | false => cases h; exact h1
  | true => exact h1.trans (Stays.trans .countAll ((writeMetadata_changes h).mono fun _ => .inr))

end Frame

/-! ## The bitmaps on the disk -/

def bitmapOf (P : Params) {D : Type} (fs : ExtFileSystem D) (g : ℕ) : ℕ :=
  (fs.groupDescriptors.getD g default).blockBitmap P.is64bit

/-- the bit of block `b` is set in the block bitmap on the disk -/
def OnDisk (P : Params) (fs : ExtFileSystem Image) (b : ℕ) : Prop :=
  bit (fs.device (bitmapOf P fs ((layout fs).group b))) ((layout fs).index b) = true

structure Apart (P : Params) (fs : ExtFileSystem Image) : Prop where
  bitmaps : (fs.groupDescriptors.map fun gd => gd.blockBitmap P.is64bit).Nodup
  inodeBitmaps : ∀ gd ∈ fs.groupDescriptors, ∀ gd' ∈ fs.groupDescriptors,
    gd.blockBitmap P.is64bit ≠ gd'.inodeBitmap P.is64bit
  header : ∀ gd ∈ fs.groupDescriptors, ¬ Header P fs (gd.blockBitmap P.is64bit)

section Disk

variable {P : Params} {fs fs' fs'' : ExtFileSystem Image}

theorem bitmapOf_congr (h : place P fs' = place P fs) : bitmapOf P fs' g = bitmapOf P fs g :=
  congrArg Prod.fst (place_group h g)

theorem Apart.congr (h : place P fs' = place P fs) (ha : Apart P fs) : Apart P fs' := by
  refine ⟨?_, fun gd hgd gd' hgd' => ?_, fun gd hgd => ?_⟩
  · have hb := congrArg (map Prod.fst) (place_spots h)
    rw [map_map, map_map] at hb
    have hn : (fs.groupDescriptors.map (Prod.fst ∘ spots P)).Nodup := ha.bitmaps
    rw [← hb] at hn
    exact hn
  · obtain ⟨gd1, h1, he1⟩ := place_mem h hgd
    obtain ⟨gd2, h2, he2⟩ := place_mem h hgd'
    have hne := ha.inodeBitmaps gd1 h1 gd2 h2
    have hb : gd1.blockBitmap P.is64bit = gd.blockBitmap P.is64bit := congrArg Prod.fst he1
    have hi : gd2.inodeBitmap P.is64bit = gd'.inodeBitmap P.is64bit := congrArg (fun t => t.2.1) he2
    rwa [hb, hi] at hne
  · obtain ⟨gd1, h1, he1⟩ := place_mem h hgd
    have hb : gd1.blockBitmap P.is64bit = gd.blockBitmap P.is64bit := congrArg Prod.fst he1
    rw [header_congr h, ← hb]
    exact ha.header gd1 h1

theorem Apart.bitmap_inj (ha : Apart P fs) {g' : ℕ} (hg : g < fs.groupDescriptors.length)
    (hg' : g' < fs.groupDescriptors.length) (h : bitmapOf P fs g = bitmapOf P fs g') : g = g' := by
  rw [bitmapOf, bitmapOf, getD_eq_getElem _ _ hg, getD_eq_getElem _ _ hg'] at h
  refine (getElem?_inj (by simpa using hg) ha.bitmaps).1 ?_
  simp [hg, hg', h]

/-- the state after the bitmaps of group `g` are written -/
def rewritten (P : Params) (cb ci : List Buffer) (g : ℕ) (fs : ExtFileSystem Image) : ExtFileSystem Image :=
  countGroup P g (cb.getD g noBits) (ci.getD g noBits) { fs with
    device := update (update fs.device (bitmapOf P fs g) (cb.getD g noBits))
      ((fs.groupDescriptors.getD g default).inodeBitmap P.is64bit) (ci.getD g noBits) }

theorem rewritten_stays (cb ci : List Buffer) (hg : g < fs.groupDescriptors.length) :
    Stays P fs (rewritten P cb ci g fs) := by
  have h1 : Written P fs (bitmapOf P fs g) := .inl ⟨_, getD_mem hg, .inl rfl⟩
  have h2 : Written P fs ((fs.groupDescriptors.getD g default).inodeBitmap P.is64bit) :=
    .inl ⟨_, getD_mem hg, .inr rfl⟩
  exact ((Changes.write h1 _).trans (.write h2 _)).trans .countGroup

variable {cb ci : List Buffer}

theorem rewritten_bitmap (ha : Apart P fs) {g' : ℕ} (hg : g < fs.groupDescriptors.length)
    (hg' : g' < fs.groupDescriptors.length) : (rewritten P cb ci g fs).device (bitmapOf P fs g') =
      if g' = g then cb.getD g noBits else fs.device (bitmapOf P fs g') := by
  have hinode : bitmapOf P fs g' ≠ (fs.groupDescriptors.getD g default).inodeBitmap P.is64bit :=
    ha.inodeBitmaps _ (getD_mem hg') _ (getD_mem hg)
  have hdev : (rewritten P cb ci g fs).device =
      update (update fs.device (bitmapOf P fs g) (cb.getD g noBits))
        ((fs.groupDescriptors.getD g default).inodeBitmap P.is64bit) (ci.getD g noBits) := rfl
  rw [hdev, update_of_ne hinode]
  split_ifs with he
  · rw [he, update_self]
  · exact update_of_ne (fun h => he (ha.bitmap_inj hg' hg h)) _ _

theorem rewriteGroups_bitmaps (ha : Apart P fs) {gs : List ℕ}
    (hgs : ∀ g ∈ gs, g < fs.groupDescriptors.length) (h : forEach (rewriteGroup P cb ci) gs fs = .ok () fs') :
    Stays P fs fs' ∧ ∀ g < fs.groupDescriptors.length, fs'.device (bitmapOf P fs g) =
      if g ∈ gs then cb.getD g noBits else fs.device (bitmapOf P fs g) := by
  induction gs generalizing fs with
  | nil => cases h; exact ⟨.rfl, fun g _ => by simp⟩
  | cons g0 gs ih =>
    have hg0 := hgs g0 mem_cons_self
    have hs := rewritten_stays (P := P) cb ci hg0
    obtain ⟨hs', hb⟩ := ih (ha.congr hs.place_eq)
      (fun g hg => by rw [place_length hs.place_eq]; exact hgs g (mem_cons_of_mem _ hg)) h
    refine ⟨hs.trans hs', fun g hg => ?_⟩
    have hbg := hb g (by rwa [place_length hs.place_eq])
    rw [bitmapOf_congr hs.place_eq, rewritten_bitmap ha hg0 hg] at hbg
    rw [hbg]
    by_cases hmem : g ∈ gs
    · simp [hmem]
    · by_cases he : g = g0
      · simp [he]
      · simp [hmem, he]

/-- **Healing puts the computed block bitmaps on the disk.** -/
theorem heal_bitmaps (ha : Apart P fs) {E : Encoding} (h : heal P E cb ci fs = .ok () fs') :
    Stays P fs fs' ∧ ∀ g < fs.groupDescriptors.length, fs'.device (bitmapOf P fs g) = cb.getD g noBits := by
  rw [heal, get_bind] at h
  obtain ⟨_, fs1, hr, h⟩ := bind_eq_ok h
  obtain ⟨hs, hb⟩ := rewriteGroups_bitmaps ha (fun g hg => mem_range.1 hg) hr
  have hhead := writeMetadata_changes h
  refine ⟨hs.trans (Stays.trans .countAll (hhead.mono fun _ => .inr)), fun g hg => ?_⟩
  have hno : ¬ Header P fs (bitmapOf P fs g) := ha.header _ (getD_mem hg)
  rw [hhead.frame _ fun hw => hno ((header_congr hs.place_eq).1 hw)]
  exact (hb g hg).trans (if_pos (mem_range.2 hg))

theorem compareBitmaps_ok {gs : List ℕ} {mismatch : Bool} (h : compareBitmaps P cb ci gs fs = .ok mismatch fs') :
    fs' = fs ∧ (mismatch = false →
      ∀ g ∈ gs, sameBytes P.blockSize (fs.device (bitmapOf P fs g)) (cb.getD g noBits) = true) := by
  induction gs generalizing mismatch with
  | nil => cases h; exact ⟨rfl, fun _ g hg => by simp at hg⟩
  | cons g gs ih =>
    rw [compareBitmaps, get_bind, readBlocks_bind] at h
    split_ifs at h with hblock
    · cases h; exact ⟨rfl, fun hf => by simp at hf⟩
    · rw [readBlocks_bind] at h
      have hsame : sameBytes P.blockSize (fs.device (bitmapOf P fs g)) (cb.getD g noBits) = true := by
        simpa [bitmapOf] using hblock
      split_ifs at h with hinode
      · cases h; exact ⟨rfl, fun hf => by simp at hf⟩
      · obtain ⟨hfs, hall⟩ := ih h
        refine ⟨hfs, fun hf g' hg' => ?_⟩
        rcases mem_cons.1 hg' with rfl | hg'
        · exact hsame
        · exact hall hf g' hg'

theorem bit_of_sameBytes {n : ℕ} (h4 : 4 ∣ n) {a b : Buffer} (h : sameBytes n a b = true) {i : ℕ} (hi : i < 8 * n) :
    bit a i = bit b i := by
  rw [sameBytes, all_eq_true] at h
  have hw := h (i / 32) (by rw [mem_range]; omega)
  rw [bit, bit, eq_of_beq hw]

theorem checkDescriptors_ok (h : checkDescriptors P fs = .ok () fs') : fs' = fs := by
  rw [checkDescriptors, get_bind] at h
  generalize fs.groupDescriptors = gds at h
  induction gds with
  | nil => cases h; rfl
  | cons gd gds ih =>
    obtain ⟨_, fs1, hr, h⟩ := bind_eq_ok h
    beta_reduce at hr
    split_ifs at hr
    · cases hr
    · cases hr
      exact ih h

/-- **A mount puts the bit of every block of every inode it scans on the disk.** -/
theorem mountCheck_marks (hc : Covered P fs) (ha : Apart P fs) (h4 : 4 ∣ P.blockSize) {E : Encoding} {depth : ℕ}
    (h : mountCheck P E depth fs = .ok () fs') :
    ∃ fs1, Stays P fs fs1 ∧ Stays P fs1 fs' ∧ ∀ b, HasBit fs b →
      (∃ ino raw, 2 ≤ ino ∧ ino ≤ fs.superblock.sInodesCount ∧ Scanned P fs1 ino raw ∧ Owns P fs1.device raw b) →
      OnDisk P fs' b := by
  obtain ⟨_, fs0, hcheck, hrest⟩ := bind_eq_ok h
  rw [checkDescriptors_ok hcheck] at hrest
  obtain ⟨_, fs1, hzero, h⟩ := bind_eq_ok hrest
  have hs1 := healZeroBitmaps_stays hzero
  rw [get_bind] at h
  cases hcomp : computeBitmaps P depth (blank fs1) with
  | error e s' => rw [hcomp] at h; cases h
  | ok u s' =>
    rw [hcomp] at h
    simp only [settle, get_bind] at h
    have hblank : Checking fs1 (blank fs1) := ⟨rfl, length_replicate, fun h0 => absurd rfl h0⟩
    obtain ⟨hs', _, hmarks⟩ := Marks.computeBitmaps (covered_congr hs1.place_eq hc) depth _ _ hblank hcomp
    obtain ⟨mismatch, fs2, hcmp, h⟩ := bind_eq_ok h
    obtain ⟨rfl, hsame⟩ := compareBitmaps_ok hcmp
    -- either way the bitmaps on the disk are the computed ones in the end
    have hdisk : Stays P fs2 fs' ∧ ∀ g < fs2.groupDescriptors.length, ∀ i < 8 * P.blockSize,
        bit (fs'.device (bitmapOf P fs2 g)) i = bit (s'.calcBlockBitmaps.getD g noBits) i := by
      cases mismatch with
      | false =>
        cases h
        refine ⟨.rfl, fun g hg i hi => ?_⟩
        exact bit_of_sameBytes h4 (hsame rfl g (mem_range.2 hg)) hi
      | true =>
        obtain ⟨hs2, hb⟩ := heal_bitmaps (ha.congr hs1.place_eq) h
        exact ⟨hs2, fun g hg i _ => by rw [hb g hg]⟩
    refine ⟨fs2, hs1, hdisk.1, fun b hbit hown => ?_⟩
    have hbit' := (hasBit_congr hs1.place_eq b).2 hbit
    have hc' := covered_congr hs1.place_eq hc
    have hm : s'.Marked b := hmarks b (by rwa [place_inodes hs1.place_eq]) hbit'
    rw [Mounting.Marked, hs'.fs_eq] at hm
    rw [OnDisk, bitmapOf_congr hdisk.1.place_eq, group_congr hdisk.1.place_eq, index_congr hdisk.1.place_eq,
      hdisk.2 _ (hc'.group_lt hbit') _ (hc'.index_lt b), hm]

end Disk

end Kontsnor.Ext
