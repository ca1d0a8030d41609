/-
The extent code against extent trees.

`Inv P ino s t`: the words of the inode and of its nodes on the device hold the tree `t`; the nodes and the data blocks
of `t` are marked in the bitmaps, and no node is a block that the filesystem keeps for itself (a bitmap, the inode's
place in the table, block 0).
The device does not fail.
-/
import Kontsnor.Ext.AllocSpec
import Kontsnor.Ext.Node

namespace Kontsnor.Ext

open List

open Fallible (get_bind modify_bind)
open Words (Buffer)

/-! ## Representation -/

/-- the leaves are on the device -/
structure LeavesAre (cap : ℕ) (d : Image) (ns : List Leaf) : Prop where
  bounded : ∀ l ∈ ns, l.Bounded
  node : ∀ l ∈ ns, NodeIs (d l.block) 0 cap (l.pieces.map pieceSlot)
  length_le : ∀ l ∈ ns, l.pieces.length ≤ cap
  pieces : ∀ l ∈ ns, ∀ e ∈ l.pieces, e.Bounded

/-- the root in `i_block` and the nodes on the device hold the tree; a root without the magic number is an empty one -/
def TreeIs (cap : ℕ) (d : Image) (iBlock : Fin 15 → UInt32) : Tree → Prop
  | .flat xs => xs.length ≤ 4 ∧ (∀ e ∈ xs, e.Bounded) ∧
      (NodeIs (rootBuf iBlock) 0 4 (xs.map pieceSlot) ∨ xs = [] ∧ (readHeader (rootBuf iBlock)).ehMagic ≠ 0xF30A)
  | .deep ns => ns ≠ [] ∧ ns.length ≤ 4 ∧ NodeIs (rootBuf iBlock) 1 4 (ns.map Leaf.slot) ∧ LeavesAre cap d ns
  | .grown node ns => ns.length ≤ 4 ∧ node < 2 ^ 32 ∧
      (∃ l, ns.head? = some l ∧ NodeIs (rootBuf iBlock) 2 4 [leafSlot l.key node]) ∧
      NodeIs (d node) 1 cap (ns.map Leaf.slot) ∧ LeavesAre cap d ns

/-- the blocks that hold nodes -/
def Tree.nodes : Tree → List ℕ
  | .flat _ => []
  | .deep ns => ns.map Leaf.block
  | .grown node ns => node :: ns.map Leaf.block

variable (P : Params)

/-- the block of the inode table that holds the inode -/
def tableBlock (l : Layout) (ino : ℕ) : ℕ :=
  l.inodeTables.getD ((ino - 1) / P.inodesPerGroup) 0 + (ino - 1) % P.inodesPerGroup * P.inodeSize / P.blockSize

/-- a block the filesystem keeps for itself -/
def Reserved (ino : ℕ) (l : Layout) (b : ℕ) : Prop := b = 0 ∨ b ∈ l.bitmaps ∨ b = tableBlock P l ino

/-- the filesystem around the inode: what the driver keeps for itself is marked, and the inode has a place -/
structure Held (ino : ℕ) (fs : ExtFileSystem Image) : Prop where
  sound : (layout fs).Sound P.blockSize
  blockSize_ge : 1024 ≤ P.blockSize
  blockSize_le : P.blockSize ≤ 4096
  group : (ino - 1) / P.inodesPerGroup < fs.groupDescriptors.length
  guarded : ∀ b, Reserved P ino (layout fs) b → (layout fs).Data b → (layout fs).used fs.device b = true
  table : tableBlock P (layout fs) ino ∉ (layout fs).bitmaps

/-- the state of the inode holds the tree -/
structure Inv (ino : ℕ) (s : ExtInode Image) (t : Tree) : Prop where
  held : Held P ino s.fs
  tree : TreeIs (maxEntries P.blockSize) s.fs.device s.raw.iBlock t
  nodup : t.nodes.Nodup
  node : ∀ b ∈ t.nodes, (layout s.fs).Data b ∧ (layout s.fs).used s.fs.device b = true ∧ ¬Reserved P ino (layout s.fs) b
  data : ∀ e ∈ t.pieces, ∀ k < e.len,
    (layout s.fs).Data (e.phys + k) ∧ (layout s.fs).used s.fs.device (e.phys + k) = true

variable {P : Params} {ino : ℕ} {s : ExtInode Image} {t : Tree}

theorem Held.cap_bounds {fs : ExtFileSystem Image} (h : Held P ino fs) :
    5 ≤ maxEntries P.blockSize ∧ maxEntries P.blockSize < 65536 := by
  have h1 := h.blockSize_ge; have h2 := h.blockSize_le
  unfold maxEntries; omega

/-! ## Reading a tree back -/

/-- the pieces of a node of depth 0 -/
def nodePieces (buf : Buffer) : List Piece :=
  (extents buf (readHeader buf).ehEntries).map fun e => ⟨e.eeBlock, e.eeLen, e.startBlock⟩

/-- the leaves an index node points to -/
def nodeLeaves (d : Image) (buf : Buffer) : List Leaf :=
  (indices buf (readHeader buf).ehEntries).map fun i => ⟨i.eiBlock, i.leafBlock, nodePieces (d i.leafBlock)⟩

/-- the tree in the words of the inode and of the device -/
def treeOf (s : ExtInode Image) : Tree :=
  let root := rootBuf s.raw.iBlock
  let hdr := readHeader root
  if hdr.ehMagic ≠ 0xF30A then .flat []
  else if hdr.ehDepth = 0 then .flat (nodePieces root)
  else if hdr.ehDepth = 1 then .deep (nodeLeaves s.fs.device root)
  else
    let node := (Ext4ExtentIdx.ofSlot (slot root 0)).leafBlock
    .grown node (nodeLeaves s.fs.device (s.fs.device node))

theorem NodeIs.pieces_eq {buf : Buffer} {depth max : ℕ} {xs : List Piece} (h : NodeIs buf depth max (xs.map pieceSlot))
    (hb : ∀ e ∈ xs, e.Bounded) : nodePieces buf = xs := by
  have hext := h.extents_eq
  rw [nodePieces, h.header, length_map, hext, map_map, map_map]
  conv_rhs => rw [← map_id xs]
  refine map_congr_left fun e he => ?_
  simp [(hb e he).ofSlot, Piece.ext, Ext4Extent.startBlock]

variable {ns : List Leaf}

theorem NodeIs.leaves_eq {buf : Buffer} {depth max cap : ℕ} {d : Image}
    (h : NodeIs buf depth max (ns.map Leaf.slot)) (hl : LeavesAre cap d ns) : nodeLeaves d buf = ns := by
  have hidx := h.indices_eq
  rw [length_map, map_leafIdx hl.bounded] at hidx
  rw [nodeLeaves, h.header, length_map, hidx, map_map]
  conv_rhs => rw [← map_id ns]
  refine map_congr_left fun l hm => ?_
  simp only [Function.comp_apply, leafBlock_leafIdx, (hl.node l hm).pieces_eq (hl.pieces l hm)]
  rfl

theorem treeOf_eq (h : Inv P ino s t) : treeOf s = t := by
  have ht := h.tree
  cases t with
  | flat xs =>
    obtain ⟨_, hb, hnode | ⟨rfl, hmagic⟩⟩ := ht
    · simp [treeOf, hnode.header, hnode.pieces_eq hb]
    · simp [treeOf, hmagic]
  | deep ns =>
    obtain ⟨_, _, hnode, hleaves⟩ := ht
    simp [treeOf, hnode.header, hnode.leaves_eq hleaves]
  | grown node ns =>
    obtain ⟨_, hnb, ⟨l, hhead, hroot⟩, hnode, hleaves⟩ := ht
    have hkey := (hleaves.bounded l (mem_of_mem_head? hhead)).1
    have hslot : slot (rootBuf s.raw.iBlock) 0 = leafSlot l.key node := hroot.entries 0 (by simp)
    have hblock : (⟨l.key, node, 0⟩ : Ext4ExtentIdx).leafBlock = node := by simp [Ext4ExtentIdx.leafBlock]
    simp [treeOf, hroot.header, hslot, ofSlot_leafSlot hkey hnb, hblock, hnode.leaves_eq hleaves]

/-! ## Lookup -/

variable {b : ℕ} {iBlock : Fin 15 → UInt32}

theorem answerFrom_ext {e : Piece} (he : e.Bounded) (hc : e.Covers b) (s : ExtInode Image) :
    answerFrom e.ext b s = .ok (e.image b, e.first + e.len - b) { s with extentCache := ⟨e.first, e.len, e.phys⟩ } := by
  obtain ⟨h1, h2, h3⟩ := hc
  have hp := he.phys_below; have hpos := he.pos
  have himage : (e.phys + (b - e.first)) % 2 ^ 32 = e.image b := by
    rw [Piece.image]; exact Nat.mod_eq_of_lt (by omega)
  have hrem : sub32 (add32 e.first e.len) b = e.first + e.len - b := by
    unfold sub32 add32; omega
  rw [answerFrom, modify_bind, he.len_ext, Piece.Bounded.startBlock_ext]
  simp only [Piece.ext, ExtentCache.update, hpos, if_true, himage, hrem]
  rfl

theorem descend_leaf (h : LeavesAre (maxEntries P.blockSize) s.fs.device ns) {l : Leaf} (hl : l ∈ ns) (b fuel : ℕ) :
    descend P b (fuel + 1) l.block s = match l.pieces.find? fun e => decide (e.Covers b) with
      | some e => .ok (e.image b, e.first + e.len - b) { s with extentCache := ⟨e.first, e.len, e.phys⟩ }
      | none => .ok (0, 0) s := by
  have hnode := h.node l hl
  have hlen := h.length_le l hl
  have hext := hnode.extents_eq
  have hmin : min l.pieces.length (maxEntries P.blockSize) = l.pieces.length := min_eq_left hlen
  rw [descend, read_bind]
  simp only [hnode.header, length_map, ne_eq, not_true_eq_false, if_false, if_true, hmin, hext,
    find_pieces (h.pieces l hl), Nat.not_lt.2 hlen]
  cases hf : l.pieces.find? fun e => decide (e.Covers b) with
  | none => rfl
  | some e =>
    have he : e ∈ l.pieces := mem_of_find?_eq_some hf
    have hc : e.Covers b := by simpa using find?_some hf
    exact answerFrom_ext (h.pieces l hl e he) hc s

/-- the outcome of a lookup that missed the cache, by what the tree finds -/
def LookupOutcome (s : ExtInode Image) (b : ℕ) : Option Piece → EStateM.Result String (ExtInode Image) (ℕ × ℕ) → Prop
  | some e, r => r = .ok (e.image b, e.first + e.len - b) { s with extentCache := ⟨e.first, e.len, e.phys⟩ }
  | none, r => r = .ok (0, 0) s ∨ ∃ msg, r = .error msg s

theorem lookupOutcome_leaf (h : LeavesAre (maxEntries P.blockSize) s.fs.device ns) {l : Leaf}
    (hl : l ∈ ns) (b fuel : ℕ) :
    LookupOutcome s b (l.pieces.find? fun e => decide (e.Covers b)) (descend P b (fuel + 1) l.block s) := by
  rw [descend_leaf h hl]
  cases l.pieces.find? fun e => decide (e.Covers b) with
  | none => exact .inl rfl
  | some e => rfl

theorem resolve_flat {xs : List Piece} (h : TreeIs (maxEntries P.blockSize) s.fs.device iBlock (.flat xs))
    (hmiss : s.extentCache.get b = none) :
    LookupOutcome s b ((Tree.flat xs).find b) (resolveExtentBlockLen P iBlock b s) := by
  obtain ⟨hlen, hb, hnode | ⟨rfl, hmagic⟩⟩ := h
  · have hext := hnode.extents_eq
    rw [resolveExtentBlockLen, get_bind]
    simp only [hmiss, hnode.header, length_map, ne_eq, not_true_eq_false, if_false, if_true, min_eq_left hlen, hext,
      find_pieces hb, Tree.find]
    cases hf : xs.find? fun e => decide (e.Covers b) with
    | none => exact .inl rfl
    | some e =>
      have he : e ∈ xs := mem_of_find?_eq_some hf
      have hc : e.Covers b := by simpa using find?_some hf
      exact answerFrom_ext (hb e he) hc s
  · rw [resolveExtentBlockLen, get_bind]
    simp only [hmiss, ne_eq, hmagic, not_false_eq_true, if_true]
    exact .inr ⟨_, rfl⟩

theorem resolve_deep (hk : Keyed ns)
    (h : TreeIs (maxEntries P.blockSize) s.fs.device iBlock (.deep ns)) (hmiss : s.extentCache.get b = none) :
    LookupOutcome s b ((Tree.deep ns).find b) (resolveExtentBlockLen P iBlock b s) := by
  obtain ⟨_, hlen, hnode, hleaves⟩ := h
  have hidx := hnode.indices_eq
  rw [length_map, map_leafIdx hleaves.bounded] at hidx
  rw [resolveExtentBlockLen, get_bind]
  simp only [hmiss, hnode.header, length_map, ne_eq, not_true_eq_false, if_false, one_ne_zero, min_eq_left hlen,
    hidx, bestIdx_eq hk, Tree.find]
  cases hr : route ns b with
  | none => exact .inl rfl
  | some l =>
    simp only [Option.map_some, Option.bind_some, leafBlock_leafIdx]
    exact lookupOutcome_leaf hleaves (route_some hr).1 b _

theorem resolve_grown {node : ℕ} (hk : Keyed ns)
    (hblocks : 0 < s.fs.superblock.sBlocksCount) (hcap : 4 ≤ maxEntries P.blockSize)
    (h : TreeIs (maxEntries P.blockSize) s.fs.device iBlock (.grown node ns))
    (hmiss : s.extentCache.get b = none) :
    LookupOutcome s b ((Tree.grown node ns).find b) (resolveExtentBlockLen P iBlock b s) := by
  obtain ⟨hlen, hnb, ⟨l0, hhead, hroot⟩, hnode, hleaves⟩ := h
  obtain ⟨rest, rfl⟩ : ∃ rest, ns = l0 :: rest := by
    cases ns with
    | nil => cases hhead
    | cons l rest => cases hhead; exact ⟨rest, rfl⟩
  have hridx := hroot.indices_eq
  have hkey := (hleaves.bounded l0 mem_cons_self).1
  simp only [length_singleton, map_cons, map_nil, ofSlot_leafSlot hkey hnb] at hridx
  have hidx := hnode.indices_eq
  rw [length_map, map_leafIdx hleaves.bounded] at hidx
  rw [resolveExtentBlockLen, get_bind]
  simp only [hmiss, hroot.header, length_singleton, ne_eq, not_true_eq_false, if_false, two_ne_zero,
    show min 1 4 = 1 from rfl, hridx, Tree.find]
  by_cases hle : l0.key ≤ b
  · -- down to the index node, and on to the leaf
    obtain ⟨fuel, hfuel⟩ : ∃ fuel, s.fs.superblock.sBlocksCount = fuel + 1 := ⟨_, (Nat.succ_pred_eq_of_pos hblocks).symm⟩
    have hbest : bestIdx b [⟨l0.key, node, 0⟩] = some ⟨l0.key, node, 0⟩ := by simp [bestIdx, hle]
    have hblock : (⟨l0.key, node, 0⟩ : Ext4ExtentIdx).leafBlock = node := by simp [Ext4ExtentIdx.leafBlock]
    have hfit : ¬maxEntries P.blockSize < (l0 :: rest).length := by omega
    simp only [hbest, hblock, hfuel]
    rw [descend, read_bind]
    simp only [hnode.header, length_map, ne_eq, not_true_eq_false, if_false, one_ne_zero, hfit, hidx, bestIdx_eq hk]
    cases hr : route (l0 :: rest) b with
    | none => exact .inl rfl
    | some l =>
      simp only [Option.map_some, Option.bind_some, leafBlock_leafIdx]
      exact lookupOutcome_leaf hleaves (route_some hr).1 b _
  · -- below the first key, and so below all
    have hbest : bestIdx b [⟨l0.key, node, 0⟩] = none := by simp [bestIdx, hle]
    have hnone : route (l0 :: rest) b = none := by
      refine route_none.2 fun l hl => ?_
      rcases mem_cons.1 hl with rfl | hl
      · omega
      · have := (pairwise_cons.1 hk).1 l hl; omega
    simp only [hbest, hnone]
    exact .inl rfl

/-- **A lookup that misses the cache is a search in the tree.** -/
theorem resolve_spec (h : Inv P ino s t) (hk : t.Ascends) (hmiss : s.extentCache.get b = none) :
    LookupOutcome s b (t.find b) (resolveExtentBlockLen P s.raw.iBlock b s) := by
  cases t with
  | flat xs => exact resolve_flat h.tree hmiss
  | deep ns => exact resolve_deep hk h.tree hmiss
  | grown node ns =>
    have hblocks : 0 < (layout s.fs).blocksCount := by have := h.held.sound.lower; omega
    have := h.held.cap_bounds
    exact resolve_grown hk hblocks (by omega) h.tree hmiss

end Kontsnor.Ext
