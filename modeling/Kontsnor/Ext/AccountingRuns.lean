/-
Sequences of requests to the allocator (`fs/ext/alloc.rs`).

A `Request` is a call of `allocate_blocks_contiguous`, `deallocate_block`, `allocate_inode` or `deallocate_inode`. `Right`
says what its answer has to be: a run of blocks is not empty, not longer than asked for, inside one group, free before and
in use after; an allocation that fails found no clear bit in any group.
-/
import Kontsnor.Core.Runs
import Kontsnor.Ext.Accounting

namespace Kontsnor.Ext

open List GroupDescriptor

open BitPool (Pool Exact zeros)
open Fallible (get_bind bind_ok final)
open Words (Buffer bit setBit setBits bit_setBits bit_setBit)

/-! ## Requests -/

inductive Request where
  | allocateBlocksContiguous (preferredBlock count : ℕ)
  | deallocateBlock (blockNum : ℕ)
  | allocateInode (isDir : Bool)
  | deallocateInode (ino : ℕ) (isDir : Bool)

variable (P : Params) (s : ExtFileSystem Image)

def serve : Request → ExtFileSystem Image
  | .allocateBlocksContiguous preferredBlock count => final (allocateBlocksContiguous P preferredBlock count s)
  | .deallocateBlock blockNum => final (deallocateBlock blockNum s)
  | .allocateInode isDir => final (allocateInode P isDir s)
  | .deallocateInode ino isDir => final (deallocateInode P ino isDir s)

def blockUsed (b : ℕ) : Bool :=
  bit ((blockPool P s).bitmap ((layout s).group b)) ((layout s).index b)

/-- no bitmap of the pool has a clear bit -/
def Nothing (p : Pool) : Prop := ∀ g < p.groups, zeros (p.bitmap g) (8 * P.blockSize) = 0

/-- what an allocation of blocks may return -/
def BlocksRight (count : ℕ) : EStateM.Result String (ExtFileSystem Image) (ℕ × ℕ) → Prop
  | .ok (p, n) s' =>
    0 < n ∧ n ≤ count ∧ n ≤ 128 ∧ s.superblock.sFirstDataBlock ≤ p ∧ p + n ≤ s.superblock.totalBlocks ∧
      (∃ g < s.groupDescriptors.length, ∀ b, p ≤ b → b < p + n → (layout s).group b = g) ∧
      ∀ b, p ≤ b → b < p + n → blockUsed P s b = false ∧ blockUsed P s' b = true
  | .error _ _ => Nothing P (blockPool P s)

/-- what an allocation of an inode may return -/
def InodeRight : EStateM.Result String (ExtFileSystem Image) ℕ → Prop
  | .ok ino s' => 0 < ino ∧ ino ≤ s.superblock.sInodesCount ∧
      bit ((inodePool P s).bitmap (inodeGroup P ino)) (inodeIndex P ino) = false ∧
      bit ((inodePool P s').bitmap (inodeGroup P ino)) (inodeIndex P ino) = true
  | .error _ _ => Nothing P (inodePool P s)

namespace Request

def Right (P : Params) (s : ExtFileSystem Image) : Request → Prop
  | .allocateBlocksContiguous preferredBlock count =>
    BlocksRight P s count (Ext.allocateBlocksContiguous P preferredBlock count s)
  | .allocateInode isDir => InodeRight P s (Ext.allocateInode P isDir s)
  | .deallocateBlock _ | .deallocateInode _ _ => True

/-- a number that is given back is one of the filesystem -/
def InRange (s : ExtFileSystem Image) : Request → Prop
  | .deallocateBlock blockNum =>
    s.superblock.sFirstDataBlock ≤ blockNum ∧ blockNum < s.superblock.totalBlocks
  | .deallocateInode ino _ => 0 < ino ∧ ino ≤ s.superblock.sInodesCount
  | .allocateBlocksContiguous _ _ | .allocateInode _ => True

/-- an allocation of blocks asks for one at least -/
def Asks : Request → Prop
  | .allocateBlocksContiguous _ count => 0 < count
  | _ => True

end Request

variable {g count i k : ℕ}

section Requests

variable {P : Params} {s : ExtFileSystem Image}

theorem nothing_of_count {p : Pool} (h : Exact (8 * P.blockSize) p) (hc : ∀ g < p.groups, p.count g = 0) :
    Nothing P p := by
  intro g hg
  rw [← h.count g hg]
  exact hc g hg

theorem exists_offset (start : ℕ) {n : ℕ} (hg : g < n) : ∃ o ∈ range n, (start + o) % n = g := by
  have hn : 0 < n := Nat.zero_lt_of_lt hg
  refine ⟨(g + n - start % n) % n, mem_range.2 (Nat.mod_lt _ hn), ?_⟩
  have hlt : start % n < n := Nat.mod_lt _ hn
  have hsum : start + (g + n - start % n) = g + n * (start / n + 1) := by
    have hdm := Nat.div_add_mod start n
    rw [Nat.mul_succ]
    omega
  rw [Nat.add_mod_mod, hsum, Nat.add_mul_mod_self_left, Nat.mod_eq_of_lt hg]

theorem blocksIn_le (s : ExtFileSystem Image) (g : ℕ) :
    (shape P s).blocksIn g ≤ s.superblock.sBlocksPerGroup ∧
      (shape P s).blocksIn g ≤
        s.superblock.totalBlocks - s.superblock.sFirstDataBlock - g * s.superblock.sBlocksPerGroup :=
  ⟨min_le_left _ _, min_le_right _ _⟩

section

variable (h : Books P s) (h32 : s.superblock.totalBlocks < 2 ^ 32)
include h h32

/-- a run taken from a group, as a run of blocks -/
theorem blocksRight_taken {start : ℕ}
    (hg : g < s.groupDescriptors.length) (hpos : 0 < k) (hk : k ≤ count) (hk128 : k ≤ 128)
    (hfree : FreeRun ((blockPool P s).bitmap g) start k) (hin : start + k ≤ (shape P s).blocksIn g) :
    BlocksRight P s count
      (.ok ((groupStart s.superblock g + start) % 2 ^ 32, k) (blocksTaken P s g start k)) := by
  obtain ⟨hle, hend⟩ := blocksIn_le (P := P) s g
  have hstart : groupStart s.superblock g + start =
      s.superblock.sFirstDataBlock + g * s.superblock.sBlocksPerGroup + start := by
    unfold groupStart; omega
  have hmod : (groupStart s.superblock g + start) % 2 ^ 32 = groupStart s.superblock g + start :=
    Nat.mod_eq_of_lt (by omega)
  have hplace : ∀ b, groupStart s.superblock g + start ≤ b → b < groupStart s.superblock g + start + k →
      (layout s).group b = g ∧
        (layout s).index b = b - (s.superblock.sFirstDataBlock + g * s.superblock.sBlocksPerGroup) := by
    intro b h1 h2
    have hb : b = (layout s).firstDataBlock + g * (layout s).blocksPerGroup +
        (b - (s.superblock.sFirstDataBlock + g * s.superblock.sBlocksPerGroup)) := by
      simp only [layout]; omega
    exact Layout.group_index hb (by simp only [layout]; omega)
  have st := step_takeBlocks h h32 hg k (setBits ((blockPool P s).bitmap g) start k)
  have hlayout : layout (blocksTaken P s g start k) = layout s := by
    rw [blocksTaken, layout_takeBlocks]; rfl
  rw [hmod]
  refine ⟨hpos, hk, hk128, by omega, by omega, ⟨g, hg, fun b h1 h2 => (hplace b h1 h2).1⟩, fun b h1 h2 => ?_⟩
  obtain ⟨hgb, hib⟩ := hplace b h1 h2
  constructor
  · rw [blockUsed, hgb, hib]
    exact hfree _ (by omega) (by omega)
  · have hbits : (blockPool P (blocksTaken P s g start k)).bitmap g = setBits ((blockPool P s).bitmap g) start k :=
      st.bitmap hg
    rw [blockUsed, hlayout, hgb, hib, hbits, bit_setBits]
    have hrun : start ≤ b - (s.superblock.sFirstDataBlock + g * s.superblock.sBlocksPerGroup) ∧
        b - (s.superblock.sFirstDataBlock + g * s.superblock.sBlocksPerGroup) < start + k := by omega
    simp [hrun]

/-- the allocator takes a run from some group, or every group is full -/
theorem allocateBlocksContiguous_cases (preferredBlock : ℕ) (hcount : 0 < count) :
    (∃ g < s.groupDescriptors.length, ∃ start k, 0 < k ∧ k ≤ count ∧ k ≤ 128 ∧
      FreeRun ((blockPool P s).bitmap g) start k ∧ start + k ≤ (shape P s).blocksIn g ∧
      allocateBlocksContiguous P preferredBlock count s =
        .ok ((groupStart s.superblock g + start) % 2 ^ 32, k) (blocksTaken P s g start k)) ∨
    (∃ e, allocateBlocksContiguous P preferredBlock count s = .error e s) ∧
      ∀ g < (blockPool P s).groups, (blockPool P s).count g = 0 := by
  have hlo := h.sFreeBlocksCount h32
  simp only [allocateBlocksContiguous, get_bind]
  by_cases h0 : s.superblock.sFreeBlocksCount = 0
  · rw [if_pos h0]
    exact .inr ⟨⟨_, rfl⟩, fun g hg => h.blocks.count_eq_zero (hlo.symm.trans h0) hg⟩
  · have hreq : 0 < min (min count 128) s.superblock.sFreeBlocksCount := by omega
    rw [if_neg h0]
    simp only [if_neg hreq.ne']
    generalize (if s.superblock.sFirstDataBlock < preferredBlock then _ else 0) = startGroup
    rcases allocGroups_books h h32 hreq startGroup (range s.groupDescriptors.length) with
      ⟨g, hg, start, k, hpos, hk, hfree, hin, hok⟩ | ⟨⟨e, herr⟩, hnone⟩
    · exact .inl ⟨g, hg, start, k, hpos, by omega, by omega, hfree, hin, hok⟩
    · refine .inr ⟨⟨e, herr⟩, fun g hg => ?_⟩
      obtain ⟨o, ho, hog⟩ := exists_offset startGroup hg
      rw [← hog]
      exact hnone o ho

end

theorem Books.freeBlocks_taken (h : Books P s) {start : ℕ} (hg : g < s.groupDescriptors.length)
    (h32 : s.superblock.totalBlocks < 2 ^ 32) (hfree : FreeRun ((blockPool P s).bitmap g) start k)
    (hin : start + k ≤ (shape P s).blocksIn g) :
    (blocksTaken P s g start k).superblock.freeBlocks + k = s.superblock.freeBlocks := by
  have hz := BitPool.zeros_setBits hfree (hin.trans (h.blocks.fits g hg))
  have hcount : (blockPool P s).count g = zeros ((blockPool P s).bitmap g) (8 * P.blockSize) := h.blocks.count g hg
  have hle : (blockPool P s).count g ≤ s.superblock.freeBlocks := by
    rw [show s.superblock.freeBlocks = (blockPool P s).total from rfl, h.blocks.total]
    exact Finset.single_le_sum_of_canonicallyOrdered (Finset.mem_range.2 hg)
  have hset : (blocksTaken P s g start k).superblock.freeBlocks = s.superblock.freeBlocks - k :=
    freeBlocks_set (by have := h.freeBlocks_le; simp only [writeBitmap]; omega)
  omega

theorem allocateBlocksContiguous_books (h : Books P s) (h32 : s.superblock.totalBlocks < 2 ^ 32) (preferredBlock : ℕ)
    (hcount : 0 < count) :
    BlocksRight P s count (allocateBlocksContiguous P preferredBlock count s) ∧
      Books P (final (allocateBlocksContiguous P preferredBlock count s)) ∧
      shape P (final (allocateBlocksContiguous P preferredBlock count s)) = shape P s := by
  rcases allocateBlocksContiguous_cases h h32 preferredBlock hcount with
    ⟨g, hg, start, k, hpos, hk, hk128, hfree, hin, hok⟩ | ⟨⟨e, herr⟩, hnone⟩
  · rw [hok]
    exact ⟨blocksRight_taken h h32 hg hpos hk hk128 hfree hin, h.takeBlocks h32 hg hfree hin,
      (step_takeBlocks h h32 hg k _).same⟩
  · rw [herr]
    exact ⟨nothing_of_count h.blocks hnone, h, rfl⟩

theorem inodePlace_of {n per : ℕ} (hi : i < Shape.share n per g) :
    (g * per + i + 1 - 1) / per = g ∧ (g * per + i + 1 - 1) % per = i ∧ g * per + i + 1 ≤ n := by
  have hper : i < per := hi.trans_le (min_le_left _ _)
  have hend : i < n - g * per := hi.trans_le (min_le_right _ _)
  have hsub : g * per + i + 1 - 1 = i + per * g := by rw [Nat.mul_comm]; omega
  rw [hsub, Nat.add_mul_div_left _ _ (by omega), Nat.add_mul_mod_self_left, Nat.div_eq_of_lt hper, Nat.mod_eq_of_lt hper]
  refine ⟨Nat.zero_add g, rfl, by omega⟩

/-- a number below `n` falls into one of the groups that cover them, and there into the share of that group -/
theorem place_share {x n per groups : ℕ} (hx : x < n) (hper : 0 < per) (hup : n ≤ groups * per) :
    x / per < groups ∧ x % per < Shape.share n per (x / per) := by
  refine ⟨Nat.div_lt_of_lt_mul (by rw [Nat.mul_comm]; omega), lt_min (Nat.mod_lt x hper) ?_⟩
  have hplace := Nat.div_add_mod' x per
  omega

theorem getElem?_descriptor {g : ℕ} (hg : g < s.groupDescriptors.length) :
    s.groupDescriptors[g]? = some (descriptor s g) := by
  rw [descriptor, getD_eq_getElem _ _ hg, getElem?_eq_getElem hg]

section

variable (h : Books P s) (h32 : s.superblock.totalBlocks < 2 ^ 32)
include h h32

theorem allocateInode_books (isDir : Bool) :
    InodeRight P s (allocateInode P isDir s) ∧ Books P (final (allocateInode P isDir s)) ∧
      shape P (final (allocateInode P isDir s)) = shape P s := by
  have hu : s.superblock.sInodesCount < 2 ^ 32 := h.sound.inodes_u32
  simp only [allocateInode, get_bind]
  by_cases h0 : s.superblock.sFreeInodesCount = 0
  · rw [if_pos h0]
    exact ⟨nothing_of_count h.inodes fun g hg => h.inodes.count_eq_zero h0 hg, h, rfl⟩
  · rw [if_neg h0]
    have hgroups : ∀ g ∈ range s.groupDescriptors.length, g < s.groupDescriptors.length :=
      fun g hg => mem_range.1 hg
    rcases allocInodeGroups_books h h32 isDir hgroups with ⟨g, hg, i, hi, hfree, hok⟩ | ⟨⟨e, herr⟩, hnone⟩
    · have st := step_takeInode h h32 hg isDir (setBit ((inodePool P s).bitmap g) i)
      obtain ⟨hdiv, hmod, hle⟩ := inodePlace_of hi
      rw [hok, Nat.mod_eq_of_lt (hle.trans_lt hu)]
      refine ⟨⟨Nat.succ_pos _, hle, ?_, ?_⟩, h.takeInode h32 hg isDir hfree hi, st.same⟩
      · rw [inodeGroup, inodeIndex, hdiv, hmod]; exact hfree
      · have hbits : (inodePool P (inodeTaken P s g i isDir)).bitmap g = setBit ((inodePool P s).bitmap g) i :=
          st.bitmap hg
        rw [inodeGroup, inodeIndex, hdiv, hmod, hbits, bit_setBit]
        simp
    · rw [herr]
      exact ⟨nothing_of_count h.inodes fun g hg => hnone g (mem_range.2 hg), h, rfl⟩

theorem deallocateBlock_books {blockNum : ℕ}
    (h1 : s.superblock.sFirstDataBlock ≤ blockNum) (h2 : blockNum < s.superblock.totalBlocks) :
    Books P (final (deallocateBlock blockNum s)) ∧ shape P (final (deallocateBlock blockNum s)) = shape P s := by
  by_cases h0 : blockNum = 0
  · rw [deallocateBlock, if_pos h0]
    exact ⟨h, rfl⟩
  have hrel : sub32 blockNum s.superblock.sFirstDataBlock = blockNum - s.superblock.sFirstDataBlock := by
    unfold sub32; omega
  have hup := h.sound.upper
  rw [length_bitmaps] at hup
  have hper : 0 < s.superblock.sBlocksPerGroup := h.sound.blocks_pos
  obtain ⟨hg, hin⟩ := place_share (Nat.sub_lt_sub_right h1 h2) hper (Nat.sub_le_iff_le_add'.2 hup)
  simp only [deallocateBlock, if_neg h0, get_bind, hrel]
  rw [getElem?_descriptor hg]
  have hread : readBlocks (descriptor s _).bgBlockBitmap s = .ok ((blockPool P s).bitmap _) s :=
    congrArg (readBlocks · s) (h.bgBlockBitmap h32 hg)
  simp only [bind_ok hread]
  split_ifs with hset
  · exact ⟨h.giveBlock h32 hg hset hin, (step_giveBlock h h32 hg _).same⟩
  · exact ⟨h, rfl⟩

theorem deallocateInode_books {ino : ℕ} (isDir : Bool) (h1 : 0 < ino) (h2 : ino ≤ s.superblock.sInodesCount) :
    Books P (final (deallocateInode P ino isDir s)) ∧ shape P (final (deallocateInode P ino isDir s)) = shape P s := by
  have hup := h.sound.inodes_upper
  rw [length_bitmaps] at hup
  obtain ⟨hg, hin⟩ := place_share (Nat.sub_one_lt_of_le h1 h2) h.sound.inodes_pos hup
  simp only [deallocateInode, if_neg h1.ne', get_bind]
  rw [getElem?_descriptor hg]
  have hread : readBlocks (descriptor s _).bgInodeBitmap s = .ok ((inodePool P s).bitmap _) s :=
    congrArg (readBlocks · s) (h.bgInodeBitmap h32 hg)
  simp only [bind_ok hread]
  split_ifs with hset
  · exact ⟨h.giveInode h32 hg isDir hset hin, (step_giveInode h h32 hg isDir _).same⟩
  · exact ⟨h, rfl⟩

theorem serve_books {r : Request} (hin : r.InRange s)
    (hask : r.Asks) : r.Right P s ∧ Books P (serve P s r) ∧ shape P (serve P s r) = shape P s := by
  cases r with
  | allocateBlocksContiguous preferredBlock count => exact allocateBlocksContiguous_books h h32 preferredBlock hask
  | deallocateBlock blockNum => exact ⟨trivial, deallocateBlock_books h h32 hin.1 hin.2⟩
  | allocateInode isDir => exact allocateInode_books h h32 isDir
  | deallocateInode ino isDir => exact ⟨trivial, deallocateInode_books h h32 isDir hin.1 hin.2⟩

end

theorem inRange_of_shape {s' : ExtFileSystem Image} (hs : shape P s' = shape P s) {r : Request} (h : r.InRange s) :
    r.InRange s' := by
  have h1 : s'.superblock.sFirstDataBlock = s.superblock.sFirstDataBlock := congrArg Shape.firstDataBlock hs
  have h2 : s'.superblock.totalBlocks = s.superblock.totalBlocks := congrArg Shape.totalBlocks hs
  have h3 : s'.superblock.sInodesCount = s.superblock.sInodesCount := congrArg Shape.inodesCount hs
  cases r with
  | deallocateBlock blockNum => exact ⟨h1.le.trans h.1, h.2.trans_eq h2.symm⟩
  | deallocateInode ino isDir => exact ⟨h.1, h.2.trans_eq h3.symm⟩
  | allocateBlocksContiguous preferredBlock count => trivial
  | allocateInode isDir => trivial

end Requests

/-- **The books stay exact.** On fewer than `2 ^ 32` blocks, in every sequence of requests for at least one block each and
of releases of numbers in range, every answer is in order and the books are exact after every request. -/
theorem books_kept {P : Params} {s : ExtFileSystem Image} (h : Books P s) (h32 : s.superblock.totalBlocks < 2 ^ 32)
    {requests : List Request} (hin : ∀ r ∈ requests, r.InRange s) (hask : ∀ r ∈ requests, r.Asks) :
    Runs.Each (serve P) (fun s r => r.Right P s ∧ Books P (serve P s r)) s requests := by
  induction requests generalizing s with
  | nil => trivial
  | cons r rest ih =>
    have hmem : r ∈ r :: rest := mem_cons_self ..
    obtain ⟨hright, hbooks, hshape⟩ := serve_books h h32 (hin r hmem) (hask r hmem)
    have htotal : (serve P s r).superblock.totalBlocks = s.superblock.totalBlocks := congrArg Shape.totalBlocks hshape
    refine ⟨⟨hright, hbooks⟩, ih hbooks (htotal.trans_lt h32) (fun r' hr' => ?_) fun r' hr' => ?_⟩
    · exact inRange_of_shape hshape (hin r' (mem_cons_of_mem r hr'))
    · exact hask r' (mem_cons_of_mem r hr')

/-! ## A small filesystem, and a large one -/

theorem bit_ones {w : Buffer} (h : w (i / 32) = 0xFFFFFFFF) : bit w i = true := by
  have hones : (0xFFFFFFFF : UInt32).toNat = 2 ^ 32 - 1 := rfl
  rw [bit, h, hones, Nat.testBit_two_pow_sub_one]
  exact decide_eq_true (Nat.mod_lt _ (by decide))

/-- ones from bit `n` on: up to the end of word `k - 1`, and in the words from `k` on -/
theorem bit_padding {w : Buffer} {n : ℕ} (hlast : ∀ i < 32 * k, n ≤ i → bit w i = true)
    (hones : ∀ j, k ≤ j → w j = 0xFFFFFFFF) (hi : n ≤ i) : bit w i = true := by
  rcases Nat.lt_or_ge i (32 * k) with hlt | hge
  · exact hlast i hlt hi
  · exact bit_ones (hones _ (by omega))

/-- one group: blocks 1 to 16 of 63 and two inodes of eight are in use, and the bits behind are set -/
def paddedFs : ExtFileSystem Image where
  device b w :=
    if b = 3 then if w = 0 then 0xFFFF else if w = 1 then 0x80000000 else 0xFFFFFFFF
    else if b = 4 then if w = 0 then 0xFFFFFF03 else 0xFFFFFFFF
    else 0
  superblock := ⟨8, 64, 47, 0, 6, 1, 8192, 0, 0, 0, 0⟩
  groupDescriptors := [⟨3, 4, 5, 47, 0, 6, 1, 0, 0, 0, 0⟩]
  metadataDirty := false

theorem paddedFs_books : Books smallParams paddedFs where
  sound := ⟨by decide, by decide, by decide, by decide, by decide, by decide, by decide, by decide, by decide, by decide,
    by decide, by decide, by decide⟩
  blocks := by
    refine ⟨by decide, fun g hg i h1 h2 => ?_, by decide +kernel, by decide⟩
    obtain rfl : g = 0 := Nat.lt_one_iff.1 hg
    refine bit_padding (n := 63) (k := 2) (by decide) (fun j hj => ?_) h1
    have h0 : j ≠ 0 := by omega
    have h1 : j ≠ 1 := by omega
    simp [blockPool, descriptor, paddedFs, blockBitmap, wide, smallParams, h0, h1]
  inodes := by
    refine ⟨by decide, fun g hg i h1 h2 => ?_, by decide +kernel, by decide⟩
    obtain rfl : g = 0 := Nat.lt_one_iff.1 hg
    refine bit_padding (n := 8) (k := 1) (by decide) (fun j hj => ?_) h1
    have h0 : j ≠ 0 := by omega
    simp [inodePool, descriptor, paddedFs, inodeBitmap, wide, smallParams, h0]

/-- the last of these requests finds two runs, of one block and of 41 -/
theorem books_kept_padded :
    Runs.Each (serve smallParams) (fun s r => r.Right smallParams s ∧ Books smallParams (serve smallParams s r)) paddedFs
      [.allocateBlocksContiguous 0 5, .allocateInode true, .deallocateBlock 18, .deallocateInode 3 true,
        .allocateBlocksContiguous 30 200] :=
  books_kept paddedFs_books (by decide)
    (by
      intro r hr
      fin_cases hr
      · trivial
      · trivial
      · exact ⟨by decide, by decide⟩
      · exact ⟨by decide, by decide⟩
      · trivial)
    (by
      intro r hr
      fin_cases hr
      · exact (by decide : 0 < 5)
      · trivial
      · trivial
      · trivial
      · exact (by decide : 0 < 200))

/-- a group of 32768 blocks without a free inode; all blocks are free in group `n`, and none in another -/
def fullDescriptor (n g : ℕ) : GroupDescriptor where
  bgBlockBitmap := 200000 + g
  bgInodeBitmap := 400000 + g
  bgInodeTable := 600000 + g
  bgFreeBlocksCount := if g = n then 32768 else 0
  bgFreeBlocksCountHi := 0
  bgFreeInodesCount := 0
  bgUsedDirsCount := 0
  bgBlockBitmapHi := 0
  bgInodeBitmapHi := 0
  bgInodeTableHi := 0
  bgFreeInodesCountHi := 0

/-- `n` groups that are in use, and a free one behind them; blocks of 4096 bytes -/
def fullBefore (n : ℕ) : ExtFileSystem Image where
  device b _ := if b = 200000 + n then 0 else 0xFFFFFFFF
  superblock :=
    { sInodesCount := (n + 1) * 16
      sBlocksCount := (n + 1) * 32768 % 2 ^ 32
      sFreeBlocksCount := 32768
      sFreeBlocksCountHi := 0
      sFreeInodesCount := 0
      sFirstDataBlock := 0
      sBlocksPerGroup := 32768
      sFeatureIncompat := 128
      sBlocksCountHi := (n + 1) * 32768 / 2 ^ 32
      sFeatureRoCompat := 0
      sDescSize := 64 }
  groupDescriptors := (range (n + 1)).map (fullDescriptor n)
  metadataDirty := false

def fullParams : Params := ⟨4096, 16, 256, true⟩

section Full

variable {n : ℕ}

theorem fullBefore_length (n : ℕ) : (fullBefore n).groupDescriptors.length = n + 1 := by
  simp [fullBefore]

theorem fullBefore_descriptor (hg : g < n + 1) : descriptor (fullBefore n) g = fullDescriptor n g := by
  have hlen : g < (fullBefore n).groupDescriptors.length := by rw [fullBefore_length]; exact hg
  rw [descriptor, getD_eq_getElem _ _ hlen]
  simp [fullBefore]

theorem fullBefore_has64bit (n : ℕ) : (fullBefore n).superblock.has64bit = true := by
  change Nat.testBit 128 7 = true
  decide

theorem fullBefore_totalBlocks (n : ℕ) : (fullBefore n).superblock.totalBlocks = (n + 1) * 32768 := by
  rw [Superblock.totalBlocks, if_pos (fullBefore_has64bit n)]
  simp only [fullBefore]
  omega

theorem fullBefore_blocksIn (hg : g < n + 1) : (shape fullParams (fullBefore n)).blocksIn g = 32768 := by
  have hper : (shape fullParams (fullBefore n)).blocksPerGroup = 32768 := rfl
  have htotal : (shape fullParams (fullBefore n)).totalBlocks = (n + 1) * 32768 := fullBefore_totalBlocks n
  have hfirst : (shape fullParams (fullBefore n)).firstDataBlock = 0 := rfl
  rw [Shape.blocksIn, Shape.share, hper, htotal, hfirst]
  omega

theorem fullBefore_bitmap (hg : g < n + 1) :
    (blockPool fullParams (fullBefore n)).bitmap g = fun _ => if g = n then 0 else 0xFFFFFFFF := by
  have hb : (descriptor (fullBefore n) g).blockBitmap fullParams.is64bit = 200000 + g := by
    rw [fullBefore_descriptor hg]
    simp [blockBitmap, wide, fullParams, fullDescriptor]
  funext w
  change (if (descriptor (fullBefore n) g).blockBitmap fullParams.is64bit = 200000 + n then 0 else 0xFFFFFFFF) = _
  rw [hb]
  simp only [Nat.add_left_cancel_iff]

theorem fullBefore_inodeBitmap (hn : n < 200000) (hg : g < n + 1) :
    (inodePool fullParams (fullBefore n)).bitmap g = fun _ => 0xFFFFFFFF := by
  have hb : (descriptor (fullBefore n) g).inodeBitmap fullParams.is64bit = 400000 + g := by
    rw [fullBefore_descriptor hg]
    simp [inodeBitmap, wide, fullParams, fullDescriptor]
  funext w
  change (if (descriptor (fullBefore n) g).inodeBitmap fullParams.is64bit = 200000 + n then 0 else 0xFFFFFFFF) = _
  rw [hb, if_neg (by omega)]

theorem zeros_zero : zeros (fun _ => 0) n = n := by
  have hall : BitPool.clearSet (fun _ => 0) n = Finset.range n := by
    ext i
    rw [BitPool.mem_clearSet, Finset.mem_range]
    simp [bit]
  rw [zeros, hall, Finset.card_range]

theorem fullBefore_books (h13 : 13 ≤ n) (hn : n < 200000) : Books fullParams (fullBefore n) where
  sound := by
    have hbm : (shape fullParams (fullBefore n)).bitmaps = (range (n + 1)).map (200000 + ·) := by
      simp [shape, fullBefore, fullDescriptor, blockBitmap, wide, fullParams, Function.comp_def]
    have hib : (shape fullParams (fullBefore n)).inodeBitmaps = (range (n + 1)).map (400000 + ·) := by
      simp [shape, fullBefore, fullDescriptor, inodeBitmap, wide, fullParams, Function.comp_def]
    have hlen : (shape fullParams (fullBefore n)).bitmaps.length = n + 1 := by
      rw [length_bitmaps, fullBefore_length]
    have htotal : (shape fullParams (fullBefore n)).totalBlocks = (n + 1) * 32768 := fullBefore_totalBlocks n
    have hper : (shape fullParams (fullBefore n)).blocksPerGroup = 32768 := rfl
    have hfirst : (shape fullParams (fullBefore n)).firstDataBlock = 0 := rfl
    have hcount : (shape fullParams (fullBefore n)).inodesCount = (n + 1) * 16 := rfl
    have hinodes : fullParams.inodesPerGroup = 16 := rfl
    constructor
    case blockSize_le => decide
    case wide => exact (fullBefore_has64bit n).symm
    case below =>
      intro b hb
      rw [hbm, hib] at hb
      rcases mem_append.1 hb with h | h
      all_goals
        obtain ⟨g, hg, rfl⟩ := mem_map.1 h
        have := mem_range.1 hg
        omega
    case distinct =>
      rw [hbm, hib]
      refine nodup_append.2 ⟨?_, ?_, ?_⟩
      · exact nodup_range.map fun a b h => by simpa using h
      · exact nodup_range.map fun a b h => by simpa using h
      · intro a ha b hb
        obtain ⟨g, hg, rfl⟩ := mem_map.1 ha
        obtain ⟨g', hg', rfl⟩ := mem_map.1 hb
        have := mem_range.1 hg
        omega
    all_goals simp only [hlen, htotal, hper, hfirst, hcount, hinodes]
    all_goals first | decide | omega
  blocks := by
    have hgroups : (blockPool fullParams (fullBefore n)).groups = n + 1 := fullBefore_length n
    have hcount : ∀ g < n + 1, (blockPool fullParams (fullBefore n)).count g = if g = n then 32768 else 0 := by
      intro g hg
      simp only [blockPool, fullBefore_descriptor hg]
      simp [freeBlocksCount, fullParams, fullDescriptor]
    have hsize : ∀ g < n + 1, (blockPool fullParams (fullBefore n)).size g = 32768 := fun g hg => fullBefore_blocksIn hg
    have hbits : 8 * fullParams.blockSize = 32768 := rfl
    rw [hbits]
    refine ⟨fun g hg => ?_, fun g hg i h1 h2 => ?_, fun g hg => ?_, ?_⟩
    · rw [hsize g (hgroups ▸ hg)]
    · rw [hsize g (hgroups ▸ hg)] at h1
      omega
    · rw [hgroups] at hg
      rw [hcount g hg, fullBefore_bitmap hg]
      by_cases hlast : g = n
      · simp only [if_pos hlast]
        exact zeros_zero.symm
      · simp only [if_neg hlast]
        exact (BitPool.zeros_eq_zero.2 fun i _ => bit_ones rfl).symm
    · rw [hgroups, Finset.sum_congr rfl fun g hg => hcount g (Finset.mem_range.1 hg), Finset.sum_ite_eq',
        if_pos (Finset.mem_range.2 (Nat.lt_succ_self n))]
      change (fullBefore n).superblock.freeBlocks = 32768
      rw [Superblock.freeBlocks, if_pos (fullBefore_has64bit n)]
      simp [fullBefore]
  inodes := by
    have hgroups : (inodePool fullParams (fullBefore n)).groups = n + 1 := fullBefore_length n
    refine ⟨fun g hg => ?_, fun g hg i h1 h2 => ?_, fun g hg => ?_, ?_⟩
    · exact (min_le_left _ _).trans (by decide)
    · rw [hgroups] at hg
      rw [fullBefore_inodeBitmap hn hg]
      exact bit_ones rfl
    · rw [hgroups] at hg
      rw [fullBefore_inodeBitmap hn hg, BitPool.zeros_eq_zero.2 fun i _ => bit_ones rfl]
      simp only [inodePool, fullBefore_descriptor hg]
      simp [freeInodesCount, fullParams, fullDescriptor]
    · rw [hgroups, Finset.sum_eq_zero]
      · rfl
      · intro g hg
        simp only [inodePool, fullBefore_descriptor (Finset.mem_range.1 hg)]
        simp [freeInodesCount, fullParams, fullDescriptor]

theorem fullBefore_allocates (n : ℕ) : ∃ s', allocateBlocksContiguous fullParams ((n + 1) * 32768 - 1) 1
    (fullBefore (n + 1)) = .ok ((n + 1) * 32768 % 2 ^ 32, 1) s' := by
  have hlen := fullBefore_length (n + 1)
  have hmod : ((n + 1) * 32768 - 1 - 0) / 32768 % (n + 1 + 1) = n := by
    have : ((n + 1) * 32768 - 1 - 0) / 32768 = n := by omega
    rw [this, Nat.mod_eq_of_lt (by omega)]
  have hrange : range (n + 1 + 1) = 0 :: 1 :: (range n).map (Nat.succ ∘ Nat.succ) := by
    rw [range_succ_eq_map, range_succ_eq_map, map_cons, map_map]
  have h0 : (n + 0) % (fullBefore (n + 1)).groupDescriptors.length = n := by rw [hlen]; exact Nat.mod_eq_of_lt (by omega)
  have h1 : (n + 1) % (fullBefore (n + 1)).groupDescriptors.length = n + 1 := by rw [hlen]; exact Nat.mod_eq_of_lt (by omega)
  have hbitmap : (fullBefore (n + 1)).device (fullDescriptor (n + 1) (n + 1)).bgBlockBitmap = fun _ => 0 := by
    simp [fullBefore, fullDescriptor]
  have hblocks : groupBlocks (fullBefore (n + 1)).superblock (n + 1 + 1) (n + 1) = 32768 := by
    rw [groupBlocks, if_pos rfl]
    simp only [fullBefore, sub32]
    omega
  have hrun : findRun (fun _ => 0) 32768 1 = some (0, 1) := by decide +kernel
  have hstart : groupStart (fullBefore (n + 1)).superblock (n + 1) + 0 = (n + 1) * 32768 := by
    simp [groupStart, fullBefore]
  have hloop : ∃ s', allocGroups fullParams n 1 (range (n + 1 + 1)) (fullBefore (n + 1)) =
      .ok ((n + 1) * 32768 % 2 ^ 32, 1) s' := by
    -- the group of the preferred block is full
    rw [hrange, allocGroups_cons _ _ h0 (fullBefore_descriptor (by omega)), if_pos (by simp [fullDescriptor]),
      allocGroups_cons _ _ h1 (fullBefore_descriptor (by omega)), if_neg (by simp [fullDescriptor]), hbitmap, hlen, hblocks, hrun]
    dsimp only
    rw [hstart]
    exact ⟨_, rfl⟩
  have hsb0 : (fullBefore (n + 1)).superblock.sFreeBlocksCount = 32768 := rfl
  have hsb1 : (fullBefore (n + 1)).superblock.sFirstDataBlock = 0 := rfl
  have hsb2 : (fullBefore (n + 1)).superblock.sBlocksPerGroup = 32768 := rfl
  have hpref : 0 < (n + 1) * 32768 - 1 := by omega
  simp only [allocateBlocksContiguous, get_bind, hsb0, hsb1, hsb2, hlen, if_pos hpref, hmod]
  exact hloop

theorem fullBefore_blockUsed (n : ℕ) : blockUsed fullParams (fullBefore (n + 1)) 0 = true := by
  have hg : (layout (fullBefore (n + 1))).group 0 = 0 := Nat.zero_div _
  rw [blockUsed, hg, fullBefore_bitmap (by omega)]
  exact bit_ones rfl

theorem fullBefore_wrong (hwrap : (n + 1) * 32768 % 2 ^ 32 = 0) :
    ¬ (Request.allocateBlocksContiguous ((n + 1) * 32768 - 1) 1).Right fullParams (fullBefore (n + 1)) := by
  intro hright
  obtain ⟨s', hs'⟩ := fullBefore_allocates n
  rw [hwrap] at hs'
  rw [Request.Right, hs'] at hright
  obtain ⟨_, _, _, _, _, _, hfree⟩ := hright
  have hused := fullBefore_blockUsed n
  rw [(hfree 0 le_rfl Nat.one_pos).1] at hused
  cases hused

end Full

/-- **Block 0 is handed out.** The first 2 ^ 32 blocks are in use, and the next group is free: its first block has a number
that is 0 in 32 bits, and that is what the request gets. The books are exact, and block 0, which holds the superblock, was in
use. -/
theorem superblock_allocated :
    Books fullParams (fullBefore 131072) ∧ blockUsed fullParams (fullBefore 131072) 0 = true ∧
      (∃ s', allocateBlocksContiguous fullParams 4294967295 1 (fullBefore 131072) = .ok (0, 1) s') ∧
      ¬ (Request.allocateBlocksContiguous 4294967295 1).Right fullParams (fullBefore 131072) := by
  refine ⟨fullBefore_books (by decide) (by decide), fullBefore_blockUsed 131071, ?_, ?_⟩
  · exact fullBefore_allocates 131071
  · exact fullBefore_wrong (n := 131071) (by decide)

end Kontsnor.Ext
