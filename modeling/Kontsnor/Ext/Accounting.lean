/-
The books of the allocator: bitmaps, group counters and superblock counters (`fs/ext/alloc.rs`).

The block bitmaps and their counters are one `BitPool.Pool`, the inode bitmaps and theirs another. `Shape` is what no call
changes. `Books`: the groups cover the blocks and the inodes, every bitmap is a block of its own, and both pools are exact.
-/
import Kontsnor.Core.BitPool
import Kontsnor.Ext.AllocScan
import Kontsnor.Ext.Dealloc

namespace Kontsnor.Ext

open List Function GroupDescriptor Superblock Finset Nat

open BitPool (Pool Exact Changed)
open Fallible (get_bind bind_ok)
open Words (Buffer bit setBit setBits clearBit)

/-! ## Shape and pools -/

/-- what no call changes -/
structure Shape where
  has64bit : Bool
  totalBlocks : ℕ
  firstDataBlock : ℕ
  blocksPerGroup : ℕ
  inodesCount : ℕ
  bitmaps : List ℕ
  inodeBitmaps : List ℕ

def shape (P : Params) (s : ExtFileSystem Image) : Shape where
  has64bit := s.superblock.has64bit
  totalBlocks := s.superblock.totalBlocks
  firstDataBlock := s.superblock.sFirstDataBlock
  blocksPerGroup := s.superblock.sBlocksPerGroup
  inodesCount := s.superblock.sInodesCount
  bitmaps := s.groupDescriptors.map fun gd => gd.blockBitmap P.is64bit
  inodeBitmaps := s.groupDescriptors.map fun gd => gd.inodeBitmap P.is64bit

namespace Shape

/-- the numbers of group `g`, if every group has `per` of the first `n` -/
def share (n per g : ℕ) : ℕ := min per (n - g * per)

def blocksIn (l : Shape) (g : ℕ) : ℕ := share (l.totalBlocks - l.firstDataBlock) l.blocksPerGroup g

/-- the groups cover the blocks and the inodes, and each bitmap is one block of its own -/
structure Sound (P : Params) (l : Shape) : Prop where
  blockSize_le : P.blockSize ≤ 4096
  wide : P.is64bit = l.has64bit
  blocks_pos : 0 < l.blocksPerGroup
  blocks_fit : l.blocksPerGroup ≤ 8 * P.blockSize
  inodes_pos : 0 < P.inodesPerGroup
  inodes_fit : P.inodesPerGroup ≤ 8 * P.blockSize
  lower : l.firstDataBlock + (l.bitmaps.length - 1) * l.blocksPerGroup < l.totalBlocks
  upper : l.totalBlocks ≤ l.firstDataBlock + l.bitmaps.length * l.blocksPerGroup
  inodes_lower : (l.bitmaps.length - 1) * P.inodesPerGroup < l.inodesCount
  inodes_upper : l.inodesCount ≤ l.bitmaps.length * P.inodesPerGroup
  inodes_u32 : l.inodesCount < 2 ^ 32
  below : ∀ b ∈ l.bitmaps ++ l.inodeBitmaps, b < l.totalBlocks
  distinct : (l.bitmaps ++ l.inodeBitmaps).Nodup

theorem sum_share_le {n per k : ℕ} : ∑ g ∈ range k, share n per g ≤ n := by
  have hmin : ∑ g ∈ range k, share n per g ≤ min n (k * per) := by
    induction k with
    | zero => simp
    | succ k ih =>
      have hlast : share n per k = min per (n - k * per) := rfl
      rw [Finset.sum_range_succ, succ_mul]
      omega
  exact hmin.trans (min_le_left _ _)

theorem share_of_lt {n per g k : ℕ} (hlow : (k - 1) * per < n) (hg : g + 1 < k) : share n per g = per := by
  have hle : (g + 1) * per ≤ (k - 1) * per := mul_le_mul_right _ (by omega)
  rw [succ_mul] at hle
  unfold share
  omega

theorem share_last {n per g : ℕ} (hup : n ≤ (g + 1) * per) : share n per g = n - g * per := by
  rw [succ_mul] at hup
  unfold share
  omega

end Shape

def descriptor {D : Type} (s : ExtFileSystem D) (g : ℕ) : GroupDescriptor := s.groupDescriptors.getD g default

variable (P : Params) (s : ExtFileSystem Image)

/-- the block bitmaps and their counters -/
def blockPool : Pool where
  groups := s.groupDescriptors.length
  size := (shape P s).blocksIn
  bitmap g := s.device ((descriptor s g).blockBitmap P.is64bit)
  count g := (descriptor s g).freeBlocksCount P.is64bit
  total := s.superblock.freeBlocks

/-- the inode bitmaps and their counters -/
def inodePool : Pool where
  groups := s.groupDescriptors.length
  size := Shape.share s.superblock.sInodesCount P.inodesPerGroup
  bitmap g := s.device ((descriptor s g).inodeBitmap P.is64bit)
  count g := (descriptor s g).freeInodesCount P.is64bit
  total := s.superblock.sFreeInodesCount

/-- the books are right -/
structure Books : Prop where
  sound : (shape P s).Sound P
  blocks : Exact (8 * P.blockSize) (blockPool P s)
  inodes : Exact (8 * P.blockSize) (inodePool P s)

/-- the two kinds of bitmaps -/
inductive Kind
  | block
  | inode

namespace Kind

def other : Kind → Kind
  | block => inode
  | inode => block

variable (kind : Kind)

def bitmap (gd : GroupDescriptor) : ℕ := match kind with
  | block => gd.blockBitmap P.is64bit
  | inode => gd.inodeBitmap P.is64bit

def free (gd : GroupDescriptor) : ℕ := match kind with
  | block => gd.freeBlocksCount P.is64bit
  | inode => gd.freeInodesCount P.is64bit

def pool : Pool := match kind with
  | block => blockPool P s
  | inode => inodePool P s

theorem pool_groups : (kind.pool P s).groups = s.groupDescriptors.length := by cases kind <;> rfl

theorem pool_bitmap (g : ℕ) : (kind.pool P s).bitmap g = s.device (kind.bitmap P (descriptor s g)) := by cases kind <;> rfl

theorem pool_count (g : ℕ) : (kind.pool P s).count g = kind.free P (descriptor s g) := by cases kind <;> rfl

end Kind

theorem Books.exact {P : Params} {s : ExtFileSystem Image} (h : Books P s) (kind : Kind) :
    Exact (8 * P.blockSize) (kind.pool P s) := by
  cases kind with
  | block => exact h.blocks
  | inode => exact h.inodes

/-! ## What exact books say about the fields the code reads -/

variable {f : GroupDescriptor → ℕ} {n : ℕ}

section Fields

variable {P : Params} {s : ExtFileSystem Image} {g : ℕ}

theorem length_bitmaps (P : Params) (s : ExtFileSystem Image) : (shape P s).bitmaps.length = s.groupDescriptors.length :=
  length_map _

theorem field_mem (hg : g < s.groupDescriptors.length) : f (descriptor s g) ∈ s.groupDescriptors.map f := by
  rw [descriptor, getD_eq_getElem _ _ hg]
  exact mem_map_of_mem (getElem_mem hg)

theorem wide_small {is64bit : Bool} {lo hi : ℕ} (h : wide is64bit lo hi < n) (hn : n ≤ 2 ^ 32) :
    lo = wide is64bit lo hi := by
  unfold wide at h ⊢
  split_ifs at h ⊢ with hw
  · omega
  · rfl

section

variable (h : Books P s)
include h

section

variable (h32 : s.superblock.totalBlocks < 2 ^ 32) (hg : g < s.groupDescriptors.length)
include h32 hg

/-- of the number of a bitmap the code reads the lower half -/
theorem Books.bgBlockBitmap : (descriptor s g).bgBlockBitmap = (descriptor s g).blockBitmap P.is64bit :=
  wide_small (h.sound.below _ (mem_append_left _ (field_mem hg))) h32.le

theorem Books.bgInodeBitmap : (descriptor s g).bgInodeBitmap = (descriptor s g).inodeBitmap P.is64bit :=
  wide_small (h.sound.below _ (mem_append_right _ (field_mem hg))) h32.le

end

theorem Books.count_le {pool : Pool} (hex : Exact (8 * P.blockSize) pool) (hg : g < pool.groups) :
    pool.count g ≤ 32768 := by
  have h1 := hex.count_le hg
  have h2 := hex.fits g hg
  have := h.sound.blockSize_le
  omega

section

variable (hg : g < s.groupDescriptors.length)
include hg

theorem Books.blocks_count_le : (descriptor s g).freeBlocksCount P.is64bit ≤ 32768 := h.count_le h.blocks hg

theorem Books.inodes_count_le : (descriptor s g).freeInodesCount P.is64bit ≤ 32768 := h.count_le h.inodes hg

theorem Books.bgFreeBlocksCount : (descriptor s g).bgFreeBlocksCount = (descriptor s g).freeBlocksCount P.is64bit := by
  have hle := h.blocks_count_le hg
  unfold freeBlocksCount at hle ⊢
  split_ifs at hle ⊢ with hw
  · omega
  · rfl

theorem Books.bgFreeInodesCount : (descriptor s g).bgFreeInodesCount = (descriptor s g).freeInodesCount P.is64bit := by
  have hle := h.inodes_count_le hg
  unfold freeInodesCount at hle ⊢
  split_ifs at hle ⊢ with hw
  · omega
  · rfl

end

end

theorem Books.sBlocksCount (h32 : s.superblock.totalBlocks < 2 ^ 32) :
    s.superblock.sBlocksCount = s.superblock.totalBlocks := by
  unfold totalBlocks at h32 ⊢
  split_ifs at h32 ⊢ with hw
  · omega
  · rfl

section

variable (h : Books P s)
include h

theorem Books.freeBlocks_le : s.superblock.freeBlocks ≤ s.superblock.totalBlocks := by
  have htotal : s.superblock.freeBlocks = ∑ g ∈ range (blockPool P s).groups, (blockPool P s).count g :=
    h.blocks.total
  calc s.superblock.freeBlocks = ∑ g ∈ range (blockPool P s).groups, (blockPool P s).count g := htotal
    _ ≤ ∑ g ∈ range (blockPool P s).groups, (shape P s).blocksIn g :=
      Finset.sum_le_sum fun g hg => h.blocks.count_le (Finset.mem_range.1 hg)
    _ ≤ s.superblock.totalBlocks - s.superblock.sFirstDataBlock := Shape.sum_share_le
    _ ≤ s.superblock.totalBlocks := sub_le _ _

theorem Books.sFreeBlocksCount (h32 : s.superblock.totalBlocks < 2 ^ 32) :
    s.superblock.sFreeBlocksCount = s.superblock.freeBlocks := by
  have hle := h.freeBlocks_le.trans_lt h32
  unfold freeBlocks at hle ⊢
  split_ifs at hle ⊢ with hw
  · omega
  · rfl

theorem Books.groups_pos : 0 < s.groupDescriptors.length := by
  have h1 := h.sound.lower
  have h2 := h.sound.upper
  rw [length_bitmaps] at h1 h2
  by_contra h0
  have hz : s.groupDescriptors.length = 0 := by omega
  rw [hz] at h1 h2
  omega

theorem Books.groupBlocks_eq (h32 : s.superblock.totalBlocks < 2 ^ 32) (hg : g < s.groupDescriptors.length) :
    groupBlocks s.superblock s.groupDescriptors.length g = (shape P s).blocksIn g := by
  have hlow := h.sound.lower
  have hup := h.sound.upper
  rw [length_bitmaps] at hlow hup
  have hbc := Books.sBlocksCount h32
  change s.superblock.sFirstDataBlock + (s.groupDescriptors.length - 1) * s.superblock.sBlocksPerGroup
    < s.superblock.totalBlocks at hlow
  change s.superblock.totalBlocks ≤
    s.superblock.sFirstDataBlock + s.groupDescriptors.length * s.superblock.sBlocksPerGroup at hup
  change _ = Shape.share (s.superblock.totalBlocks - s.superblock.sFirstDataBlock) s.superblock.sBlocksPerGroup g
  unfold groupBlocks
  split_ifs with hlast
  · rw [← hlast, Nat.add_sub_cancel] at hlow
    rw [← hlast] at hup
    rw [Shape.share_last (by omega), hbc]
    unfold sub32
    omega
  · rw [Shape.share_of_lt (k := s.groupDescriptors.length) (by omega) (by omega)]

theorem Books.groupInodes_eq (hg : g < s.groupDescriptors.length) :
    groupInodes P s.superblock s.groupDescriptors.length g = (inodePool P s).size g := by
  have hlow := h.sound.inodes_lower
  have hup := h.sound.inodes_upper
  have hu := h.sound.inodes_u32
  rw [length_bitmaps] at hlow hup
  change (s.groupDescriptors.length - 1) * P.inodesPerGroup < s.superblock.sInodesCount at hlow
  change s.superblock.sInodesCount ≤ s.groupDescriptors.length * P.inodesPerGroup at hup
  change s.superblock.sInodesCount < 2 ^ 32 at hu
  change _ = Shape.share s.superblock.sInodesCount P.inodesPerGroup g
  unfold groupInodes
  split_ifs with hlast
  · rw [← hlast, Nat.add_sub_cancel] at hlow
    rw [← hlast] at hup
    rw [Shape.share_last hup]
    unfold sub32
    omega
  · rw [Shape.share_of_lt hlow (by omega)]

end

theorem field_inj (hnd : (s.groupDescriptors.map f).Nodup) {g' : ℕ}
    (hg : g < s.groupDescriptors.length) (hg' : g' < s.groupDescriptors.length)
    (he : f (descriptor s g) = f (descriptor s g')) : g = g' := by
  rw [descriptor, descriptor, getD_eq_getElem _ _ hg, getD_eq_getElem _ _ hg', ← getElem_map f, ← getElem_map f] at he
  · exact (Nodup.getElem_inj_iff hnd).1 he
  · rwa [length_map]
  · rwa [length_map]

section

variable (h : Books P s) {kind : Kind} {g' : ℕ} (hg : g < s.groupDescriptors.length) (hg' : g' < s.groupDescriptors.length)
include h hg hg'

theorem Books.bitmap_inj (he : kind.bitmap P (descriptor s g) = kind.bitmap P (descriptor s g')) : g = g' := by
  cases kind with
  | block => exact field_inj (nodup_append.1 h.sound.distinct).1 hg hg' he
  | inode => exact field_inj (nodup_append.1 h.sound.distinct).2.1 hg hg' he

theorem Books.bitmaps_disjoint : kind.bitmap P (descriptor s g) ≠ kind.other.bitmap P (descriptor s g') := by
  have hdisjoint := (nodup_append.1 h.sound.distinct).2.2
  cases kind with
  | block => exact hdisjoint _ (field_mem hg) _ (field_mem hg')
  | inode => exact (hdisjoint _ (field_mem hg') _ (field_mem hg)).symm

end

end Fields

/-! ## Changes of the books -/

variable {i : ℕ}

section Changes

variable {P : Params} {s s' : ExtFileSystem Image} {g : ℕ}

section

variable (hs : shape P s' = shape P s)
include hs

theorem groups_of_shape : s'.groupDescriptors.length = s.groupDescriptors.length := by
  rw [← length_bitmaps P s', hs, length_bitmaps]

theorem field_of_list (hf : s'.groupDescriptors.map f = s.groupDescriptors.map f) (hg : g < s.groupDescriptors.length) :
    f (descriptor s' g) = f (descriptor s g) := by
  have hg' : g < s'.groupDescriptors.length := by rw [groups_of_shape hs]; exact hg
  have hat := congrArg (·[g]?) hf
  simpa [descriptor, getD_eq_getElem _ _ hg, getD_eq_getElem _ _ hg', getElem?_eq_getElem hg,
    getElem?_eq_getElem hg'] using hat

variable {kind : Kind}

theorem bitmap_of_shape (hg : g < s.groupDescriptors.length) :
    kind.bitmap P (descriptor s' g) = kind.bitmap P (descriptor s g) := by
  cases kind with
  | block => exact field_of_list hs (congrArg Shape.bitmaps hs) hg
  | inode => exact field_of_list hs (congrArg Shape.inodeBitmaps hs) hg

theorem size_of_shape : (kind.pool P s').size = (kind.pool P s).size := by
  cases kind with
  | block => exact congrArg Shape.blocksIn hs
  | inode => exact congrArg (fun l : Shape => Shape.share l.inodesCount P.inodesPerGroup) hs

end

/-- the state after a bitmap of group `g` was written and its counter moved -/
structure Step (P : Params) (kind : Kind) (s s' : ExtFileSystem Image) (g : ℕ) (buf : Buffer) : Prop where
  same : shape P s' = shape P s
  device : s'.device = update s.device (kind.bitmap P (descriptor s g)) buf
  others : ∀ g' ≠ g, kind.free P (descriptor s' g') = kind.free P (descriptor s g')
  rest : ∀ g', kind.other.free P (descriptor s' g') = kind.other.free P (descriptor s g')
  total : (kind.other.pool P s').total = (kind.other.pool P s).total

variable {buf : Buffer} {kind : Kind}

namespace Step

section

variable (st : Step P kind s s' g buf) (h : Books P s) (hg : g < s.groupDescriptors.length)
include st hg

theorem bitmap : (kind.pool P s').bitmap g = buf := by
  rw [Kind.pool_bitmap, bitmap_of_shape st.same hg, st.device, update_self]

include h

theorem changed : Changed (kind.pool P s) (kind.pool P s') g where
  groups := by rw [Kind.pool_groups, Kind.pool_groups, groups_of_shape st.same]
  size g' _ := congrFun (size_of_shape st.same) g'
  bitmap g' hg' hne := by
    rw [Kind.pool_groups] at hg'
    rw [Kind.pool_bitmap, Kind.pool_bitmap, bitmap_of_shape st.same hg', st.device, update_of_ne]
    exact fun he => hne (h.bitmap_inj hg' hg he)
  count g' _ hne := by
    rw [Kind.pool_count, Kind.pool_count]
    exact st.others g' hne

theorem books (hex : Exact (8 * P.blockSize) (kind.pool P s')) : Books P s' := by
  have hsound : (shape P s').Sound P := by
    rw [st.same]
    exact h.sound
  have hrest : Exact (8 * P.blockSize) (kind.other.pool P s') := by
    refine (h.exact kind.other).congr ?_ (fun g' _ => congrFun (size_of_shape st.same) g') (fun g' hg' => ?_)
      (fun g' _ => ?_) st.total
    · rw [Kind.pool_groups, Kind.pool_groups, groups_of_shape st.same]
    · rw [Kind.pool_groups] at hg'
      rw [Kind.pool_bitmap, Kind.pool_bitmap, bitmap_of_shape st.same hg', st.device, update_of_ne]
      exact (h.bitmaps_disjoint hg hg').symm
    · rw [Kind.pool_count, Kind.pool_count]
      exact st.rest g'
  cases kind with
  | block => exact ⟨hsound, hex, hrest⟩
  | inode => exact ⟨hsound, hrest, hex⟩

end

/-- the descriptor of the group and the counters of the superblock change -/
theorem of_modify {d : GroupDescriptor → GroupDescriptor} {sb : Superblock} {block : ℕ} {dirty : Bool}
    (hblock : block = kind.bitmap P (descriptor s g)) (hd : ∀ gd (kind' : Kind), kind'.bitmap P (d gd) = kind'.bitmap P gd)
    (hrest : ∀ gd, kind.other.free P (d gd) = kind.other.free P gd)
    (hsb : shape P { s with superblock := sb } = shape P s)
    (htotal : (kind.other.pool P { s with superblock := sb }).total = (kind.other.pool P s).total) :
    Step P kind s ⟨update s.device block buf, sb, s.groupDescriptors.modify g d, dirty⟩ g buf where
  same := by
    rw [← hsb]
    simp only [shape]
    rw [map_modify_of_eq (f := (·.blockBitmap P.is64bit)) fun gd => hd gd .block,
      map_modify_of_eq (f := (·.inodeBitmap P.is64bit)) fun gd => hd gd .inode]
  device := by rw [hblock]
  others g' hne := by
    simp only [descriptor]
    rw [getD_modify, if_neg fun he => hne he.1.symm]
  rest g' := by
    simp only [descriptor]
    rw [getD_modify]
    split_ifs
    · exact hrest _
    · rfl
  total := by
    rw [← htotal]
    cases kind <;> rfl

end Step

variable {is64bit : Bool} {gd : GroupDescriptor}

theorem freeBlocksCount_set (hn : n < 2 ^ 16) : (gd.setFreeBlocksCount is64bit n).freeBlocksCount is64bit = n := by
  unfold freeBlocksCount setFreeBlocksCount
  cases is64bit <;> simp <;> omega

theorem freeBlocksCount_succ (h : gd.freeBlocksCount is64bit ≤ 32768) :
    ({ gd with bgFreeBlocksCount := (gd.bgFreeBlocksCount + 1) % 2 ^ 16 } : GroupDescriptor).freeBlocksCount is64bit =
      gd.freeBlocksCount is64bit + 1 := by
  unfold freeBlocksCount at h ⊢
  cases is64bit <;> simp at h ⊢ <;> omega

theorem freeInodesCount_pred (h : gd.freeInodesCount is64bit ≤ 32768) :
    ({ gd with bgFreeInodesCount := gd.bgFreeInodesCount - 1, bgUsedDirsCount := n } : GroupDescriptor).freeInodesCount
      is64bit = gd.freeInodesCount is64bit - 1 := by
  unfold freeInodesCount at h ⊢
  cases is64bit
  · simp
  · simp at h ⊢
    omega

theorem freeInodesCount_succ (h : gd.freeInodesCount is64bit ≤ 32768) :
    ({ gd with bgFreeInodesCount := (gd.bgFreeInodesCount + 1) % 2 ^ 16, bgUsedDirsCount := n } :
      GroupDescriptor).freeInodesCount is64bit = gd.freeInodesCount is64bit + 1 := by
  unfold freeInodesCount at h ⊢
  cases is64bit <;> simp at h ⊢ <;> omega

theorem freeBlocks_succ {sb : Superblock} (h : sb.freeBlocks + 1 < 2 ^ 32) :
    ({ sb with sFreeBlocksCount := add32 sb.sFreeBlocksCount 1 } : Superblock).freeBlocks = sb.freeBlocks + 1 := by
  have hw : ({ sb with sFreeBlocksCount := add32 sb.sFreeBlocksCount 1 } : Superblock).has64bit = sb.has64bit := rfl
  unfold freeBlocks at h ⊢
  rw [hw]
  unfold add32
  cases hb : sb.has64bit <;> simp [hb] at h ⊢ <;> omega

theorem freeBlocks_set {sb : Superblock} (hn : n < 2 ^ 32) : (sb.setFreeBlocks n).freeBlocks = n := by
  have hw : (sb.setFreeBlocks n).has64bit = sb.has64bit := rfl
  unfold freeBlocks
  rw [hw]
  unfold setFreeBlocks
  cases sb.has64bit <;> simp <;> omega

/-- writing the bitmap of a group through the lower half of its number -/
def writeBitmap (s : ExtFileSystem Image) (block : ℕ) (buf : Buffer) : ExtFileSystem Image :=
  { s with device := update s.device block buf }

section Steps

variable (h : Books P s) (h32 : s.superblock.totalBlocks < 2 ^ 32) (hg : g < s.groupDescriptors.length)

include h h32 hg

theorem step_takeBlocks (k : ℕ) (buf : Buffer) :
    Step P .block s (takeBlocks P g k (writeBitmap s (descriptor s g).bgBlockBitmap buf)) g buf :=
  .of_modify (h.bgBlockBitmap h32 hg) (fun _ kind => by cases kind <;> rfl) (fun _ => rfl) rfl rfl

theorem Books.takeBlocks {start k : ℕ} (hfree : FreeRun ((blockPool P s).bitmap g) start k) (hin : start + k ≤ (shape P s).blocksIn g) :
    Books P (takeBlocks P g k (writeBitmap s (descriptor s g).bgBlockBitmap (setBits ((blockPool P s).bitmap g) start k))) := by
  have st := step_takeBlocks h h32 hg k (setBits ((blockPool P s).bitmap g) start k)
  refine st.books h hg (h.blocks.take hg (st.changed h hg) hfree hin (st.bitmap hg) ?_ ?_)
  · have hle := h.blocks_count_le hg
    simp only [Kind.pool, blockPool, descriptor, Ext.takeBlocks, writeBitmap]
    rw [getD_modify, if_pos ⟨rfl, hg⟩]
    exact freeBlocksCount_set ((sub_le _ _).trans_lt (lt_of_le_of_lt hle (by decide)))
  · have hle := h.freeBlocks_le
    exact freeBlocks_set (by simp only [writeBitmap]; omega)

theorem step_giveBlock (buf : Buffer) :
    Step P .block s (giveBlock g (writeBitmap s (descriptor s g).bgBlockBitmap buf)) g buf :=
  .of_modify (h.bgBlockBitmap h32 hg) (fun _ kind => by cases kind <;> rfl) (fun _ => rfl) rfl rfl

theorem Books.giveBlock (hset : bit ((blockPool P s).bitmap g) i = true) (hin : i < (shape P s).blocksIn g) :
    Books P (giveBlock g (writeBitmap s (descriptor s g).bgBlockBitmap (clearBit ((blockPool P s).bitmap g) i))) := by
  have st := step_giveBlock h h32 hg (clearBit ((blockPool P s).bitmap g) i)
  refine st.books h hg (h.blocks.give hg (st.changed h hg) hset hin (st.bitmap hg) ?_ ?_)
  · have hle := h.blocks_count_le hg
    simp only [Kind.pool, blockPool, descriptor, Ext.giveBlock, writeBitmap]
    rw [getD_modify, if_pos ⟨rfl, hg⟩]
    exact freeBlocksCount_succ hle
  · have hlt : s.superblock.freeBlocks < s.superblock.totalBlocks :=
      h.blocks.total_lt hg hset hin (Shape.sum_share_le.trans (sub_le _ _))
    exact freeBlocks_succ (by simp only [writeBitmap]; omega)

section

variable (isDir : Bool) (buf : Buffer)

theorem step_takeInode :
    Step P .inode s (takeInode g isDir (writeBitmap s (descriptor s g).bgInodeBitmap buf)) g buf :=
  .of_modify (h.bgInodeBitmap h32 hg) (fun _ kind => by cases kind <;> rfl) (fun _ => rfl) rfl rfl

theorem Books.takeInode (hfree : bit ((inodePool P s).bitmap g) i = false) (hin : i < (inodePool P s).size g) :
    Books P (takeInode g isDir
      (writeBitmap s (descriptor s g).bgInodeBitmap (setBit ((inodePool P s).bitmap g) i))) := by
  have st := step_takeInode h h32 hg isDir (setBit ((inodePool P s).bitmap g) i)
  have hrun : ∀ j, i ≤ j → j < i + 1 → bit ((inodePool P s).bitmap g) j = false := by
    intro j h1 h2
    have : j = i := by omega
    rw [this]; exact hfree
  refine st.books h hg (h.inodes.take hg (st.changed h hg) hrun hin (st.bitmap hg) ?_ rfl)
  simp only [Kind.pool, inodePool, descriptor, Ext.takeInode, writeBitmap]
  rw [getD_modify, if_pos ⟨rfl, hg⟩]
  exact freeInodesCount_pred (h.inodes_count_le hg)

theorem step_giveInode :
    Step P .inode s (giveInode g isDir (writeBitmap s (descriptor s g).bgInodeBitmap buf)) g buf :=
  .of_modify (h.bgInodeBitmap h32 hg) (fun _ kind => by cases kind <;> rfl) (fun _ => rfl) rfl rfl

theorem Books.giveInode (hset : bit ((inodePool P s).bitmap g) i = true) (hin : i < (inodePool P s).size g) :
    Books P (giveInode g isDir
      (writeBitmap s (descriptor s g).bgInodeBitmap (clearBit ((inodePool P s).bitmap g) i))) := by
  have st := step_giveInode h h32 hg isDir (clearBit ((inodePool P s).bitmap g) i)
  refine st.books h hg (h.inodes.give hg (st.changed h hg) hset hin (st.bitmap hg) ?_ ?_)
  · simp only [Kind.pool, inodePool, descriptor, Ext.giveInode, writeBitmap]
    rw [getD_modify, if_pos ⟨rfl, hg⟩]
    exact freeInodesCount_succ (h.inodes_count_le hg)
  · have hlt : s.superblock.sFreeInodesCount < s.superblock.sInodesCount :=
      h.inodes.total_lt hg hset hin Shape.sum_share_le
    have hu : s.superblock.sInodesCount < 2 ^ 32 := h.sound.inodes_u32
    simp only [Kind.pool, inodePool, Ext.giveInode, writeBitmap, add32]
    omega

end

end Steps

end Changes

/-! ## The loops over the groups -/

section Loops

variable {P : Params} {s : ExtFileSystem Image}

/-- the state after `k` blocks from bit `start` of group `g` on were handed out -/
def blocksTaken (P : Params) (s : ExtFileSystem Image) (g start k : ℕ) : ExtFileSystem Image :=
  takeBlocks P g k (writeBitmap s (descriptor s g).bgBlockBitmap (setBits ((blockPool P s).bitmap g) start k))

/-- the loop takes a free run of some group, or every group it visits is full -/
theorem allocGroups_books (h : Books P s) (h32 : s.superblock.totalBlocks < 2 ^ 32) {requested : ℕ} (hreq : 0 < requested)
    (startGroup : ℕ) (offsets : List ℕ) :
    (∃ g < s.groupDescriptors.length, ∃ start k, 0 < k ∧ k ≤ requested ∧ FreeRun ((blockPool P s).bitmap g) start k ∧
      start + k ≤ (shape P s).blocksIn g ∧
      allocGroups P startGroup requested offsets s =
        .ok ((groupStart s.superblock g + start) % 2 ^ 32, k) (blocksTaken P s g start k)) ∨
    (∃ e, allocGroups P startGroup requested offsets s = .error e s) ∧
      ∀ o ∈ offsets, (blockPool P s).count ((startGroup + o) % s.groupDescriptors.length) = 0 := by
  induction offsets with
  | nil => exact .inr ⟨⟨_, rfl⟩, by simp⟩
  | cons o rest ih =>
    have hg : (startGroup + o) % s.groupDescriptors.length < s.groupDescriptors.length := mod_lt _ h.groups_pos
    set g := (startGroup + o) % s.groupDescriptors.length with hgdef
    have hlo := h.bgFreeBlocksCount hg
    rw [allocGroups_cons P s hgdef.symm (rfl : _ = descriptor s g)]
    by_cases hzero : (descriptor s g).bgFreeBlocksCount = 0
    · rw [if_pos hzero]
      rcases ih with htaken | ⟨herr, hnone⟩
      · exact .inl htaken
      · refine .inr ⟨herr, fun o' ho' => ?_⟩
        rcases mem_cons.1 ho' with rfl | hmem
        · exact hlo.symm.trans hzero
        · exact hnone o' hmem
    · -- the counter says that there is a free block, so the scan finds a run
      obtain ⟨i, hi, hbit⟩ := h.blocks.free_of_count hg (fun hc => hzero (hlo.trans hc))
      have hbm := h.bgBlockBitmap h32 hg
      have hbuf : s.device (descriptor s g).bgBlockBitmap = (blockPool P s).bitmap g := by rw [hbm]; rfl
      obtain ⟨⟨start, n⟩, hrun⟩ := findRun_complete requested hi hbit
      obtain ⟨hpos, hend, hfr⟩ := findRun_spec hrun
      rw [if_neg hzero, hbuf, h.groupBlocks_eq h32 hg, show findRun _ ((shape P s).blocksIn g) requested = _ from hrun]
      have hmin : start + min n requested ≤ start + n := Nat.add_le_add_left (min_le_left _ _) _
      refine .inl ⟨g, hg, start, min n requested, lt_min hpos hreq, min_le_right _ _, fun j h1 h2 => ?_, ?_, rfl⟩
      · exact hfr j h1 (h2.trans_le hmin)
      · exact hmin.trans hend

/-- the state after inode bit `i` of group `g` was handed out -/
def inodeTaken (P : Params) (s : ExtFileSystem Image) (g i : ℕ) (isDir : Bool) : ExtFileSystem Image :=
  takeInode g isDir (writeBitmap s (descriptor s g).bgInodeBitmap (setBit ((inodePool P s).bitmap g) i))

theorem allocInodeGroups_books (h : Books P s) (h32 : s.superblock.totalBlocks < 2 ^ 32) (isDir : Bool) {groups : List ℕ}
    (hgroups : ∀ g ∈ groups, g < s.groupDescriptors.length) :
    (∃ g < s.groupDescriptors.length, ∃ i < (inodePool P s).size g, bit ((inodePool P s).bitmap g) i = false ∧
      allocInodeGroups P isDir groups s = .ok ((g * P.inodesPerGroup + i + 1) % 2 ^ 32) (inodeTaken P s g i isDir)) ∨
    (∃ e, allocInodeGroups P isDir groups s = .error e s) ∧ ∀ g ∈ groups, (inodePool P s).count g = 0 := by
  induction groups with
  | nil => exact .inr ⟨⟨_, rfl⟩, by simp⟩
  | cons g rest ih =>
    have hg : g < s.groupDescriptors.length := hgroups g (mem_cons_self ..)
    have hlo := h.bgFreeInodesCount hg
    rw [allocInodeGroups, get_bind, ← descriptor]
    by_cases hzero : (descriptor s g).bgFreeInodesCount = 0
    · rw [if_pos hzero]
      rcases ih fun g' hg' => hgroups g' (mem_cons_of_mem _ hg') with htaken | ⟨herr, hnone⟩
      · exact .inl htaken
      · refine .inr ⟨herr, fun g' hg' => ?_⟩
        rcases mem_cons.1 hg' with rfl | hmem
        · exact hlo.symm.trans hzero
        · exact hnone g' hmem
    · obtain ⟨j, hj, hbit⟩ := h.inodes.free_of_count hg (fun hc => hzero (hlo.trans hc))
      have hbm := h.bgInodeBitmap h32 hg
      have hbuf : s.device (descriptor s g).bgInodeBitmap = (inodePool P s).bitmap g := by rw [hbm]; rfl
      obtain ⟨i, hfound⟩ := findInode_complete hj hbit
      obtain ⟨hlt, hclear⟩ := clearLoop_spec hfound
      have hread : attempt (readBlocks (descriptor s g).bgInodeBitmap) s =
        .ok (some ((inodePool P s).bitmap g)) s := by rw [← hbuf]; rfl
      have hfind : findInode ((inodePool P s).bitmap g)
          (groupInodes P s.superblock s.groupDescriptors.length g) = some i := by
        rw [h.groupInodes_eq hg]; exact hfound
      rw [if_neg hzero, bind_ok hread]
      simp only [hfind]
      exact .inl ⟨g, hg, i, hlt, hclear, rfl⟩

end Loops

end Kontsnor.Ext
