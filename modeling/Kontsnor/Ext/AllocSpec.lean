/-
What the block allocator does, over a device that does not fail.

`Layout` is the part of the state that allocation never changes: the geometry and where each group keeps its bitmap
and its inode table. `used` reads the bitmap bit of a block. `Layout.Sound` says that the groups cover the blocks, that
no two groups share a bitmap block, and that a group has no more blocks than its bitmap has bits.
-/
import Mathlib.Data.List.GetD
import Kontsnor.Core.Fallible
import Kontsnor.Ext.Alloc

namespace Kontsnor.Ext

open List Function Nat

open Fallible (get_bind modify_bind bind_ok)
open Words (Buffer bit setBits bit_setBits)

/-! ## The scan of a bitmap -/

/-- the blocks `start .. start + n` are free -/
def FreeRun (bitmap : Buffer) (start n : ℕ) : Prop := ∀ j, start ≤ j → j < start + n → bit bitmap j = false

/-- the scan at bit `i`: the current run ends at `i`, the best one before -/
structure ScanInv (bitmap : Buffer) (i : ℕ) (s : Scan) : Prop where
  noCurr : s.currStart = none → s.currLen = 0
  curr : ∀ st, s.currStart = some st → st + s.currLen = i ∧ FreeRun bitmap st s.currLen
  noBest : s.bestStart = none → s.bestLen = 0
  best : ∀ st, s.bestStart = some st → st + s.bestLen ≤ i ∧ FreeRun bitmap st s.bestLen

section

variable {bitmap : Buffer} {i : ℕ} {s : Scan} (h : ScanInv bitmap i s)
include h

theorem ScanInv.best_le {k : ℕ} (hik : i ≤ k) (st : ℕ) (hst : s.bestStart = some st) :
    st + s.bestLen ≤ k ∧ FreeRun bitmap st s.bestLen :=
  (h.best st hst).imp_left fun hle => hle.trans hik

theorem ScanInv.extend (hb : bit bitmap i = false) : ScanInv bitmap (i + 1) (s.extend i) := by
  cases hc : s.currStart with
  | none =>
    have he : s.extend i = { s with currStart := some i, currLen := 1 } := by simp [Scan.extend, hc]
    rw [he]
    refine ⟨by simp, fun st hst => ?_, h.noBest, h.best_le (le_succ i)⟩
    cases hst
    refine ⟨rfl, fun j h1 h2 => ?_⟩
    have : j = i := by simp only at h2; omega
    rw [this]; exact hb
  | some st =>
    have he : s.extend i = { s with currLen := s.currLen + 1 } := by simp [Scan.extend, hc]
    obtain ⟨hend, hfree⟩ := h.curr st hc
    rw [he]
    refine ⟨by simp [hc], fun st' hst' => ?_, h.noBest, h.best_le (le_succ i)⟩
    have hst : st' = st := by simpa [hc] using hst'.symm
    subst hst
    refine ⟨by simp only; omega, fun j h1 h2 => ?_⟩
    rcases lt_or_ge j i with hj | hj
    · exact hfree j h1 (by omega)
    · have : j = i := by simp only at h2; omega
      rw [this]; exact hb

theorem ScanInv.keepBest : ScanInv bitmap i s.keepBest := by
  unfold Scan.keepBest
  split_ifs with hlt
  · refine ⟨h.noCurr, h.curr, h.noCurr, fun st hst => ?_⟩
    obtain ⟨h1, h2⟩ := h.curr st hst
    exact ⟨h1.le, h2⟩
  · exact h

theorem ScanInv.drop {k : ℕ} (hik : i ≤ k) : ScanInv bitmap k { s with currStart := none, currLen := 0 } where
  noCurr _ := rfl
  curr st hst := by cases hst
  noBest := h.noBest
  best := h.best_le hik

end

theorem scanLoop_inv {bitmap : Buffer} {groupBlocks : ℕ} (requested fuel i : ℕ) {s : Scan} (h : ScanInv bitmap i s)
    (hi : i ≤ groupBlocks) :
    ∃ k ≤ groupBlocks, ScanInv bitmap k (scanLoop bitmap groupBlocks requested fuel i s) := by
  induction fuel generalizing i s with
  | zero => exact ⟨i, hi, h⟩
  | succ fuel ih =>
    unfold scanLoop
    split_ifs with hlt hskip hfree hdone
    · -- a chunk of 64 used blocks, skipped between two runs
      obtain ⟨hnone, hle, _, _⟩ := hskip
      have hdrop := h.drop (k := i + 64) (by omega)
      have hs : ({ s with currStart := none, currLen := 0 } : Scan) = s := by
        rw [← hnone, ← h.noCurr hnone]
      rw [hs] at hdrop
      exact ih (i + 64) hdrop hle
    · -- the run is as long as requested
      have hext := h.extend hfree
      refine ⟨i + 1, hlt, hext.noCurr, hext.curr, hext.noCurr, fun st hst => ?_⟩
      obtain ⟨h1, h2⟩ := hext.curr st hst
      exact ⟨h1.le, h2⟩
    · exact ih (i + 1) (h.extend hfree) hlt
    · exact ih (i + 1) (h.keepBest.drop (by omega)) hlt
    · exact ⟨i, hi, h⟩

/-- **What a scan finds is inside the group and free.** -/
theorem findRun_spec {bitmap : Buffer} {groupBlocks requested start n : ℕ}
    (h : findRun bitmap groupBlocks requested = some (start, n)) :
    0 < n ∧ start + n ≤ groupBlocks ∧ FreeRun bitmap start n := by
  have hinit : ScanInv bitmap 0 ⟨none, 0, none, 0⟩ := ⟨by simp, by simp, by simp, by simp⟩
  obtain ⟨k, hk, hinv⟩ := scanLoop_inv requested groupBlocks 0 hinit (zero_le groupBlocks)
  have hbest := hinv.keepBest
  simp only [findRun] at h
  split at h
  · rename_i st hst
    split_ifs at h with hpos
    cases h
    obtain ⟨h1, h2⟩ := hbest.best _ hst
    exact ⟨hpos, h1.trans hk, h2⟩
  · cases h

/-! ## Blocks and their bits -/

/-- the group of an inode, and its bit in the group's bitmap -/
def inodeGroup (P : Params) (ino : ℕ) : ℕ := (ino - 1) / P.inodesPerGroup

def inodeIndex (P : Params) (ino : ℕ) : ℕ := (ino - 1) % P.inodesPerGroup

/-- what allocation never changes -/
structure Layout where
  blocksCount : ℕ
  firstDataBlock : ℕ
  blocksPerGroup : ℕ
  bitmaps : List ℕ
  inodeBitmaps : List ℕ
  inodeTables : List ℕ
deriving DecidableEq, Repr

def layout {D : Type} (s : ExtFileSystem D) : Layout where
  blocksCount := s.superblock.sBlocksCount
  firstDataBlock := s.superblock.sFirstDataBlock
  blocksPerGroup := s.superblock.sBlocksPerGroup
  bitmaps := s.groupDescriptors.map GroupDescriptor.bgBlockBitmap
  inodeBitmaps := s.groupDescriptors.map GroupDescriptor.bgInodeBitmap
  inodeTables := s.groupDescriptors.map GroupDescriptor.bgInodeTable

namespace Layout

variable (l : Layout) (b : ℕ)

/-- the group of a block, and its bit in the group's bitmap -/
def group : ℕ := (b - l.firstDataBlock) / l.blocksPerGroup

def index : ℕ := (b - l.firstDataBlock) % l.blocksPerGroup

def bitmap (g : ℕ) : ℕ := l.bitmaps.getD g 0

def Data : Prop := l.firstDataBlock ≤ b ∧ b < l.blocksCount

def used (d : Image) (b : ℕ) : Bool := bit (d (l.bitmap (l.group b))) (l.index b)

/-- the groups cover the blocks, each with a bitmap of its own that is large enough -/
structure Sound (blockSize : ℕ) : Prop where
  perGroup_pos : 0 < l.blocksPerGroup
  perGroup_le : l.blocksPerGroup ≤ 8 * blockSize
  lower : l.firstDataBlock + (l.bitmaps.length - 1) * l.blocksPerGroup < l.blocksCount
  upper : l.blocksCount ≤ l.firstDataBlock + l.bitmaps.length * l.blocksPerGroup
  u32 : l.blocksCount < 2 ^ 32
  distinct : l.bitmaps.Nodup

variable {l : Layout} {blockSize : ℕ}

theorem Sound.groups_pos (h : l.Sound blockSize) : 0 < l.bitmaps.length := by
  by_contra h0
  have h1 := h.lower; have h2 := h.upper
  have : l.bitmaps.length = 0 := by omega
  rw [this] at h1 h2
  omega

theorem group_index {b g r : ℕ} (hb : b = l.firstDataBlock + g * l.blocksPerGroup + r)
    (hr : r < l.blocksPerGroup) : l.group b = g ∧ l.index b = r := by
  have hsub : b - l.firstDataBlock = r + l.blocksPerGroup * g := by rw [hb, mul_comm]; omega
  rw [group, index, hsub, add_mul_div_left _ _ (by omega), add_mul_mod_self_left, div_eq_of_lt hr, mod_eq_of_lt hr]
  omega

theorem Sound.group_lt (h : l.Sound blockSize) {b : ℕ} (hb : l.Data b) : l.group b < l.bitmaps.length := by
  obtain ⟨h1, h2⟩ := hb
  have := h.upper
  exact Nat.div_lt_of_lt_mul (by rw [Nat.mul_comm]; omega)

theorem Sound.bitmap_inj (h : l.Sound blockSize) {g g' : ℕ} (hg : g < l.bitmaps.length)
    (hg' : g' < l.bitmaps.length) (he : l.bitmap g = l.bitmap g') : g = g' := by
  rw [bitmap, bitmap, getD_eq_getElem _ _ hg, getD_eq_getElem _ _ hg'] at he
  exact (Nodup.getElem_inj_iff h.distinct).1 he

end Layout

/-! ## The allocator -/

/-- `p .. p + n` went from free to used, and only bitmaps were written -/
structure Allocated (l : Layout) (d d' : Image) (p n : ℕ) : Prop where
  pos : 0 < n
  lower : l.firstDataBlock ≤ p
  upper : p + n ≤ l.blocksCount
  free : ∀ b, p ≤ b → b < p + n → l.used d b = false
  used : ∀ b, l.Data b → l.used d' b = (decide (p ≤ b ∧ b < p + n) || l.used d b)
  frame : ∀ b, b ∉ l.bitmaps → d' b = d b

theorem groupBlocks_le {l : Layout} {sb : Superblock} {blockSize g : ℕ} (h : l.Sound blockSize)
    (hc : sb.sBlocksCount = l.blocksCount) (hf : sb.sFirstDataBlock = l.firstDataBlock)
    (hp : sb.sBlocksPerGroup = l.blocksPerGroup) (hg : g < l.bitmaps.length) :
    groupBlocks sb l.bitmaps.length g ≤ l.blocksPerGroup ∧
      l.firstDataBlock + g * l.blocksPerGroup + groupBlocks sb l.bitmaps.length g ≤ l.blocksCount := by
  have hlow := h.lower; have hup := h.upper; have hu := h.u32
  unfold groupBlocks
  rw [hc, hf, hp]
  split_ifs with hlast
  · rw [← hlast, Nat.add_sub_cancel] at hlow
    rw [← hlast, succ_mul] at hup
    have h1 : sub32 l.blocksCount l.firstDataBlock = l.blocksCount - l.firstDataBlock := by
      unfold sub32; omega
    have h2 : sub32 (l.blocksCount - l.firstDataBlock) (g * l.blocksPerGroup) =
        l.blocksCount - l.firstDataBlock - g * l.blocksPerGroup := by
      unfold sub32; omega
    rw [h1, h2]
    omega
  · have hle : (g + 1) * l.blocksPerGroup ≤ (l.bitmaps.length - 1) * l.blocksPerGroup :=
      mul_le_mul_right _ (by omega)
    rw [succ_mul] at hle
    omega

theorem allocated_setBits {l : Layout} {blockSize : ℕ} (h : l.Sound blockSize) {d : Image} {g start n k : ℕ}
    (hg : g < l.bitmaps.length) (hk : k ≤ l.blocksPerGroup)
    (hend : l.firstDataBlock + g * l.blocksPerGroup + k ≤ l.blocksCount) (hpos : 0 < n) (hn : start + n ≤ k)
    (hfree : FreeRun (d (l.bitmap g)) start n) :
    Allocated l d (update d (l.bitmap g) (setBits (d (l.bitmap g)) start n))
      (l.firstDataBlock + g * l.blocksPerGroup + start) n where
  pos := hpos
  lower := by omega
  upper := by omega
  free b h1 h2 := by
    obtain ⟨hgb, hib⟩ := Layout.group_index (l := l) (b := b) (g := g)
      (r := b - (l.firstDataBlock + g * l.blocksPerGroup)) (by omega) (by omega)
    rw [Layout.used, hgb, hib]
    exact hfree _ (by omega) (by omega)
  used b hb := by
    by_cases hgb : l.group b = g
    · -- same group: compare offsets
      have hdm := div_add_mod (b - l.firstDataBlock) l.blocksPerGroup
      have hdiv : (b - l.firstDataBlock) / l.blocksPerGroup = g := hgb
      rw [hdiv, mul_comm] at hdm
      have hidx : l.index b = (b - l.firstDataBlock) % l.blocksPerGroup := rfl
      have hfirst := hb.1
      rw [Layout.used, Layout.used, hgb, update_self, bit_setBits]
      congr 1
      exact decide_eq_decide.2 (by omega)
    · have hne : l.bitmap (l.group b) ≠ l.bitmap g := fun he => hgb (h.bitmap_inj (h.group_lt hb) hg he)
      have hout : ¬(l.firstDataBlock + g * l.blocksPerGroup + start ≤ b ∧
          b < l.firstDataBlock + g * l.blocksPerGroup + start + n) := fun hin =>
        hgb (Layout.group_index (l := l) (r := b - (l.firstDataBlock + g * l.blocksPerGroup)) (by omega) (by omega)).1
      rw [Layout.used, Layout.used, update_of_ne hne]
      simp [hout]
  frame b hb := by
    have hne : b ≠ l.bitmap g := by
      rintro rfl
      exact hb (by rw [Layout.bitmap, getD_eq_getElem _ _ hg]; exact getElem_mem hg)
    rw [update_of_ne hne]

theorem map_modify_of_eq {α β : Type} {f : α → β} {k : α → α} (h : ∀ x, f (k x) = f x) (l : List α) (g : ℕ) :
    (l.modify g k).map f = l.map f := by
  refine ext_getElem? fun i => ?_
  rw [getElem?_map, getElem?_map, getElem?_modify]
  cases l[i]? with
  | none => rfl
  | some x => by_cases hg : g = i <;> simp [hg, h]

theorem getD_modify {α : Type} (l : List α) (f : α → α) (g g' : ℕ) (d : α) :
    (l.modify g f).getD g' d = if g = g' ∧ g' < l.length then f (l.getD g' d) else l.getD g' d := by
  by_cases hlt : g' < l.length
  · by_cases hg : g = g' <;> simp [hlt, hg]
  · simp [hlt]

@[simp] theorem layout_takeBlocks {D : Type} (P : Params) (g n : ℕ) (s : ExtFileSystem D) :
    layout (takeBlocks P g n s) = layout s := by
  simp only [layout, takeBlocks, Superblock.setFreeBlocks]
  rw [map_modify_of_eq, map_modify_of_eq, map_modify_of_eq] <;> exact fun _ => rfl

@[simp] theorem layout_noFreeBlocks {D : Type} (g : ℕ) (s : ExtFileSystem D) :
    layout (noFreeBlocks g s) = layout s := by
  simp only [layout, noFreeBlocks]
  rw [map_modify_of_eq, map_modify_of_eq, map_modify_of_eq] <;> exact fun _ => rfl

/-- a run of the allocator from `s`: blocks handed out, or only counters changed -/
def AllocOutcome (requested : ℕ) (s : ExtFileSystem Image) : EStateM.Result String (ExtFileSystem Image) (ℕ × ℕ) → Prop
  | .ok (p, n) s' => layout s' = layout s ∧ Allocated (layout s) s.device s'.device p n ∧ n ≤ requested
  | .error _ s' => layout s' = layout s ∧ s'.device = s.device

variable {s : ExtFileSystem Image}

/-- one round of the loop over the groups -/
theorem allocGroups_cons (P : Params) (s : ExtFileSystem Image) {startGroup requested o g : ℕ} {rest : List ℕ}
    (hg : (startGroup + o) % s.groupDescriptors.length = g) {gd : GroupDescriptor}
    (hgd : s.groupDescriptors.getD g default = gd) :
    allocGroups P startGroup requested (o :: rest) s =
      if gd.bgFreeBlocksCount = 0 then allocGroups P startGroup requested rest s
      else match findRun (s.device gd.bgBlockBitmap) (groupBlocks s.superblock s.groupDescriptors.length g) requested with
        | some (start, n) => .ok ((groupStart s.superblock g + start) % 2 ^ 32, min n requested)
            (takeBlocks P g (min n requested) { s with
              device := update s.device gd.bgBlockBitmap (setBits (s.device gd.bgBlockBitmap) start (min n requested)) })
        | none => allocGroups P startGroup requested rest (noFreeBlocks g s) := by
  have hread : attempt (readBlocks gd.bgBlockBitmap) s = .ok (some (s.device gd.bgBlockBitmap)) s := rfl
  rw [allocGroups, get_bind, hg, hgd]
  split_ifs with hfree
  · rfl
  · rw [bind_ok hread]
    dsimp only
    cases findRun (s.device gd.bgBlockBitmap) (groupBlocks s.superblock s.groupDescriptors.length g) requested <;> rfl

theorem allocGroups_spec {P : Params} (h : (layout s).Sound P.blockSize) {requested : ℕ}
    (hreq : 0 < requested) {startGroup : ℕ} {offsets : List ℕ} :
    AllocOutcome requested s (allocGroups P startGroup requested offsets s) := by
  induction offsets generalizing s with
  | nil => exact ⟨rfl, rfl⟩
  | cons gOffset rest ih =>
    set g := (startGroup + gOffset) % s.groupDescriptors.length with hg
    set gd := s.groupDescriptors.getD g default with hgd
    have hlen : (layout s).bitmaps.length = s.groupDescriptors.length := by simp [layout]
    have hglt : g < (layout s).bitmaps.length := by
      have := h.groups_pos
      rw [hlen] at this ⊢
      exact mod_lt _ this
    have hbm : gd.bgBlockBitmap = (layout s).bitmap g := by
      have hglt' : g < s.groupDescriptors.length := by rw [← hlen]; exact hglt
      rw [Layout.bitmap, getD_eq_getElem _ _ hglt, hgd, getD_eq_getElem _ _ hglt']
      simp [layout]
    rw [allocGroups_cons P s hg.symm hgd.symm]
    by_cases hfree : gd.bgFreeBlocksCount = 0
    · rw [if_pos hfree]
      exact ih h
    · rw [if_neg hfree]
      cases hrun : findRun (s.device gd.bgBlockBitmap)
          (groupBlocks s.superblock s.groupDescriptors.length g) requested with
      | none =>
        have hout := ih (s := noFreeBlocks g s) (by rw [layout_noFreeBlocks]; exact h)
        unfold AllocOutcome at hout ⊢
        rw [layout_noFreeBlocks] at hout
        exact hout
      | some run =>
        obtain ⟨start, n⟩ := run
        obtain ⟨hpos, hend, hfr⟩ := findRun_spec hrun
        rw [← hlen] at hend
        obtain ⟨hle, hcount⟩ := groupBlocks_le h rfl rfl rfl hglt
        set d' : Image := update s.device gd.bgBlockBitmap
          (setBits (s.device gd.bgBlockBitmap) start (min n requested)) with hd'
        have halloc := allocated_setBits h hglt hle hcount (lt_min hpos hreq)
          (show start + min n requested ≤ _ from (Nat.add_le_add_left (min_le_left _ _) _).trans hend)
          (d := s.device) (fun j h1 h2 => hbm ▸ hfr j h1 (lt_of_lt_of_le h2 (Nat.add_le_add_left (min_le_left _ _) _)))
        have hu32 := h.u32
        have hstart : groupStart s.superblock g + start = (layout s).firstDataBlock + g * (layout s).blocksPerGroup + start := by
          simp only [groupStart, layout]; omega
        refine ⟨by rw [layout_takeBlocks]; rfl, ?_, min_le_right _ _⟩
        rw [hstart, mod_eq_of_lt (by omega)]
        rw [← hbm, ← hd'] at halloc
        exact halloc

theorem AllocOutcome.mono {k k' : ℕ} (hk : k ≤ k')
    {r : EStateM.Result String (ExtFileSystem Image) (ℕ × ℕ)} (h : AllocOutcome k s r) : AllocOutcome k' s r := by
  cases r with
  | ok v s' => exact ⟨h.1, h.2.1, h.2.2.trans hk⟩
  | error e s' => exact h

/-- **Allocation hands out free blocks and marks exactly these.** -/
theorem allocateBlocksContiguous_spec {P : Params} (h : (layout s).Sound P.blockSize)
    (preferred count : ℕ) : AllocOutcome (min count 128) s (allocateBlocksContiguous P preferred count s) := by
  simp only [allocateBlocksContiguous, get_bind]
  by_cases h0 : s.superblock.sFreeBlocksCount = 0
  · rw [if_pos h0]; exact ⟨rfl, rfl⟩
  rw [if_neg h0]
  by_cases hreq : min (min count 128) s.superblock.sFreeBlocksCount = 0
  · simp only [if_pos hreq]; exact ⟨rfl, rfl⟩
  simp only [if_neg hreq]
  exact (allocGroups_spec h (pos_of_ne_zero hreq)).mono (min_le_left _ _)

/-! ## A small filesystem -/

/-- one group of 63 blocks, of which the first 16 are in use, and two inodes; block 8 is a node with an extent of two blocks,
and block 9 has one pointer -/
def smallFs : ExtFileSystem Image where
  device b w :=
    if b = 3 ∧ w = 0 then 0xFFFF else if b = 4 ∧ w = 0 then 3 else if b = 9 ∧ w = 0 then 11
    else if b = 8 then if w = 0 then 0x1F30A else if w = 1 then 84 else if w = 4 then 2 else if w = 5 then 10 else 0
    else 0
  superblock := ⟨8, 64, 47, 0, 6, 1, 8192, 0, 0, 0, 0⟩
  groupDescriptors := [⟨3, 4, 5, 47, 0, 6, 1, 0, 0, 0, 0⟩]
  metadataDirty := false

def smallParams : Params := ⟨1024, 8, 128, false⟩

theorem smallFs_sound : (layout smallFs).Sound smallParams.blockSize :=
  ⟨by decide, by decide, by decide, by decide, by decide, by decide⟩

end Kontsnor.Ext
