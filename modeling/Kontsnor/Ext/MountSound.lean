/-
After a mount, every block that a lookup answers or passes through is marked on the disk.

`Watched` is a device that keeps a log of the blocks read from it, so the index and indirect blocks a lookup visits are
those in the log. `Answers` says of a lookup that what it answers, what it reads and what it leaves in the one-extent
cache are blocks of the inode.
-/
import Kontsnor.Ext.CheckSpec

namespace Kontsnor.Ext

open List Nat

open Fallible (get_bind bind_ok final value value_of_ok)
open Words (Buffer)

/-! ## A device with a log -/

structure Watched where
  image : Image
  log : List ℕ

instance : Store Watched where
  readBlocks block := fun d => .ok (d.image block) { d with log := block :: d.log }
  writeBlocks block buf := fun d => .ok () { d with image := Function.update d.image block buf }

/-- the same filesystem over a device with an empty log -/
def watch (fs : ExtFileSystem Image) : ExtFileSystem Watched where
  device := ⟨fs.device, []⟩
  superblock := fs.superblock
  groupDescriptors := fs.groupDescriptors
  metadataDirty := fs.metadataDirty

/-- an inode that was just opened -/
def opened (fs : ExtFileSystem Image) (raw : ExtRawInode) : ExtInode Watched := ⟨watch fs, raw, .new⟩

def lookups (P : Params) (s : ExtInode Watched) (fileBlocks : List ℕ) : ExtInode Watched :=
  fileBlocks.foldl (fun s b => final (resolveBlock P b s)) s

/-! ## Lookups stay inside the inode -/

variable {fileBlock : ℕ} {s : ExtInode Watched} {l : List Ext4ExtentIdx} {pointer : ℕ → ℕ} {idx : Ext4ExtentIdx}

section Lookups

variable {P : Params} {d : Image} {raw : ExtRawInode}

/-- an answer that is fine: a hole, or a block of the inode -/
def Within (P : Params) (d : Image) (raw : ExtRawInode) (b : ℕ) : Prop := b = 0 ∨ Owns P d raw b

/-- the device is as it was, and everything read or remembered is a block of the inode -/
structure Inside (P : Params) (d : Image) (raw : ExtRawInode) (s : ExtInode Watched) : Prop where
  image : s.fs.device.image = d
  raw_eq : s.raw = raw
  cache : ∀ k < s.extentCache.len, Within P d raw ((s.extentCache.physStart + k) % 2 ^ 32)
  log : ∀ b ∈ s.fs.device.log, Owns P d raw b

/-- a lookup that stays inside, and answers 0 or a block of the inode -/
def Answers (P : Params) (d : Image) (raw : ExtRawInode) (run : InoM Watched (ℕ × ℕ)) : Prop :=
  ∀ s, Inside P d raw s → Inside P d raw (final (run s)) ∧ ∀ v s', run s = .ok v s' → Within P d raw v.1

theorem Answers.hole (n : ℕ) : Answers P d raw (pure (0, n)) := by
  intro s hs
  refine ⟨hs, fun v s' h => ?_⟩
  cases h
  exact .inl rfl

theorem Answers.fail {e : String} : Answers P d raw (throw e) := by
  intro s hs
  exact ⟨hs, nofun⟩

theorem Answers.read {c : ℕ} (hc : Owns P d raw c) {f : Buffer → InoM Watched (ℕ × ℕ)}
    (h : Answers P d raw (f (d c))) : Answers P d raw (onFs (readBlocks c) >>= f) := by
  intro s hs
  have hread : onFs (readBlocks c) s = .ok (d c)
      { s with fs := { s.fs with device := { s.fs.device with log := c :: s.fs.device.log } } } := by
    rw [← hs.image]; rfl
  rw [bind_ok hread]
  refine h _ ⟨hs.image, hs.raw_eq, hs.cache, fun b hb => ?_⟩
  rcases mem_cons.1 hb with rfl | hb
  · exact hc
  · exact hs.log b hb

theorem Answers.remember {start len phys p n : ℕ} (hlen : ∀ k < len, Within P d raw ((phys + k) % 2 ^ 32))
    (hp : Within P d raw p) :
    Answers P d raw (do
      modify fun s => { s with extentCache := s.extentCache.update start len phys }
      return (p, n)) := by
  intro s hs
  refine ⟨⟨hs.image, hs.raw_eq, ?_, hs.log⟩, fun v s' h => ?_⟩
  · unfold ExtentCache.update
    split_ifs
    · exact hlen
    · exact hs.cache
  · cases h
    exact hp

theorem bestIdx_mem (h : bestIdx fileBlock l = some idx) : idx ∈ l := by
  revert h
  refine foldlRecOn (motive := fun best => best = some idx → idx ∈ l) l _ nofun fun best hbest a ha => ?_
  split_ifs
  · cases best with
    | none =>
      rintro ⟨⟩
      exact ha
    | some b =>
      dsimp only
      split_ifs
      · rintro ⟨⟩
        exact ha
      · exact hbest
  · exact hbest

theorem Answers.fromExtent (hlt : ∀ b, Owns P d raw b → b < 2 ^ 32) {e : Ext4Extent}
    (he : ∀ b ∈ e.run, Owns P d raw b) (hcov : e.covers fileBlock = true) :
    Answers P d raw (answerFrom e fileBlock) := by
  have hrun : ∀ k < e.len, Within P d raw ((e.startBlock + k) % 2 ^ 32) := by
    intro k hk
    have hown := he (e.startBlock + k) (mem_map.2 ⟨k, mem_range.2 hk, rfl⟩)
    rw [mod_eq_of_lt (hlt _ hown)]
    exact .inr hown
  refine Answers.remember hrun (hrun _ ?_)
  simp only [Ext4Extent.covers, Bool.and_eq_true, decide_eq_true_eq] at hcov
  have hle : add32 e.eeBlock e.len ≤ e.eeBlock + e.len := mod_le _ _
  omega

theorem Answers.descend (hlt : ∀ b, Owns P d raw b → b < 2 ^ 32) (fileBlock fuel : ℕ) {child : ℕ}
    (hchild : Owns P d raw child)
    (hbelow : ∀ b, Reaches P d (d child) (maxEntries P.blockSize) b → Owns P d raw b) :
    Answers P d raw (descend P fileBlock fuel child) := by
  induction fuel generalizing child with
  | zero => exact Answers.fail
  | succ fuel ih =>
    refine Answers.read hchild ?_
    by_cases hmagic : (readHeader (d child)).ehMagic = 0xF30A
    · rw [if_neg (not_not.2 hmagic)]
      by_cases hdepth : (readHeader (d child)).ehDepth = 0
      · rw [if_pos hdepth]
        cases hfind : (extents (d child) (min (readHeader (d child)).ehEntries (maxEntries P.blockSize))).find?
            (·.covers fileBlock) with
        | none =>
          split_ifs
          · exact Answers.fail
          · exact Answers.hole 0
        | some e =>
          have hcov := find?_some hfind
          exact Answers.fromExtent hlt
            (fun b hb => hbelow b (.data hmagic hdepth (mem_of_find?_eq_some hfind) hb)) hcov
      · rw [if_neg hdepth]
        by_cases hbig : maxEntries P.blockSize < (readHeader (d child)).ehEntries
        · rw [if_pos hbig]
          exact Answers.fail
        · rw [if_neg hbig]
          cases hbest : bestIdx fileBlock (indices (d child) (readHeader (d child)).ehEntries) with
          | none => exact Answers.hole 0
          | some idx =>
            have hmem := bestIdx_mem hbest
            rw [← min_eq_left (not_lt.1 hbig)] at hmem
            exact ih (hbelow _ (.node hmagic hdepth hmem)) fun b hb => hbelow b (.under hmagic hdepth hmem hb)
    · rw [if_pos hmagic]
      exact Answers.fail

theorem Inside.get (hs : Inside P d raw s) {hit : ℕ × ℕ}
    (h : s.extentCache.get fileBlock = some hit) : Within P d raw hit.1 := by
  unfold ExtentCache.get at h
  split_ifs at h with hin
  cases h
  refine hs.cache _ ?_
  have : add32 s.extentCache.start s.extentCache.len ≤ s.extentCache.start + s.extentCache.len := mod_le _ _
  omega

theorem Answers.cached {f : ExtInode Watched → InoM Watched (ℕ × ℕ)}
    (h : ∀ s, Inside P d raw s → Answers P d raw (f s)) :
    Answers P d raw (do
      let s ← get
      match s.extentCache.get fileBlock with
      | some hit => return hit
      | none => f s) := by
  intro s hs
  rw [get_bind]
  cases hget : s.extentCache.get fileBlock with
  | none => exact h s hs s hs
  | some hit =>
    refine ⟨hs, fun v s' hr => ?_⟩
    cases hr
    exact hs.get hget

theorem Answers.resolveExtent (hx : raw.isExtents = true) (hlt : ∀ b, Owns P d raw b → b < 2 ^ 32) (fileBlock : ℕ) :
    Answers P d raw (resolveExtentBlockLen P raw.iBlock fileBlock) := by
  have hroot : ∀ b, Reaches P d (rootBuf raw.iBlock) 4 b → Owns P d raw b := fun b hb => by rwa [Owns, if_pos hx]
  refine Answers.cached fun s _ => ?_
  by_cases hmagic : (readHeader (rootBuf raw.iBlock)).ehMagic = 0xF30A
  · rw [if_neg (not_not.2 hmagic)]
    by_cases hdepth : (readHeader (rootBuf raw.iBlock)).ehDepth = 0
    · rw [if_pos hdepth]
      cases hfind : (extents (rootBuf raw.iBlock) (min (readHeader (rootBuf raw.iBlock)).ehEntries 4)).find?
          (·.covers fileBlock) with
      | none => exact Answers.hole 0
      | some e =>
        have hcov := find?_some hfind
        exact Answers.fromExtent hlt
          (fun b hb => hroot b (.data hmagic hdepth (mem_of_find?_eq_some hfind) hb)) hcov
    · rw [if_neg hdepth]
      cases hbest : bestIdx fileBlock (indices (rootBuf raw.iBlock)
          (min (readHeader (rootBuf raw.iBlock)).ehEntries 4)) with
      | none => exact Answers.hole 0
      | some idx =>
        have hmem := bestIdx_mem hbest
        exact Answers.descend hlt fileBlock _ (hroot _ (.node hmagic hdepth hmem))
          fun b hb => hroot b (.under hmagic hdepth hmem hb)
  · rw [if_pos hmagic]
    exact Answers.fail

theorem Answers.fromPointer {limit : ℕ} (hp : ∀ i < limit, Within P d raw (pointer i))
    (hsmall : ∀ i, pointer i < 2 ^ 32) (fileBlock : ℕ) {index : ℕ} (hi : index < limit) :
    Answers P d raw (answerPointer pointer fileBlock index limit) := by
  unfold answerPointer
  by_cases h0 : pointer index = 0
  · simp only [h0, ne_eq, not_true_eq_false, if_false]
    exact Answers.hole _
  · simp only [ne_eq, h0, not_false_eq_true, if_true]
    refine Answers.remember (fun k hk => ?_) (hp index hi)
    rcases Nat.eq_zero_or_pos k with rfl | hpos
    · rw [add_zero, mod_eq_of_lt (hsmall index)]
      exact hp index hi
    · obtain ⟨-, hle, hrun⟩ := runLength_bounds pointer (pointer index) limit hi fun i (h0 : 0 < i) (h1 : i < 1) => by omega
      have hown := hp (index + k) (by omega)
      rwa [hrun k hpos hk, if_neg h0] at hown

theorem mem_directs {iBlock : Fin 15 → UInt32} {i : ℕ} (hi : i < 12) : (rootBuf iBlock i).toNat ∈ directs iBlock := by
  refine mem_map.2 ⟨⟨i, hi⟩, mem_finRange _, ?_⟩
  have h15 : i < 15 := by omega
  simp only [rootBuf, h15, dif_pos]
  rfl

theorem mem_refs {buf : Buffer} {i : ℕ} (hi : i < P.blockSize / 4) : (buf i).toNat ∈ refs P buf :=
  mem_map.2 ⟨i, mem_range.2 hi, rfl⟩

theorem Answers.resolveIndirect (hx : raw.isExtents = false) (fileBlock : ℕ) :
    Answers P d raw (resolveIndirectBlockRun P raw.iBlock fileBlock) := by
  have howns : ∀ b, b ∈ pointerBlocks P d raw.iBlock → Within P d raw b := fun b hb => by
    rcases Nat.eq_zero_or_pos b with h0 | hpos
    · exact .inl h0
    · refine .inr ?_
      rw [Owns, if_neg (by rw [hx]; exact Bool.false_ne_true)]
      exact ⟨hpos.ne', hb⟩
  have hind : ∀ b, b ∈ indirectBlocks P d (raw.iBlock 12).toNat → Within P d raw b := fun b hb =>
    howns b (mem_append_right _ (mem_append_left _ hb))
  have hdouble : ∀ b, b ∈ doubleIndirectBlocks P d (raw.iBlock 13).toNat → Within P d raw b := fun b hb =>
    howns b (mem_append_right _ (mem_append_right _ hb))
  unfold resolveIndirectBlockRun
  simp only
  split_ifs with hdirect hsingle hsib htwo hdib
  · exact Answers.fromPointer (fun i hi => howns _ (mem_append_left _ (mem_directs hi)))
      (fun i => UInt32.toNat_lt _) fileBlock hdirect
  · exact Answers.hole _
  · unfold indirectBlocks at hind
    rw [if_neg hsib] at hind
    refine Answers.read ((hind _ (by simp)).resolve_left hsib) ?_
    exact Answers.fromPointer (fun i hi => hind _ (mem_append_left _ (mem_refs hi)))
      (fun i => UInt32.toNat_lt _) fileBlock hsingle
  · exact Answers.hole _
  · unfold doubleIndirectBlocks at hdouble
    rw [if_neg hdib] at hdouble
    refine Answers.read ((hdouble _ (by simp)).resolve_left hdib) ?_
    split_ifs with hsib'
    · exact Answers.hole _
    · have hpos : 0 < P.blockSize / 4 := by
        by_contra hz
        rw [Nat.eq_zero_of_not_pos hz] at htwo
        omega
      have hsibIdx : (fileBlock - 12 - P.blockSize / 4) / (P.blockSize / 4) < P.blockSize / 4 :=
        Nat.div_lt_of_lt_mul htwo
      have hbehind : ∀ b, b ∈ indirectBlocks P d
          (d (raw.iBlock 13).toNat ((fileBlock - 12 - P.blockSize / 4) / (P.blockSize / 4))).toNat → Within P d raw b :=
        fun b hb => hdouble b (mem_append_left _ (mem_flatMap.2 ⟨_, mem_refs hsibIdx, hb⟩))
      unfold indirectBlocks at hbehind
      rw [if_neg hsib'] at hbehind
      refine Answers.read ((hbehind _ (by simp)).resolve_left hsib') ?_
      exact Answers.fromPointer (fun i hi => hbehind _ (mem_append_left _ (mem_refs hi)))
        (fun i => UInt32.toNat_lt _) fileBlock (mod_lt _ hpos)
  · exact Answers.fail

/-- **A lookup answers 0 or a block of the inode, and reads only blocks of the inode.** -/
theorem resolveBlock_answers (hlt : ∀ b, Owns P d raw b → b < 2 ^ 32) (fileBlock : ℕ)
    (hs : Inside P d raw s) : Inside P d raw (final (resolveBlock P fileBlock s)) ∧
      ∀ p s', resolveBlock P fileBlock s = .ok p s' → Within P d raw p := by
  have hans : Answers P d raw (resolveBlockFromFlagsAndBlock P raw fileBlock) := by
    unfold resolveBlockFromFlagsAndBlock
    cases hx : raw.isExtents with
    | true => exact Answers.resolveExtent hx hlt fileBlock
    | false => exact Answers.resolveIndirect hx fileBlock
  rw [resolveBlock, get_bind]
  cases hget : s.extentCache.get fileBlock with
  | some hit =>
    refine ⟨hs, fun p s' h => ?_⟩
    cases h
    exact hs.get hget
  | none =>
    simp only [hs.raw_eq]
    obtain ⟨hin, hval⟩ := hans s hs
    cases hr : resolveBlockFromFlagsAndBlock P raw fileBlock s with
    | error e s' =>
      rw [Fallible.bind_error hr]
      rw [hr] at hin
      exact ⟨hin, nofun⟩
    | ok v s' =>
      rw [bind_ok hr]
      rw [hr] at hin
      refine ⟨hin, fun p s'' h => ?_⟩
      cases h
      exact hval v _ hr

theorem lookups_keep (hlt : ∀ b, Owns P d raw b → b < 2 ^ 32) (fileBlocks : List ℕ)
    (hs : Inside P d raw s) : Inside P d raw (lookups P s fileBlocks) := by
  induction fileBlocks generalizing s with
  | nil => exact hs
  | cons b rest ih => exact ih (resolveBlock_answers hlt b hs).1

theorem inside_opened (fs : ExtFileSystem Image) : Inside P fs.device raw (opened fs raw) where
  image := rfl
  raw_eq := rfl
  cache k hk := absurd hk (not_lt_zero k)
  log b hb := by cases hb

end Lookups

/-! ## After a mount -/

/-- an image whose metadata is laid out soundly: the groups cover the blocks, block numbers have 32 bits, and no block
of a block bitmap or of an inode table is anything else that a mount writes -/
structure LaidOut (P : Params) (fs : ExtFileSystem Image) : Prop where
  covered : Covered P fs
  apart : Apart P fs
  words : 4 ∣ P.blockSize
  first : fs.superblock.sFirstDataBlock ≤ 1
  small : fs.superblock.totalBlocks < 2 ^ 32
  tables : ∀ gd ∈ fs.groupDescriptors, ∀ ino, inodeBlock P gd ino ≠ 0 ∧ ¬ Written P fs (inodeBlock P gd ino)

/-- an inode in use whose block pointers all lie below the end of the filesystem, off the blocks that a mount writes -/
structure Healthy (P : Params) (fs : ExtFileSystem Image) (ino : ℕ) (raw : ExtRawInode) : Prop where
  record : getExtInode P ino fs = .ok raw fs
  links : 0 < raw.iLinksCount
  mode : raw.iMode ≠ 0
  blocks : ∀ b, Owns P fs.device raw b → b < fs.superblock.totalBlocks ∧ ¬ Written P fs b

section Mount

variable {P : Params} {fs fs' : ExtFileSystem Image} {ino : ℕ} {raw : ExtRawInode}

theorem getExtInode_ok (h : getExtInode P ino fs = .ok raw fs) :
    ino ≠ 0 ∧ ∃ gd, fs.groupDescriptors[(ino - 1) / P.inodesPerGroup]? = some gd ∧
      raw = recordOf P fs.device gd ino := by
  unfold getExtInode at h
  by_cases h0 : ino = 0
  · rw [if_pos h0] at h; cases h
  rw [if_neg h0, get_bind] at h
  refine ⟨h0, ?_⟩
  cases hgd : fs.groupDescriptors[(ino - 1) / P.inodesPerGroup]? with
  | none => rw [hgd] at h; cases h
  | some gd =>
    rw [hgd] at h
    cases h
    exact ⟨gd, rfl, rfl⟩

theorem getExtInode_of {gd : GroupDescriptor} (h0 : ino ≠ 0)
    (hgd : fs.groupDescriptors[(ino - 1) / P.inodesPerGroup]? = some gd) :
    getExtInode P ino fs = .ok (recordOf P fs.device gd ino) fs := by
  rw [getExtInode, if_neg h0, get_bind, hgd]
  rfl

theorem inodeBlock_congr {gd gd' : GroupDescriptor} (h : spots P gd' = spots P gd) :
    inodeBlock P gd' ino = inodeBlock P gd ino := by
  have ht : gd'.inodeTable P.is64bit = gd.inodeTable P.is64bit := congrArg (fun t => t.2.2) h
  rw [inodeBlock, inodeBlock, ht]

theorem LaidOut.congr (h : place P fs' = place P fs) (hl : LaidOut P fs) : LaidOut P fs' where
  covered := covered_congr h hl.covered
  apart := hl.apart.congr h
  words := hl.words
  first := by rw [place_first h]; exact hl.first
  small := by rw [place_total h]; exact hl.small
  tables gd hgd ino := by
    obtain ⟨gd', hgd', he⟩ := place_mem h hgd
    rw [← inodeBlock_congr he, written_congr h]
    exact hl.tables gd' hgd' ino

theorem Healthy.stays (hl : LaidOut P fs) (hs : Stays P fs fs') (hi : Healthy P fs ino raw) :
    Healthy P fs' ino raw ∧ ∀ b, Owns P fs'.device raw b ↔ Owns P fs.device raw b := by
  obtain ⟨h0, gd, hgd, hraw⟩ := getExtInode_ok hi.record
  obtain ⟨gd', hgd', hspots⟩ := place_getElem? hs.place_eq hgd
  have hrec : recordOf P fs'.device gd' ino = raw := by
    have hframe := hs.frame _ (hl.tables gd (mem_of_getElem? hgd) ino).2
    rw [recordOf, inodeBlock_congr hspots, hframe, hraw]
    rfl
  have hown := Owns.congr fun c hc => hs.frame c (hi.blocks c hc).2
  refine ⟨⟨?_, hi.links, hi.mode, fun b hb => ?_⟩, hown⟩
  · rw [getExtInode_of h0 hgd', hrec]
  · rw [place_total hs.place_eq, written_congr hs.place_eq]
    exact hi.blocks b ((hown b).1 hb)

/-- **After a mount that succeeds, every block that a lookup answers or passes through is marked**, for every inode in
use from 2 on, any file block and any lookups before. -/
theorem mount_marks_resolved (hl : LaidOut P fs) {E : Encoding} {depth : ℕ}
    (hm : mountCheck P E depth fs = .ok () fs') (h2 : 2 ≤ ino) (hn : ino ≤ fs.superblock.sInodesCount)
    (hi : Healthy P fs ino raw) :
    getExtInode P ino fs' = .ok raw fs' ∧ ∀ earlier fileBlock p s',
      resolveBlock P fileBlock (lookups P (opened fs' raw) earlier) = .ok p s' →
      (p ≠ 0 → OnDisk P fs' p) ∧ ∀ b ∈ s'.fs.device.log, b ≠ 0 → OnDisk P fs' b := by
  obtain ⟨fs1, hs1, hs2, hmarks⟩ := mountCheck_marks hl.covered hl.apart hl.words hm
  obtain ⟨hi1, hown1⟩ := hi.stays hl hs1
  obtain ⟨hi', hown'⟩ := hi1.stays (hl.congr hs1.place_eq) hs2
  -- every block of the inode is marked
  have hmarked : ∀ b, Owns P fs'.device raw b → b ≠ 0 → OnDisk P fs' b := by
    intro b hb h0
    have hb1 := (hown' b).1 hb
    have hb0 := (hown1 b).1 hb1
    have hfirst := hl.first
    refine hmarks b ⟨by omega, (hi.blocks b hb0).1⟩ ⟨ino, raw, h2, hn, ?_, hb1⟩
    obtain ⟨_, gd, hgd, hraw⟩ := getExtInode_ok hi1.record
    refine ⟨⟨gd, hgd, ?_, hraw⟩, hi.links, hi.mode, fun c hc => (hi1.blocks c hc).1⟩
    exact ((hl.congr hs1.place_eq).tables gd (mem_of_getElem? hgd) ino).1
  refine ⟨hi'.record, fun earlier fileBlock p s' hr => ?_⟩
  have hlt : ∀ b, Owns P fs'.device raw b → b < 2 ^ 32 := fun b hb =>
    (hi.blocks b ((hown1 b).1 ((hown' b).1 hb))).1.trans hl.small
  obtain ⟨hin, hval⟩ := resolveBlock_answers hlt fileBlock (lookups_keep hlt earlier (inside_opened fs'))
  rw [hr] at hin
  refine ⟨fun h0 => ?_, fun b hb => hmarked b (hin.log b hb)⟩
  exact hmarked p ((hval p s' hr).resolve_left h0) h0

end Mount

/-! ### Two inodes -/

def twoGroup : GroupDescriptor := ⟨3, 4, 5, 8100, 0, 14, 1, 0, 0, 0, 0⟩

/-- one group of 8192 blocks and 16 inodes: inode 1 is a file in block 100 and inode 2 a directory in block 101; the
block bitmap on the disk has both blocks, but not the metadata -/
def twoInodes : ExtFileSystem Image where
  device b w :=
    if b = 3 then (if w = 0 then 1 else if w = 3 then 24 else 0)
    else if b = 4 then (if w = 0 then 1 else 0)
    else if b = 5 then
      (if w = 0 then 0x8000 else if w = 6 then 0x10000 else if w = 10 then 100
      else if w = 32 then 0x4000 else if w = 38 then 0x10000 else if w = 42 then 101 else 0)
    else 0
  superblock := ⟨16, 8193, 8100, 0, 14, 1, 8192, 0, 0, 0, 0⟩
  groupDescriptors := [twoGroup]
  metadataDirty := false

def twoParams : Params := ⟨1024, 16, 128, false⟩

/-- an encoding that leaves the superblock as it is -/
def plainEncoding : Encoding := ⟨fun _ old => old, fun _ _ _ => 0⟩

def twoMounted : ExtFileSystem Image := final (mountCheck twoParams plainEncoding 0 twoInodes)

theorem twoInodes_mounts : mountCheck twoParams plainEncoding 0 twoInodes = .ok () twoMounted := by
  have hv : value (mountCheck twoParams plainEncoding 0 twoInodes) = some () := by decide +kernel
  unfold twoMounted
  cases hr : mountCheck twoParams plainEncoding 0 twoInodes with
  | ok u fs => rfl
  | error e fs => rw [hr] at hv; cases hv

/-- a mount writes the superblock, the descriptors and the two bitmaps, in blocks 1 to 4 -/
theorem twoInodes_written {c : ℕ} (hw : Written twoParams twoInodes c) : c ≤ 4 := by
  rcases hw with ⟨gd, hgd, h⟩ | h
  · have hgd' : gd = twoGroup := by simpa [twoInodes] using hgd
    subst hgd'
    have hb : twoGroup.blockBitmap twoParams.is64bit = 3 := rfl
    have hi : twoGroup.inodeBitmap twoParams.is64bit = 4 := rfl
    omega
  · have hg : gdtBlock twoParams = 2 := rfl
    have hn : gdtBlocks twoParams twoInodes.superblock twoInodes.groupDescriptors.length = 1 := by decide
    have hs : 1024 / twoParams.blockSize = 1 := rfl
    rw [Header, hg, hn, hs] at h
    omega

theorem twoInodes_laidOut : LaidOut twoParams twoInodes where
  covered := ⟨by decide, by decide, by decide⟩
  apart := ⟨by decide, by decide, by simp [twoInodes, twoGroup, Header, twoParams, gdtBlock, gdtBlocks, Superblock.descSize,
    Superblock.has64bit, GroupDescriptor.blockBitmap, GroupDescriptor.wide]⟩
  words := by decide
  first := by decide
  small := by decide
  tables gd hgd ino := by
    have hgd' : gd = twoGroup := by simpa [twoInodes] using hgd
    subst hgd'
    have hblock : inodeBlock twoParams twoGroup ino = 5 + (ino - 1) % 16 * 128 % 2 ^ 32 / 1024 :=
      rfl
    exact ⟨by omega, fun hw => absurd (twoInodes_written hw) (by omega)⟩

def twoRecord (ino : ℕ) : ExtRawInode := recordOf twoParams twoInodes.device twoGroup ino

theorem twoInodes_healthy {ino b : ℕ} (h0 : ino ≠ 0) (hg : (ino - 1) / 16 = 0) (hlinks : 0 < (twoRecord ino).iLinksCount)
    (hmode : (twoRecord ino).iMode ≠ 0) (hx : (twoRecord ino).isExtents = false)
    (hb : (pointerBlocks twoParams twoInodes.device (twoRecord ino).iBlock).filter (· ≠ 0) = [b]) (hlo : 4 < b)
    (hhi : b < 8193) : Healthy twoParams twoInodes ino (twoRecord ino) where
  record := getExtInode_of h0 (by
    have hidx : (ino - 1) / twoParams.inodesPerGroup = 0 := hg
    rw [hidx]; rfl)
  links := hlinks
  mode := hmode
  blocks c hc := by
    rw [Owns, if_neg (by rw [hx]; exact Bool.false_ne_true)] at hc
    have hmem : c ∈ (pointerBlocks twoParams twoInodes.device (twoRecord ino).iBlock).filter (· ≠ 0) := by
      rw [mem_filter]
      exact ⟨hc.2, decide_eq_true hc.1⟩
    rw [hb, mem_singleton] at hmem
    subst hmem
    have htotal : twoInodes.superblock.totalBlocks = 8193 := rfl
    exact ⟨by rw [htotal]; exact hhi, fun hw => absurd (twoInodes_written hw) (by omega)⟩

theorem mount_marks_resolved_two : LaidOut twoParams twoInodes ∧ Healthy twoParams twoInodes 2 (twoRecord 2) ∧
    mountCheck twoParams plainEncoding 0 twoInodes = .ok () twoMounted ∧
    value (resolveBlock twoParams 0 (opened twoMounted (twoRecord 2))) = some 101 ∧ OnDisk twoParams twoMounted 101 := by
  have hi : Healthy twoParams twoInodes 2 (twoRecord 2) :=
    twoInodes_healthy (b := 101) (by decide) (by decide) (by decide +kernel) (by decide +kernel) (by decide +kernel)
      (by decide +kernel) (by decide) (by decide)
  have hv : value (resolveBlock twoParams 0 (opened twoMounted (twoRecord 2))) = some 101 := by decide +kernel
  refine ⟨twoInodes_laidOut, hi, twoInodes_mounts, hv, ?_⟩
  cases hr : resolveBlock twoParams 0 (opened twoMounted (twoRecord 2)) with
  | error e s' => rw [hr] at hv; cases hv
  | ok p s' =>
    obtain rfl : p = 101 := Option.some_inj.1 ((value_of_ok hr).symm.trans hv)
    exact ((mount_marks_resolved twoInodes_laidOut twoInodes_mounts (by decide) (by decide) hi).2 [] 0 101 s' hr).1
      (by decide)

/-- **The scan starts with inode 2.** Inode 1 is in use, its block was marked before the mount, a lookup finds it, and
after the mount its bit is clear. -/
theorem inode_one_unmarked : LaidOut twoParams twoInodes ∧ Healthy twoParams twoInodes 1 (twoRecord 1) ∧
    OnDisk twoParams twoInodes 100 ∧ mountCheck twoParams plainEncoding 0 twoInodes = .ok () twoMounted ∧
    value (resolveBlock twoParams 0 (opened twoMounted (twoRecord 1))) = some 100 ∧
    ¬ OnDisk twoParams twoMounted 100 := by
  have hset : OnDisk twoParams twoInodes 100 := by
    unfold OnDisk
    decide +kernel
  have hclear : ¬ OnDisk twoParams twoMounted 100 := by
    unfold OnDisk
    decide +kernel
  refine ⟨twoInodes_laidOut, ?_, hset, twoInodes_mounts, by decide +kernel, hclear⟩
  exact twoInodes_healthy (b := 100) (by decide) (by decide) (by decide +kernel) (by decide +kernel) (by decide +kernel)
    (by decide +kernel) (by decide) (by decide)

end Kontsnor.Ext
