/-
The metadata of an inode, in memory and on disk (`fs/ext/mod.rs`, `fs/ext/file.rs`, `fs/ext/types.rs`).

Every call that changes the metadata changes both inodes in memory, the raw one and the VFS one, and then writes the raw one to
the inode table. Owner ids have 32 bits in the VFS inode and 16 in the raw one. A size has 64 bits in the VFS inode; a call
stores the lower 32 in the raw inode and leaves the upper half there (`i_dir_acl`) as it was.

- `Survives`: the inode that is read back after a drop shows what the VFS inode showed.
- `MetadataCall.Fits`: owner ids below 65536, and new sizes with the upper half that is stored already.
-/
import Kontsnor.Core.Runs
import Kontsnor.Ext.FileFrame

namespace Kontsnor.Ext

open List Function ExtRawInode Runs Nat

open Fallible (final get_bind modify_bind bind_ok bind_eq_ok)
open Words (Buffer low high)

/-! ## The record of an inode -/

variable (P : Params)

/-- the byte offset of the record in the inode table of its group -/
def recordOffset (ino : ℕ) : ℕ := (ino - 1) % P.inodesPerGroup * P.inodeSize

def recordBlock (p : Places) (ino : ℕ) : ℕ := p.inodeTable + recordOffset P ino / P.blockSize

/-- the inode has a record, in a table below block `2 ^ 32` and apart from the bitmaps -/
structure Recorded (ino : ℕ) (K : List Places) (p : Places) : Prop where
  ino_ne : ino ≠ 0
  words : 4 ∣ P.inodeSize
  size_ge : 128 ≤ P.inodeSize
  fits : P.inodeSize ∣ P.blockSize
  blockSize_pos : 0 < P.blockSize
  perGroup : 0 < P.inodesPerGroup
  narrow : P.inodesPerGroup * P.inodeSize ≤ 2 ^ 32
  group : K[(ino - 1) / P.inodesPerGroup]? = some p
  table : P.is64bit = true → p.inodeTableHi = 0
  apart : ∀ q ∈ K, recordBlock P p ino ≠ q.blockBitmap ∧ recordBlock P p ino ≠ q.inodeBitmap

/-- the filesystem with another record -/
def storeRecord (ino : ℕ) (p : Places) (raw : ExtRawInode) (fs : ExtFileSystem Image) : ExtFileSystem Image :=
  { fs with
    device := update fs.device (recordBlock P p ino)
      (storeInode P (fs.device (recordBlock P p ino)) (recordOffset P ino % P.blockSize / 4) raw) }

/-- the words of the raw inode behind the record are 0 -/
def TailZero (W : Fin 40 → UInt32) : Prop := ∀ w : Fin 40, P.inodeSize ≤ 4 * w.1 → W w = 0

section Record

variable {P : Params} {ino : ℕ} {K : List Places} {p : Places} {fs : ExtFileSystem Image}

section

variable (h : Recorded P ino K p)
include h

theorem Recorded.offset_lt : recordOffset P ino < 2 ^ 32 := by
  have hlt : (ino - 1) % P.inodesPerGroup < P.inodesPerGroup := mod_lt _ h.perGroup
  have hpos : 0 < P.inodeSize := by have := h.size_ge; omega
  calc recordOffset P ino < P.inodesPerGroup * P.inodeSize := mul_lt_mul_of_pos_right hlt hpos
    _ ≤ 2 ^ 32 := h.narrow

theorem Recorded.inside :
    4 ∣ recordOffset P ino % P.blockSize ∧ recordOffset P ino % P.blockSize + P.inodeSize ≤ P.blockSize := by
  obtain ⟨k, hk⟩ := h.fits
  have hdvd : P.inodeSize ∣ recordOffset P ino % P.blockSize :=
    (dvd_mod_iff h.fits).2 (dvd_mul_left ..)
  refine ⟨h.words.trans hdvd, ?_⟩
  obtain ⟨j, hj⟩ := hdvd
  have hlt : recordOffset P ino % P.blockSize < P.blockSize := mod_lt _ h.blockSize_pos
  rw [hj, hk] at hlt
  have hjk : j + 1 ≤ k := Nat.lt_of_mul_lt_mul_left hlt
  calc recordOffset P ino % P.blockSize + P.inodeSize = P.inodeSize * (j + 1) := by rw [hj, mul_add, mul_one]
    _ ≤ P.inodeSize * k := mul_le_mul_left _ hjk
    _ = P.blockSize := hk.symm

theorem Recorded.descriptor (hfs : places fs = K) :
    ∃ gd, fs.groupDescriptors[(ino - 1) / P.inodesPerGroup]? = some gd ∧ gd.places = p := by
  have hg := h.group
  rw [← hfs, places, getElem?_map, Option.map_eq_some_iff] at hg
  exact hg

theorem getExtInode_eq (hfs : places fs = K) :
    getExtInode P ino fs =
      .ok (readRawInode P (fs.device (recordBlock P p ino)) (recordOffset P ino % P.blockSize)) fs := by
  obtain ⟨gd, hgd, rfl⟩ := h.descriptor hfs
  have hoffset : inodeOffset P ino = recordOffset P ino := mod_eq_of_lt h.offset_lt
  have hblock : inodeBlock P gd ino = recordBlock P gd.places ino := by
    rw [inodeBlock, recordBlock, hoffset, GroupDescriptor.inodeTable, GroupDescriptor.wide]
    split_ifs with hwide
    · have hhi : gd.bgInodeTableHi = 0 := h.table hwide
      rw [hhi, zero_mul, zero_add]
      rfl
    · rfl
  rw [getExtInode, if_neg h.ino_ne, get_bind]
  simp only [hgd, hblock, hoffset]
  rfl

theorem writeInode_eq (hfs : places fs = K) (raw : ExtRawInode) :
    writeInode P ino raw fs = .ok () (storeRecord P ino p raw fs) := by
  obtain ⟨gd, hgd, rfl⟩ := h.descriptor hfs
  rw [writeInode, get_bind]
  simp only [hgd]
  rfl

theorem readRawInode_storeInode {buf : Buffer} {raw : ExtRawInode} (htail : TailZero P raw.word) :
    readRawInode P (storeInode P buf (recordOffset P ino % P.blockSize / 4) raw) (recordOffset P ino % P.blockSize) = raw := by
  obtain ⟨_, hin⟩ := h.inside
  obtain ⟨k, hk⟩ := h.words
  set offset := recordOffset P ino % P.blockSize
  have hword : ∀ w : Fin 40, (readRawInode P (storeInode P buf (offset / 4) raw) offset).word w = raw.word w := by
    intro w
    simp only [readRawInode]
    by_cases hw : 4 * w.1 < P.inodeSize
    · rw [if_pos (by omega), storeInode, dif_pos (by omega)]
      congr 1
      ext
      exact Nat.add_sub_cancel_left ..
    · rw [if_neg (by omega), htail w (not_lt.1 hw)]
  exact congrArg mk (funext hword)

end

end Record

/-! ## Reloading -/

/-- the record on disk is the raw inode -/
structure Loaded (P : Params) (ino : ℕ) (K : List Places) (s : Opened Image) : Prop where
  places : places s.inode.fs = K
  tail : TailZero P s.inode.raw.word
  stored : getExtInode P ino s.inode.fs = .ok s.inode.raw s.inode.fs

/-- the VFS inode shows what the raw inode has -/
structure Faithful (raw : ExtRawInode) (v : VfsInode) : Prop where
  size : v.size = raw.fileSize
  mode : v.mode = raw.iMode
  nlink : v.nlink = raw.iLinksCount
  uid : v.uid = raw.iUid
  gid : v.gid = raw.iGid

/-- what is compared after a reload: size, permission bits, link count and owner -/
structure SameMetadata (v v' : VfsInode) : Prop where
  size : v'.size = v.size
  mode : v'.mode = v.mode
  nlink : v'.nlink = v.nlink
  uid : v'.uid = v.uid
  gid : v'.gid = v.gid

/-- drop the inode and read it again: the VFS inode shows what it showed -/
def Survives (P : Params) (ino : ℕ) (s : Opened Image) : Prop :=
  ∀ memory, ∃ s' fs', openInode P ino memory (dropInode P ino s) = .ok s' fs' ∧ SameMetadata s.vfs s'.vfs

section Reload

variable {P : Params} {ino : ℕ} {K : List Places} {p : Places} {s s' : Opened Image}

section

variable (h : Recorded P ino K p)
include h

/-- a drop leaves the record alone, also if it gives the inode back -/
theorem dropInode_record (hs : places s.inode.fs = K) :
    places (dropInode P ino s) = K ∧
      (dropInode P ino s).device (recordBlock P p ino) = s.inode.fs.device (recordBlock P p ino) := by
  rw [dropInode]
  split_ifs
  · have hapart : BitmapsApart K fun d : Image => d (recordBlock P p ino) = s.inode.fs.device (recordBlock P p ino) := by
      refine ⟨fun b d hd => ⟨hd, trivial⟩, fun q hq buf d hd => ⟨?_, trivial⟩, fun q hq buf d hd => ⟨?_, trivial⟩⟩
      · exact (update_of_ne (h.apart q hq).1 _ _).trans hd
      · exact (update_of_ne (h.apart q hq).2 _ _).trans hd
    exact (deallocateInodeAndBlocks_frees hapart ino).final ⟨hs, rfl⟩
  · exact ⟨hs, rfl⟩

theorem openInode_drop (hs : Loaded P ino K s) (memory : List Grant) :
    openInode P ino memory (dropInode P ino s) =
      .ok ⟨⟨dropInode P ino s, s.inode.raw, .new⟩, vfsOf s.inode.raw, [], ⟨2 ^ 64 - 1, 32⟩, memory⟩ (dropInode P ino s) := by
  obtain ⟨hplaces, hblock⟩ := dropInode_record h hs.places
  have hstored := hs.stored
  rw [getExtInode_eq h hs.places] at hstored
  have hraw := EStateM.Result.ok.inj hstored
  have hget : getExtInode P ino (dropInode P ino s) = .ok s.inode.raw (dropInode P ino s) := by
    rw [getExtInode_eq h hplaces, hblock, hraw.1]
  rw [openInode, bind_ok hget]
  rfl

theorem survives_iff (hs : Loaded P ino K s) : Survives P ino s ↔ Faithful s.inode.raw s.vfs := by
  constructor
  · intro hsurvive
    obtain ⟨s', fs', hopen, hsame⟩ := hsurvive []
    rw [openInode_drop h hs] at hopen
    cases hopen
    exact ⟨hsame.size.symm, hsame.mode.symm, hsame.nlink.symm, hsame.uid.symm, hsame.gid.symm⟩
  · intro hf memory
    refine ⟨_, _, openInode_drop h hs memory, ?_⟩
    exact ⟨hf.size.symm, hf.mode.symm, hf.nlink.symm, hf.uid.symm, hf.gid.symm⟩

theorem writeBack_loaded (hplaces : places s.inode.fs = K) (htail : TailZero P s.inode.raw.word)
    (hr : writeBack P ino s = .ok () s') :
    Loaded P ino K s' ∧ s'.inode.raw = s.inode.raw ∧ s'.vfs = s.vfs := by
  rw [writeBack, get_bind, onInode, onFs, writeInode_eq h hplaces] at hr
  cases hr
  refine ⟨⟨hplaces, htail, ?_⟩, rfl, rfl⟩
  have hstored : places (storeRecord P ino p s.inode.raw s.inode.fs) = K := hplaces
  have hget := getExtInode_eq h hstored
  have hblock : (storeRecord P ino p s.inode.raw s.inode.fs).device (recordBlock P p ino) = _ := update_self ..
  rw [hblock, readRawInode_storeInode h htail] at hget
  exact hget

theorem openInode_loaded {fs fs' : ExtFileSystem Image} (hfs : places fs = K) {memory : List Grant}
    (hr : openInode P ino memory fs = .ok s fs') : Loaded P ino K s ∧ Faithful s.inode.raw s.vfs := by
  rw [openInode, bind_ok (getExtInode_eq h hfs), get_bind] at hr
  cases hr
  refine ⟨⟨hfs, fun w hw => ?_, getExtInode_eq h hfs⟩, rfl, rfl, rfl, rfl, rfl⟩
  have hlt : ¬ 4 * w.1 < min (min P.inodeSize 160) (P.blockSize - recordOffset P ino % P.blockSize) := by omega
  exact if_neg hlt

end

end Reload

/-! ## Calls -/

inductive MetadataCall where
  | write (offset : ℕ) (data : List UInt8)
  | truncate (size : ℕ)
  | setPermissions (mode : ℕ)
  | setOwner (uid gid : ℕ)
  | incNlink
  | decNlink

/-- `InodeOps::write`: regular files are written through the page cache -/
def writeOp {D : Type} [Store D] (P : Params) (ino offset : ℕ) (data : List UInt8) : FileM D ℕ := do
  let s ← get
  if s.vfs.fileType = .regular then writePageCache P ino offset data else writeFile P ino offset data

def perform {D : Type} [Store D] (P : Params) (ino : ℕ) : MetadataCall → FileM D Unit
  | .write offset data => do
    let _ ← writeOp P ino offset data
  | .truncate size => truncateFile P ino size
  | .setPermissions mode => setPermissions P ino mode
  | .setOwner uid gid => setOwner P ino uid gid
  | .incNlink => incNlink P ino
  | .decNlink => decNlink P ino

/-- the upper half of the size is the one the raw inode has -/
def SizeFits (raw : ExtRawInode) (size : ℕ) : Prop := size / 2 ^ 32 = if raw.isDir then 0 else raw.iDirAcl

/-- the size after a write that succeeds; a cached write of nothing does not grow the file -/
def sizeAfter (v : VfsInode) (offset : ℕ) (data : List UInt8) : ℕ :=
  if v.fileType = .regular ∧ data = [] then v.size else max v.size (offset + data.length)

/-- the values that the call stores fit the fields of the record -/
def MetadataCall.Fits (s : Opened Image) : MetadataCall → Prop
  | .write offset data => s.vfs.size < sizeAfter s.vfs offset data → SizeFits s.inode.raw (sizeAfter s.vfs offset data)
  | .truncate size => SizeFits s.inode.raw size
  | .setOwner uid gid => uid < 65536 ∧ gid < 65536
  | .setPermissions _ => True
  | .incNlink => True
  | .decNlink => True

instance (raw : ExtRawInode) (size : ℕ) : Decidable (SizeFits raw size) := inferInstanceAs (Decidable (_ = _))

instance (s : Opened Image) : ∀ call : MetadataCall, Decidable (call.Fits s)
  | .write _ _ => inferInstanceAs (Decidable (_ < _ → SizeFits _ _))
  | .truncate _ => inferInstanceAs (Decidable (SizeFits _ _))
  | .setOwner _ _ => inferInstanceAs (Decidable (_ ∧ _))
  | .setPermissions _ => isTrue trivial
  | .incNlink => isTrue trivial
  | .decNlink => isTrue trivial

variable {z : ℕ}

section Calls

variable {P : Params} {ino : ℕ} {K : List Places} {p : Places} {s s' s1 : Opened Image}

theorem low_lt (w : UInt32) : low w < 65536 := mod_lt _ (by decide)

theorem high_lt (w : UInt32) : high w < 65536 := by
  have := w.toNat_lt
  rw [high]
  omega

/-- the state before the write of the record: as it was, apart from the words and the VFS inode that the call changes -/
structure Changed (P : Params) (K : List Places) (s s1 : Opened Image) : Prop where
  places : places s1.inode.fs = K
  behind : ∀ w : Fin 40, 32 ≤ w.1 → s1.inode.raw.word w = s.inode.raw.word w

theorem Changed.tail (h : Recorded P ino K p) (hc : Changed P K s s1) (hs : Loaded P ino K s) :
    TailZero P s1.inode.raw.word := by
  intro w hw
  have h128 := h.size_ge
  rw [hc.behind w (by omega)]
  exact hs.tail w hw

theorem untouched_behind {w : Fin 40} (h : 32 ≤ w.1) : Untouched w := by
  refine ⟨fun h7 => ?_, by omega⟩
  rw [h7] at h
  exact absurd h (by decide)

section

variable (hf : Faithful s.inode.raw s.vfs)
include hf

theorem faithful_iff_size (h0 : s1.inode.raw.word 0 = s.inode.raw.word 0)
    (h6 : s1.inode.raw.word 6 = s.inode.raw.word 6) (hv : s1.vfs = { s.vfs with size := z, blocks := s1.vfs.blocks }) :
    Faithful s1.inode.raw s1.vfs ↔ z = s1.inode.raw.fileSize := by
  rw [hv]
  constructor
  · intro h
    exact h.size
  · intro h
    exact ⟨h, hf.mode.trans (congrArg low h0.symm), hf.nlink.trans (congrArg high h6.symm),
      hf.uid.trans (congrArg high h0.symm), hf.gid.trans (congrArg low h6.symm)⟩

theorem resized_faithful_iff
    (hk : Kept K (update s.inode.raw.word 1 (UInt32.ofNat (z % 2 ^ 32))) s1.inode)
    (hv : s1.vfs = { s.vfs with size := z, blocks := s1.vfs.blocks }) :
    Faithful s1.inode.raw s1.vfs ↔ SizeFits s.inode.raw z := by
  have h0 : s1.inode.raw.word 0 = s.inode.raw.word 0 := hk.words 0 (by decide)
  have h6 : s1.inode.raw.word 6 = s.inode.raw.word 6 := hk.words 6 (by decide)
  have h27 : s1.inode.raw.word 27 = s.inode.raw.word 27 := hk.words 27 (by decide)
  have h1 : s1.inode.raw.iSize = z % 2 ^ 32 := by
    have hword : s1.inode.raw.word 1 = UInt32.ofNat (z % 2 ^ 32) := hk.words 1 (by decide)
    rw [iSize, hword, UInt32.toNat_ofNat']
    exact mod_mod ..
  have hdir : s1.inode.raw.isDir = s.inode.raw.isDir := by rw [isDir, iMode, h0]; rfl
  have hacl : s1.inode.raw.iDirAcl = s.inode.raw.iDirAcl := congrArg UInt32.toNat h27
  rw [faithful_iff_size hf h0 h6 hv, fileSize, SizeFits, hdir, hacl, h1]
  split_ifs
  · omega
  · omega

theorem unsized_faithful (hk : Kept K s.inode.raw.word s1.inode)
    (hv : s1.vfs = { s.vfs with blocks := s1.vfs.blocks }) : Faithful s1.inode.raw s1.vfs := by
  have h0 : s1.inode.raw.word 0 = s.inode.raw.word 0 := hk.words 0 (by decide)
  have h1 : s1.inode.raw.word 1 = s.inode.raw.word 1 := hk.words 1 (by decide)
  have h27 : s1.inode.raw.word 27 = s.inode.raw.word 27 := hk.words 27 (by decide)
  have hsize : s1.inode.raw.fileSize = s.inode.raw.fileSize := by
    rw [fileSize, isDir, iMode, iSize, iDirAcl, h0, h1, h27]
    rfl
  exact (faithful_iff_size hf h0 (hk.words 6 (by decide)) hv).2 (hf.size.trans hsize.symm)

end

theorem wrote_changed (h : Wrote K s.inode.raw.word s.vfs z s1) : Changed P K s s1 := by
  refine ⟨h.inode.places, fun w hw => ?_⟩
  have hne : w ≠ 1 := by
    rintro rfl
    exact absurd hw (by decide)
  rw [h.inode.words w (untouched_behind hw), wordsAt]
  split_ifs
  · rfl
  · exact update_of_ne hne _ _

theorem wrote_faithful_iff (hf : Faithful s.inode.raw s.vfs) (hle : s.vfs.size ≤ z)
    (h : Wrote K s.inode.raw.word s.vfs z s1) :
    Faithful s1.inode.raw s1.vfs ↔ (s.vfs.size < z → SizeFits s.inode.raw z) := by
  have hk := h.inode
  rw [wordsAt] at hk
  split_ifs at hk with heq
  · have hv := h.vfs
    rw [heq] at hv
    exact iff_of_true (unsized_faithful hf hk hv) fun hlt => absurd hlt (by omega)
  · have hlt : s.vfs.size < z := lt_of_le_of_ne hle (Ne.symm heq)
    rw [resized_faithful_iff hf hk h.vfs]
    exact ⟨fun hfit _ => hfit, fun hfit => hfit hlt⟩

theorem wrote_start (hs : places s.inode.fs = K) : Wrote K s.inode.raw.word s.vfs s.vfs.size s :=
  ⟨⟨hs, fun w _ => by rw [wordsAt, if_pos rfl]⟩, rfl⟩

theorem writeOp_wrote (hbs : 0 < P.blockSize) (hs : places s.inode.fs = K) {offset : ℕ} {data : List UInt8} {n : ℕ}
    (hr : writeOp P ino offset data s = .ok n s') :
    ∃ s1, Wrote K s.inode.raw.word s.vfs (sizeAfter s.vfs offset data) s1 ∧ writeBack P ino s1 = .ok () s' := by
  rw [writeOp, get_bind] at hr
  by_cases hreg : s.vfs.fileType = .regular
  · rw [if_pos hreg] at hr
    simp only [sizeAfter, hreg, true_and]
    exact writePageCache_wrote (wrote_start hs) hr
  · rw [if_neg hreg] at hr
    simp only [sizeAfter, hreg, false_and, if_false]
    exact writeFile_wrote hbs (wrote_start hs) hr

theorem setISize_kept {i : ExtInode Image} {W : Fin 40 → UInt32} (h : Kept K W i) (size : ℕ) :
    Kept K (update W 1 (UInt32.ofNat size)) { i with raw := i.raw.setISize size } := by
  refine ⟨h.places, fun w hw => ?_⟩
  by_cases h1 : w = 1
  · rw [h1]
    simp only [setISize, update_self]
  · rw [update_of_ne h1]
    exact (update_of_ne h1 _ _).trans (h.words w hw)

theorem truncateFile_resized (hs : places s.inode.fs = K) {size : ℕ} (hr : truncateFile P ino size s = .ok () s') :
    ∃ s1, Kept K (update s.inode.raw.word 1 (UInt32.ofNat (size % 2 ^ 32))) s1.inode ∧
      s1.vfs = { s.vfs with size := size, blocks := s1.vfs.blocks } ∧ writeBack P ino s1 = .ok () s' := by
  have hstart : Kept K s.inode.raw.word { s.inode with extentCache := s.inode.extentCache.invalidate } := ⟨hs, fun _ _ => rfl⟩
  obtain ⟨_, s2, hcache, hrest⟩ := bind_eq_ok hr
  cases hcache
  rw [modify_bind] at hrest
  by_cases hzero : size = 0
  · subst hzero
    obtain ⟨_, s2, hfree, hback⟩ := bind_eq_ok hrest
    rw [onInode] at hfree
    split at hfree
    · rename_i a i hi
      cases hfree
      have hk := setISize_kept (releaseBlocks_kept.ok hstart hi).1 0
      refine ⟨_, ⟨hk.places, fun w hw => ?_⟩, rfl, hback⟩
      exact (setIBlocks_word _ hw).trans (hk.words w hw)
    · cases hfree
  · rw [if_neg hzero, modify_bind] at hrest
    exact ⟨_, setISize_kept hstart _, rfl, hrest⟩

section

variable (hf : Faithful s.inode.raw s.vfs)
include hf

/-- a change of permissions; the type bits stay -/
theorem setPermissions_faithful (mode : ℕ) :
    Faithful (s.inode.raw.setIMode (s.inode.raw.iMode / 4096 * 4096 + mode % 4096))
      { s.vfs with mode := s.inode.raw.iMode / 4096 * 4096 + mode % 4096 } := by
  have hlt : s.inode.raw.iMode < 65536 := low_lt _
  have hnew : s.inode.raw.iMode / 4096 * 4096 + mode % 4096 < 65536 := by omega
  obtain ⟨hlow, hhigh⟩ := Words.halves hnew (high_lt (s.inode.raw.word 0))
  have hmode : (s.inode.raw.setIMode (s.inode.raw.iMode / 4096 * 4096 + mode % 4096)).iMode =
      s.inode.raw.iMode / 4096 * 4096 + mode % 4096 := hlow
  have hsize : (s.inode.raw.setIMode (s.inode.raw.iMode / 4096 * 4096 + mode % 4096)).fileSize = s.inode.raw.fileSize := by
    rw [fileSize, isDir, hmode, fileSize, isDir,
      show (s.inode.raw.iMode / 4096 * 4096 + mode % 4096) / 4096 = s.inode.raw.iMode / 4096 by omega]
    rfl
  exact ⟨hf.size.trans hsize.symm, hmode.symm, hf.nlink, hf.uid.trans hhigh.symm, hf.gid⟩

/-- a change of the owner: the ids lose their upper halves -/
theorem setOwner_faithful_iff (uid gid : ℕ) :
    Faithful ((s.inode.raw.setIUid uid).setIGid gid) { s.vfs with uid := uid, gid := gid } ↔ uid < 65536 ∧ gid < 65536 := by
  have hnarrow : ∀ id : ℕ, id % 65536 < 65536 := fun id => mod_lt _ (by decide)
  obtain ⟨hmode, huid⟩ := Words.halves (low_lt (s.inode.raw.word 0)) (hnarrow uid)
  obtain ⟨hgid, hlinks⟩ := Words.halves (hnarrow gid) (high_lt (s.inode.raw.word 6))
  have hmode' : ((s.inode.raw.setIUid uid).setIGid gid).iMode = s.inode.raw.iMode := hmode
  have huid' : ((s.inode.raw.setIUid uid).setIGid gid).iUid = uid % 65536 := huid
  have hgid' : ((s.inode.raw.setIUid uid).setIGid gid).iGid = gid % 65536 := hgid
  have hsize : ((s.inode.raw.setIUid uid).setIGid gid).fileSize = s.inode.raw.fileSize := by
    rw [fileSize, isDir, hmode']
    rfl
  constructor
  · intro h
    have h1 : uid = uid % 65536 := h.uid.trans huid'
    have h2 : gid = gid % 65536 := h.gid.trans hgid'
    omega
  · rintro ⟨h1, h2⟩
    exact ⟨hf.size.trans hsize.symm, hf.mode.trans hmode'.symm, hf.nlink.trans hlinks.symm,
      (mod_eq_of_lt h1).symm.trans huid'.symm, (mod_eq_of_lt h2).symm.trans hgid'.symm⟩

theorem setLinks_faithful {n : ℕ} (hn : n < 65536) : Faithful (setLinks n s).inode.raw (setLinks n s).vfs := by
  obtain ⟨hgid, hlinks⟩ := Words.halves (low_lt (s.inode.raw.word 6)) hn
  exact ⟨hf.size, hf.mode, hlinks.symm, hf.uid, hf.gid.trans hgid.symm⟩

end

/-- **One call.** It ends with the write of the record, and the VFS inode shows what the record has if and only if the call
fits. -/
theorem perform_faithful_iff (h : Recorded P ino K p) (hs : Loaded P ino K s) (hf : Faithful s.inode.raw s.vfs)
    {call : MetadataCall} (hr : perform P ino call s = .ok () s') :
    Loaded P ino K s' ∧ (Faithful s'.inode.raw s'.vfs ↔ call.Fits s) := by
  -- it is enough to look at the state before the write of the record
  have hback : ∀ {s1 : Opened Image}, writeBack P ino s1 = .ok () s' → Changed P K s s1 →
      (Faithful s1.inode.raw s1.vfs ↔ call.Fits s) →
      Loaded P ino K s' ∧ (Faithful s'.inode.raw s'.vfs ↔ call.Fits s) := by
    intro s1 hw hc hiff
    obtain ⟨hl, hraw, hvfs⟩ := writeBack_loaded h hc.places (hc.tail h hs) hw
    rw [hraw, hvfs]
    exact ⟨hl, hiff⟩
  have hword : ∀ {i : Fin 40} {x : UInt32} {f : Fin 40 → UInt32}, i.1 < 32 → ∀ w : Fin 40, 32 ≤ w.1 →
      update f i x w = f w := by
    intro i x f hi w hw
    refine update_of_ne (fun he => ?_) _ _
    omega
  cases call with
  | write offset data =>
    obtain ⟨n, s2, hwrite, hret⟩ := bind_eq_ok hr
    cases hret
    obtain ⟨s1, hw, hb⟩ := writeOp_wrote h.blockSize_pos hs.places hwrite
    have hle : s.vfs.size ≤ sizeAfter s.vfs offset data := by
      rw [sizeAfter]
      split_ifs
      · exact le_rfl
      · exact le_max_left ..
    exact hback hb (wrote_changed hw) (wrote_faithful_iff hf hle hw)
  | truncate size =>
    obtain ⟨s1, hk, hv, hb⟩ := truncateFile_resized hs.places hr
    refine hback hb ⟨hk.places, fun w hw => ?_⟩ (resized_faithful_iff hf hk hv)
    exact (hk.words w (untouched_behind hw)).trans (hword (by decide) w hw)
  | setPermissions mode =>
    exact hback hr ⟨hs.places, hword (by decide)⟩ (iff_of_true (setPermissions_faithful hf mode) trivial)
  | setOwner uid gid =>
    refine hback hr ⟨hs.places, fun w hw => ?_⟩ (setOwner_faithful_iff hf uid gid)
    exact (hword (f := (s.inode.raw.setIUid uid).word) (i := 6) (by decide) w hw).trans (hword (i := 0) (by decide) w hw)
  | incNlink =>
    refine hback hr ⟨hs.places, hword (by decide)⟩ (iff_of_true (setLinks_faithful hf ?_) trivial)
    omega
  | decNlink =>
    refine hback hr ⟨hs.places, hword (by decide)⟩ (iff_of_true (setLinks_faithful hf ?_) trivial)
    have := high_lt (s.inode.raw.word 6)
    rw [iLinksCount]
    omega

def afterPerform (P : Params) (ino : ℕ) (s : Opened Image) (call : MetadataCall) : Opened Image :=
  final (perform P ino call s)

def Succeeds (P : Params) (ino : ℕ) (s : Opened Image) (call : MetadataCall) : Prop :=
  ∃ s', perform P ino call s = .ok () s'

instance (call : MetadataCall) : Decidable (Succeeds P ino s call) :=
  decidable_of_iff ((Fallible.value (perform P ino call s)).isSome = true) <| by
    rw [Succeeds]
    cases hr : perform P ino call s with
    | ok a s' => exact iff_of_true rfl ⟨s', rfl⟩
    | error e s' => exact iff_of_false (by simp [Fallible.value]) (by simp)

theorem survives_each_iff (h : Recorded P ino K p) (hs : Loaded P ino K s) (hf : Faithful s.inode.raw s.vfs)
    {calls : List MetadataCall} (hok : Each (afterPerform P ino) (Succeeds P ino) s calls) :
    Each (afterPerform P ino) (fun s call => Survives P ino (afterPerform P ino s call)) s calls ↔
      Each (afterPerform P ino) (fun s call => call.Fits s) s calls := by
  induction calls generalizing s with
  | nil => exact Iff.rfl
  | cons call rest ih =>
    obtain ⟨⟨s', hr⟩, hrest⟩ := hok
    have hafter : afterPerform P ino s call = s' := by rw [afterPerform, hr]; rfl
    obtain ⟨hl, hiff⟩ := perform_faithful_iff h hs hf hr
    rw [hafter] at hrest
    simp only [Each, hafter, survives_iff h hl, hiff]
    exact and_congr_right fun hfit => ih hl (hiff.2 hfit) hrest

end Calls

/-- **Metadata survive a reload as long as they fit.** From an inode that was read from disk, along every sequence of calls that
succeed: after each of them the inode survives a drop and a reload, if and only if each of them stores values that fit. -/
theorem metadata_survives_iff {P : Params} {ino : ℕ} {p : Places} {fs fs' : ExtFileSystem Image} {s : Opened Image}
    (h : Recorded P ino (places fs) p) {memory : List Grant} (hopen : openInode P ino memory fs = .ok s fs')
    {calls : List MetadataCall} (hok : Each (afterPerform P ino) (Succeeds P ino) s calls) :
    Each (afterPerform P ino) (fun s call => Survives P ino (afterPerform P ino s call)) s calls ↔
      Each (afterPerform P ino) (fun s call => call.Fits s) s calls := by
  obtain ⟨hl, hf⟩ := openInode_loaded h rfl hopen
  exact survives_each_iff h hl hf hok

/-- the small filesystem with an empty regular file, inode 2, that belongs to root -/
def fileFs : ExtFileSystem Image :=
  { smallFs with
    device := fun b w => if b = 5 ∧ w = 32 then 0x81A4 else if b = 5 ∧ w = 38 then 0x10000 else smallFs.device b w }

theorem fileFs_recorded : Recorded smallParams 2 (places fileFs) ⟨3, 4, 5, 0⟩ where
  ino_ne := by decide
  words := by decide
  size_ge := by decide
  fits := by decide
  blockSize_pos := by decide
  perGroup := by decide
  narrow := by decide
  group := rfl
  table h := by cases h
  apart q hq := by
    rw [mem_singleton.1 hq]
    decide

def openedFile : Opened Image :=
  ⟨⟨fileFs, readRawInode smallParams (fileFs.device 5) 128, .new⟩, vfsOf (readRawInode smallParams (fileFs.device 5) 128), [],
    ⟨2 ^ 64 - 1, 32⟩, []⟩

theorem metadata_survives_iff_openedFile :
    Each (afterPerform smallParams 2) (fun s call => Survives smallParams 2 (afterPerform smallParams 2 s call)) openedFile
      [.setPermissions 0x180, .setOwner 1000 100, .incNlink, .truncate 4294967295, .write 10 [1, 2], .decNlink] := by
  refine (metadata_survives_iff (s := openedFile) fileFs_recorded rfl ?_).2 ?_
  · decide +kernel
  · decide +kernel

/-- **An owner becomes root.** The file is given to user 65536; after a reload it belongs to user 0. -/
theorem owner_truncated : ∃ s s' fs', openInode smallParams 2 [] fileFs = .ok openedFile fileFs ∧
    perform smallParams 2 (.setOwner 65536 100) openedFile = .ok () s ∧ s.vfs.uid = 65536 ∧
    openInode smallParams 2 [] (dropInode smallParams 2 s) = .ok s' fs' ∧ s'.vfs.uid = 0 :=
  ⟨_, _, _, rfl, rfl, rfl, rfl, by decide +kernel⟩

end Kontsnor.Ext
