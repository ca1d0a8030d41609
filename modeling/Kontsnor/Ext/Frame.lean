/-
What the calls on a file leave alone (`fs/ext/alloc.rs`, `fs/ext/file.rs`, `memory/page_cache.rs`).

A group descriptor names the bitmaps and the inode table of its group. No call changes these numbers; calls change the counters
and bits. In the raw inode, allocation and release change `i_block` and `i_blocks` only.
-/
import Kontsnor.Ext.AllocSpec
import Kontsnor.Ext.File

namespace Kontsnor.Ext

open Fallible

open Words (Buffer)

/-! ## Places -/

structure Places where
  blockBitmap : ℕ
  inodeBitmap : ℕ
  inodeTable : ℕ
  inodeTableHi : ℕ

def GroupDescriptor.places (gd : GroupDescriptor) : Places :=
  ⟨gd.bgBlockBitmap, gd.bgInodeBitmap, gd.bgInodeTable, gd.bgInodeTableHi⟩

def places {D : Type} (fs : ExtFileSystem D) : List Places := fs.groupDescriptors.map GroupDescriptor.places

variable {α : Type} {w : Fin 40}

section Devices

variable {D : Type} {P : Params} {K : List Places}

abbrev KeepsPlaces (K : List Places) {α : Type} (x : FsM D α) (Q : α → Prop) : Prop :=
  Fallible.Keeps (fun fs : ExtFileSystem D => places fs = K) x Q

abbrev RespectsPlaces (D : Type) (K : List Places) {α : Type} (x : FsM D α) : Prop := KeepsPlaces K x fun _ => True

theorem onDevice_places {x : EStateM String D α} : RespectsPlaces D K (onDevice x) := by
  intro fs hfs
  rw [onDevice]
  cases x fs.device with
  | ok a d => exact ⟨hfs, trivial⟩
  | error e d => exact hfs

theorem takeBlocks_places {g n : ℕ} (fs : ExtFileSystem D) : places (takeBlocks P g n fs) = places fs := by
  apply map_modify_of_eq
  intro gd
  rfl

theorem noFreeBlocks_places {g : ℕ} (fs : ExtFileSystem D) : places (noFreeBlocks g fs) = places fs := by
  apply map_modify_of_eq
  intro gd
  rfl

theorem giveBlock_places {g : ℕ} (fs : ExtFileSystem D) : places (giveBlock g fs) = places fs := by
  apply map_modify_of_eq
  intro gd
  rfl

theorem giveInode_places {g : ℕ} {isDir : Bool} (fs : ExtFileSystem D) : places (giveInode g isDir fs) = places fs := by
  apply map_modify_of_eq
  intro gd
  rfl

variable [Store D]

theorem readBlocks_places (b : ℕ) : RespectsPlaces D K (readBlocks b) := onDevice_places

theorem writeBlocks_places (b : ℕ) (buf : Buffer) : RespectsPlaces D K (writeBlocks b buf) :=
  onDevice_places

theorem allocGroups_places {startGroup : ℕ} {requested : ℕ} (hpos : 0 < requested) {list : List ℕ} :
    KeepsPlaces (D := D) K (allocGroups P startGroup requested list) fun v => 0 < v.2 ∧ v.2 ≤ requested := by
  induction list with
  | nil => exact .fail
  | cons gOffset rest ih =>
    refine Maintains.get fun s _ => Maintains.ite (fun _ => ih) fun _ => ?_
    refine (readBlocks_places _).attempt.bind fun found _ => ?_
    cases found with
    | none => exact ih
    | some bitmap =>
      dsimp only
      split
      · rename_i startIdx bestLen hrun
        have hlen := (findRun_spec hrun).1
        refine (writeBlocks_places _ _).bind fun _ _ => ?_
        refine (Maintains.modify fun fs hfs => (takeBlocks_places fs).trans hfs).bind fun _ _ => ?_
        exact Maintains.pure ⟨by dsimp only; omega, by dsimp only; omega⟩
      · exact (Maintains.modify fun fs hfs => (noFreeBlocks_places fs).trans hfs).bind fun _ _ => ih

theorem allocateBlocksContiguous_places (preferred count : ℕ) :
    KeepsPlaces (D := D) K (allocateBlocksContiguous P preferred count) fun v => 0 < v.2 ∧ v.2 ≤ count := by
  refine .get fun s _ => .check fun _ => ?_
  refine .check fun hreq => ?_
  refine (allocGroups_places (by omega)).mono fun v hv => ⟨hv.1, ?_⟩
  omega

theorem allocateBlock_places : RespectsPlaces D K (allocateBlock P) :=
  (allocateBlocksContiguous_places 0 1).drop

theorem writeInode_places (ino : ℕ) (raw : ExtRawInode) : RespectsPlaces D K (writeInode P ino raw) := by
  refine .get fun s _ => ?_
  split
  · exact .fail
  · exact (readBlocks_places _).bind fun _ _ => writeBlocks_places _ _

/-! ## Allocation for an inode -/

/-- the words outside of `i_blocks` and `i_block` -/
def Untouched (w : Fin 40) : Prop := w ≠ 7 ∧ ¬ (10 ≤ w.1 ∧ w.1 < 25)

instance (w : Fin 40) : Decidable (Untouched w) := inferInstanceAs (Decidable (_ ∧ _))

/-- the places, and the words outside of `i_blocks` and `i_block`, are as given -/
structure Kept (K : List Places) (W : Fin 40 → UInt32) (s : ExtInode D) : Prop where
  places : places s.fs = K
  words : ∀ w, Untouched w → s.raw.word w = W w

variable {W : Fin 40 → UInt32} {ino : ℕ}

abbrev KeepsInode (K : List Places) (W : Fin 40 → UInt32) {α : Type} (x : InoM D α) (Q : α → Prop) : Prop :=
  Fallible.Keeps (Kept K W) x Q

abbrev RespectsInode (D : Type) (K : List Places) (W : Fin 40 → UInt32) {α : Type} (x : InoM D α) : Prop :=
  KeepsInode K W x fun _ => True

omit [Store D] in
theorem onFs_kept {x : FsM D α} {Q : α → Prop} (h : KeepsPlaces K x Q) : KeepsInode K W (onFs x) Q := by
  intro s hs
  have hr := h s.fs hs.places
  rw [onFs]
  cases hx : x s.fs with
  | ok a fs =>
    rw [hx] at hr
    exact ⟨⟨hr.1, hs.words⟩, hr.2⟩
  | error e fs =>
    rw [hx] at hr
    exact ⟨hr, hs.words⟩

section

variable (raw : ExtRawInode)

theorem setIBlocks_word {n : ℕ} (h : Untouched w) : (raw.setIBlocks n).word w = raw.word w :=
  Function.update_of_ne h.1 _ _

theorem setIBlock_word {buf : Buffer} (h : Untouched w) : (raw.setIBlock buf).word w = raw.word w := if_neg h.2

theorem setPointer_word {i : ℕ} (hi : i < 15) {block : ℕ} (h : Untouched w) :
    (raw.setPointer i block).word w = raw.word w :=
  if_neg fun he => h.2 (by omega)

end

omit [Store D] in
theorem setRaw_kept {f : ExtInode D → ExtRawInode} (h : ∀ s w, Untouched w → (f s).word w = s.raw.word w) :
    RespectsInode D K W (modify fun s => { s with raw := f s }) :=
  .modify fun s hs => ⟨hs.places, fun w hw => (h s w hw).trans (hs.words w hw)⟩

omit [Store D] in
theorem setCache_kept {f : ExtInode D → ExtentCache} :
    RespectsInode D K W (modify fun s => { s with extentCache := f s }) :=
  .modify fun _ hs => ⟨hs.places, hs.words⟩

omit [Store D] in
theorem answerFrom_kept (ext : Ext4Extent) (b : ℕ) : RespectsInode D K W (answerFrom ext b) :=
  setCache_kept.drop

theorem descend_kept (b fuel child : ℕ) : RespectsInode D K W (descend P b fuel child) := by
  induction fuel generalizing child with
  | zero => exact .fail
  | succ fuel ih =>
    refine (onFs_kept (readBlocks_places child)).bind fun buf _ => ?_
    refine .check fun _ => .ite (fun _ => ?_) fun _ => ?_
    · split
      · exact answerFrom_kept _ b
      · exact .check fun _ => .pure trivial
    · refine .check fun _ => ?_
      split
      · exact ih _
      · exact .pure trivial

theorem resolveExtentBlockLen_kept {iBlock : Fin 15 → UInt32} (b : ℕ) :
    RespectsInode D K W (resolveExtentBlockLen P iBlock b) := by
  refine .get fun s _ => ?_
  split
  · exact .pure trivial
  · refine .check fun _ => .ite (fun _ => ?_) fun _ => ?_
    · split
      · exact answerFrom_kept _ b
      · exact .pure trivial
    · split
      · exact descend_kept _ _ _
      · exact .pure trivial

theorem saveInode_kept {root : Buffer} {n : ℕ} : RespectsInode D K W (saveInode P ino root n) := by
  refine (setRaw_kept fun s w hw => ?_).bind fun _ _ => .get fun s _ => onFs_kept (writeInode_places ino s.raw)
  rw [setIBlocks_word _ hw, setIBlock_word _ hw]

theorem saveCount_kept (n : ℕ) : RespectsInode D K W (saveCount P ino n) :=
  (setRaw_kept fun _ _ hw => setIBlocks_word _ hw).bind fun _ _ =>
    .get fun s _ => onFs_kept (writeInode_places ino s.raw)

section

variable (root : Buffer) (hdr : Ext4ExtentHeader)
include hdr

variable (b phys n : ℕ)

theorem splitRoot_kept : RespectsInode D K W (splitRoot P ino root hdr b phys n) :=
  (onFs_kept allocateBlock_places).bind fun _ _ => (onFs_kept (writeBlocks_places _ _)).bind fun _ _ => saveInode_kept

theorem addLeaf_kept : RespectsInode D K W (addLeaf P ino root hdr b phys n) :=
  (onFs_kept allocateBlock_places).bind fun _ _ => (onFs_kept (writeBlocks_places _ _)).bind fun _ _ => saveInode_kept

theorem growTree_kept : RespectsInode D K W (growTree P ino root hdr) :=
  (onFs_kept allocateBlock_places).bind fun _ _ => (onFs_kept (writeBlocks_places _ _)).bind fun _ _ => saveInode_kept

theorem registerInRoot_kept : RespectsInode D K W (registerInRoot P ino root hdr b phys n) :=
  .ite (fun _ => saveInode_kept) fun _ =>
    .ite (fun _ => saveInode_kept) fun _ => splitRoot_kept _ _ _ _ _

end

theorem registerInLeaf_kept {leafBlock : ℕ} {leaf : Buffer} {hdr : Ext4ExtentHeader} {b phys n : ℕ} {x : InoM D Unit}
    (h : registerInLeaf P ino leafBlock leaf hdr b phys n = some x) : RespectsInode D K W x := by
  rw [registerInLeaf] at h
  split at h
  · cases h
    exact (onFs_kept (writeBlocks_places _ _)).bind fun _ _ => saveCount_kept n
  · split_ifs at h
    cases h
    exact (onFs_kept (writeBlocks_places _ _)).bind fun _ _ => saveCount_kept n

theorem allocateExtentBlockChunk_kept (fuel b count : ℕ) :
    KeepsInode (D := D) K W (allocateExtentBlockChunk P ino fuel b count) fun v => 0 < v.2 ∧ v.2 ≤ count := by
  induction fuel generalizing count with
  | zero => exact .fail
  | succ fuel ih =>
    refine setCache_kept.bind fun _ _ => (onFs_kept (allocateBlocksContiguous_places 0 count)).bind fun v hv => ?_
    obtain ⟨phys, n⟩ := v
    refine .get fun s _ => ?_
    refine .ite (fun _ => ?_) fun _ => .check fun _ => ?_
    · exact (registerInRoot_kept _ _ _ _ _).bind fun _ _ => .pure hv
    · refine (onFs_kept (readBlocks_places _)).bind fun leaf _ => ?_
      refine .check fun _ => .ite (fun _ => ?_) fun _ =>
        .fail
      split
      · rename_i x hx
        exact (registerInLeaf_kept hx).bind fun _ _ => .pure hv
      · refine .ite (fun _ => (addLeaf_kept _ _ _ _ _).bind fun _ _ => .pure hv) fun _ => ?_
        exact (growTree_kept _ _).bind fun _ _ => (ih n).mono fun v' hv' => ⟨hv'.1, hv'.2.trans hv.2⟩

theorem getOrAllocBlockChunk_kept (b count : ℕ) :
    KeepsInode (D := D) K W (getOrAllocBlockChunk P ino b count) fun v => 0 < v.2 ∧ v.2 ≤ max count 1 := by
  have halloc : KeepsInode (D := D) K W (allocateExtentBlockChunk P ino 2 b count) fun v => 0 < v.2 ∧ v.2 ≤ max count 1 :=
    (allocateExtentBlockChunk_kept 2 b count).mono fun v hv => ⟨hv.1, hv.2.trans (le_max_left ..)⟩
  refine .get fun s _ => (resolveExtentBlockLen_kept b).attempt.bind fun found _ => ?_
  split
  · refine .early ⟨?_, ?_⟩ fun _ => halloc
    · exact lt_of_lt_of_le Nat.zero_lt_one (le_max_right ..)
    · exact max_le_max_right _ (min_le_right ..)
  · exact halloc

theorem allocateZeroed_kept : RespectsInode D K W (allocateZeroed P) :=
  (onFs_kept allocateBlock_places).bind fun _ _ =>
    (onFs_kept (writeBlocks_places _ _)).drop

theorem rootPointer_kept {i : ℕ} (hi : i < 15) : RespectsInode D K W (rootPointer P ino i) := by
  refine .get fun s _ => .early trivial fun _ => ?_
  refine allocateZeroed_kept.bind fun block _ => (setRaw_kept fun _ _ hw => setPointer_word _ hi hw).bind fun _ _ => ?_
  exact (saveCount_kept 1).drop

theorem dataPointer_kept {sib i : ℕ} : RespectsInode D K W (dataPointer P ino sib i) := by
  refine (onFs_kept (readBlocks_places _)).bind fun buf _ => .early trivial fun _ => ?_
  refine (onFs_kept allocateBlock_places).bind fun phys _ => (onFs_kept (writeBlocks_places _ _)).bind fun _ _ => ?_
  exact (saveCount_kept 1).drop

theorem getOrAllocIndirectBlock_kept (b : ℕ) : RespectsInode D K W (getOrAllocIndirectBlock P ino b) := by
  refine .ite (fun h12 => ?_) fun _ => .ite (fun _ => ?_) fun _ => .ite (fun _ => ?_) fun _ => ?_
  · refine .get fun s _ => .early trivial fun _ => ?_
    refine (onFs_kept allocateBlock_places).bind fun block _ => ?_
    refine (setRaw_kept fun _ _ hw => setPointer_word _ (by omega) hw).bind fun _ _ => ?_
    exact (saveCount_kept 1).drop
  · exact (rootPointer_kept (by decide)).bind fun sib _ => dataPointer_kept
  · refine (rootPointer_kept (by decide)).bind fun dib _ => (onFs_kept (readBlocks_places _)).bind fun double _ => ?_
    refine .ite (fun _ => dataPointer_kept) fun _ => allocateZeroed_kept.bind fun sib _ => ?_
    refine (onFs_kept (writeBlocks_places _ _)).bind fun _ _ => (saveCount_kept 1).bind fun _ _ => ?_
    exact dataPointer_kept
  · exact .fail

/-- **Allocation changes the block pointers and counts of an inode, and nothing else of it.** -/
theorem getOrAllocChunk_kept (b count : ℕ) :
    KeepsInode (D := D) K W (getOrAllocChunk P ino b count) fun v => 0 < v.2 ∧ v.2 ≤ max count 1 := by
  refine .get fun s _ => .ite (fun _ => getOrAllocBlockChunk_kept b count) fun _ => ?_
  exact (getOrAllocIndirectBlock_kept b).bind fun _ _ => .pure ⟨Nat.one_pos, le_max_right ..⟩

omit [Store D] in
theorem answerPointer_kept {pointer : ℕ → ℕ} {b index room : ℕ} :
    RespectsInode D K W (answerPointer pointer b index room) := by
  refine .ite (fun _ => setCache_kept.drop) fun _ => .pure trivial

theorem resolveBlock_kept (b : ℕ) : RespectsInode D K W (resolveBlock P b) := by
  have hpointers : ∀ iBlock, RespectsInode D K W (resolveIndirectBlockRun P iBlock b) := by
    intro iBlock
    refine .ite (fun _ => answerPointer_kept) fun _ => .ite (fun _ => ?_) fun _ => ?_
    · refine .early trivial fun _ => ?_
      exact (onFs_kept (readBlocks_places _)).bind fun _ _ => answerPointer_kept
    · refine .ite (fun _ => ?_) fun _ => .fail
      refine .early trivial fun _ => (onFs_kept (readBlocks_places _)).bind fun _ _ => ?_
      refine .early trivial fun _ => (onFs_kept (readBlocks_places _)).bind fun _ _ => ?_
      exact answerPointer_kept
  refine .get fun s _ => ?_
  split
  · exact .pure trivial
  · refine .bind (Q := fun _ => True) ?_ fun _ _ => .pure trivial
    exact .ite (fun _ => resolveExtentBlockLen_kept _) fun _ => hpointers _

/-! ## Release -/

/-- a property of the device that reads keep, and writes to bitmaps -/
structure BitmapsApart (K : List Places) (F : D → Prop) : Prop where
  read : ∀ b, Fallible.Keeps F (Store.readBlocks b) fun _ => True
  writeBlockBitmap : ∀ p ∈ K, ∀ buf, Fallible.Keeps F (Store.writeBlocks p.blockBitmap buf) fun _ => True
  writeInodeBitmap : ∀ p ∈ K, ∀ buf, Fallible.Keeps F (Store.writeBlocks p.inodeBitmap buf) fun _ => True

theorem BitmapsApart.any : BitmapsApart K fun _ : D => True := by
  have h : ∀ {α : Type} (x : EStateM String D α), Respects (fun _ : D => True) x := by
    intro α x d _
    cases x d with
    | ok a d' => exact ⟨trivial, trivial⟩
    | error e d' => trivial
  exact ⟨fun _ => h _, fun _ _ _ => h _, fun _ _ _ => h _⟩

/-- a call keeps the places, and the property of the device -/
abbrev Frees (K : List Places) (F : D → Prop) {α : Type} (x : FsM D α) : Prop :=
  Fallible.Keeps (fun fs : ExtFileSystem D => places fs = K ∧ F fs.device) x fun _ => True

omit [Store D] in
theorem onDevice_frees {F : D → Prop} {x : EStateM String D α} (h : Respects F x) : Frees K F (onDevice x) := by
  intro fs hfs
  have hr := h fs.device hfs.2
  rw [onDevice]
  cases hx : x fs.device with
  | ok a d =>
    rw [hx] at hr
    exact ⟨⟨hfs.1, hr.1⟩, trivial⟩
  | error e d =>
    rw [hx] at hr
    exact ⟨hfs.1, hr⟩

omit [Store D] in
theorem places_mem {fs : ExtFileSystem D} (h : places fs = K) {g : ℕ} {gd : GroupDescriptor}
    (hg : fs.groupDescriptors[g]? = some gd) : gd.places ∈ K := by
  rw [← h]
  exact List.mem_map_of_mem (List.mem_of_getElem? hg)

variable {F : D → Prop} (hF : BitmapsApart K F)
include hF

theorem deallocateBlock_frees (b : ℕ) : Frees K F (deallocateBlock b) := by
  refine .early trivial fun _ => .get fun s hs => ?_
  dsimp only
  split
  · exact .fail
  · rename_i gd hgd
    have hmem := places_mem hs.1 hgd
    refine (onDevice_frees (hF.read _)).bind fun bitmap _ => .ite (fun _ => ?_) fun _ => .pure trivial
    refine (onDevice_frees (hF.writeBlockBitmap _ hmem _)).bind fun _ _ => .modify fun fs hfs => ?_
    exact ⟨(giveBlock_places fs).trans hfs.1, hfs.2⟩

theorem deallocateInode_frees (ino : ℕ) (isDir : Bool) : Frees K F (deallocateInode P ino isDir) := by
  refine .early trivial fun _ => .get fun s hs => ?_
  dsimp only
  split
  · exact .fail
  · rename_i gd hgd
    have hmem := places_mem hs.1 hgd
    refine (onDevice_frees (hF.read _)).bind fun bitmap _ => .ite (fun _ => ?_) fun _ => .pure trivial
    refine (onDevice_frees (hF.writeInodeBitmap _ hmem _)).bind fun _ _ => .modify fun fs hfs => ?_
    exact ⟨(giveInode_places fs).trans hfs.1, hfs.2⟩

theorem freeBlock_frees (b : ℕ) : Frees K F (freeBlock b) :=
  .ite (fun _ => (deallocateBlock_frees hF b).attempt.drop) fun _ =>
    .pure trivial

theorem releaseBehind_frees (b : ℕ) {inner : Buffer → FsM D Unit} (h : ∀ buf, Frees K F (inner buf)) :
    Frees K F (releaseBehind b inner) := by
  refine (onDevice_frees (hF.read b)).attempt.bind fun found _ => ?_
  cases found with
  | some buf => exact (h buf).bind fun _ _ => freeBlock_frees hF _
  | none => exact freeBlock_frees hF _

theorem freeIndirect_frees (sib : ℕ) : Frees K F (freeIndirect P sib) :=
  .early trivial fun _ =>
    releaseBehind_frees hF sib fun _ => .forEach fun b _ => freeBlock_frees hF b

theorem freeDoubleIndirect_frees {dib : ℕ} : Frees K F (freeDoubleIndirect P dib) :=
  .early trivial fun _ =>
    releaseBehind_frees hF dib fun _ => .forEach fun b _ => freeIndirect_frees hF b

/-- **The release of an inode writes bitmaps only.** -/
theorem deallocateInodeAndBlocks_frees (ino : ℕ) {raw : ExtRawInode} {isDir : Bool} :
    Frees K F (deallocateInodeAndBlocks P ino raw isDir) := by
  have hpointers : Frees K F (freePointers P raw.iBlock) :=
    (Maintains.forEach fun b _ => freeBlock_frees hF b).bind fun _ _ =>
      (freeIndirect_frees hF _).bind fun _ _ => freeDoubleIndirect_frees hF
  refine Maintains.ite (fun _ => ?_) fun _ => deallocateInode_frees hF ino isDir
  exact hpointers.bind fun _ _ => deallocateInode_frees hF ino isDir

theorem deallocateExtentNode_frees (fuel : ℕ) (buf : Buffer) (room : ℕ) :
    Frees K F (deallocateExtentNode P fuel buf room) := by
  induction fuel generalizing buf room with
  | zero =>
    refine .early trivial fun _ => .ite (fun _ => ?_) fun _ => .throw fun _ h => h
    exact .forEach fun _ _ => .forEach fun b _ => freeBlock_frees hF b
  | succ fuel ih =>
    refine .early trivial fun _ => .ite (fun _ => ?_) fun _ => ?_
    · exact .forEach fun _ _ => .forEach fun b _ => freeBlock_frees hF b
    · exact .forEach fun _ _ => releaseBehind_frees hF _ fun _ => ih _ _

theorem releaseBlock_frees (b : ℕ) : Frees K F (releaseBlock b) :=
  .early trivial fun _ => deallocateBlock_frees hF b

theorem releaseIndirect_frees (sib : ℕ) : Frees K F (releaseIndirect P sib) :=
  Maintains.ite (fun _ => Maintains.pure trivial) fun _ => (onDevice_frees (hF.read sib)).bind fun _ _ =>
    (Maintains.forEach fun b _ => releaseBlock_frees hF b).bind fun _ _ => deallocateBlock_frees hF sib

theorem releaseDouble_frees (dib : ℕ) : Frees K F (releaseDouble P dib) :=
  Maintains.ite (fun _ => Maintains.pure trivial) fun _ => (onDevice_frees (hF.read dib)).bind fun _ _ =>
    (Maintains.forEach fun b _ => releaseIndirect_frees hF b).bind fun _ _ => deallocateBlock_frees hF dib

omit hF

omit [Store D] in
theorem Frees.places {x : FsM D α} (h : Frees K (fun _ => True) x) : RespectsPlaces D K x := by
  intro fs hfs
  have hr := h fs ⟨hfs, trivial⟩
  cases hx : x fs with
  | ok a fs' =>
    rw [hx] at hr
    exact ⟨hr.1.1, trivial⟩
  | error e fs' =>
    rw [hx] at hr
    exact hr.1

theorem releasePointers_kept : RespectsInode D K W (releasePointers P) := by
  have hone : ∀ b, RespectsInode D K W (onFs (releaseIndirect P b)) := fun b =>
    onFs_kept (releaseIndirect_frees .any b).places
  have htwo : ∀ b, RespectsInode D K W (onFs (releaseDouble P b)) := fun b =>
    onFs_kept (releaseDouble_frees .any b).places
  refine .get fun s _ => .bind (Q := fun _ => True)
    (onFs_kept (Frees.places (.forEach fun b _ => releaseBlock_frees .any b))) fun _ _ => ?_
  refine (setRaw_kept fun _ _ hw => setIBlock_word _ hw).bind fun _ _ => .get fun s _ => ?_
  refine (hone _).bind fun _ _ => (setRaw_kept fun _ _ hw => setPointer_word _ (by decide) hw).bind fun _ _ => ?_
  refine .get fun s _ => (htwo _).bind fun _ _ => ?_
  exact setRaw_kept fun _ _ hw => setPointer_word _ (by decide) hw

theorem releaseExtents_kept : RespectsInode D K W (releaseExtents P) := by
  refine .get fun s _ => .bind (Q := fun _ => True) ?_ fun _ _ => ?_
  · exact (onFs_kept (deallocateExtentNode_frees .any _ _ _).places).attempt.mono fun _ _ => trivial
  · exact setCache_kept.bind fun _ _ => setRaw_kept fun _ _ hw => setIBlock_word _ hw

/-- **The release of all blocks changes the block pointers of the inode, and nothing else of it.** -/
theorem releaseBlocks_kept : RespectsInode D K W (releaseBlocks P) :=
  .get fun _ _ => .early trivial fun _ =>
    .ite (fun _ => releaseExtents_kept) fun _ => releasePointers_kept

end Devices

end Kontsnor.Ext
