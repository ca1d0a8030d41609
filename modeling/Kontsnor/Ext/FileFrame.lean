/-
What reads and writes of a file leave alone (`fs/ext/file.rs`, `memory/page_cache.rs`).

Of the metadata of a file, a write changes the size, in both inodes, and the block count.
-/
import Kontsnor.Ext.PageCache
import Kontsnor.Ext.Frame

namespace Kontsnor.Ext

open List Function Nat

open Bytes (ByteBuffer)
open Fallible (Maintains get_bind modify_bind bind_eq_ok)

/-- the words of the raw inode after the size has become `z` -/
def wordsAt (W : Fin 40 → UInt32) (v : VfsInode) (z : ℕ) : Fin 40 → UInt32 :=
  if z = v.size then W else update W 1 (UInt32.ofNat (z % 2 ^ 32))

/-- the metadata are those of `W` and `v`, except that the size is `z` -/
structure Wrote {D : Type} (K : List Places) (W : Fin 40 → UInt32) (v : VfsInode) (z : ℕ) (s : Opened D) : Prop where
  inode : Kept K (wordsAt W v z) s.inode
  vfs : s.vfs = { v with size := z, blocks := s.vfs.blocks }

section Writes

variable {D α : Type} {P : Params} {ino z offset : ℕ} {K : List Places} {W : Fin 40 → UInt32} {v : VfsInode}
  {s s' : Opened D} {Q : α → Prop}

abbrev KeepsFile (K : List Places) (W : Fin 40 → UInt32) (v : VfsInode) (z : ℕ) {α : Type} (x : FileM D α) (Q : α → Prop) :
    Prop :=
  Fallible.Keeps (Wrote K W v z) x Q

abbrev RespectsFile (D : Type) (K : List Places) (W : Fin 40 → UInt32) (v : VfsInode) (z : ℕ) {α : Type}
    (x : FileM D α) : Prop := KeepsFile K W v z x fun _ => True

theorem onInode_wrote {x : InoM D α} (h : KeepsInode K (wordsAt W v z) x Q) : KeepsFile K W v z (onInode x) Q := by
  intro s hs
  have hr := h s.inode hs.inode
  rw [onInode]
  cases hx : x s.inode with
  | ok a i =>
    rw [hx] at hr
    exact ⟨⟨hr.1, hs.vfs⟩, hr.2⟩
  | error e i =>
    rw [hx] at hr
    exact ⟨hr, hs.vfs⟩

theorem modify_wrote {f : Opened D → Opened D} (hi : ∀ s, (f s).inode = s.inode) (hv : ∀ s, (f s).vfs = s.vfs) :
    RespectsFile D K W v z (modify f) :=
  .modify fun s hs => ⟨by rw [hi]; exact hs.inode, by rw [hv]; exact hs.vfs⟩

theorem growTo_wrote (h : Wrote K W v z s) (hle : v.size ≤ z) (target : ℕ) :
    Wrote K W v (max z target) (growTo target s) := by
  have hsize : s.vfs.size = z := by rw [h.vfs]
  rw [growTo, hsize]
  by_cases hlt : z < target
  · rw [if_pos hlt, max_eq_right hlt.le]
    have hne : target ≠ v.size := by omega
    refine ⟨⟨h.inode.places, fun w hw => ?_⟩, by dsimp only; rw [h.vfs]⟩
    have hword := h.inode.words w hw
    rw [wordsAt, if_neg hne]
    dsimp only [ExtRawInode.setISize]
    by_cases h1 : w = 1
    · rw [h1, update_self, update_self]
    · rw [update_of_ne h1, update_of_ne h1, hword, wordsAt]
      split_ifs
      · rfl
      · rw [update_of_ne h1]
  · rw [if_neg hlt, max_eq_left (not_lt.1 hlt)]
    exact h

theorem nextGrant_wrote : RespectsFile D K W v z nextGrant := by
  refine .get fun s _ => ?_
  split
  · exact .pure trivial
  · refine .bind (Q := fun _ => True) ?_ fun _ _ => .pure trivial
    exact modify_wrote (fun _ => rfl) fun _ => rfl

theorem allocateFrame_wrote : RespectsFile D K W v z allocateFrame := by
  refine nextGrant_wrote.bind fun grant _ => .bind (Q := fun _ => True) ?_ fun _ _ => ?_
  · exact modify_wrote (fun _ => rfl) fun _ => rfl
  · exact .early trivial fun _ => .fail

theorem markDirty_wrote : RespectsFile D K W v z (modify (markDirty offset)) := by
  refine modify_wrote (fun s => ?_) fun s => ?_
  all_goals
    rw [markDirty]
    split <;> rfl

theorem copyIntoPage_wrote {offset pageOffset : ℕ} {data : List UInt8} :
    RespectsFile D K W v z (modify (copyIntoPage offset pageOffset data)) := by
  refine modify_wrote (fun s => ?_) fun s => ?_
  all_goals
    rw [copyIntoPage]
    split <;> rfl

theorem pageCacheInsertOrGet_wrote {page : Page} : RespectsFile D K W v z (pageCacheInsertOrGet offset page) := by
  refine .get fun s _ => ?_
  split
  · exact .pure trivial
  · refine .bind (Q := fun _ => True) ?_ fun _ _ => .pure trivial
    exact modify_wrote (fun _ => rfl) fun _ => rfl

theorem onDisk_wrote {x : FsM D α} (h : KeepsPlaces K x Q) : KeepsFile K W v z (onInode (onFs x)) Q :=
  onInode_wrote (onFs_kept h)

variable [Store D]

theorem readLoop_wrote (size fuel offset remaining : ℕ) :
    RespectsFile D K W v z (readLoop P size fuel offset remaining) := by
  induction fuel generalizing offset remaining with
  | zero => exact .pure trivial
  | succ fuel ih =>
    refine .ite (fun _ => ?_) fun _ => .pure trivial
    refine (onInode_wrote (resolveBlock_kept _)).bind fun phys _ => .bind (Q := fun _ => True) ?_ fun chunk _ => ?_
    · refine .early trivial fun _ => ?_
      exact (onDisk_wrote (readBlocks_places _)).drop
    · exact (ih _ _).drop

theorem readFile_wrote (offset len : ℕ) : RespectsFile D K W v z (readFile P offset len) :=
  .get fun _ _ => .early trivial fun _ =>
    .early trivial fun _ => readLoop_wrote _ _ _ _

theorem fillLoop_wrote (aligned fuel total : ℕ) : RespectsFile D K W v z (fillLoop P aligned fuel total) := by
  induction fuel generalizing total with
  | zero => exact .pure trivial
  | succ fuel ih =>
    refine .ite (fun _ => ?_) fun _ => .pure trivial
    refine (readFile_wrote _ _).bind fun chunk _ => .early trivial fun _ => ?_
    exact (ih _).drop

theorem getOrCreatePageInner_wrote (offset : ℕ) : RespectsFile D K W v z (getOrCreatePageInner P offset) := by
  refine .bind (Q := fun _ => True) (fun s hs => ⟨hs, trivial⟩) fun found _ => ?_
  cases found with
  | some page => exact .pure trivial
  | none =>
    exact allocateFrame_wrote.bind fun _ _ => (fillLoop_wrote _ _ _).bind fun _ _ => pageCacheInsertOrGet_wrote

theorem getOrCreatePageForWrite_wrote {skipRead isFullPage : Bool} :
    RespectsFile D K W v z (getOrCreatePageForWrite P offset skipRead isFullPage) := by
  refine .get fun s _ => .ite (fun _ => markDirty_wrote) fun _ => .ite (fun _ => ?_) fun _ => ?_
  · exact allocateFrame_wrote.bind fun _ _ => modify_wrote (fun _ => rfl) fun _ => rfl
  · exact (getOrCreatePageInner_wrote offset).bind fun _ _ => markDirty_wrote

theorem mapLoop_wrote (remaining last fuel b : ℕ) (chunk : ℕ × ℕ) :
    RespectsFile D K W v z (mapLoop P ino remaining last fuel b chunk) := by
  induction fuel generalizing b chunk with
  | zero => exact .pure trivial
  | succ fuel ih =>
    refine .ite (fun _ => ?_) fun _ => .pure trivial
    refine .bind (Q := fun _ => True) ?_ fun chunk' _ => ih _ _
    refine .early trivial fun _ => ?_
    exact (onInode_wrote (getOrAllocChunk_kept _ _)).drop

theorem writeRun_places (n b : ℕ) (bytes : ByteBuffer) : RespectsPlaces D K (writeRun P n b bytes) := by
  induction n generalizing b bytes with
  | zero => exact .pure trivial
  | succ n ih => exact (writeBlocks_places _ _).bind fun _ _ => ih _ _

theorem writeLoop_wrote (hbs : 0 < P.blockSize) (fuel offset : ℕ) (data : List UInt8) (hfuel : data.length ≤ fuel) :
    KeepsFile (D := D) K W v z (writeLoop P ino fuel offset data) fun stop => stop = offset + data.length := by
  induction fuel generalizing offset data with
  | zero => exact .pure (by omega)
  | succ fuel ih =>
    refine .ite (fun hnil => .pure (by rw [hnil]; rfl)) fun hdata => ?_
    refine .ite (fun hwhole => ?_) fun _ => ?_
    · refine (onInode_wrote (getOrAllocChunk_kept _ _)).bind fun chunk hchunk => ?_
      obtain ⟨phys, n⟩ := chunk
      obtain ⟨h1, h2⟩ := hchunk
      refine (onDisk_wrote (writeRun_places _ _ _)).bind fun _ _ => ?_
      -- the chunk is not longer than the data
      have hn : n * P.blockSize ≤ data.length := by
        have hdiv : n ≤ data.length / P.blockSize := by
          have hone : 1 ≤ data.length / P.blockSize := (one_le_div_iff hbs).2 hwhole.2
          omega
        exact (mul_le_mul_right _ hdiv).trans (div_mul_le_self ..)
      have hone : 1 ≤ n * P.blockSize := mul_pos h1 hbs
      refine (ih _ (data.drop (n * P.blockSize)) (by rw [length_drop]; omega)).mono fun stop hstop => ?_
      rw [hstop, length_drop]
      omega
    · refine (onInode_wrote (getOrAllocChunk_kept _ _)).bind fun chunk _ => ?_
      refine (onDisk_wrote (readBlocks_places _)).bind fun _ _ => (onDisk_wrote (writeBlocks_places _ _)).bind fun _ _ => ?_
      have hmod := mod_lt offset hbs
      refine (ih _ (data.drop _) (by rw [length_drop]; omega)).mono fun stop hstop => ?_
      rw [hstop, length_drop]
      omega

theorem writeOnePage_wrote (hle : v.size ≤ z) {data : List UInt8} {chunk chunk' : ℕ × ℕ}
    (h : Wrote K W v z s) (hr : writeOnePage P ino offset data chunk s = .ok chunk' s') :
    Wrote K W v (max z (offset + min data.length (4096 - offset % 4096))) s' := by
  obtain ⟨c, s1, hmap, hrest⟩ := bind_eq_ok hr
  have h₁ := ((mapLoop_wrote _ _ _ _ _).ok h hmap).1
  rw [get_bind, modify_bind] at hrest
  set stop := max z (offset + min data.length (4096 - offset % 4096))
  have h₂ : Wrote K W v stop _ := growTo_wrote h₁ hle (offset + min data.length (4096 - offset % 4096))
  refine (Maintains.ok (E := fun _ => Wrote K W v stop) (Q := fun _ => True) ?_ h₂ hrest).1
  refine (asIoError_maintains getOrCreatePageForWrite_wrote).bind fun _ _ => ?_
  exact copyIntoPage_wrote.bind fun _ _ => Maintains.pure trivial

theorem writePagesLoop_wrote (hle : v.size ≤ z) {fuel : ℕ} {data : List UInt8} {chunk : ℕ × ℕ}
    (hfuel : data.length ≤ fuel) (h : Wrote K W v z s) (hr : writePagesLoop P ino fuel offset data chunk s = .ok () s') :
    Wrote K W v (if data = [] then z else max z (offset + data.length)) s' := by
  induction fuel generalizing z offset data chunk s with
  | zero =>
    have hnil : data = [] := eq_nil_of_length_eq_zero (le_zero.1 hfuel)
    cases hr
    rw [if_pos hnil]
    exact h
  | succ fuel ih =>
    rw [writePagesLoop] at hr
    by_cases hnil : data = []
    · rw [if_pos hnil] at hr ⊢
      cases hr
      exact h
    · rw [if_neg hnil] at hr ⊢
      obtain ⟨c, s1, hpage, hrest⟩ := bind_eq_ok hr
      have h₁ := writeOnePage_wrote hle h hpage
      set n := min data.length (4096 - offset % 4096) with hn
      have h₂ := ih (hle.trans (le_max_left ..)) (by rw [length_drop]; omega) h₁ hrest
      -- the last page ends where the data end
      have hsize : (if data.drop n = [] then max z (offset + n) else
          max (max z (offset + n)) (offset + n + (data.drop n).length)) = max z (offset + data.length) := by
        rw [length_drop]
        split_ifs with hall
        · have : n = data.length := by
            have := drop_eq_nil_iff.1 hall
            omega
          rw [this]
        · omega
      rwa [hsize] at h₂

omit [Store D] in
/-- the block count of the VFS inode is not among the metadata -/
theorem setBlocks_wrote (h : Wrote K W v z s) {n : ℕ} : Wrote K W v z { s with vfs := { s.vfs with blocks := n } } := by
  refine ⟨h.inode, ?_⟩
  rw [h.vfs]

theorem writePageCache_wrote {buf : List UInt8} {n : ℕ} (h : Wrote K W v v.size s)
    (hr : writePageCache P ino offset buf s = .ok n s') :
    ∃ s1, Wrote K W v (if buf = [] then v.size else max v.size (offset + buf.length)) s1 ∧
      writeBack P ino s1 = .ok () s' := by
  obtain ⟨_, s1, hloop, hrest⟩ := bind_eq_ok hr
  obtain ⟨_, s2, hfinish, hret⟩ := bind_eq_ok hrest
  cases hret
  exact ⟨_, setBlocks_wrote (writePagesLoop_wrote le_rfl le_rfl h hloop), hfinish⟩

theorem writeFile_wrote (hbs : 0 < P.blockSize) {buf : List UInt8} {n : ℕ}
    (h : Wrote K W v v.size s) (hr : writeFile P ino offset buf s = .ok n s') :
    ∃ s1, Wrote K W v (max v.size (offset + buf.length)) s1 ∧ writeBack P ino s1 = .ok () s' := by
  rw [writeFile, get_bind] at hr
  split_ifs at hr with hlink
  · rw [modify_bind, modify_bind] at hr
    obtain ⟨_, s2, hback, hret⟩ := bind_eq_ok hr
    cases hret
    refine ⟨_, growTo_wrote (s := ⟨{ s.inode with raw := s.inode.raw.setIBlock _ }, s.vfs, s.pages, s.readahead, s.memory⟩)
      ⟨⟨h.inode.places, fun w hw => ?_⟩, h.vfs⟩ le_rfl _, hback⟩
    exact (setIBlock_word _ hw).trans (h.inode.words w hw)
  · obtain ⟨stop, s1, hloop, hrest⟩ := bind_eq_ok hr
    obtain ⟨h₁, rfl⟩ := (writeLoop_wrote hbs _ _ _ le_rfl).ok h hloop
    rw [modify_bind] at hrest
    obtain ⟨_, s2, hfinish, hret⟩ := bind_eq_ok hrest
    cases hret
    exact ⟨_, setBlocks_wrote (growTo_wrote h₁ le_rfl _), hfinish⟩

end Writes

end Kontsnor.Ext
