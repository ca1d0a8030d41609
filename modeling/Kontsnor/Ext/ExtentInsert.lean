/-
What an extent insertion does to the tree, over a device that does not fail.

`Later fs fs' written`: a stretch of the driver's own work. Blocks only go from free to used, and no block is written but
`written` and those the filesystem keeps for itself; so a tree that none of `written` belongs to survives it.
-/
import Kontsnor.Ext.ExtentSpec

namespace Kontsnor.Ext

open List Function Leaf Kontsnor.Ext.Tree

open Fallible (get_bind modify_bind bind_ok bind_error)
open Words (Buffer)
open Ascending (mem_insertBy length_insertBy)

variable {P : Params} {ino : ℕ} {s s' : ExtInode Image} {t : Tree} {fs fs' fs'' : ExtFileSystem Image}

/-! ## Stretches of work -/

structure Later (P : Params) (ino : ℕ) (fs fs' : ExtFileSystem Image) (written : List ℕ) : Prop where
  layout_eq : layout fs' = layout fs
  used : ∀ b, (layout fs).Data b → (layout fs).used fs.device b = true → (layout fs).used fs'.device b = true
  frame : ∀ b, ¬Reserved P ino (layout fs) b → b ∉ written → fs'.device b = fs.device b

theorem Later.trans {ws ws' : List ℕ} (h : Later P ino fs fs' ws) (h' : Later P ino fs' fs'' ws') :
    Later P ino fs fs'' (ws ++ ws') where
  layout_eq := h'.layout_eq.trans h.layout_eq
  used b hd hu := by
    have := h'.used b (by rw [h.layout_eq]; exact hd) (by rw [h.layout_eq]; exact h.used b hd hu)
    rwa [h.layout_eq] at this
  frame b hr hw := by
    rw [mem_append, not_or] at hw
    rw [h'.frame b (by rw [h.layout_eq]; exact hr) hw.2, h.frame b hr hw.1]

variable {ws : List ℕ}

theorem Later.held (h : Later P ino fs fs' ws) (hh : Held P ino fs) : Held P ino fs' where
  sound := by rw [h.layout_eq]; exact hh.sound
  blockSize_ge := hh.blockSize_ge
  blockSize_le := hh.blockSize_le
  group := by
    have hlen := congrArg (fun l : Layout => l.bitmaps.length) h.layout_eq
    simp only [layout, length_map] at hlen
    rw [hlen]; exact hh.group
  guarded b hr hd := by
    rw [h.layout_eq] at hr hd ⊢
    exact h.used b hd (hh.guarded b hr hd)
  table := by rw [h.layout_eq]; exact hh.table

variable {b count p n : ℕ} {d : Image}

theorem used_update {l : Layout} {blockSize : ℕ} (h : l.Sound blockSize) (hb : b ∉ l.bitmaps)
    (v : Buffer) {c : ℕ} (hc : l.Data c) : l.used (update d b v) c = l.used d c := by
  have hlt := h.group_lt hc
  have hmem : l.bitmap (l.group c) ∈ l.bitmaps := by
    rw [Layout.bitmap, getD_eq_getElem _ _ hlt]; exact getElem_mem hlt
  have hne : l.bitmap (l.group c) ≠ b := by
    rintro rfl; exact hb hmem
  rw [Layout.used, Layout.used, update_of_ne hne]

theorem later_write (h : Held P ino fs) (hb : b ∉ (layout fs).bitmaps) (v : Buffer) :
    Later P ino fs { fs with device := update fs.device b v } [b] where
  layout_eq := rfl
  used c hc hu := by rw [← hu]; exact used_update h.sound hb v hc
  frame c _ hw := update_of_ne (ne_of_not_mem_cons hw) _ _

theorem Later.drop (h : Later P ino fs fs' (b :: ws)) (hb : Reserved P ino (layout fs) b) : Later P ino fs fs' ws where
  layout_eq := h.layout_eq
  used := h.used
  frame c hr hw := by
    refine h.frame c hr fun hm => ?_
    rcases mem_cons.1 hm with rfl | hm
    · exact hr hb
    · exact hw hm

theorem writeInode_spec (h : Held P ino fs) (raw : ExtRawInode) :
    ∃ fs', writeInode P ino raw fs = .ok () fs' ∧ Later P ino fs fs' [] ∧
      ∃ v, fs' = { fs with device := update fs.device (tableBlock P (layout fs) ino) v } := by
  have hgd : fs.groupDescriptors[(ino - 1) / P.inodesPerGroup]? =
      some (fs.groupDescriptors.get ⟨(ino - 1) / P.inodesPerGroup, h.group⟩) := getElem?_eq_getElem h.group
  have htb : (inodePlace P (fs.groupDescriptors.get ⟨(ino - 1) / P.inodesPerGroup, h.group⟩) ino).1 =
      tableBlock P (layout fs) ino := by
    have hlt : (ino - 1) / P.inodesPerGroup < (layout fs).inodeTables.length := by simpa [layout] using h.group
    rw [tableBlock, getD_eq_getElem _ _ hlt]
    simp [layout, inodePlace]
  have hlater := (later_write h h.table (storeInode P (fs.device (tableBlock P (layout fs) ino))
    (inodePlace P (fs.groupDescriptors.get ⟨(ino - 1) / P.inodesPerGroup, h.group⟩) ino).2 raw)).drop (.inr (.inr rfl))
  refine ⟨_, ?_, hlater, _, rfl⟩
  rw [writeInode, get_bind]
  simp only [hgd]
  rw [← htb]
  rfl

/-- a run handed out by the allocator between `fs` and `fs'` -/
structure Handed (P : Params) (ino : ℕ) (fs fs' : ExtFileSystem Image) (p n : ℕ) : Prop where
  pos : 0 < n
  below : p + n < 2 ^ 32
  data : ∀ b, p ≤ b → b < p + n → (layout fs).Data b
  free : ∀ b, p ≤ b → b < p + n → (layout fs).used fs.device b = false
  taken : ∀ b, p ≤ b → b < p + n → (layout fs).used fs'.device b = true
  own : ∀ b, p ≤ b → b < p + n → ¬Reserved P ino (layout fs) b

theorem alloc_ok (h : Held P ino fs) {preferred : ℕ}
    (hr : allocateBlocksContiguous P preferred count fs = .ok (p, n) fs') :
    Later P ino fs fs' [] ∧ Handed P ino fs fs' p n ∧ n ≤ min count 128 := by
  have hspec := allocateBlocksContiguous_spec h.sound preferred count
  rw [hr] at hspec
  obtain ⟨hl, ha, hn⟩ := hspec
  have hdata : ∀ b, p ≤ b → b < p + n → (layout fs).Data b := fun b h1 h2 =>
    ⟨ha.lower.trans h1, lt_of_lt_of_le h2 ha.upper⟩
  refine ⟨⟨hl, fun b hd hu => by rw [ha.used b hd, hu, Bool.or_true], fun b hb _ => ha.frame b fun hm => hb (.inr (.inl hm))⟩,
    ⟨ha.pos, lt_of_le_of_lt ha.upper h.sound.u32, hdata, ha.free, fun b h1 h2 => ?_, fun b h1 h2 hres => ?_⟩, hn⟩
  · rw [ha.used b (hdata b h1 h2), decide_eq_true ⟨h1, h2⟩, Bool.true_or]
  · have := h.guarded b hres (hdata b h1 h2)
    rw [ha.free b h1 h2] at this; cases this

variable {e : String}

section

variable (h : Held P ino fs)
include h

theorem alloc_error {preferred : ℕ}
    (hr : allocateBlocksContiguous P preferred count fs = .error e fs') : Later P ino fs fs' [] := by
  have hspec := allocateBlocksContiguous_spec h.sound preferred count
  rw [hr] at hspec
  obtain ⟨hl, hd⟩ := hspec
  exact ⟨hl, fun b _ hu => by rw [hd, hu], fun b _ _ => by rw [hd]⟩

theorem contiguous_of_allocateBlock (hr : allocateBlock P fs = .ok b fs') :
    allocateBlocksContiguous P 0 1 fs = .ok (b, 1) fs' := by
  obtain ⟨⟨p, n⟩, fs1, ha, hpure⟩ := Fallible.bind_eq_ok hr
  cases hpure
  obtain ⟨_, hh, hn⟩ := alloc_ok h ha
  have hone : n = 1 := by have := hh.pos; omega
  rw [ha, hone]

theorem allocateBlock_ok (hr : allocateBlock P fs = .ok b fs') : Later P ino fs fs' [] ∧ Handed P ino fs fs' b 1 := by
  obtain ⟨hl, hh, _⟩ := alloc_ok h (contiguous_of_allocateBlock h hr)
  exact ⟨hl, hh⟩

theorem allocateBlock_error (hr : allocateBlock P fs = .error e fs') : Later P ino fs fs' [] := by
  cases ha : allocateBlocksContiguous P 0 1 fs with
  | error e fs1 => rw [allocateBlock, bind_error ha] at hr; cases hr; exact alloc_error h ha
  | ok v fs1 => rw [allocateBlock, bind_ok ha] at hr; cases hr

end

/-- the single steps of a stretch of work: `taken` are the blocks that the allocator handed out, `written` the blocks that were
written besides the bitmaps -/
inductive Work (P : Params) : ExtFileSystem Image → ExtFileSystem Image → List ℕ → List ℕ → Prop where
  | done (fs : ExtFileSystem Image) : Work P fs fs [] []
  | alloc {fs fs' fs'' : ExtFileSystem Image} {count p n : ℕ} {taken written : List ℕ}
      (ha : allocateBlocksContiguous P 0 count fs = .ok (p, n) fs') (h : Work P fs' fs'' taken written) :
      Work P fs fs'' (range' p n ++ taken) written
  | write {fs fs'' : ExtFileSystem Image} {taken written : List ℕ} (b : ℕ) (v : Buffer)
      (h : Work P { fs with device := update fs.device b v } fs'' taken written) : Work P fs fs'' taken (b :: written)

theorem Work.trans {ts ts' ws' : List ℕ} (h : Work P fs fs' ts ws) (h' : Work P fs' fs'' ts' ws') :
    Work P fs fs'' (ts ++ ts') (ws ++ ws') := by
  induction h with
  | done fs => exact h'
  | alloc ha _ ih =>
    rw [append_assoc]
    exact .alloc ha (ih h')
  | write b v _ ih => exact .write b v (ih h')

/-- a stretch of work that writes the record of the inode and some nodes -/
def Worked (P : Params) (ino : ℕ) (fs fs' : ExtFileSystem Image) (taken nodes : List ℕ) : Prop :=
  ∃ written, Work P fs fs' taken written ∧ ∀ w ∈ written, w = tableBlock P (layout fs) ino ∨ w ∈ nodes

theorem Worked.trans {ts ts' ns : List ℕ} (hl : layout fs' = layout fs) (h : Worked P ino fs fs' ts ns)
    (h' : Worked P ino fs' fs'' ts' ns) : Worked P ino fs fs'' (ts ++ ts') ns := by
  obtain ⟨ws, hw, hin⟩ := h
  obtain ⟨ws', hw', hin'⟩ := h'
  refine ⟨ws ++ ws', hw.trans hw', fun w hm => ?_⟩
  rcases mem_append.1 hm with hm | hm
  · exact hin w hm
  · rw [← hl]
    exact hin' w hm

theorem worked_alloc (ha : allocateBlocksContiguous P 0 count fs = .ok (p, n) fs') (nodes : List ℕ) :
    Worked P ino fs fs' (range' p n) nodes :=
  ⟨[], by simpa using Work.alloc ha (.done fs'), fun w hw => absurd hw not_mem_nil⟩

theorem worked_write (b : ℕ) (v : Buffer) {nodes : List ℕ} (hb : b ∈ nodes) :
    Worked P ino fs { fs with device := update fs.device b v } [] nodes :=
  ⟨[b], .write b v (.done _), fun _ hw => .inr (mem_singleton.1 hw ▸ hb)⟩

def newNode (P : Params) (fs : ExtFileSystem Image) : ℕ := (Fallible.value (allocateBlock P fs)).getD 0

theorem newNode_eq (h : allocateBlock P fs = .ok b fs') : newNode P fs = b := by rw [newNode, h]; rfl

theorem worked_allocateBlock (h : Held P ino fs) (hr : allocateBlock P fs = .ok b fs') (nodes : List ℕ) :
    Worked P ino fs fs' [b] nodes := worked_alloc (contiguous_of_allocateBlock h hr) nodes

/-! ## Trees over stretches of work -/

variable {cap : ℕ} {ns : List Leaf} {iBlock : Fin 15 → UInt32}

theorem LeavesAre.congr {d' : Image} (h : LeavesAre cap d ns)
    (hd : ∀ l ∈ ns, d' l.block = d l.block) : LeavesAre cap d' ns :=
  ⟨h.bounded, fun l hl => by rw [hd l hl]; exact h.node l hl, h.length_le, h.pieces⟩

theorem leavesAre_nil : LeavesAre cap d [] := by
  constructor
  all_goals
    intro l hl
    cases hl

theorem LeavesAre.place {d' : Image} {ns' : List Leaf} {l : Leaf} (h : LeavesAre cap d ns)
    (hns : ∀ m ∈ ns', m = l ∨ m ∈ ns ∧ d' m.block = d m.block) (hl : l.Bounded)
    (hnode : NodeIs (d' l.block) 0 cap (l.pieces.map pieceSlot)) (hlen : l.pieces.length ≤ cap)
    (hp : ∀ e ∈ l.pieces, e.Bounded) : LeavesAre cap d' ns' := by
  constructor
  all_goals
    intro m hm
    rcases hns m hm with rfl | ⟨hm, hd⟩
  · exact hl
  · exact h.bounded m hm
  · exact hnode
  · rw [hd]; exact h.node m hm
  · exact hlen
  · exact h.length_le m hm
  · exact hp
  · exact h.pieces m hm

theorem TreeIs.congr {d' : Image} (h : TreeIs cap d iBlock t)
    (hd : ∀ b ∈ t.nodes, d' b = d b) : TreeIs cap d' iBlock t := by
  cases t with
  | flat xs => exact h
  | deep ns =>
    obtain ⟨h1, h2, h3, h4⟩ := h
    exact ⟨h1, h2, h3, h4.congr fun l hl => hd _ (mem_map_of_mem hl)⟩
  | grown node ns =>
    obtain ⟨h1, h2, h3, h4, h5⟩ := h
    refine ⟨h1, h2, h3, ?_, h5.congr fun l hl => hd _ (mem_cons_of_mem _ (mem_map_of_mem hl))⟩
    rw [hd node mem_cons_self]; exact h4

/-- what survives of the invariant over a stretch of work, whatever became of the tree -/
theorem Inv.marks (h : Inv P ino s t) (hl : Later P ino s.fs fs' ws) :
    (∀ b ∈ t.nodes, (layout fs').Data b ∧ (layout fs').used fs'.device b = true ∧ ¬Reserved P ino (layout fs') b) ∧
    ∀ e ∈ t.pieces, ∀ k < e.len, (layout fs').Data (e.phys + k) ∧ (layout fs').used fs'.device (e.phys + k) = true := by
  rw [hl.layout_eq]
  refine ⟨fun b hb => ?_, fun e he k hk => ?_⟩
  · obtain ⟨h1, h2, h3⟩ := h.node b hb
    exact ⟨h1, hl.used b h1 h2, h3⟩
  · obtain ⟨h1, h2⟩ := h.data e he k hk
    exact ⟨h1, hl.used _ h1 h2⟩

/-- a tree survives work that does not write its nodes -/
theorem Inv.later (h : Inv P ino s t) (hl : Later P ino s.fs s'.fs []) (hroot : s'.raw.iBlock = s.raw.iBlock) :
    Inv P ino s' t where
  held := hl.held h.held
  tree := by
    rw [hroot]
    exact h.tree.congr fun b hb => hl.frame b (h.node b hb).2.2 (not_mem_nil)
  nodup := h.nodup
  node := (h.marks hl).1
  data := (h.marks hl).2

/-- a tree, and a run that was just allocated for it -/
structure Given (P : Params) (ino : ℕ) (s : ExtInode Image) (t : Tree) (x : Piece) : Prop where
  inv : Inv P ino s t
  ordered : t.Ordered (maxEntries P.blockSize)
  bounded : x.Bounded
  run : ∀ k < x.len, (layout s.fs).Data (x.phys + k) ∧ (layout s.fs).used s.fs.device (x.phys + k) = true

variable {x : Piece} {xs : List Piece}

theorem bounded_of_arises (hx : x.Bounded) (hb : ∀ e ∈ xs, e.Bounded) {e : Piece} (he : Arises xs x e) : e.Bounded := by
  rcases he with he | rfl | ⟨e', he', ⟨h1, h2, h3⟩, rfl⟩
  · exact hb e he
  · exact hx
  · obtain ⟨hp1, hp2, hp3, hp4, hp5⟩ := hb e' he'
    have hq1 := hx.phys_below
    constructor <;> simp only [Piece.grow] <;> omega

theorem Given.data_of_arises (g : Given P ino s t x) {e : Piece} (he : Arises t.pieces x e) {k : ℕ} (hk : k < e.len) :
    (layout s.fs).Data (e.phys + k) ∧ (layout s.fs).used s.fs.device (e.phys + k) = true := by
  rcases he with he | rfl | ⟨e', he', ⟨_, h2, _⟩, rfl⟩
  · exact g.inv.data e he k hk
  · exact g.run k hk
  · simp only [Piece.grow] at hk ⊢
    rcases Nat.lt_or_ge k e'.len with hlt | hge
    · exact g.inv.data e' he' k hlt
    · have := g.run (k - e'.len) (by omega)
      rwa [show x.phys + (k - e'.len) = e'.phys + k by omega] at this

/-- the invariant after a step, from the words of the new tree and the marks of its nodes -/
theorem Given.step {newBlock : ℕ} {t' : Tree} (g : Given P ino s t x)
    (hs : Tree.Step (maxEntries P.blockSize) newBlock x t t') (hl : Later P ino s.fs s'.fs ws)
    (htree : TreeIs (maxEntries P.blockSize) s'.fs.device s'.raw.iBlock t') (hnodup : t'.nodes.Nodup)
    (hnode : ∀ b ∈ t'.nodes, b ∈ t.nodes ∨
      (layout s.fs).Data b ∧ (layout s.fs).used s'.fs.device b = true ∧ ¬Reserved P ino (layout s.fs) b) :
    Inv P ino s' t' where
  held := hl.held g.inv.held
  tree := htree
  nodup := hnodup
  node b hb := by
    rcases hnode b hb with hb | hb
    · exact (g.inv.marks hl).1 b hb
    · rw [hl.layout_eq]; exact hb
  data e he k hk := by
    obtain ⟨h1, h2⟩ := g.data_of_arises (hs.arises he) hk
    rw [hl.layout_eq]; exact ⟨h1, hl.used _ h1 h2⟩

/-! ## Saving -/

theorem worked_record (v : Buffer) (nodes : List ℕ) :
    Worked P ino fs { fs with device := update fs.device (tableBlock P (layout fs) ino) v } [] nodes :=
  ⟨[_], .write _ v (.done _), fun _ hw => .inl (mem_singleton.1 hw)⟩

theorem saveInode_spec (h : Held P ino s.fs) (root : Buffer) (m : ℕ) :
    ∃ s', saveInode P ino root m s = .ok () s' ∧ (∀ w < 15, rootBuf s'.raw.iBlock w = root w) ∧
      Later P ino s.fs s'.fs [] ∧ s'.extentCache = s.extentCache ∧ ∀ nodes, Worked P ino s.fs s'.fs [] nodes := by
  set raw := (s.raw.setIBlock root).setIBlocks (add32 s.raw.iBlocks (P.blockSize / 512 * m % 2 ^ 32)) with hraw
  obtain ⟨fs', hw, hl, v, hv⟩ := writeInode_spec h raw
  refine ⟨{ s with raw := raw, fs := fs' }, ?_, fun w hlt => ?_, hl, rfl, fun nodes => hv ▸ worked_record v nodes⟩
  · rw [saveInode, modify_bind, get_bind, onFs, ← hraw, hw]
  · rw [hraw, iBlock_setIBlocks]; exact rootBuf_setIBlock s.raw root hlt

theorem saveCount_spec (h : Held P ino s.fs) (m : ℕ) :
    ∃ s', saveCount P ino m s = .ok () s' ∧ s'.raw.iBlock = s.raw.iBlock ∧
      Later P ino s.fs s'.fs [] ∧ s'.extentCache = s.extentCache ∧ ∀ nodes, Worked P ino s.fs s'.fs [] nodes := by
  set raw := s.raw.setIBlocks (add32 s.raw.iBlocks (P.blockSize / 512 * m % 2 ^ 32)) with hraw
  obtain ⟨fs', hw, hl, v, hv⟩ := writeInode_spec h raw
  refine ⟨{ s with raw := raw, fs := fs' }, ?_, iBlock_setIBlocks, hl, rfl, fun nodes => hv ▸ worked_record v nodes⟩
  rw [saveCount, modify_bind, get_bind, onFs, ← hraw, hw]

/-! ## In the root -/

theorem openRoot_flat (h : TreeIs cap d iBlock (.flat xs)) :
    NodeIs (openRoot iBlock).1 0 4 (xs.map pieceSlot) ∧ (openRoot iBlock).2 = readHeader (openRoot iBlock).1 := by
  obtain ⟨_, _, hnode | ⟨rfl, hmagic⟩⟩ := h
  · have hopen : openRoot iBlock = (rootBuf iBlock, readHeader (rootBuf iBlock)) := by
      simp [openRoot, hnode.header]
    rw [hopen]; exact ⟨hnode, rfl⟩
  · have hopen : openRoot iBlock = (writeHeader (rootBuf iBlock) ⟨0xF30A, 0, 4, 0⟩, ⟨0xF30A, 0, 4, 0⟩) := by
      simp [openRoot, hmagic]
    have hnode : NodeIs (writeHeader (rootBuf iBlock) ⟨0xF30A, ([] : List Slot).length, 4, 0⟩) 0 4 [] :=
      nodeIs_writeHeader (fun i h => absurd h (Nat.not_lt_zero i)) (by simp) (by norm_num) (by norm_num)
    rw [hopen]; exact ⟨hnode, hnode.header.symm⟩

theorem openRoot_of_header {depth max : ℕ} {slots : List Slot}
    (h : NodeIs (rootBuf iBlock) depth max slots) : openRoot iBlock = (rootBuf iBlock, readHeader (rootBuf iBlock)) := by
  simp [openRoot, h.header]

variable {root : Buffer} {l : Leaf}

section

variable (hnode : NodeIs root 0 4 (xs.map pieceSlot)) (hfit : ∀ e ∈ xs, e.Fits) (hlen : xs.length ≤ 4)
include hnode hfit

theorem root_last {last : Piece} (hlast : xs.getLast? = some last) (x : Piece) :
    ∃ init, xs = init ++ [last] ∧ (readHeader root).ehEntries = init.length + 1 ∧
      Ext4Extent.ofSlot (slot root init.length) = last.ext ∧
      canMerge last.ext x.first x.phys x.len = decide (x.Continues last) := by
  obtain ⟨init, rfl⟩ : ∃ init, xs = init ++ [last] := ⟨xs.dropLast, (dropLast_append_getLast? last hlast).symm⟩
  have hl := hfit last (mem_append_right _ (mem_singleton_self last))
  refine ⟨init, rfl, ?_, ?_, hl.bounded.canMerge_ext hl.below x⟩
  · simp [hnode.ehEntries]
  · rw [hnode.entries init.length (by simp)]
    simp [hl.bounded.ofSlot]

include hlen

/-- the edits of a root of pieces: extend its last one, or insert -/
theorem registerFlat_node {ys : List Piece} (hx : x.Bounded) (hr : registerFlat xs x = some ys) (s : ExtInode Image) :
    ∃ root', NodeIs root' 0 4 (ys.map pieceSlot) ∧
      registerInRoot P ino root (readHeader root) x.first x.phys x.len s = saveInode P ino root' x.len s := by
  have hinsert := fun h4 => hnode.insertPiece hx (fun e he => (hfit e he).bounded) h4 (by norm_num) (by norm_num)
  unfold registerFlat at hr
  split at hr
  · rename_i last hlast
    obtain ⟨init, rfl, hentries, hslot, hmerge⟩ := root_last hnode hfit hlast x
    split_ifs at hr with hc h4
    · cases hr
      refine ⟨setSlot root init.length (pieceSlot (last.grow x.len)), ?_, ?_⟩
      · have hset := hnode.set init.length (pieceSlot (last.grow x.len))
        simpa using hset
      · simp only [registerInRoot, hentries, Nat.add_sub_cancel, hslot, hmerge, Nat.succ_pos, true_and, decide_eq_true hc,
          if_true]
        rfl
    · cases hr
      refine ⟨_, hinsert h4, ?_⟩
      rw [length_append, length_singleton] at h4
      simp only [registerInRoot, hentries, Nat.add_sub_cancel, hslot, hmerge, decide_eq_false hc, Bool.false_eq_true,
        and_false, if_false, hnode.ehMax, if_pos h4, length_append, length_singleton]
  · rename_i hlast
    have hnil : xs = [] := getLast?_eq_none_iff.1 hlast
    cases hr
    subst hnil
    refine ⟨_, hinsert (by simp), ?_⟩
    simp only [registerInRoot, hnode.ehEntries, hnode.ehMax, map_nil, length_nil, lt_irrefl, false_and, if_false, Nat.zero_lt_succ, if_true]

theorem registerFlat_full (hr : registerFlat xs x = none) :
    xs.length = 4 ∧ registerInRoot (D := Image) P ino root (readHeader root) x.first x.phys x.len =
      splitRoot P ino root (readHeader root) x.first x.phys x.len := by
  unfold registerFlat at hr
  split at hr
  · rename_i last hlast
    obtain ⟨init, rfl, hentries, hslot, hmerge⟩ := root_last hnode hfit hlast x
    split_ifs at hr with hc h4
    refine ⟨by omega, ?_⟩
    rw [length_append, length_singleton] at h4
    simp only [registerInRoot, hentries, Nat.add_sub_cancel, hslot, hmerge, decide_eq_false hc, Bool.false_eq_true,
      and_false, if_false, hnode.ehMax, if_neg h4]
  · cases hr

end

/-- the twelve words of entries of a root, copied into an empty block -/
theorem slot_entries (root : Buffer) {i : ℕ} (hi : i < 4) :
    slot (fun w => if 3 ≤ w ∧ w < 15 then root w else 0) i = slot root i := by
  simp only [slot]
  rw [if_pos (by omega), if_pos (by omega), if_pos (by omega)]

theorem splitRoot_leaf (hnode : NodeIs root 0 4 (xs.map pieceSlot))
    (hx : x.Bounded) (hlen : xs.length = 4) (hcap : cap < 65536) :
    NodeIs (setSlot (writeHeader (fun w => if 3 ≤ w ∧ w < 15 then root w else 0)
      ⟨0xF30A, (readHeader root).ehEntries + 1, cap % 65536, 0⟩) 4 (newExtent x.first x.phys x.len).toSlot) 0 cap
      ((xs ++ [x]).map pieceSlot) := by
  rw [hnode.ehEntries, length_map, hlen, Nat.mod_eq_of_lt hcap, newExtent_eq hx]
  constructor
  · rw [readHeader_setSlot, readHeader_writeHeader ⟨by norm_num, by norm_num, hcap, by norm_num⟩]
    simp [hlen]
  · intro i hi
    rw [length_map, length_append, hlen, length_singleton] at hi
    rw [slot_setSlot]
    by_cases h4 : i = 4
    · subst h4
      rw [if_pos rfl, getElem_map, getElem_append_right (by omega)]
      simp [pieceSlot]
    · have hi' : i < (xs.map pieceSlot).length := by rw [length_map]; omega
      have hold := hnode.entries i hi'
      rw [if_neg h4, slot_writeHeader, getElem_map, getElem_append_left (by omega)]
      rw [getElem_map] at hold
      rw [← hold, slot_entries root (by omega)]

theorem nodeIs_single {s : Slot} {max depth : ℕ} (hmax : max < 65536) (hd : depth < 65536) :
    NodeIs (setSlot (writeHeader (fun _ => 0) ⟨0xF30A, 1, max, depth⟩) 0 s) depth max [s] where
  header := by rw [readHeader_setSlot, readHeader_writeHeader ⟨by norm_num, by norm_num, hmax, hd⟩]; rfl
  entries i hi := by
    have : i = 0 := by simpa using hi
    subst this
    rw [slot_setSlot, if_pos rfl]; rfl

/-- if the registration of `x` adds a node, there is a block for it -/
def Room (P : Params) (fs : ExtFileSystem Image) (t : Tree) (x : Piece) : Prop :=
  t.Splits (maxEntries P.blockSize) x → ∃ b fs', allocateBlock P fs = .ok b fs'

/-- a registration takes a block exactly if it adds a node -/
def Tree.Takes (cap : ℕ) (x : Piece) (newBlock : ℕ) (t : Tree) (taken : List ℕ) : Prop :=
  t.Splits cap x ∧ taken = [newBlock] ∨ ¬t.Splits cap x ∧ taken = []

theorem not_room (hs : t.Splits (maxEntries P.blockSize) x) (ha : allocateBlock P fs = .error e fs') :
    ¬Room P fs t x := by
  intro h
  obtain ⟨b, fs'', hb⟩ := h hs
  rw [ha] at hb; cases hb

/-- the outcome of a registration: the tree took a step, or there was no block for a node -/
def Registered (P : Params) (ino : ℕ) (s : ExtInode Image) (t : Tree) (x : Piece) :
    EStateM.Result String (ExtInode Image) Unit → Prop
  | .ok () s' => s'.extentCache = s.extentCache ∧ Room P s.fs t x ∧
      ∃ t', Tree.Step (maxEntries P.blockSize) (newNode P s.fs) x t t' ∧ Inv P ino s' t' ∧
        ∃ taken, t.Takes (maxEntries P.blockSize) x (newNode P s.fs) taken ∧ Worked P ino s.fs s'.fs taken t'.nodes
  | .error _ s' => s'.extentCache = s.extentCache ∧ ¬Room P s.fs t x ∧ Inv P ino s' t

variable {α : Type}

theorem onFs_error {m : FsM Image α} (h : m s.fs = .error e fs') :
    onFs m s = .error e { s with fs := fs' } := by rw [onFs, h]

theorem onFs_ok {m : FsM Image α} {a : α} (h : m s.fs = .ok a fs') :
    onFs m s = .ok a { s with fs := fs' } := by rw [onFs, h]

/-- a new node was written, and then the inode with a new root -/
structure NodeSaved (P : Params) (ino : ℕ) (s s' : ExtInode Image) (t : Tree) (b : ℕ) (buf root : Buffer) : Prop where
  words : ∀ w < 15, rootBuf s'.raw.iBlock w = root w
  later : Later P ino s.fs s'.fs [b]
  cache : s'.extentCache = s.extentCache
  device : s'.fs.device b = buf
  fresh : b ∉ t.nodes
  lt : b < 2 ^ 32
  marked : (layout s.fs).Data b ∧ (layout s.fs).used s'.fs.device b = true ∧ ¬Reserved P ino (layout s.fs) b
  worked : ∀ nodes, b ∈ nodes → Worked P ino s.fs s'.fs [b] nodes

theorem Inv.nodeSaved (h : Inv P ino s t) (ha : allocateBlock P s.fs = .ok b fs') (buf root : Buffer) (m : ℕ) :
    ∃ s', (onFs (writeBlocks b buf) >>= fun _ => saveInode P ino root m) { s with fs := fs' } = .ok () s' ∧
      NodeSaved P ino s s' t b buf root := by
  obtain ⟨hl, hh⟩ := allocateBlock_ok h.held ha
  have hfree := hh.free b le_rfl (Nat.lt_succ_self b)
  have hdata := hh.data b le_rfl (Nat.lt_succ_self b)
  have hown := hh.own b le_rfl (Nat.lt_succ_self b)
  have hbm : b ∉ (layout fs').bitmaps := by rw [hl.layout_eq]; exact fun hm => hown (.inr (.inl hm))
  have hlw := hl.trans (later_write (hl.held h.held) hbm buf)
  set s1 : ExtInode Image := { s with fs := { fs' with device := update fs'.device b buf } } with hs1
  obtain ⟨s', hsave, hwords, hl', hcache, hwork⟩ := saveInode_spec (s := s1) (hlw.held h.held) root m
  have hw : onFs (writeBlocks b buf) { s with fs := fs' } = .ok () s1 := rfl
  have hused : (layout s.fs).used s1.fs.device b = true := by
    rw [hs1, used_update h.held.sound (hl.layout_eq ▸ hbm) buf hdata]
    exact hh.taken b le_rfl (Nat.lt_succ_self b)
  refine ⟨s', by rw [bind_ok hw, hsave], hwords, hlw.trans hl', hcache, ?_, fun hm => ?_, ?_, ⟨hdata, ?_, hown⟩,
    fun nodes hb => ?_⟩
  · rw [hl'.frame b (by rw [hlw.layout_eq]; exact hown) not_mem_nil, hs1]
    exact update_self _ _ _
  · have := (h.node b hm).2.1
    rw [hfree] at this; cases this
  · have := hh.below; omega
  · have := hl'.used b (by rw [hlw.layout_eq]; exact hdata) (by rw [hlw.layout_eq]; exact hused)
    rwa [hlw.layout_eq] at this
  · have hnew := (worked_allocateBlock h.held ha nodes).trans hl.layout_eq (worked_write b buf hb)
    exact hnew.trans hlw.layout_eq (hwork nodes)

theorem NodeSaved.frame {buf root : Buffer} (hn : NodeSaved P ino s s' t b buf root) (h : Inv P ino s t) {c : ℕ} (hc : c ∈ t.nodes) :
    s'.fs.device c = s.fs.device c := by
  refine hn.later.frame c (h.node c hc).2.2 fun hb => hn.fresh ?_
  rwa [← mem_singleton.1 hb]

theorem splitRoot_spec (g : Given P ino s (.flat xs) x)
    (hnode : NodeIs root 0 4 (xs.map pieceSlot)) (hlen : xs.length = 4) (hr : registerFlat xs x = none) :
    Registered P ino s (.flat xs) x (splitRoot P ino root (readHeader root) x.first x.phys x.len s) := by
  cases ha : allocateBlock P s.fs with
  | error e fs' =>
    rw [splitRoot, bind_error (onFs_error ha)]
    exact ⟨rfl, not_room hr ha, g.inv.later (allocateBlock_error g.inv.held ha) rfl⟩
  | ok b fs' =>
    have hb := g.inv.tree.2.1
    obtain ⟨_, hcap⟩ := g.inv.held.cap_bounds
    have hleaf := splitRoot_leaf hnode g.bounded hlen hcap
    set leaf := setSlot (writeHeader (fun w => if 3 ≤ w ∧ w < 15 then root w else 0)
      ⟨0xF30A, (readHeader root).ehEntries + 1, maxEntries P.blockSize % 65536, 0⟩) 4
      (newExtent x.first x.phys x.len).toSlot with hdef
    obtain ⟨e, rest, rfl⟩ := registerFlat_none hr
    have hfirst : (Ext4Extent.ofSlot (slot leaf 0)).eeBlock = e.first := by
      rw [hleaf.entries 0 (by simp)]
      simp [(hb e mem_cons_self).ofSlot, Piece.ext]
    obtain ⟨s', hsave, hn⟩ := g.inv.nodeSaved ha leaf
      (setSlot (writeHeader (fun _ => 0) ⟨0xF30A, 1, 4, 1⟩) 0 (newIdx e.first b).toSlot) (1 + x.len)
    have hrun : splitRoot P ino root (readHeader root) x.first x.phys x.len s = .ok () s' := by
      rw [splitRoot, bind_ok (onFs_ok ha)]
      simp only [← hdef, hfirst]
      exact hsave
    rw [hrun]
    rw [Registered, newNode_eq ha]
    refine ⟨hn.cache, fun _ => ⟨b, fs', ha⟩, _, .split hr,
      g.step (.split hr) hn.later ?_ (nodup_singleton b) fun c hc => .inr ?_, [b], .inl ⟨hr, rfl⟩,
      hn.worked _ (mem_singleton_self b)⟩
    · refine ⟨by simp, by simp, (nodeIs_single (by norm_num) (by norm_num)).congr (by simp) hn.words,
        (leavesAre_nil (d := s.fs.device)).place (fun m hm => .inl (mem_singleton.1 hm)) ⟨(hb e mem_cons_self).first_lt, hn.lt⟩ ?_ ?_ ?_⟩
      · rw [hn.device]; exact hleaf
      · have := g.inv.held.cap_bounds
        simp only [length_append, hlen, length_singleton]; omega
      · intro e' he'
        rcases mem_append.1 he' with he' | he'
        · exact hb e' he'
        · rw [mem_singleton.1 he']; exact g.bounded
    · cases mem_singleton.1 hc
      exact hn.marked

/-- a registration in the root is a step of the tree -/
theorem registerInRoot_spec (g : Given P ino s (.flat xs) x) :
    Registered P ino s (.flat xs) x
      (registerInRoot P ino (openRoot s.raw.iBlock).1 (openRoot s.raw.iBlock).2 x.first x.phys x.len s) := by
  obtain ⟨hnode, hhdr⟩ := openRoot_flat g.inv.tree
  obtain ⟨hlen, _, hfit⟩ := g.ordered
  rw [hhdr]
  cases hr : registerFlat xs x with
  | none =>
    obtain ⟨h4, hrun⟩ := registerFlat_full hnode hfit hlen hr
    rw [hrun]; exact splitRoot_spec g hnode h4 hr
  | some ys =>
    obtain ⟨root', hnode', hrun⟩ := registerFlat_node hnode hfit hlen g.bounded hr s
    obtain ⟨s', hsave, hwords, hl, hcache, hwork⟩ := saveInode_spec g.inv.held root' x.len
    have hlen' : ys.length ≤ 4 := registerFlat_length hr hlen
    have hstep : Tree.Step (maxEntries P.blockSize) (newNode P s.fs) x (.flat xs) (.flat ys) := .root hr
    have hwhole : ¬(flat xs).Splits (maxEntries P.blockSize) x := fun hs => by
      rw [Tree.Splits, hr] at hs; cases hs
    rw [hrun, hsave]
    refine ⟨hcache, fun hs => absurd hs hwhole, .flat ys, hstep, g.step hstep hl ⟨hlen', fun e he => ?_, .inl ?_⟩
      nodup_nil fun b hb => absurd hb not_mem_nil, [], .inr ⟨hwhole, rfl⟩, hwork _⟩
    · exact bounded_of_arises g.bounded g.inv.tree.2.1 ((registerFlat_takes hr).arises he)
    · exact hnode'.congr (by rwa [length_map]) hwords

/-! ## In a leaf -/

theorem mem_set_cases (hn : (ns.map block).Nodup) {j : ℕ} {l' m : Leaf} (hj : ns[j]? = some l)
    (hm : m ∈ ns.set j l') : m = l' ∨ m ∈ ns ∧ m.block ≠ l.block := by
  obtain ⟨i, hi, rfl⟩ := getElem_of_mem hm
  rw [length_set] at hi
  rw [getElem_set]
  split_ifs with hij
  · exact .inl rfl
  · refine .inr ⟨getElem_mem hi, fun he => hij ?_⟩
    obtain ⟨hjlt, hjl⟩ := List.getElem?_eq_some_iff.1 hj
    have hi' : i < (ns.map block).length := by rwa [length_map]
    have hj' : j < (ns.map block).length := by rwa [length_map]
    have hblock : (ns.map block)[j] = (ns.map block)[i] := by
      rw [getElem_map, getElem_map, hjl, he]
    exact (Nodup.getElem_inj_iff hn).1 hblock

theorem map_set_of_eq (f : Leaf → α) {j : ℕ} (l' : Leaf) (hj : ns[j]? = some l) (hf : f l' = f l) :
    (ns.set j l').map f = ns.map f := by
  obtain ⟨hjlt, rfl⟩ := List.getElem?_eq_some_iff.1 hj
  rw [map_set, hf, ← getElem_map f (h := by rwa [length_map]), set_getElem_self]

/-- the edits of a leaf: extend the piece that `x` continues, or insert -/
theorem registerInLeaf_eq (P : Params) (ino leafBlock : ℕ) {leaf : Buffer}
    (hnode : NodeIs leaf 0 cap (xs.map pieceSlot)) (hx : x.Bounded) (hfit : ∀ e ∈ xs, e.Fits) (hcap : cap < 65536) :
    match registerLeaf cap xs x with
    | some ys => ∃ buf, NodeIs buf 0 cap (ys.map pieceSlot) ∧
        registerInLeaf (D := Image) P ino leafBlock leaf (readHeader leaf) x.first x.phys x.len = some do
          onFs (writeBlocks leafBlock buf)
          saveCount P ino x.len
    | none => registerInLeaf (D := Image) P ino leafBlock leaf (readHeader leaf) x.first x.phys x.len = none := by
  have hentries : (readHeader leaf).ehEntries = xs.length := by rw [hnode.ehEntries, length_map]
  have hext := hnode.extents_eq
  have hfind := findIdx_continues hfit x
  rw [registerLeaf]
  cases hi : xs.findIdx? fun e => decide (x.Continues e) with
  | some i =>
    obtain ⟨hlt, _, _⟩ := findIdx?_eq_some_iff_getElem.1 hi
    have hslot : Ext4Extent.ofSlot (slot leaf i) = xs[i].ext := by
      rw [hnode.entries i (by rwa [length_map]), getElem_map, (hfit _ (getElem_mem hlt)).bounded.ofSlot]
    refine ⟨setSlot leaf i (pieceSlot (xs[i].grow x.len)), ?_, ?_⟩
    · have hset := hnode.set i (pieceSlot (xs[i].grow x.len))
      have hmap : (xs.map pieceSlot).set i (pieceSlot (xs[i].grow x.len)) = (xs.modify i (·.grow x.len)).map pieceSlot := by
        refine ext_getElem (by simp) fun k h1 h2 => ?_
        rw [getElem_set, getElem_map, getElem_map, getElem_modify]
        split_ifs with hik
        · subst hik; rfl
        · rfl
      rwa [hmap] at hset
    · rw [registerInLeaf, hentries, hext, hfind, hi]
      simp only [hslot]
      rfl
  | none =>
    rw [registerInLeaf, hentries, hext, hfind, hi, hnode.ehMax]
    split_ifs with hlt
    · have hinsert := hnode.insertPiece hx (fun e he => (hfit e he).bounded) hlt hcap (by norm_num)
      rw [hext] at hinsert
      exact ⟨_, hinsert, rfl⟩
    · rfl

/-- a registration in a leaf is a step of the tree -/
theorem registerInLeaf_spec {ys : List Piece} (g : Given P ino s (.deep ns) x)
    (ht : ns[target ns x.first]? = some l) (hr : registerLeaf (maxEntries P.blockSize) l.pieces x = some ys) :
    ∃ register, registerInLeaf P ino l.block (s.fs.device l.block) (readHeader (s.fs.device l.block))
      x.first x.phys x.len = some register ∧ Registered P ino s (.deep ns) x (register s) := by
  have hmem : l ∈ ns := mem_of_getElem? ht
  obtain ⟨hne, hlen, hroot, hleaves⟩ := g.inv.tree
  obtain ⟨_, hcap⟩ := g.inv.held.cap_bounds
  have hleaf := g.ordered.leaf l hmem
  have heq := registerInLeaf_eq P ino l.block (hleaves.node l hmem) g.bounded hleaf.fits hcap
  rw [hr] at heq
  obtain ⟨buf, hbuf, hrun⟩ := heq
  have hown := (g.inv.node l.block (mem_map_of_mem hmem)).2.2
  have hl := later_write g.inv.held (fun hm => hown (.inr (.inl hm))) buf
  set s1 : ExtInode Image := { s with fs := { s.fs with device := update s.fs.device l.block buf } } with hs1
  obtain ⟨s', hsave, hraw, hl', hcache, hwork⟩ := saveCount_spec (s := s1) (hl.held g.inv.held) x.len
  have hw : onFs (writeBlocks l.block buf) s = .ok () s1 := rfl
  have hstep : Tree.Step (maxEntries P.blockSize) (newNode P s.fs) x (.deep ns)
      (.deep (ns.set (target ns x.first) { l with pieces := ys })) := .leaf ht hr
  have hblocks := map_set_of_eq Leaf.block { l with pieces := ys } ht rfl
  have hwhole : ¬(deep ns).Splits (maxEntries P.blockSize) x := fun hs => by
    have := hs l ht
    rw [hr] at this; cases this
  refine ⟨_, hrun, ?_⟩
  rw [bind_ok hw, hsave]
  refine ⟨hcache, fun hs => absurd hs hwhole, _, hstep, g.step hstep (hl.trans hl') ?_ ?_ fun b hb => .inl ?_, [],
    .inr ⟨hwhole, rfl⟩, ?_⟩
  · have hframe : ∀ m ∈ ns, s'.fs.device m.block = s1.fs.device m.block := fun m hm =>
      hl'.frame _ (g.inv.node m.block (mem_map_of_mem hm)).2.2 not_mem_nil
    refine ⟨by simpa using hne, by rwa [length_set], by rw [hraw, map_set_of_eq Leaf.slot { l with pieces := ys } ht rfl]; exact hroot,
      hleaves.place (l := { l with pieces := ys }) (fun m hm => ?_) (hleaves.bounded l hmem) ?_ ?_ fun e he => ?_⟩
    · rcases mem_set_cases g.inv.nodup ht hm with rfl | ⟨hm, hmne⟩
      · exact .inl rfl
      · exact .inr ⟨hm, (hframe m hm).trans (update_of_ne hmne _ _)⟩
    · rw [hframe l hmem, hs1]
      simp only [update_self]; exact hbuf
    · exact registerLeaf_length hr hleaf.length_le
    · exact bounded_of_arises g.bounded (hleaves.pieces l hmem) ((registerLeaf_takes hr).arises he)
  · rw [nodes, hblocks]; exact g.inv.nodup
  · rwa [nodes, hblocks] at hb
  · refine (worked_write l.block buf ?_).trans hl.layout_eq (hwork _)
    rw [nodes, hblocks]
    exact mem_map_of_mem hmem

/-! ## New nodes -/

theorem newLeaf_node (hx : x.Bounded) (hcap : cap < 65536) :
    NodeIs (setSlot (writeHeader (fun _ => 0) ⟨0xF30A, 1, cap % 65536, 0⟩) 0 (newExtent x.first x.phys x.len).toSlot)
      0 cap ([x].map pieceSlot) := by
  rw [Nat.mod_eq_of_lt hcap, newExtent_eq hx]
  exact nodeIs_single hcap (by norm_num)

theorem addLeaf_spec (g : Given P ino s (.deep ns) x)
    (ht : ns[target ns x.first]? = some l) (hr : registerLeaf (maxEntries P.blockSize) l.pieces x = none)
    (hlen : ns.length < 4) :
    Registered P ino s (.deep ns) x (addLeaf P ino (rootBuf s.raw.iBlock) (readHeader (rootBuf s.raw.iBlock))
      x.first x.phys x.len s) := by
  have hsplits : (deep ns).Splits (maxEntries P.blockSize) x := fun l' hl' => by
    rw [ht] at hl'; cases hl'; exact hr
  cases ha : allocateBlock P s.fs with
  | error e fs' =>
    rw [addLeaf, bind_error (onFs_error ha)]
    exact ⟨rfl, not_room hsplits ha, g.inv.later (allocateBlock_error g.inv.held ha) rfl⟩
  | ok b fs' =>
    obtain ⟨hne, _, hroot, hleaves⟩ := g.inv.tree
    obtain ⟨_, hcap⟩ := g.inv.held.cap_bounds
    have hidx := hroot.indices_eq
    rw [length_map, map_leafIdx hleaves.bounded] at hidx
    set root := insertSlot (rootBuf s.raw.iBlock) (readHeader (rootBuf s.raw.iBlock))
      (ns.findIdx fun m => decide (x.first < m.key)) (leafSlot x.first b) with hrootdef
    have hnode : NodeIs root 1 4 ((insertLeaf ns ⟨x.first, b, [x]⟩).map Leaf.slot) := by
      rw [← map_insertLeaf]
      exact hroot.insert (by rw [length_map]; exact findIdx_le_length) (by rw [length_map]; omega)
        (by norm_num) (by norm_num)
    obtain ⟨s', hsave, hn⟩ := g.inv.nodeSaved ha (setSlot (writeHeader (fun _ => 0)
      ⟨0xF30A, 1, maxEntries P.blockSize % 65536, 0⟩) 0 (newExtent x.first x.phys x.len).toSlot) root (1 + x.len)
    have hrun : addLeaf P ino (rootBuf s.raw.iBlock) (readHeader (rootBuf s.raw.iBlock)) x.first x.phys x.len s =
        .ok () s' := by
      rw [addLeaf, bind_ok (onFs_ok ha), hroot.ehEntries, length_map, hidx, insertPos_leaves]
      exact hsave
    rw [hrun]
    have hstep : Tree.Step (maxEntries P.blockSize) b x (.deep ns) (.deep (insertLeaf ns ⟨x.first, b, [x]⟩)) :=
      .add ht hr hlen
    have hperm : ((insertLeaf ns ⟨x.first, b, [x]⟩).map Leaf.block).Perm (b :: ns.map Leaf.block) :=
      (Ascending.perm_insertBy _ _).map Leaf.block
    rw [Registered, newNode_eq ha]
    refine ⟨hn.cache, fun _ => ⟨b, fs', ha⟩, _, hstep, g.step hstep hn.later ⟨?_, ?_, ?_, ?_⟩ ?_ fun c hc => ?_, [b],
      .inl ⟨hsplits, rfl⟩, hn.worked _ (hperm.mem_iff.2 mem_cons_self)⟩
    · intro hnil
      have := congrArg length hnil
      rw [length_insertBy] at this; cases this
    · rw [length_insertBy]; omega
    · exact hnode.congr (by rw [length_map, length_insertBy]; omega) hn.words
    · refine hleaves.place (l := ⟨x.first, b, [x]⟩) (fun m hm => ?_) ⟨g.bounded.first_lt, hn.lt⟩ ?_ ?_ fun e he => ?_
      · exact (mem_insertBy.1 hm).imp_right fun hm => ⟨hm, hn.frame g.inv (mem_map_of_mem hm)⟩
      · rw [hn.device]; exact newLeaf_node g.bounded hcap
      · have := g.inv.held.cap_bounds
        simp only [length_singleton]; omega
      · rw [mem_singleton.1 he]; exact g.bounded
    · exact hperm.nodup_iff.2 (nodup_cons.2 ⟨hn.fresh, g.inv.nodup⟩)
    · rcases mem_cons.1 (hperm.mem_iff.1 hc) with rfl | hc
      · exact .inr hn.marked
      · exact .inl hc

/-- the tree grows by a level, if there is a block for the index node -/
theorem growTree_spec (h : Inv P ino s (.deep ns)) :
    match growTree P ino (rootBuf s.raw.iBlock) (readHeader (rootBuf s.raw.iBlock)) s with
    | .ok () s' => s'.extentCache = s.extentCache ∧ ∃ node, Inv P ino s' (.grown node ns)
    | .error _ s' => s'.extentCache = s.extentCache ∧ Inv P ino s' (.deep ns) := by
  cases ha : allocateBlock P s.fs with
  | error e fs' =>
    rw [growTree, bind_error (onFs_error ha)]
    exact ⟨rfl, h.later (allocateBlock_error h.held ha) rfl⟩
  | ok b fs' =>
    obtain ⟨hne, hlen, hroot, hleaves⟩ := h.tree
    obtain ⟨_, hcap⟩ := h.held.cap_bounds
    obtain ⟨l, rest, rfl⟩ := exists_cons_of_ne_nil hne
    set node := writeHeader (fun w => if 3 ≤ w ∧ w < 15 then rootBuf s.raw.iBlock w else 0)
      ⟨0xF30A, ((l :: rest).map Leaf.slot).length, maxEntries P.blockSize, 1⟩ with hnodedef
    have hnode : NodeIs node 1 (maxEntries P.blockSize) ((l :: rest).map Leaf.slot) := by
      refine nodeIs_writeHeader (fun i hi => ?_) (by rw [length_map]; omega) hcap (by norm_num)
      rw [slot_entries _ (by rw [length_map] at hi; omega)]
      exact hroot.entries i hi
    have hkey : (Ext4ExtentIdx.ofSlot (slot node 0)).eiBlock = l.key := by
      have hslot : slot node 0 = l.slot := hnode.entries 0 (by simp)
      obtain ⟨hk, hb⟩ := hleaves.bounded l mem_cons_self
      rw [hslot, Leaf.slot, ofSlot_leafSlot hk hb]
    obtain ⟨s', hsave, hn⟩ := h.nodeSaved ha node
      (setSlot (writeHeader (fun _ => 0) ⟨0xF30A, 1, 4, 2⟩) 0 (newIdx l.key b).toSlot) 1
    have hrun : growTree P ino (rootBuf s.raw.iBlock) (readHeader (rootBuf s.raw.iBlock)) s = .ok () s' := by
      rw [growTree, bind_ok (onFs_ok ha), hroot.ehEntries, hroot.ehDepth, Nat.mod_eq_of_lt hcap]
      simp only [← hnodedef, hkey]
      exact hsave
    rw [hrun]
    refine ⟨hn.cache, b, hn.later.held h.held, ⟨hlen, hn.lt, ⟨l, rfl, ?_⟩, ?_, hleaves.congr fun m hm => hn.frame h (mem_map_of_mem hm)⟩,
      nodup_cons.2 ⟨hn.fresh, h.nodup⟩, fun c hc => ?_, (h.marks hn.later).2⟩
    · exact (nodeIs_single (by norm_num) (by norm_num)).congr (by simp) hn.words
    · rw [hn.device]; exact hnode
    · rcases mem_cons.1 hc with rfl | hc
      · rw [hn.later.layout_eq]; exact hn.marked
      · exact (h.marks hn.later).1 c hc

/-! ## An insertion -/

/-- a grown tree is the deep one with an index node between the root and the leaves -/
def Tree.GrowsTo (t t' : Tree) : Prop := t' = t ∨ ∃ node ns, t = .deep ns ∧ t' = .grown node ns

/-- the outcome of an insertion at `fileBlock` -/
def Inserted (P : Params) (ino : ℕ) (s : ExtInode Image) (t : Tree) (fileBlock count : ℕ) :
    EStateM.Result String (ExtInode Image) (ℕ × ℕ) → Prop
  | .ok (p, n) s' => s'.extentCache.len = 0 ∧ ∃ fs1, allocateBlocksContiguous P 0 count s.fs = .ok (p, n) fs1 ∧
      Room P fs1 t ⟨fileBlock, n, p⟩ ∧ Piece.Bounded ⟨fileBlock, n, p⟩ ∧
      ∃ t', Tree.Step (maxEntries P.blockSize) (newNode P fs1) ⟨fileBlock, n, p⟩ t t' ∧ Inv P ino s' t' ∧
        ∃ taken, t.Takes (maxEntries P.blockSize) ⟨fileBlock, n, p⟩ (newNode P fs1) taken ∧
          Worked P ino fs1 s'.fs taken t'.nodes
  | .error _ s' => s'.extentCache.len = 0 ∧
      (∀ p n fs1, allocateBlocksContiguous P 0 count s.fs = .ok (p, n) fs1 → Room P fs1 t ⟨fileBlock, n, p⟩ →
        t.register (maxEntries P.blockSize) ⟨fileBlock, n, p⟩ 0 = none) ∧
      ∃ t', t.GrowsTo t' ∧ Inv P ino s' t'

/-- the state in which the allocated run is registered -/
def afterAlloc (s : ExtInode Image) (fs1 : ExtFileSystem Image) : ExtInode Image :=
  { s with fs := fs1, extentCache := s.extentCache.invalidate }

variable {fs1 : ExtFileSystem Image} {fileBlock : ℕ}

theorem afterAlloc_given (h : Inv P ino s t) (ho : t.Ordered (maxEntries P.blockSize))
    (hfb : fileBlock < 2 ^ 32) (ha : allocateBlocksContiguous P 0 count s.fs = .ok (p, n) fs1) :
    Given P ino (afterAlloc s fs1) t ⟨fileBlock, n, p⟩ := by
  obtain ⟨hl, hh, hn⟩ := alloc_ok h.held ha
  have hpos : 0 < p := by
    refine Nat.pos_of_ne_zero fun h0 => hh.own p le_rfl ?_ (.inl h0)
    have := hh.pos; omega
  refine ⟨h.later hl rfl, ho, ⟨hfb, hh.pos, by simp only; omega, hpos, hh.below.le⟩, fun k hk => ?_⟩
  simp only [afterAlloc, hl.layout_eq] at hk ⊢
  exact ⟨hh.data _ (by omega) (by omega), hh.taken _ (by omega) (by omega)⟩

theorem onFs_alloc (ha : allocateBlocksContiguous P 0 count s.fs = .ok (p, n) fs1) :
    onFs (allocateBlocksContiguous P 0 count) { s with extentCache := s.extentCache.invalidate } =
      .ok (p, n) (afterAlloc s fs1) := onFs_ok ha

theorem onFs_alloc_error (ha : allocateBlocksContiguous P 0 count s.fs = .error e fs1) :
    onFs (allocateBlocksContiguous P 0 count) { s with extentCache := s.extentCache.invalidate } =
      .error e (afterAlloc s fs1) := onFs_error ha

theorem allocate_grown {node : ℕ} (h : Inv P ino s (.grown node ns)) (fuel fileBlock count : ℕ) :
    ∃ e s', allocateExtentBlockChunk P ino (fuel + 1) fileBlock count s = .error e s' ∧ s'.extentCache.len = 0 ∧
      Inv P ino s' (.grown node ns) := by
  rw [allocateExtentBlockChunk, modify_bind]
  cases ha : allocateBlocksContiguous P 0 count s.fs with
  | error e fs1 =>
    rw [bind_error (onFs_alloc_error ha)]
    exact ⟨e, _, rfl, rfl, h.later (alloc_error h.held ha) rfl⟩
  | ok v fs1 =>
    have h₁ : Inv P ino (afterAlloc s fs1) (.grown node ns) := h.later (alloc_ok h.held ha).1 rfl
    rw [bind_ok (onFs_alloc ha)]
    refine ⟨"Ext4 extent tree maximum capacity exceeded", afterAlloc s fs1, ?_, rfl, h₁⟩
    generalize afterAlloc s fs1 = s1 at h₁
    obtain ⟨_, hnb, ⟨l, hhead, hroot⟩, hnode, hleaves⟩ := h₁.tree
    have hkey := (hleaves.bounded l (mem_of_mem_head? hhead)).1
    have htarget : targetPos fileBlock (indices (rootBuf s1.raw.iBlock) 1) = 0 := by
      simp only [targetPos, indices, range_one, map_cons, map_nil, zipIdx_cons, zipIdx_nil, foldl_cons, foldl_nil]
      split_ifs <;> rfl
    have hslot : slot (rootBuf s1.raw.iBlock) 0 = leafSlot l.key node := hroot.entries 0 (by simp)
    have hblock : (⟨l.key, node, 0⟩ : Ext4ExtentIdx).leafBlock = node := by simp [Ext4ExtentIdx.leafBlock]
    simp only [get_bind, openRoot_of_header hroot, hroot.header, length_singleton, two_ne_zero, one_ne_zero, if_false,
      htarget, hslot, ofSlot_leafSlot hkey hnb, hblock]
    rw [read_bind]
    simp only [hnode.header, ne_eq, not_true_eq_false, if_false, one_ne_zero]
    rfl

theorem Registered.inserted
    (ha : allocateBlocksContiguous P 0 count s.fs = .ok (p, n) fs1) (hb : Piece.Bounded ⟨fileBlock, n, p⟩)
    {register : InoM Image Unit}
    (h : Registered P ino (afterAlloc s fs1) t ⟨fileBlock, n, p⟩ (register (afterAlloc s fs1))) :
    Inserted P ino s t fileBlock count ((register >>= fun _ => pure (p, n)) (afterAlloc s fs1)) := by
  cases hr : register (afterAlloc s fs1) with
  | ok u s' =>
    rw [hr] at h
    obtain ⟨hcache, hroom, hstep⟩ := h
    rw [bind_ok hr]
    exact ⟨by rw [hcache]; rfl, fs1, ha, hroom, hb, hstep⟩
  | error e s' =>
    rw [hr] at h
    obtain ⟨hcache, hroom, hinv⟩ := h
    rw [bind_error hr]
    refine ⟨by rw [hcache]; rfl, fun p' n' fs' ha' hroom' => ?_, t, .inl rfl, hinv⟩
    rw [ha] at ha'
    cases ha'
    exact absurd hroom' hroom

theorem Inserted.of_error (ha : allocateBlocksContiguous P 0 count s.fs = .error e fs') (h : Inv P ino s t) :
    Inserted P ino s t fileBlock count (.error e (afterAlloc s fs')) := by
  refine ⟨rfl, fun p n fs'' ha' => ?_, t, .inl rfl, h.later (alloc_error h.held ha) rfl⟩
  rw [ha] at ha'; cases ha'

theorem allocate_flat (h : Inv P ino s (.flat xs)) (ho : (flat xs).Ordered (maxEntries P.blockSize))
    (hfb : fileBlock < 2 ^ 32) (fuel count : ℕ) :
    Inserted P ino s (.flat xs) fileBlock count (allocateExtentBlockChunk P ino (fuel + 1) fileBlock count s) := by
  rw [allocateExtentBlockChunk, modify_bind]
  cases ha : allocateBlocksContiguous P 0 count s.fs with
  | error e fs1 => rw [bind_error (onFs_alloc_error ha)]; exact .of_error ha h
  | ok v fs1 =>
    have g := afterAlloc_given h ho hfb ha
    obtain ⟨hnode, hhdr⟩ := openRoot_flat g.inv.tree
    have hdepth : (openRoot (afterAlloc s fs1).raw.iBlock).2.ehDepth = 0 := by rw [hhdr, hnode.ehDepth]
    rw [bind_ok (onFs_alloc ha)]
    simp only [get_bind, hdepth, if_true]
    exact (registerInRoot_spec g).inserted ha g.bounded

theorem allocate_deep (h : Inv P ino s (.deep ns)) (ho : (deep ns).Ordered (maxEntries P.blockSize))
    (hfb : fileBlock < 2 ^ 32) (fuel count : ℕ) :
    Inserted P ino s (.deep ns) fileBlock count (allocateExtentBlockChunk P ino (fuel + 2) fileBlock count s) := by
  rw [allocateExtentBlockChunk, modify_bind]
  cases ha : allocateBlocksContiguous P 0 count s.fs with
  | error e fs1 => rw [bind_error (onFs_alloc_error ha)]; exact .of_error ha h
  | ok v fs1 =>
    obtain ⟨p, n⟩ := v
    have g := afterAlloc_given h ho hfb ha
    rw [bind_ok (onFs_alloc ha)]
    obtain ⟨s1, hs1⟩ : ∃ s1, s1 = afterAlloc s fs1 := ⟨_, rfl⟩
    rw [← hs1] at g ⊢
    obtain ⟨hne, hlen, hroot, hleaves⟩ := g.inv.tree
    have hpos : 0 < ns.length := length_pos_of_ne_nil hne
    have htlt : target ns fileBlock < ns.length := by
      have := countP_le_length (p := fun l : Leaf => decide (l.key ≤ fileBlock)) (l := ns)
      unfold target; omega
    obtain ⟨l, ht⟩ : ∃ l, ns[target ns fileBlock]? = some l := ⟨_, getElem?_eq_getElem htlt⟩
    have hmem : l ∈ ns := mem_of_getElem? ht
    have hidx := hroot.indices_eq
    rw [length_map, map_leafIdx hleaves.bounded] at hidx
    have hslot : Ext4ExtentIdx.ofSlot (slot (rootBuf s1.raw.iBlock) (target ns fileBlock)) = leafIdx l := by
      obtain ⟨hk, hb⟩ := hleaves.bounded l hmem
      rw [hroot.entries _ (by rwa [length_map]), getElem_map, (List.getElem?_eq_some_iff.1 ht).2]
      exact ofSlot_leafSlot hk hb
    have hnode := hleaves.node l hmem
    simp only [get_bind, openRoot_of_header hroot, hroot.ehDepth, one_ne_zero, if_false, hroot.ehEntries, length_map, hpos.ne', hidx,
      targetPos_eq ho.keyed, hslot, leafBlock_leafIdx]
    rw [read_bind]
    simp only [hnode.ehMagic, hnode.ehDepth, ne_eq, not_true_eq_false, if_false, if_true]
    cases hr : registerLeaf (maxEntries P.blockSize) l.pieces ⟨fileBlock, n, p⟩ with
    | some ys =>
      obtain ⟨register, hreg, hspec⟩ := registerInLeaf_spec g ht hr
      simp only [hreg]
      subst hs1
      exact hspec.inserted ha g.bounded
    | none =>
      obtain ⟨_, hcap⟩ := g.inv.held.cap_bounds
      have hreg := registerInLeaf_eq P ino l.block hnode g.bounded (ho.leaf l hmem).fits hcap
      rw [hr] at hreg
      simp only [hreg, hroot.ehMax]
      by_cases h4 : ns.length < 4
      · rw [if_pos h4]
        subst hs1
        exact (addLeaf_spec g ht hr h4).inserted ha g.bounded
      · rw [if_neg h4]
        have hfull : ∀ p' n' fs', allocateBlocksContiguous P 0 count s.fs = .ok (p', n') fs' →
            Room P fs' (.deep ns) ⟨fileBlock, n', p'⟩ →
            (deep ns).register (maxEntries P.blockSize) ⟨fileBlock, n', p'⟩ 0 = none := by
          intro p' n' fs' ha' _
          rw [ha] at ha'
          cases ha'
          simp only [register, ht, hr, if_neg h4]
        have hcache : s1.extentCache.len = 0 := by rw [hs1]; rfl
        have hgrow := growTree_spec g.inv
        cases hg : growTree P ino (rootBuf s1.raw.iBlock) (readHeader (rootBuf s1.raw.iBlock)) s1 with
        | error e s2 =>
          rw [hg] at hgrow
          rw [bind_error hg]
          exact ⟨by rw [hgrow.1, hcache], hfull, _, .inl rfl, hgrow.2⟩
        | ok u s2 =>
          rw [hg] at hgrow
          obtain ⟨_, node, hinv⟩ := hgrow
          obtain ⟨e, s', hrun, hc, hinv'⟩ := allocate_grown hinv fuel fileBlock n
          rw [bind_ok hg, hrun]
          exact ⟨hc, hfull, _, .inr ⟨node, ns, rfl, rfl⟩, hinv'⟩

/-- **An insertion that succeeds is a step of the tree; one that fails leaves the mappings alone.** -/
theorem allocate_spec (h : Inv P ino s t) (ho : t.Ordered (maxEntries P.blockSize))
    (hfb : fileBlock < 2 ^ 32) (fuel count : ℕ) :
    Inserted P ino s t fileBlock count (allocateExtentBlockChunk P ino (fuel + 2) fileBlock count s) := by
  cases t with
  | flat xs => exact allocate_flat h ho hfb (fuel + 1) count
  | deep ns => exact allocate_deep h ho hfb fuel count
  | grown node ns =>
    obtain ⟨e, s', hr, hcache, hinv⟩ := allocate_grown h (fuel + 1) fileBlock count
    rw [hr]
    exact ⟨hcache, fun _ _ _ _ _ => rfl, _, .inl rfl, hinv⟩

end Kontsnor.Ext
