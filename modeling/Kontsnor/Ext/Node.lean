/-
Buffers that hold a node of an extent tree.

`NodeIs buf depth max slots`: the buffer's header has the magic number, and its entries are exactly `slots`. The edits
an insertion makes to a buffer are the edits of a list: overwrite an entry (`NodeIs.set`), insert one (`NodeIs.insert`).
`pieceSlot` and `leafSlot` are the entries for a piece and for a leaf; reading them back gives the piece's extent and
the leaf's index entry.
-/
import Kontsnor.Ext.Extents
import Kontsnor.Ext.Tree

namespace Kontsnor.Ext

open List Ext4Extent Nat

open Words (Buffer)

/-! ## Shifting entries -/

variable (buf : Buffer)

theorem shiftSlots_succ (pos k : ℕ) :
    shiftSlots buf pos (pos + (k + 1)) = shiftSlots (setSlot buf (pos + k + 1) (slot buf (pos + k))) pos (pos + k) := by
  simp only [shiftSlots, Nat.add_sub_cancel_left, range'_concat, reverse_append, foldl_append, Nat.one_mul]
  rfl

theorem slot_shiftSlots (pos k j : ℕ) :
    slot (shiftSlots buf pos (pos + k)) j = if pos < j ∧ j ≤ pos + k then slot buf (j - 1) else slot buf j := by
  induction k generalizing buf with
  | zero => rw [if_neg (by omega)]; simp [shiftSlots]
  | succ k ih =>
    rw [shiftSlots_succ, ih]
    by_cases h1 : pos < j ∧ j ≤ pos + k
    · rw [if_pos h1, if_pos (by omega), slot_setSlot, if_neg (by omega)]
    · rw [if_neg h1, slot_setSlot]
      by_cases h2 : j = pos + k + 1
      · rw [if_pos h2, if_pos (by omega), h2]; rfl
      · rw [if_neg h2, if_neg (by omega)]

/-! ## Nodes -/

/-- the buffer holds a node with these entries -/
structure NodeIs (depth max : ℕ) (slots : List Slot) : Prop where
  header : readHeader buf = ⟨0xF30A, slots.length, max, depth⟩
  entries : ∀ i (h : i < slots.length), slot buf i = slots[i]

variable {buf buf' : Buffer} {depth max : ℕ} {slots : List Slot}

section

variable (h : NodeIs buf depth max slots)
include h

theorem NodeIs.ehMagic : (readHeader buf).ehMagic = 0xF30A := by rw [h.header]

theorem NodeIs.ehEntries : (readHeader buf).ehEntries = slots.length := by rw [h.header]

theorem NodeIs.ehMax : (readHeader buf).ehMax = max := by rw [h.header]

theorem NodeIs.ehDepth : (readHeader buf).ehDepth = depth := by rw [h.header]

theorem NodeIs.indices_eq : indices buf slots.length = slots.map Ext4ExtentIdx.ofSlot := by
  refine ext_getElem (by simp [indices]) fun i h1 h2 => ?_
  have hi : i < slots.length := by simpa [indices] using h1
  simp [indices, h.entries i hi]

theorem NodeIs.set (i : ℕ) (s : Slot) : NodeIs (setSlot buf i s) depth max (slots.set i s) where
  header := by rw [readHeader_setSlot, h.header, length_set]
  entries j hj := by
    rw [length_set] at hj
    rw [slot_setSlot, getElem_set]
    by_cases hij : j = i
    · rw [if_pos hij, if_pos hij.symm]
    · rw [if_neg hij, if_neg fun he => hij he.symm, h.entries j hj]

theorem NodeIs.insert {pos : ℕ} (hpos : pos ≤ slots.length) {s : Slot}
    (hlen : slots.length + 1 < 65536) (hmax : max < 65536) (hd : depth < 65536) :
    NodeIs (insertSlot buf (readHeader buf) pos s) depth max (slots.insertIdx pos s) := by
  obtain ⟨k, hk⟩ := Nat.exists_eq_add_of_le hpos
  have hentries : (readHeader buf).ehEntries = pos + k := h.ehEntries.trans hk
  have hlen' : (slots.insertIdx pos s).length = slots.length + 1 := length_insertIdx_of_le_length hpos s
  constructor
  · have hf : ({ readHeader buf with ehEntries := pos + k + 1 } : Ext4ExtentHeader).Fits := by
      rw [h.header]; exact ⟨by norm_num, by simp only; omega, hmax, hd⟩
    rw [insertSlot, hentries, readHeader_updateHeader hf, h.header, hlen', hk]
  · intro j hj
    rw [insertSlot, hentries, slot_updateHeader, slot_setSlot, slot_shiftSlots, getElem_insertIdx]
    rcases lt_trichotomy j pos with hlt | heq | hgt
    · rw [if_neg (by omega), if_neg (by omega), dif_pos hlt]; exact h.entries j _
    · rw [if_pos heq, dif_neg (by omega), dif_pos heq]
    · rw [if_neg (by omega), if_pos (by omega), dif_neg (by omega), dif_neg (by omega)]; exact h.entries (j - 1) _

theorem NodeIs.congr (hlen : slots.length ≤ 4) (he : ∀ w < 15, buf' w = buf w) : NodeIs buf' depth max slots where
  header := by rw [← h.header, readHeader, readHeader, he 0 (by omega), he 1 (by omega)]
  entries i hi := by
    rw [← h.entries i hi, slot, slot, he _ (by omega), he _ (by omega), he _ (by omega)]

end

theorem nodeIs_writeHeader (hs : ∀ i (h : i < slots.length), slot buf i = slots[i]) (hlen : slots.length < 65536)
    (hmax : max < 65536) (hd : depth < 65536) :
    NodeIs (writeHeader buf ⟨0xF30A, slots.length, max, depth⟩) depth max slots where
  header := readHeader_writeHeader ⟨by norm_num, hlen, hmax, hd⟩
  entries i hi := by rw [slot_writeHeader, hs i hi]

/-! ## Pieces as entries -/

variable (e : Piece)

/-- a piece that an entry can hold -/
structure Piece.Bounded : Prop where
  first_lt : e.first < 2 ^ 32
  pos : 0 < e.len
  short : e.len ≤ 32767
  phys_pos : 0 < e.phys
  phys_below : e.phys + e.len ≤ 2 ^ 32

theorem Piece.Fits.bounded {e : Piece} (h : e.Fits) : e.Bounded :=
  { h with first_lt := by have := h.below; omega }

def Piece.ext : Ext4Extent := ⟨e.first, e.len, 0, e.phys⟩

def pieceSlot : Slot := e.ext.toSlot

namespace Piece.Bounded

variable {e : Piece} (h : e.Bounded)

include h

theorem ofSlot : ofSlot (pieceSlot e) = e.ext := by
  obtain ⟨h1, h2, h3, h4, h5⟩ := h
  exact ofSlot_toSlot h1 (by simp only [Piece.ext]; omega) (by simp [Piece.ext])
    (by simp only [Piece.ext]; omega)

theorem len_ext : e.ext.len = e.len := mod_eq_of_lt (by have := h.short; simp only [Piece.ext]; omega)

omit h in
theorem startBlock_ext : e.ext.startBlock = e.phys := by simp [Piece.ext, startBlock]

/-- the 32-bit comparison of the source: a piece that would run to 2^32 covers nothing -/
theorem covers_ext (b : ℕ) : e.ext.covers b = decide (e.Covers b) := by
  have h1 := h.first_lt; have h2 := h.short
  have hfirst : e.ext.eeBlock = e.first := rfl
  rw [Bool.eq_iff_iff, decide_eq_true_iff]
  simp only [covers, h.len_ext, hfirst, Bool.and_eq_true, decide_eq_true_eq, add32, Piece.Covers]
  by_cases hlt : e.first + e.len < 2 ^ 32
  · rw [mod_eq_of_lt hlt]; omega
  · have hmod : (e.first + e.len) % 2 ^ 32 = e.first + e.len - 2 ^ 32 := by
      rw [mod_eq_sub_mod (by omega), mod_eq_of_lt (by omega)]
    omega

/-- where no piece runs to 2^32, the source's test for an extension is the plain one -/
theorem canMerge_ext (hb : e.first + e.len < 2 ^ 32) (x : Piece) :
    canMerge e.ext x.first x.phys x.len = decide (x.Continues e) := by
  have hfirst : e.ext.eeBlock = e.first := rfl
  have hlen : e.ext.eeLen = e.len := rfl
  rw [Bool.eq_iff_iff, decide_eq_true_iff]
  simp only [canMerge, h.len_ext, startBlock_ext, hfirst, hlen, add32, mod_eq_of_lt hb, Bool.and_eq_true,
    beq_iff_eq, decide_eq_true_eq, Piece.Continues, and_assoc]

end Piece.Bounded

theorem newExtent_eq {x : Piece} (h : x.Bounded) : newExtent x.first x.phys x.len = x.ext := by
  have h1 := h.short; have h2 := h.phys_below; have h3 := h.pos
  simp only [newExtent, Piece.ext]
  congr 1
  · exact mod_eq_of_lt (by omega)
  · rw [div_eq_of_lt (by omega)]
  · exact mod_eq_of_lt (by omega)

variable {xs : List Piece}

theorem find_pieces (h : ∀ e ∈ xs, e.Bounded) (b : ℕ) :
    ((xs.map pieceSlot).map ofSlot).find? (·.covers b) = (xs.find? fun e => decide (e.Covers b)).map Piece.ext := by
  induction xs with
  | nil => rfl
  | cons e xs ih =>
    have he := h e mem_cons_self
    rw [map_cons, map_cons, find?_cons, find?_cons, he.ofSlot, he.covers_ext,
      ih fun e' he' => h e' (mem_cons_of_mem _ he')]
    cases decide (e.Covers b) <;> rfl

theorem findIdx_continues (h : ∀ e ∈ xs, e.Fits) (x : Piece) :
    ((xs.map pieceSlot).map ofSlot).findIdx? (canMerge · x.first x.phys x.len) =
      xs.findIdx? fun e => decide (x.Continues e) := by
  induction xs with
  | nil => rfl
  | cons e xs ih =>
    have he := h e mem_cons_self
    rw [map_cons, map_cons, findIdx?_cons, findIdx?_cons, he.bounded.ofSlot,
      he.bounded.canMerge_ext he.below, ih fun e' he' => h e' (mem_cons_of_mem _ he')]

theorem insertPos_pieces (h : ∀ e ∈ xs, e.Bounded) (b : ℕ) :
    insertPos b (((xs.map pieceSlot).map ofSlot).map eeBlock) = xs.findIdx fun e => decide (b < e.first) := by
  have hmap : ((xs.map pieceSlot).map ofSlot).map eeBlock = xs.map Piece.first := by
    rw [map_map, map_map]
    exact map_congr_left fun e he => by simp [(h e he).ofSlot, Piece.ext]
  rw [hmap, insertPos, findIdx_map]; rfl

section

variable (h : NodeIs buf depth max (xs.map pieceSlot))
include h

theorem NodeIs.extents_eq : extents buf xs.length = (xs.map pieceSlot).map ofSlot := by
  refine ext_getElem (by simp [extents]) fun i h1 h2 => ?_
  have hi : i < (xs.map pieceSlot).length := by simpa [extents] using h1
  simp [extents, h.entries i hi]

theorem NodeIs.insertPiece {x : Piece} (hx : x.Bounded) (hb : ∀ e ∈ xs, e.Bounded) (hlen : xs.length < max)
    (hmax : max < 65536) (hd : depth < 65536) :
    NodeIs (insertSlot buf (readHeader buf) (insertPos x.first ((extents buf xs.length).map eeBlock))
      (newExtent x.first x.phys x.len).toSlot) depth max ((Ext.insertPiece xs x).map pieceSlot) := by
  rw [h.extents_eq, insertPos_pieces hb, newExtent_eq hx, Ext.insertPiece, Ascending.insertBy_eq_insertIdx, map_insertIdx]
  exact h.insert (by rw [length_map]; exact findIdx_le_length) (by rw [length_map]; omega) hmax hd

end

/-! ## Leaves as entries -/

variable (l : Leaf)

def Leaf.Bounded : Prop := l.key < 2 ^ 32 ∧ l.block < 2 ^ 32

def leafSlot (key block : ℕ) : Slot := (newIdx key block).toSlot

def leafIdx : Ext4ExtentIdx := ⟨l.key, l.block, 0⟩

theorem ofSlot_leafSlot {key block : ℕ} (hk : key < 2 ^ 32) (hb : block < 2 ^ 32) :
    Ext4ExtentIdx.ofSlot (leafSlot key block) = ⟨key, block, 0⟩ := by
  have hidx : newIdx key block = ⟨key, block, 0⟩ := by
    simp only [newIdx, mod_eq_of_lt hb, div_eq_of_lt hb]
  rw [leafSlot, hidx]
  exact Ext4ExtentIdx.ofSlot_toSlot hk hb (by norm_num)

def Leaf.slot : Slot := leafSlot l.key l.block

variable {ns : List Leaf}

theorem map_leafIdx (h : ∀ l ∈ ns, l.Bounded) : (ns.map Leaf.slot).map Ext4ExtentIdx.ofSlot = ns.map leafIdx := by
  rw [map_map]
  exact map_congr_left fun l hl => ofSlot_leafSlot (h l hl).1 (h l hl).2

theorem leafBlock_leafIdx : (leafIdx l).leafBlock = l.block := by simp [leafIdx, Ext4ExtentIdx.leafBlock]

theorem route_concat (n : Leaf) (b : ℕ) : route (ns ++ [n]) b = if n.key ≤ b then some n else route ns b := by
  by_cases h : n.key ≤ b <;> simp [route, h]

section

variable (h : Keyed ns) (b : ℕ)
include h

theorem bestIdx_eq : bestIdx b (ns.map leafIdx) = (route ns b).map leafIdx := by
  induction ns using reverseRecOn with
  | nil => rfl
  | append_singleton ns n ih =>
    obtain ⟨hns, _, hlt⟩ := pairwise_append.1 h
    have ih := ih hns
    rw [bestIdx] at ih ⊢
    rw [map_append, foldl_append, ih, route_concat]
    simp only [map_cons, map_nil, foldl_cons, foldl_nil]
    by_cases hn : n.key ≤ b
    · rw [if_pos (show (leafIdx n).eiBlock ≤ b from hn), if_pos hn]
      cases hr : route ns b with
      | none => rfl
      | some l =>
        have := hlt l (route_some hr).1 n (mem_singleton_self n)
        exact if_pos this
    · rw [if_neg (show ¬(leafIdx n).eiBlock ≤ b from hn), if_neg hn]

/-- the fold of `targetPos` also carries the key of the position it is at -/
theorem targetPos_fold :
    (ns.map leafIdx).zipIdx.foldl (fun (pos, best) (idx, i) =>
      if idx.eiBlock ≤ b ∧ (i = 0 ∨ best ≤ idx.eiBlock) then (i, idx.eiBlock) else (pos, best)) (0, 0) =
      (target ns b, ((route ns b).map Leaf.key).getD 0) := by
  induction ns using reverseRecOn with
  | nil => rfl
  | append_singleton ns n ih =>
    obtain ⟨hns, _, hlt⟩ := pairwise_append.1 h
    rw [map_append, zipIdx_append, foldl_append, ih hns, route_concat]
    simp only [map_cons, map_nil, zipIdx_cons, zipIdx_nil, foldl_cons, foldl_nil, length_map, zero_add]
    have hkey : (leafIdx n).eiBlock = n.key := rfl
    by_cases hn : n.key ≤ b
    · have hbest : ((route ns b).map Leaf.key).getD 0 ≤ n.key := by
        cases hr : route ns b with
        | none => exact zero_le _
        | some l => exact (hlt l (route_some hr).1 n (mem_singleton_self n)).le
      have hall : (ns.countP fun l => decide (l.key ≤ b)) = ns.length :=
        countP_eq_length.2 fun l hl => by
          have := hlt l hl n (mem_singleton_self n)
          simpa using this.le.trans hn
      rw [hkey, if_pos ⟨hn, .inr hbest⟩, if_pos hn]
      simp [target, countP_append, hall, hn]
    · rw [hkey, if_neg fun hc => hn hc.1, if_neg hn]
      simp [target, countP_append, hn]

theorem targetPos_eq : targetPos b (ns.map leafIdx) = target ns b := by
  rw [targetPos, targetPos_fold h b]

end

theorem insertPos_leaves (b : ℕ) :
    insertPos b ((ns.map leafIdx).map Ext4ExtentIdx.eiBlock) = ns.findIdx fun l => decide (b < l.key) := by
  have hmap : (ns.map leafIdx).map Ext4ExtentIdx.eiBlock = ns.map Leaf.key := by
    rw [map_map]; rfl
  rw [hmap, insertPos, findIdx_map]; rfl

theorem map_insertLeaf (l : Leaf) :
    (ns.map Leaf.slot).insertIdx (ns.findIdx fun m => decide (l.key < m.key)) l.slot =
      (insertLeaf ns l).map Leaf.slot := by
  rw [insertLeaf, Ascending.insertBy_eq_insertIdx, map_insertIdx]

end Kontsnor.Ext
