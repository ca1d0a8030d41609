/-
Extent trees as such: no blocks, no words.

A `Piece` maps a run of file blocks to a run of disk blocks. A `Tree` is the shape an insertion can reach from an empty
root: a root with pieces (`flat`), a root over leaves (`deep`), and a root that has grown one level more (`grown`), into
which nothing is ever inserted again. `Tree.lookup` answers from the first piece that covers a block, in the leaf with
the largest key up to it. `Tree.register` is what an insertion does to the tree.

The insertion does not look at what is mapped behind the block it fills, nor does it lower the key of the leaf it
inserts into. `Tree.Shows` is the condition on the tree before under which the new piece will be found.
-/
import Kontsnor.Core.Ascending

namespace Kontsnor.Ext

open List Option Nat

open Ascending (insertBy AscendingBy mem_insertBy length_insertBy perm_insertBy)

/-! ## Trees -/

/-- file blocks `first .. first + len` are disk blocks `phys .. phys + len` -/
structure Piece where
  first : ℕ
  len : ℕ
  phys : ℕ
deriving DecidableEq, Repr

namespace Piece

variable (e : Piece)

/-- a piece that would run to 2^32 or beyond covers nothing: its end is a 32-bit sum -/
def Covers (b : ℕ) : Prop := e.first ≤ b ∧ b < e.first + e.len ∧ e.first + e.len < 2 ^ 32

instance (e : Piece) (b : ℕ) : Decidable (e.Covers b) := inferInstanceAs (Decidable (_ ∧ _ ∧ _))

/-- a piece as the insertions leave it: not empty, with its length in 15 bits, and inside both address spaces -/
structure Fits : Prop where
  pos : 0 < e.len
  short : e.len ≤ 32767
  below : e.first + e.len < 2 ^ 32
  phys_pos : 0 < e.phys
  phys_below : e.phys + e.len ≤ 2 ^ 32

/-- the disk block of a file block the piece covers -/
def image (b : ℕ) : ℕ := e.phys + (b - e.first)

/-- the piece `x` continues `e`, on both sides, and the sum of the lengths fits -/
def Continues (x e : Piece) : Prop := e.first + e.len = x.first ∧ e.phys + e.len = x.phys ∧ e.len + x.len ≤ 32767

instance (x e : Piece) : Decidable (x.Continues e) := inferInstanceAs (Decidable (_ ∧ _ ∧ _))

def grow (n : ℕ) : Piece := { e with len := e.len + n }

/-- no file block is covered by both -/
def Apart (e x : Piece) : Prop := e.first + e.len ≤ x.first ∨ x.first + x.len ≤ e.first

instance (e x : Piece) : Decidable (e.Apart x) := inferInstanceAs (Decidable (_ ∨ _))

end Piece

/-- the first piece that covers the block answers -/
def lookup (xs : List Piece) (b : ℕ) : Option ℕ := (xs.find? fun e => decide (e.Covers b)).map fun e => e.image b

structure Leaf where
  key : ℕ
  block : ℕ
  pieces : List Piece
deriving DecidableEq, Repr

/-- the leaf for a block: the last one whose key is not above it (the keys ascend) -/
def route (ns : List Leaf) (b : ℕ) : Option Leaf := ns.reverse.find? fun l => decide (l.key ≤ b)

inductive Tree where
  | flat (xs : List Piece)
  | deep (ns : List Leaf)
  | grown (node : ℕ) (ns : List Leaf)
deriving DecidableEq, Repr

def lookupLeaves (ns : List Leaf) (b : ℕ) : Option ℕ := (route ns b).bind fun l => lookup l.pieces b

namespace Tree

def lookup : Tree → ℕ → Option ℕ
  | flat xs, b => Ext.lookup xs b
  | deep ns, b => lookupLeaves ns b
  | grown _ ns, b => lookupLeaves ns b

def find : Tree → ℕ → Option Piece
  | flat xs, b => xs.find? fun e => decide (e.Covers b)
  | deep ns, b => (route ns b).bind fun l => l.pieces.find? fun e => decide (e.Covers b)
  | grown _ ns, b => (route ns b).bind fun l => l.pieces.find? fun e => decide (e.Covers b)

theorem lookup_eq_find (t : Tree) (b : ℕ) : t.lookup b = (t.find b).map fun e => e.image b := by
  cases t with
  | flat xs => rfl
  | deep ns => simp only [lookup, find, lookupLeaves, Ext.lookup]; cases route ns b <;> rfl
  | grown node ns => simp only [lookup, find, lookupLeaves, Ext.lookup]; cases route ns b <;> rfl

/-- all pieces, found or not -/
def pieces : Tree → List Piece
  | flat xs => xs
  | deep ns => ns.flatMap Leaf.pieces
  | grown _ ns => ns.flatMap Leaf.pieces

end Tree

/-! ## Insertion -/

/-- before the first piece that starts behind it -/
abbrev insertPiece (xs : List Piece) (x : Piece) : List Piece := insertBy Piece.first x xs

/-- before the first leaf with a larger key -/
abbrev insertLeaf (ns : List Leaf) (l : Leaf) : List Leaf := insertBy Leaf.key l ns

/-- into a root of at most four pieces: extend the last piece, or insert; `none` if it is full -/
def registerFlat (xs : List Piece) (x : Piece) : Option (List Piece) :=
  match xs.getLast? with
  | some last =>
    if x.Continues last then some (xs.dropLast ++ [last.grow x.len])
    else if xs.length < 4 then some (insertPiece xs x)
    else none
  | none => some [x]

/-- into a leaf of at most `cap` pieces: extend the first piece that it continues, or insert; `none` if it is full -/
def registerLeaf (cap : ℕ) (xs : List Piece) (x : Piece) : Option (List Piece) :=
  match xs.findIdx? (fun e => decide (x.Continues e)) with
  | some i => some (xs.modify i (·.grow x.len))
  | none => if xs.length < cap then some (insertPiece xs x) else none

/-- the position of the leaf an insertion goes to: the leaf for the block, or the first one -/
def target (ns : List Leaf) (b : ℕ) : ℕ := (ns.countP fun l => decide (l.key ≤ b)) - 1

namespace Tree

variable (cap : ℕ) (x : Piece)

/-- the tree after `x` was registered, with `newBlock` for a leaf that has to be added; `none` if the tree has to grow,
or has grown -/
def register (newBlock : ℕ) : Tree → Option Tree
  | flat xs =>
    match registerFlat xs x with
    | some ys => some (flat ys)
    | none => some (deep [⟨(xs.head?.map Piece.first).getD 0, newBlock, xs ++ [x]⟩])
  | deep ns =>
    match ns[target ns x.first]? with
    | none => none
    | some l =>
      match registerLeaf cap l.pieces x with
      | some ys => some (deep (ns.set (target ns x.first) { l with pieces := ys }))
      | none => if ns.length < 4 then some (deep (insertLeaf ns ⟨x.first, newBlock, [x]⟩)) else none
  | grown _ _ => none

/-- `x` does not go into a node that is there -/
def Splits : Tree → Prop
  | flat xs => registerFlat xs x = none
  | deep ns => ∀ l, ns[target ns x.first]? = some l → registerLeaf cap l.pieces x = none
  | grown _ _ => False

/-- the key under which the new piece goes is not above its first block -/
def Reaches : Tree → Prop
  -- a split puts the new piece last, under the key of the first
  | flat xs => registerFlat xs x = none → (xs.head?.map Piece.first).getD 0 ≤ x.first
  -- a leaf that takes the piece keeps its key
  | deep ns => ∀ l, ns[target ns x.first]? = some l → registerLeaf cap l.pieces x ≠ none → l.key ≤ x.first
  | grown _ _ => True

/-- if `x` is registered at all: it ends below 2^32, no piece of the tree overlaps it, and its key reaches it -/
def Shows (t : Tree) : Prop :=
  (t.register cap x 0).isSome → x.first + x.len < 2 ^ 32 ∧ (∀ e ∈ t.pieces, e.Apart x) ∧ t.Reaches cap x

end Tree

/-! ## Lookups in a list of pieces -/

variable {xs : List Piece} {b : ℕ}

theorem lookup_eq_none : lookup xs b = none ↔ ∀ e ∈ xs, ¬e.Covers b := by
  simp [lookup]

theorem lookup_cons (e : Piece) (xs : List Piece) (b : ℕ) :
    lookup (e :: xs) b = if e.Covers b then some (e.image b) else lookup xs b := by
  by_cases h : e.Covers b <;> simp [lookup, h]

theorem lookup_some {p : ℕ} (h : lookup xs b = some p) : ∃ e ∈ xs, e.Covers b ∧ e.image b = p := by
  simp only [lookup, map_eq_some_iff] at h
  obtain ⟨e, he, hp⟩ := h
  exact ⟨e, mem_of_find?_eq_some he, by simpa using find?_some he, hp⟩

variable {e : Piece} {k : ℕ}

theorem Piece.Fits.common {x : Piece} (he : e.Fits) (hpos : 0 < x.len) (h : ¬e.Apart x) :
    ∃ k < x.len, e.Covers (x.first + k) := by
  unfold Piece.Apart at h
  obtain ⟨hlen, _, hbelow, _⟩ := he
  exact ⟨max e.first x.first - x.first, by omega, by unfold Piece.Covers; omega⟩

/-- the whole range of `x` is found -/
def Visible (f : ℕ → Option ℕ) (x : Piece) : Prop := ∀ k < x.len, f (x.first + k) = some (x.phys + k)

/-- on the range of `x` the piece leads where `x` leads -/
def Piece.Agrees (e x : Piece) : Prop := ∀ k < x.len, e.Covers (x.first + k) → e.image (x.first + k) = x.phys + k

theorem visible_of_agrees {x y : Piece} (ha : ∀ e ∈ xs, e.Agrees x) (hy : y ∈ xs)
    (hc : ∀ k < x.len, y.Covers (x.first + k)) : Visible (lookup xs) x := by
  intro k hk
  cases hl : lookup xs (x.first + k) with
  | none => exact absurd (hc k hk) (lookup_eq_none.1 hl y hy)
  | some q =>
    obtain ⟨e, he, hce, rfl⟩ := lookup_some hl
    rw [ha e he k hk hce]

section Register

variable {xs ys : List Piece} {x : Piece}

theorem covers_self (hb : x.first + x.len < 2 ^ 32) (hk : k < x.len) : x.Covers (x.first + k) := by
  unfold Piece.Covers; omega

/-- pieces in the order of their first blocks -/
abbrev InOrder (xs : List Piece) : Prop := AscendingBy Piece.first xs

theorem registerFlat_cases (hr : registerFlat xs x = some ys) :
    (∃ init last, xs = init ++ [last] ∧ x.Continues last ∧ ys = init ++ [last.grow x.len]) ∨
      ys = insertPiece xs x ∧ xs.length < 4 := by
  unfold registerFlat at hr
  split at hr
  · rename_i last hlast
    split_ifs at hr with hc h4
    · cases hr
      exact .inl ⟨xs.dropLast, last, (dropLast_append_getLast? last hlast).symm, hc, rfl⟩
    · cases hr
      exact .inr ⟨rfl, h4⟩
  · rename_i hlast
    cases hr
    rw [getLast?_eq_none_iff.1 hlast]
    exact .inr ⟨rfl, by decide⟩

/-- an old piece, the new one, or an old one extended by it -/
def Arises (xs : List Piece) (x e : Piece) : Prop := e ∈ xs ∨ e = x ∨ ∃ e' ∈ xs, x.Continues e' ∧ e = e'.grow x.len

theorem Arises.mono {xs' : List Piece} (h : Arises xs x e) (hsub : ∀ e ∈ xs, e ∈ xs') : Arises xs' x e := by
  rcases h with h | h | ⟨e', h, hc⟩
  · exact .inl (hsub e h)
  · exact .inr (.inl h)
  · exact .inr (.inr ⟨e', hsub e' h, hc⟩)

theorem perm_modify (f : Piece → Piece) {i : ℕ} (hi : i < xs.length) :
    ∃ rest, xs.Perm (xs[i] :: rest) ∧ (xs.modify i f).Perm (f xs[i] :: rest) := by
  refine ⟨xs.take i ++ xs.drop (i + 1), ?_, ?_⟩
  · conv_lhs => rw [← take_append_drop i xs, drop_eq_getElem_cons hi]
    exact perm_middle
  · rw [modify_eq_take_cons_drop hi]
    exact perm_middle

/-- the list after a registration: one piece more, or one piece extended -/
def Takes (xs : List Piece) (x : Piece) (ys : List Piece) : Prop :=
  ys.Perm (x :: xs) ∨ ∃ e rest, xs.Perm (e :: rest) ∧ x.Continues e ∧ ys.Perm (e.grow x.len :: rest)

theorem registerLeaf_takes {cap : ℕ} (hr : registerLeaf cap xs x = some ys) : Takes xs x ys := by
  unfold registerLeaf at hr
  split at hr
  · rename_i i hi
    cases hr
    obtain ⟨hlt, hc, _⟩ := findIdx?_eq_some_iff_getElem.1 hi
    obtain ⟨rest, h1, h2⟩ := perm_modify (fun e => e.grow x.len) hlt
    exact .inr ⟨xs[i], rest, h1, of_decide_eq_true hc, h2⟩
  · split_ifs at hr
    cases hr
    exact .inl (perm_insertBy x xs)

theorem registerFlat_takes (hr : registerFlat xs x = some ys) : Takes xs x ys := by
  rcases registerFlat_cases hr with ⟨init, last, rfl, hc, rfl⟩ | ⟨rfl, -⟩
  · exact .inr ⟨last, init, perm_append_comm, hc, perm_append_comm⟩
  · exact .inl (perm_insertBy x _)

theorem Takes.arises (h : Takes xs x ys) (he : e ∈ ys) : Arises xs x e := by
  rcases h with hp | ⟨e', rest, hxs, hc, hys⟩
  · rcases mem_cons.1 (hp.mem_iff.1 he) with rfl | he
    · exact .inr (.inl rfl)
    · exact .inl he
  · rcases mem_cons.1 (hys.mem_iff.1 he) with rfl | he
    · exact .inr (.inr ⟨e', hxs.mem_iff.2 mem_cons_self, hc, rfl⟩)
    · exact .inl (hxs.mem_iff.2 (mem_cons_of_mem _ he))

theorem Takes.covers (ht : Takes xs x ys) (hb : x.first + x.len < 2 ^ 32) (he : e ∈ xs)
    (hc : e.Covers b) : ∃ y ∈ ys, y.Covers b ∧ y.image b = e.image b := by
  rcases ht with hp | ⟨e', rest, hxs, hcont, hys⟩
  · exact ⟨e, hp.mem_iff.2 (mem_cons_of_mem _ he), hc, rfl⟩
  · rcases mem_cons.1 (hxs.mem_iff.1 he) with rfl | he
    · refine ⟨e.grow x.len, hys.mem_iff.2 mem_cons_self, ?_, rfl⟩
      obtain ⟨h1, h2, h3⟩ := hc
      have := hcont.1
      exact ⟨h1, by simp only [Piece.grow]; omega, by simp only [Piece.grow]; omega⟩
    · exact ⟨e, hys.mem_iff.2 (mem_cons_of_mem _ he), hc, rfl⟩

theorem Takes.holds (ht : Takes xs x ys) (hb : x.first + x.len < 2 ^ 32) :
    ∃ y ∈ ys, ∀ k < x.len, y.Covers (x.first + k) := by
  rcases ht with hp | ⟨e, rest, -, ⟨h1, _, _⟩, hys⟩
  · exact ⟨x, hp.mem_iff.2 mem_cons_self, fun k hk => covers_self hb hk⟩
  · refine ⟨e.grow x.len, hys.mem_iff.2 mem_cons_self, fun k hk => ?_⟩
    simp only [Piece.Covers, Piece.grow]; omega

/-- pieces apart from `x` agree with it, and so does `x`, and a piece that `x` extends -/
theorem Arises.agrees (h : Arises xs x e) (hap : ∀ e ∈ xs, e.Apart x) : e.Agrees x := by
  intro k hk hc
  rcases h with he | rfl | ⟨e', he, ⟨h1, h2, _⟩, rfl⟩
  · have := hap e he
    unfold Piece.Apart at this; unfold Piece.Covers at hc
    omega
  · simp [Piece.image]
  · simp only [Piece.image, Piece.grow]; omega

end Register

/-! ## Routes -/

/-- leaves in the order of their keys -/
abbrev Keyed (ns : List Leaf) : Prop := AscendingBy Leaf.key ns

theorem route_cons (n : Leaf) (ns : List Leaf) :
    route (n :: ns) b = (route ns b).or (if n.key ≤ b then some n else none) := by
  simp only [route, reverse_cons, find?_append]
  by_cases h : n.key ≤ b <;> simp [h]

variable {ns : List Leaf} {l : Leaf}

theorem route_some (h : route ns b = some l) : l ∈ ns ∧ l.key ≤ b := by
  refine ⟨mem_reverse.1 (mem_of_find?_eq_some h), ?_⟩
  simpa using find?_some h

theorem route_none : route ns b = none ↔ ∀ l ∈ ns, b < l.key := by
  simp [route]

theorem Tree.find_spec {t : Tree} (h : t.find b = some e) : e ∈ t.pieces ∧ e.Covers b := by
  have hleaves : ∀ ns : List Leaf, ((route ns b).bind fun l => l.pieces.find? fun e => decide (e.Covers b)) = some e →
      e ∈ ns.flatMap Leaf.pieces ∧ e.Covers b := by
    intro ns h
    obtain ⟨l, hr, hf⟩ := bind_eq_some_iff.1 h
    exact ⟨mem_flatMap.2 ⟨l, (route_some hr).1, mem_of_find?_eq_some hf⟩, by simpa using find?_some hf⟩
  cases t with
  | flat xs => exact ⟨mem_of_find?_eq_some h, by simpa using find?_some h⟩
  | deep ns => exact hleaves ns h
  | grown node ns => exact hleaves ns h

theorem route_split (h : route ns b = some l) : ∃ as bs, ns = as ++ l :: bs ∧ l.key ≤ b ∧ ∀ m ∈ bs, b < m.key := by
  obtain ⟨hkey, bs, as, heq, hbs⟩ := find?_eq_some_iff_append.1 h
  refine ⟨as.reverse, bs.reverse, ?_, by simpa using hkey, fun m hm => by simpa using hbs m (mem_reverse.1 hm)⟩
  rw [← reverse_reverse ns, heq]
  simp

section

variable (h : Keyed ns)
include h

/-- the route has the largest key up to the block -/
theorem keyed_route_max {m : Leaf} (hl : route ns b = some l) (hm : m ∈ ns) (hb : m.key ≤ b) : m.key ≤ l.key := by
  obtain ⟨as, bs, rfl, -, hbs⟩ := route_split hl
  rcases mem_append.1 hm with hm | hm
  · exact ((pairwise_append.1 h).2.2 m hm l mem_cons_self).le
  · rcases mem_cons.1 hm with rfl | hm
    · exact le_rfl
    · exact absurd hb (not_le.2 (hbs m hm))

theorem keyed_route_iff : route ns b = some l ↔ l ∈ ns ∧ l.key ≤ b ∧ ∀ m ∈ ns, m.key ≤ b → m.key ≤ l.key := by
  constructor
  · intro hl
    exact ⟨(route_some hl).1, (route_some hl).2, fun m hm hb => keyed_route_max h hl hm hb⟩
  · rintro ⟨hl, hb, hmax⟩
    cases hr : route ns b with
    | none => exact absurd hb (not_le.2 (route_none.1 hr l hl))
    | some m =>
      obtain ⟨hm, hmb⟩ := route_some hr
      have hkey : m.key = l.key := le_antisymm (hmax m hm hmb) (keyed_route_max h hr hl hb)
      rw [h.eq_of_key hm hl hkey]

/-- the target of an insertion is the route of its block, if it has one -/
theorem keyed_target_of_route (hl : route ns b = some l) : ns[target ns b]? = some l := by
  obtain ⟨as, bs, rfl, hkey, hbs⟩ := route_split hl
  have has : (as.countP fun l => decide (l.key ≤ b)) = as.length := countP_eq_length.2 fun m hm => by
    simpa using ((pairwise_append.1 h).2.2 m hm l mem_cons_self).le.trans hkey
  have hzero : (bs.countP fun l => decide (l.key ≤ b)) = 0 := countP_eq_zero.2 fun m hm => by simpa using hbs m hm
  have ht : target (as ++ l :: bs) b = as.length := by
    simp [target, has, hzero, hkey]
  rw [ht]
  simp

theorem keyed_route_set {j : ℕ} {l' : Leaf} (hj : ns[j]? = some l)
    (hk : l'.key = l.key) : route (ns.set j l') b = if route ns b = some l then some l' else route ns b := by
  induction ns generalizing j with
  | nil => cases hj
  | cons n ns ih =>
    obtain ⟨hn, hns⟩ := pairwise_cons.1 h
    cases j with
    | zero =>
      cases some_inj.1 hj
      rw [set_cons_zero, route_cons, route_cons, hk]
      cases hr : route ns b with
      | some m =>
        have hne : m ≠ l := fun he => (hn m (route_some hr).1).ne (by rw [he])
        simp [hne]
      | none => by_cases hb : l.key ≤ b <;> simp [hb]
    | succ j =>
      have hmem : l ∈ ns := mem_of_getElem? hj
      rw [set_cons_succ, route_cons, route_cons, ih hns hj]
      cases hr : route ns b with
      | some m => by_cases hm : m = l <;> simp [hm]
      | none =>
        have hne : n ≠ l := fun he => (hn l hmem).ne (by rw [he])
        by_cases hb : n.key ≤ b <;> simp [hb, hne]

/-- a new leaf takes the blocks from its key up to the next one -/
theorem keyed_route_insertLeaf (hl : ∀ m ∈ ns, m.key ≠ l.key) (b : ℕ) :
    route (insertLeaf ns l) b = if l.key ≤ b ∧ ∀ m ∈ ns, m.key ≤ b → m.key < l.key then some l else route ns b := by
  have hins : Keyed (insertLeaf ns l) := h.insertBy hl
  split_ifs with hc
  · refine (keyed_route_iff hins).2 ⟨mem_insertBy.2 (.inl rfl), hc.1, fun m hm hb => ?_⟩
    rcases mem_insertBy.1 hm with rfl | hm
    · exact le_rfl
    · exact (hc.2 m hm hb).le
  · cases hr : route ns b with
    | none =>
      refine route_none.2 fun m hm => ?_
      rcases mem_insertBy.1 hm with rfl | hm
      · by_contra hlt
        exact hc ⟨by omega, fun m' hm' hb => absurd hb (not_le.2 (route_none.1 hr m' hm'))⟩
      · exact route_none.1 hr m hm
    | some r =>
      obtain ⟨hrm, hrb⟩ := route_some hr
      refine (keyed_route_iff hins).2 ⟨mem_insertBy.2 (.inr hrm), hrb, fun m hm hb => ?_⟩
      rcases mem_insertBy.1 hm with rfl | hm
      · by_contra hlt
        refine hc ⟨hb, fun m' hm' hb' => ?_⟩
        have := keyed_route_max h hr hm' hb'
        omega
      · exact keyed_route_max h hr hm hb

end

/-! ## When the new piece is found -/

/-- a leaf of an ordered tree: its key is covered by a piece of its own -/
structure LeafOk (cap : ℕ) (l : Leaf) : Prop where
  length_le : l.pieces.length ≤ cap
  fits : ∀ e ∈ l.pieces, e.Fits
  anchored : ∃ e ∈ l.pieces, e.Covers l.key

structure LeavesOk (cap : ℕ) (ns : List Leaf) : Prop where
  ne_nil : ns ≠ []
  length_le : ns.length ≤ 4
  keyed : Keyed ns
  leaf : ∀ l ∈ ns, LeafOk cap l

/-- the invariant of a run in which every registered piece is found -/
def Tree.Ordered (cap : ℕ) : Tree → Prop
  | flat xs => xs.length ≤ 4 ∧ InOrder xs ∧ ∀ e ∈ xs, e.Fits
  | deep ns => LeavesOk cap ns
  | grown _ ns => LeavesOk cap ns

/-- the keys of the leaves ascend -/
def Tree.Ascends : Tree → Prop
  | flat _ => True
  | deep ns => Keyed ns
  | grown _ ns => Keyed ns

theorem Tree.Ordered.ascends {cap : ℕ} {t : Tree} (h : t.Ordered cap) : t.Ascends := by
  cases t with
  | flat xs => trivial
  | deep ns => exact h.keyed
  | grown node ns => exact h.keyed

section Leaves

variable {cap : ℕ} {ns : List Leaf} {x : Piece}

theorem lookupLeaves_of_route (h : route ns b = some l) : lookupLeaves ns b = lookup l.pieces b := by
  rw [lookupLeaves, h]; rfl

theorem keyed_route_key (h : Keyed ns) (hl : l ∈ ns) : route ns l.key = some l :=
  (keyed_route_iff h).2 ⟨hl, le_rfl, fun _ _ hm => hm⟩

theorem LeavesOk.lookup_key (h : LeavesOk cap ns) (hl : l ∈ ns) :
    ∃ e ∈ l.pieces, e.Covers l.key ∧ lookupLeaves ns l.key = some (e.image l.key) := by
  rw [lookupLeaves_of_route (keyed_route_key h.keyed hl)]
  obtain ⟨e, he, hc⟩ := (h.leaf l hl).anchored
  cases hl' : lookup l.pieces l.key with
  | none => exact absurd hc (lookup_eq_none.1 hl' e he)
  | some p =>
    obtain ⟨e', he', hc', rfl⟩ := lookup_some hl'
    exact ⟨e', he', hc', rfl⟩

theorem LeavesOk.key_ne (h : LeavesOk cap ns) (hnone : lookupLeaves ns x.first = none) (hl : l ∈ ns) :
    l.key ≠ x.first := by
  intro hk
  obtain ⟨e, _, _, hlook⟩ := h.lookup_key hl
  rw [hk, hnone] at hlook
  cases hlook

/-- between the first block and the next key the route does not change -/
theorem keyed_route_range (h : Keyed ns) (hl : route ns x.first = some l)
    (hk : ∀ m ∈ ns, ¬(x.first < m.key ∧ m.key < x.first + x.len)) (hlt : k < x.len) : route ns (x.first + k) = some l := by
  obtain ⟨hmem, hkey⟩ := route_some hl
  refine (keyed_route_iff h).2 ⟨hmem, by omega, fun m hm hb => keyed_route_max h hl hm ?_⟩
  by_contra hgt
  exact hk m hm ⟨by omega, by omega⟩

/-- a key inside the range would have a piece of its own there -/
theorem LeavesOk.key_outside (h : LeavesOk cap ns) (hap : ∀ e ∈ ns.flatMap Leaf.pieces, e.Apart x) (hl : l ∈ ns) :
    ¬(x.first < l.key ∧ l.key < x.first + x.len) := by
  intro hin
  obtain ⟨e, he, hc⟩ := (h.leaf l hl).anchored
  have := hap e (mem_flatMap.2 ⟨l, hl, he⟩)
  unfold Piece.Apart at this; unfold Piece.Covers at hc
  omega

end Leaves

namespace Tree

variable {cap newBlock : ℕ} {t t' : Tree} {x : Piece}

theorem lookup_singleton : lookupLeaves [l] b = if l.key ≤ b then Ext.lookup l.pieces b else none := by
  rw [lookupLeaves, route_cons]
  by_cases h : l.key ≤ b <;> simp [h, route]

/-- the four ways in which a registration changes a tree -/
inductive Step (cap newBlock : ℕ) (x : Piece) : Tree → Tree → Prop where
  | root {xs ys : List Piece} (hr : registerFlat xs x = some ys) : Step cap newBlock x (flat xs) (flat ys)
  | split {xs : List Piece} (hr : registerFlat xs x = none) :
      Step cap newBlock x (flat xs) (deep [⟨(xs.head?.map Piece.first).getD 0, newBlock, xs ++ [x]⟩])
  | leaf {ns : List Leaf} {l : Leaf} {ys : List Piece} (ht : ns[target ns x.first]? = some l)
      (hr : registerLeaf cap l.pieces x = some ys) :
      Step cap newBlock x (deep ns) (deep (ns.set (target ns x.first) { l with pieces := ys }))
  | add {ns : List Leaf} {l : Leaf} (ht : ns[target ns x.first]? = some l) (hr : registerLeaf cap l.pieces x = none)
      (hlen : ns.length < 4) : Step cap newBlock x (deep ns) (deep (insertLeaf ns ⟨x.first, newBlock, [x]⟩))

section

variable (hs : Step cap newBlock x t t')
include hs

/-- every piece of the new tree is one of the old tree, the new one, or one of the old tree extended by it -/
theorem Step.arises (he : e ∈ t'.pieces) : Arises t.pieces x e := by
  cases hs with
  | root hr => exact (registerFlat_takes hr).arises he
  | split hr =>
    simp only [pieces, flatMap_cons, flatMap_nil, append_nil] at he
    rcases mem_append.1 he with he | he
    · exact .inl he
    · exact .inr (.inl (mem_singleton.1 he))
  | leaf ht hr =>
    obtain ⟨m, hm, he⟩ := mem_flatMap.1 he
    rcases mem_or_eq_of_mem_set hm with hm | rfl
    · exact .inl (mem_flatMap.2 ⟨m, hm, he⟩)
    · exact ((registerLeaf_takes hr).arises he).mono fun e he => mem_flatMap.2 ⟨_, mem_of_getElem? ht, he⟩
  | add ht hr hlen =>
    obtain ⟨m, hm, he⟩ := mem_flatMap.1 he
    rcases mem_insertBy.1 hm with rfl | hm
    · exact .inr (.inl (mem_singleton.1 he))
    · exact .inl (mem_flatMap.2 ⟨m, hm, he⟩)

theorem Step.register_isSome : (t.register cap x 0).isSome := by
  cases hs with
  | root hr => simp [register, hr]
  | split hr => simp [register, hr]
  | leaf ht hr => simp [register, ht, hr]
  | add ht hr hlen => simp [register, ht, hr, hlen]

/-- **A registered piece is found on its whole range, if no other overlaps it and its key reaches it.** -/
theorem Step.visible (h : t.Ordered cap) (hnone : t.lookup x.first = none) (hb : x.first + x.len < 2 ^ 32)
    (hap : ∀ e ∈ t.pieces, e.Apart x) (hreach : t.Reaches cap x) : Visible t'.lookup x := by
  have hagree : ∀ e ∈ t'.pieces, e.Agrees x := fun e he => (hs.arises he).agrees hap
  cases hs with
  | root hr =>
    obtain ⟨y, hy, hc⟩ := (registerFlat_takes hr).holds hb
    exact visible_of_agrees hagree hy hc
  | split hr =>
    have hkey := hreach hr
    intro k hk
    refine lookup_singleton.trans ?_
    rw [if_pos (hkey.trans (le_add_right _ _))]
    refine visible_of_agrees (fun e he => hagree e ?_) (mem_append_right _ (mem_singleton_self x))
      (fun k hk => covers_self hb hk) k hk
    simpa [pieces] using he
  | @leaf ns l ys ht hr =>
    have hmem : l ∈ ns := mem_of_getElem? ht
    have hkey : l.key ≤ x.first := hreach l ht (by rw [hr]; exact some_ne_none ys)
    obtain ⟨l', hroute⟩ : ∃ l', route ns x.first = some l' := by
      cases hroute : route ns x.first with
      | none => exact absurd hkey (not_le.2 (route_none.1 hroute l hmem))
      | some l' => exact ⟨l', rfl⟩
    have hl' : l' = l := by rw [keyed_target_of_route h.keyed hroute] at ht; exact some_inj.1 ht
    subst hl'
    obtain ⟨y, hy, hc⟩ := (registerLeaf_takes hr).holds hb
    have hset : { l' with pieces := ys } ∈ ns.set (target ns x.first) { l' with pieces := ys } :=
      mem_set (List.getElem?_eq_some_iff.1 ht).1 _
    intro k hk
    -- no key inside the range: the route of the first block is that of every other
    have hrange := keyed_route_range h.keyed hroute (fun m hm => h.key_outside hap hm) hk
    have hroutes : route (ns.set (target ns x.first) { l' with pieces := ys }) (x.first + k) =
        if route ns (x.first + k) = some l' then some { l' with pieces := ys } else route ns (x.first + k) :=
      keyed_route_set h.keyed ht rfl
    simp only [lookup]
    rw [lookupLeaves, hroutes, hrange, if_pos rfl]
    exact visible_of_agrees (fun e he => hagree e (mem_flatMap.2 ⟨_, hset, he⟩)) hy hc k hk
  | @add ns l ht hr hlen =>
    intro k hk
    have hnew : x.first ≤ x.first + k ∧ ∀ m ∈ ns, m.key ≤ x.first + k → m.key < x.first := by
      refine ⟨le_add_right _ _, fun m hm hmk => ?_⟩
      have h1 := h.key_outside hap hm
      have h2 := h.key_ne hnone hm
      omega
    simp only [lookup]
    rw [lookupLeaves, keyed_route_insertLeaf h.keyed fun m hm => h.key_ne hnone hm, if_pos hnew]
    exact visible_of_agrees (fun e he => by rw [mem_singleton.1 he]; exact hagree x (mem_flatMap.2
      ⟨_, mem_insertBy.2 (.inl rfl), mem_singleton_self x⟩)) (mem_singleton_self x) (fun k hk => covers_self hb hk) k hk

end

/-! ## The order is kept -/

theorem Step.ascends (hs : Step cap newBlock x t t') (h : t.Ordered cap) (hnone : t.lookup x.first = none) :
    t'.Ascends := by
  cases hs with
  | root hr => trivial
  | split hr => exact pairwise_singleton _ _
  | leaf ht hr => exact h.keyed.set ht rfl
  | add ht hr hlen => exact h.keyed.insertBy fun m hm => h.key_ne hnone hm

theorem grow_fits (he : e.Fits) (hx : x.Fits) (hc : x.Continues e) : (e.grow x.len).Fits := by
  obtain ⟨h1, h2, h3⟩ := hc
  obtain ⟨hp1, hp2, hp3, hp4, hp5⟩ := he
  obtain ⟨hq1, hq2, hq3, hq4, hq5⟩ := hx
  constructor <;> simp only [Piece.grow] <;> omega

theorem fits_of_arises (hx : x.Fits) (hfit : ∀ e ∈ xs, e.Fits) (he : Arises xs x e) : e.Fits := by
  rcases he with he | rfl | ⟨e', he', hc, rfl⟩
  · exact hfit e he
  · exact hx
  · exact grow_fits (hfit e' he') hx hc

theorem first_ne_of_lookup (hfit : ∀ e ∈ xs, e.Fits) (hnone : Ext.lookup xs x.first = none)
    (he : e ∈ xs) : e.first ≠ x.first := by
  intro hk
  have hf := hfit e he
  exact lookup_eq_none.1 hnone e he ⟨hk.le, by have := hf.pos; omega, hf.below⟩

variable {xs ys : List Piece}

theorem registerFlat_length (hr : registerFlat xs x = some ys) (hlen : xs.length ≤ 4) : ys.length ≤ 4 := by
  rcases registerFlat_cases hr with ⟨init, last, rfl, -, rfl⟩ | ⟨rfl, h4⟩
  · simpa using hlen
  · rw [length_insertBy]
    omega

theorem registerFlat_ordered (h : (flat xs).Ordered cap) (hnone : Ext.lookup xs x.first = none)
    (hx : x.Fits) (hr : registerFlat xs x = some ys) : (flat ys).Ordered cap := by
  obtain ⟨hlen, hs, hfit⟩ := h
  refine ⟨registerFlat_length hr hlen, ?_, fun e he => fits_of_arises hx hfit ((registerFlat_takes hr).arises he)⟩
  rcases registerFlat_cases hr with ⟨init, last, rfl, -, rfl⟩ | ⟨rfl, -⟩
  · obtain ⟨h1, _, h3⟩ := pairwise_append.1 hs
    refine pairwise_append.2 ⟨h1, pairwise_singleton _ _, fun e he e' he' => ?_⟩
    rw [mem_singleton.1 he']
    exact h3 e he last (mem_singleton_self last)
  · exact hs.insertBy fun e he => first_ne_of_lookup hfit hnone he

theorem registerLeaf_length (hr : registerLeaf cap xs x = some ys) (hlen : xs.length ≤ cap) : ys.length ≤ cap := by
  unfold registerLeaf at hr
  split at hr
  · cases hr; rwa [length_modify]
  · split_ifs at hr
    cases hr; rw [length_insertBy]; omega

theorem registerFlat_none (hr : registerFlat xs x = none) : ∃ e rest, xs = e :: rest := by
  cases xs with
  | nil => cases hr
  | cons e rest => exact ⟨e, rest, rfl⟩

theorem Step.ordered (hs : Step cap newBlock x t t') (h : t.Ordered cap) (hcap : 5 ≤ cap)
    (hnone : t.lookup x.first = none) (hx : x.Fits) : t'.Ordered cap := by
  have hasc := hs.ascends h hnone
  cases hs with
  | root hr => exact registerFlat_ordered h hnone hx hr
  | split hr =>
    obtain ⟨hlen, _, hfit⟩ := h
    obtain ⟨e, rest, rfl⟩ := registerFlat_none hr
    refine ⟨by simp, by simp, pairwise_singleton _ _, fun l hl => ?_⟩
    cases mem_singleton.1 hl
    have he := hfit e mem_cons_self
    refine ⟨by simp only [length_append, length_singleton]; omega, fun e' he' => ?_,
      e, mem_append_left _ mem_cons_self, ?_⟩
    · rcases mem_append.1 he' with he' | he'
      · exact hfit e' he'
      · rw [mem_singleton.1 he']; exact hx
    · exact ⟨le_rfl, by have := he.pos; simp; omega, he.below⟩
  | @leaf ns l ys ht hr =>
    have hmem : l ∈ ns := mem_of_getElem? ht
    have hl := h.leaf l hmem
    refine ⟨by simpa using h.ne_nil, by rw [length_set]; exact h.length_le, hasc, fun m hm => ?_⟩
    · rcases mem_or_eq_of_mem_set hm with hm | rfl
      · exact h.leaf m hm
      · obtain ⟨e, he, hc⟩ := hl.anchored
        obtain ⟨y, hy, hcy, -⟩ := (registerLeaf_takes hr).covers hx.below he hc
        exact ⟨registerLeaf_length hr hl.length_le,
          fun e he => fits_of_arises hx hl.fits ((registerLeaf_takes hr).arises he), y, hy, hcy⟩
  | @add ns l ht hr hlen =>
    refine ⟨fun hnil => ?_, by rw [length_insertBy]; omega, hasc, fun m hm => ?_⟩
    · have := congrArg length hnil
      rw [length_insertBy] at this; cases this
    · rcases mem_insertBy.1 hm with rfl | hm
      · refine ⟨by simp only [length_singleton]; omega, fun e he => by rw [mem_singleton.1 he]; exact hx,
          x, mem_singleton_self x, ?_⟩
        exact ⟨le_rfl, by have := hx.pos; simp; omega, hx.below⟩
      · exact h.leaf m hm

end Tree

end Kontsnor.Ext
