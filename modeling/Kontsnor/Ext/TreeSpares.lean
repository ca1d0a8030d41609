/-
When a registration leaves the old mappings of a tree alone.

A registration overwrites nothing, but it can put a piece in front of others that cover the same blocks, and a new leaf
takes over every block from its key up to the next key. `Tree.Spares` excludes both.
- `Tree.Tidy`: the pieces that a lookup can reach are pairwise apart, each inside the range of its leaf; pieces below the
  key of their leaf are never reached.
-/
import Kontsnor.Ext.Tree

namespace Kontsnor.Ext

open List Option Nat

open Ascending (mem_insertBy)

/-! ## Pieces -/

/-- no piece lies across `lo`, and those above it are pairwise apart -/
structure Clear (lo : ℕ) (xs : List Piece) : Prop where
  side : ∀ e ∈ xs, e.first + e.len ≤ lo ∨ lo ≤ e.first
  apart : xs.Pairwise fun e e' => lo ≤ e.first → lo ≤ e'.first → e.Apart e'

variable {lo : ℕ} {xs ys : List Piece} {x : Piece}

theorem apart_symm {e e' : Piece} (h : lo ≤ e.first → lo ≤ e'.first → e.Apart e') :
    lo ≤ e'.first → lo ≤ e.first → e'.Apart e := fun h1 h2 => (h h2 h1).symm

theorem Clear.perm (h : Clear lo xs) (hp : xs.Perm ys) : Clear lo ys where
  side e he := h.side e (hp.mem_iff.2 he)
  apart := (hp.pairwise_iff apart_symm).1 h.apart

theorem Clear.lookup_iff (h : Clear lo xs) {b q : ℕ} (hb : lo ≤ b) :
    lookup xs b = some q ↔ ∃ e ∈ xs, e.Covers b ∧ e.image b = q := by
  constructor
  · intro hl; exact lookup_some hl
  · rintro ⟨e, he, hc, rfl⟩
    induction xs with
    | nil => cases he
    | cons y ys ih =>
      obtain ⟨hy, hys⟩ := pairwise_cons.1 h.apart
      rw [lookup_cons]
      rcases mem_cons.1 he with rfl | he
      · rw [if_pos hc]
      · by_cases hcy : y.Covers b
        · -- both are above `lo`, and so apart
          have h1 := h.side y mem_cons_self
          have h2 := h.side e (mem_cons_of_mem _ he)
          unfold Piece.Covers at hcy hc
          have := hy e he (by omega) (by omega)
          unfold Piece.Apart at this
          omega
        · rw [if_neg hcy]
          exact ih ⟨fun e he => h.side e (mem_cons_of_mem _ he), hys⟩ he

/-- the range of `x` is free of the pieces from `lo` on, and off `lo` -/
structure Free (lo : ℕ) (xs : List Piece) (x : Piece) : Prop where
  side : x.first + x.len ≤ lo ∨ lo ≤ x.first
  apart : ∀ e ∈ xs, lo ≤ e.first → lo ≤ x.first → e.Apart x
  /-- a piece that `x` continues is on the same side -/
  same : ∀ e ∈ xs, x.Continues e → lo ≤ x.first → lo ≤ e.first

theorem Clear.cons (h : Clear lo xs) (hf : Free lo xs x) : Clear lo (x :: xs) where
  side e he := by
    rcases mem_cons.1 he with rfl | he
    · exact hf.side
    · exact h.side e he
  apart := pairwise_cons.2 ⟨fun e he h1 h2 => (hf.apart e he h2 h1).symm, h.apart⟩

theorem Clear.grow {e : Piece} (h : Clear lo (e :: xs)) (hf : Free lo (e :: xs) x) (hfit : ∀ e' ∈ e :: xs, e'.Fits)
    (hc : x.Continues e) : Clear lo (e.grow x.len :: xs) := by
  obtain ⟨hc1, _, _⟩ := id hc
  have hxside := hf.side
  have hsame := hf.same e mem_cons_self hc
  refine ⟨fun e' he' => ?_, pairwise_cons.2 ⟨fun e' he' h1 h2 => ?_, (pairwise_cons.1 h.apart).2⟩⟩
  · rcases mem_cons.1 he' with rfl | he'
    · simp only [Piece.grow]; omega
    · exact h.side e' (mem_cons_of_mem _ he')
  · have ha := (pairwise_cons.1 h.apart).1 e' he' h1 h2
    have hax := hf.apart e' (mem_cons_of_mem _ he') h2 (by simp only [Piece.grow] at h1; omega)
    have hpos := (hfit e' (mem_cons_of_mem _ he')).pos
    unfold Piece.Apart at ha hax ⊢
    simp only [Piece.grow]
    omega

theorem Free.perm (h : Free lo xs x) (hp : xs.Perm ys) : Free lo ys x :=
  ⟨h.side, fun e he => h.apart e (hp.mem_iff.2 he), fun e he => h.same e (hp.mem_iff.2 he)⟩

theorem Takes.clear (ht : Takes xs x ys) (h : Clear lo xs) (hf : Free lo xs x) (hfit : ∀ e ∈ xs, e.Fits) : Clear lo ys := by
  rcases ht with hp | ⟨e, rest, hxs, hc, hys⟩
  · exact (h.cons hf).perm hp.symm
  · exact ((h.perm hxs).grow (hf.perm hxs) (fun e' he' => hfit e' (hxs.mem_iff.2 he')) hc).perm hys.symm

/-! ## Leaves -/

/-- the leaves of a tidy tree -/
structure LeavesTidy (ns : List Leaf) : Prop where
  leaf : ∀ l ∈ ns, Clear l.key l.pieces
  below : ∀ l ∈ ns, ∀ m ∈ ns, l.key < m.key → ∀ e ∈ l.pieces, e.first + e.len ≤ m.key

namespace Tree

def Tidy : Tree → Prop
  | flat xs => Clear 0 xs
  | deep ns => LeavesTidy ns
  | grown _ ns => LeavesTidy ns

/-- a leaf that has to be added takes over no mapped block -/
def HidesNothing (cap : ℕ) (x : Piece) : Tree → Prop
  | deep ns => (deep ns).Splits cap x → ∀ b, x.first ≤ b → (∀ m ∈ ns, m.key ≤ b → m.key < x.first) →
      lookupLeaves ns b = none
  | _ => True

/-- if `x` is registered at all: it ends below 2^32, its whole range is unmapped, and no leaf is added that hides others -/
def Spares (cap : ℕ) (x : Piece) (t : Tree) : Prop :=
  (t.register cap x 0).isSome →
    x.first + x.len < 2 ^ 32 ∧ (∀ k < x.len, t.lookup (x.first + k) = none) ∧ t.HidesNothing cap x

end Tree

variable {l : Leaf}

section Leaves

variable {cap : ℕ} {ns : List Leaf}

/-- what a lookup finds among leaves lies in the leaf's own range -/
theorem LeavesTidy.lookup_iff (h : LeavesTidy ns) (hk : Keyed ns) {b q : ℕ} :
    lookupLeaves ns b = some q ↔ ∃ l ∈ ns, l.key ≤ b ∧ ∃ e ∈ l.pieces, e.Covers b ∧ e.image b = q := by
  constructor
  · intro hl
    obtain ⟨l, hr, hl⟩ := bind_eq_some_iff.1 hl
    obtain ⟨hmem, hkey⟩ := route_some hr
    exact ⟨l, hmem, hkey, ((h.leaf l hmem).lookup_iff hkey).1 hl⟩
  · rintro ⟨l, hmem, hkey, e, he, hc, hq⟩
    have hr : route ns b = some l := by
      refine (keyed_route_iff hk).2 ⟨hmem, hkey, fun m hm hmb => ?_⟩
      by_contra hlt
      have := h.below l hmem m hm (by omega) e he
      have := hc.2.1
      omega
    rw [lookupLeaves_of_route hr]
    exact ((h.leaf l hmem).lookup_iff hkey).2 ⟨e, he, hc, hq⟩

theorem LeavesOk.key_off (h : LeavesOk cap ns) (hfree : ∀ k < x.len, lookupLeaves ns (x.first + k) = none)
    (hl : l ∈ ns) : l.key < x.first ∨ x.first + x.len ≤ l.key := by
  by_contra hin
  obtain ⟨e, _, _, hlook⟩ := h.lookup_key hl
  have hnone := hfree (l.key - x.first) (by omega)
  rw [show x.first + (l.key - x.first) = l.key by omega, hlook] at hnone
  cases hnone

section

variable (h : LeavesTidy ns) (ho : LeavesOk cap ns)
include h ho

theorem LeavesTidy.free (hpos : 0 < x.len)
    (hfree : ∀ k < x.len, lookupLeaves ns (x.first + k) = none) (hl : l ∈ ns) : Free l.key l.pieces x where
  side := by rcases ho.key_off hfree hl with h1 | h1 <;> omega
  apart e he hle hlx := by
    by_contra hap
    -- a common block would be mapped
    obtain ⟨k, hk, hcov⟩ := ((ho.leaf l hl).fits e he).common hpos hap
    cases (hfree k hk).symm.trans ((h.lookup_iff ho.keyed).2 ⟨l, hl, hle.trans hcov.1, e, he, hcov, rfl⟩)
  same e he hc hle := by
    have h1 := ho.key_off hfree hl
    have h2 := (h.leaf l hl).side e he
    have := hc.1
    omega

theorem setLeaf_tidy (hx : x.Fits)
    (hfree : ∀ k < x.len, lookupLeaves ns (x.first + k) = none) (ht : ns[target ns x.first]? = some l)
    (hr : registerLeaf cap l.pieces x = some ys) :
    LeavesTidy (ns.set (target ns x.first) { l with pieces := ys }) := by
  have hmem : l ∈ ns := mem_of_getElem? ht
  have hends : ∀ e ∈ ys, ∀ m ∈ ns, l.key < m.key → e.first + e.len ≤ m.key := by
    intro e he m hm hlt
    -- the range goes to the leaf of its first block, or to the first leaf of all
    have hoff := ho.key_off hfree hm
    have hx' : x.first < m.key := by
      by_contra hge
      have hle : m.key ≤ x.first := not_lt.1 hge
      cases hroute : route ns x.first with
      | none => exact absurd hle (not_le.2 (route_none.1 hroute m hm))
      | some l' =>
        have hl' : l' = l := by rw [keyed_target_of_route ho.keyed hroute] at ht; exact some_inj.1 ht
        have := keyed_route_max ho.keyed hroute hm hle
        rw [hl'] at this; omega
    rcases (registerLeaf_takes hr).arises he with he | rfl | ⟨e', he', hc, rfl⟩
    · exact h.below l hmem m hm hlt e he
    · omega
    · simp only [Piece.grow]; have := hc.1; omega
  refine ⟨fun m hm => ?_, fun m hm m' hm' hlt e he => ?_⟩
  · rcases mem_or_eq_of_mem_set hm with hm | rfl
    · exact h.leaf m hm
    · exact (registerLeaf_takes hr).clear (h.leaf l hmem) (h.free ho hx.pos hfree hmem) (ho.leaf l hmem).fits
  · obtain ⟨m'', hm'', hkey⟩ : ∃ m'' ∈ ns, m''.key = m'.key := by
      rcases mem_or_eq_of_mem_set hm' with hm' | rfl
      · exact ⟨m', hm', rfl⟩
      · exact ⟨l, hmem, rfl⟩
    rw [← hkey] at hlt ⊢
    rcases mem_or_eq_of_mem_set hm with hm | rfl
    · exact h.below m hm m'' hm'' hlt e he
    · exact hends e he m'' hm'' hlt

theorem addLeaf_tidy (hfree : ∀ k < x.len, lookupLeaves ns (x.first + k) = none)
    (hhide : ∀ b, x.first ≤ b → (∀ m ∈ ns, m.key ≤ b → m.key < x.first) → lookupLeaves ns b = none) (newBlock : ℕ) :
    LeavesTidy (insertLeaf ns ⟨x.first, newBlock, [x]⟩) := by
  refine ⟨fun m hm => ?_, fun m hm m' hm' hlt e he => ?_⟩
  · rcases mem_insertBy.1 hm with rfl | hm
    · exact ⟨fun e he => by rw [mem_singleton.1 he]; exact .inr le_rfl, pairwise_singleton _ _⟩
    · exact h.leaf m hm
  · rcases mem_insertBy.1 hm with rfl | hm <;> rcases mem_insertBy.1 hm' with rfl | hm'
    · simp only at hlt; omega
    · rw [mem_singleton.1 he]
      rcases ho.key_off hfree hm' with h1 | h1
      · simp only at hlt; omega
      · exact h1
    · -- a piece behind the new key would be hidden
      simp only at hlt ⊢
      by_contra hgt
      have hfit := (ho.leaf m hm).fits e he
      have hge : m.key ≤ max e.first x.first := by omega
      have hcov : e.Covers (max e.first x.first) := ⟨le_max_left _ _, by have := hfit.pos; omega, hfit.below⟩
      have hmap : lookupLeaves ns (max e.first x.first) = some (e.image (max e.first x.first)) :=
        (h.lookup_iff ho.keyed).2 ⟨m, hm, hge, e, he, hcov, rfl⟩
      rw [hhide _ (le_max_right _ _) fun m' hm' hle => ?_] at hmap
      · cases hmap
      · by_contra hge'
        have := h.below m hm m' hm' (by omega) e he
        have := hcov.2.1
        omega
    · exact h.below m hm m' hm' hlt e he

end

end Leaves

/-! ## Trees -/

namespace Tree

variable {cap newBlock : ℕ} {t t' : Tree}

theorem first_le_of_mem {e e' : Piece} (h : InOrder (e :: xs)) (he : e' ∈ e :: xs) : e.first ≤ e'.first := by
  rcases mem_cons.1 he with rfl | he
  · exact le_rfl
  · exact ((pairwise_cons.1 h).1 e' he).le

theorem free_of_flat (hfit : ∀ e ∈ xs, e.Fits) (hpos : 0 < x.len)
    (hfree : ∀ k < x.len, Ext.lookup xs (x.first + k) = none) : Free 0 xs x where
  side := .inr (zero_le _)
  apart e he _ _ := by
    by_contra hap
    obtain ⟨k, hk, hcov⟩ := (hfit e he).common hpos hap
    exact lookup_eq_none.1 (hfree k hk) e he hcov
  same e _ _ _ := zero_le _

section

variable (hs : Step cap newBlock x t t') (h : t.Tidy) (ho : t.Ordered cap) (hx : x.Fits)
  (hfree : ∀ k < x.len, t.lookup (x.first + k) = none) (hhide : t.HidesNothing cap x)
include hs h ho hx hfree hhide

theorem Step.tidy : t'.Tidy := by
  cases hs with
  | root hr => exact (registerFlat_takes hr).clear h (free_of_flat ho.2.2 hx.pos hfree) ho.2.2
  | @split xs hr =>
    obtain ⟨hlen, hord, hfit⟩ := ho
    obtain ⟨e, rest, rfl⟩ := registerFlat_none hr
    have hf := free_of_flat hfit hx.pos hfree
    refine ⟨fun l hl => ?_, fun l hl m hm hlt => ?_⟩
    · cases mem_singleton.1 hl
      refine ⟨fun e' he' => ?_, ?_⟩
      · simp only [head?_cons, map_some, getD_some]
        rcases mem_append.1 he' with he' | he'
        · exact .inr (first_le_of_mem hord he')
        · -- the new piece is on one side of the first one
          rw [mem_singleton.1 he']
          have hap := hf.apart e mem_cons_self (zero_le _) (zero_le _)
          unfold Piece.Apart at hap
          omega
      · refine ((h.cons hf).perm (perm_append_singleton x (e :: rest)).symm).apart.imp fun hab _ _ => ?_
        exact hab (zero_le _) (zero_le _)
    · cases mem_singleton.1 hl
      cases mem_singleton.1 hm
      exact absurd hlt (lt_irrefl _)
  | leaf ht hr => exact setLeaf_tidy h ho hx hfree ht hr
  | add ht hr hlen =>
    refine addLeaf_tidy h ho hfree (hhide fun l' hl' => ?_) newBlock
    rw [ht] at hl'; cases hl'; exact hr

/-- **A registration that spares keeps every old mapping.** -/
theorem Step.keeps {b q : ℕ} (hq : t.lookup b = some q) : t'.lookup b = some q := by
  have htidy := hs.tidy h ho hx hfree hhide
  have hnone : t.lookup x.first = none := hfree 0 hx.pos
  have hasc := hs.ascends ho hnone
  cases hs with
  | root hr =>
    obtain ⟨e, he, hc, hi⟩ := lookup_some hq
    obtain ⟨y, hy, hcy, hiy⟩ := (registerFlat_takes hr).covers hx.below he hc
    exact (htidy.lookup_iff (zero_le b)).2 ⟨y, hy, hcy, hiy.trans hi⟩
  | @split xs hr =>
    obtain ⟨e, he, hc, hi⟩ := lookup_some hq
    obtain ⟨e0, rest, rfl⟩ := registerFlat_none hr
    have hge := first_le_of_mem ho.2.1 he
    exact (htidy.lookup_iff hasc).2 ⟨_, mem_singleton_self _, hge.trans hc.1, e, mem_append_left _ he, hc, hi⟩
  | @leaf ns l ys ht hr =>
    obtain ⟨m, hm, hmb, e, he, hc, hi⟩ := (h.lookup_iff ho.keyed).1 hq
    by_cases hml : m = l
    · subst hml
      obtain ⟨y, hy, hcy, hiy⟩ := (registerLeaf_takes hr).covers hx.below he hc
      have hset : { m with pieces := ys } ∈ ns.set (target ns x.first) { m with pieces := ys } :=
        mem_set (List.getElem?_eq_some_iff.1 ht).1 _
      exact (htidy.lookup_iff hasc).2 ⟨_, hset, hmb, y, hy, hcy, hiy.trans hi⟩
    · refine (htidy.lookup_iff hasc).2 ⟨m, ?_, hmb, e, he, hc, hi⟩
      obtain ⟨i, hi, rfl⟩ := getElem_of_mem hm
      have hne : target ns x.first ≠ i := by
        rintro rfl
        exact hml (List.getElem?_eq_some_iff.1 ht).2
      rw [mem_iff_getElem]
      exact ⟨i, by rwa [length_set], by rw [getElem_set_ne hne]⟩
  | add ht hr hlen =>
    obtain ⟨m, hm, hmb, e, he, hc, hi⟩ := (h.lookup_iff ho.keyed).1 hq
    exact (htidy.lookup_iff hasc).2 ⟨m, mem_insertBy.2 (.inr hm), hmb, e, he, hc, hi⟩

end

theorem Tidy.find_covers (h : t.Tidy) (hk : t.Ascends) {b c : ℕ} {e : Piece} (hf : t.find c = some e)
    (hb : e.Covers b) : t.lookup b = some (e.image b) := by
  have hleaves : ∀ ns : List Leaf, LeavesTidy ns → Keyed ns →
      ((route ns c).bind fun l => l.pieces.find? fun e => decide (e.Covers c)) = some e →
      lookupLeaves ns b = some (e.image b) := by
    intro ns hl hkey hfind
    obtain ⟨l, hr, hfind⟩ := bind_eq_some_iff.1 hfind
    obtain ⟨hmem, hlc⟩ := route_some hr
    have he : e ∈ l.pieces := mem_of_find?_eq_some hfind
    have hc : e.Covers c := by simpa using find?_some hfind
    have hside := (hl.leaf l hmem).side e he
    have hlb : l.key ≤ b := by
      unfold Piece.Covers at hb hc; omega
    exact (hl.lookup_iff hkey).2 ⟨l, hmem, hlb, e, he, hb, rfl⟩
  cases t with
  | flat xs => exact (h.lookup_iff (zero_le b)).2 ⟨e, mem_of_find?_eq_some hf, hb, rfl⟩
  | deep ns => exact hleaves ns h hk hf
  | grown node ns => exact hleaves ns h hk hf

end Tree

end Kontsnor.Ext
