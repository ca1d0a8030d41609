/-
Numbers handed out from bitmaps, with counters beside them.

A `Pool` has groups. Group `g` keeps a bitmap whose first `size g` bits stand for its numbers (a clear bit is a free
number) and a counter; `total` is the counter of the whole pool. `Exact`: the bits behind the numbers are set, each counter
is the number of clear bits of its bitmap, and the total is their sum.

- `zeros_setBits`, `zeros_clearBit`: what an update does to the number of clear bits.
- `Exact.take`, `Exact.give`: handing out a free run and taking back a number keep a pool exact if the counters follow.
-/
import Kontsnor.Core.Words

namespace Kontsnor.BitPool

open Bool Finset

open Words (Buffer bit setBits clearBit bit_setBits bit_clearBit)

/-! ## Clear bits -/

/-- the clear bits among the first `n` -/
def clearSet (w : Buffer) (n : ℕ) : Finset ℕ := (range n).filter fun i => bit w i = false

def zeros (w : Buffer) (n : ℕ) : ℕ := (clearSet w n).card

variable {w : Buffer} {n i : ℕ}

theorem mem_clearSet : i ∈ clearSet w n ↔ i < n ∧ bit w i = false := by
  rw [clearSet, mem_filter, mem_range]

theorem zeros_eq_zero : zeros w n = 0 ↔ ∀ i < n, bit w i = true := by
  rw [zeros, card_eq_zero, eq_empty_iff_forall_notMem]
  constructor
  · intro h i hi
    by_contra hb
    exact h i (mem_clearSet.2 ⟨hi, eq_false_iff.2 hb⟩)
  · intro h i hi
    obtain ⟨hlt, hb⟩ := mem_clearSet.1 hi
    rw [h i hlt] at hb
    cases hb

theorem zeros_le_size {size : ℕ} (hpad : ∀ i, size ≤ i → i < n → bit w i = true) : zeros w n ≤ size := by
  have hsub : clearSet w n ⊆ range size := by
    intro i hi
    obtain ⟨hlt, hb⟩ := mem_clearSet.1 hi
    rw [mem_range]
    by_contra hge
    rw [hpad i (not_lt.1 hge) hlt] at hb
    cases hb
  calc zeros w n ≤ (range size).card := card_le_card hsub
    _ = size := card_range size

theorem zeros_setBits {start k : ℕ} (hfree : ∀ j, start ≤ j → j < start + k → bit w j = false)
    (hle : start + k ≤ n) : zeros (setBits w start k) n + k = zeros w n := by
  have hrun : Ico start (start + k) ⊆ clearSet w n := by
    intro i hi
    obtain ⟨h1, h2⟩ := mem_Ico.1 hi
    exact mem_clearSet.2 ⟨by omega, hfree i h1 h2⟩
  have hset : clearSet (setBits w start k) n = clearSet w n \ Ico start (start + k) := by
    ext i
    rw [mem_sdiff, mem_clearSet, mem_clearSet, mem_Ico, bit_setBits, or_eq_false_iff, decide_eq_false_iff_not]
    tauto
  have hcard := card_sdiff_add_card_eq_card hrun
  rw [Nat.card_Ico, Nat.add_sub_cancel_left] at hcard
  rw [zeros, hset]
  exact hcard

theorem zeros_clearBit (hset : bit w i = true) (hlt : i < n) : zeros (clearBit w i) n = zeros w n + 1 := by
  have hnot : i ∉ clearSet w n := by
    intro h
    rw [(mem_clearSet.1 h).2] at hset
    cases hset
  have hins : clearSet (clearBit w i) n = insert i (clearSet w n) := by
    ext j
    rw [mem_insert, mem_clearSet, mem_clearSet, bit_clearBit, and_eq_false_iff]
    by_cases hj : j = i
    · simp [hj, hlt]
    · simp [hj]
  rw [zeros, hins, card_insert_of_notMem hnot, zeros]

/-! ## Pools -/

structure Pool where
  groups : ℕ
  size : ℕ → ℕ
  bitmap : ℕ → Buffer
  count : ℕ → ℕ
  total : ℕ

/-- bitmaps of `bits` bits whose counters are right -/
structure Exact (bits : ℕ) (p : Pool) : Prop where
  fits : ∀ g < p.groups, p.size g ≤ bits
  padding : ∀ g < p.groups, ∀ i, p.size g ≤ i → i < bits → bit (p.bitmap g) i = true
  count : ∀ g < p.groups, p.count g = zeros (p.bitmap g) bits
  total : p.total = ∑ g ∈ range p.groups, p.count g

variable {g : ℕ}

section

variable {bits : ℕ} {p q : Pool}

theorem Exact.count_le (h : Exact bits p) (hg : g < p.groups) : p.count g ≤ p.size g := by
  rw [h.count g hg]
  exact zeros_le_size (h.padding g hg)

theorem Exact.free_of_count (h : Exact bits p) (hg : g < p.groups) (hc : p.count g ≠ 0) :
    ∃ i < p.size g, bit (p.bitmap g) i = false := by
  by_contra hnone
  push Not at hnone
  apply hc
  rw [h.count g hg, zeros_eq_zero]
  intro i hi
  by_cases hlt : i < p.size g
  · exact eq_true_of_not_eq_false (hnone i hlt)
  · exact h.padding g hg i (not_lt.1 hlt) hi

theorem Exact.count_eq_zero (h : Exact bits p) (ht : p.total = 0) (hg : g < p.groups) : p.count g = 0 := by
  have hle : p.count g ≤ ∑ g' ∈ range p.groups, p.count g' :=
    single_le_sum_of_canonicallyOrdered (mem_range.2 hg)
  rw [← h.total, ht] at hle
  omega

/-- the pool as it is after one group changed, everything else being as before -/
structure Changed (p q : Pool) (g : ℕ) : Prop where
  groups : q.groups = p.groups
  size : ∀ g' < p.groups, q.size g' = p.size g'
  bitmap : ∀ g' < p.groups, g' ≠ g → q.bitmap g' = p.bitmap g'
  count : ∀ g' < p.groups, g' ≠ g → q.count g' = p.count g'

/-- the sum of the counters apart from that of group `g` -/
theorem Changed.sum_erase (hc : Changed p q g) :
    ∑ g' ∈ (range p.groups).erase g, q.count g' = ∑ g' ∈ (range p.groups).erase g, p.count g' := by
  refine sum_congr rfl fun g' hg' => ?_
  obtain ⟨hne, hmem⟩ := mem_erase.1 hg'
  exact hc.count g' (mem_range.1 hmem) hne

/-- a change that is right in its group and moves the total with the group's counter -/
theorem Changed.exact (hc : Changed p q g) (h : Exact bits p) (hg : g < p.groups)
    (hpad : ∀ i, p.size g ≤ i → i < bits → bit (q.bitmap g) i = true) (hcount : q.count g = zeros (q.bitmap g) bits)
    (htotal : q.total + p.count g = p.total + q.count g) : Exact bits q where
  fits g' hg' := by
    rw [hc.groups] at hg'
    rw [hc.size g' hg']
    exact h.fits g' hg'
  padding g' hg' i h1 h2 := by
    rw [hc.groups] at hg'
    rw [hc.size g' hg'] at h1
    by_cases he : g' = g
    · subst he; exact hpad i h1 h2
    · rw [hc.bitmap g' hg' he]
      exact h.padding g' hg' i h1 h2
  count g' hg' := by
    rw [hc.groups] at hg'
    by_cases he : g' = g
    · subst he; exact hcount
    · rw [hc.bitmap g' hg' he, hc.count g' hg' he]
      exact h.count g' hg'
  total := by
    have hmem : g ∈ range p.groups := mem_range.2 hg
    have hp := add_sum_erase (range p.groups) p.count hmem
    have hq := add_sum_erase (range p.groups) q.count hmem
    rw [hc.sum_erase] at hq
    rw [← h.total] at hp
    rw [hc.groups]
    omega

section

variable (h : Exact bits p)
include h

/-- **Handing out a free run keeps the pool exact.** -/
theorem Exact.take {start k : ℕ} (hg : g < p.groups) (hc : Changed p q g)
    (hfree : ∀ j, start ≤ j → j < start + k → bit (p.bitmap g) j = false) (hin : start + k ≤ p.size g)
    (hbitmap : q.bitmap g = setBits (p.bitmap g) start k) (hcount : q.count g = p.count g - k)
    (htotal : q.total = p.total - k) : Exact bits q := by
  have hz := zeros_setBits hfree (hin.trans (h.fits g hg))
  have hcg := h.count g hg
  have hle : p.count g ≤ p.total := by
    rw [h.total]
    exact single_le_sum_of_canonicallyOrdered (mem_range.2 hg)
  refine hc.exact h hg (fun i h1 h2 => ?_) ?_ ?_
  · rw [hbitmap, bit_setBits, h.padding g hg i h1 h2, Bool.or_true]
  · rw [hbitmap]; omega
  · omega

/-- **Taking back a number keeps the pool exact.** -/
theorem Exact.give (hg : g < p.groups) (hc : Changed p q g)
    (hset : bit (p.bitmap g) i = true) (hin : i < p.size g) (hbitmap : q.bitmap g = clearBit (p.bitmap g) i)
    (hcount : q.count g = p.count g + 1) (htotal : q.total = p.total + 1) : Exact bits q := by
  have hz := zeros_clearBit hset (hin.trans_le (h.fits g hg))
  have hcg := h.count g hg
  refine hc.exact h hg (fun j h1 h2 => ?_) ?_ ?_
  · have hne : j ≠ i := by omega
    rw [hbitmap, bit_clearBit, h.padding g hg j h1 h2]
    simp [hne]
  · rw [hbitmap]; omega
  · omega

theorem Exact.congr (hgroups : q.groups = p.groups) (hsize : ∀ g < p.groups, q.size g = p.size g)
    (hbitmap : ∀ g < p.groups, q.bitmap g = p.bitmap g) (hcount : ∀ g < p.groups, q.count g = p.count g)
    (htotal : q.total = p.total) : Exact bits q where
  fits g hg := by
    rw [hgroups] at hg
    rw [hsize g hg]; exact h.fits g hg
  padding g hg := by
    rw [hgroups] at hg
    rw [hsize g hg, hbitmap g hg]; exact h.padding g hg
  count g hg := by
    rw [hgroups] at hg
    rw [hcount g hg, hbitmap g hg]; exact h.count g hg
  total := by
    rw [htotal, h.total, hgroups]
    exact sum_congr rfl fun g hg => (hcount g (mem_range.1 hg)).symm

theorem Exact.total_lt (hg : g < p.groups) (hset : bit (p.bitmap g) i = true)
    (hin : i < p.size g) (hn : ∑ g' ∈ range p.groups, p.size g' ≤ n) : p.total < n := by
  have hlt : p.count g < p.size g := by
    have hz := zeros_clearBit hset (hin.trans_le (h.fits g hg))
    have hle : zeros (clearBit (p.bitmap g) i) bits ≤ p.size g := by
      apply zeros_le_size
      intro j h1 h2
      have hne : j ≠ i := by omega
      rw [bit_clearBit, h.padding g hg j h1 h2]
      simp [hne]
    rw [h.count g hg]
    omega
  refine lt_of_lt_of_le ?_ hn
  rw [h.total]
  exact sum_lt_sum (fun g' hg' => h.count_le (mem_range.1 hg')) ⟨g, mem_range.2 hg, hlt⟩

end

end

end Kontsnor.BitPool
