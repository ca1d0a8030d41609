/-
The allocator's scans find a free bit if there is one (`fs/ext/alloc.rs`).

Both scans pass over full 64-bit chunks. The block scan ends a run at every used block and keeps the longest; the inode scan
looks for a chunk that is not full, and from its first clear bit goes on bit by bit.
-/
import Kontsnor.Ext.AllocSpec

namespace Kontsnor.Ext

open List Nat

open Words (Buffer bit bit_of_full64)

/-! ## Runs of blocks -/

/-- the scan has seen a free block -/
def Scan.Seen (s : Scan) : Prop := 0 < s.bestLen ∨ 0 < s.currLen

theorem Scan.currLen_extend (s : Scan) (i : ℕ) : 0 < (s.extend i).currLen := by
  unfold Scan.extend
  cases s.currStart with
  | none => exact one_pos
  | some st => exact succ_pos _

theorem Scan.Seen.keepBest {s : Scan} (h : s.Seen) : 0 < s.keepBest.bestLen := by
  unfold Scan.keepBest
  split_ifs with hlt
  · exact zero_lt_of_lt hlt
  · rcases h with hb | hc
    · exact hb
    · omega

variable {bitmap : Buffer} {groupInodes i fuel j : ℕ} {groupBlocks : ℕ} (requested : ℕ)

theorem scanLoop_seen {s : Scan} (hfuel : groupBlocks ≤ i + fuel)
    (h : s.Seen ∨ ∃ j, i ≤ j ∧ j < groupBlocks ∧ bit bitmap j = false) :
    (scanLoop bitmap groupBlocks requested fuel i s).Seen := by
  induction fuel generalizing i s with
  | zero =>
    rcases h with hs | ⟨j, h1, h2, _⟩
    · exact hs
    · omega
  | succ fuel ih =>
    unfold scanLoop
    split_ifs with hlt hskip hfree hdone
    · -- no free block in a chunk that is skipped
      obtain ⟨_, _, hmod, hfull⟩ := hskip
      refine ih (by omega) (h.imp_right ?_)
      rintro ⟨j, h1, h2, hj⟩
      refine ⟨j, ?_, h2, hj⟩
      by_contra hlt
      rw [bit_of_full64 hmod hfull h1 (not_le.1 hlt)] at hj
      cases hj
    · exact .inl (s.currLen_extend i)
    · exact ih (by omega) (.inl (.inr (s.currLen_extend i)))
    · refine ih (by omega) ?_
      rcases h with hs | ⟨j, h1, h2, hj⟩
      · exact .inl (.inl hs.keepBest)
      · refine .inr ⟨j, ?_, h2, hj⟩
        rcases lt_or_ge i j with h3 | h3
        · exact h3
        · have : j = i := by omega
          rw [this] at hj
          exact absurd hj hfree
    · rcases h with hs | ⟨j, h1, h2, _⟩
      · exact hs
      · omega

/-- **A group with a free block has a run.** -/
theorem findRun_complete (hi : i < groupBlocks)
    (hb : bit bitmap i = false) : ∃ run, findRun bitmap groupBlocks requested = some run := by
  have hinit : ScanInv bitmap 0 ⟨none, 0, none, 0⟩ := ⟨by simp, by simp, by simp, by simp⟩
  obtain ⟨k, _, hinv⟩ := scanLoop_inv requested groupBlocks 0 hinit (zero_le groupBlocks)
  have hseen := scanLoop_seen requested (s := ⟨none, 0, none, 0⟩) (zero_add groupBlocks).ge
    (.inr ⟨i, zero_le i, hi, hb⟩)
  have hpos := hseen.keepBest
  have hno := hinv.keepBest.noBest
  simp only [findRun]
  cases hs : (scanLoop bitmap groupBlocks requested groupBlocks 0 ⟨none, 0, none, 0⟩).keepBest.bestStart with
  | none =>
    have := hno hs
    omega
  | some st => exact ⟨_, if_pos hpos⟩

/-! ## Inodes -/

theorem trailingOnes64_spec (bitmap : Buffer) (i : ℕ) :
    (trailingOnes64 bitmap i < 64 ∧ bit bitmap (i + trailingOnes64 bitmap i) = false) ∨
      trailingOnes64 bitmap i = 64 ∧ ∀ j, i ≤ j → j < i + 64 → bit bitmap j = true := by
  unfold trailingOnes64
  cases hf : (range 64).find? fun k => !bit bitmap (i + k) with
  | none =>
    refine .inr ⟨rfl, fun j h1 h2 => ?_⟩
    have hj := find?_eq_none.1 hf (j - i) (mem_range.2 (by omega))
    rw [Nat.add_sub_cancel' h1] at hj
    simpa using hj
  | some k =>
    left
    have hb := find?_some hf
    exact ⟨mem_range.1 (mem_of_find?_eq_some hf), by simpa using hb⟩

theorem candidateLoop_le (fuel : ℕ) (hmod : i % 64 = 0) (h1 : i ≤ j)
    (hj : bit bitmap j = false) (h2 : j < groupInodes) :
    ∃ k, candidateLoop bitmap groupInodes fuel i ≤ k ∧ k < groupInodes ∧ bit bitmap k = false := by
  induction fuel generalizing i with
  | zero => exact ⟨j, h1, h2, hj⟩
  | succ fuel ih =>
    unfold candidateLoop
    split_ifs with hroom hcand
    · -- the lowest clear bit of the chunk
      rcases trailingOnes64_spec bitmap i with ⟨_, hclear⟩ | ⟨hall, hfull⟩
      · exact ⟨_, le_rfl, hcand.2, hclear⟩
      · refine ⟨j, ?_, h2, hj⟩
        by_contra hlt
        rw [hfull j h1 (by omega)] at hj
        cases hj
    · refine ih (by omega) ?_
      by_contra hlt
      apply hcand
      refine ⟨Bool.eq_false_iff.2 fun hfull => ?_, ?_⟩
      · rw [bit_of_full64 hmod hfull h1 (not_le.1 hlt)] at hj
        cases hj
      · rcases trailingOnes64_spec bitmap i with ⟨hlt64, _⟩ | ⟨_, hfull⟩
        · omega
        · rw [hfull j h1 (not_le.1 hlt)] at hj
          cases hj
    · exact ⟨j, h1, h2, hj⟩

theorem clearLoop_spec {k : ℕ}
    (h : clearLoop bitmap groupInodes fuel i = some k) : k < groupInodes ∧ bit bitmap k = false := by
  induction fuel generalizing i with
  | zero => cases h
  | succ fuel ih =>
    rw [clearLoop] at h
    split_ifs at h with hlt hb
    · cases h
      exact ⟨hlt, hb⟩
    · exact ih h

theorem clearLoop_complete (hfuel : groupInodes ≤ i + fuel) (h1 : i ≤ j)
    (h2 : j < groupInodes) (hj : bit bitmap j = false) : ∃ k, clearLoop bitmap groupInodes fuel i = some k := by
  induction fuel generalizing i with
  | zero => omega
  | succ fuel ih =>
    rw [clearLoop, if_pos (by omega)]
    split_ifs with hb
    · exact ⟨i, rfl⟩
    · have hne : j ≠ i := by
        rintro rfl
        exact hb hj
      exact ih (by omega) (by omega)

/-- **The scan for an inode finds a clear bit of the group, if there is one.** -/
theorem findInode_complete (h : j < groupInodes) (hj : bit bitmap j = false) :
    ∃ k, findInode bitmap groupInodes = some k := by
  obtain ⟨k, h1, h2, hk⟩ := candidateLoop_le groupInodes rfl (zero_le j) hj h
  exact clearLoop_complete (by omega) h1 h2 hk

end Kontsnor.Ext
