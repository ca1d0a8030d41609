/-
Bitmaps of 64-bit words, and the search for a clear bit in one word.

Bit `i` of a bitmap is bit `i % 64` of word `i / 64`. `firstClear v offset` is the search of a scan that starts in the
middle of a word: the bits below the start are masked as set, and the lowest clear bit of the rest is taken by counting
trailing zeros.
-/
import Mathlib.Tactic

namespace Kontsnor.BitScan

open Function

abbrev Bitmap := ℕ → BitVec 64

variable (b : Bitmap) (i : ℕ)

def isSet : Bool := (b (i / 64)).getLsbD (i % 64)

def mark : Bitmap := update b (i / 64) (b (i / 64) ||| 1#64 <<< (i % 64))

def clear : Bitmap := update b (i / 64) (b (i / 64) &&& ~~~ (1#64 <<< (i % 64)))

/-- the bits below `offset` -/
def lowMask (offset : ℕ) : BitVec 64 := if offset = 0 then 0 else 1#64 <<< offset - 1

/-- the lowest clear bit from `offset` on -/
def firstClear (v : BitVec 64) (offset : ℕ) : Option ℕ :=
  let masked := v ||| lowMask offset
  if masked = BitVec.allOnes 64 then none else some (~~~ masked).ctz.toNat

theorem getLsbD_one_shiftLeft {i j : ℕ} (hj : j < 64) : (1#64 <<< i).getLsbD j = decide (j = i) := by
  rw [BitVec.getLsbD_shiftLeft, BitVec.getLsbD_one]
  by_cases h : j = i
  · subst h; simp [hj]
  · simp only [hj, decide_true, Bool.true_and, h, decide_false]
    by_cases hlt : j < i
    · simp [hlt]
    · simp; omega

theorem isSet_mark (i j : ℕ) : isSet (mark b i) j = (decide (j = i) || isSet b j) := by
  have hj : j % 64 < 64 := Nat.mod_lt _ (by decide)
  unfold isSet mark
  by_cases hw : j / 64 = i / 64
  · have hiff : j % 64 = i % 64 ↔ j = i := by omega
    rw [hw, update_self, BitVec.getLsbD_or, getLsbD_one_shiftLeft hj, Bool.or_comm, decide_eq_decide.2 hiff]
  · have hne : j ≠ i := fun h => hw (congrArg (· / 64) h)
    rw [update_of_ne hw]
    simp [hne]

theorem isSet_clear (i j : ℕ) : isSet (clear b i) j = (!decide (j = i) && isSet b j) := by
  have hj : j % 64 < 64 := Nat.mod_lt _ (by decide)
  unfold isSet clear
  by_cases hw : j / 64 = i / 64
  · have hiff : decide (j % 64 = i % 64) = decide (j = i) := decide_eq_decide.2 (by omega)
    rw [hw, update_self, BitVec.getLsbD_and, BitVec.getLsbD_not, getLsbD_one_shiftLeft hj, Bool.and_comm, hiff]
    simp [hj]
  · have hne : j ≠ i := fun h => hw (congrArg (· / 64) h)
    rw [update_of_ne hw]
    simp [hne]

theorem firstClear_spec {v : BitVec 64} {offset j : ℕ} (h : firstClear v offset = some j) :
    j < 64 ∧ v.getLsbD j = false := by
  simp only [firstClear] at h
  split_ifs at h with hfull
  cases h
  have hne : ~~~ (v ||| lowMask offset) ≠ 0#64 := by
    intro h0
    apply hfull
    rw [← BitVec.not_not (b := v ||| lowMask offset), h0]
    rfl
  have hbit := BitVec.getLsbD_true_ctz_of_ne_zero hne
  rw [BitVec.getLsbD_not, Bool.and_eq_true, decide_eq_true_eq, BitVec.getLsbD_or] at hbit
  obtain ⟨hlt, hclear⟩ := hbit
  refine ⟨hlt, ?_⟩
  cases hv : v.getLsbD (~~~ (v ||| lowMask offset)).ctz.toNat with
  | false => rfl
  | true => rw [hv] at hclear; simp at hclear

end Kontsnor.BitScan
