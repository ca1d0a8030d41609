/-
Buffers of 32-bit words, and the bitmaps they hold.

A buffer is a function from word indices to words. A bitmap keeps bit `i` in word `i / 32` at position `i % 32`: for
little-endian words that is bit `i % 8` of byte `i / 8`, so the byte-wise `bitmap[i / 8] & (1 << (i % 8))` of a byte
buffer is `bit`.
-/
import Mathlib.Tactic

namespace Kontsnor.Words

open Function Nat

abbrev Buffer := ℕ → UInt32

variable (w : Buffer) (i : ℕ)

def bit : Bool := (w (i / 32)).toNat.testBit (i % 32)

def mask : UInt32 := 1 <<< UInt32.ofNat (i % 32)

def setBit : Buffer := update w (i / 32) (w (i / 32) ||| mask i)

def clearBit : Buffer := update w (i / 32) (w (i / 32) &&& ~~~ mask i)

/-- the 64 bits from `i` on (a multiple of 64) are all ones -/
def full64 (i : ℕ) : Bool := w (i / 32) == 0xFFFFFFFF && w (i / 32 + 1) == 0xFFFFFFFF

theorem mask_toNat : (mask i).toNat = 2 ^ (i % 32) := by
  have hlt : i % 32 < 32 := mod_lt _ (by decide)
  have hpow : 2 ^ (i % 32) < 2 ^ 32 := Nat.pow_lt_pow_right (by decide) hlt
  have hk : (UInt32.ofNat (i % 32)).toNat % 32 = i % 32 := by rw [UInt32.toNat_ofNat']; omega
  rw [mask, UInt32.toNat_shiftLeft, hk, UInt32.toNat_one, one_shiftLeft]
  exact mod_eq_of_lt hpow

theorem mask_testBit (i k : ℕ) : (mask i).toNat.testBit k = decide (i % 32 = k) := by
  rw [mask_toNat, testBit_two_pow]

/-- two bits of one word are the same bit if their positions agree -/
theorem eq_of_div_mod {i j : ℕ} (hd : j / 32 = i / 32) : i % 32 = j % 32 ↔ j = i := by
  constructor
  · intro hm; omega
  · rintro rfl; rfl

theorem bit_setBit (i j : ℕ) : bit (setBit w i) j = (decide (j = i) || bit w j) := by
  unfold bit setBit
  by_cases hd : j / 32 = i / 32
  · rw [hd, update_self, UInt32.toNat_or, testBit_or, mask_testBit, Bool.or_comm, decide_eq_decide.2 (eq_of_div_mod hd)]
  · have hne : j ≠ i := by rintro rfl; exact hd rfl
    rw [update_of_ne hd]; simp [hne]

theorem bit_clearBit (i j : ℕ) : bit (clearBit w i) j = (!decide (j = i) && bit w j) := by
  unfold bit clearBit
  by_cases hd : j / 32 = i / 32
  · have hnot : (~~~ mask i).toNat.testBit (j % 32) = !decide (j = i) := by
      have hlt : j % 32 < 32 := mod_lt _ (by decide)
      have heq : (~~~ mask i).toNat = 2 ^ 32 - ((mask i).toNat + 1) := by
        rw [UInt32.toNat_not, UInt32.size]; omega
      rw [heq, testBit_two_pow_sub_succ (UInt32.toNat_lt _), mask_testBit]
      simp [hlt, eq_of_div_mod hd]
    rw [hd, update_self, UInt32.toNat_and, testBit_and, hnot, Bool.and_comm]
  · have hne : j ≠ i := by rintro rfl; exact hd rfl
    rw [update_of_ne hd]; simp [hne]

theorem bit_of_full64 {w : Buffer} {i : ℕ} (hi : i % 64 = 0) (h : full64 w i = true) {j : ℕ} (hj : i ≤ j)
    (hlt : j < i + 64) : bit w j = true := by
  have hones : (0xFFFFFFFF : UInt32).toNat = 2 ^ 32 - 1 := rfl
  obtain ⟨h0, h1⟩ := Bool.and_eq_true_iff.1 h
  have hm : j % 32 < 32 := mod_lt _ (by decide)
  have hw : w (j / 32) = 0xFFFFFFFF := by
    rcases lt_or_ge j (i + 32) with hc | hc
    · have : j / 32 = i / 32 := by omega
      rw [this]; exact eq_of_beq h0
    · have : j / 32 = i / 32 + 1 := by omega
      rw [this]; exact eq_of_beq h1
  rw [bit, hw, hones, testBit_two_pow_sub_one]
  exact decide_eq_true hm

/-- set the bits `i .. i + n` -/
def setBits (i n : ℕ) : Buffer := (List.range' i n).foldl setBit w

theorem bit_setBits (i n j : ℕ) : bit (setBits w i n) j = (decide (i ≤ j ∧ j < i + n) || bit w j) := by
  induction n generalizing w i with
  | zero => simp [setBits]
  | succ n ih =>
    have hstep : setBits w i (n + 1) = setBits (setBit w i) (i + 1) n := by simp [setBits, List.range'_succ]
    rw [hstep, ih, bit_setBit, ← Bool.or_assoc, ← Bool.decide_or]
    congr 1
    exact decide_eq_decide.2 (by omega)

/-- a word made of two 16-bit halves -/
def pack (lo hi : ℕ) : UInt32 := UInt32.ofNat (lo + hi * 65536)

def low (w : UInt32) : ℕ := w.toNat % 65536

def high (w : UInt32) : ℕ := w.toNat / 65536

theorem halves {lo hi : ℕ} (hlo : lo < 65536) (hhi : hi < 65536) : low (pack lo hi) = lo ∧ high (pack lo hi) = hi := by
  have h : (pack lo hi).toNat = lo + hi * 65536 := by
    rw [pack, UInt32.toNat_ofNat']; omega
  rw [low, high, h]
  omega

end Kontsnor.Words
