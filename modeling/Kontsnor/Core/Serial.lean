/-
Serial numbers of 32 bits.

The positions of a long sequence are numbered modulo `2 ^ 32`, the first one with `start`. Of two positions that are at
most `2 ^ 31` apart (`Near`) the numbers still say which comes first and by how much:
- `behind_iff`: the difference of the numbers is in the upper half exactly if the position lies before.
- `number_inj`: the numbers are equal exactly if the positions are.
- `sub_toNat_of_le`: the distance between two positions.
-/
import Mathlib.Tactic

namespace Kontsnor.Serial

variable {start : UInt32} {r p n : ℕ}

def number (start : UInt32) (p : ℕ) : UInt32 := start + UInt32.ofNat p

/-- `p` is less than half the number space away from `r` -/
def Near (r p : ℕ) : Prop := r ≤ p + 2 ^ 31 ∧ p < r + 2 ^ 31

section

variable (start : UInt32)

theorem number_add (p n : ℕ) : number start (p + n) = number start p + UInt32.ofNat n := by
  rw [number, number, UInt32.ofNat_add, UInt32.add_assoc]

theorem number_toNat (p : ℕ) : (number start p).toNat = (start.toNat + p) % 2 ^ 32 := by
  rw [number, UInt32.toNat_add, UInt32.toNat_ofNat']
  omega

theorem sub_toNat_of_le (h : r ≤ p) (hlt : p < r + 2 ^ 32) : (number start p - number start r).toNat = p - r := by
  have hp := number_toNat start p
  have hr := number_toNat start r
  rw [UInt32.toNat_sub, hp, hr]
  omega

theorem sub_toNat_of_lt (h : p < r) (hle : r ≤ p + 2 ^ 32) :
    (number start p - number start r).toNat = 2 ^ 32 - (r - p) := by
  have hp := number_toNat start p
  have hr := number_toNat start r
  rw [UInt32.toNat_sub, hp, hr]
  omega

theorem behind_iff (h : Near r p) : 0x80000000 ≤ number start p - number start r ↔ p < r := by
  obtain ⟨h1, h2⟩ := h
  rw [UInt32.le_iff_toNat_le]
  change 2 ^ 31 ≤ _ ↔ _
  rcases Nat.lt_or_ge p r with hlt | hge
  · rw [sub_toNat_of_lt start hlt (by omega)]
    omega
  · rw [sub_toNat_of_le start hge (by omega)]
    omega

theorem number_inj (h : Near r p) : number start p = number start r ↔ p = r := by
  obtain ⟨h1, h2⟩ := h
  refine ⟨fun heq => ?_, fun heq => by rw [heq]⟩
  have hp := number_toNat start p
  rw [heq, number_toNat] at hp
  omega

end

end Kontsnor.Serial
