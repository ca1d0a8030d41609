/-
The bytes of a buffer of little-endian words.

`bytesOf w` is the byte view of a word buffer, `wordsOf f` the buffer with the bytes `f`.
`splice f start data` is a copy of `data` over the bytes `f` from `start` on.
-/
import Kontsnor.Core.Words

namespace Kontsnor.Bytes

open Words (Buffer)

abbrev ByteBuffer := ℕ → UInt8

def bytesOf (w : Buffer) : ByteBuffer := fun i => UInt8.ofNat ((w (i / 4)).toNat / 256 ^ (i % 4) % 256)

variable (f : ByteBuffer)

def wordsOf : Buffer := fun i =>
  UInt32.ofNat ((f (4 * i)).toNat + 256 * (f (4 * i + 1)).toNat + 65536 * (f (4 * i + 2)).toNat +
    16777216 * (f (4 * i + 3)).toNat)

def splice (start : ℕ) (data : List UInt8) : ByteBuffer := fun i =>
  if start ≤ i ∧ i < start + data.length then data.getD (i - start) 0 else f i

/-- the bytes `start .. start + n` -/
def slice (start n : ℕ) : List UInt8 := (List.range n).map fun i => f (start + i)

end Kontsnor.Bytes
