/-
The block-device interface (`drivers/traits.rs`, `trait BlockDevice`).

A method of a device is a state transformer that returns a value or a `DriverError` and keeps the state it reached in
both cases: that is what `Result<T, DriverError>` on a shared `&self` gives. Block numbers and lengths are unbounded
naturals; a `u64` overflow of a block number cannot be reached by a transfer that lies inside a device.

`ReliableDevice` is a device whose transfers never fail, with the contents it stores as a field: `content` reads a
block, and the laws say what each method does to it. `Disk` is the plain instance, an array of blocks.
-/
import Kontsnor.Core.Fallible

namespace Kontsnor.Block

open List Function Nat

inductive DriverError where
  | NotSupported
  | IoError
  | NotReady
  | Busy
  | InvalidParam
  | OutOfMemory
  | Timeout
  | NotFound
  | PermissionDenied
deriving DecidableEq, Repr

/-- a method on a device (or cache) with state σ: the state reached is kept on an error too -/
abbrev DevM (σ : Type) := EStateM DriverError σ

/-- the methods of `trait BlockDevice` that move data; `readBlock block len` fills a buffer of `len` bytes -/
structure BlockDevice (D : Type) where
  blockSize : ℕ
  readBlock (block len : ℕ) : DevM D (List UInt8)
  writeBlock (block : ℕ) (data : List UInt8) : DevM D Unit
  flush : DevM D Unit

/-- block `i` of a buffer, `buf[i * bs .. (i + 1) * bs]` -/
def chunk (bs : ℕ) (buf : List UInt8) (i : ℕ) : List UInt8 := (buf.drop (i * bs)).take bs

/-- a flat array of blocks after `data` has been stored from `block` on -/
def store (bs : ℕ) (m : ℕ → List UInt8) (block : ℕ) (data : List UInt8) (k : ℕ) : List UInt8 :=
  if block ≤ k ∧ k < block + data.length / bs then chunk bs data (k - block) else m k

/-- blocks `block .. block + n` of a flat array, one after the other -/
def load (m : ℕ → List UInt8) (block n : ℕ) : List UInt8 := (range n).flatMap fun i => m (block + i)

/-- a device whose transfers never fail; `content` is what it stores, block by block -/
structure ReliableDevice (D : Type) extends BlockDevice D where
  content : D → ℕ → List UInt8
  blockSize_pos : 0 < blockSize
  content_length : ∀ d k, (content d k).length = blockSize
  read_ok : ∀ d block len, len % blockSize = 0 →
    ∃ d', readBlock block len d = .ok (load (content d) block (len / blockSize)) d' ∧ content d' = content d
  write_ok : ∀ d block data, data.length % blockSize = 0 →
    ∃ d', writeBlock block data d = .ok () d' ∧ content d' = store blockSize (content d) block data
  flush_ok : ∀ d, ∃ d', flush d = .ok () d' ∧ content d' = content d

/-! ## Buffers cut into blocks -/

variable {bs : ℕ}

theorem chunk_length {buf : List UInt8} {i : ℕ} (h : (i + 1) * bs ≤ buf.length) : (chunk bs buf i).length = bs := by
  rw [succ_mul] at h
  simp only [chunk, length_take, length_drop]; omega

theorem chunk_append_left {a b : List UInt8} (ha : a.length = bs) : chunk bs (a ++ b) 0 = a := by
  simp [chunk, ← ha]

theorem chunk_append_right {a b : List UInt8} (ha : a.length = bs) (i : ℕ) :
    chunk bs (a ++ b) (i + 1) = chunk bs b i := by
  have : (i + 1) * bs = a.length + i * bs := by rw [ha]; ring
  rw [chunk, chunk, this, ← drop_drop, drop_left]

theorem load_succ (m : ℕ → List UInt8) (block n : ℕ) : load m block (n + 1) = m block ++ load m (block + 1) n := by
  simp only [load, range_succ_eq_map, flatMap_cons, flatMap_map, add_zero]
  congr 1
  refine flatMap_congr fun i _ => ?_
  rw [succ_eq_add_one]; congr 1; omega

variable {block n : ℕ} {m : ℕ → List UInt8}

section

variable (hm : ∀ i < n, (m (block + i)).length = bs)
include hm

theorem load_length : (load m block n).length = n * bs := by
  induction n generalizing block with
  | zero => simp [load]
  | succ n ih =>
    have h0 : (m block).length = bs := hm 0 (by omega)
    rw [load_succ, length_append, h0, ih fun i hi => ?_]
    · ring
    · rw [show block + 1 + i = block + (i + 1) by omega]; exact hm _ (by omega)

theorem chunk_load {i : ℕ}
    (hi : i < n) : chunk bs (load m block n) i = m (block + i) := by
  induction n generalizing block i with
  | zero => omega
  | succ n ih =>
    rw [load_succ]
    cases i with
    | zero => exact chunk_append_left (hm 0 hi)
    | succ i =>
      rw [chunk_append_right (show (m block).length = bs from hm 0 (by omega)), ih (fun j hj => ?_) (by omega)]
      · congr 1; omega
      · rw [show block + 1 + j = block + (j + 1) by omega]; exact hm _ (by omega)

end

variable {m' : ℕ → List UInt8}

theorem load_congr (h : ∀ i < n, m (block + i) = m' (block + i)) : load m block n = load m' block n :=
  flatMap_congr fun i hi => h i (mem_range.1 hi)

theorem load_inj (hm : ∀ i < n, (m (block + i)).length = bs)
    (hm' : ∀ i < n, (m' (block + i)).length = bs) :
    load m block n = load m' block n ↔ ∀ i < n, m (block + i) = m' (block + i) := by
  refine ⟨fun h i hi => ?_, load_congr⟩
  rw [← chunk_load hm hi, ← chunk_load hm' hi, h]

theorem store_length (hm : ∀ k, (m k).length = bs) {data : List UInt8}
    {block k : ℕ} : (store bs m block data k).length = bs := by
  unfold store
  split_ifs with h
  · apply chunk_length
    calc (k - block + 1) * bs ≤ data.length / bs * bs := mul_le_mul_right _ (by omega)
      _ ≤ data.length := div_mul_le_self _ _
  · exact hm k

theorem store_one (hbs : 0 < bs) {data : List UInt8} (h : data.length = bs) :
    store bs m block data = update m block data := by
  funext k
  rw [store, h, Nat.div_self hbs, update_apply]
  by_cases hk : k = block
  · subst hk; simp [chunk, ← h]
  · rw [if_neg (by omega), if_neg hk]

theorem store_load (hbs : 0 < bs) (hm : ∀ i < n, (m' (block + i)).length = bs) (k : ℕ) :
    store bs m block (load m' block n) k = if block ≤ k ∧ k < block + n then m' k else m k := by
  have hl : (load m' block n).length = n * bs := load_length hm
  rw [store, hl, Nat.mul_div_cancel _ hbs]
  split_ifs with hk
  · rw [chunk_load hm (by omega)]; congr 1; omega
  · rfl

/-! ## A plain disk -/

/-- an array of blocks of `bs` bytes -/
abbrev Disk (bs : ℕ) := ℕ → { b : List UInt8 // b.length = bs }

/-- **Every block size has a reliable device**: the plain disk. -/
def disk (bs : ℕ) (hbs : 0 < bs) : ReliableDevice (Disk bs) where
  blockSize := bs
  readBlock block len := fun d => .ok (load (fun k => (d k).1) block (len / bs)) d
  writeBlock block data := fun d =>
    .ok () fun k => ⟨store bs (fun k => (d k).1) block data k, store_length (fun k => (d k).2)⟩
  flush := fun d => .ok () d
  content d k := (d k).1
  blockSize_pos := hbs
  content_length d k := (d k).2
  read_ok d _ _ _ := ⟨d, rfl, rfl⟩
  write_ok _ _ _ _ := ⟨_, rfl, rfl⟩
  flush_ok d := ⟨d, rfl, rfl⟩

end Kontsnor.Block
