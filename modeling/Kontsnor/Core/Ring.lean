/-
Ring buffers that are filled and emptied with at most two copies.

`contents data start n` are the `n` elements from place `start` on, around the end of the array. `splice xs i ys` overwrites a part
of an array.
-/
import Mathlib.Tactic
import Mathlib.Data.List.Rotate

namespace Kontsnor.Ring

open List

variable {α : Type} {i : ℕ}

/-! ## Copies -/

def splice (xs : List α) (i : ℕ) (ys : List α) : List α := xs.take i ++ ys ++ xs.drop (i + ys.length)

theorem length_splice {xs ys : List α} (h : i + ys.length ≤ xs.length) : (splice xs i ys).length = xs.length := by
  unfold splice
  rw [length_append, length_append, length_take, length_drop]
  omega

theorem getElem?_splice {xs ys : List α} (h : i + ys.length ≤ xs.length) (j : ℕ) :
    (splice xs i ys)[j]? = if i ≤ j ∧ j < i + ys.length then ys[j - i]? else xs[j]? := by
  have hlen : (xs.take i).length = i := by
    rw [length_take]
    omega
  have hlen' : (xs.take i ++ ys).length = i + ys.length := by
    rw [length_append, hlen]
  unfold splice
  by_cases hji : j < i
  · rw [if_neg (by omega), getElem?_append_left (by omega), getElem?_append_left (by omega), getElem?_take, if_pos hji]
  by_cases hjy : j < i + ys.length
  · rw [if_pos ⟨not_lt.1 hji, hjy⟩, getElem?_append_left (by omega), getElem?_append_right (by omega), hlen]
  · rw [if_neg (by omega), getElem?_append_right (by omega), hlen', getElem?_drop]
    congr 1
    omega

/-! ## Contents -/

/-- the place of element `i` -/
def place (cap start i : ℕ) : ℕ := if start + i < cap then start + i else start + i - cap

theorem place_lt {cap start : ℕ} (hs : start < cap) (hi : i ≤ cap) : place cap start i < cap := by
  unfold place
  split_ifs <;> omega

def contents (data : List α) (start n : ℕ) : List α := (data.rotate start).take n

theorem length_contents {data : List α} {n : ℕ} (h : n ≤ data.length) (start : ℕ) : (contents data start n).length = n := by
  unfold contents
  rw [length_take, length_rotate]
  omega

theorem getElem?_contents {data : List α} {start n : ℕ} (hs : start < data.length) (hn : n ≤ data.length) :
    (contents data start n)[i]? = if i < n then data[place data.length start i]? else none := by
  unfold contents
  rw [getElem?_take]
  split_ifs with hi
  · rw [getElem?_rotate (by omega)]
    congr 1
    unfold place
    split_ifs with hlt
    · rw [Nat.mod_eq_of_lt (by omega)]
      omega
    · rw [Nat.mod_eq_sub_mod (by omega), Nat.mod_eq_of_lt (by omega)]
      omega
  · rfl

variable {data src : List α} {start n k : ℕ}

/-- a copy up to the end of the array, and the rest to its beginning -/
def write (data : List α) (w : ℕ) (src : List α) : List α :=
  splice (splice data w (src.take (min src.length (data.length - w)))) 0 (src.drop (min src.length (data.length - w)))

theorem length_write {w : ℕ} (hw : w < data.length) (hk : src.length ≤ data.length) : (write data w src).length = data.length := by
  have hfirst : w + (src.take (min src.length (data.length - w))).length ≤ data.length := by
    rw [length_take]
    omega
  unfold write
  rw [length_splice, length_splice hfirst]
  rw [length_splice hfirst, length_drop]
  omega

theorem getElem?_write {w : ℕ} (hw : w < data.length) (hk : src.length ≤ data.length) (j : ℕ) :
    (write data w src)[j]? =
      if w ≤ j ∧ j < w + src.length ∧ j < data.length then src[j - w]?
      else if j + data.length < w + src.length then src[j + data.length - w]?
      else data[j]? := by
  have hfirst : (src.take (min src.length (data.length - w))).length = min src.length (data.length - w) := by
    rw [length_take]
    omega
  have hfit : w + (src.take (min src.length (data.length - w))).length ≤ data.length := by omega
  unfold write
  rw [getElem?_splice (by rw [length_splice hfit, length_drop]; omega), length_drop, getElem?_splice hfit, hfirst,
    getElem?_drop, getElem?_take]
  by_cases hback : j + data.length < w + src.length
  · -- the second copy
    rw [if_pos (by omega), if_neg (by omega), if_pos hback]
    congr 1
    omega
  · rw [if_neg (by omega), if_neg hback]
    by_cases hin : w ≤ j ∧ j < w + src.length ∧ j < data.length
    · rw [if_pos (by omega), if_pos (by omega), if_pos hin]
    · rw [if_neg (by omega), if_neg hin]

/-- what is written behind the contents comes behind them -/
theorem contents_write (hs : start < data.length) (hk : n + src.length ≤ data.length) :
    contents (write data (place data.length start n) src) start (n + src.length) = contents data start n ++ src := by
  have hw := place_lt hs (i := n) (by omega)
  have hlen := length_write hw (show src.length ≤ data.length by omega)
  refine ext_getElem? fun i => ?_
  rw [getElem?_contents (by omega) (by omega), hlen]
  have hcl : (contents data start n).length = n := length_contents (by omega) start
  by_cases hi : i < n
  · rw [if_pos (by omega), getElem?_append_left (by omega), getElem?_contents hs (by omega), if_pos hi,
      getElem?_write hw (by omega)]
    unfold place at *
    split_ifs at * <;> first | rfl | omega
  · rw [getElem?_append_right (by omega), hcl]
    by_cases hik : i < n + src.length
    · rw [if_pos hik, getElem?_write hw (by omega)]
      unfold place at *
      split_ifs at * <;> first | omega | (congr 1; omega)
    · rw [if_neg hik, getElem?_eq_none (by omega)]

/-- a copy from the place on up to the end of the array, and the rest from its beginning -/
def read (data : List α) (r k : ℕ) : List α :=
  (data.drop r).take (min k (data.length - r)) ++ data.take (k - min k (data.length - r))

section

variable (hs : start < data.length) (hk : k ≤ n) (hn : n ≤ data.length)
include hs hk hn

theorem read_eq : read data start k = (contents data start n).take k := by
  have hfirst : ((data.drop start).take (min k (data.length - start))).length = min k (data.length - start) := by
    rw [length_take, length_drop]
    omega
  refine ext_getElem? fun i => ?_
  unfold read
  rw [getElem?_take, getElem?_contents hs hn]
  by_cases hi : i < min k (data.length - start)
  · rw [getElem?_append_left (by omega), getElem?_take, if_pos hi, getElem?_drop, if_pos (by omega),
      if_pos (by omega), place, if_pos (by omega)]
  · rw [getElem?_append_right (by omega), hfirst, getElem?_take]
    by_cases hik : i < k
    · rw [if_pos (by omega), if_pos hik, if_pos (by omega), place, if_neg (by omega)]
      congr 1
      omega
    · rw [if_neg (by omega), if_neg hik]

/-- what has been read is gone -/
theorem contents_read : contents data (place data.length start k) (n - k) = (contents data start n).drop k := by
  refine ext_getElem? fun i => ?_
  rw [getElem?_contents (place_lt hs (by omega)) (by omega), getElem?_drop, getElem?_contents hs hn]
  by_cases hi : i < n - k
  · rw [if_pos hi, if_pos (by omega)]
    congr 1
    unfold place
    split_ifs <;> omega
  · rw [if_neg hi, if_neg (by omega)]

end

end Kontsnor.Ring
