/-
Lists in ascending order of a key.

`insertBy key x xs` puts `x` before the first element with a larger key. Where the keys ascend and `x` brings a new one,
they still do (`AscendingBy.insertBy`).
- `insertBy_eq_insertIdx`: the same as inserting at the index of the first larger key, which is how an array is shifted.
-/
import Mathlib.Tactic
import Mathlib.Data.List.TakeWhile

namespace Kontsnor.Ascending

open List

variable {α : Type} {key : α → ℕ} {x y : α} {xs : List α}

def insertBy (key : α → ℕ) (x : α) (xs : List α) : List α :=
  xs.takeWhile (fun e => decide (key e ≤ key x)) ++ x :: xs.dropWhile (fun e => decide (key e ≤ key x))

def AscendingBy (key : α → ℕ) (xs : List α) : Prop := xs.Pairwise fun a b => key a < key b

theorem perm_insertBy (x : α) (xs : List α) : (insertBy key x xs).Perm (x :: xs) := by
  have h := takeWhile_append_dropWhile (p := fun e : α => decide (key e ≤ key x)) (l := xs)
  conv_rhs => rw [← h]
  exact perm_middle

theorem mem_insertBy : y ∈ insertBy key x xs ↔ y = x ∨ y ∈ xs := by
  rw [(perm_insertBy x xs).mem_iff, mem_cons]

theorem length_insertBy : (insertBy key x xs).length = xs.length + 1 := by
  rw [(perm_insertBy x xs).length_eq, length_cons]

theorem insertBy_eq_insertIdx : insertBy key x xs = xs.insertIdx (xs.findIdx fun e => decide (key x < key e)) x := by
  induction xs with
  | nil => rfl
  | cons e xs ih =>
    by_cases h : key e ≤ key x
    · have hi : insertBy key x (e :: xs) = e :: insertBy key x xs := by simp [insertBy, h]
      rw [hi, ih, findIdx_cons]
      simp [Nat.not_lt.2 h, insertIdx_succ_cons]
    · simp [insertBy, h, findIdx_cons, Nat.lt_of_not_le h]

section

variable (h : AscendingBy key xs)
include h

theorem AscendingBy.lt_of_mem_dropWhile {k : ℕ} (hy : y ∈ xs.dropWhile fun e => decide (key e ≤ k)) : k < key y := by
  induction xs with
  | nil => cases hy
  | cons e xs ih =>
    obtain ⟨he, hxs⟩ := pairwise_cons.1 h
    by_cases hk : key e ≤ k
    · rw [dropWhile_cons_of_pos (by simpa using hk)] at hy
      exact ih hxs hy
    · rw [dropWhile_cons_of_neg (by simpa using hk)] at hy
      rcases mem_cons.1 hy with rfl | hy
      · omega
      · have := he y hy; omega

theorem AscendingBy.insertBy (hne : ∀ y ∈ xs, key y ≠ key x) : AscendingBy key (insertBy key x xs) := by
  have happ := h
  rw [AscendingBy, ← takeWhile_append_dropWhile (p := fun e : α => decide (key e ≤ key x)) (l := xs),
    pairwise_append] at happ
  obtain ⟨h1, h2, h3⟩ := happ
  refine pairwise_append.2 ⟨h1, pairwise_cons.2 ⟨fun y hy => h.lt_of_mem_dropWhile hy, h2⟩, ?_⟩
  intro y hy z hz
  rcases mem_cons.1 hz with rfl | hz
  · have hle : key y ≤ key z := by simpa using mem_takeWhile_imp hy
    exact lt_of_le_of_ne hle (hne y ((takeWhile_sublist _).subset hy))
  · exact h3 y hy z hz

theorem AscendingBy.eq_of_key (hx : x ∈ xs) (hy : y ∈ xs) (hk : key x = key y) : x = y := by
  have hnd : (xs.map key).Nodup := pairwise_map.2 (h.imp fun hlt => hlt.ne)
  exact inj_on_of_nodup_map hnd hx hy hk

theorem AscendingBy.set {j : ℕ} (hj : xs[j]? = some x) (hk : key y = key x) : AscendingBy key (xs.set j y) := by
  have hmap : (xs.set j y).map key = xs.map key := by
    refine ext_getElem? fun i => ?_
    by_cases hi : j = i
    · subst hi
      obtain ⟨hlt, hx⟩ := List.getElem?_eq_some_iff.1 hj
      simp [hlt, hx, hk]
    · simp [hi]
  have hp : (xs.map key).Pairwise (· < ·) := pairwise_map.2 h
  rw [← hmap] at hp
  exact pairwise_map.1 hp

end

end Kontsnor.Ascending
