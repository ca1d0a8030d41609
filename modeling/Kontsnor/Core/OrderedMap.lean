/-
Maps with keys in ascending order, as lists of entries.

`get` looks up a key, `insert` replaces the value of a key or adds it at its place, `without p` drops the keys that `p` picks.
-/
import Kontsnor.Core.Ascending

namespace Kontsnor

open List

abbrev OrderedMap (α : Type) := List (ℕ × α)

namespace OrderedMap

variable {α : Type} (m : OrderedMap α) (k : ℕ)

def get : Option α := (m.find? fun e => e.1 == k).map Prod.snd

def insert (v : α) : OrderedMap α :=
  if (get m k).isSome then m.map fun e => if e.1 = k then (k, v) else e
  else Ascending.insertBy Prod.fst (k, v) m

def without (p : ℕ → Bool) (m : OrderedMap α) : OrderedMap α := m.filter fun e => !p e.1

@[simp] theorem get_nil : get ([] : OrderedMap α) k = none := rfl

theorem get_cons (e : ℕ × α) (m : OrderedMap α) (k : ℕ) : get (e :: m) k = if e.1 = k then some e.2 else get m k := by
  by_cases h : e.1 = k
  · simp [get, h]
  · simp [get, h]

theorem get_append (m m' : OrderedMap α) (k : ℕ) : get (m ++ m') k = (get m k).or (get m' k) := by
  induction m with
  | nil => simp
  | cons e m ih =>
    rw [cons_append, get_cons, get_cons, ih]
    split_ifs <;> rfl

theorem get_insert (v : α) (k' : ℕ) : get (insert m k v) k' = if k' = k then some v else get m k' := by
  unfold insert
  split_ifs with hk h h
  · -- the key is there: its entry is replaced
    subst h
    induction m with
    | nil => simp at hk
    | cons e m ih =>
      rw [map_cons, get_cons]
      by_cases he : e.1 = k'
      · simp [he]
      · rw [get_cons, if_neg he] at hk
        simp only [he, if_false]
        exact ih hk
  · clear hk
    induction m with
    | nil => rfl
    | cons e m ih =>
      rw [map_cons, get_cons, get_cons, ih]
      by_cases he : e.1 = k
      · simp [he, Ne.symm h]
      · simp [he]
  · subst h
    have hnone : get m k' = none := by simpa using hk
    have hsplit := takeWhile_append_dropWhile (p := fun e : ℕ × α => decide (e.1 ≤ k')) (l := m)
    rw [← hsplit, get_append, Option.or_eq_none_iff] at hnone
    rw [Ascending.insertBy, get_append, hnone.1, Option.none_or, get_cons, if_pos rfl]
  · have hsplit := takeWhile_append_dropWhile (p := fun e : ℕ × α => decide (e.1 ≤ k)) (l := m)
    conv_rhs => rw [← hsplit, get_append]
    rw [Ascending.insertBy, get_append, get_cons, if_neg (Ne.symm h)]

theorem get_without (p : ℕ → Bool) (m : OrderedMap α) (k : ℕ) :
    get (without p m) k = if p k then none else get m k := by
  induction m with
  | nil => simp [without]
  | cons e m ih =>
    rw [without] at ih ⊢
    rw [filter_cons]
    by_cases hp : p e.1 = true
    · rw [if_neg (by simp [hp]), ih, get_cons]
      by_cases he : e.1 = k
      · simp [← he, hp]
      · rw [if_neg he]
    · rw [if_pos (by simp [hp]), get_cons, get_cons, ih]
      by_cases he : e.1 = k
      · have : ¬ p k = true := by rw [← he]; exact hp
        simp [he, this]
      · simp [he]

end OrderedMap

end Kontsnor
