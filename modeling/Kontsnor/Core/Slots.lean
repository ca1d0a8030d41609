/-
Tables of numbered slots, as a vector of options: a slot is empty, or it holds a value.

`get`, `modify`, `put` and `clear` are what a table is read and written with, and each has its equation for `get`
(`get_modify`, `get_put`, `get_clear`, `get_mapAll`).
-/
import Mathlib.Tactic

namespace Kontsnor

open List

abbrev Slots (α : Type) := List (Option α)

namespace Slots

variable {α : Type} (ts : Slots α)

def get (i : ℕ) : Option α := ts[i]?.join

def modify (ts : Slots α) (i : ℕ) (f : α → α) : Slots α := List.modify ts i (Option.map f)

/-- the table grows to the slot -/
def put (i : ℕ) (a : α) : Slots α := (ts ++ replicate (i + 1 - ts.length) none).set i (some a)

def clear (i : ℕ) : Slots α := ts.set i none

variable (f : α → α)

def mapAll : Slots α := ts.map (Option.map f)

variable {ts : Slots α} {i j : ℕ}

theorem get_modify : get (modify ts i f) j = if j = i then (get ts j).map f else get ts j := by
  rw [get, modify, List.getElem?_modify]
  by_cases h : i = j
  · subst h
    rw [if_pos rfl, get]
    cases ts[i]? with
    | none => simp
    | some slot => cases slot <;> simp
  · rw [if_neg (Ne.symm h), get]
    cases ts[j]? <;> simp [h]

theorem modify_modify (f g : α → α) : modify (modify ts i f) i g = modify ts i (g ∘ f) := by
  rw [modify, modify, List.modify_modify_eq, Option.map_comp_map]
  rfl

theorem get_put {a : α} : get (put ts i a) j = if j = i then some a else get ts j := by
  rw [get, put, getElem?_set]
  by_cases h : i = j
  · subst h
    have hlt : i < (ts ++ replicate (i + 1 - ts.length) (none : Option α)).length := by
      rw [length_append, length_replicate]
      omega
    rw [if_pos rfl, if_pos hlt, if_pos rfl]
    rfl
  · rw [if_neg h, if_neg (Ne.symm h), get]
    by_cases hj : j < ts.length
    · rw [getElem?_append_left hj]
    · rw [getElem?_append_right (Nat.not_lt.1 hj), getElem?_eq_none (Nat.not_lt.1 hj)]
      rw [getElem?_replicate]
      split_ifs <;> rfl

theorem get_clear : get (clear ts i) j = if j = i then none else get ts j := by
  rw [get, clear, getElem?_set]
  by_cases h : i = j
  · subst h
    split_ifs <;> rfl
  · rw [if_neg h, if_neg (Ne.symm h)]
    rfl

theorem get_mapAll : get (mapAll ts f) j = (get ts j).map f := by
  rw [get, mapAll, getElem?_map, get]
  cases ts[j]? with
  | none => rfl
  | some slot => cases slot <;> rfl

end Slots

end Kontsnor
