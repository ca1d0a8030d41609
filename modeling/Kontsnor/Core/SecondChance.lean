/-
Second-chance (clock) replacement, as a policy on its own: no contents, only keys and reference bits.

A queue holds (key, reference bit), oldest first. A key that is present is `touch`ed (its bit is set). A key that is
absent is put at the back with its bit clear, after a full queue has given up one victim. `sweep` is that choice of a
victim in closed form: the first key whose bit is clear, with the keys before it moved to the back and their bits
cleared; if every bit is set, the oldest key.

- `sweep_rotate`: the closed form obeys the rule an implementation runs (front key referenced: clear the bit, move it
  to the back, look again), so a rotation loop that reaches an unreferenced front key computes `sweep`.
- `mem_of_mem_requestAll`: only the keys asked for come in.
-/
import Mathlib.Tactic
import Mathlib.Data.List.TakeWhile

namespace Kontsnor.SecondChance

open List

variable {K : Type} [DecidableEq K] {q : List (K × Bool)}

section

variable (q : List (K × Bool))

abbrev keys : List K := q.map Prod.fst

/-- clear every reference bit -/
def clear : List (K × Bool) := q.map fun e => (e.1, false)

/-- set the reference bit of `k` -/
def touch (k : K) (q : List (K × Bool)) : List (K × Bool) := q.map fun e => if e.1 = k then (e.1, true) else e

/-- the victim and the queue it leaves behind -/
def sweep : Option (K × List (K × Bool)) :=
  match q.dropWhile Prod.snd with
  | e :: post => some (e.1, post ++ clear (q.takeWhile Prod.snd))
  | [] => match q with
    | [] => none
    | e :: rest => some (e.1, clear rest)

end

/-- the queue after a key is asked for, at capacity `cap` -/
def request (cap : ℕ) (k : K) (q : List (K × Bool)) : List (K × Bool) :=
  if k ∈ keys q then touch k q
  else if cap ≤ q.length then ((sweep q).map Prod.snd).getD q ++ [(k, false)]
  else q ++ [(k, false)]

/-- ask for several keys in turn -/
def requestAll (cap : ℕ) (q : List (K × Bool)) (ks : List K) : List (K × Bool) :=
  ks.foldl (fun q k => request cap k q) q

@[simp] theorem touch_keys (k : K) : keys (touch k q) = keys q := by
  simp only [touch, keys, map_map]
  refine map_congr_left fun e _ => ?_
  simp only [Function.comp_apply]; split_ifs <;> rfl

omit [DecidableEq K] in
@[simp] theorem sweep_unreferenced (k : K) : sweep ((k, false) :: q) = some (k, q) := by
  simp [sweep, clear]

omit [DecidableEq K] in
/-- **The rotation rule.** A referenced front key may be moved to the back with its bit cleared: the choice is the
same. -/
theorem sweep_rotate (k : K) : sweep ((k, true) :: q) = sweep (q ++ [(k, false)]) := by
  by_cases hall : ∀ e ∈ q, e.2 = true
  · have h1 : q.dropWhile Prod.snd = [] := dropWhile_eq_nil_iff.2 (by simpa using hall)
    have h2 : q.takeWhile Prod.snd = q := takeWhile_eq_self_iff.2 (by simpa using hall)
    simp [sweep, dropWhile_append, takeWhile_append, h1, h2]
  · have h1 : q.dropWhile Prod.snd ≠ [] := fun h => hall (by simpa using dropWhile_eq_nil_iff.1 h)
    have h2 : (q.takeWhile Prod.snd).length ≠ q.length := by
      intro h
      have hq := congrArg length (takeWhile_append_dropWhile (p := Prod.snd) (l := q))
      rw [length_append] at hq
      exact h1 (length_eq_zero_iff.1 (by omega))
    cases hd : q.dropWhile Prod.snd with
    | nil => exact absurd hd h1
    | cons e post => simp [sweep, dropWhile_append, takeWhile_append, hd, h2, clear]

omit [DecidableEq K] in
/-- a sweep takes out one key and keeps the others, in some order -/
theorem sweep_perm {r : List (K × Bool)} {k : K} (h : sweep q = some (k, r)) : (k :: keys r).Perm (keys q) := by
  unfold sweep at h
  split at h
  · rename_i e post hd
    cases h
    have hq := takeWhile_append_dropWhile (p := Prod.snd) (l := q)
    rw [hd] at hq
    calc (e.1 :: keys (post ++ clear (q.takeWhile Prod.snd)))
        = keys (e :: post) ++ keys (q.takeWhile Prod.snd) := by simp [keys, clear, Function.comp_def]
      _ |>.Perm (keys (q.takeWhile Prod.snd) ++ keys (e :: post)) := perm_append_comm
      _ |>.Perm (keys q) := by rw [keys, keys, ← map_append, hq]
  · split at h
    · cases h
    · cases h; simp [keys, clear, Function.comp_def]

theorem mem_of_mem_request {cap : ℕ} {k x : K} (h : x ∈ keys (request cap k q)) : x = k ∨ x ∈ keys q := by
  unfold request at h
  split_ifs at h with hk hc
  · rw [touch_keys] at h; exact .inr h
  · cases hs : sweep q with
    | none => simpa [hs, keys, or_comm] using h
    | some v =>
      simp only [hs, Option.map_some, Option.getD_some, keys, map_append, mem_append, map_cons,
        map_nil, mem_singleton] at h
      rcases h with h | h
      · exact .inr ((sweep_perm hs).subset (mem_cons_of_mem _ h))
      · exact .inl h
  · simpa [keys, or_comm] using h

theorem mem_of_mem_requestAll {cap : ℕ} {x : K} {ks : List K}
    (h : x ∈ keys (requestAll cap q ks)) : x ∈ ks ∨ x ∈ keys q := by
  induction ks generalizing q with
  | nil => exact .inr h
  | cons k ks ih =>
    rcases ih h with h | h
    · exact .inl (mem_cons_of_mem _ h)
    · rcases mem_of_mem_request h with rfl | h
      · exact .inl mem_cons_self
      · exact .inr h

end Kontsnor.SecondChance
