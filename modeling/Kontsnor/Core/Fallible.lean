/-
Symbolic execution of fallible stateful code.

A call in `EStateM ε σ` returns a value or an error and keeps the state it reached. The lemmas step through a `do`
block one call at a time, forwards (`bind_ok`) or backwards from the result (`bind_eq_ok`), so that proofs about a method
never unfold the monad. `forEach` is a loop over a list; `forEach_returns` is the rule that it returns.

`Maintains I E x Q`: from a state in `I` the call `x` returns to `I` with a result in `Q`, or fails with an error in `E`. There
is one rule for each way to put calls together.
-/
import Mathlib.Tactic

namespace Kontsnor.Fallible

variable {ε σ α β : Type}

@[simp] theorem get_bind (f : σ → EStateM ε σ α) (s : σ) : (get >>= f) s = f s s := rfl

@[simp] theorem modify_bind (g : σ → σ) (f : Unit → EStateM ε σ α) (s : σ) : (modify g >>= f) s = f () (g s) := rfl

@[simp] theorem pure_apply (a : α) (s : σ) : (pure a : EStateM ε σ α) s = .ok a s := rfl

variable {x : EStateM ε σ α} {a : α} {r : EStateM.Result ε σ α} {s : σ}

theorem bind_ok {s' : σ} (h : x s = .ok a s') (f : α → EStateM ε σ β) : (x >>= f) s = f a s' := by
  simp only [bind, EStateM.bind, h]

theorem bind_error {s' : σ} {e : ε} (h : x s = .error e s') (f : α → EStateM ε σ β) : (x >>= f) s = .error e s' := by
  simp only [bind, EStateM.bind, h]

/-- a sequence that returns: its first call did, and the rest from the state it left -/
theorem bind_eq_ok {f : α → EStateM ε σ β} {s'' : σ} {b : β} (h : (x >>= f) s = .ok b s'') :
    ∃ a s', x s = .ok a s' ∧ f a s' = .ok b s'' := by
  cases hr : x s with
  | error e s' => rw [bind_error hr] at h; cases h
  | ok a s' => exact ⟨a, s', rfl, (bind_ok hr f).symm.trans h⟩

/-- a `for` loop over a list -/
def forEach (f : α → EStateM ε σ Unit) : List α → EStateM ε σ Unit
  | [] => pure ()
  | a :: rest => do
    f a
    forEach f rest

/-- a loop whose body returns wherever an invariant holds, and keeps the invariant -/
theorem forEach_returns {f : α → EStateM ε σ Unit} {I : σ → Prop} {l : List α}
    (h : ∀ a ∈ l, ∀ s, I s → ∃ s', f a s = .ok () s' ∧ I s') : ∀ s, I s → ∃ s', forEach f l s = .ok () s' ∧ I s' := by
  induction l with
  | nil => exact fun s hs => ⟨s, rfl, hs⟩
  | cons a l ih =>
    intro s hs
    obtain ⟨s1, hr, hs1⟩ := h a List.mem_cons_self s hs
    obtain ⟨s2, hr', hs2⟩ := ih (fun b hb => h b (List.mem_cons_of_mem _ hb)) s1 hs1
    exact ⟨s2, by rw [forEach, bind_ok hr, hr'], hs2⟩

/-- the value a call returned, if it returned one -/
def value : EStateM.Result ε σ α → Option α
  | .ok a _ => some a
  | .error _ _ => none

/-- the state a call reached, whether it failed or not -/
def final : EStateM.Result ε σ α → σ
  | .ok _ s => s
  | .error _ s => s

section

variable (x : EStateM ε σ α)

/-- the call is made and its outcome dropped -/
def ignore : EStateM ε σ Unit := fun s => .ok () (final (x s))

/-- the call is made; did it return? -/
def succeeds : EStateM ε σ Bool := fun s => .ok (value (x s)).isSome (final (x s))

/-- the value that the call returns, if it does -/
def attempt : EStateM ε σ (Option α) := fun s =>
  match x s with
  | .ok a s => .ok (some a) s
  | .error _ s => .ok none s

end

theorem value_of_ok (h : r = .ok a s) : value r = some a := by rw [h]; rfl

theorem ok_of_value (h : value r = some a) : r = .ok a (final r) := by
  cases r with
  | ok b s => cases h; rfl
  | error e s => cases h

/-! ## Invariants -/

/-- from a state in `I`, the call ends in `I` with a result in `Q`, or fails with an error and a state in `E` -/
def Maintains (I : σ → Prop) (E : ε → σ → Prop) (x : EStateM ε σ α) (Q : α → Prop) : Prop :=
  ∀ s, I s → match x s with
    | .ok a s' => I s' ∧ Q a
    | .error e s' => E e s'

namespace Maintains

variable {I : σ → Prop} {E : ε → σ → Prop} {x : EStateM ε σ α} {Q Q' : α → Prop} {f : α → EStateM ε σ β} {R : β → Prop}

theorem bind (hx : Maintains I E x Q) (hf : ∀ a, Q a → Maintains I E (f a) R) : Maintains I E (x >>= f) R := by
  intro s hs
  have h := hx s hs
  cases hr : x s with
  | error e s' =>
    rw [hr] at h
    rw [bind_error hr]
    exact h
  | ok a s' =>
    rw [hr] at h
    rw [bind_ok hr]
    exact hf a h.2 s' h.1

theorem pure (h : Q a) : Maintains I E (pure a) Q := fun _ hs => ⟨hs, h⟩

theorem drop {g : α → β} (hx : Maintains I E x Q) : Maintains I E (x >>= fun a => .pure (g a)) fun _ => True :=
  hx.bind fun _ _ => pure trivial

theorem ite {c : Prop} [Decidable c] {y : EStateM ε σ α} (hx : c → Maintains I E x Q) (hy : ¬c → Maintains I E y Q) :
    Maintains I E (if c then x else y) Q := by
  split_ifs with hc
  · exact hx hc
  · exact hy hc

theorem fail {e : ε} : Maintains I (fun _ : ε => I) (throw e) Q := fun _ hs => hs

/-- a check that may end the call -/
theorem check {c : Prop} [Decidable c] {e : ε} (hx : ¬c → Maintains I (fun _ => I) x Q) :
    Maintains I (fun _ => I) (if c then throw e else x) Q := ite (fun _ => fail) hx

theorem throw {e : ε} (h : ∀ s, I s → E e s) : Maintains I E (throw e) Q := h

theorem get {g : σ → EStateM ε σ β} (h : ∀ s, I s → Maintains I E (g s) R) : Maintains I E (get >>= g) R :=
  fun s hs => h s hs s hs

theorem modify {g : σ → σ} (h : ∀ s, I s → I (g s)) : Maintains I E (modify g) fun _ => True :=
  fun s hs => ⟨h s hs, trivial⟩

theorem mono (hx : Maintains I E x Q) (h : ∀ a, Q a → Q' a) : Maintains I E x Q' := by
  intro s hs
  have hr := hx s hs
  cases hxs : x s with
  | error e s' => rw [hxs] at hr; exact hr
  | ok a s' => rw [hxs] at hr; exact ⟨hr.1, h a hr.2⟩

/-- an early return -/
theorem early {c : Prop} [Decidable c] (ha : Q a) (hx : ¬c → Maintains I E x Q) : Maintains I E (if c then .pure a else x) Q :=
  ite (fun _ => pure ha) hx

theorem ok (hx : Maintains I E x Q) {s' : σ} (hs : I s) (hr : x s = .ok a s') : I s' ∧ Q a := by
  have h := hx s hs
  rwa [hr] at h

end Maintains

/-- the invariant holds at the end, whether the call fails or not -/
abbrev Keeps (I : σ → Prop) (x : EStateM ε σ α) (Q : α → Prop) : Prop := Maintains I (fun _ => I) x Q

/-- the same, whatever the call returns -/
abbrev Respects (I : σ → Prop) (x : EStateM ε σ α) : Prop := Keeps I x fun _ => True

variable {I : σ → Prop}

theorem Maintains.forEach {E : ε → σ → Prop} {f : α → EStateM ε σ Unit} {l : List α}
    (h : ∀ a ∈ l, Maintains I E (f a) fun _ => True) : Maintains I E (forEach f l) fun _ => True := by
  induction l with
  | nil => exact Maintains.pure trivial
  | cons a l ih =>
    refine (h a List.mem_cons_self).bind fun _ _ => ?_
    exact ih fun b hb => h b (List.mem_cons_of_mem a hb)

variable {Q : α → Prop}

section

variable (h : Keeps I x Q)
include h

theorem Keeps.outcome (hs : I s) : I (Fallible.final (x s)) ∧ ∀ a ∈ value (x s), Q a := by
  have hr := h s hs
  cases hx : x s with
  | ok a s' =>
    rw [hx] at hr
    refine ⟨hr.1, ?_⟩
    rintro b hb
    cases hb
    exact hr.2
  | error e s' =>
    rw [hx] at hr
    exact ⟨hr, nofun⟩

theorem Keeps.final (hs : I s) : I (Fallible.final (x s)) := (h.outcome hs).1

theorem Keeps.ignore : Respects I (ignore x) :=
  fun _ hs => ⟨h.final hs, trivial⟩

theorem Keeps.succeeds : Respects I (succeeds x) :=
  fun _ hs => ⟨h.final hs, trivial⟩

theorem Keeps.attempt : Keeps I (attempt x) fun r => ∀ a ∈ r, Q a := by
  intro s hs
  have hr := h.outcome hs
  unfold Fallible.attempt
  cases hx : x s with
  | error e s' =>
    rw [hx] at hr
    exact hr
  | ok a s' =>
    rw [hx] at hr
    exact hr

end

end Kontsnor.Fallible
