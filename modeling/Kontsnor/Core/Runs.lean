/-
Runs of a system that takes one step after the other.

`run step s es` is the state after the events `es`; an event that is not enabled leaves the state as it is. `Each step C s
es`: every event meets the condition `C` in the state it happens in.

`invariant`: what holds at the start, and is kept by every step that meets `C`, holds after every run that does;
`each_of_invariant` is the same for a condition on steps, and `each_iff` compares two of them.
-/
import Mathlib.Tactic

namespace Kontsnor.Runs

variable {σ ε : Type} (step : σ → ε → σ)

def run (s : σ) (es : List ε) : σ := es.foldl step s

def Each (C : σ → ε → Prop) : σ → List ε → Prop
  | _, [] => True
  | s, e :: es => C s e ∧ Each C (step s e) es

instance decidableEach (C : σ → ε → Prop) [∀ s e, Decidable (C s e)] : ∀ s es, Decidable (Each step C s es)
  | _, [] => isTrue trivial
  | s, e :: es =>
    have := decidableEach C (step s e) es
    inferInstanceAs (Decidable (C s e ∧ Each step C (step s e) es))

variable {step}

variable {s : σ} {es : List ε} {C : σ → ε → Prop} {I : σ → Prop}

theorem Each.mono {C' : σ → ε → Prop} (hC : ∀ s e, C s e → C' s e) (h : Each step C s es) : Each step C' s es := by
  induction es generalizing s with
  | nil => trivial
  | cons e es ih => exact ⟨hC s e h.1, ih h.2⟩

theorem Each.and {D : σ → ε → Prop} (h : Each step C s es) (h' : Each step D s es) :
    Each step (fun s e => C s e ∧ D s e) s es := by
  induction es generalizing s with
  | nil => trivial
  | cons e es ih => exact ⟨⟨h.1, h'.1⟩, ih h.2 h'.2⟩

theorem run_append (s : σ) (es es' : List ε) : run step s (es ++ es') = run step (run step s es) es' :=
  List.foldl_append

theorem run_concat (e : ε) : run step s (es ++ [e]) = step (run step s es) e := run_append s es [e]

theorem each_append {es' : List ε} :
    Each step C s (es ++ es') ↔ Each step C s es ∧ Each step C (run step s es) es' := by
  induction es generalizing s with
  | nil => exact (true_and _).symm.to_iff
  | cons e es ih =>
    change C s e ∧ Each step C (step s e) (es ++ es') ↔ _
    rw [ih, ← and_assoc]
    rfl

section

variable (hstep : ∀ s e, I s → C s e → I (step s e))
include hstep

theorem invariant
    (h : I s) (hC : Each step C s es) : I (run step s es) := by
  induction es generalizing s with
  | nil => exact h
  | cons e es ih =>
    apply ih (hstep s e h hC.1)
    exact hC.2

/-- what the invariant gives for a step holds for every step of a run -/
theorem each_of_invariant {D : σ → ε → Prop}
    (hD : ∀ s e, I s → C s e → D s e) (h : I s) (hC : Each step C s es) : Each step D s es := by
  induction es generalizing s with
  | nil => trivial
  | cons e es ih =>
    refine ⟨hD s e h hC.1, ?_⟩
    apply ih (hstep s e h hC.1)
    exact hC.2

end

/-- two conditions that agree wherever the invariant holds, which is kept where the first is met, agree on runs -/
theorem each_iff {L C' : σ → ε → Prop} (hiff : ∀ s e, I s → L s e → (C s e ↔ C' s e))
    (hstep : ∀ s e, I s → L s e → C s e → I (step s e)) (h : I s) (hL : Each step L s es) :
    Each step C s es ↔ Each step C' s es := by
  induction es generalizing s with
  | nil => exact Iff.rfl
  | cons e es ih =>
    constructor
    · rintro ⟨hC, hes⟩
      exact ⟨(hiff s e h hL.1).1 hC, (ih (hstep s e h hL.1 hC) hL.2).1 hes⟩
    · rintro ⟨hC', hes⟩
      have hC := (hiff s e h hL.1).2 hC'
      exact ⟨hC, (ih (hstep s e h hL.1 hC) hL.2).2 hes⟩

end Kontsnor.Runs
