/-
CPUs that take and drop locks.

A call is the sequence of its acquisitions and releases; `program` gives it. A lock is exclusive or shared, and a CPU that cannot
have it spins. A call may return at any time, and then drops what it holds.

`no_deadlock`: if the calls of a run take locks in descending order of some rank, then no set of CPUs is waiting for locks that
others of the set hold.
-/
import Kontsnor.Core.Runs

namespace Kontsnor.LockOrder

open Runs Function List

variable {Lock α ι : Type} [DecidableEq Lock]

inductive Instr (Lock : Type)
  | take (shared : Bool) (l : Lock)
  | drop (l : Lock)

structure Cpu (Lock : Type) where
  held : List (Bool × Lock)
  rest : List (Instr Lock)

variable (s : ι → Cpu Lock)

/-- nobody holds the lock, or all share it -/
def Available (shared : Bool) (l : Lock) : Prop :=
  ∀ c, ∀ h ∈ (s c).held, h.2 = l → shared = true ∧ h.1 = true

instance [Fintype ι] (s : ι → Cpu Lock) (shared : Bool) (l : Lock) : Decidable (Available s shared l) := by
  unfold Available
  infer_instance

inductive Event (α ι : Type)
  | call (c : ι) (call : α)
  | advance (c : ι)
  /-- the call returns early -/
  | abandon (c : ι)

def step [Fintype ι] [DecidableEq ι] (program : α → List (Instr Lock)) (s : ι → Cpu Lock) : Event α ι → ι → Cpu Lock
  | .call c call => if (s c).rest = [] then update s c ⟨(s c).held, program call⟩ else s
  | .advance c =>
    match (s c).rest with
    | .take shared l :: rest => if Available s shared l then update s c ⟨(shared, l) :: (s c).held, rest⟩ else s
    | .drop l :: rest => update s c ⟨(s c).held.filter fun h => h.2 ≠ l, rest⟩
    | [] => s
  | .abandon c => update s c ⟨(s c).held, (s c).held.map fun h => .drop h.2⟩

def idle : ι → Cpu Lock := fun _ => ⟨[], []⟩

/-- `c'` holds the lock that `c` is about to take; one reader waits for another where a writer is in between -/
def WaitsFor (c c' : ι) : Prop :=
  ∃ shared l rest, (s c).rest = .take shared l :: rest ∧ ∃ h ∈ (s c').held, h.2 = l

def Deadlock : Prop := ∃ S : Set ι, S.Nonempty ∧ ∀ c ∈ S, ∃ c' ∈ S, c' ≠ c ∧ WaitsFor s c c'

/-! ## The order -/

variable {rank : Lock → ℕ} {held : List (Bool × Lock)} {p q : List (Instr Lock)}

/-- every lock is taken below those that are held, and all are dropped in the end -/
def Ordered (rank : Lock → ℕ) : List (Bool × Lock) → List (Instr Lock) → Prop
  | held, [] => held = []
  | held, .take shared l :: p => (∀ h ∈ held, rank l < rank h.2) ∧ Ordered rank ((shared, l) :: held) p
  | held, .drop l :: p => Ordered rank (held.filter fun h => h.2 ≠ l) p

theorem Ordered.append (hp : Ordered rank held p) (hq : Ordered rank [] q) : Ordered rank held (p ++ q) := by
  induction p generalizing held with
  | nil =>
    obtain rfl : held = [] := hp
    exact hq
  | cons i p ih =>
    cases i with
    | take shared l => exact ⟨hp.1, ih hp.2⟩
    | drop l => exact ih hp

theorem ordered_drops {ls : List (Bool × Lock)} (h : ∀ x ∈ held, x ∈ ls) :
    Ordered rank held (ls.map fun h => .drop h.2) := by
  induction ls generalizing held with
  | nil => exact eq_nil_iff_forall_not_mem.2 fun x hx => not_mem_nil (h x hx)
  | cons l ls ih =>
    refine ih fun x hx => ?_
    obtain ⟨hx, hne⟩ := mem_filter.1 hx
    refine (mem_cons.1 (h x hx)).resolve_left ?_
    rintro rfl
    exact of_decide_eq_true hne rfl

/-! ## Runs -/

/-- every CPU goes through the rest of a call in order -/
def Inv (rank : Lock → ℕ) (s : ι → Cpu Lock) : Prop := ∀ c, Ordered rank (s c).held (s c).rest

variable {program : α → List (Instr Lock)} {s : ι → Cpu Lock}

theorem Inv.update [DecidableEq ι] (h : Inv rank s) {c : ι} (hp : Ordered rank held p) : Inv rank (update s c ⟨held, p⟩) := by
  intro c'
  by_cases hc : c' = c
  · rw [hc, update_self]
    exact hp
  · rw [update_of_ne hc]
    exact h c'

/-- who waits for a lock of a CPU that waits itself waits for one of a higher rank -/
theorem Inv.no_deadlock (h : Inv rank s) : ¬Deadlock s := by
  rintro ⟨S, ⟨c, hc⟩, hS⟩
  have hwaits : ∀ n, ∀ c ∈ S, ∀ shared l rest, (s c).rest = .take shared l :: rest → rank l ≠ n := by
    intro n
    induction n using Nat.strongRecOn with
    | ind n ih =>
      rintro c hc shared l rest hrest rfl
      obtain ⟨c', hc', -, _, _, _, hrest', x, hx, rfl⟩ := hS c hc
      obtain ⟨-, -, -, shared', l', rest'', hnext, -⟩ := hS c' hc'
      cases hrest.symm.trans hrest'
      have hord := h c'
      rw [hnext] at hord
      exact ih (rank l') (hord.1 x hx) c' hc' shared' l' rest'' hnext rfl
  obtain ⟨-, -, -, shared, l, rest, hrest, -⟩ := hS c hc
  exact hwaits (rank l) c hc shared l rest hrest rfl

variable [Fintype ι] [DecidableEq ι]

/-- **Step.** -/
theorem inv_step {e : Event α ι} (h : Inv rank s)
    (he : ∀ c call, e = .call c call → Ordered rank [] (program call)) : Inv rank (step program s e) := by
  cases e with
  | call c call =>
    rw [step]
    split_ifs with hrest
    · have hheld : (s c).held = [] := by
        have hord := h c
        rwa [hrest] at hord
      rw [hheld]
      exact h.update (he c call rfl)
    · exact h
  | advance c =>
    have hord := h c
    rw [step]
    split
    next shared l rest hrest =>
      rw [hrest] at hord
      split_ifs
      · exact h.update hord.2
      · exact h
    next l rest hrest =>
      rw [hrest] at hord
      exact h.update hord
    next => exact h
  | abandon c => exact h.update (ordered_drops fun _ hx => hx)

/-- **No deadlock.** -/
theorem no_deadlock {events : List (Event α ι)}
    (h : ∀ c call, .call c call ∈ events → Ordered rank [] (program call)) : ¬Deadlock (run (step program) idle events) := by
  have hrun : Inv rank (run (step program) idle events) := by
    refine foldlRecOn events _ (fun _ => rfl) fun s hs e he => inv_step hs fun c call heq => h c call ?_
    rw [← heq]
    exact he
  exact hrun.no_deadlock

end Kontsnor.LockOrder
