/-
Frames of signal handlers: the end of `handle_pending_signals` in `syscall/signal.rs`.

A handler runs on the stack of the code that it interrupts, or on the alternate stack if its action asks for that, one is set, and
the interrupted code is not on it already. The stack pointer tells that, so a handler that has left the alternate stack is
interrupted by another one at its top.

Left out: the contents of frames, signals without a handler, and `sys_sigaltstack` but for what it accepts.
-/
import Mathlib.Tactic

namespace Kontsnor.Process

/-! ## Model -/

/-- an alternate stack, as `sys_sigaltstack` accepts it -/
structure StackT where
  ssSp : BitVec 64
  ssSize : BitVec 64
  /-- SS_DISABLE, the only flag -/
  disabled : Bool
  large : disabled = false → 2048 ≤ ssSize.toNat

namespace StackT

variable (alt : StackT)

def top : ℕ := (alt.ssSp + alt.ssSize).toNat

def contains (sp : ℕ) : Bool := alt.ssSp.toNat ≤ sp && sp < alt.top

end StackT

/-- the size of `RtSigFrame` -/
def FRAME_SIZE : ℕ := 952

/-- the bytes below the stack pointer that belong to the interrupted code -/
def RED_ZONE : ℕ := 128

def newUserSp (userSp : ℕ) : ℕ := (userSp - FRAME_SIZE) / 16 * 16 - 8

/-- a task in user mode -/
structure UserStack where
  rsp : ℕ
  sigaltstack : Option StackT
  /-- the addresses of the frames of handlers that have not returned -/
  frames : List ℕ

namespace UserStack

variable (t : UserStack)

/-- the alternate stack, if the handler has to switch to it -/
def switchesTo (onStack : Bool) : Option StackT :=
  t.sigaltstack.filter fun alt => onStack && !alt.disabled && !alt.contains t.rsp

def frameAddr (onStack : Bool) : ℕ := newUserSp ((t.switchesTo onStack).elim t.rsp StackT.top)

/-- the handler is called, if its frame can be written; `onStack` is SA_ONSTACK of its action -/
def deliver (onStack : Bool) (valid : ℕ → Bool) : Option UserStack :=
  let addr := t.frameAddr onStack
  if valid addr then some { t with rsp := addr, frames := addr :: t.frames } else none

/-! ## Places of frames -/

def Overlap (a b : ℕ) : Prop := a < b + FRAME_SIZE ∧ b < a + FRAME_SIZE

/-- the frame at `addr` is below the red zone if the stack is the current one, inside the alternate stack if that is in use, and
apart from the other frames there; and it has the alignment that a function expects -/
structure Lands (onStack : Bool) (addr : ℕ) : Prop where
  current : t.switchesTo onStack = none → addr + FRAME_SIZE + RED_ZONE ≤ t.rsp
  inside : ∀ alt ∈ t.sigaltstack, onStack = true → alt.disabled = false →
    alt.ssSp.toNat ≤ addr ∧ addr + FRAME_SIZE ≤ alt.ssSp.toNat + alt.ssSize.toNat ∧ ∀ f ∈ t.frames, ¬Overlap f addr
  aligned : addr % 16 = 8

/-- the handler switches to an alternate stack that ends inside the address space, with no frame at its top -/
def FreshStack (onStack : Bool) : Prop :=
  ∃ alt ∈ t.switchesTo onStack, alt.ssSp.toNat + alt.ssSize.toNat < 2 ^ 64 ∧ ∀ f ∈ t.frames, ¬Overlap f (newUserSp alt.top)

variable {t} {onStack : Bool}

theorem not_lands_current (h : t.switchesTo onStack = none) : ¬t.Lands onStack (t.frameAddr onStack) := by
  intro hl
  have hlow := hl.current h
  rw [frameAddr, h, Option.elim_none, newUserSp, FRAME_SIZE, RED_ZONE] at hlow
  omega

theorem lands_iff_of_switches {alt : StackT} (h : t.switchesTo onStack = some alt) :
    t.Lands onStack (newUserSp alt.top) ↔
      alt.ssSp.toNat + alt.ssSize.toNat < 2 ^ 64 ∧ ∀ f ∈ t.frames, ¬Overlap f (newUserSp alt.top) := by
  obtain ⟨halt, hcond⟩ := Option.filter_eq_some_iff.1 h
  simp only [Bool.and_eq_true, Bool.not_eq_true'] at hcond
  obtain ⟨⟨hon, hdis⟩, -⟩ := hcond
  have hlarge := alt.large hdis
  have hsize := alt.ssSize.isLt
  have htop : alt.top = (alt.ssSp.toNat + alt.ssSize.toNat) % 2 ^ 64 := BitVec.toNat_add _ _
  have haddr : newUserSp alt.top = (alt.top - 952) / 16 * 16 - 8 := rfl
  constructor
  · intro hl
    obtain ⟨hlow, -, hap⟩ := hl.inside alt halt hon hdis
    exact ⟨by omega, hap⟩
  · rintro ⟨hlt, hap⟩
    rw [Nat.mod_eq_of_lt hlt] at htop
    refine ⟨fun hnone => ?_, fun alt' halt' _ _ => ?_, by omega⟩
    · rw [h] at hnone
      cases hnone
    · cases halt.symm.trans halt'
      rw [FRAME_SIZE]
      exact ⟨by omega, by omega, hap⟩

/-- **A frame lands in free stack space** exactly if it is the first one on an alternate stack. -/
theorem frame_lands_iff (t : UserStack) (onStack : Bool) (valid : ℕ → Bool) :
    (∀ t' ∈ t.deliver onStack valid, t.Lands onStack t'.rsp) ↔ (valid (t.frameAddr onStack) = true → t.FreshStack onStack) := by
  have hdel : (∀ t' ∈ t.deliver onStack valid, t.Lands onStack t'.rsp) ↔
      (valid (t.frameAddr onStack) = true → t.Lands onStack (t.frameAddr onStack)) := by
    rw [deliver]
    split_ifs with hv
    · simp [hv]
    · simp [hv]
  rw [hdel]
  refine imp_congr_right fun _ => ?_
  cases hsw : t.switchesTo onStack with
  | none =>
    refine iff_of_false (not_lands_current hsw) ?_
    rintro ⟨alt, halt, -⟩
    rw [hsw] at halt
    cases halt
  | some alt =>
    rw [frameAddr, hsw, Option.elim_some, lands_iff_of_switches hsw]
    simp [FreshStack, hsw]

/-- a handler on the current stack, and one on an alternate stack that another handler has left -/
theorem frame_lands_on_data : (∃ t', (UserStack.mk 0x10000 none []).deliver false (fun _ => true) = some t' ∧
      ¬(UserStack.mk 0x10000 none []).Lands false t'.rsp) ∧
    ∃ t1 t2, (UserStack.mk 0x10000 (some ⟨0x20000, 0x1000, false, by decide⟩) []).deliver true (fun _ => true) = some t1 ∧
      UserStack.deliver { t1 with rsp := 0x10000 } true (fun _ => true) = some t2 ∧
        ¬UserStack.Lands { t1 with rsp := 0x10000 } true t2.rsp := by
  refine ⟨⟨_, rfl, not_lands_current rfl⟩, _, _, rfl, rfl, fun h => ?_⟩
  exact (h.inside _ rfl rfl rfl).2.2 _ (.head _) ⟨by decide, by decide⟩

end UserStack

end Kontsnor.Process
