/-
Pids (`process/pid.rs`): a counter hands them out, while the idle tasks have fixed ones.

The counter starts at 2 and is never set back; `scheduler::init` gives the idle task of CPU `i` the pid 900 + i. So the
899th allocation hands out the pid of an idle task, and `add_task` replaces it in the table.

A system is the kernel, the counter, and the pids that were handed out and are not in use yet: between `allocate` and
`add_task` anything may happen.

**Main result.** `adds_fresh_iff`.
-/
import Kontsnor.Process.Exclusion

namespace Kontsnor.Process

open Runs Kernel List Option Nat

/-! ## The counter -/

def FIRST_PID : ℕ := 2

structure Pids (n : ℕ) where
  kernel : Kernel (Fin n)
  nextPid : ℕ
  /-- handed out, and not given to a task yet -/
  allocated : List ℕ

namespace Pids

variable {n : ℕ} {s : Pids n} {k : Kernel (Fin n)}

section

variable (s : Pids n)

/-- `fetch_add` on a 64-bit counter -/
def allocate : ℕ × Pids n :=
  (s.nextPid, { s with nextPid := (s.nextPid + 1) % 2 ^ 64, allocated := s.nextPid :: s.allocated })

/-- `process::init`: the boot thread is a task with the first pid -/
def init (n : ℕ) (c : Fin n) : Pids n where
  kernel := (Kernel.init n).setBootstrapThread c (Task.new FIRST_PID)
  nextPid := FIRST_PID + 1
  allocated := []

inductive Event (n : ℕ)
  | allocate
  /-- `add_task` with a pid from `allocate` -/
  | addTask (task : Task)
  /-- the init process, which has a pid of its own -/
  | spawnInit (task : Task)
  /-- any other critical section of the scheduler -/
  | other (e : Kernel.Event (Fin n))

def step : Event n → Pids n
  | .allocate => s.allocate.2
  | .addTask task => { s with kernel := s.kernel.addTask task, allocated := s.allocated.erase task.pid }
  | .spawnInit task => { s with kernel := s.kernel.addTask task }
  | .other e => { s with kernel := s.kernel.step e }

/-- the pid of an idle task -/
def ForIdle (n pid : ℕ) : Prop := ∃ i : Fin n, pid = idlePid i

theorem forIdle_iff (n pid : ℕ) : ForIdle n pid ↔ 900 ≤ pid ∧ pid < 900 + n := by
  constructor
  · rintro ⟨i, rfl⟩
    exact ⟨Nat.le_add_right _ _, Nat.add_lt_add_left i.isLt _⟩
  · rintro ⟨hle, hlt⟩
    exact ⟨⟨pid - 900, by omega⟩, (add_sub_of_le hle).symm⟩

instance (n pid : ℕ) : Decidable (ForIdle n pid) := decidable_of_iff _ (forIdle_iff n pid).symm

/-- a task is given a pid that was handed out, once; the counter does not wrap; idle tasks do not exit -/
def Legal : Event n → Prop
  | .allocate => s.nextPid + 1 < 2 ^ 64
  | .addTask task => task.pid ∈ s.allocated
  | .spawnInit task => task.pid = INIT
  | .other (.addTask _) => False
  | .other (.reap pid) => ¬ForIdle n pid
  | .other _ => True

/-- `add_task` finds no task with the pid -/
def Unused : Event n → Prop
  | .addTask task => s.kernel.task task.pid = none
  | _ => True

/-- the pid is not that of an idle task -/
def NotIdle (_ : Pids n) : Event n → Prop
  | .addTask task => ¬ForIdle n task.pid
  | _ => True

instance : (e : Event n) → Decidable (Legal s e)
  | .allocate => inferInstanceAs (Decidable (s.nextPid + 1 < 2 ^ 64))
  | .addTask task => inferInstanceAs (Decidable (task.pid ∈ s.allocated))
  | .spawnInit task => inferInstanceAs (Decidable (task.pid = INIT))
  | .other (.addTask _) => isFalse id
  | .other (.reap pid) => inferInstanceAs (Decidable (¬ForIdle n pid))
  | .other (.schedule ..) | .other (.postContextSwitch _) | .other (.tick ..) | .other (.wakeTask _)
  | .other (.blockTask _) | .other (.exitTask ..) => isTrue trivial

instance : (e : Event n) → Decidable (Unused s e)
  | .addTask task => inferInstanceAs (Decidable (s.kernel.task task.pid = none))
  | .allocate | .spawnInit _ | .other _ => isTrue trivial

instance : (e : Event n) → Decidable (NotIdle s e)
  | .addTask task => inferInstanceAs (Decidable (¬ForIdle n task.pid))
  | .allocate | .spawnInit _ | .other _ => isTrue trivial

end

/-! ## Invariant -/

structure Counted (s : Pids n) : Prop where
  range : ∀ pid ∈ s.allocated, FIRST_PID ≤ pid ∧ pid < s.nextPid
  once : s.allocated.Nodup
  idle : ∀ i : Fin n, (s.kernel.slot (idlePid i)).isSome
  known : ∀ pid, (s.kernel.slot pid).isSome → ForIdle n pid ∨ pid = INIT ∨ pid < s.nextPid ∧ pid ∉ s.allocated
  next : FIRST_PID ≤ s.nextPid

theorem Counted.unused_iff (hs : Counted s) {e : Event n} (he : Legal s e) : Unused s e ↔ NotIdle s e := by
  cases e with
  | addTask task =>
    constructor
    · rintro hnone ⟨i, hpid⟩
      have hsome := hs.idle i
      rw [← hpid, slot, hnone] at hsome
      cases hsome
    · intro hidle
      by_contra hsome
      have hslot : (s.kernel.slot task.pid).isSome := by
        rw [slot, isSome_map]
        exact isSome_iff_ne_none.2 hsome
      rcases hs.known task.pid hslot with hfor | hinit | ⟨_, hout⟩
      · exact hidle hfor
      · have hrange := (hs.range task.pid he).1
        rw [hinit] at hrange
        exact absurd hrange (by decide)
      · exact hout he
  | allocate => exact Iff.rfl
  | spawnInit task => exact Iff.rfl
  | other e => exact Iff.rfl

theorem slot_addTask_isSome {task : Task} {pid : ℕ} :
    ((k.addTask task).slot pid).isSome ↔ pid = task.pid ∨ (k.slot pid).isSome := by
  rw [slot, task_addTask]
  split_ifs with h
  · exact iff_of_true rfl (.inl h)
  · exact (or_iff_right h).symm

theorem slot_reap_isSome {reaped pid : ℕ} : ((k.reap reaped).slot pid).isSome ↔ pid ≠ reaped ∧ (k.slot pid).isSome := by
  rw [slot, task_reap]
  split_ifs with h
  · exact iff_of_false (fun h' => by cases h') fun h' => h'.1 h
  · exact (and_iff_right h).symm

theorem Counted.allocate (hs : Counted s) (hwrap : s.nextPid + 1 < 2 ^ 64) : Counted s.allocate.2 := by
  have hnext : s.allocate.2.nextPid = s.nextPid + 1 := mod_eq_of_lt hwrap
  refine ⟨fun pid hmem => ?_, ?_, hs.idle, fun pid hslot => ?_, ?_⟩
  · rw [hnext]
    rcases mem_cons.1 hmem with rfl | hmem'
    · exact ⟨hs.next, lt_succ_self _⟩
    · have := hs.range pid hmem'
      omega
  · refine nodup_cons.2 ⟨fun hmem => ?_, hs.once⟩
    exact absurd (hs.range _ hmem).2 (lt_irrefl _)
  · rw [hnext]
    rcases hs.known pid hslot with hidle | hinit | ⟨hlt, hout⟩
    · exact .inl hidle
    · exact .inr (.inl hinit)
    · refine .inr (.inr ⟨lt_succ_of_lt hlt, fun hmem => ?_⟩)
      rcases mem_cons.1 hmem with heq | hmem'
      · exact absurd (heq ▸ hlt) (lt_irrefl _)
      · exact hout hmem'
  · rw [hnext]
    exact le_succ_of_le hs.next

theorem Counted.addTask (hs : Counted s) {task : Task} (hpid : task.pid ∈ s.allocated) :
    Counted (s.step (.addTask task)) := by
  refine ⟨fun pid hmem => hs.range pid (mem_of_mem_erase hmem), hs.once.erase _, fun i => ?_, fun pid hslot => ?_,
    hs.next⟩
  · exact slot_addTask_isSome.2 (.inr (hs.idle i))
  · rcases slot_addTask_isSome.1 hslot with rfl | hslot'
    · exact .inr (.inr ⟨(hs.range _ hpid).2, hs.once.not_mem_erase⟩)
    · rcases hs.known pid hslot' with hidle | hinit | ⟨hlt, hout⟩
      · exact .inl hidle
      · exact .inr (.inl hinit)
      · exact .inr (.inr ⟨hlt, fun hmem => hout (mem_of_mem_erase hmem)⟩)

theorem Counted.other (hs : Counted s)
    (hidle : ∀ i : Fin n, (k.slot (idlePid i)).isSome)
    (hslots : ∀ pid, (k.slot pid).isSome → pid = INIT ∨ (s.kernel.slot pid).isSome) :
    Counted { s with kernel := k } := by
  refine ⟨hs.range, hs.once, hidle, fun pid hslot => ?_, hs.next⟩
  rcases hslots pid hslot with hinit | hslot'
  · exact .inr (.inl hinit)
  · exact hs.known pid hslot'

theorem counted_step (s : Pids n) (e : Event n) (hs : Counted s) (he : Legal s e) : Counted (s.step e) := by
  cases e with
  | allocate => exact hs.allocate he
  | addTask task => exact hs.addTask he
  | spawnInit task =>
    refine hs.other (fun i => slot_addTask_isSome.2 (.inr (hs.idle i))) fun pid hslot => ?_
    exact (slot_addTask_isSome.1 hslot).imp_left fun h => h.trans he
  | other e =>
    by_cases hfills : e.Fills
    · cases e with
      | reap pid =>
        refine hs.other (fun i => ?_) fun other hslot => .inr (slot_reap_isSome.1 hslot).2
        exact slot_reap_isSome.2 ⟨fun h => he ⟨i, h.symm⟩, hs.idle i⟩
      | addTask task => exact he.elim
      | schedule | postContextSwitch | tick | wakeTask | blockTask | exitTask => exact hfills.elim
    · have hslot : (s.kernel.step e).slot = s.kernel.slot := funext (slot_step hfills)
      refine hs.other (fun i => ?_) fun pid h => .inr ?_
      · rw [hslot]
        exact hs.idle i
      · rw [hslot] at h
        exact h

/-! ## Runs -/

theorem counted_init (c : Fin n) : Counted (Pids.init n c) := by
  have htask : ∀ pid, (Pids.init n c).kernel.task pid =
      if pid = FIRST_PID then some { Task.new FIRST_PID with state := .running }
      else if ∃ i : Fin n, pid = idlePid i then some { Task.idle with pid := pid } else none := by
    intro pid
    rw [← task_init]
    exact Kernel.task_bootstrap ..
  refine ⟨fun _ h => absurd h not_mem_nil, nodup_nil, fun i => ?_, fun pid h => ?_, le_succ _⟩
  · rw [slot, isSome_map, htask, if_pos (⟨i, rfl⟩ : ∃ j : Fin n, idlePid i = idlePid j)]
    split_ifs <;> rfl
  · rw [slot, isSome_map, htask] at h
    split_ifs at h with hfirst hidle
    · exact .inr (.inr ⟨hfirst ▸ lt_succ_self _, not_mem_nil⟩)
    · exact .inl hidle
    · cases h

theorem Counted.each_unused_iff (hs : Counted s) {es : List (Event n)} (hes : Each step Legal s es) :
    Each step Unused s es ↔ Each step NotIdle s es :=
  each_iff (fun _ _ hs he => hs.unused_iff he) (fun s e hs he _ => counted_step s e hs he) hs hes

/-- **Pids are unique.** In every run in which the counter does not wrap, each `add_task` with an allocated pid finds no
task with it exactly if no such pid is that of an idle task. -/
theorem adds_fresh_iff {n : ℕ} (c : Fin n) {es : List (Event n)} (hes : Each step Legal (Pids.init n c) es) :
    Each step Unused (Pids.init n c) es ↔ Each step NotIdle (Pids.init n c) es :=
  (counted_init c).each_unused_iff hes

/-- a process is forked with this pid, exits and is waited for -/
def lifetime (pid : ℕ) : List (Event n) :=
  [.allocate, .addTask (Task.new pid), .other (.exitTask pid 0 (fun _ => false) ⟨[], [], []⟩), .other (.reap pid)]

theorem lifetimes_fresh : Each step Legal (Pids.init 32 0) ([3, 4].flatMap lifetime) ∧
    Each step Unused (Pids.init 32 0) ([3, 4].flatMap lifetime) :=
  ⟨by decide +kernel, (adds_fresh_iff 0 (by decide +kernel)).2 (by decide +kernel)⟩

/-- one process after the other is forked and exits, until the pid of an idle task is handed out -/
def manyLifetimes : List (Event 32) :=
  (range' 3 897).flatMap lifetime ++ [.allocate, .addTask (Task.new 900)]

theorem idle_pid_handed_out :
    Each step Legal (Pids.init 32 0) manyLifetimes ∧ ¬Each step Unused (Pids.init 32 0) manyLifetimes := by
  have hlegal : Each step Legal (Pids.init 32 0) manyLifetimes := by decide +kernel
  refine ⟨hlegal, fun h => ?_⟩
  exact absurd (((counted_init 0).each_unused_iff hlegal).1 h) (by decide +kernel)

end Pids

end Kontsnor.Process
