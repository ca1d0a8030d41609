/-
The end of a thread group: `sys_exit_group`, and `terminate_group_and_exit` for a fatal signal.

Both look the other threads up in TASK_TGIDS, without a lock, and then make them and the caller exit under SCHEDULER; the second one
lets the lock go in between. The table has 4096 entries: `add_task` writes the group of a task with a pid below that, and `exit_task`
and the removal of a task clear the entry. Before the caller gives up its CPU, other CPUs go on (`Others`): a thread that runs on one
of them blocks, or goes on after a wake-up, and writes its state over `Zombie`.

Left out: futex queues, `clear_child_tid` and file descriptors.
-/
import Kontsnor.Process.SchedulerSpec

namespace Kontsnor.Process.Kernel

open List Option Relation

variable {Cpu : Type}

/-- a critical section that is not one of the caller's: a task blocks itself, and a new task is a thread of the one that makes it
or a process with a pid that is new -/
def OfOther (caller tgid : ℕ) (k : Kernel Cpu) : Event Cpu → Prop
  | .blockTask pid => pid ≠ caller ∧ ∃ c, k.currentCpus c = some pid
  | .addTask task =>
    task.tgid = task.pid ∧ task.pid ≠ tgid ∨
      ∃ c pid t, pid ≠ caller ∧ k.currentCpus c = some pid ∧ k.task pid = some t ∧ task.tgid = t.tgid
  | _ => True

variable [Fintype Cpu] [DecidableEq Cpu]

inductive Others (caller tgid : ℕ) (k : Kernel Cpu) : Kernel Cpu → Prop
  | event (e : Event Cpu) (he : k.OfOther caller tgid e) : Others caller tgid k (k.step e)
  /-- a task that was to sleep finds that it is not `Blocked` any more -/
  | goesOn {c : Cpu} {pid : ℕ} (hne : pid ≠ caller) (hc : k.currentCpus c = some pid) :
    Others caller tgid k (k.setState pid .running)

section

variable (exitCode : Int32) (locked : ℕ → Bool) (wakes : ℕ → ExitWakes)

end

/-- no task of another group became a zombie -/
def Spares (tgid : ℕ) (k k' : Kernel Cpu) : Prop :=
  ∀ pid t t', k.task pid = some t → k'.task pid = some t' → t.tgid ≠ tgid → t'.state = .zombie → t.state = .zombie

variable {k k' : Kernel Cpu} {t t' : Task} {pid tgid caller : ℕ}

theorem Touched.zombie (h : Touched t t') : t.state = .zombie ↔ t'.state = .zombie := by
  rcases h.state with hs | ⟨hb, hr⟩
  · rw [hs]
  · simp [hb, hr]

theorem task_of_slot {slot slot' : Option Task} (h : slot'.map Task.identity = slot.map Task.identity) (ht : slot = some t) :
    ∃ t', slot' = some t' ∧ t'.tgid = t.tgid := by
  rw [ht, map_some, map_eq_some_iff] at h
  obtain ⟨t', ht', hid⟩ := h
  exact ⟨t', ht', congrArg (fun id => id.2.1) hid⟩

/-- what exits of these tasks come to -/
structure Exited (pids : List ℕ) (k k' : Kernel Cpu) : Prop where
  current : k'.currentCpus = k.currentCpus
  idle : k'.idleCpus = k.idleCpus
  slots : ∀ pid, k'.slot pid = k.slot pid
  zombie : ∀ pid t t', k.task pid = some t → k'.task pid = some t' → (t'.state = .zombie ↔ pid ∈ pids ∨ t.state = .zombie)

section Exits

variable (exitCode : Int32) (locked : ℕ → Bool) (k : Kernel Cpu)

omit [Fintype Cpu] [DecidableEq Cpu]

theorem exited_exitTask (exiting : ℕ) (wakes : ExitWakes) : Exited [exiting] k (k.exitTask exiting exitCode locked wakes) := by
  have hquiet := quiet_exitTask k exiting exitCode locked wakes
  refine ⟨hquiet.current, hquiet.idle, fun pid => (hquiet.slot pid).trans (slot_setTask fun _ => rfl), fun pid t t' ht ht' => ?_⟩
  obtain ⟨u, hu, htouch⟩ := hquiet.before ht'
  rw [task_setTask, ht] at hu
  rw [← htouch.zombie, mem_singleton]
  split_ifs at hu with he
  · cases hu
    exact iff_of_true rfl (.inl he)
  · cases hu
    exact (or_iff_right he).symm

end Exits

/-! ## What others leave alone -/

/-- of the group only tasks in `alive` are no zombies, and only the caller is on a CPU -/
structure Gone (caller tgid : ℕ) (alive : ℕ → Prop) (k : Kernel Cpu) : Prop where
  zombie : ∀ pid t, k.task pid = some t → t.tgid = tgid → alive pid ∨ t.state = .zombie
  cpus : ∀ c pid t, k.currentCpus c = some pid → k.task pid = some t → t.tgid = tgid → pid = caller
  idle : ∀ c t, k.task (k.idleCpus c) = some t → t.tgid ≠ tgid

section

variable {alive : ℕ → Prop} (h : k.Gone caller tgid alive)
include h

omit [Fintype Cpu] [DecidableEq Cpu] in
theorem Gone.keep (hidle : k'.idleCpus = k.idleCpus)
    (hcpus : ∀ c pid t, k'.currentCpus c = some pid → k.task pid = some t → t.tgid = tgid → pid = caller)
    (htask : ∀ pid t', k'.task pid = some t' → t'.tgid = tgid →
      ∃ t, k.task pid = some t ∧ t.tgid = tgid ∧ (t.state = .zombie → t'.state = .zombie)) : k'.Gone caller tgid alive := by
  refine ⟨fun pid t' ht' hg => ?_, fun c pid t' hc ht' hg => ?_, fun c t' ht' hg => ?_⟩
  · obtain ⟨t, ht, hg0, hz⟩ := htask pid t' ht' hg
    exact (h.zombie pid t ht hg0).imp_right hz
  · obtain ⟨t, ht, hg0, -⟩ := htask pid t' ht' hg
    exact hcpus c pid t hc ht hg0
  · obtain ⟨t, ht, hg0, -⟩ := htask _ t' ht' hg
    rw [hidle] at ht
    exact h.idle c t ht hg0

omit [Fintype Cpu] [DecidableEq Cpu] in
theorem Gone.quiet (hq : Quiet k k') : k'.Gone caller tgid alive := by
  refine h.keep hq.idle (by rw [hq.current]; exact h.cpus) fun pid t' ht' hg => ?_
  obtain ⟨t, ht, htt⟩ := hq.before ht'
  exact ⟨t, ht, htt.tgid.symm.trans hg, htt.zombie.1⟩

omit [Fintype Cpu] [DecidableEq Cpu] in
theorem Gone.setState {state : TaskState} (hother : ∀ t, k.task pid = some t → t.tgid = tgid → t.state ≠ .zombie) :
    (k.setState pid state).Gone caller tgid alive := by
  refine h.keep rfl h.cpus fun other t' ht' hg => ?_
  rw [Kernel.setState, task_setTask] at ht'
  split_ifs at ht' with he
  · obtain ⟨t, ht, rfl⟩ := map_eq_some_iff.1 ht'
    subst he
    exact ⟨t, ht, hg, fun hz => absurd hz (hother t ht hg)⟩
  · exact ⟨t', ht', hg, id⟩

omit [Fintype Cpu] [DecidableEq Cpu] in
theorem Gone.exited {alive' : ℕ → Prop} {pids : List ℕ} (he : Exited pids k k')
    (hal : ∀ pid, alive pid → alive' pid ∨ pid ∈ pids) : k'.Gone caller tgid alive' := by
  have hk := h.keep he.idle (by rw [he.current]; exact h.cpus) fun pid t' ht' hg => ?_
  · refine ⟨fun pid t' ht' hg => ?_, hk.cpus, hk.idle⟩
    obtain ⟨t, ht, htg⟩ := task_of_slot (he.slots pid).symm ht'
    rw [he.zombie pid t t' ht ht']
    rcases h.zombie pid t ht (htg.trans hg) with ha | hd
    · exact (hal pid ha).imp_right .inl
    · exact .inr (.inr hd)
  · obtain ⟨t, ht, htg⟩ := task_of_slot (he.slots pid).symm ht'
    exact ⟨t, ht, htg.trans hg, fun hd => (he.zombie pid t t' ht ht').2 (.inr hd)⟩

omit [Fintype Cpu] in
theorem Gone.switched {cur next : ℕ} (c : Cpu)
    (hnext : ∀ t, k.task next = some t → t.tgid = tgid → next = caller ∧ t.state ≠ .zombie) :
    (k.switched c cur next).Gone caller tgid alive := by
  refine h.keep rfl (fun c' pid t hc ht hg => ?_) fun pid t' ht' hg => ?_
  · rw [currentCpus_switched] at hc
    split_ifs at hc
    · cases hc
      exact (hnext t ht hg).1
    · exact h.cpus c' pid t hc ht hg
  · obtain ⟨t, ht, hsame, hstate⟩ := task_switched ht'
    rw [hsame] at hg
    refine ⟨t, ht, hg, fun hz => ?_⟩
    rcases hstate with ⟨rfl, -⟩ | ⟨-, hsame' | ⟨-, hrun, -⟩⟩
    · exact absurd hz (hnext t ht hg).2
    · exact hsame'.trans hz
    · rw [hz] at hrun
      cases hrun

theorem Gone.schedule (halive : ∀ pid, alive pid → pid = caller) (c : Cpu) (locks : Contention) :
    (k.schedule c locks).1.Gone caller tgid alive := by
  -- what is `Ready` and of the group is the caller
  have hready : ∀ pid t, k.task pid = some t → t.tgid = tgid → t.state = .ready → pid = caller := by
    intro pid t ht hg hr
    refine halive pid ((h.zombie pid t ht hg).resolve_right fun hz => ?_)
    rw [hr] at hz
    cases hz
  have hcases := schedule_cases k c locks
  generalize k.schedule c locks = r at hcases ⊢
  cases hcases with
  | off => exact h
  | held => exact h
  | contended hc hpick hlock =>
    have hk := h.quiet hpick.quiet
    exact ⟨hk.zombie, hk.cpus, hk.idle⟩
  | next hc hpick hne =>
    obtain ⟨-, -, t, ht, hr⟩ := hpick.picked _ rfl
    refine (h.quiet hpick.quiet).switched c fun t' ht' hg => ?_
    obtain ⟨t0, ht0, htt⟩ := hpick.quiet.before ht'
    cases ht.symm.trans ht0
    refine ⟨hready _ t ht (htt.tgid.symm.trans hg) hr, fun hz => ?_⟩
    cases hr.symm.trans (htt.zombie.2 hz)
  | @stays cur k1 t hc hpick ht hrun =>
    have hk : (k1.setState cur .running).Gone caller tgid alive := by
      refine (h.quiet hpick.quiet).setState fun t' ht' hg hz => ?_
      cases ht.symm.trans ht'
      rw [hz] at hrun
      exact hrun.elim nofun nofun
    exact ⟨hk.zombie, hk.cpus, hk.idle⟩
  | idleOn hc hpick hrun =>
    refine (h.quiet hpick.quiet).setState fun t' ht' hg => ?_
    rw [← hpick.idle] at ht'
    exact absurd hg ((h.quiet hpick.quiet).idle c t' ht')
  | toIdle hc hpick hrun hne hidle =>
    refine (h.quiet hpick.quiet).switched c fun t' ht' hg => ?_
    rw [← hpick.idle] at ht'
    exact absurd hg ((h.quiet hpick.quiet).idle c t' ht')
  | noIdle hc hpick hrun hidle => exact h.quiet hpick.quiet

theorem Gone.others (halive : ∀ pid, alive pid → pid = caller) (hstep : Others caller tgid k k') : k'.Gone caller tgid alive := by
  -- a task on a CPU that is not the caller is of another group
  have hcur : ∀ c pid, pid ≠ caller → k.currentCpus c = some pid → ∀ t, k.task pid = some t → t.tgid ≠ tgid :=
    fun c pid hne hc t ht hg => hne (h.cpus c pid t hc ht hg)
  cases hstep with
  | goesOn hne hc => exact h.setState fun t ht hg => absurd hg (hcur _ _ hne hc t ht)
  | event e he =>
    cases e with
    | schedule c locks => exact h.schedule halive c locks
    | postContextSwitch c =>
      have hleft : Gone caller tgid alive { k with suspendingTasks := Function.update k.suspendingTasks c none } :=
        ⟨h.zombie, h.cpus, h.idle⟩
      exact hleft.quiet (quiet_postContextSwitch k c)
    | tick c expired locked => exact h.quiet (quiet_tick k c expired locked)
    | wakeTask pid => exact h.quiet (quiet_wakeTask k pid)
    | exitTask pid exitCode locked wakes => exact h.exited (exited_exitTask exitCode locked k pid wakes) fun _ => .inl
    | blockTask pid =>
      obtain ⟨hne, c, hc⟩ := he
      exact h.setState fun t ht hg => absurd hg (hcur c pid hne hc t ht)
    | reap pid =>
      refine h.keep rfl h.cpus fun other t' ht' hg => ?_
      rw [step, task_reap] at ht'
      split_ifs at ht'
      exact ⟨t', ht', hg, id⟩
    | addTask task =>
      refine h.keep rfl h.cpus fun other t' ht' hg => ?_
      rw [step, task_addTask] at ht'
      split_ifs at ht' with hnew
      · cases ht'
        rcases he with ⟨hown, hfresh⟩ | ⟨c, pid, t, hne, hc, ht, hclone⟩
        · exact absurd (hown.symm.trans hg) hfresh
        · exact absurd (hclone.symm.trans hg) (hcur c pid hne hc t ht)
      · exact ⟨t', ht', hg, id⟩

end

/-! ## The result -/

section

variable (scanned : Kernel Cpu) (current : ℕ) (exitCode : Int32) (locked : ℕ → Bool) (wakes : ℕ → ExitWakes)

variable {self : Task} (hself : scanned.task current = some self)
include hself

end

end Kontsnor.Process.Kernel
