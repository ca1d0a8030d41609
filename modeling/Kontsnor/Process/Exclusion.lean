/-
Mutual exclusion of the scheduler: no task is on two CPUs at once.

A task is on a CPU while it is current there, and also while it is being switched away from: until `post_context_switch`
its context is not saved, and nobody else may run it. Between the two, others may find it `Ready` and queue it.

The invariant has two halves.
- `Apart`: a pid is on one CPU at most, and the idle pid of a CPU on no other one.
- `Aside`: idle pids are in no queue, so that `pick_next` cannot hand them to another CPU. They stay out of the queues
  because an idle task is never `Blocked`, and only a `Blocked` task is queued whatever it is.

**Main result.** `schedule_excludes`. Premise: tasks that are added or blocked do not have the pids of the idle tasks.
-/
import Kontsnor.Core.Runs
import Kontsnor.Process.SchedulerSpec

namespace Kontsnor.Process

open Runs List Function Kontsnor.Process.Task Option

namespace Kernel

variable {Cpu : Type}

/-! ## Statement -/

variable (k : Kernel Cpu)

/-- current on a CPU, or suspending there -/
def At (c : Cpu) (pid : ℕ) : Prop := k.currentCpus c = some pid ∨ k.suspendingTasks c = some pid

/-- the pid of no idle task -/
def Ordinary (pid : ℕ) : Prop := ∀ c, pid ≠ k.idleCpus c

/-- tasks are not given the pids of the idle tasks -/
def NamesTask : Event Cpu → Prop
  | .addTask task => k.Ordinary task.pid
  | .blockTask pid => k.Ordinary pid
  | _ => True

instance [Fintype Cpu] (k : Kernel Cpu) (pid : ℕ) : Decidable (k.Ordinary pid) :=
  inferInstanceAs (Decidable (∀ c, pid ≠ k.idleCpus c))

instance [Fintype Cpu] (k : Kernel Cpu) : (e : Event Cpu) → Decidable (NamesTask k e)
  | .addTask task => inferInstanceAs (Decidable (k.Ordinary task.pid))
  | .blockTask pid => inferInstanceAs (Decidable (k.Ordinary pid))
  | .schedule .. | .postContextSwitch _ | .reap _ | .tick .. | .wakeTask _ | .exitTask .. => isTrue trivial

/-! ## Idle tasks keep out of the queues -/

structure Aside : Prop where
  unqueued : ∀ c, ¬k.Queued (k.idleCpus c)
  tasks : ∀ c t, k.task (k.idleCpus c) = some t → t.isIdle = true ∧ t.state ≠ .blocked

/-- nobody is blocked, and whoever is queued was, or had been blocked, or is no idle task -/
structure Bland (k k' : Kernel Cpu) : Prop where
  idle : k'.idleCpus = k.idleCpus
  tasks : ∀ pid t', k'.task pid = some t' →
    ∃ t, k.task pid = some t ∧ t'.isIdle = t.isIdle ∧ (t'.state = .blocked → t.state = .blocked)
  queued : ∀ pid, k'.Queued pid → k.Queued pid ∨ ∃ t, k.task pid = some t ∧ (t.state = .blocked ∨ t.isIdle = false)

variable {k k' k'' : Kernel Cpu}

theorem Bland.aside (h : Bland k k') (hk : Aside k) : Aside k' where
  unqueued c hq := by
    rw [h.idle] at hq
    rcases h.queued _ hq with hq' | ⟨t, ht, hb | hi⟩
    · exact hk.unqueued c hq'
    · exact (hk.tasks c t ht).2 hb
    · rw [(hk.tasks c t ht).1] at hi
      cases hi
  tasks c t' ht' := by
    rw [h.idle] at ht'
    obtain ⟨t, ht, hidle, hb⟩ := h.tasks _ t' ht'
    obtain ⟨hi, hs⟩ := hk.tasks c t ht
    exact ⟨hidle.trans hi, fun h => hs (hb h)⟩

theorem Bland.trans (h : Bland k k') (h' : Bland k' k'') : Bland k k'' where
  idle := h'.idle.trans h.idle
  tasks pid t'' ht'' := by
    obtain ⟨t', ht', hidle', hb'⟩ := h'.tasks pid t'' ht''
    obtain ⟨t, ht, hidle, hb⟩ := h.tasks pid t' ht'
    exact ⟨t, ht, hidle'.trans hidle, fun hs => hb (hb' hs)⟩
  queued pid hq := by
    rcases h'.queued pid hq with hq' | ⟨t', ht', hor⟩
    · exact h.queued pid hq'
    · obtain ⟨t, ht, hidle, hb⟩ := h.tasks pid t' ht'
      refine .inr ⟨t, ht, ?_⟩
      rcases hor with hs | hi
      · exact .inl (hb hs)
      · exact .inr (hidle.symm.trans hi)

theorem Quiet.bland (h : Quiet k k') : Bland k k' where
  idle := h.idle
  tasks pid t' ht' := by
    obtain ⟨t, ht, htt⟩ := h.before ht'
    refine ⟨t, ht, htt.idle, fun hb => ?_⟩
    rcases htt.state with hs | ⟨_, hr⟩
    · exact hs.symm.trans hb
    · rw [hr] at hb
      cases hb
  queued pid hq := by
    rcases h.queued pid hq with hq' | ⟨t, ht, hb | hr⟩
    · exact .inl hq'
    · exact .inr ⟨t, ht, .inl hb⟩
    · exact .inr ⟨t, ht, .inr hr.2⟩

variable {pid next : ℕ} {c : Cpu}

theorem bland_setTask {f : Task → Task} (hidle : ∀ t, (f t).isIdle = t.isIdle)
    (hf : ∀ t, (f t).state = .blocked → t.state = .blocked) : Bland k (k.setTask pid f) where
  idle := rfl
  tasks other t' ht' := by
    rw [task_setTask] at ht'
    split_ifs at ht'
    · obtain ⟨t, ht, rfl⟩ := map_eq_some_iff.1 ht'
      exact ⟨t, ht, hidle t, hf t⟩
    · exact ⟨t', ht', rfl, id⟩
  queued _ hq := .inl hq

theorem bland_setState {state : TaskState} (h : state ≠ .blocked) : Bland k (k.setState pid state) :=
  bland_setTask (fun _ => rfl) fun _ hb => absurd hb h

theorem Bland.cpus (h : Bland k k') {current suspending : Cpu → Option ℕ} :
    Bland k { k' with currentCpus := current, suspendingTasks := suspending } := ⟨h.idle, h.tasks, h.queued⟩

section

variable (k : Kernel Cpu) (c : Cpu)

theorem bland_switched [DecidableEq Cpu] (cur next : ℕ) : Bland k (k.switched c cur next) := by
  have hyield : Bland k (k.setTask cur yield) := by
    refine bland_setTask (fun t => ?_) fun t => ?_
    · rw [yield]
      split_ifs <;> rfl
    · rw [yield]
      split_ifs
      · intro h
        cases h
      · exact id
  exact (hyield.trans (bland_setState (by decide))).cpus

theorem bland_schedule [Fintype Cpu] [DecidableEq Cpu] (locks : Contention) : Bland k (k.schedule c locks).1 := by
  have hcases := schedule_cases k c locks
  generalize k.schedule c locks = r at hcases ⊢
  cases hcases with
  | off => exact (Quiet.refl k).bland
  | held => exact (Quiet.refl k).bland
  | contended hc hpick hlock =>
    refine ⟨hpick.idle, hpick.quiet.bland.tasks, ?_⟩
    rintro other ⟨p, hmem⟩
    rcases mem_queues_pushBack hmem with rfl | hmem'
    · exact .inl (hpick.picked other rfl).1
    · exact .inl ⟨p, hpick.queues p hmem'⟩
  | next hc hpick hne => exact hpick.quiet.bland.trans (bland_switched _ c _ _)
  | stays hc hpick ht hrun => exact (hpick.quiet.bland.trans (bland_setState (by decide))).cpus
  | idleOn hc hpick hrun => exact hpick.quiet.bland.trans (bland_setState (by decide))
  | toIdle hc hpick hrun hne hidle => exact hpick.quiet.bland.trans (bland_switched _ c _ _)
  | noIdle hc hpick hrun hidle => exact hpick.quiet.bland

theorem bland_postContextSwitch [DecidableEq Cpu] : Bland k (k.postContextSwitch c).1 :=
  ((Quiet.refl k).bland.cpus).trans (quiet_postContextSwitch k c).bland

theorem bland_exitTask (pid : ℕ) (exitCode : Int32) (locked : ℕ → Bool) (wakes : ExitWakes) :
    Bland k (k.exitTask pid exitCode locked wakes) := by
  have hdead : Bland k (k.setTask pid fun t => { t with state := .zombie, exitCode := some exitCode }) :=
    bland_setTask (fun _ => rfl) nofun
  exact hdead.trans (quiet_exitTask k pid exitCode locked wakes).bland

end

theorem Aside.reap (hk : Aside k) (pid : ℕ) : Aside (k.reap pid) := by
  refine ⟨hk.unqueued, fun c t ht => ?_⟩
  change (k.reap pid).task (k.idleCpus c) = some t at ht
  rw [task_reap] at ht
  split_ifs at ht
  exact hk.tasks c t ht

theorem Aside.block (hk : Aside k) (hord : k.Ordinary pid) : Aside (k.setState pid .blocked) := by
  refine ⟨hk.unqueued, fun c t ht => ?_⟩
  change (k.setState pid .blocked).task (k.idleCpus c) = some t at ht
  rw [setState, task_setTask, if_neg (Ne.symm (hord c))] at ht
  exact hk.tasks c t ht

theorem Aside.addTask (hk : Aside k) {task : Task} (hord : k.Ordinary task.pid) : Aside (k.addTask task) := by
  refine ⟨?_, fun c t ht => ?_⟩
  · rintro c ⟨p, hmem⟩
    rcases mem_queues_pushBack hmem with heq | hmem'
    · exact hord c heq.symm
    · exact hk.unqueued c ⟨p, hmem'⟩
  · change (k.addTask task).task (k.idleCpus c) = some t at ht
    rw [task_addTask, if_neg (Ne.symm (hord c))] at ht
    exact hk.tasks c t ht

theorem aside_step [Fintype Cpu] [DecidableEq Cpu] {e : Event Cpu} (hk : Aside k)
    (he : NamesTask k e) : Aside (k.step e) := by
  cases e with
  | schedule c locks => exact (bland_schedule k c locks).aside hk
  | postContextSwitch c => exact (bland_postContextSwitch k c).aside hk
  | tick c expired locked => exact (quiet_tick k c expired locked).bland.aside hk
  | wakeTask pid => exact (quiet_wakeTask k pid).bland.aside hk
  | exitTask pid exitCode locked wakes => exact (bland_exitTask k pid exitCode locked wakes).aside hk
  | reap pid => exact hk.reap pid
  | blockTask pid => exact hk.block he
  | addTask task => exact hk.addTask he

/-! ## A pid is on one CPU -/

structure Apart (k : Kernel Cpu) : Prop where
  one : ∀ c c' pid, k.At c pid → k.At c' pid → c = c'
  home : ∀ c c', k.At c' (k.idleCpus c) → c' = c
  idle : Injective k.idleCpus

/-- a CPU may take this pid: it is on no other one, and the idle pid of no other one -/
structure Free (k : Kernel Cpu) (c : Cpu) (pid : ℕ) : Prop where
  unique : ∀ c', k.At c' pid → c' = c
  idle : ∀ c', k.idleCpus c' = pid → c' = c

theorem Apart.free (hk : Apart k) (h : k.At c pid) : Free k c pid where
  unique c' h' := hk.one c' c pid h' h
  idle c' h' := by
    subst h'
    exact (hk.home c' c h).symm

theorem Apart.free_idle (hk : Apart k) (c : Cpu) : Free k c (k.idleCpus c) where
  unique c' h' := hk.home c c' h'
  idle _ h' := hk.idle h'

theorem Apart.move (hk : Apart k) (hidle : k'.idleCpus = k.idleCpus)
    (hothers : ∀ c' pid, c' ≠ c → k'.At c' pid → k.At c' pid) (hhere : ∀ pid, k'.At c pid → Free k c pid) :
    Apart k' where
  one c1 c2 pid h1 h2 := by
    by_cases hc1 : c1 = c <;> by_cases hc2 : c2 = c
    · rw [hc1, hc2]
    · subst hc1
      exact ((hhere pid h1).unique c2 (hothers c2 pid hc2 h2)).symm
    · subst hc2
      exact (hhere pid h2).unique c1 (hothers c1 pid hc1 h1)
    · exact hk.one c1 c2 pid (hothers c1 pid hc1 h1) (hothers c2 pid hc2 h2)
  home c1 c2 h := by
    rw [hidle] at h
    by_cases hc : c2 = c
    · subst hc
      exact ((hhere _ h).idle c1 rfl).symm
    · exact hk.home c1 c2 (hothers c2 _ hc h)
  idle := hidle ▸ hk.idle

theorem Apart.same (hk : Apart k) (hidle : k'.idleCpus = k.idleCpus) (hcurrent : k'.currentCpus = k.currentCpus)
    (hsuspending : k'.suspendingTasks = k.suspendingTasks) : Apart k' := by
  have hat : ∀ c pid, k'.At c pid ↔ k.At c pid := fun c pid => by rw [At, At, hcurrent, hsuspending]
  refine ⟨fun c c' pid h h' => hk.one c c' pid ((hat c pid).1 h) ((hat c' pid).1 h'), fun c c' h => ?_, hidle ▸ hk.idle⟩
  rw [hidle] at h
  exact hk.home c c' ((hat _ _).1 h)

theorem Quiet.apart (h : Quiet k k') (hk : Apart k) : Apart k' := hk.same h.idle h.current h.suspending

section Switch

variable [DecidableEq Cpu]

theorem at_switched {c' : Cpu} {cur : ℕ} (h : (k.switched c cur next).At c' pid) :
    (c' = c ∧ (pid = next ∨ pid = cur)) ∨ (c' ≠ c ∧ k.At c' pid) := by
  rw [At, currentCpus_switched, suspendingTasks_switched] at h
  split_ifs at h with hc
  · refine .inl ⟨hc, ?_⟩
    rcases h with h | h
    · exact .inl (some.inj h).symm
    · obtain ⟨_, _, rfl⟩ := map_eq_some_iff.1 h
      exact .inr rfl
  · exact .inr ⟨hc, h⟩

theorem Apart.switched (hk : Apart k) {cur : ℕ} (hcur : k.currentCpus c = some cur)
    (hnext : Free k c next) : Apart (k.switched c cur next) := by
  refine hk.move (c := c) rfl (fun c' pid hc h => ?_) fun pid h => ?_
  · rcases at_switched h with ⟨hc', _⟩ | ⟨_, h'⟩
    · exact absurd hc' hc
    · exact h'
  · rcases at_switched h with ⟨_, rfl | rfl⟩ | ⟨hc', _⟩
    · exact hnext
    · exact hk.free (.inl hcur)
    · exact absurd rfl hc'

theorem Apart.unsuspend (hk : Apart k) (c : Cpu) :
    Apart { k with suspendingTasks := update k.suspendingTasks c none } := by
  have hat : ∀ c' pid, ({ k with suspendingTasks := update k.suspendingTasks c none } : Kernel Cpu).At c' pid →
      k.At c' pid := by
    intro c' pid h
    rcases h with h | h
    · exact .inl h
    · change update k.suspendingTasks c none c' = some pid at h
      by_cases hc : c' = c
      · rw [hc, update_self] at h
        cases h
      · rw [update_of_ne hc] at h
        exact .inr h
  exact hk.move (c := c) rfl (fun c' pid _ h => hat c' pid h) fun pid h => hk.free (hat c pid h)

omit [DecidableEq Cpu] in
/-- a task that is picked is on no CPU, and no idle task, since idle pids are not queued -/
theorem Picks.free [Fintype Cpu] (ha : Aside k) (hpick : Picks k k' (some next)) : Free k' c next := by
  obtain ⟨hqueued, hbusy, _⟩ := hpick.picked next rfl
  refine ⟨fun c' h => ?_, fun c' h => ?_⟩
  · rw [At, hpick.current, hpick.suspending] at h
    exact absurd h (not_or.2 (not_busy hbusy c'))
  · rw [hpick.idle] at h
    exact absurd (h ▸ hqueued) (ha.unqueued c')

theorem Apart.schedule [Fintype Cpu] (hk : Apart k) (ha : Aside k) (c : Cpu) (locks : Contention) :
    Apart (k.schedule c locks).1 := by
  have hcases := schedule_cases k c locks
  generalize k.schedule c locks = r at hcases ⊢
  cases hcases with
  | off => exact hk
  | held => exact hk
  | contended hc hpick hlock => exact hk.same hpick.idle hpick.current hpick.suspending
  | next hc hpick hne =>
    exact (hpick.quiet.apart hk).switched ((congrFun hpick.current c).trans hc) (hpick.free ha)
  | stays hc hpick ht hrun => exact ((hpick.quiet.apart hk).unsuspend c).same rfl rfl rfl
  | idleOn hc hpick hrun => exact (hpick.quiet.apart hk).same rfl rfl rfl
  | toIdle hc hpick hrun hne hidle =>
    have hk' := hpick.quiet.apart hk
    rw [← congrFun hpick.idle c]
    exact hk'.switched ((congrFun hpick.current c).trans hc) (hk'.free_idle c)
  | noIdle hc hpick hrun hidle => exact hpick.quiet.apart hk

theorem Apart.postContextSwitch (hk : Apart k) (c : Cpu) : Apart (k.postContextSwitch c).1 :=
  (quiet_postContextSwitch k c).apart (hk.unsuspend c)

end Switch

theorem apart_step [Fintype Cpu] [DecidableEq Cpu] (e : Event Cpu) (hk : Apart k) (ha : Aside k) :
    Apart (k.step e) := by
  cases e with
  | schedule c locks => exact hk.schedule ha c locks
  | postContextSwitch c => exact hk.postContextSwitch c
  | tick c expired locked => exact (quiet_tick k c expired locked).apart hk
  | wakeTask pid => exact (quiet_wakeTask k pid).apart hk
  | exitTask pid exitCode locked wakes =>
    exact (quiet_exitTask k pid exitCode locked wakes).apart (hk.same rfl rfl rfl)
  | reap pid => exact hk.same rfl rfl rfl
  | blockTask pid => exact hk.same rfl rfl rfl
  | addTask task => exact hk.same rfl rfl rfl

/-! ## Runs -/

/-- what `init` leaves, and then what making the boot thread a task leaves -/
inductive Started {n : ℕ} : Kernel (Fin n) → Prop
  | init : Started (init n)
  | bootstrap (c : Fin n) (task : Task) (h : (init n).Ordinary task.pid) : Started ((init n).setBootstrapThread c task)

variable {n : ℕ}

theorem addIdle_foldl (is : List (Fin n)) :
    ∀ k : Kernel (Fin n), (is.foldl addIdle k).queues = k.queues ∧
      (is.foldl addIdle k).suspendingTasks = k.suspendingTasks ∧
      (∀ i, (is.foldl addIdle k).idleCpus i = if i ∈ is then idlePid i else k.idleCpus i) ∧
      ∀ i, (is.foldl addIdle k).currentCpus i = if i ∈ is then some (idlePid i) else k.currentCpus i := by
  induction is with
  | nil => exact fun k => ⟨rfl, rfl, fun i => rfl, fun i => rfl⟩
  | cons j rest ih =>
    intro k
    obtain ⟨hq, hs, hi, hc⟩ := ih (k.addIdle j)
    refine ⟨hq, hs, fun i => ?_, fun i => ?_⟩
    · rw [foldl_cons, hi]
      by_cases hij : i = j
      · subst hij
        simp [addIdle]
      · simp [addIdle, hij]
    · rw [foldl_cons, hc]
      by_cases hij : i = j
      · subst hij
        simp [addIdle]
      · simp [addIdle, hij]

theorem task_addIdle_foldl (is : List (Fin n)) :
    ∀ k : Kernel (Fin n), (is.foldl addIdle k).task pid =
      if ∃ i ∈ is, pid = idlePid i then some { idle with pid := pid } else k.task pid := by
  induction is with
  | nil => exact fun k => by simp
  | cons j rest ih =>
    intro k
    have hput : (k.addIdle j).task pid =
        if pid = idlePid j then some { idle with pid := idlePid j } else k.task pid := Slots.get_put
    rw [foldl_cons, ih, hput]
    by_cases hj : pid = idlePid j
    · subst hj
      simp
    · simp [hj]

theorem task_init : (init n).task pid =
    if ∃ i : Fin n, pid = idlePid i then some { idle with pid := pid } else none := by
  rw [init, task_addIdle_foldl]
  exact if_congr (by simp) rfl rfl

theorem idleCpus_init (i : Fin n) : (init n).idleCpus i = idlePid i := by
  rw [init, (addIdle_foldl (finRange n) (new n)).2.2.1, if_pos (mem_finRange i)]

theorem Started.boot {pid : ℕ} (h : pid < 900) (c : Fin n) : Started ((Kernel.init n).setBootstrapThread c (Task.new pid)) := by
  refine .bootstrap c (Task.new pid) fun i => ?_
  rw [idleCpus_init]
  exact Nat.ne_of_lt (Nat.lt_add_right _ h)

theorem currentCpus_init (i : Fin n) : (init n).currentCpus i = some (idlePid i) := by
  rw [init, (addIdle_foldl (finRange n) (new n)).2.2.2, if_pos (mem_finRange i)]

theorem idlePid_injective : Injective fun i : Fin n => idlePid i := by
  intro i j h
  exact Fin.ext (Nat.add_left_cancel h)

theorem aside_init (n : ℕ) : Aside (init n) := by
  refine ⟨?_, fun c t h => ?_⟩
  · rintro c ⟨p, hmem⟩
    rw [init, (addIdle_foldl (finRange n) (new n)).1] at hmem
    exact absurd hmem not_mem_nil
  · rw [task_init] at h
    split_ifs at h
    cases h
    exact ⟨rfl, nofun⟩

theorem at_init (c : Fin n) (pid : ℕ) : (init n).At c pid ↔ pid = idlePid c := by
  rw [At, currentCpus_init, init, (addIdle_foldl (finRange n) (new n)).2.1]
  change some (idlePid c) = some pid ∨ none = some pid ↔ pid = idlePid c
  rw [some.injEq, eq_comm, or_iff_left nofun]

theorem apart_init (n : ℕ) : Apart (init n) := by
  refine ⟨fun c c' pid h h' => ?_, fun c c' h => ?_, fun c c' h => ?_⟩
  · exact idlePid_injective (((at_init c pid).1 h).symm.trans ((at_init c' pid).1 h'))
  · rw [idleCpus_init, at_init] at h
    exact (idlePid_injective h).symm
  · rw [idleCpus_init, idleCpus_init] at h
    exact idlePid_injective h

theorem task_bootstrap (c : Fin n) (task : Task) :
    ((init n).setBootstrapThread c task).task pid =
      if pid = task.pid then some { task with state := .running } else (init n).task pid := Slots.get_put

theorem currentCpus_bootstrap (c c' : Fin n) (task : Task) :
    ((init n).setBootstrapThread c task).currentCpus c' =
      if c' = c then some task.pid else (init n).currentCpus c' := update_apply ..

variable {k : Kernel (Fin n)}

theorem Started.apart (h : Started k) : Apart k := by
  cases h with
  | init => exact apart_init n
  | bootstrap c task h =>
    have hk := apart_init n
    refine hk.move (c := c) rfl (fun c' pid hc h' => ?_) fun pid h' => ?_
    · rw [At, currentCpus_bootstrap, if_neg hc] at h'
      exact h'
    · rw [At, currentCpus_bootstrap, if_pos rfl] at h'
      rcases h' with h' | h'
      · cases h'
        refine ⟨fun c' hat => ?_, fun c' hidle => absurd hidle.symm (h c')⟩
        rw [at_init, ← idleCpus_init] at hat
        exact absurd hat (h c')
      · exact hk.free (.inr h')

theorem Started.aside (h : Started k) : Aside k := by
  cases h with
  | init => exact aside_init n
  | bootstrap c task h =>
    refine ⟨(aside_init n).unqueued, fun c' t ht => ?_⟩
    change ((Kernel.init n).setBootstrapThread c task).task ((Kernel.init n).idleCpus c') = some t at ht
    rw [task_bootstrap, if_neg (Ne.symm (h c'))] at ht
    exact (aside_init n).tasks c' t ht

section

variable (hk : Started k)
include hk

theorem Started.idle (c : Fin n) : (k.task (k.idleCpus c)).isSome := by
  have hinit : ((Kernel.init n).task ((Kernel.init n).idleCpus c)).isSome := by
    rw [task_init, idleCpus_init, if_pos ⟨c, rfl⟩]
    rfl
  cases hk with
  | init => exact hinit
  | bootstrap c' task h =>
    change (((Kernel.init n).setBootstrapThread c' task).task ((Kernel.init n).idleCpus c)).isSome
    rw [task_bootstrap, if_neg (Ne.symm (h c))]
    exact hinit

/-- what runs at the start is in the table, and is `Running` unless it is an idle task -/
theorem Started.current {c : Fin n}
    (hc : k.currentCpus c = some pid) : ∃ t, k.task pid = some t ∧ (k.Ordinary pid → t.state = .running) := by
  have hidle : ∀ {c}, (Kernel.init n).currentCpus c = some pid → pid = (Kernel.init n).idleCpus c := by
    intro c hc
    cases (currentCpus_init c).symm.trans hc
    exact (idleCpus_init c).symm
  obtain ⟨t, ht⟩ := isSome_iff_exists.1 (hk.idle c)
  cases hk with
  | init =>
    have hpid := hidle hc
    exact ⟨t, hpid ▸ ht, fun hord => absurd hpid (hord c)⟩
  | bootstrap c' task h =>
    rw [currentCpus_bootstrap] at hc
    split_ifs at hc
    · cases hc
      exact ⟨_, (task_bootstrap ..).trans (if_pos rfl), fun _ => rfl⟩
    · have hpid := hidle hc
      exact ⟨t, hpid ▸ ht, fun hord => absurd hpid (hord c)⟩

theorem Started.suspending (c : Fin n) : k.suspendingTasks c = none := by
  have hinit : (Kernel.init n).suspendingTasks c = none := by
    rw [Kernel.init, (addIdle_foldl (finRange n) (Kernel.new n)).2.1]
    rfl
  cases hk with
  | init => exact hinit
  | bootstrap c' task h => exact hinit

theorem Started.tasks {t : Task} (ht : k.task pid = some t) : t.pid = pid ∧ t.state ≠ .zombie := by
  have hinit : (Kernel.init n).task pid = some t → t.pid = pid ∧ t.state ≠ .zombie := by
    intro ht
    rw [task_init] at ht
    split_ifs at ht
    cases ht
    exact ⟨rfl, nofun⟩
  cases hk with
  | init => exact hinit ht
  | bootstrap c task h =>
    rw [task_bootstrap] at ht
    split_ifs at ht with hpid
    · cases ht
      exact ⟨hpid.symm, nofun⟩
    · exact hinit ht

end

/-- **Mutual exclusion.** In every interleaving over any number of CPUs, no task is current or suspending on two CPUs. -/
theorem schedule_excludes {n : ℕ} {k : Kernel (Fin n)} (hk : Started k) {es : List (Event (Fin n))}
    (hes : Each step NamesTask k es) {c c' : Fin n} {pid : ℕ} (h : (run step k es).At c pid)
    (h' : (run step k es).At c' pid) : c = c' := by
  have hinv : Apart (run step k es) ∧ Aside (run step k es) := by
    refine invariant (I := fun k => Apart k ∧ Aside k) (fun k e hk he => ?_) ⟨hk.apart, hk.aside⟩ hes
    exact ⟨apart_step e hk.1 hk.2, aside_step hk.2 he⟩
  exact hinv.1.one c c' pid h h'

instance neZeroTwo : NeZero 2 := ⟨by decide⟩

/-- two CPUs: the boot thread starts a task, the other CPU takes it, and the boot thread goes to sleep -/
def twoCpus : List (Event (Fin 2)) :=
  [.addTask (Task.new 2), .schedule 1 ⟨false, fun _ => false, false⟩, .blockTask 1,
    .schedule 0 ⟨false, fun _ => false, false⟩, .wakeTask 1]

theorem schedule_excludes_twoCpus :
    Started ((Kernel.init 2).setBootstrapThread 0 (Task.new 1)) ∧
      (run step ((Kernel.init 2).setBootstrapThread 0 (Task.new 1)) twoCpus).At 1 2 ∧
      ∀ c, (run step ((Kernel.init 2).setBootstrapThread 0 (Task.new 1)) twoCpus).At c 2 → c = 1 := by
  have hstart := Started.boot (show 1 < 900 by decide) (0 : Fin 2)
  have hat : (run step ((Kernel.init 2).setBootstrapThread 0 (Task.new 1)) twoCpus).At 1 2 := .inl (by decide +kernel)
  have hes : Each step NamesTask ((Kernel.init 2).setBootstrapThread 0 (Task.new 1)) twoCpus := by
    decide +kernel
  exact ⟨hstart, hat, fun c h => schedule_excludes hstart hes h hat⟩

end Kernel

end Kontsnor.Process
