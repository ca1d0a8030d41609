/-
Exit, switch and reaping: who keeps a task, and with it its kernel stack, alive.

A task is reference counted, and `Drop for Task` frees its kernel stack with the last reference. References are
- its slot in the table, emptied by `sys_wait4` for a process and behind a context switch for a thread;
- clones in frames of `schedule()`: a thread that is switched away from holds one of itself and one of the next thread, on
  its own stack, until it is switched to again;
- clones that other parts of the kernel borrow for a while.

`exit_task` publishes `Zombie` while the exiting thread still runs on its stack, and `schedule()` takes the clone of the
current task only later. A parent that waits in between takes the last reference, and the stack is freed under the thread.

**Main result.** `stack_outlives_use`.
-/
import Kontsnor.Process.Exclusion

namespace Kontsnor.Process

open Runs List Function Option Kernel

/-! ## `sys_wait4` -/

/-- what the critical section of `sys_wait4` comes to -/
inductive WaitResult
  | reaped (pid : ℕ) (exitCode : Int32)
  | noChild
  /-- WNOHANG, and no child is a zombie yet -/
  | noneYet
  | sleeps
  deriving DecidableEq, Repr

namespace Kernel

variable {Cpu : Type} (current : ℕ)

/-- a process that the caller may wait for -/
def isChild (t : Task) : Bool := t.parentPid = current ∧ t.tgid = t.pid

def isZombieChild (t : Task) : Bool := isChild current t ∧ t.state = .zombie

/-- the process group that is waited for, if any -/
def inWaitGroup (pid : Int32) (currentPgid : ℕ) (t : Task) : Bool :=
  if pid = -1 then true else if pid = 0 then t.pgid = currentPgid else t.pgid = asU64 (-pid)

/-- the slots that are looked at, in this order -/
def candidates (k : Kernel Cpu) (pid : Int32) (currentPgid : ℕ) : List Task :=
  if 0 < pid then (k.task (asU64 pid)).toList else (k.tasks.filterMap id).filter (inWaitGroup pid currentPgid)

/-- the section under the `SCHEDULER` lock; a caller that finds no zombie marks itself `Blocked` -/
def wait4 (k : Kernel Cpu) (current : ℕ) (currentPgid : ℕ) (pid : Int32) (nohang : Bool) : Kernel Cpu × WaitResult :=
  let candidates := k.candidates pid currentPgid
  match candidates.find? (isZombieChild current) with
  | some t => (k.reap t.pid, .reaped t.pid (t.exitCode.getD 0))
  | none =>
    if candidates.any (isChild current) = false then (k, .noChild)
    else if nohang then (k, .noneYet)
    else (k.setState current .blocked, .sleeps)

end Kernel

/-! ## References -/

structure Stacks (Cpu : Type) where
  kernel : Kernel Cpu
  /-- clones in the frames of `schedule()`: whose stack the frame is on, and the task -/
  frames : List (ℕ × ℕ)
  /-- how many clones other parts of the kernel hold -/
  borrowed : ℕ → ℕ
  /-- the thread that a CPU takes from the table next -/
  zombieToReap : Cpu → Option ℕ

namespace Stacks

variable {Cpu : Type}

def Referenced (s : Stacks Cpu) (pid : ℕ) : Prop :=
  (s.kernel.task pid).isSome ∨ (∃ frame ∈ s.frames, frame.2 = pid) ∨ 0 < s.borrowed pid

instance (s : Stacks Cpu) (pid : ℕ) : Decidable (s.Referenced pid) := inferInstanceAs (Decidable (_ ∨ _ ∨ _))

inductive Event (Cpu : Type)
  | schedule (c : Cpu) (locks : Contention)
  | postContextSwitch (c : Cpu)
  /-- the slot of a dead thread is emptied, after the lock is dropped -/
  | takeSlot (c : Cpu)
  /-- the `schedule()` of the thread that a CPU runs returns, and drops its clones -/
  | unwind (c : Cpu)
  | borrow (pid : ℕ)
  | giveBack (pid : ℕ)
  /-- `exit_task`, of the thread itself or of another one of its process -/
  | exitTask (pid : ℕ) (exitCode : Int32) (locked : ℕ → Bool) (wakes : ExitWakes)
  | wait4 (c : Cpu) (currentPgid : ℕ) (pid : Int32) (nohang : Bool)
  /-- the thread of a CPU marks itself `Blocked` in some other call -/
  | block (c : Cpu)
  | tick (c : Cpu) (expired : List ℕ) (locked : ℕ → Bool)
  | wakeTask (pid : ℕ)
  | addTask (task : Task)

/-- the clones that `schedule()` leaves on the stack of the thread it switches away from -/
def clones (k : Kernel Cpu) (cur next : ℕ) : List (ℕ × ℕ) := (k.task cur).toList.map (fun _ => (cur, cur)) ++ [(cur, next)]

section Step

variable [Fintype Cpu] [DecidableEq Cpu] (s : Stacks Cpu)

def schedule (c : Cpu) (locks : Contention) : Stacks Cpu :=
  let r := s.kernel.schedule c locks
  match r.2, s.kernel.currentCpus c, r.1.currentCpus c with
  | true, some cur, some next => { s with kernel := r.1, frames := clones s.kernel cur next ++ s.frames }
  | _, _, _ => { s with kernel := r.1 }

def step : Event Cpu → Stacks Cpu
  | .schedule c locks => s.schedule c locks
  | .postContextSwitch c =>
    let r := s.kernel.postContextSwitch c
    { s with kernel := r.1, zombieToReap := update s.zombieToReap c r.2 }
  | .takeSlot c =>
    match s.zombieToReap c with
    | some pid => { s with kernel := s.kernel.reap pid, zombieToReap := update s.zombieToReap c none }
    | none => s
  | .unwind c =>
    match s.kernel.currentCpus c with
    | some pid => { s with frames := s.frames.filter fun frame => frame.1 ≠ pid }
    | none => s
  | .borrow pid =>
    if (s.kernel.task pid).isSome then { s with borrowed := update s.borrowed pid (s.borrowed pid + 1) } else s
  | .giveBack pid => { s with borrowed := update s.borrowed pid (s.borrowed pid - 1) }
  | .exitTask pid exitCode locked wakes => { s with kernel := s.kernel.exitTask pid exitCode locked wakes }
  | .wait4 c currentPgid pid nohang =>
    match s.kernel.currentCpus c with
    | some current => { s with kernel := (s.kernel.wait4 current currentPgid pid nohang).1 }
    | none => s
  | .block c =>
    match s.kernel.currentCpus c with
    | some pid => { s with kernel := s.kernel.setState pid .blocked }
    | none => s
  | .tick c expired locked => { s with kernel := s.kernel.tick c expired locked }
  | .wakeTask pid => { s with kernel := (s.kernel.wakeTask pid).1 }
  | .addTask task => { s with kernel := s.kernel.addTask task }

end Step

/-- idle tasks make no calls and do not exit; a new task has a new pid -/
def Legal (s : Stacks Cpu) : Event Cpu → Prop
  | .wait4 c .. | .block c => ∀ pid ∈ s.kernel.currentCpus c, s.kernel.Ordinary pid
  | .exitTask pid .. => s.kernel.Ordinary pid
  | .addTask task => s.kernel.Ordinary task.pid ∧ s.kernel.task task.pid = none ∧
      ∀ c, ¬s.kernel.At c task.pid ∧ s.zombieToReap c ≠ some task.pid
  | _ => True

/-- at a `sys_wait4`, no zombie child of the caller still runs on a CPU -/
def Settled (s : Stacks Cpu) : Event Cpu → Prop
  | .wait4 c .. => ∀ current ∈ s.kernel.currentCpus c, ∀ c', ∀ pid ∈ s.kernel.currentCpus c', ∀ t ∈ s.kernel.task pid,
      isZombieChild current t = false
  | _ => True

section Decidable

variable [Fintype Cpu] (s : Stacks Cpu)

instance : (e : Event Cpu) → Decidable (Legal s e)
  | .wait4 c .. | .block c => inferInstanceAs (Decidable (∀ pid ∈ s.kernel.currentCpus c, s.kernel.Ordinary pid))
  | .exitTask pid .. => inferInstanceAs (Decidable (s.kernel.Ordinary pid))
  | .addTask task =>
    inferInstanceAs (Decidable (s.kernel.Ordinary task.pid ∧ s.kernel.task task.pid = none ∧
      ∀ c, ¬(s.kernel.currentCpus c = some task.pid ∨ s.kernel.suspendingTasks c = some task.pid) ∧
        s.zombieToReap c ≠ some task.pid))
  | .schedule .. | .postContextSwitch _ | .takeSlot _ | .unwind _ | .borrow _ | .giveBack _ | .tick .. | .wakeTask _ =>
    isTrue trivial

instance : (e : Event Cpu) → Decidable (Settled s e)
  | .wait4 c .. =>
    inferInstanceAs (Decidable (∀ current ∈ s.kernel.currentCpus c, ∀ c', ∀ pid ∈ s.kernel.currentCpus c',
      ∀ t ∈ s.kernel.task pid, isZombieChild current t = false))
  | .schedule .. | .postContextSwitch _ | .takeSlot _ | .unwind _ | .borrow _ | .giveBack _ | .exitTask .. | .block _
  | .tick .. | .wakeTask _ | .addTask _ => isTrue trivial

end Decidable

/-- tasks that a CPU executes have a reference -/
def Alive (s : Stacks Cpu) : Prop := ∀ c pid, s.kernel.At c pid → s.Referenced pid

/-! ## Invariant -/

structure Kept (s : Stacks Cpu) : Prop where
  apart : s.kernel.Apart
  aside : s.kernel.Aside
  /-- a task that runs is in the table -/
  current : ∀ c pid, s.kernel.currentCpus c = some pid → (s.kernel.slot pid).isSome
  /-- one that is switched away from is on its own stack -/
  suspending : ∀ c pid, s.kernel.suspendingTasks c = some pid → (pid, pid) ∈ s.frames
  distinct : ∀ c pid, s.kernel.currentCpus c = some pid → s.kernel.suspendingTasks c ≠ some pid
  /-- a thread that is to be reaped is dead for good -/
  dead : ∀ c pid, s.zombieToReap c = some pid → s.kernel.Ordinary pid ∧ (∀ c', s.kernel.currentCpus c' ≠ some pid) ∧
    ∀ t, s.kernel.task pid = some t → t.state = .zombie
  idle : ∀ c t, s.kernel.task (s.kernel.idleCpus c) = some t → t.state ≠ .zombie
  pids : ∀ pid t, s.kernel.task pid = some t → t.pid = pid

variable {pid : ℕ}

theorem Kept.isSome_task {s : Stacks Cpu} (hs : Kept s) {c : Cpu} (hc : s.kernel.currentCpus c = some pid) :
    (s.kernel.task pid).isSome := by
  have h := hs.current c pid hc
  rw [slot, isSome_map] at h
  exact h

theorem Kept.alive {s : Stacks Cpu} (hs : Kept s) : Alive s := by
  intro c pid hat
  rcases hat with hcur | hsus
  · exact .inl (hs.isSome_task hcur)
  · exact .inr (.inl ⟨(pid, pid), hs.suspending c pid hsus, rfl⟩)

/-- no CPU changes its task, and zombies that do not run stay zombies -/
structure Calm (k k' : Kernel Cpu) : Prop where
  current : k'.currentCpus = k.currentCpus
  suspending : ∀ c pid, k'.suspendingTasks c = some pid → k.suspendingTasks c = some pid
  idle : k'.idleCpus = k.idleCpus
  slot : ∀ pid, k'.slot pid = k.slot pid
  dead : ∀ pid t', k.Ordinary pid → (∀ c, k.currentCpus c ≠ some pid) → k'.task pid = some t' →
    ∃ t, k.task pid = some t ∧ (t.state = .zombie → t'.state = .zombie)
  idleTasks : ∀ c t', k'.task (k.idleCpus c) = some t' →
    ∃ t, k.task (k.idleCpus c) = some t ∧ (t'.state = .zombie → t.state = .zombie)

variable {s : Stacks Cpu} {k k' k'' : Kernel Cpu}

theorem pid_of_slot (hslot : ∀ pid, k'.slot pid = k.slot pid) {t' : Task} (ht' : k'.task pid = some t') :
    ∃ t, k.task pid = some t ∧ t.pid = t'.pid := by
  have h := hslot pid
  rw [slot, ht', map_some] at h
  obtain ⟨t, ht, hid⟩ := map_eq_some_iff.1 h.symm
  exact ⟨t, ht, congrArg Prod.fst hid⟩

theorem Kept.calm (hs : Kept s) (h : Calm s.kernel k) (hapart : k.Apart) (haside : k.Aside) :
    Kept { s with kernel := k } where
  apart := hapart
  aside := haside
  current c pid hc := by
    rw [h.current] at hc
    rw [h.slot]
    exact hs.current c pid hc
  suspending c pid hc := hs.suspending c pid (h.suspending c pid hc)
  distinct c pid hc hs' := by
    rw [h.current] at hc
    exact hs.distinct c pid hc (h.suspending c pid hs')
  dead c pid hc := by
    obtain ⟨hord, hcur, hzombie⟩ := hs.dead c pid hc
    refine ⟨?_, ?_, fun t' ht' => ?_⟩
    · rw [Ordinary, h.idle]
      exact hord
    · rw [h.current]
      exact hcur
    · obtain ⟨t, ht, hz⟩ := h.dead pid t' hord hcur ht'
      exact hz (hzombie t ht)
  idle c t' ht' hz := by
    rw [h.idle] at ht'
    obtain ⟨t, ht, hz'⟩ := h.idleTasks c t' ht'
    exact hs.idle c t ht (hz' hz)
  pids pid t' ht' := by
    obtain ⟨t, ht, hpid⟩ := pid_of_slot h.slot ht'
    exact hpid.symm.trans (hs.pids pid t ht)

theorem calm_of_quiet (h : k.Quiet k') : Calm k k' where
  current := h.current
  suspending c pid hc := by
    rw [h.suspending] at hc
    exact hc
  idle := h.idle
  slot := h.slot
  dead pid t' _ _ ht' := by
    obtain ⟨t, ht, htt⟩ := h.before ht'
    refine ⟨t, ht, fun hz => ?_⟩
    rcases htt.state with hs | ⟨hb, _⟩
    · exact hs.trans hz
    · rw [hb] at hz
      cases hz
  idleTasks c t' ht' := by
    obtain ⟨t, ht, htt⟩ := h.before ht'
    refine ⟨t, ht, fun hz => ?_⟩
    rcases htt.state with hs | ⟨_, hr⟩
    · exact hs.symm.trans hz
    · rw [hr] at hz
      cases hz

theorem Calm.trans (h : Calm k k') (h' : Calm k' k'') : Calm k k'' where
  current := h'.current.trans h.current
  suspending c pid hc := h.suspending c pid (h'.suspending c pid hc)
  idle := h'.idle.trans h.idle
  slot pid := (h'.slot pid).trans (h.slot pid)
  dead pid t'' hord hcur ht'' := by
    obtain ⟨t', ht', hz'⟩ := h'.dead pid t'' (by rw [Ordinary, h.idle]; exact hord) (by rw [h.current]; exact hcur) ht''
    obtain ⟨t, ht, hz⟩ := h.dead pid t' hord hcur ht'
    exact ⟨t, ht, fun hs => hz' (hz hs)⟩
  idleTasks c t'' ht'' := by
    rw [← h.idle] at ht''
    obtain ⟨t', ht', hz'⟩ := h'.idleTasks c t'' ht''
    rw [h.idle] at ht'
    obtain ⟨t, ht, hz⟩ := h.idleTasks c t' ht'
    exact ⟨t, ht, fun hs => hz (hz' hs)⟩

theorem Kept.quiet (hs : Kept s) (h : s.kernel.Quiet k) : Kept { s with kernel := k } :=
  hs.calm (calm_of_quiet h) (h.apart hs.apart) (h.bland.aside hs.aside)

theorem calm_setState {c : Cpu} {state : TaskState} (hc : k.currentCpus c = some pid)
    (hstate : state ≠ .zombie) : Calm k (k.setState pid state) where
  current := rfl
  suspending _ _ h := h
  idle := rfl
  slot _ := slot_setState
  dead other t' _ hcur ht' := by
    have hne : other ≠ pid := by
      rintro rfl
      exact hcur c hc
    rw [setState, task_setTask, if_neg hne] at ht'
    exact ⟨t', ht', id⟩
  idleTasks c' t' ht' := by
    rw [setState, task_setTask] at ht'
    split_ifs at ht'
    · obtain ⟨t, ht, rfl⟩ := map_eq_some_iff.1 ht'
      exact ⟨t, ht, fun h => absurd h hstate⟩
    · exact ⟨t', ht', id⟩

theorem Kept.block (hs : Kept s) {c : Cpu} (hc : s.kernel.currentCpus c = some pid)
    (hord : s.kernel.Ordinary pid) : Kept { s with kernel := s.kernel.setState pid .blocked } :=
  hs.calm (calm_setState hc (by decide)) (hs.apart.same rfl rfl rfl) (hs.aside.block hord)

theorem Kept.not_dead (hs : Kept s) {t : Task} (ht : s.kernel.task pid = some t) (hr : t.state = .ready)
    (c' : Cpu) : s.zombieToReap c' ≠ some pid := by
  intro hc
  rw [(hs.dead c' pid hc).2.2 t ht] at hr
  cases hr

section Switch

variable [DecidableEq Cpu] {c : Cpu} {cur next : ℕ}

omit [DecidableEq Cpu] in
theorem self_mem_clones (h : (k.task cur).isSome) : (cur, cur) ∈ clones k cur next := by
  obtain ⟨t, ht⟩ := isSome_iff_exists.1 h
  rw [clones, ht]
  exact mem_cons_self

/-- the switch to a task that is in the table and not to be reaped -/
theorem Kept.switched (hs : Kept s) (hcur : s.kernel.currentCpus c = some cur) (hne : next ≠ cur)
    (hpresent : (s.kernel.slot next).isSome) (hfree : s.kernel.Free c next)
    (hnext : ∀ c', s.zombieToReap c' ≠ some next) {frames : List (ℕ × ℕ)} (hframes : s.frames ⊆ frames)
    (hself : (cur, cur) ∈ frames) : Kept { s with kernel := s.kernel.switched c cur next, frames := frames } where
  apart := hs.apart.switched hcur hfree
  aside := (bland_switched s.kernel c cur next).aside hs.aside
  current c' pid hc := by
    rw [slot_switched]
    rw [currentCpus_switched] at hc
    split_ifs at hc
    · cases hc
      exact hpresent
    · exact hs.current c' pid hc
  suspending c' pid hc := by
    rw [suspendingTasks_switched] at hc
    split_ifs at hc
    · obtain ⟨_, _, rfl⟩ := map_eq_some_iff.1 hc
      exact hself
    · exact hframes (hs.suspending c' pid hc)
  distinct := distinct_switched hs.distinct hne
  dead c' pid hc := by
    obtain ⟨hord, hnot, hzombie⟩ := hs.dead c' pid hc
    have hpid : pid ≠ next := by
      rintro rfl
      exact hnext c' hc
    refine ⟨hord, fun c1 h => ?_, fun t' ht' => ?_⟩
    · rw [currentCpus_switched] at h
      split_ifs at h
      · exact hpid (some.inj h).symm
      · exact hnot c1 h
    · obtain ⟨t, ht, -, ⟨hnext, -⟩ | ⟨-, hstate | ⟨rfl, -⟩⟩⟩ := task_switched ht'
      · exact absurd hnext hpid
      · exact hstate.trans (hzombie t ht)
      · exact absurd hcur (hnot c)
  idle c' t' ht' hz := by
    obtain ⟨t, ht, -, ⟨-, hrun⟩ | ⟨-, hstate | ⟨-, -, hready⟩⟩⟩ := task_switched ht'
    · cases hrun.symm.trans hz
    · exact hs.idle c' t ht (hstate.symm.trans hz)
    · cases hready.symm.trans hz
  pids pid t' ht' := by
    obtain ⟨t, ht, hpid⟩ := pid_of_slot (slot_switched s.kernel c cur next) ht'
    exact hpid.symm.trans (hs.pids pid t ht)

theorem calm_unsuspend (k : Kernel Cpu) (c : Cpu) : Calm k { k with suspendingTasks := update k.suspendingTasks c none } := by
  refine { calm_of_quiet (Quiet.refl k) with suspending := fun c' pid h => ?_ }
  change update k.suspendingTasks c none c' = some pid at h
  rw [update_apply] at h
  split_ifs at h
  exact h

theorem Kept.schedule [Fintype Cpu] (hs : Kept s) (c : Cpu) (locks : Contention) : Kept (s.schedule c locks) := by
  have hcases := schedule_cases s.kernel c locks
  have hapart := hs.apart.schedule hs.aside c locks
  have haside := (bland_schedule s.kernel c locks).aside hs.aside
  rw [Stacks.schedule]
  generalize s.kernel.schedule c locks = r at hcases hapart haside ⊢
  cases hcases with
  | off => exact hs
  | held => exact hs
  | contended hc hpick hlock =>
    have hcalm := calm_of_quiet hpick.quiet
    exact hs.calm { hcalm with } hapart haside
  | @next cur next k' hc hpick hne =>
    obtain ⟨hqueued, hbusy, t, ht, hready⟩ := hpick.picked next rfl
    have hs' := hs.quiet hpick.quiet
    have hnow : (k'.switched c cur next).currentCpus c = some next := update_self ..
    rw [hc, hnow]
    rw [← hpick.current] at hc
    refine hs'.switched hc hne ?_ (hpick.free hs.aside) (fun c' => hs.not_dead ht hready c')
      (subset_append_right _ _) (mem_append_left _ (self_mem_clones ?_))
    · rw [hpick.quiet.slot, slot, ht]
      rfl
    · exact hs.isSome_task (hpick.current ▸ hc)
  | @stays cur k' t hc hpick ht hrun =>
    have hset : Calm k' (k'.setState cur .running) := calm_setState ((congrFun hpick.current c).trans hc) (by decide)
    exact hs.calm (((calm_of_quiet hpick.quiet).trans hset).trans (calm_unsuspend _ c)) hapart haside
  | @idleOn k' hc hpick hrun =>
    exact hs.calm ((calm_of_quiet hpick.quiet).trans
      (calm_setState ((congrFun hpick.current c).trans hc) (by decide))) hapart haside
  | @toIdle cur k' hc hpick hrun hne hidle =>
    have hs' := hs.quiet hpick.quiet
    have hnow : (k'.switched c cur (s.kernel.idleCpus c)).currentCpus c = some (s.kernel.idleCpus c) :=
      update_self ..
    rw [hc, hnow]
    rw [← hpick.current] at hc
    refine hs'.switched hc hne ?_ ?_ (fun c' h => (hs.dead c' _ h).1 c rfl)
      (subset_append_right _ _) (mem_append_left _ (self_mem_clones ?_))
    · rw [slot, isSome_map]
      exact hidle
    · rw [← hpick.idle]
      exact hs'.apart.free_idle c
    · exact hs.isSome_task (hpick.current ▸ hc)
  | noIdle hc hpick hrun hidle => exact hs.quiet hpick.quiet

theorem calm_postContextSwitch (k : Kernel Cpu) (c : Cpu) : Calm k (k.postContextSwitch c).1 :=
  (calm_unsuspend k c).trans (calm_of_quiet (quiet_postContextSwitch k c))

/-- a thread that is to be reaped was suspending, and is a zombie -/
theorem postContextSwitch_reaps (h : (k.postContextSwitch c).2 = some pid) :
    k.suspendingTasks c = some pid ∧ ∃ t, k.task pid = some t ∧ t.state = .zombie := by
  rw [postContextSwitch] at h
  cases hs : k.suspendingTasks c with
  | none =>
    rw [hs] at h
    cases h
  | some suspended =>
    rw [hs] at h
    dsimp only at h
    cases ht : task { k with suspendingTasks := update k.suspendingTasks c none } suspended with
    | none =>
      rw [ht] at h
      cases h
    | some t =>
      rw [ht] at h
      dsimp only at h
      split_ifs at h with hready hqueue hzombie
      cases h
      exact ⟨rfl, t, ht, hzombie.1⟩

theorem Kept.postContextSwitch (hs : Kept s) (c : Cpu) :
    Kept { s with
      kernel := (s.kernel.postContextSwitch c).1
      zombieToReap := update s.zombieToReap c (s.kernel.postContextSwitch c).2 } := by
  have hcalm := calm_postContextSwitch s.kernel c
  have hs' := hs.calm hcalm (hs.apart.postContextSwitch c)
    ((bland_postContextSwitch s.kernel c).aside hs.aside)
  refine { hs' with dead := fun c' pid h => ?_ }
  change update s.zombieToReap c (s.kernel.postContextSwitch c).2 c' = some pid at h
  rw [update_apply] at h
  split_ifs at h
  · obtain ⟨hsus, t, ht, hzombie⟩ := postContextSwitch_reaps h
    have hord : s.kernel.Ordinary pid := by
      rintro c1 rfl
      exact hs.idle c1 t ht hzombie
    have hcur : ∀ c1, s.kernel.currentCpus c1 ≠ some pid := by
      intro c1 h1
      rw [hs.apart.one c1 c pid (.inl h1) (.inr hsus)] at h1
      exact hs.distinct c pid h1 hsus
    refine ⟨?_, ?_, fun t' ht' => ?_⟩
    · rw [Ordinary, hcalm.idle]
      exact hord
    · rw [hcalm.current]
      exact hcur
    · obtain ⟨u, hu, hz⟩ := hcalm.dead pid t' hord hcur ht'
      cases ht.symm.trans hu
      exact hz hzombie
  · exact hs'.dead c' pid h

theorem Kept.taken (hs : Kept s) (c : Cpu) : Kept { s with zombieToReap := update s.zombieToReap c none } := by
  refine { hs with dead := fun c' pid h => ?_ }
  change update s.zombieToReap c none c' = some pid at h
  rw [update_apply] at h
  split_ifs at h
  exact hs.dead c' pid h

end Switch

section Reap

variable {c : Cpu}

section

variable (hs : Kept s)
include hs

theorem Kept.reap (hcur : ∀ c, s.kernel.currentCpus c ≠ some pid) : Kept { s with kernel := s.kernel.reap pid } := by
  have hbefore : ∀ {other t}, (s.kernel.reap pid).task other = some t → s.kernel.task other = some t := by
    intro other t ht
    rw [task_reap] at ht
    split_ifs at ht
    exact ht
  refine ⟨hs.apart.same rfl rfl rfl, hs.aside.reap pid, fun c other hc => ?_, hs.suspending, hs.distinct,
    fun c other hc => ?_, fun c t ht => hs.idle c t (hbefore ht), fun other t ht => hs.pids other t (hbefore ht)⟩
  · have hne : other ≠ pid := by
      rintro rfl
      exact hcur c hc
    rw [slot, task_reap, if_neg hne]
    exact hs.current c other hc
  · obtain ⟨hord, hnot, hzombie⟩ := hs.dead c other hc
    exact ⟨hord, hnot, fun t ht => hzombie t (hbefore ht)⟩

/-- a thread that runs is not being switched away from, and may drop its clones -/
theorem Kept.unwind (hc : s.kernel.currentCpus c = some pid) :
    Kept { s with frames := s.frames.filter fun frame => frame.1 ≠ pid } := by
  refine { hs with suspending := fun c' other h => ?_ }
  refine mem_filter.2 ⟨hs.suspending c' other h, decide_eq_true ?_⟩
  rintro rfl
  rw [hs.apart.one c' c other (.inr h) (.inl hc)] at h
  exact hs.distinct c other hc h

theorem Kept.exitTask (hord : s.kernel.Ordinary pid) (exitCode : Int32) (locked : ℕ → Bool)
    (wakes : ExitWakes) : Kept { s with kernel := s.kernel.exitTask pid exitCode locked wakes } := by
  have hquiet := quiet_exitTask s.kernel pid exitCode locked wakes
  have hzombie : Calm s.kernel (s.kernel.setTask pid fun t => { t with state := .zombie, exitCode := some exitCode }) := by
    refine ⟨rfl, fun _ _ h => h, rfl, fun _ => slot_setTask fun _ => rfl, fun other t' _ _ ht' => ?_,
      fun c t' ht' => ?_⟩
    · rw [task_setTask] at ht'
      split_ifs at ht'
      · obtain ⟨t, ht, rfl⟩ := map_eq_some_iff.1 ht'
        exact ⟨t, ht, fun _ => rfl⟩
      · exact ⟨t', ht', id⟩
    · rw [task_setTask, if_neg (Ne.symm (hord c))] at ht'
      exact ⟨t', ht', id⟩
  exact hs.calm (hzombie.trans (calm_of_quiet hquiet)) (hquiet.apart (hs.apart.same rfl rfl rfl))
    ((bland_exitTask s.kernel pid exitCode locked wakes).aside hs.aside)

/-- a zombie that `sys_wait4` finds is a child of the caller, in the slot of its pid -/
theorem mem_candidates {pid : Int32} {currentPgid : ℕ} {t : Task}
    (h : t ∈ s.kernel.candidates pid currentPgid) : s.kernel.task t.pid = some t := by
  have hslot : ∃ other, s.kernel.task other = some t := by
    rw [candidates] at h
    split_ifs at h
    · exact ⟨_, mem_toList.1 h⟩
    · obtain ⟨hmem, _⟩ := mem_filter.1 h
      obtain ⟨slot, hin, hslot⟩ := mem_filterMap.1 hmem
      obtain ⟨i, hi⟩ := mem_iff_getElem?.1 hin
      refine ⟨i, ?_⟩
      rw [task, Slots.get, hi]
      exact hslot
  obtain ⟨other, ht⟩ := hslot
  rw [hs.pids other t ht]
  exact ht

theorem Kept.wait4 {current : ℕ} (hc : s.kernel.currentCpus c = some current)
    (hord : s.kernel.Ordinary current) {currentPgid : ℕ} {pid : Int32} {nohang : Bool}
    (hsettled : Settled s (.wait4 c currentPgid pid nohang)) :
    Kept { s with kernel := (s.kernel.wait4 current currentPgid pid nohang).1 } := by
  rw [Kernel.wait4]
  cases hfind : (s.kernel.candidates pid currentPgid).find? (isZombieChild current) with
  | none =>
    split_ifs
    · exact hs
    · exact hs
    · exact hs.block hc hord
  | some t =>
    refine hs.reap fun c' h => ?_
    have hslot := mem_candidates hs (mem_of_find?_eq_some hfind)
    have hzombie := find?_some hfind
    rw [hsettled current hc c' t.pid h t hslot] at hzombie
    cases hzombie

theorem Kept.addTask {task : Task} (hord : s.kernel.Ordinary task.pid)
    (hfresh : ∀ c, s.zombieToReap c ≠ some task.pid) : Kept { s with kernel := s.kernel.addTask task } := by
  have htask : ∀ other, (s.kernel.addTask task).task other =
      if other = task.pid then some { task with inQueue := true } else s.kernel.task other := fun _ => task_addTask ..
  refine ⟨hs.apart.same rfl rfl rfl, hs.aside.addTask hord, fun c pid hc => ?_, hs.suspending, hs.distinct,
    fun c pid hc => ?_, fun c t ht => ?_, fun pid t ht => ?_⟩
  · rw [slot, isSome_map, htask]
    split_ifs
    · rfl
    · exact hs.isSome_task hc
  · obtain ⟨hord', hnot, hzombie⟩ := hs.dead c pid hc
    refine ⟨hord', hnot, fun t ht => ?_⟩
    rw [htask, if_neg fun h : pid = task.pid => hfresh c (h ▸ hc)] at ht
    exact hzombie t ht
  · change (s.kernel.addTask task).task (s.kernel.idleCpus c) = some t at ht
    rw [htask, if_neg (Ne.symm (hord c))] at ht
    exact hs.idle c t ht
  · rw [htask] at ht
    split_ifs at ht with h
    · cases ht
      exact h.symm
    · exact hs.pids pid t ht

end

end Reap

section Step

variable [Fintype Cpu] [DecidableEq Cpu]

theorem kept_step {e : Event Cpu} (hs : Kept s) (he : Legal s e) (hsettled : Settled s e) : Kept (s.step e) := by
  cases e with
  | schedule c locks => exact hs.schedule c locks
  | postContextSwitch c => exact hs.postContextSwitch c
  | takeSlot c =>
    rw [step]
    cases hz : s.zombieToReap c with
    | none => exact hs
    | some pid => exact (hs.reap (hs.dead c pid hz).2.1).taken c
  | unwind c =>
    rw [step]
    cases hc : s.kernel.currentCpus c with
    | none => exact hs
    | some pid => exact hs.unwind hc
  | borrow pid =>
    rw [step]
    split_ifs
    · exact { hs with }
    · exact hs
  | giveBack pid => exact { hs with }
  | exitTask pid exitCode locked wakes => exact hs.exitTask he exitCode locked wakes
  | wait4 c currentPgid pid nohang =>
    rw [step]
    cases hc : s.kernel.currentCpus c with
    | none => exact hs
    | some current => exact hs.wait4 hc (he current hc) hsettled
  | block c =>
    rw [step]
    cases hc : s.kernel.currentCpus c with
    | none => exact hs
    | some pid => exact hs.block hc (he pid hc)
  | tick c expired locked => exact hs.quiet (quiet_tick s.kernel c expired locked)
  | wakeTask pid => exact hs.quiet (quiet_wakeTask s.kernel pid)
  | addTask task => exact hs.addTask he.1 fun c => (he.2.2 c).2

end Step

/-! ## Runs -/

/-- no clones yet, and nothing to reap -/
def start {n : ℕ} (k : Kernel (Fin n)) : Stacks (Fin n) :=
  { kernel := k, frames := [], borrowed := fun _ => 0, zombieToReap := fun _ => none }

theorem kept_start {n : ℕ} {k : Kernel (Fin n)} (hk : k.Started) : Kept (start k) := by
  have hnone : ∀ c pid, k.suspendingTasks c ≠ some pid := by
    intro c pid h
    rw [hk.suspending] at h
    cases h
  refine ⟨hk.apart, hk.aside, fun c pid hc => ?_, fun c pid hc => absurd hc (hnone c pid), fun c pid _ => hnone c pid,
    nofun, fun c t ht => (hk.tasks ht).2, fun pid t ht => (hk.tasks ht).1⟩
  obtain ⟨t, ht, _⟩ := hk.current hc
  rw [slot, isSome_map]
  exact isSome_iff_exists.2 ⟨t, ht⟩

/-- **A kernel stack outlives its use.** In every interleaving in which no zombie child of the caller runs on some CPU at a
`sys_wait4`, every task that is current or suspending on a CPU has a reference, so that `Drop for Task` does not free its
stack. -/
theorem stack_outlives_use {n : ℕ} {k : Kernel (Fin n)} (hk : k.Started) {es : List (Event (Fin n))}
    (hes : Each step (fun s e => Legal s e ∧ Settled s e) (start k) es) : Alive (run step (start k) es) :=
  (invariant (fun _ _ hs he => kept_step hs he.1 he.2) (kept_start hk) hes).alive

/-- nobody else holds a lock -/
def uncontended : Contention := ⟨false, fun _ => false, false⟩

/-- CPU 0 goes from the parent to its child, the parent moves on to CPU 1, and the child exits -/
def childExits : List (Event (Fin 2)) :=
  [.addTask { Task.new 3 with parentPid := 2 }, .schedule 0 uncontended, .postContextSwitch 0, .schedule 1 uncontended,
    .postContextSwitch 1, .unwind 1, .exitTask 3 0 (fun _ => false) ⟨[], [], []⟩]

def parentAndCpus : Stacks (Fin 2) := start ((init 2).setBootstrapThread 0 (Task.new 2))

/-- the parent waits once the child has left its stack -/
theorem stack_outlives_wait : (run step parentAndCpus (childExits ++ [.schedule 0 uncontended])).kernel.At 0 3 ∧
    Alive (run step parentAndCpus (childExits ++ [.schedule 0 uncontended, .wait4 1 2 (-1) false])) := by
  exact ⟨.inr (by decide +kernel), stack_outlives_use (.boot (by decide) 0) (by decide +kernel)⟩

/-- the parent waits while the child is on its way to its last `schedule()`, and takes the last reference to it -/
theorem stack_freed_under_thread : Each step Legal parentAndCpus (childExits ++ [.wait4 1 2 (-1) false]) ∧
    (run step parentAndCpus (childExits ++ [.wait4 1 2 (-1) false])).kernel.At 0 3 ∧
    ¬(run step parentAndCpus (childExits ++ [.wait4 1 2 (-1) false])).Referenced 3 :=
  ⟨by decide +kernel, .inl (by decide +kernel), by decide +kernel⟩

end Stacks

end Kontsnor.Process
