/-
Blocking calls: `WaitQueue::wait_since`, the FUTEX_WAIT branch of `sys_futex`, and `sleep_until`.

Each of them marks the calling task `Blocked` and then calls `schedule()`, and takes the return of `schedule()` for having
been woken. But `schedule()` also returns where a `try_lock` fails: that of the current task, and the second one of the
task that it has picked. The caller then goes on while it is marked `Blocked`, and is lost at its next preemption.

A thread is at a `Place` of such a call. The CPUs run their current tasks, are preempted at any moment, and tick, wake and
exit as they like. What the calls do with their queues and timers is in `expired`, the waiters and the woken pids.

**Main result.** `blocking_returns_running`.
-/
import Kontsnor.Process.Exclusion

namespace Kontsnor.Process

open Runs Function Option Kernel Kontsnor.Process.Task

/-! ## Model -/

inductive Call
  | waitSince | futexWait | sleepUntil
  deriving DecidableEq, Repr

/-- where a thread is -/
inductive Place
  | outside
  /-- marked `Blocked` -/
  | marked (call : Call)
  /-- `wait_since` has found itself still `Blocked` -/
  | checked
  /-- switched away from in the `schedule()` of the call -/
  | away
  /-- `schedule()` has returned -/
  | returning
  /-- after `exit_task` -/
  | dead
  deriving DecidableEq, Repr

/-- the next step of the call is `schedule()` -/
def Place.Schedules (p : Place) : Prop := p = .checked ∨ p = .marked .futexWait ∨ p = .marked .sleepUntil

instance (p : Place) : Decidable p.Schedules := inferInstanceAs (Decidable (_ ∨ _))

structure Threads (Cpu : Type) where
  kernel : Kernel Cpu
  place : ℕ → Place

namespace Threads

variable {Cpu : Type}

def moveTo (s : Threads Cpu) (pid : ℕ) (p : Place) : Threads Cpu := { s with place := update s.place pid p }

/-- one step, of the thread that a CPU runs or of the kernel -/
inductive Event (Cpu : Type)
  /-- the call returns without blocking: something has happened, a signal is pending, or the time is over -/
  | refuse (c : Cpu)
  | mark (c : Cpu) (call : Call)
  /-- `wait_since` looks at the state of the task again -/
  | recheck (c : Cpu)
  /-- `schedule()` in the call -/
  | block (c : Cpu) (locks : Kernel.Contention)
  /-- the call returns after `schedule()` -/
  | finish (c : Cpu)
  /-- `schedule()` in the timer interrupt -/
  | preempt (c : Cpu) (locks : Kernel.Contention)
  | other (e : Kernel.Event Cpu)

section Step

variable [Fintype Cpu] [DecidableEq Cpu] (s : Threads Cpu)

/-- `schedule()` on a CPU; a thread that is switched to and was in the `schedule()` of a call returns from it -/
def reschedule (c : Cpu) (locks : Kernel.Contention) : Threads Cpu × Bool :=
  let r := s.kernel.schedule c locks
  let s := { s with kernel := r.1 }
  match r.1.currentCpus c with
  | some next => (if r.2 ∧ s.place next = .away then s.moveTo next .returning else s, r.2)
  | none => (s, r.2)

/-- the call of a thread comes to `schedule()` -/
def block (c : Cpu) (pid : ℕ) (locks : Kernel.Contention) : Threads Cpu :=
  let r := s.reschedule c locks
  r.1.moveTo pid (if r.2 then .away else .returning)

def placeAfter : Kernel.Event Cpu → ℕ → Place
  | .exitTask pid .. => update s.place pid .dead
  | .addTask task => update s.place task.pid .outside
  | _ => s.place

def step (s : Threads Cpu) : Event Cpu → Threads Cpu
  | .refuse _ => s
  | .mark c call =>
    match s.kernel.currentCpus c with
    | some pid =>
      if s.place pid = .outside then
        Threads.moveTo { s with kernel := s.kernel.setState pid .blocked } pid (.marked call)
      else s
    | none => s
  | .recheck c =>
    match s.kernel.currentCpus c with
    | some pid =>
      if s.place pid = .marked .waitSince then
        if (s.kernel.task pid).any fun t => t.state ≠ .blocked then
          Threads.moveTo { s with kernel := s.kernel.setState pid .running } pid .outside
        else s.moveTo pid .checked
      else s
    | none => s
  | .block c locks =>
    match s.kernel.currentCpus c with
    | some pid => if (s.place pid).Schedules then s.block c pid locks else s
    | none => s
  | .finish c =>
    match s.kernel.currentCpus c with
    | some pid => if s.place pid = .returning then s.moveTo pid .outside else s
    | none => s
  | .preempt c locks => (s.reschedule c locks).1
  | .other e => { kernel := s.kernel.step e, place := s.placeAfter e }

/-- the thread whose call returns in a step -/
def returner : Event Cpu → Option ℕ
  | .refuse c => (s.kernel.currentCpus c).filter fun pid => s.place pid = .outside
  | .recheck c => (s.kernel.currentCpus c).filter fun pid =>
      s.place pid = .marked .waitSince ∧ (s.kernel.task pid).any fun t => t.state ≠ .blocked
  | .finish c => (s.kernel.currentCpus c).filter fun pid => s.place pid = .returning
  | _ => none

def RunningAtReturn (e : Event Cpu) : Prop :=
  (s.returner e).all fun pid => ((s.step e).kernel.task pid).any fun t => t.state = .running

/-- Idle tasks make no blocking calls, keep their pids and are not reaped. A thread is not killed in the course of a call,
and not reaped while it runs; a new task has a pid that no CPU is at. -/
def Legal : Event Cpu → Prop
  | .refuse c | .mark c _ | .recheck c | .block c _ | .finish c =>
    ∀ pid ∈ s.kernel.currentCpus c, s.kernel.Ordinary pid
  | .other (.schedule ..) | .other (.blockTask _) => False
  | .other (.exitTask pid ..) => s.place pid = .outside
  | .other (.reap pid) => s.kernel.Ordinary pid ∧ ∀ c, s.kernel.currentCpus c ≠ some pid
  | .other (.addTask task) => s.kernel.Ordinary task.pid ∧ ∀ c, s.kernel.currentCpus c ≠ some task.pid
  | _ => True

/-- at the `schedule()` of a blocking call, nobody else holds the lock of the caller, or that of the next task -/
def Uncontended (_ : Threads Cpu) : Event Cpu → Prop
  | .block _ locks => locks.current = false ∧ locks.next = false
  | _ => True

variable (s : Threads Cpu)

instance : (e : Event Cpu) → Decidable (Legal s e)
  | .refuse c | .mark c _ | .recheck c | .block c _ | .finish c =>
    inferInstanceAs (Decidable (∀ pid ∈ s.kernel.currentCpus c, s.kernel.Ordinary pid))
  | .other (.schedule ..) | .other (.blockTask _) => isFalse id
  | .other (.exitTask pid ..) => inferInstanceAs (Decidable (s.place pid = .outside))
  | .other (.reap pid) =>
    inferInstanceAs (Decidable (s.kernel.Ordinary pid ∧ ∀ c, s.kernel.currentCpus c ≠ some pid))
  | .other (.addTask task) =>
    inferInstanceAs (Decidable (s.kernel.Ordinary task.pid ∧ ∀ c, s.kernel.currentCpus c ≠ some task.pid))
  | .other (.postContextSwitch _) | .other (.tick ..) | .other (.wakeTask _) | .preempt .. => isTrue trivial

instance : (e : Event Cpu) → Decidable (Uncontended s e)
  | .block _ locks => inferInstanceAs (Decidable (locks.current = false ∧ locks.next = false))
  | .refuse _ | .mark .. | .recheck _ | .finish _ | .preempt .. | .other _ => isTrue trivial

instance (e : Event Cpu) : Decidable (RunningAtReturn s e) :=
  inferInstanceAs (Decidable (_ = true))

end Step

/-! ## What `schedule` does to the tasks that run -/

variable {cur next : ℕ}

section Schedule

variable {k k' : Kernel Cpu} {c : Cpu} {locks : Kernel.Contention}

def IsRunning (k : Kernel Cpu) (pid : ℕ) : Prop := ∃ t, k.task pid = some t ∧ t.state = .running

/-- a task that is there stays there, and runs on if it did -/
def StillRuns (k k' : Kernel Cpu) (pid : ℕ) : Prop :=
  ∀ t, k.task pid = some t → ∃ t', k'.task pid = some t' ∧ (t.state = .running → t'.state = .running)

variable {pid : ℕ}

theorem stillRuns_of_eq (h : k'.task pid = k.task pid) : StillRuns k k' pid :=
  fun t ht => ⟨t, h.trans ht, id⟩

theorem stillRuns_of_quiet (h : k.Quiet k') (pid : ℕ) : StillRuns k k' pid := by
  intro t ht
  obtain ⟨t', ht', htt⟩ := h.after ht
  refine ⟨t', ht', fun hrun => ?_⟩
  rcases htt.state with hs | ⟨hb, _⟩
  · exact hs.trans hrun
  · rw [hb] at hrun
    cases hrun

theorem StillRuns.trans {k'' : Kernel Cpu} (h : StillRuns k k' pid) (h' : StillRuns k' k'' pid) :
    StillRuns k k'' pid := by
  intro t ht
  obtain ⟨t', ht', hrun⟩ := h t ht
  obtain ⟨t'', ht'', hrun'⟩ := h' t' ht'
  exact ⟨t'', ht'', fun h => hrun' (hrun h)⟩

theorem stillRuns_setState (k : Kernel Cpu) (other pid : ℕ) : StillRuns k (k.setState other .running) pid := by
  intro t ht
  rw [setState, task_setTask, ht]
  split_ifs
  · exact ⟨_, rfl, fun _ => rfl⟩
  · exact ⟨t, rfl, id⟩

theorem isRunning_setState (h : (k.task pid).isSome) : IsRunning (k.setState pid .running) pid := by
  obtain ⟨t, ht⟩ := isSome_iff_exists.1 h
  rw [IsRunning, setState, task_setTask, if_pos rfl, ht]
  exact ⟨_, rfl, rfl⟩

variable [DecidableEq Cpu]

theorem task_switched_of_ne (hcur : pid ≠ cur) (hnext : pid ≠ next) :
    (k.switched c cur next).task pid = k.task pid := by
  change ((k.setTask cur yield).setState next .running).task pid = k.task pid
  rw [setState, task_setTask, if_neg hnext, task_setTask, if_neg hcur]

theorem isRunning_switched (hpresent : (k.task next).isSome) : IsRunning (k.switched c cur next) next := by
  obtain ⟨t, ht⟩ := isSome_iff_exists.1 hpresent
  change IsRunning ((k.setTask cur yield).setState next .running) next
  rw [IsRunning, setState, task_setTask, if_pos rfl, task_setTask, ht]
  split_ifs <;> exact ⟨_, rfl, rfl⟩

variable [Fintype Cpu]

/-- the tasks that run after a switch: the next one, and those of the other CPUs as before -/
theorem switched_running (hk : k.Apart) {k' : Kernel Cpu} {picked : Option ℕ} (hpick : Picks k k' picked)
    (hcur : k.currentCpus c = some cur) (hnext : ∀ c', c' ≠ c → k.currentCpus c' ≠ some next)
    (hpresent : (k'.task next).isSome) {c' : Cpu} (h : (k'.switched c cur next).currentCpus c' = some pid) :
    IsRunning (k'.switched c cur next) pid ∨
      ((c' = c → true = false) ∧ k.currentCpus c' = some pid ∧ StillRuns k (k'.switched c cur next) pid) := by
  rw [currentCpus_switched, hpick.current] at h
  split_ifs at h with hc
  · cases h
    exact .inl (isRunning_switched hpresent)
  · have hsame : (k'.switched c cur next).task pid = k'.task pid := by
      apply task_switched_of_ne
      · rintro rfl
        exact hc (hk.one c' c pid (.inl h) (.inl hcur))
      · rintro rfl
        exact hnext c' hc h
    exact .inr ⟨fun heq => absurd heq hc, h, (stillRuns_of_quiet hpick.quiet pid).trans (stillRuns_of_eq hsame)⟩

/-- after `schedule` a CPU runs a task it has switched to, or what it ran before -/
theorem schedule_running (hk : k.Apart) {c' : Cpu} (h : (k.schedule c locks).1.currentCpus c' = some pid) :
    IsRunning (k.schedule c locks).1 pid ∨
      ((c' = c → (k.schedule c locks).2 = false) ∧ k.currentCpus c' = some pid ∧
        StillRuns k (k.schedule c locks).1 pid) := by
  have hcases := schedule_cases k c locks
  generalize k.schedule c locks = r at hcases h ⊢
  cases hcases with
  | off => exact .inr ⟨fun _ => rfl, h, stillRuns_of_eq rfl⟩
  | held => exact .inr ⟨fun _ => rfl, h, stillRuns_of_eq rfl⟩
  | @contended cur next k' priority hc hpick hlock =>
    refine .inr ⟨fun _ => rfl, ?_, stillRuns_of_quiet hpick.quiet pid⟩
    rw [← hpick.current]
    exact h
  | @next cur next k' hc hpick hne =>
    obtain ⟨_, hbusy, t, ht, _⟩ := hpick.picked next rfl
    have hpresent : (k'.task next).isSome := by
      obtain ⟨t', ht', _⟩ := hpick.quiet.after ht
      rw [ht']
      rfl
    exact switched_running hk hpick hc (fun c' _ => (not_busy hbusy c').1) hpresent h
  | @stays cur k' t hc hpick ht hrun =>
    refine .inr ⟨fun _ => rfl, ?_, (stillRuns_of_quiet hpick.quiet pid).trans (stillRuns_setState k' cur pid)⟩
    rw [← hpick.current]
    exact h
  | @idleOn k' hc hpick hrun =>
    refine .inr ⟨fun _ => rfl, ?_, (stillRuns_of_quiet hpick.quiet pid).trans (stillRuns_setState k' _ pid)⟩
    rw [← hpick.current]
    exact h
  | @toIdle cur k' hc hpick hrun hne hidle =>
    exact switched_running hk hpick hc (fun c' hc' h => hc' (hk.home c c' (.inl h))) hidle h
  | @noIdle cur k' hc hpick hrun hidle =>
    refine .inr ⟨fun _ => rfl, ?_, stillRuns_of_quiet hpick.quiet pid⟩
    rw [← hpick.current]
    exact h

/-- without contention, `schedule` returns without a switch only if the task is to run on -/
theorem schedule_returns (hcur : k.currentCpus c = some cur) (hord : cur ≠ k.idleCpus c)
    (hidle : (k.task (k.idleCpus c)).isSome) (hcurrent : locks.current = false) (hnext : locks.next = false)
    (hstay : (k.schedule c locks).2 = false) : IsRunning (k.schedule c locks).1 cur := by
  have hcases := schedule_cases k c locks
  generalize k.schedule c locks = r at hcases hstay ⊢
  cases hcases with
  | off hc =>
    rw [hc] at hcur
    cases hcur
  | held hc hlock =>
    rw [hcurrent] at hlock
    cases hlock
  | contended hc hpick hlock =>
    rw [hnext] at hlock
    cases hlock
  | next hc hpick hne => cases hstay
  | @stays cur' k' t hc hpick ht hrun =>
    rw [hcur] at hc
    cases hc
    change IsRunning (k'.setState cur .running) cur
    rw [IsRunning, setState, task_setTask, if_pos rfl, ht]
    exact ⟨_, rfl, rfl⟩
  | idleOn hc hpick hrun =>
    rw [hcur] at hc
    exact absurd (some.inj hc) hord
  | toIdle hc hpick hrun hne hidle' => cases hstay
  | noIdle hc hpick hrun hidle' =>
    obtain ⟨t, ht⟩ := isSome_iff_exists.1 hidle
    obtain ⟨t', ht', _⟩ := hpick.quiet.after ht
    rw [hidle'] at ht'
    cases ht'

end Schedule

/-! ## Invariant -/

/-- outside of the calls, or on the way out of one -/
def Awake : Place → Prop
  | .outside | .returning => True
  | .marked _ | .checked | .away | .dead => False

/-- the task of a thread is there, and `Running` unless the thread is in a call -/
def Steady (s : Threads Cpu) (pid : ℕ) : Prop :=
  ∃ t, s.kernel.task pid = some t ∧ (Awake (s.place pid) → t.state = .running)

structure Live (s : Threads Cpu) : Prop where
  apart : s.kernel.Apart
  aside : s.kernel.Aside
  idle : ∀ c, (s.kernel.slot (s.kernel.idleCpus c)).isSome
  steady : ∀ c pid, s.kernel.currentCpus c = some pid → s.kernel.Ordinary pid → s.Steady pid

variable {s s' : Threads Cpu}

variable {pid : ℕ}

theorem IsRunning.steady (h : IsRunning s.kernel pid) : s.Steady pid := by
  obtain ⟨t, ht, hrun⟩ := h
  exact ⟨t, ht, fun _ => hrun⟩

theorem Steady.still (h : s.Steady pid) (hstill : StillRuns s.kernel s'.kernel pid)
    (hplace : s'.place pid = s.place pid) : s'.Steady pid := by
  obtain ⟨t, ht, hrun⟩ := h
  obtain ⟨t', ht', hrun'⟩ := hstill t ht
  exact ⟨t', ht', fun h => hrun' (hrun (hplace ▸ h))⟩

variable {p : Place}

theorem Steady.asleep (h : s.Steady pid) (hslot : s'.kernel.slot pid = s.kernel.slot pid)
    (hplace : s'.place pid = p) (hp : ¬Awake p) : s'.Steady pid := by
  obtain ⟨t, ht, _⟩ := h
  have hsome : (s'.kernel.slot pid).isSome := by
    rw [hslot, slot, ht]
    rfl
  rw [slot, isSome_map] at hsome
  obtain ⟨t', ht'⟩ := isSome_iff_exists.1 hsome
  exact ⟨t', ht', fun h => absurd (hplace ▸ h) hp⟩

section

variable (hs : Live s)
include hs

theorem Live.quiet {k : Kernel Cpu} (h : s.kernel.Quiet k) : Live { s with kernel := k } where
  apart := h.apart hs.apart
  aside := h.bland.aside hs.aside
  idle c := by
    rw [h.idle, h.slot]
    exact hs.idle c
  steady c pid hc hord := by
    rw [h.current] at hc
    rw [Kernel.Ordinary, h.idle] at hord
    exact (hs.steady c pid hc hord).still (stillRuns_of_quiet h pid) rfl

theorem Live.moveTo (hp : (s.moveTo pid p).Steady pid) : Live (s.moveTo pid p) where
  apart := hs.apart
  aside := hs.aside
  idle := hs.idle
  steady c other hc hord := by
    by_cases h : other = pid
    · rw [h]
      exact hp
    · exact (hs.steady c other hc hord).still (stillRuns_of_eq rfl) (update_of_ne h ..)

theorem Live.setState {state : TaskState}
    (haside : (s.kernel.setState pid state).Aside)
    (hp : (Threads.moveTo { s with kernel := s.kernel.setState pid state } pid p).Steady pid) :
    Live (Threads.moveTo { s with kernel := s.kernel.setState pid state } pid p) where
  apart := hs.apart.same rfl rfl rfl
  aside := haside
  idle c := by
    change ((s.kernel.setState pid state).slot (s.kernel.idleCpus c)).isSome
    rw [slot_setState]
    exact hs.idle c
  steady c other hc hord := by
    by_cases h : other = pid
    · rw [h]
      exact hp
    · refine (hs.steady c other hc hord).still (stillRuns_of_eq ?_) (update_of_ne h ..)
      exact (task_setTask ..).trans (if_neg h)

theorem Live.mark {c : Cpu} (hc : s.kernel.currentCpus c = some pid) (hord : s.kernel.Ordinary pid) (call : Call) :
    Live (Threads.moveTo { s with kernel := s.kernel.setState pid .blocked } pid (.marked call)) := by
  refine hs.setState (hs.aside.block hord) ?_
  exact (hs.steady c pid hc hord).asleep slot_setState (update_self ..) id

theorem Live.exitTask (pid : ℕ) (exitCode : Int32) (locked : ℕ → Bool) (wakes : Kernel.ExitWakes) :
    Live { kernel := s.kernel.exitTask pid exitCode locked wakes, place := update s.place pid .dead } := by
  have hbland := bland_exitTask s.kernel pid exitCode locked wakes
  have hquiet := quiet_exitTask s.kernel pid exitCode locked wakes
  have hslot : ∀ other, (s.kernel.exitTask pid exitCode locked wakes).slot other = s.kernel.slot other :=
    fun other => (hquiet.slot other).trans (slot_setTask fun _ => rfl)
  refine ⟨hquiet.apart (hs.apart.same rfl rfl rfl), hbland.aside hs.aside, fun c => ?_, fun c other hc hord => ?_⟩
  · rw [hbland.idle, hslot]
    exact hs.idle c
  · rw [hquiet.current] at hc
    rw [Kernel.Ordinary, hbland.idle] at hord
    have hsteady := hs.steady c other hc hord
    by_cases h : other = pid
    · subst h
      exact hsteady.asleep (hslot other) (update_self ..) id
    · refine hsteady.still (StillRuns.trans (stillRuns_of_eq ?_) (stillRuns_of_quiet hquiet other))
        (update_of_ne h ..)
      exact (task_setTask ..).trans (if_neg h)

theorem Live.slot {k : Kernel Cpu} (hapart : k.Apart) (haside : k.Aside)
    (hidle : k.idleCpus = s.kernel.idleCpus) (hcurrent : k.currentCpus = s.kernel.currentCpus)
    (htask : ∀ other, other ≠ pid → k.task other = s.kernel.task other) (hord : s.kernel.Ordinary pid)
    (hfree : ∀ c, s.kernel.currentCpus c ≠ some pid) :
    Live { kernel := k, place := update s.place pid p } where
  apart := hapart
  aside := haside
  idle c := by
    rw [hidle, Kernel.slot, htask _ (Ne.symm (hord c))]
    exact hs.idle c
  steady c other hc hord' := by
    rw [hcurrent] at hc
    rw [Kernel.Ordinary, hidle] at hord'
    have hne : other ≠ pid := by
      rintro rfl
      exact hfree c hc
    exact (hs.steady c other hc hord').still (stillRuns_of_eq (htask other hne)) (update_of_ne hne ..)

end

section Step

variable [Fintype Cpu] [DecidableEq Cpu]

section

variable (hs : Live s)
include hs

theorem Live.schedule (c : Cpu) (locks : Kernel.Contention) :
    Live { s with kernel := (s.kernel.schedule c locks).1 } where
  apart := hs.apart.schedule hs.aside c locks
  aside := (bland_schedule s.kernel c locks).aside hs.aside
  idle c' := by
    rw [(bland_schedule s.kernel c locks).idle, slot_schedule]
    exact hs.idle c'
  steady c' pid hc hord := by
    rw [Kernel.Ordinary, (bland_schedule s.kernel c locks).idle] at hord
    rcases schedule_running hs.apart hc with hrun | ⟨_, hcur, hstill⟩
    · exact IsRunning.steady hrun
    · exact (hs.steady c' pid hcur hord).still hstill rfl

theorem Live.reschedule (c : Cpu) (locks : Kernel.Contention) : Live (s.reschedule c locks).1 := by
  have hs' := hs.schedule c locks
  rw [Threads.reschedule]
  cases hnext : (s.kernel.schedule c locks).1.currentCpus c with
  | none => exact hs'
  | some next =>
    dsimp only
    split_ifs with hr
    · refine hs'.moveTo (IsRunning.steady ?_)
      rcases schedule_running hs.apart hnext with hrun | ⟨hstay, _⟩
      · exact hrun
      · rw [hstay rfl] at hr
        exact absurd hr.1 (by decide)
    · exact hs'

end

theorem reschedule_kernel (s : Threads Cpu) (c : Cpu) (locks : Kernel.Contention) :
    (s.reschedule c locks).1.kernel = (s.kernel.schedule c locks).1 ∧
      (s.reschedule c locks).2 = (s.kernel.schedule c locks).2 := by
  rw [Threads.reschedule]
  cases (s.kernel.schedule c locks).1.currentCpus c with
  | none => exact ⟨rfl, rfl⟩
  | some next =>
    dsimp only
    split_ifs <;> exact ⟨rfl, rfl⟩

section

variable (hs : Live s)
include hs

theorem Live.block {c : Cpu} {locks : Kernel.Contention}
    (hc : s.kernel.currentCpus c = some pid) (hord : s.kernel.Ordinary pid) (hcurrent : locks.current = false)
    (hnext : locks.next = false) : Live (s.block c pid locks) := by
  obtain ⟨hkernel, hswitch⟩ := reschedule_kernel s c locks
  rw [Threads.block]
  refine (hs.reschedule c locks).moveTo ?_
  split_ifs with hr
  · refine (hs.steady c pid hc hord).asleep ?_ (update_self ..) id
    change (s.reschedule c locks).1.kernel.slot pid = _
    rw [hkernel, slot_schedule]
  · refine IsRunning.steady ?_
    change IsRunning (s.reschedule c locks).1.kernel pid
    have hidle := hs.idle c
    rw [Kernel.slot, isSome_map] at hidle
    rw [hkernel]
    refine schedule_returns hc (hord c) hidle hcurrent hnext ?_
    rw [← hswitch]
    exact Bool.eq_false_iff.2 hr

omit [Fintype Cpu] in
theorem Live.postContextSwitch (c : Cpu) : Live { s with kernel := (s.kernel.postContextSwitch c).1 } := by
  have hleft : Live { s with
      kernel := { s.kernel with suspendingTasks := update s.kernel.suspendingTasks c none } } :=
    ⟨hs.apart.unsuspend c, ((Quiet.refl _).bland.cpus).aside hs.aside, hs.idle, fun c' pid hc hord =>
      (hs.steady c' pid hc hord).still (stillRuns_of_eq rfl) rfl⟩
  exact hleft.quiet (quiet_postContextSwitch s.kernel c)

theorem Live.other {e : Kernel.Event Cpu} (he : Legal s (.other e)) : Live (s.step (.other e)) := by
  cases e with
  | schedule c locks => exact he.elim
  | blockTask pid => exact he.elim
  | postContextSwitch c => exact hs.postContextSwitch c
  | tick c expired locked => exact hs.quiet (quiet_tick s.kernel c expired locked)
  | wakeTask pid => exact hs.quiet (quiet_wakeTask s.kernel pid)
  | exitTask pid exitCode locked wakes => exact hs.exitTask pid exitCode locked wakes
  | reap pid =>
    have hplace : s.place = update s.place pid (s.place pid) := (update_eq_self ..).symm
    change Live { kernel := s.kernel.reap pid, place := s.place }
    rw [hplace]
    refine hs.slot (hs.apart.same rfl rfl rfl) (hs.aside.reap pid) rfl rfl (fun other h => ?_) he.1 he.2
    rw [task_reap, if_neg h]
  | addTask task =>
    refine hs.slot (hs.apart.same rfl rfl rfl) (hs.aside.addTask he.1) rfl rfl (fun other h => ?_) he.1 he.2
    exact (task_addTask ..).trans (if_neg h)

end

theorem live_step {e : Event Cpu} (hs : Live s) (he : Legal s e) (hlocks : Uncontended s e) : Live (s.step e) := by
  cases e with
  | refuse c => exact hs
  | preempt c locks => exact hs.reschedule c locks
  | mark c call =>
    rw [step]
    cases hc : s.kernel.currentCpus c with
    | none => exact hs
    | some pid =>
      dsimp only
      split_ifs
      · exact hs.mark hc (he pid hc) call
      · exact hs
  | recheck c =>
    rw [step]
    cases hc : s.kernel.currentCpus c with
    | none => exact hs
    | some pid =>
      dsimp only
      have hsteady := hs.steady c pid hc (he pid hc)
      split_ifs
      · refine hs.setState ((bland_setState (by decide)).aside hs.aside) (IsRunning.steady ?_)
        obtain ⟨t, ht, _⟩ := hsteady
        exact isRunning_setState (by rw [ht]; rfl)
      · exact hs.moveTo (hsteady.asleep rfl (update_self ..) id)
      · exact hs
  | block c locks =>
    rw [step]
    cases hc : s.kernel.currentCpus c with
    | none => exact hs
    | some pid =>
      dsimp only
      split_ifs
      · exact hs.block hc (he pid hc) hlocks.1 hlocks.2
      · exact hs
  | finish c =>
    rw [step]
    cases hc : s.kernel.currentCpus c with
    | none => exact hs
    | some pid =>
      dsimp only
      split_ifs with hplace
      · obtain ⟨t, ht, hrun⟩ := hs.steady c pid hc (he pid hc)
        exact hs.moveTo ⟨t, ht, fun _ => hrun (by rw [hplace]; trivial)⟩
      · exact hs
  | other e => exact hs.other he

theorem runningAtReturn_of {e : Event Cpu} (h : ∀ pid, s.returner e = some pid → IsRunning (s.step e).kernel pid) :
    RunningAtReturn s e := by
  rw [RunningAtReturn]
  cases hr : s.returner e with
  | none => rfl
  | some pid =>
    obtain ⟨t, ht, hrun⟩ := h pid hr
    rw [all_some, ht, any_some, hrun]
    rfl

theorem returns_running {e : Event Cpu} (hs : Live s) (he : Legal s e) : RunningAtReturn s e := by
  refine runningAtReturn_of fun pid hr => ?_
  cases e with
  | refuse c =>
    obtain ⟨hc, hplace⟩ := filter_eq_some_iff.1 hr
    obtain ⟨t, ht, hrun⟩ := hs.steady c pid hc (he pid hc)
    exact ⟨t, ht, hrun (by rw [of_decide_eq_true hplace]; trivial)⟩
  | recheck c =>
    obtain ⟨hc, hcond⟩ := filter_eq_some_iff.1 hr
    obtain ⟨hplace, hstate⟩ := of_decide_eq_true hcond
    obtain ⟨t, ht, _⟩ := hs.steady c pid hc (he pid hc)
    rw [step, hc]
    dsimp only
    rw [if_pos hplace, if_pos hstate]
    exact isRunning_setState (by rw [ht]; rfl)
  | finish c =>
    obtain ⟨hc, hplace⟩ := filter_eq_some_iff.1 hr
    have hplace := of_decide_eq_true hplace
    obtain ⟨t, ht, hrun⟩ := hs.steady c pid hc (he pid hc)
    rw [step, hc]
    dsimp only
    rw [if_pos hplace]
    exact ⟨t, ht, hrun (by rw [hplace]; trivial)⟩
  | mark | block | preempt | other => cases hr

end Step

/-! ## Runs -/

/-- all threads are outside of the calls -/
def start {n : ℕ} (k : Kernel (Fin n)) : Threads (Fin n) := { kernel := k, place := fun _ => .outside }

theorem live_start {n : ℕ} {k : Kernel (Fin n)} (hk : k.Started) : Live (start k) := by
  refine ⟨hk.apart, hk.aside, fun c => ?_, fun c pid hc hord => ?_⟩
  · rw [slot, isSome_map]
    exact hk.idle c
  · obtain ⟨t, ht, hrun⟩ := hk.current hc
    exact ⟨t, ht, fun _ => hrun hord⟩

/-- **Blocking calls return `Running`.** In every run in which nobody else holds the lock of the caller, or that of the next
task, at the `schedule()` of a blocking call, the calling task is `Running` whenever such a call returns. -/
theorem blocking_returns_running {n : ℕ} {k : Kernel (Fin n)} (hk : k.Started) {es : List (Event (Fin n))}
    (hes : Each step (fun s e => Legal s e ∧ Uncontended s e) (start k) es) :
    Each step RunningAtReturn (start k) es :=
  each_of_invariant (fun _ _ hs he => live_step hs he.1 he.2) (fun _ _ hs he => returns_running hs he.1)
    (live_start hk) hes

/-- nobody else holds a lock -/
def free : Kernel.Contention := ⟨false, fun _ => false, false⟩

/-- one CPU, the boot thread and another task: the boot thread sleeps, the other task runs, the timer wakes the boot thread
and it is switched to -/
def nap : List (Event (Fin 1)) :=
  [.other (.addTask (new 3)), .mark 0 .sleepUntil, .block 0 free, .other (.postContextSwitch 0),
    .other (.tick 0 [2] fun _ => false), .preempt 0 free, .other (.postContextSwitch 0), .finish 0]

theorem nap_returns_running :
    (run step (start ((init 1).setBootstrapThread 0 (new 2))) (nap.take 7)).returner (.finish 0) = some 2 ∧
      Each step RunningAtReturn (start ((init 1).setBootstrapThread 0 (new 2))) nap := by
  exact ⟨by decide +kernel, blocking_returns_running (.boot (by decide) 0) (by decide +kernel)⟩

/-- the boot thread goes to sleep while somebody holds the lock of its task, and returns at once, marked `Blocked` -/
def heldNap : List (Event (Fin 1)) := [.mark 0 .sleepUntil, .block 0 { free with current := true }, .finish 0]

/-- the same if somebody takes the lock of the next task between the two looks at it -/
def nextHeldNap : List (Event (Fin 1)) :=
  [.other (.addTask (new 3)), .mark 0 .futexWait, .block 0 { free with next := true }, .finish 0]

theorem blocked_at_return :
    Each step Legal (start ((init 1).setBootstrapThread 0 (new 2))) heldNap ∧
      ¬Each step RunningAtReturn (start ((init 1).setBootstrapThread 0 (new 2))) heldNap ∧
      ((run step (start ((init 1).setBootstrapThread 0 (new 2))) heldNap).kernel.task 2).map state = some .blocked ∧
      Each step Legal (start ((init 1).setBootstrapThread 0 (new 2))) nextHeldNap ∧
      ¬Each step RunningAtReturn (start ((init 1).setBootstrapThread 0 (new 2))) nextHeldNap := by
  decide +kernel

end Threads

end Kontsnor.Process
