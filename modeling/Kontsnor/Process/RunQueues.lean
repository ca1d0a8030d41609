/-
No runnable task is lost: the run queues, the flag `in_queue` and the states of the tasks agree.

`Accounted`: no pid is queued twice, the flag is set exactly for queued tasks, and a `Ready` task that is on no CPU is queued.
Two ways lead out of it.
- `schedule` picks a task, finds its lock taken, and puts it back without the flag (`Uncontended` excludes this).
- A task that was blocked and woken before it left its CPU goes on running while it is queued. A tick that lowers its
  priority then leaves it in the queue of the old one, and the next wake-up queues it again (`Settled` excludes this). Without
  blocking there are no such tasks.

The invariant `Lined` is kept by each operation; `hand` is a task that an operation has taken from its queue or its CPU.

**Main result.** `no_task_lost`. Premises: `Uncontended`; `Settled`, or nobody is blocked; `InTurn`.
-/
import Kontsnor.Process.Exclusion

namespace Kontsnor.Process

open Runs List Function Option Kernel

namespace Kernel

variable {Cpu : Type}

/-! ## Statement -/

variable (k : Kernel Cpu)

/-- the queues, the flags and the states agree -/
structure Accounted : Prop where
  once : (Priority.all.flatMap k.queues).Nodup
  flag : ∀ pid t, k.task pid = some t → (t.inQueue = true ↔ k.Queued pid)
  ready : ∀ pid t, k.task pid = some t → t.state = .ready → t.isIdle = false → (∀ c, ¬k.At c pid) → k.Queued pid

/-- a task that nobody knows of yet, and no idle task -/
structure New (task : Task) : Prop where
  ordinary : k.Ordinary task.pid
  absent : k.task task.pid = none
  unqueued : ¬k.Queued task.pid
  off : ∀ c, ¬k.At c task.pid

/-- the order of the code: a CPU that has switched runs `post_context_switch` before anything else; tasks are added with new
pids, and idle tasks are not blocked -/
def InTurn : Event Cpu → Prop
  | .schedule c _ => k.suspendingTasks c = none
  | .tick c _ _ => k.suspendingTasks c = none
  | .addTask task => k.New task
  | .blockTask pid => k.Ordinary pid
  | _ => True

/-- the lock of the task that `schedule` has picked is free -/
def Uncontended (_ : Kernel Cpu) : Event Cpu → Prop
  | .schedule _ locks => locks.next = false
  | _ => True

/-- a tick that ends a time quantum lowers the priority -/
def Due (t : Task) : Prop := (t.cpuTicks + 1) % TIME_QUANTUM = 0 ∧ t.isIdle = false

/-- a tick does not lower the priority of a task that is queued, or that it queues -/
def Settled : Event Cpu → Prop
  | .tick c expired locked => ∀ pid t, k.currentCpus c = some pid → k.task pid = some t → locked pid = false → Due t →
      ¬k.Queued pid ∧ ¬(pid ∈ expired ∧ Wakeable t)
  | _ => True

def Event.blocks : Event Cpu → Bool
  | .blockTask _ => true
  | _ => false

/-! ## The invariant -/

/-- queues, flags and states agree, but for a ready task in `hand` -/
structure Lined (hand : Option ℕ) (k : Kernel Cpu) : Prop where
  nodup : ∀ p, (k.queues p).Nodup
  apart : ∀ p q pid, pid ∈ k.queues p → pid ∈ k.queues q → p = q
  home : ∀ p pid t, pid ∈ k.queues p → k.task pid = some t → t.priority = p
  flag : ∀ pid t, k.task pid = some t → (t.inQueue = true ↔ k.Queued pid)
  ready : ∀ pid t, k.task pid = some t → t.state = .ready → t.isIdle = false → hand = some pid ∨ (∃ c, k.At c pid) ∨
    k.Queued pid

variable {k k' : Kernel Cpu} {hand : Option ℕ} {pid other : ℕ} {t : Task} {p : Priority} {f : Task → Task}

theorem Lined.accounted (h : Lined none k) : Accounted k where
  once := by
    rw [nodup_flatMap]
    refine ⟨fun p _ => h.nodup p, ?_⟩
    refine Nodup.pairwise_of_forall_ne (by decide) fun p _ q _ hne pid hp hq => ?_
    exact hne (h.apart p q pid hp hq)
  flag := h.flag
  ready pid t ht hready hidle hoff := by
    rcases h.ready pid t ht hready hidle with hhand | ⟨c, hc⟩ | hq
    · cases hhand
    · exact absurd hc (hoff c)
    · exact hq

/-- the queues stay, and each task agrees with them -/
theorem Lined.sameQueues {hand' : Option ℕ} (h : Lined hand k) (hqueues : k'.queues = k.queues)
    (htask : ∀ pid t', k'.task pid = some t' → ∃ t, k.task pid = some t ∧ (k.Queued pid → t'.priority = t.priority) ∧
      (t'.inQueue = true ↔ k.Queued pid) ∧
      (t'.state = .ready → t'.isIdle = false → hand' = some pid ∨ (∃ c, k'.At c pid) ∨ k.Queued pid)) : Lined hand' k' := by
  have hqueued : ∀ pid, k'.Queued pid ↔ k.Queued pid := by
    intro pid
    unfold Queued
    rw [hqueues]
  constructor
  · rw [hqueues]
    exact h.nodup
  · rw [hqueues]
    exact h.apart
  · intro p pid t' hp ht'
    rw [hqueues] at hp
    obtain ⟨t, ht, hprio, -⟩ := htask pid t' ht'
    exact (hprio ⟨p, hp⟩).trans (h.home p pid t hp ht)
  · intro pid t' ht'
    obtain ⟨t, -, -, hflag, -⟩ := htask pid t' ht'
    exact hflag.trans (hqueued pid).symm
  · intro pid t' ht' hr hi
    obtain ⟨t, -, -, -, hready⟩ := htask pid t' ht'
    rw [hqueued]
    exact hready hr hi

/-- one task comes to the queue of its priority, flagged; the others stay -/
theorem Lined.moved (h : Lined hand k) (hnodup : ∀ q, (k'.queues q).Nodup)
    (hin : ∀ q other, other ∈ k'.queues q ↔ other ≠ pid ∧ other ∈ k.queues q ∨ q = p ∧ other = pid)
    (hself : ∀ t, k'.task pid = some t → t.priority = p ∧ t.inQueue = true)
    (hothers : ∀ other, other ≠ pid → k'.task other = k.task other) (hat : ∀ c other, k.At c other → k'.At c other) :
    Lined hand k' := by
  have hpid : k'.Queued pid := ⟨p, (hin p pid).2 (.inr ⟨rfl, rfl⟩)⟩
  have hqueued : ∀ other, other ≠ pid → (k'.Queued other ↔ k.Queued other) := by
    intro other hne
    refine exists_congr fun q => (hin q other).trans ?_
    simp [hne]
  refine ⟨hnodup, fun q q' other hq hq' => ?_, fun q other t hq ht => ?_, fun other t ht => ?_, fun other t ht hr hi => ?_⟩
  · rcases (hin q other).1 hq with ⟨hne, hq⟩ | ⟨rfl, rfl⟩ <;> rcases (hin q' other).1 hq' with ⟨hne', hq'⟩ | ⟨rfl, heq⟩
    · exact h.apart q q' other hq hq'
    · exact absurd heq hne
    · exact absurd rfl hne'
    · rfl
  · rcases (hin q other).1 hq with ⟨hne, hq⟩ | ⟨rfl, rfl⟩
    · exact h.home q other t hq (hothers other hne ▸ ht)
    · exact (hself t ht).1
  · by_cases heq : other = pid
    · subst heq
      exact iff_of_true (hself t ht).2 hpid
    · rw [hqueued other heq]
      exact h.flag other t (hothers other heq ▸ ht)
  · by_cases heq : other = pid
    · exact .inr (.inr (heq ▸ hpid))
    · rw [hqueued other heq]
      refine (h.ready other t (hothers other heq ▸ ht) hr hi).imp_right (Or.imp_left ?_)
      exact fun ⟨c, hc⟩ => ⟨c, hat c other hc⟩

theorem Lined.placed (h : Lined (some pid) k)
    (hplace : ∀ t, k.task pid = some t → t.state = .ready → t.isIdle = false → (∃ c, k.At c pid) ∨ k.Queued pid) :
    Lined none k := by
  refine h.sameQueues rfl fun other t ht => ⟨t, ht, fun _ => rfl, h.flag other t ht, fun hready hidle => .inr ?_⟩
  rcases h.ready other t ht hready hidle with hhand | hrest
  · cases hhand
    exact hplace t ht hready hidle
  · exact hrest

theorem Lined.setTask (h : Lined hand k)
    (hprio : ∀ t, k.task pid = some t → k.Queued pid → (f t).priority = t.priority)
    (hflag : ∀ t, k.task pid = some t → ((f t).inQueue = true ↔ k.Queued pid))
    (hready : ∀ t, k.task pid = some t → (f t).state = .ready → (f t).isIdle = false →
      t.state = .ready ∧ t.isIdle = false ∨ (∃ c, k.At c pid) ∨ k.Queued pid) : Lined hand (k.setTask pid f) := by
  refine h.sameQueues rfl fun other t ht => ?_
  rw [task_setTask] at ht
  split_ifs at ht with heq
  · subst heq
    obtain ⟨u, hu, rfl⟩ := map_eq_some_iff.1 ht
    refine ⟨u, hu, hprio u hu, hflag u hu, fun hr hi => ?_⟩
    rcases hready u hu hr hi with ⟨hr', hi'⟩ | hrest
    · exact h.ready other u hu hr' hi'
    · exact .inr hrest
  · exact ⟨t, ht, fun _ => rfl, h.flag other t ht, h.ready other t ht⟩

theorem queues_pushBack (p q : Priority) :
    (k.pushBack p pid).queues q = if q = p then k.queues p ++ [pid] else k.queues q :=
  update_apply _ _ _ _

theorem mem_pushBack {q : Priority} :
    other ∈ (k.pushBack p pid).queues q ↔ other ∈ k.queues q ∨ q = p ∧ other = pid := by
  rw [queues_pushBack]
  split_ifs with hq
  · rw [hq, mem_append, mem_singleton]
    simp
  · simp [hq]

theorem queued_pushBack : (k.pushBack p pid).Queued other ↔ k.Queued other ∨ other = pid := by
  constructor
  · rintro ⟨q, hq⟩
    rcases mem_pushBack.1 hq with hq | ⟨_, heq⟩
    · exact .inl ⟨q, hq⟩
    · exact .inr heq
  · rintro (⟨q, hq⟩ | heq)
    · exact ⟨q, mem_pushBack.2 (.inl hq)⟩
    · exact ⟨p, mem_pushBack.2 (.inr ⟨rfl, heq⟩)⟩

theorem nodup_pushBack (h : ∀ q, (k.queues q).Nodup) (hnot : ¬k.Queued pid) (p q : Priority) :
    ((k.pushBack p pid).queues q).Nodup := by
  rw [queues_pushBack]
  split_ifs
  · refine nodup_append.2 ⟨h _, nodup_singleton pid, fun a ha b hb hab => ?_⟩
    rw [hab, mem_singleton.1 hb] at ha
    exact hnot ⟨_, ha⟩
  · exact h q

theorem mem_pushBack_of_not {q : Priority} (hnot : ¬k.Queued pid) :
    other ∈ (k.pushBack p pid).queues q ↔ other ≠ pid ∧ other ∈ k.queues q ∨ q = p ∧ other = pid := by
  rw [mem_pushBack]
  refine or_congr_left (iff_and_self.2 ?_)
  rintro hq rfl
  exact hnot ⟨q, hq⟩

theorem Lined.push (h : Lined hand k) (ht : k.task pid = some t) (hnot : ¬k.Queued pid)
    (hprio : (f t).priority = t.priority) (hflag : (f t).inQueue = true) :
    Lined hand ((k.pushBack t.priority pid).setTask pid f) := by
  refine h.moved (p := t.priority) (nodup_pushBack h.nodup hnot _) (fun q other => mem_pushBack_of_not hnot) (fun u hu => ?_)
    (fun other hne => ?_) fun c other hat => hat
  · rw [task_setTask, if_pos rfl, task_pushBack, ht] at hu
    cases hu
    exact ⟨hprio, hflag⟩
  · rw [task_setTask, if_neg hne, task_pushBack]

/-! ## Waking -/

section

variable (h : Lined hand k)
include h

theorem Lined.unqueued (ht : k.task pid = some t) (hnot : pid ∉ k.queues t.priority) : ¬k.Queued pid := by
  rintro ⟨p, hp⟩
  rw [h.home p pid t hp ht] at hnot
  exact hnot hp

theorem Lined.enqueueOnce (ht : k.task pid = some t)
    (hprio : ∀ u, (f u).priority = u.priority) (hflag : ∀ u, (f u).inQueue = true) :
    Lined hand ((k.enqueueOnce t.priority pid).setTask pid f) := by
  unfold Kernel.enqueueOnce
  split_ifs with hmem
  · refine h.setTask (fun u _ _ => hprio u) (fun u _ => ?_) fun u _ _ _ => .inr (.inr ⟨_, hmem⟩)
    simp only [hflag, true_iff]
    exact ⟨_, hmem⟩
  · exact h.push ht (h.unqueued ht hmem) (hprio t) (hflag t)

theorem Lined.wakeTask (pid : ℕ) : Lined hand (k.wakeTask pid).1 := by
  unfold Kernel.wakeTask
  cases ht : k.task pid with
  | none => exact h
  | some t =>
    dsimp only
    split_ifs
    · exact h.enqueueOnce ht (fun _ => rfl) fun _ => rfl
    · exact h.enqueueOnce ht (fun _ => rfl) fun _ => rfl
    · exact h

theorem Lined.wakeAll (pids : List ℕ) : Lined hand (k.wakeAll pids) :=
  foldlRecOn (motive := Lined hand) pids _ h fun _ h pid _ => h.wakeTask pid

end

/-- what is queued by waking was named, and could be woken -/
theorem queued_wakeTask (hq : (k.wakeTask pid).1.Queued other) :
    k.Queued other ∨ other = pid ∧ ∃ t, k.task pid = some t ∧ Wakeable t := by
  have hpush : ∀ (p : Priority) (f : Task → Task), ((k.enqueueOnce p pid).setTask pid f).Queued other →
      k.Queued other ∨ other = pid := by
    intro p f hq
    unfold enqueueOnce at hq
    split_ifs at hq
    · exact .inl hq
    · exact queued_pushBack.1 hq
  unfold wakeTask at hq
  cases ht : k.task pid with
  | none =>
    rw [ht] at hq
    exact .inl hq
  | some t =>
    rw [ht] at hq
    dsimp only at hq
    split_ifs at hq with hb hr
    · exact (hpush _ _ hq).imp_right fun heq => ⟨heq, t, rfl, .inl hb⟩
    · exact (hpush _ _ hq).imp_right fun heq => ⟨heq, t, rfl, .inr hr⟩
    · exact .inl hq

theorem queued_wakeAll {pids : List ℕ} (hq : (k.wakeAll pids).Queued other) :
    k.Queued other ∨ other ∈ pids ∧ ∃ t, k.task other = some t ∧ Wakeable t := by
  induction pids generalizing k with
  | nil => exact .inl hq
  | cons pid pids ih =>
    rcases ih (k := (k.wakeTask pid).1) hq with hq | ⟨hmem, t', ht', hw⟩
    · rcases queued_wakeTask hq with hq | ⟨rfl, hw⟩
      · exact .inl hq
      · exact .inr ⟨mem_cons_self, hw⟩
    · obtain ⟨t, ht, htouched⟩ := (quiet_wakeTask k pid).before ht'
      exact .inr ⟨mem_cons_of_mem _ hmem, t, ht, htouched.wakeable hw⟩

/-! ## Boosts -/

/-- the tasks `pids` stand behind a queue -/
def withRest (k : Kernel Cpu) (p : Priority) (pids : List ℕ) : Kernel Cpu :=
  { k with queues := update k.queues p (k.queues p ++ pids) }

theorem queues_withRest (p q : Priority) (pids : List ℕ) :
    (k.withRest p pids).queues q = if q = p then k.queues p ++ pids else k.queues q :=
  update_apply _ _ _ _

/-- the kernel with another queue -/
def withQueue (k : Kernel Cpu) (p : Priority) (queue : List ℕ) : Kernel Cpu := { k with queues := update k.queues p queue }

/-- a queued task goes to another queue, with its priority -/
theorem Lined.promote (h : Lined hand k) {front back : List ℕ} (hqueue : k.queues p = front ++ pid :: back) :
    Lined hand (((k.withQueue p (front ++ back)).pushBack .high pid).setTask pid
      fun t => { t with priority := .high, inQueue := true }) := by
  have hmem : pid ∈ k.queues p := by rw [hqueue]; simp
  have hnd := h.nodup p
  rw [hqueue, nodup_middle, nodup_cons] at hnd
  -- where a pid is queued without it
  have hin : ∀ q other, other ∈ (k.withQueue p (front ++ back)).queues q ↔ other ≠ pid ∧ other ∈ k.queues q := by
    intro q other
    change other ∈ update k.queues p (front ++ back) q ↔ _
    by_cases hq : q = p
    · subst hq
      rw [update_self, hqueue, mem_append, mem_append, mem_cons]
      constructor
      · intro hother
        refine ⟨?_, hother.imp_right .inr⟩
        rintro rfl
        exact hnd.1 (mem_append.2 hother)
      · rintro ⟨hne, hfront | rfl | hback⟩
        · exact .inl hfront
        · exact absurd rfl hne
        · exact .inr hback
    · rw [update_of_ne hq]
      refine ⟨fun hother => ⟨?_, hother⟩, And.right⟩
      rintro rfl
      exact hq (h.apart q p other hother hmem)
  have hrest : ∀ q, ((k.withQueue p (front ++ back)).queues q).Nodup := by
    intro q
    change (update k.queues p (front ++ back) q).Nodup
    by_cases hq : q = p
    · rw [hq, update_self]
      exact hnd.2
    · rw [update_of_ne hq]
      exact h.nodup q
  have hnot : ¬(k.withQueue p (front ++ back)).Queued pid := fun ⟨q, hq⟩ => ((hin q pid).1 hq).1 rfl
  refine h.moved (p := .high) (nodup_pushBack hrest hnot _) (fun q other => mem_pushBack.trans (or_congr_left (hin q other)))
    (fun u hu => ?_) (fun other hne => ?_) fun c other hat => hat
  · rw [task_setTask, if_pos rfl] at hu
    obtain ⟨v, -, rfl⟩ := map_eq_some_iff.1 hu
    exact ⟨rfl, rfl⟩
  · rw [task_setTask, if_neg hne, task_pushBack]
    rfl

theorem withRest_nil : k.withRest p [] = k := by
  unfold withRest
  rw [append_nil, update_eq_self]

theorem Lined.boostOne (hp : p ≠ .high) (locked : ℕ → Bool) {rest : List ℕ}
    (h : Lined hand (k.withRest p (pid :: rest))) : Lined hand ((k.boostOne locked p pid).withRest p rest) := by
  have hback : (k.pushBack p pid).withRest p rest = k.withRest p (pid :: rest) := by
    unfold withRest pushBack
    dsimp only
    rw [update_self, update_idem, append_assoc, singleton_append]
  have hqueue : (k.withRest p (pid :: rest)).queues p = k.queues p ++ pid :: rest := by
    rw [queues_withRest, if_pos rfl]
  have hboost : ((k.pushBack .high pid).setTask pid fun t => { t with priority := .high, inQueue := true }).withRest p rest =
      (((k.withRest p (pid :: rest)).withQueue p (k.queues p ++ rest)).pushBack .high pid).setTask pid
        fun t => { t with priority := .high, inQueue := true } := by
    unfold withRest withQueue Kernel.pushBack Kernel.setTask
    dsimp only
    rw [update_idem, update_of_ne hp, update_of_ne (Ne.symm hp), update_comm (Ne.symm hp)]
  unfold Kernel.boostOne
  cases k.task pid with
  | none =>
    rw [hback]
    exact h
  | some t =>
    dsimp only
    split_ifs
    · rw [hboost]
      exact h.promote hqueue
    · rw [hback]
      exact h

theorem Lined.boostQueue (hp : p ≠ .high) (locked : ℕ → Bool) (h : Lined hand k) :
    Lined hand (k.boostQueue locked p) := by
  have hfold : ∀ (pids : List ℕ) (k : Kernel Cpu), Lined hand (k.withRest p pids) →
      Lined hand (pids.foldl (Kernel.boostOne locked p) k) := by
    intro pids
    induction pids with
    | nil =>
      intro k h
      rw [withRest_nil] at h
      exact h
    | cons pid pids ih => exact fun k h => ih _ (h.boostOne hp locked)
  apply hfold
  have hsame : withRest { k with queues := update k.queues p [] } p (k.queues p) = k := by
    unfold withRest
    dsimp only
    rw [update_self, update_idem, nil_append, update_eq_self]
  rw [hsame]
  exact h

theorem Lined.boostPriorities (locked : ℕ → Bool) (h : Lined hand k) : Lined hand (k.boostPriorities locked) :=
  (h.boostQueue (by decide) locked).boostQueue (by decide) locked

variable {locked : ℕ → Bool}

theorem queued_boostOne (hq : (k.boostOne locked p pid).Queued other) : k.Queued other ∨ other = pid := by
  unfold boostOne at hq
  cases ht : k.task pid with
  | none =>
    rw [ht] at hq
    exact queued_pushBack.1 hq
  | some t =>
    rw [ht] at hq
    dsimp only at hq
    split_ifs at hq
    · exact queued_pushBack.1 hq
    · exact queued_pushBack.1 hq

theorem queued_boostQueue (hq : (k.boostQueue locked p).Queued other) : k.Queued other := by
  have hfold : ∀ k0 : Kernel Cpu, ((k.queues p).foldl (boostOne locked p) k0).Queued other →
      k0.Queued other ∨ other ∈ k.queues p := by
    intro k0
    refine foldlRecOn (motive := fun k' : Kernel Cpu => k'.Queued other → k0.Queued other ∨ other ∈ k.queues p) _ _ .inl
      fun k' ih pid hpid hq => ?_
    rcases queued_boostOne hq with hq | rfl
    · exact ih hq
    · exact .inr hpid
  rcases hfold _ hq with ⟨q, hmem⟩ | hmem
  · change other ∈ update k.queues p [] q at hmem
    rw [update_apply] at hmem
    split_ifs at hmem
    · cases hmem
    · exact ⟨q, hmem⟩
  · exact ⟨p, hmem⟩

/-! ## Ticks -/

/-- what tells whether a time quantum is over -/
def ticks (k : Kernel Cpu) (pid : ℕ) : Option (ℕ × Bool) := (k.task pid).map fun t => (t.cpuTicks, t.isIdle)

theorem ticks_setTask (hf : ∀ t, (f t).cpuTicks = t.cpuTicks ∧ (f t).isIdle = t.isIdle) :
    (k.setTask pid f).ticks other = k.ticks other := by
  unfold ticks
  rw [task_setTask]
  split_ifs
  · rw [Option.map_map]
    refine congrArg (Option.map · (k.task other)) (funext fun t => ?_)
    exact Prod.ext (hf t).1 (hf t).2
  · rfl

theorem ticks_wakeTask (other : ℕ) : (k.wakeTask pid).1.ticks other = k.ticks other := by
  have henqueue : ∀ p, (k.enqueueOnce p pid).ticks other = k.ticks other := by
    intro p
    unfold ticks
    rw [task_enqueueOnce]
  unfold wakeTask
  cases k.task pid with
  | none => rfl
  | some t =>
    dsimp only
    split_ifs
    · refine (ticks_setTask ?_).trans (henqueue t.priority)
      exact fun _ => ⟨rfl, rfl⟩
    · refine (ticks_setTask ?_).trans (henqueue t.priority)
      exact fun _ => ⟨rfl, rfl⟩
    · rfl

theorem ticks_foldl {α : Type} {f : Kernel Cpu → α → Kernel Cpu} (hf : ∀ k a, (f k a).ticks other = k.ticks other)
    (as : List α) (k : Kernel Cpu) : (as.foldl f k).ticks other = k.ticks other :=
  foldlRecOn (motive := fun k' : Kernel Cpu => k'.ticks other = k.ticks other) as f rfl fun k' h a _ => (hf k' a).trans h

theorem ticks_boostPriorities (locked : ℕ → Bool) (other : ℕ) :
    (k.boostPriorities locked).ticks other = k.ticks other := by
  refine ticks_foldl (fun k p => ?_) _ k
  refine (ticks_foldl (fun k pid => ?_) _ _).trans rfl
  unfold boostOne
  cases k.task pid with
  | none => rfl
  | some t =>
    dsimp only
    split_ifs
    · exact ticks_setTask fun _ => ⟨rfl, rfl⟩
    · rfl

/-- a tick up to the count: who was woken is queued, and who was queued may be boosted -/
def beforeCount (k : Kernel Cpu) (expired : List ℕ) (locked : ℕ → Bool) : Kernel Cpu :=
  let k := { k with ticksSinceBoost := k.ticksSinceBoost + 1 }
  let k := k.wakeAll expired
  if BOOST_INTERVAL ≤ k.ticksSinceBoost then { k.boostPriorities locked with ticksSinceBoost := 0 } else k

theorem tick_eq (c : Cpu) (expired : List ℕ) :
    k.tick c expired locked = match (k.beforeCount expired locked).currentCpus c with
      | some pid =>
        if locked pid then k.beforeCount expired locked else (k.beforeCount expired locked).setTask pid countTick
      | none => k.beforeCount expired locked := rfl

theorem Lined.clock (h : Lined hand k) (n : ℕ) : Lined hand { k with ticksSinceBoost := n } :=
  { h with }

theorem Lined.beforeCount (h : Lined hand k) (expired : List ℕ) (locked : ℕ → Bool) :
    Lined hand (k.beforeCount expired locked) := by
  unfold Kernel.beforeCount
  dsimp only
  have hwoken := (h.clock (k.ticksSinceBoost + 1)).wakeAll expired
  split_ifs
  · exact (hwoken.boostPriorities locked).clock 0
  · exact hwoken

theorem queued_beforeCount {expired : List ℕ} (hq : (k.beforeCount expired locked).Queued other) :
    k.Queued other ∨ other ∈ expired ∧ ∃ t, k.task other = some t ∧ Wakeable t := by
  have hwoken : ∀ k' : Kernel Cpu, k'.queues = k.queues → k'.tasks = k.tasks → (k'.wakeAll expired).Queued other →
      k.Queued other ∨ other ∈ expired ∧ ∃ t, k.task other = some t ∧ Wakeable t := by
    intro k' hqueues htasks hq'
    have hcases := queued_wakeAll hq'
    unfold Queued task at hcases
    rw [hqueues, htasks] at hcases
    exact hcases
  unfold beforeCount at hq
  dsimp only at hq
  split_ifs at hq
  · refine hwoken { k with ticksSinceBoost := k.ticksSinceBoost + 1 } rfl rfl ?_
    exact queued_boostQueue (queued_boostQueue (k := boostQueue locked _ .normal) hq)
  · exact hwoken { k with ticksSinceBoost := k.ticksSinceBoost + 1 } rfl rfl hq

theorem ticks_beforeCount (expired : List ℕ) (locked : ℕ → Bool) (other : ℕ) :
    (k.beforeCount expired locked).ticks other = k.ticks other := by
  have hwoken : ∀ k : Kernel Cpu, (k.wakeAll expired).ticks other = k.ticks other :=
    ticks_foldl (fun k pid => ticks_wakeTask other) expired
  unfold beforeCount
  dsimp only
  split_ifs
  · exact (ticks_boostPriorities locked other).trans (hwoken _)
  · exact hwoken _

theorem countTick_priority (t : Task) : (countTick t).priority = t.priority ∨ Due t := by
  unfold countTick
  dsimp only
  split_ifs with hdue
  · exact .inr hdue
  · exact .inl rfl

theorem countTick_same (t : Task) :
    (countTick t).inQueue = t.inQueue ∧ (countTick t).state = t.state ∧ (countTick t).isIdle = t.isIdle := by
  unfold countTick
  dsimp only
  split_ifs <;> exact ⟨rfl, rfl, rfl⟩

theorem Lined.tick (h : Lined hand k) {c : Cpu} {expired : List ℕ}
    (hsettled : k.Settled (.tick c expired locked)) : Lined hand (k.tick c expired locked) := by
  have hbefore := h.beforeCount expired locked
  have hcurrent := (quiet_tick k c expired locked).current
  rw [tick_eq] at hcurrent ⊢
  cases hc : (k.beforeCount expired locked).currentCpus c with
  | none => exact hbefore
  | some pid =>
    rw [hc] at hcurrent
    dsimp only at hcurrent ⊢
    split_ifs at hcurrent ⊢ with hlocked
    · exact hbefore
    · have hc' : k.currentCpus c = some pid := (congrFun hcurrent c).symm.trans hc
      refine hbefore.setTask (fun t ht hq => ?_) (fun t ht => ?_) fun t ht hr hi => ?_
      · rcases countTick_priority t with hsame | hdue
        · exact hsame
        · -- the task before the tick has counted the same
          exfalso
          have hticks := ticks_beforeCount (k := k) expired locked pid
          unfold ticks at hticks
          rw [ht, map_some] at hticks
          obtain ⟨u, hu, heq⟩ := map_eq_some_iff.1 hticks.symm
          have hdue' : Due u := by
            unfold Due at hdue ⊢
            rw [Prod.mk.injEq] at heq
            rw [heq.1, heq.2]
            exact hdue
          obtain ⟨hunqueued, hunwoken⟩ := hsettled pid u hc' hu (Bool.eq_false_iff.2 hlocked) hdue'
          rcases queued_beforeCount hq with hq | ⟨hmem, v, hv, hw⟩
          · exact hunqueued hq
          · cases hu.symm.trans hv
            exact hunwoken ⟨hmem, hw⟩
      · rw [(countTick_same t).1]
        exact hbefore.flag pid t ht
      · rw [(countTick_same t).2.1] at hr
        rw [(countTick_same t).2.2] at hi
        exact .inl ⟨hr, hi⟩

/-! ## Picking -/

/-- out of the queue -/
def unflag (t : Task) : Task := { t with inQueue := false }

/-- a queue that was looked through: who left it has lost the flag, and was not ready or is picked -/
structure Sifted (queue : List ℕ) (tasks : Slots Task) (r : Option ℕ × List ℕ × Slots Task) : Prop where
  rest : r.2.1.Sublist queue
  table : ∀ pid, r.2.2.get pid = if pid ∈ queue ∧ pid ∉ r.2.1 then (tasks.get pid).map unflag else tasks.get pid
  ready : ∀ pid ∈ queue, pid ∉ r.2.1 → ∀ t, tasks.get pid = some t → t.state = .ready → r.1 = some pid
  picked : ∀ pid, r.1 = some pid → pid ∈ queue ∧ pid ∉ r.2.1

variable {r : Option ℕ × List ℕ × Slots Task}

theorem Sifted.keep {queue : List ℕ} {tasks : Slots Task} (h : Sifted queue tasks r)
    (hnot : pid ∉ queue) : Sifted (pid :: queue) tasks (r.1, pid :: r.2.1, r.2.2) where
  rest := h.rest.cons_cons pid
  table other := by
    rw [h.table]
    by_cases heq : other = pid
    · subst heq
      simp [hnot]
    · simp [heq]
  ready other hmem hout := by
    rw [mem_cons, not_or] at hout
    rcases mem_cons.1 hmem with heq | hmem
    · exact absurd heq hout.1
    · exact h.ready other hmem hout.2
  picked other hpicked := by
    obtain ⟨hmem, hout⟩ := h.picked other hpicked
    refine ⟨mem_cons_of_mem pid hmem, ?_⟩
    rw [mem_cons, not_or]
    exact ⟨ne_of_mem_of_not_mem hmem hnot, hout⟩

theorem Sifted.leave {queue : List ℕ} {tasks tasks' : Slots Task}
    (h : Sifted queue tasks' r) (hnot : pid ∉ queue)
    (htasks : ∀ other, tasks'.get other = if other = pid then (tasks.get other).map unflag else tasks.get other)
    (hready : ∀ t, tasks.get pid = some t → t.state ≠ .ready) : Sifted (pid :: queue) tasks r where
  rest := h.rest.cons pid
  table other := by
    rw [h.table, htasks]
    by_cases heq : other = pid
    · subst heq
      have hout : other ∉ r.2.1 := fun hmem => hnot (h.rest.subset hmem)
      simp [hnot, hout]
    · simp [heq]
  ready other hmem hout t ht hr := by
    rcases mem_cons.1 hmem with rfl | hmem
    · exact absurd hr (hready t ht)
    · refine h.ready other hmem hout t ?_ hr
      rw [htasks, if_neg (ne_of_mem_of_not_mem hmem hnot)]
      exact ht
  picked other hpicked := (h.picked other hpicked).imp_left (mem_cons_of_mem pid)

theorem scan_sifted (busy locked : ℕ → Bool) {queue : List ℕ} (hnd : queue.Nodup) :
    ∀ tasks, Sifted queue tasks (scan busy locked queue tasks) := by
  induction queue with
  | nil =>
    refine fun tasks => ⟨Sublist.refl _, fun pid => by simp [scan], fun pid hmem => ?_, fun pid hpicked => ?_⟩
    · cases hmem
    · cases hpicked
  | cons pid queue ih =>
    intro tasks
    obtain ⟨hnot, hnd⟩ := nodup_cons.1 hnd
    have hunflag : ∀ other, (tasks.modify pid unflag).get other =
        if other = pid then (tasks.get other).map unflag else tasks.get other := fun other => Slots.get_modify unflag
    rw [scan]
    by_cases hbusy : busy pid = true
    · rw [if_pos hbusy]
      exact (ih hnd tasks).keep hnot
    · rw [if_neg hbusy]
      cases ht : tasks.get pid with
      | none =>
        refine (ih hnd tasks).leave hnot (fun other => ?_) fun t ht' => by rw [ht] at ht'; cases ht'
        split_ifs with heq
        · rw [heq, ht]
          rfl
        · rfl
      | some t =>
        dsimp only
        split_ifs with hlocked hready
        · exact (ih hnd tasks).keep hnot
        · refine ⟨sublist_cons_self pid queue, fun other => ?_, fun other hmem hout u hu hr => ?_, fun other hpicked => ?_⟩
          · refine (hunflag other).trans ?_
            by_cases heq : other = pid
            · subst heq
              simp [hnot]
            · by_cases hmem : other ∈ queue <;> simp [heq, hmem]
          · rcases mem_cons.1 hmem with rfl | hmem
            · rfl
            · exact absurd hmem hout
          · cases hpicked
            exact ⟨mem_cons_self, hnot⟩
        · refine (ih hnd _).leave hnot hunflag fun u hu hr => ?_
          cases ht.symm.trans hu
          exact hready hr

/-- the queue and the tasks after the scan -/
def sifted (k : Kernel Cpu) (p : Priority) (r : Option ℕ × List ℕ × Slots Task) : Kernel Cpu :=
  { k with queues := update k.queues p r.2.1, tasks := r.2.2 }

theorem sublist_sifted (hsift : Sifted (k.queues p) k.tasks r) (q : Priority) :
    ((k.sifted p r).queues q).Sublist (k.queues q) := by
  change (update k.queues p r.2.1 q).Sublist (k.queues q)
  by_cases hq : q = p
  · rw [hq, update_self]
    exact hsift.rest
  · rw [update_of_ne hq]

section Pick

variable (h : Lined none k)
include h

theorem Lined.queued_sifted (hsift : Sifted (k.queues p) k.tasks r) (pid : ℕ) :
    (k.sifted p r).Queued pid ↔ k.Queued pid ∧ ¬(pid ∈ k.queues p ∧ pid ∉ r.2.1) := by
  constructor
  · rintro ⟨q, hq⟩
    have hold := (sublist_sifted hsift q).subset hq
    refine ⟨⟨q, hold⟩, fun ⟨hmem, hout⟩ => ?_⟩
    change pid ∈ update k.queues p r.2.1 q at hq
    rw [h.apart q p pid hold hmem, update_self] at hq
    exact hout hq
  · rintro ⟨⟨q, hq⟩, hkept⟩
    refine ⟨q, ?_⟩
    change pid ∈ update k.queues p r.2.1 q
    by_cases hqp : q = p
    · subst hqp
      rw [update_self]
      by_contra hout
      exact hkept ⟨hq, hout⟩
    · rw [update_of_ne hqp]
      exact hq

theorem Lined.sift (hsift : Sifted (k.queues p) k.tasks r) : Lined r.1 (k.sifted p r) := by
  have hsub := sublist_sifted hsift
  have hqueued := h.queued_sifted hsift
  have htask : ∀ {pid t'}, r.2.2.get pid = some t' → ∃ t, k.task pid = some t ∧
      t' = if pid ∈ k.queues p ∧ pid ∉ r.2.1 then unflag t else t := by
    intro pid t' ht'
    rw [hsift.table] at ht'
    split_ifs at ht' ⊢
    · obtain ⟨t, ht, rfl⟩ := map_eq_some_iff.1 ht'
      exact ⟨t, ht, rfl⟩
    · exact ⟨t', ht', rfl⟩
  constructor
  · exact fun q => (h.nodup q).sublist (hsub q)
  · exact fun q q' pid hq hq' => h.apart q q' pid ((hsub q).subset hq) ((hsub q').subset hq')
  · intro q pid t' hq ht'
    obtain ⟨t, ht, rfl⟩ := htask ht'
    have := h.home q pid t ((hsub q).subset hq) ht
    split_ifs <;> exact this
  · intro pid t' ht'
    obtain ⟨t, ht, rfl⟩ := htask ht'
    rw [hqueued, ← h.flag pid t ht]
    split_ifs with hgone
    · simp [unflag, hgone]
    · simp [hgone]
  · intro pid t' ht' hr hi
    obtain ⟨t, ht, rfl⟩ := htask ht'
    split_ifs at hr hi with hgone
    · exact .inl (hsift.ready pid hgone.1 hgone.2 t ht hr)
    · rcases h.ready pid t ht hr hi with hhand | hat | hold
      · cases hhand
      · exact .inr (.inl hat)
      · exact .inr (.inr ((hqueued pid).2 ⟨hold, hgone⟩))

variable [Fintype Cpu] (locked : ℕ → Bool)

theorem Lined.pickFrom (priorities : List Priority) :
    Lined (pickFrom locked priorities k).1 (pickFrom locked priorities k).2 ∧
      ∀ pid, (pickFrom locked priorities k).1 = some pid → ¬(pickFrom locked priorities k).2.Queued pid := by
  induction priorities generalizing k with
  | nil => exact ⟨h, nofun⟩
  | cons p rest ih =>
    have hsift := scan_sifted k.busy locked (h.nodup p) k.tasks
    rw [pickFrom]
    generalize scan k.busy locked (k.queues p) k.tasks = r at hsift ⊢
    obtain ⟨found, queue, tasks⟩ := r
    cases found with
    | some pid => exact ⟨h.sift hsift, fun pid hpid hq => ((h.queued_sifted hsift pid).1 hq).2 (hsift.picked pid hpid)⟩
    | none => exact ih (h.sift hsift)

theorem Lined.pickNext :
    Lined (k.pickNext locked).1 (k.pickNext locked).2 ∧
      ∀ pid, (k.pickNext locked).1 = some pid → ¬(k.pickNext locked).2.Queued pid := h.pickFrom locked Priority.all

end Pick

/-! ## Switching -/

theorem Lined.setState (h : Lined hand k) (pid : ℕ) {state : TaskState} (hstate : state ≠ .ready) :
    Lined hand (k.setState pid state) :=
  h.setTask (fun _ _ _ => rfl) (fun t ht => h.flag pid t ht) fun _ _ hr _ => absurd hr hstate

section Switch

variable [DecidableEq Cpu] {c : Cpu}

/-- the task that is switched away from is suspending, and the next one runs -/
theorem Lined.switched {cur next : ℕ} (h : Lined hand k) (hhand : ∀ pid, hand = some pid → pid = next)
    (hcur : k.currentCpus c = some cur) (hturn : k.suspendingTasks c = none) : Lined none (k.switched c cur next) := by
  refine h.sameQueues rfl fun pid t' ht' => ?_
  obtain ⟨t, ht, hsame, hstate⟩ := task_switched ht'
  rw [hsame]
  refine ⟨t, ht, fun _ => rfl, h.flag pid t ht, fun hr hi => ?_⟩
  by_cases hpid : pid = cur
  · refine .inr (.inl ⟨c, .inr ?_⟩)
    rw [suspendingTasks_switched, if_pos rfl, ← hpid, ht]
    rfl
  · rcases hstate with ⟨-, hrun⟩ | ⟨hnext, hold | ⟨hcur', -⟩⟩
    · cases hrun.symm.trans hr
    · rcases h.ready pid t ht (hold.symm.trans hr) hi with hhand' | ⟨c', hat⟩ | hq
      · exact absurd (hhand pid hhand') hnext
      · by_cases hc : c' = c
        · subst hc
          rcases hat with hat | hat
          · rw [hcur] at hat
            exact absurd (some.inj hat).symm hpid
          · rw [hturn] at hat
            cases hat
        · refine .inr (.inl ⟨c', ?_⟩)
          rw [At, currentCpus_switched, suspendingTasks_switched, if_neg hc, if_neg hc]
          exact hat
      · exact .inr (.inr hq)
    · exact absurd hcur' hpid

/-- what `schedule` comes to, with what is known of the queues after the picking -/
inductive Turn [Fintype Cpu] (k : Kernel Cpu) (c : Cpu) : Kernel Cpu → Prop
  | same : Turn k c k
  | rest {k' : Kernel Cpu} (hpick : Picks k k' none) (h : Lined none k') : Turn k c k'
  | goOn {k' : Kernel Cpu} {cur : ℕ} (hpick : Picks k k' none) (h : Lined none k') (hc : k.currentCpus c = some cur) :
      Turn k c (k'.setState cur .running)
  | next {k' : Kernel Cpu} {cur pid : ℕ} (hpick : Picks k k' (some pid)) (h : Lined (some pid) k')
      (hc : k.currentCpus c = some cur) (hne : pid ≠ cur) (hout : ¬k'.Queued pid) : Turn k c (k'.switched c cur pid)
  | toIdle {k' : Kernel Cpu} {cur : ℕ} (hpick : Picks k k' none) (h : Lined none k') (hc : k.currentCpus c = some cur)
      (hne : k'.idleCpus c ≠ cur) : Turn k c (k'.switched c cur (k'.idleCpus c))

variable (h : Lined none k)
include h

theorem Lined.turn [Fintype Cpu] {locks : Contention} (hturn : k.suspendingTasks c = none)
    (hfree : locks.next = false) : Turn k c (k.schedule c locks).1 := by
  unfold schedule
  cases hc : k.currentCpus c with
  | none => exact .same
  | some cur =>
    dsimp only
    by_cases hlock : (k.task cur).isSome ∧ locks.current = true
    · rw [if_pos hlock]
      exact .same
    rw [if_neg hlock]
    obtain ⟨hlined, hout⟩ := h.pickNext locks.picked
    have hpick := pickNext_spec locks.picked k
    generalize k.pickNext locks.picked = r at hlined hout hpick ⊢
    obtain ⟨found, k'⟩ := r
    cases found with
    | some pid =>
      dsimp only
      obtain ⟨-, hbusy, t, ht, -⟩ := hpick.picked pid rfl
      obtain ⟨t', ht', -⟩ := hpick.quiet.after ht
      have hne : pid ≠ cur := fun heq => (not_busy hbusy c).1 (hc.trans (congrArg some heq.symm))
      rw [ht']
      dsimp only
      rw [hfree, if_neg (by decide), switchTo, if_neg hne]
      exact .next hpick hlined hc hne (hout pid rfl)
    | none =>
      dsimp only
      split_ifs
      · have hsame : update (k'.setState cur .running).suspendingTasks c none =
            (k'.setState cur .running).suspendingTasks :=
          update_eq_self_iff.2 ((congrFun hpick.suspending c).trans hturn).symm
        rw [hsame]
        exact .goOn hpick hlined hc
      · unfold switchTo
        split_ifs with hidle
        · exact .goOn hpick hlined hc
        · exact .toIdle hpick hlined hc hidle
      · exact .rest hpick hlined

theorem Turn.lined [Fintype Cpu] (hturn : k.suspendingTasks c = none) (hk' : Turn k c k') : Lined none k' := by
  cases hk' with
  | same => exact h
  | rest hpick hlined => exact hlined
  | goOn hpick hlined hc => exact hlined.setState _ (by decide)
  | next hpick hlined hc hne hout =>
    refine hlined.switched (fun x hx => (some.inj hx).symm) ?_ ?_
    · exact (congrFun hpick.current c).trans hc
    · exact (congrFun hpick.suspending c).trans hturn
  | toIdle hpick hlined hc hne =>
    refine hlined.switched nofun ?_ ?_
    · exact (congrFun hpick.current c).trans hc
    · exact (congrFun hpick.suspending c).trans hturn

/-- the task that was suspending is on no CPU then -/
theorem Lined.postContextSwitch (c : Cpu) : Lined none (k.postContextSwitch c).1 := by
  unfold Kernel.postContextSwitch
  cases hs : k.suspendingTasks c with
  | none => exact h
  | some pid =>
    have hleft : Lined (some pid) { k with suspendingTasks := update k.suspendingTasks c none } := by
      refine { h with ready := fun other t ht hr hi => ?_ }
      rcases h.ready other t ht hr hi with hhand | ⟨c', hat⟩ | hq
      · cases hhand
      · by_cases hother : other = pid
        · exact .inl (congrArg some hother.symm)
        · refine .inr (.inl ⟨c', hat.imp_right fun hsus => ?_⟩)
          change update k.suspendingTasks c none c' = some other
          rw [update_of_ne, hsus]
          rintro rfl
          rw [hs] at hsus
          exact hother (some.inj hsus).symm
      · exact .inr (.inr hq)
    dsimp only
    generalize ({ k with suspendingTasks := update k.suspendingTasks c none } : Kernel Cpu) = left at hleft ⊢
    cases ht : left.task pid with
    | none => exact hleft.placed fun t ht' => by rw [ht] at ht'; cases ht'
    | some t =>
      dsimp only
      split_ifs with hready henqueue
      · have hnot : ¬left.Queued pid := by
          rw [← hleft.flag pid t ht, henqueue.2]
          decide
        have hpushed := hleft.push (f := fun t => { t with inQueue := true }) ht hnot rfl rfl
        exact hpushed.placed fun _ _ _ _ => .inr (queued_pushBack.2 (.inr rfl))
      · refine hleft.placed fun u hu _ hi => .inr ?_
        cases ht.symm.trans hu
        rw [← hleft.flag pid t ht]
        by_contra hflag
        exact henqueue ⟨hi, Bool.eq_false_iff.2 hflag⟩
      all_goals
        refine hleft.placed fun u hu hr _ => ?_
        cases ht.symm.trans hu
        exact absurd hr hready

end Switch

/-! ## Exits, and the other steps -/

section

variable (h : Lined hand k)
include h

theorem Lined.mapAll (hf : ∀ t, (f t).priority = t.priority ∧ (f t).inQueue = t.inQueue ∧
    (f t).state = t.state ∧ (f t).isIdle = t.isIdle) : Lined hand { k with tasks := k.tasks.mapAll f } := by
  refine h.sameQueues rfl fun pid t' ht' => ?_
  change (k.tasks.mapAll f).get pid = some t' at ht'
  rw [Slots.get_mapAll] at ht'
  obtain ⟨t, ht, rfl⟩ := map_eq_some_iff.1 ht'
  obtain ⟨hprio, hflag, hstate, hidle⟩ := hf t
  rw [hflag, hstate, hidle]
  exact ⟨t, ht, fun _ => hprio, h.flag pid t ht, h.ready pid t ht⟩

theorem Lined.adopt (pid : ℕ) (locked : ℕ → Bool) (waiters : List ℕ) : Lined hand (k.adopt pid locked waiters) := by
  have hmap : Lined hand { k with tasks := k.tasks.mapAll (reparent pid locked) } := by
    refine h.mapAll fun t => ?_
    unfold reparent
    split_ifs <;> exact ⟨rfl, rfl, rfl, rfl⟩
  unfold Kernel.adopt
  dsimp only
  split_ifs
  · exact (hmap.wakeAll waiters).wakeTask INIT
  · exact hmap

theorem Lined.signalParent (parent : ℕ) (waiters : List ℕ) : Lined hand (k.signalParent parent waiters) := by
  unfold Kernel.signalParent
  have hwoken := h.wakeTask parent
  generalize (k.wakeTask parent).1 = woken at hwoken ⊢
  dsimp only
  cases ht : woken.task parent with
  | none => exact hwoken
  | some t =>
    dsimp only
    generalize hs : (woken.setTask parent fun t => { t with pendingSignals := t.pendingSignals ||| SIGCHLD_BIT }) = signalled
    have hsignal : Lined hand signalled := by
      rw [← hs]
      exact hwoken.setTask (fun _ _ _ => rfl) (fun u hu => hwoken.flag parent u hu) fun u _ hr hi => .inl ⟨hr, hi⟩
    have htask : signalled.task parent = some { t with pendingSignals := t.pendingSignals ||| SIGCHLD_BIT } := by
      rw [← hs, task_setTask, if_pos rfl, ht]
      rfl
    have hflag := hsignal.flag parent _ htask
    split_ifs with hblocked hin
    · -- it is made ready and queued at once
      refine Lined.wakeAll ?_ waiters
      have hnot : ¬signalled.Queued parent := by
        rw [← hflag, hin]
        decide
      have hpushed := hsignal.push (f := fun t => { t with state := .ready, inQueue := true }) htask hnot rfl rfl
      have heq : ((signalled.setState parent .ready).pushBack t.priority parent).setTask parent
          (fun t => { t with inQueue := true }) =
          (signalled.pushBack t.priority parent).setTask parent fun t => { t with state := .ready, inQueue := true } := by
        unfold Kernel.setState Kernel.setTask Kernel.pushBack
        rw [Slots.modify_modify]
        rfl
      rw [heq]
      exact hpushed
    · refine Lined.wakeAll ?_ waiters
      refine hsignal.setTask (fun _ _ _ => rfl) (fun u hu => hsignal.flag parent u hu) fun _ _ _ _ => .inr (.inr ?_)
      rw [← hflag]
      exact Bool.eq_true_of_not_eq_false hin
    · exact hsignal.wakeAll waiters

theorem Lined.exitTask (pid : ℕ) (exitCode : Int32) (locked : ℕ → Bool) (wakes : ExitWakes) :
    Lined hand (k.exitTask pid exitCode locked wakes) := by
  have hdead : Lined hand (k.setTask pid fun t => { t with state := .zombie, exitCode := some exitCode }) :=
    h.setTask (fun _ _ _ => rfl) (fun t ht => h.flag pid t ht) nofun
  have hwoken := hdead.wakeAll wakes.vfork
  unfold Kernel.exitTask
  dsimp only
  split_ifs
  · exact hwoken
  · cases k.task pid with
    | none => exact hwoken.adopt pid locked wakes.init
    | some t => exact (hwoken.adopt pid locked wakes.init).signalParent t.parentPid wakes.parent

end

theorem Lined.addTask (h : Lined none k) {task : Task} (hnew : k.New task) : Lined none (k.addTask task) := by
  refine h.moved (p := task.priority) (nodup_pushBack h.nodup hnew.unqueued _) (fun q other => mem_pushBack_of_not hnew.unqueued)
    (fun u hu => ?_) (fun other hne => ?_) fun c other hat => hat
  · rw [task_addTask, if_pos rfl] at hu
    cases hu
    exact ⟨rfl, rfl⟩
  · rw [task_addTask, if_neg hne]

theorem Lined.reap (h : Lined hand k) (pid : ℕ) : Lined hand (k.reap pid) := by
  refine h.sameQueues rfl fun other t ht => ?_
  rw [task_reap] at ht
  split_ifs at ht
  exact ⟨t, ht, fun _ => rfl, h.flag other t ht, h.ready other t ht⟩

section Step

variable [Fintype Cpu] [DecidableEq Cpu]

/-- **Step.** Each critical section keeps queues, flags and states in agreement. -/
theorem lined_step (h : Lined none k) {e : Event Cpu} (hturn : InTurn k e) (hlocks : Uncontended k e) (hsettled : Settled k e) :
    Lined none (k.step e) := by
  cases e with
  | schedule c locks => exact (h.turn hturn hlocks).lined h hturn
  | postContextSwitch c => exact h.postContextSwitch c
  | reap pid => exact h.reap pid
  | tick c expired locked => exact h.tick hsettled
  | wakeTask pid => exact h.wakeTask pid
  | blockTask pid => exact h.setState pid (by decide)
  | addTask task => exact h.addTask hturn
  | exitTask pid exitCode locked wakes => exact h.exitTask pid exitCode locked wakes

end Step

/-! ## Runs in which nobody is blocked -/

/-- the tasks that run are not queued, and cannot be -/
structure Steady (k : Kernel Cpu) : Prop where
  unqueued : ∀ c pid, k.currentCpus c = some pid → ¬k.Queued pid
  running : ∀ c pid t, k.currentCpus c = some pid → k.task pid = some t → ¬Wakeable t
  left : ∀ c pid, k.currentCpus c = some pid → k.suspendingTasks c ≠ some pid

theorem Touched.not_wakeable {t' : Task} (h : Touched t t') (hw : ¬Wakeable t) : ¬Wakeable t' := by
  rcases h.state with hs | ⟨hb, -⟩
  · rw [Wakeable, hs, h.idle]
    exact hw
  · exact absurd (.inl hb) hw

section

variable (h : Steady k)
include h

theorem Steady.quiet (hquiet : Quiet k k') : Steady k' where
  unqueued c pid hc hq := by
    rw [hquiet.current] at hc
    rcases hquiet.queued pid hq with hq | ⟨t, ht, hw⟩
    · exact h.unqueued c pid hc hq
    · exact h.running c pid t hc ht hw
  running c pid t' hc ht' := by
    rw [hquiet.current] at hc
    obtain ⟨t, ht, htouched⟩ := hquiet.before ht'
    exact htouched.not_wakeable (h.running c pid t hc ht)
  left c pid hc := by
    rw [hquiet.current] at hc
    rw [hquiet.suspending]
    exact h.left c pid hc

/-- a write that makes no task wakeable -/
theorem Steady.setTask (hf : ∀ t, Wakeable (f t) → Wakeable t) : Steady (k.setTask pid f) where
  unqueued := h.unqueued
  running c other t hc ht := by
    rw [task_setTask] at ht
    split_ifs at ht
    · obtain ⟨u, hu, rfl⟩ := map_eq_some_iff.1 ht
      exact fun hw => h.running c other u hc hu (hf u hw)
    · exact h.running c other t hc ht
  left := h.left

theorem Steady.setRunning : Steady (k.setState pid .running) :=
  h.setTask fun t hw => by rcases hw with hb | ⟨hr, -⟩ <;> contradiction

theorem Steady.addTask {task : Task} (hnew : k.New task) : Steady (k.addTask task) := by
  have hne : ∀ c pid, k.currentCpus c = some pid → pid ≠ task.pid := fun c pid hc heq => hnew.off c (.inl (heq ▸ hc))
  refine ⟨fun c pid hc hq => ?_, fun c pid t hc ht => ?_, h.left⟩
  · rcases queued_pushBack.1 hq with hq | heq
    · exact h.unqueued c pid hc hq
    · exact hne c pid hc heq
  · rw [task_addTask, if_neg (hne c pid hc)] at ht
    exact h.running c pid t hc ht

theorem Steady.reap (pid : ℕ) : Steady (k.reap pid) := by
  refine ⟨h.unqueued, fun c other t hc ht => ?_, h.left⟩
  rw [task_reap] at ht
  split_ifs at ht
  exact h.running c other t hc ht

theorem Steady.exitTask (pid : ℕ) (exitCode : Int32) (locked : ℕ → Bool) (wakes : ExitWakes) :
    Steady (k.exitTask pid exitCode locked wakes) := by
  refine Steady.quiet ?_ (quiet_exitTask k pid exitCode locked wakes)
  exact h.setTask fun t hw => by rcases hw with hb | ⟨hr, -⟩ <;> contradiction

theorem Steady.settled (e : Event Cpu) : Settled k e := by
  cases e with
  | tick c expired locked =>
    intro pid t hc ht _ _
    exact ⟨h.unqueued c pid hc, fun hw => h.running c pid t hc ht hw.2⟩
  | _ => trivial

end

theorem InTurn.namesTask {e : Event Cpu} (h : InTurn k e) : NamesTask k e := by
  cases e with
  | addTask task => exact h.ordinary
  | blockTask pid => exact h
  | _ => trivial

section Steps

variable [DecidableEq Cpu]

theorem Steady.switched (h : Steady k) (hapart : Apart k) {c : Cpu} {cur next : ℕ} (hcur : k.currentCpus c = some cur)
    (hne : next ≠ cur) (hout : ¬k.Queued next) : Steady (k.switched c cur next) := by
  refine ⟨fun c' pid hc => ?_, fun c' pid t hc ht => ?_, distinct_switched h.left hne⟩
  · rw [currentCpus_switched] at hc
    split_ifs at hc
    · cases hc
      exact hout
    · exact h.unqueued c' pid hc
  · obtain ⟨u, hu, hsame, ⟨-, hrun⟩ | ⟨hpid, hstate⟩⟩ := task_switched ht
    · rw [Wakeable, hrun]
      rintro (hb | ⟨hr, -⟩) <;> contradiction
    · rw [currentCpus_switched] at hc
      split_ifs at hc with hc'
      · exact absurd (some.inj hc).symm hpid
      · rcases hstate with hstate | ⟨rfl, -⟩
        · rw [hsame, hstate]
          exact h.running c' pid u hc hu
        · exact absurd (hapart.one c' c pid (.inl hc) (.inl hcur)) hc'

theorem Steady.postContextSwitch (h : Steady k) (c : Cpu) : Steady (k.postContextSwitch c).1 := by
  have hleft : Steady { k with suspendingTasks := update k.suspendingTasks c none } := by
    refine ⟨h.unqueued, h.running, fun c' other hc hs' => ?_⟩
    dsimp only at hs'
    by_cases hc' : c' = c
    · rw [hc', update_self] at hs'
      cases hs'
    · rw [update_of_ne hc'] at hs'
      exact h.left c' other hc hs'
  exact hleft.quiet (quiet_postContextSwitch k c)

variable [Fintype Cpu]

theorem Turn.steady (h : Steady k) (hapart : Apart k) (haside : Aside k) {c : Cpu} (hk' : Turn k c k') : Steady k' := by
  cases hk' with
  | same => exact h
  | rest hpick hlined => exact h.quiet hpick.quiet
  | goOn hpick hlined hc => exact (h.quiet hpick.quiet).setRunning
  | next hpick hlined hc hne hout =>
    have hcur := (congrFun hpick.current c).trans hc
    exact (h.quiet hpick.quiet).switched (hpick.quiet.apart hapart) hcur hne hout
  | toIdle hpick hlined hc hne =>
    have hcur := (congrFun hpick.current c).trans hc
    have hout := (hpick.quiet.bland.aside haside).unqueued c
    exact (h.quiet hpick.quiet).switched (hpick.quiet.apart hapart) hcur hne hout

/-- **Step.** Unless a task is blocked, the tasks that run are not queued and cannot be woken. -/
theorem steady_step (h : Steady k) (hlined : Lined none k) (hapart : Apart k) (haside : Aside k) {e : Event Cpu}
    (hturn : InTurn k e) (hlocks : Uncontended k e) (hblocks : e.blocks = false) : Steady (k.step e) := by
  cases e with
  | schedule c locks => exact (hlined.turn hturn hlocks).steady h hapart haside
  | postContextSwitch c => exact h.postContextSwitch c
  | reap pid => exact h.reap pid
  | tick c expired locked => exact h.quiet (quiet_tick k c expired locked)
  | wakeTask pid => exact h.quiet (quiet_wakeTask k pid)
  | blockTask pid => cases hblocks
  | addTask task => exact h.addTask hturn
  | exitTask pid exitCode locked wakes => exact h.exitTask pid exitCode locked wakes

end Steps

/-! ## Runs -/

variable {n : ℕ} {k : Kernel (Fin n)}

theorem Started.queues (hk : Started k) (pid : ℕ) : ¬k.Queued pid := by
  have hinit : (Kernel.init n).queues = (Kernel.new n).queues := (addIdle_foldl (finRange n) (Kernel.new n)).1
  rintro ⟨p, hp⟩
  cases hk with
  | init =>
    rw [hinit] at hp
    cases hp
  | bootstrap c task h =>
    change pid ∈ (Kernel.init n).queues p at hp
    rw [hinit] at hp
    cases hp

/-- at the start nothing is queued, and the tasks that are not running are idle tasks -/
theorem Started.lined {k : Kernel (Fin n)} (hk : Started k) (hflags : ∀ pid t, k.task pid = some t → t.inQueue = false) :
    Lined none k where
  nodup p := by
    rw [eq_nil_iff_forall_not_mem.2 fun pid hp => hk.queues pid ⟨p, hp⟩]
    exact nodup_nil
  apart p q pid hp := absurd ⟨p, hp⟩ (hk.queues pid)
  home p pid t hp := absurd ⟨p, hp⟩ (hk.queues pid)
  flag pid t ht := by
    rw [hflags pid t ht]
    exact iff_of_false (by decide) (hk.queues pid)
  ready pid t ht hr hi := by
    exfalso
    have hinit : (Kernel.init n).task pid = some t → False := by
      intro ht
      rw [task_init] at ht
      split_ifs at ht
      cases ht
      cases hi
    cases hk with
    | init => exact hinit ht
    | bootstrap c task h =>
      rw [task_bootstrap] at ht
      split_ifs at ht
      · cases ht
        cases hr
      · exact hinit ht

theorem Started.steady (hk : Started k) : Steady k where
  unqueued _ pid _ := hk.queues pid
  running c pid t hc ht := by
    obtain ⟨u, hu, hord⟩ := hk.current hc
    cases ht.symm.trans hu
    by_cases hidle : k.Ordinary pid
    · rintro (hb | ⟨hr, -⟩)
      · cases (hord hidle).symm.trans hb
      · cases (hord hidle).symm.trans hr
    · obtain ⟨c', hc'⟩ := not_forall.1 hidle
      obtain ⟨hi, hb⟩ := hk.aside.tasks c' t ((not_ne_iff.1 hc') ▸ ht)
      rintro (hb' | ⟨-, hi'⟩)
      · exact hb hb'
      · cases hi.symm.trans hi'
  left c pid _ hs := by
    rw [hk.suspending c] at hs
    cases hs

/-- with blocking, as long as no tick lowers the priority of a task that is queued -/
theorem accounted_of_settled {k : Kernel (Fin n)} (hk : Started k)
    (hflags : ∀ pid t, k.task pid = some t → t.inQueue = false) {es : List (Event (Fin n))} (hturn : Each step InTurn k es)
    (hlocks : Each step Uncontended k es) (hsettled : Each step Settled k es) : Accounted (run step k es) := by
  refine (invariant (I := fun k => Lined none k) (fun k e h he => ?_) (hk.lined hflags) (hturn.and (hlocks.and hsettled))).accounted
  exact lined_step h he.1 he.2.1 he.2.2

/-- a task is woken before it has left its CPU, its time quantum ends, and it is woken again: it is in two queues -/
theorem demoted_queued_twice :
    let k := (init 2).setBootstrapThread 0 { Task.new 1 with cpuTicks := TIME_QUANTUM - 1 }
    let es : List (Event (Fin 2)) := [.blockTask 1, .wakeTask 1, .tick 0 [] fun _ => false, .wakeTask 1]
    Each step Uncontended k es ∧ ¬(Priority.all.flatMap (run step k es).queues).Nodup := by
  exact ⟨⟨trivial, trivial, trivial, trivial, trivial⟩, by decide +kernel⟩

/-- **No runnable task is lost.** In every interleaving over any number of CPUs in which nobody is blocked, and `schedule` finds
the lock of the task it has picked free: no pid is queued twice, a flag is set exactly for a queued task, and a ready task that is
on no CPU is queued. -/
theorem no_task_lost {n : ℕ} {k : Kernel (Fin n)} (hk : Started k)
    (hflags : ∀ pid t, k.task pid = some t → t.inQueue = false) {es : List (Event (Fin n))} (hturn : Each step InTurn k es)
    (hcalls : Each step (fun _ e => e.blocks = false) k es) (hlocks : Each step Uncontended k es) :
    Accounted (run step k es) := by
  have hinv : Lined none (run step k es) ∧ Steady (run step k es) ∧ Apart (run step k es) ∧ Aside (run step k es) := by
    refine invariant (I := fun k => Lined none k ∧ Steady k ∧ Apart k ∧ Aside k) (fun k e hinv he => ?_)
      ⟨hk.lined hflags, hk.steady, hk.apart, hk.aside⟩ (hturn.and (hcalls.and hlocks))
    obtain ⟨hlined, hsteady, hapart, haside⟩ := hinv
    obtain ⟨hturn, hblocks, hlocks⟩ := he
    refine ⟨lined_step hlined hturn hlocks (hsteady.settled e), ?_, ?_, ?_⟩
    · exact steady_step hsteady hlined hapart haside hturn hlocks hblocks
    · exact apart_step e hapart haside
    · exact aside_step haside hturn.namesTask
  exact hinv.1.accounted

/-- the boot thread starts a task and makes room for it -/
def handOver : List (Event (Fin 2)) :=
  [.addTask (Task.new 2), .wakeTask 2, .schedule 0 ⟨false, fun _ => false, false⟩, .postContextSwitch 0,
    .tick 1 [2] fun _ => false]

theorem boot_started : Started ((init 2).setBootstrapThread 0 (Task.new 1)) := .boot (by decide) 0

theorem boot_new : New ((init 2).setBootstrapThread 0 (Task.new 1)) (Task.new 2) where
  ordinary := by decide +kernel
  absent := by decide +kernel
  unqueued := boot_started.queues 2
  off c := by
    rintro (h | h)
    · revert h
      revert c
      decide +kernel
    · rw [boot_started.suspending c] at h
      cases h

theorem boot_flags (pid : ℕ) (t : Task) (ht : ((init 2).setBootstrapThread 0 (Task.new 1)).task pid = some t) :
    t.inQueue = false := by
  rw [task_bootstrap, task_init] at ht
  split_ifs at ht <;> cases ht <;> rfl

/-- the boot thread blocks, leaves its CPU and is woken -/
theorem accounted_of_settled_woken : Accounted (run step ((init 2).setBootstrapThread 0 (Task.new 1))
    [.blockTask 1, .schedule 0 ⟨false, fun _ => false, false⟩, .postContextSwitch 0, .wakeTask 1]) := by
  refine accounted_of_settled boot_started boot_flags ⟨?_, ?_, trivial, trivial, trivial⟩
    ⟨trivial, rfl, trivial, trivial, trivial⟩ ⟨trivial, trivial, trivial, trivial, trivial⟩
  · change Ordinary _ _
    decide +kernel
  · change suspendingTasks _ _ = none
    decide +kernel

theorem no_task_lost_handOver : Accounted (run step ((init 2).setBootstrapThread 0 (Task.new 1)) handOver) ∧
    (run step ((init 2).setBootstrapThread 0 (Task.new 1)) handOver).Queued 1 := by
  refine ⟨no_task_lost boot_started boot_flags ⟨boot_new, trivial, ?_, trivial, ?_, trivial⟩ ?_ ?_, ?_⟩
  · change suspendingTasks _ _ = none
    decide +kernel
  · change suspendingTasks _ _ = none
    decide +kernel
  · exact ⟨rfl, rfl, rfl, rfl, rfl, trivial⟩
  · exact ⟨trivial, trivial, rfl, trivial, trivial, trivial⟩
  · exact ⟨.normal, by decide +kernel⟩

/-- the same with the lock of the new task taken by another CPU after it has been picked: it is queued without its flag -/
theorem contended_pick_unflagged :
    let es : List (Event (Fin 2)) := [.addTask (Task.new 2), .schedule 0 ⟨false, fun _ => false, true⟩]
    let k := (init 2).setBootstrapThread 0 (Task.new 1)
    Started k ∧ (∀ pid t, k.task pid = some t → t.inQueue = false) ∧ Each step InTurn k es ∧
      Each step (fun _ e => e.blocks = false) k es ∧ (run step k es).Queued 2 ∧
      ((run step k es).task 2).map Task.inQueue = some false ∧ ¬Accounted (run step k es) := by
  have hqueued : (run step ((init 2).setBootstrapThread 0 (Task.new 1))
      [.addTask (Task.new 2), .schedule 0 ⟨false, fun _ => false, true⟩]).Queued 2 := ⟨.normal, by decide +kernel⟩
  have hflag : ((run step ((init 2).setBootstrapThread 0 (Task.new 1))
      [.addTask (Task.new 2), .schedule 0 ⟨false, fun _ => false, true⟩]).task 2).map Task.inQueue = some false := by
    decide +kernel
  refine ⟨boot_started, boot_flags, ⟨boot_new, ?_, trivial⟩, ⟨rfl, rfl, trivial⟩, hqueued, hflag, fun h => ?_⟩
  · change suspendingTasks _ _ = none
    decide +kernel
  · obtain ⟨t, ht, hfalse⟩ := map_eq_some_iff.1 hflag
    have htrue := (h.flag 2 t ht).2 hqueued
    rw [hfalse] at htrue
    cases htrue

end Kernel

end Kontsnor.Process
