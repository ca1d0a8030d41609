/-
What the operations of the scheduler do to the tasks, the queues and the CPUs, said once for all of them.

Most of them are `Quiet`: no CPU changes its task, a task keeps its state or goes from `Blocked` to `Ready`, and a task
that is new in a queue was `Blocked`, or `Ready` and no idle task.
-/
import Kontsnor.Process.Scheduler

namespace Kontsnor.Process

open List Function Kontsnor.Process.Task Option Kernel

/-- what no step of the scheduler changes in a task -/
def Task.identity (t : Task) : ℕ × ℕ × Bool := (t.pid, t.tgid, t.isIdle)

namespace Kernel

variable {Cpu : Type}

/-! ## Reading the table after a write -/

section

variable (k : Kernel Cpu)

theorem task_setTask (pid other : ℕ) (f : Task → Task) :
    (k.setTask pid f).task other = if other = pid then (k.task other).map f else k.task other :=
  Slots.get_modify f

theorem task_reap (pid other : ℕ) :
    (k.reap pid).task other = if other = pid then none else k.task other := Slots.get_clear

theorem task_addTask (task : Task) (other : ℕ) :
    (k.addTask task).task other = if other = task.pid then some { task with inQueue := true } else k.task other :=
  Slots.get_put

@[simp] theorem task_pushBack (priority : Priority) (pid other : ℕ) :
    (k.pushBack priority pid).task other = k.task other := rfl

end

/-! ## Quiet steps -/

/-- `queued` in some queue -/
def Queued (k : Kernel Cpu) (pid : ℕ) : Prop := ∃ priority, pid ∈ k.queues priority

/-- a task that a wake-up may put into a queue -/
def Wakeable (t : Task) : Prop := t.state = .blocked ∨ t.state = .ready ∧ t.isIdle = false

/-- a task after steps of others: it may have been woken -/
structure Touched (t t' : Task) : Prop where
  pid : t'.pid = t.pid
  tgid : t'.tgid = t.tgid
  idle : t'.isIdle = t.isIdle
  state : t'.state = t.state ∨ t.state = .blocked ∧ t'.state = .ready

theorem Touched.refl (t : Task) : Touched t t := ⟨rfl, rfl, rfl, .inl rfl⟩

variable {t t' : Task}

theorem Touched.trans {t'' : Task} (h : Touched t t') (h' : Touched t' t'') : Touched t t'' where
  pid := h'.pid.trans h.pid
  tgid := h'.tgid.trans h.tgid
  idle := h'.idle.trans h.idle
  state := by
    rcases h.state with hs | ⟨hb, hr⟩
    · rw [← hs]
      exact h'.state
    · rcases h'.state with hs' | ⟨hb', _⟩
      · exact .inr ⟨hb, hs'.trans hr⟩
      · rw [hr] at hb'
        exact absurd hb' (by decide)

theorem Touched.wakeable (h : Touched t t') (hw : Wakeable t') : Wakeable t := by
  rcases h.state with hs | ⟨hb, _⟩
  · rw [Wakeable, hs, h.idle] at hw
    exact hw
  · exact .inl hb

structure Quiet (k k' : Kernel Cpu) : Prop where
  current : k'.currentCpus = k.currentCpus
  suspending : k'.suspendingTasks = k.suspendingTasks
  idle : k'.idleCpus = k.idleCpus
  tasks : ∀ pid, Rel Touched (k.task pid) (k'.task pid)
  queued : ∀ pid, k'.Queued pid → k.Queued pid ∨ ∃ t, k.task pid = some t ∧ Wakeable t

variable {k k' k'' : Kernel Cpu}

section

variable {R : Task → Task → Prop} {a b c : Option Task}

theorem rel_refl (hR : ∀ t, R t t) (a : Option Task) : Rel R a a := by
  cases a with
  | none => exact .none
  | some t => exact .some (hR t)

theorem rel_trans (hR : ∀ {t t' t''}, R t t' → R t' t'' → R t t'') (h : Rel R a b) (h' : Rel R b c) : Rel R a c := by
  cases h with
  | none => exact h'
  | some htt =>
    cases h' with
    | some htt' => exact .some (hR htt htt')

theorem rel_mono {S : Task → Task → Prop} (hRS : ∀ t t', R t t' → S t t') (h : Rel R a b) : Rel S a b := by
  cases h with
  | none => exact .none
  | some htt => exact .some (hRS _ _ htt)

theorem rel_before (h : Rel R a b) (hb : b = some t') : ∃ t, a = some t ∧ R t t' := by
  subst hb
  cases h with
  | some htt => exact ⟨_, rfl, htt⟩

theorem rel_after (h : Rel R a b) (ha : a = some t) : ∃ t', b = some t' ∧ R t t' := by
  subst ha
  cases h with
  | some htt => exact ⟨_, rfl, htt⟩

end

theorem Quiet.refl (k : Kernel Cpu) : Quiet k k where
  current := rfl
  suspending := rfl
  idle := rfl
  tasks pid := rel_refl Touched.refl (k.task pid)
  queued _ h := .inl h

variable {pid : ℕ}

section

variable (h : Quiet k k')
include h

theorem Quiet.before (ht : k'.task pid = some t') : ∃ t, k.task pid = some t ∧ Touched t t' :=
  rel_before (h.tasks pid) ht

theorem Quiet.after (ht : k.task pid = some t) : ∃ t', k'.task pid = some t' ∧ Touched t t' :=
  rel_after (h.tasks pid) ht

theorem Quiet.absent (hn : k.task pid = none) : k'.task pid = none := by
  cases ha : k'.task pid with
  | none => rfl
  | some t' =>
    obtain ⟨t, ht, _⟩ := h.before ha
    rw [hn] at ht
    cases ht

theorem Quiet.trans (h' : Quiet k' k'') : Quiet k k'' where
  current := h'.current.trans h.current
  suspending := h'.suspending.trans h.suspending
  idle := h'.idle.trans h.idle
  tasks pid := rel_trans .trans (h.tasks pid) (h'.tasks pid)
  queued pid hq := by
    rcases h'.queued pid hq with hq' | ⟨t', ht', hw⟩
    · exact h.queued pid hq'
    · obtain ⟨t, ht, htt⟩ := h.before ht'
      exact .inr ⟨t, ht, htt.wakeable hw⟩

end

variable {f : Task → Task}

theorem quiet_setTask (hf : ∀ t, k.task pid = some t → Touched t (f t)) : Quiet k (k.setTask pid f) where
  current := rfl
  suspending := rfl
  idle := rfl
  tasks other := by
    rw [task_setTask]
    by_cases h : other = pid
    · subst h
      rw [if_pos rfl]
      cases ht : k.task other with
      | none => exact .none
      | some t => exact .some (hf t ht)
    · rw [if_neg h]
      exact rel_refl Touched.refl _
  queued _ h := .inl h

theorem quiet_setTask_of (hf : ∀ t, Touched t (f t)) : Quiet k (k.setTask pid f) :=
  quiet_setTask fun t _ => hf t

theorem quiet_unblock (ht : k.task pid = some t) (hb : t.state = .blocked) : Quiet k (k.setState pid .ready) := by
  refine quiet_setTask fun t' ht' => ?_
  rw [ht] at ht'
  cases ht'
  exact ⟨rfl, rfl, rfl, .inr ⟨hb, rfl⟩⟩

variable {priority : Priority} {other : ℕ}

theorem mem_queues_pushBack {p : Priority}
    (h : other ∈ (k.pushBack priority pid).queues p) : other = pid ∨ other ∈ k.queues p := by
  change other ∈ update k.queues priority (k.queues priority ++ [pid]) p at h
  by_cases hp : p = priority
  · subst hp
    rw [update_self, mem_append, mem_singleton] at h
    exact h.symm
  · rw [update_of_ne hp] at h
    exact .inr h

theorem quiet_pushBack
    (h : k.Queued pid ∨ ∃ t, k.task pid = some t ∧ Wakeable t) : Quiet k (k.pushBack priority pid) where
  current := rfl
  suspending := rfl
  idle := rfl
  tasks other := rel_refl Touched.refl (k.task other)
  queued other hq := by
    obtain ⟨p, hp⟩ := hq
    rcases mem_queues_pushBack hp with rfl | hmem
    · exact h
    · exact .inl ⟨p, hmem⟩

theorem quiet_enqueueOnce (ht : k.task pid = some t) (hw : Wakeable t) : Quiet k (k.enqueueOnce priority pid) := by
  rw [enqueueOnce]
  split_ifs
  · exact Quiet.refl k
  · exact quiet_pushBack (.inr ⟨t, ht, hw⟩)

theorem task_enqueueOnce : (k.enqueueOnce priority pid).task other = k.task other := by
  rw [enqueueOnce]
  split_ifs <;> rfl

/-! ## The operations that wake -/

theorem quiet_wakeTask (k : Kernel Cpu) (pid : ℕ) : Quiet k (k.wakeTask pid).1 := by
  rw [wakeTask]
  cases ht : k.task pid with
  | none => exact Quiet.refl k
  | some t =>
    dsimp only
    split_ifs with hb hr
    · refine (quiet_enqueueOnce ht (.inl hb)).trans (quiet_setTask fun t' ht' => ?_)
      rw [task_enqueueOnce, ht] at ht'
      cases ht'
      exact ⟨rfl, rfl, rfl, .inr ⟨hb, rfl⟩⟩
    · exact (quiet_enqueueOnce ht (.inr hr)).trans (quiet_setTask_of fun _ => ⟨rfl, rfl, rfl, .inl rfl⟩)
    · exact Quiet.refl k

theorem quiet_foldl {α : Type} {f : Kernel Cpu → α → Kernel Cpu} (hf : ∀ k a, Quiet k (f k a)) (as : List α)
    (k : Kernel Cpu) : Quiet k (as.foldl f k) :=
  foldlRecOn (motive := Quiet k) as f (Quiet.refl k) fun k' hk a _ => hk.trans (hf k' a)

theorem quiet_wakeAll (k : Kernel Cpu) (pids : List ℕ) : Quiet k (k.wakeAll pids) :=
  quiet_foldl quiet_wakeTask pids k

/-- boosting one after the other the tasks that were taken out of a queue of `k` -/
theorem quiet_boostOne_foldl {locked : ℕ → Bool} {pids : List ℕ} (hk : ∀ pid ∈ pids, k.Queued pid) {k0 : Kernel Cpu}
    (h : Quiet k k0) : Quiet k (pids.foldl (boostOne locked priority) k0) := by
  refine foldlRecOn (motive := Quiet k) pids _ h fun k' h pid hpid => ?_
  -- the pid comes from a queue of `k`, whichever queue it goes to
  have hpush : ∀ p, Quiet k (k'.pushBack p pid) := fun p =>
    { current := h.current
      suspending := h.suspending
      idle := h.idle
      tasks := h.tasks
      queued := fun other hq => by
        obtain ⟨q, hmem⟩ := hq
        rcases mem_queues_pushBack hmem with rfl | hmem'
        · exact .inl (hk other hpid)
        · exact h.queued other ⟨q, hmem'⟩ }
  rw [boostOne]
  cases k'.task pid with
  | none => exact hpush priority
  | some t =>
    dsimp only
    split_ifs
    · exact (hpush .high).trans (quiet_setTask_of fun _ => ⟨rfl, rfl, rfl, .inl rfl⟩)
    · exact hpush priority

section

variable (locked : ℕ → Bool) (k : Kernel Cpu)

theorem quiet_boostQueue (priority : Priority) : Quiet k (k.boostQueue locked priority) := by
  refine quiet_boostOne_foldl (fun pid hpid => ⟨priority, hpid⟩) ?_
  refine ⟨rfl, rfl, rfl, fun pid => rel_refl Touched.refl (k.task pid), ?_⟩
  rintro pid ⟨p, hp⟩
  left
  change pid ∈ update k.queues priority [] p at hp
  by_cases h : p = priority
  · subst h
    rw [update_self] at hp
    exact absurd hp not_mem_nil
  · rw [update_of_ne h] at hp
    exact ⟨p, hp⟩

theorem quiet_boostPriorities : Quiet k (k.boostPriorities locked) :=
  quiet_foldl (quiet_boostQueue locked) _ k

end

theorem touched_countTick (t : Task) : Touched t (countTick t) := by
  rw [countTick]
  split_ifs <;> exact ⟨rfl, rfl, rfl, .inl rfl⟩

theorem Quiet.ticks (h : Quiet k k') (n : ℕ) : Quiet k { k' with ticksSinceBoost := n } :=
  { h with }

section

variable (k : Kernel Cpu) (c : Cpu) (expired : List ℕ) (locked : ℕ → Bool)

/-- what a tick does after the wake-ups -/
theorem quiet_tick_woken :
    Quiet (wakeAll { k with ticksSinceBoost := k.ticksSinceBoost + 1 } expired) (k.tick c expired locked) := by
  rw [tick]
  generalize wakeAll { k with ticksSinceBoost := k.ticksSinceBoost + 1 } expired = woken
  have hboosted : Quiet woken (if BOOST_INTERVAL ≤ woken.ticksSinceBoost then
      { woken.boostPriorities locked with ticksSinceBoost := 0 } else woken) := by
    split_ifs
    · exact (quiet_boostPriorities locked woken).ticks 0
    · exact Quiet.refl woken
  generalize (if BOOST_INTERVAL ≤ woken.ticksSinceBoost then
      { woken.boostPriorities locked with ticksSinceBoost := 0 } else woken) = boosted at hboosted ⊢
  cases boosted.currentCpus c with
  | none => exact hboosted
  | some pid =>
    dsimp only
    split_ifs
    · exact hboosted
    · exact hboosted.trans (quiet_setTask_of touched_countTick)

theorem quiet_tick : Quiet k (k.tick c expired locked) := by
  have hwoken := ((Quiet.refl k).ticks (k.ticksSinceBoost + 1)).trans (quiet_wakeAll _ expired)
  exact hwoken.trans (quiet_tick_woken k c expired locked)

end

theorem quiet_adopt (pid : ℕ) (locked : ℕ → Bool) (waiters : List ℕ) : Quiet k (k.adopt pid locked waiters) := by
  rw [adopt]
  have hmap : Quiet k { k with tasks := k.tasks.mapAll (reparent pid locked) } := by
    refine ⟨rfl, rfl, rfl, fun other => ?_, fun other h => .inl h⟩
    rw [task, task, Slots.get_mapAll]
    cases Slots.get k.tasks other with
    | none => exact .none
    | some t =>
      refine .some ?_
      rw [reparent]
      split_ifs <;> exact ⟨rfl, rfl, rfl, .inl rfl⟩
  split_ifs
  · exact hmap.trans ((quiet_wakeAll _ waiters).trans (quiet_wakeTask _ INIT))
  · exact hmap

theorem quiet_signalParent (parent : ℕ) (waiters : List ℕ) : Quiet k (k.signalParent parent waiters) := by
  rw [signalParent]
  have hwoken := quiet_wakeTask k parent
  generalize (k.wakeTask parent).1 = woken at hwoken ⊢
  refine hwoken.trans ?_
  cases ht : woken.task parent with
  | none => exact Quiet.refl _
  | some t =>
    have hpending : Quiet woken
        (woken.setTask parent fun t => { t with pendingSignals := t.pendingSignals ||| SIGCHLD_BIT }) :=
      quiet_setTask_of fun _ => ⟨rfl, rfl, rfl, .inl rfl⟩
    have hslot : (woken.setTask parent fun t => { t with pendingSignals := t.pendingSignals ||| SIGCHLD_BIT }).task
        parent = some { t with pendingSignals := t.pendingSignals ||| SIGCHLD_BIT } := by
      rw [task_setTask, if_pos rfl, ht]
      rfl
    refine hpending.trans (Quiet.trans ?_ (quiet_wakeAll _ waiters))
    generalize woken.setTask parent _ = pending at hslot ⊢
    split_ifs with hb hq
    · have hpush : Quiet pending (pending.pushBack t.priority parent) :=
        quiet_pushBack (.inr ⟨_, hslot, .inl hb⟩)
      exact (hpush.trans (quiet_unblock hslot hb)).trans (quiet_setTask_of fun _ => ⟨rfl, rfl, rfl, .inl rfl⟩)
    · exact quiet_unblock hslot hb
    · exact Quiet.refl _

/-- an exit makes the task a zombie, and is quiet otherwise -/
theorem quiet_exitTask (k : Kernel Cpu) (pid : ℕ) (exitCode : Int32) (locked : ℕ → Bool) (wakes : ExitWakes) :
    Quiet (k.setTask pid fun t => { t with state := .zombie, exitCode := some exitCode })
      (k.exitTask pid exitCode locked wakes) := by
  rw [exitTask]
  generalize k.setTask pid _ = dead
  have hvfork := quiet_wakeAll dead wakes.vfork
  split_ifs
  · exact hvfork
  · have hadopt := hvfork.trans (quiet_adopt pid locked wakes.init)
    cases k.task pid with
    | none => exact hadopt
    | some t => exact hadopt.trans (quiet_signalParent t.parentPid wakes.parent)

/-! ## Picking -/

/-- only the flag for the queue may differ -/
def Flagged (t t' : Task) : Prop := t' = { t with inQueue := t'.inQueue }

theorem Flagged.touched (h : Flagged t t') : Touched t t' := by
  rw [Flagged] at h
  rw [h]
  exact ⟨rfl, rfl, rfl, .inl rfl⟩

theorem Flagged.trans {t'' : Task} (h : Flagged t t') (h' : Flagged t' t'') : Flagged t t'' := by
  rw [Flagged] at *
  rw [h', h]

/-- the tasks of the second table are those of the first, but for the flag -/
def SameTasks (tasks tasks' : Slots Task) : Prop := ∀ pid, Rel Flagged (tasks.get pid) (tasks'.get pid)

theorem SameTasks.refl (tasks : Slots Task) : SameTasks tasks tasks := fun _ => rel_refl (R := Flagged) (fun _ => rfl) _

theorem SameTasks.trans {a b c : Slots Task} (h : SameTasks a b) (h' : SameTasks b c) : SameTasks a c :=
  fun pid => rel_trans .trans (h pid) (h' pid)

theorem sameTasks_modify (tasks : Slots Task) (pid : ℕ) (b : Bool) :
    SameTasks tasks (tasks.modify pid fun t => { t with inQueue := b }) := by
  intro other
  rw [Slots.get_modify]
  split_ifs
  · cases tasks.get other with
    | none => exact .none
    | some t => exact .some rfl
  · exact SameTasks.refl tasks other

variable {tasks : Slots Task}

theorem SameTasks.state {tasks' : Slots Task} (h : SameTasks tasks tasks')
    (ht' : tasks'.get pid = some t') : ∃ t, tasks.get pid = some t ∧ t.state = t'.state := by
  obtain ⟨t, ht, hflag⟩ := rel_before (h pid) ht'
  rw [Flagged] at hflag
  exact ⟨t, ht, by rw [hflag]⟩

structure Scanned (busy : ℕ → Bool) (queue : List ℕ) (tasks : Slots Task)
    (r : Option ℕ × List ℕ × Slots Task) : Prop where
  table : SameTasks tasks r.2.2
  rest : r.2.1 ⊆ queue
  picked : ∀ pid, r.1 = some pid → pid ∈ queue ∧ busy pid = false ∧ ∃ t, tasks.get pid = some t ∧ t.state = .ready

variable {r : Option ℕ × List ℕ × Slots Task} {busy : ℕ → Bool}

theorem Scanned.skip {queue : List ℕ} {tasks' : Slots Task}
    (h : Scanned busy queue tasks' r) (hsame : SameTasks tasks tasks') (pid : ℕ) :
    Scanned busy (pid :: queue) tasks r where
  table := hsame.trans h.table
  rest := fun _ hx => mem_cons_of_mem _ (h.rest hx)
  picked other hr := by
    obtain ⟨hmem, hbusy, t', ht', hready⟩ := h.picked other hr
    obtain ⟨t, ht, hstate⟩ := hsame.state ht'
    exact ⟨mem_cons_of_mem _ hmem, hbusy, t, ht, hstate.trans hready⟩

theorem Scanned.keep {queue : List ℕ}
    (h : Scanned busy queue tasks r) (pid : ℕ) : Scanned busy (pid :: queue) tasks (r.1, pid :: r.2.1, r.2.2) where
  table := h.table
  rest := cons_subset_cons pid h.rest
  picked other hr := by
    obtain ⟨hmem, hrest⟩ := h.picked other hr
    exact ⟨mem_cons_of_mem _ hmem, hrest⟩

theorem scan_spec (busy locked : ℕ → Bool) (queue : List ℕ) :
    ∀ tasks, Scanned busy queue tasks (scan busy locked queue tasks) := by
  induction queue with
  | nil => exact fun tasks => ⟨SameTasks.refl tasks, fun _ h => h, nofun⟩
  | cons pid queue ih =>
    intro tasks
    rw [scan]
    by_cases hbusy : busy pid = true
    · rw [if_pos hbusy]
      exact (ih tasks).keep pid
    · rw [if_neg hbusy]
      cases ht : tasks.get pid with
      | none => exact (ih tasks).skip (SameTasks.refl tasks) pid
      | some t =>
        dsimp only
        split_ifs with hlocked hready
        · exact (ih tasks).keep pid
        · refine ⟨sameTasks_modify tasks pid false, subset_cons_self pid queue, fun other hr => ?_⟩
          cases hr
          exact ⟨mem_cons_self, Bool.eq_false_iff.2 hbusy, t, ht, hready⟩
        · exact (ih _).skip (sameTasks_modify tasks pid false) pid

variable {picked : Option ℕ}

section Pick

variable [Fintype Cpu]

structure Picks (k k' : Kernel Cpu) (picked : Option ℕ) : Prop where
  current : k'.currentCpus = k.currentCpus
  suspending : k'.suspendingTasks = k.suspendingTasks
  idle : k'.idleCpus = k.idleCpus
  tasks : SameTasks k.tasks k'.tasks
  queues : ∀ priority, k'.queues priority ⊆ k.queues priority
  picked : ∀ pid, picked = some pid → k.Queued pid ∧ k.busy pid = false ∧ ∃ t, k.task pid = some t ∧ t.state = .ready

theorem Picks.trans (h : Picks k k' none) (h' : Picks k' k'' picked) : Picks k k'' picked where
  current := h'.current.trans h.current
  suspending := h'.suspending.trans h.suspending
  idle := h'.idle.trans h.idle
  tasks := h.tasks.trans h'.tasks
  queues priority := Subset.trans (h'.queues priority) (h.queues priority)
  picked pid hpid := by
    obtain ⟨⟨p, hp⟩, hbusy, t', ht', hready⟩ := h'.picked pid hpid
    obtain ⟨t, ht, hstate⟩ := h.tasks.state ht'
    rw [busy, h.current, h.suspending] at hbusy
    exact ⟨⟨p, h.queues p hp⟩, hbusy, t, ht, hstate.trans hready⟩

theorem picks_queue (k : Kernel Cpu) (locked : ℕ → Bool) (priority : Priority) :
    Picks k { k with
      queues := update k.queues priority (scan k.busy locked (k.queues priority) k.tasks).2.1
      tasks := (scan k.busy locked (k.queues priority) k.tasks).2.2 }
      (scan k.busy locked (k.queues priority) k.tasks).1 := by
  have hscan := scan_spec k.busy locked (k.queues priority) k.tasks
  refine ⟨rfl, rfl, rfl, hscan.table, fun p => ?_, fun pid hpid => ?_⟩
  · by_cases hp : p = priority
    · subst hp
      dsimp only
      rw [update_self]
      exact hscan.rest
    · dsimp only
      rw [update_of_ne hp]
      exact fun _ h => h
  · obtain ⟨hmem, hrest⟩ := hscan.picked pid hpid
    exact ⟨⟨priority, hmem⟩, hrest⟩

variable (locked : ℕ → Bool)

theorem pickFrom_spec (priorities : List Priority) :
    ∀ k : Kernel Cpu, Picks k (pickFrom locked priorities k).2 (pickFrom locked priorities k).1 := by
  induction priorities with
  | nil => exact fun k => ⟨rfl, rfl, rfl, SameTasks.refl _, fun _ _ h => h, nofun⟩
  | cons priority rest ih =>
    intro k
    have hqueue := picks_queue k locked priority
    rw [pickFrom]
    generalize scan k.busy locked (k.queues priority) k.tasks = r at hqueue ⊢
    obtain ⟨found, queue, tasks⟩ := r
    cases found with
    | some pid => exact hqueue
    | none => exact hqueue.trans (ih _)

theorem pickNext_spec (k : Kernel Cpu) :
    Picks k (pickNext locked k).2 (pickNext locked k).1 := pickFrom_spec locked Priority.all k

theorem Picks.quiet (h : Picks k k' picked) : Quiet k k' where
  current := h.current
  suspending := h.suspending
  idle := h.idle
  tasks pid := rel_mono (fun _ _ => Flagged.touched) (h.tasks pid)
  queued _ hq := by
    obtain ⟨p, hp⟩ := hq
    exact .inl ⟨p, h.queues p hp⟩

end Pick

/-! ## What stays in a slot -/

def slot (k : Kernel Cpu) (pid : ℕ) : Option (ℕ × ℕ × Bool) := (k.task pid).map identity

theorem slot_setTask (hf : ∀ t, identity (f t) = identity t) : (k.setTask pid f).slot other = k.slot other := by
  rw [slot, task_setTask]
  split_ifs
  · rw [Option.map_map]
    exact congrArg (Option.map · (k.task other)) (funext hf)
  · rfl

theorem Quiet.slot (h : Quiet k k') (pid : ℕ) : k'.slot pid = k.slot pid := by
  cases hk : k.task pid with
  | none => rw [Kernel.slot, Kernel.slot, hk, h.absent hk]
  | some t =>
    obtain ⟨t', ht', htt⟩ := h.after hk
    rw [Kernel.slot, Kernel.slot, hk, ht', map_some, map_some, identity, identity, htt.pid, htt.tgid, htt.idle]

theorem slot_setState {state : TaskState} : (k.setState pid state).slot other = k.slot other :=
  slot_setTask fun _ => rfl

/-! ## Switching -/

section Switch

variable [Fintype Cpu] [DecidableEq Cpu] {c : Cpu} {locks : Contention}

/-- what `schedule` comes to on a CPU -/
inductive Scheduled (k : Kernel Cpu) (c : Cpu) (locks : Contention) : Kernel Cpu × Bool → Prop
  | off (hc : k.currentCpus c = none) : Scheduled k c locks (k, false)
  | held {cur : ℕ} (hc : k.currentCpus c = some cur) (hlock : locks.current = true) : Scheduled k c locks (k, false)
  | contended {cur pid : ℕ} {k' : Kernel Cpu} {priority : Priority} (hc : k.currentCpus c = some cur)
      (hpick : Picks k k' (some pid)) (hlock : locks.next = true) : Scheduled k c locks (k'.pushBack priority pid, false)
  | next {cur pid : ℕ} {k' : Kernel Cpu} (hc : k.currentCpus c = some cur) (hpick : Picks k k' (some pid))
      (hne : pid ≠ cur) : Scheduled k c locks (k'.switched c cur pid, true)
  | stays {cur : ℕ} {k' : Kernel Cpu} {t : Task} (hc : k.currentCpus c = some cur) (hpick : Picks k k' none)
      (ht : k'.task cur = some t) (hrun : t.state = .running ∨ t.state = .ready) :
      Scheduled k c locks
        ({ k'.setState cur .running with suspendingTasks := update k'.suspendingTasks c none }, false)
  | idleOn {k' : Kernel Cpu} (hc : k.currentCpus c = some (k.idleCpus c)) (hpick : Picks k k' none)
      (hrun : ∀ t, k'.task (k.idleCpus c) = some t → t.state ≠ .running ∧ t.state ≠ .ready) :
      Scheduled k c locks (k'.setState (k.idleCpus c) .running, false)
  | toIdle {cur : ℕ} {k' : Kernel Cpu} (hc : k.currentCpus c = some cur) (hpick : Picks k k' none)
      (hrun : ∀ t, k'.task cur = some t → t.state ≠ .running ∧ t.state ≠ .ready) (hne : k.idleCpus c ≠ cur)
      (hidle : (k'.task (k.idleCpus c)).isSome) : Scheduled k c locks (k'.switched c cur (k.idleCpus c), true)
  | noIdle {cur : ℕ} {k' : Kernel Cpu} (hc : k.currentCpus c = some cur) (hpick : Picks k k' none)
      (hrun : ∀ t, k'.task cur = some t → t.state ≠ .running ∧ t.state ≠ .ready)
      (hidle : k'.task (k.idleCpus c) = none) : Scheduled k c locks (k', false)

omit [DecidableEq Cpu] in
theorem not_busy (h : k.busy pid = false) (c : Cpu) : k.currentCpus c ≠ some pid ∧ k.suspendingTasks c ≠ some pid := by
  rw [busy, Bool.or_eq_false_iff, decide_eq_false_iff_not, decide_eq_false_iff_not] at h
  exact ⟨fun hc => h.1 ⟨c, hc⟩, fun hs => h.2 ⟨c, hs⟩⟩

theorem schedule_picked {cur : ℕ} (hc : k.currentCpus c = some cur) (hpick : Picks k k' (some pid)) :
    Scheduled k c locks (match k'.task pid with
      | none => (k', false)
      | some next => if locks.next then (k'.pushBack next.priority pid, false) else k'.switchTo c cur pid) := by
  obtain ⟨_, hbusy, t, ht, _⟩ := hpick.picked pid rfl
  obtain ⟨t', ht', _⟩ := hpick.quiet.after ht
  have hne : pid ≠ cur := fun h => (not_busy hbusy c).1 (hc.trans (congrArg some h.symm))
  rw [ht']
  split_ifs with hnext
  · exact .contended hc hpick hnext
  · rw [switchTo, if_neg hne]
    exact .next hc hpick hne

theorem schedule_unpicked {cur : ℕ} (hc : k.currentCpus c = some cur) (hpick : Picks k k' none) :
    Scheduled k c locks
      (if (k'.task cur).any fun t => t.state = .running ∨ t.state = .ready then
        ({ k'.setState cur .running with
            suspendingTasks := update (k'.setState cur .running).suspendingTasks c none }, false)
      else if (k'.task (k'.idleCpus c)).isSome then k'.switchTo c cur (k'.idleCpus c) else (k', false)) := by
  rw [hpick.idle]
  split_ifs with hrun hidle
  · obtain ⟨t, ht, hstate⟩ := (Option.any_eq_true ..).1 hrun
    exact .stays hc hpick ht (of_decide_eq_true hstate)
  all_goals
    have hrun' : ∀ t, k'.task cur = some t → t.state ≠ .running ∧ t.state ≠ .ready := by
      intro t ht
      rw [ht, any_some, decide_eq_true_eq] at hrun
      exact not_or.1 hrun
  · rw [switchTo]
    split_ifs with hcur
    · subst hcur
      exact .idleOn hc hpick hrun'
    · exact .toIdle hc hpick hrun' hcur hidle
  · exact .noIdle hc hpick hrun' (not_isSome_iff_eq_none.1 hidle)

theorem schedule_cases (k : Kernel Cpu) (c : Cpu) (locks : Contention) : Scheduled k c locks (k.schedule c locks) := by
  rw [schedule]
  cases hc : k.currentCpus c with
  | none => exact .off hc
  | some cur =>
    dsimp only
    by_cases hlock : (k.task cur).isSome ∧ locks.current = true
    · rw [if_pos hlock]
      exact .held hc hlock.2
    · rw [if_neg hlock]
      have hpick := pickNext_spec locks.picked k
      generalize k.pickNext locks.picked = r at hpick ⊢
      obtain ⟨found, k'⟩ := r
      cases found with
      | some pid => exact schedule_picked hc hpick
      | none => exact schedule_unpicked hc hpick

/-! ### Slots -/

omit [Fintype Cpu] in
theorem slot_switched (k : Kernel Cpu) (c : Cpu) (cur next pid : ℕ) : (k.switched c cur next).slot pid = k.slot pid := by
  have hyield : ∀ t, identity (yield t) = identity t := by
    intro t
    rw [yield]
    split_ifs <;> rfl
  exact (slot_setState (k := k.setTask cur yield)).trans (slot_setTask hyield)

section

variable {cur next : ℕ}

omit [Fintype Cpu] in
theorem currentCpus_switched (c' : Cpu) :
    (k.switched c cur next).currentCpus c' = if c' = c then some next else k.currentCpus c' := update_apply ..

omit [Fintype Cpu] in
theorem suspendingTasks_switched (c' : Cpu) : (k.switched c cur next).suspendingTasks c' =
    if c' = c then (k.task cur).map fun _ => cur else k.suspendingTasks c' := update_apply ..

omit [Fintype Cpu] in
theorem distinct_switched (h : ∀ c pid, k.currentCpus c = some pid → k.suspendingTasks c ≠ some pid) (hne : next ≠ cur)
    (c' : Cpu) (pid : ℕ) (hc : (k.switched c cur next).currentCpus c' = some pid) :
    (k.switched c cur next).suspendingTasks c' ≠ some pid := by
  intro hs
  rw [currentCpus_switched] at hc
  rw [suspendingTasks_switched] at hs
  split_ifs at hc hs
  · cases hc
    obtain ⟨_, _, heq⟩ := map_eq_some_iff.1 hs
    exact hne heq.symm
  · exact h c' pid hc hs

omit [Fintype Cpu] in
/-- the next task runs, and the one that is switched away from is `Ready` if it was `Running` -/
theorem task_switched (ht' : (k.switched c cur next).task pid = some t') :
    ∃ t, k.task pid = some t ∧ t' = { t with state := t'.state } ∧
      (pid = next ∧ t'.state = .running ∨
        pid ≠ next ∧ (t'.state = t.state ∨ pid = cur ∧ t.state = .running ∧ t'.state = .ready)) := by
  have hyield : ∀ u, (if pid = cur then (k.task pid).map yield else k.task pid) = some u → ∃ t, k.task pid = some t ∧
      u = { t with state := u.state } ∧ (u.state = t.state ∨ pid = cur ∧ t.state = .running ∧ u.state = .ready) := by
    intro u hu
    split_ifs at hu with hcur
    · obtain ⟨t, ht, rfl⟩ := map_eq_some_iff.1 hu
      rw [yield]
      split_ifs with hrun
      · exact ⟨t, ht, rfl, .inr ⟨hcur, hrun, rfl⟩⟩
      · exact ⟨t, ht, rfl, .inl rfl⟩
    · exact ⟨u, hu, rfl, .inl rfl⟩
  change ((k.setTask cur yield).setState next .running).task pid = some t' at ht'
  rw [setState, task_setTask, task_setTask] at ht'
  by_cases hnext : pid = next
  · rw [if_pos hnext] at ht'
    obtain ⟨u, hu, rfl⟩ := map_eq_some_iff.1 ht'
    obtain ⟨t, ht, hsame, -⟩ := hyield u hu
    rw [hsame]
    exact ⟨t, ht, rfl, .inl ⟨hnext, rfl⟩⟩
  · rw [if_neg hnext] at ht'
    obtain ⟨t, ht, hsame, hstate⟩ := hyield t' ht'
    exact ⟨t, ht, hsame, .inr ⟨hnext, hstate⟩⟩

end

theorem slot_schedule (k : Kernel Cpu) (c : Cpu) (locks : Contention) (pid : ℕ) :
    (k.schedule c locks).1.slot pid = k.slot pid := by
  have hcases := schedule_cases k c locks
  generalize k.schedule c locks = r at hcases ⊢
  cases hcases with
  | off => rfl
  | held => rfl
  | contended hc hpick hlock => exact hpick.quiet.slot pid
  | next hc hpick hne => exact (slot_switched _ c _ _ pid).trans (hpick.quiet.slot pid)
  | stays hc hpick ht hrun => exact slot_setState.trans (hpick.quiet.slot pid)
  | idleOn hc hpick hrun => exact slot_setState.trans (hpick.quiet.slot pid)
  | toIdle hc hpick hrun hne hidle => exact (slot_switched _ c _ _ pid).trans (hpick.quiet.slot pid)
  | noIdle hc hpick hrun hidle => exact hpick.quiet.slot pid

omit [Fintype Cpu] in
/-- the task that was suspending no longer is, and what follows is quiet -/
theorem quiet_postContextSwitch (k : Kernel Cpu) (c : Cpu) :
    Quiet { k with suspendingTasks := update k.suspendingTasks c none } (k.postContextSwitch c).1 := by
  rw [postContextSwitch]
  cases hs : k.suspendingTasks c with
  | none =>
    rw [update_eq_self_iff.2 hs.symm]
    exact Quiet.refl k
  | some suspended =>
    dsimp only
    generalize ({ k with suspendingTasks := update k.suspendingTasks c none } : Kernel Cpu) = left
    cases ht : left.task suspended with
    | none => exact Quiet.refl left
    | some t =>
      dsimp only
      split_ifs with hready henqueue
      · have hpush : Quiet left (left.pushBack t.priority suspended) :=
          quiet_pushBack (.inr ⟨t, ht, .inr ⟨hready, henqueue.1⟩⟩)
        exact hpush.trans (quiet_setTask_of fun _ => ⟨rfl, rfl, rfl, .inl rfl⟩)
      all_goals exact Quiet.refl left

/-- a slot is emptied, or a task is added -/
def Event.Fills : Event Cpu → Prop
  | .reap _ | .addTask _ => True
  | _ => False

/-- every other step keeps who is in a slot -/
theorem slot_step {e : Event Cpu} (he : ¬e.Fills) (pid : ℕ) : (k.step e).slot pid = k.slot pid := by
  cases e with
  | schedule c locks => exact slot_schedule k c locks pid
  | postContextSwitch c => exact (quiet_postContextSwitch k c).slot pid
  | tick c expired locked => exact (quiet_tick k c expired locked).slot pid
  | wakeTask other => exact (quiet_wakeTask k other).slot pid
  | exitTask other exitCode locked wakes =>
    exact ((quiet_exitTask k other exitCode locked wakes).slot pid).trans (slot_setTask fun _ => rfl)
  | blockTask other => exact slot_setState
  | reap other => exact absurd trivial he
  | addTask task => exact absurd trivial he

end Switch

end Kernel

end Kontsnor.Process
