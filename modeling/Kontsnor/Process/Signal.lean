/-
Signals between processes (`syscall/signal.rs`, and `deliver_signal_to_pgrp` of `fs/pty.rs`), and the isolation of pid
namespaces.

`kill` addresses a process, the group of the caller, any group, or everybody. The forms differ in what they check: for a
process and for everybody the namespace of the target is compared with that of the caller, for the two forms of groups it
is not. In all forms but the first, what is signalled is the leader of a thread that was found, which can itself belong to
another namespace.

**Main result.** `kill_isolated_iff`.
-/
import Kontsnor.Process.Creds
import Kontsnor.Process.SchedulerSpec

namespace Kontsnor.Process

open List Kernel

/-! ## Model -/

/-- a signal, as a bit of `pending_signals` -/
def sigBit (sig : Int32) : UInt64 := (1 : UInt64) <<< (sig.toInt - 1).toNat.toUInt64

/-- a signal number other than 0 -/
def validSig (sig : Int32) : Bool := 1 ≤ sig ∧ sig ≤ 64

def Task.isUser (t : Task) : Bool := !t.isIdle && !t.kernelSpace

/-- the thread groups of the tasks, each once -/
def tgids (tasks : List Task) : List ℕ :=
  tasks.foldl (fun seen t => if t.tgid ∈ seen then seen else seen ++ [t.tgid]) []

/-- a task that a signal to the group is for; init processes are spared the signals of the keyboard -/
def inPgrp (pgid : ℕ) (sig : Int32) (locked : ℕ → Bool) (t : Task) : Bool :=
  !locked t.pid && !((t.pid = INIT || t.isPidNsInit) && (sig = 2 || sig = 3 || sig = 20)) && t.isUser && t.pgid = pgid

/-- a task that a signal to everybody is for -/
def inBroadcast (caller nsId : ℕ) (locked : ℕ → Bool) (t : Task) : Bool :=
  !locked t.pid && (nsId = 0 || t.pidNsId = nsId) && !(t.pid = caller || t.pid ≤ 1 || t.isPidNsInit) && t.isUser

namespace Kernel

variable {Cpu : Type} (k : Kernel Cpu)

def liveTasks : List Task := k.tasks.filterMap id

def deliverSignal (sig : Int32) (k : Kernel Cpu) (pid : ℕ) : Kernel Cpu :=
  if validSig sig = false then k
  else
    match k.task pid with
    | some _ => ((k.setTask pid fun t => { t with pendingSignals := t.pendingSignals ||| sigBit sig }).wakeTask pid).1
    | none => k

def deliverAll (sig : Int32) (tasks : List Task) : Kernel Cpu :=
  (tgids tasks).foldl (deliverSignal sig) k

def deliverSignalToPgrp (pgid : ℕ) (sig : Int32) (locked : ℕ → Bool) : Kernel Cpu :=
  if validSig sig = false ∨ pgid = 0 then k else k.deliverAll sig (k.liveTasks.filter (inPgrp pgid sig locked))

/-- the namespace of the caller lets it see the task -/
def inNs (nsId : ℕ) (t : Task) : Bool := nsId = 0 || t.pidNsId = nsId

/-- signal 0 only asks whether there is a target -/
def probe (nsId : ℕ) (pid : Int32) : Except Errno Unit :=
  if 0 < pid then if (k.task (asU64 pid)).any (inNs nsId) then .ok () else .error .ESRCH
  else if pid < -1 then
    if k.liveTasks.any fun t => inNs nsId t && t.pgid = asU64 (-pid) then .ok () else .error .ESRCH
  else .ok ()

def sysKill (caller : ℕ) (pid sig : Int32) (locked : ℕ → Bool) : Kernel Cpu × Except Errno Unit :=
  if sig < 0 ∨ 64 < sig then (k, .error .EINVAL)
  else
    let nsId := ((k.task caller).map Task.pidNsId).getD 0
    if sig = 0 then (k, k.probe nsId pid)
    else if 0 < pid then
      match k.task (asU64 pid) with
      | none => (k, .error .ESRCH)
      | some t => if inNs nsId t then (k.deliverSignal sig (asU64 pid), .ok ()) else (k, .error .ESRCH)
    else if pid = 0 then
      (k.deliverSignalToPgrp (((k.task caller).map Task.pgid).getD 1) sig locked, .ok ())
    else if pid < -1 then (k.deliverSignalToPgrp (asU64 (-pid)) sig locked, .ok ())
    else (k.deliverAll sig (k.liveTasks.filter (inBroadcast caller nsId locked)), .ok ())

end Kernel

/-! ## Statement -/

/-- what a signal may change -/
def status (t : Task) : UInt64 × TaskState := (t.pendingSignals, t.state)

/-- only tasks of the namespace change -/
def Isolated {Cpu : Type} (nsId : ℕ) (k k' : Kernel Cpu) : Prop :=
  ∀ pid t, k.task pid = some t → (k'.task pid).map status ≠ some (status t) → t.pidNsId = nsId

section

variable (sig : Int32)

/-- the signal is pending already, and the task is not to be woken -/
def Unchanged (t : Task) : Prop := t.pendingSignals ||| sigBit sig = t.pendingSignals ∧ t.state ≠ .blocked

variable {Cpu : Type} (k : Kernel Cpu)

/-- the leaders of these tasks belong to the namespace, unless the signal would not change them -/
def Contained (nsId : ℕ) (sig : Int32) (tasks : List Task) : Prop :=
  ∀ t ∈ tasks, ∀ leader ∈ k.task t.tgid, leader.pidNsId = nsId ∨ Unchanged sig leader

instance (t : Task) : Decidable (Unchanged sig t) := inferInstanceAs (Decidable (_ ∧ _))

instance (nsId : ℕ) (sig : Int32) (tasks : List Task) : Decidable (Contained k nsId sig tasks) :=
  inferInstanceAs (Decidable (∀ t ∈ tasks, ∀ leader ∈ k.task t.tgid, leader.pidNsId = nsId ∨ Unchanged sig leader))

/-- the tasks that a group or everybody stands for -/
def addressed (caller : ℕ) (self : Task) (pid sig : Int32) (locked : ℕ → Bool) : List Task :=
  if validSig sig = false ∨ 0 < pid then []
  else if pid = -1 then k.liveTasks.filter (inBroadcast caller self.pidNsId locked)
  else
    let pgid := if pid = 0 then self.pgid else asU64 (-pid)
    if pgid = 0 then [] else k.liveTasks.filter (inPgrp pgid sig locked)

/-! ## What a signal changes -/

variable (s : UInt64 × TaskState)

/-- a task with the signal pending, and woken -/
def bump : UInt64 × TaskState :=
  (s.1 ||| sigBit sig, if s.2 = .blocked then .ready else s.2)

theorem bump_bump : bump sig (bump sig s) = bump sig s := by
  obtain ⟨pending, state⟩ := s
  rw [bump, bump]
  refine Prod.ext ?_ ?_
  · rw [UInt64.or_assoc, UInt64.or_self]
  · cases state <;> rfl

theorem unchanged_iff (t : Task) : Unchanged sig t ↔ bump sig (status t) = status t := by
  rw [Unchanged, bump, status, Prod.mk.injEq]
  refine and_congr_right fun _ => ?_
  by_cases hb : t.state = .blocked
  · rw [if_pos hb, hb]
    exact iff_of_false (fun h => h rfl) nofun
  · rw [if_neg hb]
    exact iff_of_true hb rfl

end

section Deliver

variable {Cpu : Type} {k k' : Kernel Cpu} {sig : Int32} {nsId : ℕ}

theorem status_setTask (pid other : ℕ) (f : Task → Task) : ((k.setTask pid f).task other).map status =
    if other = pid then (k.task other).map fun t => status (f t) else (k.task other).map status := by
  rw [task_setTask]
  split_ifs
  · rw [Option.map_map]
    rfl
  · rfl

theorem status_wakeTask (pid other : ℕ) : ((k.wakeTask pid).1.task other).map status =
    if other = pid then (k.task other).map fun t => (t.pendingSignals, if t.state = .blocked then .ready else t.state)
    else (k.task other).map status := by
  rw [wakeTask]
  by_cases hpid : other = pid
  · subst hpid
    rw [if_pos rfl]
    cases ht : k.task other with
    | none =>
      rw [ht]
      rfl
    | some t =>
      dsimp only
      split_ifs with hb hr
      · rw [status_setTask, if_pos rfl, task_enqueueOnce, ht]
        simp [status, hb]
      · rw [status_setTask, if_pos rfl, task_enqueueOnce, ht]
        simp [status, hr.1]
      · rw [ht]
        simp [status, hb]
  · rw [if_neg hpid]
    cases k.task pid with
    | none => rfl
    | some t =>
      dsimp only
      split_ifs
      · rw [status_setTask, if_neg hpid, task_enqueueOnce]
      · rw [status_setTask, if_neg hpid, task_enqueueOnce]
      · rfl

theorem status_deliverSignal (hsig : validSig sig = true) (pid other : ℕ) :
    ((k.deliverSignal sig pid).task other).map status =
      if other = pid then ((k.task other).map status).map (bump sig) else (k.task other).map status := by
  rw [deliverSignal, if_neg (by rw [hsig]; decide)]
  cases ht : k.task pid with
  | none =>
    split_ifs with hpid
    · rw [hpid, ht]
      rfl
    · rfl
  | some t =>
    rw [status_wakeTask]
    split_ifs with hpid
    · rw [task_setTask, if_pos hpid, Option.map_map, Option.map_map]
      rfl
    · rw [task_setTask, if_neg hpid]

theorem status_deliver (hsig : validSig sig = true) (pids : List ℕ) (other : ℕ) :
    ∀ k : Kernel Cpu, ((pids.foldl (deliverSignal sig) k).task other).map status =
      if other ∈ pids then ((k.task other).map status).map (bump sig) else (k.task other).map status := by
  induction pids with
  | nil => exact fun k => (if_neg not_mem_nil).symm
  | cons pid rest ih =>
    intro k
    rw [foldl_cons, ih, status_deliverSignal hsig]
    by_cases hpid : other = pid
    · subst hpid
      by_cases hrest : other ∈ rest
      · simp [hrest, bump_bump, Function.comp_def]
      · simp [hrest]
    · simp [hpid]

theorem mem_tgids_aux (tasks : List Task) (pid : ℕ) : ∀ seen : List ℕ,
    pid ∈ tasks.foldl (fun seen t => if t.tgid ∈ seen then seen else seen ++ [t.tgid]) seen ↔
      pid ∈ seen ∨ ∃ t ∈ tasks, t.tgid = pid := by
  induction tasks with
  | nil => simp
  | cons t rest ih =>
    intro seen
    rw [foldl_cons, ih]
    split_ifs with hseen
    · constructor
      · rintro (h | ⟨u, hu, rfl⟩)
        · exact Or.inl h
        · exact Or.inr ⟨u, mem_cons_of_mem _ hu, rfl⟩
      · rintro (h | ⟨u, hu, rfl⟩)
        · exact Or.inl h
        · rcases mem_cons.1 hu with rfl | hu'
          · exact Or.inl hseen
          · exact Or.inr ⟨u, hu', rfl⟩
    · simp only [mem_append, mem_cons, not_mem_nil, or_false, exists_eq_or_imp]
      rw [or_assoc, eq_comm]

theorem mem_tgids {tasks : List Task} {pid : ℕ} : pid ∈ tgids tasks ↔ ∃ t ∈ tasks, t.tgid = pid := by
  rw [tgids, mem_tgids_aux]
  simp

theorem isolated_refl (k : Kernel Cpu) : Isolated nsId k k := by
  intro pid t ht h
  rw [ht] at h
  exact absurd rfl h

/-- signals to the leaders of these tasks stay within the namespace exactly if the tasks are contained in it -/
theorem isolated_deliverAll_iff (hsig : validSig sig = true) {tasks : List Task} :
    Isolated nsId k (k.deliverAll sig tasks) ↔ Contained k nsId sig tasks := by
  have hstatus : ∀ pid t, k.task pid = some t → ((k.deliverAll sig tasks).task pid).map status =
      if pid ∈ tgids tasks then some (bump sig (status t)) else some (status t) := by
    intro pid t ht
    rw [deliverAll, status_deliver hsig, ht]
    rfl
  constructor
  · intro h t ht leader hleader
    by_cases hsame : bump sig (status leader) = status leader
    · exact Or.inr ((unchanged_iff sig leader).2 hsame)
    · refine Or.inl (h t.tgid leader hleader ?_)
      rw [hstatus _ _ hleader, if_pos (mem_tgids.2 ⟨t, ht, rfl⟩)]
      exact fun heq => hsame (Option.some.inj heq)
  · intro h pid t ht hchanged
    rw [hstatus pid t ht] at hchanged
    split_ifs at hchanged with hmem
    · obtain ⟨u, hu, rfl⟩ := mem_tgids.1 hmem
      rcases h u hu t ht with hns | hsame
      · exact hns
      · rw [(unchanged_iff sig t).1 hsame] at hchanged
        exact absurd rfl hchanged
    · exact absurd rfl hchanged

/-- the forms of `kill` other than that for one process -/
theorem isolated_pgrp_iff (hsig : validSig sig = true) (pgid : ℕ) (locked : ℕ → Bool) :
    Isolated nsId k (k.deliverSignalToPgrp pgid sig locked) ↔
      Contained k nsId sig (if pgid = 0 then [] else k.liveTasks.filter (inPgrp pgid sig locked)) := by
  rw [deliverSignalToPgrp]
  by_cases hpgid : pgid = 0
  · rw [if_pos (Or.inr hpgid), if_pos hpgid]
    exact iff_of_true (isolated_refl k) fun t ht => absurd ht not_mem_nil
  · rw [if_neg (by rw [hsig, or_iff_right (by decide)]; exact hpgid), if_neg hpgid]
    exact isolated_deliverAll_iff hsig

theorem isolated_deliverSignal {pid : ℕ} {t : Task} (ht : k.task pid = some t) (hns : t.pidNsId = nsId) :
    Isolated nsId k (k.deliverSignal sig pid) := by
  intro other u hu hchanged
  by_cases hsig : validSig sig = true
  · rw [status_deliverSignal hsig] at hchanged
    split_ifs at hchanged with hpid
    · rw [hpid, ht] at hu
      cases hu
      exact hns
    · rw [hu] at hchanged
      exact absurd rfl hchanged
  · rw [deliverSignal, if_pos (Bool.eq_false_iff.2 hsig), hu] at hchanged
    exact absurd rfl hchanged

end Deliver

theorem validSig_iff (sig : Int32) : validSig sig = true ↔ ¬(sig < 0 ∨ 64 < sig) ∧ sig ≠ 0 := by
  rw [validSig, decide_eq_true_eq, Int32.le_iff_toInt_le, Int32.le_iff_toInt_le, Int32.lt_iff_toInt_lt,
    Int32.lt_iff_toInt_lt, Ne, ← Int32.toInt_inj]
  have h0 : (0 : Int32).toInt = 0 := rfl
  have h1 : (1 : Int32).toInt = 1 := rfl
  omega

/-- the last form of `kill` is that for everybody -/
theorem eq_neg_one_iff {pid : Int32} (hpos : ¬0 < pid) (hzero : pid ≠ 0) : pid = -1 ↔ ¬pid < -1 := by
  rw [Ne, ← Int32.toInt_inj] at hzero
  rw [Int32.lt_iff_toInt_lt] at *
  rw [← Int32.toInt_inj]
  have h0 : (0 : Int32).toInt = 0 := rfl
  have h1 : (-1 : Int32).toInt = -1 := rfl
  omega

/-- **Signals stay in the namespace.** A `kill` by a task outside of the initial namespace, in any of its forms, changes
tasks of its own namespace only, exactly if the processes that it addresses as a group or as everybody belong there, or
would not be changed. -/
theorem kill_isolated_iff {Cpu : Type} (k : Kernel Cpu) (caller : ℕ) {self : Task} (hself : k.task caller = some self)
    (hns : self.pidNsId ≠ 0) (pid sig : Int32) (locked : ℕ → Bool) :
    Isolated self.pidNsId k (k.sysKill caller pid sig locked).1 ↔
      Contained k self.pidNsId sig (addressed k caller self pid sig locked) := by
  have hempty : Contained k self.pidNsId sig [] := fun t ht => absurd ht not_mem_nil
  rw [sysKill, addressed, hself]
  by_cases hsig : validSig sig = true
  · obtain ⟨hrange, hzero⟩ := (validSig_iff sig).1 hsig
    rw [if_neg hrange]
    rw [if_neg hzero, Option.map_some, Option.getD_some]
    by_cases hpos : 0 < pid
    · -- one process, in the namespace of the caller
      rw [if_pos hpos, if_pos (Or.inr hpos)]
      refine iff_of_true ?_ hempty
      cases ht : k.task (asU64 pid) with
      | none => exact isolated_refl k
      | some t =>
        dsimp only
        split_ifs with hin
        · refine isolated_deliverSignal ht ?_
          rw [inNs, Bool.or_eq_true, decide_eq_true_eq, decide_eq_true_eq] at hin
          exact hin.resolve_left hns
        · exact isolated_refl k
    · have hform : ¬(validSig sig = false ∨ 0 < pid) := by
        rw [hsig]
        exact not_or.2 ⟨by decide, hpos⟩
      rw [if_neg hpos, if_neg hform]
      by_cases hgroup : pid = 0
      · have hall : ¬pid = -1 := by
          rw [hgroup]
          decide
        rw [if_neg hall, if_pos hgroup, if_pos hgroup]
        exact isolated_pgrp_iff hsig self.pgid locked
      · rw [if_neg hgroup]
        by_cases hall : pid = -1
        · rw [if_pos hall, if_neg ((eq_neg_one_iff hpos hgroup).1 hall)]
          exact isolated_deliverAll_iff hsig
        · rw [if_neg hall, if_pos (not_not.1 (mt (eq_neg_one_iff hpos hgroup).2 hall)), if_neg hgroup]
          exact isolated_pgrp_iff hsig (asU64 (-pid)) locked
  · rw [if_pos (Or.inl (Bool.eq_false_iff.2 hsig))]
    refine iff_of_true ?_ hempty
    split_ifs with hrange hzero
    · exact isolated_refl k
    · exact isolated_refl k
    all_goals exact absurd ((validSig_iff sig).2 ⟨hrange, hzero⟩) hsig

/-- two processes in namespace 5, of one group, and a process of the initial namespace -/
def threeTasks (hostPgid : ℕ) : Kernel (Fin 1) :=
  { new 1 with
    tasks := [none, none, some { Task.new 2 with pgid := 2, pidNsId := 5, kernelSpace := false },
      some { Task.new 3 with pgid := 2, pidNsId := 5, kernelSpace := false },
      some { Task.new 4 with pgid := hostPgid, kernelSpace := false }] }

theorem kill_isolated_threeTasks : Isolated 5 (threeTasks 4) ((threeTasks 4).sysKill 2 0 15 fun _ => false).1 ∧
    (((threeTasks 4).sysKill 2 0 15 fun _ => false).1.task 3).map status = some (sigBit 15, .ready) :=
  ⟨(kill_isolated_iff (threeTasks 4) 2 rfl (by decide) 0 15 fun _ => false).2 (by decide +kernel), by decide +kernel⟩

/-- a process of the initial namespace is in the group of the caller, which sends it the signal in both forms -/
theorem group_spans_namespaces : ¬Isolated 5 (threeTasks 2) ((threeTasks 2).sysKill 2 0 15 fun _ => false).1 ∧
    ¬Isolated 5 (threeTasks 2) ((threeTasks 2).sysKill 2 (-2) 15 fun _ => false).1 := by
  constructor
  · intro h
    exact absurd (h 4 _ rfl (by decide +kernel)) (by decide)
  · intro h
    exact absurd (h 4 _ rfl (by decide +kernel)) (by decide)

end Kontsnor.Process
