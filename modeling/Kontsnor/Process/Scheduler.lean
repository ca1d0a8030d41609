/-
The scheduler (`process/scheduler.rs`): the task table, the run queues, and for every CPU the task it runs and the task it
is switching away from.

Each definition is one critical section under the `SCHEDULER` lock.
- `schedule` is the part of `schedule()` up to the context switch, and says whether there is one; `postContextSwitch` is
  what the CPU does behind it, and names the thread that it will take from the table (`reap`).
- Locks of tasks are taken with `try_lock` in places; which tasks are locked by somebody else is an argument.
- What other parts of the kernel find to wake (futex waiters, sleepers and wait queues) is an argument too.

Left out: the context that is switched, the state kept per CPU for system calls, statistics, file descriptors, shared
mappings and the table of thread groups.
-/
import Kontsnor.Core.Slots

namespace Kontsnor.Process

open Function

inductive TaskState
  | ready | running | blocked | zombie
  deriving DecidableEq, Repr

inductive Priority
  | realTime | high | normal | low | idle
  deriving DecidableEq, Repr

/-- from highest to lowest -/
def Priority.all : List Priority := [.realTime, .high, .normal, .low, .idle]

def Priority.demote : Priority → Priority
  | .realTime => .high
  | .high => .normal
  | .normal => .low
  | .low | .idle => .idle

structure Task where
  pid : ℕ
  tgid : ℕ
  pgid : ℕ
  parentPid : ℕ
  state : TaskState
  priority : Priority
  inQueue : Bool
  isIdle : Bool
  cpuTicks : ℕ
  exitCode : Option Int32
  pendingSignals : UInt64
  blockedSignals : UInt64
  pidNsId : ℕ
  isPidNsInit : Bool
  /-- the address space is that of the kernel -/
  kernelSpace : Bool
  deriving DecidableEq, Repr

def asU64 (x : Int32) : ℕ := (x.toInt % 2 ^ 64).toNat

def IDLE : ℕ := 0

def INIT : ℕ := 1

/-- time quantum, in ticks -/
def TIME_QUANTUM : ℕ := 10

/-- ticks between priority boosts -/
def BOOST_INTERVAL : ℕ := 1000

namespace Task

def new (pid : ℕ) : Task where
  pid := pid
  tgid := pid
  pgid := pid
  parentPid := IDLE
  state := .ready
  priority := .normal
  inQueue := false
  isIdle := false
  cpuTicks := 0
  exitCode := none
  pendingSignals := 0
  blockedSignals := 0
  pidNsId := 0
  isPidNsInit := false
  kernelSpace := true

def idle : Task := { Task.new IDLE with priority := .idle, isIdle := true }

/-- a task that is switched away from while it runs is ready to go on -/
def yield (t : Task) : Task := if t.state = .running then { t with state := .ready } else t

end Task

structure Kernel (Cpu : Type) where
  tasks : Slots Task
  queues : Priority → List ℕ
  currentCpus : Cpu → Option ℕ
  idleCpus : Cpu → ℕ
  suspendingTasks : Cpu → Option ℕ
  ticksSinceBoost : ℕ

namespace Kernel

variable {Cpu : Type} (k : Kernel Cpu)

def task (pid : ℕ) : Option Task := k.tasks.get pid

def setTask (pid : ℕ) (f : Task → Task) : Kernel Cpu := { k with tasks := k.tasks.modify pid f }

def setState (pid : ℕ) (state : TaskState) : Kernel Cpu := k.setTask pid fun t => { t with state }

def pushBack (priority : Priority) (pid : ℕ) : Kernel Cpu :=
  { k with queues := update k.queues priority (k.queues priority ++ [pid]) }

/-! ## Start -/

/-- the pid of the idle task of a CPU -/
def idlePid (i : ℕ) : ℕ := 900 + i

/-- the idle task of CPU `i` is made, and is what the CPU runs -/
def addIdle {n : ℕ} (k : Kernel (Fin n)) (i : Fin n) : Kernel (Fin n) :=
  { k with
    tasks := k.tasks.put (idlePid i) { Task.idle with pid := idlePid i }
    idleCpus := update k.idleCpus i (idlePid i)
    currentCpus := update k.currentCpus i (some (idlePid i)) }

/-- `Scheduler::new`, with no task in the table -/
def new (n : ℕ) : Kernel (Fin n) where
  tasks := []
  queues := fun _ => []
  currentCpus := fun _ => none
  idleCpus := fun _ => IDLE
  suspendingTasks := fun _ => none
  ticksSinceBoost := 0

/-- `init`, for any number of CPUs -/
def init (n : ℕ) : Kernel (Fin n) := (List.finRange n).foldl addIdle (new n)

/-- the boot thread of a CPU becomes a task -/
def setBootstrapThread [DecidableEq Cpu] (k : Kernel Cpu) (c : Cpu) (task : Task) : Kernel Cpu :=
  { k with
    tasks := k.tasks.put task.pid { task with state := .running }
    currentCpus := update k.currentCpus c (some task.pid) }

/-! ## Waking, blocking and adding -/

/-- into the queue of its priority, unless it is there -/
def enqueueOnce (priority : Priority) (pid : ℕ) : Kernel Cpu :=
  if pid ∈ k.queues priority then k else k.pushBack priority pid

def wakeTask (pid : ℕ) : Kernel Cpu × Bool :=
  match k.task pid with
  | some t =>
    if t.state = .blocked then
      ((k.enqueueOnce t.priority pid).setTask pid fun t => { t with state := .ready, inQueue := true }, true)
    else if t.state = .ready ∧ t.isIdle = false then
      ((k.enqueueOnce t.priority pid).setTask pid fun t => { t with inQueue := true }, true)
    else (k, false)
  | none => (k, false)

/-- `wake_all_locked` of a wait queue with these tasks in it -/
def wakeAll (pids : List ℕ) : Kernel Cpu := pids.foldl (fun k pid => (k.wakeTask pid).1) k

def blockTask (pid : ℕ) : Kernel Cpu := k.setState pid .blocked

def addTask (task : Task) : Kernel Cpu :=
  Kernel.pushBack { k with tasks := k.tasks.put task.pid { task with inQueue := true } } task.priority task.pid

/-! ## Picking -/

section Pick

variable [Fintype Cpu]

/-- running or being switched away from on some CPU -/
def busy (k : Kernel Cpu) (pid : ℕ) : Bool :=
  decide (∃ c, k.currentCpus c = some pid) || decide (∃ c, k.suspendingTasks c = some pid)

/-- the first task of a queue that can run; what is left of the queue, and the table -/
def scan (busy locked : ℕ → Bool) : List ℕ → Slots Task → Option ℕ × List ℕ × Slots Task
  | [], tasks => (none, [], tasks)
  | pid :: rest, tasks =>
    if busy pid then
      let r := scan busy locked rest tasks
      (r.1, pid :: r.2.1, r.2.2)
    else
      match tasks.get pid with
      | some t =>
        if locked pid then
          let r := scan busy locked rest tasks
          (r.1, pid :: r.2.1, r.2.2)
        else if t.state = .ready then (some pid, rest, tasks.modify pid fun t => { t with inQueue := false })
        else scan busy locked rest (tasks.modify pid fun t => { t with inQueue := false })
      | none => scan busy locked rest tasks

def pickFrom (locked : ℕ → Bool) : List Priority → Kernel Cpu → Option ℕ × Kernel Cpu
  | [], k => (none, k)
  | priority :: rest, k =>
    let r := scan k.busy locked (k.queues priority) k.tasks
    let k' := { k with queues := update k.queues priority r.2.1, tasks := r.2.2 }
    match r.1 with
    | some pid => (some pid, k')
    | none => pickFrom locked rest k'

def pickNext (locked : ℕ → Bool) (k : Kernel Cpu) : Option ℕ × Kernel Cpu := pickFrom locked Priority.all k

end Pick

/-! ## Switching -/

section Switch

variable [DecidableEq Cpu]

/-- the switch from the task of a CPU to another one, up to the switch of contexts -/
def switched (k : Kernel Cpu) (c : Cpu) (currentPid nextPid : ℕ) : Kernel Cpu :=
  let suspending := (k.task currentPid).map fun _ => currentPid
  let k := k.setTask currentPid Task.yield
  let k := k.setState nextPid .running
  { k with
    suspendingTasks := update k.suspendingTasks c suspending
    currentCpus := update k.currentCpus c (some nextPid) }

/-- the switch, if it is one -/
def switchTo (k : Kernel Cpu) (c : Cpu) (currentPid nextPid : ℕ) : Kernel Cpu × Bool :=
  if nextPid = currentPid then (k.setState currentPid .running, false) else (k.switched c currentPid nextPid, true)

/-- which locks of tasks are held by somebody else in the course of `schedule` -/
structure Contention where
  /-- that of the current task, at the start -/
  current : Bool
  /-- in `pick_next` -/
  picked : ℕ → Bool
  /-- that of the next task, once it is picked -/
  next : Bool

variable [Fintype Cpu] (k : Kernel Cpu)

def schedule (c : Cpu) (locks : Contention) : Kernel Cpu × Bool :=
  match k.currentCpus c with
  | none => (k, false)
  | some currentPid =>
    if (k.task currentPid).isSome ∧ locks.current = true then (k, false)
    else
      match k.pickNext locks.picked with
      | (some pid, k) =>
        match k.task pid with
        | none => (k, false)
        | some next => if locks.next then (k.pushBack next.priority pid, false) else k.switchTo c currentPid pid
      | (none, k) =>
        -- no other task is ready: the current one goes on, or the idle task of the CPU takes over
        if (k.task currentPid).any fun t => t.state = .running ∨ t.state = .ready then
          let k := k.setState currentPid .running
          ({ k with suspendingTasks := update k.suspendingTasks c none }, false)
        else if (k.task (k.idleCpus c)).isSome then k.switchTo c currentPid (k.idleCpus c)
        else (k, false)

/-- the task that was switched away from goes into its queue, or it is a dead thread to be taken from the table -/
def postContextSwitch (c : Cpu) : Kernel Cpu × Option ℕ :=
  match k.suspendingTasks c with
  | none => (k, none)
  | some pid =>
    let k := { k with suspendingTasks := update k.suspendingTasks c none }
    match k.task pid with
    | none => (k, none)
    | some t =>
      if t.state = .ready then
        if t.isIdle = false ∧ t.inQueue = false then
          ((k.pushBack t.priority pid).setTask pid fun t => { t with inQueue := true }, none)
        else (k, none)
      else (k, if t.state = .zombie ∧ t.tgid ≠ pid then some pid else none)

def reap (pid : ℕ) : Kernel Cpu := { k with tasks := k.tasks.clear pid }

end Switch

/-! ## Ticks -/

section

variable (locked : ℕ → Bool)

/-- one task of a queue that is being boosted -/
def boostOne (priority : Priority) (k : Kernel Cpu) (pid : ℕ) : Kernel Cpu :=
  match k.task pid with
  | some t =>
    if locked pid = false ∧ t.isIdle = false ∧ t.state = .ready then
      (k.pushBack .high pid).setTask pid fun t => { t with priority := .high, inQueue := true }
    else k.pushBack priority pid
  | none => k.pushBack priority pid

def boostQueue (k : Kernel Cpu) (priority : Priority) : Kernel Cpu :=
  (k.queues priority).foldl (boostOne locked priority) { k with queues := update k.queues priority [] }

def boostPriorities (k : Kernel Cpu) : Kernel Cpu :=
  [Priority.normal, Priority.low].foldl (boostQueue locked) k

end

def countTick (t : Task) : Task :=
  let t := { t with cpuTicks := t.cpuTicks + 1 }
  if t.cpuTicks % TIME_QUANTUM = 0 ∧ t.isIdle = false then { t with priority := t.priority.demote } else t

/-- a tick on a CPU at which the waits of `expired` end -/
def tick (k : Kernel Cpu) (c : Cpu) (expired : List ℕ) (locked : ℕ → Bool) : Kernel Cpu :=
  let k := { k with ticksSinceBoost := k.ticksSinceBoost + 1 }
  let k := k.wakeAll expired
  let k := if BOOST_INTERVAL ≤ k.ticksSinceBoost then { k.boostPriorities locked with ticksSinceBoost := 0 } else k
  match k.currentCpus c with
  | some pid => if locked pid then k else k.setTask pid countTick
  | none => k

/-! ## Exit -/

/-- the tasks in the wait queues that an exit wakes -/
structure ExitWakes where
  vfork : List ℕ
  init : List ℕ
  parent : List ℕ

def SIGCHLD_BIT : UInt64 := (1 : UInt64) <<< 16

def signalParent (k : Kernel Cpu) (parent : ℕ) (waiters : List ℕ) : Kernel Cpu :=
  let k := (k.wakeTask parent).1
  match k.task parent with
  | none => k
  | some t =>
    let k := k.setTask parent fun t => { t with pendingSignals := t.pendingSignals ||| SIGCHLD_BIT }
    let k :=
      if t.state = .blocked then
        let k := k.setState parent .ready
        if t.inQueue = false then (k.pushBack t.priority parent).setTask parent fun t => { t with inQueue := true }
        else k
      else k
    k.wakeAll waiters

/-- a child whose lock can be taken gets a new parent -/
def reparent (pid : ℕ) (locked : ℕ → Bool) (t : Task) : Task :=
  if locked t.pid = false ∧ t.parentPid = pid then { t with parentPid := INIT } else t

def adopts (k : Kernel Cpu) (pid : ℕ) (locked : ℕ → Bool) : Bool :=
  k.tasks.any fun slot => slot.any fun t => !locked t.pid && t.parentPid == pid

/-- children of a process leader go to init -/
def adopt (k : Kernel Cpu) (pid : ℕ) (locked : ℕ → Bool) (waiters : List ℕ) : Kernel Cpu :=
  let adopted := k.adopts pid locked
  let k := { k with tasks := k.tasks.mapAll (reparent pid locked) }
  if adopted ∧ (k.task INIT).isSome then ((k.wakeAll waiters).wakeTask INIT).1 else k

def exitTask (k : Kernel Cpu) (pid : ℕ) (exitCode : Int32) (locked : ℕ → Bool) (wakes : ExitWakes) : Kernel Cpu :=
  let exiting := k.task pid
  let k := k.setTask pid fun t => { t with state := .zombie, exitCode := some exitCode }
  let k := k.wakeAll wakes.vfork
  if exiting.any fun t => t.tgid ≠ pid then k
  else
    let k := k.adopt pid locked wakes.init
    match exiting with
    | some t => k.signalParent t.parentPid wakes.parent
    | none => k

/-! ## Steps -/

/-- one critical section -/
inductive Event (Cpu : Type)
  | schedule (c : Cpu) (locks : Contention)
  | postContextSwitch (c : Cpu)
  /-- a slot of the table is emptied -/
  | reap (pid : ℕ)
  | tick (c : Cpu) (expired : List ℕ) (locked : ℕ → Bool)
  | wakeTask (pid : ℕ)
  | blockTask (pid : ℕ)
  | addTask (task : Task)
  | exitTask (pid : ℕ) (exitCode : Int32) (locked : ℕ → Bool) (wakes : ExitWakes)

def step [Fintype Cpu] [DecidableEq Cpu] (k : Kernel Cpu) : Event Cpu → Kernel Cpu
  | .schedule c locks => (k.schedule c locks).1
  | .postContextSwitch c => (k.postContextSwitch c).1
  | .reap pid => k.reap pid
  | .tick c expired locked => k.tick c expired locked
  | .wakeTask pid => (k.wakeTask pid).1
  | .blockTask pid => k.blockTask pid
  | .addTask task => k.addTask task
  | .exitTask pid exitCode locked wakes => k.exitTask pid exitCode locked wakes

end Kernel

end Kontsnor.Process
