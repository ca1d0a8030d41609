/-
The wait queue (`sync/wait_queue.rs`), as a system of waiters and wakers.

A waiter runs `token()`, tests its condition and calls `wait_since(token)`; a waker makes the condition true and calls
`wake_all()`, or `wake_all_locked()` if it holds the `SCHEDULER` lock already. Any number of both run at the same time.
- One event is one access that other threads can see: a load or a store of `sequence` or `waiter_count`, taking or
  dropping the `SCHEDULER` lock, a section under the lock of a task, a section under the `pids` lock.
- `step` is what an event does to the shared state and to the place its thread is at. An event whose thread is somewhere
  else leaves the state as it is.

`wake_all` does not take the lock before it has raised `sequence` and loaded `waiter_count`, so these two events can fall
anywhere between the events of a waiter that holds the lock.

`bumps`, `sampledAt` and `later` are not in the source. They count the raises of `sequence`, at the start of a wait and
now, and record for every waiter whether a wake-up started after it sampled its token. A task leaves `schedule()` once it
is `Ready`. Signals are the argument of `block`, for one that is pending, and the event `interrupt`. Left out: listeners,
and `register` and `remove`, which the callers of `wait_since` do not use.
-/
import Kontsnor.Core.Runs

namespace Kontsnor.Sync

open Function

/-! ## Model -/

inductive TaskState where
  | running
  | ready
  | blocked
deriving DecidableEq, Repr

inductive Thread where
  | waiter (pid : ℕ)
  | waker (id : ℕ)
deriving DecidableEq, Repr

inductive WaiterPc where
  | outside
  /-- `token()` has returned -/
  | sampled (token : UInt64)
  /-- the condition was false, and `wait_since` is called -/
  | calling (token : UInt64)
  /-- `SCHEDULER` is taken -/
  | locked (token : UInt64)
  /-- `sequence` was the token -/
  | checked
  /-- the task is `Blocked`, and not in the queue yet -/
  | blocked
  /-- the task is in the queue, and `SCHEDULER` is still held -/
  | queued
  | released
  /-- the task was not `Blocked` any more, and leaves the queue next -/
  | woken
  /-- in `schedule()` -/
  | asleep
  /-- back from `schedule()`, and leaves the queue next -/
  | resumed
deriving DecidableEq, Repr

/-- where a waker is; `own` says that it held `SCHEDULER` before the call -/
inductive WakerPc where
  | outside (own : Bool)
  /-- `sequence` is raised, and `waiter_count` is loaded next -/
  | bumped (own : Bool)
  /-- there are waiters -/
  | slow (own : Bool)
  /-- in `wake_all_locked` -/
  | holding (own : Bool)
  /-- `sequence` is raised again, and the queue is emptied next -/
  | rebumped (own : Bool)
  /-- the queue is empty, and `waiter_count` is lowered next -/
  | popped (own : Bool) (numPids : ℕ)
  | finishing (own : Bool)
deriving DecidableEq, Repr

structure State where
  sequence : UInt64
  waiterCount : ℕ
  pids : List ℕ
  scheduler : Option Thread
  condition : Bool
  task : ℕ → TaskState
  waiter : ℕ → WaiterPc
  waker : ℕ → WakerPc
  bumps : ℕ
  sampledAt : ℕ → ℕ
  later : ℕ → Bool

def init : State where
  sequence := 0
  waiterCount := 0
  pids := []
  scheduler := none
  condition := false
  task _ := .running
  waiter _ := .outside
  waker _ := .outside false
  bumps := 0
  sampledAt _ := 0
  later _ := false

inductive Event where
  -- a waiter, in the order of the source
  | token (pid : ℕ)
  | test (pid : ℕ)
  | lock (pid : ℕ)
  | check (pid : ℕ)
  | block (pid : ℕ) (signal : Bool)
  | enqueue (pid : ℕ)
  | unlock (pid : ℕ)
  | recheck (pid : ℕ)
  | resume (pid : ℕ)
  | leave (pid : ℕ)
  -- a waker
  | makeTrue (id : ℕ)
  | bump (id : ℕ)
  | loadCount (id : ℕ)
  | acquire (id : ℕ)
  | callLocked (id : ℕ)
  | rebump (id : ℕ)
  | wakeTasks (id : ℕ)
  | lowerCount (id : ℕ)
  | release (id : ℕ)
  -- the code around it
  | takeLock (id : ℕ)
  | dropLock (id : ℕ)
  | clearCondition
  | interrupt (pid : ℕ)
deriving DecidableEq, Repr

namespace State

variable (s : State)

def goto (pid : ℕ) (pc : WaiterPc) : State := { s with waiter := update s.waiter pid pc }

def move (id : ℕ) (pc : WakerPc) : State := { s with waker := update s.waker id pc }

def setTask (pid : ℕ) (t : TaskState) : State := { s with task := update s.task pid t }

def raise : State := { s with sequence := s.sequence + 1, bumps := s.bumps + 1 }

/-- the same as the first access of a wake-up -/
def start : State := { s.raise with later := fun _ => true }

/-- `pids.retain(|x| x != pid)`, and as many waiters less -/
def remove (pid : ℕ) : State :=
  { s with pids := s.pids.filter (· ≠ pid), waiterCount := s.waiterCount - s.pids.count pid }

/-- `wake_task` for every task in the queue, and the queue is empty -/
def wakeTasks : State :=
  { s with
    pids := []
    task := fun pid => if pid ∈ s.pids ∧ s.task pid = .blocked then .ready else s.task pid }

/-- `token`, and the start of the books for this wait -/
def sample (pid : ℕ) : State :=
  { s with
    waiter := update s.waiter pid (.sampled s.sequence)
    sampledAt := update s.sampledAt pid s.bumps
    later := update s.later pid false }

end State

variable (s : State)

/-- the event of a waiter, at the place it is -/
def waiterStep (pid : ℕ) : WaiterPc → Event → State
  | .outside, .token _ => s.sample pid
  | .sampled token, .test _ => if s.condition then s.goto pid .outside else s.goto pid (.calling token)
  | .calling token, .lock _ =>
    if s.scheduler = none then { s.goto pid (.locked token) with scheduler := some (.waiter pid) } else s
  | .locked token, .check _ =>
    if s.sequence = token then s.goto pid .checked else { s.goto pid .outside with scheduler := none }
  | .checked, .block _ signal =>
    if signal then { s.goto pid .outside with scheduler := none } else (s.setTask pid .blocked).goto pid .blocked
  | .blocked, .enqueue _ =>
    { s.goto pid .queued with waiterCount := s.waiterCount + 1, pids := s.pids ++ [pid] }
  | .queued, .unlock _ => { s.goto pid .released with scheduler := none }
  | .released, .recheck _ =>
    if s.task pid = .blocked then s.goto pid .asleep else (s.setTask pid .running).goto pid .woken
  | .asleep, .resume _ => if s.task pid = .ready then (s.setTask pid .running).goto pid .resumed else s
  | .woken, .leave _ => (s.remove pid).goto pid .outside
  | .resumed, .leave _ => (s.remove pid).goto pid .outside
  | _, _ => s

/-- the event of a waker, at the place it is -/
def wakerStep (id : ℕ) : WakerPc → Event → State
  | .outside _, .makeTrue _ => { s with condition := true }
  | .outside own, .bump _ => s.start.move id (.bumped own)
  | .bumped own, .loadCount _ => if s.waiterCount = 0 then s.move id (.outside own) else s.move id (.slow own)
  | .slow true, .acquire _ => s.move id (.holding true)
  | .slow false, .acquire _ =>
    if s.scheduler = none then { s.move id (.holding false) with scheduler := some (.waker id) } else s
  | .outside true, .callLocked _ => s.start.move id (.rebumped true)
  | .holding own, .rebump _ => s.raise.move id (.rebumped own)
  | .rebumped own, .wakeTasks _ => s.wakeTasks.move id (.popped own s.pids.length)
  | .popped own numPids, .lowerCount _ =>
    { s.move id (.finishing own) with waiterCount := s.waiterCount - numPids }
  | .finishing true, .release _ => s.move id (.outside true)
  | .finishing false, .release _ => { s.move id (.outside false) with scheduler := none }
  | .outside false, .takeLock _ =>
    if s.scheduler = none then { s.move id (.outside true) with scheduler := some (.waker id) } else s
  | .outside true, .dropLock _ => { s.move id (.outside false) with scheduler := none }
  | _, _ => s

/-- whose event it is -/
def Event.thread : Event → Option Thread
  | token pid | test pid | lock pid | check pid | block pid _ | enqueue pid | unlock pid | recheck pid | resume pid
  | leave pid => some (.waiter pid)
  | makeTrue id | bump id | loadCount id | acquire id | callLocked id | rebump id | wakeTasks id | lowerCount id
  | release id | takeLock id | dropLock id => some (.waker id)
  | clearCondition | interrupt _ => none

def step (e : Event) : State :=
  match e.thread with
  | some (.waiter pid) => waiterStep s pid (s.waiter pid) e
  | some (.waker id) => wakerStep s id (s.waker id) e
  | none =>
    match e with
    | .interrupt pid => if s.scheduler = none ∧ s.task pid = .blocked then s.setTask pid .ready else s
    | _ => { s with condition := false }

def run (events : List Event) : State := Runs.run step init events

end Kontsnor.Sync
