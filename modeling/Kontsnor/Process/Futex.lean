/-
Futexes (`syscall/process/futex.rs`): FUTEX_WAIT and FUTEX_WAKE, with their bitset variants, and the places of the kernel that
take waiters out of the queues: the timer tick and the exit of a task.

FUTEX_WAIT reads the word, takes the lock of the queues and reads it again, queues the caller and marks it `Blocked`, and calls
`schedule()`; afterwards it takes its entry out, whoever has woken it. FUTEX_WAKE takes waiters out under the lock of the queues
and wakes them afterwards, under the lock of the scheduler. A waiter can be queued under its process and the virtual address, or
under the physical address, so FUTEX_WAKE looks under all of them.

`Futexes` is the system: the scheduler, the words in memory, the queues, and how far each thread is in its call. Each critical
section is one step, and each access of a user to a word.
-/
import Kontsnor.Errno
import Kontsnor.Process.Scheduler

namespace Kontsnor.Process

structure FutexKey where
  /-- 0 for a futex that is shared between processes, else the thread group -/
  spaceId : ℕ
  uaddr : ℕ
  deriving DecidableEq, Repr

/-- an entry of a queue; no call queues an empty bitset -/
structure FutexWaiter where
  pid : ℕ
  bitset : BitVec 32
  deadline : Option UInt64
  nonzero : bitset ≠ 0
  deriving DecidableEq

namespace Futex

/-! ## Arguments -/

def FUTEX_PRIVATE_FLAG : BitVec 32 := 128
def FUTEX_CLOCK_REALTIME : BitVec 32 := 256

def MATCH_ANY : BitVec 32 := 0xffffffff

/-- the operation without its flags -/
def cmd (op : BitVec 32) : BitVec 32 := op &&& ~~~(FUTEX_PRIVATE_FLAG ||| FUTEX_CLOCK_REALTIME)

/-- what the kernel finds for an address: the thread group of the caller, and the page tables' answer -/
structure Place where
  uaddr : ℕ
  tgid : Option ℕ
  phys : Option ℕ
  deriving DecidableEq, Repr

def getFutexKey (place : Place) (op : BitVec 32) : FutexKey :=
  if op &&& FUTEX_PRIVATE_FLAG ≠ 0 then ⟨place.tgid.getD 0, place.uaddr⟩
  else
    match place.phys with
    | some phys => ⟨0, phys⟩
    | none => ⟨0, place.uaddr⟩

structure Timespec where
  tvSec : Int64
  tvNsec : Int64
  deriving DecidableEq

/-- the pointer argument, read -/
inductive Timeout
  | null | unreadable
  | given (ts : Timespec)
  deriving DecidableEq

structure Clock where
  ticks : UInt64
  bootRealtimeSec : UInt64
  deriving DecidableEq

/-- nanoseconds, in wrapping arithmetic -/
def Timespec.ns (ts : Timespec) : UInt64 := ts.tvSec.toUInt64 * 1000000000 + ts.tvNsec.toUInt64

/-- at least one tick of 10 ms -/
def toTicks (ns : UInt64) : UInt64 := max 1 ((ns + 9999999) / 10000000)

variable (now : Clock)

def relativeDeadline (ts : Timespec) : Except Errno UInt64 :=
  if ts.tvSec = 0 ∧ ts.tvNsec = 0 then .error .ETIMEDOUT else .ok (now.ticks + toTicks ts.ns)

def absoluteDeadline (op : BitVec 32) (ts : Timespec) : Except Errno UInt64 :=
  let isRealtime := op &&& FUTEX_CLOCK_REALTIME ≠ 0 ∨ 1000000000000000000 ≤ ts.ns
  let nowNs := if isRealtime then now.bootRealtimeSec * 1000000000 + now.ticks * 10000000 else now.ticks * 10000000
  if ts.ns ≤ nowNs then .error .ETIMEDOUT else .ok (now.ticks + toTicks (ts.ns - nowNs))

def deadline (op : BitVec 32) : Timeout → Except Errno (Option UInt64)
  | .null => .ok none
  | .unreadable => .error .EFAULT
  | .given ts =>
    if ts.tvSec < 0 ∨ ts.tvNsec < 0 ∨ 1000000000 ≤ ts.tvNsec then .error .EINVAL
    else if cmd op = 0 then (relativeDeadline now ts).map some
    else (absoluteDeadline now op ts).map some

/-- the bitset of a call; `bitsetCmd` is the variant that is given one -/
def bitset (bitsetCmd op val3 : BitVec 32) : Except Errno { b : BitVec 32 // b ≠ 0 } :=
  if cmd op = bitsetCmd then
    if h : val3 = 0 then .error .EINVAL else .ok ⟨val3, h⟩
  else .ok ⟨MATCH_ANY, by decide⟩

/-! ## FUTEX_WAIT -/

structure WaitArgs where
  place : Place
  /-- the word in memory that `uaddr` is mapped to -/
  word : ℕ
  op : BitVec 32
  val : Int32
  timeout : Timeout
  val3 : BitVec 32
  deriving DecidableEq

/-- a wait that has passed its checks -/
structure Wait where
  key : FutexKey
  word : ℕ
  val : Int32
  waiter : FutexWaiter
  deriving DecidableEq

/-- FUTEX_WAIT and FUTEX_WAIT_BITSET, up to the first look at the word -/
def futexWait (pid : ℕ) (now : Clock) (args : WaitArgs) : Except Errno Wait := do
  let bits ← bitset 9 args.op args.val3
  let due ← deadline now args.op args.timeout
  return ⟨getFutexKey args.place args.op, args.word, args.val, ⟨pid, bits.1, due, bits.2⟩⟩

/-! ## FUTEX_WAKE -/

structure WakeArgs where
  place : Place
  op : BitVec 32
  val : Int32
  val3 : BitVec 32
  deriving DecidableEq

def valToWake (val : Int32) : ℕ := if val < 0 then 2147483647 else val.toInt.toNat

def addKey (keys : List FutexKey) (key : FutexKey) : List FutexKey := if key ∈ keys then keys else keys ++ [key]

/-- the keys under which a waiter on the word may be queued -/
def keysToWake (place : Place) (op : BitVec 32) : List FutexKey :=
  let key := getFutexKey place op
  let addPhys keys := place.phys.elim keys fun phys => addKey keys ⟨0, phys⟩
  if key.spaceId ≠ 0 then addKey (addPhys [key]) ⟨0, place.uaddr⟩
  else
    let keys := place.tgid.elim [key] fun tgid => addKey [key] ⟨tgid, place.uaddr⟩
    addKey (addPhys keys) ⟨0, place.uaddr⟩

abbrev Queues := FutexKey → List FutexWaiter

/-- waiters are taken out of a queue as long as there are fewer than `n`; the pids so far, and what is left -/
def takeWaiters (n : ℕ) (bitset : BitVec 32) : List ℕ → List FutexWaiter → List ℕ × List FutexWaiter
  | pids, [] => (pids, [])
  | pids, w :: queue =>
    if pids.length < n then
      if w.bitset &&& bitset ≠ 0 then takeWaiters n bitset (pids ++ [w.pid]) queue
      else
        let r := takeWaiters n bitset pids queue
        (r.1, w :: r.2)
    else (pids, w :: queue)

/-- one queue after the other -/
def drain (n : ℕ) (bitset : BitVec 32) : List FutexKey → List ℕ → Queues → List ℕ × Queues
  | [], pids, queues => (pids, queues)
  | key :: keys, pids, queues =>
    if n ≤ pids.length then (pids, queues)
    else
      let r := takeWaiters n bitset pids (queues key)
      drain n bitset keys r.1 (Function.update queues key r.2)

/-- FUTEX_WAKE and FUTEX_WAKE_BITSET, up to the end of the first critical section -/
def futexWake (args : WakeArgs) (queues : Queues) : Except Errno (List ℕ × Queues) := do
  let bits ← bitset 10 args.op args.val3
  return drain (valToWake args.val) bits.1 (keysToWake args.place args.op) [] queues

/-! ## The other places -/

def overdue (now : UInt64) (w : FutexWaiter) : Bool := w.deadline.any fun due => due ≤ now

/-- `check_futex_timeouts_locked`, over the keys of the map: the pids to be woken, and what is left -/
def checkTimeouts (now : UInt64) : List FutexKey → Queues → List ℕ × Queues
  | [], queues => ([], queues)
  | key :: keys, queues =>
    let r := checkTimeouts now keys (Function.update queues key ((queues key).filter fun w => !overdue now w))
    (((queues key).filter (overdue now)).map FutexWaiter.pid ++ r.1, r.2)

def drainPid (pid : ℕ) (queues : Queues) : Queues := fun key => (queues key).filter fun w => w.pid ≠ pid

end Futex

open Futex Function

/-! ## The system -/

/-- how far a thread is in its call -/
inductive Stage
  /-- in user space, or in another call -/
  | user
  /-- the word has the expected value -/
  | entered (w : Wait)
  /-- queued and marked `Blocked` -/
  | marked (w : Wait)
  /-- in `schedule()`, or back from it -/
  | asleep (w : Wait)
  /-- has stored to the word; FUTEX_WAKE comes next -/
  | stored (word : ℕ)
  /-- has taken these waiters out of the queues, and wakes them next -/
  | drained (pids : List ℕ)
  deriving DecidableEq

structure Futexes (Cpu : Type) where
  kernel : Kernel Cpu
  word : ℕ → Int32
  queues : Queues
  stage : ℕ → Stage

namespace Futexes

variable {Cpu : Type}

def start (kernel : Kernel Cpu) (word : ℕ → Int32) : Futexes Cpu := ⟨kernel, word, fun _ => [], fun _ => .user⟩

def moveTo (s : Futexes Cpu) (pid : ℕ) (stage : Stage) : Futexes Cpu := { s with stage := update s.stage pid stage }

/-- the thread that a CPU runs -/
def running (s : Futexes Cpu) (c : Cpu) : Option (ℕ × Stage) := (s.kernel.currentCpus c).map fun pid => (pid, s.stage pid)

inductive Event (Cpu : Type)
  /-- FUTEX_WAIT: the checks, and the first look at the word -/
  | wait (c : Cpu) (now : Clock) (args : WaitArgs)
  /-- the second look, under the lock of the queues -/
  | enqueue (c : Cpu)
  /-- `schedule()` in FUTEX_WAIT -/
  | block (c : Cpu) (locks : Kernel.Contention)
  /-- after `schedule()` -/
  | dequeue (c : Cpu)
  /-- a store in user space -/
  | store (c : Cpu) (word : ℕ) (val : Int32)
  /-- FUTEX_WAKE: waiters are taken out of the queues -/
  | drain (c : Cpu) (args : WakeArgs)
  /-- and woken -/
  | rouse (c : Cpu)
  /-- `schedule()` in the timer interrupt -/
  | preempt (c : Cpu) (locks : Kernel.Contention)
  /-- a timer tick; `keys` are those of the map -/
  | tick (c : Cpu) (now : UInt64) (keys : List FutexKey) (expired : List ℕ) (locked : ℕ → Bool)
  | exit (pid : ℕ) (exitCode : Int32) (locked : ℕ → Bool) (wakes : Kernel.ExitWakes)
  | other (e : Kernel.Event Cpu)

variable [Fintype Cpu] [DecidableEq Cpu]

def step (s : Futexes Cpu) : Event Cpu → Futexes Cpu
  | .wait c now args =>
    match s.running c with
    | some (pid, .user) =>
      match futexWait pid now args with
      | .ok w => if s.word w.word = w.val then s.moveTo pid (.entered w) else s
      | .error _ => s
    | _ => s
  | .enqueue c =>
    match s.running c with
    | some (pid, .entered w) =>
      if s.word w.word = w.val then
        moveTo { s with
          queues := update s.queues w.key (s.queues w.key ++ [w.waiter])
          kernel := s.kernel.setState pid .blocked } pid (.marked w)
      else s.moveTo pid .user
    | _ => s
  | .block c locks =>
    match s.running c with
    | some (pid, .marked w) => moveTo { s with kernel := (s.kernel.schedule c locks).1 } pid (.asleep w)
    | _ => s
  | .dequeue c =>
    match s.running c with
    | some (pid, .asleep w) =>
      let queue := (s.queues w.key).filter fun other => other.pid ≠ pid
      moveTo { s with queues := update s.queues w.key queue } pid .user
    | _ => s
  | .store c word val =>
    match s.running c with
    | some (pid, .user) => moveTo { s with word := update s.word word val } pid (.stored word)
    | _ => s
  | .drain c args =>
    match s.running c with
    | some (pid, .user) | some (pid, .stored _) =>
      match futexWake args s.queues with
      | .ok (pids, queues) => moveTo { s with queues := queues } pid (.drained pids)
      | .error _ => s.moveTo pid .user
    | _ => s
  | .rouse c =>
    match s.running c with
    | some (pid, .drained pids) => moveTo { s with kernel := s.kernel.wakeAll pids } pid .user
    | _ => s
  | .preempt c locks => { s with kernel := (s.kernel.schedule c locks).1 }
  | .tick c now keys expired locked =>
    let r := checkTimeouts now keys s.queues
    { s with queues := r.2, kernel := s.kernel.tick c (r.1 ++ expired) locked }
  | .exit pid exitCode locked wakes =>
    { s with queues := drainPid pid s.queues, kernel := s.kernel.exitTask pid exitCode locked wakes }
  | .other e => { s with kernel := s.kernel.step e }

end Futexes

end Kontsnor.Process
