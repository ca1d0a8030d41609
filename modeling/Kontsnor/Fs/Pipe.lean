/-
Pipes (`fs/pipe.rs`): the ring buffer, and any number of calls that read, write and close at the same time.

A read empties the buffer as far as it can in one critical section, or finds it empty and looks at the number of writers while it
still holds the lock. A write goes through a critical section for each part that fits. A `PipeReader` or `PipeWriter` is dropped,
and its counter lowered, when no descriptor has it any more and no call on it is under way: a call has a reference of its own.

`Pipe` is the system. Each critical section is one step, and so is each access to a counter; the lock is held over a step only by a
read that has found the buffer empty. A sleeper may wake up at any time. There are no signals.

**Main results.** `pipe_stream` and, on writes that stand together, `small_writes_together`.
-/
import Kontsnor.Errno
import Kontsnor.Core.Ring
import Kontsnor.Core.Runs

namespace Kontsnor.Fs

open List Kontsnor.Ring Runs Bool Nat

def PIPE_BUF_SIZE : ℕ := 65536

/-! ## The buffer -/

/-- a circular queue of bytes -/
structure PipeBuffer where
  data : List UInt8
  readPos : ℕ
  writePos : ℕ
  len : ℕ
  size : data.length = PIPE_BUF_SIZE
  readPos_lt : readPos < PIPE_BUF_SIZE
  writePos_eq : writePos = place PIPE_BUF_SIZE readPos len
  len_le : len ≤ PIPE_BUF_SIZE

theorem and_mask {a k : ℕ} (ha : a < PIPE_BUF_SIZE) (hk : k ≤ PIPE_BUF_SIZE) :
    (a + k) &&& (PIPE_BUF_SIZE - 1) = place PIPE_BUF_SIZE a k := by
  have hmod : (a + k) &&& (2 ^ 16 - 1) = (a + k) % 2 ^ 16 := and_two_pow_sub_one_eq_mod _ _
  unfold PIPE_BUF_SIZE at *
  unfold place
  change (a + k) &&& (2 ^ 16 - 1) = _
  split_ifs <;> omega

theorem place_place {r n k : ℕ} (hr : r < PIPE_BUF_SIZE) (hk : n + k ≤ PIPE_BUF_SIZE) :
    place PIPE_BUF_SIZE (place PIPE_BUF_SIZE r n) k = place PIPE_BUF_SIZE r (n + k) := by
  unfold place
  split_ifs <;> omega

namespace PipeBuffer

def new : PipeBuffer where
  data := replicate PIPE_BUF_SIZE 0
  readPos := 0
  writePos := 0
  len := 0
  size := length_replicate
  readPos_lt := by decide
  writePos_eq := by decide
  len_le := zero_le _

variable (b : PipeBuffer)

def isFull : Bool := b.len = PIPE_BUF_SIZE

def isEmpty : Bool := b.len = 0

/-- the array after the copies of `push_slice` -/
def pushData (src : List UInt8) (toWrite : ℕ) : List UInt8 :=
  let firstChunk := min toWrite (PIPE_BUF_SIZE - b.writePos)
  let data := splice b.data b.writePos (src.take firstChunk)
  let secondChunk := toWrite - firstChunk
  if 0 < secondChunk then splice data 0 ((src.drop firstChunk).take secondChunk) else data

theorem writePos_lt : b.writePos < PIPE_BUF_SIZE := by
  rw [b.writePos_eq]
  exact place_lt b.readPos_lt b.len_le

theorem pushData_eq {src : List UInt8} {toWrite : ℕ} (h : toWrite ≤ src.length) :
    b.pushData src toWrite = write b.data b.writePos (src.take toWrite) := by
  have hlen : (src.take toWrite).length = toWrite := by
    rw [length_take]
    omega
  unfold pushData write
  dsimp only
  rw [hlen, b.size, take_take, min_eq_left (min_le_left _ _), drop_take]
  split_ifs with hsecond
  · rfl
  · rw [Nat.eq_zero_of_not_pos hsecond, take_zero]
    unfold splice
    rw [take_zero, nil_append, nil_append, length_nil, drop_zero]

/-- how much is pushed, and the buffer then -/
def pushSlice (src : List UInt8) : ℕ × PipeBuffer :=
  let available := PIPE_BUF_SIZE - b.len
  if available = 0 || src.isEmpty then (0, b)
  else
    let toWrite := min src.length available
    (toWrite,
      { data := b.pushData src toWrite
        readPos := b.readPos
        writePos := (b.writePos + toWrite) &&& (PIPE_BUF_SIZE - 1)
        len := b.len + toWrite
        size := by
          have hle := b.len_le
          rw [pushData_eq b (min_le_left _ _), length_write (by rw [b.size]; exact b.writePos_lt), b.size]
          rw [length_take, b.size]
          omega
        readPos_lt := b.readPos_lt
        writePos_eq := by
          have hle := b.len_le
          rw [and_mask b.writePos_lt (by omega), b.writePos_eq, place_place b.readPos_lt (by omega)]
        len_le := by
          have hle := b.len_le
          omega })

def popSlice (n : ℕ) : List UInt8 × PipeBuffer :=
  if b.len = 0 || n = 0 then ([], b)
  else
    let toRead := min n b.len
    let firstChunk := min toRead (PIPE_BUF_SIZE - b.readPos)
    let secondChunk := toRead - firstChunk
    ((b.data.drop b.readPos).take firstChunk ++ b.data.take secondChunk,
      { b with
        readPos := (b.readPos + toRead) &&& (PIPE_BUF_SIZE - 1)
        len := b.len - toRead
        readPos_lt := by
          have hle := b.len_le
          rw [and_mask b.readPos_lt (by omega)]
          exact place_lt b.readPos_lt (by omega)
        writePos_eq := by
          have hle := b.len_le
          rw [and_mask b.readPos_lt (by omega), place_place b.readPos_lt (by omega), b.writePos_eq]
          congr 1
          omega
        len_le := by
          have hle := b.len_le
          omega })

/-- the bytes in the buffer, in their order -/
def contents (b : PipeBuffer) : List UInt8 := Ring.contents b.data b.readPos b.len

section

variable (b : PipeBuffer)

theorem length_contents : b.contents.length = b.len := by
  have hle := b.len_le
  rw [← b.size] at hle
  exact Ring.length_contents hle _

variable (src : List UInt8)

theorem pushSlice_contents : (b.pushSlice src).2.contents = b.contents ++ src.take (b.pushSlice src).1 := by
  have hle := b.len_le
  unfold pushSlice
  dsimp only
  split_ifs with hnone
  · rw [take_zero, append_nil]
  · have hlen : (src.take (min src.length (PIPE_BUF_SIZE - b.len))).length = min src.length (PIPE_BUF_SIZE - b.len) := by
      rw [length_take]
      omega
    unfold contents
    dsimp only
    have hread : b.readPos < b.data.length := by
      rw [b.size]
      exact b.readPos_lt
    have hroom : b.len + (src.take (min src.length (PIPE_BUF_SIZE - b.len))).length ≤ b.data.length := by
      rw [hlen, b.size]
      omega
    have hwrite := contents_write hread hroom
    rw [hlen, b.size, ← b.writePos_eq] at hwrite
    rw [pushData_eq b (min_le_left _ _)]
    exact hwrite

theorem pushSlice_fst : (b.pushSlice src).1 = min src.length (PIPE_BUF_SIZE - b.len) := by
  unfold pushSlice
  dsimp only
  split_ifs with hnone
  · rw [or_eq_true, decide_eq_true_eq, isEmpty_iff_length_eq_zero] at hnone
    omega
  · rfl

theorem pushSlice_le : (b.pushSlice src).1 ≤ src.length := by
  rw [pushSlice_fst]
  exact min_le_left _ _

theorem popSlice_contents (n : ℕ) :
    (b.popSlice n).1 = b.contents.take n ∧ (b.popSlice n).2.contents = b.contents.drop n := by
  have hle := b.len_le
  have hread : b.readPos < b.data.length := by
    rw [b.size]
    exact b.readPos_lt
  unfold popSlice
  split_ifs with hnone
  · rw [or_eq_true, decide_eq_true_eq, decide_eq_true_eq] at hnone
    rcases hnone with h0 | h0
    · have hnil : b.contents = [] := eq_nil_of_length_eq_zero (by rw [length_contents, h0])
      rw [hnil, take_nil, drop_nil]
      exact ⟨rfl, rfl⟩
    · rw [h0, take_zero, drop_zero]
      exact ⟨rfl, rfl⟩
  · have htake : b.contents.take n = b.contents.take (min n b.len) := by
      rw [← length_contents, ← take_eq_take_min]
    have hdrop : b.contents.drop n = b.contents.drop (min n b.len) := by
      rcases le_total n b.len with h | h
      · rw [min_eq_left h]
      · rw [min_eq_right h, drop_eq_nil_of_le (by rw [length_contents]; exact h),
          drop_eq_nil_of_le (by rw [length_contents])]
    have hr := Ring.read_eq hread (min_le_right n b.len) (by rw [b.size]; exact hle)
    have hc := Ring.contents_read hread (min_le_right n b.len) (by rw [b.size]; exact hle)
    rw [b.size] at hc
    unfold Ring.read at hr
    rw [b.size] at hr
    refine ⟨?_, ?_⟩
    · rw [htake]
      exact hr
    · rw [hdrop]
      unfold contents
      dsimp only
      rw [and_mask b.readPos_lt (by omega)]
      exact hc

end

end PipeBuffer

/-! ## Calls -/

inductive ReadPc
  | start
  /-- the buffer was empty, and the lock is held -/
  | empty
  /-- the lock is released: there is a writer -/
  | open
  | waiting
  | done (r : Except Errno (List UInt8))

inductive WritePc
  | start
  /-- there is a reader -/
  | push
  /-- nothing could be pushed -/
  | full
  | waiting
  | done (r : Except Errno ℕ)

inductive PipeCall
  /-- a read into a buffer of `n` bytes -/
  | read (n : ℕ) (pc : ReadPc)
  | write (data : List UInt8) (written : ℕ) (pc : WritePc)

def PipeCall.writing : PipeCall → Bool
  | .write _ _ (.done _) => false
  | .write _ _ _ => true
  | .read _ _ => false

def PipeCall.reading : PipeCall → Bool
  | .read _ (.done _) => false
  | .read _ _ => true
  | .write _ _ _ => false

structure Pipe where
  buffer : PipeBuffer
  /-- the read that holds the lock between two steps -/
  lock : Option ℕ
  readers : ℕ
  writers : ℕ
  /-- descriptors of the reading end -/
  readHandles : ℕ
  writeHandles : ℕ
  /-- the calls, those that have returned too; a call is named by its place -/
  calls : List PipeCall
  /-- the bytes pushed so far, each with its call -/
  pushed : List (ℕ × UInt8)
  /-- the bytes returned so far -/
  popped : List UInt8

inductive PipeEvent
  /-- a descriptor is duplicated, or inherited -/
  | cloneReader | cloneWriter
  | closeReader | closeWriter
  /-- `Drop` of the reading end, and of the writing end -/
  | dropReader | dropWriter
  | beginRead (n : ℕ)
  | beginWrite (data : List UInt8)
  /-- the next step of a call; `nonBlocking` is what it finds if it looks -/
  | advance (call : ℕ) (nonBlocking : Bool)

namespace Pipe

def new : Pipe := ⟨.new, none, 1, 1, 1, 1, [], [], []⟩

variable (s : Pipe)

section

variable (i : ℕ)

def setCall (c : PipeCall) : Pipe := { s with calls := s.calls.set i c }

def advanceRead (i n : ℕ) (nonBlocking : Bool) : ReadPc → Pipe
  | .start =>
    if s.lock.isSome then s
    else if !s.buffer.isEmpty then
      let (bytes, buffer) := s.buffer.popSlice n
      { s.setCall i (.read n (.done (.ok bytes))) with buffer, popped := s.popped ++ bytes }
    else { s.setCall i (.read n .empty) with lock := some i }
  | .empty =>
    { s.setCall i (.read n (if s.writers = 0 then .done (.ok []) else .open)) with lock := none }
  | .open => s.setCall i (.read n (if nonBlocking then .done (.error .EAGAIN) else .waiting))
  | .waiting => s.setCall i (.read n .start)
  | .done _ => s

def advanceWrite (data : List UInt8) (written : ℕ) (nonBlocking : Bool) : WritePc → Pipe
  | .start =>
    if written < data.length then
      s.setCall i (.write data written (if s.readers = 0 then .done (.error .EPIPE) else .push))
    else s.setCall i (.write data written (.done (.ok written)))
  | .push =>
    if s.lock.isSome then s
    else if !s.buffer.isFull then
      let (n, buffer) := s.buffer.pushSlice (data.drop written)
      { s.setCall i (.write data (written + n) (if n = 0 then .full else .start)) with
        buffer
        pushed := s.pushed ++ ((data.drop written).take n).map fun b => (i, b) }
    else s.setCall i (.write data written .full)
  | .full =>
    s.setCall i (.write data written
      (if nonBlocking then .done (if 0 < written then .ok written else .error .EAGAIN) else .waiting))
  | .waiting => s.setCall i (.write data written .start)
  | .done _ => s

def advance (nonBlocking : Bool) : Pipe :=
  match s.calls[i]? with
  | none => s
  | some (.read n pc) => s.advanceRead i n nonBlocking pc
  | some (.write data written pc) => s.advanceWrite i data written nonBlocking pc

def step : PipeEvent → Pipe
  | .cloneReader => if 0 < s.readHandles then { s with readHandles := s.readHandles + 1 } else s
  | .cloneWriter => if 0 < s.writeHandles then { s with writeHandles := s.writeHandles + 1 } else s
  | .closeReader => { s with readHandles := s.readHandles - 1 }
  | .closeWriter => { s with writeHandles := s.writeHandles - 1 }
  | .dropReader =>
    if s.readHandles = 0 && s.calls.all (!·.reading) && 0 < s.readers then { s with readers := s.readers - 1 } else s
  | .dropWriter =>
    if s.writeHandles = 0 && s.calls.all (!·.writing) && 0 < s.writers then { s with writers := s.writers - 1 } else s
  | .beginRead n =>
    if 0 < s.readHandles then { s with calls := s.calls ++ [.read n (if n = 0 then .done (.ok []) else .start)] } else s
  | .beginWrite data =>
    if 0 < s.writeHandles then
      { s with calls := s.calls ++ [.write data 0 (if data.isEmpty then .done (.ok 0) else .start)] }
    else s
  | .advance call nonBlocking => s.advance call nonBlocking

/-! ## The invariant -/

/-- the bytes that a call has pushed -/
def pushedBy : List UInt8 := (s.pushed.filter fun e => e.1 == i).map Prod.snd

def stream : List UInt8 := s.pushed.map Prod.snd

/-- the last writer has closed: no descriptor, no call, and the counter is lowered -/
structure Closed : Prop where
  writers : s.writers = 0
  handles : s.writeHandles = 0
  calls : ∀ c ∈ s.calls, c.writing = false

def ReadOk (i n : ℕ) : ReadPc → Prop
  | .start | .open | .waiting => 0 < n
  | .empty => 0 < n ∧ s.lock = some i
  | .done (.ok bytes) => bytes = [] → n = 0 ∨ s.Closed ∧ s.buffer.len = 0
  | .done (.error _) => True

def CallOk : PipeCall → Prop
  | .read n pc => s.pushedBy i = [] ∧ s.ReadOk i n pc
  | .write data written _ => s.pushedBy i = data.take written ∧ written ≤ data.length

end

structure Inv : Prop where
  stream : s.stream = s.popped ++ s.buffer.contents
  calls : ∀ i c, s.calls[i]? = some c → s.CallOk i c
  /-- every byte has its call -/
  known : ∀ e ∈ s.pushed, e.1 < s.calls.length
  /-- the lock is held over an empty buffer -/
  lock : s.lock.isSome = true → s.buffer.len = 0
  closed : s.writers = 0 → s.Closed

variable {s s' : Pipe} {i n : ℕ} {c c' : PipeCall}

theorem inv_new : Inv new := by
  refine ⟨rfl, fun i c h => ?_, fun e he => ?_, fun h => ?_, fun h => ?_⟩
  · cases h
  · cases he
  · cases h
  · cases h

/-- a call does not notice what others do, as long as they leave its bytes, its lock and the end of the stream alone -/
theorem CallOk.frame (h : s.CallOk i c) (hby : s'.pushedBy i = s.pushedBy i) (hlock : s.lock = some i → s'.lock = some i)
    (hend : s.Closed → s.buffer.len = 0 → s'.Closed ∧ s'.buffer.len = 0) : s'.CallOk i c := by
  cases c with
  | write data written pc => exact ⟨hby.trans h.1, h.2⟩
  | read n pc =>
    refine ⟨hby.trans h.1, ?_⟩
    have hpc := h.2
    cases pc with
    | start | «open» | waiting => exact hpc
    | empty => exact ⟨hpc.1, hlock hpc.2⟩
    | done r =>
      cases r with
      | error e => trivial
      | ok bytes =>
        intro hnil
        rcases hpc hnil with h0 | ⟨hclosed, hlen⟩
        · exact .inl h0
        · exact .inr (hend hclosed hlen)

theorem Closed.set (h : s.Closed) (hcalls : s'.calls = s.calls.set i c') (hc : c'.writing = false)
    (hwriters : s'.writers = s.writers) (hhandles : s'.writeHandles = s.writeHandles) : s'.Closed := by
  refine ⟨hwriters.trans h.writers, hhandles.trans h.handles, fun x hx => ?_⟩
  rw [hcalls] at hx
  rcases mem_or_eq_of_mem_set hx with hx | rfl
  · exact h.calls x hx
  · exact hc

theorem Inv.set (h : s.Inv) (hi : s.calls[i]? = some c) (hcalls : s'.calls = s.calls.set i c') (hok : s'.CallOk i c')
    (hby : ∀ j ≠ i, s'.pushedBy j = s.pushedBy j) (hlock : ∀ j ≠ i, s.lock = some j → s'.lock = some j)
    (hend : s.Closed → s'.Closed ∧ (s.buffer.len = 0 → s'.buffer.len = 0)) (hwriters : s'.writers = s.writers)
    (hstream : s'.stream = s'.popped ++ s'.buffer.contents) (hknown : ∀ e ∈ s'.pushed, e ∈ s.pushed ∨ e.1 = i)
    (hlk : s'.lock.isSome = true → s'.buffer.len = 0) : s'.Inv := by
  obtain ⟨hlt, -⟩ := List.getElem?_eq_some_iff.1 hi
  refine ⟨hstream, fun j x hx => ?_, fun e he => ?_, hlk, fun h0 => (hend (h.closed (hwriters.symm.trans h0))).1⟩
  · rw [hcalls, getElem?_set] at hx
    by_cases hji : i = j
    · rw [if_pos hji, if_pos hlt] at hx
      cases hx
      rw [← hji]
      exact hok
    · rw [if_neg hji] at hx
      exact (h.calls j x hx).frame (hby j fun heq => hji heq.symm) (hlock j fun heq => hji heq.symm)
        fun hc hl => ⟨(hend hc).1, (hend hc).2 hl⟩
  · rw [hcalls, length_set]
    rcases hknown e he with he | heq
    · exact h.known e he
    · rw [heq]
      exact hlt

/-- the call alone has changed, and it does not begin to write -/
theorem Inv.setCall (h : s.Inv) (hi : s.calls[i]? = some c) (hok : (s.setCall i c').CallOk i c')
    (hw : s.Closed → c'.writing = false) : (s.setCall i c').Inv :=
  h.set hi rfl hok (fun _ _ => rfl) (fun _ _ hl => hl) (fun hc => ⟨hc.set rfl (hw hc) rfl rfl, id⟩) rfl h.stream
    (fun _ he => .inl he) h.lock

/-! ## Steps -/

theorem pushedBy_append {l : List UInt8} (j : ℕ) (hs : s'.pushed = s.pushed ++ l.map fun b => (i, b)) :
    s'.pushedBy j = if j = i then s.pushedBy j ++ l else s.pushedBy j := by
  unfold pushedBy
  rw [hs, filter_append, map_append]
  by_cases hj : j = i
  · have hall : (l.map fun b => (i, b)).filter (fun e => e.1 == j) = l.map fun b => (i, b) := by
      rw [filter_eq_self]
      intro e he
      obtain ⟨b, -, rfl⟩ := mem_map.1 he
      exact beq_iff_eq.2 hj.symm
    rw [if_pos hj, hall, map_map]
    congr 1
    exact map_id l
  · have hnone : (l.map fun b => (i, b)).filter (fun e => e.1 == j) = [] := by
      rw [filter_eq_nil_iff]
      intro e he
      obtain ⟨b, -, rfl⟩ := mem_map.1 he
      exact fun heq => hj (beq_iff_eq.1 heq).symm
    rw [if_neg hj, hnone, map_nil, append_nil]

section

variable (h : s.Inv)
include h

theorem inv_advanceRead {pc : ReadPc} (hi : s.calls[i]? = some (.read n pc)) (nonBlocking : Bool) :
    (s.advanceRead i n nonBlocking pc).Inv := by
  obtain ⟨hby, hok⟩ := h.calls i _ hi
  cases pc with
  | start =>
    have hn : 0 < n := hok
    unfold advanceRead
    by_cases hlock : s.lock.isSome = true
    · rw [if_pos hlock]
      exact h
    rw [if_neg hlock]
    have hfree : s.lock = none := Option.not_isSome_iff_eq_none.1 hlock
    by_cases hempty : (!s.buffer.isEmpty) = true
    · -- the buffer has bytes, and some are taken
      rw [if_pos hempty]
      have hlen : s.buffer.len ≠ 0 := by simpa [PipeBuffer.isEmpty] using hempty
      obtain ⟨hbytes, hrest⟩ := s.buffer.popSlice_contents n
      generalize s.buffer.popSlice n = p at hbytes hrest
      obtain ⟨bytes, buffer⟩ := p
      dsimp only at hbytes hrest ⊢
      refine h.set hi rfl ⟨hby, fun hnil => ?_⟩ (fun _ _ => rfl) (fun _ _ hl => hl)
        (fun hc => ⟨hc.set rfl rfl rfl rfl, fun h0 => absurd h0 hlen⟩) rfl ?_ (fun _ he => .inl he) ?_
      · -- a byte is taken
        have hl := congrArg length hbytes
        rw [hnil, length_take, PipeBuffer.length_contents, length_nil] at hl
        omega
      · change s.stream = (s.popped ++ bytes) ++ buffer.contents
        rw [h.stream, hbytes, hrest, append_assoc, take_append_drop]
      · intro hl
        exact absurd hl hlock
    · rw [if_neg hempty]
      have hlen : s.buffer.len = 0 := by simpa [PipeBuffer.isEmpty] using hempty
      refine h.set hi rfl ⟨hby, hn, rfl⟩ (fun _ _ => rfl) (fun j _ hl => ?_)
        (fun hc => ⟨hc.set rfl rfl rfl rfl, id⟩) rfl h.stream (fun _ he => .inl he) (fun _ => hlen)
      rw [hfree] at hl
      cases hl
  | empty =>
    obtain ⟨hn, hlock⟩ := hok
    have hlen : s.buffer.len = 0 := h.lock (by rw [hlock]; rfl)
    refine h.set hi rfl ⟨hby, ?_⟩ (fun _ _ => rfl) (fun j hj hl => ?_) (fun hc => ⟨hc.set rfl rfl rfl rfl, id⟩) rfl h.stream
      (fun _ he => .inl he) nofun
    · by_cases h0 : s.writers = 0
      · rw [if_pos h0]
        intro _
        exact .inr ⟨(h.closed h0).set rfl rfl rfl rfl, hlen⟩
      · rw [if_neg h0]
        exact hn
    · rw [hlock] at hl
      exact absurd (Option.some.inj hl).symm hj
  | «open» =>
    refine h.setCall hi ⟨hby, ?_⟩ fun _ => rfl
    cases nonBlocking with
    | true => trivial
    | false => exact hok
  | waiting => exact h.setCall hi ⟨hby, hok⟩ fun _ => rfl
  | done r => exact h

theorem inv_advanceWrite {data : List UInt8} {written : ℕ} {pc : WritePc}
    (hi : s.calls[i]? = some (.write data written pc)) (nonBlocking : Bool) :
    (s.advanceWrite i data written nonBlocking pc).Inv := by
  obtain ⟨hby, hle⟩ := h.calls i _ hi
  -- nobody has closed while the call is under way
  have hopen (hw : (PipeCall.write data written pc).writing = true) (hc : s.Closed) : False := by
    rw [hc.calls _ (mem_of_getElem? hi)] at hw
    cases hw
  cases pc with
  | start =>
    dsimp only [advanceWrite]
    by_cases hleft : written < data.length
    · rw [if_pos hleft]
      exact h.setCall hi ⟨hby, hle⟩ fun hc => (hopen rfl hc).elim
    · rw [if_neg hleft]
      exact h.setCall hi ⟨hby, hle⟩ fun hc => (hopen rfl hc).elim
  | push =>
    unfold advanceWrite
    by_cases hlock : s.lock.isSome = true
    · rw [if_pos hlock]
      exact h
    rw [if_neg hlock]
    by_cases hfull : (!s.buffer.isFull) = true
    · -- a part of the data is pushed
      rw [if_pos hfull]
      have hpush := s.buffer.pushSlice_contents (data.drop written)
      have hk := s.buffer.pushSlice_le (data.drop written)
      generalize s.buffer.pushSlice (data.drop written) = p at hpush hk
      obtain ⟨k, buffer⟩ := p
      rw [length_drop] at hk
      refine h.set hi rfl ⟨?_, by omega⟩ (fun j hj => ?_) (fun _ _ hl => hl) (fun hc => (hopen rfl hc).elim) rfl ?_ ?_ ?_
      · rw [pushedBy_append i rfl, if_pos rfl, hby, take_add]
      · rw [pushedBy_append j rfl, if_neg hj]
      · change (s.pushed ++ _).map Prod.snd = s.popped ++ buffer.contents
        rw [hpush, ← append_assoc, ← h.stream, map_append, map_map]
        congr 1
        exact map_id _
      · intro e he
        rcases mem_append.1 he with he | he
        · exact .inl he
        · obtain ⟨b, -, rfl⟩ := mem_map.1 he
          exact .inr rfl
      · intro hl
        exact absurd hl hlock
    · rw [if_neg hfull]
      exact h.setCall hi ⟨hby, hle⟩ fun hc => (hopen rfl hc).elim
  | full => exact h.setCall hi ⟨hby, hle⟩ fun hc => (hopen rfl hc).elim
  | waiting => exact h.setCall hi ⟨hby, hle⟩ fun hc => (hopen rfl hc).elim
  | done r => exact h

theorem inv_advance (i : ℕ) (nonBlocking : Bool) : (s.advance i nonBlocking).Inv := by
  unfold advance
  cases hi : s.calls[i]? with
  | none => exact h
  | some c =>
    cases c with
    | read n pc => exact inv_advanceRead h hi nonBlocking
    | write data written pc => exact inv_advanceWrite h hi nonBlocking

/-- descriptors and the counter of the readers come and go; the end of the stream stays the end -/
theorem Inv.handles {readers readHandles writeHandles : ℕ} (hend : s.writeHandles = 0 → writeHandles = 0) :
    Inv { s with readers, readHandles, writeHandles } := by
  have hclosed (hc : s.Closed) : Closed { s with readers, readHandles, writeHandles } :=
    ⟨hc.writers, hend hc.handles, hc.calls⟩
  exact ⟨h.stream, fun i c hi => (h.calls i c hi).frame rfl id fun hc hl => ⟨hclosed hc, hl⟩, h.known, h.lock,
    fun h0 => hclosed (h.closed h0)⟩

theorem Inv.begin (hok : ({ s with calls := s.calls ++ [c] } : Pipe).CallOk s.calls.length c)
    (hw : s.Closed → c.writing = false) : Inv { s with calls := s.calls ++ [c] } := by
  have hclosed (hc : s.Closed) : Closed { s with calls := s.calls ++ [c] } := by
    refine ⟨hc.writers, hc.handles, fun x hx => ?_⟩
    rcases mem_append.1 hx with hx | hx
    · exact hc.calls x hx
    · rw [mem_singleton.1 hx]
      exact hw hc
  refine ⟨h.stream, fun i x hx => ?_, fun e he => ?_, h.lock, fun h0 => hclosed (h.closed h0)⟩
  · dsimp only at hx
    by_cases hlt : i < s.calls.length
    · rw [getElem?_append_left hlt] at hx
      exact (h.calls i x hx).frame rfl id fun hc hl => ⟨hclosed hc, hl⟩
    · obtain ⟨hlt', -⟩ := List.getElem?_eq_some_iff.1 hx
      rw [length_append, length_singleton] at hlt'
      have heq : i = s.calls.length := by omega
      rw [heq, getElem?_concat_length] at hx
      cases hx
      rw [heq]
      exact hok
  · have hlt := h.known e he
    change e.1 < (s.calls ++ [c]).length
    rw [length_append]
    omega

theorem Inv.pushedBy_length : s.pushedBy s.calls.length = [] := by
  have hnone : s.pushed.filter (fun e => e.1 == s.calls.length) = [] := by
    rw [filter_eq_nil_iff]
    intro e he heq
    have hlt := h.known e he
    rw [beq_iff_eq.1 heq] at hlt
    exact lt_irrefl _ hlt
  unfold pushedBy
  rw [hnone, map_nil]

theorem Inv.dropWriter (hhandles : s.writeHandles = 0) (hcalls : ∀ c ∈ s.calls, c.writing = false) :
    Inv { s with writers := s.writers - 1 } := by
  have hkeep (hc : s.Closed) : Closed { s with writers := s.writers - 1 } := by
    refine ⟨?_, hc.handles, hc.calls⟩
    change s.writers - 1 = 0
    rw [hc.writers]
  exact ⟨h.stream, fun i c hi => (h.calls i c hi).frame rfl id fun hc hl => ⟨hkeep hc, hl⟩, h.known, h.lock,
    fun h0 => ⟨h0, hhandles, hcalls⟩⟩

theorem inv_step (e : PipeEvent) : (s.step e).Inv := by
  cases e with
  | cloneReader =>
    dsimp only [step]
    split_ifs
    · exact h.handles id
    · exact h
  | cloneWriter =>
    dsimp only [step]
    split_ifs with hpos
    · exact h.handles fun h0 => absurd h0 hpos.ne'
    · exact h
  | closeReader => exact h.handles id
  | closeWriter =>
    refine h.handles fun h0 => ?_
    rw [h0]
  | dropReader =>
    dsimp only [step]
    split_ifs
    · exact h.handles id
    · exact h
  | dropWriter =>
    dsimp only [step]
    split_ifs with hdrop
    · rw [and_eq_true, and_eq_true, decide_eq_true_eq, all_eq_true] at hdrop
      refine h.dropWriter hdrop.1.1 fun c hc => ?_
      rw [← not_eq_true']
      exact hdrop.1.2 c hc
    · exact h
  | beginRead n =>
    dsimp only [step]
    split_ifs with hpos h0
    · refine h.begin ⟨h.pushedBy_length, fun _ => .inl h0⟩ fun _ => rfl
    · exact h.begin ⟨h.pushedBy_length, pos_of_ne_zero h0⟩ fun _ => rfl
    · exact h
  | beginWrite data =>
    dsimp only [step]
    by_cases hpos : 0 < s.writeHandles
    · rw [if_pos hpos]
      refine h.begin ⟨?_, zero_le _⟩ fun hc => absurd hc.handles hpos.ne'
      exact h.pushedBy_length
    · rw [if_neg hpos]
      exact h
  | advance call nonBlocking => exact inv_advance h call nonBlocking

end

/-- the part that `file_desc_write` hands to the pipe once `total` bytes of a write are written -/
def chunk (data : List UInt8) (total : ℕ) : List UInt8 := (data.drop total).take 4096

/-- the places where `i` stands are next to each other -/
def Together (i : ℕ) (t : List ℕ) : Prop := ∃ l k r, t = l ++ replicate k i ++ r ∧ i ∉ l ∧ i ∉ r

/-- the calls that the bytes of the stream are from -/
def writersOf (s : Pipe) : List ℕ := s.pushed.map Prod.fst

/-- the call that pushes bytes in the next step -/
def pushing (s : Pipe) : PipeEvent → Option ℕ
  | .advance i _ =>
    match s.calls[i]? with
    | some (.write data written .push) =>
      if s.lock.isNone && !s.buffer.isFull && written < data.length then some i else none
    | _ => none
  | _ => none

/-- the call is that of a write of at most 4096 bytes -/
def Small (data : List UInt8) : Prop := ∃ write : List UInt8, write.length ≤ 4096 ∧ data = chunk write 0

/-- a small write that is about to push for the first time finds room for all of it -/
def FindsRoom (s : Pipe) (e : PipeEvent) : Prop :=
  ∀ i data, s.pushing e = some i → s.calls[i]? = some (.write data 0 .push) → Small data →
    data.length ≤ PIPE_BUF_SIZE - s.buffer.len

/-- what a step does to the writes, by the call that pushes in it -/
inductive Turn (s s' : Pipe) : Option ℕ → Prop
  | still (hw : s'.writersOf = s.writersOf) (hcalls : ∀ (j : ℕ) data w pc, s'.calls[j]? = some (.write data w pc) →
      w = 0 ∧ s.calls[j]? = none ∨ ∃ pc', s.calls[j]? = some (.write data w pc')) : Turn s s' none
  | push {i w k : ℕ} {data : List UInt8} (hi : s.calls[i]? = some (.write data w .push))
      (hk : k + 1 = min (data.length - w) (PIPE_BUF_SIZE - s.buffer.len))
      (hcalls : s'.calls = s.calls.set i (.write data (w + (k + 1)) .start))
      (hw : s'.writersOf = s.writersOf ++ replicate (k + 1) i) : Turn s s' (some i)

theorem Turn.of_calls (hp : s'.pushed = s.pushed) (hc : s'.calls = s.calls) : Turn s s' none := by
  refine .still (by rw [writersOf, hp, writersOf]) fun j data w pc hj => .inr ⟨pc, ?_⟩
  rw [← hc]
  exact hj

theorem Turn.of_setCall {c : PipeCall} (hp : s'.pushed = s.pushed) (hc : s'.calls = s.calls.set i c)
    (hi : ∀ data w pc, c = .write data w pc → ∃ pc', s.calls[i]? = some (.write data w pc')) : Turn s s' none := by
  refine .still (by rw [writersOf, hp, writersOf]) fun j data w pc hj => .inr ?_
  rw [hc, getElem?_set] at hj
  split_ifs at hj with hij hlt
  · rw [← hij]
    exact hi data w pc (Option.some.inj hj)
  · exact ⟨pc, hj⟩

theorem Turn.of_begin {c : PipeCall} (hp : s'.pushed = s.pushed) (hc : s'.calls = s.calls ++ [c])
    (h0 : ∀ data w pc, c = .write data w pc → w = 0) : Turn s s' none := by
  refine .still (by rw [writersOf, hp, writersOf]) fun j data w pc hj => ?_
  rw [hc, getElem?_append] at hj
  split_ifs at hj with hlt
  · exact .inr ⟨pc, hj⟩
  · refine .inl ⟨h0 data w pc (mem_singleton.1 (mem_of_getElem? hj)).symm, getElem?_eq_none (not_lt.1 hlt)⟩

theorem turn_advance (s : Pipe) (i : ℕ) (nonBlocking : Bool) :
    Turn s (s.advance i nonBlocking) (s.pushing (.advance i nonBlocking)) := by
  dsimp only [advance, pushing]
  cases hi : s.calls[i]? with
  | none => exact .of_calls rfl rfl
  | some c =>
    cases c with
    | read n pc =>
      cases pc with
      | start =>
        dsimp only [advanceRead]
        split_ifs
        · exact .of_calls rfl rfl
        · exact .of_setCall (c := .read n _) rfl rfl nofun
        · exact .of_setCall (c := .read n _) rfl rfl nofun
      | done r => exact .of_calls rfl rfl
      | _ => exact .of_setCall (c := .read n _) rfl rfl nofun
    | write data written pc =>
      have hset {pc' : WritePc} : Turn s (s.setCall i (.write data written pc')) none := by
        refine .of_setCall rfl rfl fun _ _ _ heq => ?_
        cases heq
        exact ⟨pc, hi⟩
      cases pc with
      | start =>
        dsimp only [advanceWrite]
        split_ifs <;> exact hset
      | push =>
        dsimp only [advanceWrite]
        have hn := s.buffer.pushSlice_fst (data.drop written)
        have hle := s.buffer.len_le
        rw [length_drop] at hn
        generalize s.buffer.pushSlice (data.drop written) = p at hn
        cases hlock : s.lock with
        | some r => exact .of_calls rfl rfl
        | none =>
          by_cases hfull : s.buffer.len = PIPE_BUF_SIZE
          · simpa [PipeBuffer.isFull, hfull] using hset
          by_cases hleft : written < data.length
          · obtain ⟨k, hk⟩ := exists_eq_add_one_of_ne_zero (n := p.1) (by omega)
            have hpush : Turn s { s.setCall i (.write data (written + p.1) .start) with
                buffer := p.2
                pushed := s.pushed ++ ((data.drop written).take p.1).map fun b => (i, b) } (some i) :=
              .push hi (hk.symm.trans hn) (by rw [← hk]; rfl) (by simp [writersOf, hk]; omega)
            simpa [PipeBuffer.isFull, hfull, hleft, hk] using hpush
          · have h0 : p.1 = 0 := by omega
            have hnone : Turn s { s.setCall i (.write data (written + p.1) .full) with
                buffer := p.2
                pushed := s.pushed ++ ((data.drop written).take p.1).map fun b => (i, b) } none := by
              refine .of_setCall (c := .write data written .full) (by simp [h0]) (by rw [h0]; rfl) fun _ _ _ heq => ?_
              cases heq
              exact ⟨.push, hi⟩
            simpa [PipeBuffer.isFull, hfull, hleft, h0] using hnone
      | done r => exact .of_calls rfl rfl
      | _ => exact hset

theorem turn_step (s : Pipe) (e : PipeEvent) : Turn s (s.step e) (s.pushing e) := by
  cases e with
  | advance i nonBlocking => exact turn_advance s i nonBlocking
  | closeReader | closeWriter => exact .of_calls rfl rfl
  | beginRead n =>
    dsimp only [step]
    split
    · exact .of_begin (c := .read n _) rfl rfl nofun
    · exact .of_calls rfl rfl
  | beginWrite data =>
    dsimp only [step]
    split
    · exact .of_begin (c := .write data 0 _) rfl rfl fun _ _ _ heq => by cases heq; rfl
    · exact .of_calls rfl rfl
  | _ =>
    dsimp only [step]
    split_ifs
    · exact .of_calls rfl rfl
    · exact .of_calls rfl rfl

theorem Inv.not_mem_writersOf {data : List UInt8} {pc : WritePc} (h : s.Inv) (hi : s.calls[i]? = some (.write data 0 pc)) :
    i ∉ s.writersOf := by
  have hnone : s.pushedBy i = [] := (h.calls i _ hi).1
  rw [pushedBy, map_eq_nil_iff, filter_eq_nil_iff] at hnone
  intro hmem
  obtain ⟨e, he, rfl⟩ := mem_map.1 hmem
  exact hnone e he (beq_self_eq_true _)

/-- a small write has pushed nothing, or all of it in one piece -/
def Whole (s : Pipe) : Prop :=
  ∀ (i : ℕ) data w pc, s.calls[i]? = some (.write data w pc) → Small data → w = 0 ∨ w = data.length ∧ Together i s.writersOf

theorem whole_step {e : PipeEvent} (h : s.Inv) (hwhole : s.Whole) (hroom : s.FindsRoom e) : (s.step e).Whole := by
  intro j data w pc hj hsmall
  have hturn := turn_step s e
  unfold FindsRoom at hroom
  generalize s.pushing e = p at hturn hroom
  cases hturn with
  | still hw hcalls =>
    rw [hw]
    rcases hcalls j data w pc hj with ⟨h0, -⟩ | ⟨pc', hj'⟩
    · exact .inl h0
    · exact hwhole j data w pc' hj' hsmall
  | @push i w0 k data0 hi hk hcalls hw =>
    rw [hcalls, getElem?_set] at hj
    rw [hw]
    split_ifs at hj with hij hlt
    · -- the first push takes all of it, so there is no second one
      cases hj
      subst hij
      rcases hwhole i data w0 .push hi hsmall with rfl | ⟨hall, -⟩
      · have hle := hroom i data rfl hi hsmall
        refine .inr ⟨by omega, s.writersOf, k + 1, [], by simp, h.not_mem_writersOf hi, not_mem_nil⟩
      · omega
    · -- another call's bytes come after
      rcases hwhole j data w pc hj hsmall with h0 | ⟨hall, l, m, r, heq, hl, hr⟩
      · exact .inl h0
      · refine .inr ⟨hall, l, m, r ++ replicate (k + 1) i, by simp [heq], hl, ?_⟩
        simp [hr, mem_replicate, Ne.symm hij]

/-- **Small writes.** In a run in which every write of at most 4096 bytes that is about to push for the first time finds room for
all of it, the bytes of each of these writes stand together in the stream after every step. -/
theorem small_writes_together (es : List PipeEvent) (h : Each step FindsRoom new es) :
    Each step (fun s e => ∀ (i : ℕ) data w pc, (s.step e).calls[i]? = some (PipeCall.write data w pc) → Small data →
      Together i (s.step e).writersOf) new es := by
  have hkeeps : ∀ (s : Pipe) e, s.Inv ∧ s.Whole → s.FindsRoom e → (s.step e).Inv ∧ (s.step e).Whole :=
    fun s e hs he => ⟨inv_step hs.1 e, whole_step hs.1 hs.2 he⟩
  refine each_of_invariant hkeeps (fun s e hs he i data w pc hi hsmall => ?_) ⟨inv_new, nofun⟩ h
  obtain ⟨hinv, hwhole⟩ := hkeeps s e hs he
  rcases hwhole i data w pc hi hsmall with rfl | ⟨-, htogether⟩
  · exact ⟨(s.step e).writersOf, 0, [], by simp, hinv.not_mem_writersOf hi, not_mem_nil⟩
  · exact htogether

/-- there is room while the pipe has 4096 bytes to spare -/
theorem findsRoom_of_spare (e : PipeEvent) (h : s.buffer.len + 4096 ≤ PIPE_BUF_SIZE) : s.FindsRoom e := by
  rintro i data - - ⟨write, hlen, rfl⟩
  have hle := length_take_le 4096 (write.drop 0)
  rw [chunk]
  omega

/-- two writes take turns, the second one pushes first, and a read comes in between -/
def takeTurns : List PipeEvent :=
  [.beginWrite [1, 2], .beginWrite [3, 4, 5], .advance 0 false, .advance 1 false, .advance 1 false, .beginRead 2,
    .advance 2 false, .advance 0 false]

theorem takeTurns_together : Each step (fun s e => ∀ (i : ℕ) data w pc,
    (s.step e).calls[i]? = some (PipeCall.write data w pc) → Small data → Together i (s.step e).writersOf) new takeTurns := by
  have hspare : Each step (fun s _ => s.buffer.len + 4096 ≤ PIPE_BUF_SIZE) new takeTurns := by decide +kernel
  exact small_writes_together takeTurns (hspare.mono fun s e hs => findsRoom_of_spare e hs)

/-! A write that does not find room is split if others come in between. -/

theorem Together.last {t : List ℕ} {k : ℕ} (h : Together i (t ++ replicate (k + 1) i)) :
    i ∉ t ∨ t.getLast? = some i := by
  obtain ⟨l, m, r, heq, hl, hr⟩ := h
  have hnil : r = [] := by
    by_contra hne
    have hlast := congrArg getLast? heq
    rw [getLast?_append_of_ne_nil _ hne, getLast?_append_of_ne_nil _ (by simp), getLast?_replicate] at hlast
    exact hr (mem_of_getLast? hlast.symm)
  rw [hnil, append_nil, append_eq_append_iff] at heq
  rcases heq with ⟨x, rfl, -⟩ | ⟨x, rfl, hx⟩
  · exact .inl fun hi => hl (mem_append_left _ hi)
  · have hall : ∀ y ∈ x, y = i := fun y hy => eq_of_mem_replicate (hx ▸ mem_append_left _ hy)
    rcases eq_nil_or_concat x with rfl | ⟨y, z, rfl⟩
    · exact .inl (by simpa using hl)
    · exact .inr (by simp [hall z (by simp)])

theorem exists_pushed {e : PipeEvent} (h : s.pushing e = some i) :
    ∃ k, (s.step e).writersOf = s.writersOf ++ replicate (k + 1) i := by
  have hturn := turn_step s e
  rw [h] at hturn
  cases hturn with
  | push hi hk hcalls hw => exact ⟨_, hw⟩

theorem writersOf_run (s : Pipe) (es : List PipeEvent) : s.writersOf <+: (run step s es).writersOf := by
  induction es generalizing s with
  | nil => exact ⟨[], append_nil _⟩
  | cons e es ih =>
    refine IsPrefix.trans ?_ (ih (s.step e))
    have hturn := turn_step s e
    generalize s.pushing e = p at hturn
    cases hturn with
    | still hw hcalls => exact ⟨[], by rw [append_nil, hw]⟩
    | push hi hk hcalls hw => exact ⟨_, hw.symm⟩

/-- a write that has pushed goes on after another one -/
theorem not_together {u : Pipe} {j : ℕ} (hi : s.pushing (.advance i false) = some i)
    (hu : (s.step (.advance i false)).writersOf <+: u.writersOf) (hj : u.pushing (.advance j false) = some j)
    (hi' : (u.step (.advance j false)).pushing (.advance i false) = some i) (hij : j ≠ i) :
    ¬ Together i ((u.step (.advance j false)).step (.advance i false)).writersOf := by
  intro h
  obtain ⟨k, h1⟩ := exists_pushed hi
  obtain ⟨m, h2⟩ := exists_pushed hj
  obtain ⟨n, h3⟩ := exists_pushed hi'
  rw [h3, h2] at h
  rcases h.last with hno | hlast
  · refine hno (mem_append_left _ (hu.subset ?_))
    rw [h1]
    simp
  · rw [getLast?_append_of_ne_nil _ (by simp), getLast?_replicate] at hlast
    exact hij (Option.some.inj hlast)

/-- parts of at most 4096 bytes, and descriptors that block -/
def blockingParts : PipeEvent → Bool
  | .beginWrite data => data.length ≤ 4096
  | .advance _ nonBlocking => !nonBlocking
  | _ => true

/-- writes of 1 and 15 times 4096 bytes, and one that does not fit -/
def crowd : List PipeEvent :=
  (range 16).flatMap (fun k => [.beginWrite (replicate (if k = 0 then 1 else 4096) 0), .advance k false, .advance k false]) ++
    [.beginWrite (replicate 4096 1), .advance 16 false]

/-- it finds the pipe full and sleeps; 16 bytes are read, and it wakes up; another write begins -/
def turn : List PipeEvent :=
  replicate 3 (.advance 16 false) ++ [.beginRead 16, .advance 17 false] ++ replicate 2 (.advance 16 false) ++
    [.beginWrite [2], .advance 18 false]

/-- the byte of another write comes between the first 4095 bytes of a write and its last -/
theorem small_write_split : ∃ es : List PipeEvent, es.all blockingParts = true ∧
    ¬ Together 16 (run step new es).writersOf := by
  refine ⟨crowd ++ [.advance 16 false] ++ turn ++ [.advance 18 false] ++ [.advance 16 false], by decide +kernel, ?_⟩
  rw [run_concat, run_concat, run_append, run_concat]
  refine not_together ?_ (writersOf_run _ turn) ?_ ?_ (by decide)
  · decide +kernel
  · decide +kernel
  · decide +kernel

end Pipe

end Kontsnor.Fs
