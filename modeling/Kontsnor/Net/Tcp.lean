/-
A socket's receive side (`net/tcp.rs`, `process_segment`, and `net/socket.rs`, `SocketInode::read`).

Sequence numbers are 32-bit words and wrap. The out-of-order queue is a map from the sequence number of a segment to its
bytes; here it is the list of its entries in the order of the keys, in which the code visits them. The wake-ups at the end
of a call are left out.
-/
import Kontsnor.Core.Ascending

namespace Kontsnor.Net

def TCP_FIN : UInt16 := 0x001

def TCP_SYN : UInt16 := 0x002

def TCP_RST : UInt16 := 0x004

def TCP_ACK : UInt16 := 0x010

def TCP_MAX_RECV_BUF : ℕ := 524288

inductive TcpState
  | closed | listen | synSent | synReceived | established | finWait1 | finWait2 | closeWait | closing | lastAck | timeWait
  deriving DecidableEq, Repr

abbrev Bytes := List UInt8

abbrev OooQueue := List (UInt32 × Bytes)

structure Socket where
  sockType : ℤ
  localAddr : Option UInt32
  localPort : Option UInt16
  remoteAddr : Option UInt32
  remotePort : Option UInt16
  udpRecvQueue : List Bytes
  tcpState : TcpState
  tcpSndUna : UInt32
  tcpSndNxt : UInt32
  tcpRcvNxt : UInt32
  tcpRecvBuf : Bytes
  tcpRcvWnd : UInt16
  tcpOooQueue : OooQueue
  soError : ℤ
  nonblocking : Bool

structure Segment where
  seq : UInt32
  ack : UInt32
  flags : UInt16
  payload : Bytes

/-- a segment without data that the socket sends -/
structure Reply where
  seq : UInt32
  ack : UInt32
  flags : UInt16
  wnd : UInt16

def hasFlag (flags flag : UInt16) : Bool := flags &&& flag != 0

/-- the window that is advertised for a buffer of `bufLen` bytes -/
def rcvWnd (bufLen : ℕ) : UInt16 := UInt16.ofNat (min (TCP_MAX_RECV_BUF - bufLen) 65535)

/-! ## The out-of-order queue -/

namespace OooQueue

variable (queue : OooQueue) (key : UInt32)

/-- `entry(key).or_insert_with(..)`: bytes that are queued already stay -/
def orInsert (data : Bytes) : OooQueue :=
  if queue.any fun e => e.1 == key then queue else Ascending.insertBy (fun e => e.1.toNat) (key, data) queue

def remove : OooQueue := queue.filter fun e => e.1 != key

def used : ℕ := (queue.map fun e => e.2.length).sum

end OooQueue

/-- a queued segment begins at the receive point, or before it and ends after it -/
def oooReady (curNxt : UInt32) (e : UInt32 × Bytes) : Bool :=
  let oooEnd := e.1 + UInt32.ofNat e.2.length
  e.1 == curNxt || (decide (0x80000000 ≤ e.1 - curNxt) && (decide (oooEnd - curNxt < 0x80000000) && oooEnd != curNxt))

/-- a queued segment ends at the receive point or before it -/
def oooStale (curNxt : UInt32) (e : UInt32 × Bytes) : Bool :=
  let oooEnd := e.1 + UInt32.ofNat e.2.length
  decide (0x80000000 ≤ oooEnd - curNxt) || oooEnd == curNxt

theorem OooQueue.length_remove_lt {queue : OooQueue} {p : UInt32 × Bytes → Bool} {e : UInt32 × Bytes}
    (h : queue.find? p = some e) : (remove queue e.1).length < queue.length := by
  refine List.length_filter_lt_length_iff_exists.2 ⟨e, List.mem_of_find?_eq_some h, ?_⟩
  simp

/-- how much of a queued segment that is ready has been received before -/
def oooOverlap (curNxt k : UInt32) : ℕ := if k = curNxt then 0 else (curNxt - k).toNat

/-- the loop that moves queued segments to the buffer; without room for the next one it ends and stale ones stay -/
def drainOoo (sock : Socket) : Socket :=
  let curNxt := sock.tcpRcvNxt
  match _h : sock.tcpOooQueue.find? (oooReady curNxt) with
  | none => { sock with tcpOooQueue := sock.tcpOooQueue.filter fun e => !oooStale curNxt e }
  | some (k, data) =>
    let overlap := oooOverlap curNxt k
    let chunkLen := data.length - overlap
    if 0 < chunkLen then
      if sock.tcpRecvBuf.length + chunkLen ≤ TCP_MAX_RECV_BUF then
        let chunk := data.drop overlap
        drainOoo { sock with
          tcpOooQueue := sock.tcpOooQueue.remove k
          tcpRecvBuf := sock.tcpRecvBuf ++ chunk
          tcpRcvNxt := curNxt + UInt32.ofNat chunk.length }
      else sock
    else drainOoo { sock with tcpOooQueue := sock.tcpOooQueue.remove k }
  termination_by sock.tcpOooQueue.length
  decreasing_by all_goals exact OooQueue.length_remove_lt _h

/-! ## Segments -/

/-- where a segment begins and its bytes, without those that were received before -/
def effective (rcvNxt seq : UInt32) (payload : Bytes) : UInt32 × Bytes :=
  if 0x80000000 ≤ seq - rcvNxt then
    let overlap := (rcvNxt - seq).toNat
    if overlap < payload.length then (rcvNxt, payload.drop overlap) else (seq, [])
  else (seq, payload)

variable (sock : Socket)

/-- the acknowledgement of what has been received -/
def Socket.ackReply (wnd : UInt16) : Reply := ⟨sock.tcpSndNxt, sock.tcpRcvNxt, TCP_ACK, wnd⟩

def Socket.pureAck : Reply := sock.ackReply (rcvWnd sock.tcpRecvBuf.length)

/-- the bytes of a segment, in state `Established` -/
def receivePayload (seq : UInt32) (payload : Bytes) : Socket × Option Reply :=
  if payload = [] then (sock, none)
  else
    let (effectiveSeq, effectivePayload) := effective sock.tcpRcvNxt seq payload
    if effectivePayload ≠ [] ∧ effectiveSeq = sock.tcpRcvNxt then
      if sock.tcpRecvBuf.length + effectivePayload.length ≤ TCP_MAX_RECV_BUF then
        let sock := drainOoo { sock with
          tcpRecvBuf := sock.tcpRecvBuf ++ effectivePayload
          tcpRcvNxt := effectiveSeq + UInt32.ofNat effectivePayload.length }
        (sock, some sock.pureAck)
      else (sock, some sock.pureAck)
    else if effectivePayload ≠ [] ∧ effectiveSeq - sock.tcpRcvNxt < 0x80000000 then
      let sock :=
        if sock.tcpOooQueue.used + effectivePayload.length ≤ TCP_MAX_RECV_BUF then
          { sock with tcpOooQueue := sock.tcpOooQueue.orInsert effectiveSeq effectivePayload }
        else sock
      (sock, some sock.pureAck)
    else (sock, some sock.pureAck)

variable (seg : Segment)

def Socket.acked : Socket :=
  if hasFlag seg.flags TCP_ACK then { sock with tcpSndUna := seg.ack } else sock

def processEstablished : Socket × Option Reply :=
  if hasFlag seg.flags TCP_RST then ({ sock with soError := 104, tcpState := .closed }, none)
  else
    let (sock, reply) := receivePayload (sock.acked seg) seg.seq seg.payload
    if hasFlag seg.flags TCP_FIN then
      let sock := { sock with tcpRcvNxt := sock.tcpRcvNxt + 1, tcpState := .closeWait }
      (sock, some sock.pureAck)
    else (sock, reply)

/-- the transitions of `process_segment`; a reset in state `Established` returns before the window is stored -/
def transition : Socket × Option Reply :=
  match sock.tcpState with
  | .synSent =>
    if hasFlag seg.flags TCP_RST then ({ sock with soError := 111, tcpState := .closed }, none)
    else if hasFlag seg.flags TCP_SYN && hasFlag seg.flags TCP_ACK then
      let sock := { sock with tcpRcvNxt := seg.seq + 1, tcpSndUna := seg.ack, soError := 0, tcpState := .established }
      (sock, some sock.pureAck)
    else (sock, none)
  | .synReceived =>
    if hasFlag seg.flags TCP_ACK then ({ sock with tcpSndUna := seg.ack, tcpState := .established }, none)
    else (sock, none)
  | .established => processEstablished sock seg
  | .finWait1 =>
    let sock := if hasFlag seg.flags TCP_ACK then { sock with tcpSndUna := seg.ack, tcpState := .finWait2 } else sock
    if hasFlag seg.flags TCP_FIN then
      let sock := { sock with tcpRcvNxt := seg.seq + 1 }
      ({ sock with tcpState := .closing }, some (sock.ackReply 65535))
    else (sock, none)
  | .finWait2 =>
    if hasFlag seg.flags TCP_FIN then
      let sock := { sock with tcpRcvNxt := seg.seq + 1 }
      ({ sock with tcpState := .closed }, some (sock.ackReply 65535))
    else (sock, none)
  | _ => (sock, none)

def processSegment : Socket × Option Reply :=
  let (sock, reply) := transition sock seg
  match reply with
  | some r => ({ sock with tcpRcvWnd := r.wnd }, some r)
  | none => (sock, none)

theorem processSegment_eq : ∃ wnd, (processSegment sock seg).1 = { (transition sock seg).1 with tcpRcvWnd := wnd } := by
  unfold processSegment
  obtain ⟨sock', reply⟩ := transition sock seg
  cases reply with
  | none => exact ⟨sock'.tcpRcvWnd, rfl⟩
  | some r => exact ⟨r.wnd, rfl⟩

/-! ## Reading -/

inductive ReadOutcome
  | ok (data : Bytes)
  | err (errno : ℤ)
  | wait -- asleep on the socket's wait queue

variable (bufLen : ℕ)

/-- the bytes are copied out, and the window is advertised again if it has opened -/
def takeBytes : Socket × ReadOutcome × Option Reply :=
  let n := min bufLen sock.tcpRecvBuf.length
  let data := sock.tcpRecvBuf.take n
  if 0 < n then
    let sock := { sock with tcpRecvBuf := sock.tcpRecvBuf.drop n }
    let newWnd := rcvWnd sock.tcpRecvBuf.length
    let shouldSendWndUpdate : Bool :=
      sock.tcpRecvBuf.length == 0 || (decide (sock.tcpRcvWnd < 32768) && decide (32768 ≤ newWnd)) ||
        (sock.tcpRcvWnd == 0 && decide (0 < newWnd)) || decide (16384 ≤ newWnd.toNat - sock.tcpRcvWnd.toNat)
    if shouldSendWndUpdate && sock.tcpState == .established then
      let sock := { sock with tcpRcvWnd := newWnd }
      match sock.localAddr, sock.remoteAddr, sock.localPort, sock.remotePort with
      | some _, some _, some _, some _ => (sock, .ok data, some (sock.ackReply newWnd))
      | _, _, _, _ => (sock, .ok data, none)
    else (sock, .ok data, none)
  else (sock, .ok data, none)

/-- one pass of the loop that waits for bytes -/
def readStream : Socket × ReadOutcome × Option Reply :=
  if sock.tcpRecvBuf = [] then
    match sock.tcpState with
    | .closeWait | .timeWait => (sock, .ok [], none)
    | .closed => (sock, .err (if sock.soError ≠ 0 then -sock.soError else -104), none)
    | _ => if sock.nonblocking then (sock, .err (-11), none) else (sock, .wait, none)
  else takeBytes sock bufLen

/-- `waited`: the call has slept, which it does at most once -/
def readDatagram (waited : Bool) : Socket × ReadOutcome × Option Reply :=
  match sock.udpRecvQueue with
  | dg :: rest => ({ sock with udpRecvQueue := rest }, .ok (dg.take bufLen), none)
  | [] =>
    if sock.nonblocking then (sock, .err (-11), none)
    else if waited then (sock, .ok [], none)
    else (sock, .wait, none)

/-- `SocketInode::read`, up to where it returns or sleeps -/
def read : Socket × ReadOutcome × Option Reply :=
  if sock.sockType = 1 then
    if sock.tcpState = .closed then (sock, .err (-104), none) else readStream sock bufLen
  else if sock.sockType = 2 ∨ sock.sockType = 3 then readDatagram sock bufLen false
  else (sock, .err (-22), none)

/-- a call that has slept goes on -/
def resume : Socket × ReadOutcome × Option Reply :=
  if sock.sockType = 1 then readStream sock bufLen else readDatagram sock bufLen true

end Kontsnor.Net
