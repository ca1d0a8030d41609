/-
The bytes that a socket receives are those that were sent.

A remote byte stream `S` arrives in segments that carry its bytes at their sequence numbers (`Segment.Carries`): in any
order, more than once, overlapping or not at all. `Socket.Holds`: the socket has got a prefix of `S`, its receive point is
the length of that prefix modulo `2 ^ 32`, and every queued segment has the bytes of `S` at a position near it.
-/
import Kontsnor.Core.Runs
import Kontsnor.Core.Serial
import Kontsnor.Net.Tcp

namespace Kontsnor.Net

open Kontsnor.Serial List Runs

/-! ## Sessions -/

inductive Event
  | segment (seg : Segment)
  | read (bufLen : ℕ)
  | resume (bufLen : ℕ)

/-- a socket, all bytes that were ever appended to its buffer, and all bytes that reads have returned -/
structure Session where
  sock : Socket
  appended : Bytes
  delivered : Bytes

def ReadOutcome.data : ReadOutcome → Bytes
  | .ok data => data
  | .err _ => []
  | .wait => []

def Session.step (s : Session) : Event → Session
  | .segment seg =>
    let sock := (processSegment s.sock seg).1
    { s with sock := sock, appended := s.appended ++ sock.tcpRecvBuf.drop s.sock.tcpRecvBuf.length }
  | .read bufLen =>
    let r := Net.read s.sock bufLen
    { s with sock := r.1, delivered := s.delivered ++ r.2.1.data }
  | .resume bufLen =>
    let r := Net.resume s.sock bufLen
    { s with sock := r.1, delivered := s.delivered ++ r.2.1.data }

def Session.start (sock : Socket) : Session := ⟨sock, [], []⟩

/-- a data segment of the stream `S`, whose first byte has the sequence number `isn`, when `received` bytes of it have
been received: it carries the bytes of `S` at its sequence number and begins within `2 ^ 31` of the receive point -/
def Segment.Carries (S : Bytes) (isn : UInt32) (received : ℕ) (seg : Segment) : Prop :=
  (hasFlag seg.flags TCP_FIN = false ∧ hasFlag seg.flags TCP_RST = false) ∧
    ∃ p, seg.seq = number isn p ∧ seg.payload <+: S.drop p ∧ Near received p

/-- no queued segment is about to be taken for one that lies ahead: none begins so far behind the receive point that
another buffer of bytes brings it to a distance of `2 ^ 31` -/
def Socket.Recent (sock : Socket) : Prop :=
  ∀ e ∈ sock.tcpOooQueue, ¬ (2 ^ 31 ≤ (e.1 - sock.tcpRcvNxt).toNat ∧
    (e.1 - sock.tcpRcvNxt).toNat < 2 ^ 31 + TCP_MAX_RECV_BUF)

def Event.OfStream (S : Bytes) (isn : UInt32) (s : Session) : Event → Prop
  | .segment seg => seg.Carries S isn s.appended.length
  | .read _ => True
  | .resume _ => True

/-! ## What is queued and buffered -/

/-- a queued segment: bytes of the stream at a position near the receive point, and still when `slack` more bytes have
been received -/
def Queued (S : Bytes) (isn : UInt32) (received slack : ℕ) (e : UInt32 × Bytes) : Prop :=
  ∃ p, e.1 = number isn p ∧ e.2 <+: S.drop p ∧ e.2.length ≤ TCP_MAX_RECV_BUF ∧ p < received + 2 ^ 31 ∧
    received + slack ≤ p + 2 ^ 31

/-- the socket has received `got`, the beginning of the stream -/
structure Socket.Holds (S : Bytes) (isn : UInt32) (got : Bytes) (slack : ℕ) (sock : Socket) : Prop where
  head : got <+: S
  next : sock.tcpRcvNxt = number isn got.length
  room : sock.tcpRecvBuf.length ≤ TCP_MAX_RECV_BUF
  queued : ∀ e ∈ sock.tcpOooQueue, Queued S isn got.length slack e

variable {S got chunk : Bytes} {isn : UInt32} {sock : Socket} {slack : ℕ}

theorem append_drop_of_isPrefix {l l' : Bytes} (h : l <+: l') : l ++ l'.drop l.length = l' := by
  obtain ⟨t, rfl⟩ := h
  rw [drop_left]

theorem isPrefix_append (h : got <+: S) (hc : chunk <+: S.drop got.length) : got ++ chunk <+: S := by
  obtain ⟨t, ht⟩ := hc
  refine ⟨t, ?_⟩
  rw [append_assoc, ht]
  exact append_drop_of_isPrefix h

variable {data : Bytes} {e : UInt32 × Bytes} {received p : ℕ}

theorem isPrefix_drop {r : ℕ} (h : data <+: S.drop p) (hpr : p ≤ r) : data.drop (r - p) <+: S.drop r := by
  have hd := h.drop (r - p)
  rwa [drop_drop, Nat.add_sub_cancel' hpr] at hd

theorem Queued.mono {received' slack' : ℕ} (h : Queued S isn received slack e)
    (hr : received ≤ received') (hs : received' + slack' ≤ received + slack) : Queued S isn received' slack' e := by
  obtain ⟨p, hk, hd, hlen, h1, h2⟩ := h
  exact ⟨p, hk, hd, hlen, by omega, by omega⟩

section

variable (h : sock.Holds S isn got slack)
include h

theorem Socket.Holds.mono {slack' : ℕ} (hs : slack' ≤ slack) : sock.Holds S isn got slack' :=
  ⟨h.head, h.next, h.room, fun e he => (h.queued e he).mono le_rfl (by omega)⟩

theorem Socket.Holds.append (hc : chunk <+: S.drop got.length)
    (hroom : sock.tcpRecvBuf.length + chunk.length ≤ TCP_MAX_RECV_BUF) (slack' : ℕ)
    (hs : chunk.length + slack' ≤ slack) :
    { sock with
      tcpRecvBuf := sock.tcpRecvBuf ++ chunk
      tcpRcvNxt := sock.tcpRcvNxt + UInt32.ofNat chunk.length }.Holds S isn (got ++ chunk) slack' where
  head := isPrefix_append h.head hc
  next := by rw [length_append, number_add, ← h.next]
  room := by rw [length_append]; exact hroom
  queued e he := by
    refine (h.queued e he).mono ?_ ?_ <;> rw [length_append] <;> omega

theorem Socket.Holds.subqueue {queue : OooQueue}
    (hq : ∀ e ∈ queue, e ∈ sock.tcpOooQueue) : { sock with tcpOooQueue := queue }.Holds S isn got slack :=
  ⟨h.head, h.next, h.room, fun e he => h.queued e (hq e he)⟩

theorem Socket.Holds.remove (k : UInt32) :
    { sock with tcpOooQueue := sock.tcpOooQueue.remove k }.Holds S isn got slack :=
  h.subqueue fun _ he => (mem_filter.1 he).1

end

/-- a segment that is queued at a distance at which a whole buffer of bytes may still come -/
theorem Socket.Holds.of_recent (h : sock.Holds S isn got 0) (hr : sock.Recent) :
    sock.Holds S isn got TCP_MAX_RECV_BUF := by
  refine ⟨h.head, h.next, h.room, fun e he => ?_⟩
  obtain ⟨p, hk, hd, hlen, h1, h2⟩ := h.queued e he
  refine ⟨p, hk, hd, hlen, h1, ?_⟩
  have hrec := hr e he
  rw [hk, h.next] at hrec
  have hM : TCP_MAX_RECV_BUF = 524288 := rfl
  rcases Nat.lt_or_ge p got.length with hlt | hge
  · rw [sub_toNat_of_lt isn hlt (by omega)] at hrec
    omega
  · omega

/-! ## Draining the queue -/

/-- what is cut from a queued segment that is ready, and that the rest are the bytes at the receive point -/
theorem Queued.ready (h : Queued S isn received slack e) (hr : oooReady (number isn received) e = true) :
    e.2.drop (oooOverlap (number isn received) e.1) <+: S.drop received := by
  obtain ⟨p, hk, hd, hlen, h1, h2⟩ := h
  have hnear : Near received p := ⟨by omega, h1⟩
  rw [oooReady, Bool.or_eq_true, beq_iff_eq, Bool.and_eq_true, decide_eq_true_iff, hk, number_inj isn hnear,
    behind_iff isn hnear] at hr
  rw [hk, oooOverlap]
  rcases hr with heq | ⟨hlt, -⟩
  · rw [if_pos (by rw [heq]), ← heq]
    exact hd
  · rw [if_neg (by rw [number_inj isn hnear]; omega), sub_toNat_of_le isn hlt.le (by omega)]
    exact isPrefix_drop hd hlt.le

/-- what decides how a socket treats segments and reads -/
def Socket.mode (sock : Socket) : ℤ × TcpState := (sock.sockType, sock.tcpState)

/-- the socket got `chunk` on top of `got`, and appended it to its buffer -/
structure Socket.Takes (S : Bytes) (isn : UInt32) (got chunk : Bytes) (sock sock' : Socket) : Prop where
  buf : sock'.tcpRecvBuf = sock.tcpRecvBuf ++ chunk
  holds : sock'.Holds S isn (got ++ chunk) 0
  mode : sock'.mode = sock.mode

variable {sock' : Socket}

theorem Socket.Holds.takes_nil (h : sock'.Holds S isn got slack)
    (hbuf : sock'.tcpRecvBuf = sock.tcpRecvBuf) (hmode : sock'.mode = sock.mode) :
    sock.Takes S isn got [] sock' :=
  ⟨by rw [hbuf, append_nil], by rw [append_nil]; exact h.mono (Nat.zero_le _), hmode⟩

theorem Socket.Takes.after {sock1 : Socket} {more : Bytes}
    (h : sock1.Takes S isn (got ++ chunk) more sock') (hbuf : sock1.tcpRecvBuf = sock.tcpRecvBuf ++ chunk)
    (hmode : sock1.mode = sock.mode) : sock.Takes S isn got (chunk ++ more) sock' :=
  ⟨by rw [h.buf, hbuf, append_assoc], by rw [← append_assoc]; exact h.holds, by rw [h.mode, hmode]⟩

theorem Socket.Holds.takes_drainOoo (h : sock.Holds S isn got slack)
    (hs : TCP_MAX_RECV_BUF ≤ sock.tcpRecvBuf.length + slack) : ∃ chunk, sock.Takes S isn got chunk (drainOoo sock) := by
  fun_induction drainOoo sock generalizing got slack with
  | case1 sock curNxt => exact ⟨[], (h.subqueue fun e he => (mem_filter.1 he).1).takes_nil rfl rfl⟩
  | case2 sock curNxt k data hfind overlap chunkLen hpos hfits =>
    rename_i chunk ih
    have hready : oooReady sock.tcpRcvNxt (k, data) = true := find?_some hfind
    have hq := h.queued (k, data) (mem_of_find?_eq_some hfind)
    have hlen : chunk.length = chunkLen := length_drop
    have hchunk : chunk <+: S.drop got.length := by
      have hr := hq.ready (h.next ▸ hready)
      rwa [← h.next] at hr
    have happ := (h.remove k).append hchunk (by rw [hlen]; exact hfits) (slack - chunk.length) (by omega)
    obtain ⟨more, hmore⟩ := ih happ (by rw [length_append]; omega)
    exact ⟨chunk ++ more, hmore.after rfl rfl⟩
  | case3 sock curNxt k data hfind overlap chunkLen => exact ⟨[], h.takes_nil rfl rfl⟩
  | case4 sock curNxt k data hfind overlap chunkLen =>
    rename_i ih
    obtain ⟨more, hmore⟩ := ih (h.remove k) hs
    exact ⟨more, hmore.buf, hmore.holds, hmore.mode⟩

/-! ## Segments -/

theorem OooQueue.mem_orInsert {queue : OooQueue} {k : UInt32}
    (h : e ∈ queue.orInsert k data) : e = (k, data) ∨ e ∈ queue := by
  unfold orInsert at h
  split_ifs at h
  · exact .inr h
  · exact Ascending.mem_insertBy.1 h

/-- a segment without what was received before: nothing is left, or bytes of the stream from the receive point on -/
theorem effective_spec (isn : UInt32) {payload : Bytes} (hd : payload <+: S.drop p) (hnear : Near received p) :
    (effective (number isn received) (number isn p) payload).2 = [] ∨
      ∃ q, effective (number isn received) (number isn p) payload = (number isn q, payload.drop (q - p)) ∧
        payload.drop (q - p) <+: S.drop q ∧ received ≤ q ∧ q < received + 2 ^ 31 := by
  obtain ⟨h1, h2⟩ := hnear
  unfold effective
  simp only [behind_iff isn ⟨h1, h2⟩]
  by_cases hlt : p < received
  · rw [if_pos hlt, sub_toNat_of_le isn hlt.le (by omega)]
    by_cases hov : received - p < payload.length
    · rw [if_pos hov]
      exact .inr ⟨received, rfl, isPrefix_drop hd hlt.le, le_rfl, by omega⟩
    · rw [if_neg hov]
      exact .inl rfl
  · rw [if_neg hlt]
    refine .inr ⟨p, by simp, by simpa using hd, by omega, h2⟩

section

variable (h : sock.Holds S isn got 0)
include h

theorem Socket.Holds.orInsert {q : ℕ} (hq : data <+: S.drop q)
    (hlen : data.length ≤ TCP_MAX_RECV_BUF) (hle : got.length ≤ q) (hlt : q < got.length + 2 ^ 31) :
    { sock with tcpOooQueue := sock.tcpOooQueue.orInsert (number isn q) data }.Holds S isn got 0 := by
  refine ⟨h.head, h.next, h.room, fun e he => ?_⟩
  rcases OooQueue.mem_orInsert he with rfl | he
  · exact ⟨q, rfl, hq, hlen, hlt, by omega⟩
  · exact h.queued e he

theorem Socket.Holds.takes_receivePayload (hr : sock.Recent) {payload : Bytes}
    (hd : payload <+: S.drop p) (hnear : Near got.length p) :
    ∃ chunk, sock.Takes S isn got chunk (receivePayload sock (number isn p) payload).1 := by
  have hnone : ∃ chunk, sock.Takes S isn got chunk sock := ⟨[], h.takes_nil rfl rfl⟩
  unfold receivePayload
  split_ifs with hp
  · exact hnone
  have hspec := effective_spec isn hd hnear
  rw [← h.next] at hspec
  rcases hspec with he | ⟨q, he, hq, hle, hlt⟩
  · simpa [he] using hnone
  rw [he]
  dsimp only
  split_ifs with hin hfits hout hfree
  · -- at the receive point
    have hqr : q = got.length := (number_inj isn ⟨by omega, hlt⟩).1 (hin.2.trans h.next)
    have happ := (h.of_recent hr).append (hqr ▸ hq) hfits (TCP_MAX_RECV_BUF - (payload.drop (q - p)).length) (by omega)
    rw [hin.2]
    obtain ⟨more, hmore⟩ := happ.takes_drainOoo (by rw [length_append]; omega)
    exact ⟨payload.drop (q - p) ++ more, hmore.after rfl rfl⟩
  · exact hnone
  · -- ahead of it
    exact ⟨[], (h.orInsert hq (by omega) hle hlt).takes_nil rfl rfl⟩
  · exact hnone
  · exact hnone

theorem Socket.Holds.takes_processSegment (hr : sock.Recent)
    (hest : sock.mode = (1, .established)) {seg : Segment} (hseg : seg.Carries S isn got.length) :
    ∃ chunk, sock.Takes S isn got chunk (processSegment sock seg).1 := by
  obtain ⟨⟨hfin, hrst⟩, p, hseq, hd, hnear⟩ := hseg
  have hacked : (sock.acked seg).Holds S isn got 0 ∧ (sock.acked seg).Recent ∧
      (sock.acked seg).tcpRecvBuf = sock.tcpRecvBuf ∧ (sock.acked seg).mode = sock.mode := by
    unfold Socket.acked
    split_ifs
    · exact ⟨⟨h.head, h.next, h.room, h.queued⟩, hr, rfl, rfl⟩
    · exact ⟨h, hr, rfl, rfl⟩
  obtain ⟨h1, hr1, hbuf1, hmode1⟩ := hacked
  obtain ⟨chunk, hc⟩ := h1.takes_receivePayload hr1 hd hnear
  refine ⟨chunk, ?_⟩
  have htr : transition sock seg = receivePayload (sock.acked seg) (number isn p) seg.payload := by
    rw [transition, (Prod.mk.inj hest).2, ← hseq]
    simp [processEstablished, hfin, hrst]
  obtain ⟨wnd, hproc⟩ := processSegment_eq sock seg
  rw [hproc, htr]
  exact ⟨by rw [hc.buf, hbuf1], ⟨hc.holds.head, hc.holds.next, hc.holds.room, hc.holds.queued⟩, hc.mode.trans hmode1⟩

end

/-! ## Reads -/

/-- a read takes bytes from the front of the buffer -/
structure Socket.Reads (sock sock' : Socket) (data : Bytes) : Prop where
  buf : sock.tcpRecvBuf = data ++ sock'.tcpRecvBuf
  next : sock'.tcpRcvNxt = sock.tcpRcvNxt
  queue : sock'.tcpOooQueue = sock.tcpOooQueue
  mode : sock'.mode = sock.mode

section

variable (sock : Socket)

theorem reads_nil : sock.Reads sock [] := ⟨rfl, rfl, rfl, rfl⟩

variable (bufLen : ℕ)

theorem takeBytes_reads : sock.Reads (takeBytes sock bufLen).1 (takeBytes sock bufLen).2.1.data := by
  have htake : sock.Reads { sock with tcpRecvBuf := sock.tcpRecvBuf.drop (min bufLen sock.tcpRecvBuf.length) }
      (sock.tcpRecvBuf.take (min bufLen sock.tcpRecvBuf.length)) :=
    ⟨(take_append_drop _ _).symm, rfl, rfl, rfl⟩
  unfold takeBytes
  dsimp only
  split_ifs with hn hupdate
  · split
    · exact ⟨htake.buf, rfl, rfl, rfl⟩
    · exact ⟨htake.buf, rfl, rfl, rfl⟩
  · exact htake
  · have h0 : min bufLen sock.tcpRecvBuf.length = 0 := by omega
    rw [h0]
    exact reads_nil sock

theorem takeBytes_data :
    (takeBytes sock bufLen).2.1.data = sock.tcpRecvBuf.take (min bufLen sock.tcpRecvBuf.length) := by
  unfold takeBytes
  dsimp only
  split_ifs
  · split <;> rfl
  · rfl
  · rfl

theorem readStream_reads : sock.Reads (readStream sock bufLen).1 (readStream sock bufLen).2.1.data := by
  unfold readStream
  by_cases hempty : sock.tcpRecvBuf = []
  · rw [if_pos hempty]
    split
    · exact reads_nil sock
    · exact reads_nil sock
    · exact reads_nil sock
    · split_ifs
      · exact reads_nil sock
      · exact reads_nil sock
  · rw [if_neg hempty]
    exact takeBytes_reads sock bufLen

end

theorem Socket.Holds.of_reads (h : sock.Holds S isn got 0) (hr : sock.Reads sock' data) : sock'.Holds S isn got 0 := by
  have hlen := congrArg length hr.buf
  rw [length_append] at hlen
  refine ⟨h.head, hr.next ▸ h.next, ?_, hr.queue ▸ h.queued⟩
  have := h.room
  omega

/-! ## Runs -/

structure Session.Inv (S : Bytes) (isn : UInt32) (s : Session) : Prop where
  mode : s.sock.mode = (1, .established)
  holds : s.sock.Holds S isn s.appended 0
  delivered : s.delivered ++ s.sock.tcpRecvBuf = s.appended

variable {s : Session}

theorem Session.Inv.segment (h : s.Inv S isn) (hr : s.sock.Recent) {seg : Segment}
    (hseg : seg.Carries S isn s.appended.length) : (s.step (.segment seg)).Inv S isn := by
  obtain ⟨chunk, hc⟩ := h.holds.takes_processSegment hr h.mode hseg
  have happ : s.appended ++ (processSegment s.sock seg).1.tcpRecvBuf.drop s.sock.tcpRecvBuf.length =
      s.appended ++ chunk := by rw [hc.buf, drop_left]
  refine ⟨hc.mode.trans h.mode, ?_, ?_⟩
  · change Socket.Holds S isn (s.appended ++ _) 0 _
    rw [happ]
    exact hc.holds
  · change s.delivered ++ (processSegment s.sock seg).1.tcpRecvBuf = s.appended ++ _
    rw [happ, hc.buf, ← append_assoc, h.delivered]

theorem Session.Inv.reads (h : s.Inv S isn)
    (hr : s.sock.Reads sock' data) : Session.Inv S isn { s with sock := sock', delivered := s.delivered ++ data } := by
  refine ⟨hr.mode.trans h.mode, h.holds.of_reads hr, ?_⟩
  rw [append_assoc, ← hr.buf, h.delivered]

/-- an event of the stream; a segment comes at a time when no queued one is too old -/
def Event.Allowed (S : Bytes) (isn : UInt32) (s : Session) (e : Event) : Prop :=
  e.OfStream S isn s ∧ ∀ seg, e = .segment seg → s.sock.Recent

theorem Session.Inv.step (h : s.Inv S isn) {e : Event} (he : e.Allowed S isn s) : (s.step e).Inv S isn := by
  obtain ⟨hkind, hest⟩ := Prod.mk.inj h.mode
  cases e with
  | segment seg => exact h.segment (he.2 seg rfl) he.1
  | read bufLen =>
    have hr : Net.read s.sock bufLen = readStream s.sock bufLen := by simp [Net.read, hkind, hest]
    rw [Session.step, hr]
    exact h.reads (readStream_reads s.sock bufLen)
  | resume bufLen =>
    have hr : Net.resume s.sock bufLen = readStream s.sock bufLen := by simp [Net.resume, hkind]
    rw [Session.step, hr]
    exact h.reads (readStream_reads s.sock bufLen)

/-- a stream socket in state `Established` that has not received anything -/
structure Socket.Fresh (sock : Socket) : Prop where
  mode : sock.mode = (1, .established)
  recvBuf : sock.tcpRecvBuf = []
  oooQueue : sock.tcpOooQueue = []

theorem Session.Inv.start (h : sock.Fresh) : (Session.start sock).Inv S sock.tcpRcvNxt := by
  refine ⟨h.mode, ⟨⟨_, rfl⟩, ?_, ?_, ?_⟩, h.recvBuf⟩
  · simp [Session.start, number]
  · simp [Session.start, h.recvBuf]
  · simp [Session.start, h.oooQueue]

/-- **Stream integrity.** In every run of segments of the stream `S`, in any order and with any loss, duplication and
overlap, and of reads, in which no queued segment gets too old: what was appended to the buffer is a prefix of `S`, the
receive point is its length, the buffer stays within its bound, and reads have returned all but what is buffered. -/
theorem stream_integrity (S : Bytes) (sock : Socket) (h : sock.Fresh) (es : List Event)
    (hes : Each Session.step (fun s e => e.Allowed S sock.tcpRcvNxt s) (Session.start sock) es) :
    let s := run Session.step (Session.start sock) es
    s.appended <+: S ∧ s.sock.tcpRcvNxt = sock.tcpRcvNxt + UInt32.ofNat s.appended.length ∧
      s.sock.tcpRecvBuf.length ≤ TCP_MAX_RECV_BUF ∧ s.delivered ++ s.sock.tcpRecvBuf = s.appended := by
  have hinv := invariant (I := Session.Inv S sock.tcpRcvNxt) (fun s e hs he => hs.step he) (Session.Inv.start h) hes
  exact ⟨hinv.holds.head, hinv.holds.next, hinv.holds.room, hinv.delivered⟩

/-- of a stream that is short enough no queued segment gets too old -/
theorem Session.Inv.recent (h : s.Inv S isn) (hS : S.length + TCP_MAX_RECV_BUF ≤ 2 ^ 31) : s.sock.Recent := by
  intro e he
  obtain ⟨p, hk, -, -, h1, -⟩ := h.holds.queued e he
  have hlen := h.holds.head.length_le
  rw [hk, h.holds.next]
  rcases Nat.lt_or_ge p s.appended.length with hlt | hge
  · rw [sub_toNat_of_lt isn hlt (by omega)]
    omega
  · rw [sub_toNat_of_le isn hge (by omega)]
    omega

/-- **Short streams.** Without a condition on the queue, where the stream ends before sequence numbers come again. -/
theorem stream_integrity_of_short (hS : S.length + TCP_MAX_RECV_BUF ≤ 2 ^ 31)
    (h : sock.Fresh) {es : List Event}
    (hes : Each Session.step (fun s e => e.OfStream S sock.tcpRcvNxt s) (Session.start sock) es) :
    (run Session.step (Session.start sock) es).Inv S sock.tcpRcvNxt :=
  invariant (fun _ _ hs he => hs.step ⟨he, fun _ _ => hs.recent hS⟩) (Session.Inv.start h) hes

/-- two segments across the end of the sequence numbers, the second one first, and a read -/
theorem stream_integrity_reordered :
    let sock : Socket := ⟨1, none, none, none, none, [], .established, 0, 0, 0xFFFFFFFE, [], 65535, [], 0, true⟩
    let es : List Event := [.segment ⟨0, 0, TCP_ACK, [3, 4]⟩, .read 8, .segment ⟨0xFFFFFFFE, 0, TCP_ACK, [1, 2, 3]⟩]
    let s := run Session.step (Session.start sock) es
    s.appended <+: [1, 2, 3, 4, 5] ∧ s.sock.tcpRcvNxt = sock.tcpRcvNxt + UInt32.ofNat s.appended.length ∧
      s.sock.tcpRecvBuf.length ≤ TCP_MAX_RECV_BUF ∧ s.delivered ++ s.sock.tcpRecvBuf = s.appended := by
  refine stream_integrity [1, 2, 3, 4, 5] _ ⟨rfl, rfl, rfl⟩ _ ⟨⟨⟨by decide, 2, ?_⟩, ?_⟩, ⟨trivial, ?_⟩,
    ⟨⟨by decide, 0, ?_⟩, ?_⟩, trivial⟩
  · exact ⟨by decide, by decide, by unfold Near; decide⟩
  · intro seg _ e he
    cases he
  · rintro seg ⟨⟩
  · exact ⟨by decide, by decide, by unfold Near; decide⟩
  · intro seg _
    unfold Socket.Recent
    decide

/-- the second segment comes first, and a read takes what both have brought -/
theorem stream_integrity_of_short_reordered :
    let sock : Socket := ⟨1, none, none, none, none, [], .established, 0, 0, 0xFFFFFFFE, [], 65535, [], 0, true⟩
    let s := run Session.step (Session.start sock)
      [.segment ⟨0, 0, TCP_ACK, [3, 4]⟩, .segment ⟨0xFFFFFFFE, 0, TCP_ACK, [1, 2, 3]⟩, .read 8]
    s.delivered = [1, 2, 3, 4] ∧ s.Inv [1, 2, 3, 4] sock.tcpRcvNxt := by
  refine ⟨by decide +kernel, stream_integrity_of_short (by decide) ⟨rfl, rfl, rfl⟩
    ⟨⟨by decide, 2, by decide, by decide, ?_⟩, ⟨by decide, 0, by decide, by decide, ?_⟩, trivial, trivial⟩⟩
  · unfold Near
    decide
  · unfold Near
    decide

end Kontsnor.Net
