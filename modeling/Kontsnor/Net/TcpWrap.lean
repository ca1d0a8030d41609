/-
A queued segment that outlives its sequence number.

The loop over the queue ends early when the next segment does not fit into the buffer, and then leaves segments behind
that were received in another way. If it ends so every time, such a segment is still there when its sequence number comes
up again, `2 ^ 32` bytes later, and is appended in the place of other bytes. `Socket.At` and `Session.At` follow a session
by its numbers.
-/
import Kontsnor.Net.TcpStream

namespace Kontsnor.Net

open Kontsnor.Serial List OooQueue Session Runs

/-! ## Sockets by their numbers -/

/-- an established socket that has received `r` bytes and has `b` of them in its buffer -/
structure Socket.At (isn : UInt32) (r b : ℕ) (queue : OooQueue) (sock : Socket) : Prop where
  mode : sock.mode = (1, .established)
  next : sock.tcpRcvNxt = number isn r
  buf : sock.tcpRecvBuf.length = b
  queue : sock.tcpOooQueue = queue

variable {isn : UInt32} {sock : Socket} {r b p : ℕ} {queue : OooQueue} {data : Bytes}

theorem oooReady_single {k curNxt : UInt32} (x : UInt8) (h : k ≠ curNxt) : oooReady curNxt (k, [x]) = false := by
  have hne : (k == curNxt) = false := by simpa using h
  have hlast : (decide (0x80000000 ≤ k - curNxt) && (decide (k + 1 - curNxt < 0x80000000) && k + 1 != curNxt)) = false := by
    by_contra hc
    simp only [Bool.not_eq_false, Bool.and_eq_true, decide_eq_true_eq, bne_iff_ne, ne_eq] at hc
    obtain ⟨h1, h2, h3⟩ := hc
    rw [UInt32.le_iff_toNat_le, UInt32.toNat_sub] at h1
    rw [← UInt32.toNat_inj, UInt32.toNat_add] at h3
    change 2 ^ 31 ≤ _ at h1
    change ¬ (_ + 1) % _ = _ at h3
    change (2 ^ 32 - curNxt.toNat + (k.toNat + 1) % 2 ^ 32) % 2 ^ 32 < 2 ^ 31 at h2
    have := curNxt.toNat_lt
    omega
  rw [oooReady, hne]
  exact hlast

theorem oooReady_of_le (hpr : p ≤ r) (hend : r < p + data.length) (hlen : data.length ≤ TCP_MAX_RECV_BUF) :
    oooReady (number isn r) (number isn p, data) = true := by
  have hM : TCP_MAX_RECV_BUF = 524288 := rfl
  have hnear : Near r p := ⟨by omega, by omega⟩
  have hnear' : Near r (p + data.length) := ⟨by omega, by omega⟩
  unfold oooReady
  simp only [← number_add, Bool.or_eq_true, beq_iff_eq, Bool.and_eq_true, decide_eq_true_eq, bne_iff_ne, ne_eq,
    number_inj isn hnear, number_inj isn hnear', behind_iff isn hnear, ← UInt32.not_le, behind_iff isn hnear']
  omega

theorem oooOverlap_of_le (hpr : p ≤ r) (hlt : r < p + 2 ^ 31) : oooOverlap (number isn r) (number isn p) = r - p := by
  have hnear : Near r p := ⟨by omega, by omega⟩
  rw [oooOverlap, sub_toNat_of_le isn hpr (by omega)]
  split_ifs with heq
  · have := (number_inj isn hnear).1 heq
    omega
  · rfl

theorem drainOoo_turn {k : UInt32} (hfind : sock.tcpOooQueue.find? (oooReady sock.tcpRcvNxt) = some (k, data))
    (hpos : 0 < data.length - oooOverlap sock.tcpRcvNxt k) :
    drainOoo sock =
      if sock.tcpRecvBuf.length + (data.length - oooOverlap sock.tcpRcvNxt k) ≤ TCP_MAX_RECV_BUF then
        drainOoo { sock with
          tcpOooQueue := sock.tcpOooQueue.remove k
          tcpRecvBuf := sock.tcpRecvBuf ++ data.drop (oooOverlap sock.tcpRcvNxt k)
          tcpRcvNxt := sock.tcpRcvNxt + UInt32.ofNat (data.drop (oooOverlap sock.tcpRcvNxt k)).length }
      else sock := by
  rw [drainOoo]
  split
  · rename_i h
    rw [hfind] at h
    cases h
  · rename_i h
    rw [hfind] at h
    cases h
    rw [if_pos hpos]

section

variable (h : sock.At isn r b queue) (hfind : queue.find? (oooReady (number isn r)) = some (number isn p, data)) (hpr : p ≤ r) (hend : r < p + data.length) (hlen : data.length ≤ TCP_MAX_RECV_BUF)
include h hfind hpr hend hlen

theorem Socket.At.move (hfits : b + (p + data.length - r) ≤ TCP_MAX_RECV_BUF) :
    ∃ sock' : Socket, drainOoo sock = drainOoo sock' ∧ sock'.At isn (p + data.length) (b + (p + data.length - r))
      (queue.remove (number isn p)) ∧ sock'.tcpRecvBuf = sock.tcpRecvBuf ++ data.drop (r - p) := by
  have hM : TCP_MAX_RECV_BUF = 524288 := rfl
  have hov : oooOverlap sock.tcpRcvNxt (number isn p) = r - p := by rw [h.next, oooOverlap_of_le hpr (by omega)]
  have hfind' : sock.tcpOooQueue.find? (oooReady sock.tcpRcvNxt) = some (number isn p, data) := by
    rw [h.queue, h.next, hfind]
  have hmove := (drainOoo_turn hfind' (by rw [hov]; omega)).trans (if_pos (by rw [hov, h.buf]; omega))
  rw [hov] at hmove
  refine ⟨_, hmove, ⟨h.mode, ?_, ?_, ?_⟩, rfl⟩
  · change sock.tcpRcvNxt + UInt32.ofNat (data.drop (r - p)).length = _
    rw [h.next, ← number_add, length_drop]
    congr 1
    omega
  · change (sock.tcpRecvBuf ++ data.drop (r - p)).length = _
    rw [length_append, h.buf, length_drop]
    omega
  · change sock.tcpOooQueue.remove _ = _
    rw [h.queue]

theorem Socket.At.full (hfull : TCP_MAX_RECV_BUF < b + (p + data.length - r)) : drainOoo sock = sock := by
  have hM : TCP_MAX_RECV_BUF = 524288 := rfl
  have hov : oooOverlap sock.tcpRcvNxt (number isn p) = r - p := by rw [h.next, oooOverlap_of_le hpr (by omega)]
  rw [drainOoo_turn (k := number isn p) (by rw [h.queue, h.next, hfind]) (by rw [hov]; omega)]
  exact if_neg (by rw [hov, h.buf]; omega)

end

/-! ## Sessions by their numbers -/

structure Session.At (isn : UInt32) (r b : ℕ) (queue : OooQueue) (s : Session) : Prop where
  sock : s.sock.At isn r b queue
  appended : s.appended.length = r

/-- a segment with the bytes of the stream at `p` -/
def segmentAt (S : Bytes) (isn : UInt32) (p n : ℕ) : Event := .segment ⟨number isn p, 0, TCP_ACK, (S.drop p).take n⟩

variable {S : Bytes} {s : Session} {n : ℕ}

theorem length_slice (h : p + n ≤ S.length) : ((S.drop p).take n).length = n := by
  rw [length_take, length_drop]
  omega

theorem Session.At.ofStream (h : s.At isn r b queue) (hnear : Near r p) : (segmentAt S isn p n).OfStream S isn s := by
  have hfin : hasFlag TCP_ACK TCP_FIN = false := by decide
  have hrst : hasFlag TCP_ACK TCP_RST = false := by decide
  refine ⟨⟨hfin, hrst⟩, p, rfl, take_prefix _ _, ?_⟩
  rw [h.appended]
  exact hnear

theorem processSegment_of_established (h : sock.mode = (1, .established)) (seq : UInt32) (data : Bytes) :
    ∃ wnd, (processSegment sock ⟨seq, 0, TCP_ACK, data⟩).1 =
      { (receivePayload { sock with tcpSndUna := 0 } seq data).1 with tcpRcvWnd := wnd } := by
  have hfin : hasFlag TCP_ACK TCP_FIN = false := by decide
  have hrst : hasFlag TCP_ACK TCP_RST = false := by decide
  have hack : hasFlag TCP_ACK TCP_ACK = true := by decide
  have htr : transition sock ⟨seq, 0, TCP_ACK, data⟩ = receivePayload { sock with tcpSndUna := 0 } seq data := by
    have hst : sock.tcpState = .established := (Prod.mk.inj h).2
    simp [transition, hst, processEstablished, Socket.acked, hfin, hrst, hack]
  rw [← htr]
  exact processSegment_eq sock _

section

variable (h : s.At isn r b queue)
include h

theorem Session.At.queueSegment (hrp : r < p) (hlt : p < r + 2 ^ 31) (hS : p + n ≤ S.length)
    (hn : 0 < n) (hused : queue.used + n ≤ TCP_MAX_RECV_BUF) :
    (s.step (segmentAt S isn p n)).At isn r b (queue.orInsert (number isn p) ((S.drop p).take n)) := by
  have hnear : Near r p := ⟨by omega, hlt⟩
  have hlen : ((S.drop p).take n).length = n := length_slice hS
  have hne : (S.drop p).take n ≠ [] := by
    intro h0
    rw [h0, length_nil] at hlen
    omega
  have hahead : ¬ 0x80000000 ≤ number isn p - number isn r := by rw [behind_iff isn hnear]; omega
  have hneq : number isn p ≠ number isn r := by rw [ne_eq, number_inj isn hnear]; omega
  obtain ⟨wnd, hproc⟩ := processSegment_of_established h.sock.mode (number isn p) ((S.drop p).take n)
  have hrec : (receivePayload { s.sock with tcpSndUna := 0 } (number isn p) ((S.drop p).take n)).1 =
      { s.sock with tcpSndUna := 0, tcpOooQueue := queue.orInsert (number isn p) ((S.drop p).take n) } := by
    have heff : effective s.sock.tcpRcvNxt (number isn p) ((S.drop p).take n) = (number isn p, (S.drop p).take n) := by
      rw [effective, h.sock.next, if_neg hahead]
    rw [receivePayload, if_neg hne, heff]
    dsimp only
    rw [h.sock.next, if_neg (by tauto), if_pos ⟨hne, UInt32.not_le.1 hahead⟩, h.sock.queue, hlen, if_pos hused]
  rw [hrec] at hproc
  refine ⟨⟨?_, ?_, ?_, ?_⟩, ?_⟩
  · rw [segmentAt, step, hproc]; exact h.sock.mode
  · rw [segmentAt, step, hproc]; exact h.sock.next
  · rw [segmentAt, step, hproc]; exact h.sock.buf
  · rw [segmentAt, step, hproc]
  · rw [segmentAt, step, hproc]
    simp [h.appended]

section

variable (hS : r + n ≤ S.length) (hn : 0 < n) (hfits : b + n ≤ TCP_MAX_RECV_BUF)
include hS hn hfits

theorem Session.At.appendSegment :
    ∃ sock1 : Socket, sock1.At isn (r + n) (b + n) queue ∧ sock1.tcpRecvBuf = s.sock.tcpRecvBuf ++ (S.drop r).take n ∧
      ∃ wnd, (s.step (segmentAt S isn r n)).sock = { drainOoo sock1 with tcpRcvWnd := wnd } := by
  have hlen : ((S.drop r).take n).length = n := length_slice hS
  have hne : (S.drop r).take n ≠ [] := by
    intro h0
    rw [h0, length_nil] at hlen
    omega
  have hat : ¬ 0x80000000 ≤ number isn r - number isn r := by
    rw [behind_iff isn ⟨by omega, by omega⟩]
    omega
  obtain ⟨wnd, hproc⟩ := processSegment_of_established h.sock.mode (number isn r) ((S.drop r).take n)
  have heff : effective s.sock.tcpRcvNxt (number isn r) ((S.drop r).take n) = (number isn r, (S.drop r).take n) := by
    rw [effective, h.sock.next, if_neg hat]
  rw [receivePayload, if_neg hne, heff] at hproc
  dsimp only at hproc
  rw [if_pos ⟨hne, h.sock.next.symm⟩, hlen, h.sock.buf, if_pos hfits] at hproc
  refine ⟨_, ⟨?_, ?_, ?_, ?_⟩, ?_, wnd, hproc⟩
  · exact h.sock.mode
  · exact (number_add isn r n).symm
  · simp [hlen, h.sock.buf]
  · exact h.sock.queue
  · rfl

theorem Session.At.step_append {c : ℕ} {queue' : OooQueue}
    (hdrain : ∀ sock1 : Socket, sock1.At isn (r + n) (b + n) queue → (drainOoo sock1).At isn (r + c) (b + c) queue') :
    (s.step (segmentAt S isn r n)).At isn (r + c) (b + c) queue' := by
  obtain ⟨sock1, h1, -, wnd, hstep⟩ := h.appendSegment hS hn hfits
  have h2 := hdrain sock1 h1
  have hsock : (s.step (segmentAt S isn r n)).sock.At isn (r + c) (b + c) queue' := by
    rw [hstep]
    exact { h2 with }
  refine ⟨hsock, ?_⟩
  change (s.appended ++ (s.step (segmentAt S isn r n)).sock.tcpRecvBuf.drop s.sock.tcpRecvBuf.length).length = _
  rw [length_append, length_drop, hsock.buf, h.sock.buf, h.appended]
  omega

end

theorem Session.At.step_read (hn : 0 < n) (hnb : n ≤ b) : (s.step (.read n)).At isn r (b - n) queue := by
  obtain ⟨hkind, hest⟩ := Prod.mk.inj h.sock.mode
  have hread : Net.read s.sock n = readStream s.sock n := by simp [Net.read, hkind, hest]
  have hr := readStream_reads s.sock n
  have hdata : (readStream s.sock n).2.1.data = s.sock.tcpRecvBuf.take (min n s.sock.tcpRecvBuf.length) := by
    have hne : s.sock.tcpRecvBuf ≠ [] := by
      rw [← length_pos_iff, h.sock.buf]
      omega
    rw [readStream, if_neg hne, takeBytes_data]
  have hbuf : (readStream s.sock n).1.tcpRecvBuf.length = b - n := by
    have hlen := congrArg length hr.buf
    rw [length_append, hdata, length_take, h.sock.buf] at hlen
    omega
  rw [step, hread]
  exact ⟨⟨hr.mode.trans h.sock.mode, hr.next.trans h.sock.next, hbuf, hr.queue.trans h.sock.queue⟩, h.appended⟩

end

/-! ## Around the sequence numbers -/

/-- the initial sequence number, and the number of bytes of the queued segments -/
def wrapIsn : UInt32 := 0xFFFFFFFF

def wrapLen : ℕ := 131072

theorem wrap_sizes : TCP_MAX_RECV_BUF = 524288 ∧ wrapLen = 131072 := ⟨rfl, rfl⟩

theorem number_wrapIsn (h : 0 < p) (hle : p ≤ 2 ^ 32) : (number wrapIsn p).toNat = p - 1 := by
  have hi : wrapIsn.toNat = 2 ^ 32 - 1 := rfl
  rw [number_toNat, hi]
  omega

theorem number_wrapIsn_ne {q : ℕ} (h : 0 < p) (hpq : p < q) (hq : q ≤ 2 ^ 32) :
    number wrapIsn p ≠ number wrapIsn q := by
  intro heq
  have hp := number_wrapIsn h (by omega)
  rw [heq, number_wrapIsn (by omega) hq] at hp
  omega

/-- the entry of the queue for the bytes at `p` -/
def queuedAt (S : Bytes) (p n : ℕ) : UInt32 × Bytes := (number wrapIsn p, (S.drop p).take n)

theorem orInsert_last (hq : ∀ e ∈ queue, ∃ p' m, e = queuedAt S p' m ∧ 0 < p' ∧ p' < p) (hp : p ≤ 2 ^ 32) :
    queue.orInsert (number wrapIsn p) ((S.drop p).take n) = queue ++ [queuedAt S p n] := by
  have hnew : (queue.any fun e => e.1 == number wrapIsn p) = false := by
    rw [any_eq_false]
    intro e he
    obtain ⟨p', m, rfl, h0, hlt⟩ := hq e he
    simpa [queuedAt] using number_wrapIsn_ne h0 hlt hp
  have hall : ∀ e ∈ queue, decide (e.1.toNat ≤ (number wrapIsn p).toNat) = true := by
    intro e he
    obtain ⟨p', m, rfl, h0, hlt⟩ := hq e he
    rw [decide_eq_true_iff, queuedAt, number_wrapIsn h0 (by omega), number_wrapIsn (by omega) hp]
    omega
  rw [orInsert, hnew, if_neg (by decide), Ascending.insertBy, takeWhile_eq_self_iff.2 hall, dropWhile_eq_nil_iff.2 hall]
  rfl

/-- the byte at 1, which is received and still queued -/
def oldByte (S : Bytes) : UInt32 × Bytes := queuedAt S 1 1

theorem oldByte_not_ready (hS : 2 ≤ S.length) (hr : 1 < r) (hle : r ≤ 2 ^ 32) :
    oooReady (number wrapIsn r) (oldByte S) = false := by
  have hlen : ((S.drop 1).take 1).length = 1 := length_slice (by omega)
  obtain ⟨x, hx⟩ := length_eq_one_iff.1 hlen
  rw [oldByte, queuedAt, hx]
  exact oooReady_single x (number_wrapIsn_ne (by omega) hr hle)

/-- of the old byte and a segment that is ready, the loop finds the segment -/
theorem find_oooReady (h0 : 1 < r) (hr : r ≤ 2 ^ 32) (hS : p + wrapLen ≤ S.length) (hpr : p ≤ r) (hend : r < p + wrapLen)
    (rest : OooQueue) : (oldByte S :: queuedAt S p wrapLen :: rest).find? (oooReady (number wrapIsn r)) =
      some (number wrapIsn p, (S.drop p).take wrapLen) := by
  obtain ⟨hM, hL⟩ := wrap_sizes
  have hlen : ((S.drop p).take wrapLen).length = wrapLen := length_slice hS
  have hready : oooReady (number wrapIsn r) (queuedAt S p wrapLen) = true :=
    oooReady_of_le hpr (by omega) (by omega)
  have hold : oooReady (number wrapIsn r) (oldByte S) = false := oldByte_not_ready (by omega) h0 hr
  rw [find?_cons_of_neg (by rw [hold]; decide), find?_cons_of_pos hready]
  rfl

/-- after `r` bytes: the old byte, and a segment at the receive point -/
def WrapState (S : Bytes) (r : ℕ) (s : Session) : Prop :=
  s.At wrapIsn r (TCP_MAX_RECV_BUF - wrapLen) [oldByte S, queuedAt S r wrapLen]

def stage (S : Bytes) (r : ℕ) : List Event :=
  [segmentAt S wrapIsn (r + wrapLen) wrapLen, segmentAt S wrapIsn r 1, .read wrapLen]

/-- the loop moves the segment at the receive point, and ends at the next one because the buffer is full -/
theorem drain_stage (h0 : 1 < r) (hr : r + wrapLen ≤ 2 ^ 32) (hS : r + 2 * wrapLen ≤ S.length)
    (h : sock.At wrapIsn (r + 1) (TCP_MAX_RECV_BUF - wrapLen + 1)
      [oldByte S, queuedAt S r wrapLen, queuedAt S (r + wrapLen) wrapLen]) :
    (drainOoo sock).At wrapIsn (r + wrapLen) TCP_MAX_RECV_BUF [oldByte S, queuedAt S (r + wrapLen) wrapLen] := by
  obtain ⟨hM, hL⟩ := wrap_sizes
  have hlen : ((S.drop r).take wrapLen).length = wrapLen := length_slice (by omega)
  have hlen' : ((S.drop (r + wrapLen)).take wrapLen).length = wrapLen := length_slice (by omega)
  have hfind := find_oooReady (S := S) (p := r) (r := r + 1) (by omega) (by omega) (by omega) (by omega) (by omega)
    [queuedAt S (r + wrapLen) wrapLen]
  obtain ⟨sock', hdrain, h', -⟩ := h.move hfind (by omega) (by omega) (by omega) (by omega)
  have hremove : remove [oldByte S, queuedAt S r wrapLen, queuedAt S (r + wrapLen) wrapLen] (number wrapIsn r) =
      [oldByte S, queuedAt S (r + wrapLen) wrapLen] := by
    have h1 : number wrapIsn 1 ≠ number wrapIsn r := number_wrapIsn_ne (by omega) h0 (by omega)
    have h2 : number wrapIsn (r + wrapLen) ≠ number wrapIsn r :=
      (number_wrapIsn_ne (by omega) (by omega) hr).symm
    simp [remove, oldByte, queuedAt, h1, h2]
  rw [hremove, hlen] at h'
  have hbuf : TCP_MAX_RECV_BUF - wrapLen + 1 + (r + wrapLen - (r + 1)) = TCP_MAX_RECV_BUF := by omega
  rw [hbuf] at h'
  have hfind' := find_oooReady (S := S) (p := r + wrapLen) (r := r + wrapLen) (by omega) hr (by omega) le_rfl
    (by omega) []
  rw [hdrain, h'.full hfind' (by omega) (by omega) (by omega) (by omega)]
  exact h'

/-- what the stream allows, whatever is queued -/
abbrev AnyEvent (S : Bytes) (isn : UInt32) (s : Session) (e : Event) : Prop := e.OfStream S isn s

theorem WrapState.stage (h : WrapState S r s) (h0 : 1 < r) (hr : r + wrapLen ≤ 2 ^ 32) (hS : r + 2 * wrapLen ≤ S.length) :
    Each step (AnyEvent S wrapIsn) s (stage S r) ∧ WrapState S (r + wrapLen) (run step s (Net.stage S r)) := by
  obtain ⟨hM, hL⟩ := wrap_sizes
  have hlen1 : ((S.drop 1).take 1).length = 1 := length_slice (by omega)
  have hlen : ((S.drop r).take wrapLen).length = wrapLen := length_slice (by omega)
  have hused : used [oldByte S, queuedAt S r wrapLen] = wrapLen + 1 := by
    simp only [used, oldByte, queuedAt, map_cons, map_nil, sum_cons, sum_nil, hlen1, hlen]
    omega
  have h1 := h.queueSegment (S := S) (p := r + wrapLen) (n := wrapLen) (by omega) (by omega) (by omega) (by omega)
    (by omega)
  rw [orInsert_last (by
    intro e he
    rcases mem_cons.1 he with rfl | he
    · exact ⟨1, 1, rfl, by omega, by omega⟩
    · rw [mem_singleton] at he
      exact ⟨r, wrapLen, he, by omega, by omega⟩) hr] at h1
  have h2 := h1.step_append (S := S) (n := 1) (c := wrapLen) (by omega) (by omega) (by omega)
    (fun sock1 hs => by
      have hd := drain_stage h0 hr hS hs
      rwa [show TCP_MAX_RECV_BUF - wrapLen + wrapLen = TCP_MAX_RECV_BUF by omega])
  have h3 := h2.step_read (n := wrapLen) (by omega) (by omega)
  refine ⟨⟨h.ofStream ⟨by omega, by omega⟩, h1.ofStream ⟨by omega, by omega⟩, trivial, trivial⟩, ?_⟩
  exact h3

/-- the stages from `r` on -/
def stages (S : Bytes) (r : ℕ) : ℕ → List Event
  | 0 => []
  | k + 1 => stage S r ++ stages S (r + wrapLen) k

theorem WrapState.stages {k : ℕ} (h : WrapState S r s) (h0 : 1 < r) (hr : r + k * wrapLen ≤ 2 ^ 32)
    (hS : 2 ^ 32 + wrapLen ≤ S.length) :
    Each step (AnyEvent S wrapIsn) s (stages S r k) ∧
      WrapState S (r + k * wrapLen) (run step s (Net.stages S r k)) := by
  induction k generalizing r s with
  | zero =>
    refine ⟨trivial, ?_⟩
    exact h
  | succ k ih =>
    have hsucc : (k + 1) * wrapLen = wrapLen + k * wrapLen := by ring
    obtain ⟨he, h1⟩ := h.stage h0 (by omega) (by omega)
    obtain ⟨hes, h2⟩ := ih h1 (by omega) (by omega)
    rw [Net.stages, run_append, hsucc, ← Nat.add_assoc]
    exact ⟨each_append.2 ⟨he, hes⟩, h2⟩

/-- the first bytes: the old byte and a segment behind a whole buffer are queued before the buffer is filled -/
def opening (S : Bytes) : List Event :=
  [segmentAt S wrapIsn 1 1, segmentAt S wrapIsn TCP_MAX_RECV_BUF wrapLen, segmentAt S wrapIsn 0 TCP_MAX_RECV_BUF,
    .read wrapLen]

theorem WrapState.opening (hS : 2 ^ 20 ≤ S.length) (h : s.At wrapIsn 0 0 []) :
    Each step (AnyEvent S wrapIsn) s (opening S) ∧ WrapState S TCP_MAX_RECV_BUF (run step s (Net.opening S)) := by
  obtain ⟨hM, hL⟩ := wrap_sizes
  have hlen1 : ((S.drop 1).take 1).length = 1 := length_slice (by omega)
  have hlen : ((S.drop TCP_MAX_RECV_BUF).take wrapLen).length = wrapLen := length_slice (by omega)
  have hused0 : used [] = 0 := rfl
  have hused : used [oldByte S] = 1 := by
    simp only [used, oldByte, queuedAt, map_cons, map_nil, sum_cons, sum_nil, hlen1, Nat.add_zero]
  have h1 := h.queueSegment (S := S) (p := 1) (n := 1) (by omega) (by omega) (by omega) (by omega) (by omega)
  rw [orInsert_last (fun e he => by cases he) (by omega)] at h1
  have h2 := h1.queueSegment (S := S) (p := TCP_MAX_RECV_BUF) (n := wrapLen) (by omega) (by omega) (by omega) (by omega)
    (by change used [oldByte S] + _ ≤ _; omega)
  rw [orInsert_last (by
    intro e he
    rw [nil_append, mem_singleton] at he
    exact ⟨1, 1, he, by omega, by omega⟩) (by omega)] at h2
  have h3 := h2.step_append (S := S) (n := TCP_MAX_RECV_BUF) (c := TCP_MAX_RECV_BUF) (by omega) (by omega) (by omega)
    (fun sock1 hs => by
      have hfind := find_oooReady (S := S) (p := TCP_MAX_RECV_BUF) (r := 0 + TCP_MAX_RECV_BUF) (by omega) (by omega)
        (by omega) (by omega) (by omega) []
      rw [hs.full hfind (by omega) (by omega) (by omega) (by omega)]
      exact hs)
  have h4 := h3.step_read (n := wrapLen) (by omega) (by omega)
  refine ⟨⟨h.ofStream ⟨by omega, by omega⟩, h1.ofStream ⟨by omega, by omega⟩, h2.ofStream ⟨by omega, by omega⟩, trivial,
    trivial⟩, ?_⟩
  exact h4

theorem drainOoo_extends (sock : Socket) : sock.tcpRecvBuf <+: (drainOoo sock).tcpRecvBuf := by
  fun_induction drainOoo sock with
  | case1 => exact prefix_rfl
  | case2 =>
    rename_i ih
    exact (prefix_append _ _).trans ih
  | case3 => exact prefix_rfl
  | case4 =>
    rename_i ih
    exact ih

theorem WrapState.oldByte_appended (h : WrapState S (2 ^ 32) s) (hS : 2 ^ 32 + 1 ≤ S.length) :
    s.appended ++ ((S.drop (2 ^ 32)).take 1 ++ (S.drop 1).take 1) <+:
      (s.step (segmentAt S wrapIsn (2 ^ 32) 1)).appended := by
  obtain ⟨hM, hL⟩ := wrap_sizes
  have hlen1 : ((S.drop 1).take 1).length = 1 := length_slice (by omega)
  obtain ⟨sock1, h1, hbuf, wnd, hstep⟩ := h.appendSegment hS (by omega) (by omega)
  have hnum : number wrapIsn (2 ^ 32 + 1) = number wrapIsn 1 := by decide
  have hold : oooReady (number wrapIsn 1) (oldByte S) = true := oooReady_of_le le_rfl (by omega) (by omega)
  have hfind : sock1.tcpOooQueue.find? (oooReady sock1.tcpRcvNxt) = some (number wrapIsn 1, (S.drop 1).take 1) := by
    rw [h1.queue, h1.next, hnum, find?_cons_of_pos hold]
    rfl
  have hov : oooOverlap sock1.tcpRcvNxt (number wrapIsn 1) = 0 := by rw [h1.next, hnum, oooOverlap, if_pos rfl]
  have hmove := (drainOoo_turn hfind (by rw [hov]; omega)).trans (if_pos (by rw [hov, h1.buf]; omega))
  have hext := drainOoo_extends { sock1 with
      tcpOooQueue := sock1.tcpOooQueue.remove (number wrapIsn 1)
      tcpRecvBuf := sock1.tcpRecvBuf ++ ((S.drop 1).take 1).drop (oooOverlap sock1.tcpRcvNxt (number wrapIsn 1))
      tcpRcvNxt := sock1.tcpRcvNxt +
        UInt32.ofNat (((S.drop 1).take 1).drop (oooOverlap sock1.tcpRcvNxt (number wrapIsn 1))).length }
  rw [← hmove] at hext
  change sock1.tcpRecvBuf ++ _ <+: _ at hext
  rw [hov, drop_zero, hbuf, append_assoc] at hext
  change _ <+: s.appended ++ (s.step (segmentAt S wrapIsn (2 ^ 32) 1)).sock.tcpRecvBuf.drop s.sock.tcpRecvBuf.length
  rw [hstep, prefix_append_right_inj]
  have hd := hext.drop s.sock.tcpRecvBuf.length
  rwa [drop_left] at hd

/-- all events: `2 ^ 32` bytes, and one more -/
def wrapEvents (S : Bytes) : List Event :=
  opening S ++ (stages S TCP_MAX_RECV_BUF 32764 ++ [segmentAt S wrapIsn (2 ^ 32) 1])

/-- a stream whose byte at `2 ^ 32 + 1` is not the one at 1 -/
def wrapStream : Bytes := 0 :: 1 :: replicate (2 ^ 32 + 2 ^ 20) 0

def wrapSocket : Socket where
  sockType := 1
  localAddr := none
  localPort := none
  remoteAddr := none
  remotePort := none
  udpRecvQueue := []
  tcpState := .established
  tcpSndUna := 0
  tcpSndNxt := 0
  tcpRcvNxt := wrapIsn
  tcpRecvBuf := []
  tcpRcvWnd := 65535
  tcpOooQueue := []
  soError := 0
  nonblocking := true

/-- a run over `2 ^ 32` bytes of any stream that is long enough -/
theorem wrapEvents_spec (hS : 2 ^ 32 + 2 ^ 20 ≤ S.length) :
    Each step (AnyEvent S wrapIsn) (start wrapSocket) (wrapEvents S) ∧
      ∃ head : Bytes, head.length = 2 ^ 32 ∧ head ++ ((S.drop (2 ^ 32)).take 1 ++ (S.drop 1).take 1) <+:
        (run step (start wrapSocket) (wrapEvents S)).appended := by
  obtain ⟨hM, hL⟩ := wrap_sizes
  have h0 : (start wrapSocket).At wrapIsn 0 0 [] := ⟨⟨rfl, by decide, rfl, rfl⟩, rfl⟩
  obtain ⟨he1, h1⟩ := WrapState.opening (S := S) (by omega) h0
  obtain ⟨he2, h2⟩ := h1.stages (k := 32764) (by omega) (by omega) (by omega)
  have hr : TCP_MAX_RECV_BUF + 32764 * wrapLen = 2 ^ 32 := by omega
  have he3 := h2.ofStream (S := S) (p := 2 ^ 32) (n := 1) ⟨by omega, by omega⟩
  refine ⟨each_append.2 ⟨he1, each_append.2 ⟨he2, he3, trivial⟩⟩, _, h2.appended, ?_⟩
  rw [wrapEvents, run_append, run_append]
  exact h2.oldByte_appended (by omega)

/-- the appended bytes have the byte at 1 in the place of the one at `2 ^ 32 + 1` -/
theorem wrapEvents_corrupt (hS : 2 ^ 32 + 2 ^ 20 ≤ S.length) (hne : S[1]? ≠ S[2 ^ 32 + 1]?) :
    ¬ (run step (start wrapSocket) (wrapEvents S)).appended <+: S := by
  intro hpre
  obtain ⟨-, head, hlen, hhead⟩ := wrapEvents_spec hS
  have hlen' : ((S.drop (2 ^ 32)).take 1).length = 1 := length_slice (by omega)
  have hold : ((S.drop 1).take 1)[0]? = S[1]? := by
    rw [getElem?_take_of_lt Nat.one_pos, getElem?_drop]
  have hget : (head ++ ((S.drop (2 ^ 32)).take 1 ++ (S.drop 1).take 1))[2 ^ 32 + 1]? = S[1]? := by
    rw [getElem?_append_right (by omega), hlen, getElem?_append_right (by omega), hlen',
      show 2 ^ 32 + 1 - 2 ^ 32 - 1 = 0 by omega, hold]
  have hlt : 2 ^ 32 + 1 < (head ++ ((S.drop (2 ^ 32)).take 1 ++ (S.drop 1).take 1)).length := by
    rw [length_append, length_append, hlen, hlen', length_slice (by omega)]
    omega
  obtain ⟨t, ht⟩ := hhead.trans hpre
  apply hne
  rw [← hget, ← getElem?_append_left hlt, ht]

/-- **A queued segment that outlives its sequence number.** The byte at 1 is queued, and received with the segment that
fills the buffer. It stays in the queue while the next segment never fits; after `2 ^ 32` bytes it is appended again. -/
theorem wrapped_segment_appended :
    wrapSocket.Fresh ∧
      Each step (fun s e => e.OfStream wrapStream wrapSocket.tcpRcvNxt s) (start wrapSocket)
        (wrapEvents wrapStream) ∧
      ¬ (run step (start wrapSocket) (wrapEvents wrapStream)).appended <+: wrapStream := by
  have hS : 2 ^ 32 + 2 ^ 20 ≤ wrapStream.length := by
    rw [wrapStream, length_cons, length_cons, length_replicate]
    omega
  refine ⟨⟨rfl, rfl, rfl⟩, (wrapEvents_spec hS).1, wrapEvents_corrupt hS ?_⟩
  have h1 : wrapStream[1]? = some 1 := rfl
  have h2 : wrapStream[2 ^ 32 + 1]? = some 0 := by
    rw [wrapStream, getElem?_cons, getElem?_cons, if_neg (by omega), if_neg (by omega),
      getElem?_replicate_of_lt (by omega)]
  rw [h1, h2]
  decide

end Kontsnor.Net
