/-
The acknowledgements that `process_segment` believes.

**Main result.** `ack_validated_iff`: it takes every acknowledgement number for one of its own.
-/
import Kontsnor.Net.Tcp

namespace Kontsnor.Net

variable (sock : Socket) (seg : Segment)

/-- from `tcp_snd_una` to `tcp_snd_nxt`, modulo `2 ^ 32` -/
def Socket.Sent (n : UInt32) : Prop := n - sock.tcpSndUna ≤ sock.tcpSndNxt - sock.tcpSndUna

/-- the connection is open as soon as the SYN is acknowledged -/
def Socket.opening : Bool := sock.tcpState == .synSent || sock.tcpState == .synReceived

/-- `tcp_snd_una` stays among what was sent, and the socket becomes `Established` on an acknowledgement of its SYN only, which
has the number `tcp_snd_una` -/
def AckValidated : Prop :=
  sock.Sent (processSegment sock seg).1.tcpSndUna ∧
    (sock.opening = true → (processSegment sock seg).1.tcpState = .established →
      hasFlag seg.flags TCP_ACK = true ∧ sock.Sent seg.ack ∧ seg.ack ≠ sock.tcpSndUna)

/-- the acknowledgement number of the segment is stored -/
def takesAck : Bool :=
  hasFlag seg.flags TCP_ACK && match sock.tcpState with
  | .synSent => hasFlag seg.flags TCP_SYN && !hasFlag seg.flags TCP_RST
  | .established => !hasFlag seg.flags TCP_RST
  | .synReceived | .finWait1 => true
  | _ => false

theorem drainOoo_tcpSndUna : (drainOoo sock).tcpSndUna = sock.tcpSndUna := by
  fun_induction drainOoo sock with
  | case1 | case3 => rfl
  | case2 | case4 =>
    rename_i ih
    exact ih

theorem receivePayload_tcpSndUna {seq : UInt32} {payload : Bytes} :
    (receivePayload sock seq payload).1.tcpSndUna = sock.tcpSndUna := by
  unfold receivePayload
  split_ifs
  · rfl
  dsimp only
  split_ifs
  · exact drainOoo_tcpSndUna _
  all_goals rfl

theorem transition_tcpSndUna : (transition sock seg).1.tcpSndUna = if takesAck sock seg then seg.ack else sock.tcpSndUna := by
  cases hst : sock.tcpState
  case established =>
    simp only [transition, takesAck, hst, processEstablished]
    cases hrst : hasFlag seg.flags TCP_RST
    · have hacked : (receivePayload (sock.acked seg) seg.seq seg.payload).1.tcpSndUna = (sock.acked seg).tcpSndUna :=
        receivePayload_tcpSndUna _
      cases hack : hasFlag seg.flags TCP_ACK <;> cases hfin : hasFlag seg.flags TCP_FIN <;>
        simpa [Socket.acked, hack, hfin] using hacked
    · simp
  all_goals
    cases hrst : hasFlag seg.flags TCP_RST <;> cases hack : hasFlag seg.flags TCP_ACK <;>
      cases hsyn : hasFlag seg.flags TCP_SYN <;> cases hfin : hasFlag seg.flags TCP_FIN <;>
        simp [transition, takesAck, hst, hrst, hack, hsyn, hfin]

theorem transition_established (h : sock.opening = true) :
    (transition sock seg).1.tcpState = .established ↔ takesAck sock seg = true := by
  have hst : sock.tcpState = .synSent ∨ sock.tcpState = .synReceived := by simpa [Socket.opening] using h
  rcases hst with hst | hst
  · cases hrst : hasFlag seg.flags TCP_RST <;> cases hack : hasFlag seg.flags TCP_ACK <;>
      cases hsyn : hasFlag seg.flags TCP_SYN <;> simp [transition, takesAck, hst, hrst, hack, hsyn]
  · cases hack : hasFlag seg.flags TCP_ACK <;> simp [transition, takesAck, hst, hack]

/-- **Acknowledgements.** They are validated exactly if the number that is stored is one that was sent, and not that of the SYN. -/
theorem ack_validated_iff : AckValidated sock seg ↔
    (takesAck sock seg = true → sock.Sent seg.ack ∧ (sock.opening = true → seg.ack ≠ sock.tcpSndUna)) := by
  obtain ⟨wnd, hproc⟩ := processSegment_eq sock seg
  unfold AckValidated
  rw [hproc]
  rw [transition_tcpSndUna]
  by_cases ht : takesAck sock seg = true
  · rw [if_pos ht]
    refine ⟨fun h _ => ⟨h.1, fun hop => ?_⟩, fun h => ⟨(h ht).1, fun hop _ => ?_⟩⟩
    · exact (h.2 hop ((transition_established sock seg hop).2 ht)).2.2
    · exact ⟨(Bool.and_eq_true_iff.1 ht).1, (h ht).1, (h ht).2 hop⟩
  · rw [if_neg ht]
    refine iff_of_true ⟨?_, fun hop hest => ?_⟩ fun h => absurd h ht
    · simp [Socket.Sent]
    · exact absurd ((transition_established sock seg hop).1 hest) ht

/-- an acknowledgement of what was never sent opens a connection -/
theorem blind_ack_accepted : ∃ sock : Socket, sock.tcpState = .synSent ∧ ¬AckValidated sock ⟨7, 9, TCP_SYN ||| TCP_ACK, []⟩ := by
  refine ⟨⟨1, none, none, none, none, [], .synSent, 1000, 1001, 0, [], 0, [], 0, false⟩, rfl, fun h => ?_⟩
  exact absurd (h.2 rfl rfl).2.1 (by unfold Socket.Sent; decide)

end Kontsnor.Net
