import MonitoringTool.Sniffer.PacketCustody
import MonitoringTool.Sniffer.TcpOrderCoverage

/-!
# Which packets `add_packet` keeps for `extractPair`

A packet that begins a request or a response is kept when it is hooked on its flow's chain
and a node of the order list points to it.  Two things prevent it.  A packet with a FIN is
counted, closes the flow and is freed, whatever payload it carries.  And `tcp_order` drops
a segment whose first and last sequence number, taken as plain 32-bit numbers, lie in the
run it is compared with; besides segments that are listed already, these are segments that
pass the end of the sequence space.
-/

namespace MonitoringTool.Sniffer

open Lib

/-- The packet is not freed, it is on the chain of its direction, and the order list of that
direction has got a node that points to it, perhaps cut. -/
def Kept (f : Flow) (now : Clock) (packet : PacketT) (src : Bool) : Prop :=
  (f.addPacket now packet src).freed = false ∧
    packet.addr ∈ (f.addPacket now packet src).flow.chain src ∧
    ∃ n p, n.pkt = some p ∧ p.CutFrom packet ∧
      ((f.addPacket now packet src).flow.order.dir src).nodes.Perm (n :: (f.order.dir src).nodes)

section

variable (f : Flow) (now : Clock) {packet : PacketT} {src : Bool}

/-- The packet hooked is on the chain. -/
theorem mem_hookChain (chain : List ℕ) (n : UInt32) (packet : PacketT) :
    packet.addr ∈ hookChain chain n packet := by
  unfold hookChain
  split <;> simp

/-- A stored packet is kept exactly when `tcp_order` does not drop it. -/
theorem Stored.kept_iff (h : Stored packet src) :
    Kept f now packet src ↔ ¬ HeldByRun (seqPkt packet) (f.order.dir src) := by
  have hfreed : (f.addPacket now packet src).freed = false := by
    simp [Flow.addPacket_freed f now packet src, h]
  have hchain : packet.addr ∈ (f.addPacket now packet src).flow.chain src := by
    rw [(Flow.addPacket_chain f now packet src src).1, if_pos ⟨h, rfl⟩]
    exact mem_hookChain _ _ packet
  unfold Kept
  rw [h.addPacket_dir f now, if_pos rfl]
  constructor
  · rintro ⟨-, -, n, p, -, -, hperm⟩ hheld
    rcases tcpOrderDir_runs (f.order.dir src) f.order.num (seqPkt packet) with ⟨-, hres⟩ |
      ⟨-, -, hret⟩ | ⟨_, _, _, _, _, -, -, -, -, -, -, hret⟩
    · rw [hres] at hperm
      have hlen := hperm.length_eq
      simp at hlen
    · exact absurd ((tcpOrderDir_ret_iff _ _ _).mpr hheld) (by rw [hret]; decide)
    · exact absurd ((tcpOrderDir_ret_iff _ _ _).mpr hheld) (by rw [hret]; decide)
  · intro hheld
    refine ⟨hfreed, hchain, ?_⟩
    rcases tcpOrderDir_perm (f.order.dir src) f.order.num (seqPkt packet) with
      hsame | ⟨n, hn, hpkt, hperm⟩
    · have hlen := tcpOrderDir_length f.order.num hheld
      rw [hsame] at hlen
      omega
    · obtain ⟨p, hp⟩ : ∃ p, n.pkt = some p := by
        have htype := hn.type
        rw [seqPkt_pkt] at htype
        cases hnpkt : n.pkt with
        | none => simp [hnpkt] at htype
        | some p => exact ⟨p, rfl⟩
      obtain ⟨q, hq, hcut⟩ := hpkt p hp
      obtain rfl : packet = q := by simpa using hq
      exact ⟨n, p, hp, hcut, hperm⟩

end

/-- **Which requests and responses are kept.**  Of the packets that begin a request or a
response, without a RST and no lone SYN of the source, `add_packet` keeps exactly those
without a FIN that `tcp_order` does not take for a retransmission.  Where the packet's range
does not pass the end of the sequence space and is not covered by the list, that is: those
without a FIN. -/
theorem addPacket_keeps_iff (f : Flow) (now : Clock) (packet : PacketT) (src : Bool)
    (htype : packet.type = REQ ∨ packet.type = RSP)
    (hrst : hasFlag packet.tcpFlags TH_RST = false)
    (hsyn : ¬ (src = true ∧ packet.tcpFlags = TH_SYN)) :
    (Kept f now packet src ↔ hasFlag packet.tcpFlags TH_FIN = false ∧
      ¬ HeldByRun (seqPkt packet) (f.order.dir src)) ∧
    (ZeroFollowed (f.order.dir src).nodes → (seqPkt packet).seq < (seqPkt packet).nxtSeq →
      ¬ (seqPkt packet).range ⊆ carried (f.order.dir src).nodes →
      (Kept f now packet src ↔ hasFlag packet.tcpFlags TH_FIN = false)) := by
  have htype' : packet.type ≠ 0 := by
    rcases htype with h | h <;> rw [h] <;> decide
  have hkept : Kept f now packet src ↔ hasFlag packet.tcpFlags TH_FIN = false ∧
      ¬ HeldByRun (seqPkt packet) (f.order.dir src) := by
    cases hfin : hasFlag packet.tcpFlags TH_FIN with
    | true =>
        have hfreed : (f.addPacket now packet src).freed = true := by
          simp [Flow.addPacket_freed f now packet src, Stored, hfin]
        exact iff_of_false (fun hk => by simp [hk.1] at hfreed) (by simp)
    | false =>
        have hst : Stored packet src := ⟨htype', hrst, hfin, hsyn⟩
        rw [hst.kept_iff f now]
        simp
  refine ⟨hkept, ?_⟩
  intro hzero hlt huncovered
  rw [hkept, and_iff_left_iff_imp]
  exact fun _ hheld => huncovered (hheld.range_subset hzero (UInt32.lt_iff_toNat_lt.mp hlt))

/-- The flow with the segments from 100 to 150 and from 200 to 250. -/
def gapFlow : Flow :=
  let first := (webFlow.addPacket ⟨10, 0⟩ (webPacket 1 true 100 0 50 REQ) true).flow
  (first.addPacket ⟨11, 0⟩ (webPacket 2 true 200 0 50 REQ) true).flow

/-- The request that closes the gap between them, and runs into both, is kept. -/
theorem addPacket_keeps_gap_request :
    Kept gapFlow ⟨12, 0⟩ (webPacket 3 true 140 0 80 REQ) true := by
  have hnodes : (gapFlow.order.dir true).nodes =
      [seqPkt (webPacket 1 true 100 0 50 REQ), seqPkt (webPacket 2 true 200 0 50 REQ)] := by
    decide
  have huncovered : ¬ (seqPkt (webPacket 3 true 140 0 80 REQ)).range ⊆
      carried (gapFlow.order.dir true).nodes := by
    rw [hnodes]
    intro hsub
    have hmem : 170 ∈ carried
        [seqPkt (webPacket 1 true 100 0 50 REQ), seqPkt (webPacket 2 true 200 0 50 REQ)] :=
      hsub ⟨by decide, by decide⟩
    obtain ⟨s, hs, hstart, hstop⟩ := mem_covered.mp hmem
    rcases List.mem_pair.mp hs with rfl | rfl
    · exact absurd hstop (by decide)
    · exact absurd hstart (by decide)
  have hzero : ZeroFollowed (gapFlow.order.dir true).nodes := by
    rw [hnodes]
    exact ⟨.cons_cons (by decide) (.singleton _), by decide⟩
  exact ((addPacket_keeps_iff gapFlow ⟨12, 0⟩ (webPacket 3 true 140 0 80 REQ) true (.inl rfl)
    (by decide) (by decide)).2 hzero (by decide) huncovered).mpr (by decide)

/-- The last segment of a response, with a FIN, is freed. -/
theorem addPacket_frees_last_response :
    ¬ ∀ (f : Flow) (now : Clock) (packet : PacketT) (src : Bool),
      (packet.type = REQ ∨ packet.type = RSP) → hasFlag packet.tcpFlags TH_RST = false →
      packet.tcpFlags ≠ TH_SYN →
      ¬ (seqPkt packet).range ⊆ carried (f.order.dir src).nodes → Kept f now packet src := by
  intro h
  have hkept := h webFlow ⟨10, 0⟩ { webPacket 1 false 100 150 50 RSP with tcpFlags := 0x11 } false
    (.inr rfl) (by decide) (by decide) fun hsub => by
      have hmem : 100 ∈ carried [] := hsub ⟨by decide, by decide⟩
      simp [carried] at hmem
  exact absurd hkept.1 (by decide)

end MonitoringTool.Sniffer
