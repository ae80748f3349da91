import MonitoringTool.Sniffer.FrameReads

/-!
# The length of a payload

`packet_preprocess` computes `tcp_dl` twice: from the total length in the IP header, and,
if the payload is recognised, once more from the number of bytes captured.  The second
counts the padding behind the IP packet as payload.

`payload_length_right_iff` says exactly for which frames the packet carries the length of
its TCP payload, which is what `seq_pkt` computes the next sequence number from.
-/

namespace MonitoringTool.Sniffer

/-- The length of the TCP payload that the headers give. -/
def PacketT.payloadLength (pkt : PacketT) : ℕ :=
  pkt.ipTol.toNat - pkt.ipHl.toNat - pkt.tcpHl.toNat

/-- The number that acknowledges the whole segment. -/
def PacketT.answerAck (pkt : PacketT) : UInt32 :=
  let payloadEnd := pkt.tcpSeq + UInt32.ofNat pkt.payloadLength
  if hasFlag pkt.tcpFlags TH_SYN || hasFlag pkt.tcpFlags TH_FIN then payloadEnd + 1 else payloadEnd

/-- The protocol of the payload takes it for a request or a response. -/
def Payload.Recognised (x : Payload) : Prop :=
  (x.protocol.isRequest x.cp x.pkt.tcpDl.toNat).any Option.isSome ∨
    (x.protocol.isResponse x.cp x.pkt.tcpDl.toNat).any Option.isSome

/-- The frame was captured as a whole, and its IP packet is no shorter than its headers. -/
structure Payload.Complete (x : Payload) (rawPkt : RawPkt) : Prop where
  captured : ETHHDR_SIZE + x.pkt.ipTol.toNat ≤ rawPkt.caplen.toNat
  headers : x.pkt.ipHl.toNat + x.pkt.tcpHl.toNat ≤ x.pkt.ipTol.toNat

/-! ## The packet that is put on the queue -/

/-- The headers of a payload's packet are those of the frame, and the payload begins behind
them. -/
theorem payloadOf_headers {protocols : List Protocol} {rawPkt : RawPkt} {x : Payload}
    (h : payloadOf protocols rawPkt = some x) :
    x.pkt.rawLen = rawPkt.caplen ∧
      x.pkt.tcpDl = x.pkt.ipTol - x.pkt.ipHl.toUInt16 - x.pkt.tcpHl.toUInt16 ∧
      x.cp = rawPkt.raw.drop (ETHHDR_SIZE + x.pkt.ipHl.toNat + x.pkt.tcpHl.toNat) :=
  (parseHeaders_packet (payloadOf_parsed h)).2

/-- `classify` replaces the length of a recognised payload, and no other. -/
theorem classify_tcpDl {x : Payload} {pkt : PacketT}
    (h : classify x.protocol x.cp x.pkt = some pkt) :
    x.Recognised ∧ pkt.tcpDl = capturedDl x.pkt ∨
      ¬ x.Recognised ∧ pkt.tcpDl = x.pkt.tcpDl := by
  unfold classify Protocol.isHeaderPacket at h
  unfold Payload.Recognised
  cases hreq : x.protocol.isRequest x.cp x.pkt.tcpDl.toNat with
  | none => simp [hreq] at h
  | some req =>
      cases hrsp : x.protocol.isResponse x.cp x.pkt.tcpDl.toNat with
      | none => simp [hreq, hrsp] at h
      | some rsp =>
          cases req with
          | some k =>
              obtain ⟨-, rfl⟩ := copyPayload_eq (by simpa [hreq, hrsp] using h)
              exact .inl ⟨by simp, rfl⟩
          | none =>
              cases rsp with
              | some k =>
                  obtain ⟨-, rfl⟩ := copyPayload_eq (by simpa [hreq, hrsp] using h)
                  exact .inl ⟨by simp, rfl⟩
              | none =>
                  obtain rfl : { x.pkt with tcpOdata := none, tcpData := none } = pkt := by
                    simpa [hreq, hrsp] using h
                  exact .inr ⟨by simp, rfl⟩

/-- The packet on the queue is the classified one. -/
theorem enqueued_eq {protocols : List Protocol} {rawPkt : RawPkt} {x : Payload} {k : ℕ}
    {pkt : PacketT} (hx : payloadOf protocols rawPkt = some x)
    (henq : packetPreprocess protocols rawPkt = some (some (k, pkt))) :
    classify x.protocol x.cp x.pkt = some pkt := by
  rcases packetPreprocess_cases protocols rawPkt with ⟨x', hx', hpre⟩ | ⟨hnone, -⟩
  · obtain rfl := Option.some.inj (hx.symm.trans hx')
    obtain ⟨pkt', hclassify, heq⟩ := Option.map_eq_some_iff.mp (hpre.symm.trans henq)
    obtain ⟨-, rfl⟩ := Prod.mk.inj (Option.some.inj heq)
    exact hclassify
  · rw [hx] at hnone
    cases hnone

/-- Two lengths of 16 bits give the same next sequence number only if they are the same. -/
theorem seqPkt_nxtSeq_eq_iff (pkt : PacketT) (hlt : pkt.payloadLength < 2 ^ 16) :
    (seqPkt pkt).nxtSeq = pkt.answerAck ↔ pkt.tcpDl.toNat = pkt.payloadLength := by
  have hlen : UInt32.ofNat pkt.payloadLength = pkt.tcpDl.toUInt32 ↔
      pkt.tcpDl.toNat = pkt.payloadLength := by
    have hdl := pkt.tcpDl.toNat_lt
    rw [← UInt32.toNat_inj, UInt32.toNat_ofNat', UInt16.toNat_toUInt32]
    omega
  rw [← hlen]
  unfold seqPkt PacketT.answerAck
  dsimp only
  split
  · rw [UInt32.add_left_inj, UInt32.add_right_inj, eq_comm]
  · rw [UInt32.add_right_inj, eq_comm]

/-- **When a packet carries the length of its payload.**  Of a frame captured as a whole,
the packet that is put on a queue has the payload's length for `tcp_dl`, and so a next
sequence number that agrees with the peer's acknowledgement, exactly if the payload was
not recognised, or the frame is as long as its IP packet (in the 16 bits of `tcp_dl`). -/
theorem payload_length_right_iff {protocols : List Protocol} {rawPkt : RawPkt} {x : Payload}
    {k : ℕ} {pkt : PacketT} (hx : payloadOf protocols rawPkt = some x)
    (hcomplete : x.Complete rawPkt)
    (henq : packetPreprocess protocols rawPkt = some (some (k, pkt))) :
    (pkt.tcpDl.toNat = pkt.payloadLength ↔ ¬ x.Recognised ∨
        rawPkt.caplen.toNat % 2 ^ 16 = (ETHHDR_SIZE + x.pkt.ipTol.toNat) % 2 ^ 16) ∧
      ((seqPkt pkt).nxtSeq = pkt.answerAck ↔ ¬ x.Recognised ∨
        rawPkt.caplen.toNat % 2 ^ 16 = (ETHHDR_SIZE + x.pkt.ipTol.toNat) % 2 ^ 16) := by
  obtain ⟨hrawLen, htcpDl, -⟩ := payloadOf_headers hx
  have hclassify := enqueued_eq hx henq
  have hsame := (classify_spec (payloadOf_type hx) hclassify).1
  obtain ⟨hcaptured, hheaders⟩ := hcomplete
  have htol := x.pkt.ipTol.toNat_lt
  have hlen : pkt.payloadLength = x.pkt.payloadLength := by rw [hsame]; rfl
  have hlt : pkt.payloadLength < 2 ^ 16 := by
    rw [hlen, PacketT.payloadLength]
    omega
  rw [seqPkt_nxtSeq_eq_iff pkt hlt, and_self_iff, hlen, PacketT.payloadLength]
  unfold ETHHDR_SIZE at hcaptured ⊢
  rcases classify_tcpDl hclassify with ⟨hrec, hdl⟩ | ⟨hrec, hdl⟩
  · have hcaptured' := toNat_capturedDl x.pkt (by rw [hrawLen]; omega)
    rw [hdl, hcaptured', hrawLen]
    simp only [hrec, not_true_eq_false, false_or]
    omega
  · rw [hdl, htcpDl, toNat_sub_headers hheaders]
    simp [hrec]

/-- A client's segment of five bytes that says `COM_QUIT`, with the bytes `padding` behind
its IP packet. -/
def comQuit (padding : List UInt8) : RawPkt where
  raw := List.replicate 12 0 ++ [0x08, 0x00] ++
    ([0x45, 0x00, 0x00, 45] ++ List.replicate 5 0 ++ [0x06] ++ List.replicate 10 0) ++
    ([0x12, 0x34, 0x0c, 0xea] ++ List.replicate 8 0 ++ [0x50, 0x18] ++ List.replicate 6 0) ++
    [0x01, 0x00, 0x00, 0x00, 0x01] ++ padding
  tvSec := 0
  tvUsec := 0
  caplen := UInt32.ofNat (59 + padding.length)
  addr := 0

/-- Its payload. -/
def comQuitPayload (padding : List UInt8) : Payload where
  pkt :=
    { addr := 0, capSec := 0, capUsec := 0, rawLen := UInt32.ofNat (59 + padding.length)
      saddr := 0, daddr := 0, sport := 0x1234, dport := 3306, ipHl := 20, ipTol := 45, ipPro := 6
      tcpSeq := 0, tcpAck := 0, tcpFlags := 0x18, tcpHl := 20, tcpDl := 5, type := 0
      tcpOdata := none, tcpData := none }
  cp := [0x01, 0x00, 0x00, 0x00, 0x01] ++ padding
  protocol := Protocol.mySql
  index := 0

/-- The packet it is put on the queue as. -/
def comQuitPkt (padding : List UInt8) : PacketT :=
  { (comQuitPayload padding).pkt with
    type := REQ
    tcpDl := UInt16.ofNat (5 + padding.length)
    tcpOdata := some ([0x01, 0x00, 0x00, 0x00, 0x01] ++ padding ++ [0])
    tcpData := some 0 }

/-- Without padding the length is right. -/
theorem payload_length_right_unpadded :
    (comQuitPkt []).tcpDl.toNat = (comQuitPkt []).payloadLength ∧
      (seqPkt (comQuitPkt [])).nxtSeq = (comQuitPkt []).answerAck := by
  have hright := payload_length_right_iff
    (by decide : payloadOf [Protocol.mySql] (comQuit []) = some (comQuitPayload []))
    ⟨by decide, by decide⟩
    (by decide : packetPreprocess [Protocol.mySql] (comQuit []) = some (some (0, comQuitPkt [])))
  exact ⟨hright.1.mpr (.inr (by decide)), hright.2.mpr (.inr (by decide))⟩

/-- In a frame of the Ethernet minimum of 60 bytes, the byte of padding is counted. -/
theorem payload_length_counts_padding :
    ¬ ∀ (protocols : List Protocol) (rawPkt : RawPkt) (x : Payload) (k : ℕ) (pkt : PacketT),
      rawPkt.raw.length = rawPkt.caplen.toNat → payloadOf protocols rawPkt = some x →
      x.Complete rawPkt → packetPreprocess protocols rawPkt = some (some (k, pkt)) →
      pkt.tcpDl.toNat = pkt.payloadLength := by
  intro hall
  have hlen := hall [Protocol.mySql] (comQuit [0]) (comQuitPayload [0]) 0 (comQuitPkt [0])
    (by decide) (by decide) ⟨by decide, by decide⟩ (by decide)
  exact absurd hlen (by decide)

end MonitoringTool.Sniffer
