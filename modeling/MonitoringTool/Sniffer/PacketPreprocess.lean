import MonitoringTool.Sniffer.Packet
import MonitoringTool.Sniffer.Protocols

/-!
# `packet_preprocess`

A captured frame is parsed into a `packet_t`: Ethernet, IP and TCP headers, then
the protocol whose port it has, and for a payload that protocol's guess whether it
begins a request or a response.  `parseHeaders` is the part before the protocols,
`classify` what one protocol does with a payload, and `packetPreprocess` the whole:
the protocol whose queue the packet is put on, and the packet.

The frame is the memory from `raw_data` on; a read behind it is a fault, the outer
`none`.
-/

namespace MonitoringTool.Sniffer

/-! ## Headers -/

/-- `raw_pkt`, with the name of the packet object that `packet_new` allocates. -/
structure RawPkt where
  raw : List UInt8
  tvSec : Int
  tvUsec : Int
  caplen : UInt32
  addr : ℕ
  deriving DecidableEq

/-- `ntohs` of the two bytes at `i`. -/
def readU16 (mem : List UInt8) (i : ℕ) : Option UInt16 := do
  return (← mem[i]?).toUInt16 <<< 8 ||| (← mem[i + 1]?).toUInt16

/-- `ntohl` of the four bytes at `i`. -/
def readU32 (mem : List UInt8) (i : ℕ) : Option UInt32 := do
  return (← readU16 mem i).toUInt32 <<< 16 ||| (← readU16 mem (i + 2)).toUInt32

/-- `sizeof(ethhdr)`. -/
def ETHHDR_SIZE : ℕ := 14

/-- The members of `iphdr` that `packet_preprocess` reads. -/
structure IpHdr where
  ihl : UInt8
  totLen : UInt16
  protocol : UInt8
  saddr : UInt32
  daddr : UInt32
  deriving DecidableEq

/-- The members of `tcphdr` that `packet_preprocess` reads. -/
structure TcpHdr where
  thSport : UInt16
  thDport : UInt16
  thSeq : UInt32
  thAck : UInt32
  thOff : UInt8
  thFlags : UInt8
  deriving DecidableEq

/-- The type in the Ethernet header, `packet_parse_ethhdr`. -/
def parseEtherType (p : List UInt8) : Option UInt16 := readU16 p 12

/-- `packet_parse_iphdr`. -/
def parseIphdr (p : List UInt8) : Option IpHdr := do
  return {
    ihl := (← p[0]?) &&& 0x0f
    totLen := ← readU16 p 2
    protocol := ← p[9]?
    saddr := ← readU32 p 12
    daddr := ← readU32 p 16 }

/-- `packet_parse_tcphdr`; it reads the header up to its urgent pointer. -/
def parseTcphdr (p : List UInt8) : Option TcpHdr := do
  let _thUrp ← readU16 p 18
  let dataOffset : UInt8 ← p[12]?
  return {
    thSport := ← readU16 p 0
    thDport := ← readU16 p 2
    thSeq := ← readU32 p 4
    thAck := ← readU32 p 8
    thOff := dataOffset >>> 4
    thFlags := ← p[13]? }

/-- `packet_preprocess` up to the protocols: the packet and the memory behind its
TCP header, or nothing if the frame carries no TCP. -/
def parseHeaders (rawPkt : RawPkt) : Option (Option (PacketT × List UInt8)) := do
  if (← parseEtherType rawPkt.raw) ≠ 0x0800 then return none
  let cp := rawPkt.raw.drop ETHHDR_SIZE
  let ipHdr ← parseIphdr cp
  if ipHdr.protocol ≠ 0x06 then return none
  let ipHl := ipHdr.ihl <<< 2
  let cp := cp.drop ipHl.toNat
  let tcpHdr ← parseTcphdr cp
  let tcpHl := tcpHdr.thOff <<< 2
  return some (
    { addr := rawPkt.addr
      capSec := rawPkt.tvSec
      capUsec := rawPkt.tvUsec
      rawLen := rawPkt.caplen
      saddr := ipHdr.saddr
      daddr := ipHdr.daddr
      sport := tcpHdr.thSport
      dport := tcpHdr.thDport
      ipHl := ipHl
      ipTol := ipHdr.totLen
      ipPro := ipHdr.protocol
      tcpSeq := tcpHdr.thSeq
      tcpAck := tcpHdr.thAck
      tcpFlags := tcpHdr.thFlags
      tcpHl := tcpHl
      tcpDl := ipHdr.totLen - ipHl.toUInt16 - tcpHl.toUInt16
      type := 0
      tcpOdata := none
      tcpData := none }, cp.drop tcpHl.toNat)

/-! ## Classification -/

/-- The copy of `tcp_dl` bytes of the payload, with a zero behind it. -/
def copyPayload (cp : List UInt8) (pkt : PacketT) : Option PacketT :=
  if pkt.tcpDl.toNat ≤ cp.length then
    some { pkt with tcpOdata := some (cp.take pkt.tcpDl.toNat ++ [0]), tcpData := some 0 }
  else none

/-- The length that a packet with a header end gets: what was captured behind the
three headers. -/
def capturedDl (pkt : PacketT) : UInt16 :=
  (pkt.rawLen - (pkt.ipHl.toUInt32 + pkt.tcpHl.toUInt32 + 14)).toUInt16

/-- What `packet_preprocess` does with a payload of a protocol: `isRequest` is tried
before `isResponse`. -/
def classify (protocol : Protocol) (cp : List UInt8) (pkt : PacketT) : Option PacketT := do
  if ← protocol.isHeaderPacket cp pkt.tcpDl.toNat then
    match ← protocol.isRequest cp pkt.tcpDl.toNat with
    | some _ => copyPayload cp { pkt with type := REQ, tcpDl := capturedDl pkt }
    | none =>
        match ← protocol.isResponse cp pkt.tcpDl.toNat with
        | some _ => copyPayload cp { pkt with type := RSP, tcpDl := capturedDl pkt }
        | none => copyPayload cp pkt
  else return { pkt with tcpOdata := none, tcpData := none }

/-- The first protocol that has a port of the packet, with its index. -/
def protocolOf (protocols : List Protocol) (pkt : PacketT) : Option (Protocol × ℕ) :=
  protocols.zipIdx.find? fun p => p.1.isPacketOf pkt.sport pkt.dport

/-- `packet_preprocess`: the index of the protocol on whose queue the packet is put,
and the packet, if it carries a payload of a protocol. -/
def packetPreprocess (protocols : List Protocol) (rawPkt : RawPkt) :
    Option (Option (ℕ × PacketT)) := do
  match ← parseHeaders rawPkt with
  | none => return none
  | some (pkt, cp) =>
      match protocolOf protocols pkt with
      | none => return none
      | some (protocol, k) =>
          if pkt.tcpDl = 0 then return none
          else return some (k, ← classify protocol cp pkt)

/-! ## What the classification says -/

section Classification

variable {protocol : Protocol} {cp : List UInt8} {pkt pkt' : PacketT}

/-- `isRequest` accepts the payload, and neither `isResponse` nor the copy of what
was captured of it reads behind the frame. -/
def TakenForRequest (protocol : Protocol) (cp : List UInt8) (pkt : PacketT) : Prop :=
  (protocol.isRequest cp pkt.tcpDl.toNat).any Option.isSome ∧
    (protocol.isResponse cp pkt.tcpDl.toNat).isSome ∧ (capturedDl pkt).toNat ≤ cp.length

/-- `isRequest` rejects the payload, `isResponse` accepts it, and the copy of what
was captured of it does not read behind the frame. -/
def TakenForResponse (protocol : Protocol) (cp : List UInt8) (pkt : PacketT) : Prop :=
  protocol.isRequest cp pkt.tcpDl.toNat = some none ∧
    (protocol.isResponse cp pkt.tcpDl.toNat).any Option.isSome ∧
      (capturedDl pkt).toNat ≤ cp.length

instance : Decidable (TakenForRequest protocol cp pkt) := by
  unfold TakenForRequest
  infer_instance

instance : Decidable (TakenForResponse protocol cp pkt) := by
  unfold TakenForResponse
  infer_instance

theorem copyPayload_eq (h : copyPayload cp pkt = some pkt') :
    pkt.tcpDl.toNat ≤ cp.length ∧
      pkt' = { pkt with tcpOdata := some (cp.take pkt.tcpDl.toNat ++ [0]), tcpData := some 0 } := by
  unfold copyPayload at h
  split at h
  · next hle => exact ⟨hle, (Option.some.inj h).symm⟩
  · cases h

/-- What `classify` may change in a packet. -/
def PacketT.Classified (pkt pkt' : PacketT) : Prop :=
  pkt' = { pkt with
    type := pkt'.type
    tcpDl := pkt'.tcpDl
    tcpOdata := pkt'.tcpOdata
    tcpData := pkt'.tcpData }

/-- **The type of a packet is the guess of its protocol.** -/
theorem classify_spec (hnew : pkt.type = 0) (h : classify protocol cp pkt = some pkt') :
    pkt.Classified pkt' ∧ (pkt'.type = REQ ↔ TakenForRequest protocol cp pkt) ∧
      (pkt'.type = RSP ↔ TakenForResponse protocol cp pkt) := by
  have hREQ : REQ ≠ RSP := by decide
  have hREQ0 : REQ ≠ 0 := by decide
  have hRSP0 : RSP ≠ 0 := by decide
  unfold classify Protocol.isHeaderPacket at h
  unfold TakenForRequest TakenForResponse
  cases hreq : protocol.isRequest cp pkt.tcpDl.toNat with
  | none => simp [hreq] at h
  | some req =>
      cases hrsp : protocol.isResponse cp pkt.tcpDl.toNat with
      | none => simp [hreq, hrsp] at h
      | some rsp =>
          cases req with
          | some k =>
              obtain ⟨hle, rfl⟩ := copyPayload_eq (by simpa [hreq, hrsp] using h)
              exact ⟨rfl, by simpa using hle, by simp [hREQ]⟩
          | none =>
              cases rsp with
              | some k =>
                  obtain ⟨hle, rfl⟩ := copyPayload_eq (by simpa [hreq, hrsp] using h)
                  exact ⟨rfl, by simp [hREQ.symm], by simpa using hle⟩
              | none =>
                  obtain rfl : { pkt with tcpOdata := none, tcpData := none } = pkt' := by
                    simpa [hreq, hrsp] using h
                  exact ⟨rfl, by simp [hnew, hREQ0.symm], by simp [hnew, hRSP0.symm]⟩

/-- A payload taken for a request or a response is classified without a fault. -/
theorem classify_defined
    (h : TakenForRequest protocol cp pkt ∨ TakenForResponse protocol cp pkt) :
    classify protocol cp pkt ≠ none := by
  have hcopy : ∀ type, (capturedDl pkt).toNat ≤ cp.length →
      copyPayload cp { pkt with type := type, tcpDl := capturedDl pkt } ≠ none := by
    intro type hle
    unfold copyPayload
    rw [if_pos hle]
    exact Option.some_ne_none _
  unfold classify Protocol.isHeaderPacket
  rcases h with ⟨hreq, hrsp, hle⟩ | ⟨hreq, hrsp, hle⟩
  · obtain ⟨req, hreq, hsome⟩ := (Option.any_eq_true _ _).mp hreq
    obtain ⟨k, rfl⟩ := Option.isSome_iff_exists.mp hsome
    obtain ⟨rsp, hrsp⟩ := Option.isSome_iff_exists.mp hrsp
    simpa [hreq, hrsp] using hcopy REQ hle
  · obtain ⟨rsp, hrsp, hsome⟩ := (Option.any_eq_true _ _).mp hrsp
    obtain ⟨k, rfl⟩ := Option.isSome_iff_exists.mp hsome
    simpa [hreq, hrsp] using hcopy RSP hle

end Classification

/-! ## The payload of a frame -/

/-- A payload on its way to a protocol: the packet, the memory behind its TCP header,
and the protocol that has one of its ports, with its index. -/
structure Payload where
  pkt : PacketT
  cp : List UInt8
  protocol : Protocol
  index : ℕ
  deriving DecidableEq

/-- The payload that the frame carries for a protocol, if it carries one. -/
def payloadOf (protocols : List Protocol) (rawPkt : RawPkt) : Option Payload :=
  match parseHeaders rawPkt with
  | some (some (pkt, cp)) =>
      (protocolOf protocols pkt).bind fun (protocol, k) =>
        if pkt.tcpDl = 0 then none
        else some { pkt := pkt, cp := cp, protocol := protocol, index := k }
  | _ => none

/-- `packet_preprocess` classifies the payload of a frame, and puts nothing on a queue
if there is none. -/
theorem packetPreprocess_cases (protocols : List Protocol) (rawPkt : RawPkt) :
    (∃ x, payloadOf protocols rawPkt = some x ∧ packetPreprocess protocols rawPkt =
        (classify x.protocol x.cp x.pkt).map fun pkt => some (x.index, pkt)) ∨
      payloadOf protocols rawPkt = none ∧
        (packetPreprocess protocols rawPkt = none ∨
          packetPreprocess protocols rawPkt = some none) := by
  unfold payloadOf packetPreprocess
  cases parseHeaders rawPkt with
  | none => exact .inr ⟨rfl, .inl rfl⟩
  | some parsed =>
      cases parsed with
      | none => exact .inr ⟨rfl, .inr rfl⟩
      | some parsed =>
          cases hof : protocolOf protocols parsed.1 with
          | none => exact .inr (by simp [hof])
          | some found =>
              by_cases hdl : parsed.1.tcpDl = 0
              · exact .inr (by simp [hof, hdl])
              · refine .inl ⟨⟨parsed.1, parsed.2, found.1, found.2⟩, by simp [hof, hdl], ?_⟩
                simp only [Option.bind_eq_bind, Option.bind_some, hof, hdl, if_false]
                cases classify found.1 parsed.2 parsed.1 <;> rfl

/-- The packet that the headers give is not classified, and its payload begins behind
them. -/
theorem parseHeaders_packet {rawPkt : RawPkt} {pkt : PacketT} {cp : List UInt8}
    (h : parseHeaders rawPkt = some (some (pkt, cp))) :
    pkt.type = 0 ∧ pkt.rawLen = rawPkt.caplen ∧
      pkt.tcpDl = pkt.ipTol - pkt.ipHl.toUInt16 - pkt.tcpHl.toUInt16 ∧
      cp = rawPkt.raw.drop (ETHHDR_SIZE + pkt.ipHl.toNat + pkt.tcpHl.toNat) := by
  unfold parseHeaders at h
  obtain ⟨etherType, -, h⟩ := Option.bind_eq_some_iff.mp h
  split at h
  · cases h
  obtain ⟨ipHdr, -, h⟩ := Option.bind_eq_some_iff.mp h
  split at h
  · cases h
  obtain ⟨tcpHdr, -, h⟩ := Option.bind_eq_some_iff.mp h
  cases h
  refine ⟨rfl, rfl, rfl, ?_⟩
  dsimp only
  rw [List.drop_drop, List.drop_drop, Nat.add_assoc]

/-- A payload is one of its headers. -/
theorem payloadOf_parsed {protocols : List Protocol} {rawPkt : RawPkt} {x : Payload}
    (h : payloadOf protocols rawPkt = some x) :
    parseHeaders rawPkt = some (some (x.pkt, x.cp)) := by
  unfold payloadOf at h
  split at h
  · next pkt cp hparse =>
      obtain ⟨⟨protocol, k⟩, -, h⟩ := Option.bind_eq_some_iff.mp h
      dsimp only at h
      split at h
      · cases h
      · cases h
        exact hparse
  · cases h

/-- The packet of a payload is not classified yet. -/
theorem payloadOf_type {protocols : List Protocol} {rawPkt : RawPkt} {x : Payload}
    (h : payloadOf protocols rawPkt = some x) : x.pkt.type = 0 :=
  (parseHeaders_packet (payloadOf_parsed h)).1

end MonitoringTool.Sniffer
