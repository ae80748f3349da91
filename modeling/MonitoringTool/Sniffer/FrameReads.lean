import MonitoringTool.Sniffer.PacketPreprocess
import MonitoringTool.Sniffer.PayloadReads

/-!
# What is read of a frame

`capture_main` copies each frame that is long enough, and `packet_preprocess` parses the
copy.  The length it tests and copies is that of the frame on the wire, `len`, of which
`caplen` bytes were captured; and the parser takes the header lengths from the headers.

`frame_reads_inside_iff` says exactly which frames are parsed without a read behind the
captured bytes and without a negative payload length.
-/

namespace MonitoringTool.Sniffer

/-! ## Capturing -/

/-- What `pcap_next` hands over: the captured bytes, and the `len` and `ts` of the frame's
header.  No more is captured than there is. -/
structure Frame where
  raw : List UInt8
  len : UInt32
  tvSec : Int
  tvUsec : Int
  captured : raw.length ≤ len.toNat

/-- `pkthdr.caplen`. -/
def Frame.caplen (frame : Frame) : UInt32 := UInt32.ofNat frame.raw.length

/-- `memcpy` of `n` bytes. -/
def memcpy (src : List UInt8) (n : ℕ) : Option (List UInt8) :=
  if n ≤ src.length then some (src.take n) else none

/-- What `capture_main` does with a frame: it skips a short one and enqueues a copy of the
others. -/
def captureMain (frame : Frame) (addr : ℕ) : Option (Option RawPkt) := do
  if frame.len < 54 then return none
  let r ← memcpy frame.raw frame.len.toNat
  return some {
    raw := r
    tvSec := frame.tvSec
    tvUsec := frame.tvUsec
    caplen := frame.caplen
    addr := addr }

/-- The subtraction that gives `tcp_dl` goes below zero. -/
def DlUnderflows (rawPkt : RawPkt) : Prop :=
  ∃ pkt cp, parseHeaders rawPkt = some (some (pkt, cp)) ∧
    pkt.ipTol.toNat < pkt.ipHl.toNat + pkt.tcpHl.toNat

/-- The frame is enqueued and parsed without a read behind its captured bytes, and `tcp_dl`
does not underflow. -/
def ReadsInside (protocols : List Protocol) (frame : Frame) (addr : ℕ) : Prop :=
  ∃ rawPkt, captureMain frame addr = some (some rawPkt) ∧
    (packetPreprocess protocols rawPkt).isSome ∧ ¬ DlUnderflows rawPkt

/-- The TCP header is in the frame, the headers are not longer than the total length, and
what is left of it fits the protocol that has a port of the packet. -/
structure SegmentFits (protocols : List Protocol) (raw : List UInt8) (ip : IpHdr) : Prop where
  tcpHdr : ETHHDR_SIZE + 4 * ip.ihl.toNat + 20 ≤ raw.length
  totLen : ∀ tcp, parseTcphdr (raw.drop (ETHHDR_SIZE + 4 * ip.ihl.toNat)) = some tcp →
    4 * ip.ihl.toNat + 4 * tcp.thOff.toNat ≤ ip.totLen.toNat
  payload : ∀ tcp, parseTcphdr (raw.drop (ETHHDR_SIZE + 4 * ip.ihl.toNat)) = some tcp →
    ∀ protocol, protocols.find? (·.isPacketOf tcp.thSport tcp.thDport) = some protocol →
      4 * ip.ihl.toNat + 4 * tcp.thOff.toNat < ip.totLen.toNat →
        protocol.Fits (raw.drop (ETHHDR_SIZE + 4 * ip.ihl.toNat + 4 * tcp.thOff.toNat))
          (ip.totLen.toNat - (4 * ip.ihl.toNat + 4 * tcp.thOff.toNat))

/-- If the frame carries TCP over IP, its segment fits. -/
def FrameFits (protocols : List Protocol) (raw : List UInt8) : Prop :=
  parseEtherType raw = some 0x0800 → ∀ ip, parseIphdr (raw.drop ETHHDR_SIZE) = some ip →
    ip.protocol = 0x06 → SegmentFits protocols raw ip

/-! ## Headers -/

theorem readU16_isSome_iff (mem : List UInt8) (i : ℕ) :
    (readU16 mem i).isSome ↔ i + 2 ≤ mem.length := by
  unfold readU16
  by_cases h : i + 2 ≤ mem.length
  · have h0 : i < mem.length := by omega
    have h1 : i + 1 < mem.length := by omega
    simp [h0, h1, h]
  · have h1 : mem[i + 1]? = none := List.getElem?_eq_none (by omega)
    cases mem[i]? <;> simp [h1, h]

theorem readU32_isSome_iff (mem : List UInt8) (i : ℕ) :
    (readU32 mem i).isSome ↔ i + 4 ≤ mem.length := by
  have hlow := readU16_isSome_iff mem i
  have hhigh := readU16_isSome_iff mem (i + 2)
  unfold readU32
  cases h0 : readU16 mem i <;> cases h2 : readU16 mem (i + 2) <;>
    simp only [h0, h2, Option.isSome_none, Option.isSome_some, Bool.false_eq_true, false_iff,
      true_iff, Option.bind_eq_bind, Option.bind_none, Option.bind_some, Option.pure_def]
      at hlow hhigh ⊢ <;> omega

theorem parseEtherType_isSome {p : List UInt8} (h : 14 ≤ p.length) : (parseEtherType p).isSome :=
  (readU16_isSome_iff p 12).mpr h

theorem parseIphdr_isSome {p : List UInt8} (h : 20 ≤ p.length) : (parseIphdr p).isSome := by
  have hbyte : ∀ i, i < 20 → ∃ b, p[i]? = some b := fun i hi =>
    ⟨_, List.getElem?_eq_getElem (Nat.lt_of_lt_of_le hi h)⟩
  obtain ⟨verIhl, hihl⟩ := hbyte 0 (by omega)
  obtain ⟨pro, hpro⟩ := hbyte 9 (by omega)
  obtain ⟨totLen, htol⟩ := Option.isSome_iff_exists.mp ((readU16_isSome_iff p 2).mpr (by omega))
  obtain ⟨saddr, hsaddr⟩ := Option.isSome_iff_exists.mp ((readU32_isSome_iff p 12).mpr (by omega))
  obtain ⟨daddr, hdaddr⟩ := Option.isSome_iff_exists.mp ((readU32_isSome_iff p 16).mpr h)
  simp [parseIphdr, hihl, hpro, htol, hsaddr, hdaddr]

theorem parseTcphdr_isSome_iff (p : List UInt8) : (parseTcphdr p).isSome ↔ 20 ≤ p.length := by
  constructor
  · intro h
    refine (readU16_isSome_iff p 18).mp ?_
    unfold parseTcphdr at h
    cases hurp : readU16 p 18 with
    | none => simp [hurp] at h
    | some urp => rfl
  · intro h
    have hbyte : ∀ i, i < 20 → ∃ b, p[i]? = some b := fun i hi =>
      ⟨_, List.getElem?_eq_getElem (Nat.lt_of_lt_of_le hi h)⟩
    obtain ⟨off, hoff⟩ := hbyte 12 (by omega)
    obtain ⟨flags, hflags⟩ := hbyte 13 (by omega)
    have h16 := fun i hi => Option.isSome_iff_exists.mp ((readU16_isSome_iff p i).mpr hi)
    have h32 := fun i hi => Option.isSome_iff_exists.mp ((readU32_isSome_iff p i).mpr hi)
    obtain ⟨urp, hurp⟩ := h16 18 h
    obtain ⟨sport, hsport⟩ := h16 0 (by omega)
    obtain ⟨dport, hdport⟩ := h16 2 (by omega)
    obtain ⟨seq, hseq⟩ := h32 4 (by omega)
    obtain ⟨ack, hack⟩ := h32 8 (by omega)
    simp [parseTcphdr, hoff, hflags, hurp, hsport, hdport, hseq, hack]

/-- A length of four bits is at most 15 words. -/
theorem parseIphdr_ihl {p : List UInt8} {ip : IpHdr} (h : parseIphdr p = some ip) :
    ip.ihl.toNat < 16 := by
  unfold parseIphdr at h
  cases hb : p[0]? with
  | none => simp [hb] at h
  | some b =>
      simp only [hb, Option.bind_eq_bind, Option.bind_some, Option.bind_eq_some_iff] at h
      obtain ⟨totLen, -, pro, -, saddr, -, daddr, -, hip⟩ := h
      obtain rfl := Option.some.inj hip
      have hand : (b &&& 0x0f).toNat = b.toNat &&& 15 := rfl
      rw [hand, show 15 = 2 ^ 4 - 1 from rfl, Nat.and_two_pow_sub_one_eq_mod]
      exact Nat.mod_lt _ (by decide)

theorem parseTcphdr_thOff {p : List UInt8} {tcp : TcpHdr} (h : parseTcphdr p = some tcp) :
    tcp.thOff.toNat < 16 := by
  unfold parseTcphdr at h
  cases hb : p[12]? with
  | none => simp [hb] at h
  | some b =>
      simp only [hb, Option.bind_eq_bind, Option.bind_some, Option.bind_eq_some_iff] at h
      obtain ⟨urp, -, sport, -, dport, -, seq, -, ack, -, flags, -, htcp⟩ := h
      obtain rfl := Option.some.inj htcp
      have hshift : (b >>> 4).toNat = b.toNat >>> 4 := rfl
      have hb := b.toNat_lt
      rw [hshift, Nat.shiftRight_eq_div_pow]
      omega

/-- A length in words, in bytes. -/
theorem toNat_words {w : UInt8} (h : w.toNat < 16) : (w <<< 2).toNat = 4 * w.toNat := by
  have hshift : (w <<< 2).toNat = (w.toNat <<< 2) % 2 ^ 8 := rfl
  rw [hshift, Nat.shiftLeft_eq]
  omega

/-! ## The two formulas for the length of the payload -/

/-- What the IP header says of the payload, without an underflow. -/
theorem toNat_sub_headers {tol : UInt16} {ipHl tcpHl : UInt8}
    (h : ipHl.toNat + tcpHl.toNat ≤ tol.toNat) :
    (tol - ipHl.toUInt16 - tcpHl.toUInt16).toNat = tol.toNat - ipHl.toNat - tcpHl.toNat := by
  have hip : ipHl.toUInt16 ≤ tol := by
    rw [UInt16.le_iff_toNat_le, UInt8.toNat_toUInt16]
    omega
  have hrest : (tol - ipHl.toUInt16).toNat = tol.toNat - ipHl.toNat := by
    rw [UInt16.toNat_sub_of_le _ _ hip, UInt8.toNat_toUInt16]
  have htcp : tcpHl.toUInt16 ≤ tol - ipHl.toUInt16 := by
    rw [UInt16.le_iff_toNat_le, UInt8.toNat_toUInt16, hrest]
    omega
  rw [UInt16.toNat_sub_of_le _ _ htcp, hrest, UInt8.toNat_toUInt16]

/-- What was captured behind the three headers, in 16 bits. -/
theorem toNat_capturedDl (pkt : PacketT)
    (h : pkt.ipHl.toNat + pkt.tcpHl.toNat + 14 ≤ pkt.rawLen.toNat) :
    (capturedDl pkt).toNat =
      (pkt.rawLen.toNat - (pkt.ipHl.toNat + pkt.tcpHl.toNat + 14)) % 2 ^ 16 := by
  have hip := pkt.ipHl.toNat_lt
  have htcp := pkt.tcpHl.toNat_lt
  have hsum : (pkt.ipHl.toUInt32 + pkt.tcpHl.toUInt32 + 14).toNat =
      pkt.ipHl.toNat + pkt.tcpHl.toNat + 14 := by
    rw [UInt32.toNat_add, UInt32.toNat_add, UInt8.toNat_toUInt32, UInt8.toNat_toUInt32]
    have h14 : (14 : UInt32).toNat = 14 := rfl
    rw [h14]
    omega
  have hle : pkt.ipHl.toUInt32 + pkt.tcpHl.toUInt32 + 14 ≤ pkt.rawLen := by
    rw [UInt32.le_iff_toNat_le, hsum]
    exact h
  rw [capturedDl, UInt32.toNat_toUInt16, UInt32.toNat_sub_of_le _ _ hle, hsum]

/-! ## Segments -/

/-- The packet of a frame with these headers. -/
def segmentPacket (rawPkt : RawPkt) (ip : IpHdr) (tcp : TcpHdr) : PacketT where
  addr := rawPkt.addr
  capSec := rawPkt.tvSec
  capUsec := rawPkt.tvUsec
  rawLen := rawPkt.caplen
  saddr := ip.saddr
  daddr := ip.daddr
  sport := tcp.thSport
  dport := tcp.thDport
  ipHl := ip.ihl <<< 2
  ipTol := ip.totLen
  ipPro := ip.protocol
  tcpSeq := tcp.thSeq
  tcpAck := tcp.thAck
  tcpFlags := tcp.thFlags
  tcpHl := tcp.thOff <<< 2
  tcpDl := ip.totLen - (ip.ihl <<< 2).toUInt16 - (tcp.thOff <<< 2).toUInt16
  type := 0
  tcpOdata := none
  tcpData := none

section Segment

variable {rawPkt : RawPkt} {ip : IpHdr} {tcp : TcpHdr}

/-- Of a frame with TCP over IP, the TCP header is all that is still to be read. -/
theorem parseHeaders_tcp (hether : parseEtherType rawPkt.raw = some 0x0800)
    (hip : parseIphdr (rawPkt.raw.drop ETHHDR_SIZE) = some ip) (hpro : ip.protocol = 0x06) :
    parseHeaders rawPkt =
      (parseTcphdr (rawPkt.raw.drop (ETHHDR_SIZE + 4 * ip.ihl.toNat))).map fun tcp =>
        some (segmentPacket rawPkt ip tcp,
          rawPkt.raw.drop (ETHHDR_SIZE + 4 * ip.ihl.toNat + 4 * tcp.thOff.toNat)) := by
  have hihl := toNat_words (parseIphdr_ihl hip)
  unfold parseHeaders
  simp only [hether, hip, hpro, hihl, Option.bind_eq_bind, Option.bind_some, ne_eq,
    not_true_eq_false, if_false, List.drop_drop]
  cases htcp : parseTcphdr (rawPkt.raw.drop (ETHHDR_SIZE + 4 * ip.ihl.toNat)) with
  | none => rfl
  | some tcp =>
      have hoff := toNat_words (parseTcphdr_thOff htcp)
      simp only [Option.bind_some, Option.map_some, hoff, segmentPacket, Option.pure_def, hpro]

/-- A frame that carries no TCP over IP is left alone. -/
theorem parseHeaders_other (hlen : 34 ≤ rawPkt.raw.length)
    (hother : ¬ (parseEtherType rawPkt.raw = some 0x0800 ∧
      ∃ ip, parseIphdr (rawPkt.raw.drop ETHHDR_SIZE) = some ip ∧ ip.protocol = 0x06)) :
    parseHeaders rawPkt = some none := by
  obtain ⟨etherType, hether⟩ :=
    Option.isSome_iff_exists.mp (parseEtherType_isSome (p := rawPkt.raw) (by omega))
  have hrest : 20 ≤ (rawPkt.raw.drop ETHHDR_SIZE).length := by
    rw [List.length_drop]
    unfold ETHHDR_SIZE
    omega
  obtain ⟨ip, hip⟩ := Option.isSome_iff_exists.mp (parseIphdr_isSome hrest)
  unfold parseHeaders
  by_cases htype : etherType = 0x0800
  · have hpro : ip.protocol ≠ 0x06 := fun hpro =>
      hother ⟨by rw [hether, htype], ip, hip, hpro⟩
    simp [hether, hip, htype, hpro]
  · simp [hether, htype]

variable (hihl : ip.ihl.toNat < 16) (hoff : tcp.thOff.toNat < 16)

include hihl hoff

/-- The headers of a segment are no longer than its total length exactly when `tcp_dl` does
not underflow. -/
theorem segmentPacket_headers (rawPkt : RawPkt) : (segmentPacket rawPkt ip tcp).ipTol.toNat <
      (segmentPacket rawPkt ip tcp).ipHl.toNat + (segmentPacket rawPkt ip tcp).tcpHl.toNat ↔
    ¬ 4 * ip.ihl.toNat + 4 * tcp.thOff.toNat ≤ ip.totLen.toNat := by
  have hihl := toNat_words hihl
  have hoff := toNat_words hoff
  simp only [segmentPacket, hihl, hoff]
  omega

/-- Without an underflow `tcp_dl` is what is left of the total length. -/
theorem segmentPacket_tcpDl (rawPkt : RawPkt)
    (htol : 4 * ip.ihl.toNat + 4 * tcp.thOff.toNat ≤ ip.totLen.toNat) :
    (segmentPacket rawPkt ip tcp).tcpDl.toNat =
      ip.totLen.toNat - (4 * ip.ihl.toNat + 4 * tcp.thOff.toNat) := by
  have hheaders : (ip.ihl <<< 2).toNat + (tcp.thOff <<< 2).toNat ≤ ip.totLen.toNat := by
    rw [toNat_words hihl, toNat_words hoff]
    exact htol
  change (ip.totLen - (ip.ihl <<< 2).toUInt16 - (tcp.thOff <<< 2).toUInt16).toNat = _
  rw [toNat_sub_headers hheaders, toNat_words hihl, toNat_words hoff, Nat.sub_sub]

/-- What was captured behind the headers is there. -/
theorem segmentPacket_capturedDl (hcaplen : rawPkt.caplen.toNat = rawPkt.raw.length)
    (hhl : ETHHDR_SIZE + 4 * ip.ihl.toNat + 4 * tcp.thOff.toNat ≤ rawPkt.raw.length) :
    (capturedDl (segmentPacket rawPkt ip tcp)).toNat ≤
      (rawPkt.raw.drop (ETHHDR_SIZE + 4 * ip.ihl.toNat + 4 * tcp.thOff.toNat)).length := by
  have hdl := toNat_capturedDl (segmentPacket rawPkt ip tcp) (by
    show (ip.ihl <<< 2).toNat + (tcp.thOff <<< 2).toNat + 14 ≤ rawPkt.caplen.toNat
    rw [toNat_words hihl, toNat_words hoff, hcaplen]
    unfold ETHHDR_SIZE at hhl
    omega)
  have hle := Nat.mod_le (rawPkt.caplen.toNat -
    ((ip.ihl <<< 2).toNat + (tcp.thOff <<< 2).toNat + 14)) (2 ^ 16)
  rw [toNat_words hihl, toNat_words hoff, hcaplen] at hle
  change _ = (rawPkt.caplen.toNat -
    ((ip.ihl <<< 2).toNat + (tcp.thOff <<< 2).toNat + 14)) % 2 ^ 16 at hdl
  rw [toNat_words hihl, toNat_words hoff, hcaplen] at hdl
  rw [hdl, List.length_drop]
  unfold ETHHDR_SIZE
  omega

end Segment

/-! ## The payload -/

/-- The protocol of a packet is the first that has one of its ports. -/
theorem protocolOf_fst (protocols : List Protocol) (pkt : PacketT) :
    (protocolOf protocols pkt).map Prod.fst =
      protocols.find? (·.isPacketOf pkt.sport pkt.dport) := by
  have hfst : protocols.zipIdx.map Prod.fst = protocols := List.zipIdx_map_fst 0 protocols
  have hfind := List.find?_map (p := fun q : Protocol => q.isPacketOf pkt.sport pkt.dport)
    (f := Prod.fst) (l := protocols.zipIdx)
  rw [hfst] at hfind
  rw [hfind]
  rfl

/-- What fits a payload of one byte and more has one byte and more in the frame. -/
theorem Protocol.Fits.pos {p : Protocol} {data : List UInt8} {n : ℕ} (h : p.Fits data n)
    (hn : 0 < n) : 0 < data.length := by
  unfold Protocol.Fits at h
  split at h
  · rcases h with hle | ⟨hsp, -⟩
    · exact Nat.lt_of_lt_of_le hn hle
    · exact List.length_pos_of_mem hsp
  · exact List.length_pos_of_mem h
  · omega

/-- A payload is classified without a fault exactly when both classifiers stay inside, if
what was captured of it can be copied. -/
theorem classify_isSome_iff (protocol : Protocol) {cp : List UInt8} {pkt : PacketT}
    (hdl : pkt.tcpDl ≠ 0)
    (hcopy : 0 < cp.length → (capturedDl pkt).toNat ≤ cp.length) :
    (classify protocol cp pkt).isSome ↔ protocol.Fits cp pkt.tcpDl.toNat := by
  have hpos : 0 < pkt.tcpDl.toNat := by
    refine Nat.pos_of_ne_zero fun h0 => hdl ?_
    exact UInt16.toNat_inj.mp h0
  constructor
  · intro h
    refine (protocol.reads_inside_iff cp pkt.tcpDl.toNat).mp ?_
    unfold classify Protocol.isHeaderPacket at h
    cases hreq : protocol.isRequest cp pkt.tcpDl.toNat with
    | none => simp [hreq] at h
    | some req =>
        cases hrsp : protocol.isResponse cp pkt.tcpDl.toNat with
        | none => simp [hreq, hrsp] at h
        | some rsp => exact ⟨rfl, rfl⟩
  · intro hfits
    have hle := hcopy (hfits.pos hpos)
    obtain ⟨hreq, hrsp⟩ := (protocol.reads_inside_iff cp pkt.tcpDl.toNat).mpr hfits
    obtain ⟨req, hreq⟩ := Option.isSome_iff_exists.mp hreq
    obtain ⟨rsp, hrsp⟩ := Option.isSome_iff_exists.mp hrsp
    unfold classify Protocol.isHeaderPacket
    cases req <;> cases rsp <;> simp [hreq, hrsp, copyPayload, hle]

section Segment

variable {rawPkt : RawPkt} {ip : IpHdr} {tcp : TcpHdr}
  (hihl : ip.ihl.toNat < 16) (hcaplen : rawPkt.caplen.toNat = rawPkt.raw.length)
  (htcp : parseTcphdr (rawPkt.raw.drop (ETHHDR_SIZE + 4 * ip.ihl.toNat)) = some tcp)
  (hparse : parseHeaders rawPkt = some (some (segmentPacket rawPkt ip tcp,
    rawPkt.raw.drop (ETHHDR_SIZE + 4 * ip.ihl.toNat + 4 * tcp.thOff.toNat))))

include hihl htcp hparse

include hcaplen in
/-- A segment is put on a queue without a fault exactly when its payload fits the protocol
that has one of its ports, if there are one and the other. -/
theorem packetPreprocess_isSome_iff (protocols : List Protocol)
    (htol : 4 * ip.ihl.toNat + 4 * tcp.thOff.toNat ≤ ip.totLen.toNat) :
    (packetPreprocess protocols rawPkt).isSome ↔
      ∀ protocol, protocols.find? (·.isPacketOf tcp.thSport tcp.thDport) = some protocol →
        4 * ip.ihl.toNat + 4 * tcp.thOff.toNat < ip.totLen.toNat →
          protocol.Fits
            (rawPkt.raw.drop (ETHHDR_SIZE + 4 * ip.ihl.toNat + 4 * tcp.thOff.toNat))
            (ip.totLen.toNat - (4 * ip.ihl.toNat + 4 * tcp.thOff.toNat)) := by
  have hoff := parseTcphdr_thOff htcp
  have hdl := segmentPacket_tcpDl hihl hoff rawPkt htol
  have hfst : (protocolOf protocols (segmentPacket rawPkt ip tcp)).map Prod.fst =
      protocols.find? (·.isPacketOf tcp.thSport tcp.thDport) :=
    protocolOf_fst protocols (segmentPacket rawPkt ip tcp)
  have hzero : (segmentPacket rawPkt ip tcp).tcpDl = 0 ↔
      ¬ 4 * ip.ihl.toNat + 4 * tcp.thOff.toNat < ip.totLen.toNat := by
    rw [← UInt16.toNat_inj, hdl]
    have h0 : (0 : UInt16).toNat = 0 := rfl
    rw [h0]
    omega
  rw [← hfst]
  unfold packetPreprocess
  simp only [hparse, Option.bind_eq_bind, Option.bind_some]
  cases protocolOf protocols (segmentPacket rawPkt ip tcp) with
  | none => simp
  | some found =>
      by_cases hlt : 4 * ip.ihl.toNat + 4 * tcp.thOff.toNat < ip.totLen.toNat
      · have hne : (segmentPacket rawPkt ip tcp).tcpDl ≠ 0 := fun h => hzero.mp h hlt
        have hclassify := classify_isSome_iff found.1 hne fun hpos =>
          segmentPacket_capturedDl hihl hoff hcaplen (by rw [List.length_drop] at hpos; omega)
        rw [hdl] at hclassify
        have hqueued : ∀ result : Option PacketT,
            (result.bind fun pkt => some (some (found.2, pkt))).isSome = result.isSome := by
          intro result
          cases result <;> rfl
        simp only [hne, if_false, Option.map_some, Option.some.injEq, forall_eq', hlt,
          forall_const]
        rw [← hclassify]
        exact Bool.eq_iff_iff.mp (hqueued _)
      · simp [hzero.mpr hlt, hlt]

/-- Its headers are not longer than its total length exactly when nothing underflows. -/
theorem dlUnderflows_iff :
    DlUnderflows rawPkt ↔ ¬ 4 * ip.ihl.toNat + 4 * tcp.thOff.toNat ≤ ip.totLen.toNat := by
  rw [← segmentPacket_headers hihl (parseTcphdr_thOff htcp) rawPkt]
  unfold DlUnderflows
  constructor
  · intro ⟨pkt, cp, hpkt, hlt⟩
    obtain ⟨rfl, -⟩ : segmentPacket rawPkt ip tcp = pkt ∧ _ = cp := by
      simpa [hparse] using hpkt
    exact hlt
  · exact fun hlt => ⟨_, _, hparse, hlt⟩

include hcaplen in
/-- Neither a read behind the frame nor an underflow is the same as a segment that fits. -/
theorem segmentFits_iff (protocols : List Protocol) :
    SegmentFits protocols rawPkt.raw ip ↔
    (packetPreprocess protocols rawPkt).isSome ∧ ¬ DlUnderflows rawPkt := by
  have hunder := dlUnderflows_iff hihl htcp hparse
  have hsome := packetPreprocess_isSome_iff hihl hcaplen htcp hparse protocols
  have hhdr : ETHHDR_SIZE + 4 * ip.ihl.toNat + 20 ≤ rawPkt.raw.length := by
    have hread := (parseTcphdr_isSome_iff _).mp (Option.isSome_iff_exists.mpr ⟨tcp, htcp⟩)
    rw [List.length_drop] at hread
    omega
  constructor
  · intro hfits
    have htol := hfits.totLen tcp htcp
    exact ⟨(hsome htol).mpr (hfits.payload tcp htcp), fun h => hunder.mp h htol⟩
  · intro ⟨hpre, hno⟩
    have htol := not_not.mp fun h => hno (hunder.mpr h)
    have hunique : ∀ tcp', parseTcphdr (rawPkt.raw.drop (ETHHDR_SIZE + 4 * ip.ihl.toNat)) =
        some tcp' → tcp' = tcp := fun tcp' h => Option.some.inj (h.symm.trans htcp)
    exact {
      tcpHdr := hhdr
      totLen := fun tcp' h => by rwa [hunique tcp' h]
      payload := fun tcp' h => by
        rw [hunique tcp' h]
        exact (hsome htol).mp hpre }

end Segment

/-! ## Frames -/

/-- The copy of a frame is the frame if all of it was captured; otherwise more is copied
than was captured. -/
theorem captureMain_eq {frame : Frame} {addr : ℕ} (hlen : 54 ≤ frame.len.toNat) :
    captureMain frame addr =
      if frame.raw.length = frame.len.toNat then
        some (some {
          raw := frame.raw
          tvSec := frame.tvSec
          tvUsec := frame.tvUsec
          caplen := frame.caplen
          addr := addr })
      else none := by
  have hle := frame.captured
  have hlong : ¬ frame.len < 54 := by
    rw [UInt32.lt_iff_toNat_lt, Nat.not_lt]
    exact hlen
  unfold captureMain memcpy
  simp only [hlong, if_false]
  split
  · next hfull =>
      have hall : frame.raw.length = frame.len.toNat := Nat.le_antisymm hle hfull
      have htake : frame.raw.take frame.len.toNat = frame.raw := by rw [← hall, List.take_length]
      simp [hall, htake]
  · next hpart =>
      have hne : frame.raw.length ≠ frame.len.toNat := by omega
      simp [hne]

/-- A frame of 54 bytes and more is parsed inside exactly when it fits. -/
theorem frameFits_iff (protocols : List Protocol) (rawPkt : RawPkt)
    (hcaplen : rawPkt.caplen.toNat = rawPkt.raw.length) (hlen : 54 ≤ rawPkt.raw.length) :
    FrameFits protocols rawPkt.raw ↔
      (packetPreprocess protocols rawPkt).isSome ∧ ¬ DlUnderflows rawPkt := by
  by_cases htcp : parseEtherType rawPkt.raw = some 0x0800 ∧
      ∃ ip, parseIphdr (rawPkt.raw.drop ETHHDR_SIZE) = some ip ∧ ip.protocol = 0x06
  · obtain ⟨hether, ip, hip, hpro⟩ := htcp
    have hihl := parseIphdr_ihl hip
    have hparse := parseHeaders_tcp hether hip hpro
    have hframe : FrameFits protocols rawPkt.raw ↔ SegmentFits protocols rawPkt.raw ip := by
      unfold FrameFits
      simp [hether, hip, hpro]
    rw [hframe]
    cases htcp : parseTcphdr (rawPkt.raw.drop (ETHHDR_SIZE + 4 * ip.ihl.toNat)) with
    | some tcp =>
        rw [htcp] at hparse
        exact segmentFits_iff hihl hcaplen htcp hparse protocols
    | none =>
        rw [htcp] at hparse
        have hfault : packetPreprocess protocols rawPkt = none := by
          simp [packetPreprocess, hparse]
        have hshort : ¬ ETHHDR_SIZE + 4 * ip.ihl.toNat + 20 ≤ rawPkt.raw.length := by
          intro hread
          have hsome := (parseTcphdr_isSome_iff
            (rawPkt.raw.drop (ETHHDR_SIZE + 4 * ip.ihl.toNat))).mpr
            (by rw [List.length_drop]; omega)
          rw [htcp] at hsome
          cases hsome
        rw [hfault]
        exact iff_of_false (fun hfits => hshort hfits.tcpHdr) fun h => by simp at h
  · have hparse := parseHeaders_other (by omega) htcp
    have hpre : packetPreprocess protocols rawPkt = some none := by
      simp [packetPreprocess, hparse]
    have hno : ¬ DlUnderflows rawPkt := by
      intro ⟨pkt, cp, hpkt, _⟩
      rw [hparse] at hpkt
      cases hpkt
    rw [hpre]
    exact iff_of_true (fun hether ip hip hpro => absurd ⟨hether, ip, hip, hpro⟩ htcp)
      ⟨rfl, hno⟩

/-- **Frame parsing stays inside the frame exactly when** the whole frame was captured and,
if it carries TCP over IP, its segment fits. -/
theorem frame_reads_inside_iff (protocols : List Protocol) (frame : Frame) (addr : ℕ)
    (hlen : 54 ≤ frame.len.toNat) : ReadsInside protocols frame addr ↔
      frame.raw.length = frame.len.toNat ∧ FrameFits protocols frame.raw := by
  unfold ReadsInside
  rw [captureMain_eq hlen]
  by_cases hall : frame.raw.length = frame.len.toNat
  · have hcaplen : frame.caplen.toNat = frame.raw.length := by
      have hlt := frame.len.toNat_lt
      unfold Frame.caplen
      rw [UInt32.toNat_ofNat']
      exact Nat.mod_eq_of_lt (by omega)
    have hfits := frameFits_iff protocols {
      raw := frame.raw
      tvSec := frame.tvSec
      tvUsec := frame.tvUsec
      caplen := frame.caplen
      addr := addr } hcaplen (by rw [hall]; exact hlen)
    simp [hall, hfits]
  · simp [hall]

/-- A MySQL server's segment of four bytes. -/
def mySqlFrame : Frame where
  raw := List.replicate 12 0 ++ [0x08, 0x00] ++
    ([0x45, 0x00, 0x00, 44] ++ List.replicate 5 0 ++ [0x06] ++ List.replicate 10 0) ++
    ([0x0c, 0xea, 0x12, 0x34] ++ List.replicate 8 0 ++ [0x50, 0x18] ++ List.replicate 6 0) ++
    [0x00, 0x00, 0x00, 0x01]
  len := 58
  tvSec := 0
  tvUsec := 0
  captured := by decide

theorem mySqlFrame_fits : FrameFits [Protocol.mySql] mySqlFrame.raw := by
  intro hether ip hip hpro
  obtain rfl := Option.some.inj ((show parseIphdr (mySqlFrame.raw.drop ETHHDR_SIZE) =
    some ⟨5, 44, 6, 0, 0⟩ by decide).symm.trans hip)
  have hunique : ∀ tcp, parseTcphdr (mySqlFrame.raw.drop (ETHHDR_SIZE + 4 * 5)) = some tcp →
      tcp = ⟨3306, 0x1234, 0, 0, 5, 0x18⟩ := by
    intro tcp htcp
    have hread : parseTcphdr (mySqlFrame.raw.drop (ETHHDR_SIZE + 4 * 5)) =
        some ⟨3306, 0x1234, 0, 0, 5, 0x18⟩ := by decide
    exact Option.some.inj (htcp.symm.trans hread)
  exact {
    tcpHdr := by decide
    totLen := fun tcp htcp => by
      rw [hunique tcp htcp]
      decide
    payload := fun tcp htcp protocol hof hlt => by
      rw [hunique tcp htcp] at hof ⊢
      obtain rfl := Option.some.inj ((show _ = some Protocol.mySql by decide).symm.trans hof)
      exact (by decide : 4 ≤ (mySqlFrame.raw.drop (ETHHDR_SIZE + 4 * 5 + 4 * 5)).length) }

theorem frame_reads_inside_iff_mySql : 54 ≤ mySqlFrame.len.toNat ∧
    ReadsInside [Protocol.mySql] mySqlFrame 0 :=
  ⟨by decide, (frame_reads_inside_iff [Protocol.mySql] mySqlFrame 0 (by decide)).mpr
    ⟨by decide, mySqlFrame_fits⟩⟩

/-- A frame of 54 bytes whose IP header says that it is 60 bytes long. -/
def longIhlFrame : Frame where
  raw := List.replicate 12 0 ++ [0x08, 0x00] ++
    ([0x4f] ++ List.replicate 8 0 ++ [0x06] ++ List.replicate 10 0) ++ List.replicate 20 0
  len := 54
  tvSec := 0
  tvUsec := 0
  captured := by decide

/-- **A frame whose IP header is too long is read behind its end**: the TCP header is taken
from behind the 54 bytes. -/
theorem long_ihl_read_behind : ¬ ∀ (protocols : List Protocol) (frame : Frame) (addr : ℕ),
    54 ≤ frame.len.toNat → ReadsInside protocols frame addr := by
  intro h
  obtain ⟨rawPkt, henq, hsome, -⟩ := h [] longIhlFrame 0 (by decide)
  have hcopy : captureMain longIhlFrame 0 = some (some {
      raw := longIhlFrame.raw
      tvSec := 0
      tvUsec := 0
      caplen := 54
      addr := 0 }) := by decide
  rw [hcopy] at henq
  obtain rfl := Option.some.inj (Option.some.inj henq)
  revert hsome
  decide

end MonitoringTool.Sniffer
