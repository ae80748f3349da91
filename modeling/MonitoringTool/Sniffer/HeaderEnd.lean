import MonitoringTool.Sniffer.PairTrace
import MonitoringTool.Sniffer.PayloadLength
import MonitoringTool.Sniffer.RequestParsers

/-!
# The header end of a stored packet

`isRequest` and `isResponse` of `http.cpp` accept a payload because `find_header_end` finds
the end of its header.  The constructors of `Request` and `Response` call it again, on the
bytes from `tcp_odata` to `tcp_odata + tcp_dl`, and do not ask whether it finds anything.
In between `packet_preprocess` has replaced `tcp_dl`, and `tcp_order` has shortened it where
segments overlap, always at the end of the copy.

A search that found something finds it again in a window exactly if it lies inside
(`findHeaderEnd_window`), so that all depends on how much is cut (`cutBy`).
`header_ends_inside_iff` says so of the nodes of a flow, over any run, and
`header_end_found` of what `extractPair` parses.
-/

namespace MonitoringTool.Sniffer

open Lib

/-! ## The search in a window -/

/-- What `memchr` finds lies in a window or not. -/
theorem memchr_window {c : UInt8} {data : List UInt8} {n k : ℕ}
    (h : memchr c data n = some (some k)) (m : ℕ) :
    memchr c data m = some (if k < m then some k else none) := by
  induction data generalizing n k m with
  | nil => cases n <;> simp [memchr] at h
  | cons d data ih =>
      cases n with
      | zero => simp [memchr] at h
      | succ n =>
          cases m with
          | zero => rfl
          | succ m =>
              unfold memchr at h ⊢
              by_cases hd : d = c
              · rw [if_pos hd] at h ⊢
                obtain rfl : 0 = k := by simpa using h
                simp
              · rw [if_neg hd] at h ⊢
                obtain ⟨found, hfound, hk⟩ := Option.map_eq_some_iff.mp h
                obtain ⟨j, rfl, rfl⟩ := Option.map_eq_some_iff.mp hk
                rw [ih hfound m]
                by_cases hj : j < m <;> simp [hj]

namespace Http

theorem headerEnd_window {data : List UInt8} {n pos len k : ℕ}
    (h : headerEnd data n pos len = some (some k)) (m : ℕ) :
    headerEnd data m pos len = some (if k < pos + m then some k else none) := by
  induction data generalizing n pos len m with
  | nil => cases n <;> simp [headerEnd] at h
  | cons d data ih =>
      have hle := (headerEnd_found [] (le_refl n) h).2.1
      cases n with
      | zero => simp [headerEnd] at h
      | succ n =>
          cases m with
          | zero =>
              have hout : ¬ k < pos + 0 := by omega
              rw [if_neg hout]
              rfl
          | succ m =>
              have hshift : pos + (m + 1) = pos + 1 + m := by omega
              unfold headerEnd at h ⊢
              rw [hshift]
              split at h
              · next hd =>
                rw [if_pos hd]
                split at h
                · next hlen =>
                  obtain rfl : pos = k := by simpa using h
                  simp [hlen]
                  omega
                · next hlen =>
                  rw [if_neg hlen]
                  exact ih h m
              · next hd =>
                rw [if_neg hd]
                exact ih h m

/-- **A header end is found in every window that holds it, and in no other.** -/
theorem findHeaderEnd_window {data : List UInt8} {n k : ℕ}
    (h : findHeaderEnd data n = some (some k)) (m : ℕ) :
    findHeaderEnd data m = some (if k < m then some k else none) := by
  obtain ⟨lf, hfound, hend⟩ := findHeaderEnd_firstLine h
  have hle := (headerEnd_found [] (le_refl _) hend).2.1
  have hwindow := memchr_window hfound m
  by_cases hlf : lf < m
  · have hm : lf + 1 + (m - (lf + 1)) = m := by omega
    rw [if_pos hlf] at hwindow
    rw [findHeaderEnd_behind hwindow, headerEnd_window hend, hm]
  · have hout : ¬ k < m := by omega
    unfold findHeaderEnd
    simp [hwindow, hlf, hout]

/-- A header ends with an LF. -/
theorem headerEnd_LF {data : List UInt8} {n pos len k : ℕ}
    (h : headerEnd data n pos len = some (some k)) : data[k - pos]? = some LF := by
  induction data generalizing n pos len with
  | nil => cases n <;> simp [headerEnd] at h
  | cons d data ih =>
      cases n with
      | zero => simp [headerEnd] at h
      | succ n =>
          have hbehind : ∀ len, headerEnd data n (pos + 1) len = some (some k) →
              (d :: data)[k - pos]? = some LF := by
            intro len hrest
            have hle := (headerEnd_found [] (le_refl n) hrest).2.1
            have hstep : k - pos = k - (pos + 1) + 1 := by omega
            rw [hstep, List.getElem?_cons_succ]
            exact ih hrest
          unfold headerEnd at h
          split at h
          · next hd =>
            split at h
            · obtain rfl : pos = k := by simpa using h
              simp [hd]
            · exact hbehind 0 h
          · exact hbehind (len + 1) h

theorem findHeaderEnd_LF {data : List UInt8} {n k : ℕ}
    (h : findHeaderEnd data n = some (some k)) : data[k]? = some LF := by
  obtain ⟨lf, -, hend⟩ := findHeaderEnd_firstLine h
  have hle := (headerEnd_found [] (le_refl _) hend).2.1
  have hLF := headerEnd_LF hend
  rw [List.getElem?_drop] at hLF
  rwa [show lf + 1 + (k - (lf + 1)) = k by omega] at hLF

/-- The copy of the first `dl` bytes, with the zero behind them, has the header end if it
lies in them. -/
theorem findHeaderEnd_copy {data : List UInt8} {n k dl : ℕ} (hdl : dl ≤ data.length)
    (h : findHeaderEnd data n = some (some k)) (m : ℕ) :
    (∃ j, findHeaderEnd (data.take dl ++ [0]) m = some (some j)) ↔ k < dl ∧ k < m := by
  have hlen : (data.take dl).length = dl := by rw [List.length_take, Nat.min_eq_left hdl]
  -- the search in the copy, up to its zero, is the search in the data
  have hsame : ∀ tail,
      findHeaderEnd (data.take dl ++ tail) dl = findHeaderEnd (data.take dl) dl := by
    intro tail
    have happend := findHeaderEnd_append (data.take dl) tail
    rwa [hlen] at happend
  have hcopy : findHeaderEnd (data.take dl ++ [0]) dl = some (if k < dl then some k else none) := by
    have hdata := hsame (data.drop dl)
    rw [List.take_append_drop, findHeaderEnd_window h] at hdata
    rw [hsame, ← hdata]
  constructor
  · rintro ⟨j, hj⟩
    have hLF := findHeaderEnd_LF hj
    have hlt : j < dl := by
      by_contra hge
      have hlast : j = dl := by
        have hbound := (List.getElem?_eq_some_iff.mp hLF).1
        rw [List.length_append, hlen, List.length_singleton] at hbound
        omega
      rw [List.getElem?_append_right (by omega), hlen, hlast, Nat.sub_self] at hLF
      exact absurd hLF (by decide)
    have hdl := findHeaderEnd_window hj dl
    rw [if_pos hlt, hcopy] at hdl
    by_cases hk : k < dl
    · obtain rfl : k = j := by simpa [hk] using hdl
      have hm := findHeaderEnd_window hj m
      rw [hj] at hm
      refine ⟨hk, ?_⟩
      by_contra hout
      simp [hout] at hm
    · simp [hk] at hdl
  · rintro ⟨hk, hm⟩
    rw [if_pos hk] at hcopy
    exact ⟨k, by rw [findHeaderEnd_window hcopy m, if_pos hm]⟩

end Http

/-! ## What `tcp_order` cuts -/

/-- The number of the first byte of the payload. -/
def PacketT.dataSeq (packet : PacketT) : UInt32 :=
  (seqPkt packet).nxtSeq - packet.tcpDl.toUInt32

/-- The bytes that a segment linked behind `cp` loses: those before the end of the run it
starts in, and those from the start of the next node on. -/
def cutLength (packet : PacketT) (fr : UInt32) (cp : Cursor) : UInt32 :=
  let front :=
    if InRun fr (cp.node.nxtSeq - 1) (seqPkt packet) then cp.node.nxtSeq - packet.dataSeq else 0
  let back :=
    match cp.after with
    | [] => 0
    | aft :: _ =>
        if (seqPkt packet).nxtSeq ≤ aft.seq then 0 else (seqPkt packet).nxtSeq - aft.seq
  front + back

/-- The bytes that a segment loses in the list, unless it is dropped as a retransmission. -/
def cutBy (lst : SeqList) (packet : PacketT) : Option UInt32 :=
  match lst with
  | .null => some 0
  | .withLast last =>
      match placeOf (seqPkt packet) last with
      | .atEnd => some 0
      | .within fr cp =>
          if IsRetransmission (seqPkt packet) fr cp then none else some (cutLength packet fr cp)

/-- The packet of a linked segment has its payload copy, and `tcp_dl` less the bytes cut. -/
theorem fitted_tcpDl (packet : PacketT) (fr : UInt32) (cp : Cursor) :
    ∃ q, (fitted (seqPkt packet) fr cp).pkt = some q ∧ q.tcpOdata = packet.tcpOdata ∧
      q.type = packet.type ∧ q.tcpDl = packet.tcpDl - (cutLength packet fr cp).toUInt16 := by
  have hfront : ∃ q, (if InRun fr (cp.node.nxtSeq - 1) (seqPkt packet) then
        (seqPkt packet).trimFront (cp.node.nxtSeq - 1) else seqPkt packet).pkt = some q ∧
      q.tcpOdata = packet.tcpOdata ∧ q.type = packet.type ∧
      q.tcpDl = packet.tcpDl - (if InRun fr (cp.node.nxtSeq - 1) (seqPkt packet) then
        cp.node.nxtSeq - packet.dataSeq else 0).toUInt16 := by
    split
    · refine ⟨_, rfl, rfl, rfl, ?_⟩
      show ((seqPkt packet).nxtSeq - 1 - (cp.node.nxtSeq - 1)).toUInt16 = _
      simp only [PacketT.dataSeq, UInt32.toUInt16_sub, UInt16.toUInt16_toUInt32]
      grind
    · exact ⟨packet, rfl, rfl, rfl, by simp⟩
  obtain ⟨q, hq, hodata, htype, hdl⟩ := hfront
  have hnxt : (if InRun fr (cp.node.nxtSeq - 1) (seqPkt packet) then
      (seqPkt packet).trimFront (cp.node.nxtSeq - 1) else seqPkt packet).nxtSeq =
        (seqPkt packet).nxtSeq := by
    split <;> rfl
  unfold fitted cutLength
  cases cp.after with
  | nil => exact ⟨q, hq, hodata, htype, by simpa using hdl⟩
  | cons aft rest =>
      dsimp only
      unfold SeqT.fitBefore
      rw [hnxt]
      split
      · exact ⟨q, hq, hodata, htype, by simpa using hdl⟩
      · refine ⟨{ q with
          tcpDl := (q.tcpDl.toUInt32 - ((seqPkt packet).nxtSeq - aft.seq)).toUInt16 },
          ?_, hodata, htype, ?_⟩
        · rw [SeqT.trimBack, hq, hnxt]
          rfl
        · dsimp only
          rw [hdl]
          simp only [UInt32.toUInt16_sub, UInt32.toUInt16_add, UInt16.toUInt16_toUInt32]
          grind

/-- **What becomes of a segment in a list**: it is dropped, or linked with so many bytes
less. -/
theorem tcpOrderDir_cutBy (lst : SeqList) (num : UInt32) (packet : PacketT) :
    (cutBy lst packet = none ∧
        (tcpOrderDir lst num (seqPkt packet)).list.nodes = lst.nodes) ∨
      ∃ cut n q L R, cutBy lst packet = some cut ∧ lst.nodes = L ++ R ∧
        (tcpOrderDir lst num (seqPkt packet)).list.nodes = L ++ n :: R ∧ n.pkt = some q ∧
        q.tcpOdata = packet.tcpOdata ∧ q.type = packet.type ∧
        q.tcpDl = packet.tcpDl - cut.toUInt16 := by
  rcases tcpOrderDir_cases lst num (seqPkt packet) with ⟨last, fr, cp, rfl, hplace, hre, hres⟩ |
    ⟨hend, hnodes, -⟩ | ⟨last, fr, cp, rfl, hplace, hre, hold, hnodes, -⟩
  · refine .inl ⟨?_, by rw [hres]⟩
    rw [cutBy, hplace]
    exact if_pos hre
  · refine .inr ⟨0, seqPkt packet, packet, lst.nodes, [], ?_, by simp, hnodes, rfl, rfl, rfl,
      by simp⟩
    rcases hend with rfl | ⟨last, rfl, hplace⟩
    · rfl
    · rw [cutBy, hplace]
  · obtain ⟨q, hq, hodata, htype, hdl⟩ := fitted_tcpDl packet fr cp
    refine .inr ⟨cutLength packet fr cp, fitted (seqPkt packet) fr cp, q, cp.before ++ [cp.node],
      cp.after, ?_, by simpa using hold, by simpa using hnodes, hq, hodata, htype, hdl⟩
    rw [cutBy, hplace]
    exact if_neg hre

/-! ## Packets of the HTTP protocol -/

/-- A captured frame that `packet_preprocess` puts as `packet` on the queue of the HTTP
protocol. -/
structure HttpPacket (protocols : List Protocol) where
  frame : Frame
  addr : ℕ
  rawPkt : RawPkt
  captured : captureMain frame addr = some (some rawPkt)
  payload : Payload
  carried : payloadOf protocols rawPkt = some payload
  http : payload.protocol.kind = .http
  packet : PacketT
  queued : packetPreprocess protocols rawPkt = some (some (payload.index, packet))

/-- Where `find_header_end` finds the end of the header in the payload. -/
def Payload.headerEnd (x : Payload) : Option ℕ :=
  (Http.findHeaderEnd x.cp x.pkt.tcpDl.toNat).join

/-- The packet is of the type that `extractPair` parses in its direction. -/
def Parsed (packet : PacketT) (src : Bool) : Prop := packet.type = if src then REQ else RSP

instance (packet : PacketT) (src : Bool) : Decidable (Parsed packet src) := by
  unfold Parsed
  infer_instance

/-- `find_header_end` as the constructors of `Request` and `Response` call it. -/
def PacketT.headerEnd (p : PacketT) : Option (Option ℕ) :=
  p.tcpOdata.bind fun data => Http.findHeaderEnd data (p.tcpDl.toNat + 1)

/-- The constructor finds the end of the header. -/
def PacketT.EndsHeader (p : PacketT) : Prop := ∃ k, p.headerEnd = some (some k)

namespace Http

/-- A payload is accepted for its header end. -/
theorem isRequest_headerEnd {data : List UInt8} {n k : ℕ} (h : isRequest data n = some (some k)) :
    findHeaderEnd data n = some (some k) := by
  unfold isRequest at h
  obtain ⟨code, -, h⟩ := Option.bind_eq_some_iff.mp h
  split at h
  · cases h
  · exact h

theorem isResponse_headerEnd {data : List UInt8} {n k : ℕ}
    (h : isResponse data n = some (some k)) : findHeaderEnd data n = some (some k) := by
  unfold isResponse at h
  split at h
  · cases h
  · obtain ⟨version, -, h⟩ := Option.bind_eq_some_iff.mp h
    split at h
    · exact h
    · cases h

end Http

section HttpPacket

variable {protocols : List Protocol} (a : HttpPacket protocols)

/-- A packet that is parsed was accepted for its header end, and holds a copy of what
follows its TCP header. -/
theorem HttpPacket.parsed {src : Bool} (h : Parsed a.packet src) :
    (∃ k, a.payload.headerEnd = some k ∧
        Http.findHeaderEnd a.payload.cp a.payload.pkt.tcpDl.toNat = some (some k)) ∧
      a.packet.tcpDl = capturedDl a.payload.pkt ∧
      a.packet.tcpDl.toNat ≤ a.payload.cp.length ∧
      a.packet.tcpOdata = some (a.payload.cp.take a.packet.tcpDl.toNat ++ [0]) := by
  have hend : ∀ k, Http.findHeaderEnd a.payload.cp a.payload.pkt.tcpDl.toNat = some (some k) →
      ∃ k, a.payload.headerEnd = some k ∧
        Http.findHeaderEnd a.payload.cp a.payload.pkt.tcpDl.toNat = some (some k) := by
    intro k hk
    exact ⟨k, by rw [Payload.headerEnd, hk]; rfl, hk⟩
  have hclassify := enqueued_eq a.carried a.queued
  have hnew := payloadOf_type a.carried
  have htype : a.packet.type ≠ 0 := by
    rw [Parsed] at h
    rw [h]
    cases src <;> decide
  unfold classify Protocol.isHeaderPacket Protocol.isRequest Protocol.isResponse at hclassify
  simp only [a.http] at hclassify
  cases hreq : Http.isRequest a.payload.cp a.payload.pkt.tcpDl.toNat with
  | none => simp [hreq] at hclassify
  | some req =>
      cases hrsp : Http.isResponse a.payload.cp a.payload.pkt.tcpDl.toNat with
      | none => simp [hreq, hrsp] at hclassify
      | some rsp =>
          cases req with
          | some k =>
              obtain ⟨hle, hpacket⟩ := copyPayload_eq (by simpa [hreq, hrsp] using hclassify)
              rw [hpacket]
              exact ⟨hend k (Http.isRequest_headerEnd hreq), rfl, hle, rfl⟩
          | none =>
              cases rsp with
              | some k =>
                  obtain ⟨hle, hpacket⟩ := copyPayload_eq (by simpa [hreq, hrsp] using hclassify)
                  rw [hpacket]
                  exact ⟨hend k (Http.isResponse_headerEnd hrsp), rfl, hle, rfl⟩
              | none =>
                  -- no header: the packet keeps its type
                  refine absurd ?_ htype
                  have hpacket : { a.payload.pkt with tcpOdata := none, tcpData := none } =
                      a.packet := by
                    simpa [hreq, hrsp] using hclassify
                  rw [← hpacket]
                  exact hnew

/-- With so many bytes cut, the constructor finds the end of the header if it is among
those copied and among those left. -/
theorem HttpPacket.endsHeader_iff {src : Bool} (h : Parsed a.packet src) {q : PacketT}
    (hodata : q.tcpOdata = a.packet.tcpOdata) :
    q.EndsHeader ↔ ∀ k ∈ a.payload.headerEnd,
      k < a.packet.tcpDl.toNat ∧ k ≤ q.tcpDl.toNat := by
  obtain ⟨⟨k, hk, hfound⟩, -, hle, hcopy⟩ := a.parsed h
  have hsearch := Http.findHeaderEnd_copy hle hfound (q.tcpDl.toNat + 1)
  unfold PacketT.EndsHeader PacketT.headerEnd
  rw [hodata, hcopy, Option.bind_some, hsearch, hk, Nat.lt_succ_iff]
  simp

end HttpPacket

/-! ## Runs -/

/-- A call on an HTTP flow. -/
inductive HttpCall (protocols : List Protocol) where
  | addPacket (now : Clock) (a : HttpPacket protocols) (src : Bool) : HttpCall protocols
  | extractPair (closed : Bool) : HttpCall protocols
  | extractData : HttpCall protocols

/-- The call as one on any flow. -/
def HttpCall.call {protocols : List Protocol} : HttpCall protocols → Call
  | .addPacket now a src => .addPacket now a.packet src
  | .extractPair closed => .extractPair closed
  | .extractData => .extractData

/-- The header end is among the bytes copied, and among those that the list leaves of the
segment, unless it drops it. -/
def HttpPacket.Fits {protocols : List Protocol} (a : HttpPacket protocols) (lst : SeqList) :
    Prop :=
  ∀ cut ∈ cutBy lst a.packet, ∀ k ∈ a.payload.headerEnd,
    k < a.packet.tcpDl.toNat ∧ k ≤ (a.packet.tcpDl - cut.toUInt16).toNat

instance {protocols : List Protocol} (a : HttpPacket protocols) (lst : SeqList) :
    Decidable (a.Fits lst) :=
  Option.decidableForallMem (cutBy lst a.packet)

/-- The guard of one call: the header end of a packet that will be parsed is not cut off. -/
def KeepsHeaderEnd {protocols : List Protocol} (w : Watched) : HttpCall protocols → Prop
  | .addPacket _ a src =>
      Stored a.packet src → Parsed a.packet src → a.Fits (w.flow.order.dir src)
  | _ => True

instance {protocols : List Protocol} (w : Watched) (c : HttpCall protocols) :
    Decidable (KeepsHeaderEnd w c) := by
  cases c <;> unfold KeepsHeaderEnd <;> infer_instance

/-- The nodes whose packets are to be parsed hold their header ends. -/
def HeaderEndsInside (w : Watched) : Prop :=
  ∀ dir, ∀ n ∈ (w.flow.order.dir dir).nodes, ∀ p, n.pkt = some p → Parsed p dir → p.EndsHeader

section Runs

variable (flt : FlowFilter) (rspHdlen : Option (List UInt8) → UInt16 → Int)
  {protocols : List Protocol}

/-- One call on an HTTP flow. -/
def httpStep (w : Watched) (c : HttpCall protocols) : Option Watched :=
  callStep flt rspHdlen w c.call

/-- Every header that a call parses has an end. -/
def FindsHeaderEnds (w : Watched) : HttpCall protocols → Prop
  | .extractPair closed =>
      (∀ e ∈ requestLog w.flow, e.2.EndsHeader) ∧
        ∀ e ∈ responseLog rspHdlen w.flow closed, e.2.EndsHeader
  | _ => True

/-- The packets of these nodes hold their header ends. -/
def EndsInside (dir : Bool) (nodes : List SeqT) : Prop :=
  ∀ n ∈ nodes, ∀ p, n.pkt = some p → Parsed p dir → p.EndsHeader

/-- One node more adds what its own packet needs. -/
theorem endsInside_insert_iff {dir : Bool} {L R : List SeqT} (h : EndsInside dir (L ++ R))
    {n : SeqT} {q : PacketT} (hpkt : n.pkt = some q) :
    EndsInside dir (L ++ n :: R) ↔ (Parsed q dir → q.EndsHeader) := by
  constructor
  · intro hall
    exact hall n (by simp) q hpkt
  · intro hq m hm p hp
    rcases List.mem_append.mp hm with hm | hm
    · exact h m (List.mem_append_left _ hm) p hp
    rcases List.mem_cons.mp hm with rfl | hm
    · obtain rfl : q = p := Option.some.inj (hpkt.symm.trans hp)
      exact hq
    · exact h m (List.mem_append_right _ hm) p hp

/-- A segment that is stored leaves the header ends of its list inside exactly if its own is
not cut off. -/
theorem tcpOrderDir_endsInside_iff {lst : SeqList} {src : Bool} (h : EndsInside src lst.nodes)
    (num : UInt32) (a : HttpPacket protocols) :
    EndsInside src (tcpOrderDir lst num (seqPkt a.packet)).list.nodes ↔
      (Parsed a.packet src → a.Fits lst) := by
  rcases tcpOrderDir_cutBy lst num a.packet with
    ⟨hcut, hnodes⟩ | ⟨cut, n, q, L, R, hcut, hlist, hnodes, hpkt, hodata, htype, hdl⟩
  · -- dropped
    rw [hnodes]
    refine iff_of_true h fun _ cut hcut' => ?_
    rw [hcut] at hcut'
    cases hcut'
  · -- linked
    rw [hlist] at h
    have hparsed : Parsed q src ↔ Parsed a.packet src := by rw [Parsed, Parsed, htype]
    have hends : Parsed a.packet src → (q.EndsHeader ↔ a.Fits lst) := by
      intro hp
      rw [a.endsHeader_iff hp hodata, hdl]
      simp [HttpPacket.Fits, hcut]
    rw [hnodes, endsInside_insert_iff h hpkt, hparsed]
    exact forall_congr' hends

/-- An arriving packet leaves the header ends inside exactly if its own is not cut off. -/
theorem addPacket_headerEnds_iff {w : Watched} {a : HttpPacket protocols} {now : Clock}
    {src : Bool} {f : Flow} (hw : HeaderEndsInside w)
    (hf : w.flow.receive now a.packet src = some f) :
    HeaderEndsInside { w with flow := f } ↔ KeepsHeaderEnd w (.addPacket now a src) := by
  obtain ⟨hdrop, rfl⟩ := (Flow.receive_eq_some w.flow now a.packet src).mp hf
  by_cases hst : Stored a.packet src
  · have hdir := hst.addPacket_dir w.flow now
    -- only the list of the packet's direction changes
    have hone : HeaderEndsInside { w with flow := (w.flow.addPacket now a.packet src).flow } ↔
        EndsInside src (tcpOrderDir (w.flow.order.dir src) w.flow.order.num
          (seqPkt a.packet)).list.nodes := by
      constructor
      · intro h
        have hsrc := h src
        dsimp only at hsrc
        rwa [hdir, if_pos rfl] at hsrc
      · intro h dir
        dsimp only
        rw [hdir]
        split
        · next hd => exact hd ▸ h
        · exact hw dir
    rw [hone, tcpOrderDir_endsInside_iff (hw src)]
    exact ⟨fun h _ => h, fun h => h hst⟩
  · -- a node without a packet
    refine iff_of_true ?_ fun h => absurd h hst
    have hpkt : (arrivalSeq a.packet src).pkt = none := by simp [arrivalSeq, hst]
    intro dir n hn p hp
    rcases Flow.mem_addPacket_order w.flow now a.packet src hdrop hn with hn | ⟨-, hnew⟩
    · exact hw dir n hn p hp
    · have htype := hnew.type
      simp [hpkt, hp] at htype

/-- **One call** leaves the header ends inside exactly if it meets the guard. -/
theorem httpStep_headerEnds_iff {w w' : Watched} {c : HttpCall protocols}
    (hw : HeaderEndsInside w) (hstep : httpStep flt rspHdlen w c = some w') :
    HeaderEndsInside w' ↔ KeepsHeaderEnd w c := by
  cases c with
  | addPacket now a src =>
      obtain ⟨f, hf, rfl⟩ := Option.map_eq_some_iff.mp hstep
      exact addPacket_headerEnds_iff hw hf
  | extractPair closed =>
      obtain ⟨⟨f, ret⟩, hcall, rfl⟩ := Option.map_eq_some_iff.mp hstep
      obtain ⟨hsrc, hdst⟩ := extractPair_nodes rspHdlen hcall
      have hkeep : ∀ type dir (n : SeqT), (∀ p, n.pkt = some p → Parsed p dir → p.EndsHeader) →
          ∀ p, (n.process type).pkt = some p → Parsed p dir → p.EndsHeader := by
        intro type dir n hn p hp
        rw [SeqT.process_pkt] at hp
        exact hn p hp
      refine iff_of_true (fun dir => ?_) trivial
      cases dir with
      | true => exact hsrc.forall_mem (hkeep REQ true) (hw true)
      | false => exact hdst.forall_mem (hkeep RSP false) (hw false)
  | extractData =>
      obtain rfl := Option.some.inj hstep
      obtain ⟨horder, -⟩ := extractData_frame flt w.flow
      refine iff_of_true ?_ trivial
      intro dir
      dsimp only
      rw [horder]
      exact hw dir

/-- A new flow has no nodes. -/
theorem headerEndsInside_new (mem : Flow) (s : FlowS) : HeaderEndsInside ⟨Flow.new mem s, []⟩ := by
  intro dir n hn
  cases dir <;> simp [OrderT.new, OrderT.dir, SeqList.nodes] at hn

/-- **When the nodes hold their header ends**: in every state of a run of calls on a new
flow exactly when no call cuts the header end off the packet that arrives. -/
theorem header_ends_inside_iff (mem : Flow) (s : FlowS) (calls : List (HttpCall protocols)) :
    EveryState (httpStep flt rspHdlen) HeaderEndsInside ⟨Flow.new mem s, []⟩ calls ↔
      EveryStep (httpStep flt rspHdlen) KeepsHeaderEnd ⟨Flow.new mem s, []⟩ calls := by
  refine everyState_iff_everyStep (fun w hw => hw)
    (fun w c w' hw hstep => httpStep_headerEnds_iff flt rspHdlen hw hstep)
    (fun w c w' _ _ h => h) (fun w c _ hnone => ?_) (headerEndsInside_new mem s)
  cases c with
  | addPacket now a src =>
      -- a packet that drops the flow is not stored
      intro hst
      have hreceive : w.flow.receive now a.packet src = none := Option.map_eq_none_iff.mp hnone
      unfold Flow.receive at hreceive
      split at hreceive
      · next hdrop => exact absurd hdrop.1 (by simp [hst.2.1])
      · cases hreceive
  | extractPair closed => trivial
  | extractData => trivial

/-! ## What is parsed -/

/-- A request is taken from a node that waits for it. -/
theorem mem_reqLog {fin : Option SeqT} {addr : ℕ} {nodes : List SeqT} {e : ℕ × PacketT}
    (h : e ∈ reqLog fin addr nodes) : e.2 ∈ pending REQ nodes := by
  have hmem : e.2 ∈ (reqLog fin addr nodes).map (·.2) := List.mem_map_of_mem h
  rw [map_reqLog] at hmem
  exact ((List.takeWhile_sublist _).filterMap _).subset hmem

/-- So is a response. -/
theorem mem_rspLog {fin : Option SeqT} {st : RspState} {nodes : List SeqT} {e : ℕ × PacketT}
    (h : e ∈ rspLog rspHdlen fin st nodes) : e.2 ∈ pending RSP nodes := by
  induction nodes generalizing st with
  | nil => exact absurd h List.not_mem_nil
  | cons seq rest ih =>
      unfold rspLog at h
      unfold pending
      split at h
      · cases hpkt : unprocessed RSP seq with
        | none =>
            simp only [hpkt] at h
            rw [List.filterMap_cons_none hpkt]
            split at h
            · exact ih h
            · exact ih h
        | some pkt =>
            simp only [hpkt] at h
            rw [List.filterMap_cons_some hpkt]
            split at h
            · exact absurd h List.not_mem_nil
            · exact absurd h List.not_mem_nil
            · exact List.mem_cons_of_mem _ (ih h)
            · rcases List.mem_append.mp h with h | h
              · obtain ⟨pair, -, rfl⟩ := Option.map_eq_some_iff.mp (Option.mem_toList.mp h)
                exact List.mem_cons_self
              · exact List.mem_cons_of_mem _ (ih h)
      · exact absurd h List.not_mem_nil

/-- Where the header ends are inside, every header that a call parses has its end. -/
theorem HeaderEndsInside.finds {w : Watched} (hw : HeaderEndsInside w) (c : HttpCall protocols) :
    FindsHeaderEnds rspHdlen w c := by
  cases c with
  | addPacket now a src => trivial
  | extractPair closed =>
      constructor
      · intro e he
        obtain ⟨n, hn, hpkt, htype⟩ := mem_pending (mem_reqLog he)
        exact hw true n hn e.2 hpkt htype
      · intro e he
        unfold responseLog at he
        split at he
        · exact absurd he List.not_mem_nil
        · split at he
          · exact absurd he List.not_mem_nil
          · obtain ⟨n, hn, hpkt, htype⟩ := mem_pending (mem_rspLog rspHdlen he)
            exact hw false n hn e.2 hpkt htype
  | extractData => trivial

/-- **The header end is found at parse time** at every call of a run in which no call cuts
the header end off the packet that arrives. -/
theorem header_end_found (mem : Flow) (s : FlowS) (calls : List (HttpCall protocols))
    (h : EveryStep (httpStep flt rspHdlen) KeepsHeaderEnd ⟨Flow.new mem s, []⟩ calls) :
    EveryStep (httpStep flt rspHdlen) (FindsHeaderEnds rspHdlen) ⟨Flow.new mem s, []⟩ calls := by
  intro before c hbefore w hrun
  have hall := (header_ends_inside_iff flt rspHdlen mem s calls).mpr h
  have hprefix : before <+: calls := (List.prefix_append before [c]).trans hbefore
  exact (hall before hprefix w hrun).finds rspHdlen c

end Runs

/-! ## A header cut by a retransmission -/

/-- A frame with the bytes `bytes` of a client's stream to port 80, from number `seq` on. -/
def webFrame (seq : UInt8) (bytes : List UInt8) : RawPkt where
  raw := List.replicate 12 0 ++ [0x08, 0x00] ++
    ([0x45, 0x00, 0x00, UInt8.ofNat (40 + bytes.length)] ++ List.replicate 5 0 ++ [0x06] ++
      List.replicate 10 0) ++
    ([0x0f, 0xa0, 0x00, 80, 0, 0, 0, seq] ++ List.replicate 4 0 ++ [0x50, TH_ACK] ++
      List.replicate 6 0) ++ bytes
  tvSec := 0
  tvUsec := 0
  caplen := UInt32.ofNat (54 + bytes.length)
  addr := 0

/-- Its payload. -/
def webPayload (seq : UInt8) (bytes : List UInt8) : Payload where
  pkt :=
    { addr := 0, capSec := 0, capUsec := 0, rawLen := UInt32.ofNat (54 + bytes.length)
      saddr := 0, daddr := 0, sport := 4000, dport := 80, ipHl := 20
      ipTol := UInt16.ofNat (40 + bytes.length), ipPro := 6, tcpSeq := seq.toUInt32, tcpAck := 0
      tcpFlags := TH_ACK, tcpHl := 20, tcpDl := UInt16.ofNat bytes.length, type := 0
      tcpOdata := none, tcpData := none }
  cp := bytes
  protocol := Protocol.http
  index := 0

/-- Frame, payload and packet of such a segment. -/
def webSegment (seq : UInt8) (bytes : List UInt8) (packet : PacketT)
    (hframe : (webFrame seq bytes).raw.length ≤ (webFrame seq bytes).caplen.toNat)
    (hcaptured : captureMain ⟨(webFrame seq bytes).raw, (webFrame seq bytes).caplen, 0, 0, hframe⟩ 0
      = some (some (webFrame seq bytes)))
    (hcarried : payloadOf [Protocol.http] (webFrame seq bytes) = some (webPayload seq bytes))
    (hqueued : packetPreprocess [Protocol.http] (webFrame seq bytes) = some (some (0, packet))) :
    HttpPacket [Protocol.http] where
  frame := ⟨(webFrame seq bytes).raw, (webFrame seq bytes).caplen, 0, 0, hframe⟩
  addr := 0
  rawPkt := webFrame seq bytes
  captured := hcaptured
  payload := webPayload seq bytes
  carried := hcarried
  http := rfl
  packet := packet
  queued := hqueued

/-- The request `GET / HTTP/1.1` without further lines, 18 bytes. -/
def getRoot : List UInt8 := chars "GET / HTTP/1.1" ++ [CR, LF, CR, LF]

/-- The packet of a segment that is such a request. -/
def getPkt (seq : UInt8) : PacketT :=
  { (webPayload seq getRoot).pkt with
    type := REQ
    tcpOdata := some (getRoot ++ [0])
    tcpData := some 0 }

def firstGet : HttpPacket [Protocol.http] :=
  webSegment 100 getRoot (getPkt 100) (by decide) (by decide) (by decide) (by decide)

def secondGet : HttpPacket [Protocol.http] :=
  webSegment 118 getRoot (getPkt 118) (by decide) (by decide) (by decide) (by decide)

/-- The last six bytes of the second request, sent on their own. -/
def secondGetEnd : HttpPacket [Protocol.http] :=
  webSegment 130 (getRoot.drop 12) (webPayload 130 (getRoot.drop 12)).pkt (by decide) (by decide)
    (by decide) (by decide)

/-- Two requests in order, the second repeated. -/
theorem header_end_found_in_order :
    EveryStep (httpStep noFilter fun _ _ => 0) (FindsHeaderEnds fun _ _ => 0)
      ⟨Flow.new Flow.zero ⟨0, 0, 4000, 80⟩, []⟩
      [.addPacket ⟨0, 0⟩ firstGet true, .addPacket ⟨0, 0⟩ secondGet true,
        .addPacket ⟨0, 0⟩ secondGet true, .extractPair true] :=
  header_end_found noFilter (fun _ _ => 0) Flow.zero ⟨0, 0, 4000, 80⟩ _ (by decide)

/-- The end of the second request arrives first.  Of the whole request, sent once more, the
list keeps the 12 bytes before it, and in the 13 bytes that the constructor searches there
is no header end. -/
theorem header_end_lost :
    ¬ ∀ (protocols : List Protocol) (flt : FlowFilter)
        (rspHdlen : Option (List UInt8) → UInt16 → Int) (mem : Flow) (s : FlowS)
        (calls : List (HttpCall protocols)),
      EveryStep (httpStep flt rspHdlen) (FindsHeaderEnds rspHdlen) ⟨Flow.new mem s, []⟩ calls := by
  intro hall
  have hnull : ((run (httpStep noFilter fun _ _ => 0) ⟨Flow.new Flow.zero ⟨0, 0, 4000, 80⟩, []⟩
      [.addPacket ⟨0, 0⟩ firstGet true, .addPacket ⟨0, 0⟩ secondGetEnd true,
        .addPacket ⟨0, 0⟩ secondGet true]).any fun w =>
      (requestLog w.flow).any fun e => e.2.headerEnd = some none) = true := by
    decide
  simp only [Option.any_eq_true, List.any_eq_true, decide_eq_true_eq] at hnull
  obtain ⟨w, hrun, e, he, hend⟩ := hnull
  have hfinds := hall [Protocol.http] noFilter (fun _ _ => 0) Flow.zero ⟨0, 0, 4000, 80⟩
    ([.addPacket ⟨0, 0⟩ firstGet true, .addPacket ⟨0, 0⟩ secondGetEnd true,
      .addPacket ⟨0, 0⟩ secondGet true] ++ [.extractPair true]) _ _ (List.prefix_refl _) w hrun
  obtain ⟨k, hk⟩ := hfinds.1 e he
  simp [hend] at hk

end MonitoringTool.Sniffer
