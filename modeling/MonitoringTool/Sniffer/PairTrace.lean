import MonitoringTool.Sniffer.ExtractData
import MonitoringTool.Sniffer.ExtractNodes

/-!
# Where requests and responses come from

A traced flow is a flow with the packets handed to it, in order, and with what the calls
of `extractPair` made of them (`requestLog`, `responseLog`).  A packet's address is its
number in that order, so a node's packet names the `add_packet` call it came with.

`Ledger` relates the pair chain to the two logs, whatever the order lists hold; each step
of the walks keeps it.  `pairing_sound` puts it together with the nodes' side: a packet is
taken at most once.
-/

namespace MonitoringTool.Sniffer

open Lib

/-! ## The traced flow -/

/-- A flow, the packets it was handed with their directions, and the packets its requests
and its responses were taken from, with the pairs they went to. -/
structure Traced where
  flow : Flow
  handed : List (PacketT × Bool)
  requests : List (ℕ × PacketT)
  responses : List (ℕ × PacketT)

section Tracing

variable (flt : FlowFilter) (rspHdlen : Option (List UInt8) → UInt16 → Int)

/-- One call, with its traces. -/
def traceStep (s : Traced) : Call → Option Traced
  | .addPacket now packet src =>
      let packet := { packet with addr := s.handed.length }
      (s.flow.receive now packet src).map fun f =>
        { s with flow := f, handed := s.handed ++ [(packet, src)] }
  | .extractPair closed =>
      (extractPair rspHdlen s.flow closed).map fun (f, _) =>
        { s with
          flow := f
          requests := s.requests ++ requestLog s.flow
          responses := s.responses ++ responseLog rspHdlen s.flow closed }
  | .extractData => some { s with flow := (extractData flt s.flow).1 }

/-- The packet of a node of that direction: one that was handed over in it, perhaps cut
since. -/
def Handed (handed : List (PacketT × Bool)) (src : Bool) (p : PacketT) : Prop :=
  ∃ q, handed[p.addr]? = some (q, src) ∧ p.CutFrom q

/-- The pairing is sound. -/
structure PairedSoundly (s : Traced) : Prop where
  /-- Every pair has a request, with the numbers of the packet it was taken from. -/
  request : ∀ p ∈ s.flow.pairs, ∃ req pkt, p.requestHeader = some req ∧
    (p.addr, pkt) ∈ s.requests ∧ req.seq = pkt.tcpSeq ∧
      req.nxtSeq = pkt.tcpSeq + pkt.tcpDl.toUInt32
  /-- A response has the header length of the packet it was taken from. -/
  response : ∀ p ∈ s.flow.pairs, ∀ rsp, p.responseHeader = some rsp →
    ∃ pkt, (p.addr, pkt) ∈ s.responses ∧ rsp.hdlen = rspHdlen pkt.tcpOdata pkt.tcpDl
  /-- A pair without a response was never given one. -/
  unanswered : ∀ p ∈ s.flow.pairs, p.responseHeader = none → p.addr ∉ s.responses.map (·.1)
  /-- The requests come from source nodes of their type. -/
  request_node : ∀ e ∈ s.requests, e.2.type = REQ ∧ Handed s.handed true e.2
  /-- The responses come from destination nodes of their type, and acknowledge the
  request of their pair. -/
  response_node : ∀ e ∈ s.responses, e.2.type = RSP ∧ Handed s.handed false e.2 ∧
    ∃ req, (e.1, req) ∈ s.requests ∧ e.2.tcpAck = req.tcpSeq + req.tcpDl.toUInt32
  /-- A pair is given one request and at most one response. -/
  one_request : (s.requests.map (·.1)).Nodup
  one_response : (s.responses.map (·.1)).Nodup
  /-- A packet, and so its node, is taken for at most one request and one response. -/
  request_once : (s.requests.map (·.2.addr)).Nodup
  response_once : (s.responses.map (·.2.addr)).Nodup

/-! ## The pair chain and the logs -/

/-- The chain `pairs`, whose next pair is `nextPair`, agrees with the logs. -/
structure Ledger (pairs : List Pair) (nextPair : ℕ) (requests responses : List (ℕ × PacketT)) :
    Prop where
  nodup : (pairs.map (·.addr)).Nodup
  below : ∀ e ∈ requests, e.1 < nextPair
  request : ∀ p ∈ pairs, ∃ req pkt, p.requestHeader = some req ∧
    (p.addr, pkt) ∈ requests ∧ req.seq = pkt.tcpSeq ∧ req.nxtSeq = pkt.tcpSeq + pkt.tcpDl.toUInt32
  response : ∀ p ∈ pairs, ∀ rsp, p.responseHeader = some rsp →
    ∃ pkt, (p.addr, pkt) ∈ responses ∧ rsp.hdlen = rspHdlen pkt.tcpOdata pkt.tcpDl
  unanswered : ∀ p ∈ pairs, p.responseHeader = none → p.addr ∉ responses.map (·.1)
  acknowledges : ∀ e ∈ responses, ∃ req, (e.1, req) ∈ requests ∧
    e.2.tcpAck = req.tcpSeq + req.tcpDl.toUInt32
  one_request : (requests.map (·.1)).Nodup
  one_response : (responses.map (·.1)).Nodup

namespace Ledger

variable {rspHdlen} {pairs : List Pair} {nextPair : ℕ} {requests responses : List (ℕ × PacketT)}

/-- `q` is `p` as far as the ledger goes. -/
def SameEntry (p q : Pair) : Prop :=
  q.addr = p.addr ∧
    q.requestHeader.map (fun r => (r.seq, r.nxtSeq)) =
      p.requestHeader.map (fun r => (r.seq, r.nxtSeq)) ∧
    q.responseHeader.map (·.hdlen) = p.responseHeader.map (·.hdlen)

/-- Pairs may go, and change in what the ledger does not look at. -/
theorem weaken (h : Ledger rspHdlen pairs nextPair requests responses) {pairs' : List Pair}
    (hsub : (pairs'.map (·.addr)).Sublist (pairs.map (·.addr)))
    (hsame : ∀ q ∈ pairs', ∃ p ∈ pairs, SameEntry p q) :
    Ledger rspHdlen pairs' nextPair requests responses where
  nodup := h.nodup.sublist hsub
  below := h.below
  request := by
    intro q hq
    obtain ⟨p, hp, haddr, hreq, -⟩ := hsame q hq
    obtain ⟨req, pkt, hp₁, hp₂, hp₃, hp₄⟩ := h.request p hp
    rw [hp₁] at hreq
    obtain ⟨req', hq₁, hpair⟩ := Option.map_eq_some_iff.mp hreq
    simp only [Prod.mk.injEq] at hpair
    refine ⟨req', pkt, hq₁, haddr ▸ hp₂, hpair.1.trans hp₃, hpair.2.trans hp₄⟩
  response := by
    intro q hq rsp hrsp
    obtain ⟨p, hp, haddr, -, hdl⟩ := hsame q hq
    rw [hrsp] at hdl
    obtain ⟨rsp', hp₁, hlen⟩ := Option.map_eq_some_iff.mp hdl.symm
    obtain ⟨pkt, hp₂, hp₃⟩ := h.response p hp rsp' hp₁
    exact ⟨pkt, haddr ▸ hp₂, hlen.symm.trans hp₃⟩
  unanswered := by
    intro q hq hnone
    obtain ⟨p, hp, haddr, -, hdl⟩ := hsame q hq
    rw [hnone] at hdl
    rw [haddr]
    exact h.unanswered p hp (Option.map_eq_none_iff.mp hdl.symm)
  acknowledges := h.acknowledges
  one_request := h.one_request
  one_response := h.one_response

/-- A store into one pair that keeps its entry. -/
theorem modify (h : Ledger rspHdlen pairs nextPair requests responses) (i : ℕ) {g : Pair → Pair}
    (hg : ∀ p, SameEntry p (g p)) :
    Ledger rspHdlen (pairs.modify i g) nextPair requests responses := by
  have hrefl : ∀ p, SameEntry p p := fun p => ⟨rfl, rfl, rfl⟩
  apply h.weaken
  · rw [map_modify_of_eq fun p => (hg p).1]
  · intro q hq
    exact exists_of_mem_forall₂ (forall₂_modify hrefl hg pairs i) hq

theorem lt_nextPair (h : Ledger rspHdlen pairs nextPair requests responses) {p : Pair}
    (hp : p ∈ pairs) : p.addr < nextPair := by
  obtain ⟨-, pkt, -, hlog, -⟩ := h.request p hp
  exact h.below _ hlog

/-- A response is attached to a pair that has none and whose request it acknowledges. -/
theorem answer (h : Ledger rspHdlen pairs nextPair requests responses) {i : ℕ} {pair : Pair}
    {req : Request} (seq : SeqT) {pkt : PacketT} (hat : pairs[i]? = some pair)
    (hreq : pair.requestHeader = some req) (hrsp : pair.responseHeader = none)
    (hack : req.nxtSeq = pkt.tcpAck) :
    Ledger rspHdlen (pairs.modify i (·.startResponse rspHdlen seq pkt)) nextPair requests
      (responses ++ [(pair.addr, pkt)]) := by
  have hmem : pair ∈ pairs := List.mem_of_getElem? hat
  have haddrs : (pairs.modify i (·.startResponse rspHdlen seq pkt)).map (·.addr) =
      pairs.map (·.addr) :=
    map_modify_of_eq (f := fun p => p.startResponse rspHdlen seq pkt) (fun _ => rfl) pairs i
  have hcases : ∀ q ∈ pairs.modify i (·.startResponse rspHdlen seq pkt),
      q = pair.startResponse rspHdlen seq pkt ∨ (q ∈ pairs ∧ q.addr ≠ pair.addr) :=
    fun q hq => mem_modify_of_nodup h.nodup hat hq
  have hnew : (pair.startResponse rspHdlen seq pkt).responseHeader =
      some (getResponse rspHdlen pkt) := by
    simp [Pair.startResponse, Pair.addResponse, hrsp]
  exact
    { nodup := haddrs ▸ h.nodup
      below := h.below
      request := by
        intro q hq
        rcases hcases q hq with rfl | ⟨hq, -⟩
        · exact h.request pair hmem
        · exact h.request q hq
      response := by
        intro q hq rsp hqrsp
        rcases hcases q hq with rfl | ⟨hq, -⟩
        · obtain rfl := Option.some.inj (hnew.symm.trans hqrsp)
          exact ⟨pkt, by simp [Pair.startResponse], rfl⟩
        · obtain ⟨pkt', hlog, hdl⟩ := h.response q hq rsp hqrsp
          exact ⟨pkt', List.mem_append_left _ hlog, hdl⟩
      unanswered := by
        intro q hq hnone
        rcases hcases q hq with rfl | ⟨hq, hne⟩
        · rw [hnew] at hnone
          cases hnone
        · rw [List.map_append, List.mem_append, not_or]
          exact ⟨h.unanswered q hq hnone, by simpa using hne⟩
      acknowledges := by
        intro e he
        rcases List.mem_append.mp he with he | he
        · exact h.acknowledges e he
        · obtain rfl := List.mem_singleton.mp he
          obtain ⟨req', reqPkt, hreq', hlog, -, hnxt⟩ := h.request pair hmem
          obtain rfl : req = req' := Option.some.inj (hreq.symm.trans hreq')
          exact ⟨reqPkt, hlog, hack.symm.trans hnxt⟩
      one_request := h.one_request
      one_response := by
        rw [List.map_append, List.map_singleton]
        refine List.nodup_append.mpr ⟨h.one_response, List.nodup_singleton _, ?_⟩
        intro a ha b hb
        have hb' : b = pair.addr := List.mem_singleton.mp hb
        rw [hb']
        exact fun heq => h.unanswered pair hmem hrsp (heq ▸ ha) }

/-- A response went to a pair that was opened before. -/
theorem response_lt (h : Ledger rspHdlen pairs nextPair requests responses) {a : ℕ}
    (ha : a ∈ responses.map (·.1)) : a < nextPair := by
  obtain ⟨e, he, rfl⟩ := List.mem_map.mp ha
  obtain ⟨req, hreq, -⟩ := h.acknowledges e he
  exact h.below (e.1, req) hreq

/-- A new pair is opened for a request. -/
theorem opened (h : Ledger rspHdlen pairs nextPair requests responses) {pair : Pair}
    {pkt : PacketT} (haddr : pair.addr = nextPair)
    (hreq : pair.requestHeader = some (getRequest pkt)) (hrsp : pair.responseHeader = none) :
    Ledger rspHdlen (pairs ++ [pair]) (nextPair + 1) (requests ++ [(nextPair, pkt)]) responses := by
  have hcases : ∀ q ∈ pairs ++ [pair], q ∈ pairs ∨ q = pair := by
    simp
  have hnew : nextPair ∉ requests.map (·.1) := by
    intro hmem
    obtain ⟨e, he, heq⟩ := List.mem_map.mp hmem
    have hlt := h.below e he
    omega
  exact
    { nodup := by
        rw [List.map_append, List.map_singleton, haddr]
        refine List.nodup_append.mpr ⟨h.nodup, List.nodup_singleton _, ?_⟩
        intro a ha b hb
        obtain ⟨p, hp, rfl⟩ := List.mem_map.mp ha
        have hlt := h.lt_nextPair hp
        have hb' : b = nextPair := List.mem_singleton.mp hb
        omega
      below := by
        intro e he
        rcases List.mem_append.mp he with he | he
        · have hlt := h.below e he
          omega
        · obtain rfl := List.mem_singleton.mp he
          exact Nat.lt_succ_self _
      request := by
        intro q hq
        rcases hcases q hq with hq | rfl
        · obtain ⟨req, pkt', hreq', hlog, hrest⟩ := h.request q hq
          exact ⟨req, pkt', hreq', List.mem_append_left _ hlog, hrest⟩
        · exact ⟨getRequest pkt, pkt, hreq, by simp [haddr], rfl, rfl⟩
      response := by
        intro q hq rsp hqrsp
        rcases hcases q hq with hq | rfl
        · exact h.response q hq rsp hqrsp
        · rw [hrsp] at hqrsp
          cases hqrsp
      unanswered := by
        intro q hq hnone
        rcases hcases q hq with hq | rfl
        · exact h.unanswered q hq hnone
        · intro hmem
          have hlt := h.response_lt hmem
          omega
      acknowledges := by
        intro e he
        obtain ⟨req, hlog, hack⟩ := h.acknowledges e he
        exact ⟨req, List.mem_append_left _ hlog, hack⟩
      one_request := by
        rw [List.map_append, List.map_singleton]
        refine List.nodup_append.mpr ⟨h.one_request, List.nodup_singleton _, ?_⟩
        intro a ha b hb
        obtain rfl := List.mem_singleton.mp hb
        exact fun heq => hnew (heq ▸ ha)
      one_response := h.one_response }

/-! ### The walks -/

theorem closePair {st : ReqState} (h : Ledger rspHdlen st.pairs st.nextPair requests responses)
    (seq : SeqT) :
    Ledger rspHdlen (st.closePair seq).pairs (st.closePair seq).nextPair requests responses := by
  unfold ReqState.closePair
  cases hnew : st.newPair with
  | none => exact h
  | some place =>
      obtain ⟨i, first⟩ := place
      dsimp only
      split
      · exact h.modify i fun p => ⟨rfl, rfl, rfl⟩
      · exact h

theorem openPair {st : ReqState} (h : Ledger rspHdlen st.pairs st.nextPair requests responses)
    (seq : SeqT) (pkt : PacketT) :
    Ledger rspHdlen (st.openPair seq pkt).pairs (st.openPair seq pkt).nextPair
      (requests ++ [(st.nextPair, pkt)]) responses :=
  h.opened rfl rfl rfl

theorem extend {st : RspState} (h : Ledger rspHdlen st.pairs nextPair requests responses)
    (fin : Option SeqT) (seq : SeqT) (next : Option SeqT) :
    Ledger rspHdlen (st.extend fin seq next).pairs nextPair requests responses := by
  have happend : ∀ p : Pair, SameEntry p (p.appendSeq seq st.firstPacket) := by
    intro p
    refine ⟨rfl, rfl, ?_⟩
    cases hrsp : p.responseHeader <;> simp [Pair.appendSeq, hrsp, Response.append]
  have hend : ∀ first (p : Pair), SameEntry p (p.endResponse seq first) := by
    intro first p
    unfold Pair.endResponse
    split <;> exact ⟨rfl, rfl, rfl⟩
  unfold RspState.extend
  cases hfound : st.foundPair with
  | none => exact h
  | some place =>
      obtain ⟨i, first⟩ := place
      dsimp only
      split
      · exact (h.modify i happend).modify i (hend first)
      · exact h.modify i happend

/-- **One call** agrees with what it adds to the logs. -/
theorem extractPair {f f' : Flow} {closed : Bool} {ret : Int}
    (h : Ledger rspHdlen f.pairs f.nextPair requests responses)
    (hcall : extractPair rspHdlen f closed = some (f', ret)) :
    Ledger rspHdlen f'.pairs f'.nextPair (requests ++ requestLog f)
      (responses ++ responseLog rspHdlen f closed) := by
  obtain ⟨horder, hpairs, hnext, -⟩ := f.setFirstByte_frame
  obtain ⟨st, hreq, hcases⟩ := extractPair_walks rspHdlen hcall
  have hstart :
      Ledger rspHdlen f.setFirstByte.pairs f.setFirstByte.nextPair requests responses := by
    rwa [hpairs, hnext]
  have hwalk : Ledger rspHdlen st.pairs st.nextPair (requests ++ requestLog f) responses := by
    have hlog := reqLoop_log
      (fun st log => Ledger rspHdlen st.pairs st.nextPair log responses) (fun _ _ _ h => h)
      (fun _ _ seq pkt h => h.openPair seq pkt) (fun _ _ seq h => h.closePair seq) hstart hreq
    rwa [horder, setFirstByte_finSeq, hnext] at hlog
  rcases hcases with ⟨-, rfl, hlog⟩ | ⟨-, st', ret', hrsp, rfl, hlog⟩
  · rw [hlog, List.append_nil]
    exact hwalk
  · rw [hlog]
    exact rspLoop_log
      (fun st' log => Ledger rspHdlen st'.pairs st.nextPair (requests ++ requestLog f) log)
      (fun _ _ _ h => h) (fun _ _ _ h => h)
      (fun _ _ i seq pkt _ _ h hat hreq hrsp hack => h.answer seq hat hreq hrsp hack)
      (fun _ _ seq next h => h.extend _ seq next) hwalk hrsp

/-- `extractData` only marks and deletes pairs. -/
theorem extractData {f : Flow} (h : Ledger rspHdlen f.pairs f.nextPair requests responses) :
    Ledger rspHdlen (extractData flt f).1.pairs (extractData flt f).1.nextPair requests
      responses := by
  have hmark : ∀ p : Pair, SameEntry p p.mark := by
    intro p
    refine ⟨p.mark_addr, ?_, ?_⟩ <;> unfold Pair.mark <;> split
    · rfl
    · simp [Pair.markRequest, Pair.markResponse, Function.comp_def]
    · rfl
    · simp [Pair.markRequest, Pair.markResponse, Function.comp_def]
  have hnext : (MonitoringTool.Sniffer.extractData flt f).1.nextPair = f.nextPair :=
    (extractData_frame flt f).2.2
  rw [hnext]
  rcases extractData_pairs flt f with hsame | ⟨dropped, hsplit⟩
  · rwa [hsame]
  · apply h.weaken
    · have haddrs : f.pairs.map (·.addr) = (f.pairs.map Pair.mark).map (·.addr) := by
        simp [Function.comp_def]
      rw [haddrs, hsplit, List.map_append]
      exact List.sublist_append_right _ _
    · intro q hq
      have hmem : q ∈ f.pairs.map Pair.mark := hsplit ▸ List.mem_append_right _ hq
      obtain ⟨p, hp, rfl⟩ := List.mem_map.mp hmem
      exact ⟨p, hp, hmark p⟩

end Ledger

/-! ## The nodes and the logs -/

/-- The packets of a log are of that type and were handed over in that direction, and no
packet is in it twice or waits in the list. -/
structure Taken (handed : List (PacketT × Bool)) (type : UInt8) (src : Bool)
    (log : List (ℕ × PacketT)) (nodes : List SeqT) : Prop where
  logged : ∀ e ∈ log, e.2.type = type ∧ Handed handed src e.2
  once : (log.map (·.2.addr) ++ (pending type nodes).map (·.addr)).Nodup

/-- The packets of all nodes of that direction were handed over in it. -/
def NodesHanded (handed : List (PacketT × Bool)) (src : Bool) (nodes : List SeqT) : Prop :=
  ∀ n ∈ nodes, ∀ p, n.pkt = some p → Handed handed src p

theorem Handed.lt {handed : List (PacketT × Bool)} {src : Bool} {p : PacketT}
    (h : Handed handed src p) : p.addr < handed.length := by
  obtain ⟨q, hq, -⟩ := h
  exact (List.getElem?_eq_some_iff.mp hq).1

theorem Handed.append {handed : List (PacketT × Bool)} {src : Bool} {p : PacketT}
    (h : Handed handed src p) (more : List (PacketT × Bool)) : Handed (handed ++ more) src p := by
  obtain ⟨q, hq, hcut⟩ := h
  exact ⟨q, by rw [List.getElem?_append_left (Handed.lt ⟨q, hq, hcut⟩), hq], hcut⟩

/-- The packets that wait in the list are among the nodes' packets. -/
theorem mem_pending {type : UInt8} {nodes : List SeqT} {p : PacketT} (h : p ∈ pending type nodes) :
    ∃ n ∈ nodes, n.pkt = some p ∧ p.type = type := by
  obtain ⟨n, hn, hp⟩ := List.mem_filterMap.mp h
  obtain ⟨hpkt, htype, -⟩ := unprocessed_eq_some.mp hp
  exact ⟨n, hn, hpkt, htype⟩

namespace Taken

variable {handed : List (PacketT × Bool)} {type : UInt8} {src : Bool} {log : List (ℕ × PacketT)}
  {nodes nodes' : List SeqT}

theorem lt (h : Taken handed type src log nodes) (hnodes : NodesHanded handed src nodes) {a : ℕ}
    (ha : a ∈ log.map (·.2.addr) ++ (pending type nodes).map (·.addr)) : a < handed.length := by
  rcases List.mem_append.mp ha with ha | ha
  · obtain ⟨e, he, rfl⟩ := List.mem_map.mp ha
    exact (h.logged e he).2.lt
  · obtain ⟨p, hp, rfl⟩ := List.mem_map.mp ha
    obtain ⟨n, hn, hpkt, -⟩ := mem_pending hp
    exact (hnodes n hn p hpkt).lt

/-- A walk processes nodes and logs packets of theirs. -/
theorem processed (h : Taken handed type src log nodes) (hnodes : NodesHanded handed src nodes)
    {more : List (ℕ × PacketT)} (hproc : Processed type nodes nodes' (more.map (·.2))) :
    Taken handed type src (log ++ more) nodes' := by
  have hsub := hproc.pending_sublist
  refine ⟨?_, ?_⟩
  · intro e he
    rcases List.mem_append.mp he with he | he
    · exact h.logged e he
    · have hmem : e.2 ∈ pending type nodes :=
        hsub.subset (List.mem_append_left _ (List.mem_map_of_mem he))
      obtain ⟨n, hn, hpkt, htype⟩ := mem_pending hmem
      exact ⟨htype, hnodes n hn e.2 hpkt⟩
  · have haddrs : (log ++ more).map (·.2.addr) ++ (pending type nodes').map (·.addr) =
        log.map (·.2.addr) ++ (more.map (·.2) ++ pending type nodes').map (·.addr) := by
      simp [Function.comp_def]
    rw [haddrs]
    exact h.once.sublist ((hsub.map _).append_left _)

/-- The list is cleared, and a packet that was just handed over may be listed. -/
theorem arrive (h : Taken handed type src log nodes) (hnodes : NodesHanded handed src nodes)
    {old : List SeqT} (hold : old = nodes ∨ old = []) (more : List (PacketT × Bool))
    (hnew : nodes' = old ∨ ∃ n, (∀ p, n.pkt = some p → p.addr = handed.length) ∧
      nodes'.Perm (n :: old)) :
    Taken (handed ++ more) type src log nodes' := by
  refine ⟨fun e he => ⟨(h.logged e he).1, (h.logged e he).2.append more⟩, ?_⟩
  have hold' : Taken handed type src log old := by
    rcases hold with rfl | rfl
    · exact h
    · exact ⟨h.logged, h.once.sublist (List.Sublist.append_left (List.nil_sublist _) _)⟩
  have hnodes' : NodesHanded handed src old := by
    rcases hold with rfl | rfl
    · exact hnodes
    · exact fun n hn => absurd hn List.not_mem_nil
  rcases hnew with rfl | ⟨n, hn, hperm⟩
  · exact hold'.once
  · have hpend : (pending type nodes').Perm (pending type (n :: old)) := hperm.filterMap _
    rw [((hpend.map (·.addr)).append_left _).nodup_iff]
    cases hpkt : unprocessed type n with
    | none =>
        have hskip : pending type (n :: old) = pending type old := List.filterMap_cons_none hpkt
        rw [hskip]
        exact hold'.once
    | some p =>
        have hcons : pending type (n :: old) = p :: pending type old :=
          List.filterMap_cons_some hpkt
        rw [hcons, List.map_cons, List.perm_middle.nodup_iff, List.nodup_cons]
        refine ⟨fun hmem => ?_, hold'.once⟩
        have hlt := hold'.lt hnodes' hmem
        have heq := hn p (unprocessed_eq_some.mp hpkt).1
        omega

end Taken

/-! ## Every run -/

/-- The ledger, and what the nodes have to do with the logs. -/
structure TraceInv (s : Traced) : Prop where
  ledger : Ledger rspHdlen s.flow.pairs s.flow.nextPair s.requests s.responses
  nodes : ∀ dir, NodesHanded s.handed dir (s.flow.order.dir dir).nodes
  requests : Taken s.handed REQ true s.requests (s.flow.order.dir true).nodes
  responses : Taken s.handed RSP false s.responses (s.flow.order.dir false).nodes

/-- A new flow, which was handed nothing. -/
def Traced.start (mem : Flow) (s : FlowS) : Traced :=
  { flow := Flow.new mem s, handed := [], requests := [], responses := [] }

variable {rspHdlen}

theorem traceInv_start (mem : Flow) (s : FlowS) : TraceInv rspHdlen (.start mem s) := by
  have hnil : ∀ dir, ((Traced.start mem s).flow.order.dir dir).nodes = [] := by
    intro dir
    cases dir <;> rfl
  have htaken : ∀ type dir,
      Taken [] type dir [] ((Traced.start mem s).flow.order.dir dir).nodes := by
    intro type dir
    rw [hnil]
    exact ⟨by simp, by simp [pending]⟩
  exact
    { ledger := by constructor <;> simp [Traced.start, Flow.new]
      nodes := by
        intro dir
        rw [hnil]
        exact fun n hn => absurd hn List.not_mem_nil
      requests := htaken REQ true
      responses := htaken RSP false }

theorem TraceInv.sound {s : Traced} (h : TraceInv rspHdlen s) : PairedSoundly rspHdlen s where
  request := h.ledger.request
  response := h.ledger.response
  unanswered := h.ledger.unanswered
  request_node := h.requests.logged
  response_node := by
    intro e he
    obtain ⟨htype, hhanded⟩ := h.responses.logged e he
    exact ⟨htype, hhanded, h.ledger.acknowledges e he⟩
  one_request := h.ledger.one_request
  one_response := h.ledger.one_response
  request_once := (List.nodup_append.mp h.requests.once).1
  response_once := (List.nodup_append.mp h.responses.once).1

/-- A packet arrives. -/
theorem TraceInv.addPacket {s : Traced} (h : TraceInv rspHdlen s) {now : Clock} {packet : PacketT}
    {src : Bool} {f : Flow} (haddr : packet.addr = s.handed.length)
    (hf : s.flow.receive now packet src = some f) :
    TraceInv rspHdlen { s with flow := f, handed := s.handed ++ [(packet, src)] } := by
  obtain ⟨hdrop, rfl⟩ := (Flow.receive_eq_some s.flow now packet src).mp hf
  obtain ⟨hpairs, hnext, -⟩ := Flow.addPacket_pairs s.flow now packet src
  -- the only new node carries the packet
  have hnodes : ∀ dir, ∃ old, (old = (s.flow.order.dir dir).nodes ∨ old = []) ∧
      (((s.flow.addPacket now packet src).flow.order.dir dir).nodes = old ∨
        ∃ n, (∀ p, n.pkt = some p → p.addr = s.handed.length) ∧
          ((s.flow.addPacket now packet src).flow.order.dir dir).nodes.Perm (n :: old)) := by
    intro dir
    obtain ⟨old, hold, hsame | ⟨-, n, -, hcut, hperm⟩⟩ :=
      Flow.addPacket_perm s.flow now packet src hdrop dir
    · exact ⟨old, hold.imp_left And.left, .inl hsame⟩
    · refine ⟨old, hold.imp_left And.left, .inr ⟨n, fun p hp => ?_, hperm⟩⟩
      obtain ⟨dl, data, rfl⟩ := hcut p hp
      exact haddr
  have harrive : ∀ dir type log, Taken s.handed type dir log (s.flow.order.dir dir).nodes →
      Taken (s.handed ++ [(packet, src)]) type dir log
        ((s.flow.addPacket now packet src).flow.order.dir dir).nodes := by
    intro dir type log htaken
    obtain ⟨old, hold, hnew⟩ := hnodes dir
    exact htaken.arrive (h.nodes dir) hold _ hnew
  exact
    { ledger := by
        show Ledger _ (s.flow.addPacket now packet src).flow.pairs _ _ _
        rw [hpairs, hnext]
        exact h.ledger
      nodes := by
        intro dir n hn p hp
        obtain ⟨old, hold, hnew⟩ := Flow.addPacket_perm s.flow now packet src hdrop dir
        have hmem : ∀ m ∈ old, m ∈ (s.flow.order.dir dir).nodes := by
          rcases hold with ⟨rfl, -⟩ | rfl
          · exact fun m hm => hm
          · simp
        have holdHanded : n ∈ old → Handed (s.handed ++ [(packet, src)]) dir p :=
          fun hn => (h.nodes dir n (hmem n hn) p hp).append _
        rcases hnew with hsame | ⟨rfl, m, -, hcut, hperm⟩
        · exact holdHanded (hsame ▸ hn)
        · rcases List.mem_cons.mp (hperm.mem_iff.mp hn) with rfl | hn
          · obtain ⟨dl, data, rfl⟩ := hcut p hp
            exact ⟨packet, by simp [haddr], dl, data, rfl⟩
          · exact holdHanded hn
      requests := harrive true REQ _ h.requests
      responses := harrive false RSP _ h.responses }

/-- `extractPair` is called. -/
theorem TraceInv.extractPair {s : Traced} (h : TraceInv rspHdlen s) {closed : Bool} {f : Flow}
    {ret : Int} (hcall : extractPair rspHdlen s.flow closed = some (f, ret)) :
    TraceInv rspHdlen
      { s with
        flow := f
        requests := s.requests ++ requestLog s.flow
        responses := s.responses ++ responseLog rspHdlen s.flow closed } := by
  obtain ⟨hsrc, hdst⟩ := extractPair_nodes rspHdlen hcall
  have hkeep : ∀ type dir (n : SeqT), (∀ p, n.pkt = some p → Handed s.handed dir p) →
      ∀ p, (n.process type).pkt = some p → Handed s.handed dir p := by
    intro type dir n hn p hp
    rw [SeqT.process_pkt] at hp
    exact hn p hp
  exact
    { ledger := h.ledger.extractPair hcall
      nodes := by
        intro dir
        cases dir with
        | true => exact hsrc.forall_mem (hkeep REQ true) (h.nodes true)
        | false => exact hdst.forall_mem (hkeep RSP false) (h.nodes false)
      requests := h.requests.processed (h.nodes true) hsrc
      responses := h.responses.processed (h.nodes false) hdst }

/-- Every call keeps the invariant. -/
theorem TraceInv.step {s s' : Traced} (h : TraceInv rspHdlen s) {c : Call}
    (hs : traceStep flt rspHdlen s c = some s') : TraceInv rspHdlen s' := by
  cases c with
  | addPacket now packet src =>
      obtain ⟨f, hf, rfl⟩ := Option.map_eq_some_iff.mp hs
      exact h.addPacket rfl hf
  | extractPair closed =>
      obtain ⟨⟨f, ret⟩, hcall, rfl⟩ := Option.map_eq_some_iff.mp hs
      exact h.extractPair hcall
  | extractData =>
      obtain rfl := Option.some.inj hs
      obtain ⟨horder, -⟩ := extractData_frame flt s.flow
      have hnodes := h.nodes
      have hrequests := h.requests
      have hresponses := h.responses
      rw [← horder] at hnodes hrequests hresponses
      exact ⟨h.ledger.extractData flt, hnodes, hrequests, hresponses⟩

/-- **Pairing is sound** in every state that any calls on a new flow reach. -/
theorem pairing_sound (mem : Flow) (s : FlowS) (calls : List Call) :
    EveryState (traceStep flt rspHdlen) (PairedSoundly rspHdlen) (.start mem s) calls := by
  intro before _ s' hrun
  exact (run_inv (fun _ _ _ h hs => h.step flt hs) (traceInv_start mem s) hrun).sound

end Tracing

end MonitoringTool.Sniffer
