import MonitoringTool.Lib.Run
import MonitoringTool.Sniffer.PairChain

/-!
# Polling a live flow

Every second `flowHashProcess` calls `extractPair(flow, false)` on each live
flow.  A poll that meets an unprocessed request changes what is extracted in the
end: the length of the last request is written only where its end is known, the
node is marked processed all the same, and a response that arrives later finds
no new request, so no call looks at it.

A poll is harmless when it meets no unprocessed request.  Then it only updates
the first byte time, which no walk reads, and the run with polls is simulated by
the run without (`polls_keep_pairs`, first part).  Where the source sends
requests only, nothing less will do (second part).
-/

namespace MonitoringTool.Sniffer

open Lib

/-! ## Runs with polls -/

/-- An arrival that neither ends nor restarts the flow. -/
structure DataPacket where
  packet : PacketT
  src : Bool
  now : Clock
  no_rst : hasFlag packet.tcpFlags TH_RST = false
  no_fin : hasFlag packet.tcpFlags TH_FIN = false
  no_syn : packet.tcpFlags ≠ TH_SYN

/-- A packet arrives, or `flowHashProcess` polls the flow. -/
inductive FlowEvent where
  | arrive (a : DataPacket) : FlowEvent
  | poll : FlowEvent

/-- The arrival of an event, if it is one. -/
def FlowEvent.arrival : FlowEvent → Option DataPacket
  | .arrive a => some a
  | .poll => none

/-- `add_packet` for an arrival. -/
def Flow.receiveData (f : Flow) (a : DataPacket) : Flow := (f.addPacket a.now a.packet a.src).flow

section Polling

variable (rspHdlen : Option (List UInt8) → UInt16 → Int)

/-- One event of the flow. -/
def pollStep (f : Flow) : FlowEvent → Option Flow
  | .arrive a => some (f.receiveData a)
  | .poll => (extractPair rspHdlen f false).map (·.1)

/-- The pairs that a last `extractPair(flow, true)` leaves. -/
def finalPairs (f : Flow) : Option (List Pair) := (extractPair rspHdlen f true).map (·.1.pairs)

/-- The flow after the arrivals alone. -/
def unpolled (f : Flow) (es : List FlowEvent) : Flow :=
  (es.filterMap FlowEvent.arrival).foldl Flow.receiveData f

/-- Polling changed nothing: the run with its polls goes through, and a last call
leaves the pairs of one single call after the arrivals. -/
def PollsKeepPairs (f : Flow) (es : List FlowEvent) : Prop :=
  ∃ f', run (pollStep rspHdlen) f es = some f' ∧
    finalPairs rspHdlen f' = finalPairs rspHdlen (unpolled f es)

/-- No request segment of the source waits to be processed. -/
def NoNewRequest (f : Flow) : Prop := ∀ n ∈ f.order.src.nodes, unprocessed REQ n = none

instance (f : Flow) : Decidable (NoNewRequest f) := by
  unfold NoNewRequest
  infer_instance

/-- The guard: a poll meets no unprocessed request. -/
def QuietPoll (f : Flow) : FlowEvent → Prop
  | .arrive _ => True
  | .poll => NoNewRequest f

/-! ## Quiet polls -/

/-- The two flows differ in the first byte time only. -/
def SameButFirstByte (f g : Flow) : Prop := ∃ sec usec init, f = g.withFirstByte sec usec init

theorem SameButFirstByte.setFirstByte {f g : Flow} (h : SameButFirstByte f g) :
    SameButFirstByte f.setFirstByte g := by
  obtain ⟨sec, usec, init, rfl⟩ := h
  obtain ⟨sec', usec', init', heq⟩ := (g.withFirstByte sec usec init).setFirstByte_eq
  exact ⟨sec', usec', init', heq⟩

/-- `add_packet` does not look at the first byte time. -/
theorem SameButFirstByte.receiveData {f g : Flow} (h : SameButFirstByte f g) (a : DataPacket) :
    SameButFirstByte (f.receiveData a) (g.receiveData a) := by
  obtain ⟨sec, usec, init, rfl⟩ := h
  refine ⟨sec, usec, init, ?_⟩
  have hdata : ∀ f : Flow, f.receiveData a =
      if a.packet.type ≠ 0 then (f.hookPacket a.packet a.src).calPacket a.now a.packet a.src
      else f.calPacket a.now a.packet a.src := by
    intro f
    unfold Flow.receiveData Flow.addPacket
    simp only [a.no_rst, a.no_fin, a.no_syn, and_false, if_false, Bool.false_eq_true]
    split <;> rfl
  rw [hdata, hdata]
  split <;> cases a.src <;> rfl

/-- The walks do not look at it either. -/
theorem findPairs_withFirstByte (f : Flow) (closed : Bool) (sec usec : Int) (init : Bool) :
    (f.withFirstByte sec usec init).findPairs rspHdlen closed =
      (f.findPairs rspHdlen closed).map fun r => (r.1.withFirstByte sec usec init, r.2) := by
  have hreq : (f.withFirstByte sec usec init).findRequests closed = f.findRequests closed := rfl
  unfold Flow.findPairs
  rw [hreq]
  cases f.findRequests closed with
  | none => rfl
  | some st =>
      have hrsp : ((f.withFirstByte sec usec init).afterRequests st).findResponses rspHdlen
          (f.withFirstByte sec usec init).finSeq =
            (f.afterRequests st).findResponses rspHdlen f.finSeq := rfl
      simp only [Option.bind_some, hrsp]
      split
      · rfl
      · rw [Option.map_map]
        rfl

theorem SameButFirstByte.finalPairs {f g : Flow} (h : SameButFirstByte f g) :
    finalPairs rspHdlen f = finalPairs rspHdlen g := by
  obtain ⟨sec, usec, init, hf⟩ := h.setFirstByte
  obtain ⟨sec', usec', init', hg⟩ := g.setFirstByte_eq
  unfold MonitoringTool.Sniffer.finalPairs extractPair
  rw [hf, hg, findPairs_withFirstByte, findPairs_withFirstByte, Option.map_map, Option.map_map]
  rfl

/-- Without an unprocessed request the request walk passes every node. -/
theorem reqLoop_quiet {fin : Option SeqT} {closed : Bool} {st : ReqState} {nodes : List SeqT}
    (hquiet : ∀ n ∈ nodes, unprocessed REQ n = none) (hst : st.newPair = none) :
    reqLoop fin closed st nodes = some { st with nodes := st.nodes ++ nodes } := by
  induction nodes generalizing st with
  | nil => simp [reqLoop]
  | cons seq rest ih =>
      unfold reqLoop
      split
      · have hseq := hquiet seq (by simp)
        have hbody : reqBody fin closed st seq rest.head? = some (st.pass seq) := by
          simp [reqBody, hseq, hst]
        have hrest := @ih (st.pass seq) (fun n hn => hquiet n (by simp [hn])) hst
        rw [hbody, Option.bind_some, hrest]
        simp [ReqState.pass]
      · rfl

/-- A quiet call only sets the first byte time. -/
theorem extractPair_quiet {f : Flow} (h : NoNewRequest f) (closed : Bool) :
    extractPair rspHdlen f closed = some (f.setFirstByte, 1) := by
  obtain ⟨horder, -⟩ := f.setFirstByte_frame
  have hwalk : f.setFirstByte.findRequests closed =
      some ⟨f.setFirstByte.order.src.nodes, f.setFirstByte.pairs, f.setFirstByte.nextPair, none, 0,
        (f.setFirstByte.lbSec, f.setFirstByte.lbUsec)⟩ := by
    unfold Flow.findRequests
    rw [reqLoop_quiet (by rw [horder]; exact h) rfl]
    rfl
  unfold extractPair Flow.findPairs
  rw [hwalk]
  simp only [Option.bind_some, if_true, Flow.afterRequests, SeqList.setNodes_self]
  rfl

/-- A run whose polls are quiet ends, up to the first byte time, like the run
without polls. -/
theorem run_quiet {f : Flow} {es : List FlowEvent}
    (hquiet : EveryStep (pollStep rspHdlen) QuietPoll f es) :
    ∃ f', run (pollStep rspHdlen) f es = some f' ∧ SameButFirstByte f' (unpolled f es) := by
  have hdef : ∀ f e, QuietPoll f e → ∃ f', pollStep rspHdlen f e = some f' := by
    rintro f (a | -) hG
    · exact ⟨_, rfl⟩
    · exact ⟨f.setFirstByte, by simp [pollStep, extractPair_quiet rspHdlen hG]⟩
  obtain ⟨f', hrun⟩ := run_defined hdef hquiet
  have hskip : ∀ f g e f', SameButFirstByte f g → QuietPoll f e → e.arrival = none →
      pollStep rspHdlen f e = some f' → SameButFirstByte f' g := by
    rintro f g (a | -) f' hR hG hk hstep
    · cases hk
    · obtain rfl : f.setFirstByte = f' := by
        simpa [pollStep, extractPair_quiet rspHdlen hG] using hstep
      exact hR.setFirstByte
  have hkeep : ∀ f g e a f', SameButFirstByte f g → QuietPoll f e → e.arrival = some a →
      pollStep rspHdlen f e = some f' →
        ∃ g', total Flow.receiveData g a = some g' ∧ SameButFirstByte f' g' := by
    rintro f g (a | -) a' f' hR - hk hstep
    · obtain rfl : a = a' := Option.some.inj hk
      obtain rfl : f.receiveData a = f' := Option.some.inj hstep
      exact ⟨_, rfl, hR.receiveData a⟩
    · cases hk
  have hrefl : SameButFirstByte f f := ⟨f.fbSec, f.fbUsec, f.init, rfl⟩
  obtain ⟨g, hg, hR⟩ := run_sim FlowEvent.arrival hskip hkeep hrefl hquiet hrun
  rw [run_total, Option.some.injEq] at hg
  subst hg
  exact ⟨f', hrun, hR⟩

/-! ## A poll that is not quiet -/

/-- The source sends requests only. -/
def RequestsOnly : FlowEvent → Prop
  | .arrive a => a.src = true → a.packet.type = 0 ∨ a.packet.type = REQ
  | .poll => True

/-- No call has processed a node, the source's packets are requests, and there
is no FIN node. -/
structure Untouched (f : Flow) : Prop where
  src : ∀ n ∈ f.order.src.nodes, n.processed = false ∧ ∀ p, n.pkt = some p → p.type = REQ
  fin : ∀ dir, ∀ n ∈ (f.order.dir dir).nodes, hasFlag n.thFlags TH_FIN = false

/-- Some pair has no request length. -/
def LacksLength (pairs : List Pair) : Prop := ∃ p ∈ pairs, p.reqTotalLen = 0

instance (pairs : List Pair) : Decidable (LacksLength pairs) := by
  unfold LacksLength
  infer_instance

theorem Untouched.finSeq {f : Flow} (h : Untouched f) : f.finSeq = none :=
  Flow.FinFree.finSeq h.fin

/-- `new_pair` has no length yet. -/
def OpenPair (st : ReqState) : Prop :=
  ∃ i first p, st.newPair = some (i, first) ∧ st.pairs[i]? = some p ∧ p.reqTotalLen = 0

theorem openPair_openPair (st : ReqState) (seq : SeqT) (pkt : PacketT) :
    OpenPair (st.openPair seq pkt) :=
  ⟨st.pairs.length, seq.seq, _, rfl, List.getElem?_concat_length, rfl⟩

/-- Of the last request a poll opens, the length is not written. -/
theorem reqLoop_openPair {st st' : ReqState} {nodes : List SeqT}
    (hnodes : ∀ n ∈ nodes, n.processed = false ∧ ∀ p, n.pkt = some p → p.type = REQ)
    (hst : OpenPair st ∨ ∃ n ∈ nodes, n.pkt.isSome = true)
    (h : reqLoop none false st nodes = some st') : OpenPair st' := by
  induction nodes generalizing st with
  | nil =>
      obtain rfl : st = st' := by simpa [reqLoop] using h
      simpa using hst
  | cons seq rest ih =>
      obtain ⟨st₁, hbody, hrest⟩ : ∃ st₁, reqBody none false st seq rest.head? = some st₁ ∧
          reqLoop none false st₁ rest = some st' := by
        simpa [reqLoop, beforeFin, Option.bind_eq_some_iff] using h
      refine ih (fun n hn => hnodes n (by simp [hn])) ?_ hrest
      -- a node closes its pair only where the next one has a packet
      have hend : ∀ st st₂, OpenPair st → st.endAt none false seq rest.head? = some st₂ →
          OpenPair st₂ ∨ ∃ n ∈ rest, n.pkt.isSome = true := by
        intro st st₂ hopen hst₂
        cases rest with
        | nil =>
            obtain rfl : st = st₂ := by simpa [ReqState.endAt, lastBit] using hst₂
            exact .inl hopen
        | cons next rest =>
            by_cases hnext : next.pkt.isSome = true
            · exact .inr ⟨next, by simp, hnext⟩
            · obtain rfl : st = st₂ := by simpa [ReqState.endAt, lastBit, hnext] using hst₂
              exact .inl hopen
      obtain ⟨hproc, htype⟩ := hnodes seq (by simp)
      cases hpkt : seq.pkt with
      | some pkt =>
          have hnew : unprocessed REQ seq = some pkt := by
            simp [unprocessed, hpkt, hproc, htype pkt hpkt]
          simp only [reqBody, hnew] at hbody
          obtain ⟨st₂, hst₂, rfl⟩ := Option.map_eq_some_iff.mp hbody
          exact hend _ st₂ (openPair_openPair st seq pkt) hst₂
      | none =>
          have hnew : unprocessed REQ seq = none := by simp [unprocessed, hpkt]
          have hst' : OpenPair st ∨ ∃ n ∈ rest, n.pkt.isSome = true := by
            simpa [hpkt] using hst
          simp only [reqBody, hnew, hproc, Bool.or_false] at hbody
          split at hbody
          · obtain rfl := Option.some.inj hbody
            exact hst'
          · obtain ⟨st₂, hst₂, rfl⟩ := Option.map_eq_some_iff.mp hbody
            rcases hst' with hopen | hlater
            · exact hend st st₂ hopen hst₂
            · exact .inr hlater

theorem LacksLength.extends {l l' : List Pair} (h : LacksLength l)
    (hext : List.Forall₂ Pair.Extends l l') : LacksLength l' := by
  have hmap := map_eq_of_forall₂ (fun (p q : Pair) (hpq : p.Extends q) => hpq.reqTotalLen) hext
  have hzero : 0 ∈ l'.map (·.reqTotalLen) := by
    rw [hmap]
    exact List.mem_map.mpr h
  exact List.mem_map.mp hzero

/-- A missing length stays missing. -/
theorem LacksLength.extractPair {f f' : Flow} {closed : Bool} {ret : Int}
    (h : LacksLength f.pairs) (hcall : extractPair rspHdlen f closed = some (f', ret)) :
    LacksLength f'.pairs := by
  obtain ⟨old, new, hpairs, hold, -⟩ := extractPair_spec rspHdlen hcall
  obtain ⟨p, hp, hzero⟩ := h.extends hold
  exact ⟨p, by simp [hpairs, hp], hzero⟩

/-- A poll that meets an unprocessed request leaves a pair without a length. -/
theorem lacksLength_of_poll {f f' : Flow} {ret : Int} (hf : Untouched f) (hnew : ¬ NoNewRequest f)
    (hcall : extractPair rspHdlen f false = some (f', ret)) : LacksLength f'.pairs := by
  obtain ⟨horder, -⟩ := f.setFirstByte_frame
  have hfin : f.setFirstByte.finSeq = none := by rw [setFirstByte_finSeq, hf.finSeq]
  obtain ⟨st, hreq, hrest⟩ := Option.bind_eq_some_iff.mp hcall
  have hopen : OpenPair st := by
    unfold Flow.findRequests at hreq
    rw [hfin, horder] at hreq
    refine reqLoop_openPair hf.src (.inr ?_) hreq
    obtain ⟨n, hn, hun⟩ : ∃ n ∈ f.order.src.nodes, unprocessed REQ n ≠ none := by
      simpa [NoNewRequest] using hnew
    refine ⟨n, hn, ?_⟩
    cases hpkt : n.pkt with
    | none => simp [unprocessed, hpkt] at hun
    | some pkt => rfl
  have hlacks : LacksLength st.pairs := by
    obtain ⟨i, first, p, -, hp, hzero⟩ := hopen
    exact ⟨p, List.mem_of_getElem? hp, hzero⟩
  by_cases hreqn : st.reqn = 0
  · obtain ⟨rfl, -⟩ : f.setFirstByte.afterRequests st = f' ∧ 1 = ret := by simpa [hreqn] using hrest
    exact hlacks
  · rw [if_neg hreqn] at hrest
    obtain ⟨⟨st', ret'⟩, hrsp, hf'⟩ := Option.map_eq_some_iff.mp hrest
    obtain ⟨rfl, -⟩ : (f.setFirstByte.afterRequests st).afterResponses st' = f' ∧ ret' = ret := by
      simpa using hf'
    exact hlacks.extends (findResponses_spec rspHdlen hrsp)

/-- Arrivals of requests, and packets of the other side, touch nothing. -/
theorem Untouched.receiveData {f : Flow} (hf : Untouched f) {a : DataPacket}
    (ha : RequestsOnly (.arrive a)) : Untouched (f.receiveData a) := by
  have hdrop : ¬ DropsFlow f a.packet := fun h => by simpa [a.no_rst] using h.1
  have hnode : ∀ dir, ∀ n ∈ ((f.receiveData a).order.dir dir).nodes,
      n ∈ (f.order.dir dir).nodes ∨
        (dir = a.src ∧ TrimmedFrom (arrivalSeq a.packet a.src) n) := fun dir n hn =>
    Flow.mem_addPacket_order f a.now a.packet a.src hdrop hn
  refine ⟨?_, ?_⟩
  · intro n hn
    rcases hnode true n hn with hn | ⟨hsrc, hnew⟩
    · exact hf.src n hn
    · refine ⟨?_, ?_⟩
      · rw [hnew.processed, arrivalSeq_processed]
      · intro p hp
        have htype := hnew.type
        by_cases hst : Stored a.packet a.src
        · obtain htype : p.type = a.packet.type := by simpa [hp, arrivalSeq, hst] using htype
          rw [htype]
          exact (ha hsrc.symm).resolve_left hst.1
        · simp [hp, arrivalSeq, hst] at htype
  · intro dir n hn
    rcases hnode dir n hn with hn | ⟨-, hnew⟩
    · exact hf.fin dir n hn
    · rw [hnew.thFlags, arrivalSeq_thFlags]
      exact a.no_fin

/-- **Polling a live flow.**  First: from any flow, a run whose polls meet no
unprocessed request leaves in the end the pairs it leaves without the polls.
Second: on a new flow whose source sends requests only, and where the single
call gives every pair a request length, the request lengths alone already agree
only if every poll met no unprocessed request. -/
theorem polls_keep_pairs (f : Flow) (es : List FlowEvent) :
    (EveryStep (pollStep rspHdlen) QuietPoll f es → PollsKeepPairs rspHdlen f es) ∧
    ((∃ mem s, f = Flow.new mem s) → (∀ e ∈ es, RequestsOnly e) →
      (∃ pairs, finalPairs rspHdlen (unpolled f es) = some pairs ∧ ¬ LacksLength pairs) →
      (∃ f', run (pollStep rspHdlen) f es = some f' ∧
        (finalPairs rspHdlen f').map (·.map (·.reqTotalLen)) =
          (finalPairs rspHdlen (unpolled f es)).map (·.map (·.reqTotalLen))) →
      EveryStep (pollStep rspHdlen) QuietPoll f es) := by
  constructor
  · intro hquiet
    obtain ⟨f', hrun, hsame⟩ := run_quiet rspHdlen hquiet
    exact ⟨f', hrun, hsame.finalPairs rspHdlen⟩
  · rintro ⟨mem, s, rfl⟩ honly ⟨pairs, hfinal, hlength⟩ ⟨f', hrun, hlens⟩
    have hnew : Untouched (Flow.new mem s) :=
      ⟨by simp [OrderT.new, SeqList.nodes], Flow.finFree_new mem s⟩
    have hkeep : ∀ f e f', Untouched f → RequestsOnly e → QuietPoll f e →
        pollStep rspHdlen f e = some f' → Untouched f' := by
      rintro f (a | -) f' hf ha hG hstep
      · obtain rfl : f.receiveData a = f' := Option.some.inj hstep
        exact hf.receiveData ha
      · obtain rfl : f.setFirstByte = f' := by
          simpa [pollStep, extractPair_quiet rspHdlen hG] using hstep
        obtain ⟨horder, -⟩ := f.setFirstByte_frame
        exact ⟨by rw [horder]; exact hf.src, by rw [horder]; exact hf.fin⟩
    have hbad : ∀ f e f', Untouched f → ¬ QuietPoll f e → pollStep rspHdlen f e = some f' →
        LacksLength f'.pairs := by
      rintro f (a | -) f' hf hG hstep
      · exact absurd trivial hG
      · obtain ⟨⟨f₁, ret⟩, hcall, rfl⟩ := Option.map_eq_some_iff.mp hstep
        exact lacksLength_of_poll rspHdlen hf hG hcall
    have hstay : ∀ (f : Flow) e f', LacksLength f.pairs → pollStep rspHdlen f e = some f' →
        LacksLength f'.pairs := by
      rintro f (a | -) f' hf hstep
      · obtain rfl : f.receiveData a = f' := Option.some.inj hstep
        rw [Flow.receiveData, (Flow.addPacket_pairs f a.now a.packet a.src).1]
        exact hf
      · obtain ⟨⟨f₁, ret⟩, hcall, rfl⟩ := Option.map_eq_some_iff.mp hstep
        exact hf.extractPair rspHdlen hcall
    rcases everyStep_or_final hkeep hbad hstay hnew honly hrun with hall | hlost
    · exact hall
    · -- the last call keeps the missing length, the single call has none
      rw [hfinal] at hlens
      obtain ⟨pairs', hpairs', hmap⟩ := Option.map_eq_some_iff.mp hlens
      obtain ⟨⟨f₁, ret⟩, hcall, rfl⟩ := Option.map_eq_some_iff.mp hpairs'
      have hlens' : f₁.pairs.map (·.reqTotalLen) = pairs.map (·.reqTotalLen) := hmap
      have hzero : 0 ∈ pairs.map (·.reqTotalLen) := by
        rw [← hlens']
        exact List.mem_map.mpr (hlost.extractPair rspHdlen hcall)
      exact absurd (List.mem_map.mp hzero) hlength

end Polling

/-! ## A request polled too early -/

/-- A packet of the sample connection. -/
def dataPacket (addr : Nat) (src : Bool) (seq ack : UInt32) (dl : UInt16) (type : UInt8) :
    DataPacket where
  packet := webPacket addr src seq ack dl type
  src := src
  now := ⟨0, 0⟩
  no_rst := by
    show hasFlag TH_ACK TH_RST = false
    decide
  no_fin := by
    show hasFlag TH_ACK TH_FIN = false
    decide
  no_syn := by
    show TH_ACK ≠ TH_SYN
    decide

/-- A payload of the server arrives, the flow is polled, and then a request and
its response arrive. -/
def pollBeforeRequest : List FlowEvent :=
  [.arrive (dataPacket 1 false 10 90 5 0), .poll, .arrive (dataPacket 2 true 100 15 20 REQ),
    .arrive (dataPacket 3 false 15 120 30 RSP)]

/-- Both parts of `polls_keep_pairs` on that run. -/
theorem polls_keep_pairs_before_request :
    PollsKeepPairs (fun _ _ => 0) webFlow pollBeforeRequest ∧
      EveryStep (pollStep fun _ _ => 0) QuietPoll webFlow pollBeforeRequest := by
  constructor
  · refine (polls_keep_pairs _ _ _).1 (everyStep_cons.mpr ⟨trivial, fun f hf => ?_⟩)
    obtain rfl := Option.some.inj hf
    refine everyStep_cons.mpr ⟨?_, fun f _ => everyStep_cons.mpr ⟨trivial, fun f _ =>
      everyStep_cons.mpr ⟨trivial, fun f _ => everyStep_nil⟩⟩⟩
    show NoNewRequest _
    decide
  · refine (polls_keep_pairs _ _ _).2 ⟨Flow.zero, _, rfl⟩ ?_ ⟨_, rfl, ?_⟩ ⟨_, rfl, ?_⟩
    · simp [pollBeforeRequest, RequestsOnly, dataPacket, webPacket]
    · decide
    · decide

/-- A request arrives, the flow is polled, and the response arrives: no call
attaches it. -/
theorem polls_lose_late_response :
    ¬ ∀ (rspHdlen : Option (List UInt8) → UInt16 → Int) (f : Flow) (es : List FlowEvent),
      PollsKeepPairs rspHdlen f es := by
  intro h
  obtain ⟨f, hrun, hsame⟩ := h (fun _ _ => 0) webFlow
    [.arrive (dataPacket 1 true 100 15 20 REQ), .poll, .arrive (dataPacket 2 false 15 120 30 RSP)]
  obtain rfl := Option.some.inj hrun
  have hanswered := congrArg (Option.map (List.map fun p : Pair => p.responseHeader.isSome)) hsame
  exact absurd hanswered (by decide)

end MonitoringTool.Sniffer
