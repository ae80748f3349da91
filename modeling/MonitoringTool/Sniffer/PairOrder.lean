import MonitoringTool.Sniffer.PairTrace

/-!
# When the responses of a flow go to its requests in order

`extractPair` says of itself that a new response "is added to the first pair without
response".  The search does more: it passes every pair whose request ends at or before
the response's ACK number, and takes one without a response only where the two numbers
are equal.  A response with a cumulative ACK so goes to a later pair, and those that
follow it may find no pair at all.

`attaches_in_order_iff` is the exact condition: every response acknowledges the end of
its own request and no more.
-/

namespace MonitoringTool.Sniffer

open Lib

section PairOrder

variable (rspHdlen : Option (List UInt8) → UInt16 → Int)

/-- A closed flow without FIN nodes that no call has looked at: the requests `rs` in its
source list and the responses `ps` in its destination list, as many, with ACK numbers
that do not decrease and that cover the request of the same position. -/
structure AwaitsPairing (f : Flow) (rs ps : List PacketT) : Prop where
  noFin : f.finSeq = none
  pairs : f.pairs = []
  requests : pending REQ f.order.src.nodes = rs
  responses : pending RSP f.order.dst.nodes = ps
  acks : ps.Pairwise fun p q => p.tcpAck ≤ q.tcpAck
  covers : List.Forall₂ (fun r p => (getRequest r).nxtSeq ≤ p.tcpAck) rs ps
  noWrap : ∀ r ∈ rs, r.tcpSeq.toNat + r.tcpDl.toNat < 2 ^ 32

/-- One call makes a pair of each request and attaches the response of the same position
to it. -/
def AttachesInOrder (f : Flow) (rs ps : List PacketT) : Prop :=
  let addrs := List.range' f.nextPair rs.length
  ∃ f' ret, extractPair rspHdlen f true = some (f', ret) ∧
    f'.pairs.map (fun p => (p.addr, p.requestHeader)) =
      addrs.zip (rs.map fun r => some (getRequest r)) ∧
    responseLog rspHdlen f true = addrs.zip ps ∧
    ∀ p ∈ f'.pairs, p.responseHeader.isSome = true

/-! ## The requests -/

/-- The chain after the request walk has the pairs of the log behind the old ones. -/
theorem findRequests_pairs {f : Flow} {closed : Bool} {st : ReqState}
    (h : f.findRequests closed = some st) :
    st.pairs.map (fun p => (p.addr, p.requestHeader)) =
      f.pairs.map (fun p => (p.addr, p.requestHeader)) ++
        (requestLog f).map fun e => (e.1, some (getRequest e.2)) := by
  have hlog := reqLoop_log
    (fun st log => st.pairs.map (fun p => (p.addr, p.requestHeader)) =
      f.pairs.map (fun p => (p.addr, p.requestHeader)) ++
        log.map fun e => (e.1, some (getRequest e.2)))
    (fun _ _ _ h => h) ?_ ?_ (show _ = _ ++ List.map _ [] by simp) h
  · exact hlog
  · intro st log seq pkt h
    rw [List.map_append, ← List.append_assoc, ← h]
    simp [ReqState.openPair, Pair.addRequest, Pair.new]
  · intro st log seq h
    have hend : ∀ first (p : Pair), ((p.endRequest seq first).addr,
        (p.endRequest seq first).requestHeader) = (p.addr, p.requestHeader) := fun _ _ => rfl
    unfold ReqState.closePair
    cases hnew : st.newPair with
    | none => exact h
    | some place =>
        obtain ⟨i, first⟩ := place
        dsimp only
        split
        · rw [map_modify_of_eq (hend first)]
          exact h
        · exact h

/-- A call leaves the old pairs and those of the requests, in order. -/
theorem extractPair_pairs {f f' : Flow} {closed : Bool} {ret : Int}
    (h : extractPair rspHdlen f closed = some (f', ret)) :
    f'.pairs.map (fun p => (p.addr, p.requestHeader)) =
      f.pairs.map (fun p => (p.addr, p.requestHeader)) ++
        (requestLog f).map fun e => (e.1, some (getRequest e.2)) := by
  obtain ⟨st, hreq, hcases⟩ := extractPair_walks rspHdlen h
  rw [setFirstByte_findRequests] at hreq
  rw [← findRequests_pairs hreq]
  rcases hcases with ⟨-, rfl, -⟩ | ⟨-, st', ret', hrsp, rfl, -⟩
  · rfl
  · have hext := rspLoop_extends rspHdlen hrsp
    exact map_eq_of_forall₂
      (fun (p q : Pair) (hpq : p.Extends q) => by rw [hpq.addr, hpq.request]) hext

/-! ## The responses -/

/-- The search passes pairs that have a response. -/
theorem seekPair_skip {ack : UInt32} {tmp : ℕ} {answered rest : List Pair}
    (h : ∀ p ∈ answered, ∃ req, p.requestHeader = some req ∧ p.responseHeader.isSome = true ∧
      req.nxtSeq ≤ ack) :
    seekPair ack tmp (answered ++ rest) = seekPair ack (tmp + answered.length) rest := by
  induction answered generalizing tmp with
  | nil => rfl
  | cons p answered ih =>
      obtain ⟨req, hreq, hrsp, hle⟩ := h p (by simp)
      have hsome : p.responseHeader ≠ none := by
        intro hnone
        simp [hnone] at hrsp
      rw [List.cons_append, seekPair, hreq]
      simp only [hle, if_true, hsome, false_and, if_false]
      rw [ih fun q hq => h q (by simp [hq]), List.length_cons]
      congr 1
      omega

/-- The pairs `done` have their responses, and the pairs `waiting` wait for the responses
`ps` one by one, each of which acknowledges the end of the pair's request. -/
structure Matching (ps : List PacketT) (done waiting : List Pair) (st : RspState) : Prop where
  pairs : st.pairs = done ++ waiting
  answered : ∀ p ∈ done, ∃ req, p.requestHeader = some req ∧ p.responseHeader.isSome = true ∧
    ∀ q ∈ ps, req.nxtSeq ≤ q.tcpAck
  waits : List.Forall₂ (fun p q => p.responseHeader = none ∧
    ∃ req, p.requestHeader = some req ∧ req.nxtSeq = q.tcpAck) waiting ps
  tmp : st.tmp ≤ done.length
  found : ∀ i first, st.foundPair = some (i, first) → i < done.length

namespace Matching

variable {ps : List PacketT} {done waiting : List Pair} {st : RspState}

/-- Only pairs that have their responses are extended. -/
theorem extend (h : Matching ps done waiting st) (fin : Option SeqT) (seq : SeqT)
    (next : Option SeqT) : ∃ done', Matching ps done' waiting (st.extend fin seq next) := by
  have hrefl : List.Forall₂ Pair.Extends done done :=
    List.forall₂_same.mpr fun p _ => Pair.Extends.refl p
  -- the pairs that are extended have their responses and keep their requests
  have hanswered : ∀ {done' : List Pair}, List.Forall₂ Pair.Extends done done' →
      ∀ q ∈ done', ∃ req, q.requestHeader = some req ∧ q.responseHeader.isSome = true ∧
        ∀ p ∈ ps, req.nxtSeq ≤ p.tcpAck := by
    intro done' hdone q hq
    obtain ⟨p, hp, hext⟩ := exists_of_mem_forall₂ hdone hq
    obtain ⟨req, hreq, hrsp, hle⟩ := h.answered p hp
    refine ⟨req, hext.request.trans hreq, ?_, hle⟩
    obtain ⟨rsp, hrsp'⟩ := Option.isSome_iff_exists.mp hrsp
    rcases hext.response with hsame | ⟨-, hnew⟩
    · rw [hrsp'] at hsame
      simpa using congrArg Option.isSome hsame
    · simpa using congrArg Option.isSome hnew
  unfold RspState.extend
  cases hfound : st.foundPair with
  | none =>
      refine ⟨done, ?_⟩
      exact h
  | some place =>
      obtain ⟨i, first⟩ := place
      have hi : i < done.length := h.found i first hfound
      have happend := extends_modify hrefl i fun p => p.extends_appendSeq seq st.firstPacket
      have hlen := happend.length_eq
      have hpairs : st.pairs.modify i (·.appendSeq seq st.firstPacket) =
          done.modify i (·.appendSeq seq st.firstPacket) ++ waiting := by
        rw [h.pairs, modify_append_left hi]
      have htmp := h.tmp
      have hfound' : ∀ j first', some (i, first) = some (j, first') → j < done.length := by
        intro j first' hj
        cases hj
        exact hi
      dsimp only
      split
      · have hend := extends_modify happend i fun p => p.extends_endResponse seq first
        have hlen' := hend.length_eq
        refine ⟨_, ?_, hanswered hend, h.waits, ?_, ?_⟩
        · show (st.pairs.modify i (·.appendSeq seq st.firstPacket)).modify i _ = _
          rw [hpairs, modify_append_left (hlen ▸ hi)]
        · rw [← hlen']
          exact htmp
        · rw [← hlen']
          exact hfound'
      · refine ⟨_, hpairs, hanswered happend, h.waits, ?_, ?_⟩
        · rw [← hlen]
          exact htmp
        · rw [← hlen]
          exact hfound'

/-- The search finds the first pair that waits. -/
theorem seek {p : PacketT} {w : Pair} (h : Matching (p :: ps) done (w :: waiting) st) :
    seekPair p.tcpAck st.tmp (st.pairs.drop st.tmp) = some (.found done.length) := by
  obtain ⟨hrsp, req, hreq, hack⟩ := (List.forall₂_cons.mp h.waits).1
  have hdrop : st.pairs.drop st.tmp = done.drop st.tmp ++ w :: waiting := by
    rw [h.pairs, List.drop_append_of_le_length h.tmp]
  have hpass : ∀ q ∈ done.drop st.tmp, ∃ req, q.requestHeader = some req ∧
      q.responseHeader.isSome = true ∧ req.nxtSeq ≤ p.tcpAck := by
    intro q hq
    obtain ⟨req, hreq, hrsp, hle⟩ := h.answered q (List.mem_of_mem_drop hq)
    exact ⟨req, hreq, hrsp, hle p (by simp)⟩
  have hlen : st.tmp + (done.drop st.tmp).length = done.length := by
    have htmp := h.tmp
    rw [List.length_drop]
    omega
  rw [hdrop, seekPair_skip hpass, hlen]
  simp [seekPair, hreq, hrsp, hack]

/-- The first pair that waits gets the response. -/
theorem attach {p : PacketT} {w : Pair} (h : Matching (p :: ps) done (w :: waiting) st)
    (hsorted : ∀ q ∈ ps, p.tcpAck ≤ q.tcpAck) (seq : SeqT) :
    Matching ps (done ++ [w.startResponse rspHdlen seq p]) waiting
      (st.attach rspHdlen done.length seq p) := by
  obtain ⟨⟨hrsp, req, hreq, hack⟩, hwaits⟩ := List.forall₂_cons.mp h.waits
  exact
    { pairs := by
        show st.pairs.modify done.length _ = _
        rw [h.pairs, modify_append_right (Nat.le_refl _)]
        simp
      answered := by
        intro q hq
        rcases List.mem_append.mp hq with hq | hq
        · obtain ⟨req', hreq', hrsp', hle⟩ := h.answered q hq
          exact ⟨req', hreq', hrsp', fun q' hq' => hle q' (by simp [hq'])⟩
        · obtain rfl := List.mem_singleton.mp hq
          refine ⟨req, hreq, by simp [Pair.startResponse, Pair.addResponse, hrsp], ?_⟩
          intro q' hq'
          rw [hack]
          exact hsorted q' hq'
      waits := hwaits
      tmp := by
        show done.length ≤ _
        simp
      found := by
        intro i first hi
        have hlen : done.length = i := by
          have hpair := Option.some.inj hi
          simp only [Prod.mk.injEq] at hpair
          exact hpair.1
        simp [← hlen] }

/-- **The response walk** gives the responses to the pairs in order. -/
theorem rspLog_eq {nodes : List SeqT} (h : Matching (pending RSP nodes) done waiting st)
    (hsorted : (pending RSP nodes).Pairwise fun p q => p.tcpAck ≤ q.tcpAck) :
    rspLog rspHdlen none st nodes = (waiting.map (·.addr)).zip (pending RSP nodes) := by
  induction nodes generalizing done waiting st with
  | nil => simp [rspLog, pending]
  | cons seq rest ih =>
      unfold rspLog
      rw [if_pos (show beforeFin none seq = true from rfl)]
      cases hpkt : unprocessed RSP seq with
      | none =>
          have hskip : pending RSP (seq :: rest) = pending RSP rest := List.filterMap_cons_none hpkt
          rw [hskip] at h hsorted ⊢
          dsimp only
          split
          · have h' : Matching (pending RSP rest) done waiting (st.pass seq) :=
              ⟨h.pairs, h.answered, h.waits, h.tmp, h.found⟩
            exact ih h' hsorted
          · obtain ⟨done', h'⟩ := h.extend none seq rest.head?
            have hpass : Matching (pending RSP rest) done' waiting
                ((st.extend none seq rest.head?).pass seq) :=
              ⟨h'.pairs, h'.answered, h'.waits, h'.tmp, h'.found⟩
            exact ih hpass hsorted
      | some p =>
          have hcons : pending RSP (seq :: rest) = p :: pending RSP rest :=
            List.filterMap_cons_some hpkt
          rw [hcons] at h hsorted ⊢
          obtain ⟨hfirst, hrest⟩ := List.pairwise_cons.mp hsorted
          obtain ⟨w, waiting, rfl⟩ : ∃ w ws, waiting = w :: ws := by
            cases h.waits with
            | cons _ _ => exact ⟨_, _, rfl⟩
          have hat : st.pairs[done.length]? = some w := by
            rw [h.pairs]
            simp
          have hstarted := h.attach rspHdlen hfirst { seq with processed := true }
          obtain ⟨done', h'⟩ := hstarted.extend none { seq with processed := true } rest.head?
          dsimp only
          rw [h.seek]
          dsimp only
          rw [hat, List.map_cons, List.zip_cons_cons]
          have hpass : Matching (pending RSP rest) done' waiting
              (((st.attach rspHdlen done.length { seq with processed := true } p).extend none
                { seq with processed := true } rest.head?).pass { seq with processed := true }) :=
            ⟨h'.pairs, h'.answered, h'.waits, h'.tmp, h'.found⟩
          have hmore := ih hpass hrest
          simpa using hmore

end Matching

/-! ## The exact condition -/

theorem requestLog_eq {f : Flow} {rs ps : List PacketT} (h : AwaitsPairing f rs ps) :
    requestLog f = (List.range' f.nextPair rs.length).zip rs := by
  unfold requestLog
  rw [h.noFin, reqLog_eq, takeWhile_beforeFin_none, h.requests]

/-- Where every response acknowledges the end of its own request, they go to the pairs
in order. -/
theorem responseLog_eq {f f' : Flow} {rs ps : List PacketT} {ret : Int}
    (h : AwaitsPairing f rs ps)
    (hacks : List.Forall₂ (fun r p => p.tcpAck = (getRequest r).nxtSeq) rs ps)
    (hcall : extractPair rspHdlen f true = some (f', ret)) :
    responseLog rspHdlen f true = (List.range' f.nextPair rs.length).zip ps := by
  have hreqLog := requestLog_eq h
  obtain ⟨st, hreq, hcases⟩ := extractPair_walks rspHdlen hcall
  rw [setFirstByte_findRequests] at hreq
  obtain ⟨new, hnew⟩ := findRequests_spec hreq
  have hpairs : st.pairs = new := by rw [hnew.pairs, h.pairs, List.nil_append]
  have hchain : st.pairs.map (fun p => (p.addr, p.requestHeader)) =
      (List.range' f.nextPair rs.length).zip (rs.map fun r => some (getRequest r)) := by
    rw [findRequests_pairs hreq, h.pairs, hreqLog, List.zip_map_right]
    rfl
  have haddrs : st.pairs.map (·.addr) = List.range' f.nextPair rs.length := by
    have hfst := congrArg (List.map Prod.fst) hchain
    rwa [List.map_map, List.map_fst_zip (by simp)] at hfst
  have hrequests : st.pairs.map (·.requestHeader) = rs.map fun r => some (getRequest r) := by
    have hsnd := congrArg (List.map Prod.snd) hchain
    rwa [List.map_map, List.map_snd_zip (by simp)] at hsnd
  rcases hcases with ⟨hzero, -, hlog⟩ | ⟨-, -, -, -, -, hlog⟩
  · -- no request, and so no response
    have hnil : st.pairs = [] := by
      rw [hpairs, ← List.length_eq_zero_iff, ← hnew.reqn]
      exact hzero
    have hrs : rs.length = 0 := by
      have hlen := congrArg List.length hrequests
      rw [hnil, List.length_map] at hlen
      simpa using hlen.symm
    rw [hlog, hrs]
    rfl
  · rw [hlog, h.noFin, ← haddrs, ← h.responses]
    have hwaits : List.Forall₂ (fun (p : Pair) q => p.responseHeader = none ∧
        ∃ req, p.requestHeader = some req ∧ req.nxtSeq = q.tcpAck) st.pairs ps := by
      refine (List.forall₂_and_left _ _).mpr ⟨fun p hp => (hnew.fresh p (hpairs ▸ hp)).2, ?_⟩
      have hown : List.Forall₂ (fun (p : Pair) r => p.requestHeader = some (getRequest r))
          st.pairs rs := by
        have hsame : List.Forall₂ Eq (st.pairs.map (·.requestHeader))
            (rs.map fun r => some (getRequest r)) :=
          hrequests ▸ List.forall₂_same.mpr fun _ _ => rfl
        exact List.forall₂_map_right_iff.mp (List.forall₂_map_left_iff.mp hsame)
      exact forall₂_trans (fun p r q hpr hrq => ⟨_, hpr, hrq.symm⟩) hown hacks
    have hmatching : Matching (pending RSP f.order.dst.nodes) [] st.pairs
        ⟨[], st.pairs, 0, none, false, st.last⟩ := by
      rw [h.responses]
      exact ⟨rfl, by simp, hwaits, Nat.le_refl _, by simp⟩
    exact hmatching.rspLog_eq rspHdlen (by rw [h.responses]; exact h.acks)

/-- **A call attaches the responses in order exactly when** each of them acknowledges the
end of its own request. -/
theorem attaches_in_order_iff {f : Flow} {rs ps : List PacketT} (h : AwaitsPairing f rs ps) :
    AttachesInOrder rspHdlen f rs ps ↔
      List.Forall₂ (fun r p => p.tcpAck = (getRequest r).nxtSeq) rs ps := by
  have hlen : rs.length = ps.length := h.covers.length_eq
  have hreqLog := requestLog_eq h
  have hnone : HaveRequests f.pairs := by
    rw [h.pairs]
    exact fun p hp => absurd hp List.not_mem_nil
  obtain ⟨⟨f', ret⟩, hcall⟩ : ∃ r, extractPair rspHdlen f true = some r :=
    extractPair_defined rspHdlen (.inl rfl) hnone
  have hledger : Ledger rspHdlen f'.pairs f'.nextPair (requestLog f)
      (responseLog rspHdlen f true) := by
    have hstart : Ledger rspHdlen f.pairs f.nextPair [] [] := by
      rw [h.pairs]
      constructor <;> simp
    exact hstart.extractPair hcall
  constructor
  · rintro ⟨-, -, -, -, hlog, -⟩
    refine List.forall₂_iff_zip.mpr ⟨hlen, fun {r p} hmem => ?_⟩
    obtain ⟨i, hi⟩ := List.mem_iff_getElem?.mp hmem
    obtain ⟨hr, hp⟩ := List.getElem?_zip_eq_some.mp hi
    have hilt : i < rs.length := (List.getElem?_eq_some_iff.mp hr).1
    have haddr : (List.range' f.nextPair rs.length)[i]? = some (f.nextPair + i) := by
      simp [hilt]
    -- the pair of the response was opened for the request of the same position
    have hrmem : (f.nextPair + i, r) ∈ requestLog f := by
      rw [hreqLog]
      exact List.mem_of_getElem? (List.getElem?_zip_eq_some.mpr ⟨haddr, hr⟩)
    have hpmem : (f.nextPair + i, p) ∈ responseLog rspHdlen f true := by
      rw [hlog]
      exact List.mem_of_getElem? (List.getElem?_zip_eq_some.mpr ⟨haddr, hp⟩)
    obtain ⟨req, hreq, hack⟩ := hledger.acknowledges _ hpmem
    have hsame := List.inj_on_of_nodup_map hledger.one_request hreq hrmem rfl
    obtain rfl : req = r := congrArg Prod.snd hsame
    exact hack
  · intro hacks
    have hlog := responseLog_eq rspHdlen h hacks hcall
    have hchain : f'.pairs.map (fun p => (p.addr, p.requestHeader)) =
        (List.range' f.nextPair rs.length).zip (rs.map fun r => some (getRequest r)) := by
      rw [extractPair_pairs rspHdlen hcall, h.pairs, hreqLog, List.zip_map_right]
      rfl
    refine ⟨f', ret, hcall, hchain, hlog, fun p hp => ?_⟩
    by_contra hnone
    rw [Option.not_isSome_iff_eq_none] at hnone
    -- every pair of the chain is in the log of the responses
    apply hledger.unanswered p hp hnone
    have haddrs : (responseLog rspHdlen f true).map Prod.fst = f'.pairs.map (·.addr) := by
      have hfst := congrArg (List.map Prod.fst) hchain
      rw [List.map_map, List.map_fst_zip (by simp)] at hfst
      rw [hlog, List.map_fst_zip (by simp [hlen])]
      exact hfst.symm
    rw [haddrs]
    exact List.mem_map_of_mem hp

end PairOrder

/-! ## Two requests in a row -/

/-- Two requests, the second before the response to the first one, and two responses
with the given ACK numbers. -/
def pipelined (ack ack' : UInt32) : List PacketT × List PacketT :=
  ([webPacket 1 true 100 15 20 REQ, webPacket 2 true 120 15 20 REQ],
    [webPacket 3 false 15 ack 30 RSP, webPacket 4 false 45 ack' 30 RSP])

/-- The flow of these packets. -/
def pipelinedFlow (ack ack' : UInt32) : Flow :=
  let receive (src : Bool) (f : Flow) (p : PacketT) : Flow := (f.addPacket ⟨0, 0⟩ p src).flow
  (pipelined ack ack').2.foldl (receive false) ((pipelined ack ack').1.foldl (receive true) webFlow)

/-- Both responses wait for one call, also where the first one acknowledges both requests. -/
theorem pipelined_awaitsPairing {ack : UInt32} (hack : ack = 120 ∨ ack = 140) :
    AwaitsPairing (pipelinedFlow ack 140) (pipelined ack 140).1 (pipelined ack 140).2 := by
  rcases hack with rfl | rfl <;> constructor <;> decide

/-- One response for each request. -/
theorem attaches_in_order_iff_pipelined :
    AttachesInOrder (fun _ _ => 0) (pipelinedFlow 120 140) (pipelined 120 140).1
      (pipelined 120 140).2 :=
  (attaches_in_order_iff (fun _ _ => 0) (pipelined_awaitsPairing (.inl rfl))).mpr
    (.cons (by decide) (.cons (by decide) .nil))

/-- Where the first response acknowledges both requests, it goes to the second one. -/
theorem cumulative_ack_shifts_responses :
    ¬ ∀ (rspHdlen : Option (List UInt8) → UInt16 → Int) (f : Flow) (rs ps : List PacketT),
      AwaitsPairing f rs ps → AttachesInOrder rspHdlen f rs ps := by
  intro h
  obtain ⟨-, -, -, -, hlog, -⟩ := h (fun _ _ => 0) _ _ _ (pipelined_awaitsPairing (.inr rfl))
  exact absurd hlog (by decide)

end MonitoringTool.Sniffer
