import Mathlib.Algebra.GroupWithZero.Nat
import MonitoringTool.Sniffer.FinBranch

/-!
# The texts of a response

`extractPair` writes the capture time and the size of each segment of a response behind the
texts that the response holds, `time` and `size`, with room for 255 characters each.  All of
a response's text comes from the call that attaches it: from its first segment on, every
segment up to the next response that the call attaches, unless an earlier call has taken it.

`response_texts_fit_iff` says that the texts fit exactly if, in every call, the texts of the
segments of each response that the call attaches do.  It is about the calls on a chain of pairs,
and the calls on a flow are such calls (`chainStep_of_callStep`).
-/

namespace MonitoringTool.Sniffer

open Lib

/-! ## The segments of a response -/

/-- The nodes that the response walk writes down: those of the response found before, and
those of each response that it attaches. -/
def rspSegments (fin : Option SeqT) (walk : Progress ℕ) :
    List SeqT → List SeqT × List (List SeqT)
  | [] => ([], [])
  | seq :: rest =>
      if beforeFin fin seq then
        match unprocessed RSP seq with
        | some pkt =>
            match walk.answer pkt.ackNumber with
            | none => ([], [])
            | some walk' =>
                let (segment, others) := rspSegments fin walk' rest
                if walk.takes pkt.ackNumber then ([], (seq :: segment) :: others)
                else (seq :: segment, others)
        | none =>
            let (segment, others) := rspSegments fin walk rest
            if seq.processed then (segment, others) else (seq :: segment, others)
      else ([], [])

/-- The length of a node's capture time, as text. -/
def SeqT.timeLength (seq : SeqT) : ℕ := (toString seq.capUsec).length

/-- The length of its size. -/
def SeqT.sizeLength (seq : SeqT) : ℕ := (toString seq.size.toInt32.toInt).length

/-- The times of the segments fit, each behind a comma, and their sizes, with a comma
between two of them. -/
def TextsFit (segments : List SeqT) : Prop :=
  (segments.map fun seq => 1 + seq.timeLength).sum ≤ 255 ∧
    (segments.map fun seq => 1 + seq.sizeLength).sum ≤ 255 + 1

instance (segments : List SeqT) : Decidable (TextsFit segments) :=
  inferInstanceAs (Decidable (_ ∧ _))

/-- The segments of the responses that a call attaches: none, unless it finds a request. -/
def Flow.attachedSegments (f : Flow) : List (List SeqT) :=
  if requestLog f = [] then []
  else
    (rspSegments f.finSeq
      ⟨0, f.pairs.map Pair.entry ++ (requestLog f).map fun e => e.2.requestEntry⟩
      f.order.dst.nodes).2

/-! ## Lengths of texts -/

/-- The lengths of the texts of a pair's response. -/
def Pair.textLengths (p : Pair) : Option (ℕ × ℕ) :=
  p.responseHeader.map fun rsp => (rsp.time.length, rsp.size.length)

/-- The texts have room. -/
def TextRoom (lengths : Option (ℕ × ℕ)) : Prop := ∀ t ∈ lengths, t.1 ≤ 255 ∧ t.2 ≤ 255

/-- The lengths with those of a node. -/
def addLengths (firstPacket : Bool) (t : ℕ × ℕ) (seq : SeqT) : ℕ × ℕ :=
  (t.1 + (1 + seq.timeLength), t.2 + ((if firstPacket then 0 else 1) + seq.sizeLength))

/-- The lengths with those of all the nodes. -/
def addSegment (firstPacket : Bool) (t : ℕ × ℕ) : List SeqT → ℕ × ℕ
  | [] => t
  | seq :: rest => addSegment false (addLengths firstPacket t seq) rest

theorem addSegment_false (t : ℕ × ℕ) (segment : List SeqT) : addSegment false t segment =
    (t.1 + (segment.map fun seq => 1 + seq.timeLength).sum,
      t.2 + (segment.map fun seq => 1 + seq.sizeLength).sum) := by
  induction segment generalizing t with
  | nil => rfl
  | cons seq rest ih =>
      rw [addSegment, ih]
      simp [addLengths, Nat.add_assoc]

theorem textRoom_segment_iff (seq : SeqT) (rest : List SeqT) :
    TextRoom (some (addSegment true (0, 0) (seq :: rest))) ↔ TextsFit (seq :: rest) := by
  rw [addSegment, addSegment_false]
  simp [TextRoom, TextsFit, addLengths]
  omega

theorem Response.append_lengths (rsp : Response) (seq : SeqT) (firstPacket : Bool) :
    ((rsp.append seq firstPacket).time.length, (rsp.append seq firstPacket).size.length) =
      addLengths firstPacket (rsp.time.length, rsp.size.length) seq := by
  have hcomma : ",".length = 1 := by decide
  unfold Response.append addLengths SeqT.timeLength SeqT.sizeLength
  cases firstPacket <;> simp [String.length_append, Nat.add_assoc, hcomma]

theorem Pair.appendSeq_textLengths (p : Pair) (seq : SeqT) (firstPacket : Bool) :
    (p.appendSeq seq firstPacket).textLengths =
      p.textLengths.map fun t => addLengths firstPacket t seq := by
  unfold Pair.textLengths Pair.appendSeq
  simp only [Option.map_map]
  congr 1
  funext rsp
  exact rsp.append_lengths seq firstPacket

theorem Pair.endResponse_textLengths (p : Pair) (seq : SeqT) (first : UInt32) :
    (p.endResponse seq first).textLengths = p.textLengths := by
  unfold Pair.endResponse
  split <;> rfl

/-! ## The response walk -/

/-- The lengths of the texts after the walk has written a segment down. -/
def RspState.lengthsWith (st : RspState) (segment : List SeqT) : List (Option (ℕ × ℕ)) :=
  match st.foundPair with
  | none => st.pairs.map Pair.textLengths
  | some (i, _) =>
      (st.pairs.map Pair.textLengths).modify i
        (Option.map fun t => addSegment st.firstPacket t segment)

theorem RspState.lengthsWith_nil (st : RspState) :
    st.lengthsWith [] = st.pairs.map Pair.textLengths := by
  unfold RspState.lengthsWith
  split
  · rfl
  · have hid : (Option.map fun t => addSegment st.firstPacket t []) = @id (Option (ℕ × ℕ)) := by
      funext t
      cases t <;> rfl
    rw [hid, List.modify_id]

section Walk

variable {rspHdlen : Option (List UInt8) → UInt16 → Int} {fin : Option SeqT}

/-- A node is written down before those behind it. -/
theorem RspState.lengthsWith_extend (st : RspState) (seq : SeqT) (next : Option SeqT)
    (segment : List SeqT) : (st.extend fin seq next).lengthsWith segment =
      st.lengthsWith (seq :: segment) := by
  unfold RspState.extend
  cases hfound : st.foundPair with
  | none => simp [RspState.lengthsWith, hfound]
  | some place =>
      obtain ⟨i, first⟩ := place
      have hwritten : ((st.pairs.map Pair.textLengths).modify i
          (Option.map fun t => addLengths st.firstPacket t seq)).modify i
            (Option.map fun t => addSegment false t segment) =
          (st.pairs.map Pair.textLengths).modify i
            (Option.map fun t => addSegment st.firstPacket t (seq :: segment)) := by
        rw [List.modify_modify_eq]
        congr 1
        funext t
        cases t <;> rfl
      have happend : (st.pairs.modify i (·.appendSeq seq st.firstPacket)).map Pair.textLengths =
          (st.pairs.map Pair.textLengths).modify i
            (Option.map fun t => addLengths st.firstPacket t seq) :=
        map_modify_comm (fun p => p.appendSeq_textLengths seq st.firstPacket) st.pairs i
      dsimp only
      split
      · simp only [RspState.lengthsWith, hfound]
        rw [map_modify_of_eq fun p => p.endResponse_textLengths seq first, happend]
        exact hwritten
      · simp only [RspState.lengthsWith, hfound]
        rw [happend]
        exact hwritten

/-- A response that is attached begins with empty texts. -/
theorem RspState.lengthsWith_attach {st : RspState} {i : ℕ} {pair : Pair}
    (hpair : st.pairs[i]? = some pair) (hnone : pair.responseHeader = none) (seq : SeqT)
    (pkt : PacketT) (segment : List SeqT) :
    (∀ t ∈ (st.attach rspHdlen i seq pkt).lengthsWith segment, TextRoom t) ↔
      (∀ t ∈ st.pairs.map Pair.textLengths, TextRoom t) ∧
        TextRoom (some (addSegment true (0, 0) segment)) := by
  have hstart : (pair.startResponse rspHdlen seq pkt).textLengths = some (0, 0) := by
    simp [Pair.textLengths, Pair.startResponse, Pair.addResponse, hnone, getResponse]
  have hset : (st.attach rspHdlen i seq pkt).lengthsWith segment =
      (st.pairs.map Pair.textLengths).set i (some (addSegment true (0, 0) segment)) := by
    have hlt : i < (st.pairs.map Pair.textLengths).length := by
      rw [List.length_map]
      exact (List.getElem?_eq_some_iff.mp hpair).1
    simp only [RspState.lengthsWith, RspState.attach]
    rw [modify_eq_set hpair, List.map_set, hstart, modify_eq_set (List.getElem?_set_self hlt),
      List.set_set]
    rfl
  have hat : (st.pairs.map Pair.textLengths)[i]? = some none := by
    simp [hpair, Pair.textLengths, hnone]
  rw [hset, forall_mem_set_of hat (by simp [TextRoom])]

/-- **The texts after the response walk** have room if and only if those before it have,
with the segments written behind the response found before, and those of the responses
that it attaches fit. -/
theorem rspLoop_textRoom_iff {st st' : RspState} {ret : Int} {nodes : List SeqT}
    (hreq : HaveRequests st.pairs) (h : rspLoop rspHdlen fin st nodes = some (st', ret)) :
    (∀ t ∈ st'.pairs.map Pair.textLengths, TextRoom t) ↔
      (∀ t ∈ st.lengthsWith (rspSegments fin st.progress nodes).1, TextRoom t) ∧
        ∀ segment ∈ (rspSegments fin st.progress nodes).2, TextsFit segment := by
  induction nodes generalizing st with
  | nil =>
      obtain ⟨rfl, -⟩ : st = st' ∧ _ := by simpa [rspLoop] using h
      simp [rspSegments, st.lengthsWith_nil]
  | cons seq rest ih =>
      -- a node that is written down, marked as processed or not
      have hextend : ∀ st₁ : RspState, HaveRequests st₁.pairs → ∀ seq' next,
          rspLoop rspHdlen fin ((st₁.extend fin seq' next).pass seq') rest = some (st', ret) →
          ((∀ t ∈ st'.pairs.map Pair.textLengths, TextRoom t) ↔
            (∀ t ∈ st₁.lengthsWith (seq' :: (rspSegments fin st₁.progress rest).1), TextRoom t) ∧
              ∀ segment ∈ (rspSegments fin st₁.progress rest).2, TextsFit segment) := by
        intro st₁ hreq₁ seq' next hrest
        have hiff := @ih ((st₁.extend fin seq' next).pass seq') (hreq₁.extend fin seq' next) hrest
        have hprogress : ((st₁.extend fin seq' next).pass seq').progress = st₁.progress :=
          (extend_progress st₁ seq' next).1
        rw [hprogress] at hiff
        rw [← st₁.lengthsWith_extend seq' next]
        exact hiff
      unfold rspLoop at h
      unfold rspSegments
      split at h
      · next hbefore =>
        rw [if_pos hbefore]
        cases hpkt : unprocessed RSP seq with
        | some pkt =>
            simp only [hpkt] at h ⊢
            rcases seekPair_cases rspHdlen hreq pkt.tcpAck with ⟨hseek, hanswer⟩ |
              ⟨tmp, hseek, htakes, hanswer⟩ | ⟨tmp, hseek, htakes, hanswer⟩
            · rw [hseek] at h
              obtain ⟨rfl, -⟩ : _ = st' ∧ _ := by simpa using h
              simp [PacketT.ackNumber, hanswer, st.lengthsWith_nil]
            · rw [hseek] at h
              simp only [PacketT.ackNumber, hanswer, htakes, Bool.false_eq_true, if_false]
              exact hextend { st with tmp := tmp } hreq { seq with processed := true } rest.head? h
            · rw [hseek] at h
              obtain ⟨pair, req, hpair, -, hnone, -⟩ := found_at hseek
              simp only [PacketT.ackNumber, hanswer { seq with processed := true } pkt, htakes,
                if_true]
              have hiff := hextend _ (hreq.attach rspHdlen tmp _ pkt) _ rest.head? h
              rw [RspState.lengthsWith_attach hpair hnone, textRoom_segment_iff] at hiff
              rw [hiff, st.lengthsWith_nil, List.forall_mem_cons, and_assoc]
              exact Iff.rfl
        | none =>
            simp only [hpkt] at h ⊢
            by_cases hprocessed : seq.processed = true
            · rw [if_pos (by simp [hprocessed])] at h
              rw [if_pos hprocessed]
              exact @ih (st.pass seq) hreq h
            · rw [if_neg hprocessed]
              cases hfound : st.foundPair with
              | none =>
                  -- nothing is written down as long as no response is found
                  rw [if_pos (by simp [hfound])] at h
                  have hiff := @ih (st.pass seq) hreq h
                  have hsame : ∀ segment, (st.pass seq).lengthsWith segment =
                      st.lengthsWith (seq :: segment) := by
                    intro segment
                    simp [RspState.lengthsWith, RspState.pass, hfound]
                  rw [hsame] at hiff
                  exact hiff
              | some place =>
                  rw [if_neg (by simp [hfound, hprocessed])] at h
                  exact hextend st hreq seq rest.head? h
      · next hbefore =>
        rw [if_neg hbefore]
        obtain ⟨rfl, -⟩ : _ = st' ∧ _ := by simpa using h
        have hsame := st.lengthsWith_nil
        simp [hsame]

end Walk

/-! ## Calls -/

section Calls

variable (flt : FlowFilter) (rspHdlen : Option (List UInt8) → UInt16 → Int)

/-- The requests that a call finds leave the texts alone. -/
theorem findRequests_textLengths {f : Flow} {closed : Bool} {st : ReqState}
    (h : f.findRequests closed = some st) :
    (∀ t ∈ st.pairs.map Pair.textLengths, TextRoom t) ↔
      ∀ t ∈ f.pairs.map Pair.textLengths, TextRoom t := by
  obtain ⟨new, hnew⟩ := findRequests_spec h
  have hfresh : ∀ t ∈ new.map Pair.textLengths, TextRoom t := by
    intro t ht
    obtain ⟨p, hp, rfl⟩ := List.mem_map.mp ht
    simp [Pair.textLengths, (hnew.fresh p hp).2, TextRoom]
  rw [hnew.pairs, List.map_append, List.forall_mem_append]
  exact and_iff_left hfresh

/-- **The texts after a call** have room if and only if those before it have and the segments
of the responses that it attaches fit. -/
theorem extractPair_textRoom_iff {f f' : Flow} {closed : Bool} {ret : Int}
    (hreq : HaveRequests f.pairs) (h : extractPair rspHdlen f closed = some (f', ret)) :
    (∀ t ∈ f'.pairs.map Pair.textLengths, TextRoom t) ↔
      (∀ t ∈ f.pairs.map Pair.textLengths, TextRoom t) ∧
        ∀ segment ∈ f.attachedSegments, TextsFit segment := by
  obtain ⟨st, hst, hcases⟩ := extractPair_walks rspHdlen h
  rw [setFirstByte_findRequests] at hst
  have hopened := findRequests_opened hreq hst
  have hlog : st.reqn = 0 ↔ requestLog f = [] := by rw [hopened.reqn, List.length_eq_zero_iff]
  unfold Flow.attachedSegments
  rcases hcases with ⟨hzero, rfl, -⟩ | ⟨hne, st', ret', hrsp, rfl, -⟩
  · rw [if_pos (hlog.mp hzero)]
    have hiff := findRequests_textLengths hst
    have hpairs : (f.setFirstByte.afterRequests st).pairs = st.pairs := rfl
    rw [hpairs, hiff]
    simp
  · have hiff := rspLoop_textRoom_iff hopened.requests hrsp
    have hprogress : (⟨[], st.pairs, 0, none, false, st.last⟩ : RspState).progress =
        ⟨0, f.pairs.map Pair.entry ++ (requestLog f).map fun e => e.2.requestEntry⟩ := by
      rw [← hopened.entries]
      rfl
    have hnone : ∀ segment, (⟨[], st.pairs, 0, none, false, st.last⟩ : RspState).lengthsWith
        segment = st.pairs.map Pair.textLengths := fun _ => rfl
    rw [hprogress, hnone, findRequests_textLengths hst] at hiff
    rw [if_neg (mt hlog.mpr hne)]
    exact hiff

/-- What happens to the pair chain of a flow: a call of `extractPair` or of `extractData`, on
a flow that holds whatever it may besides the chain. -/
inductive ChainCall where
  | extractPair (flow : Flow) (closed : Bool) : ChainCall
  | extractData (flow : Flow) : ChainCall

/-- One call, on the chain. -/
def chainStep (pairs : List Pair) : ChainCall → Option (List Pair)
  | .extractPair flow closed =>
      (extractPair rspHdlen { flow with pairs := pairs } closed).map (·.1.pairs)
  | .extractData flow => some (extractData flt { flow with pairs := pairs }).1.pairs

/-- Both texts of every response are strings of at most 255 characters. -/
def TextsInside (pairs : List Pair) : Prop :=
  ∀ p ∈ pairs, ∀ rsp, p.responseHeader = some rsp → rsp.time.length ≤ 255 ∧ rsp.size.length ≤ 255

/-- In a call that returns, the texts of the segments of each response that it attaches
fit. -/
def SegmentsFit (pairs : List Pair) : ChainCall → Prop
  | .extractPair flow closed =>
      (extractPair rspHdlen { flow with pairs := pairs } closed).isSome →
        ∀ segment ∈ { flow with pairs := pairs }.attachedSegments, TextsFit segment
  | .extractData _ => True

theorem textsInside_iff (pairs : List Pair) :
    TextsInside pairs ↔ ∀ t ∈ pairs.map Pair.textLengths, TextRoom t := by
  rw [List.forall_mem_map]
  constructor
  · intro h p hp t ht
    obtain ⟨rsp, hrsp, rfl⟩ := Option.map_eq_some_iff.mp ht
    exact h p hp rsp hrsp
  · intro h p hp rsp hrsp
    exact h p hp (rsp.time.length, rsp.size.length) (by simp [Pair.textLengths, hrsp])

/-- `extractData` deletes pairs and marks the others. -/
theorem TextsInside.extractData {f : Flow} (h : TextsInside f.pairs) :
    TextsInside (extractData flt f).1.pairs := by
  have hmark : ∀ p : Pair, p.mark.textLengths = p.textLengths := by
    intro p
    unfold Pair.mark
    split
    · rfl
    · simp [Pair.textLengths, Pair.markRequest, Pair.markResponse, Function.comp_def]
  rw [textsInside_iff] at h ⊢
  intro t ht
  obtain ⟨q, hq, rfl⟩ := List.mem_map.mp ht
  obtain ⟨p, hp, rfl | rfl⟩ := extractData_mem flt hq
  · exact h _ (List.mem_map_of_mem hp)
  · rw [hmark]
    exact h _ (List.mem_map_of_mem hp)

/-- One call keeps the texts inside exactly if the segments it writes down fit. -/
theorem chainStep_textsInside_iff {pairs pairs' : List Pair} (hreq : HaveRequests pairs)
    (h : TextsInside pairs) {c : ChainCall} (hstep : chainStep flt rspHdlen pairs c = some pairs') :
    HaveRequests pairs' ∧ (TextsInside pairs' ↔ SegmentsFit rspHdlen pairs c) := by
  cases c with
  | extractPair flow closed =>
      obtain ⟨⟨f, ret⟩, hcall, rfl⟩ := Option.map_eq_some_iff.mp hstep
      have hiff := extractPair_textRoom_iff rspHdlen hreq hcall
      rw [← textsInside_iff, ← textsInside_iff] at hiff
      refine ⟨extractPair_haveRequests rspHdlen hcall hreq, ?_⟩
      rw [hiff]
      simp only [SegmentsFit, hcall, Option.isSome_some, forall_const]
      exact and_iff_right h
  | extractData flow =>
      obtain rfl := Option.some.inj hstep
      have hreq' : HaveRequests ({ flow with pairs := pairs } : Flow).pairs := hreq
      have h' : TextsInside ({ flow with pairs := pairs } : Flow).pairs := h
      exact ⟨extractData_haveRequests flt hreq',
        iff_of_true (TextsInside.extractData flt h') trivial⟩

/-- The calls on a flow are calls on its chain. -/
theorem chainStep_of_callStep {w w' : Watched} {c : Call}
    (h : callStep flt rspHdlen w c = some w') :
    w'.flow.pairs = w.flow.pairs ∨
      ∃ e, chainStep flt rspHdlen w.flow.pairs e = some w'.flow.pairs := by
  cases c with
  | addPacket now packet src =>
      obtain ⟨f, hf, rfl⟩ := Option.map_eq_some_iff.mp h
      obtain ⟨-, rfl⟩ := (Flow.receive_eq_some w.flow now packet src).mp hf
      exact .inl (Flow.addPacket_pairs w.flow now packet src).1
  | extractPair closed =>
      obtain ⟨⟨f, ret⟩, hcall, rfl⟩ := Option.map_eq_some_iff.mp h
      exact .inr ⟨.extractPair w.flow closed, by simp [chainStep, hcall]⟩
  | extractData =>
      obtain rfl := Option.some.inj h
      exact .inr ⟨.extractData w.flow, rfl⟩

end Calls

/-- **The texts of the responses.**  For every sequence of calls on the pair chain of a flow,
whatever its order lists hold at each call: the texts of every response stay within 255
characters if and only if in each call that returns the times, and the sizes, of the segments
of each response that it attaches do. -/
theorem response_texts_fit_iff (flt : FlowFilter) (rspHdlen : Option (List UInt8) → UInt16 → Int)
    (calls : List ChainCall) :
    EveryState (chainStep flt rspHdlen) TextsInside [] calls ↔
      EveryStep (chainStep flt rspHdlen) (SegmentsFit rspHdlen) [] calls := by
  have hinside : ∀ pairs, HaveRequests pairs ∧ TextsInside pairs → TextsInside pairs :=
    fun pairs h => h.2
  refine everyState_iff_everyStep hinside (fun pairs c pairs' h hstep => ?_)
    (fun pairs c pairs' h hstep hinside => ?_) (fun pairs c h hstep => ?_) ⟨?_, ?_⟩
  · exact (chainStep_textsInside_iff flt rspHdlen h.1 h.2 hstep).2
  · exact ⟨(chainStep_textsInside_iff flt rspHdlen h.1 h.2 hstep).1, hinside⟩
  · cases c with
    | extractPair flow closed =>
        have hnone : extractPair rspHdlen { flow with pairs := pairs } closed = none := by
          simpa [chainStep] using hstep
        simp [SegmentsFit, hnone]
    | extractData flow => exact trivial
  · exact fun p hp => absurd hp List.not_mem_nil
  · exact fun p hp => absurd hp List.not_mem_nil

/-! ## A response of many segments -/

/-- Segments that hold no response packet, and that no call has taken, all belong to the
response before them. -/
theorem rspSegments_plain {nodes : List SeqT} (h : ∀ n ∈ nodes, n.pkt = none ∧ n.processed = false)
    (walk : Progress ℕ) : rspSegments none walk nodes = (nodes, []) := by
  induction nodes with
  | nil => rfl
  | cons seq rest ih =>
      obtain ⟨hpkt, hprocessed⟩ := h seq (by simp)
      have hnone : unprocessed RSP seq = none := by simp [unprocessed, hpkt]
      rw [rspSegments, ih fun n hn => h n (by simp [hn])]
      simp [beforeFin, hnone, hprocessed]

/-- A response of one byte, and the segments behind it, each captured on a full second. -/
def firstSegment : SeqT := seqPkt (webPacket 2 false 15 120 1 RSP)

def laterSegment : SeqT := { seqPkt (webPacket 3 false 16 120 1 0) with pkt := none }

/-- A request that it acknowledges, and the response with 127 more segments. -/
def manySegments : Flow :=
  { Flow.zero with
    order :=
      { src := .withLast ⟨[], seqPkt (webPacket 1 true 100 15 20 REQ), []⟩
        dst := .withLast ⟨[], firstSegment, List.replicate 127 laterSegment⟩
        num := 129 } }

theorem manySegments_attached :
    manySegments.attachedSegments = [firstSegment :: List.replicate 127 laterSegment] := by
  have hplain : ∀ n ∈ List.replicate 127 laterSegment, n.pkt = none ∧ n.processed = false := by
    intro n hn
    obtain rfl := List.eq_of_mem_replicate hn
    decide
  have hdst : manySegments.order.dst.nodes = firstSegment :: List.replicate 127 laterSegment := rfl
  have hfin : manySegments.finSeq = none := by
    have hsrcFin : findFin manySegments.order.src.nodes = none := by decide
    have hdstFin : findFin manySegments.order.dst.nodes = none := by
      refine List.find?_eq_none.mpr fun n hn => ?_
      rw [hdst] at hn
      rcases List.mem_cons.mp hn with rfl | hn
      · decide
      · obtain rfl := List.eq_of_mem_replicate hn
        decide
    rw [Flow.finSeq, hsrcFin, hdstFin]
  have hlog : requestLog manySegments = [(0, webPacket 1 true 100 15 20 REQ)] := by
    rw [requestLog, hfin]
    decide
  have hfirst : unprocessed RSP firstSegment = some (webPacket 2 false 15 120 1 RSP) := by decide
  have hchain : manySegments.pairs.map Pair.entry ++
      [(0, webPacket 1 true 100 15 20 REQ)].map (fun e => e.2.requestEntry) = [(120, true)] := by
    decide
  have hanswer : (⟨0, [(120, true)]⟩ : Progress ℕ).answer
      (webPacket 2 false 15 120 1 RSP).ackNumber = some ⟨0, [(120, false)]⟩ := rfl
  have htakes : (⟨0, [(120, true)]⟩ : Progress ℕ).takes
      (webPacket 2 false 15 120 1 RSP).ackNumber = true := rfl
  unfold Flow.attachedSegments
  rw [hlog, hfin, hdst, hchain, if_neg (by simp), rspSegments]
  simp only [beforeFin, if_true, hfirst, hanswer, htakes, rspSegments_plain hplain]

/-- Their times take 256 characters. -/
theorem response_text_overflows :
    ¬ ∀ (flt : FlowFilter) (rspHdlen : Option (List UInt8) → UInt16 → Int)
        (calls : List ChainCall), EveryState (chainStep flt rspHdlen) TextsInside [] calls := by
  intro h
  have hreq : HaveRequests manySegments.pairs := fun p hp => absurd hp List.not_mem_nil
  have hroom : TextsInside manySegments.pairs := fun p hp => absurd hp List.not_mem_nil
  obtain ⟨⟨f, ret⟩, hcall⟩ := extractPair_defined (fun _ _ => 0) (.inl rfl) hreq
  have hstep : chainStep noFilter (fun _ _ => 0) [] (.extractPair manySegments true) =
      some f.pairs := congrArg (Option.map fun r : Flow × Int => r.1.pairs) hcall
  have hall := h noFilter (fun _ _ => 0) [.extractPair manySegments true]
  have hinside : TextsInside f.pairs := (everyState_cons.mp hall).2 _ hstep [] List.nil_prefix _ rfl
  have hattached : firstSegment :: List.replicate 127 laterSegment ∈
      manySegments.attachedSegments := by
    rw [manySegments_attached]
    exact List.mem_singleton_self _
  have hfit := (chainStep_textsInside_iff noFilter (fun _ _ => 0) hreq hroom hstep).2.mp hinside
    (congrArg Option.isSome hcall) _ hattached
  have hfirst : firstSegment.timeLength = 1 := by decide
  have hlater : laterSegment.timeLength = 1 := by decide
  simp [TextsFit, hfirst, hlater] at hfit

end MonitoringTool.Sniffer
