import MonitoringTool.Sniffer.PairOrder
import MonitoringTool.Sniffer.ProtocolRun

/-!
# A repeated SYN

A SYN of the source that meets a flow with packets resets it.  `Flow::reset` restores the
counters, the chains, the times and the order lists, but not the pair chain, nor `init`.  So
the first byte time of the new connection may never be set, and its responses may go to the
pairs of the old one, which the walk meets first.

`repeated_syn_afresh_iff` says when the flow is measured from then on like a new flow that
gets the same SYN: two runs in lockstep, of which one has the old pairs before its own.
-/

namespace MonitoringTool.Sniffer

open Lib

/-! ## What is measured -/

/-- The pair with another number. -/
def Pair.withAddr (pair : Pair) (addr : ℕ) : Pair := { pair with addr := addr }

@[simp] theorem Pair.withAddr_addr (pair : Pair) (addr : ℕ) : (pair.withAddr addr).addr = addr :=
  rfl

/-- The pairs, their numbers apart, the times and the counters of a flow. -/
structure Measures where
  pairs : List Pair
  firstByte : Int × Int
  lastByte : Int × Int
  payload : UInt32 × UInt32
  pkts : UInt32 × UInt32
  pktN : UInt32 × UInt32

/-- What is measured on a flow since pair number `n`. -/
def Flow.measures (f : Flow) (n : ℕ) : Measures where
  pairs := (f.pairs.filter fun p => n ≤ p.addr).map (·.withAddr 0)
  firstByte := (f.fbSec, f.fbUsec)
  lastByte := (f.lbSec, f.lbUsec)
  payload := (f.payloadSrc, f.payloadDst)
  pkts := (f.pktsSrc, f.pktsDst)
  pktN := (f.pktSrcN, f.pktDstN)

/-- The call hands over no packet with RST or FIN. -/
def Call.Continues : Call → Prop
  | .addPacket _ packet _ =>
      hasFlag packet.tcpFlags TH_RST = false ∧ hasFlag packet.tcpFlags TH_FIN = false
  | _ => True

section Calls

variable (flt : FlowFilter) (rspHdlen : Option (List UInt8) → UInt16 → Int)

/-- The flow after the calls. -/
def Flow.after (f : Flow) (calls : List Call) : Option Flow :=
  (run (callStep flt rspHdlen) ⟨f, []⟩ calls).map (·.flow)

/-- What the calls make of the flow, as far as it is measured. -/
def Flow.measuresAfter (f : Flow) (calls : List Call) : Option Measures :=
  (f.after flt rspHdlen calls).map (·.measures f.nextPair)

/-- From this SYN on the flow is measured like a flow that is new in the memory `mem`, with
the same socket and the same later calls. -/
def StartsAfresh (mem f : Flow) (now : Clock) (syn : PacketT) : Prop :=
  ∀ later : List Call, (∀ c ∈ later, c.Continues) →
    f.measuresAfter flt rspHdlen (.addPacket now syn true :: later) =
      (Flow.new mem f.socket).measuresAfter flt rspHdlen (.addPacket now syn true :: later)

end Calls

/-- The walk passes the pair, whatever a response acknowledges: it is answered, and its
request ends at 0. -/
def Pair.Inert (pair : Pair) : Prop :=
  ∃ req, pair.requestHeader = some req ∧ pair.responseHeader.isSome = true ∧ req.nxtSeq = 0

/-- Nothing that `reset` leaves behind is seen later. -/
structure Flow.NothingCarried (f : Flow) : Prop where
  init : f.init = false
  pairs : ∀ p ∈ f.pairs, p.Inert

/-- What the constructor leaves alone of the members that are measured is zero. -/
structure Flow.ZeroMeasures (mem : Flow) : Prop where
  firstByte : mem.fbSec = 0 ∧ mem.fbUsec = 0
  payload : mem.payloadSrc = 0 ∧ mem.payloadDst = 0

/-! ## Chains behind inert pairs -/

/-- The same pair but for its number, which is `n` or later, and `m` or later. -/
def Renumbered (n m : ℕ) (p q : Pair) : Prop := ∃ a, n ≤ a ∧ m ≤ q.addr ∧ p = q.withAddr a

/-- The chain `l` is the chain `l'` behind old pairs that the walks pass. -/
structure Behind (n m : ℕ) (old l l' : List Pair) : Prop where
  inert : ∀ p ∈ old, p.Inert ∧ p.addr < n
  chain : ∃ new, l = old ++ new ∧ List.Forall₂ (Renumbered n m) new l'

section Chains

variable {n m : ℕ} {old l l' : List Pair}

theorem Behind.append (h : Behind n m old l l') {p q : Pair} (hpq : Renumbered n m p q) :
    Behind n m old (l ++ [p]) (l' ++ [q]) := by
  obtain ⟨new, rfl, hnew⟩ := h.chain
  refine ⟨h.inert, new ++ [p], by simp, ?_⟩
  exact List.rel_append hnew (.cons hpq .nil)

theorem Behind.length (h : Behind n m old l l') : l.length = old.length + l'.length := by
  obtain ⟨new, rfl, hnew⟩ := h.chain
  rw [List.length_append, hnew.length_eq]

/-- A store into a pair that does not look at its number. -/
theorem Behind.modify (h : Behind n m old l l') {f : Pair → Pair}
    (hf : ∀ q a, f (q.withAddr a) = (f q).withAddr a) (i : ℕ) :
    Behind n m old (l.modify (old.length + i) f) (l'.modify i f) := by
  have haddr : ∀ q, (f q).addr = q.addr := by
    intro q
    show (f (q.withAddr q.addr)).addr = q.addr
    rw [hf, Pair.withAddr_addr]
  obtain ⟨new, rfl, hnew⟩ := h.chain
  refine ⟨h.inert, new.modify i f, ?_, ?_⟩
  · rw [modify_append_right (Nat.le_add_right _ _), Nat.add_sub_cancel_left]
  · refine forall₂_modify_both ?_ hnew i
    rintro p q ⟨a, ha, hm, rfl⟩
    exact ⟨a, ha, by rwa [haddr], hf q a⟩

/-- What is measured of the two chains is the same. -/
theorem Behind.measured (h : Behind n m old l l') :
    (l.filter fun p => n ≤ p.addr).map (·.withAddr 0) =
      (l'.filter fun p => m ≤ p.addr).map (·.withAddr 0) := by
  obtain ⟨new, rfl, hnew⟩ := h.chain
  have hold : old.filter (fun p => n ≤ p.addr) = [] := by
    refine List.filter_eq_nil_iff.mpr fun p hp => ?_
    simpa using (h.inert p hp).2
  rw [List.filter_append, hold, List.nil_append]
  clear h hold
  induction hnew with
  | nil => rfl
  | cons hpq _ ih =>
      obtain ⟨a, ha, hm, rfl⟩ := hpq
      simp only [List.filter_cons, Pair.withAddr_addr, ha, hm, decide_true, if_true, List.map_cons,
        ih]
      rfl

/-! ### The search for a pair -/

/-- The place `k` pairs further on. -/
def Seek.shift (k : ℕ) : Seek → Seek
  | .exhausted => .exhausted
  | .stopped tmp => .stopped (k + tmp)
  | .found tmp => .found (k + tmp)

/-- The search does not look at the numbers. -/
theorem seekPair_renumbered (h : List.Forall₂ (Renumbered n m) l l') (ack : UInt32) (k tmp : ℕ) :
    seekPair ack (k + tmp) l = (seekPair ack tmp l').map (Seek.shift k) := by
  induction h generalizing tmp with
  | nil => rfl
  | @cons p q rest rest' hpq _ ih =>
      obtain ⟨a, -, -, rfl⟩ := hpq
      have hrest := ih (tmp + 1)
      rw [← Nat.add_assoc] at hrest
      show seekPair ack (k + tmp) (q.withAddr a :: rest) = _
      cases hreq : q.requestHeader with
      | none => simp [seekPair, Pair.withAddr, hreq]
      | some req =>
          simp only [seekPair, Pair.withAddr, hreq, hrest]
          split
          · split <;> rfl
          · rfl

/-- Behind inert pairs the search finds the same, the old pairs further on. -/
theorem Behind.seek (h : Behind n m old l l') (ack : UInt32) {t t' : ℕ}
    (ht : t = 0 ∧ t' = 0 ∨ t = old.length + t') :
    seekPair ack t (l.drop t) =
      (seekPair ack t' (l'.drop t')).map (Seek.shift old.length) := by
  obtain ⟨new, rfl, hnew⟩ := h.chain
  have hskip : ∀ p ∈ old, ∃ req, p.requestHeader = some req ∧ p.responseHeader.isSome = true ∧
      req.nxtSeq ≤ ack := by
    intro p hp
    obtain ⟨⟨req, hreq, hrsp, hzero⟩, -⟩ := h.inert p hp
    exact ⟨req, hreq, hrsp, hzero ▸ UInt32.zero_le⟩
  rcases ht with ⟨rfl, rfl⟩ | rfl
  · rw [List.drop_zero, List.drop_zero, seekPair_skip hskip, Nat.zero_add]
    exact seekPair_renumbered hnew ack old.length 0
  · rw [List.drop_length_add_append]
    exact seekPair_renumbered (List.forall₂_drop t' hnew) ack old.length t'

end Chains

/-! ## The walks in lockstep -/

/-- A place in the chain with a number, `k` pairs further on. -/
def shiftPlace (k : ℕ) (place : ℕ × UInt32) : ℕ × UInt32 := (k + place.1, place.2)

/-- The request walks of the two flows. -/
structure SameReq (n m : ℕ) (old : List Pair) (st st' : ReqState) : Prop where
  nodes : st.nodes = st'.nodes
  pairs : Behind n m old st.pairs st'.pairs
  nextPair : n ≤ st.nextPair ∧ m ≤ st'.nextPair
  newPair : st.newPair = st'.newPair.map (shiftPlace old.length)
  reqn : st.reqn = st'.reqn
  last : st.last = st'.last

/-- The response walks of the two flows.  Both start at the front of their chains. -/
structure SameRsp (n m : ℕ) (old : List Pair) (st st' : RspState) : Prop where
  nodes : st.nodes = st'.nodes
  pairs : Behind n m old st.pairs st'.pairs
  tmp : st.tmp = 0 ∧ st'.tmp = 0 ∨ st.tmp = old.length + st'.tmp
  foundPair : st.foundPair = st'.foundPair.map (shiftPlace old.length)
  firstPacket : st.firstPacket = st'.firstPacket
  last : st.last = st'.last

section Walks

variable {n m : ℕ} {old : List Pair} {fin : Option SeqT} {closed : Bool}

namespace SameReq

variable {st st' : ReqState}

theorem pass (h : SameReq n m old st st') (seq : SeqT) :
    SameReq n m old (st.pass seq) (st'.pass seq) :=
  { h with nodes := by simp [ReqState.pass, h.nodes] }

theorem openPair (h : SameReq n m old st st') (seq : SeqT) (pkt : PacketT) :
    SameReq n m old (st.openPair seq pkt) (st'.openPair seq pkt) := by
  obtain ⟨hn, hm⟩ := h.nextPair
  refine ⟨h.nodes, h.pairs.append ⟨st.nextPair, hn, hm, rfl⟩,
    ⟨Nat.le_succ_of_le hn, Nat.le_succ_of_le hm⟩, ?_, ?_, h.last⟩
  · show some (st.pairs.length, seq.seq) = _
    rw [h.pairs.length]
    rfl
  · show st.reqn + 1 = st'.reqn + 1
    rw [h.reqn]

theorem closePair (h : SameReq n m old st st') (seq : SeqT) :
    SameReq n m old (st.closePair seq) (st'.closePair seq) := by
  unfold ReqState.closePair
  have hnew := h.newPair
  cases hplace : st'.newPair with
  | none =>
      rw [hplace] at hnew
      simp only [hnew, Option.map_none]
      exact h
  | some place =>
      rw [hplace] at hnew
      simp only [hnew, Option.map_some, shiftPlace]
      refine ⟨h.nodes, ?_, h.nextPair, ?_, h.reqn, ?_⟩
      · show Behind n m old (if _ then _ else _) (if _ then _ else _)
        split
        · exact h.pairs.modify (fun _ _ => rfl) place.1
        · exact h.pairs
      · rfl
      · rw [h.last]

theorem endAt (h : SameReq n m old st st') (seq : SeqT) (next : Option SeqT) :
    Option.Rel (SameReq n m old) (st.endAt fin closed seq next)
      (st'.endAt fin closed seq next) := by
  unfold ReqState.endAt
  cases lastBit fin closed next with
  | none => exact .none
  | some last =>
      cases last with
      | false => exact .some h
      | true => exact .some (h.closePair seq)

/-- One node. -/
theorem body (h : SameReq n m old st st') (seq : SeqT) (next : Option SeqT) :
    Option.Rel (SameReq n m old) (reqBody fin closed st seq next)
      (reqBody fin closed st' seq next) := by
  unfold reqBody
  cases unprocessed REQ seq with
  | some pkt =>
      exact rel_map ((h.openPair seq pkt).endAt seq next) fun s s' hs => hs.pass _
  | none =>
      have hisNone : st.newPair.isNone = st'.newPair.isNone := by
        rw [h.newPair, Option.isNone_map]
      rw [hisNone]
      dsimp only
      split
      · exact .some (h.pass seq)
      · exact rel_map (h.endAt seq next) fun s s' hs => hs.pass seq

/-- The whole walk. -/
theorem loop (h : SameReq n m old st st') (nodes : List SeqT) :
    Option.Rel (SameReq n m old) (reqLoop fin closed st nodes)
      (reqLoop fin closed st' nodes) := by
  induction nodes generalizing st st' with
  | nil => exact .some h
  | cons seq rest ih =>
      unfold reqLoop
      split
      · exact rel_bind (h.body seq rest.head?) fun s s' hs => ih hs
      · exact .some { h with nodes := by rw [h.nodes] }

end SameReq

namespace SameRsp

variable {st st' : RspState} (rspHdlen : Option (List UInt8) → UInt16 → Int)

theorem pass (h : SameRsp n m old st st') (seq : SeqT) :
    SameRsp n m old (st.pass seq) (st'.pass seq) :=
  { h with nodes := by simp [RspState.pass, h.nodes] }

theorem attach (h : SameRsp n m old st st') (i : ℕ) (seq : SeqT) (pkt : PacketT) :
    SameRsp n m old (st.attach rspHdlen (old.length + i) seq pkt)
      (st'.attach rspHdlen i seq pkt) where
  nodes := h.nodes
  pairs := h.pairs.modify (fun _ _ => rfl) i
  tmp := .inr rfl
  foundPair := rfl
  firstPacket := rfl
  last := h.last

theorem extend (h : SameRsp n m old st st') (seq : SeqT) (next : Option SeqT) :
    SameRsp n m old (st.extend fin seq next) (st'.extend fin seq next) := by
  unfold RspState.extend
  have hfound := h.foundPair
  cases hplace : st'.foundPair with
  | none =>
      rw [hplace] at hfound
      simp only [hfound, Option.map_none]
      exact h
  | some place =>
      rw [hplace] at hfound
      simp only [hfound, Option.map_some, shiftPlace]
      have hend : ∀ (q : Pair) a, (q.withAddr a).endResponse seq place.2 =
          (q.endResponse seq place.2).withAddr a := by
        intro q a
        unfold Pair.endResponse
        split <;> rfl
      have hpairs : Behind n m old
          (st.pairs.modify (old.length + place.1) (·.appendSeq seq st.firstPacket))
          (st'.pairs.modify place.1 (·.appendSeq seq st.firstPacket)) :=
        h.pairs.modify (fun _ _ => rfl) place.1
      rw [← h.firstPacket]
      split
      · exact ⟨h.nodes, hpairs.modify hend place.1, h.tmp, rfl, rfl, by rw [h.last]⟩
      · exact ⟨h.nodes, hpairs, h.tmp, rfl, rfl, h.last⟩

/-- The whole walk, with its return value. -/
theorem loop (h : SameRsp n m old st st') (nodes : List SeqT) :
    Option.Rel (fun r r' => SameRsp n m old r.1 r'.1 ∧ r.2 = r'.2) (rspLoop rspHdlen fin st nodes)
      (rspLoop rspHdlen fin st' nodes) := by
  induction nodes generalizing st st' with
  | nil => exact .some ⟨h, rfl⟩
  | cons seq rest ih =>
      unfold rspLoop
      split
      · cases unprocessed RSP seq with
        | some pkt =>
            dsimp only
            rw [h.pairs.seek pkt.tcpAck h.tmp]
            cases seekPair pkt.tcpAck st'.tmp (st'.pairs.drop st'.tmp) with
            | none => exact .none
            | some r =>
                cases r with
                | exhausted => exact .some ⟨{ h with nodes := by rw [h.nodes] }, rfl⟩
                | stopped tmp =>
                    have htmp : SameRsp n m old { st with tmp := old.length + tmp }
                        { st' with tmp := tmp } := { h with tmp := .inr rfl }
                    exact ih ((htmp.extend _ _).pass _)
                | found tmp => exact ih (((h.attach rspHdlen tmp _ pkt).extend _ _).pass _)
        | none =>
            have hisNone : st.foundPair.isNone = st'.foundPair.isNone := by
              rw [h.foundPair, Option.isNone_map]
            rw [hisNone]
            dsimp only
            split
            · exact ih (h.pass seq)
            · exact ih ((h.extend seq _).pass seq)
      · exact .some ⟨{ h with nodes := by rw [h.nodes] }, rfl⟩

end SameRsp

end Walks

/-! ## The calls in lockstep -/

/-- The flow without its pairs and what is not measured and decides nothing. -/
def Flow.withoutPairs (f : Flow) : Flow :=
  { f with pktSrc := [], pktDst := [], pairs := [], nextPair := 0, close := 0, processed := false }

/-- The flow `f` is measured like `g`: it has old pairs, which the walks pass, before its
own. -/
structure Follows (n m : ℕ) (f g : Flow) : Prop where
  flow : f.withoutPairs = g.withoutPairs
  pairs : ∃ old, Behind n m old f.pairs g.pairs
  nextPair : n ≤ f.nextPair ∧ m ≤ g.nextPair

section Calls

variable {n m : ℕ} {f g : Flow}

theorem Follows.measures (h : Follows n m f g) : f.measures n = g.measures m := by
  obtain ⟨old, hpairs⟩ := h.pairs
  have hflow := h.flow
  simp only [Flow.withoutPairs, Flow.mk.injEq] at hflow
  simp [Flow.measures, hpairs.measured, hflow]

theorem Follows.order (h : Follows n m f g) : f.order = g.order := by
  have horder := congrArg Flow.order h.flow
  exact horder

theorem Follows.last (h : Follows n m f g) : (f.lbSec, f.lbUsec) = (g.lbSec, g.lbUsec) := by
  have hlast := congrArg (fun f : Flow => (f.lbSec, f.lbUsec)) h.flow
  exact hlast

theorem Follows.finSeq (h : Follows n m f g) : f.finSeq = g.finSeq := by
  unfold Flow.finSeq
  rw [h.order]

/-- `add_packet` looks neither at the pairs nor at the chains. -/
theorem addPacket_withoutPairs (f : Flow) (now : Clock) {packet : PacketT} (src : Bool)
    (hrst : hasFlag packet.tcpFlags TH_RST = false)
    (hfin : hasFlag packet.tcpFlags TH_FIN = false) :
    (f.addPacket now packet src).flow.withoutPairs =
      (f.withoutPairs.addPacket now packet src).flow.withoutPairs := by
  have hn : f.withoutPairs.pktsSrc = f.pktsSrc := rfl
  unfold Flow.addPacket
  simp only [hrst, hfin, hn, Bool.false_eq_true, if_false]
  split
  · split <;> cases src <;> rfl
  · split <;> cases src <;> rfl

theorem Follows.addPacket (h : Follows n m f g) (now : Clock) {packet : PacketT} (src : Bool)
    (hrst : hasFlag packet.tcpFlags TH_RST = false)
    (hfin : hasFlag packet.tcpFlags TH_FIN = false) :
    Follows n m (f.addPacket now packet src).flow (g.addPacket now packet src).flow := by
  obtain ⟨hpairs, hnext, -⟩ := Flow.addPacket_pairs f now packet src
  obtain ⟨hpairs', hnext', -⟩ := Flow.addPacket_pairs g now packet src
  refine ⟨?_, ?_, ?_⟩
  · rw [addPacket_withoutPairs f now src hrst hfin, addPacket_withoutPairs g now src hrst hfin,
      h.flow]
  · rw [hpairs, hpairs']
    exact h.pairs
  · rw [hnext, hnext']
    exact h.nextPair

theorem Follows.setFirstByte (h : Follows n m f g) :
    Follows n m f.setFirstByte g.setFirstByte := by
  obtain ⟨-, hpairs, hnext, -⟩ := f.setFirstByte_frame
  obtain ⟨-, hpairs', hnext', -⟩ := g.setFirstByte_frame
  have hcomm : ∀ f : Flow, f.setFirstByte.withoutPairs = f.withoutPairs.setFirstByte := by
    intro f
    have hinit : f.withoutPairs.init = f.init := rfl
    have horder : f.withoutPairs.order = f.order := rfl
    unfold Flow.setFirstByte
    rw [hinit, horder]
    split
    · rfl
    · split <;> rfl
  refine ⟨?_, ?_, ?_⟩
  · rw [hcomm, hcomm, h.flow]
  · rw [hpairs, hpairs']
    exact h.pairs
  · rw [hnext, hnext']
    exact h.nextPair

variable (flt : FlowFilter) (rspHdlen : Option (List UInt8) → UInt16 → Int)

theorem Follows.afterRequests (h : Follows n m f g) {old : List Pair} {st st' : ReqState}
    (hst : SameReq n m old st st') : Follows n m (f.afterRequests st) (g.afterRequests st') := by
  have hcomm : ∀ (f : Flow) st, (f.afterRequests st).withoutPairs =
      (f.withoutPairs.afterRequests st).withoutPairs := fun _ _ => rfl
  refine ⟨?_, ⟨old, hst.pairs⟩, hst.nextPair⟩
  rw [hcomm, hcomm, h.flow]
  simp only [Flow.afterRequests, Flow.withoutPairs, hst.nodes, hst.last]

theorem Follows.afterResponses (h : Follows n m f g) {old : List Pair} {st st' : RspState}
    (hst : SameRsp n m old st st') :
    Follows n m (f.afterResponses st) (g.afterResponses st') := by
  have hcomm : ∀ (f : Flow) st, (f.afterResponses st).withoutPairs =
      (f.withoutPairs.afterResponses st).withoutPairs := fun _ _ => rfl
  refine ⟨?_, ⟨old, hst.pairs⟩, h.nextPair⟩
  rw [hcomm, hcomm, h.flow]
  simp only [Flow.afterResponses, Flow.withoutPairs, hst.nodes, hst.last]

theorem Follows.findRequests (h : Follows n m f g) (closed : Bool) :
    ∃ old, Option.Rel (SameReq n m old) (f.findRequests closed) (g.findRequests closed) := by
  obtain ⟨old, hpairs⟩ := h.pairs
  have hstart : SameReq n m old ⟨[], f.pairs, f.nextPair, none, 0, (f.lbSec, f.lbUsec)⟩
      ⟨[], g.pairs, g.nextPair, none, 0, (g.lbSec, g.lbUsec)⟩ :=
    ⟨rfl, hpairs, h.nextPair, rfl, rfl, h.last⟩
  refine ⟨old, ?_⟩
  unfold Flow.findRequests
  rw [h.order, h.finSeq]
  exact hstart.loop _

theorem Follows.findResponses (h : Follows n m f g) (fin : Option SeqT) :
    ∃ old, Option.Rel (fun r r' => SameRsp n m old r.1 r'.1 ∧ r.2 = r'.2)
      (f.findResponses rspHdlen fin) (g.findResponses rspHdlen fin) := by
  obtain ⟨old, hpairs⟩ := h.pairs
  have hstart : SameRsp n m old ⟨[], f.pairs, 0, none, false, (f.lbSec, f.lbUsec)⟩
      ⟨[], g.pairs, 0, none, false, (g.lbSec, g.lbUsec)⟩ :=
    ⟨rfl, hpairs, .inl ⟨rfl, rfl⟩, rfl, rfl, h.last⟩
  refine ⟨old, ?_⟩
  unfold Flow.findResponses
  rw [h.order]
  exact hstart.loop rspHdlen _

/-- The two walks on both flows. -/
theorem Follows.findPairs (h : Follows n m f g) (closed : Bool) :
    Option.Rel (fun r r' => Follows n m r.1 r'.1) (f.findPairs rspHdlen closed)
      (g.findPairs rspHdlen closed) := by
  obtain ⟨old, hreq⟩ := h.findRequests closed
  unfold Flow.findPairs
  refine rel_bind hreq fun st st' hst => ?_
  have hflows := h.afterRequests hst
  obtain ⟨old', hrsp⟩ := hflows.findResponses rspHdlen g.finSeq
  dsimp only
  rw [hst.reqn, h.finSeq]
  split
  · exact .some hflows
  · exact rel_map hrsp fun r r' hr => hflows.afterResponses hr.1

theorem Follows.extractPair (h : Follows n m f g) (closed : Bool) :
    Option.Rel (fun r r' => Follows n m r.1 r'.1) (extractPair rspHdlen f closed)
      (extractPair rspHdlen g closed) :=
  h.setFirstByte.findPairs rspHdlen closed

/-! ### The walk that notifies -/

/-- The walk does not look at the numbers. -/
theorem Pair.visit_withAddr (p : Pair) (a : ℕ) (hasNext : Bool) :
    ((p.withAddr a).visit hasNext).1 = (p.visit hasNext).1.map (·.withAddr a) := by
  cases hreq : p.requestHeader with
  | none => simp [Pair.visit, Pair.withAddr, hreq]
  | some req =>
      cases hrsp : p.responseHeader with
      | none => simp [Pair.visit, Pair.withAddr, Pair.markRequest, hreq, hrsp]
      | some rsp =>
          cases hproc : rsp.processed <;> cases hasNext <;>
            simp [Pair.visit, Pair.withAddr, Pair.markRequest, Pair.markResponse, hreq, hrsp, hproc]

theorem Pair.visit_addr {p q : Pair} {hasNext : Bool} (h : (p.visit hasNext).1 = some q) :
    q.addr = p.addr := by
  have hsame := p.visit_withAddr p.addr hasNext
  rw [h] at hsame
  have hq : q = q.withAddr p.addr := Option.some.inj (h.symm.trans hsame)
  rw [hq, Pair.withAddr_addr]

theorem Pair.Inert.visit {p q : Pair} (h : p.Inert) {hasNext : Bool}
    (hvisit : (p.visit hasNext).1 = some q) : q.Inert := by
  obtain ⟨req, hreq, hsome, hzero⟩ := h
  obtain ⟨rsp, hrsp⟩ := Option.isSome_iff_exists.mp hsome
  have hmark : p.markRequest.Inert :=
    ⟨{ req with processed := true }, by simp [Pair.markRequest, hreq],
      by simp [Pair.markRequest, hrsp], hzero⟩
  have hboth : p.markRequest.markResponse.Inert :=
    ⟨{ req with processed := true }, by simp [Pair.markRequest, Pair.markResponse, hreq],
      by simp [Pair.markRequest, Pair.markResponse, hrsp], hzero⟩
  have hrsp' : p.markRequest.responseHeader = some rsp := hrsp
  unfold Pair.visit at hvisit
  simp only [hreq, Option.isNone_some, Bool.false_eq_true, if_false, hrsp'] at hvisit
  split at hvisit
  · split at hvisit
    · cases hvisit
    · exact Option.some.inj hvisit ▸ hmark
  · exact Option.some.inj hvisit ▸ hboth

/-- The walk goes through old pairs before it comes to the others. -/
theorem dataLoop_inert {passed old : List Pair} (hpassed : ∀ p ∈ passed, p.Inert ∧ p.addr < n)
    (hold : ∀ p ∈ old, p.Inert ∧ p.addr < n) (l : List Pair) :
    ∃ passed', (∀ p ∈ passed', p.Inert ∧ p.addr < n) ∧
      (dataLoop passed (old ++ l)).1 = (dataLoop passed' l).1 := by
  induction old generalizing passed with
  | nil => exact ⟨passed, hpassed, rfl⟩
  | cons p old ih =>
      have hrest : ∀ p ∈ old, p.Inert ∧ p.addr < n := fun q hq => hold q (by simp [hq])
      rw [List.cons_append, dataLoop]
      cases hvisit : (p.visit (!(old ++ l).isEmpty)).1 with
      | none => exact ih (by simp) hrest
      | some q =>
          obtain ⟨hp, hlt⟩ := hold p (by simp)
          have hq := hp.visit hvisit
          have haddr := Pair.visit_addr hvisit
          refine ih (fun r hr => ?_) hrest
          rcases List.mem_append.mp hr with hr | hr
          · exact hpassed r hr
          · obtain rfl : r = q := by simpa using hr
            exact ⟨hq, haddr ▸ hlt⟩

/-- From there on it does the same to both chains. -/
theorem dataLoop_behind {old passed passed' l l' : List Pair}
    (hpassed : Behind n m old passed passed') (h : List.Forall₂ (Renumbered n m) l l') :
    ∃ old', Behind n m old' (dataLoop passed l).1 (dataLoop passed' l').1 := by
  induction h generalizing old passed passed' with
  | nil => exact ⟨old, hpassed⟩
  | @cons p q rest rest' hpq hrest ih =>
      obtain ⟨a, ha, hm, rfl⟩ := hpq
      have hempty : rest.isEmpty = rest'.isEmpty := by
        cases hrest <;> rfl
      rw [dataLoop, dataLoop, Pair.visit_withAddr, hempty]
      cases hvisit : (q.visit (!rest'.isEmpty)).1 with
      | none =>
          have hnil : Behind n m [] [] [] := ⟨by simp, [], rfl, .nil⟩
          exact ih hnil
      | some r =>
          have haddr := Pair.visit_addr hvisit
          exact ih (hpassed.append ⟨a, ha, by rwa [haddr], rfl⟩)

theorem Follows.extractData (h : Follows n m f g) :
    Follows n m (extractData flt f).1 (extractData flt g).1 := by
  have hsocket : f.socket = g.socket := by
    have hflow := congrArg Flow.socket h.flow
    exact hflow
  by_cases hpass : flt.passes g.socket = true
  · have hwalk : ∀ f : Flow, f.socket = g.socket → (MonitoringTool.Sniffer.extractData flt f).1 =
        { f with processed := true, pairs := (dataLoop [] f.pairs).1 } := by
      intro f hf
      unfold MonitoringTool.Sniffer.extractData
      rw [hf, if_pos hpass]
    rw [hwalk f hsocket, hwalk g rfl]
    refine ⟨h.flow, ?_, h.nextPair⟩
    obtain ⟨old, hinert, new, hpairs, hnew⟩ := h.pairs
    have hnil : ∀ p ∈ ([] : List Pair), p.Inert ∧ p.addr < n := by simp
    obtain ⟨passed, hpassed, hloop⟩ := dataLoop_inert hnil hinert new
    dsimp only
    rw [hpairs, hloop]
    exact dataLoop_behind ⟨hpassed, [], by simp, .nil⟩ hnew
  · have hstay : ∀ f : Flow, f.socket = g.socket →
        (MonitoringTool.Sniffer.extractData flt f).1 = f := by
      intro f hf
      unfold MonitoringTool.Sniffer.extractData
      rw [hf, if_neg hpass]
    rwa [hstay f hsocket, hstay g rfl]

/-- One call on both flows. -/
theorem Follows.step {w v : Watched} (h : Follows n m w.flow v.flow) {c : Call}
    (hc : c.Continues) :
    Option.Rel (fun w v : Watched => Follows n m w.flow v.flow) (callStep flt rspHdlen w c)
      (callStep flt rspHdlen v c) := by
  cases c with
  | addPacket now packet src =>
      obtain ⟨hrst, hfin⟩ := hc
      have hdrop : ∀ f : Flow, ¬ DropsFlow f packet := fun f hd => by
        simpa [hrst] using hd.1
      simp only [callStep, Flow.receive, hdrop, if_false, Option.map_some]
      exact .some (h.addPacket now src hrst hfin)
  | extractPair closed => exact rel_map (h.extractPair rspHdlen closed) fun r r' hr => hr
  | extractData => exact .some (h.extractData flt)

/-- The calls on both flows. -/
theorem Follows.after (h : Follows n m f g) {calls : List Call}
    (hcalls : ∀ c ∈ calls, c.Continues) :
    (f.after flt rspHdlen calls).map (·.measures n) =
      (g.after flt rspHdlen calls).map (·.measures m) := by
  have hstep : ∀ (w v : Watched) (c : Call), Follows n m w.flow v.flow → c.Continues →
      Option.Rel (fun w v : Watched => Follows n m w.flow v.flow) (callStep flt rspHdlen w c)
        (callStep flt rspHdlen v c) := fun w v c hwv hc => Follows.step flt rspHdlen hwv hc
  have hruns : Option.Rel (fun w v : Watched => Follows n m w.flow v.flow)
      (run (callStep flt rspHdlen) ⟨f, []⟩ calls) (run (callStep flt rspHdlen) ⟨g, []⟩ calls) :=
    run_rel hstep h hcalls
  unfold Flow.after
  rw [Option.map_map, Option.map_map]
  exact map_eq_of_rel hruns fun w v hwv => hwv.measures

end Calls

/-! ## The SYN -/

section Syn

variable (flt : FlowFilter) (rspHdlen : Option (List UInt8) → UInt16 → Int)
variable {mem f : Flow} {now : Clock} {syn : PacketT}

/-- The SYN is the first packet, of the flow or of the flow that is reset. -/
theorem addPacket_syn (f : Flow) (hsyn : syn.tcpFlags = TH_SYN) :
    (f.addPacket now syn true).flow =
      ((if f.pktsSrc = 0 then f else f.reset).setSyn syn).calPacket now
        { syn with type := 0 } true := by
  obtain ⟨hrst, hfin⟩ := hasFlag_of_syn syn hsyn
  unfold Flow.addPacket
  rw [if_neg (by simp [hrst]), if_neg (by simp [hfin]), if_pos ⟨rfl, hsyn⟩]
  split <;> rfl

theorem after_addPacket (f : Flow) {packet : PacketT}
    (hrst : hasFlag packet.tcpFlags TH_RST = false) (src : Bool) (later : List Call) :
    f.after flt rspHdlen (.addPacket now packet src :: later) =
      (f.addPacket now packet src).flow.after flt rspHdlen later := by
  have hdrop : ¬ DropsFlow f packet := by
    intro hd
    simpa [hrst] using hd.1
  simp [Flow.after, callStep, Flow.receive, hdrop]

theorem after_extractPair (f : Flow) (closed : Bool) :
    f.after flt rspHdlen [.extractPair closed] = (extractPair rspHdlen f closed).map (·.1) := by
  unfold Flow.after
  simp only [run_cons, run_nil, callStep, Option.bind_map, Option.map_bind]
  cases extractPair rspHdlen f closed <;> rfl

/-- What is measured after the SYN and the later calls. -/
theorem measuresAfter_syn (hsyn : syn.tcpFlags = TH_SYN) (f : Flow) (later : List Call) :
    f.measuresAfter flt rspHdlen (.addPacket now syn true :: later) =
      ((f.addPacket now syn true).flow.after flt rspHdlen later).map (·.measures f.nextPair) := by
  unfold Flow.measuresAfter
  rw [after_addPacket flt rspHdlen f (hasFlag_of_syn syn hsyn).1]

/-- A flow that carries nothing over and a new one that starts at zero go on alike. -/
theorem startsAfresh_of_nothingCarried (hnum : ∀ p ∈ f.pairs, p.addr < f.nextPair)
    (hmem : mem.ZeroMeasures) (hf : f.NothingCarried) (hrep : RepeatedSyn f syn true) :
    StartsAfresh flt rspHdlen mem f now syn := by
  obtain ⟨hpayload₁, hpayload₂⟩ := hmem.payload
  obtain ⟨hfirst₁, hfirst₂⟩ := hmem.firstByte
  have hinit := hf.init
  have hpairs : Behind f.nextPair mem.nextPair f.pairs f.pairs [] :=
    ⟨fun p hp => ⟨hf.pairs p hp, hnum p hp⟩, [], by simp, .nil⟩
  have hstart : Follows f.nextPair mem.nextPair (f.addPacket now syn true).flow
      ((Flow.new mem f.socket).addPacket now syn true).flow := by
    rw [addPacket_syn f hrep.2.1, if_neg hrep.2.2, addPacket_syn _ hrep.2.1,
      if_pos (show (Flow.new mem f.socket).pktsSrc = 0 from rfl)]
    refine ⟨?_, ⟨f.pairs, hpairs⟩, Nat.le_refl _, Nat.le_refl _⟩
    simp [Flow.withoutPairs, Flow.calPacket, Flow.countPacket, Flow.setSyn, Flow.reset, Flow.new,
      hpayload₁, hpayload₂, hfirst₁, hfirst₂, hinit]
  intro later hlater
  rw [measuresAfter_syn flt rspHdlen hrep.2.1, measuresAfter_syn flt rspHdlen hrep.2.1]
  exact hstart.after flt rspHdlen hlater

end Syn

/-! ## What tells the flows apart

Another SYN clears the lists, a request follows that ends at 0, and the response to it.
-/

/-- Another SYN of the source. -/
def secondSyn : PacketT := { webPacket 0 true 0 0 0 0 with tcpFlags := TH_SYN }

/-- A request of one byte, captured at second 1, that ends at 0. -/
def lateRequest : PacketT := { webPacket 1 true 0xFFFFFFFF 0 1 REQ with capSec := 1 }

/-- The response to it. -/
def lateResponse : PacketT := webPacket 2 false 0 0 1 RSP

/-- The second SYN, the request and its response, and a call of `extractPair`. -/
def telltale : List Call :=
  [.addPacket ⟨0, 0⟩ secondSyn true, .addPacket ⟨0, 0⟩ lateRequest true,
    .addPacket ⟨0, 0⟩ lateResponse false, .extractPair true]

/-- A flow after the packets. -/
def Flow.told (f : Flow) : Flow :=
  let f := (f.reset.setSyn secondSyn).calPacket ⟨0, 0⟩ { secondSyn with type := 0 } true
  let f := (f.addPacket ⟨0, 0⟩ lateRequest true).flow
  (f.addPacket ⟨0, 0⟩ lateResponse false).flow

/-- The pair of the request. -/
def latePair (addr : ℕ) : Pair :=
  { Pair.new addr with
    requestHeader := some (getRequest lateRequest)
    reqFbSec := 1
    reqLbSec := 1 }

section Telltale

variable (flt : FlowFilter) (rspHdlen : Option (List UInt8) → UInt16 → Int) {f : Flow}

theorem after_telltale (hn : f.pktsSrc ≠ 0) :
    f.after flt rspHdlen telltale = (extractPair rspHdlen f.told true).map (·.1) := by
  have hsyn : (f.addPacket ⟨0, 0⟩ secondSyn true).flow =
      (f.reset.setSyn secondSyn).calPacket ⟨0, 0⟩ { secondSyn with type := 0 } true := by
    rw [addPacket_syn f rfl, if_neg hn]
  unfold telltale
  rw [after_addPacket _ _ _ (by decide), after_addPacket _ _ _ (by decide),
    after_addPacket _ _ _ (by decide), after_extractPair, hsyn]
  rfl

/-- The packets leave the pairs alone. -/
theorem told_pairs (f : Flow) : f.told.pairs = f.pairs ∧ f.told.nextPair = f.nextPair := by
  obtain ⟨hpairs₁, hnext₁, -⟩ := Flow.calPacket_frame (f.reset.setSyn secondSyn) ⟨0, 0⟩
    { secondSyn with type := 0 } true
  generalize hf₁ : (f.reset.setSyn secondSyn).calPacket ⟨0, 0⟩ { secondSyn with type := 0 } true =
    f₁ at hpairs₁ hnext₁
  obtain ⟨hpairs₂, hnext₂, -⟩ := @Flow.addPacket_pairs f₁ ⟨0, 0⟩ lateRequest true
  generalize hf₂ : (f₁.addPacket ⟨0, 0⟩ lateRequest true).flow = f₂ at hpairs₂ hnext₂
  obtain ⟨hpairs₃, hnext₃, -⟩ := @Flow.addPacket_pairs f₂ ⟨0, 0⟩ lateResponse false
  have htold : f.told = (f₂.addPacket ⟨0, 0⟩ lateResponse false).flow := by
    rw [← hf₂, ← hf₁]
    rfl
  rw [htold]
  exact ⟨hpairs₃.trans (hpairs₂.trans hpairs₁), hnext₃.trans (hnext₂.trans hnext₁)⟩

/-- The request opens a pair behind those of the flow. -/
theorem told_findRequests (f : Flow) :
    ∃ nodes last, f.told.findRequests true =
      some ⟨nodes, f.pairs ++ [latePair f.nextPair], f.nextPair + 1,
        some (f.pairs.length, 0xFFFFFFFF), 1, last⟩ := by
  obtain ⟨hpairs, hnext⟩ := told_pairs f
  have hfin : f.told.finSeq = none := rfl
  unfold Flow.findRequests
  rw [hpairs, hnext, hfin]
  exact ⟨_, _, rfl⟩

/-- A pair that the response goes to. -/
def Pair.answerLate (p : Pair) : Pair :=
  let seq := { seqPkt lateResponse with processed := true }
  ((p.startResponse rspHdlen seq lateResponse).appendSeq seq true).endResponse seq 0

/-- The walk over the response. -/
theorem told_rspLoop_eq (f : Flow) (pairs : List Pair) (last : Int × Int) (seq : SeqT)
    (hseq : seq = { seqPkt lateResponse with processed := true }) (start : RspState)
    (hstart : start = ⟨[], pairs, 0, none, false, last⟩) :
    rspLoop rspHdlen f.told.finSeq start f.told.order.dst.nodes =
      match seekPair 0 0 pairs with
      | none => none
      | some .exhausted => some (start.pass seq, 1)
      | some (.stopped i) => some (({ start with tmp := i }).pass seq, 0)
      | some (.found i) =>
          some (((start.attach rspHdlen i seq lateResponse).extend none seq none).pass seq, 0) := by
  subst hseq hstart
  rfl

/-- The response goes to the pair that the search finds. -/
theorem told_rspLoop {pairs : List Pair} {last : Int × Int} {st : RspState} {ret : Int}
    (h : rspLoop rspHdlen f.told.finSeq ⟨[], pairs, 0, none, false, last⟩ f.told.order.dst.nodes =
      some (st, ret)) :
    st.pairs =
      match seekPair 0 0 pairs with
      | some (.found i) => pairs.modify i (·.answerLate rspHdlen)
      | _ => pairs := by
  rw [told_rspLoop_eq rspHdlen f pairs last _ rfl _ rfl] at h
  split at h
  · cases h
  · next hseek =>
    obtain ⟨rfl, -⟩ := Prod.mk.inj (Option.some.inj h)
    rw [hseek]
    rfl
  · next hseek =>
    obtain ⟨rfl, -⟩ := Prod.mk.inj (Option.some.inj h)
    rw [hseek]
    rfl
  · next i hseek =>
    obtain ⟨rfl, -⟩ := Prod.mk.inj (Option.some.inj h)
    rw [hseek]
    show ((pairs.modify i _).modify i _).modify i _ = pairs.modify i _
    rw [List.modify_modify_eq, List.modify_modify_eq]
    rfl

/-- A pair that is not inert keeps the search from the pairs behind. -/
theorem seekPair_not_inert {old : List Pair} (hreq : HaveRequests old)
    (h : ¬ ∀ p ∈ old, p.Inert) (l : List Pair) (tmp : ℕ) :
    ∃ i < tmp + old.length, seekPair 0 tmp (old ++ l) = some (.stopped i) ∨
      seekPair 0 tmp (old ++ l) = some (.found i) := by
  induction old generalizing tmp with
  | nil => simp at h
  | cons p old ih =>
      obtain ⟨req, hp⟩ := Option.isSome_iff_exists.mp (hreq p (by simp))
      have hlt : tmp < tmp + (p :: old).length := by simp
      rw [List.cons_append, seekPair, hp]
      dsimp only
      by_cases hzero : req.nxtSeq ≤ 0
      · have hnxt : req.nxtSeq = 0 := UInt32.le_zero_iff.mp hzero
        rw [if_pos hzero]
        by_cases hrsp : p.responseHeader = none
        · exact ⟨tmp, hlt, .inr (if_pos ⟨hrsp, hnxt⟩)⟩
        · have hinert : p.Inert := ⟨req, hp, Option.isSome_iff_ne_none.mpr hrsp, hnxt⟩
          have hrest : ¬ ∀ q ∈ old, q.Inert := fun hold => h (by simpa [hinert] using hold)
          obtain ⟨i, hi, hseek⟩ := ih (fun q hq => hreq q (by simp [hq])) hrest (tmp + 1)
          rw [if_neg fun hnone => hrsp hnone.1]
          exact ⟨i, by rw [List.length_cons]; omega, hseek⟩
      · rw [if_neg hzero]
        exact ⟨tmp, hlt, .inl rfl⟩

/-- Then the response does not go to the late pair. -/
theorem told_unanswered {old : List Pair} (hreq : HaveRequests old) (h : ¬ ∀ p ∈ old, p.Inert)
    {p : Pair} {last : Int × Int} {st : RspState} {ret : Int}
    (hloop : rspLoop rspHdlen f.told.finSeq ⟨[], old ++ [p], 0, none, false, last⟩
      f.told.order.dst.nodes = some (st, ret)) : ∃ old', st.pairs = old' ++ [p] := by
  obtain ⟨i, hi, hseek⟩ := seekPair_not_inert hreq h [p] 0
  rw [Nat.zero_add] at hi
  have hpairs := told_rspLoop rspHdlen hloop
  rcases hseek with hseek | hseek
  · rw [hseek] at hpairs
    exact ⟨old, hpairs⟩
  · rw [hseek] at hpairs
    exact ⟨_, hpairs.trans (modify_append_left hi _)⟩

/-- What the telltale calls leave. -/
theorem after_telltale_spec (hn : f.pktsSrc ≠ 0) (hreq : HaveRequests f.pairs) :
    ∃ f', f.after flt rspHdlen telltale = some f' ∧ f'.fbSec = (if f.init then 0 else 1) ∧
      ((¬ ∀ p ∈ f.pairs, p.Inert) → ∃ old', f'.pairs = old' ++ [latePair f.nextPair]) ∧
      (f.pairs = [] → ∃ p, f'.pairs = [p] ∧ p.addr = f.nextPair ∧
        p.responseHeader.isSome = true) := by
  have hreq' : HaveRequests f.told.pairs := by
    rw [(told_pairs f).1]
    exact hreq
  obtain ⟨⟨f', ret⟩, hcall⟩ := extractPair_defined rspHdlen (.inl rfl) hreq'
  obtain ⟨st, hst, hwalk⟩ := extractPair_walks rspHdlen hcall
  obtain ⟨nodes, last, hfound⟩ := told_findRequests f
  rw [setFirstByte_findRequests, hfound, Option.some.injEq] at hst
  subst hst
  rcases hwalk with ⟨hzero, -⟩ | ⟨-, st', ret', hloop, rfl, -⟩
  · cases hzero
  refine ⟨_, by rw [after_telltale flt rspHdlen hn, hcall, Option.map_some], ?_, ?_, ?_⟩
  · show f.told.setFirstByte.fbSec = _
    have hinit : f.told.init = f.init := rfl
    have hfirst : firstByte f.told.order.src.nodes = some (seqPkt lateRequest) := rfl
    unfold Flow.setFirstByte
    rw [hinit, hfirst]
    cases f.init <;> rfl
  · exact fun hnot => told_unanswered rspHdlen hreq hnot hloop
  · intro hnil
    have hpairs := told_rspLoop rspHdlen hloop
    rw [hnil] at hpairs
    exact ⟨_, hpairs, rfl, rfl⟩

end Telltale

/-! ## Reachable flows -/

/-- The pairs of a reachable flow have requests and are numbered in order. -/
structure Flow.PairsSound (f : Flow) : Prop where
  request : HaveRequests f.pairs
  addr : ∀ p ∈ f.pairs, p.addr < f.nextPair

section Reachable

variable (flt : FlowFilter) (rspHdlen : Option (List UInt8) → UInt16 → Int)

theorem Flow.PairsSound.step {w w' : Watched} (h : w.flow.PairsSound) {c : Call}
    (hstep : callStep flt rspHdlen w c = some w') : w'.flow.PairsSound := by
  cases c with
  | addPacket now packet src =>
      obtain ⟨f, hf, rfl⟩ := Option.map_eq_some_iff.mp hstep
      obtain ⟨-, rfl⟩ := (Flow.receive_eq_some _ _ _ _).mp hf
      obtain ⟨hpairs, hnext, -⟩ := Flow.addPacket_pairs w.flow now packet src
      refine ⟨?_, ?_⟩
      · rw [hpairs]
        exact h.request
      · rw [hpairs, hnext]
        exact h.addr
  | extractPair closed =>
      obtain ⟨⟨f, ret⟩, hcall, rfl⟩ := Option.map_eq_some_iff.mp hstep
      obtain ⟨k, hnext, -⟩ := extractPair_addrs rspHdlen hcall
      refine ⟨extractPair_haveRequests rspHdlen hcall h.request, fun p hp => ?_⟩
      rcases extractPair_mem rspHdlen hcall hp with ⟨q, hq, hqp⟩ | ⟨hnew, -⟩
      · have hlt := h.addr q hq
        dsimp only
        rw [hqp.addr, hnext]
        omega
      · exact hnew.2
  | extractData =>
      obtain rfl := Option.some.inj hstep
      refine ⟨extractData_haveRequests flt h.request, fun q hq => ?_⟩
      obtain ⟨-, -, hnext⟩ := extractData_frame flt w.flow
      obtain ⟨p, hp, rfl | rfl⟩ := extractData_mem flt hq <;> dsimp only <;> rw [hnext]
      · exact h.addr q hp
      · rw [Pair.mark_addr]
        exact h.addr p hp

theorem Flow.PairsSound.after {f f' : Flow} (h : f.PairsSound) {calls : List Call}
    (hafter : f.after flt rspHdlen calls = some f') : f'.PairsSound := by
  obtain ⟨w, hrun, rfl⟩ := Option.map_eq_some_iff.mp hafter
  have hstep : ∀ (w : Watched) c w', w.flow.PairsSound → callStep flt rspHdlen w c = some w' →
      w'.flow.PairsSound := fun w c w' hw hs => hw.step flt rspHdlen hs
  exact run_inv hstep h hrun

theorem Flow.pairsSound_new (mem : Flow) (s : FlowS) : (Flow.new mem s).PairsSound :=
  ⟨fun _ hp => (List.not_mem_nil hp).elim, fun _ hp => (List.not_mem_nil hp).elim⟩

end Reachable

/-! ## When a repeated SYN starts afresh -/

section Afresh

variable (flt : FlowFilter) (rspHdlen : Option (List UInt8) → UInt16 → Int)
variable {mem f : Flow} {now : Clock} {syn : PacketT}

theorem telltale_continues : ∀ c ∈ telltale, c.Continues := by
  intro c hc
  simp only [telltale, List.mem_cons, List.not_mem_nil, or_false] at hc
  rcases hc with rfl | rfl | rfl | rfl
  · exact ⟨by decide, by decide⟩
  · exact ⟨by decide, by decide⟩
  · exact ⟨by decide, by decide⟩
  · trivial

/-- The SYN alone shows what the constructor left alone. -/
theorem zeroMeasures_of_startsAfresh (hrep : RepeatedSyn f syn true)
    (h : StartsAfresh flt rspHdlen mem f now syn) : mem.ZeroMeasures := by
  have hsyn := hrep.2.1
  have hnow := h [] (by simp)
  rw [measuresAfter_syn flt rspHdlen hsyn, measuresAfter_syn flt rspHdlen hsyn,
    addPacket_syn f hsyn, if_neg hrep.2.2, addPacket_syn _ hsyn,
    if_pos (show (Flow.new mem f.socket).pktsSrc = 0 from rfl)] at hnow
  have hmeasures := Option.some.inj hnow
  have hfirst : ((0 : Int), (0 : Int)) = (mem.fbSec, mem.fbUsec) :=
    congrArg Measures.firstByte hmeasures
  have hpayload : (0 + syn.tcpDl.toUInt32, (0 : UInt32)) =
      (mem.payloadSrc + syn.tcpDl.toUInt32, mem.payloadDst) :=
    congrArg Measures.payload hmeasures
  obtain ⟨hsec, husec⟩ := Prod.mk.inj hfirst
  obtain ⟨hsrc, hdst⟩ := Prod.mk.inj hpayload
  exact ⟨⟨hsec.symm, husec.symm⟩, (UInt32.add_left_inj _).mp hsrc.symm, hdst.symm⟩

/-- After the SYN, and the telltale calls. -/
theorem after_syn_telltale (f : Flow) (hsyn : syn.tcpFlags = TH_SYN) (hf : HaveRequests f.pairs) :
    ∃ f', (f.addPacket now syn true).flow.after flt rspHdlen telltale = some f' ∧
      f'.fbSec = (if f.init then 0 else 1) ∧
      ((¬ ∀ p ∈ f.pairs, p.Inert) → ∃ old', f'.pairs = old' ++ [latePair f.nextPair]) ∧
      (f.pairs = [] → ∃ p, f'.pairs = [p] ∧ p.addr = f.nextPair ∧
        p.responseHeader.isSome = true) := by
  obtain ⟨hpairs, hnext, -⟩ := Flow.addPacket_pairs f now syn true
  have hframe : (f.addPacket now syn true).flow.pktsSrc = 1 ∧
      (f.addPacket now syn true).flow.init = f.init := by
    rw [addPacket_syn f hsyn]
    split
    · next hzero =>
      refine ⟨?_, rfl⟩
      show f.pktsSrc + 1 = 1
      rw [hzero]
      rfl
    · exact ⟨rfl, rfl⟩
  have hn : (f.addPacket now syn true).flow.pktsSrc ≠ 0 := by
    rw [hframe.1]
    decide
  have hspec := after_telltale_spec flt rspHdlen hn (hpairs.symm ▸ hf)
  rwa [hframe.2, hpairs, hnext] at hspec

/-- The telltale calls show the rest. -/
theorem nothingCarried_of_startsAfresh (hf : f.PairsSound) (hrep : RepeatedSyn f syn true)
    (h : StartsAfresh flt rspHdlen mem f now syn) : f.NothingCarried := by
  have hsyn := hrep.2.1
  have htold := h telltale telltale_continues
  rw [measuresAfter_syn flt rspHdlen hsyn, measuresAfter_syn flt rspHdlen hsyn] at htold
  obtain ⟨f', hf', hfirst, hlate, -⟩ :=
    @after_syn_telltale flt rspHdlen now syn f hsyn hf.request
  obtain ⟨g', hg', hfirst', -, hlate'⟩ :=
    @after_syn_telltale flt rspHdlen now syn (Flow.new mem f.socket) hsyn
      (Flow.pairsSound_new mem f.socket).request
  obtain ⟨p, hp, haddr, hrsp⟩ := hlate' rfl
  rw [hf', hg'] at htold
  have hmeasures : f'.measures f.nextPair = g'.measures mem.nextPair := Option.some.inj htold
  constructor
  · have hsec : f'.fbSec = g'.fbSec :=
      congrArg (fun m : Measures => m.firstByte.1) hmeasures
    rw [hfirst, hfirst'] at hsec
    cases hinit : f.init with
    | false => rfl
    | true =>
        have hnew : (Flow.new mem f.socket).init = false := rfl
        rw [hinit, hnew] at hsec
        exact absurd hsec (by decide)
  · by_contra hnot
    obtain ⟨old', hpairs⟩ := hlate hnot
    have hlast : (f'.measures f.nextPair).pairs.getLast? =
        some ((latePair f.nextPair).withAddr 0) := by
      have haddr : f.nextPair ≤ (latePair f.nextPair).addr := Nat.le_refl _
      simp [Flow.measures, hpairs, List.filter_append, haddr]
    have hlast' : (g'.measures mem.nextPair).pairs.getLast? = some (p.withAddr 0) := by
      have hle : mem.nextPair ≤ p.addr := Nat.le_of_eq haddr.symm
      simp [Flow.measures, hp, hle]
    rw [hmeasures, hlast'] at hlast
    have hnone : p.responseHeader = none :=
      congrArg Pair.responseHeader (Option.some.inj hlast)
    simp [hnone] at hrsp

/-- **A repeated SYN.**  For every flow that calls can make of a new one: from a SYN that
resets it on, the flow is measured, whatever packets without RST and FIN and whatever other
calls come later, like a flow that is new in the memory `mem` with the same socket and gets
the same SYN, if and only if the flow has no first byte time yet and its pairs are inert, and
the members of the new flow that the constructor leaves alone are zero. -/
theorem repeated_syn_afresh_iff {mem₀ : Flow} {s : FlowS} {before : List Call}
    (hreach : (Flow.new mem₀ s).after flt rspHdlen before = some f)
    (hrep : RepeatedSyn f syn true) :
    StartsAfresh flt rspHdlen mem f now syn ↔ mem.ZeroMeasures ∧ f.NothingCarried := by
  have hf : f.PairsSound := (Flow.pairsSound_new mem₀ s).after flt rspHdlen hreach
  constructor
  · intro h
    exact ⟨zeroMeasures_of_startsAfresh flt rspHdlen hrep h,
      nothingCarried_of_startsAfresh flt rspHdlen hf hrep h⟩
  · rintro ⟨hmem, hcarried⟩
    exact startsAfresh_of_nothingCarried flt rspHdlen hf.addr hmem hcarried hrep

end Afresh

/-- A SYN sent twice starts afresh. -/
theorem repeated_syn_afresh_iff_twice :
    StartsAfresh noFilter (fun _ _ => 0) Flow.zero
        (webFlow.addPacket ⟨0, 0⟩ secondSyn true).flow ⟨0, 0⟩ secondSyn ↔
      Flow.zero.ZeroMeasures ∧ (webFlow.addPacket ⟨0, 0⟩ secondSyn true).flow.NothingCarried :=
  @repeated_syn_afresh_iff noFilter (fun _ _ => 0) Flow.zero _ ⟨0, 0⟩ secondSyn Flow.zero
    ⟨1, 2, 4000, 80⟩ [.addPacket ⟨0, 0⟩ secondSyn true] rfl (by decide)

/-- A connection with one request, polled before the SYN comes again. -/
def polledConnection : List Call :=
  [.addPacket ⟨0, 0⟩ secondSyn true, .addPacket ⟨0, 0⟩ lateRequest true, .extractPair false]

/-- The first byte time of the second connection stays 0. -/
theorem repeated_syn_keeps_init :
    ¬ ∀ (flt : FlowFilter) (rspHdlen : Option (List UInt8) → UInt16 → Int) (mem₀ : Flow)
        (s : FlowS) (before : List Call) (f : Flow) (now : Clock) (syn : PacketT),
        (Flow.new mem₀ s).after flt rspHdlen before = some f → RepeatedSyn f syn true →
          StartsAfresh flt rspHdlen Flow.zero f now syn := by
  intro h
  have hafresh := h noFilter (fun _ _ => 0) Flow.zero ⟨1, 2, 4000, 80⟩ polledConnection _ ⟨0, 0⟩
    secondSyn rfl (by decide)
  have hfirst := congrArg (Option.map Measures.firstByte) (hafresh telltale telltale_continues)
  exact absurd hfirst (by decide)

end MonitoringTool.Sniffer
