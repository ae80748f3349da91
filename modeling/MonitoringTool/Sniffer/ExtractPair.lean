import MonitoringTool.Sniffer.Flow

/-!
# `Protocol::extractPair`

`extractPair` walks the source list and opens a pair for every request segment
it has not processed, then walks the destination list and attaches every
response segment it has not processed to the pair whose request it
acknowledges.

The function has two copies of each walk, one for flows with a FIN node and one
for flows without.  They differ in the loop condition and in the test for the
last node of a segment, so here `fin` is an argument of one walk.  A pointer
into the pair chain is a position in it, since neither walk removes a pair.
`none` stands for a dereferenced `NULL`.
-/

namespace MonitoringTool.Sniffer

/-! ## FIN nodes and times -/

/-- `seq->th_flags & TH_FIN == TH_FIN`, which C reads as `th_flags & 1`; as
`TH_FIN` is 1 it is the FIN flag all the same. -/
def SeqT.isFin (seq : SeqT) : Bool := seq.thFlags &&& TH_FIN ≠ 0

theorem isFin_eq (n : SeqT) : n.isFin = hasFlag n.thFlags TH_FIN := by
  have hbit : (n.thFlags &&& 1).toNat = n.thFlags.toNat % 2 := by
    rw [UInt8.toNat_and]
    exact Nat.and_one_is_mod _
  have hzero : n.thFlags &&& 1 = 0 ∨ n.thFlags &&& 1 = 1 := by
    rcases Nat.mod_two_eq_zero_or_one n.thFlags.toNat with h | h
    · exact .inl (UInt8.toNat_inj.mp (hbit.trans h))
    · exact .inr (UInt8.toNat_inj.mp (hbit.trans h))
  unfold SeqT.isFin hasFlag TH_FIN
  rcases hzero with h | h <;> rw [h] <;> decide

/-- First FIN node of each list: `src_fin_seq`, `dst_fin_seq`. -/
def findFin (nodes : List SeqT) : Option SeqT := nodes.find? SeqT.isFin

/-- `fin_seq`: the earlier of the two FIN nodes. -/
def Flow.finSeq (f : Flow) : Option SeqT :=
  match findFin f.order.src.nodes, findFin f.order.dst.nodes with
  | some src, none => some src
  | none, some dst => some dst
  | some src, some dst => if compareSequenceTime src dst = 1 then some dst else some src
  | none, none => none

/-- First node with a packet, up to the first FIN node. -/
def firstByte : List SeqT → Option SeqT
  | [] => none
  | seq :: rest =>
      if seq.pkt.isSome then some seq
      else if seq.isFin then none
      else firstByte rest

/-- "Update flow's first byte time". -/
def Flow.setFirstByte (f : Flow) : Flow :=
  if f.init then f
  else
    match firstByte f.order.src.nodes with
    | none => f
    | some seq => { f with fbSec := seq.capSec, fbUsec := seq.capUsec, init := true }

/-- "Update flow's last byte time", on seconds and microseconds. -/
def updateLast (last : Int × Int) (seq : SeqT) : Int × Int :=
  if seq.capSec > last.1 ∨ (seq.capSec = last.1 ∧ seq.capUsec > last.2) then
    (seq.capSec, seq.capUsec)
  else last

/-- The loop condition: with a FIN node, the node is earlier than it. -/
def beforeFin (fin : Option SeqT) (seq : SeqT) : Bool :=
  match fin with
  | none => true
  | some fin => compareSequenceTime seq fin < 0

/-- The packet of a node of that type which no call has processed yet. -/
def unprocessed (type : UInt8) (seq : SeqT) : Option PacketT :=
  match seq.pkt with
  | some pkt => if pkt.type = type ∧ seq.processed = false then some pkt else none
  | none => none

/-! ## First step: find requests -/

/-- `getRequest`: each protocol's constructor stores the sequence numbers it is
given. -/
def getRequest (pkt : PacketT) : Request :=
  ⟨false, pkt.tcpSeq, pkt.tcpSeq + pkt.tcpDl.toUInt32⟩

/-- The request walk's variables: the nodes passed, the pair chain, `new_pair` as
a position with `first_seq->seq`, `reqn` and the flow's last byte time. -/
structure ReqState where
  nodes : List SeqT
  pairs : List Pair
  nextPair : Nat
  newPair : Option (Nat × UInt32)
  reqn : Nat
  last : Int × Int
  deriving DecidableEq

/-- Continue to the next node. -/
def ReqState.pass (st : ReqState) (seq : SeqT) : ReqState := { st with nodes := st.nodes ++ [seq] }

/-- A new pair for the request that starts at `seq`. -/
def ReqState.openPair (st : ReqState) (seq : SeqT) (pkt : PacketT) : ReqState :=
  let newPair :=
    { Pair.new st.nextPair with
      reqFbSec := seq.capSec
      reqFbUsec := seq.capUsec
      reqLbSec := seq.capSec
      reqLbUsec := seq.capUsec }
  { st with
    pairs := st.pairs ++ [newPair.addRequest (getRequest pkt)]
    nextPair := st.nextPair + 1
    newPair := some (st.pairs.length, seq.seq)
    reqn := st.reqn + 1 }

/-- The length of a request whose first node starts at `first`. -/
def Pair.endRequest (pair : Pair) (seq : SeqT) (first : UInt32) : Pair :=
  { pair with reqTotalLen := seq.nxtSeq - first, reqBodyLen := 0 }

/-- The request of `new_pair` ends at `seq`. -/
def ReqState.closePair (st : ReqState) (seq : SeqT) : ReqState :=
  match st.newPair with
  | none => st
  | some (i, first) =>
      { st with
        pairs :=
          if seq.nxtSeq ≠ 0 then st.pairs.modify i (·.endRequest seq first) else st.pairs
        last := updateLast st.last seq }

/-- "Last bit" of a request.  Without a following node a flow that has a FIN
node but is not closed compares the times of `NULL`; `seq_next == fin_seq` is
left out, as two equal times compare as not earlier. -/
def lastBit (fin : Option SeqT) (closed : Bool) (seqNext : Option SeqT) : Option Bool :=
  match seqNext, fin with
  | none, none => some closed
  | none, some _ => if closed then some true else none
  | some next, none => some next.pkt.isSome
  | some next, some fin => some (next.pkt.isSome || 0 ≤ compareSequenceTime next fin)

/-- Close the pair at a node that is the last of its request. -/
def ReqState.endAt (st : ReqState) (fin : Option SeqT) (closed : Bool) (seq : SeqT)
    (seqNext : Option SeqT) : Option ReqState :=
  (lastBit fin closed seqNext).map fun last => if last then st.closePair seq else st

/-- The body of the request walk. -/
def reqBody (fin : Option SeqT) (closed : Bool) (st : ReqState) (seq : SeqT)
    (seqNext : Option SeqT) : Option ReqState :=
  match unprocessed REQ seq with
  | some pkt =>
      ((st.openPair seq pkt).endAt fin closed seq seqNext).map fun st =>
        st.pass { seq with processed := true }
  | none =>
      if st.newPair.isNone || seq.processed then some (st.pass seq)
      else (st.endAt fin closed seq seqNext).map fun st => st.pass seq

/-- The request walk. -/
def reqLoop (fin : Option SeqT) (closed : Bool) (st : ReqState) : List SeqT → Option ReqState
  | [] => some st
  | seq :: rest =>
      if beforeFin fin seq then
        (reqBody fin closed st seq rest.head?).bind fun st => reqLoop fin closed st rest
      else some { st with nodes := st.nodes ++ seq :: rest }

/-! ## Second step: find responses -/

/-- What the search for "the first pair without response" finds from `tmp` on. -/
inductive Seek where
  /-- `tmp` ran off the chain. -/
  | exhausted : Seek
  /-- `tmp` stopped at a request that is not acknowledged yet. -/
  | stopped (tmp : Nat) : Seek
  /-- `tmp` acknowledges this pair's request, which has no response. -/
  | found (tmp : Nat) : Seek
  deriving DecidableEq

/-- The search, on the pairs from position `tmp` on. -/
def seekPair (ack : UInt32) (tmp : Nat) : List Pair → Option Seek
  | [] => some .exhausted
  | pair :: rest =>
      match pair.requestHeader with
      | none => none
      | some req =>
          if req.nxtSeq ≤ ack then
            if pair.responseHeader = none ∧ req.nxtSeq = ack then some (.found tmp)
            else seekPair ack (tmp + 1) rest
          else some (.stopped tmp)

/-- The response walk's variables, as in `ReqState`: `tmp` and `found_pair` are
positions in the chain. -/
structure RspState where
  nodes : List SeqT
  pairs : List Pair
  tmp : Nat
  foundPair : Option (Nat × UInt32)
  firstPacket : Bool
  last : Int × Int
  deriving DecidableEq

/-- Continue to the next node. -/
def RspState.pass (st : RspState) (seq : SeqT) : RspState := { st with nodes := st.nodes ++ [seq] }

/-- "Concatenate capture times of all response packets", and their sizes. -/
def Response.append (rsp : Response) (seq : SeqT) (firstPacket : Bool) : Response :=
  { rsp with
    time := rsp.time ++ "," ++ toString seq.capUsec
    size := rsp.size ++ (if firstPacket then "" else ",") ++ toString seq.size.toInt32.toInt }

/-- The node's capture time and size go into the texts of the pair's response. -/
def Pair.appendSeq (pair : Pair) (seq : SeqT) (firstPacket : Bool) : Pair :=
  { pair with responseHeader := pair.responseHeader.map (·.append seq firstPacket) }

/-- Last node of a response. -/
def lastRsp (fin : Option SeqT) (seqNext : Option SeqT) : Bool :=
  match seqNext with
  | none => true
  | some next => next.pkt.isSome || (fin.any fun fin => 0 ≤ compareSequenceTime next fin)

/-- The response of the pair at `i` ends at `seq`. -/
def Pair.endResponse (pair : Pair) (seq : SeqT) (first : UInt32) : Pair :=
  let pair := { pair with rspLbSec := seq.capSec, rspLbUsec := seq.capUsec }
  if seq.nxtSeq ≠ 0 then
    let total := seq.nxtSeq - first
    let hdlen := (pair.responseHeader.map (·.hdlen)).getD 0
    { pair with rspTotalLen := total, rspBodyLen := total - UInt32.ofInt hdlen }
  else pair

/-- The tail of the body of the response walk: `seq` belongs to `found_pair`. -/
def RspState.extend (st : RspState) (fin : Option SeqT) (seq : SeqT) (seqNext : Option SeqT) :
    RspState :=
  match st.foundPair with
  | none => st
  | some (i, first) =>
      let st :=
        { st with
          pairs := st.pairs.modify i (·.appendSeq seq st.firstPacket)
          firstPacket := false }
      if lastRsp fin seqNext then
        { st with
          pairs := st.pairs.modify i (·.endResponse seq first)
          last := updateLast st.last seq }
      else st

section Response

-- the header length that the protocol's `getResponse` finds in the bytes from
-- `tcp_odata` to `tcp_odata + tcp_dl`
variable (rspHdlen : Option (List UInt8) → UInt16 → Int)

/-- `getResponse`. -/
def getResponse (pkt : PacketT) : Response := ⟨"", "", rspHdlen pkt.tcpOdata pkt.tcpDl, false⟩

/-- The pair's response starts at `seq`. -/
def Pair.startResponse (pair : Pair) (seq : SeqT) (pkt : PacketT) : Pair :=
  ({ pair with rspFbSec := seq.capSec, rspFbUsec := seq.capUsec }).addResponse
    (getResponse rspHdlen pkt)

/-- The response that starts at `seq` goes to the pair at `i`. -/
def RspState.attach (st : RspState) (i : Nat) (seq : SeqT) (pkt : PacketT) : RspState :=
  { st with
    pairs := st.pairs.modify i (·.startResponse rspHdlen seq pkt)
    tmp := i
    foundPair := some (i, seq.seq)
    firstPacket := true }

/-- The response walk with its return value: 1 when the chain has no pair left
for a response. -/
def rspLoop (fin : Option SeqT) (st : RspState) : List SeqT → Option (RspState × Int)
  | [] => some (st, 0)
  | seq :: rest =>
      if beforeFin fin seq then
        match unprocessed RSP seq with
        | some pkt =>
            let seq := { seq with processed := true }
            match seekPair pkt.tcpAck st.tmp (st.pairs.drop st.tmp) with
            | none => none
            | some .exhausted => some ({ st with nodes := st.nodes ++ seq :: rest }, 1)
            | some (.stopped tmp) =>
                rspLoop fin ((({ st with tmp := tmp }).extend fin seq rest.head?).pass seq) rest
            | some (.found tmp) =>
                rspLoop fin
                  (((st.attach rspHdlen tmp seq pkt).extend fin seq rest.head?).pass seq) rest
        | none =>
            if st.foundPair.isNone || seq.processed then rspLoop fin (st.pass seq) rest
            else rspLoop fin ((st.extend fin seq rest.head?).pass seq) rest
      else some ({ st with nodes := st.nodes ++ seq :: rest }, 0)

/-! ## The whole call -/

/-- The flow as the request walk leaves it. -/
def Flow.afterRequests (f : Flow) (st : ReqState) : Flow :=
  { f with
    order := f.order.setDir true (f.order.src.setNodes st.nodes)
    pairs := st.pairs
    nextPair := st.nextPair
    lbSec := st.last.1
    lbUsec := st.last.2 }

/-- The flow as the response walk leaves it. -/
def Flow.afterResponses (f : Flow) (st : RspState) : Flow :=
  { f with
    order := f.order.setDir false (f.order.dst.setNodes st.nodes)
    pairs := st.pairs
    lbSec := st.last.1
    lbUsec := st.last.2 }

/-- The request walk on a flow. -/
def Flow.findRequests (f : Flow) (closed : Bool) : Option ReqState :=
  reqLoop f.finSeq closed ⟨[], f.pairs, f.nextPair, none, 0, (f.lbSec, f.lbUsec)⟩ f.order.src.nodes

/-- The response walk on a flow whose FIN node is `fin`. -/
def Flow.findResponses (f : Flow) (fin : Option SeqT) : Option (RspState × Int) :=
  rspLoop rspHdlen fin ⟨[], f.pairs, 0, none, false, (f.lbSec, f.lbUsec)⟩ f.order.dst.nodes

/-- The two walks: the flow and the return value.  Without a new request the
responses are not looked at. -/
def Flow.findPairs (flow : Flow) (closed : Bool) : Option (Flow × Int) :=
  (flow.findRequests closed).bind fun st =>
    let flow' := flow.afterRequests st
    if st.reqn = 0 then some (flow', 1)
    else
      (flow'.findResponses rspHdlen flow.finSeq).map fun (st, ret) => (flow'.afterResponses st, ret)

/-- `Protocol::extractPair`. -/
def extractPair (flow : Flow) (closed : Bool) : Option (Flow × Int) :=
  flow.setFirstByte.findPairs rspHdlen closed

end Response

/-- The flow with another first byte time. -/
def Flow.withFirstByte (f : Flow) (sec usec : Int) (init : Bool) : Flow :=
  { f with fbSec := sec, fbUsec := usec, init := init }

/-- `setFirstByte` only sets the first byte time and `init`. -/
theorem Flow.setFirstByte_eq (f : Flow) : ∃ sec usec init,
    f.setFirstByte = f.withFirstByte sec usec init := by
  unfold Flow.setFirstByte
  split
  · exact ⟨f.fbSec, f.fbUsec, f.init, rfl⟩
  · split
    · exact ⟨f.fbSec, f.fbUsec, f.init, rfl⟩
    · exact ⟨_, _, _, rfl⟩

/-- Only the first byte time and `init` change. -/
theorem Flow.setFirstByte_frame (f : Flow) :
    f.setFirstByte.order = f.order ∧ f.setFirstByte.pairs = f.pairs ∧
      f.setFirstByte.nextPair = f.nextPair ∧ f.setFirstByte.socket = f.socket ∧
      f.setFirstByte.processed = f.processed := by
  unfold Flow.setFirstByte
  split
  · exact ⟨rfl, rfl, rfl, rfl, rfl⟩
  · split <;> exact ⟨rfl, rfl, rfl, rfl, rfl⟩

/-- The FIN node does not depend on the first byte time. -/
@[simp] theorem setFirstByte_finSeq (f : Flow) : f.setFirstByte.finSeq = f.finSeq := by
  obtain ⟨horder, -⟩ := f.setFirstByte_frame
  unfold Flow.finSeq
  rw [horder]

/-- Nor does the request walk. -/
@[simp] theorem setFirstByte_findRequests (f : Flow) (closed : Bool) :
    f.setFirstByte.findRequests closed = f.findRequests closed := by
  obtain ⟨sec, usec, init, hf⟩ := f.setFirstByte_eq
  rw [hf]
  rfl

/-! ## Flows without a FIN node -/

/-- No node of the order lists has the FIN flag. -/
def Flow.FinFree (f : Flow) : Prop :=
  ∀ dir, ∀ n ∈ (f.order.dir dir).nodes, hasFlag n.thFlags TH_FIN = false

theorem Flow.finFree_new (mem : Flow) (s : FlowS) : (Flow.new mem s).FinFree := by
  intro dir n hn
  cases dir <;> simp [OrderT.new, OrderT.dir, SeqList.nodes] at hn

theorem Flow.FinFree.finSeq {f : Flow} (h : f.FinFree) : f.finSeq = none := by
  have hnone : ∀ dir, findFin (f.order.dir dir).nodes = none := by
    intro dir
    refine List.find?_eq_none.mpr fun n hn => ?_
    rw [isFin_eq, h dir n hn]
    decide
  have hsrc : findFin f.order.src.nodes = none := hnone true
  have hdst : findFin f.order.dst.nodes = none := hnone false
  simp [Flow.finSeq, hsrc, hdst]

/-! ## What the walks take

`reqLog` and `rspLog` name what a walk makes of the packets it meets: with the address
of a pair, the packet its request or its response is taken from.
-/

/-- What `unprocessed` answers is a packet of the type. -/
theorem unprocessed_eq_some {type : UInt8} {seq : SeqT} {pkt : PacketT} :
    unprocessed type seq = some pkt ↔
      seq.pkt = some pkt ∧ pkt.type = type ∧ seq.processed = false := by
  unfold unprocessed
  cases seq.pkt with
  | none => simp
  | some p =>
      constructor
      · intro h
        dsimp only at h
        split at h
        · next hp => exact Option.some.inj h ▸ ⟨rfl, hp⟩
        · cases h
      · rintro ⟨hp, hrest⟩
        obtain rfl := Option.some.inj hp
        exact if_pos hrest

/-- A node as the walk for packets of that type passes it. -/
def SeqT.process (type : UInt8) (seq : SeqT) : SeqT :=
  if (unprocessed type seq).isSome then { seq with processed := true } else seq

theorem SeqT.process_of_some {type : UInt8} {seq : SeqT} {pkt : PacketT}
    (h : unprocessed type seq = some pkt) : seq.process type = { seq with processed := true } := by
  simp [SeqT.process, h]

theorem SeqT.process_of_none {type : UInt8} {seq : SeqT} (h : unprocessed type seq = none) :
    seq.process type = seq := by
  simp [SeqT.process, h]

/-- The pairs the request walk opens, numbered from `addr` on, each with the packet its
request is taken from. -/
def reqLog (fin : Option SeqT) (addr : ℕ) : List SeqT → List (ℕ × PacketT)
  | [] => []
  | seq :: rest =>
      if beforeFin fin seq then
        match unprocessed REQ seq with
        | some pkt => (addr, pkt) :: reqLog fin (addr + 1) rest
        | none => reqLog fin addr rest
      else []

/-- What `seekPair` finds is a pair of the list whose request the number acknowledges and
which has no response. -/
theorem seekPair_found {ack : UInt32} {tmp i : ℕ} {pairs : List Pair}
    (h : seekPair ack tmp pairs = some (.found i)) :
    ∃ pair req, tmp ≤ i ∧ pairs[i - tmp]? = some pair ∧ pair.requestHeader = some req ∧
      pair.responseHeader = none ∧ req.nxtSeq = ack := by
  induction pairs generalizing tmp with
  | nil => simp [seekPair] at h
  | cons pair rest ih =>
      unfold seekPair at h
      cases hreq : pair.requestHeader with
      | none => simp [hreq] at h
      | some req =>
          simp only [hreq] at h
          split at h
          · split at h
            · next hfound =>
              simp only [Option.some.injEq, Seek.found.injEq] at h
              subst h
              exact ⟨pair, req, Nat.le_refl _, by simp, hreq, hfound⟩
            · obtain ⟨pair', req', hle, hat, hrest⟩ := ih h
              refine ⟨pair', req', by omega, ?_, hrest⟩
              obtain ⟨k, rfl⟩ : ∃ k, i = tmp + 1 + k := ⟨i - (tmp + 1), by omega⟩
              rw [show tmp + 1 + k - tmp = k + 1 by omega, List.getElem?_cons_succ]
              rwa [show tmp + 1 + k - (tmp + 1) = k by omega] at hat
          · simp at h

section Logs

variable (rspHdlen : Option (List UInt8) → UInt16 → Int)

/-- The responses the walk attaches: the address of the pair and the packet the response
is taken from. -/
def rspLog (fin : Option SeqT) (st : RspState) : List SeqT → List (ℕ × PacketT)
  | [] => []
  | seq :: rest =>
      if beforeFin fin seq then
        match unprocessed RSP seq with
        | some pkt =>
            let seq := { seq with processed := true }
            match seekPair pkt.tcpAck st.tmp (st.pairs.drop st.tmp) with
            | none => []
            | some .exhausted => []
            | some (.stopped tmp) =>
                rspLog fin ((({ st with tmp := tmp }).extend fin seq rest.head?).pass seq) rest
            | some (.found tmp) =>
                (st.pairs[tmp]?.map fun pair => (pair.addr, pkt)).toList ++
                  rspLog fin (((st.attach rspHdlen tmp seq pkt).extend fin seq rest.head?).pass seq)
                    rest
        | none =>
            if st.foundPair.isNone || seq.processed then rspLog fin (st.pass seq) rest
            else rspLog fin ((st.extend fin seq rest.head?).pass seq) rest
      else []

end Logs

/-- The pair that the search finds from `tmp` on. -/
theorem found_at {st : RspState} {ack : UInt32} {i : ℕ}
    (h : seekPair ack st.tmp (st.pairs.drop st.tmp) = some (.found i)) :
    ∃ pair req, st.pairs[i]? = some pair ∧ pair.requestHeader = some req ∧
      pair.responseHeader = none ∧ req.nxtSeq = ack := by
  obtain ⟨pair, req, hle, hat, hrest⟩ := seekPair_found h
  refine ⟨pair, req, ?_, hrest⟩
  rw [List.getElem?_drop] at hat
  rwa [show st.tmp + (i - st.tmp) = i by omega] at hat

/-! ## Invariants of the walks

What a walk does to everything but the nodes passed is done by two operations
each: `openPair` and `closePair`, `attach` and `extend`.
-/

section Walks

variable {fin : Option SeqT} {closed : Bool}

/-- The pair that a node opens, if it begins a request. -/
def ReqState.enter (st : ReqState) (seq : SeqT) : ReqState :=
  match unprocessed REQ seq with
  | some pkt => st.openPair seq pkt
  | none => st

/-- One node of the request walk: it may open a pair, the request may end at it, and it
is passed. -/
theorem reqBody_cases {st st' : ReqState} {seq : SeqT} {next : Option SeqT}
    (h : reqBody fin closed st seq next = some st') :
    st' = (st.enter seq).pass (seq.process REQ) ∨
      st' = ((st.enter seq).closePair seq).pass (seq.process REQ) := by
  have hend : ∀ st st' : ReqState, st.endAt fin closed seq next = some st' →
      st' = st ∨ st' = st.closePair seq := by
    intro st st' h
    obtain ⟨last, -, rfl⟩ := Option.map_eq_some_iff.mp h
    cases last with
    | false => exact .inl rfl
    | true => exact .inr rfl
  unfold reqBody at h
  cases hpkt : unprocessed REQ seq with
  | some pkt =>
      simp only [hpkt] at h
      obtain ⟨st₁, hst₁, rfl⟩ := Option.map_eq_some_iff.mp h
      simp only [ReqState.enter, hpkt, SeqT.process_of_some hpkt]
      rcases hend _ _ hst₁ with rfl | rfl
      · exact .inl rfl
      · exact .inr rfl
  | none =>
      simp only [hpkt] at h
      simp only [ReqState.enter, hpkt, SeqT.process_of_none hpkt]
      split at h
      · exact .inl (Option.some.inj h).symm
      · obtain ⟨st₁, hst₁, rfl⟩ := Option.map_eq_some_iff.mp h
        rcases hend _ _ hst₁ with rfl | rfl
        · exact .inl rfl
        · exact .inr rfl

/-- What `openPair` and `closePair` keep of the pairs and the log, the request walk
keeps. -/
theorem reqLoop_log (Inv : ReqState → List (ℕ × PacketT) → Prop)
    (hnodes : ∀ st log ns, Inv st log → Inv { st with nodes := ns } log)
    (hopen : ∀ st log seq pkt, Inv st log →
      Inv (st.openPair seq pkt) (log ++ [(st.nextPair, pkt)]))
    (hclose : ∀ st log seq, Inv st log → Inv (st.closePair seq) log)
    {st st' : ReqState} {log : List (ℕ × PacketT)} {nodes : List SeqT} (hst : Inv st log)
    (h : reqLoop fin closed st nodes = some st') :
    Inv st' (log ++ reqLog fin st.nextPair nodes) := by
  have hnext : ∀ (st : ReqState) seq, (st.closePair seq).nextPair = st.nextPair := by
    intro st seq
    unfold ReqState.closePair
    split <;> rfl
  have hpass : ∀ st log seq, Inv st log → Inv (st.pass seq) log :=
    fun st log _ h => hnodes st log _ h
  induction nodes generalizing st log with
  | nil =>
      obtain rfl := Option.some.inj h
      simpa [reqLog] using hst
  | cons seq rest ih =>
      unfold reqLoop at h
      unfold reqLog
      split at h
      · next hbefore =>
        obtain ⟨st₁, hbody, hrest⟩ := Option.bind_eq_some_iff.mp h
        rw [if_pos hbefore]
        have hbody' := reqBody_cases hbody
        unfold ReqState.enter at hbody'
        cases hpkt : unprocessed REQ seq with
        | some pkt =>
            simp only [hpkt] at hbody' ⊢
            have hopened := hopen st log seq pkt hst
            rw [List.append_cons]
            rcases hbody' with rfl | rfl
            · exact ih (hpass _ _ _ hopened) hrest
            · have hmore := ih (hpass _ _ (seq.process REQ) (hclose _ _ seq hopened)) hrest
              rwa [show (((st.openPair seq pkt).closePair seq).pass (seq.process REQ)).nextPair =
                st.nextPair + 1 from hnext _ _] at hmore
        | none =>
            simp only [hpkt] at hbody' ⊢
            rcases hbody' with rfl | rfl
            · have hmore := ih (hpass _ _ (seq.process REQ) hst) hrest
              exact hmore
            · have hmore := ih (hpass _ _ (seq.process REQ) (hclose _ _ seq hst)) hrest
              rwa [show ((st.closePair seq).pass (seq.process REQ)).nextPair = st.nextPair from
                hnext _ _] at hmore
      · next hbefore =>
        rw [if_neg hbefore]
        obtain rfl := Option.some.inj h
        simpa using hnodes st log _ hst

/-- What `openPair` and `closePair` keep, the request walk keeps. -/
theorem reqLoop_inv (Inv : ReqState → Prop)
    (hnodes : ∀ st ns, Inv st → Inv { st with nodes := ns })
    (hopen : ∀ st seq pkt, Inv st → Inv (st.openPair seq pkt))
    (hclose : ∀ st seq, Inv st → Inv (st.closePair seq))
    {st st' : ReqState} {nodes : List SeqT} (hst : Inv st)
    (h : reqLoop fin closed st nodes = some st') : Inv st' :=
  @reqLoop_log fin closed (fun st _ => Inv st) (fun st _ => hnodes st) (fun st _ => hopen st)
    (fun st _ => hclose st) st st' [] nodes hst h

variable {rspHdlen : Option (List UInt8) → UInt16 → Int}

/-- What `attach` and `extend` keep of the pairs and the log, the response walk keeps. -/
theorem rspLoop_log (Inv : RspState → List (ℕ × PacketT) → Prop)
    (hnodes : ∀ st log ns, Inv st log → Inv { st with nodes := ns } log)
    (htmp : ∀ st log tmp, Inv st log → Inv { st with tmp := tmp } log)
    (hattach : ∀ st log i seq pkt pair req, Inv st log → st.pairs[i]? = some pair →
      pair.requestHeader = some req → pair.responseHeader = none → req.nxtSeq = pkt.tcpAck →
      Inv (st.attach rspHdlen i seq pkt) (log ++ [(pair.addr, pkt)]))
    (hextend : ∀ st log seq next, Inv st log → Inv (st.extend fin seq next) log)
    {st st' : RspState} {log : List (ℕ × PacketT)} {ret : Int} {nodes : List SeqT}
    (hst : Inv st log) (h : rspLoop rspHdlen fin st nodes = some (st', ret)) :
    Inv st' (log ++ rspLog rspHdlen fin st nodes) := by
  induction nodes generalizing st log with
  | nil =>
      obtain ⟨rfl, -⟩ : st = st' ∧ _ := by simpa [rspLoop] using h
      simpa [rspLog] using hst
  | cons seq rest ih =>
      unfold rspLoop at h
      unfold rspLog
      split at h
      · next hbefore =>
        rw [if_pos hbefore]
        cases hpkt : unprocessed RSP seq with
        | some pkt =>
            simp only [hpkt] at h ⊢
            cases hseek : seekPair pkt.tcpAck st.tmp (st.pairs.drop st.tmp) with
            | none => simp [hseek] at h
            | some r =>
                rw [hseek] at h
                cases r with
                | exhausted =>
                    obtain ⟨rfl, -⟩ : _ = st' ∧ _ := by simpa using h
                    simpa using hnodes st log _ hst
                | stopped tmp =>
                    exact ih (hnodes _ _ _ (hextend _ _ _ _ (htmp st log tmp hst))) h
                | found tmp =>
                    obtain ⟨pair, req, hat, hreq, hrsp, hack⟩ := found_at hseek
                    have hmore := ih (hnodes _ _ _ (hextend _ _ _ _
                      (hattach st log tmp _ pkt pair req hst hat hreq hrsp hack))) h
                    simp only [hat, Option.map_some, Option.toList_some]
                    rwa [← List.append_assoc]
        | none =>
            simp only [hpkt] at h ⊢
            split at h
            · next hskip =>
              rw [if_pos hskip]
              exact ih (hnodes st log _ hst) h
            · next hskip =>
              rw [if_neg hskip]
              exact ih (hnodes _ _ _ (hextend st log _ _ hst)) h
      · next hbefore =>
        rw [if_neg hbefore]
        obtain ⟨rfl, -⟩ : _ = st' ∧ _ := by simpa using h
        simpa using hnodes st log _ hst

/-- What `attach` and `extend` keep, the response walk keeps. -/
theorem rspLoop_inv (Inv : RspState → Prop)
    (hnodes : ∀ st ns, Inv st → Inv { st with nodes := ns })
    (htmp : ∀ st tmp, Inv st → Inv { st with tmp := tmp })
    (hattach : ∀ st i seq pkt, Inv st → Inv (st.attach rspHdlen i seq pkt))
    (hextend : ∀ st seq next, Inv st → Inv (st.extend fin seq next))
    {st st' : RspState} {ret : Int} {nodes : List SeqT} (hst : Inv st)
    (h : rspLoop rspHdlen fin st nodes = some (st', ret)) : Inv st' :=
  @rspLoop_log fin rspHdlen (fun st _ => Inv st) (fun st _ => hnodes st) (fun st _ => htmp st)
    (fun st _ i seq pkt _ _ hst _ _ _ _ => hattach st i seq pkt hst) (fun st _ => hextend st)
    st st' [] ret nodes hst h

end Walks

end MonitoringTool.Sniffer
