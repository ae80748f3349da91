import MonitoringTool.Sniffer.TcpOrder

/-!
# Flows and `Flow::add_packet`

A `Flow` follows one TCP connection: packet chains and order lists for both
directions, counters, and the chain of request/response pairs.  Its
constructor sets some members only; `Flow.new` takes the memory the object is
built in, and the other members keep what that memory holds.

`addPacket` returns the flow together with what the call does around it: whether
the flow is dropped or sent to the flow queue (`Verdict`), and whether the
packet was freed.  The clock is an argument.
-/

namespace MonitoringTool.Sniffer

/-! ## Requests, responses and pairs -/

/-- `_protocol::Request`. -/
structure Request where
  processed : Bool
  seq : UInt32
  nxtSeq : UInt32
  deriving DecidableEq

/-- `_protocol::Response`; `time` and `size` are the texts in its two buffers. -/
structure Response where
  time : String
  size : String
  hdlen : Int
  processed : Bool
  deriving DecidableEq

/-- `_protocol::Pair`.  `addr` names the object, `none` is `NULL`. -/
structure Pair where
  addr : Nat
  requestHeader : Option Request
  responseHeader : Option Response
  reqFbSec : Int
  reqFbUsec : Int
  reqLbSec : Int
  reqLbUsec : Int
  rspFbSec : Int
  rspFbUsec : Int
  rspLbSec : Int
  rspLbUsec : Int
  reqTotalLen : UInt32
  rspTotalLen : UInt32
  reqBodyLen : UInt32
  rspBodyLen : UInt32
  deriving DecidableEq

/-- `new Pair()`. -/
def Pair.new (addr : Nat) : Pair :=
  ⟨addr, none, none, 0, 0, 0, 0, 0, 0, 0, 0, 0, 0, 0, 0⟩

/-- `Pair::addRequest`: the first request stays. -/
def Pair.addRequest (pair : Pair) (req : Request) : Pair :=
  { pair with requestHeader := pair.requestHeader.or (some req) }

/-- `Pair::addResponse`: the first response stays. -/
def Pair.addResponse (pair : Pair) (rsp : Response) : Pair :=
  { pair with responseHeader := pair.responseHeader.or (some rsp) }

@[simp] theorem Pair.addRequest_addr (pair : Pair) (req : Request) :
    (pair.addRequest req).addr = pair.addr := rfl

@[simp] theorem Pair.addResponse_addr (pair : Pair) (rsp : Response) :
    (pair.addResponse rsp).addr = pair.addr := rfl

/-! ## The flow -/

/-- `flow_s`. -/
structure FlowS where
  saddr : UInt32
  daddr : UInt32
  sport : UInt16
  dport : UInt16
  deriving DecidableEq

/-- `Flow`.  A packet chain lists the addresses from front to end, `pairs` the
chain from `pair_f` to `pair_e`; `nextPair` is the address of the next pair. -/
structure Flow where
  socket : FlowS
  pktSrc : List Nat
  pktDst : List Nat
  pktSrcN : UInt32
  pktDstN : UInt32
  pktsSrc : UInt32
  pktsDst : UInt32
  order : OrderT
  synSec : Int
  synUsec : Int
  fbSec : Int
  fbUsec : Int
  lbSec : Int
  lbUsec : Int
  payloadSrc : UInt32
  payloadDst : UInt32
  pairs : List Pair
  nextPair : Nat
  lastActionSec : Int
  lastActionUsec : Int
  close : UInt8
  init : Bool
  processed : Bool
  deriving DecidableEq

/-- A flow object in memory of zeros. -/
def Flow.zero : Flow :=
  ⟨⟨0, 0, 0, 0⟩, [], [], 0, 0, 0, 0, OrderT.new, 0, 0, 0, 0, 0, 0, 0, 0, [], 0, 0, 0, 0, false,
    false⟩

def CLIENT_CLOSE : UInt8 := 0x01
def SERVER_CLOSE : UInt8 := 0x02
def FORCED_CLOSE : UInt8 := 0x04

/-- `Flow::Flow` in the memory `mem`, with the socket `create` stores in it. -/
def Flow.new (mem : Flow) (s : FlowS) : Flow :=
  { mem with
    socket := s
    pktSrcN := 0
    pktDstN := 0
    pktsSrc := 0
    pktsDst := 0
    init := false
    pairs := []
    lbSec := 0
    lbUsec := 0
    processed := false
    order := OrderT.new }

/-- `Flow::reset`.  The socket, the pairs, `init` and `processed` stay. -/
def Flow.reset (f : Flow) : Flow :=
  { f with
    pktSrc := []
    pktDst := []
    order := OrderT.new
    synSec := 0
    synUsec := 0
    fbSec := 0
    fbUsec := 0
    lbSec := 0
    lbUsec := 0
    lastActionSec := 0
    lastActionUsec := 0
    payloadSrc := 0
    payloadDst := 0
    pktSrcN := 0
    pktDstN := 0
    pktsSrc := 0
    pktsDst := 0
    close := 0 }

/-- Link a packet at the end of a chain that counts `n` packets.  An empty chain
is one whose counter is zero, whatever its front pointer holds. -/
def hookChain (chain : List Nat) (n : UInt32) (packet : PacketT) : List Nat :=
  if n = 0 then [packet.addr] else chain ++ [packet.addr]

/-- `Flow::hook_packet`. -/
def Flow.hookPacket (f : Flow) (packet : PacketT) (src : Bool) : Flow :=
  if src then
    { f with pktSrc := hookChain f.pktSrc f.pktSrcN packet, pktSrcN := f.pktSrcN + 1 }
  else
    { f with pktDst := hookChain f.pktDst f.pktDstN packet, pktDstN := f.pktDstN + 1 }

/-- What `gettimeofday` answers: seconds and microseconds. -/
structure Clock where
  tvSec : Int
  tvUsec : Int
  deriving DecidableEq

/-- The counters and the last action time, as `Flow::cal_packet` updates them. -/
def Flow.countPacket (f : Flow) (now : Clock) (packet : PacketT) (src : Bool) : Flow :=
  let f :=
    if src then
      { f with pktsSrc := f.pktsSrc + 1, payloadSrc := f.payloadSrc + packet.tcpDl.toUInt32 }
    else
      { f with pktsDst := f.pktsDst + 1, payloadDst := f.payloadDst + packet.tcpDl.toUInt32 }
  { f with lastActionSec := now.tvSec, lastActionUsec := now.tvUsec }

/-- The node for a packet: one whose packet is not stored has no `pkt`. -/
def seqOf (packet : PacketT) : SeqT :=
  if packet.type = 0 then { seqPkt packet with pkt := none } else seqPkt packet

/-- `Flow::cal_packet`. -/
def Flow.calPacket (f : Flow) (now : Clock) (packet : PacketT) (src : Bool) : Flow :=
  let f := f.countPacket now packet src
  { f with order := (tcpOrder f.order (seqOf packet) src).1 }

/-- `Flow::compare_sequence_time`.  The two `time_t` are read as 32-bit numbers. -/
def compareSequenceTime (seq1 seq2 : SeqT) : Int :=
  let sec1 := seq1.capSec % 2 ^ 32
  let usec1 := seq1.capUsec % 2 ^ 32
  let sec2 := seq2.capSec % 2 ^ 32
  let usec2 := seq2.capUsec % 2 ^ 32
  if sec1 > sec2 ∨ (sec1 = sec2 ∧ usec1 > usec2) then 1
  else if sec1 < sec2 ∨ (sec1 = sec2 ∧ usec1 < usec2) then -1
  else 0

/-! ## `Flow::add_packet` -/

/-- What becomes of the flow: it stays in its table, it is removed and deleted,
or it is removed and put on the flow queue. -/
inductive Verdict where
  | keep : Verdict
  | drop : Verdict
  | finish : Verdict
  deriving DecidableEq

/-- Result of `Flow::add_packet`. -/
structure AddResult where
  flow : Flow
  verdict : Verdict
  /-- `packet_free` was called on the packet. -/
  freed : Bool
  ret : Int
  deriving DecidableEq

/-- The SYN time of the flow. -/
def Flow.setSyn (f : Flow) (packet : PacketT) : Flow :=
  { f with synSec := packet.capSec, synUsec := packet.capUsec }

/-- `Flow::add_packet`. -/
def Flow.addPacket (f : Flow) (now : Clock) (packet : PacketT) (src : Bool) : AddResult :=
  let bare := { packet with type := 0 }
  if hasFlag packet.tcpFlags TH_RST then
    if f.pktsSrc < 4 then
      -- flow with incomplete information: drop it
      ⟨f, .drop, true, 1⟩
    else
      ⟨{ f.calPacket now bare src with close := 1 }, .finish, true, 0⟩
  else if hasFlag packet.tcpFlags TH_FIN then
    let f := { f with close := if src then CLIENT_CLOSE else SERVER_CLOSE }
    let f := f.calPacket now bare src
    if f.close = CLIENT_CLOSE ∨ f.close = SERVER_CLOSE then
      ⟨{ f with close := 1 }, .finish, true, 0⟩
    else
      ⟨f, .keep, true, 0⟩
  else if src ∧ packet.tcpFlags = TH_SYN then
    if f.pktsSrc = 0 then
      ⟨(f.setSyn packet).calPacket now bare src, .keep, true, 0⟩
    else
      -- repeated SYN
      ⟨(f.reset.setSyn packet).calPacket now bare src, .keep, true, 0⟩
  else if packet.type ≠ 0 then
    ⟨(f.hookPacket packet src).calPacket now packet src, .keep, false, 0⟩
  else
    ⟨f.calPacket now packet src, .keep, true, 0⟩

/-! ## Frame lemmas -/

@[simp] theorem Flow.new_order (mem : Flow) (s : FlowS) : (Flow.new mem s).order = OrderT.new := rfl

@[simp] theorem Flow.new_socket (mem : Flow) (s : FlowS) : (Flow.new mem s).socket = s := rfl

@[simp] theorem Flow.hookPacket_order (f : Flow) (packet : PacketT) (src : Bool) :
    (f.hookPacket packet src).order = f.order := by
  cases src <;> rfl

@[simp] theorem Flow.countPacket_order (f : Flow) (now : Clock) (packet : PacketT) (src : Bool) :
    (f.countPacket now packet src).order = f.order := by
  cases src <;> rfl

/-- `cal_packet` inserts the packet's node. -/
@[simp] theorem Flow.calPacket_order (f : Flow) (now : Clock) (packet : PacketT) (src : Bool) :
    (f.calPacket now packet src).order = (tcpOrder f.order (seqOf packet) src).1 := by
  simp [Flow.calPacket]

@[simp] theorem seqOf_seq (packet : PacketT) : (seqOf packet).seq = packet.tcpSeq := by
  unfold seqOf
  split <;> rfl

@[simp] theorem seqOf_nxtSeq (packet : PacketT) :
    (seqOf packet).nxtSeq = (seqPkt packet).nxtSeq := by
  unfold seqOf
  split <;> rfl

@[simp] theorem Flow.setSyn_order (f : Flow) (packet : PacketT) :
    (f.setSyn packet).order = f.order :=
  rfl

@[simp] theorem Flow.reset_order (f : Flow) : f.reset.order = OrderT.new := rfl

/-- Counting a packet leaves the pairs alone, and what is said about them. -/
theorem Flow.countPacket_frame (f : Flow) (now : Clock) (packet : PacketT) (src : Bool) :
    (f.countPacket now packet src).pairs = f.pairs ∧
      (f.countPacket now packet src).nextPair = f.nextPair ∧
      (f.countPacket now packet src).socket = f.socket ∧
      (f.countPacket now packet src).processed = f.processed := by
  cases src <;> exact ⟨rfl, rfl, rfl, rfl⟩

theorem Flow.calPacket_frame (f : Flow) (now : Clock) (packet : PacketT) (src : Bool) :
    (f.calPacket now packet src).pairs = f.pairs ∧
      (f.calPacket now packet src).nextPair = f.nextPair ∧
      (f.calPacket now packet src).socket = f.socket ∧
      (f.calPacket now packet src).processed = f.processed :=
  f.countPacket_frame now packet src

/-! ## What `add_packet` does

Everything below about `add_packet` is read off its branches once, here.
-/

/-- The packet is hooked and its node keeps it. -/
def Stored (packet : PacketT) (src : Bool) : Prop :=
  packet.type ≠ 0 ∧ hasFlag packet.tcpFlags TH_RST = false ∧
    hasFlag packet.tcpFlags TH_FIN = false ∧ ¬ (src = true ∧ packet.tcpFlags = TH_SYN)

instance (packet : PacketT) (src : Bool) : Decidable (Stored packet src) := by
  unfold Stored
  infer_instance

/-- The node `add_packet` inserts for a packet. -/
def arrivalSeq (packet : PacketT) (src : Bool) : SeqT :=
  if Stored packet src then seqPkt packet else { seqPkt packet with pkt := none }

/-- A SYN of the source after its first packet: the flow is reset. -/
def RepeatedSyn (f : Flow) (packet : PacketT) (src : Bool) : Prop :=
  src = true ∧ packet.tcpFlags = TH_SYN ∧ f.pktsSrc ≠ 0

instance (f : Flow) (packet : PacketT) (src : Bool) : Decidable (RepeatedSyn f packet src) := by
  unfold RepeatedSyn
  infer_instance

/-- A reset of a connection whose start was not seen: the flow is dropped. -/
def DropsFlow (f : Flow) (packet : PacketT) : Prop :=
  hasFlag packet.tcpFlags TH_RST = true ∧ f.pktsSrc < 4

instance (f : Flow) (packet : PacketT) : Decidable (DropsFlow f packet) := by
  unfold DropsFlow
  infer_instance

section AddPacket

variable (f : Flow) (now : Clock) (packet : PacketT) (src : Bool)

theorem seqOf_bare : seqOf { packet with type := 0 } = { seqPkt packet with pkt := none } := rfl

/-- The flags of a lone SYN exclude RST and FIN. -/
theorem hasFlag_of_syn (h : packet.tcpFlags = TH_SYN) :
    hasFlag packet.tcpFlags TH_RST = false ∧ hasFlag packet.tcpFlags TH_FIN = false := by
  rw [h]
  decide

/-- A packet with RST or FIN is not stored, and no repeated SYN. -/
theorem not_stored_of_flag
    (h : hasFlag packet.tcpFlags TH_RST = true ∨ hasFlag packet.tcpFlags TH_FIN = true) :
    ¬ Stored packet src ∧ ¬ RepeatedSyn f packet src := by
  constructor
  · rintro ⟨-, hrst, hfin, -⟩
    simp [hrst, hfin] at h
  · rintro ⟨-, hsyn, -⟩
    simp [hasFlag_of_syn packet hsyn] at h

/-- A packet that is stored is no repeated SYN. -/
theorem Stored.not_repeatedSyn {packet : PacketT} {src : Bool} (h : Stored packet src)
    (f : Flow) : ¬ RepeatedSyn f packet src :=
  fun hrep => h.2.2.2 ⟨hrep.1, hrep.2.1⟩

/-- The branches of `add_packet`: dropped; finished by a RST or a FIN; a SYN of
the source, on the flow or on the reset flow; a stored packet; a packet that is
only counted. -/
theorem Flow.addPacket_cases :
    (DropsFlow f packet ∧ f.addPacket now packet src = ⟨f, .drop, true, 1⟩) ∨
    (¬ DropsFlow f packet ∧
      (hasFlag packet.tcpFlags TH_RST = true ∨ hasFlag packet.tcpFlags TH_FIN = true) ∧
      f.addPacket now packet src =
        ⟨{ f.calPacket now { packet with type := 0 } src with close := 1 }, .finish, true, 0⟩) ∨
    (src = true ∧ packet.tcpFlags = TH_SYN ∧
      f.addPacket now packet src =
        ⟨((if f.pktsSrc = 0 then f else f.reset).setSyn packet).calPacket now
          { packet with type := 0 } src, .keep, true, 0⟩) ∨
    (Stored packet src ∧
      f.addPacket now packet src =
        ⟨(f.hookPacket packet src).calPacket now packet src, .keep, false, 0⟩) ∨
    (packet.type = 0 ∧ hasFlag packet.tcpFlags TH_RST = false ∧
      hasFlag packet.tcpFlags TH_FIN = false ∧ ¬ (src = true ∧ packet.tcpFlags = TH_SYN) ∧
      f.addPacket now packet src = ⟨f.calPacket now packet src, .keep, true, 0⟩) := by
  unfold Flow.addPacket
  by_cases hrst : hasFlag packet.tcpFlags TH_RST = true
  · rw [if_pos hrst]
    by_cases hn : f.pktsSrc < 4
    · rw [if_pos hn]
      exact .inl ⟨⟨hrst, hn⟩, rfl⟩
    · rw [if_neg hn]
      exact .inr (.inl ⟨fun h => hn h.2, .inl hrst, rfl⟩)
  · have hnodrop : ¬ DropsFlow f packet := fun h => hrst h.1
    rw [if_neg hrst]
    rw [Bool.not_eq_true] at hrst
    by_cases hfin : hasFlag packet.tcpFlags TH_FIN = true
    · rw [if_pos hfin]
      refine .inr (.inl ⟨hnodrop, .inr hfin, ?_⟩)
      cases src <;> simp [Flow.calPacket, Flow.countPacket]
    · rw [if_neg hfin]
      rw [Bool.not_eq_true] at hfin
      by_cases hsyn : src = true ∧ packet.tcpFlags = TH_SYN
      · rw [if_pos hsyn]
        refine .inr (.inr (.inl ⟨hsyn.1, hsyn.2, ?_⟩))
        split <;> rfl
      · rw [if_neg hsyn]
        by_cases htype : packet.type = 0
        · rw [if_neg (not_not.mpr htype)]
          exact .inr (.inr (.inr (.inr ⟨htype, hrst, hfin, hsyn, rfl⟩)))
        · rw [if_pos htype]
          exact .inr (.inr (.inr (.inl ⟨⟨htype, hrst, hfin, hsyn⟩, rfl⟩)))

theorem Flow.addPacket_drop (h : DropsFlow f packet) :
    f.addPacket now packet src = ⟨f, .drop, true, 1⟩ := by
  simp [Flow.addPacket, h.1, h.2]

/-- Unless the flow is dropped, the packet's node is inserted, into new lists
after a repeated SYN. -/
theorem Flow.addPacket_order (h : ¬ DropsFlow f packet) :
    (f.addPacket now packet src).flow.order =
      (tcpOrder (if RepeatedSyn f packet src then OrderT.new else f.order)
        (arrivalSeq packet src) src).1 := by
  rcases Flow.addPacket_cases f now packet src with ⟨hd, -⟩ | ⟨-, hflag, hres⟩ |
    ⟨hsrc, hsyn, hres⟩ | ⟨hst, hres⟩ | ⟨htype, hrst, hfin, hsyn, hres⟩
  · exact absurd hd h
  · obtain ⟨hnot, hrep⟩ := not_stored_of_flag f packet src hflag
    simp [hres, seqOf_bare, arrivalSeq, hnot, hrep]
  · have hnot : ¬ Stored packet src := fun hst => hst.2.2.2 ⟨hsrc, hsyn⟩
    have hbase : (if f.pktsSrc = 0 then f else f.reset).order =
        if RepeatedSyn f packet src then OrderT.new else f.order := by
      by_cases hn : f.pktsSrc = 0
      · simp [RepeatedSyn, hn]
      · simp [RepeatedSyn, hn, hsrc, hsyn]
    simp only [hres, Flow.calPacket_order, Flow.setSyn_order, hbase, seqOf_bare, arrivalSeq,
      if_neg hnot]
  · have hrep := hst.not_repeatedSyn f
    simp [hres, seqOf, arrivalSeq, hst, hst.1, hrep]
  · have hnot : ¬ Stored packet src := fun hst => hst.1 htype
    have hrep : ¬ RepeatedSyn f packet src := fun hrep => hsyn ⟨hrep.1, hrep.2.1⟩
    simp [hres, seqOf, arrivalSeq, hnot, htype, hrep]

/-- A flow that stores a packet is kept. -/
theorem Flow.addPacket_stored (h : Stored packet src) :
    (f.addPacket now packet src).verdict = .keep := by
  rcases Flow.addPacket_cases f now packet src with ⟨hd, -⟩ | ⟨-, hflag, -⟩ |
    ⟨-, -, hres⟩ | ⟨-, hres⟩ | ⟨-, -, -, -, hres⟩
  · exact absurd h (not_stored_of_flag f packet src (.inl hd.1)).1
  · exact absurd h (not_stored_of_flag f packet src hflag).1
  all_goals rw [hres]

/-- A flow that is kept was sent no FIN, and is not one to drop. -/
theorem Flow.addPacket_keep (h : (f.addPacket now packet src).verdict = .keep) :
    ¬ DropsFlow f packet ∧ hasFlag packet.tcpFlags TH_FIN = false := by
  have hdrop : ¬ DropsFlow f packet := by
    intro hd
    simp [Flow.addPacket_drop f now packet src hd] at h
  refine ⟨hdrop, ?_⟩
  rcases Flow.addPacket_cases f now packet src with ⟨hd, -⟩ | ⟨-, -, hres⟩ |
    ⟨-, hsyn, -⟩ | ⟨hst, -⟩ | ⟨-, -, hfin, -, -⟩
  · exact absurd hd hdrop
  · simp [hres] at h
  · exact (hasFlag_of_syn packet hsyn).2
  · exact hst.2.2.1
  · exact hfin

@[simp] theorem arrivalSeq_thFlags : (arrivalSeq packet src).thFlags = packet.tcpFlags := by
  unfold arrivalSeq
  split <;> rfl

@[simp] theorem arrivalSeq_processed : (arrivalSeq packet src).processed = false := by
  unfold arrivalSeq
  split <;> rfl

/-- The node's packet, if it has one, is the packet that arrived. -/
theorem arrivalSeq_pkt {packet q : PacketT} {src : Bool}
    (h : (arrivalSeq packet src).pkt = some q) :
    q = packet := by
  unfold arrivalSeq at h
  split at h
  · exact (Option.some.inj h).symm
  · cases h

/-- What `add_packet` does to the nodes of a direction: it may clear them, and it may
list the packet's node with them. -/
theorem Flow.addPacket_perm (h : ¬ DropsFlow f packet) (dir : Bool) :
    ∃ old, ((old = (f.order.dir dir).nodes ∧ ¬ RepeatedSyn f packet src) ∨ old = []) ∧
      (((f.addPacket now packet src).flow.order.dir dir).nodes = old ∨
        dir = src ∧ ∃ n, TrimmedFrom (arrivalSeq packet src) n ∧
          (∀ p, n.pkt = some p → p.CutFrom packet) ∧
          ((f.addPacket now packet src).flow.order.dir dir).nodes.Perm (n :: old)) := by
  refine ⟨((if RepeatedSyn f packet src then OrderT.new else f.order).dir dir).nodes, ?_, ?_⟩
  · split
    · right
      cases dir <;> rfl
    · next hrep => exact .inl ⟨rfl, hrep⟩
  · rw [Flow.addPacket_order f now packet src h, tcpOrder_dir]
    by_cases hdir : dir = src
    · subst hdir
      rw [if_pos rfl]
      generalize ((if RepeatedSyn f packet dir then OrderT.new else f.order)) = ord
      rcases tcpOrderDir_perm (ord.dir dir) ord.num (arrivalSeq packet dir) with
        hsame | ⟨n, hn, hpkt, hperm⟩
      · exact .inl hsame
      · refine .inr ⟨rfl, n, hn, fun p hp => ?_, hperm⟩
        obtain ⟨q, hq, hcut⟩ := hpkt p hp
        exact arrivalSeq_pkt hq ▸ hcut
    · rw [if_neg hdir]
      exact .inl rfl

/-- Every node of the flow after `add_packet` was there before or is the packet's. -/
theorem Flow.mem_addPacket_order (h : ¬ DropsFlow f packet) {dir : Bool} {n : SeqT}
    (hn : n ∈ ((f.addPacket now packet src).flow.order.dir dir).nodes) :
    n ∈ (f.order.dir dir).nodes ∨ (dir = src ∧ TrimmedFrom (arrivalSeq packet src) n) := by
  obtain ⟨old, hold, hnodes⟩ := Flow.addPacket_perm f now packet src h dir
  have hmem : ∀ m ∈ old, m ∈ (f.order.dir dir).nodes := by
    rcases hold with ⟨rfl, -⟩ | rfl
    · exact fun m hm => hm
    · simp
  rcases hnodes with hsame | ⟨hdir, m, hm, -, hperm⟩
  · exact .inl (hmem n (hsame ▸ hn))
  · rcases List.mem_cons.mp (hperm.mem_iff.mp hn) with rfl | hn
    · exact .inr ⟨hdir, hm⟩
    · exact .inl (hmem n hn)

/-- A stored packet's node is inserted in the list of its direction. -/
theorem Stored.addPacket_dir {packet : PacketT} {src : Bool} (h : Stored packet src) (dir : Bool) :
    (f.addPacket now packet src).flow.order.dir dir =
      if dir = src then (tcpOrderDir (f.order.dir src) f.order.num (seqPkt packet)).list
      else f.order.dir dir := by
  have hnodrop : ¬ DropsFlow f packet := fun hd => Bool.false_ne_true (h.2.1.symm.trans hd.1)
  have harrival : arrivalSeq packet src = seqPkt packet := if_pos h
  rw [Flow.addPacket_order f now packet src hnodrop, if_neg (h.not_repeatedSyn f), harrival,
    tcpOrder_dir]

/-- The flow after `add_packet`, unless the call deletes it. -/
def Flow.receive : Option Flow :=
  if DropsFlow f packet then none else some (f.addPacket now packet src).flow

theorem Flow.receive_eq_some {f' : Flow} :
    f.receive now packet src = some f' ↔
      ¬ DropsFlow f packet ∧ (f.addPacket now packet src).flow = f' := by
  unfold Flow.receive
  split
  · next h => simp [h]
  · next h => simp [h]

/-- `add_packet` leaves the pairs alone, and what is said about them. -/
theorem Flow.addPacket_pairs :
    (f.addPacket now packet src).flow.pairs = f.pairs ∧
      (f.addPacket now packet src).flow.nextPair = f.nextPair ∧
      (f.addPacket now packet src).flow.socket = f.socket ∧
      (f.addPacket now packet src).flow.processed = f.processed := by
  rcases Flow.addPacket_cases f now packet src with ⟨-, hres⟩ | ⟨-, -, hres⟩ |
    ⟨-, -, hres⟩ | ⟨-, hres⟩ | ⟨-, -, -, -, hres⟩ <;> rw [hres]
  · exact ⟨rfl, rfl, rfl, rfl⟩
  · exact f.calPacket_frame now _ src
  · split
    · exact (f.setSyn packet).calPacket_frame now _ src
    · exact (f.reset.setSyn packet).calPacket_frame now _ src
  · have hhook : (f.hookPacket packet src).pairs = f.pairs ∧
        (f.hookPacket packet src).nextPair = f.nextPair ∧
        (f.hookPacket packet src).socket = f.socket ∧
        (f.hookPacket packet src).processed = f.processed := by
      cases src <;> exact ⟨rfl, rfl, rfl, rfl⟩
    have hcal := (f.hookPacket packet src).calPacket_frame now packet src
    rwa [hhook.1, hhook.2.1, hhook.2.2.1, hhook.2.2.2] at hcal
  · exact f.calPacket_frame now packet src

end AddPacket

/-! ## Sample traffic -/

/-- A packet of a connection between port 4000 and port 80, without its bytes. -/
def webPacket (addr : Nat) (src : Bool) (seq ack : UInt32) (dl : UInt16) (type : UInt8) : PacketT :=
  ⟨addr, 0, 0, 54 + dl.toUInt32, if src then 1 else 2, if src then 2 else 1,
    if src then 4000 else 80, if src then 80 else 4000, 20, 40 + dl, 6, seq, ack, TH_ACK, 20, dl,
    type, none, none⟩

/-- A new flow of that connection. -/
def webFlow : Flow := Flow.new Flow.zero ⟨1, 2, 4000, 80⟩

end MonitoringTool.Sniffer
