import MonitoringTool.Lib.Run
import MonitoringTool.Sniffer.FrameReads
import MonitoringTool.Sniffer.ProtocolRun
import MonitoringTool.Sniffer.Threads

/-!
# The threads of the sniffer

`main.c` runs an analysis as a pipeline.  `capture_main` puts frames on the raw queue,
`process_packet` makes packets of them and puts these on the queues of the protocols,
`process_packet_queue` adds the packets to the flows of the protocol's table,
`scrubbing_flow_htbl` takes silent flows out of the tables, and `process_flow_queue`
processes the flows that were put on the flow queues.  The timer goes through the tables.

A step is what a thread does between two points where another one can come in: a test of
`isStopped`, a call on a queue, or a critical section on a bucket.  A run is any
interleaving of the steps, for any number of protocols.
-/

namespace MonitoringTool.Sniffer

open Lib

/-! ## The threads -/

/-- Where `capture_main` stands. -/
inductive CaptureThread where
  | next : CaptureThread
  /-- `pcap_next` answered a frame -/
  | captured (frame : Frame) (addr : ℕ) : CaptureThread
  /-- the frame is copied, and not yet on the raw queue -/
  | copied (rpkt : RawPkt) : CaptureThread
  | ended : CaptureThread

/-- Where `process_packet` stands. -/
inductive RawThread where
  | next : RawThread
  /-- `deq` answered, and `isStopped` is not tested yet -/
  | dequeued (rpkt : Option RawPkt) : RawThread
  | ended : RawThread

/-- Where `process_packet_queue` stands. -/
inductive PacketQueueThread where
  | testStop : PacketQueueThread
  /-- it is the turn of protocol `k` -/
  | turn (k : ℕ) : PacketQueueThread
  | dequeued (k : ℕ) (pkt : PacketT) : PacketQueueThread
  /-- in `add_packet` -/
  | adding (k : ℕ) (pkt : PacketT) : PacketQueueThread
  | ended : PacketQueueThread

/-- Where `process_flow_queue` stands. -/
inductive FlowQueueThread where
  | testStop : FlowQueueThread
  | turn (k : ℕ) : FlowQueueThread
  /-- it has a flow of protocol `k` -/
  | working (k : ℕ) : FlowQueueThread
  | ended : FlowQueueThread

/-- Where `scrubbing_flow_htbl` stands. -/
inductive ScrubThread where
  | asleep : ScrubThread
  | turn (k : ℕ) : ScrubThread
  /-- in `flow_scrubber`, with `isStopped` seen or not -/
  | scrubbing (k : ℕ) (cleanse : Bool) : ScrubThread
  | exiting : ScrubThread
  | ended : ScrubThread

/-- The flow that the flow-queue thread has taken and not yet processed. -/
def FlowThread.pending : FlowThread → List ℕ
  | .taken f => [f]
  | _ => []

/-- A protocol with its packet queue, and its table and flow queue with the threads on
them.  `queued` lists the packets put on the packet queue, `added` those that `add_packet`
was called with, and `processed` the flows passed to `extractPair` and `extractData`. -/
structure ProtocolQueues where
  protocol : Protocol
  pq : List PacketT
  threads : Threads
  queued : List PacketT
  added : List PacketT
  processed : List ℕ

/-- The analysis.  `captured` lists the frames put on the raw queue, and `preprocessed`
those passed to `packet_preprocess`. -/
structure Pipeline where
  stopped : Bool
  rpq : List RawPkt
  protocols : List ProtocolQueues
  capture : CaptureThread
  rawThread : RawThread
  packetThread : PacketQueueThread
  flowThread : FlowQueueThread
  scrubThread : ScrubThread
  captured : List RawPkt
  preprocessed : List RawPkt

/-- A step, with what it reads from outside. -/
inductive PipelineAction where
  /-- `Analysis::stop` -/
  | stop : PipelineAction
  | frame (frame : Frame) (addr : ℕ) : PipelineAction
  | capture : PipelineAction
  | rawPacket : PipelineAction
  | packetQueue (now : Clock) (mem : Flow) : PipelineAction
  | flowQueue : PipelineAction
  | scrubber (now : ℕ → Int) : PipelineAction
  /-- `flowHashProcess` on bucket `i` of protocol `k` -/
  | timer (k i : ℕ) : PipelineAction

namespace Pipeline

/-- A protocol before the first packet. -/
def startProtocol (protocol : Protocol) : ProtocolQueues :=
  { protocol := protocol, pq := [], threads := .start, queued := [], added := [], processed := [] }

/-- `start_analysis`. -/
def start (protocols : List Protocol) : Pipeline where
  stopped := false
  rpq := []
  protocols := protocols.map startProtocol
  capture := .next
  rawThread := .next
  packetThread := .testStop
  flowThread := .testStop
  scrubThread := .asleep
  captured := []
  preprocessed := []

/-- Overwrite protocol `k`. -/
def setProtocol (s : Pipeline) (k : ℕ) (p : ProtocolQueues) : Pipeline :=
  { s with protocols := s.protocols.set k p }

/-- `capture_main` goes on with the frame it has. -/
def captureStep (s : Pipeline) : Option Pipeline :=
  match s.capture with
  | .next => none
  | .captured frame addr =>
      if 54 ≤ frame.len ∧ s.stopped = true then some { s with capture := .ended }
      else
        (captureMain frame addr).map fun
          | none => { s with capture := .next }
          | some rpkt => { s with capture := .copied rpkt }
  | .copied rpkt =>
      some { s with
        rpq := s.rpq ++ [rpkt], captured := s.captured ++ [rpkt], capture := .next }
  | .ended => none

/-- `pq->enq(pkt)` of protocol `k`. -/
def enqPacket (s : Pipeline) (k : ℕ) (pkt : PacketT) : Option Pipeline :=
  (s.protocols[k]?).map fun p =>
    s.setProtocol k { p with pq := p.pq ++ [pkt], queued := p.queued ++ [pkt] }

/-- `process_packet`. -/
def rawStep (s : Pipeline) : Option Pipeline :=
  match s.rawThread with
  | .next =>
      match s.rpq with
      | [] => some { s with rawThread := .dequeued none }
      | rpkt :: rpq => some { s with rpq := rpq, rawThread := .dequeued (some rpkt) }
  | .dequeued none => some { s with rawThread := if s.stopped then .ended else .next }
  | .dequeued (some rpkt) => do
      let s' := { s with rawThread := .next, preprocessed := s.preprocessed ++ [rpkt] }
      match ← packetPreprocess (s.protocols.map (·.protocol)) rpkt with
      | none => some s'
      | some (k, pkt) => s'.enqPacket k pkt
  | .ended => none

variable (rspHdlen : ℕ → Option (List UInt8) → UInt16 → Int) (flt : ℕ → FlowFilter)

/-- `process_packet_queue`. -/
def packetStep (s : Pipeline) (now : Clock) (mem : Flow) : Option Pipeline :=
  match s.packetThread with
  | .testStop => some { s with packetThread := if s.stopped then .ended else .turn 0 }
  | .turn k =>
      match s.protocols[k]? with
      | none => some { s with packetThread := .testStop }
      | some p =>
          match p.pq with
          | [] => some { s with packetThread := .turn (k + 1) }
          | pkt :: pq =>
              some { s.setProtocol k { p with pq := pq } with packetThread := .dequeued k pkt }
  | .dequeued k pkt => do
      let p ← s.protocols[k]?
      let threads ← p.threads.step (rspHdlen k) (flt k) (.takePacket pkt)
      some { s.setProtocol k { p with threads := threads } with packetThread := .adding k pkt }
  | .adding k pkt => do
      let p ← s.protocols[k]?
      let threads ← p.threads.step (rspHdlen k) (flt k) (.goOn now mem)
      if threads.packetThread = .idle then
        some { s.setProtocol k { p with threads := threads, added := p.added ++ [pkt] } with
          packetThread := .turn (k + 1) }
      else some (s.setProtocol k { p with threads := threads })
  | .ended => none

/-- What `process_flow_queue` does next with the flow it has, or with the queue. -/
def workOn (p : ProtocolQueues) (k : ℕ) : Option ProtocolQueues :=
  (p.threads.step (rspHdlen k) (flt k) .flowQueue).map fun threads =>
    { p with threads := threads, processed := p.processed ++ p.threads.flowThread.pending }

/-- `process_flow_queue`. -/
def flowStep (s : Pipeline) : Option Pipeline :=
  match s.flowThread with
  | .testStop => some { s with flowThread := if s.stopped then .ended else .turn 0 }
  | .turn k =>
      match s.protocols[k]? with
      | none => some { s with flowThread := .testStop }
      | some p =>
          match p.threads.table.fq with
          | [] => some { s with flowThread := .turn (k + 1) }
          | _ :: _ => do
              let p ← workOn rspHdlen flt p k
              some { s.setProtocol k p with flowThread := .working k }
  | .working k => do
      let p ← s.protocols[k]?
      let p ← workOn rspHdlen flt p k
      if p.threads.flowThread = .idle then
        some { s.setProtocol k p with flowThread := .turn (k + 1) }
      else some (s.setProtocol k p)
  | .ended => none

/-- `scrubbing_flow_htbl`: it scrubs with -1 for a timeout once it sees the stop. -/
def scrubStep (s : Pipeline) (now : ℕ → Int) : Option Pipeline :=
  match s.scrubThread with
  | .asleep => some { s with scrubThread := .turn 0 }
  | .turn k =>
      match s.protocols[k]? with
      | none => some { s with scrubThread := .asleep }
      | some _ => some { s with scrubThread := .scrubbing k s.stopped }
  | .scrubbing k cleanse => do
      let p ← s.protocols[k]?
      let timeout := if cleanse then -1 else 60 * 10
      let threads ← p.threads.step (rspHdlen k) (flt k) (.scrub now timeout)
      let s := s.setProtocol k { p with threads := threads }
      if threads.scrubAt = 0 then
        some { s with scrubThread := if cleanse then .exiting else .turn (k + 1) }
      else some s
  | .exiting => some { s with scrubThread := .ended }
  | .ended => none

/-- The timer's `flowHashProcess` on a bucket. -/
def timerStep (s : Pipeline) (k i : ℕ) : Option Pipeline := do
  let p ← s.protocols[k]?
  let state ← ProtocolState.hashBucket (rspHdlen k) (flt k)
    { table := p.threads.table, extracted := [] } i
  some (s.setProtocol k { p with threads := { p.threads with table := state.table } })

/-- One step. -/
def step (s : Pipeline) : PipelineAction → Option Pipeline
  | .stop => some { s with stopped := true }
  | .frame frame addr =>
      match s.capture with
      | .next => some { s with capture := .captured frame addr }
      | _ => none
  | .capture => s.captureStep
  | .rawPacket => s.rawStep
  | .packetQueue now mem => s.packetStep rspHdlen flt now mem
  | .flowQueue => s.flowStep rspHdlen flt
  | .scrubber now => s.scrubStep rspHdlen flt now
  | .timer k i => s.timerStep rspHdlen flt k i

end Pipeline

/-! ## Queues in a critical section -/

/-- A packet that closes the flow, which is then put on the flow queue. -/
def ClosesFlow (f : Flow) (packet : PacketT) : Prop :=
  ¬ DropsFlow f packet ∧
    (hasFlag packet.tcpFlags TH_RST = true ∨ hasFlag packet.tcpFlags TH_FIN = true)

theorem Flow.addPacket_finish_iff (f : Flow) (now : Clock) (packet : PacketT) (src : Bool) :
    (f.addPacket now packet src).verdict = .finish ↔ ClosesFlow f packet := by
  unfold ClosesFlow
  rcases Flow.addPacket_cases f now packet src with ⟨hd, hres⟩ | ⟨hd, hflag, hres⟩ |
    ⟨-, hsyn, hres⟩ | ⟨hst, hres⟩ | ⟨-, hrst, hfin, -, hres⟩
  · simp [hres, hd]
  · simp [hres, hd, hflag]
  · simp [hres, hasFlag_of_syn packet hsyn]
  · simp [hres, hst.2.1, hst.2.2.1]
  · simp [hres, hrst, hfin]

namespace FlowHashTable

theorem remove_fq {t t' : FlowHashTable} {f : ℕ} (h : t.remove f = some t') : t'.fq = t.fq := by
  unfold remove at h
  obtain ⟨⟨t₁, hm⟩, hunlinked, rfl⟩ := Option.map_eq_some_iff.mp h
  show t₁.fq = t.fq
  split at hunlinked
  · obtain ⟨rfl, -⟩ := Prod.mk.inj (Option.some.inj hunlinked)
    rfl
  · split at hunlinked
    · cases hunlinked
    · obtain ⟨rfl, -⟩ := Prod.mk.inj (Option.some.inj hunlinked)
      rfl
    · obtain ⟨rfl, -⟩ := Prod.mk.inj (Option.some.inj hunlinked)
      rfl
    · obtain ⟨rfl, -⟩ := Prod.mk.inj (Option.some.inj hunlinked)
      rfl

theorem create_fq {t t' : FlowHashTable} {mem : Flow} {socket : FlowS} {f : ℕ}
    (h : t.create mem socket = some (t', f)) : t'.fq = t.fq := by
  unfold create at h
  obtain ⟨⟨t₁, hm⟩, hlinked, heq⟩ := Option.map_eq_some_iff.mp h
  obtain ⟨rfl, -⟩ := Prod.mk.inj heq
  show t₁.fq = t.fq
  split at hlinked
  · obtain ⟨rfl, -⟩ := Prod.mk.inj (Option.some.inj hlinked)
    rfl
  · obtain ⟨l, -, heq⟩ := Option.map_eq_some_iff.mp hlinked
    obtain ⟨rfl, -⟩ := Prod.mk.inj heq
    rfl

theorem flowAddPacket_fq {t t' : FlowHashTable} {f : ℕ} {now : Clock} {packet : PacketT}
    {src : Bool} (h : t.flowAddPacket f now packet src = some t') :
    t'.fq = t.fq ++
      if ((t.flows f).addPacket now packet src).verdict = .finish then [f] else [] := by
  unfold flowAddPacket at h
  dsimp only at h
  split at h
  · next hv =>
      obtain rfl := Option.some.inj h
      simp [hv]
  · next hv =>
      obtain ⟨t₁, hremove, rfl⟩ := Option.map_eq_some_iff.mp h
      simp [hv, remove_fq hremove]
  · next hv =>
      obtain ⟨t₁, hremove, rfl⟩ := Option.map_eq_some_iff.mp h
      simp [hv, remove_fq hremove]

/-- The walk puts on the queue what it takes out, and takes nothing if no flow that it
would meet has timed out. -/
theorem scrubLoop_fq (now : ℕ → Int) (timeout : Int) {fuel : ℕ} {flow : Option ℕ}
    {t t' : FlowHashTable} {out : List ℕ}
    (h : scrubLoop now timeout fuel flow t = some (t', out)) :
    t'.fq = t.fq ++ out ∧
      (out = [] ↔ ∀ f ∈ follow t.next fuel flow, timedOut (now f) timeout (t.flows f) = false) := by
  induction fuel generalizing flow t t' out with
  | zero =>
      cases flow with
      | none =>
          obtain ⟨rfl, rfl⟩ := Prod.mk.inj (Option.some.inj h)
          simp [follow]
      | some f => cases h
  | succ fuel ih =>
      cases flow with
      | none =>
          obtain ⟨rfl, rfl⟩ := Prod.mk.inj (Option.some.inj h)
          simp [follow]
      | some f =>
          unfold scrubLoop at h
          dsimp only at h
          split at h
          · next htimed =>
              obtain ⟨t₁, hremove, hrest⟩ := Option.bind_eq_some_iff.mp h
              obtain ⟨⟨t₂, num⟩, hloop, heq⟩ := Option.map_eq_some_iff.mp hrest
              obtain ⟨rfl, rfl⟩ := Prod.mk.inj heq
              obtain ⟨hfq, -⟩ := ih hloop
              constructor
              · rw [hfq, remove_fq hremove]
                simp [forceClose]
              · simp [follow, htimed]
          · next htimed =>
              obtain ⟨hfq, hout⟩ := ih h
              refine ⟨hfq, ?_⟩
              simp [follow, htimed, hout]

theorem scrubBucket_fq {t t' : FlowHashTable} {i : ℕ} {now : ℕ → Int} {timeout : Int}
    {out : List ℕ} (h : t.scrubBucket i now timeout = some (t', out)) :
    t'.fq = t.fq ++ out ∧
      (out = [] ↔ ∀ f ∈ t.bucket i, timedOut (now f) timeout (t.flows f) = false) :=
  scrubLoop_fq now timeout h

end FlowHashTable

namespace Threads

/-- The flows `new` are put on the flow queue, and the flow-queue thread does nothing. -/
structure Fills (s s' : Threads) (new : List ℕ) : Prop where
  fq_eq : s'.table.fq = s.table.fq ++ new
  enqueued_eq : s'.enqueued = s.enqueued ++ new
  flowThread_eq : s'.flowThread = s.flowThread

/-- The packet thread holds a flow and a packet that closes it. -/
def Closes (s : Threads) : Prop :=
  ∃ packet f src, s.packetThread = .holding packet f src ∧ ClosesFlow (s.table.flows f) packet

section Steps

variable {rspHdlen : Option (List UInt8) → UInt16 → Int} {flt : FlowFilter} {s s' : Threads}

theorem takePacket_fills {packet : PacketT}
    (h : s.step rspHdlen flt (.takePacket packet) = some s') : s.Fills s' [] := by
  simp only [step] at h
  split at h
  · obtain ⟨found, -, heq⟩ := Option.map_eq_some_iff.mp h
    cases found with
    | none =>
        obtain rfl := heq
        exact ⟨by simp, by simp, rfl⟩
    | some f =>
        obtain rfl := heq
        exact ⟨by simp, by simp, rfl⟩
  · cases h

/-- The packet thread puts the flow it holds on the queue, if the packet closes it. -/
theorem goOn_fills {now : Clock} {mem : Flow} (h : s.step rspHdlen flt (.goOn now mem) = some s') :
    ∃ new, s.Fills s' new ∧ (new = [] ↔ ¬ s.Closes) := by
  simp only [step, packetStep] at h
  unfold Closes
  cases hp : s.packetThread with
  | idle => simp [hp] at h
  | lookForward packet =>
      refine ⟨[], ?_, by simp⟩
      rw [hp] at h
      obtain ⟨found, -, heq⟩ := Option.map_eq_some_iff.mp h
      cases found with
      | some f =>
          obtain rfl := heq
          exact ⟨by simp, by simp, rfl⟩
      | none =>
          dsimp only at heq
          split at heq <;> obtain rfl := heq <;> exact ⟨by simp, by simp, rfl⟩
  | mustCreate packet =>
      refine ⟨[], ?_, by simp⟩
      rw [hp] at h
      obtain ⟨⟨t', f⟩, hcreate, rfl⟩ := Option.map_eq_some_iff.mp h
      exact ⟨by simpa using FlowHashTable.create_fq hcreate, by simp, rfl⟩
  | holding packet f src =>
      rw [hp] at h
      unfold update at h
      obtain ⟨t', hadd, rfl⟩ := Option.map_eq_some_iff.mp h
      refine ⟨_, ⟨FlowHashTable.flowAddPacket_fq hadd, rfl, rfl⟩, ?_⟩
      have hfinish := Flow.addPacket_finish_iff (s.table.flows f) now packet src
      have hclosed : (∃ packet' f' src', PacketThread.holding packet f src =
          .holding packet' f' src' ∧ ClosesFlow (s.table.flows f') packet') ↔
          ClosesFlow (s.table.flows f) packet := by
        simp
      rw [hclosed, ← hfinish]
      split
      · next hv => simp [hv]
      · next hv => simp [hv]

/-- The scrubber puts on the queue the flows of its bucket that have timed out. -/
theorem scrub_fills {now : ℕ → Int} {timeout : Int}
    (h : s.step rspHdlen flt (.scrub now timeout) = some s') :
    ∃ new, s.Fills s' new ∧ (new = [] ↔
      ∀ f ∈ s.table.bucket s.scrubAt, timedOut (now f) timeout (s.table.flows f) = false) := by
  obtain ⟨⟨t', out⟩, hscrub, rfl⟩ := Option.map_eq_some_iff.mp h
  obtain ⟨hfq, hout⟩ := FlowHashTable.scrubBucket_fq hscrub
  exact ⟨out, ⟨hfq, rfl, rfl⟩, hout⟩

/-- The flow-queue thread takes a flow off the queue, if it is idle, and puts none on; no
list of the table changes. -/
theorem flowQueue_takes (h : s.step rspHdlen flt .flowQueue = some s') :
    s'.table.table = s.table.table ∧ s'.enqueued = s.enqueued ∧
      s.table.fq = s'.flowThread.pending ++ s'.table.fq := by
  simp only [step, Threads.flowStep] at h
  cases hf : s.flowThread with
  | idle =>
      rw [hf] at h
      dsimp only at h
      split at h
      · obtain rfl := Option.some.inj h
        exact ⟨rfl, rfl, by simp [hf, FlowThread.pending]⟩
      · next f fq hfq =>
          obtain rfl := Option.some.inj h
          exact ⟨rfl, rfl, by simp [hfq, FlowThread.pending]⟩
  | taken f =>
      rw [hf] at h
      obtain ⟨⟨flow, ret⟩, -, rfl⟩ := Option.map_eq_some_iff.mp h
      exact ⟨rfl, rfl, rfl⟩
  | extracted f =>
      rw [hf] at h
      obtain rfl := Option.some.inj h
      exact ⟨rfl, rfl, rfl⟩

end Steps

end Threads

/-- Going through a bucket changes flow objects only. -/
theorem ProtocolState.hashLoop_table {rspHdlen : Option (List UInt8) → UInt16 → Int}
    {flt : FlowFilter} {fuel : ℕ} {flow : Option ℕ} {s s' : ProtocolState}
    (h : ProtocolState.hashLoop rspHdlen flt fuel flow s = some s') :
    s'.table.table = s.table.table ∧ s'.table.fq = s.table.fq := by
  induction fuel generalizing flow s with
  | zero =>
      cases flow with
      | none =>
          obtain rfl := Option.some.inj h
          exact ⟨rfl, rfl⟩
      | some f => cases h
  | succ fuel ih =>
      cases flow with
      | none =>
          obtain rfl := Option.some.inj h
          exact ⟨rfl, rfl⟩
      | some f =>
          obtain ⟨s₁, hextract, hrest⟩ := Option.bind_eq_some_iff.mp h
          obtain ⟨r, -, rfl⟩ := Option.map_eq_some_iff.mp hextract
          have hkept := ih hrest
          exact hkept

/-! ## What a step can do -/

/-- A frame is put on a packet queue if it carries a payload for a protocol. -/
theorem packetPreprocess_eq_none_iff {protocols : List Protocol} {rpkt : RawPkt}
    {found : Option (ℕ × PacketT)} (h : packetPreprocess protocols rpkt = some found) :
    found = none ↔ payloadOf protocols rpkt = none := by
  rcases packetPreprocess_cases protocols rpkt with ⟨x, hx, hres⟩ | ⟨hx, hres | hres⟩
  · rw [hres] at h
    obtain ⟨pkt, -, rfl⟩ := Option.map_eq_some_iff.mp h
    simp [hx]
  · rw [hres] at h
    cases h
  · obtain rfl := Option.some.inj (hres.symm.trans h)
    simp [hx]

namespace Pipeline

/-- What `capture_main` can do. -/
inductive CaptureStep (s : Pipeline) : Pipeline → Prop
  | moves (capture : CaptureThread) (hpc : ∀ rpkt, s.capture ≠ .copied rpkt) :
      CaptureStep s { s with capture := capture }
  | enqueues (rpkt : RawPkt) (hpc : s.capture = .copied rpkt) :
      CaptureStep s { s with
        rpq := s.rpq ++ [rpkt], captured := s.captured ++ [rpkt], capture := .next }

/-- What `process_packet` can do. -/
inductive RawStep (s : Pipeline) : Pipeline → Prop
  | takes (rpkt : RawPkt) (rpq : List RawPkt) (hpc : s.rawThread = .next)
      (hrpq : s.rpq = rpkt :: rpq) :
      RawStep s { s with rpq := rpq, rawThread := .dequeued (some rpkt) }
  | findsNothing (hpc : s.rawThread = .next) (hrpq : s.rpq = []) :
      RawStep s { s with rawThread := .dequeued none }
  | ends (hpc : s.rawThread = .dequeued none) (hstop : s.stopped = true) :
      RawStep s { s with rawThread := .ended }
  | sleeps (hpc : s.rawThread = .dequeued none) (hstop : s.stopped = false) :
      RawStep s { s with rawThread := .next }
  | drops (rpkt : RawPkt) (hpc : s.rawThread = .dequeued (some rpkt))
      (hpayload : payloadOf (s.protocols.map (·.protocol)) rpkt = none) :
      RawStep s { s with rawThread := .next, preprocessed := s.preprocessed ++ [rpkt] }
  | enqueues (rpkt : RawPkt) (k : ℕ) (p : ProtocolQueues) (pkt : PacketT)
      (hpc : s.rawThread = .dequeued (some rpkt))
      (hpayload : payloadOf (s.protocols.map (·.protocol)) rpkt ≠ none)
      (hk : s.protocols[k]? = some p) :
      RawStep s { s.setProtocol k { p with pq := p.pq ++ [pkt], queued := p.queued ++ [pkt] } with
        rawThread := .next, preprocessed := s.preprocessed ++ [rpkt] }

/-- What `process_packet_queue` can do. -/
inductive PacketStep (s : Pipeline) : Pipeline → Prop
  | ends (hpc : s.packetThread = .testStop) (hstop : s.stopped = true) :
      PacketStep s { s with packetThread := .ended }
  | starts (hpc : s.packetThread = .testStop) (hstop : s.stopped = false) :
      PacketStep s { s with packetThread := .turn 0 }
  | moves (k : ℕ) (packetThread : PacketQueueThread) (hpc : s.packetThread = .turn k)
      (hto : packetThread = .testStop ∨ packetThread = .turn (k + 1)) :
      PacketStep s { s with packetThread := packetThread }
  | takes (k : ℕ) (p : ProtocolQueues) (pkt : PacketT) (pq : List PacketT)
      (hpc : s.packetThread = .turn k) (hk : s.protocols[k]? = some p) (hpq : p.pq = pkt :: pq) :
      PacketStep s { s.setProtocol k { p with pq := pq } with packetThread := .dequeued k pkt }
  | begins (k : ℕ) (p : ProtocolQueues) (pkt : PacketT) (threads : Threads)
      (hpc : s.packetThread = .dequeued k pkt) (hk : s.protocols[k]? = some p)
      (hfills : p.threads.Fills threads []) :
      PacketStep s { s.setProtocol k { p with threads := threads } with
        packetThread := .adding k pkt }
  | goesOn (k : ℕ) (p : ProtocolQueues) (pkt : PacketT) (threads : Threads) (new : List ℕ)
      (hpc : s.packetThread = .adding k pkt) (hk : s.protocols[k]? = some p)
      (hfills : p.threads.Fills threads new) (hnew : new = [] ↔ ¬ p.threads.Closes) :
      PacketStep s (s.setProtocol k { p with threads := threads })
  | adds (k : ℕ) (p : ProtocolQueues) (pkt : PacketT) (threads : Threads) (new : List ℕ)
      (hpc : s.packetThread = .adding k pkt) (hk : s.protocols[k]? = some p)
      (hfills : p.threads.Fills threads new) (hnew : new = [] ↔ ¬ p.threads.Closes) :
      PacketStep s { s.setProtocol k { p with threads := threads, added := p.added ++ [pkt] } with
        packetThread := .turn (k + 1) }

/-- What `process_flow_queue` can do. -/
inductive FlowStep (rspHdlen : ℕ → Option (List UInt8) → UInt16 → Int) (flt : ℕ → FlowFilter)
    (s : Pipeline) : Pipeline → Prop
  | ends (hpc : s.flowThread = .testStop) (hstop : s.stopped = true) :
      FlowStep rspHdlen flt s { s with flowThread := .ended }
  | starts (hpc : s.flowThread = .testStop) (hstop : s.stopped = false) :
      FlowStep rspHdlen flt s { s with flowThread := .turn 0 }
  | moves (k : ℕ) (flowThread : FlowQueueThread) (hpc : s.flowThread = .turn k)
      (hto : flowThread = .testStop ∨ flowThread = .turn (k + 1)) :
      FlowStep rspHdlen flt s { s with flowThread := flowThread }
  | takes (k : ℕ) (p p' : ProtocolQueues) (hpc : s.flowThread = .turn k)
      (hk : s.protocols[k]? = some p) (hwork : workOn rspHdlen flt p k = some p') :
      FlowStep rspHdlen flt s { s.setProtocol k p' with flowThread := .working k }
  | goesOn (k : ℕ) (p p' : ProtocolQueues) (hpc : s.flowThread = .working k)
      (hk : s.protocols[k]? = some p) (hwork : workOn rspHdlen flt p k = some p') :
      FlowStep rspHdlen flt s (s.setProtocol k p')
  | finishes (k : ℕ) (p p' : ProtocolQueues) (hpc : s.flowThread = .working k)
      (hk : s.protocols[k]? = some p) (hwork : workOn rspHdlen flt p k = some p')
      (hidle : p'.threads.flowThread = .idle) :
      FlowStep rspHdlen flt s { s.setProtocol k p' with flowThread := .turn (k + 1) }

/-- What `scrubbing_flow_htbl` can do. -/
inductive ScrubStep (now : ℕ → Int) (s : Pipeline) : Pipeline → Prop
  | moves (scrubThread : ScrubThread) (hpc : s.scrubThread = .asleep ∨ ∃ k, s.scrubThread = .turn k)
      (hto : scrubThread ≠ .ended) : ScrubStep now s { s with scrubThread := scrubThread }
  | scrubs (k : ℕ) (cleanse : Bool) (p : ProtocolQueues) (threads : Threads) (new : List ℕ)
      (scrubThread : ScrubThread) (hpc : s.scrubThread = .scrubbing k cleanse)
      (hk : s.protocols[k]? = some p) (hfills : p.threads.Fills threads new)
      (hnew : new = [] ↔ ∀ f ∈ p.threads.table.bucket p.threads.scrubAt,
        timedOut (now f) (if cleanse then -1 else 60 * 10) (p.threads.table.flows f) = false)
      (hto : scrubThread ≠ .ended) :
      ScrubStep now s { s.setProtocol k { p with threads := threads } with
        scrubThread := scrubThread }
  | ends (hpc : s.scrubThread = .exiting) : ScrubStep now s { s with scrubThread := .ended }

/-- What the timer can do. -/
inductive TimerStep (s : Pipeline) : Pipeline → Prop
  | scans (k : ℕ) (p : ProtocolQueues) (table : FlowHashTable) (hk : s.protocols[k]? = some p)
      (htable : table.table = p.threads.table.table) (hfq : table.fq = p.threads.table.fq) :
      TimerStep s (s.setProtocol k { p with threads := { p.threads with table := table } })

section Steps

variable {rspHdlen : ℕ → Option (List UInt8) → UInt16 → Int} {flt : ℕ → FlowFilter}
  {s s' : Pipeline}

theorem captureStep_cases (h : s.captureStep = some s') : CaptureStep s s' := by
  unfold captureStep at h
  cases hc : s.capture with
  | next => simp [hc] at h
  | captured frame addr =>
      rw [hc] at h
      dsimp only at h
      split at h
      · obtain rfl := Option.some.inj h
        exact .moves _ (by simp [hc])
      · obtain ⟨found, -, heq⟩ := Option.map_eq_some_iff.mp h
        cases found <;> obtain rfl := heq <;> exact .moves _ (by simp [hc])
  | copied rpkt =>
      rw [hc] at h
      obtain rfl := Option.some.inj h
      exact .enqueues rpkt hc
  | ended => simp [hc] at h

theorem rawStep_cases (h : s.rawStep = some s') : RawStep s s' := by
  unfold rawStep at h
  cases hr : s.rawThread with
  | next =>
      rw [hr] at h
      dsimp only at h
      split at h
      · next hrpq =>
          obtain rfl := Option.some.inj h
          exact .findsNothing hr hrpq
      · next rpkt rpq hrpq =>
          obtain rfl := Option.some.inj h
          exact .takes rpkt rpq hr hrpq
  | dequeued found =>
      rw [hr] at h
      cases found with
      | none =>
          obtain rfl := Option.some.inj h
          split
          · next hstop => exact .ends hr hstop
          · next hstop => exact .sleeps hr (by simpa using hstop)
      | some rpkt =>
          obtain ⟨found, hpre, hrest⟩ := Option.bind_eq_some_iff.mp h
          have hnone := packetPreprocess_eq_none_iff hpre
          cases found with
          | none =>
              obtain rfl := Option.some.inj hrest
              exact .drops rpkt hr (hnone.mp rfl)
          | some found =>
              obtain ⟨p, hk, rfl⟩ := Option.map_eq_some_iff.mp hrest
              exact .enqueues rpkt found.1 p found.2 hr (fun hp => nomatch hnone.mpr hp) hk
  | ended => simp [hr] at h

theorem packetStep_cases {now : Clock} {mem : Flow}
    (h : s.packetStep rspHdlen flt now mem = some s') : PacketStep s s' := by
  unfold packetStep at h
  cases hp : s.packetThread with
  | testStop =>
      rw [hp] at h
      obtain rfl := Option.some.inj h
      split
      · next hstop => exact .ends hp hstop
      · next hstop => exact .starts hp (by simpa using hstop)
  | turn k =>
      rw [hp] at h
      dsimp only at h
      cases hk : s.protocols[k]? with
      | none =>
          rw [hk] at h
          obtain rfl := Option.some.inj h
          exact .moves k _ hp (.inl rfl)
      | some p =>
          rw [hk] at h
          dsimp only at h
          split at h
          · obtain rfl := Option.some.inj h
            exact .moves k _ hp (.inr rfl)
          · next pkt pq hpq =>
              obtain rfl := Option.some.inj h
              exact .takes k p pkt pq hp hk hpq
  | dequeued k pkt =>
      rw [hp] at h
      obtain ⟨p, hk, hrest⟩ := Option.bind_eq_some_iff.mp h
      obtain ⟨threads, hstep, heq⟩ := Option.bind_eq_some_iff.mp hrest
      obtain rfl := Option.some.inj heq
      exact .begins k p pkt threads hp hk (Threads.takePacket_fills hstep)
  | adding k pkt =>
      rw [hp] at h
      obtain ⟨p, hk, hrest⟩ := Option.bind_eq_some_iff.mp h
      obtain ⟨threads, hstep, heq⟩ := Option.bind_eq_some_iff.mp hrest
      obtain ⟨new, hfills, hnew⟩ := Threads.goOn_fills hstep
      split at heq
      · obtain rfl := Option.some.inj heq
        exact .adds k p pkt threads new hp hk hfills hnew
      · obtain rfl := Option.some.inj heq
        exact .goesOn k p pkt threads new hp hk hfills hnew
  | ended => simp [hp] at h

theorem flowStep_cases (h : s.flowStep rspHdlen flt = some s') : FlowStep rspHdlen flt s s' := by
  unfold flowStep at h
  cases hf : s.flowThread with
  | testStop =>
      rw [hf] at h
      obtain rfl := Option.some.inj h
      split
      · next hstop => exact .ends hf hstop
      · next hstop => exact .starts hf (by simpa using hstop)
  | turn k =>
      rw [hf] at h
      dsimp only at h
      cases hk : s.protocols[k]? with
      | none =>
          rw [hk] at h
          obtain rfl := Option.some.inj h
          exact .moves k _ hf (.inl rfl)
      | some p =>
          rw [hk] at h
          dsimp only at h
          split at h
          · obtain rfl := Option.some.inj h
            exact .moves k _ hf (.inr rfl)
          · obtain ⟨p', hwork, heq⟩ := Option.bind_eq_some_iff.mp h
            obtain rfl := Option.some.inj heq
            exact .takes k p p' hf hk hwork
  | working k =>
      rw [hf] at h
      obtain ⟨p, hk, hrest⟩ := Option.bind_eq_some_iff.mp h
      obtain ⟨p', hwork, heq⟩ := Option.bind_eq_some_iff.mp hrest
      split at heq
      · next hidle =>
          obtain rfl := Option.some.inj heq
          exact .finishes k p p' hf hk hwork hidle
      · obtain rfl := Option.some.inj heq
        exact .goesOn k p p' hf hk hwork
  | ended => simp [hf] at h

theorem scrubStep_cases {now : ℕ → Int} (h : s.scrubStep rspHdlen flt now = some s') :
    ScrubStep now s s' := by
  unfold scrubStep at h
  cases hs : s.scrubThread with
  | asleep =>
      rw [hs] at h
      obtain rfl := Option.some.inj h
      exact .moves _ (.inl hs) (by simp)
  | turn k =>
      rw [hs] at h
      dsimp only at h
      split at h <;> obtain rfl := Option.some.inj h <;> exact .moves _ (.inr ⟨k, hs⟩) (by simp)
  | scrubbing k cleanse =>
      rw [hs] at h
      obtain ⟨p, hk, hrest⟩ := Option.bind_eq_some_iff.mp h
      obtain ⟨threads, hstep, heq⟩ := Option.bind_eq_some_iff.mp hrest
      obtain ⟨new, hfills, hnew⟩ := Threads.scrub_fills hstep
      dsimp only at heq
      split at heq
      · obtain rfl := Option.some.inj heq
        exact .scrubs k cleanse p threads new _ hs hk hfills hnew (by cases cleanse <;> simp)
      · obtain rfl := Option.some.inj heq
        exact .scrubs k cleanse p threads new s.scrubThread hs hk hfills hnew (by simp [hs])
  | exiting =>
      rw [hs] at h
      obtain rfl := Option.some.inj h
      exact .ends hs
  | ended => simp [hs] at h

theorem timerStep_cases {k i : ℕ} (h : s.timerStep rspHdlen flt k i = some s') :
    TimerStep s s' := by
  obtain ⟨p, hk, hrest⟩ := Option.bind_eq_some_iff.mp h
  obtain ⟨state, hbucket, heq⟩ := Option.bind_eq_some_iff.mp hrest
  obtain rfl := Option.some.inj heq
  obtain ⟨htable, hfq⟩ := ProtocolState.hashLoop_table hbucket
  exact .scans k p state.table hk htable hfq

end Steps

end Pipeline

end MonitoringTool.Sniffer
