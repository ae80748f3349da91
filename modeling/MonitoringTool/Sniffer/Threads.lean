import MonitoringTool.Lib.Run
import MonitoringTool.Sniffer.ExtractData
import MonitoringTool.Sniffer.FlowScrubber

/-!
# The three threads on one table

The packet thread looks a flow up and then adds the packet to it, each under the
bucket's mutex; the scrubber takes the flows of a bucket that have been silent for
too long; the flow-queue thread processes and deletes what was put on the queue.
A critical section is one step, and a run is any interleaving of the steps.

Between the lookup and the update the packet thread holds a flow without a lock.
`threads_safe` says that the scrubber taking this flow out is the only way to
lose: in every run in which it does not, no packet is added to a flow that has
left the table, and each flow leaves it and is enqueued once.
-/

namespace MonitoringTool.Sniffer

open Lib Function

/-! ## The threads -/

/-- Where the packet thread stands with the packet it has taken: before the second
lookup, before `create`, or before `add_packet` on the flow it has. -/
inductive PacketThread where
  | idle : PacketThread
  | lookForward (packet : PacketT) : PacketThread
  | mustCreate (packet : PacketT) : PacketThread
  | holding (packet : PacketT) (f : ℕ) (src : Bool) : PacketThread
  deriving DecidableEq

/-- Where the flow-queue thread stands. -/
inductive FlowThread where
  | idle : FlowThread
  | taken (f : ℕ) : FlowThread
  | extracted (f : ℕ) : FlowThread
  deriving DecidableEq

/-- The flow the flow-queue thread works on. -/
def FlowThread.flow : FlowThread → Option ℕ
  | .idle => none
  | .taken f => some f
  | .extracted f => some f

/-- The table and the threads.  `unlinked` and `enqueued` list the calls of
`remove` and `enq`, and `stray` those of `Flow::add_packet` on a flow that had left
the table. -/
structure Threads where
  table : FlowHashTable
  packetThread : PacketThread
  scrubAt : ℕ
  flowThread : FlowThread
  unlinked : List ℕ
  enqueued : List ℕ
  stray : List ℕ

/-- A step of one thread, with what it reads from outside. -/
inductive ThreadAction where
  /-- the packet thread takes a packet and looks for the flow it answers -/
  | takePacket (packet : PacketT) : ThreadAction
  /-- the packet thread goes on; `mem` is the memory of a new flow -/
  | goOn (now : Clock) (mem : Flow) : ThreadAction
  /-- the scrubber does its next bucket -/
  | scrub (now : ℕ → Int) (timeout : Int) : ThreadAction
  /-- the flow-queue thread goes on -/
  | flowQueue : ThreadAction

namespace Threads

/-- The start of the analysis. -/
def start : Threads :=
  { table := .new, packetThread := .idle, scrubAt := 0, flowThread := .idle
    unlinked := [], enqueued := [], stray := [] }

/-- `Flow::add_packet` on the flow the packet thread holds. -/
def update (s : Threads) (now : Clock) (packet : PacketT) (f : ℕ) (src : Bool) :
    Option Threads :=
  let verdict := ((s.table.flows f).addPacket now packet src).verdict
  (s.table.flowAddPacket f now packet src).map fun table =>
    { s with
      table := table
      packetThread := .idle
      unlinked := s.unlinked ++ if verdict = .keep then [] else [f]
      enqueued := s.enqueued ++ if verdict = .finish then [f] else []
      stray := if f ∈ s.unlinked then s.stray ++ [f] else s.stray }

/-- The packet thread's next critical section in `FlowHashTable::add_packet`. -/
def packetStep (s : Threads) (now : Clock) (mem : Flow) : Option Threads :=
  match s.packetThread with
  | .idle => none
  | .lookForward packet =>
      (s.table.find packet.socket).map fun
        | some f => { s with packetThread := .holding packet f true }
        | none =>
            if packet.type = REQ ∨ packet.type = RSP then
              { s with packetThread := .mustCreate packet }
            else
              { s with
                packetThread := .idle
                table := { s.table with freed := s.table.freed ++ [packet.addr] } }
  | .mustCreate packet =>
      let src := decide (packet.type = REQ)
      (s.table.create mem (if src then packet.socket else packet.socket.flip)).map
        fun (table, f) => { s with table := table, packetThread := .holding packet f src }
  | .holding packet f src => s.update now packet f src

variable (rspHdlen : Option (List UInt8) → UInt16 → Int) (flt : FlowFilter)

/-- The flow-queue thread: `deq`, then `extractPair` and `extractData`, then
`delete`. -/
def flowStep (s : Threads) : Option Threads :=
  match s.flowThread with
  | .idle =>
      match s.table.fq with
      | [] => some s
      | f :: fq => some { s with table := { s.table with fq := fq }, flowThread := .taken f }
  | .taken f =>
      (extractPair rspHdlen (s.table.flows f) true).map fun (flow, _) =>
        let flow := (extractData flt flow).1
        { s with
          table := { s.table with flows := Function.update s.table.flows f flow }
          flowThread := .extracted f }
  | .extracted f =>
      some { s with
        table := { s.table with deleted := s.table.deleted ++ [f] }, flowThread := .idle }

/-- One step. -/
def step (s : Threads) : ThreadAction → Option Threads
  | .takePacket packet =>
      if s.packetThread = .idle then
        (s.table.find packet.socket.flip).map fun
          | some f => { s with packetThread := .holding packet f false }
          | none => { s with packetThread := .lookForward packet }
      else none
  | .goOn now mem => s.packetStep now mem
  | .scrub now timeout =>
      (s.table.scrubBucket s.scrubAt now timeout).map fun (table, out) =>
        { s with
          table := table
          scrubAt := (s.scrubAt + 1) % HASH_SIZE
          unlinked := s.unlinked ++ out
          enqueued := s.enqueued ++ out }
  | .flowQueue => s.flowStep rspHdlen flt

/-- No packet was added to a flow that had left the table; each flow left it at
most once and was enqueued at most once. -/
structure Safe (s : Threads) : Prop where
  stray_eq : s.stray = []
  unlinked_once : s.unlinked.Nodup
  enqueued_once : s.enqueued.Nodup

/-- The scrubber does not find the flow that the packet thread holds timed out. -/
def SparesHeld (s : Threads) : ThreadAction → Prop
  | .scrub now timeout =>
      match s.packetThread with
      | .holding _ f _ =>
          s.table.hmb f = s.scrubAt → timedOut (now f) timeout (s.table.flows f) = false
      | _ => True
  | _ => True

instance (s : Threads) (a : ThreadAction) : Decidable (s.SparesHeld a) := by
  unfold SparesHeld
  split
  · split <;> infer_instance
  · infer_instance

/-! ## What every step keeps -/

/-- The unlinked flows are in no list and the held flow is in one; what is on the
queue or in work was unlinked. -/
structure InvBy (s : Threads) (chain : ℕ → List ℕ) : Prop where
  shape : Shape s.table chain
  gone : ∀ f ∈ s.unlinked, f < s.table.fresh ∧ ∀ i, f ∉ chain i
  held : ∀ packet f src, s.packetThread = .holding packet f src → ∃ i, f ∈ chain i
  queued : ∀ f ∈ s.table.fq, f ∈ s.unlinked
  working : ∀ f, s.flowThread.flow = some f → f ∈ s.unlinked
  enqueued_sub : ∀ f ∈ s.enqueued, f ∈ s.unlinked
  safe : s.Safe

/-- The invariant of the threads. -/
def Inv (s : Threads) : Prop := ∃ chain, s.InvBy chain

theorem inv_start : start.Inv :=
  ⟨fun _ => [],
    { shape := Shape.new
      gone := by simp [start]
      held := by simp [start]
      queued := by simp [start, FlowHashTable.new]
      working := by simp [start, FlowThread.flow]
      enqueued_sub := by simp [start]
      safe := ⟨rfl, List.nodup_nil, List.nodup_nil⟩ }⟩

namespace InvBy

variable {s : Threads} {chain : ℕ → List ℕ}

/-- Taking linked flows out, of which `enq` are enqueued. -/
theorem takeOut (h : s.InvBy chain) {table : FlowHashTable} {chain' : ℕ → List ℕ}
    {out enq : List ℕ} {packetThread : PacketThread} {scrubAt : ℕ} (hshape : Shape table chain')
    (hmem : ∀ j g, g ∈ chain' j ↔ g ∈ chain j ∧ g ∉ out) (hfresh : table.fresh = s.table.fresh)
    (hout : ∀ g ∈ out, ∃ i, g ∈ chain i) (hnodup : out.Nodup) (henq : enq.Sublist out)
    (hfq : table.fq = s.table.fq ++ enq)
    (hheld : ∀ packet f src, packetThread = .holding packet f src →
      s.packetThread = .holding packet f src ∧ f ∉ out) :
    InvBy
      { s with
        table := table
        packetThread := packetThread
        scrubAt := scrubAt
        unlinked := s.unlinked ++ out
        enqueued := s.enqueued ++ enq } chain' := by
  have hapart : ∀ f ∈ s.unlinked, f ∉ out := by
    intro f hf hfout
    obtain ⟨i, hi⟩ := hout f hfout
    exact (h.gone f hf).2 i hi
  exact
    { shape := hshape
      gone := by
        intro f hf
        rcases List.mem_append.mp hf with hf | hf
        · exact ⟨hfresh ▸ (h.gone f hf).1, fun j hj => (h.gone f hf).2 j ((hmem j f).mp hj).1⟩
        · obtain ⟨i, hi⟩ := hout f hf
          exact ⟨hfresh ▸ h.shape.lt_fresh i f hi, fun j hj => ((hmem j f).mp hj).2 hf⟩
      held := by
        intro packet f src hp
        obtain ⟨hold, hnot⟩ := hheld packet f src hp
        obtain ⟨i, hi⟩ := h.held packet f src hold
        exact ⟨i, (hmem i f).mpr ⟨hi, hnot⟩⟩
      queued := by
        intro f hf
        rw [show table.fq = s.table.fq ++ enq from hfq] at hf
        exact List.mem_append.mpr
          ((List.mem_append.mp hf).imp (h.queued f) fun hf => henq.subset hf)
      working := fun f hf => List.mem_append_left _ (h.working f hf)
      enqueued_sub := by
        intro f hf
        exact List.mem_append.mpr
          ((List.mem_append.mp hf).imp (h.enqueued_sub f) fun hf => henq.subset hf)
      safe :=
        { stray_eq := h.safe.stray_eq
          unlinked_once := List.nodup_append.mpr ⟨h.safe.unlinked_once, hnodup,
            fun f hf g hg heq => hapart f hf (heq ▸ hg)⟩
          enqueued_once := List.nodup_append.mpr ⟨h.safe.enqueued_once, henq.nodup hnodup,
            fun f hf g hg heq => hapart f (h.enqueued_sub f hf) (heq ▸ henq.subset hg)⟩ } }

/-- The packet thread takes a flow it has found, or goes on without one. -/
theorem found (h : s.InvBy chain) {packetThread : PacketThread} (freed : List ℕ)
    (hheld : ∀ packet f src, packetThread = .holding packet f src → ∃ i, f ∈ chain i) :
    InvBy
      { s with table := { s.table with freed := freed }, packetThread := packetThread } chain where
  shape := h.shape.logs s.table.fq s.table.deleted freed
  gone := h.gone
  held := hheld
  queued := h.queued
  working := h.working
  enqueued_sub := h.enqueued_sub
  safe := ⟨h.safe.stray_eq, h.safe.unlinked_once, h.safe.enqueued_once⟩

/-- The packet thread adds a packet to the flow it holds. -/
theorem update_step (h : s.InvBy chain) {packet : PacketT} {f : ℕ} {src : Bool} {now : Clock}
    {s' : Threads} (hheld : s.packetThread = .holding packet f src)
    (hstep : s.update now packet f src = some s') : s'.Inv := by
  obtain ⟨i, hi⟩ := h.held packet f src hheld
  have hstray : f ∉ s.unlinked := fun hf => (h.gone f hf).2 i hi
  obtain ⟨t', chain', hadd, hadded⟩ := h.shape.flowAddPacket_eq hi now packet src
  unfold update at hstep
  rw [hadd] at hstep
  obtain rfl := Option.some.inj hstep
  rw [if_neg hstray]
  refine ⟨chain', h.takeOut hadded.shape hadded.mem_iff hadded.fresh_eq ?_ ?_ ?_ hadded.fq_eq ?_⟩
  · intro g hg
    split at hg
    · simp at hg
    · exact ⟨i, (List.mem_singleton.mp hg) ▸ hi⟩
  · split <;> simp
  · split
    · next hv => simp [hv]
    · simp
  · intro _ _ _ hp
    cases hp

/-- The packet thread creates a flow and holds it. -/
theorem create_step (h : s.InvBy chain) {packet : PacketT} {src : Bool} {mem : Flow}
    {socket : FlowS} {t' : FlowHashTable} {f : ℕ}
    (hcreate : s.table.create mem socket = some (t', f)) :
    Inv { s with table := t', packetThread := .holding packet f src } := by
  obtain ⟨t₁, chain', heq, hnew⟩ := h.shape.create_created mem socket
  obtain ⟨rfl, rfl⟩ := Prod.mk.inj (Option.some.inj (heq.symm.trans hcreate))
  refine ⟨chain', ?_⟩
  exact
    { shape := hnew.shape
      gone := by
        intro g hg
        obtain ⟨hlt, hnot⟩ := h.gone g hg
        refine ⟨hnew.fresh_eq ▸ Nat.lt_succ_of_lt hlt, fun j hj => ?_⟩
        rcases hnew.mem_chain j g hj with hj | ⟨rfl, -⟩
        · exact hnot j hj
        · exact Nat.lt_irrefl _ hlt
      held := by
        intro packet' f' src' hp
        obtain ⟨-, rfl, -⟩ := PacketThread.holding.inj hp
        exact ⟨_, hnew.linked⟩
      queued := fun g hg => h.queued g (hnew.fq_eq ▸ hg)
      working := h.working
      enqueued_sub := h.enqueued_sub
      safe := ⟨h.safe.stray_eq, h.safe.unlinked_once, h.safe.enqueued_once⟩ }

/-- What `find` answers is linked. -/
theorem mem_of_find (h : s.InvBy chain) {socket : FlowS} {f : ℕ}
    (hfind : s.table.find socket = some (some f)) : ∃ i, f ∈ chain i := by
  exact ⟨_, (h.shape.find_mem hfind).1⟩

/-- The packet thread takes the flow that `find` answers. -/
theorem find_step (h : s.InvBy chain) {packet : PacketT} {src : Bool} {socket : FlowS} {f : ℕ}
    (hfind : s.table.find socket = some (some f)) :
    Inv { s with packetThread := .holding packet f src } := by
  refine ⟨chain, h.found s.table.freed ?_⟩
  intro packet' f' src' hp
  obtain ⟨-, rfl, -⟩ := PacketThread.holding.inj hp
  exact h.mem_of_find hfind

/-- The packet thread's steps after its first lookup. -/
theorem packetStep (h : s.InvBy chain) {now : Clock} {mem : Flow} {s' : Threads}
    (hstep : s.packetStep now mem = some s') : s'.Inv := by
  unfold Threads.packetStep at hstep
  cases hp : s.packetThread with
  | idle =>
      rw [hp] at hstep
      cases hstep
  | lookForward packet =>
      rw [hp] at hstep
      obtain ⟨r, hfind, heq⟩ := Option.map_eq_some_iff.mp hstep
      cases r with
      | some f =>
          obtain rfl := heq
          exact h.find_step hfind
      | none =>
          dsimp only at heq
          split at heq
          · obtain rfl := heq
            exact ⟨chain, h.found s.table.freed (by intro _ _ _ hp'; cases hp')⟩
          · obtain rfl := heq
            exact ⟨chain, h.found (s.table.freed ++ [packet.addr]) (by intro _ _ _ hp'; cases hp')⟩
  | mustCreate packet =>
      rw [hp] at hstep
      obtain ⟨⟨t', f⟩, hcreate, heq⟩ := Option.map_eq_some_iff.mp hstep
      obtain rfl := heq
      exact h.create_step hcreate
  | holding packet f src =>
      rw [hp] at hstep
      exact h.update_step hp hstep

/-- The flow-queue thread works on unlinked flows only. -/
theorem flowStep (h : s.InvBy chain) {rspHdlen : Option (List UInt8) → UInt16 → Int}
    {flt : FlowFilter} {s' : Threads} (hstep : s.flowStep rspHdlen flt = some s') : s'.Inv := by
  unfold Threads.flowStep at hstep
  cases hf : s.flowThread with
  | idle =>
      rw [hf] at hstep
      dsimp only at hstep
      cases hfq : s.table.fq with
      | nil =>
          rw [hfq] at hstep
          obtain rfl := Option.some.inj hstep
          exact ⟨chain, h⟩
      | cons f fq =>
          rw [hfq] at hstep
          obtain rfl := Option.some.inj hstep
          refine ⟨chain, ?_⟩
          exact
            { shape := h.shape.logs fq s.table.deleted s.table.freed
              gone := h.gone
              held := h.held
              queued := fun g hg => h.queued g (hfq ▸ List.mem_cons_of_mem _ hg)
              working := by
                intro g hg
                obtain rfl := Option.some.inj hg
                exact h.queued _ (hfq ▸ List.mem_cons_self)
              enqueued_sub := h.enqueued_sub
              safe := ⟨h.safe.stray_eq, h.safe.unlinked_once, h.safe.enqueued_once⟩ }
  | taken f =>
      rw [hf] at hstep
      obtain ⟨⟨flow, ret⟩, -, rfl⟩ := Option.map_eq_some_iff.mp hstep
      have hgone := h.gone f (h.working f (by rw [hf]; rfl))
      refine ⟨chain, ?_⟩
      exact
        { shape := h.shape.setFlow fun i hi => absurd hi (hgone.2 i)
          gone := h.gone
          held := h.held
          queued := h.queued
          working := fun g hg => h.working g (by rw [hf]; exact hg)
          enqueued_sub := h.enqueued_sub
          safe := ⟨h.safe.stray_eq, h.safe.unlinked_once, h.safe.enqueued_once⟩ }
  | extracted f =>
      rw [hf] at hstep
      obtain rfl := Option.some.inj hstep
      refine ⟨chain, ?_⟩
      exact
        { shape := h.shape.logs s.table.fq (s.table.deleted ++ [f]) s.table.freed
          gone := h.gone
          held := h.held
          queued := h.queued
          working := by
            intro g hg
            cases hg
          enqueued_sub := h.enqueued_sub
          safe := ⟨h.safe.stray_eq, h.safe.unlinked_once, h.safe.enqueued_once⟩ }

/-- The scrubber takes out linked flows, and not the one that is held. -/
theorem scrub_step (h : s.InvBy chain) {now : ℕ → Int} {timeout : Int} {t' : FlowHashTable}
    {out : List ℕ} {scrubAt : ℕ} (hspares : s.SparesHeld (.scrub now timeout))
    (hscrub : s.table.scrubBucket s.scrubAt now timeout = some (t', out)) :
    Inv { s with table := t', scrubAt := scrubAt, unlinked := s.unlinked ++ out,
                 enqueued := s.enqueued ++ out } := by
  obtain ⟨t₁, hscrub₁, hs⟩ := h.shape.scrubBucket_eq s.scrubAt now timeout
  obtain ⟨rfl, rfl⟩ := Prod.mk.inj (Option.some.inj (hscrub₁.symm.trans hscrub))
  have hsub : ∀ g ∈ s.table.expired now timeout (chain s.scrubAt), g ∈ chain s.scrubAt :=
    fun g hg => List.mem_of_mem_filter hg
  refine ⟨_, h.takeOut hs.shape hs.mem_iff hs.fresh_eq (fun g hg => ⟨_, hsub g hg⟩) hs.nodup
    (List.Sublist.refl _) hs.fq_eq ?_⟩
  intro packet f src hp
  refine ⟨hp, fun hf => ?_⟩
  have hmb := h.shape.hmb_eq _ f (hsub f hf)
  simp only [SparesHeld, hp] at hspares
  have hspared := hspares hmb
  rw [hs.timedOut f hf] at hspared
  cases hspared

end InvBy

/-- A step that spares the held flow keeps the invariant. -/
theorem inv_step {rspHdlen : Option (List UInt8) → UInt16 → Int} {flt : FlowFilter}
    {s s' : Threads} {a : ThreadAction} (h : s.Inv) (hspares : s.SparesHeld a)
    (hstep : s.step rspHdlen flt a = some s') : s'.Inv := by
  obtain ⟨chain, h⟩ := h
  cases a with
  | takePacket packet =>
      simp only [step] at hstep
      split at hstep
      · obtain ⟨r, hfind, heq⟩ := Option.map_eq_some_iff.mp hstep
        cases r with
        | some f =>
            obtain rfl := heq
            exact h.find_step hfind
        | none =>
            obtain rfl := heq
            exact ⟨chain, h.found s.table.freed (by intro _ _ _ hp'; cases hp')⟩
      · cases hstep
  | goOn now mem => exact h.packetStep hstep
  | scrub now timeout =>
      obtain ⟨⟨t', out⟩, hscrub, rfl⟩ := Option.map_eq_some_iff.mp hstep
      exact h.scrub_step hspares hscrub
  | flowQueue => exact h.flowStep hstep

end Threads

/-- **The threads are safe while the scrubber spares the held flow.**  In every
interleaving in which the scrubber never finds the flow that the packet thread has
looked up or created, and not yet updated, timed out in its bucket: no packet is
added to a flow that has left the table, and each flow leaves it and is enqueued
at most once. -/
theorem threads_safe (rspHdlen : Option (List UInt8) → UInt16 → Int) (flt : FlowFilter)
    (actions : List ThreadAction)
    (hspares : EveryStep (Threads.step rspHdlen flt) Threads.SparesHeld .start actions) :
    EveryState (Threads.step rspHdlen flt) Threads.Safe .start actions := by
  intro before hbefore s hrun
  have hinv := everyState_of_everyStep
    (fun (s : Threads) a s' (hs : s.Inv) hw hstep => Threads.inv_step hs hw hstep)
    Threads.inv_start hspares
  obtain ⟨chain, h⟩ := hinv before hbefore s hrun
  exact h.safe

/-- A request of 100 bytes from 10.0.0.25:4080 to 10.1.0.255:80, whose flow is in
the scrubber's first bucket. -/
def firstBucketRequest (addr : Nat) (seq : UInt32) : PacketT :=
  ⟨addr, 0, 0, 154, 0x0a000019, 0x0a0100ff, 4080, 80, 20, 140, 6, seq, 1, TH_ACK, 20, 100, REQ,
    none, none⟩

/-- The packet thread takes a request whose flow is not in the table. -/
def newRequest (addr : Nat) (seq : UInt32) : List ThreadAction :=
  [.takePacket (firstBucketRequest addr seq), .goOn ⟨0, 0⟩ Flow.zero, .goOn ⟨0, 0⟩ Flow.zero,
    .goOn ⟨0, 0⟩ Flow.zero]

/-- A flow times out while the packet thread is idle, and is processed. -/
theorem threads_safe_timeout :
    EveryState (Threads.step (fun _ _ => 0) noFilter) Threads.Safe .start
      (newRequest 0 1 ++ [.scrub (fun _ => 1000) 600, .flowQueue, .flowQueue, .flowQueue]) := by
  apply threads_safe
  decide +kernel

/-- The flow times out between the lookup and the update of its second packet, which
is then added to it although it has left the table. -/
theorem threads_stray_packet :
    ¬ ∀ (rspHdlen : Option (List UInt8) → UInt16 → Int) (flt : FlowFilter)
      (actions : List ThreadAction) (s : Threads),
      run (Threads.step rspHdlen flt) .start actions = some s → s.Safe := by
  intro hall
  have hstray : (run (Threads.step (fun _ _ => 0) noFilter) .start
      (newRequest 0 1 ++ [.takePacket (firstBucketRequest 1 101), .goOn ⟨0, 0⟩ Flow.zero,
        .scrub (fun _ => 1000) 600, .goOn ⟨1000, 0⟩ Flow.zero])).any
      (fun s => !s.stray.isEmpty) = true := by decide +kernel
  obtain ⟨s, hrun, hs⟩ := (Option.any_eq_true _ _).mp hstray
  have hsafe := hall _ _ _ s hrun
  simp [hsafe.stray_eq] at hs

end MonitoringTool.Sniffer
