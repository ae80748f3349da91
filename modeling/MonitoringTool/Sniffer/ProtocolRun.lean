import MonitoringTool.Sniffer.CrowdedBucket
import MonitoringTool.Sniffer.ExtractData
import MonitoringTool.Sniffer.ExtractNodes
import MonitoringTool.Sniffer.FlowScrubber

/-!
# One protocol's table and queue at work

The calls that one protocol's table sees while the sniffer runs, in any order:
packets are added, silent flows are scrubbed, `flowHashProcess` goes through the live
flows, and the flow-queue thread processes and deletes a flow that was enqueued.  Every
call of `extractPair` is recorded with the flow it is made on.

`InvBy` is what every call keeps.  The two results read off it are that a connection has
at most one flow as long as no bucket is too full for its counter
(`one_flow_per_connection`), and that no live flow has a FIN node, so that no call of
`extractPair` compares the time of a missing node (`live_flows_fin_free`).
-/

namespace MonitoringTool.Sniffer

open Lib Function

/-! ## The calls -/

/-- The table, and the calls of `extractPair` so far: the flow and `closed`. -/
structure ProtocolState where
  table : FlowHashTable
  extracted : List (Flow × Bool)

/-- A call on the table or the queue, with what it reads from outside. -/
inductive ProtocolCall where
  | addPacket (mem : Flow) (now : Clock) (packet : PacketT) : ProtocolCall
  | flowScrubber (now : ℕ → Int) (timeout : Int) : ProtocolCall
  | flowHashProcess : ProtocolCall
  | processFlow : ProtocolCall

namespace ProtocolState

/-- No packet has come. -/
def start : ProtocolState := { table := .new, extracted := [] }

section Calls

variable (rspHdlen : Option (List UInt8) → UInt16 → Int) (flt : FlowFilter)

/-- `extractPair(flow, closed)` and then `extractData(flow)`. -/
def extract (s : ProtocolState) (f : ℕ) (closed : Bool) : Option ProtocolState :=
  (extractPair rspHdlen (s.table.flows f) closed).map fun (flow, _) =>
    { table := { s.table with flows := update s.table.flows f (extractData flt flow).1 }
      extracted := s.extracted ++ [(s.table.flows f, closed)] }

/-- The walk of `flowHashProcess` over a bucket, from `flow` on. -/
def hashLoop : ℕ → Option ℕ → ProtocolState → Option ProtocolState
  | _, none, s => some s
  | 0, some _, _ => none
  | fuel + 1, some f, s =>
      let flowNext := s.table.next f
      (s.extract rspHdlen flt f false).bind (hashLoop fuel flowNext)

/-- `flowHashProcess` on bucket `i`. -/
def hashBucket (s : ProtocolState) (i : ℕ) : Option ProtocolState :=
  hashLoop rspHdlen flt s.table.fresh (s.table.table i).first s

/-- `Protocol::flowHashProcess`. -/
def flowHashProcess (s : ProtocolState) : Option ProtocolState :=
  run (hashBucket rspHdlen flt) s (List.range HASH_SIZE)

/-- `process_flow_queue` on the flow it takes, if there is one. -/
def processFlow (s : ProtocolState) : Option ProtocolState :=
  match s.table.fq with
  | [] => some s
  | f :: fq =>
      (extract rspHdlen flt { s with table := { s.table with fq := fq } } f true).map fun s =>
        { s with table := { s.table with deleted := s.table.deleted ++ [f] } }

/-- One call. -/
def step (s : ProtocolState) : ProtocolCall → Option ProtocolState
  | .addPacket mem now packet =>
      (s.table.addPacket mem now packet).map fun table => { s with table := table }
  | .flowScrubber now timeout =>
      (s.table.flowScrubber now timeout).map fun (table, _) => { s with table := table }
  | .flowHashProcess => s.flowHashProcess rspHdlen flt
  | .processFlow => s.processFlow rspHdlen flt

end Calls

end ProtocolState

/-! ## Flows without a FIN node -/

/-- A flow that `add_packet` keeps gets no FIN node. -/
theorem Flow.FinFree.addPacket {f : Flow} (h : f.FinFree) {now : Clock} {packet : PacketT}
    {src : Bool} (hkeep : (f.addPacket now packet src).verdict = .keep) :
    (f.addPacket now packet src).flow.FinFree := by
  obtain ⟨hdrop, hfin⟩ := Flow.addPacket_keep f now packet src hkeep
  intro dir n hn
  rcases Flow.mem_addPacket_order f now packet src hdrop hn with hn | ⟨-, hnew⟩
  · exact h dir n hn
  · rw [hnew.thFlags, arrivalSeq_thFlags, hfin]

theorem Flow.FinFree.extractPair {rspHdlen : Option (List UInt8) → UInt16 → Int} {f f' : Flow}
    {closed : Bool} {ret : Int} (h : f.FinFree)
    (hcall : extractPair rspHdlen f closed = some (f', ret)) : f'.FinFree := by
  obtain ⟨hsrc, hdst⟩ := extractPair_nodes rspHdlen hcall
  have hkeep : ∀ type (n : SeqT), hasFlag n.thFlags TH_FIN = false →
      hasFlag (n.process type).thFlags TH_FIN = false := by
    intro type n hn
    rwa [SeqT.process_thFlags]
  intro dir
  cases dir with
  | true => exact hsrc.forall_mem (hkeep REQ) (h true)
  | false => exact hdst.forall_mem (hkeep RSP) (h false)

/-- `extractData` leaves pairs with their requests. -/
theorem extractData_haveRequests (flt : FlowFilter) {f : Flow} (h : HaveRequests f.pairs) :
    HaveRequests (extractData flt f).1.pairs := by
  intro q hq
  obtain ⟨p, hp, rfl | rfl⟩ := extractData_mem flt hq
  · exact h q hp
  · rw [Pair.mark_requestHeader_isSome]
    exact h p hp

/-! ## What every call keeps -/

/-- Two sockets of one connection: the same, or its two directions. -/
def SameConnection (s s' : FlowS) : Prop := s = s' ∨ s = s'.flip

theorem SameConnection.symm {s s' : FlowS} (h : SameConnection s s') : SameConnection s' s := by
  rcases h with rfl | rfl
  · exact .inl rfl
  · exact .inr (FlowS.flip_flip s').symm

theorem SameConnection.trans {s s' s'' : FlowS} (h : SameConnection s s')
    (h' : SameConnection s' s'') : SameConnection s s'' := by
  rcases h with rfl | rfl <;> rcases h' with rfl | rfl
  · exact .inl rfl
  · exact .inr rfl
  · exact .inr rfl
  · exact .inl (FlowS.flip_flip s'')

theorem PacketT.flowSocket_sameConnection (p : PacketT) (src : Bool) :
    SameConnection (p.flowSocket src) p.socket := by
  cases src with
  | true => exact .inl rfl
  | false => exact .inr rfl

/-- `extractPair` got through its request walk, and on a live flow it saw no FIN node. -/
def Walked (call : Flow × Bool) : Prop :=
  (call.2 = false → call.1.finSeq = none) ∧
    (call.1.setFirstByte.findRequests call.2).isSome = true

namespace ProtocolState

/-- The flows `chain` are linked, and none of them has a FIN node; all pairs have their
requests.  If the table had room all the time, which is what `roomy` stands for, no two of the
flows belong to one connection. -/
structure InvBy (roomy : Prop) (s : ProtocolState) (chain : ℕ → List ℕ) : Prop where
  shape : Shape s.table chain
  apart : roomy → ∀ i, ∀ f ∈ chain i, ∀ j, ∀ g ∈ chain j,
    SameConnection (s.table.flows f).socket (s.table.flows g).socket → f = g
  finFree : ∀ i, ∀ f ∈ chain i, (s.table.flows f).FinFree
  requests : ∀ f, HaveRequests (s.table.flows f).pairs
  walked : ∀ call ∈ s.extracted, Walked call

theorem invBy_start {roomy : Prop} : start.InvBy roomy fun _ => [] where
  shape := Shape.new
  apart := by simp
  finFree := by simp
  requests := by simp [start, FlowHashTable.new, Flow.zero, HaveRequests]
  walked := by simp [start]

namespace InvBy

variable {roomy : Prop} {s : ProtocolState} {chain : ℕ → List ℕ}

/-- Writing a flow that keeps its socket, gets no FIN node and has its requests. -/
theorem write (h : s.InvBy roomy chain) {f : ℕ} {flow : Flow} {freed : List ℕ}
    (hsocket : flow.socket = (s.table.flows f).socket)
    (hfin : (s.table.flows f).FinFree → flow.FinFree) (hreq : HaveRequests flow.pairs)
    {extracted : List (Flow × Bool)} (hwalked : ∀ call ∈ extracted, Walked call) :
    InvBy roomy
      { table := { s.table with flows := update s.table.flows f flow, freed := freed }
        extracted := extracted } chain := by
  have hkeep : ∀ g, (update s.table.flows f flow g).socket = (s.table.flows g).socket := by
    intro g
    by_cases hgf : g = f
    · rw [hgf, update_self, hsocket]
    · rw [update_of_ne hgf]
  exact
    { shape := h.shape.setFlow fun _ _ => hsocket
      apart := by
        intro hroomy i g hg j g' hg' hsame
        have hsame' : SameConnection (update s.table.flows f flow g).socket
          (update s.table.flows f flow g').socket := hsame
        rw [hkeep, hkeep] at hsame'
        exact h.apart hroomy i g hg j g' hg' hsame'
      finFree := by
        intro i g hg
        show (update s.table.flows f flow g).FinFree
        by_cases hgf : g = f
        · subst hgf
          rw [update_self]
          exact hfin (h.finFree i g hg)
        · rw [update_of_ne hgf]
          exact h.finFree i g hg
      requests := by
        intro g
        show HaveRequests (update s.table.flows f flow g).pairs
        by_cases hgf : g = f
        · rw [hgf, update_self]
          exact hreq
        · rw [update_of_ne hgf]
          exact h.requests g
      walked := hwalked }

/-- The queue and the logs matter to nothing. -/
theorem logs (h : s.InvBy roomy chain) (fq deleted freed : List ℕ) :
    InvBy roomy
      { s with table := { s.table with fq := fq, deleted := deleted, freed := freed } } chain :=
  ⟨h.shape.logs fq deleted freed, h.apart, h.finFree, h.requests, h.walked⟩

variable (rspHdlen : Option (List UInt8) → UInt16 → Int) (flt : FlowFilter)

/-- `extractPair` and `extractData` on a linked flow, or on any flow when it is closed,
write the flow and nothing else of the table. -/
theorem extract (h : s.InvBy roomy chain) {f : ℕ} {closed : Bool}
    (hf : closed = true ∨ ∃ i, f ∈ chain i) :
    ∃ flows extracted, s.extract rspHdlen flt f closed =
        some { table := { s.table with flows := flows }, extracted := extracted } ∧
      InvBy roomy { table := { s.table with flows := flows }, extracted := extracted } chain := by
  have hfin : closed = true ∨ (s.table.flows f).finSeq = none := by
    rcases hf with hclosed | ⟨i, hf⟩
    · exact .inl hclosed
    · exact .inr (h.finFree i f hf).finSeq
  obtain ⟨⟨flow, ret⟩, hcall⟩ := extractPair_defined rspHdlen hfin (h.requests f)
  obtain ⟨-, -, -, -, -, -, -, hsocket, -⟩ := extractPair_spec rspHdlen hcall
  obtain ⟨horder, hsocket', -⟩ := extractData_frame flt flow
  have hextract : s.extract rspHdlen flt f closed = some
      { table := { s.table with flows := update s.table.flows f (extractData flt flow).1 }
        extracted := s.extracted ++ [(s.table.flows f, closed)] } := by
    unfold ProtocolState.extract
    rw [hcall]
    rfl
  refine ⟨_, _, hextract, ?_⟩
  apply h.write
  · rw [hsocket', hsocket]
  · intro hfree dir n hn
    rw [horder] at hn
    exact hfree.extractPair hcall dir n hn
  · exact extractData_haveRequests flt (extractPair_haveRequests rspHdlen hcall (h.requests f))
  · intro call hmem
    rcases List.mem_append.mp hmem with hmem | hmem
    · exact h.walked call hmem
    · obtain rfl := List.mem_singleton.mp hmem
      obtain ⟨st, hst, -⟩ := extractPair_walks rspHdlen hcall
      refine ⟨fun hlive => ?_, by rw [hst]; rfl⟩
      exact hfin.resolve_left (by rw [show closed = false from hlive]; decide)

/-- The walk of `flowHashProcess` from the flows `rest` of a bucket on. -/
theorem hashLoop {i : ℕ} {rest : List ℕ} {before : Option ℕ} {fuel : ℕ} (h : s.InvBy roomy chain)
    (hsub : ∀ f ∈ rest, f ∈ chain i) (hseg : Segment s.table.next s.table.prev before rest none)
    (hfuel : rest.length ≤ fuel) :
    ∃ s', ProtocolState.hashLoop rspHdlen flt fuel rest.head? s = some s' ∧
      s'.InvBy roomy chain := by
  induction rest generalizing s before fuel with
  | nil => exact ⟨s, by cases fuel <;> rfl, h⟩
  | cons f rest ih =>
      obtain ⟨fuel, rfl⟩ : ∃ n, fuel = n + 1 := ⟨fuel - 1, by simp at hfuel; omega⟩
      obtain ⟨-, hnext, hrest⟩ := hseg
      rw [Option.or_none] at hnext
      have hopen : false = true ∨ ∃ i, f ∈ chain i := .inr ⟨i, hsub f (by simp)⟩
      obtain ⟨flows, extracted, hextract, h'⟩ := h.extract rspHdlen flt hopen
      obtain ⟨s', hloop, hs'⟩ :=
        ih h' (fun g hg => hsub g (by simp [hg])) hrest (by simpa using hfuel)
      refine ⟨s', ?_, hs'⟩
      rw [List.head?_cons, ProtocolState.hashLoop, hextract, hnext]
      exact hloop

/-- `flowHashProcess` goes through all buckets. -/
theorem flowHashProcess (h : s.InvBy roomy chain) :
    ∃ s', s.flowHashProcess rspHdlen flt = some s' ∧ s'.InvBy roomy chain := by
  have hbucket : ∀ (s : ProtocolState) i, s.InvBy roomy chain → True →
      ∃ s', s.hashBucket rspHdlen flt i = some s' ∧ s'.InvBy roomy chain := by
    intro s i h _
    unfold ProtocolState.hashBucket
    rw [h.shape.first_eq]
    exact h.hashLoop rspHdlen flt (fun f hf => hf) (h.shape.segment i) (h.shape.length_le i)
  have hguard : EveryStep (ProtocolState.hashBucket rspHdlen flt) (fun _ _ => True) s
      (List.range HASH_SIZE) := fun _ _ _ _ _ => trivial
  obtain ⟨⟨s', hrun⟩, hall⟩ := everyState_defined hbucket h hguard
  exact ⟨s', hrun, hall.final hrun⟩

/-- The flow-queue thread takes a flow, processes it and deletes it. -/
theorem processFlow (h : s.InvBy roomy chain) :
    ∃ s', s.processFlow rspHdlen flt = some s' ∧ s'.InvBy roomy chain := by
  unfold ProtocolState.processFlow
  cases hfq : s.table.fq with
  | nil => exact ⟨s, rfl, h⟩
  | cons f fq =>
      have htaken := h.logs fq s.table.deleted s.table.freed
      obtain ⟨flows, extracted, hextract, h'⟩ := htaken.extract rspHdlen flt (f := f) (.inl rfl)
      refine ⟨_, by dsimp only; rw [hextract]; rfl, ?_⟩
      exact h'.logs fq (s.table.deleted ++ [f]) s.table.freed

/-- A linked flow is handed the packet. -/
theorem added (h : s.InvBy roomy chain) {i f : ℕ} (hf : f ∈ chain i) {now : Clock}
    {packet : PacketT} {src : Bool} {t' : FlowHashTable} {chain' : ℕ → List ℕ}
    (hadded : Shape.Added s.table t' chain chain' f
      ((s.table.flows f).addPacket now packet src) packet) :
    InvBy roomy { s with table := t' } chain' := by
  obtain ⟨hpairs, -, hsocket, -⟩ := Flow.addPacket_pairs (s.table.flows f) now packet src
  have hkeep : ∀ g, (t'.flows g).socket = (s.table.flows g).socket := by
    intro g
    rw [hadded.flows_eq]
    by_cases hgf : g = f
    · rw [hgf, update_self, hsocket]
    · rw [update_of_ne hgf]
  have hsub : ∀ j g, g ∈ chain' j → g ∈ chain j := fun j g hg => ((hadded.mem_iff j g).mp hg).1
  exact
    { shape := hadded.shape
      apart := by
        intro hroomy i g hg j g' hg' hsame
        have hsame' : SameConnection (t'.flows g).socket (t'.flows g').socket := hsame
        rw [hkeep, hkeep] at hsame'
        exact h.apart hroomy i g (hsub i g hg) j g' (hsub j g' hg') hsame'
      finFree := by
        intro j g hg
        show (t'.flows g).FinFree
        -- a flow that is still linked was kept
        obtain ⟨hg, hkept⟩ := (hadded.mem_chain_iff j g).mp hg
        rw [hadded.flows_eq]
        by_cases hgf : g = f
        · subst hgf
          rw [update_self]
          exact (h.finFree j g hg).addPacket (hkept rfl)
        · rw [update_of_ne hgf]
          exact h.finFree j g hg
      requests := by
        intro g
        show HaveRequests (t'.flows g).pairs
        rw [hadded.flows_eq]
        by_cases hgf : g = f
        · rw [hgf, update_self, hpairs]
          exact h.requests f
        · rw [update_of_ne hgf]
          exact h.requests g
      walked := h.walked }

/-- A flow is created, in a table with room for a connection that has none. -/
theorem created (h : s.InvBy roomy chain) {mem : Flow} {packet : PacketT} {src : Bool}
    {t' : FlowHashTable} {chain' : ℕ → List ℕ} (hno : roomy → Shape.NoFlow s.table chain packet)
    (hnew : Shape.Created s.table t' chain chain' mem (packet.flowSocket src)) :
    InvBy roomy { s with table := t' } chain' := by
  have hold : ∀ {j g}, g ∈ chain j → t'.flows g = s.table.flows g := by
    intro j g hg
    rw [hnew.flows_eq, update_of_ne (h.shape.ne_fresh hg)]
  have hfresh : t'.flows s.table.fresh = Flow.new mem (packet.flowSocket src) := by
    rw [hnew.flows_eq, update_self]
  -- no linked flow belongs to the connection of the new one
  have hother : roomy → ∀ {j g}, g ∈ chain j →
      ¬ SameConnection (s.table.flows g).socket (packet.flowSocket src) := by
    intro hroomy j g hg hsame
    obtain ⟨hfwd, hrev⟩ := hno hroomy j g hg
    rcases hsame.trans (packet.flowSocket_sameConnection src) with heq | heq
    · exact hfwd heq
    · exact hrev heq
  exact
    { shape := hnew.shape
      apart := by
        intro hroomy i g hg j g' hg' hsame
        have hsame' : SameConnection (t'.flows g).socket (t'.flows g').socket := hsame
        rcases hnew.mem_chain i g hg with hg | ⟨rfl, -⟩ <;>
          rcases hnew.mem_chain j g' hg' with hg' | ⟨rfl, -⟩
        · rw [hold hg, hold hg'] at hsame'
          exact h.apart hroomy i g hg j g' hg' hsame'
        · rw [hold hg, hfresh] at hsame'
          exact absurd hsame' (hother hroomy hg)
        · rw [hold hg', hfresh] at hsame'
          exact absurd hsame'.symm (hother hroomy hg')
        · rfl
      finFree := by
        intro j g hg
        show (t'.flows g).FinFree
        rcases hnew.mem_chain j g hg with hg | ⟨rfl, -⟩
        · rw [hold hg]
          exact h.finFree j g hg
        · rw [hfresh]
          exact Flow.finFree_new mem _
      requests := by
        intro g
        show HaveRequests (t'.flows g).pairs
        rw [hnew.flows_eq]
        by_cases hg : g = s.table.fresh
        · rw [hg, update_self]
          exact fun p hp => absurd hp List.not_mem_nil
        · rw [update_of_ne hg]
          exact h.requests g
      walked := h.walked }

/-- `add_packet`. -/
theorem addPacket (h : s.InvBy roomy chain) (hroomy : roomy → s.table.Roomy) (mem : Flow)
    (now : Clock) (packet : PacketT) :
    ∃ t' chain', s.table.addPacket mem now packet = some t' ∧
      InvBy roomy { s with table := t' } chain' := by
  rcases h.shape.addPacket_cases mem now packet with
    ⟨i, f, src, t', chain', hf, -, -, hadd, hadded⟩ |
    ⟨hno, src, t₁, chain₁, t', chain', -, hnew, hadd, hadded⟩ | ⟨-, -, -, hadd⟩
  · exact ⟨t', chain', hadd, h.added hf hadded⟩
  · have hcreated := h.created (fun hr => hno (hroomy hr)) hnew
    have hflow : t₁.flows s.table.fresh = Flow.new mem (packet.flowSocket src) := by
      rw [hnew.flows_eq, update_self]
    rw [← hflow] at hadded
    exact ⟨t', chain', hadd, hcreated.added hnew.linked hadded⟩
  · exact ⟨_, chain, hadd, h.logs s.table.fq s.table.deleted _⟩

/-- `flow_scrubber`. -/
theorem flowScrubber (h : s.InvBy roomy chain) (now : ℕ → Int) (timeout : Int) :
    ∃ t' chain' num, s.table.flowScrubber now timeout = some (t', num) ∧
      InvBy roomy { s with table := t' } chain' := by
  obtain ⟨t', hscrub, hs⟩ := h.shape.flowScrubber_eq now timeout
  refine ⟨t', fun j => s.table.spared now timeout (chain j), _, hscrub, ?_⟩
  have hsub : ∀ j g, g ∈ s.table.spared now timeout (chain j) →
      g ∈ chain j ∧ t'.flows g = s.table.flows g := by
    intro j g hg
    obtain ⟨hg, hout⟩ := (hs.mem_iff j g).mp hg
    exact ⟨hg, by rw [hs.flows_eq, if_neg hout]⟩
  exact
    { shape := hs.shape
      apart := by
        intro hroomy i g hg j g' hg' hsame
        have hsame' : SameConnection (t'.flows g).socket (t'.flows g').socket := hsame
        rw [(hsub i g hg).2, (hsub j g' hg').2] at hsame'
        exact h.apart hroomy i g (hsub i g hg).1 j g' (hsub j g' hg').1 hsame'
      finFree := by
        intro j g hg
        show (t'.flows g).FinFree
        rw [(hsub j g hg).2]
        exact h.finFree j g (hsub j g hg).1
      requests := by
        intro g
        show HaveRequests (t'.flows g).pairs
        rw [hs.flows_eq]
        split <;> exact h.requests g
      walked := h.walked }

/-- Every call has a result and keeps the invariant. -/
theorem step (h : s.InvBy roomy chain) (hroomy : roomy → s.table.Roomy) (c : ProtocolCall) :
    ∃ s' chain', s.step rspHdlen flt c = some s' ∧ s'.InvBy roomy chain' := by
  cases c with
  | addPacket mem now packet =>
      obtain ⟨t', chain', hadd, h'⟩ := h.addPacket hroomy mem now packet
      exact ⟨_, chain', congrArg (Option.map _) hadd, h'⟩
  | flowScrubber now timeout =>
      obtain ⟨t', chain', num, hscrub, h'⟩ := h.flowScrubber now timeout
      exact ⟨_, chain', by simp only [ProtocolState.step, hscrub, Option.map_some], h'⟩
  | flowHashProcess =>
      obtain ⟨s', hprocess, h'⟩ := h.flowHashProcess rspHdlen flt
      exact ⟨s', chain, hprocess, h'⟩
  | processFlow =>
      obtain ⟨s', hprocess, h'⟩ := h.processFlow rspHdlen flt
      exact ⟨s', chain, hprocess, h'⟩

end InvBy

section Runs

variable (roomy : Prop) (rspHdlen : Option (List UInt8) → UInt16 → Int) (flt : FlowFilter)
  (calls : List ProtocolCall)

/-- Every run goes through, with the invariant in every state. -/
theorem run_invBy
    (hroomy : roomy → EveryState (step rspHdlen flt) (fun s => s.table.Roomy) start calls) :
    (∃ s, run (step rspHdlen flt) start calls = some s) ∧
      EveryState (step rspHdlen flt) (fun s => ∃ chain, s.InvBy roomy chain) start calls := by
  have hstep : ∀ s c, (∃ chain, InvBy roomy s chain) → (roomy → s.table.Roomy) →
      ∃ s', step rspHdlen flt s c = some s' ∧ ∃ chain, s'.InvBy roomy chain := by
    intro s c ⟨chain, h⟩ hr
    obtain ⟨s', chain', hs', h'⟩ := h.step rspHdlen flt hr c
    exact ⟨s', hs', chain', h'⟩
  exact everyState_defined (G := fun s _ => roomy → s.table.Roomy) hstep ⟨_, invBy_start⟩
    fun before c hbefore s hrun hr => (hroomy hr).everyStep before c hbefore s hrun

/-- A run that creates few flows leaves the table room. -/
theorem roomy_of_few
    (hfew : EveryState (step rspHdlen flt) (fun s => s.table.fresh < 2 ^ 31) start calls) :
    EveryState (step rspHdlen flt) (fun s => s.table.Roomy) start calls := by
  obtain ⟨-, hinv⟩ := run_invBy False rspHdlen flt calls False.elim
  intro before hbefore s hrun
  obtain ⟨chain, h⟩ := hinv before hbefore s hrun
  exact h.shape.roomy_of_fresh (hfew before hbefore s hrun)

end Runs

end ProtocolState

/-! ## One flow per connection -/

namespace FlowHashTable

/-- `f` is a flow of the table whose socket is `s` or the other direction of `s`. -/
def OfConnection (t : FlowHashTable) (s : FlowS) (f : ℕ) : Prop :=
  (∃ i, f ∈ t.bucket i) ∧ SameConnection (t.flows f).socket s

/-- A connection has at most one flow, and `add_packet` keeps it so.  A packet goes to
the flow of its connection, as one of the source exactly if the flow has the packet's
own socket; where there is no flow, the packet of a request or a response makes one,
which is linked unless that packet ends it; any other packet is freed. -/
structure OneFlowPerConnection (t : FlowHashTable) : Prop where
  unique : ∀ s f g, t.OfConnection s f → t.OfConnection s g → f = g
  delivered : ∀ mem now packet f, t.OfConnection packet.socket f →
    ∃ src t', t.addPacket mem now packet = some t' ∧
      t.flowAddPacket f now packet src = some t' ∧
      (packet.socket ≠ packet.socket.flip → (src = true ↔ (t.flows f).socket = packet.socket))
  created : ∀ mem now packet, (∀ f, ¬ t.OfConnection packet.socket f) →
    packet.type = REQ ∨ packet.type = RSP →
    ∃ t', t.addPacket mem now packet = some t' ∧ t'.fresh = t.fresh + 1 ∧
      (∀ i f, f ≠ t.fresh → (f ∈ t'.bucket i ↔ f ∈ t.bucket i) ∧ t'.flows f = t.flows f) ∧
      let src := decide (packet.type = REQ)
      let r := (Flow.new mem (packet.flowSocket src)).addPacket now packet src
      t'.flows t.fresh = r.flow ∧ ((∃ i, t.fresh ∈ t'.bucket i) ↔ r.verdict = .keep)
  ignored : ∀ mem now packet, (∀ f, ¬ t.OfConnection packet.socket f) →
    packet.type ≠ REQ → packet.type ≠ RSP →
    t.addPacket mem now packet = some { t with freed := t.freed ++ [packet.addr] }

end FlowHashTable

namespace Shape

variable {t : FlowHashTable} {chain : ℕ → List ℕ}

/-- The linked flows have other sockets, when none is of the packet's connection. -/
theorem socket_ne_flowSocket (h : Shape t chain) {packet : PacketT}
    (hnone : ∀ f, ¬ t.OfConnection packet.socket f) {i f : ℕ} (hf : f ∈ chain i) (src : Bool) :
    (t.flows f).socket ≠ packet.flowSocket src := by
  intro heq
  refine hnone f ⟨⟨i, (h.bucket_eq i).symm ▸ hf⟩, ?_⟩
  rw [heq]
  exact packet.flowSocket_sameConnection src

/-- Without a flow of the connection, a request or a response makes one. -/
theorem addPacket_creates (h : Shape t chain) (hroomy : t.Roomy) (mem : Flow) (now : Clock)
    {packet : PacketT} (hnone : ∀ f, ¬ t.OfConnection packet.socket f)
    (htype : packet.type = REQ ∨ packet.type = RSP) :
    ∃ t', t.addPacket mem now packet = some t' ∧ t'.fresh = t.fresh + 1 ∧
      (∀ i f, f ≠ t.fresh → (f ∈ t'.bucket i ↔ f ∈ t.bucket i) ∧ t'.flows f = t.flows f) ∧
      let src := decide (packet.type = REQ)
      let r := (Flow.new mem (packet.flowSocket src)).addPacket now packet src
      t'.flows t.fresh = r.flow ∧ ((∃ i, t.fresh ∈ t'.bucket i) ↔ r.verdict = .keep) := by
  have hbucket : t.bucket = chain := funext h.bucket_eq
  rcases h.addPacket_cases mem now packet with
    ⟨i, f, src, -, -, hf, hsocket, -⟩ |
    ⟨-, src, t₁, chain₁, t', chain', hsrc, hnew, hadd, hadded⟩ | ⟨-, hreq, hrsp, -⟩
  · exact absurd hsocket (h.socket_ne_flowSocket hnone hf src)
  · obtain rfl : src = decide (packet.type = REQ) := by
      cases src with
      | true => simpa using hsrc
      | false =>
          have hne : packet.type ≠ REQ := by
            rw [hsrc]
            decide
          simp [hne]
    have hbucket' : t'.bucket = chain' := funext hadded.shape.bucket_eq
    refine ⟨t', hadd, hadded.fresh_eq.trans hnew.fresh_eq, ?_, ?_, ?_⟩
    · intro i f hf
      rw [hbucket, hbucket', hadded.mem_chain_iff, hnew.mem_iff hroomy, hadded.flows_eq,
        update_of_ne hf, hnew.flows_eq, update_of_ne hf]
      refine ⟨?_, rfl⟩
      constructor
      · rintro ⟨hmem | ⟨rfl, -⟩, -⟩
        · exact hmem
        · exact absurd rfl hf
      · exact fun hmem => ⟨.inl hmem, fun heq => absurd heq hf⟩
    · rw [hadded.flows_eq, update_self]
    · rw [hbucket']
      constructor
      · rintro ⟨i, hi⟩
        exact ((hadded.mem_chain_iff i _).mp hi).2 rfl
      · intro hkeep
        exact ⟨_, (hadded.mem_chain_iff _ _).mpr ⟨hnew.linked, fun _ => hkeep⟩⟩
  · exact absurd htype (not_or.mpr ⟨hreq, hrsp⟩)

/-- Without a flow of the connection, any other packet is freed. -/
theorem addPacket_ignores (h : Shape t chain) (mem : Flow) (now : Clock) {packet : PacketT}
    (hnone : ∀ f, ¬ t.OfConnection packet.socket f) (hreq : packet.type ≠ REQ)
    (hrsp : packet.type ≠ RSP) :
    t.addPacket mem now packet = some { t with freed := t.freed ++ [packet.addr] } := by
  rcases h.addPacket_cases mem now packet with
    ⟨i, f, src, -, -, hf, hsocket, -⟩ | ⟨-, src, -, -, -, -, hsrc, -⟩ | ⟨-, -, -, hadd⟩
  · exact absurd hsocket (h.socket_ne_flowSocket hnone hf src)
  · cases src with
    | true => exact absurd hsrc hreq
    | false => exact absurd hsrc hrsp
  · exact hadd

end Shape

namespace ProtocolState.InvBy

variable {s : ProtocolState} {chain : ℕ → List ℕ}

/-- The flow of the packet's connection takes it. -/
theorem delivers (h : s.InvBy True chain) (hroomy : s.table.Roomy) (mem : Flow) (now : Clock)
    {packet : PacketT} {g : ℕ} (hg : s.table.OfConnection packet.socket g) :
    ∃ src t', s.table.addPacket mem now packet = some t' ∧
      s.table.flowAddPacket g now packet src = some t' ∧
      (packet.socket ≠ packet.socket.flip →
        (src = true ↔ (s.table.flows g).socket = packet.socket)) := by
  obtain ⟨⟨j, hg⟩, hgs⟩ := hg
  rw [h.shape.bucket_eq] at hg
  rcases h.shape.addPacket_cases mem now packet with
    ⟨i, f, src, t', chain', hf, hsocket, hadd', hadd, -⟩ | ⟨hno, -⟩ | ⟨hno, -⟩
  · -- the flow that was found is the one of the connection
    obtain rfl : f = g := by
      apply h.apart trivial i f hf j g hg
      rw [hsocket]
      exact (packet.flowSocket_sameConnection src).trans hgs.symm
    refine ⟨src, t', hadd, hadd', fun hne => ?_⟩
    rw [hsocket]
    cases src with
    | true => simp [PacketT.flowSocket]
    | false => simpa [PacketT.flowSocket] using hne.symm
  · exact absurd hgs (not_or.mpr (hno hroomy j g hg))
  · exact absurd hgs (not_or.mpr (hno hroomy j g hg))

theorem oneFlowPerConnection (h : s.InvBy True chain) (hroomy : s.table.Roomy) :
    s.table.OneFlowPerConnection where
  unique := by
    intro s' f g ⟨⟨i, hf⟩, hfs⟩ ⟨⟨j, hg⟩, hgs⟩
    rw [h.shape.bucket_eq] at hf hg
    exact h.apart trivial i f hf j g hg (hfs.trans hgs.symm)
  delivered mem now _ _ hg := h.delivers hroomy mem now hg
  created mem now _ hnone htype := h.shape.addPacket_creates hroomy mem now hnone htype
  ignored mem now _ hnone hreq hrsp := h.shape.addPacket_ignores mem now hnone hreq hrsp

end ProtocolState.InvBy

/-- **One flow per connection.**  Every sequence of calls in which no bucket ever gets too full
for its counter goes through, and in every state it reaches a connection has at most one flow,
to which `add_packet` delivers the connection's packets. -/
theorem one_flow_per_connection (rspHdlen : Option (List UInt8) → UInt16 → Int)
    (flt : FlowFilter) (calls : List ProtocolCall)
    (hroomy : EveryState (ProtocolState.step rspHdlen flt) (fun s => s.table.Roomy) .start calls) :
    (∃ s, run (ProtocolState.step rspHdlen flt) .start calls = some s) ∧
      EveryState (ProtocolState.step rspHdlen flt) (fun s => s.table.OneFlowPerConnection)
        .start calls := by
  obtain ⟨hdefined, hinv⟩ :=
    ProtocolState.run_invBy True rspHdlen flt calls fun _ => hroomy
  refine ⟨hdefined, fun before hbefore s hrun => ?_⟩
  obtain ⟨chain, h⟩ := hinv before hbefore s hrun
  exact h.oneFlowPerConnection (hroomy before hbefore s hrun)

/-- Two connections with their flows in one bucket, of which the second is closed by a FIN and
processed, and opened again by a response. -/
def neighbourCalls : List ProtocolCall :=
  [.addPacket Flow.zero ⟨1, 0⟩ (crowdPacket 0), .addPacket Flow.zero ⟨2, 0⟩ (crowdPacket 1),
    .addPacket Flow.zero ⟨3, 0⟩ { crowdPacket 1 with tcpFlags := TH_FIN }, .processFlow,
    .addPacket Flow.zero ⟨4, 0⟩ { crowdPacket 1 with type := RSP }]

theorem one_flow_per_connection_neighbours :
    (∃ s, run (ProtocolState.step (fun _ _ => 0) noFilter) .start neighbourCalls = some s) ∧
      EveryState (ProtocolState.step (fun _ _ => 0) noFilter)
        (fun s => s.table.OneFlowPerConnection) .start neighbourCalls :=
  one_flow_per_connection _ _ _ (ProtocolState.roomy_of_few _ _ _ (by decide +kernel))

/-- A table with a full bucket delivers no packet of the flows in it. -/
theorem Crowded.not_oneFlowPerConnection {t : FlowHashTable} {chain : ℕ → List ℕ}
    (h : Crowded t (2 ^ 31) chain) : ¬ t.OneFlowPerConnection := by
  intro hone
  have hpos : 0 < 2 ^ 31 := Nat.two_pow_pos 31
  have hlinked := h.linked 0 hpos
  have hof : t.OfConnection (crowdPacket 0).socket 0 :=
    ⟨⟨crowdBucket, (h.shape.bucket_eq _).symm ▸ hlinked⟩, .inl (h.socket_eq 0 hpos)⟩
  obtain ⟨src, t', hadd, hdelivered, -⟩ := hone.delivered Flow.zero ⟨0, 0⟩ (crowdPacket 0) 0 hof
  -- the flow that takes the packet is no new one, but `add_packet` creates one
  obtain ⟨t₁, chain₁, hdelivered₁, hadded₁⟩ :=
    h.shape.flowAddPacket_eq hlinked ⟨0, 0⟩ (crowdPacket 0) src
  have ht₁ : t₁ = t' := Option.some.inj (hdelivered₁.symm.trans hdelivered)
  have hrev : t.find (crowdPacket 0).socket.flip = some none := h.find_flip 0
  have hfwd : t.find (crowdPacket 0).socket = some none := h.find_none 0
  rcases h.shape.addPacket_of_missed hrev hfwd Flow.zero ⟨0, 0⟩ with
    ⟨_, t₂, _, t₃, _, -, hnew, hadd₃, hadded₃⟩ | ⟨htype, -⟩
  · have ht₃ : t₃ = t' := Option.some.inj (hadd₃.symm.trans hadd)
    have hfresh := hadded₃.fresh_eq
    rw [hnew.fresh_eq, ht₃, ← ht₁, hadded₁.fresh_eq] at hfresh
    exact Nat.succ_ne_self _ hfresh.symm
  · exact htype rfl

/-- The first packets of 2^31 connections fill a bucket; the next packet of the first of them
is not delivered to its flow, but makes another one. -/
theorem crowd_makes_second_flow :
    ¬ ∀ (rspHdlen : Option (List UInt8) → UInt16 → Int) (flt : FlowFilter)
      (calls : List ProtocolCall),
      (∃ s, run (ProtocolState.step rspHdlen flt) .start calls = some s) ∧
        EveryState (ProtocolState.step rspHdlen flt) (fun s => s.table.OneFlowPerConnection)
          .start calls := by
  intro hall
  obtain ⟨s, chain, hrun, hfull⟩ := @run_crowd _ _ (ProtocolState.step (fun _ _ => 0) noFilter)
    ProtocolState.table (fun i => .addPacket Flow.zero ⟨0, 0⟩ (crowdPacket i))
    (fun s i t' hadd => ⟨{ s with table := t' }, congrArg (Option.map _) hadd, rfl⟩)
    .start rfl _ le_rfl
  exact hfull.not_oneFlowPerConnection ((hall _ _ _).2.final hrun)

/-! ## Live flows have no FIN node -/

/-- No linked flow has a FIN node, and all calls of `extractPair` got through their
request walks, those on live flows without a FIN node. -/
structure LiveFinFree (s : ProtocolState) : Prop where
  finFree : ∀ i, ∀ f ∈ s.table.bucket i, (s.table.flows f).FinFree
  walked : ∀ call ∈ s.extracted, Walked call

/-- **No live flow contains a FIN.**  Every sequence of calls goes through: no call of
`extractPair` meets a null pointer, in particular none compares the time of a missing
node with that of a FIN node.  In every state reached no node of a linked flow has the
FIN flag, and all calls of `extractPair(flow, false)` found no FIN node. -/
theorem live_flows_fin_free (rspHdlen : Option (List UInt8) → UInt16 → Int)
    (flt : FlowFilter) (calls : List ProtocolCall) :
    (∃ s, run (ProtocolState.step rspHdlen flt) .start calls = some s) ∧
      EveryState (ProtocolState.step rspHdlen flt) LiveFinFree .start calls := by
  obtain ⟨hdefined, hinv⟩ := ProtocolState.run_invBy False rspHdlen flt calls False.elim
  refine ⟨hdefined, fun before hbefore s hrun => ?_⟩
  obtain ⟨chain, h⟩ := hinv before hbefore s hrun
  have hbucket : s.table.bucket = chain := funext h.shape.bucket_eq
  exact ⟨by rw [hbucket]; exact h.finFree, h.walked⟩

end MonitoringTool.Sniffer
