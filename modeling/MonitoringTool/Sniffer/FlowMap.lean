import MonitoringTool.Sniffer.FlowHashTable

/-!
# What the flow hash table is for

To its users the table is a map from sockets to flows, with the sequence of the
flows it has finished.  `FlowMap` is that map, and `FlowMap.addPacket` says what a
packet does to it; it has no buckets, no pointers and no order among the flows.

`Represents t m` relates the table to the map: the sockets of the linked flows are
distinct, the map holds exactly the linked flows, and the flows on the queue are
no longer linked.  `addPacket_represents` is the refinement: in a table with room
`add_packet` has a result, and it represents the map's.
-/

namespace MonitoringTool.Sniffer

open Lib Function

/-! ## The map -/

/-- The flows in the table by their sockets, and the flows that were enqueued. -/
structure FlowMap where
  flowAt : FlowS → Option Flow
  queue : List Flow

namespace FlowMap

/-- No flows. -/
def empty : FlowMap := { flowAt := fun _ => none, queue := [] }

/-- Write what is kept under a socket. -/
def set (m : FlowMap) (s : FlowS) (flow : Option Flow) : FlowMap :=
  { m with flowAt := update m.flowAt s flow }

/-- Write the result of `Flow::add_packet` under a socket. -/
def put (m : FlowMap) (s : FlowS) (r : AddResult) : FlowMap :=
  match r.verdict with
  | .keep => m.set s (some r.flow)
  | .drop => m.set s none
  | .finish => { m.set s none with queue := m.queue ++ [r.flow] }

/-- What a packet does: it goes to the flow it answers, else to the flow it
continues, else, if it begins a request or a response, to a new flow. -/
def addPacket (m : FlowMap) (mem : Flow) (now : Clock) (packet : PacketT) : FlowMap :=
  let fwd := packet.socket
  let rev := packet.socket.flip
  match m.flowAt rev, m.flowAt fwd with
  | some f, _ => m.put rev (f.addPacket now packet false)
  | none, some f => m.put fwd (f.addPacket now packet true)
  | none, none =>
      if packet.type = REQ then m.put fwd ((Flow.new mem fwd).addPacket now packet true)
      else if packet.type = RSP then m.put rev ((Flow.new mem rev).addPacket now packet false)
      else m

/-- What is written under a socket last counts. -/
@[simp] theorem set_set (m : FlowMap) (s : FlowS) (x y : Option Flow) :
    (m.set s x).set s y = m.set s y := by
  simp [set]

@[simp] theorem put_set (m : FlowMap) (s : FlowS) (x : Option Flow) (r : AddResult) :
    (m.set s x).put s r = m.put s r := by
  cases hv : r.verdict <;> simp [put, hv, set]

end FlowMap

/-! ## The table represents the map -/

/-- The table with the lists `chain` holds the flows of the map. -/
structure RepresentsBy (t : FlowHashTable) (m : FlowMap) (chain : ℕ → List ℕ) : Prop where
  shape : Shape t chain
  unique : ∀ i, ∀ f ∈ chain i, ∀ g ∈ chain i, (t.flows f).socket = (t.flows g).socket → f = g
  flowAt_iff : ∀ s x,
    m.flowAt s = some x ↔ ∃ f ∈ chain (hashFlow s), (t.flows f).socket = s ∧ t.flows f = x
  gone : ∀ f ∈ t.fq, f < t.fresh ∧ ∀ i, f ∉ chain i
  queue_eq : t.fq.map t.flows = m.queue

/-- The table holds the flows of the map. -/
def Represents (t : FlowHashTable) (m : FlowMap) : Prop := ∃ chain, RepresentsBy t m chain

theorem new_represents : Represents .new .empty := by
  refine ⟨fun _ => [], ?_⟩
  exact
    { shape := Shape.new
      unique := by simp
      flowAt_iff := by simp [FlowMap.empty]
      gone := by simp [FlowHashTable.new]
      queue_eq := rfl }

namespace RepresentsBy

variable {t : FlowHashTable} {m : FlowMap} {chain : ℕ → List ℕ}

/-- A linked flow is in the bucket of its socket. -/
theorem mem_bucket (h : RepresentsBy t m chain) {i f : ℕ} (hf : f ∈ chain i) :
    f ∈ chain (hashFlow (t.flows f).socket) := by
  rwa [h.shape.socket_hash i f hf]

/-- The map holds a linked flow under its socket. -/
theorem flowAt_socket (h : RepresentsBy t m chain) {i f : ℕ} (hf : f ∈ chain i) :
    m.flowAt (t.flows f).socket = some (t.flows f) :=
  (h.flowAt_iff _ _).mpr ⟨f, h.mem_bucket hf, rfl, rfl⟩

/-- In a table with room `find` answers what the map holds. -/
theorem find_eq (h : RepresentsBy t m chain) (hroomy : t.Roomy) (s : FlowS) :
    (∃ f ∈ chain (hashFlow s), t.find s = some (some f) ∧ (t.flows f).socket = s ∧
        m.flowAt s = some (t.flows f)) ∨
      (t.find s = some none ∧ m.flowAt s = none) := by
  rw [h.shape.find_of_roomy hroomy s]
  cases hfind : (chain (hashFlow s)).find? fun f => (t.flows f).socket = s with
  | some f =>
      have hmem : f ∈ chain (hashFlow s) := List.mem_of_find?_eq_some hfind
      have hsocket : (t.flows f).socket = s := by simpa using List.find?_some hfind
      exact .inl ⟨f, hmem, rfl, hsocket, hsocket ▸ h.flowAt_socket hmem⟩
  | none =>
      refine .inr ⟨rfl, ?_⟩
      cases hat : m.flowAt s with
      | none => rfl
      | some x =>
          obtain ⟨f, hf, hsocket, -⟩ := (h.flowAt_iff s x).mp hat
          have hnot := List.find?_eq_none.mp hfind f hf
          simp [hsocket] at hnot

/-- Two linked flows with one socket are one flow. -/
theorem eq_of_socket (h : RepresentsBy t m chain) {i j f g : ℕ} (hf : f ∈ chain i)
    (hg : g ∈ chain j) (heq : (t.flows g).socket = (t.flows f).socket) : g = f := by
  have hf' := h.mem_bucket hf
  have hg' := h.mem_bucket hg
  rw [heq] at hg'
  exact h.unique _ g hg' f hf' heq

/-- Writing a linked flow that keeps its socket writes it in the map. -/
theorem write (h : RepresentsBy t m chain) {i f : ℕ} {flow : Flow} {freed : List ℕ}
    (hf : f ∈ chain i) (hsocket : flow.socket = (t.flows f).socket) :
    RepresentsBy { t with flows := update t.flows f flow, freed := freed }
      (m.set (t.flows f).socket (some flow)) chain := by
  have hkeep : ∀ g, (update t.flows f flow g).socket = (t.flows g).socket := by
    intro g
    by_cases hgf : g = f
    · rw [hgf, update_self, hsocket]
    · rw [update_of_ne hgf]
  exact
    { shape := h.shape.setFlow fun _ _ => hsocket
      unique := by
        intro j g hg g' hg' heq
        exact h.unique j g hg g' hg' (by rwa [hkeep, hkeep] at heq)
      flowAt_iff := by
        intro s x
        show update m.flowAt (t.flows f).socket (some flow) s = some x ↔
          ∃ g ∈ chain (hashFlow s), (update t.flows f flow g).socket = s ∧
            update t.flows f flow g = x
        by_cases hs : s = (t.flows f).socket
        · subst hs
          rw [update_self]
          constructor
          · intro hx
            refine ⟨f, h.mem_bucket hf, hkeep f, ?_⟩
            rw [update_self]
            exact Option.some.inj hx
          · rintro ⟨g, hg, hgs, hgx⟩
            rw [hkeep] at hgs
            obtain rfl := h.eq_of_socket hf hg hgs
            rw [update_self] at hgx
            rw [hgx]
        · rw [update_of_ne hs, h.flowAt_iff]
          apply exists_congr
          intro g
          apply and_congr_right
          intro _
          rw [hkeep]
          apply and_congr_right
          intro hgs
          have hgf : g ≠ f := fun heq => hs (by rw [← hgs, heq])
          rw [update_of_ne hgf]
      gone := h.gone
      queue_eq := by
        show t.fq.map (update t.flows f flow) = m.queue
        rw [← h.queue_eq]
        apply List.map_congr_left
        intro g hg
        have hgf : g ≠ f := by
          rintro rfl
          exact (h.gone g hg).2 i hf
        exact update_of_ne hgf _ _ }

/-- Removing a linked flow forgets its socket. -/
theorem unlink (h : RepresentsBy t m chain) {i f : ℕ} (hf : f ∈ chain i) :
    ∃ t' chain', t.remove f = some t' ∧ t'.flows = t.flows ∧ t'.fq = t.fq ∧
      RepresentsBy t' (m.set (t.flows f).socket none) chain' ∧
      f < t'.fresh ∧ ∀ j, f ∉ chain' j := by
  obtain ⟨t', chain', hrem, hshape, hmem, hflows, hfq, hfresh, -⟩ := h.shape.remove_eq hf
  have hlt : f < t'.fresh := hfresh ▸ h.shape.lt_fresh i f hf
  refine ⟨t', chain', hrem, hflows, hfq, ?_, hlt, fun j hfj => ((hmem j f).mp hfj).2 rfl⟩
  exact
    { shape := hshape
      unique := by
        intro j g hg g' hg' heq
        rw [hflows] at heq
        exact h.unique j g ((hmem j g).mp hg).1 g' ((hmem j g').mp hg').1 heq
      flowAt_iff := by
        intro s x
        show update m.flowAt (t.flows f).socket none s = some x ↔ _
        rw [hflows]
        by_cases hs : s = (t.flows f).socket
        · subst hs
          rw [update_self]
          constructor
          · intro hx
            cases hx
          · rintro ⟨g, hg, hgs, -⟩
            obtain ⟨hg, hgf⟩ := (hmem _ g).mp hg
            exact absurd (h.eq_of_socket hf hg hgs) hgf
        · rw [update_of_ne hs, h.flowAt_iff]
          apply exists_congr
          intro g
          rw [hmem, and_assoc]
          apply and_congr_right
          intro _
          constructor
          · rintro ⟨hgs, hgx⟩
            exact ⟨fun heq => hs (by rw [← hgs, heq]), hgs, hgx⟩
          · rintro ⟨-, hgs, hgx⟩
            exact ⟨hgs, hgx⟩
      gone := by
        rw [hfq, hfresh]
        intro g hg
        obtain ⟨hlt, hnot⟩ := h.gone g hg
        exact ⟨hlt, fun j hgj => hnot j ((hmem j g).mp hgj).1⟩
      queue_eq := by
        rw [hfq, hflows]
        exact h.queue_eq }

/-- A socket that the map does not have is that of no linked flow. -/
theorem socket_ne (h : RepresentsBy t m chain) {s : FlowS} (hs : m.flowAt s = none) {j g : ℕ}
    (hg : g ∈ chain j) : (t.flows g).socket ≠ s := by
  intro heq
  have hat := h.flowAt_socket hg
  rw [heq, hs] at hat
  cases hat

/-- A linked flow after a new one was created: the new one, or one that was there. -/
theorem flow_created {t' : FlowHashTable} {chain' : ℕ → List ℕ} {mem : Flow} {s : FlowS}
    (h : RepresentsBy t m chain) (hnew : Shape.Created t t' chain chain' mem s) {j g : ℕ}
    (hg : g ∈ chain' j) :
    (g ∈ chain j ∧ t'.flows g = t.flows g) ∨ (g = t.fresh ∧ t'.flows g = Flow.new mem s) := by
  rw [hnew.flows_eq]
  rcases hnew.mem_chain j g hg with hg | ⟨rfl, -⟩
  · exact .inl ⟨hg, update_of_ne (h.shape.ne_fresh hg) _ _⟩
  · exact .inr ⟨rfl, update_self _ _ _⟩

/-- The map gets the flow under its socket. -/
theorem flowAt_created {t' : FlowHashTable} {chain' : ℕ → List ℕ} {mem : Flow} {s : FlowS}
    (h : RepresentsBy t m chain) (hroomy : t.Roomy) (hs : m.flowAt s = none)
    (hnew : Shape.Created t t' chain chain' mem s) (s' : FlowS) (x : Flow) :
    update m.flowAt s (some (Flow.new mem s)) s' = some x ↔
      ∃ g ∈ chain' (hashFlow s'), (t'.flows g).socket = s' ∧ t'.flows g = x := by
  by_cases hss : s' = s
  · subst hss
    rw [update_self, Option.some.injEq]
    constructor
    · rintro rfl
      refine ⟨t.fresh, hnew.linked, ?_⟩
      rw [hnew.flows_eq, update_self]
      exact ⟨rfl, rfl⟩
    · rintro ⟨g, hg, hgs, rfl⟩
      rcases h.flow_created hnew hg with ⟨hg, hold⟩ | ⟨-, hflow⟩
      · rw [hold] at hgs
        exact absurd hgs (h.socket_ne hs hg)
      · exact hflow.symm
  · rw [update_of_ne hss, h.flowAt_iff]
    constructor
    · rintro ⟨g, hg, hgs, hgx⟩
      refine ⟨g, (hnew.mem_iff hroomy _ g).mpr (.inl hg), ?_⟩
      rw [hnew.flows_eq, update_of_ne (h.shape.ne_fresh hg)]
      exact ⟨hgs, hgx⟩
    · rintro ⟨g, hg, hgs, hgx⟩
      rcases h.flow_created hnew hg with ⟨hg, hold⟩ | ⟨-, hflow⟩
      · rw [hold] at hgs hgx
        exact ⟨g, hg, hgs, hgx⟩
      · rw [hflow, Flow.new_socket] at hgs
        exact absurd hgs.symm hss

/-- A new flow of a socket that has none. -/
theorem create (h : RepresentsBy t m chain) (hroomy : t.Roomy) (mem : Flow) {s : FlowS}
    (hs : m.flowAt s = none) :
    ∃ t' chain', t.create mem s = some (t', t.fresh) ∧
      RepresentsBy t' (m.set s (some (Flow.new mem s))) chain' ∧
      t'.flows t.fresh = Flow.new mem s ∧ t.fresh ∈ chain' (hashFlow s) := by
  obtain ⟨t', chain', hcreate, hnew⟩ := h.shape.create_created mem s
  refine ⟨t', chain', hcreate, ?_, by rw [hnew.flows_eq, update_self], hnew.linked⟩
  exact
    { shape := hnew.shape
      unique := by
        intro j g hg g' hg' heq
        rcases h.flow_created hnew hg with ⟨hg, hflow⟩ | ⟨rfl, hflow⟩ <;>
          rcases h.flow_created hnew hg' with ⟨hg', hflow'⟩ | ⟨rfl, hflow'⟩
        · rw [hflow, hflow'] at heq
          exact h.unique j g hg g' hg' heq
        · rw [hflow, hflow'] at heq
          exact absurd heq (h.socket_ne hs hg)
        · rw [hflow, hflow'] at heq
          exact absurd heq.symm (h.socket_ne hs hg')
        · rfl
      flowAt_iff := h.flowAt_created hroomy hs hnew
      gone := by
        intro g hg
        rw [hnew.fq_eq] at hg
        obtain ⟨hlt, hnot⟩ := h.gone g hg
        refine ⟨hnew.fresh_eq ▸ Nat.lt_succ_of_lt hlt, fun j hgj => ?_⟩
        rcases hnew.mem_chain j g hgj with hgj | ⟨rfl, -⟩
        · exact hnot j hgj
        · exact Nat.lt_irrefl _ hlt
      queue_eq := by
        rw [hnew.fq_eq, hnew.flows_eq, ← show t.fq.map t.flows = (m.set s _).queue from h.queue_eq]
        apply List.map_congr_left
        intro g hg
        exact update_of_ne (Nat.ne_of_lt (h.gone g hg).1) _ _ }

/-- The logs are no part of what the table represents. -/
theorem logs (h : RepresentsBy t m chain) (deleted freed : List ℕ) :
    RepresentsBy { t with deleted := deleted, freed := freed } m chain where
  shape := h.shape.logs t.fq deleted freed
  unique := h.unique
  flowAt_iff := h.flowAt_iff
  gone := h.gone
  queue_eq := h.queue_eq

/-- A flow that is no longer linked goes on the queue. -/
theorem enqueue (h : RepresentsBy t m chain) {f : ℕ} (hlt : f < t.fresh)
    (hnot : ∀ i, f ∉ chain i) :
    RepresentsBy { t with fq := t.fq ++ [f] } { m with queue := m.queue ++ [t.flows f] } chain where
  shape := h.shape.logs (t.fq ++ [f]) t.deleted t.freed
  unique := h.unique
  flowAt_iff := h.flowAt_iff
  gone := by
    intro g hg
    rcases List.mem_append.mp hg with hg | hg
    · exact h.gone g hg
    · rw [List.mem_singleton.mp hg]
      exact ⟨hlt, hnot⟩
  queue_eq := by
    show (t.fq ++ [f]).map t.flows = m.queue ++ [t.flows f]
    rw [List.map_append, h.queue_eq, List.map_singleton]

/-- `Flow::add_packet` on a linked flow. -/
theorem flowAddPacket (h : RepresentsBy t m chain) {i f : ℕ} (hf : f ∈ chain i) (now : Clock)
    (packet : PacketT) (src : Bool) :
    ∃ t', t.flowAddPacket f now packet src = some t' ∧
      Represents t' (m.put (t.flows f).socket ((t.flows f).addPacket now packet src)) := by
  have hsocket := (Flow.addPacket_pairs (t.flows f) now packet src).2.2.1
  unfold FlowHashTable.flowAddPacket FlowMap.put
  dsimp only
  generalize hfreed : (if ((t.flows f).addPacket now packet src).freed then
    t.freed ++ [packet.addr] else t.freed) = freed
  have hwrite : RepresentsBy { t with
      flows := update t.flows f ((t.flows f).addPacket now packet src).flow
      freed := freed } (m.set (t.flows f).socket _) chain := h.write hf hsocket
  have hflow : update t.flows f ((t.flows f).addPacket now packet src).flow f =
      ((t.flows f).addPacket now packet src).flow := update_self _ _ _
  cases hv : ((t.flows f).addPacket now packet src).verdict with
  | keep => exact ⟨_, rfl, chain, hwrite⟩
  | drop =>
      obtain ⟨t', chain', hrem, -, -, hrep, -, -⟩ := hwrite.unlink hf
      simp only [hflow, hsocket, FlowMap.set_set] at hrep
      exact ⟨_, by rw [hrem]; rfl, chain', hrep.logs (t'.deleted ++ [f]) t'.freed⟩
  | finish =>
      obtain ⟨t', chain', hrem, hflows, -, hrep, hlt, hnot⟩ := hwrite.unlink hf
      simp only [hflow, hsocket, FlowMap.set_set] at hrep
      have hflow' : t'.flows f = ((t.flows f).addPacket now packet src).flow := by
        rw [hflows]
        exact hflow
      have henq := hrep.enqueue hlt hnot
      rw [hflow'] at henq
      exact ⟨{ t' with fq := t'.fq ++ [f] }, by rw [hrem]; rfl, chain', henq⟩

end RepresentsBy

/-! ## The refinement -/

/-- **The table refines the map**: from a table with room that represents a map,
`add_packet` has a result, and it represents what the packet does to the map. -/
theorem addPacket_represents {t : FlowHashTable} {m : FlowMap} (h : Represents t m)
    (hroomy : t.Roomy) (mem : Flow) (now : Clock) (packet : PacketT) :
    ∃ t', t.addPacket mem now packet = some t' ∧
      Represents t' (m.addPacket mem now packet) := by
  obtain ⟨chain, h⟩ := h
  -- a new flow and its first packet
  have hcreate : ∀ s src, m.flowAt s = none → ∃ t₁ t', t.create mem s = some (t₁, t.fresh) ∧
      t₁.flowAddPacket t.fresh now packet src = some t' ∧
      Represents t' (m.put s ((Flow.new mem s).addPacket now packet src)) := by
    intro s src hs
    obtain ⟨t₁, chain₁, hc, hrep, hflow, hmem⟩ := h.create hroomy mem hs
    obtain ⟨t', hadd, hrep'⟩ := hrep.flowAddPacket hmem now packet src
    rw [hflow, Flow.new_socket, FlowMap.put_set] at hrep'
    exact ⟨t₁, t', hc, hadd, hrep'⟩
  unfold FlowHashTable.addPacket FlowMap.addPacket
  dsimp only
  rcases h.find_eq hroomy packet.socket.flip with ⟨f, hf, hfind, hsocket, hat⟩ | ⟨hfind, hat⟩
  · rw [hfind, hat]
    have hadd := h.flowAddPacket hf now packet false
    rwa [hsocket] at hadd
  rcases h.find_eq hroomy packet.socket with ⟨f, hf, hfind', hsocket, hat'⟩ | ⟨hfind', hat'⟩
  · rw [hfind, hat]
    simp only [hat']
    have hadd := h.flowAddPacket hf now packet true
    rw [hsocket] at hadd
    simpa [hfind'] using hadd
  · rw [hfind, hat]
    simp only [hat', hfind', Option.bind_eq_bind, Option.bind_some]
    split
    · obtain ⟨t₁, t', hc, hadd, hrep⟩ := hcreate packet.socket true hat'
      exact ⟨t', by rw [hc]; exact hadd, hrep⟩
    split
    · obtain ⟨t₁, t', hc, hadd, hrep⟩ := hcreate packet.socket.flip false hat
      exact ⟨t', by rw [hc]; exact hadd, hrep⟩
    · exact ⟨_, rfl, chain, h.logs t.deleted (t.freed ++ [packet.addr])⟩

end MonitoringTool.Sniffer
