import MonitoringTool.Lib.Run
import MonitoringTool.Sniffer.FlowHashTable
import MonitoringTool.Sniffer.PacketPreprocess

/-!
# Which end of a connection is the source

`FlowHashTable::add_packet` never looks at ports: a packet that finds no flow makes
one in its own direction if `packet_preprocess` took its payload for a request, and
in the other direction if it took it for a response.  The source of the flow is the
client exactly when that guess was right, and no later packet changes it.

`clients_are_sources_iff` says so for whole runs of the sniffer over any traffic.
-/

namespace MonitoringTool.Sniffer

open Lib Function

/-! ## What `add_packet` does to sockets -/

namespace FlowHashTable

variable {t t' : FlowHashTable}

/-- `remove` touches no flow object. -/
theorem remove_frame {f : ℕ} (h : t.remove f = some t') :
    t'.flows = t.flows ∧ t'.fresh = t.fresh := by
  unfold remove at h
  dsimp only at h
  obtain ⟨⟨t₁, hm⟩, hunlinked, rfl⟩ := Option.map_eq_some_iff.mp h
  show t₁.flows = t.flows ∧ t₁.fresh = t.fresh
  split at hunlinked
  · cases hunlinked
    exact ⟨rfl, rfl⟩
  · split at hunlinked <;> cases hunlinked <;> exact ⟨rfl, rfl⟩

/-- `create` writes the next flow object and no other. -/
theorem create_frame {mem : Flow} {s : FlowS} {f : ℕ} (h : t.create mem s = some (t', f)) :
    f = t.fresh ∧ t'.fresh = t.fresh + 1 ∧
      t'.flows = update t.flows t.fresh (Flow.new mem s) := by
  unfold create at h
  dsimp only at h
  obtain ⟨⟨t₁, hm⟩, hlinked, heq⟩ := Option.map_eq_some_iff.mp h
  cases heq
  show t.fresh = t.fresh ∧ t₁.fresh = t.fresh + 1 ∧
    t₁.flows = update t.flows t.fresh (Flow.new mem s)
  split at hlinked
  · cases hlinked
    exact ⟨rfl, rfl, rfl⟩
  · obtain ⟨l, -, heq⟩ := Option.map_eq_some_iff.mp hlinked
    cases heq
    exact ⟨rfl, rfl, rfl⟩

/-- `Flow::add_packet` changes no socket and creates no flow. -/
theorem flowAddPacket_frame {f : ℕ} {now : Clock} {packet : PacketT} {src : Bool}
    (h : t.flowAddPacket f now packet src = some t') :
    t'.fresh = t.fresh ∧ ∀ g, (t'.flows g).socket = (t.flows g).socket := by
  have hsocket : ∀ g, (update t.flows f ((t.flows f).addPacket now packet src).flow g).socket =
      (t.flows g).socket := by
    intro g
    by_cases hgf : g = f
    · subst hgf
      rw [update_self]
      exact (Flow.addPacket_pairs _ now packet src).2.2.1
    · rw [update_of_ne hgf]
  unfold flowAddPacket at h
  dsimp only at h
  split at h
  · obtain rfl := Option.some.inj h
    exact ⟨rfl, hsocket⟩
  · obtain ⟨t₁, hrem, rfl⟩ := Option.map_eq_some_iff.mp h
    obtain ⟨hflows, hfresh⟩ := remove_frame hrem
    exact ⟨hfresh, fun g => by rw [show t₁.flows = _ from hflows]; exact hsocket g⟩
  · obtain ⟨t₁, hrem, rfl⟩ := Option.map_eq_some_iff.mp h
    obtain ⟨hflows, hfresh⟩ := remove_frame hrem
    exact ⟨hfresh, fun g => by rw [show t₁.flows = _ from hflows]; exact hsocket g⟩

/-- No flow of the packet's connection is in the table. -/
def NoFlow (t : FlowHashTable) (packet : PacketT) : Prop :=
  t.find packet.socket.flip = some none ∧ t.find packet.socket = some none

instance (t : FlowHashTable) (packet : PacketT) : Decidable (t.NoFlow packet) := by
  unfold NoFlow
  infer_instance

/-- The socket of the flow that a packet creates, if it creates one. -/
def createdSocket (t : FlowHashTable) (packet : PacketT) : Option FlowS :=
  if t.NoFlow packet then
    if packet.type = REQ then some packet.socket
    else if packet.type = RSP then some packet.socket.flip
    else none
  else none

/-- A flow is created in the packet's own direction or the other, and the packet is
added to it. -/
theorem createAndAdd_frame {mem : Flow} {now : Clock} {packet : PacketT} {s : FlowS} {src : Bool}
    (h : (t.create mem s).bind (fun (t, f) => t.flowAddPacket f now packet src) = some t') :
    (∀ f, f < t.fresh → (t'.flows f).socket = (t.flows f).socket) ∧
      t'.fresh = t.fresh + 1 ∧ (t'.flows t.fresh).socket = s := by
  obtain ⟨⟨t₁, f⟩, hcreate, hadd⟩ := Option.bind_eq_some_iff.mp h
  obtain ⟨rfl, hfresh, hflows⟩ := create_frame hcreate
  obtain ⟨hfresh', hsocket⟩ := flowAddPacket_frame hadd
  refine ⟨fun g hg => ?_, hfresh'.trans hfresh, ?_⟩
  · rw [hsocket, hflows, update_of_ne (Nat.ne_of_lt hg)]
  · rw [hsocket, hflows, update_self, Flow.new_socket]

/-- `add_packet` leaves the sockets of the flows alone and creates a flow of the
created socket, if there is one. -/
theorem addPacket_sockets {mem : Flow} {now : Clock} {packet : PacketT}
    (h : t.addPacket mem now packet = some t') :
    (∀ f, f < t.fresh → (t'.flows f).socket = (t.flows f).socket) ∧
      match t.createdSocket packet with
      | none => t'.fresh = t.fresh
      | some s => t'.fresh = t.fresh + 1 ∧ (t'.flows t.fresh).socket = s := by
  have hold : ∀ {f src}, t.flowAddPacket f now packet src = some t' →
      (∀ f, f < t.fresh → (t'.flows f).socket = (t.flows f).socket) ∧ t'.fresh = t.fresh := by
    intro f src hf
    obtain ⟨hfresh, hsocket⟩ := flowAddPacket_frame hf
    exact ⟨fun g _ => hsocket g, hfresh⟩
  have hfound : ¬ t.NoFlow packet → t.createdSocket packet = none := fun hno => if_neg hno
  unfold addPacket at h
  cases hrev : t.find packet.socket.flip with
  | none => simp [hrev] at h
  | some rev =>
      cases rev with
      | some f =>
          have hadd : t.flowAddPacket f now packet false = some t' := by simpa [hrev] using h
          rw [hfound (by simp [NoFlow, hrev])]
          exact hold hadd
      | none =>
          cases hfwd : t.find packet.socket with
          | none => simp [hrev, hfwd] at h
          | some fwd =>
              cases fwd with
              | some f =>
                  have hadd : t.flowAddPacket f now packet true = some t' := by
                    simpa [hrev, hfwd] using h
                  rw [hfound (by simp [NoFlow, hfwd])]
                  exact hold hadd
              | none =>
                  have hno : t.NoFlow packet := ⟨hrev, hfwd⟩
                  simp only [hrev, hfwd, Option.bind_eq_bind, Option.bind_some] at h
                  unfold createdSocket
                  rw [if_pos hno]
                  by_cases hreq : packet.type = REQ
                  · rw [if_pos hreq] at h ⊢
                    exact createAndAdd_frame h
                  · rw [if_neg hreq] at h ⊢
                    by_cases hrsp : packet.type = RSP
                    · rw [if_pos hrsp] at h ⊢
                      exact createAndAdd_frame h
                    · rw [if_neg hrsp] at h ⊢
                      obtain rfl := Option.some.inj h
                      exact ⟨fun _ _ => rfl, rfl⟩

end FlowHashTable

/-! ## Runs over frames -/

/-- A captured frame, the clock when its packet is added, and the memory in which a
flow would be built. -/
structure Capture where
  rawPkt : RawPkt
  now : Clock
  mem : Flow
  deriving DecidableEq

/-- Process a frame: `packet_preprocess`, and `add_packet` on the table of the
protocol. -/
def capture (protocols : List Protocol) (tables : ℕ → FlowHashTable) (c : Capture) :
    Option (ℕ → FlowHashTable) :=
  match packetPreprocess protocols c.rawPkt with
  | none => none
  | some none => some tables
  | some (some (k, packet)) =>
      ((tables k).addPacket c.mem c.now packet).map fun t => update tables k t

/-- Some protocol monitors the port. -/
def monitored (protocols : List Protocol) (port : UInt16) : Bool :=
  protocols.any fun p => p.serverPorts.contains port

/-- Exactly one end of the connection has a monitored port. -/
def OneServer (protocols : List Protocol) (s : FlowS) : Prop :=
  monitored protocols s.sport ≠ monitored protocols s.dport

instance (protocols : List Protocol) (s : FlowS) : Decidable (OneServer protocols s) := by
  unfold OneServer
  infer_instance

/-- The destination is the server. -/
def ClientIsSource (protocols : List Protocol) (s : FlowS) : Prop :=
  OneServer protocols s → monitored protocols s.dport

instance (protocols : List Protocol) (s : FlowS) : Decidable (ClientIsSource protocols s) := by
  unfold ClientIsSource
  infer_instance

/-- Every flow ever created in one of the tables has the client as its source. -/
def ClientsAreSources (protocols : List Protocol) (tables : ℕ → FlowHashTable) : Prop :=
  ∀ k, ∀ f < (tables k).fresh, ClientIsSource protocols ((tables k).flows f).socket

/-- If the packet of a payload finds no flow of its connection: a payload that is taken
for a request comes from the client, and one taken for a response from the server. -/
def Payload.GuessedRight (protocols : List Protocol) (t : FlowHashTable) (x : Payload) : Prop :=
  t.NoFlow x.pkt → OneServer protocols x.pkt.socket →
    (TakenForRequest x.protocol x.cp x.pkt → monitored protocols x.pkt.dport) ∧
      (TakenForResponse x.protocol x.cp x.pkt → monitored protocols x.pkt.sport)

instance (protocols : List Protocol) (t : FlowHashTable) (x : Payload) :
    Decidable (x.GuessedRight protocols t) := by
  unfold Payload.GuessedRight
  infer_instance

/-- The payload of the frame, if it carries one, is guessed right. -/
def GuessedRight (protocols : List Protocol) (tables : ℕ → FlowHashTable) (c : Capture) : Prop :=
  ∀ x ∈ payloadOf protocols c.rawPkt, x.GuessedRight protocols (tables x.index)

instance (protocols : List Protocol) (tables : ℕ → FlowHashTable) (c : Capture) :
    Decidable (GuessedRight protocols tables c) := by
  unfold GuessedRight
  infer_instance

/-! ## One frame -/

section Step

variable {protocols : List Protocol} {tables tables' : ℕ → FlowHashTable} {c : Capture}

/-- A frame with a payload goes to the table of its protocol, as it was classified. -/
theorem capture_payload {x : Payload} (hx : payloadOf protocols c.rawPkt = some x) :
    capture protocols tables c = (classify x.protocol x.cp x.pkt).bind fun packet =>
      ((tables x.index).addPacket c.mem c.now packet).map fun t => update tables x.index t := by
  unfold capture
  rcases packetPreprocess_cases protocols c.rawPkt with ⟨y, hy, heq⟩ | ⟨hnone, -⟩
  · obtain rfl : x = y := Option.some.inj (hx.symm.trans hy)
    rw [heq]
    cases classify x.protocol x.cp x.pkt <;> rfl
  · rw [hx] at hnone
    cases hnone

/-- A frame without a payload changes nothing. -/
theorem capture_no_payload (hnone : payloadOf protocols c.rawPkt = none)
    (h : capture protocols tables c = some tables') : tables' = tables := by
  unfold capture at h
  rcases packetPreprocess_cases protocols c.rawPkt with ⟨x, hx, -⟩ | ⟨-, heq | heq⟩
  · rw [hnone] at hx
    cases hx
  · rw [heq] at h
    cases h
  · rw [heq] at h
    exact (Option.some.inj h).symm

/-- The flow that a classified payload creates has the client as its source exactly if
the payload was guessed right. -/
theorem createdSocket_clientIsSource {t : FlowHashTable} {x : Payload} {packet : PacketT}
    (hnew : x.pkt.type = 0) (h : classify x.protocol x.cp x.pkt = some packet) :
    (∀ s ∈ t.createdSocket packet, ClientIsSource protocols s) ↔ x.GuessedRight protocols t := by
  obtain ⟨hclassified, hreq, hrsp⟩ := classify_spec hnew h
  have hsocket : packet.socket = x.pkt.socket := by
    rw [show packet = _ from hclassified]
    rfl
  have hnoflow : t.NoFlow packet ↔ t.NoFlow x.pkt := by
    unfold FlowHashTable.NoFlow
    rw [hsocket]
  have hflip : OneServer protocols x.pkt.socket.flip ↔ OneServer protocols x.pkt.socket := ne_comm
  unfold FlowHashTable.createdSocket Payload.GuessedRight
  rw [hsocket, ← hreq, ← hrsp, ← hnoflow]
  by_cases hno : t.NoFlow packet
  · have hREQ : REQ ≠ RSP := by decide
    by_cases htype : packet.type = REQ
    · simp [hno, htype, hREQ, ClientIsSource, PacketT.socket]
    · by_cases htype' : packet.type = RSP
      · simp [hno, htype', hREQ.symm, ClientIsSource, hflip]
        rfl
      · simp [hno, htype, htype']
  · simp [hno]

/-- Adding a packet leaves the clients the sources exactly if the flow that it creates
has the client as its source. -/
theorem addPacket_clientsAreSources {k : ℕ} {t' : FlowHashTable} {mem : Flow} {now : Clock}
    {packet : PacketT} (hs : ClientsAreSources protocols tables)
    (h : (tables k).addPacket mem now packet = some t') :
    ClientsAreSources protocols (update tables k t') ↔
      ∀ s ∈ (tables k).createdSocket packet, ClientIsSource protocols s := by
  obtain ⟨hold, hcreated⟩ := FlowHashTable.addPacket_sockets h
  constructor
  · intro hall s hsocket
    rw [show (tables k).createdSocket packet = some s from hsocket] at hcreated
    obtain ⟨hfresh, rfl⟩ := hcreated
    have hnew := hall k (tables k).fresh
    rw [update_self, hfresh] at hnew
    exact hnew (Nat.lt_succ_self _)
  · intro hnew j f hf
    by_cases hj : j = k
    · subst hj
      rw [update_self] at hf ⊢
      by_cases hlt : f < (tables j).fresh
      · rw [hold f hlt]
        exact hs j f hlt
      · cases hsocket : (tables j).createdSocket packet with
        | none =>
            rw [hsocket] at hcreated
            exact absurd (hcreated ▸ hf) hlt
        | some s =>
            rw [hsocket] at hcreated
            obtain rfl : f = (tables j).fresh := by omega
            rw [hcreated.2]
            exact hnew s hsocket
    · rw [update_of_ne hj] at hf ⊢
      exact hs j f hf

/-- One frame leaves the clients the sources exactly if its payload is guessed right. -/
theorem capture_clientsAreSources (hs : ClientsAreSources protocols tables)
    (h : capture protocols tables c = some tables') :
    ClientsAreSources protocols tables' ↔ GuessedRight protocols tables c := by
  unfold GuessedRight
  cases hx : payloadOf protocols c.rawPkt with
  | none =>
      rw [capture_no_payload hx h]
      simp [hs]
  | some x =>
      rw [capture_payload hx] at h
      obtain ⟨packet, hclassify, h⟩ := Option.bind_eq_some_iff.mp h
      obtain ⟨t', hadd, rfl⟩ := Option.map_eq_some_iff.mp h
      rw [addPacket_clientsAreSources hs hadd,
        createdSocket_clientIsSource (payloadOf_type hx) hclassify]
      simp

/-- The pointers of every table are those of some lists. -/
def AllShaped (tables : ℕ → FlowHashTable) : Prop := ∀ k, ∃ chain, Shape (tables k) chain

theorem capture_allShaped (hs : AllShaped tables)
    (h : capture protocols tables c = some tables') : AllShaped tables' := by
  cases hx : payloadOf protocols c.rawPkt with
  | none =>
      rw [capture_no_payload hx h]
      exact hs
  | some x =>
      rw [capture_payload hx] at h
      obtain ⟨packet, -, h⟩ := Option.bind_eq_some_iff.mp h
      obtain ⟨t', hadd, rfl⟩ := Option.map_eq_some_iff.mp h
      intro k
      by_cases hk : k = x.index
      · subst hk
        obtain ⟨chain, hshape⟩ := hs x.index
        obtain ⟨t₁, chain', hadd', hshape', -⟩ := hshape.addPacket_eq c.mem c.now packet
        obtain rfl : t₁ = t' := Option.some.inj (hadd'.symm.trans hadd)
        rw [update_self]
        exact ⟨chain', hshape'⟩
      · rw [update_of_ne hk]
        exact hs k

/-- A frame is processed to the end unless its payload cannot be read. -/
theorem guessedRight_of_capture_none (hs : AllShaped tables)
    (h : capture protocols tables c = none) : GuessedRight protocols tables c := by
  intro x hx
  rw [capture_payload hx] at h
  have hclassify : classify x.protocol x.cp x.pkt = none := by
    cases hclassify : classify x.protocol x.cp x.pkt with
    | none => rfl
    | some packet =>
        obtain ⟨chain, hshape⟩ := hs x.index
        obtain ⟨t', chain', hadd, -⟩ := hshape.addPacket_eq c.mem c.now packet
        simp [hclassify, hadd] at h
  intro _ _
  exact ⟨fun hreq => absurd hclassify (classify_defined (.inl hreq)),
    fun hrsp => absurd hclassify (classify_defined (.inr hrsp))⟩

end Step

/-! ## All traffic -/

/-- **The source of a flow is the client exactly when the first guess was right.**
In a run of the sniffer over any frames, every flow that is created, and whose
connection has one monitored port, has that port as its destination port if and only
if no payload that finds no flow of such a connection comes from the server and is
taken for a request, or from the client and is taken for a response. -/
theorem clients_are_sources_iff (protocols : List Protocol) (cs : List Capture) :
    EveryState (capture protocols) (ClientsAreSources protocols) (fun _ => .new) cs ↔
      EveryStep (capture protocols) (GuessedRight protocols) (fun _ => .new) cs := by
  apply @everyState_iff_everyStep _ _ _
    fun tables => ClientsAreSources protocols tables ∧ AllShaped tables
  · intro tables hs
    exact hs.1
  · intro tables c tables' hs hstep
    exact capture_clientsAreSources hs.1 hstep
  · intro tables c tables' hs hstep hsources
    exact ⟨hsources, capture_allShaped hs.2 hstep⟩
  · intro tables c hs hstep
    exact guessedRight_of_capture_none hs.2 hstep
  · refine ⟨fun k f hf => absurd hf (Nat.not_lt_zero f), fun k => ⟨_, Shape.new⟩⟩

/-- The greeting of a MySQL server, port 3306, to a client's port 40000: an IP packet
of 60 bytes with 20 bytes of payload, whose sequence number is 0. -/
def mySqlGreeting : RawPkt where
  raw :=
    [0, 0, 0, 0, 0, 0, 0, 0, 0, 0, 0, 0, 0x08, 0x00] ++
    [0x45, 0, 0, 60, 0, 0, 0, 0, 64, 6, 0, 0, 10, 0, 0, 2, 10, 0, 0, 1] ++
    [0x0c, 0xea, 0x9c, 0x40, 0, 0, 0, 1, 0, 0, 0, 1, 0x50, 0x18, 0, 0, 0, 0, 0, 0] ++
    [16, 0, 0, 0, 10, 53, 46, 55, 46, 48, 0, 1, 0, 0, 0, 0, 0, 0, 0, 0]
  tvSec := 0
  tvUsec := 0
  caplen := 74
  addr := 0

/-- The server speaks first, its greeting is taken for a request, and the flow has the
server as its source. -/
theorem mySql_greeting_reverses :
    ¬ EveryState (capture [.http, .memCached, .mySql])
      (ClientsAreSources [.http, .memCached, .mySql]) (fun _ => .new)
      [⟨mySqlGreeting, ⟨0, 0⟩, Flow.zero⟩] := by
  intro hall
  have hrun : (run (capture [.http, .memCached, .mySql]) (fun _ => .new)
      [⟨mySqlGreeting, ⟨0, 0⟩, Flow.zero⟩]).any (fun tables => 0 < (tables 2).fresh ∧
        ¬ ClientIsSource [.http, .memCached, .mySql] ((tables 2).flows 0).socket) = true := by
    decide +kernel
  obtain ⟨tables, hrun, hbad⟩ := (Option.any_eq_true _ _).mp hrun
  obtain ⟨hfresh, hnot⟩ := of_decide_eq_true hbad
  exact hnot (hall.final hrun 2 0 hfresh)

end MonitoringTool.Sniffer
