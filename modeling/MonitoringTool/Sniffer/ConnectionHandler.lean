import MonitoringTool.Sniffer.Metrics.ActiveMetrics
import MonitoringTool.Sniffer.Metrics.HashChains
import MonitoringTool.Sniffer.Protobuf.Required
import MonitoringTool.Sniffer.Server

/-!
# From the Init message to the analyses

`connection_handler` goes through the interfaces of the message that it has unpacked.  For each
it makes an `Analysis`, adds the protocols, and calls `start_analysis`, which joins the threads
of the analysis.  So the next interface has to wait until the analysis before it is over, and
without a duration it waits for ever, unless the interface cannot be opened.  A protocol with
an unknown name ends the thread, and the interfaces behind it are never looked at.

`startAnalyses_eq` says which analyses are started, what they monitor, and what the thread comes
to.
-/

namespace MonitoringTool.Sniffer

open Protobuf (messageUnpack)
open Protobuf.Analysis (initDescriptor)

/-! ## The protocols -/

/-- The class of the protocol that is picked. -/
def ProtocolName.pick (protocolName : List UInt8) : Option ProtocolName :=
  if strcmpEq protocolName (chars "HTTP") then some .http
  else if strcmpEq protocolName (chars "MEMCACHED") then some .memcached
  else if strcmpEq protocolName (chars "MYSQL") then some .mysql
  else none

/-- The ports that the constructors add. -/
def ProtocolName.ports : ProtocolName → List UInt16
  | .http => Protocol.http.serverPorts
  | .memcached => Protocol.memCached.serverPorts
  | .mysql => Protocol.mySql.serverPorts

/-- An object of a class derived from `Protocol`, with what `connection_handler` sets. -/
structure MonitoredProtocol where
  cls : ProtocolName
  name : List UInt8
  id : UInt32
  filter : FlowFilter
  metrics : List Metric
  eventManager : EventManager

/-- `new Http(analysis, protocolName, j)`, and so on; the metrics lie in the order of the
vector. -/
def MonitoredProtocol.new (cls : ProtocolName) (protocolName : List UInt8) (j : UInt32) :
    MonitoredProtocol where
  cls := cls
  name := protocolName
  id := j
  filter := { Frontend.noFilter with serverPorts := cls.ports }
  metrics := cls.metrics.zipIdx.map fun x => ⟨x.2, x.1⟩
  eventManager := fun _ => []

/-- The filter after the calls of `setClientIp`, `addClientPort`, `setServerIp` and
`addServerPort`. -/
def setFilter (received : Protobuf.Analysis.Protocol) (flt : FlowFilter) : FlowFilter :=
  let flt := if received.hasClientIp then Frontend.setClientIp flt received.clientIp else flt
  let flt := received.clientPorts.foldl (fun flt port => Frontend.addClientPort flt port.toNat) flt
  let flt := if received.hasServerIp then Frontend.setServerIp flt received.serverIp else flt
  received.serverPorts.foldl (fun flt port => Frontend.addServerPort flt port.toNat) flt

/-! ## The loops -/

/-- What keeps the thread from closing the socket: `error` ends it, it reads through a pointer
that is `NULL` or beyond a vector, or it waits for ever for an analysis. -/
inductive Stop where
  | error (m : String) : Stop
  | fault : Stop
  | waits : Stop
  deriving DecidableEq

/-- `Analysis`, with what `connection_handler` sets. -/
structure Analysis where
  interface : Option (List UInt8)
  interfaceId : UInt32
  interval : UInt32
  duration : UInt32
  protocols : List MonitoredProtocol

/-- `new Analysis(...)`. -/
def Analysis.new (interface : Option (List UInt8)) (netIntId interval duration : UInt32) :
    Analysis where
  interface := interface
  interfaceId := netIntId
  interval := interval
  duration := duration
  protocols := []

/-- The protocol that is made of what was received. -/
def makeProtocol (received : Protobuf.Analysis.Protocol) (j : ℕ) : Except Stop MonitoredProtocol :=
  match received.id with
  | none => .error .fault
  | some protocolName =>
      match ProtocolName.pick protocolName with
      | none => .error (.error "Unrecognized protocol")
      | some cls =>
          let protocol := MonitoredProtocol.new cls protocolName j.toUInt32
          match Protocol.activeMetrics received.activeMetrics.toInt32 protocol.metrics
              protocol.eventManager with
          | none => .error .fault
          | some (metrics, em) =>
              .ok { protocol with
                metrics := metrics
                eventManager := em
                filter := setFilter received protocol.filter }

/-- The loop over the protocols of an interface. -/
def addProtocols (analysis : Analysis) (j : ℕ) : List Protobuf.Analysis.Protocol →
    Except Stop Analysis
  | [] => .ok analysis
  | received :: rest =>
      match makeProtocol received j with
      | .error stop => .error stop
      | .ok protocol =>
          addProtocols { analysis with protocols := analysis.protocols ++ [protocol] } (j + 1) rest

/-- The course of an analysis, as far as it does not follow from its fields: whether the
interface can be opened, and whether all threads of the analysis end when it is stopped. -/
structure Course where
  opened : Bool
  ends : Bool

/-- Whether `start_analysis` returns.  It joins all threads of the analysis, and not all of them
end before `Analysis::stop`, which `capture_main` calls when it cannot open the interface, and
the timer that `start_timer` sets when there is a duration. -/
def startAnalysis (course : Course) (duration : UInt32) : Bool :=
  (!course.opened || 0 < duration) && course.ends

/-- The loop over the interfaces: the analyses that are started, one after the other, and what
keeps the thread from the end of the loop. -/
def startAnalyses (courses : ℕ → Course) (init : Protobuf.Analysis.Init) (i : ℕ) :
    List Protobuf.Analysis.NetInt → List Analysis × Option Stop
  | [] => ([], none)
  | netInt :: rest =>
      match addProtocols (.new netInt.id i.toUInt32 init.interval init.duration) 0
          netInt.protocols with
      | .error stop => ([], some stop)
      | .ok analysis =>
          if startAnalysis (courses i) analysis.duration then
            let (started, stop) := startAnalyses courses init (i + 1) rest
            (analysis :: started, stop)
          else ([analysis], some .waits)

/-- `connection_handler`: the analyses that are started, and what keeps the thread from closing
the socket.  Nothing is said about it when the message is received past its memory or unpacking
leaves it. -/
def handleConnection (courses : ℕ → Course) (s : Socket) :
    Option (List Analysis × Option Stop) :=
  match connectionHandler s with
  | .disconnected => some ([], none)
  | .overflow => none
  | .error m => some ([], some (.error m))
  | .unpack msg =>
      match messageUnpack initDescriptor msg with
      | .error .overrun => none
      | .error .null => some ([], some (.error "error unpacking incoming message\n"))
      | .ok init => some (startAnalyses courses init 0 init.netInts)

/-! ## What a protocol monitors -/

/-- The protocol monitors what was asked for. -/
structure MonitoredProtocol.Follows (received : Protobuf.Analysis.Protocol) (j : ℕ)
    (protocol : MonitoredProtocol) : Prop where
  name : received.id = some protocol.name
  cls : ProtocolName.pick protocol.name = some protocol.cls
  id : protocol.id = j.toUInt32
  metrics : protocol.metrics.map (·.cls) =
    selectIdx (bit received.activeMetrics.toInt32) protocol.cls.metrics
  observers : ∀ e, protocol.eventManager e = protocol.metrics.reverse.filter (e ∈ ·.cls.events)
  passes : ∀ s, protocol.filter.passes s = true ↔
    (received.hasClientIp = true → s.saddr = received.clientIp) ∧
      (received.clientPorts = [] ∨ s.sport ∈ received.clientPorts.map (·.toUInt16)) ∧
      (received.hasServerIp = true → s.daddr = received.serverIp) ∧
      (s.dport ∈ protocol.cls.ports ++ received.serverPorts.map (·.toUInt16) ∨
        s.sport ∈ protocol.cls.ports ++ received.serverPorts.map (·.toUInt16))

theorem foldl_addClientPort (ports : List UInt32) (flt : FlowFilter) :
    ports.foldl (fun flt port => Frontend.addClientPort flt port.toNat) flt =
      { flt with clientPorts := flt.clientPorts ++ ports.map (·.toUInt16) } := by
  induction ports generalizing flt with
  | nil => simp
  | cons port ports ih =>
      rw [List.foldl_cons, ih, Frontend.addClientPort]
      simp

theorem foldl_addServerPort (ports : List UInt32) (flt : FlowFilter) :
    ports.foldl (fun flt port => Frontend.addServerPort flt port.toNat) flt =
      { flt with serverPorts := flt.serverPorts ++ ports.map (·.toUInt16) } := by
  induction ports generalizing flt with
  | nil => simp
  | cons port ports ih =>
      rw [List.foldl_cons, ih, Frontend.addServerPort]
      simp

/-- The filter of a new protocol, with what was received. -/
theorem setFilter_new (received : Protobuf.Analysis.Protocol) (cls : ProtocolName)
    (protocolName : List UInt8) (j : UInt32) :
    setFilter received (MonitoredProtocol.new cls protocolName j).filter =
      { hasClientIp := received.hasClientIp
        clientIp := if received.hasClientIp then received.clientIp else 0
        clientPorts := received.clientPorts.map (·.toUInt16)
        hasServerIp := received.hasServerIp
        serverIp := if received.hasServerIp then received.serverIp else 0
        serverPorts := cls.ports ++ received.serverPorts.map (·.toUInt16) } := by
  simp only [setFilter, MonitoredProtocol.new, foldl_addClientPort, foldl_addServerPort]
  cases received.hasClientIp <;> cases received.hasServerIp <;>
    simp [Frontend.setClientIp, Frontend.setServerIp, Frontend.noFilter]

/-- Which flows a filter lets through. -/
theorem FlowFilter.passes_iff (flt : FlowFilter) (s : FlowS) :
    flt.passes s = true ↔
      (flt.hasClientIp = true → s.saddr = flt.clientIp) ∧
        (flt.clientPorts = [] ∨ s.sport ∈ flt.clientPorts) ∧
        (flt.hasServerIp = true → s.daddr = flt.serverIp) ∧
        (flt.serverPorts = [] ∨ s.dport ∈ flt.serverPorts ∨ s.sport ∈ flt.serverPorts) := by
  have hclient : (flt.clientIp = s.saddr) = (s.saddr = flt.clientIp) := propext eq_comm
  have hserver : (flt.serverIp = s.daddr) = (s.daddr = flt.serverIp) := propext eq_comm
  simp only [passes, Bool.and_eq_true, Bool.not_eq_true', Bool.and_eq_false_iff,
    bne_eq_false_iff_eq, Bool.not_eq_false', hclient, hserver, and_assoc, or_assoc]
  refine and_congr ?_ (and_congr ?_ (and_congr ?_ ?_))
  · cases flt.hasClientIp <;> simp
  · simp
  · cases flt.hasServerIp <;> simp
  · simp

theorem ProtocolName.ports_ne_nil (cls : ProtocolName) : cls.ports ≠ [] := by
  cases cls <;> simp [ports, Protocol.http, Protocol.memCached, Protocol.mySql]

theorem selectIdx_map {α β : Type} (p : ℕ → Bool) (f : α → β) (l : List α) :
    selectIdx p (l.map f) = (selectIdx p l).map f := by
  unfold selectIdx
  rw [List.zipIdx_map, List.filter_map, List.map_map, List.map_map]
  rfl

/-- A protocol of which the name is known is made, and monitors what was asked for. -/
theorem makeProtocol_eq {received : Protobuf.Analysis.Protocol} {protocolName : List UInt8}
    (hid : received.id = some protocolName) (j : ℕ) :
    (ProtocolName.pick protocolName = none ∧
        makeProtocol received j = .error (.error "Unrecognized protocol")) ∨
      ((ProtocolName.pick protocolName).isSome = true ∧
        ∃ protocol, makeProtocol received j = .ok protocol ∧ protocol.Follows received j) := by
  cases hpick : ProtocolName.pick protocolName with
  | none => exact .inl ⟨rfl, by simp [makeProtocol, hid, hpick]⟩
  | some cls =>
      right
      have hlen : (MonitoredProtocol.new cls protocolName j.toUInt32).metrics.length ≤ 32 := by
        simp only [MonitoredProtocol.new, List.length_map, List.length_zipIdx]
        cases cls <;> decide
      have hactive := activeMetrics_eq received.activeMetrics.toInt32
        (MonitoredProtocol.new cls protocolName j.toUInt32).metrics (fun _ => []) hlen
      let new := MonitoredProtocol.new cls protocolName j.toUInt32
      let kept := selectIdx (bit received.activeMetrics.toInt32) new.metrics
      have hmade : makeProtocol received j = .ok { new with
          metrics := kept
          eventManager := kept.reverse.foldl (fun em m => m.subscribe em) fun _ => []
          filter := setFilter received new.filter } := by
        have hnone : new.eventManager = fun _ => [] := rfl
        simp only [makeProtocol, hid, hpick]
        rw [hnone, hactive]
      refine ⟨rfl, _, hmade, ⟨hid, hpick, rfl, ?_, ?_, ?_⟩⟩
      · have hclasses : (MonitoredProtocol.new cls protocolName j.toUInt32).metrics.map (·.cls) =
            cls.metrics := by
          simp only [MonitoredProtocol.new, List.map_map, Function.comp_def]
          exact List.zipIdx_map_fst 0 cls.metrics
        rw [← selectIdx_map, hclasses]
        rfl
      · exact fun e => foldl_subscribe_apply _ _ e
      · intro s
        have hports : cls.ports ++ received.serverPorts.map (·.toUInt16) ≠ [] :=
          List.append_ne_nil_of_left_ne_nil cls.ports_ne_nil _
        rw [setFilter_new, FlowFilter.passes_iff]
        simp only [hports, false_or, List.map_eq_nil_iff]
        refine and_congr (imp_congr_right fun h => ?_)
          (and_congr_right' (and_congr_left' (imp_congr_right fun h => ?_)))
        · rw [if_pos h]
        · rw [if_pos h]

/-! ## Which analyses are started -/

/-- The name of the protocol is one of those that are known. -/
def isKnown (received : Protobuf.Analysis.Protocol) : Bool :=
  (received.id.bind ProtocolName.pick).isSome

/-- The names of all protocols of the interface are known. -/
def allKnown (netInt : Protobuf.Analysis.NetInt) : Bool := netInt.protocols.all isKnown

/-- The analysis is that of the interface. -/
structure Analysis.Follows (init : Protobuf.Analysis.Init) (netInt : Protobuf.Analysis.NetInt)
    (i : ℕ) (analysis : Analysis) : Prop where
  interface : analysis.interface = netInt.id
  interfaceId : analysis.interfaceId = i.toUInt32
  interval : analysis.interval = init.interval
  duration : analysis.duration = init.duration
  protocols : List.Forall₂ (fun x protocol => MonitoredProtocol.Follows x.1 x.2 protocol)
    netInt.protocols.zipIdx analysis.protocols

/-- The texts that are compared are there. -/
def HasIds (netInt : Protobuf.Analysis.NetInt) : Prop :=
  ∀ p ∈ netInt.protocols, ∃ chars, p.id = some chars

/-- Every protocol is added, or the first with an unknown name ends the thread. -/
theorem addProtocols_eq {l : List Protobuf.Analysis.Protocol}
    (hids : ∀ p ∈ l, ∃ chars, p.id = some chars) (analysis : Analysis) (j : ℕ) :
    if l.all isKnown then
      ∃ protocols, addProtocols analysis j l =
          .ok { analysis with protocols := analysis.protocols ++ protocols } ∧
        List.Forall₂ (fun x protocol => MonitoredProtocol.Follows x.1 x.2 protocol) (l.zipIdx j)
          protocols
    else addProtocols analysis j l = .error (.error "Unrecognized protocol") := by
  induction l generalizing analysis j with
  | nil => exact ⟨[], by simp [addProtocols], .nil⟩
  | cons received rest ih =>
      obtain ⟨chars, hid⟩ := hids received (by simp)
      have hknown : isKnown received = (ProtocolName.pick chars).isSome := by
        rw [isKnown, hid]
        rfl
      rw [List.all_cons, hknown]
      rcases makeProtocol_eq hid j with ⟨hnone, hmade⟩ | ⟨hsome, protocol, hmade, hfollows⟩
      · rw [hnone]
        simp [addProtocols, hmade]
      · have hrest := ih (fun p hp => hids p (by simp [hp]))
          { analysis with protocols := analysis.protocols ++ [protocol] } (j + 1)
        rw [hsome, Bool.true_and]
        simp only [addProtocols, hmade]
        split_ifs at hrest ⊢
        · obtain ⟨protocols, hadded, hall⟩ := hrest
          refine ⟨protocol :: protocols, ?_, .cons hfollows hall⟩
          rw [hadded, List.append_assoc, List.singleton_append]
        · exact hrest

/-- The analysis of the interface at this place is over at some time. -/
def returns (courses : ℕ → Course) (init : Protobuf.Analysis.Init)
    (x : Protobuf.Analysis.NetInt × ℕ) : Bool :=
  startAnalysis (courses x.2) init.duration

/-- The elements up to the first that does not pass, with that one. -/
def reached {α : Type} (passes : α → Bool) : List α → List α
  | [] => []
  | a :: l => if passes a then a :: reached passes l else [a]

theorem reached_subset {α : Type} (passes : α → Bool) (l : List α) : reached passes l ⊆ l := by
  induction l with
  | nil => exact List.Subset.refl []
  | cons a l ih =>
      rw [reached]
      split_ifs
      · exact List.cons_subset_cons a ih
      · exact List.cons_subset_cons a (List.nil_subset l)

/-- What comes of the interfaces `l`, the first of which is number `i`: those with known
protocols are analysed, up to the first with an unknown one or to an analysis that is never
over. -/
structure ConnectionOutcome (courses : ℕ → Course) (init : Protobuf.Analysis.Init)
    (l : List Protobuf.Analysis.NetInt) (i : ℕ) (started : List Analysis) (stop : Option Stop) :
    Prop where
  started : List.Forall₂ (fun x analysis => Analysis.Follows init x.1 x.2 analysis)
    (reached (returns courses init) ((l.takeWhile allKnown).zipIdx i)) started
  stop : stop =
    if ((l.takeWhile allKnown).zipIdx i).all (returns courses init) then
      if l.all allKnown then none else some (.error "Unrecognized protocol")
    else some .waits

/-- An analysis of the interface is made, or a protocol of it is not known. -/
theorem addProtocols_new {netInt : Protobuf.Analysis.NetInt} (hids : HasIds netInt)
    (init : Protobuf.Analysis.Init) (i : ℕ) :
    if allKnown netInt then
      ∃ analysis, addProtocols (.new netInt.id i.toUInt32 init.interval init.duration) 0
          netInt.protocols = .ok analysis ∧ analysis.Follows init netInt i
    else addProtocols (.new netInt.id i.toUInt32 init.interval init.duration) 0
      netInt.protocols = .error (.error "Unrecognized protocol") := by
  have hadd := addProtocols_eq hids (.new netInt.id i.toUInt32 init.interval init.duration) 0
  rw [show netInt.protocols.all isKnown = allKnown netInt from rfl] at hadd
  split_ifs at hadd ⊢
  · obtain ⟨protocols, hadded, hprotocols⟩ := hadd
    exact ⟨_, hadded, rfl, rfl, rfl, rfl, hprotocols⟩
  · exact hadd

/-- The analyses that are started, and what the thread comes to. -/
theorem startAnalyses_eq (courses : ℕ → Course) (init : Protobuf.Analysis.Init)
    {l : List Protobuf.Analysis.NetInt} (hids : ∀ n ∈ l, HasIds n) (i : ℕ) :
    ConnectionOutcome courses init l i (startAnalyses courses init i l).1
      (startAnalyses courses init i l).2 := by
  induction l generalizing i with
  | nil => exact ⟨.nil, rfl⟩
  | cons netInt rest ih =>
      have hadd := addProtocols_new (hids netInt (by simp)) init i
      cases hall : allKnown netInt with
      | false =>
          rw [hall, if_neg Bool.false_ne_true] at hadd
          rw [startAnalyses, hadd]
          exact ⟨by simp [hall, reached], by simp [hall]⟩
      | true =>
          rw [hall, if_pos rfl] at hadd
          obtain ⟨analysis, hadded, hfollows⟩ := hadd
          have hover : startAnalysis (courses i) analysis.duration =
              returns courses init (netInt, i) := by
            rw [returns, hfollows.duration]
          have hzip : ((netInt :: rest).takeWhile allKnown).zipIdx i =
              (netInt, i) :: (rest.takeWhile allKnown).zipIdx (i + 1) := by
            rw [List.takeWhile_cons, hall, if_pos rfl, List.zipIdx_cons]
          have hrest := ih (fun n hn => hids n (by simp [hn])) (i + 1)
          rw [startAnalyses, hadded]
          dsimp only
          rw [hover]
          cases hreturns : returns courses init (netInt, i) with
          | false =>
              refine ⟨?_, ?_⟩
              · rw [hzip, reached, hreturns]
                exact .cons hfollows .nil
              · rw [hzip, List.all_cons, hreturns]
                rfl
          | true =>
              refine ⟨?_, ?_⟩
              · rw [hzip, reached, hreturns]
                exact .cons hfollows hrest.started
              · rw [hzip, List.all_cons, hreturns, List.all_cons, hall, Bool.true_and,
                  Bool.true_and]
                exact hrest.stop

/-! ## Whatever the client sends -/

/-- Bytes that were received are gone. -/
theorem length_decodeLoop_le (s : Socket) (value shifter : UInt64) :
    (decodeLoop s value shifter).2.bytes.length ≤ s.bytes.length := by
  obtain ⟨bytes, calls, ready⟩ := s
  induction bytes generalizing calls value shifter with
  | nil =>
      unfold decodeLoop
      split
      · next h =>
          have hempty := congrArg (fun out : List UInt8 × Socket => out.2.bytes.length) h
          simp only [Socket.recv, List.drop_nil, List.length_nil] at hempty
          exact Nat.le_of_eq hempty.symm
      · next h =>
          have hlt := Socket.length_recv_one _ h
          exact absurd hlt (Nat.not_lt_zero _)
  | cons i bytes ih =>
      rw [decodeLoop_cons]
      split_ifs
      · exact Nat.le_succ_of_le (ih _ _ _)
      · exact Nat.le_succ _

/-- A message is part of what the client has sent. -/
theorem length_le_of_unpack {s : Socket} {msg : List UInt8}
    (h : connectionHandler s = .unpack msg) : msg.length ≤ s.bytes.length := by
  have hle : (decodeVarint s).2.bytes.length ≤ s.bytes.length := length_decodeLoop_le s 0 0
  rw [connectionHandler] at h
  generalize decodeVarint s = out at h hle
  obtain ⟨msgLen, s'⟩ := out
  dsimp only at h hle
  split_ifs at h
  rw [← Handled.unpack.inj h]
  exact Nat.le_trans (List.length_take_le' _ _) hle

/-- A message that is unpacked starts the analyses that it asks for. -/
theorem handleConnection_of_unpack {courses : ℕ → Course} {s : Socket}
    (hsize : s.bytes.length < 2 ^ 32) {msg : List UInt8} {init : Protobuf.Analysis.Init}
    (hmsg : connectionHandler s = .unpack msg)
    (hinit : messageUnpack initDescriptor msg = .ok init) {started : List Analysis}
    {stop : Option Stop} (h : handleConnection courses s = some (started, stop)) :
    ConnectionOutcome courses init init.netInts 0 started stop := by
  have hlt : msg.length < 2 ^ 32 := Nat.lt_of_le_of_lt (length_le_of_unpack hmsg) hsize
  have hids : ∀ n ∈ init.netInts, HasIds n :=
    fun n hn => (Protobuf.Analysis.init_ids hlt hinit n hn).2
  have houtcome := startAnalyses_eq courses init hids 0
  rw [handleConnection, hmsg] at h
  simp only [hinit] at h
  rwa [Option.some.inj h] at houtcome

theorem ConnectionOutcome.not_fault {courses : ℕ → Course} {init : Protobuf.Analysis.Init}
    {l : List Protobuf.Analysis.NetInt} {i : ℕ} {started : List Analysis} {stop : Option Stop}
    (h : ConnectionOutcome courses init l i started stop) : stop ≠ some .fault := by
  rw [h.stop]
  split_ifs <;> simp

/-- **The handler compares no text that is not there, and starts what was asked for.**  Whatever
the client sends, unless the message is received past its memory or unpacking leaves it: of a
message that is unpacked, the interfaces up to the first with an unknown protocol are analysed,
in order and as the message says, as long as each analysis is over before the next; such a
protocol ends the thread, and behind an analysis that is never over it waits for ever.  Without
a message, nothing is analysed. -/
theorem handleConnection_follows (courses : ℕ → Course) (s : Socket)
    (hsize : s.bytes.length < 2 ^ 32) (started : List Analysis) (stop : Option Stop)
    (h : handleConnection courses s = some (started, stop)) :
    stop ≠ some .fault ∧
      (∀ msg init, connectionHandler s = .unpack msg → messageUnpack initDescriptor msg = .ok init →
        ConnectionOutcome courses init init.netInts 0 started stop) ∧
      ((∀ msg init, connectionHandler s = .unpack msg →
        messageUnpack initDescriptor msg ≠ .ok init) → started = []) := by
  have hstarts {msg : List UInt8} {init : Protobuf.Analysis.Init}
      (hmsg : connectionHandler s = .unpack msg)
      (hinit : messageUnpack initDescriptor msg = .ok init) :=
    handleConnection_of_unpack hsize hmsg hinit h
  refine ⟨?_, fun msg init hmsg hinit => hstarts hmsg hinit, fun hnone => ?_⟩
  · rw [handleConnection] at h
    split at h
    · exact (Prod.mk.inj (Option.some.inj h)).2 ▸ by simp
    · exact absurd h (by simp)
    · exact (Prod.mk.inj (Option.some.inj h)).2 ▸ by simp
    · next msg hmsg =>
        split at h
        · exact absurd h (by simp)
        · exact (Prod.mk.inj (Option.some.inj h)).2 ▸ by simp
        · next init hinit => exact (hstarts hmsg hinit).not_fault
  · rw [handleConnection] at h
    split at h
    · exact (Prod.mk.inj (Option.some.inj h)).1.symm
    · exact absurd h (by simp)
    · exact (Prod.mk.inj (Option.some.inj h)).1.symm
    · next msg hmsg =>
        split at h
        · exact absurd h (by simp)
        · exact (Prod.mk.inj (Option.some.inj h)).1.symm
        · next init hinit => exact absurd hinit (hnone msg init hmsg)

/-- HTTP on the first interface, which is analysed for a minute, and a protocol that is not known
on the second. -/
theorem handleConnection_follows_ftp :
    ∃ analysis, handleConnection (fun _ => ⟨true, true⟩) ⟨[0x23,
        0x0A, 0x0E, 0x0A, 2, 0x6C, 0x6F, 0x12, 8, 0x0A, 4, 0x48, 0x54, 0x54, 0x50, 0x10, 5,
        0x0A, 0x0D, 0x0A, 2, 0x65, 0x6E, 0x12, 7, 0x0A, 3, 0x46, 0x54, 0x50, 0x10, 5,
        0x10, 5, 0x18, 60], 0, fun _ => 64⟩ =
          some ([analysis], some (.error "Unrecognized protocol")) ∧
      analysis.interface = some [0x6C, 0x6F] := by
  let msg : List UInt8 := [0x0A, 0x0E, 0x0A, 2, 0x6C, 0x6F, 0x12, 8, 0x0A, 4, 0x48, 0x54, 0x54,
    0x50, 0x10, 5, 0x0A, 0x0D, 0x0A, 2, 0x65, 0x6E, 0x12, 7, 0x0A, 3, 0x46, 0x54, 0x50, 0x10, 5,
    0x10, 5, 0x18, 60]
  let init : Protobuf.Analysis.Init :=
    { netInts := [
        { id := some [0x6C, 0x6F]
          protocols := [{ id := some [0x48, 0x54, 0x54, 0x50], activeMetrics := 5 }] },
        { id := some [0x65, 0x6E]
          protocols := [{ id := some [0x46, 0x54, 0x50], activeMetrics := 5 }] }]
      interval := 5
      duration := 60 }
  have hmsg : connectionHandler ⟨0x23 :: msg, 0, fun _ => 64⟩ = .unpack msg := by decide +kernel
  have hinit : messageUnpack initDescriptor msg = .ok init := by
    have hoption : (messageUnpack initDescriptor msg).toOption = some init := by decide +kernel
    cases hunpack : messageUnpack initDescriptor msg with
    | error e => simp [hunpack, Except.toOption] at hoption
    | ok m => simpa [hunpack, Except.toOption] using hoption
  let courses : ℕ → Course := fun _ => ⟨true, true⟩
  obtain ⟨started, stop, hout⟩ : ∃ started stop, startAnalyses courses init 0 init.netInts =
      (started, stop) := ⟨_, _, rfl⟩
  have hhandled : handleConnection courses ⟨0x23 :: msg, 0, fun _ => 64⟩ =
      some (started, stop) := by
    rw [handleConnection, hmsg]
    simp only [hinit, hout]
  obtain ⟨-, hfollows, -⟩ := handleConnection_follows courses _ (by decide) _ _ hhandled
  obtain ⟨hstarted, hstop⟩ := hfollows msg init hmsg hinit
  have hknown : reached (returns courses init) (init.netInts.takeWhile allKnown).zipIdx =
      [({ id := some [0x6C, 0x6F]
          protocols := [{ id := some [0x48, 0x54, 0x54, 0x50], activeMetrics := 5 }] }, 0)] := by
    decide
  rw [hknown, List.forall₂_cons_left_iff] at hstarted
  obtain ⟨analysis, rest, hanalysis, hrest, heq⟩ := hstarted
  obtain rfl := List.forall₂_nil_left_iff.mp hrest
  have hover : (init.netInts.takeWhile allKnown).zipIdx.all (returns courses init) = true := by
    decide
  have hall : init.netInts.all allKnown = false := by decide
  rw [hover, if_pos rfl, hall, if_neg Bool.false_ne_true] at hstop
  rw [hstop, heq] at hhandled
  exact ⟨analysis, hhandled, hanalysis.interface⟩

end MonitoringTool.Sniffer
