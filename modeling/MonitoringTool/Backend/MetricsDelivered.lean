import MonitoringTool.Backend.Framing
import MonitoringTool.Backend.MetricReceived
import MonitoringTool.Sniffer.Metrics.SendMsg

/-!
# From the metrics to the browser

The sniffer sends the messages of its metrics one behind the other, the backend cuts the stream
into frames, parses them, and hands each message to the handler of the web socket, which shows it
to the browser.  `reports_reach_browser` says what the browser sees of messages that fit into a
frame; `averages_reach_browser` that the averages of the analyses that a client has asked for
always do, and whose they are.
-/

namespace MonitoringTool.Backend

open Sniffer.Protobuf
open Sniffer (Sending sentBytes sentStream frame_of_short)
open Analysis (metricMsgDescriptor)

variable {U E : Type}

/-! ## The handler of the web socket -/

/-- `MetricAvg` of `main.rs`. -/
structure MetricAvg where
  avg : UInt64
  min : UInt64
  max : UInt64
  deriving DecidableEq

/-- `CFreqItem`. -/
structure CFreqItem where
  name : String
  freq : UInt64
  deriving DecidableEq

/-- `CFreq`. -/
structure CFreq where
  cfreq : List CFreqItem
  deriving DecidableEq

/-- `Msg::Metric`. -/
structure Msg.Metric where
  name : String
  netInt : String
  netIntId : UInt32
  protocol : String
  protocolId : UInt32
  time : Int64
  clientId : Int64
  metricAvg : Option MetricAvg
  metricCumDistr : Option CFreq
  deriving DecidableEq

/-- `Handler<MetricMsg>::handle`: the message that is serialized. -/
def MetricMsg.handle (metric : MetricMsg U) : Msg.Metric where
  name := metric.name.getD ""
  netInt := metric.netInt.getD ""
  netIntId := metric.netIntId.getD 0
  protocol := metric.protocol.getD ""
  protocolId := metric.protocolId.getD 0
  time := metric.time.getD 0
  clientId := 0
  metricAvg :=
    match metric.values with
    | some (.metricAvg m) => some ⟨m.avg.getD 0, m.min.getD 0, m.max.getD 0⟩
    | _ => none
  metricCumDistr :=
    match metric.values with
    | some (.metricCumDistr m) =>
        some ⟨m.freqs.map fun freq => ⟨freq.name.getD "", freq.freq.getD 0⟩⟩
    | _ => none

/-! ## The frames -/

section Frames

variable {μ ε : Type*} (parse : List UInt8 → Except ε μ)

/-- Of short messages the items are those before the first that is refused. -/
theorem drain_short_frames {payloads : List (List UInt8)}
    (hshort : ∀ p ∈ payloads, p.length < 128) :
    let seen := drain parse (sentStream payloads)
    seen.items.map some = (payloads.map fun p => (parse p).toOption).takeWhile Option.isSome ∧
      (seen.error = none ↔ ∀ p ∈ payloads, (parse p).toOption.isSome) ∧
      (seen.error = none → seen.left = []) := by
  induction payloads with
  | nil => simp
  | cons p payloads ih =>
      obtain ⟨hitems, herror, hleft⟩ := ih fun q hq => hshort q (by simp [hq])
      have hp : p.length < 128 := hshort p (by simp)
      have hlen : p.length = p.length.toUInt8.toNat := by
        rw [Nat.toUInt8_eq, UInt8.toNat_ofNat']
        omega
      simp only [Sniffer.sentStream_cons, frame_of_short hp, List.cons_append]
      cases hparse : parse p with
      | error e =>
          rw [drain_refused parse hlen hparse]
          simp [hparse, Except.toOption]
      | ok m =>
          rw [drain_full parse hlen hparse]
          simpa [hparse, Except.toOption] using ⟨hitems, herror, hleft⟩

/-- The chunks do not matter to a reader that stops at an error either. -/
theorem feed_eq_drain (chunks : List (List UInt8)) :
    (feed parse [] chunks).items = (drain parse chunks.flatten).items ∧
      (feed parse [] chunks).error = (drain parse chunks.flatten).error ∧
      ((feed parse [] chunks).error = none →
        (feed parse [] chunks).left = (drain parse chunks.flatten).left) := by
  obtain ⟨hitems, herror, hleft⟩ := feed_receive parse [] [] chunks
  rw [foldl_receive_nil] at hitems herror hleft
  exact ⟨hitems.symm, herror.symm, fun hnone => (hleft hnone).symm⟩

end Frames

/-! ## What the browser sees -/

/-- The texts of a message, its name apart. -/
def texts (s : Sending) : List (Option (List UInt8)) :=
  s.analysis.interface :: some s.protocol.name ::
    match s.reading with
    | .avg _ => []
    | .cumDistr cfl => cfl.list.map fun item => some item.name

/-- The texts are UTF-8. -/
def readable (s : Sending) : Bool := (texts s).all fun str => (text str).isSome

/-- A readable text. -/
def textOf (str : Option (List UInt8)) : String := (text str).getD ""

/-- What is shown of a call of `sendMsg`. -/
def shown (bits : ℚ → UInt64) (s : Sending) : Msg.Metric where
  name := s.metric.cls.name
  netInt := textOf s.analysis.interface
  netIntId := s.analysis.interfaceId
  protocol := textOf (some s.protocol.name)
  protocolId := s.protocol.id
  time := s.time
  clientId := 0
  metricAvg :=
    match s.reading with
    | .avg report => some ⟨bits report.avg, bits report.min, bits report.max⟩
    | .cumDistr _ => none
  metricCumDistr :=
    match s.reading with
    | .avg _ => none
    | .cumDistr cfl => some ⟨cfl.list.map fun item => ⟨textOf (some item.name), bits item.cFreq⟩⟩

theorem text_name (cls : Sniffer.MetricClass) :
    text (some (Sniffer.chars cls.name)) = some cls.name := by
  cases cls <;> decide

theorem msg_plain (bits : ℚ → UInt64) (s : Sending) : Plain (s.msg bits) := by
  obtain ⟨analysis, protocol, metric, time, reading⟩ := s
  cases reading with
  | avg report =>
      refine ⟨rfl, fun m hm => ?_⟩
      cases hm
      rfl
  | cumDistr cfl =>
      refine ⟨rfl, fun m hm => ?_⟩
      cases hm
      exact ⟨rfl, by simp⟩

/-- The items of a distribution are read when all their names are. -/
theorem mapM_receivedFreq (is : CodedInput U E) (bits : ℚ → UInt64) (items : List Sniffer.CfItem) :
    (items.map fun item => ({ name := some item.name, freq := bits item.cFreq } :
        Analysis.Freq)).mapM (receivedFreq is) =
      if items.all fun item => (text (some item.name)).isSome then
        some (items.map fun item =>
          ⟨some (textOf (some item.name)), some (bits item.cFreq), is.noFields⟩)
      else none := by
  induction items with
  | nil => rfl
  | cons item items ih =>
      rw [List.map_cons, List.mapM_cons, ih, receivedFreq]
      cases hname : text (some item.name) with
      | none => simp [hname]
      | some name =>
          simp only [List.all_cons, List.map_cons, hname, Option.isSome_some, Bool.true_and, textOf,
            Option.getD_some]
          split_ifs <;> rfl

theorem received_handle (is : CodedInput U E) (bits : ℚ → UInt64) (s : Sending) :
    (received is (s.msg bits)).map MetricMsg.handle =
      if readable s then some (shown bits s) else none := by
  obtain ⟨analysis, protocol, metric, time, reading⟩ := s
  cases hinterface : text analysis.interface with
  | none =>
      cases reading <;> simp [received, Sending.msg, Sniffer.MetricAvg.sendMsg,
        Sniffer.MetricCumDistr.sendMsg, Sniffer.Metric.msg, readable, texts, hinterface]
  | some interface =>
  cases hprotocol : text (some protocol.name) with
  | none =>
      cases reading <;> simp [received, Sending.msg, Sniffer.MetricAvg.sendMsg,
        Sniffer.MetricCumDistr.sendMsg, Sniffer.Metric.msg, readable, texts, hprotocol]
  | some name =>
  cases reading with
  | avg report =>
      simp [received, Sending.msg, Sniffer.MetricAvg.sendMsg, Sniffer.Metric.msg, readable, texts,
        shown, textOf, text_name, hinterface, hprotocol, receivedValues, receivedAvg,
        MetricMsg.handle]
  | cumDistr cfl =>
      have hfreqs := mapM_receivedFreq is bits cfl.list
      have hall : (cfl.list.map fun item => some item.name).all (fun str => (text str).isSome) =
          cfl.list.all fun item => (text (some item.name)).isSome := List.all_map
      by_cases hitems : (cfl.list.all fun item => (text (some item.name)).isSome) = true
      · rw [if_pos hitems] at hfreqs
        simp [received, Sending.msg, Sniffer.MetricCumDistr.sendMsg, Sniffer.Metric.msg, readable,
          texts, shown, textOf, text_name, hinterface, hprotocol, receivedValues, receivedCumDistr,
          hfreqs, hall, hitems, MetricMsg.handle]
      · rw [if_neg hitems] at hfreqs
        simp [received, Sending.msg, Sniffer.MetricCumDistr.sendMsg, Sniffer.Metric.msg, readable,
          texts, text_name, hinterface, hprotocol, receivedValues, receivedCumDistr, hfreqs, hall,
          hitems]

/-- A message is read when its texts are. -/
theorem received_isSome (is : CodedInput U E) (bits : ℚ → UInt64) (s : Sending) :
    (received is (s.msg bits)).isSome = readable s := by
  rw [← Option.isSome_map (f := MetricMsg.handle), received_handle]
  cases readable s <;> rfl

/-- What is read before the first message that is refused. -/
theorem takeWhile_received (is : CodedInput U E) (bits : ℚ → UInt64) (sendings : List Sending) :
    ((sendings.map fun s => received is (s.msg bits)).takeWhile Option.isSome).map
        (Option.map MetricMsg.handle) =
      ((sendings.takeWhile readable).map (shown bits)).map some := by
  induction sendings with
  | nil => rfl
  | cons s sendings ih =>
      rw [List.map_cons, List.takeWhile_cons, List.takeWhile_cons, received_isSome]
      cases hread : readable s with
      | false => rfl
      | true =>
          have hhandle := received_handle is bits s
          rw [hread, if_pos rfl] at hhandle
          rw [if_pos rfl, if_pos rfl, List.map_cons, ih, hhandle, List.map_cons, List.map_cons]

/-! ## Whose a report is -/

/-- The protocol of an analysis that was started is the one of the `Init` with its number. -/
theorem exists_of_started {courses : ℕ → Sniffer.Course} {init : Analysis.Init}
    {started : List Sniffer.Analysis} {stop : Option Sniffer.Stop}
    (houtcome : Sniffer.ConnectionOutcome courses init init.netInts 0 started stop)
    {s : Sending} (hanalysis : s.analysis ∈ started)
    (hprotocol : s.protocol ∈ s.analysis.protocols) :
    ∃ (netInt : Analysis.NetInt) (p : Analysis.Protocol) (i j : ℕ),
      init.netInts[i]? = some netInt ∧ netInt.protocols[j]? = some p ∧
        Sniffer.Analysis.Follows init netInt i s.analysis ∧
        Sniffer.MonitoredProtocol.Follows p j s.protocol := by
  obtain ⟨⟨netInt, i⟩, hreached, hfollows⟩ :=
    Lib.exists_of_mem_forall₂ houtcome.started hanalysis
  obtain ⟨⟨p, j⟩, hp, hmonitors⟩ := Lib.exists_of_mem_forall₂ hfollows.protocols hprotocol
  refine ⟨netInt, p, i, j, ?_, List.mk_mem_zipIdx_iff_getElem?.mp hp, hfollows, hmonitors⟩
  have hnetInt := List.mk_mem_zipIdx_iff_getElem?.mp (Sniffer.reached_subset _ _ hreached)
  obtain ⟨behind, hwhole⟩ := List.takeWhile_prefix (l := init.netInts) Sniffer.allKnown
  rw [← hwhole, List.getElem?_append_left (List.getElem?_eq_some_iff.mp hnetInt).1]
  exact hnetInt

/-- The name of a protocol that is monitored is readable. -/
theorem text_isSome_of_pick {name : List UInt8} {cls : Sniffer.ProtocolName}
    (h : Sniffer.ProtocolName.pick name = some cls) : (text (some name)).isSome = true := by
  have hall : ∀ bytes ∈ [Sniffer.chars "HTTP", Sniffer.chars "MEMCACHED", Sniffer.chars "MYSQL"],
      (utf8Text bytes).isSome = true := by decide
  exact hall _ (Sniffer.take_strlen_of_pick h)

theorem some_textOf {str : Option (List UInt8)} (h : (text str).isSome = true) :
    some (textOf str) = text str := by
  obtain ⟨s, hs⟩ := Option.isSome_iff_exists.mp h
  rw [textOf, hs, Option.getD_some]

/-! ## Delivery -/

section Delivery

variable {is : CodedInput U E} (h : is.Documented)
include h

/-- The stream of messages of less than 128 bytes. -/
theorem drain_sendings (bits : ℚ → UInt64) {sendings : List Sending}
    (hshort : ∀ s ∈ sendings, (messagePack metricMsgDescriptor (s.msg bits)).length < 128) :
    let seen := drain (MetricMsg.parseFromBytes is)
      (sendings.flatMap fun s => sentBytes (s.msg bits))
    seen.items.map MetricMsg.handle = (sendings.takeWhile readable).map (shown bits) ∧
      (seen.error = none ↔ ∀ s ∈ sendings, readable s = true) ∧
      (seen.error = none → seen.left = []) := by
  have hsent : (sendings.flatMap fun s => sentBytes (s.msg bits)) =
      sentStream (sendings.map fun s => messagePack metricMsgDescriptor (s.msg bits)) := by
    simp only [List.flatMap_def, sentStream, List.map_map, Function.comp_def,
      Sniffer.sentBytes_eq]
  have hparse : ∀ s ∈ sendings,
      (MetricMsg.parseFromBytes is (messagePack metricMsgDescriptor (s.msg bits))).toOption =
        received is (s.msg bits) := by
    intro s hs
    have hlt := hshort s hs
    exact parseFromBytes_messagePack h (msg_plain bits s) (by omega)
  have hframes := @drain_short_frames _ _ (MetricMsg.parseFromBytes is)
    (sendings.map fun s => messagePack metricMsgDescriptor (s.msg bits)) (by simpa using hshort)
  obtain ⟨hitems, herror, hleft⟩ := hframes
  rw [List.map_map, Function.comp_def, List.map_congr_left hparse] at hitems
  rw [hsent]
  refine ⟨?_, ?_, hleft⟩
  · have hsome := congrArg (List.map (Option.map MetricMsg.handle)) hitems
    rw [takeWhile_received, List.map_map, Function.comp_def] at hsome
    simp only [Option.map_some] at hsome
    rw [← Function.comp_def some, ← List.map_map] at hsome
    exact List.map_injective_iff.mpr (Option.some_injective _) hsome
  · rw [herror, List.forall_mem_map]
    refine forall₂_congr fun s hs => ?_
    rw [hparse s hs, received_isSome]

/-- **The browser sees what the metrics report.**  Of messages of less than 128 bytes it sees,
however they arrive, those before the first with a text that is not UTF-8, in order and with what
`sendMsg` was called with; that one ends the stream. -/
theorem reports_reach_browser (bits : ℚ → UInt64) {sendings : List Sending}
    (hshort : ∀ s ∈ sendings, (messagePack metricMsgDescriptor (s.msg bits)).length < 128)
    {chunks : List (List UInt8)}
    (hstream : chunks.flatten = sendings.flatMap fun s => sentBytes (s.msg bits)) :
    let seen := feed (MetricMsg.parseFromBytes is) [] chunks
    seen.items.map MetricMsg.handle = (sendings.takeWhile readable).map (shown bits) ∧
      (seen.error = none ↔ ∀ s ∈ sendings, readable s = true) ∧
      (seen.error = none → seen.left = []) := by
  obtain ⟨hitems, herror, hleft⟩ := feed_eq_drain (MetricMsg.parseFromBytes is) chunks
  obtain ⟨hshown, hreadable, hall⟩ := drain_sendings h bits hshort
  rw [← hstream] at hshown hreadable hall
  refine ⟨?_, ?_, fun hnone => ?_⟩
  · rw [hitems, hshown]
  · rw [herror, hreadable]
  · rw [hleft hnone, hall (herror ▸ hnone)]

end Delivery

/-- A distribution of paths over HTTP on `lo`, with one path. -/
def pathSending (path : List UInt8) : Sending where
  analysis := .new (some [0x6C, 0x6F]) 0 5 60
  protocol := .new .http [0x48, 0x54, 0x54, 0x50] 0
  metric := ⟨3, .reqPath⟩
  time := 1600000000
  reading := .cumDistr { list := [{ name := path, cFreq := 1 }], size := 100 }

/-- A path that is UTF-8, and one that is not. -/
theorem reports_reach_browser_path :
    (feed (MetricMsg.parseFromBytes plainInput) []
        [sentBytes ((pathSending [0x2F, 0x61]).msg fun _ => 0) ++
          sentBytes ((pathSending [0x2F, 0xFF]).msg fun _ => 0)]).items.map MetricMsg.handle =
      [shown (fun _ => 0) (pathSending [0x2F, 0x61])] := by
  have hseen := (@reports_reach_browser _ _ plainInput plainInput_documented (fun _ => 0)
    [pathSending [0x2F, 0x61], pathSending [0x2F, 0xFF]] (by decide +kernel)
    [sentBytes ((pathSending [0x2F, 0x61]).msg fun _ => 0) ++
      sentBytes ((pathSending [0x2F, 0xFF]).msg fun _ => 0)] (by simp)).1
  have hreadable : [pathSending [0x2F, 0x61], pathSending [0x2F, 0xFF]].takeWhile readable =
      [pathSending [0x2F, 0x61]] := by
    have hfirst : readable (pathSending [0x2F, 0x61]) = true := by decide
    have hsecond : readable (pathSending [0x2F, 0xFF]) = false := by decide
    rw [List.takeWhile_cons, hfirst, if_pos rfl, List.takeWhile_cons, hsecond,
      if_neg Bool.false_ne_true]
  rw [hreadable] at hseen
  exact hseen

section Averages

variable {is : CodedInput U E} (h : is.Documented)
include h

/-- **The averages of what a client asked for all come back to it.**  However long it goes on
and whatever they are, the averages that the analyses of an `Init` report are shown in order, each
with the number and the name of an interface of that `Init` and of a protocol there, when the
names of the interfaces are UTF-8 of at most 48 bytes. -/
theorem averages_reach_browser {socket : Sniffer.Socket} (hsize : socket.bytes.length < 2 ^ 32)
    {msg : List UInt8} {init : Analysis.Init}
    (hmsg : Sniffer.connectionHandler socket = .unpack msg)
    (hinit : messageUnpack Analysis.initDescriptor msg = .ok init)
    {courses : ℕ → Sniffer.Course} {started : List Sniffer.Analysis} {stop : Option Sniffer.Stop}
    (hstarted : Sniffer.handleConnection courses socket = some (started, stop))
    (hinterfaces : ∀ n ∈ init.netInts, (text n.id).isSome = true ∧ n.id.elim 0 strlen ≤ 48)
    (bits : ℚ → UInt64) {sendings : List Sending}
    (hsendings : ∀ s ∈ sendings, s.analysis ∈ started ∧ s.protocol ∈ s.analysis.protocols ∧
      ∃ report, s.reading = .avg report)
    {chunks : List (List UInt8)}
    (hstream : chunks.flatten = sendings.flatMap fun s => sentBytes (s.msg bits)) :
    let seen := feed (MetricMsg.parseFromBytes is) [] chunks
    seen.error = none ∧ seen.left = [] ∧
      seen.items.map MetricMsg.handle = sendings.map (shown bits) ∧
      ∀ s ∈ sendings, ∃ (netInt : Analysis.NetInt) (p : Analysis.Protocol) (i j : ℕ),
        init.netInts[i]? = some netInt ∧
        netInt.protocols[j]? = some p ∧
        (shown bits s).netIntId = i.toUInt32 ∧ some (shown bits s).netInt = text netInt.id ∧
        (shown bits s).protocolId = j.toUInt32 ∧ some (shown bits s).protocol = text p.id := by
  have houtcome := Sniffer.handleConnection_of_unpack hsize hmsg hinit hstarted
  have horigin : ∀ s ∈ sendings, ∃ (netInt : Analysis.NetInt) (p : Analysis.Protocol) (i j : ℕ),
      init.netInts[i]? = some netInt ∧ netInt.protocols[j]? = some p ∧
        Sniffer.Analysis.Follows init netInt i s.analysis ∧
        Sniffer.MonitoredProtocol.Follows p j s.protocol :=
    fun s hs => exists_of_started houtcome (hsendings s hs).1 (hsendings s hs).2.1
  have hshort : ∀ s ∈ sendings, (messagePack metricMsgDescriptor (s.msg bits)).length < 128 := by
    intro s hs
    obtain ⟨netInt, p, i, j, hnetInt, -, hanalysis, hprotocol⟩ := horigin s hs
    obtain ⟨report, hreading⟩ := (hsendings s hs).2.2
    rw [Sending.msg, hreading]
    refine Sniffer.length_avg_lt bits s.metric s.time report hprotocol.cls ?_
    rw [hanalysis.interface]
    exact (hinterfaces netInt (List.mem_of_getElem? hnetInt)).2
  have hreadable : ∀ s ∈ sendings, readable s = true := by
    intro s hs
    obtain ⟨netInt, p, i, j, hnetInt, -, hanalysis, hprotocol⟩ := horigin s hs
    obtain ⟨report, hreading⟩ := (hsendings s hs).2.2
    have hinterface := (hinterfaces netInt (List.mem_of_getElem? hnetInt)).1
    rw [← hanalysis.interface] at hinterface
    simp [readable, texts, hreading, hinterface, text_isSome_of_pick hprotocol.cls]
  obtain ⟨hitems, herror, hleft⟩ := feed_eq_drain (MetricMsg.parseFromBytes is) chunks
  obtain ⟨hshown, hall, hrest⟩ := drain_sendings h bits hshort
  rw [← hstream] at hshown hall hrest
  have hnone := hall.mpr hreadable
  refine ⟨herror.trans hnone, ?_, ?_, fun s hs => ?_⟩
  · rw [hleft (herror.trans hnone), hrest hnone]
  · rw [hitems, hshown, List.takeWhile_eq_self_iff.mpr hreadable]
  · obtain ⟨netInt, p, i, j, hnetInt, hp, hanalysis, hprotocol⟩ := horigin s hs
    refine ⟨netInt, p, i, j, hnetInt, hp, hanalysis.interfaceId, ?_, hprotocol.id, ?_⟩
    · rw [shown, hanalysis.interface]
      exact some_textOf (hinterfaces netInt (List.mem_of_getElem? hnetInt)).1
    · rw [shown, hprotocol.name]
      exact some_textOf (text_isSome_of_pick hprotocol.cls)

end Averages

/-- HTTP on `lo`, asked for in one message, and a request rate. -/
theorem averages_reach_browser_http :
    ∃ s : Sending, s.reading = .avg ⟨1, 0, 2⟩ ∧
      (feed (MetricMsg.parseFromBytes plainInput) []
        [sentBytes (s.msg fun _ => 0)]).items.map MetricMsg.handle = [shown (fun _ => 0) s] := by
  let msg : List UInt8 := [0x0A, 0x0E, 0x0A, 2, 0x6C, 0x6F, 0x12, 8, 0x0A, 4, 0x48, 0x54, 0x54,
    0x50, 0x10, 5, 0x10, 5, 0x18, 60]
  let init : Analysis.Init :=
    { netInts := [
        { id := some [0x6C, 0x6F]
          protocols := [{ id := some [0x48, 0x54, 0x54, 0x50], activeMetrics := 5 }] }]
      interval := 5
      duration := 60 }
  have hmsg : Sniffer.connectionHandler ⟨0x14 :: msg, 0, fun _ => 64⟩ = .unpack msg := by
    decide +kernel
  have hinit : messageUnpack Analysis.initDescriptor msg = .ok init := by
    have hoption : (messageUnpack Analysis.initDescriptor msg).toOption = some init := by
      decide +kernel
    cases hunpack : messageUnpack Analysis.initDescriptor msg with
    | error e => simp [hunpack, Except.toOption] at hoption
    | ok m => simpa [hunpack, Except.toOption] using hoption
  let courses : ℕ → Sniffer.Course := fun _ => ⟨true, true⟩
  obtain ⟨started, stop, hout⟩ : ∃ started stop,
      Sniffer.startAnalyses courses init 0 init.netInts = (started, stop) := ⟨_, _, rfl⟩
  have hhandled : Sniffer.handleConnection courses ⟨0x14 :: msg, 0, fun _ => 64⟩ =
      some (started, stop) := by
    rw [Sniffer.handleConnection, hmsg]
    simp only [hinit, hout]
  obtain ⟨hfollows, -⟩ := Sniffer.handleConnection_of_unpack (by decide) hmsg hinit hhandled
  have hknown : Sniffer.reached (Sniffer.returns courses init)
      (init.netInts.takeWhile Sniffer.allKnown).zipIdx =
      [({ id := some [0x6C, 0x6F]
          protocols := [{ id := some [0x48, 0x54, 0x54, 0x50], activeMetrics := 5 }] }, 0)] := by
    decide
  rw [hknown] at hfollows
  obtain ⟨analysis, rest, hanalysis, -, hstarted⟩ := List.forall₂_cons_left_iff.mp hfollows
  obtain ⟨protocol, others, -, -, hprotocols⟩ :=
    List.forall₂_cons_left_iff.mp hanalysis.protocols
  let s : Sending := ⟨analysis, protocol, ⟨0, .reqRate⟩, 1600000000, .avg ⟨1, 0, 2⟩⟩
  have hseen := @averages_reach_browser _ _ plainInput plainInput_documented
    ⟨0x14 :: msg, 0, fun _ => 64⟩ (by decide) msg init hmsg hinit courses started stop hhandled
    (by decide) (fun _ => 0) [s] ?_ [sentBytes (s.msg fun _ => 0)] (by simp)
  · exact ⟨s, rfl, hseen.2.2.1⟩
  · intro s' hs
    obtain rfl := List.mem_singleton.mp hs
    exact ⟨by simp [hstarted, s], by simp [hprotocols, s], _, rfl⟩

end MonitoringTool.Backend
