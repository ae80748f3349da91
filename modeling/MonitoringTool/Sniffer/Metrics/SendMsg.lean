import MonitoringTool.Sniffer.ConnectionHandler
import MonitoringTool.Sniffer.Metrics.MetricAvg
import MonitoringTool.Sniffer.Metrics.MetricCumDistr
import MonitoringTool.Sniffer.Protobuf.Messages

/-!
# The messages of the metrics

`MetricAvg::sendMsg` and `MetricCumDistr::sendMsg` fill a `MetricMsg`, pack it behind its length
and send both at once.  A double is packed as its 64 bits; the arithmetic of the metrics is exact
here, and `bits` stands for the conversion.

The backend takes one byte for the length.  The message of an average always fits
(`length_avg_lt`); that of a distribution need not.
-/

namespace MonitoringTool.Sniffer

open Protobuf
open Protobuf.Analysis (MetricMsg Values metricMsgDescriptor metricAvgMsgDescriptor
  metricMsg_sizes)

/-- What both `sendMsg` set alike. -/
def Metric.msg (metric : Metric) (analysis : Analysis) (protocol : MonitoredProtocol)
    (time : Int64) (values : Values) : MetricMsg where
  name := some (chars metric.cls.name)
  netInt := analysis.interface
  netIntId := analysis.interfaceId
  protocol := some protocol.name
  protocolId := protocol.id
  time := time
  values := values

section Messages

variable (bits : ℚ → UInt64) (metric : Metric) (analysis : Analysis)
  (protocol : MonitoredProtocol) (time : Int64)

/-- The message of `MetricAvg::sendMsg`. -/
def MetricAvg.sendMsg (report : Report) : MetricMsg :=
  metric.msg analysis protocol time (.metricAvg (some
    { avg := bits report.avg, min := bits report.min, max := bits report.max }))

/-- The message of `MetricCumDistr::sendMsg`. -/
def MetricCumDistr.sendMsg (cfl : CfList) : MetricMsg :=
  metric.msg analysis protocol time (.metricCumDistr (some
    { freqs := cfl.list.map fun item => { name := some item.name, freq := bits item.cFreq } }))

end Messages

/-- What a call of `sendMsg` sends: what an average reports, or the list of a distribution. -/
inductive Reading where
  | avg (report : Report) : Reading
  | cumDistr (cfl : CfList) : Reading

/-- A call of `sendMsg`. -/
structure Sending where
  analysis : Analysis
  protocol : MonitoredProtocol
  metric : Metric
  time : Int64
  reading : Reading

/-- The message of a call. -/
def Sending.msg (bits : ℚ → UInt64) (s : Sending) : MetricMsg :=
  match s.reading with
  | .avg report => MetricAvg.sendMsg bits s.metric s.analysis s.protocol s.time report
  | .cumDistr cfl => MetricCumDistr.sendMsg bits s.metric s.analysis s.protocol s.time cfl

/-- What both hand to `send`: the size that was computed, and the message. -/
def sentBytes (msg : MetricMsg) : List UInt8 :=
  encodeVarint (messageGetPackedSize metricMsgDescriptor msg).toUInt64 ++
    messagePack metricMsgDescriptor msg

/-- The size that is sent is the length of the message. -/
theorem sentBytes_eq (msg : MetricMsg) :
    sentBytes msg = frame (messagePack metricMsgDescriptor msg) := by
  rw [sentBytes, frame, length_messagePack metricMsg_sizes]

/-! ## Averages are short -/

theorem uint32Size_of_lt {n : ℕ} (h : n < 128) : uint32Size (UInt32.ofNat n) = 1 := by
  have hlt : UInt32.ofNat n < 0x80 := by
    rw [UInt32.lt_iff_toNat_lt, UInt32.toNat_ofNat']
    exact Nat.lt_of_le_of_lt (Nat.mod_le n _) h
  rw [uint32Size, if_pos hlt]

theorem strlen_name_le (cls : MetricClass) : strlen (chars cls.name) ≤ 10 := by
  cases cls <;> decide

/-- Texts that compare equal are the same up to the first 0. -/
theorem takeWhile_eq_of_strcmpEq {s t : List UInt8} (h : strcmpEq s t = true) :
    s.takeWhile (· ≠ 0) = t.takeWhile (· ≠ 0) := by
  induction s generalizing t with
  | nil =>
      cases t with
      | nil => rfl
      | cons d t =>
          have hd : d = 0 := by simpa [strcmpEq] using h
          simp [hd]
  | cons c s ih =>
      cases t with
      | nil =>
          have hc : c = 0 := by simpa [strcmpEq] using h
          simp [hc]
      | cons d t =>
          obtain ⟨hhead, htail⟩ : c = d ∧ strcmpEq s t = true := by simpa [strcmpEq] using h
          rw [hhead, List.takeWhile_cons, List.takeWhile_cons, ih htail]

/-- What is packed of a string. -/
theorem take_strlen (s : List UInt8) : s.take (strlen s) = s.takeWhile (· ≠ 0) :=
  (List.prefix_iff_eq_take.mp (List.takeWhile_prefix _)).symm

/-- The name of a protocol that is picked is one of three, up to its end. -/
theorem take_strlen_of_pick {name : List UInt8} {cls : ProtocolName}
    (h : ProtocolName.pick name = some cls) :
    name.take (strlen name) ∈ [chars "HTTP", chars "MEMCACHED", chars "MYSQL"] := by
  rw [ProtocolName.pick] at h
  rw [take_strlen]
  split_ifs at h with hhttp hmemcached hmysql
  · rw [takeWhile_eq_of_strcmpEq hhttp]
    decide
  · rw [takeWhile_eq_of_strcmpEq hmemcached]
    decide
  · rw [takeWhile_eq_of_strcmpEq hmysql]
    decide

theorem strlen_le_of_pick {name : List UInt8} {cls : ProtocolName}
    (h : ProtocolName.pick name = some cls) : strlen name ≤ 9 := by
  have hall : ∀ text ∈ [chars "HTTP", chars "MEMCACHED", chars "MYSQL"], text.length ≤ 9 := by
    decide
  exact length_take_strlen name ▸ hall _ (take_strlen_of_pick h)

/-- The message of an average takes less than 128 bytes, whatever is reported, when the name of
the interface has no more than 48. -/
theorem length_avg_lt (bits : ℚ → UInt64) (metric : Metric) {analysis : Analysis}
    {protocol : MonitoredProtocol} (time : Int64) (report : Report)
    (hpick : ProtocolName.pick protocol.name = some protocol.cls)
    (hinterface : analysis.interface.elim 0 strlen ≤ 48) :
    (messagePack metricMsgDescriptor
      (MetricAvg.sendMsg bits metric analysis protocol time report)).length < 128 := by
  have hname := strlen_name_le metric.cls
  have hprotocol := strlen_le_of_pick hpick
  have hnameSize := uint32Size_of_lt (Nat.lt_of_le_of_lt hname (by decide))
  have hprotocolSize := uint32Size_of_lt (Nat.lt_of_le_of_lt hprotocol (by decide))
  have hinterfaceSize := uint32Size_of_lt (Nat.lt_of_le_of_lt hinterface (by decide))
  have hinterfaceId := uint32Size_le analysis.interfaceId
  have hprotocolId := uint32Size_le protocol.id
  have htime := uint64Size_le time.toUInt64
  -- three doubles behind a key of one byte each
  have hvalues : ∀ m, (messageOps metricAvgMsgDescriptor).getPackedSize
      { avg := bits report.avg, min := bits report.min, max := m } = 27 := fun _ => rfl
  have htags : getTagSize 1 = 1 ∧ getTagSize 2 = 1 ∧ getTagSize 3 = 1 ∧ getTagSize 4 = 1 ∧
      getTagSize 5 = 1 ∧ getTagSize 6 = 1 ∧ getTagSize 7 = 1 ∧ getTagSize 8 = 1 ∧
      uint64Size (Int64.toUInt64 0) = 1 ∧ uint32Size (UInt32.ofNat 27) = 1 := by decide
  have hcase : ¬ (8 : UInt32) = 9 := by decide
  rw [length_messagePack metricMsg_sizes]
  simp only [messageGetPackedSize, metricMsgDescriptor, fieldGetPackedSize, List.map_cons,
    List.map_nil, List.sum_cons, List.sum_nil, requiredFieldGetPackedSize,
    oneofFieldGetPackedSize, isSet, MetricAvg.sendMsg, Metric.msg, Values.case, Values.avg,
    Option.elim_some, Option.isSome_some, Nat.toUInt32_eq, hvalues, hnameSize, hprotocolSize,
    hinterfaceSize, htags]
  simp only [ne_eq, not_true_eq_false, hcase, not_false_eq_true, if_false, if_true, Nat.add_zero]
  omega

end MonitoringTool.Sniffer
