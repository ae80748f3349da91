import MonitoringTool.Sniffer.Protobuf.Arrays

/-!
# The messages of `analysis.pb-c.c`

The backend sends an `Init`, which says what to analyse, and receives a `MetricMsg` for every
value.  A pointer to characters is the block that it points into, or `none` for `NULL`.
-/

namespace MonitoringTool.Sniffer.Protobuf.Analysis

open Lib

/-! ## The structures -/

/-- `Analysis__Protocol`. -/
structure Protocol where
  unknownFields : List UnknownField := []
  id : Option (List UInt8) := none
  activeMetrics : UInt32 := 0
  hasClientIp : Bool := false
  clientIp : UInt32 := 0
  clientPorts : List UInt32 := []
  hasServerIp : Bool := false
  serverIp : UInt32 := 0
  serverPorts : List UInt32 := []
  deriving DecidableEq

/-- `Analysis__NetInt`. -/
structure NetInt where
  unknownFields : List UnknownField := []
  id : Option (List UInt8) := none
  protocols : List Protocol := []
  deriving DecidableEq

/-- `Analysis__Init`. -/
structure Init where
  unknownFields : List UnknownField := []
  netInts : List NetInt := []
  interval : UInt32 := 0
  duration : UInt32 := 0
  deriving DecidableEq

/-- `Analysis__MetricAvgMsg`. -/
structure MetricAvgMsg where
  unknownFields : List UnknownField := []
  avg : UInt64 := 0
  min : UInt64 := 0
  max : UInt64 := 0
  deriving DecidableEq

/-- `Analysis__Freq`. -/
structure Freq where
  unknownFields : List UnknownField := []
  name : Option (List UInt8) := none
  freq : UInt64 := 0
  deriving DecidableEq

/-- `Analysis__MetricCumDistrMsg`. -/
structure MetricCumDistrMsg where
  unknownFields : List UnknownField := []
  freqs : List Freq := []
  deriving DecidableEq

/-- `values_case` with the union behind it, which is cleared when it is not set. -/
inductive Values where
  | notSet : Values
  | metricAvg (msg : Option MetricAvgMsg) : Values
  | metricCumDistr (msg : Option MetricCumDistrMsg) : Values
  deriving DecidableEq

/-- `Analysis__MetricMsg`. -/
structure MetricMsg where
  unknownFields : List UnknownField := []
  name : Option (List UInt8) := none
  netInt : Option (List UInt8) := none
  netIntId : UInt32 := 0
  protocol : Option (List UInt8) := none
  protocolId : UInt32 := 0
  time : Int64 := 0
  clientId : Int64 := 0
  values : Values := .notSet
  deriving DecidableEq

/-- `Analysis__MetricMsg__ValuesCase`. -/
def Values.case : Values → UInt32
  | notSet => 0
  | metricAvg _ => 8
  | metricCumDistr _ => 9

/-! ## The descriptors -/

/-- `analysis__protocol__descriptor`. -/
def protocolDescriptor : MessageDescriptor Protocol where
  fields := [
    ⟨1, .string, .required { get := fun m => m.id, set := fun v m => { m with id := v } }⟩,
    ⟨2, .uint32, .required
      { get := fun m => m.activeMetrics, set := fun v m => { m with activeMetrics := v } }⟩,
    ⟨3, .uint32, .optional
      (some { get := fun m => m.hasClientIp, set := fun v m => { m with hasClientIp := v } })
      { get := fun m => m.clientIp, set := fun v m => { m with clientIp := v } }⟩,
    ⟨4, .uint32, .repeated
      { get := fun m => m.clientPorts, set := fun v m => { m with clientPorts := v } }⟩,
    ⟨5, .uint32, .optional
      (some { get := fun m => m.hasServerIp, set := fun v m => { m with hasServerIp := v } })
      { get := fun m => m.serverIp, set := fun v m => { m with serverIp := v } }⟩,
    ⟨6, .uint32, .repeated
      { get := fun m => m.serverPorts, set := fun v m => { m with serverPorts := v } }⟩]
  nFieldRanges := 1
  fieldRanges := [⟨1, 0⟩, ⟨0, 6⟩]
  messageInit := {}
  unknownFields :=
    { get := fun m => m.unknownFields, set := fun v m => { m with unknownFields := v } }
  describes := Describes.single 1 (by decide)

/-- `analysis__net_int__descriptor`. -/
def netIntDescriptor : MessageDescriptor NetInt where
  fields := [
    ⟨1, .string, .required { get := fun m => m.id, set := fun v m => { m with id := v } }⟩,
    ⟨2, .message Protocol (messageOps protocolDescriptor), .repeated
      { get := fun m => m.protocols, set := fun v m => { m with protocols := v } }⟩]
  nFieldRanges := 1
  fieldRanges := [⟨1, 0⟩, ⟨0, 2⟩]
  messageInit := {}
  unknownFields :=
    { get := fun m => m.unknownFields, set := fun v m => { m with unknownFields := v } }
  describes := Describes.single 1 (by decide)

/-- `analysis__init__descriptor`. -/
def initDescriptor : MessageDescriptor Init where
  fields := [
    ⟨1, .message NetInt (messageOps netIntDescriptor), .repeated
      { get := fun m => m.netInts, set := fun v m => { m with netInts := v } }⟩,
    ⟨2, .uint32, .required
      { get := fun m => m.interval, set := fun v m => { m with interval := v } }⟩,
    ⟨3, .uint32, .required
      { get := fun m => m.duration, set := fun v m => { m with duration := v } }⟩]
  nFieldRanges := 1
  fieldRanges := [⟨1, 0⟩, ⟨0, 3⟩]
  messageInit := {}
  unknownFields :=
    { get := fun m => m.unknownFields, set := fun v m => { m with unknownFields := v } }
  describes := Describes.single 1 (by decide)

/-- `analysis__metric_avg_msg__descriptor`. -/
def metricAvgMsgDescriptor : MessageDescriptor MetricAvgMsg where
  fields := [
    ⟨5, .double, .required { get := fun m => m.avg, set := fun v m => { m with avg := v } }⟩,
    ⟨6, .double, .required { get := fun m => m.min, set := fun v m => { m with min := v } }⟩,
    ⟨7, .double, .required { get := fun m => m.max, set := fun v m => { m with max := v } }⟩]
  nFieldRanges := 1
  fieldRanges := [⟨5, 0⟩, ⟨0, 3⟩]
  messageInit := {}
  unknownFields :=
    { get := fun m => m.unknownFields, set := fun v m => { m with unknownFields := v } }
  describes := Describes.single 5 (by decide)

/-- `analysis__freq__descriptor`. -/
def freqDescriptor : MessageDescriptor Freq where
  fields := [
    ⟨1, .string, .required { get := fun m => m.name, set := fun v m => { m with name := v } }⟩,
    ⟨2, .double, .required { get := fun m => m.freq, set := fun v m => { m with freq := v } }⟩]
  nFieldRanges := 1
  fieldRanges := [⟨1, 0⟩, ⟨0, 2⟩]
  messageInit := {}
  unknownFields :=
    { get := fun m => m.unknownFields, set := fun v m => { m with unknownFields := v } }
  describes := Describes.single 1 (by decide)

/-- `analysis__metric_cum_distr_msg__descriptor`. -/
def metricCumDistrMsgDescriptor : MessageDescriptor MetricCumDistrMsg where
  fields := [
    ⟨1, .message Freq (messageOps freqDescriptor), .repeated
      { get := fun m => m.freqs, set := fun v m => { m with freqs := v } }⟩]
  nFieldRanges := 1
  fieldRanges := [⟨1, 0⟩, ⟨0, 1⟩]
  messageInit := {}
  unknownFields :=
    { get := fun m => m.unknownFields, set := fun v m => { m with unknownFields := v } }
  describes := Describes.single 1 (by decide)

/-- The member `metricavg` of the union. -/
def Values.avg : Values → Option MetricAvgMsg
  | metricAvg msg => msg
  | _ => none

/-- The member `metriccumdistr` of the union. -/
def Values.cumDistr : Values → Option MetricCumDistrMsg
  | metricCumDistr msg => msg
  | _ => none

/-- `analysis__metric_msg__descriptor`. -/
def metricMsgDescriptor : MessageDescriptor MetricMsg where
  fields := [
    ⟨1, .string, .required { get := fun m => m.name, set := fun v m => { m with name := v } }⟩,
    ⟨2, .string, .required
      { get := fun m => m.netInt, set := fun v m => { m with netInt := v } }⟩,
    ⟨3, .uint32, .required
      { get := fun m => m.netIntId, set := fun v m => { m with netIntId := v } }⟩,
    ⟨4, .string, .required
      { get := fun m => m.protocol, set := fun v m => { m with protocol := v } }⟩,
    ⟨5, .uint32, .required
      { get := fun m => m.protocolId, set := fun v m => { m with protocolId := v } }⟩,
    ⟨6, .int64, .required { get := fun m => m.time, set := fun v m => { m with time := v } }⟩,
    ⟨7, .int64, .required
      { get := fun m => m.clientId, set := fun v m => { m with clientId := v } }⟩,
    ⟨8, .message MetricAvgMsg (messageOps metricAvgMsgDescriptor), .oneof
      (fun m => m.values.case) (fun m => m.values.avg)
      (fun v m => { m with values := .metricAvg v })⟩,
    ⟨9, .message MetricCumDistrMsg (messageOps metricCumDistrMsgDescriptor), .oneof
      (fun m => m.values.case) (fun m => m.values.cumDistr)
      (fun v m => { m with values := .metricCumDistr v })⟩]
  nFieldRanges := 1
  fieldRanges := [⟨1, 0⟩, ⟨0, 9⟩]
  messageInit := {}
  unknownFields :=
    { get := fun m => m.unknownFields, set := fun v m => { m with unknownFields := v } }
  describes := Describes.single 1 (by decide)

/-! ## The fields lie apart -/

theorem protocolDescriptor_apart : protocolDescriptor.Apart where
  fields := by simp [protocolDescriptor, FieldDescriptor.Sets, FieldDescriptor.count]
  ofUnknown := by simp [protocolDescriptor, FieldDescriptor.count]
  unknown := by simp [protocolDescriptor, FieldDescriptor.Sets]
  new := by simp [protocolDescriptor, FieldDescriptor.count]
  newUnknown := rfl

theorem netIntDescriptor_apart : netIntDescriptor.Apart where
  fields := by simp [netIntDescriptor, FieldDescriptor.Sets, FieldDescriptor.count]
  ofUnknown := by simp [netIntDescriptor, FieldDescriptor.count]
  unknown := by simp [netIntDescriptor, FieldDescriptor.Sets]
  new := by simp [netIntDescriptor, FieldDescriptor.count]
  newUnknown := rfl

theorem initDescriptor_apart : initDescriptor.Apart where
  fields := by simp [initDescriptor, FieldDescriptor.Sets, FieldDescriptor.count]
  ofUnknown := by simp [initDescriptor, FieldDescriptor.count]
  unknown := by simp [initDescriptor, FieldDescriptor.Sets]
  new := by simp [initDescriptor, FieldDescriptor.count]
  newUnknown := rfl

theorem metricAvgMsgDescriptor_apart : metricAvgMsgDescriptor.Apart where
  fields := by simp [metricAvgMsgDescriptor, FieldDescriptor.Sets, FieldDescriptor.count]
  ofUnknown := by simp [metricAvgMsgDescriptor, FieldDescriptor.count]
  unknown := by simp [metricAvgMsgDescriptor, FieldDescriptor.Sets]
  new := by simp [metricAvgMsgDescriptor, FieldDescriptor.count]
  newUnknown := rfl

theorem freqDescriptor_apart : freqDescriptor.Apart where
  fields := by simp [freqDescriptor, FieldDescriptor.Sets, FieldDescriptor.count]
  ofUnknown := by simp [freqDescriptor, FieldDescriptor.count]
  unknown := by simp [freqDescriptor, FieldDescriptor.Sets]
  new := by simp [freqDescriptor, FieldDescriptor.count]
  newUnknown := rfl

theorem metricCumDistrMsgDescriptor_apart : metricCumDistrMsgDescriptor.Apart where
  fields := by simp [metricCumDistrMsgDescriptor]
  ofUnknown := by simp [metricCumDistrMsgDescriptor, FieldDescriptor.count]
  unknown := by simp [metricCumDistrMsgDescriptor, FieldDescriptor.Sets]
  new := by simp [metricCumDistrMsgDescriptor, FieldDescriptor.count]
  newUnknown := rfl

theorem metricMsgDescriptor_apart : metricMsgDescriptor.Apart where
  fields := by simp [metricMsgDescriptor, FieldDescriptor.Sets, FieldDescriptor.count]
  ofUnknown := by simp [metricMsgDescriptor, FieldDescriptor.count]
  unknown := by simp [metricMsgDescriptor, FieldDescriptor.Sets]
  new := by simp [metricMsgDescriptor, FieldDescriptor.count]
  newUnknown := rfl

end MonitoringTool.Sniffer.Protobuf.Analysis
