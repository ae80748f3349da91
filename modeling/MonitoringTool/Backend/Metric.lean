import MonitoringTool.Backend.CodedInput

/-!
# Reading a `MetricMsg`

The backend reads what the sniffer reports with the crate's `parse_from_bytes`: the fields of the
message are merged into an empty one, and what is required must be there at the end.  A text that
is not UTF-8 is refused, and with it the whole message.
-/

namespace MonitoringTool.Backend

open Lib Wire

variable {U E : Type}

/-! ## The messages -/

/-- `MetricAvgMsg`; an `f64` is its 64 bits. -/
structure MetricAvgMsg (U : Type) where
  avg : Option UInt64
  min : Option UInt64
  max : Option UInt64
  unknownFields : U
  deriving DecidableEq

/-- `Freq`. -/
structure Freq (U : Type) where
  name : Option String
  freq : Option UInt64
  unknownFields : U
  deriving DecidableEq

/-- `MetricCumDistrMsg`. -/
structure MetricCumDistrMsg (U : Type) where
  freqs : List (Freq U)
  unknownFields : U
  deriving DecidableEq

/-- `MetricMsg_oneof_values`. -/
inductive MetricMsgOneofValues (U : Type) where
  | metricAvg (v : MetricAvgMsg U) : MetricMsgOneofValues U
  | metricCumDistr (v : MetricCumDistrMsg U) : MetricMsgOneofValues U
  deriving DecidableEq

/-- `MetricMsg`. -/
structure MetricMsg (U : Type) where
  name : Option String
  netInt : Option String
  netIntId : Option UInt32
  protocol : Option String
  protocolId : Option UInt32
  time : Option Int64
  clientId : Option Int64
  values : Option (MetricMsgOneofValues U)
  unknownFields : U
  deriving DecidableEq

/-! ## `is_initialized` -/

def MetricAvgMsg.isInitialized (m : MetricAvgMsg U) : Bool :=
  m.avg.isSome && m.min.isSome && m.max.isSome

def Freq.isInitialized (m : Freq U) : Bool := m.name.isSome && m.freq.isSome

def MetricCumDistrMsg.isInitialized (m : MetricCumDistrMsg U) : Bool :=
  m.freqs.all Freq.isInitialized

def MetricMsgOneofValues.isInitialized : MetricMsgOneofValues U → Bool
  | metricAvg v => v.isInitialized
  | metricCumDistr v => v.isInitialized

def MetricMsg.isInitialized (m : MetricMsg U) : Bool :=
  m.name.isSome && m.netInt.isSome && m.netIntId.isSome && m.protocol.isSome &&
    m.protocolId.isSome && m.time.isSome && m.clientId.isSome &&
    m.values.all MetricMsgOneofValues.isInitialized

/-! ## `merge_from` -/

section Merge

variable (is : CodedInput U E)

def MetricAvgMsg.new : MetricAvgMsg U :=
  { avg := none, min := none, max := none, unknownFields := is.noFields }

/-- The `match` of `MetricAvgMsg::merge_from`. -/
def MetricAvgMsg.mergeField (m : MetricAvgMsg U) (number wireType : ℕ) :
    Read E (MetricAvgMsg U) :=
  match number with
  | 5 => setField (is.expect wireTypeFixed64 wireType is.readDouble)
      fun v => { m with avg := some v }
  | 6 => setField (is.expect wireTypeFixed64 wireType is.readDouble)
      fun v => { m with min := some v }
  | 7 => setField (is.expect wireTypeFixed64 wireType is.readDouble)
      fun v => { m with max := some v }
  | _ => setField (is.readUnknown number wireType m.unknownFields)
      fun fields => { m with unknownFields := fields }

theorem MetricAvgMsg.mergeField_shrinks (m : MetricAvgMsg U) (number wireType : ℕ) :
    Shrinks (m.mergeField is number wireType) := by
  have hdouble : Shrinks (is.expect wireTypeFixed64 wireType is.readDouble) :=
    CodedInput.expect_shrinks is.double_shrinks
  unfold mergeField
  split
  · exact setField_shrinks hdouble _
  · exact setField_shrinks hdouble _
  · exact setField_shrinks hdouble _
  · exact setField_shrinks (is.unknown_shrinks _ _ _) _

/-- `MetricAvgMsg::merge_from`, into an empty message. -/
def MetricAvgMsg.mergeFrom (input : List UInt8) : Except E (MetricAvgMsg U) :=
  (is.merger (mergeField is) (mergeField_shrinks is)).run (new is) input

def MetricAvgMsg.message : Message E (MetricAvgMsg U) where
  isInitialized := isInitialized
  mergeFrom := mergeFrom is

def Freq.new : Freq U := { name := none, freq := none, unknownFields := is.noFields }

/-- The `match` of `Freq::merge_from`. -/
def Freq.mergeField (m : Freq U) (number wireType : ℕ) : Read E (Freq U) :=
  match number with
  | 1 => setField (is.readSingularString wireType) fun v => { m with name := some v }
  | 2 => setField (is.expect wireTypeFixed64 wireType is.readDouble)
      fun v => { m with freq := some v }
  | _ => setField (is.readUnknown number wireType m.unknownFields)
      fun fields => { m with unknownFields := fields }

theorem Freq.mergeField_shrinks (m : Freq U) (number wireType : ℕ) :
    Shrinks (m.mergeField is number wireType) := by
  unfold mergeField
  split
  · exact setField_shrinks (is.string_shrinks _) _
  · exact setField_shrinks (CodedInput.expect_shrinks is.double_shrinks) _
  · exact setField_shrinks (is.unknown_shrinks _ _ _) _

/-- `Freq::merge_from`, into an empty message. -/
def Freq.mergeFrom (input : List UInt8) : Except E (Freq U) :=
  (is.merger (mergeField is) (mergeField_shrinks is)).run (new is) input

def Freq.message : Message E (Freq U) where
  isInitialized := isInitialized
  mergeFrom := mergeFrom is

def MetricCumDistrMsg.new : MetricCumDistrMsg U := { freqs := [], unknownFields := is.noFields }

/-- The `match` of `MetricCumDistrMsg::merge_from`. -/
def MetricCumDistrMsg.mergeField (m : MetricCumDistrMsg U) (number wireType : ℕ) :
    Read E (MetricCumDistrMsg U) :=
  match number with
  | 1 => setField (is.readRepeatedMessage wireType (Freq.message is))
      fun v => { m with freqs := m.freqs ++ [v] }
  | _ => setField (is.readUnknown number wireType m.unknownFields)
      fun fields => { m with unknownFields := fields }

theorem MetricCumDistrMsg.mergeField_shrinks (m : MetricCumDistrMsg U) (number wireType : ℕ) :
    Shrinks (m.mergeField is number wireType) := by
  unfold mergeField
  split
  · exact setField_shrinks (is.repeated_shrinks _ _) _
  · exact setField_shrinks (is.unknown_shrinks _ _ _) _

/-- `MetricCumDistrMsg::merge_from`, into an empty message. -/
def MetricCumDistrMsg.mergeFrom (input : List UInt8) : Except E (MetricCumDistrMsg U) :=
  (is.merger (mergeField is) (mergeField_shrinks is)).run (new is) input

def MetricCumDistrMsg.message : Message E (MetricCumDistrMsg U) where
  isInitialized := isInitialized
  mergeFrom := mergeFrom is

def MetricMsg.new : MetricMsg U :=
  { name := none, netInt := none, netIntId := none, protocol := none, protocolId := none,
    time := none, clientId := none, values := none, unknownFields := is.noFields }

/-- The `match` of `MetricMsg::merge_from`. -/
def MetricMsg.mergeField (m : MetricMsg U) (number wireType : ℕ) : Read E (MetricMsg U) :=
  match number with
  | 1 => setField (is.readSingularString wireType) fun v => { m with name := some v }
  | 2 => setField (is.readSingularString wireType) fun v => { m with netInt := some v }
  | 3 => setField (is.expect wireTypeVarint wireType is.readUint32)
      fun v => { m with netIntId := some v }
  | 4 => setField (is.readSingularString wireType) fun v => { m with protocol := some v }
  | 5 => setField (is.expect wireTypeVarint wireType is.readUint32)
      fun v => { m with protocolId := some v }
  | 6 => setField (is.expect wireTypeVarint wireType is.readInt64)
      fun v => { m with time := some v }
  | 7 => setField (is.expect wireTypeVarint wireType is.readInt64)
      fun v => { m with clientId := some v }
  | 8 => setField (is.expect wireTypeLengthDelimited wireType
        (is.readMessage (MetricAvgMsg.message is)))
      fun v => { m with values := some (.metricAvg v) }
  | 9 => setField (is.expect wireTypeLengthDelimited wireType
        (is.readMessage (MetricCumDistrMsg.message is)))
      fun v => { m with values := some (.metricCumDistr v) }
  | _ => setField (is.readUnknown number wireType m.unknownFields)
      fun fields => { m with unknownFields := fields }

theorem MetricMsg.mergeField_shrinks (m : MetricMsg U) (number wireType : ℕ) :
    Shrinks (m.mergeField is number wireType) := by
  have htext := is.string_shrinks wireType
  have huint32 : Shrinks (is.expect wireTypeVarint wireType is.readUint32) :=
    CodedInput.expect_shrinks is.uint32_shrinks
  have hint64 : Shrinks (is.expect wireTypeVarint wireType is.readInt64) :=
    CodedInput.expect_shrinks is.int64_shrinks
  unfold mergeField
  split
  · exact setField_shrinks htext _
  · exact setField_shrinks htext _
  · exact setField_shrinks huint32 _
  · exact setField_shrinks htext _
  · exact setField_shrinks huint32 _
  · exact setField_shrinks hint64 _
  · exact setField_shrinks hint64 _
  · exact setField_shrinks (CodedInput.expect_shrinks (is.message_shrinks _)) _
  · exact setField_shrinks (CodedInput.expect_shrinks (is.message_shrinks _)) _
  · exact setField_shrinks (is.unknown_shrinks _ _ _) _

/-- `MetricMsg::merge_from`, into an empty message. -/
def MetricMsg.mergeFrom (input : List UInt8) : Except E (MetricMsg U) :=
  (is.merger (mergeField is) (mergeField_shrinks is)).run (new is) input

def MetricMsg.message : Message E (MetricMsg U) where
  isInitialized := isInitialized
  mergeFrom := mergeFrom is

/-- The crate's `parse_from_bytes` of a `MetricMsg`, as `SnifferCodec::decode` calls it. -/
def MetricMsg.parseFromBytes (input : List UInt8) : Except E (MetricMsg U) :=
  is.parseFromBytes (message is) input

end Merge

end MonitoringTool.Backend
