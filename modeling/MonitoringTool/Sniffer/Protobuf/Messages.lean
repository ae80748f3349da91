import MonitoringTool.Sniffer.Protobuf.Overrun
import MonitoringTool.Sniffer.Protobuf.RoundTrip

/-!
# The messages between the sniffer and the backend

The results on `protobuf-c.c` at the messages of `analysis.pb-c.c`: the size that the sniffer
computes for a message is the length of what it packs, and a message whose texts are there comes
back from its bytes.
-/

namespace MonitoringTool.Sniffer.Protobuf.Analysis

open Lib

/-! ## Messages that can be sent -/

/-- The text is there, and no 0 stands before its end. -/
def IsText (str : Option (List UInt8)) : Prop := ∃ chars, str = some chars ∧ 0 ∉ chars

structure Protocol.Sendable (m : Protocol) : Prop where
  id : IsText m.id
  clientIp : m.hasClientIp = false → m.clientIp = 0
  serverIp : m.hasServerIp = false → m.serverIp = 0
  unknown : protocolDescriptor.UnknownReturn m.unknownFields

structure NetInt.Sendable (m : NetInt) : Prop where
  id : IsText m.id
  protocols : ∀ p ∈ m.protocols, p.Sendable
  unknown : netIntDescriptor.UnknownReturn m.unknownFields

structure Init.Sendable (m : Init) : Prop where
  netInts : ∀ n ∈ m.netInts, n.Sendable
  unknown : initDescriptor.UnknownReturn m.unknownFields

structure Freq.Sendable (m : Freq) : Prop where
  name : IsText m.name
  unknown : freqDescriptor.UnknownReturn m.unknownFields

structure MetricCumDistrMsg.Sendable (m : MetricCumDistrMsg) : Prop where
  freqs : ∀ f ∈ m.freqs, f.Sendable
  unknown : metricCumDistrMsgDescriptor.UnknownReturn m.unknownFields

/-- The case that is set has its message. -/
def Values.Sendable : Values → Prop
  | notSet => True
  | metricAvg msg =>
      ∃ m, msg = some m ∧ metricAvgMsgDescriptor.UnknownReturn m.unknownFields
  | metricCumDistr msg => ∃ m, msg = some m ∧ m.Sendable

structure MetricMsg.Sendable (m : MetricMsg) : Prop where
  name : IsText m.name
  netInt : IsText m.netInt
  protocol : IsText m.protocol
  values : m.values.Sendable
  unknown : metricMsgDescriptor.UnknownReturn m.unknownFields

/-! ## They come back -/

/-- A protocol is put together from its fields, when no value hides in a member that is not
set. -/
theorem protocol_rebuilds {m : Protocol} (hclient : m.hasClientIp = false → m.clientIp = 0)
    (hserver : m.hasServerIp = false → m.serverIp = 0) :
    Rebuilds protocolDescriptor m protocolDescriptor.messageInit protocolDescriptor.fields := by
  obtain ⟨unknown, id, active, hasClient, client, clientPorts, hasServer, server, ports⟩ := m
  cases hasClient <;> cases hasServer <;>
    simp_all [protocolDescriptor, Rebuilds, FieldDescriptor.copy, FieldDescriptor.Fresh, isSet,
      CType.zero, Lens.append]

theorem netInt_rebuilds (m : NetInt) :
    Rebuilds netIntDescriptor m netIntDescriptor.messageInit netIntDescriptor.fields := by
  simp [netIntDescriptor, Rebuilds, FieldDescriptor.copy, FieldDescriptor.Fresh, CType.zero,
    Lens.append]

theorem init_rebuilds (m : Init) :
    Rebuilds initDescriptor m initDescriptor.messageInit initDescriptor.fields := by
  simp [initDescriptor, Rebuilds, FieldDescriptor.copy, FieldDescriptor.Fresh, CType.zero,
    Lens.append]

theorem unpack_protocol {m : Protocol} (h : m.Sendable)
    (hsize : (messagePack protocolDescriptor m).length ≤ 2 * maxMembers) :
    messageUnpack protocolDescriptor (messagePack protocolDescriptor m) = .ok m := by
  refine unpack_pack protocolDescriptor_apart
    ⟨?_, h.unknown, protocol_rebuilds h.clientIp h.serverIp⟩ hsize
  have hid := h.id
  simpa [protocolDescriptor, FieldReturns, Returns, isSet, IsText] using hid

theorem unpack_netInt {m : NetInt} (h : m.Sendable)
    (hsize : (messagePack netIntDescriptor m).length ≤ 2 * maxMembers) :
    messageUnpack netIntDescriptor (messagePack netIntDescriptor m) = .ok m := by
  have hprotocols : ∀ p ∈ m.protocols,
      messageUnpack protocolDescriptor (messagePack protocolDescriptor p) = .ok p := by
    intro p hp
    have hfield : fieldPack m (netIntDescriptor.fields.get ⟨1, by decide⟩) =
      repeatedFieldPack 2 (.message Protocol (messageOps protocolDescriptor)) m.protocols := rfl
    exact unpack_protocol (h.protocols p hp) (Nat.le_trans (length_le_of_mem hfield hp) hsize)
  refine unpack_pack netIntDescriptor_apart ⟨?_, h.unknown, netInt_rebuilds m⟩ hsize
  have hid := h.id
  simpa [netIntDescriptor, FieldReturns, Returns, IsText, CType.ofElem, messageOps] using
    ⟨hid, hprotocols⟩

theorem unpack_init {m : Init} (h : m.Sendable)
    (hsize : (messagePack initDescriptor m).length ≤ 2 * maxMembers) :
    messageUnpack initDescriptor (messagePack initDescriptor m) = .ok m := by
  have hnetInts : ∀ n ∈ m.netInts,
      messageUnpack netIntDescriptor (messagePack netIntDescriptor n) = .ok n := by
    intro n hn
    have hfield : fieldPack m (initDescriptor.fields.get ⟨0, by decide⟩) =
      repeatedFieldPack 1 (.message NetInt (messageOps netIntDescriptor)) m.netInts := rfl
    exact unpack_netInt (h.netInts n hn) (Nat.le_trans (length_le_of_mem hfield hn) hsize)
  refine unpack_pack initDescriptor_apart ⟨?_, h.unknown, init_rebuilds m⟩ hsize
  simpa [initDescriptor, FieldReturns, Returns, CType.ofElem, messageOps] using hnetInts

/-- Two HTTP ports of a server, on one interface. -/
theorem unpack_init_server :
    messageUnpack initDescriptor (messagePack initDescriptor
      ⟨[], [⟨[], some [0x6C, 0x6F],
        [⟨[], some [0x48, 0x54], 5, false, 0, [], true, 0x0A000001, [80, 8080]⟩]⟩], 5, 60⟩) =
      .ok ⟨[], [⟨[], some [0x6C, 0x6F],
        [⟨[], some [0x48, 0x54], 5, false, 0, [], true, 0x0A000001, [80, 8080]⟩]⟩], 5, 60⟩ := by
  have hnone {S : Type} (desc : MessageDescriptor S) : desc.UnknownReturn [] := by
    intro field hfield
    exact absurd hfield (by simp)
  refine unpack_init ⟨?_, hnone _⟩ (by decide +kernel)
  simp only [List.mem_singleton, forall_eq]
  refine ⟨⟨_, rfl, by decide⟩, ?_, hnone _⟩
  simp only [List.mem_singleton, forall_eq]
  exact ⟨⟨_, rfl, by decide⟩, fun _ => rfl, fun h => absurd h (by decide), hnone _⟩

theorem unpack_freq {m : Freq} (h : m.Sendable)
    (hsize : (messagePack freqDescriptor m).length ≤ 2 * maxMembers) :
    messageUnpack freqDescriptor (messagePack freqDescriptor m) = .ok m := by
  refine unpack_pack freqDescriptor_apart ⟨?_, h.unknown, ?_⟩ hsize
  · have hname := h.name
    simpa [freqDescriptor, FieldReturns, Returns, IsText] using hname
  · simp [freqDescriptor, Rebuilds, FieldDescriptor.copy, FieldDescriptor.Fresh, CType.zero,
      Lens.append]

theorem unpack_metricAvgMsg {m : MetricAvgMsg}
    (h : metricAvgMsgDescriptor.UnknownReturn m.unknownFields)
    (hsize : (messagePack metricAvgMsgDescriptor m).length ≤ 2 * maxMembers) :
    messageUnpack metricAvgMsgDescriptor (messagePack metricAvgMsgDescriptor m) = .ok m := by
  refine unpack_pack metricAvgMsgDescriptor_apart ⟨?_, h, ?_⟩ hsize
  · simp [metricAvgMsgDescriptor, FieldReturns, Returns]
  · simp [metricAvgMsgDescriptor, Rebuilds, FieldDescriptor.copy, FieldDescriptor.Fresh,
      CType.zero, Lens.append]

theorem unpack_metricCumDistrMsg {m : MetricCumDistrMsg} (h : m.Sendable)
    (hsize : (messagePack metricCumDistrMsgDescriptor m).length ≤ 2 * maxMembers) :
    messageUnpack metricCumDistrMsgDescriptor (messagePack metricCumDistrMsgDescriptor m) =
      .ok m := by
  have hfreqs : ∀ f ∈ m.freqs,
      messageUnpack freqDescriptor (messagePack freqDescriptor f) = .ok f := by
    intro f hf
    have hfield : fieldPack m (metricCumDistrMsgDescriptor.fields.get ⟨0, by decide⟩) =
      repeatedFieldPack 1 (.message Freq (messageOps freqDescriptor)) m.freqs := rfl
    exact unpack_freq (h.freqs f hf) (Nat.le_trans (length_le_of_mem hfield hf) hsize)
  refine unpack_pack metricCumDistrMsgDescriptor_apart ⟨?_, h.unknown, ?_⟩ hsize
  · simpa [metricCumDistrMsgDescriptor, FieldReturns, Returns, CType.ofElem, messageOps] using
      hfreqs
  · simp [metricCumDistrMsgDescriptor, Rebuilds, FieldDescriptor.copy, FieldDescriptor.Fresh,
      Lens.append]

theorem unpack_metricMsg {m : MetricMsg} (h : m.Sendable)
    (hsize : (messagePack metricMsgDescriptor m).length ≤ 2 * maxMembers) :
    messageUnpack metricMsgDescriptor (messagePack metricMsgDescriptor m) = .ok m := by
  obtain ⟨hname, hnetInt, hprotocol, hvalues, hunknown⟩ := h
  obtain ⟨unknown, name, netInt, netIntId, protocol, protocolId, time, clientId, values⟩ := m
  cases values with
  | notSet =>
      refine unpack_pack metricMsgDescriptor_apart ⟨?_, hunknown, ?_⟩ hsize
      · simpa [metricMsgDescriptor, FieldReturns, Returns, IsText, Values.case] using
          ⟨hname, hnetInt, hprotocol⟩
      · simp [metricMsgDescriptor, Rebuilds, FieldDescriptor.copy, FieldDescriptor.Fresh,
          CType.zero, Lens.append, Values.case, Values.avg, Values.cumDistr]
  | metricAvg msg =>
      obtain ⟨avg, rfl, havg⟩ := hvalues
      have hfield : fieldPack (⟨unknown, name, netInt, netIntId, protocol, protocolId, time,
          clientId, .metricAvg (some avg)⟩ : MetricMsg)
          (metricMsgDescriptor.fields.get ⟨7, by decide⟩) =
        requiredFieldPack 8 (.message MetricAvgMsg (messageOps metricAvgMsgDescriptor))
          (some avg) := rfl
      have hback := unpack_metricAvgMsg havg (Nat.le_trans (length_le_of_single hfield) hsize)
      refine unpack_pack metricMsgDescriptor_apart ⟨?_, hunknown, ?_⟩ hsize
      · simpa [metricMsgDescriptor, FieldReturns, Returns, IsText, Values.case, Values.avg,
          messageOps] using ⟨hname, hnetInt, hprotocol, fun _ => hback⟩
      · simp [metricMsgDescriptor, Rebuilds, FieldDescriptor.copy, FieldDescriptor.Fresh,
          CType.zero, Lens.append, Values.case, Values.avg, isSet]
  | metricCumDistr msg =>
      obtain ⟨distr, rfl, hdistr⟩ := hvalues
      have hfield : fieldPack (⟨unknown, name, netInt, netIntId, protocol, protocolId, time,
          clientId, .metricCumDistr (some distr)⟩ : MetricMsg)
          (metricMsgDescriptor.fields.get ⟨8, by decide⟩) =
        requiredFieldPack 9
          (.message MetricCumDistrMsg (messageOps metricCumDistrMsgDescriptor)) (some distr) := rfl
      have hback :=
        unpack_metricCumDistrMsg hdistr (Nat.le_trans (length_le_of_single hfield) hsize)
      refine unpack_pack metricMsgDescriptor_apart ⟨?_, hunknown, ?_⟩ hsize
      · simpa [metricMsgDescriptor, FieldReturns, Returns, IsText, Values.case, Values.cumDistr,
          messageOps] using ⟨hname, hnetInt, hprotocol, fun _ => hback⟩
      · simp [metricMsgDescriptor, Rebuilds, FieldDescriptor.copy, FieldDescriptor.Fresh,
          CType.zero, Lens.append, Values.case, Values.avg, Values.cumDistr, isSet]

/-- The share of one request path. -/
theorem unpack_metricMsg_path :
    messageUnpack metricMsgDescriptor (messagePack metricMsgDescriptor
      ⟨[], some [0x70], some [0x6C, 0x6F], 0, some [0x48], 1, 1500000000, -1,
        .metricCumDistr (some ⟨[], [⟨[], some [0x2F], 0x3FE0⟩]⟩)⟩) =
      .ok ⟨[], some [0x70], some [0x6C, 0x6F], 0, some [0x48], 1, 1500000000, -1,
        .metricCumDistr (some ⟨[], [⟨[], some [0x2F], 0x3FE0⟩]⟩)⟩ := by
  have hnone {S : Type} (desc : MessageDescriptor S) : desc.UnknownReturn [] := by
    intro field hfield
    exact absurd hfield (by simp)
  refine unpack_metricMsg ⟨⟨_, rfl, by decide⟩, ⟨_, rfl, by decide⟩, ⟨_, rfl, by decide⟩,
    ⟨_, rfl, ?_, hnone _⟩, hnone _⟩ (by decide +kernel)
  simp only [List.mem_singleton, forall_eq]
  exact ⟨⟨_, rfl, by decide⟩, hnone _⟩

/-! ## The size of a message -/

theorem sizeAgrees_message {M : Type} {sub : MessageDescriptor M}
    (h : ∀ field ∈ sub.fields, field.type.SizeAgrees) :
    (CType.message M (messageOps sub)).SizeAgrees :=
  fun m => (length_messagePack h m).symm

theorem protocol_sizes : ∀ field ∈ protocolDescriptor.fields, field.type.SizeAgrees := by
  simp [protocolDescriptor, CType.SizeAgrees]

theorem netInt_sizes : ∀ field ∈ netIntDescriptor.fields, field.type.SizeAgrees := by
  simp only [netIntDescriptor, List.forall_mem_cons]
  exact ⟨trivial, sizeAgrees_message protocol_sizes, by simp⟩

theorem init_sizes : ∀ field ∈ initDescriptor.fields, field.type.SizeAgrees := by
  simp only [initDescriptor, List.forall_mem_cons]
  exact ⟨sizeAgrees_message netInt_sizes, trivial, trivial, by simp⟩

theorem metricAvgMsg_sizes : ∀ field ∈ metricAvgMsgDescriptor.fields, field.type.SizeAgrees := by
  simp [metricAvgMsgDescriptor, CType.SizeAgrees]

theorem freq_sizes : ∀ field ∈ freqDescriptor.fields, field.type.SizeAgrees := by
  simp [freqDescriptor, CType.SizeAgrees]

theorem metricCumDistrMsg_sizes :
    ∀ field ∈ metricCumDistrMsgDescriptor.fields, field.type.SizeAgrees := by
  simp only [metricCumDistrMsgDescriptor, List.forall_mem_cons]
  exact ⟨sizeAgrees_message freq_sizes, by simp⟩

theorem metricMsg_sizes : ∀ field ∈ metricMsgDescriptor.fields, field.type.SizeAgrees := by
  simp only [metricMsgDescriptor, List.forall_mem_cons]
  exact ⟨trivial, trivial, trivial, trivial, trivial, trivial, trivial,
    sizeAgrees_message metricAvgMsg_sizes, sizeAgrees_message metricCumDistrMsg_sizes, by simp⟩

/-- The block that is allocated for a message is filled, and not left, when it is packed. -/
theorem getPackedSize_eq_length :
    (∀ m, messageGetPackedSize initDescriptor m = (messagePack initDescriptor m).length) ∧
      ∀ m, messageGetPackedSize metricMsgDescriptor m =
        (messagePack metricMsgDescriptor m).length :=
  ⟨fun m => (length_messagePack init_sizes m).symm,
    fun m => (length_messagePack metricMsg_sizes m).symm⟩

/-! ## Unpacking what anyone may have written -/

/-- An input of a length that a `uint32_t` can say, in which no length wraps around. -/
def Plain (data : List UInt8) : Prop := data.length < 2 ^ 32 ∧ ¬ HasWrappedLength data

theorem Plain.part (data part : List UInt8) (hin : part <:+: data) (h : Plain data) :
    Plain part :=
  ⟨Nat.lt_of_le_of_lt hin.length_le h.1, fun hwrapped => h.2 (hwrapped.mono hin)⟩

theorem protocol_ne_overrun (data : List UInt8) (h : Plain data) :
    messageUnpack protocolDescriptor data ≠ .error .overrun := by
  refine messageUnpack_ne_overrun (fun _ hplain => hplain.1) Plain.part protocolDescriptor_apart ?_
    (.inr fun _ hplain => hplain.2) data h
  simp [protocolDescriptor, CType.StaysInside]

theorem netInt_ne_overrun (data : List UInt8) (h : Plain data) :
    messageUnpack netIntDescriptor data ≠ .error .overrun := by
  refine messageUnpack_ne_overrun (fun _ hplain => hplain.1) Plain.part netIntDescriptor_apart ?_
    (.inr fun _ hplain => hplain.2) data h
  simp only [netIntDescriptor, List.forall_mem_cons]
  exact ⟨trivial, protocol_ne_overrun, by simp⟩

theorem init_ne_overrun (data : List UInt8) (h : Plain data) :
    messageUnpack initDescriptor data ≠ .error .overrun := by
  refine messageUnpack_ne_overrun (fun _ hplain => hplain.1) Plain.part initDescriptor_apart ?_
    (.inr fun _ hplain => hplain.2) data h
  simp only [initDescriptor, List.forall_mem_cons]
  exact ⟨netInt_ne_overrun, trivial, trivial, by simp⟩

/-- An input of a length that a `uint32_t` can say. -/
def Short (data : List UInt8) : Prop := data.length < 2 ^ 32

theorem Short.part (data part : List UInt8) (hin : part <:+: data) (h : Short data) : Short part :=
  Nat.lt_of_le_of_lt hin.length_le h

theorem metricAvgMsg_ne_overrun (data : List UInt8) (h : Short data) :
    messageUnpack metricAvgMsgDescriptor data ≠ .error .overrun := by
  refine messageUnpack_ne_overrun (fun _ hshort => hshort) Short.part metricAvgMsgDescriptor_apart
    ?_ (.inl ?_) data h
  · simp [metricAvgMsgDescriptor, CType.StaysInside]
  · simp [metricAvgMsgDescriptor, FieldDescriptor.packable]

theorem freq_ne_overrun (data : List UInt8) (h : Short data) :
    messageUnpack freqDescriptor data ≠ .error .overrun := by
  refine messageUnpack_ne_overrun (fun _ hshort => hshort) Short.part freqDescriptor_apart
    ?_ (.inl ?_) data h
  · simp [freqDescriptor, CType.StaysInside]
  · simp [freqDescriptor, FieldDescriptor.packable]

theorem metricCumDistrMsg_ne_overrun (data : List UInt8) (h : Short data) :
    messageUnpack metricCumDistrMsgDescriptor data ≠ .error .overrun := by
  refine messageUnpack_ne_overrun (fun _ hshort => hshort) Short.part
    metricCumDistrMsgDescriptor_apart ?_ (.inl ?_) data h
  · simp only [metricCumDistrMsgDescriptor, List.forall_mem_cons]
    exact ⟨freq_ne_overrun, by simp⟩
  · simp [metricCumDistrMsgDescriptor, FieldDescriptor.packable, isPackableType]

theorem metricMsg_ne_overrun (data : List UInt8) (h : Short data) :
    messageUnpack metricMsgDescriptor data ≠ .error .overrun := by
  refine messageUnpack_ne_overrun (fun _ hshort => hshort) Short.part metricMsgDescriptor_apart
    ?_ (.inl ?_) data h
  · simp only [metricMsgDescriptor, List.forall_mem_cons]
    exact ⟨trivial, trivial, trivial, trivial, trivial, trivial, trivial,
      metricAvgMsg_ne_overrun, metricCumDistrMsg_ne_overrun, by simp⟩
  · simp [metricMsgDescriptor, FieldDescriptor.packable]

/-- Unpacking leaves neither its input nor its arrays: a `MetricMsg` never does, whatever the
bytes are, and an `Init` does not when no length in them wraps around. -/
theorem unpack_stays_inside (data : List UInt8) (h : data.length < 2 ^ 32) :
    messageUnpack metricMsgDescriptor data ≠ .error .overrun ∧
      (¬ HasWrappedLength data → messageUnpack initDescriptor data ≠ .error .overrun) :=
  ⟨metricMsg_ne_overrun data h, fun hplain => init_ne_overrun data ⟨h, hplain⟩⟩

/-- Ports with a length that wraps around, as a `MetricMsg` has them for an unknown field. -/
theorem unpack_stays_inside_wrapped :
    messageUnpack metricMsgDescriptor [0x22, 0xFE, 0xFF, 0xFF, 0xFF, 0x0F] ≠ .error .overrun :=
  (unpack_stays_inside [0x22, 0xFE, 0xFF, 0xFF, 0xFF, 0x0F] (by decide)).1

/-- The bytes of a `NetInt` with a protocol that is written as `bytes`. -/
def netIntAround (bytes : List UInt8) : List UInt8 :=
  ([0x12] ++ (uint32Pack bytes.length.toUInt32 ++ bytes)) ++ ([0x0A, 1, 0x6C] ++ [])

/-- The bytes of an `Init` with an interface that is written as `bytes`. -/
def initAround (bytes : List UInt8) : List UInt8 :=
  ([0x0A] ++ (uint32Pack bytes.length.toUInt32 ++ bytes)) ++ ([0x10, 5] ++ ([0x18, 60] ++ []))

/-- The members of a message are read up to one that leaves the input. -/
theorem decode_overrun {S : Type} {desc : MessageDescriptor S} {m : RawMember}
    {ms : List RawMember}
    (hrequired : ∀ f, (desc.fields.get f).isRequired = true →
      ∃ m' ∈ m :: ms, desc.lookup m'.tag = some f)
    (h : readMember desc desc.messageInit m = .error .overrun) :
    decode desc (m :: ms) = .error .overrun := by
  rw [decode, if_pos hrequired, List.foldlM_cons, h]
  rfl

theorem netIntAround_overrun {bytes : List UInt8} (hsize : bytes.length < 2 ^ 31)
    (h : messageUnpack protocolDescriptor bytes = .error .overrun) :
    messageUnpack netIntDescriptor (netIntAround bytes) = .error .overrun := by
  have hlen : (uint32Pack bytes.length.toUInt32).length ≤ 5 := length_uint32Pack_le _
  have hstream : Wire.Stream
      [⟨2, .delimited (uint32Pack bytes.length.toUInt32) bytes⟩, ⟨1, .delimited [1] [0x6C]⟩]
      (netIntAround bytes) := by
    refine .cons ?_ (.cons ?_ .nil)
    · exact ⟨[0x12], .last (b := 0x12) (by decide), by decide,
        ⟨hlen, isVarint_length (by omega)⟩, rfl⟩
    · exact ⟨[0x0A], .last (b := 0x0A) (by decide), by decide,
        ⟨by decide, .last (b := 1) (by decide)⟩, rfl⟩
  have hsmall : (netIntAround bytes).length < 2 ^ 32 := by
    simp only [netIntAround, List.length_append, List.length_cons, List.length_nil]
    omega
  rw [messageUnpack_of_stream netIntDescriptor_apart hstream hsmall (by simp [maxMembers]) ?_]
  · have hfield : netIntDescriptor.fields.get ⟨1, by decide⟩ =
      ⟨2, .message Protocol (messageOps protocolDescriptor), .repeated
        { get := fun m => m.protocols, set := fun v m => { m with protocols := v } }⟩ := rfl
    have hread := readMember_message hfield (uint32Pack bytes.length.toUInt32) bytes
      netIntDescriptor.messageInit
    rw [h] at hread
    refine decode_overrun ?_ hread
    intro f hf
    refine ⟨memberOf ⟨1, .delimited [1] [0x6C]⟩, by simp,
      MessageDescriptor.lookup_eq_some_iff.mpr ?_⟩
    fin_cases f
    · rfl
    · exact absurd hf (by decide)
  · intro r hr f hf
    simp only [List.mem_cons, List.not_mem_nil, or_false] at hr
    rcases hr with rfl | rfl <;> fin_cases f <;> exact ⟨_, rfl⟩

theorem initAround_overrun {bytes : List UInt8} (hsize : bytes.length < 2 ^ 31)
    (h : messageUnpack netIntDescriptor bytes = .error .overrun) :
    messageUnpack initDescriptor (initAround bytes) = .error .overrun := by
  have hlen : (uint32Pack bytes.length.toUInt32).length ≤ 5 := length_uint32Pack_le _
  have hstream : Wire.Stream
      [⟨1, .delimited (uint32Pack bytes.length.toUInt32) bytes⟩, ⟨2, .varint [5]⟩,
        ⟨3, .varint [60]⟩] (initAround bytes) := by
    refine .cons ?_ (.cons ?_ (.cons ?_ .nil))
    · exact ⟨[0x0A], .last (b := 0x0A) (by decide), by decide,
        ⟨hlen, isVarint_length (by omega)⟩, rfl⟩
    · exact ⟨[0x10], .last (b := 0x10) (by decide), by decide,
        ⟨by decide, _, .last (b := 5) (by decide)⟩, rfl⟩
    · exact ⟨[0x18], .last (b := 0x18) (by decide), by decide,
        ⟨by decide, _, .last (b := 60) (by decide)⟩, rfl⟩
  have hsmall : (initAround bytes).length < 2 ^ 32 := by
    simp only [initAround, List.length_append, List.length_cons, List.length_nil]
    omega
  rw [messageUnpack_of_stream initDescriptor_apart hstream hsmall (by simp [maxMembers]) ?_]
  · have hfield : initDescriptor.fields.get ⟨0, by decide⟩ =
      ⟨1, .message NetInt (messageOps netIntDescriptor), .repeated
        { get := fun m => m.netInts, set := fun v m => { m with netInts := v } }⟩ := rfl
    have hread := readMember_message hfield (uint32Pack bytes.length.toUInt32) bytes
      initDescriptor.messageInit
    rw [h] at hread
    refine decode_overrun ?_ hread
    intro f hf
    fin_cases f
    · exact absurd hf (by decide)
    · exact ⟨memberOf ⟨2, .varint [5]⟩, by simp, MessageDescriptor.lookup_eq_some_iff.mpr rfl⟩
    · exact ⟨memberOf ⟨3, .varint [60]⟩, by simp, MessageDescriptor.lookup_eq_some_iff.mpr rfl⟩
  · intro r hr f hf
    simp only [List.mem_cons, List.not_mem_nil, or_false] at hr
    rcases hr with rfl | rfl | rfl <;> fin_cases f <;> exact ⟨_, rfl⟩

/-- Behind whatever the members of a protocol are so far, client ports with a length that wraps
around are counted beyond the end of the message when an `Init` is unpacked. -/
theorem unpack_init_overruns {rs : List Wire.Record} {bytes : List UInt8}
    (h : Wire.Stream rs bytes) (hmax : rs.length < maxMembers)
    (hcount : ∀ r ∈ rs, Countable protocolDescriptor (memberOf r)) {form rest : List UInt8}
    (hform : WrappedLength form) (hsize : (bytes ++ ([0x22] ++ (form ++ rest))).length < 2 ^ 30) :
    messageUnpack initDescriptor
      (initAround (netIntAround (bytes ++ ([0x22] ++ (form ++ rest))))) = .error .overrun := by
  have hbytes : bytes.length < 2 ^ 32 := by
    rw [List.length_append] at hsize
    omega
  have hprotocol : messageUnpack protocolDescriptor (bytes ++ ([0x22] ++ (form ++ rest))) =
      .error .overrun := by
    have hkey : tagAndWireType (protocolDescriptor.fields.get ⟨3, by decide⟩).id
        wireTypeLengthPrefixed = [0x22] := by decide
    have htype : (protocolDescriptor.fields.get ⟨3, by decide⟩).type = .uint32 := rfl
    have hnumbers : (protocolDescriptor.fields.get ⟨3, by decide⟩).type ≠ .double := by
      rw [htype]
      simp
    rw [← hkey]
    exact messageUnpack_wrapped h hbytes hmax hcount rfl hnumbers hform rest
  have hlen := length_uint32Pack_le (bytes ++ ([0x22] ++ (form ++ rest))).length.toUInt32
  refine initAround_overrun ?_ (netIntAround_overrun (by omega) hprotocol)
  rw [netIntAround, List.length_append, List.length_append, List.length_append]
  simp only [List.length_cons, List.length_nil, List.append_nil]
  omega

/-- A protocol that is nothing but such ports. -/
theorem unpack_init_overruns_wrapped :
    messageUnpack initDescriptor
      (initAround (netIntAround ([] ++ ([0x22] ++ ([0xFE, 0xFF, 0xFF, 0xFF, 0x0F] ++ []))))) =
        .error .overrun := by
  have hform : WrappedLength [0xFE, 0xFF, 0xFF, 0xFF, 0x0F] :=
    ⟨_, .more (by decide) (.more (by decide) (.more (by decide) (.more (by decide)
      (.last (b := 0x0F) (by decide))))), rfl, by decide⟩
  exact unpack_init_overruns .nil (by decide) (by simp) hform (by decide)

end MonitoringTool.Sniffer.Protobuf.Analysis
