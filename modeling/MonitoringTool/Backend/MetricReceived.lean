import MonitoringTool.Backend.Metric
import MonitoringTool.Sniffer.Protobuf.Analysis
import MonitoringTool.Sniffer.Protobuf.RoundTrip

/-!
# What the backend reads of a packed `MetricMsg`

The sniffer packs a `MetricMsg` with the library written in C, and the backend reads the bytes
with the crate written in Rust.  `received` is the message that it reads, field for field the
one that was packed; there is none exactly when a text of the message is not UTF-8.
-/

namespace MonitoringTool.Backend

open Lib Wire
open Sniffer.Protobuf

variable {U E M : Type}

/-! ## The message that is read -/

/-- The characters of a C string; `NULL` is packed as the empty string. -/
def charsOf (str : Option (List UInt8)) : List UInt8 :=
  str.elim [] fun bytes => bytes.take (strlen bytes)

/-- A C string as a text. -/
def text (str : Option (List UInt8)) : Option String := utf8Text (charsOf str)

section Received

variable (is : CodedInput U E)

def receivedAvg (m : Analysis.MetricAvgMsg) : MetricAvgMsg U :=
  { avg := some m.avg, min := some m.min, max := some m.max, unknownFields := is.noFields }

def receivedFreq (m : Analysis.Freq) : Option (Freq U) := do
  let name ← text m.name
  return { name := some name, freq := some m.freq, unknownFields := is.noFields }

def receivedCumDistr (m : Analysis.MetricCumDistrMsg) : Option (MetricCumDistrMsg U) := do
  let freqs ← m.freqs.mapM (receivedFreq is)
  return { freqs := freqs, unknownFields := is.noFields }

/-- The case that is set, if its message is there. -/
def receivedValues : Analysis.Values → Option (Option (MetricMsgOneofValues U))
  | .notSet => some none
  | .metricAvg none => some none
  | .metricAvg (some m) => some (some (.metricAvg (receivedAvg is m)))
  | .metricCumDistr none => some none
  | .metricCumDistr (some m) => do
      let distr ← receivedCumDistr is m
      return some (.metricCumDistr distr)

/-- What the backend reads of the bytes of a message. -/
def received (m : Analysis.MetricMsg) : Option (MetricMsg U) := do
  let name ← text m.name
  let netInt ← text m.netInt
  let protocol ← text m.protocol
  let values ← receivedValues is m.values
  return { name := some name, netInt := some netInt, netIntId := some m.netIntId,
           protocol := some protocol, protocolId := some m.protocolId, time := some m.time,
           clientId := some m.clientId, values := values, unknownFields := is.noFields }

end Received

/-- Messages as `sendMsg` builds them: there are no unknown fields. -/
def Values.Plain : Analysis.Values → Prop
  | .notSet => True
  | .metricAvg m => ∀ avg ∈ m, avg.unknownFields = []
  | .metricCumDistr m =>
      ∀ distr ∈ m, distr.unknownFields = [] ∧ ∀ f ∈ distr.freqs, f.unknownFields = []

def Plain (m : Analysis.MetricMsg) : Prop := m.unknownFields = [] ∧ Values.Plain m.values

/-! ## What is read is initialized -/

/-- What holds of everything that is read holds of what is read of a list. -/
theorem forall_mem_of_mapM {A B : Type} {read : A → Option B} {P : B → Prop}
    (hread : ∀ a, ∀ b ∈ read a, P b) {items : List A} {bs : List B}
    (h : items.mapM read = some bs) : ∀ b ∈ bs, P b := by
  induction items generalizing bs with
  | nil =>
      rw [List.mapM_nil, Option.pure_def, Option.some.injEq] at h
      simp [← h]
  | cons a items ih =>
      simp only [List.mapM_cons, Option.bind_eq_bind, Option.bind_eq_some_iff, Option.pure_def,
        Option.some.injEq] at h
      obtain ⟨b, hb, rest, hrest, rfl⟩ := h
      exact List.forall_mem_cons.mpr ⟨hread a b hb, ih hrest⟩

section Initialized

variable {is : CodedInput U E}

theorem receivedFreq_isInitialized {m : Analysis.Freq} {r : Freq U} (h : r ∈ receivedFreq is m) :
    r.isInitialized = true := by
  simp only [receivedFreq, Option.bind_eq_bind, Option.mem_def, Option.bind_eq_some_iff,
    Option.pure_def, Option.some.injEq] at h
  obtain ⟨name, -, rfl⟩ := h
  rfl

theorem receivedCumDistr_isInitialized {m : Analysis.MetricCumDistrMsg}
    {r : MetricCumDistrMsg U} (h : r ∈ receivedCumDistr is m) : r.isInitialized = true := by
  simp only [receivedCumDistr, Option.bind_eq_bind, Option.mem_def, Option.bind_eq_some_iff,
    Option.pure_def, Option.some.injEq] at h
  obtain ⟨freqs, hfreqs, rfl⟩ := h
  have hall := forall_mem_of_mapM (fun f v hv => receivedFreq_isInitialized hv) hfreqs
  exact List.all_eq_true.mpr hall

theorem receivedValues_isInitialized {values : Analysis.Values}
    {r : Option (MetricMsgOneofValues U)} (h : r ∈ receivedValues is values) :
    r.all MetricMsgOneofValues.isInitialized = true := by
  rcases values with _ | ⟨_ | avg⟩ | ⟨_ | distr⟩
  · cases h
    rfl
  · cases h
    rfl
  · cases h
    rfl
  · cases h
    rfl
  · simp only [receivedValues, Option.bind_eq_bind, Option.mem_def, Option.bind_eq_some_iff,
      Option.pure_def, Option.some.injEq] at h
    obtain ⟨v, hv, rfl⟩ := h
    exact receivedCumDistr_isInitialized hv

theorem received_isInitialized {m : Analysis.MetricMsg} {r : MetricMsg U}
    (h : r ∈ received is m) : r.isInitialized = true := by
  simp only [received, Option.bind_eq_bind, Option.mem_def, Option.bind_eq_some_iff,
    Option.pure_def, Option.some.injEq] at h
  obtain ⟨name, -, netInt, -, protocol, -, values, hvalues, rfl⟩ := h
  exact receivedValues_isInitialized hvalues

end Initialized

/-! ## The records are taken -/

/-- Submessages are appended one by one, up to the first that is refused. -/
theorem foldlM_append {A B : Type} (read : A → Option B) (add : M → List B → M)
    (hnil : ∀ m, add m [] = m) (hadd : ∀ m b bs, add (add m [b]) bs = add m (b :: bs))
    (items : List A) (m : M) :
    items.foldlM (fun m a => (read a).map fun b => add m [b]) m =
      (items.mapM read).map (add m) := by
  induction items generalizing m with
  | nil => simp [hnil]
  | cons a items ih =>
      rw [List.foldlM_cons, List.mapM_cons]
      cases read a with
      | none => rfl
      | some b =>
          have hrest := ih (add m [b])
          simp only [Option.map_some, Option.bind_eq_bind, Option.bind_some, hrest]
          cases items.mapM read with
          | none => rfl
          | some bs => simp [hadd]

section Takes

variable {is : CodedInput U E} (h : is.Documented)
include h

theorem takes_text {field : M → ℕ → ℕ → Read E M} {id : UInt32} {member : Option (List UInt8)}
    (set : M → String → M)
    (hfield : ∀ m, field m id.toNat wireTypeLengthDelimited =
      setField (is.readSingularString wireTypeLengthDelimited) (set m)) :
    CodedInput.Takes field (recordOf id .string member)
      fun m => (text member).map (set m) := by
  intro hvalid hlt m rest
  obtain ⟨form, hform⟩ : ∃ form, payloadOf .string member = .delimited form (charsOf member) := by
    cases member <;> exact ⟨_, rfl⟩
  simp only [recordOf, hform, Payload.bytes, List.length_append] at hvalid hlt
  simp only [recordOf, hform, Payload.bytes, Payload.wireType, List.append_assoc]
  rw [show (2 : ℕ) = wireTypeLengthDelimited from rfl, hfield]
  exact setField_toOption (CodedInput.readString_toOption h hvalid (by omega) rest)

theorem takes_uint32 {field : M → ℕ → ℕ → Read E M} {id v : UInt32} (set : M → UInt32 → M)
    (hfield : ∀ m, field m id.toNat wireTypeVarint =
      setField (is.expect wireTypeVarint wireTypeVarint is.readUint32) (set m)) :
    CodedInput.Takes field (recordOf id .uint32 v) fun m => some (set m v) := by
  intro hvalid hlt m rest
  have hread := h.uint32 v.toNat_lt (uint32Pack_isVarint v)
    (Nat.le_trans (length_uint32Pack_le v) (by decide)) rest
  simp only [recordOf, payloadOf, Payload.bytes, Payload.wireType]
  rw [show (0 : ℕ) = wireTypeVarint from rfl, hfield, setField, CodedInput.expect_self, hread]
  simp [Except.map, Except.toOption]

theorem takes_int64 {field : M → ℕ → ℕ → Read E M} {id : UInt32} {v : Int64}
    (set : M → Int64 → M)
    (hfield : ∀ m, field m id.toNat wireTypeVarint =
      setField (is.expect wireTypeVarint wireTypeVarint is.readInt64) (set m)) :
    CodedInput.Takes field (recordOf id .int64 v) fun m => some (set m v) := by
  intro hvalid hlt m rest
  have hread := h.int64 v.toUInt64.toNat_lt (uint64Pack_isVarint v.toUInt64)
    (length_uint64Pack v.toUInt64 ▸ uint64Size_le _) rest
  simp only [recordOf, payloadOf, Payload.bytes, Payload.wireType]
  rw [show (0 : ℕ) = wireTypeVarint from rfl, hfield, setField, CodedInput.expect_self, hread]
  simp [Except.map, Except.toOption]

theorem takes_double {field : M → ℕ → ℕ → Read E M} {id : UInt32} {v : UInt64}
    (set : M → UInt64 → M)
    (hfield : ∀ m, field m id.toNat wireTypeFixed64 =
      setField (is.expect wireTypeFixed64 wireTypeFixed64 is.readDouble) (set m)) :
    CodedInput.Takes field (recordOf id .double v) fun m => some (set m v) := by
  intro hvalid hlt m rest
  have hread := h.double v rest
  simp only [recordOf, payloadOf, Payload.bytes, Payload.wireType]
  rw [show (1 : ℕ) = wireTypeFixed64 from rfl, hfield, setField, CodedInput.expect_self, hread]
  simp [Except.map, Except.toOption]

omit h in
theorem takes_message {S A : Type} {sub : MessageDescriptor S} {msg : S}
    {field : M → ℕ → ℕ → Read E M} {id : UInt32} {read : Read E A} {value : Option A}
    (set : M → A → M)
    (hfield : ∀ m, field m id.toNat wireTypeLengthDelimited = setField read (set m))
    (hread : ∀ {form : List UInt8}, (messagePack sub msg).length < 2 ^ 32 →
      IsVarint (messagePack sub msg).length form → form.length ≤ 5 → ∀ rest,
      (read (form ++ (messagePack sub msg ++ rest))).toOption = value.map fun a => (a, rest)) :
    CodedInput.Takes field (recordOf id (.message S (messageOps sub)) (some msg))
      fun m => value.map (set m) := by
  intro hvalid hlt m rest
  simp only [recordOf, payloadOf, messageOps, Payload.bytes, List.length_append] at hvalid hlt
  simp only [recordOf, payloadOf, messageOps, Payload.bytes, Payload.wireType, List.append_assoc]
  rw [show (2 : ℕ) = wireTypeLengthDelimited from rfl, hfield]
  exact setField_toOption (hread (by omega) hvalid.2 hvalid.1 rest)

omit h in
/-- A message that is initialized is parsed. -/
theorem parsed_eq {message : Message E M} {bytes : List UInt8} {value : Option M}
    (h : (message.mergeFrom bytes).toOption = value)
    (hinit : ∀ m ∈ value, message.isInitialized m = true) : message.parsed bytes = value := by
  rw [Message.parsed, h]
  cases value with
  | none => rfl
  | some m => exact Option.filter_some_pos (hinit m rfl)

/-! ## The messages are read -/

theorem avg_merged {m : Analysis.MetricAvgMsg} (hplain : m.unknownFields = [])
    (hlt : (messagePack Analysis.metricAvgMsgDescriptor m).length < 2 ^ 32) :
    (MetricAvgMsg.mergeFrom is (messagePack Analysis.metricAvgMsgDescriptor m)).toOption =
      some (receivedAvg is m) := by
  have hstream := @stream_messagePack _ Analysis.metricAvgMsgDescriptor m hplain hlt
  have hrun := CodedInput.run_takes h (MetricAvgMsg.mergeField_shrinks is)
    [(recordOf 5 .double m.avg, fun r => some { r with avg := some m.avg }),
      (recordOf 6 .double m.min, fun r => some { r with min := some m.min }),
      (recordOf 7 .double m.max, fun r => some { r with max := some m.max })]
    hstream hlt (by simp [recordOf]) ?_ (MetricAvgMsg.new is)
  · exact hrun
  · simp only [List.forall_mem_cons]
    exact ⟨takes_double h (fun (r : MetricAvgMsg U) v => { r with avg := some v }) fun _ => rfl,
      takes_double h (fun (r : MetricAvgMsg U) v => { r with min := some v }) fun _ => rfl,
      takes_double h (fun (r : MetricAvgMsg U) v => { r with max := some v }) fun _ => rfl,
      by simp⟩

theorem freq_merged {m : Analysis.Freq} (hplain : m.unknownFields = [])
    (hlt : (messagePack Analysis.freqDescriptor m).length < 2 ^ 32) :
    (Freq.mergeFrom is (messagePack Analysis.freqDescriptor m)).toOption = receivedFreq is m := by
  have hstream := @stream_messagePack _ Analysis.freqDescriptor m hplain hlt
  have hrun := CodedInput.run_takes h (Freq.mergeField_shrinks is)
    [(recordOf 1 .string m.name, fun r => (text m.name).map fun s => { r with name := some s }),
      (recordOf 2 .double m.freq, fun r => some { r with freq := some m.freq })]
    hstream hlt (by simp [recordOf]) ?_ (Freq.new is)
  · rw [Freq.mergeFrom, hrun, receivedFreq]
    cases text m.name <;> rfl
  · simp only [List.forall_mem_cons]
    exact ⟨takes_text h (fun (r : Freq U) s => { r with name := some s }) fun _ => rfl,
      takes_double h (fun (r : Freq U) v => { r with freq := some v }) fun _ => rfl, by simp⟩

theorem cumDistr_merged {m : Analysis.MetricCumDistrMsg} (hplain : m.unknownFields = [])
    (hfreqs : ∀ f ∈ m.freqs, f.unknownFields = [])
    (hlt : (messagePack Analysis.metricCumDistrMsgDescriptor m).length < 2 ^ 32) :
    (MetricCumDistrMsg.mergeFrom is
      (messagePack Analysis.metricCumDistrMsgDescriptor m)).toOption = receivedCumDistr is m := by
  have hstream := @stream_messagePack _ Analysis.metricCumDistrMsgDescriptor m hplain hlt
  have hrecords : Analysis.metricCumDistrMsgDescriptor.fields.flatMap (fieldRecords m) =
      (m.freqs.map fun f => (recordOf 1 (.message _ (messageOps Analysis.freqDescriptor)) (some f),
        fun r : MetricCumDistrMsg U => (receivedFreq is f).map fun v =>
          { r with freqs := r.freqs ++ [v] })).map Prod.fst := by
    simp [Analysis.metricCumDistrMsgDescriptor, fieldRecords, CType.ofElem]
  rw [hrecords] at hstream
  have hrun := CodedInput.run_takes h (MetricCumDistrMsg.mergeField_shrinks is) _ hstream hlt ?_ ?_
    (MetricCumDistrMsg.new is)
  · rw [MetricCumDistrMsg.mergeFrom, hrun, receivedCumDistr, List.foldlM_map]
    rw [foldlM_append (receivedFreq is) fun (r : MetricCumDistrMsg U) vs =>
      { r with freqs := r.freqs ++ vs }]
    · cases m.freqs.mapM (receivedFreq is) <;> rfl
    · simp
    · simp
  · simp [recordOf]
  · simp only [List.forall_mem_map]
    intro f hf
    refine takes_message (fun (r : MetricCumDistrMsg U) v => { r with freqs := r.freqs ++ [v] })
      (fun _ => rfl) fun hlt hform hfive rest => ?_
    rw [h.repeated (Freq.message is) hlt hform hfive rest, ← freq_merged h (hfreqs f hf) hlt]
    rfl

/-- The updates of the case that is set. -/
def valuesUpdates (is : CodedInput U E) :
    Analysis.Values → List (Record × (MetricMsg U → Option (MetricMsg U)))
  | .metricAvg (some m) =>
      [(recordOf 8 (.message _ (messageOps Analysis.metricAvgMsgDescriptor)) (some m),
        fun r => (some (receivedAvg is m)).map fun v => { r with values := some (.metricAvg v) })]
  | .metricCumDistr (some m) =>
      [(recordOf 9 (.message _ (messageOps Analysis.metricCumDistrMsgDescriptor)) (some m),
        fun r => (receivedCumDistr is m).map fun v =>
          { r with values := some (.metricCumDistr v) })]
  | _ => []

/-- The updates of a message. -/
def metricUpdates (is : CodedInput U E) (m : Analysis.MetricMsg) :
    List (Record × (MetricMsg U → Option (MetricMsg U))) :=
  [(recordOf 1 .string m.name, fun r => (text m.name).map fun s => { r with name := some s }),
    (recordOf 2 .string m.netInt,
      fun r => (text m.netInt).map fun s => { r with netInt := some s }),
    (recordOf 3 .uint32 m.netIntId, fun r => some { r with netIntId := some m.netIntId }),
    (recordOf 4 .string m.protocol,
      fun r => (text m.protocol).map fun s => { r with protocol := some s }),
    (recordOf 5 .uint32 m.protocolId, fun r => some { r with protocolId := some m.protocolId }),
    (recordOf 6 .int64 m.time, fun r => some { r with time := some m.time }),
    (recordOf 7 .int64 m.clientId, fun r => some { r with clientId := some m.clientId })] ++
  valuesUpdates is m.values

omit h in
theorem metricUpdates_records (m : Analysis.MetricMsg) :
    Analysis.metricMsgDescriptor.fields.flatMap (fieldRecords m) =
      (metricUpdates is m).map Prod.fst := by
  obtain ⟨unknown, name, netInt, netIntId, protocol, protocolId, time, clientId, values⟩ := m
  rcases values with _ | ⟨_ | avg⟩ | ⟨_ | distr⟩ <;> rfl

omit h in
theorem metricUpdates_foldlM (m : Analysis.MetricMsg) :
    (metricUpdates is m).foldlM (fun r u => u.2 r) (MetricMsg.new is) = received is m := by
  obtain ⟨unknown, name, netInt, netIntId, protocol, protocolId, time, clientId, values⟩ := m
  rw [received]
  simp only [metricUpdates]
  cases text name with
  | none => rfl
  | some n =>
  cases text netInt with
  | none => rfl
  | some i =>
  cases text protocol with
  | none => rfl
  | some p =>
  rcases values with _ | ⟨_ | avg⟩ | ⟨_ | distr⟩
  · rfl
  · rfl
  · rfl
  · rfl
  · simp only [valuesUpdates, receivedValues]
    cases receivedCumDistr is distr <;> rfl

omit h in
theorem metricUpdates_number (m : Analysis.MetricMsg) :
    ∀ u ∈ metricUpdates is m, 0 < u.1.number ∧ u.1.number < 2 ^ 29 := by
  obtain ⟨unknown, name, netInt, netIntId, protocol, protocolId, time, clientId, values⟩ := m
  rcases values with _ | ⟨_ | avg⟩ | ⟨_ | distr⟩ <;> simp [metricUpdates, valuesUpdates, recordOf]

theorem values_take {values : Analysis.Values} (hplain : Values.Plain values) :
    ∀ u ∈ valuesUpdates is values, CodedInput.Takes (MetricMsg.mergeField is) u.1 u.2 := by
  rcases values with _ | ⟨_ | avg⟩ | ⟨_ | distr⟩
  · simp [valuesUpdates]
  · simp [valuesUpdates]
  · simp only [valuesUpdates, List.forall_mem_cons]
    refine ⟨takes_message (fun (r : MetricMsg U) v => { r with values := some (.metricAvg v) })
      (fun _ => rfl) fun hlt hform hfive rest => ?_, by simp⟩
    have hmerged := avg_merged h (hplain avg rfl) hlt
    rw [CodedInput.expect_self, h.message (MetricAvgMsg.message is) hlt hform hfive rest]
    rw [parsed_eq hmerged (by simp [receivedAvg, MetricAvgMsg.message, MetricAvgMsg.isInitialized])]
  · simp [valuesUpdates]
  · simp only [valuesUpdates, List.forall_mem_cons]
    obtain ⟨hknown, hfreqs⟩ := hplain distr rfl
    refine ⟨takes_message
      (fun (r : MetricMsg U) v => { r with values := some (.metricCumDistr v) })
      (fun _ => rfl) fun hlt hform hfive rest => ?_, by simp⟩
    have hmerged := cumDistr_merged h hknown hfreqs hlt
    rw [CodedInput.expect_self, h.message (MetricCumDistrMsg.message is) hlt hform hfive rest]
    rw [parsed_eq hmerged fun r hr => receivedCumDistr_isInitialized hr]

/-- What is read of a message is the message, and nothing when a text is not UTF-8. -/
theorem parseFromBytes_messagePack {m : Analysis.MetricMsg} (hplain : Plain m)
    (hlt : (messagePack Analysis.metricMsgDescriptor m).length < 2 ^ 32) :
    (MetricMsg.parseFromBytes is (messagePack Analysis.metricMsgDescriptor m)).toOption =
      received is m := by
  have hstream := @stream_messagePack _ Analysis.metricMsgDescriptor m hplain.1 hlt
  rw [@metricUpdates_records _ _ is] at hstream
  have hrun := CodedInput.run_takes h (MetricMsg.mergeField_shrinks is) _ hstream hlt ?_ ?_
    (MetricMsg.new is)
  · rw [metricUpdates_foldlM] at hrun
    rw [MetricMsg.parseFromBytes, h.parse]
    exact parsed_eq hrun fun r hr => received_isInitialized hr
  · exact metricUpdates_number m
  · simp only [metricUpdates, List.forall_mem_append, List.forall_mem_cons]
    refine ⟨⟨takes_text h (fun (r : MetricMsg U) s => { r with name := some s }) fun _ => rfl,
      takes_text h (fun (r : MetricMsg U) s => { r with netInt := some s }) fun _ => rfl,
      takes_uint32 h (fun (r : MetricMsg U) v => { r with netIntId := some v }) fun _ => rfl,
      takes_text h (fun (r : MetricMsg U) s => { r with protocol := some s }) fun _ => rfl,
      takes_uint32 h (fun (r : MetricMsg U) v => { r with protocolId := some v }) fun _ => rfl,
      takes_int64 h (fun (r : MetricMsg U) v => { r with time := some v }) fun _ => rfl,
      takes_int64 h (fun (r : MetricMsg U) v => { r with clientId := some v }) fun _ => rfl,
      by simp⟩, values_take h hplain.2⟩

end Takes

end MonitoringTool.Backend
