import MonitoringTool.Backend.Analysis
import MonitoringTool.Sniffer.ConnectionHandler
import MonitoringTool.Sniffer.Protobuf.Messages

/-!
# From the backend's `Init` to the sniffer's

What `SnifferServer::connect` writes is what `connection_handler` unpacks: an `Init` of which
every required field is set comes out of `analysis__init__unpack` with the same fields, in
whatever base-128 forms the crate wrote its numbers.
-/

namespace MonitoringTool.Backend

open Lib Wire
open Sniffer.Protobuf (Says FieldsWritten MessageOps CType Countable memberOf messageUnpack
  messageOps maxMembers readMember countable_of_said countable_of_not_holdsArray)
open Sniffer.Protobuf.Analysis (protocolDescriptor netIntDescriptor initDescriptor)

variable {U : Type}

/-! ## The same message in the sniffer -/

/-- The protocol as the sniffer has it; an address that is not set is 0. -/
def Protocol.unpacked (p : Protocol U) : Sniffer.Protobuf.Analysis.Protocol where
  unknownFields := []
  id := p.id.map bytesOf
  activeMetrics := p.activeMetrics.getD 0
  hasClientIp := p.clientIp.isSome
  clientIp := p.clientIp.getD 0
  clientPorts := p.clientPorts
  hasServerIp := p.serverIp.isSome
  serverIp := p.serverIp.getD 0
  serverPorts := p.serverPorts

/-- The interface as the sniffer has it. -/
def NetInt.unpacked (n : NetInt U) : Sniffer.Protobuf.Analysis.NetInt where
  unknownFields := []
  id := n.id.map bytesOf
  protocols := n.protocols.map Protocol.unpacked

/-- The message as the sniffer has it. -/
def Init.unpacked (m : Init U) : Sniffer.Protobuf.Analysis.Init where
  unknownFields := []
  netInts := m.netInts.map NetInt.unpacked
  interval := m.interval.getD 0
  duration := m.duration.getD 0

/-! ## Messages without unknown fields -/

/-- The interface and its protocols have no unknown fields: they are left out of what the
browser sends. -/
def NetInt.OnlyKnown (os : CodedOutput U) (n : NetInt U) : Prop :=
  n.unknownFields = os.noFields ∧ ∀ p ∈ n.protocols, p.unknownFields = os.noFields

/-- The message and its interfaces have no unknown fields. -/
def Init.OnlyKnown (os : CodedOutput U) (m : Init U) : Prop :=
  m.unknownFields = os.noFields ∧ ∀ n ∈ m.netInts, n.OnlyKnown os

/-! ## The records of a message -/

section Records

variable (os : CodedOutput U)

/-- The record of a string. -/
def stringRecord (n : ℕ) (s : String) : Record :=
  ⟨n, .delimited (os.writeRawVarint32 (bytesOf s).length.toUInt32) (bytesOf s)⟩

/-- The record of a number. -/
def numberRecord (n : ℕ) (v : UInt32) : Record := ⟨n, .varint (os.writeRawVarint32 v)⟩

/-- The record of a submessage. -/
def messageRecord (n : ℕ) (size : UInt32) (body : List UInt8) : Record :=
  ⟨n, .delimited (os.writeRawVarint32 size) body⟩

def Protocol.records (p : Protocol U) : List Record :=
  p.id.toList.map (stringRecord os 1) ++ (p.activeMetrics.toList.map (numberRecord os 2) ++
    (p.clientIp.toList.map (numberRecord os 3) ++ (p.clientPorts.map (numberRecord os 4) ++
      (p.serverIp.toList.map (numberRecord os 5) ++ p.serverPorts.map (numberRecord os 6)))))

def NetInt.records (n : NetInt U) : List Record :=
  n.id.toList.map (stringRecord os 1) ++
    n.protocols.map fun p => messageRecord os 2 (p.computeSize os) (p.writeTo os)

def Init.records (m : Init U) : List Record :=
  (m.netInts.map fun n => messageRecord os 1 (n.computeSize os) (n.writeTo os)) ++
    (m.interval.toList.map (numberRecord os 2) ++ m.duration.toList.map (numberRecord os 3))

end Records

/-- A member that may be absent is a list of one element at most. -/
theorem elim_eq_flatMap {A B : Type} (o : Option A) (write : A → List B) :
    o.elim [] write = o.toList.flatMap write := by
  cases o <;> simp

/-- A member is no longer than the message that it is written in. -/
theorem length_le_of_mem_flatMap {A : Type} {write : A → List UInt8} {l : List A} {a : A}
    (ha : a ∈ l) (before : List UInt8) {after : List UInt8} {bound : ℕ}
    (h : (before ++ (l.flatMap write ++ after)).length ≤ bound) : (write a).length ≤ bound := by
  obtain ⟨front, back, rfl⟩ := List.append_of_mem ha
  simp only [List.flatMap_append, List.flatMap_cons, List.length_append] at h
  omega

/-- A submessage is no longer than the message around it. -/
theorem length_le_of_mem {A : Type} {os : CodedOutput U} {n : ℕ} {size : A → UInt32}
    {write : A → List UInt8} {l : List A} {a : A} (ha : a ∈ l) (before : List UInt8)
    {after : List UInt8} {bound : ℕ}
    (h : (before ++ (l.flatMap (fun a => writeSubmessage os n (size a) (write a)) ++
      after)).length ≤ bound) : (write a).length ≤ bound := by
  have hwhole := length_le_of_mem_flatMap ha before h
  simp only [writeSubmessage, List.length_append] at hwhole
  omega

/-- The size that was computed is that of what is written, when a `uint32_t` can say it. -/
theorem toNat_size {size : UInt32} {body : List UInt8} (heq : size = body.length.toUInt32)
    (hlt : body.length ≤ 2 * maxMembers) : size.toNat = body.length := by
  have hmax : 2 * maxMembers < 2 ^ 32 := by decide
  rw [heq, Nat.toUInt32_eq, UInt32.toNat_ofNat']
  omega

section Streams

variable {os : CodedOutput U} (h : os.Documented)
include h

theorem says_number (v : UInt32) : Says .uint32 v (.varint (os.writeRawVarint32 v)) :=
  ⟨v.toNat, _, rfl, (h.varint v).1, Nat.mod_eq_of_lt v.toNat_lt⟩

/-- Numbers one behind the other. -/
theorem stream_numbers {n : ℕ} (hn : n < 2 ^ 29) (vs : List UInt32) :
    Stream (vs.map (numberRecord os n)) (vs.flatMap (os.writeUint32 n)) :=
  .map vs fun v _ => h.writes_uint32 hn v

/-- A string that may be absent, with what follows it in its message. -/
theorem stream_string {n : ℕ} (hn : n < 2 ^ 29) (o : Option String) {after : List UInt8}
    (hsize : (o.toList.flatMap (os.writeString n) ++ after).length ≤ 2 * maxMembers) :
    Stream (o.toList.map (stringRecord os n)) (o.toList.flatMap (os.writeString n)) := by
  refine .map _ fun s hs => h.writes_string hn ?_
  have hwhole := length_le_of_mem_flatMap hs [] hsize
  have hmax : 2 * maxMembers < 2 ^ 32 := by decide
  rw [h.string, List.length_append, List.length_append] at hwhole
  omega

/-- Submessages one behind the other, each behind its size. -/
theorem stream_messages {A : Type} {n : ℕ} (hn : n < 2 ^ 29) {size : A → UInt32}
    {write : A → List UInt8} {items : List A}
    (hsize : ∀ a ∈ items, (size a).toNat = (write a).length) :
    Stream (items.map fun a => messageRecord os n (size a) (write a))
      (items.flatMap fun a => writeSubmessage os n (size a) (write a)) :=
  .map items fun a ha => h.writes_message hn (hsize a ha)

end Streams

/-! ## What the records say -/

theorem says_string (os : CodedOutput U) (s : String) :
    Says .string (bytesOf s) (.delimited (os.writeRawVarint32 (bytesOf s).length.toUInt32)
      (bytesOf s)) :=
  ⟨_, rfl⟩

/-- The numbers of a field are what its records say. -/
theorem numbers_written {os : CodedOutput U} (h : os.Documented) (n : ℕ) (vs : List UInt32) :
    List.Forall₂ (fun v r => ∃ p, Says .uint32 v p ∧ r = ⟨n, p⟩) vs
      (vs.map (numberRecord os n)) := by
  rw [List.forall₂_map_right_iff, List.forall₂_same]
  exact fun v _ => ⟨_, says_number h v, rfl⟩

/-- A number that may be absent. -/
theorem optional_written {os : CodedOutput U} (h : os.Documented) (n : ℕ) (o : Option UInt32) :
    if o.isSome then
      ∃ v p, o.getD 0 = v ∧ Says .uint32 v p ∧ o.toList.map (numberRecord os n) = [⟨n, p⟩]
    else o.toList.map (numberRecord os n) = [] := by
  cases o with
  | none => rfl
  | some v =>
      rw [Option.isSome_some, if_pos rfl]
      exact ⟨v, _, rfl, says_number h v, rfl⟩

/-- Submessages that are all unpacked are what their records say. -/
theorem messages_written {A M : Type} (os : CodedOutput U) (ops : MessageOps M) (n : ℕ)
    {size : A → UInt32} {write : A → List UInt8} {unpacked : A → M} {items : List A}
    (hunpack : ∀ a ∈ items, ops.unpack (write a) = .ok (unpacked a)) :
    List.Forall₂ (fun m r => ∃ p, Says (.message M ops) m p ∧ r = ⟨n, p⟩) (items.map unpacked)
      (items.map fun a => messageRecord os n (size a) (write a)) := by
  rw [List.forall₂_map_left_iff, List.forall₂_map_right_iff, List.forall₂_same]
  exact fun a ha => ⟨_, ⟨_, _, rfl, hunpack a ha⟩, rfl⟩

/-! ## The messages are unpacked -/

/-- Records of the fields, and no others, are unpacked. -/
theorem unpack_records {S : Type} {desc : Sniffer.Protobuf.MessageDescriptor S}
    (hapart : desc.Apart) {message : S} {rs : List Record} {bytes : List UInt8}
    (hstream : Stream rs bytes) (hwritten : FieldsWritten message desc.fields rs)
    (hnone : desc.unknownFields.get message = [])
    (hrebuilds : Sniffer.Protobuf.Rebuilds desc message desc.messageInit desc.fields)
    (hsize : bytes.length ≤ 2 * maxMembers) : messageUnpack desc bytes = .ok message := by
  rw [← List.append_nil rs] at hstream
  refine Sniffer.Protobuf.unpack_of_written hapart hstream hwritten ?_ hrebuilds hsize
  rw [hnone]
  exact .nil

/-- Reading the records of submessages is unpacking each of them, up to the first that is
refused. -/
theorem readMembers_messages {A S M : Type} (os : CodedOutput U)
    {desc : Sniffer.Protobuf.MessageDescriptor S} {sub : Sniffer.Protobuf.MessageDescriptor M}
    {f : Fin desc.fields.length} {id : UInt32} {array : Lens S (List M)}
    (hfield : desc.fields.get f = ⟨id, .message M (messageOps sub), .repeated array⟩)
    {size : A → UInt32} {write : A → List UInt8} {unpacked : A → M} {ok : A → Bool} {items : List A}
    (hunpack : ∀ a ∈ items,
      messageUnpack sub (write a) = if ok a then .ok (unpacked a) else .error .null) (start : S) :
    ((items.map fun a => messageRecord os id.toNat (size a) (write a)).map memberOf).foldlM
      (readMember desc) start =
        if items.all ok then .ok (array.append start (items.map unpacked)) else .error .null := by
  induction items generalizing start with
  | nil =>
      simp only [List.map_nil, List.all_nil, if_true, Lens.append_nil]
      rfl
  | cons a items ih =>
      have hread := Sniffer.Protobuf.readMember_message hfield (os.writeRawVarint32 (size a))
        (write a) start
      have hrest := fun start => ih (fun b hb => hunpack b (by simp [hb])) start
      rw [hunpack a (by simp)] at hread
      rw [List.map_cons, List.map_cons, List.foldlM_cons, messageRecord, hread, List.all_cons]
      cases hok : ok a with
      | false => rfl
      | true =>
          have hnext := hrest (array.append start [unpacked a])
          rw [Lens.append_append, List.singleton_append, ← List.map_cons] at hnext
          rw [Bool.true_and]
          exact hnext

theorem protocol_countable (os : CodedOutput U) (p : Protocol U) :
    ∀ r ∈ p.records os, Countable protocolDescriptor (memberOf r) := by
  have hnumber (f : Fin protocolDescriptor.fields.length)
      (hf : (protocolDescriptor.fields.get f).type = .uint32) (v : UInt32) :
      Countable protocolDescriptor
        (memberOf (numberRecord os (protocolDescriptor.fields.get f).id.toNat v)) :=
    countable_of_not_holdsArray (by rw [hf]; rfl)
  intro r hr
  simp only [Protocol.records, List.mem_append, List.mem_map] at hr
  rcases hr with ⟨s, -, rfl⟩ | ⟨v, -, rfl⟩ | ⟨v, -, rfl⟩ | ⟨v, -, rfl⟩ | ⟨v, -, rfl⟩ | ⟨v, -, rfl⟩
  · exact @countable_of_said _ protocolDescriptor ⟨0, by decide⟩ _ _ (says_string os s)
  · exact hnumber ⟨1, by decide⟩ rfl v
  · exact hnumber ⟨2, by decide⟩ rfl v
  · exact hnumber ⟨3, by decide⟩ rfl v
  · exact hnumber ⟨4, by decide⟩ rfl v
  · exact hnumber ⟨5, by decide⟩ rfl v

theorem netInt_countable (os : CodedOutput U) (n : NetInt U) :
    ∀ r ∈ n.records os, Countable netIntDescriptor (memberOf r) := by
  intro r hr
  simp only [NetInt.records, List.mem_append, List.mem_map] at hr
  rcases hr with ⟨s, -, rfl⟩ | ⟨p, -, rfl⟩
  · exact @countable_of_said _ netIntDescriptor ⟨0, by decide⟩ _ _ (says_string os s)
  · exact @countable_of_not_holdsArray _ netIntDescriptor ⟨1, by decide⟩ _ rfl

theorem init_countable (os : CodedOutput U) (m : Init U) :
    ∀ r ∈ m.records os, Countable initDescriptor (memberOf r) := by
  intro r hr
  simp only [Init.records, List.mem_append, List.mem_map] at hr
  rcases hr with ⟨n, -, rfl⟩ | ⟨v, -, rfl⟩ | ⟨v, -, rfl⟩
  · exact @countable_of_not_holdsArray _ initDescriptor ⟨0, by decide⟩ _ rfl
  · exact @countable_of_not_holdsArray _ initDescriptor ⟨1, by decide⟩ _ rfl
  · exact @countable_of_not_holdsArray _ initDescriptor ⟨2, by decide⟩ _ rfl

section Unpacked

variable {os : CodedOutput U} (h : os.Documented)
include h

theorem protocol_stream {p : Protocol U} (hdefault : p.unknownFields = os.noFields)
    (hsize : (p.writeTo os).length ≤ 2 * maxMembers) :
    Stream (p.records os) (p.writeTo os) := by
  rw [Protocol.writeTo, hdefault, h.noFields, List.append_nil] at hsize ⊢
  simp only [elim_eq_flatMap] at hsize ⊢
  exact (stream_string h (by decide) _ hsize).append ((stream_numbers h (by decide) _).append
    ((stream_numbers h (by decide) _).append ((stream_numbers h (by decide) _).append
      ((stream_numbers h (by decide) _).append (stream_numbers h (by decide) _)))))

/-- A protocol is unpacked when its required fields are set. -/
theorem protocol_unpacked {p : Protocol U} (hdefault : p.unknownFields = os.noFields)
    (hsize : (p.writeTo os).length ≤ 2 * maxMembers) :
    messageUnpack protocolDescriptor (p.writeTo os) =
      if p.isInitialized then .ok p.unpacked else .error .null := by
  have hstream := protocol_stream h hdefault hsize
  have hcount := protocol_countable os p
  obtain ⟨id, active, client, clientPorts, server, serverPorts, unknown⟩ := p
  split_ifs with hinit
  · simp only [Protocol.isInitialized, Bool.and_eq_true, Option.isSome_iff_exists] at hinit
    obtain ⟨⟨s, rfl⟩, ⟨v, rfl⟩⟩ := hinit
    refine unpack_records Sniffer.Protobuf.Analysis.protocolDescriptor_apart hstream ?_ rfl
      (Sniffer.Protobuf.Analysis.protocol_rebuilds ?_ ?_) hsize
    · rw [Protocol.records, ← List.append_nil (serverPorts.map _)]
      exact .cons ⟨bytesOf s, _, rfl, says_string os s, rfl⟩
        (.cons ⟨v, _, rfl, says_number h v, rfl⟩ (.cons (optional_written h 3 client)
          (.cons (numbers_written h 4 clientPorts) (.cons (optional_written h 5 server)
            (.cons (numbers_written h 6 serverPorts) .nil)))))
    · cases client <;> simp [Protocol.unpacked]
    · cases server <;> simp [Protocol.unpacked]
  · have hnone : id = none ∨ active = none := by
      cases id <;> cases active <;> simp [Protocol.isInitialized] at hinit ⊢
    rcases hnone with rfl | rfl
    · refine Sniffer.Protobuf.unpack_missing Sniffer.Protobuf.Analysis.protocolDescriptor_apart
        hstream hsize hcount (f := ⟨0, by decide⟩) rfl ?_
      simp only [Protocol.records, List.mem_append, List.mem_map]
      rintro r (⟨s, hs, -⟩ | ⟨v, -, rfl⟩ | ⟨v, -, rfl⟩ | ⟨v, -, rfl⟩ | ⟨v, -, rfl⟩ | ⟨v, -, rfl⟩)
      · exact absurd hs (by simp)
      all_goals exact ne_of_beq_false rfl
    · refine Sniffer.Protobuf.unpack_missing Sniffer.Protobuf.Analysis.protocolDescriptor_apart
        hstream hsize hcount (f := ⟨1, by decide⟩) rfl ?_
      simp only [Protocol.records, List.mem_append, List.mem_map]
      rintro r (⟨s, -, rfl⟩ | ⟨v, hv, -⟩ | ⟨v, -, rfl⟩ | ⟨v, -, rfl⟩ | ⟨v, -, rfl⟩ | ⟨v, -, rfl⟩)
      · exact ne_of_beq_false rfl
      · exact absurd hv (by simp)
      all_goals exact ne_of_beq_false rfl

theorem netInt_stream {n : NetInt U} (hdefault : n.unknownFields = os.noFields)
    (hparts : ∀ p ∈ n.protocols, (p.writeTo os).length ≤ 2 * maxMembers)
    (hsize : (n.writeTo os).length ≤ 2 * maxMembers) : Stream (n.records os) (n.writeTo os) := by
  rw [NetInt.writeTo, hdefault, h.noFields, List.append_nil] at hsize ⊢
  simp only [elim_eq_flatMap] at hsize ⊢
  exact (stream_string h (by decide) _ hsize).append (stream_messages h (by decide)
    fun p hp => toNat_size (p.computeSize_eq h) (hparts p hp))

/-- An interface is unpacked when its required fields and those of its protocols are set. -/
theorem netInt_unpacked {n : NetInt U} (hdefault : n.OnlyKnown os)
    (hsize : (n.writeTo os).length ≤ 2 * maxMembers) :
    messageUnpack netIntDescriptor (n.writeTo os) =
      if n.isInitialized then .ok n.unpacked else .error .null := by
  obtain ⟨id, protocols, unknown⟩ := n
  obtain ⟨hunknown, hprotocols⟩ := hdefault
  simp only at hunknown hprotocols
  subst hunknown
  have hparts : ∀ p ∈ protocols, (p.writeTo os).length ≤ 2 * maxMembers :=
    fun p hp => length_le_of_mem hp _ hsize
  have hunpack : ∀ p ∈ protocols, messageUnpack protocolDescriptor (p.writeTo os) =
      if p.isInitialized then .ok p.unpacked else .error .null :=
    fun p hp => protocol_unpacked h (hprotocols p hp) (hparts p hp)
  have hstream := netInt_stream h (n := ⟨id, protocols, os.noFields⟩) rfl hparts hsize
  have hcount := netInt_countable os ⟨id, protocols, os.noFields⟩
  have hfield : netIntDescriptor.fields.get ⟨1, by decide⟩ =
      ⟨2, .message _ (messageOps protocolDescriptor), .repeated
        { get := fun m => m.protocols, set := fun v m => { m with protocols := v } }⟩ := rfl
  cases id with
  | none =>
      refine Sniffer.Protobuf.unpack_missing Sniffer.Protobuf.Analysis.netIntDescriptor_apart
        hstream hsize hcount (f := ⟨0, by decide⟩) rfl ?_
      simp only [NetInt.records, List.mem_append, List.mem_map]
      rintro r (⟨s, hs, -⟩ | ⟨p, -, rfl⟩)
      · exact absurd hs (by simp)
      · exact ne_of_beq_false rfl
  | some s =>
      have hinit : NetInt.isInitialized ⟨some s, protocols, os.noFields⟩ =
          protocols.all Protocol.isInitialized := Bool.true_and _
      rw [hinit]
      split_ifs with hall
      · refine unpack_records Sniffer.Protobuf.Analysis.netIntDescriptor_apart hstream ?_ rfl
          (Sniffer.Protobuf.Analysis.netInt_rebuilds _) hsize
        rw [NetInt.records, ← List.append_nil (protocols.map _)]
        refine .cons ⟨bytesOf s, _, rfl, says_string os s, rfl⟩ (.cons ?_ .nil)
        refine messages_written os (messageOps protocolDescriptor) 2 fun p hp => ?_
        exact (hunpack p hp).trans (if_pos (List.all_eq_true.mp hall p hp))
      · refine Sniffer.Protobuf.unpack_refused Sniffer.Protobuf.Analysis.netIntDescriptor_apart
          hstream hsize hcount (List.append_nil _).symm ?_
        rw [NetInt.records, List.map_append, List.foldlM_append]
        have hid := @Sniffer.Protobuf.readMembers_field _ netIntDescriptor ⟨0, by decide⟩
          { id := some (bytesOf s) } {} ((some s).toList.map (stringRecord os 1))
          ⟨bytesOf s, _, rfl, says_string os s, rfl⟩ rfl
        refine (congrArg (· >>= _) hid).trans ?_
        exact (readMembers_messages os hfield hunpack _).trans (if_neg hall)

theorem init_stream {m : Init U} (hdefault : m.unknownFields = os.noFields)
    (hparts : ∀ n ∈ m.netInts, (n.writeTo os).length ≤ 2 * maxMembers) :
    Stream (m.records os) (m.writeTo os) := by
  rw [Init.writeTo, hdefault, h.noFields, List.append_nil]
  simp only [elim_eq_flatMap]
  exact (stream_messages h (by decide) fun n hn => toNat_size (n.computeSize_eq h)
    (hparts n hn)).append ((stream_numbers h (by decide) _).append
      (stream_numbers h (by decide) _))

/-- A message is unpacked when its required fields and those of its interfaces are set. -/
theorem init_unpacked {m : Init U} (hdefault : m.OnlyKnown os)
    (hsize : (m.writeTo os).length ≤ 2 * maxMembers) :
    messageUnpack initDescriptor (m.writeTo os) =
      if m.isInitialized then .ok m.unpacked else .error .null := by
  obtain ⟨netInts, interval, duration, unknown⟩ := m
  obtain ⟨hunknown, hnetInts⟩ := hdefault
  simp only at hunknown hnetInts
  subst hunknown
  have hparts : ∀ n ∈ netInts, (n.writeTo os).length ≤ 2 * maxMembers :=
    fun n hn => length_le_of_mem hn [] hsize
  have hunpack : ∀ n ∈ netInts, messageUnpack netIntDescriptor (n.writeTo os) =
      if n.isInitialized then .ok n.unpacked else .error .null :=
    fun n hn => netInt_unpacked h (hnetInts n hn) (hparts n hn)
  have hstream := init_stream h (m := ⟨netInts, interval, duration, os.noFields⟩) rfl hparts
  have hcount := init_countable os ⟨netInts, interval, duration, os.noFields⟩
  have hfield : initDescriptor.fields.get ⟨0, by decide⟩ =
      ⟨1, .message _ (messageOps netIntDescriptor), .repeated
        { get := fun m => m.netInts, set := fun v m => { m with netInts := v } }⟩ := rfl
  have hmissing := @Sniffer.Protobuf.unpack_missing _ _
    Sniffer.Protobuf.Analysis.initDescriptor_apart _ _ hstream hsize hcount
  have hmem (r : Record) : r ∈ Init.records os ⟨netInts, interval, duration, os.noFields⟩ ↔
      (∃ n ∈ netInts, messageRecord os 1 (n.computeSize os) (n.writeTo os) = r) ∨
        (∃ v ∈ interval.toList, numberRecord os 2 v = r) ∨
          ∃ v ∈ duration.toList, numberRecord os 3 v = r := by
    simp only [Init.records, List.mem_append, List.mem_map]
  by_cases hall : netInts.all NetInt.isInitialized = true
  · cases interval with
    | none =>
        refine hmissing (f := ⟨1, by decide⟩) rfl fun r hr => ?_
        rcases (hmem r).mp hr with ⟨n, -, rfl⟩ | ⟨v, hv, -⟩ | ⟨v, -, rfl⟩
        · exact ne_of_beq_false rfl
        · exact absurd hv (by simp)
        · exact ne_of_beq_false rfl
    | some v =>
        cases duration with
        | none =>
            refine hmissing (f := ⟨2, by decide⟩) rfl fun r hr => ?_
            rcases (hmem r).mp hr with ⟨n, -, rfl⟩ | ⟨v, -, rfl⟩ | ⟨v, hv, -⟩
            · exact ne_of_beq_false rfl
            · exact ne_of_beq_false rfl
            · exact absurd hv (by simp)
        | some w =>
            have hinit : Init.isInitialized ⟨netInts, some v, some w, os.noFields⟩ = true := hall
            rw [if_pos hinit]
            refine unpack_records Sniffer.Protobuf.Analysis.initDescriptor_apart hstream ?_ rfl
              (Sniffer.Protobuf.Analysis.init_rebuilds _) hsize
            rw [Init.records, ← List.append_nil ((some w).toList.map _)]
            refine .cons ?_ (.cons ⟨v, _, rfl, says_number h v, rfl⟩
              (.cons ⟨w, _, rfl, says_number h w, rfl⟩ .nil))
            refine messages_written os (messageOps netIntDescriptor) 1 fun n hn => ?_
            exact (hunpack n hn).trans (if_pos (List.all_eq_true.mp hall n hn))
  · have hinit : ¬ Init.isInitialized ⟨netInts, interval, duration, os.noFields⟩ = true := by
      rw [Init.isInitialized, Bool.and_eq_true]
      exact fun hboth => hall hboth.2
    rw [if_neg hinit]
    refine Sniffer.Protobuf.unpack_refused Sniffer.Protobuf.Analysis.initDescriptor_apart
      hstream hsize hcount rfl ?_
    exact (readMembers_messages os hfield hunpack _).trans (if_neg hall)

/-- The size in front of a message is the length of the message. -/
theorem init_size (m : Init U) (hsize : (m.writeTo os).length ≤ 2 * maxMembers) :
    IsVarint (m.writeTo os).length (os.writeRawVarint32 (m.computeSize os)) := by
  have hform := (h.varint (m.computeSize os)).1
  rwa [toNat_size (m.computeSize_eq h) hsize] at hform

end Unpacked

/-! ## What the sniffer makes of it -/

/-- The names of the protocols are there in a message of which the required fields are set. -/
theorem hasIds_of_isInitialized {m : Init U} (hinit : m.isInitialized = true) :
    ∀ n ∈ m.unpacked.netInts, Sniffer.HasIds n := by
  intro n' hn' p' hp'
  obtain ⟨n, hn, rfl⟩ := List.mem_map.mp hn'
  obtain ⟨p, hp, rfl⟩ := List.mem_map.mp hp'
  simp only [Init.isInitialized, Bool.and_eq_true, List.all_eq_true] at hinit
  have hnetInt := hinit.2 n hn
  simp only [NetInt.isInitialized, Bool.and_eq_true, List.all_eq_true] at hnetInt
  have hprotocol := hnetInt.2 p hp
  rw [Protocol.isInitialized, Bool.and_eq_true, Option.isSome_iff_exists] at hprotocol
  obtain ⟨s, hs⟩ := hprotocol.1
  exact ⟨bytesOf s, by rw [Protocol.unpacked, hs, Option.map_some]⟩

/-- **What the backend asks for is what the sniffer analyses.**  An `Init` that the backend
writes, in whatever base-128 forms, starts the analyses that it asks for, as far as
`ConnectionOutcome` says, when all of it has arrived by the call of `recv` behind its size and
its required fields are set; otherwise it starts none, and an error says which of the two it
was. -/
theorem init_reaches_sniffer {os : CodedOutput U} (h : os.Documented) {m : Init U}
    (hdefault : m.OnlyKnown os) (hne : m.writeTo os ≠ [])
    (hsize : (m.writeTo os).length ≤ 2 * maxMembers) (courses : ℕ → Sniffer.Course)
    (ready : ℕ → ℕ) :
    let handled := Sniffer.handleConnection courses
      ⟨os.writeLengthDelimitedTo (m.computeSize os) (m.writeTo os), 0, ready⟩
    let arrived := (m.writeTo os).length ≤
      max 1 (ready (os.writeRawVarint32 (m.computeSize os)).length)
    (arrived → m.isInitialized = true → ∃ started stop, handled = some (started, stop) ∧
      Sniffer.ConnectionOutcome courses m.unpacked m.unpacked.netInts 0 started stop) ∧
    (arrived → m.isInitialized = false →
      handled = some ([], some (.error "error unpacking incoming message\n"))) ∧
    (¬ arrived → ∃ text, handled = some ([], some (.error text))) := by
  intro handled arrived
  have hlt : (m.writeTo os).length < 2 ^ 31 := Nat.lt_of_le_of_lt hsize (by decide)
  have hpos : 1 ≤ (m.writeTo os).length := List.length_pos_iff.mpr hne
  have hconnection := Sniffer.connectionHandler_of_length (init_size h m hsize) hpos hlt ready
  rw [← h.lengthDelimited] at hconnection
  have hunpack := init_unpacked h hdefault hsize
  refine ⟨fun harrived hinit => ?_, fun harrived hinit => ?_, fun hlate => ?_⟩
  · rw [if_pos harrived] at hconnection
    rw [hinit, if_pos rfl] at hunpack
    refine ⟨_, _, ?_, Sniffer.startAnalyses_eq courses m.unpacked (hasIds_of_isInitialized hinit) 0⟩
    simp only [handled, Sniffer.handleConnection, hconnection, hunpack]
  · rw [if_pos harrived] at hconnection
    rw [hinit, if_neg Bool.false_ne_true] at hunpack
    simp only [handled, Sniffer.handleConnection, hconnection, hunpack]
  · rw [if_neg hlate] at hconnection
    simp only [handled, Sniffer.handleConnection, hconnection]
    exact ⟨_, rfl⟩

/-- A server with HTTP on a port of its own, on one interface. -/
def serverInit : Init Unit :=
  ⟨[⟨some "lo", [⟨some "HTTP", some 5, none, [], some 0x0A000001, [8081], ()⟩], ()⟩],
    some 5, some 60, ()⟩

/-- It arrives with the call behind its size, and is analysed for a minute. -/
theorem init_reaches_sniffer_http :
    ∃ analysis, Sniffer.handleConnection (fun _ => ⟨true, true⟩)
        ⟨shortestOutput.writeLengthDelimitedTo (serverInit.computeSize shortestOutput)
          (serverInit.writeTo shortestOutput), 0, fun _ => 64⟩ = some ([analysis], none) ∧
      analysis.interface = some [0x6C, 0x6F] := by
  have hdefault : serverInit.OnlyKnown shortestOutput := ⟨rfl, fun _ _ => ⟨rfl, fun _ _ => rfl⟩⟩
  let courses : ℕ → Sniffer.Course := fun _ => ⟨true, true⟩
  obtain ⟨hstarts, -⟩ := init_reaches_sniffer shortestOutput_documented hdefault
    (by decide +kernel) (by decide +kernel) courses fun _ => 64
  obtain ⟨started, stop, hhandled, hfollows, hstop⟩ := hstarts (by decide +kernel) rfl
  have hreached : Sniffer.reached (Sniffer.returns courses serverInit.unpacked)
      (serverInit.unpacked.netInts.takeWhile Sniffer.allKnown).zipIdx =
      [({ id := some [0x6C, 0x6F]
          protocols := [{
            id := some [0x48, 0x54, 0x54, 0x50], activeMetrics := 5
            hasServerIp := true, serverIp := 0x0A000001, serverPorts := [8081] }] }, 0)] := by
    decide +kernel
  have hover : (serverInit.unpacked.netInts.takeWhile Sniffer.allKnown).zipIdx.all
      (Sniffer.returns courses serverInit.unpacked) = true := by decide +kernel
  have hall : serverInit.unpacked.netInts.all Sniffer.allKnown = true := by decide +kernel
  rw [hreached, List.forall₂_cons_left_iff] at hfollows
  obtain ⟨analysis, rest, hanalysis, hrest, rfl⟩ := hfollows
  obtain rfl := List.forall₂_nil_left_iff.mp hrest
  rw [hover, if_pos rfl, hall, if_pos rfl] at hstop
  rw [hstop] at hhandled
  exact ⟨analysis, hhandled, hanalysis.interface⟩

end MonitoringTool.Backend
