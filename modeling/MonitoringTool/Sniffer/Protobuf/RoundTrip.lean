import MonitoringTool.Sniffer.Protobuf.Written
import Mathlib.Data.List.TakeWhile

/-!
# Unpacking what was packed

`messagePack` writes a stream of records (`stream_fieldsPack`), and reading these records one
by one sets each field to what it was in the message that was packed.  So a message comes back
from its bytes (`unpack_pack`): a message whose strings and submessages are there and do not
hold a 0, that does not hide a value in a member that is not set, and that is not too long.
-/

namespace MonitoringTool.Sniffer.Protobuf

open Lib Wire

variable {S : Type}

/-! ## The records that are written -/

/-- The payload of a field with this member. -/
def payloadOf : (type : CType) → type.Member → Payload
  | .uint32, member => .varint (uint32Pack member)
  | .int64, member => .varint (uint64Pack member.toUInt64)
  | .double, member => .fixed64 (fixed64Pack member)
  | .string, none => .delimited [0] []
  | .string, some str => .delimited (uint32Pack (strlen str).toUInt32) (str.take (strlen str))
  | .message _ _, none => .delimited [0] []
  | .message _ ops, some msg =>
      .delimited (uint32Pack (ops.pack msg).length.toUInt32) (ops.pack msg)

/-- The record of a field with this member. -/
def recordOf (id : UInt32) (type : CType) (member : type.Member) : Record :=
  ⟨id.toNat, payloadOf type member⟩

/-- The records that are written for a field. -/
def fieldRecords (message : S) (field : FieldDescriptor S) : List Record :=
  match field.label with
  | .required place => [recordOf field.id field.type (place.get message)]
  | .optional quantifier place =>
      if isSet (quantifier.elim false fun has => has.get message) field.type (place.get message)
      then [recordOf field.id field.type (place.get message)] else []
  | .oneof case place _ =>
      if case message ≠ field.id then []
      else if isSet true field.type (place message) then
        [recordOf field.id field.type (place message)] else []
  | .repeated array =>
      (array.get message).map fun elem => recordOf field.id field.type (field.type.ofElem elem)

/-- A key and a payload are a record. -/
theorem writes_record (id : UInt32) {p : Payload} (h : p.Valid) :
    (⟨id.toNat, p⟩ : Record).Writes (tagAndWireType id p.wireType.toUInt8 ++ p.bytes) := by
  refine ⟨_, tagAndWireType_isVarint id p.wireType_lt, ?_, h, rfl⟩
  exact length_tagAndWireType id p.wireType.toUInt8 ▸ getTagSize_le id

/-- What follows the key of a field. -/
theorem requiredFieldPack_eq (id : UInt32) (type : CType) (member : type.Member) :
    requiredFieldPack id type member =
      tagAndWireType id (payloadOf type member).wireType.toUInt8 ++
        (payloadOf type member).bytes := by
  cases type with
  | uint32 => rfl
  | int64 => rfl
  | double => rfl
  | string => cases member <;> rfl
  | message M ops => cases member <;> rfl

theorem isVarint_length {len : ℕ} (h : len < 2 ^ 32) : IsVarint len (uint32Pack len.toUInt32) := by
  have hlen : len.toUInt32.toNat = len := by
    rw [Nat.toUInt32_eq, UInt32.toNat_ofNat']
    omega
  have hform := uint32Pack_isVarint len.toUInt32
  rwa [hlen] at hform

theorem length_uint32Pack_le (v : UInt32) : (uint32Pack v).length ≤ 5 :=
  length_uint32Pack v ▸ uint32Size_le v

/-- The payload can be read, when its length can be told. -/
theorem payloadOf_valid {type : CType} {member : type.Member}
    (h : (payloadOf type member).bytes.length < 2 ^ 32) : (payloadOf type member).Valid := by
  cases type with
  | uint32 =>
      exact ⟨Nat.le_trans (length_uint32Pack_le _) (by decide), _, uint32Pack_isVarint _⟩
  | int64 =>
      exact ⟨length_uint64Pack _ ▸ uint64Size_le _, _, uint64Pack_isVarint _⟩
  | double => exact length_fixed64Pack _
  | string =>
      cases member with
      | none => exact ⟨by decide, .last (b := 0) (by decide)⟩
      | some str =>
          simp only [payloadOf, Payload.bytes, List.length_append] at h
          refine ⟨length_uint32Pack_le _, ?_⟩
          rw [length_take_strlen] at h ⊢
          exact isVarint_length (by omega)
  | message M ops =>
      cases member with
      | none => exact ⟨by decide, .last (b := 0) (by decide)⟩
      | some msg =>
          simp only [payloadOf, Payload.bytes, List.length_append] at h
          exact ⟨length_uint32Pack_le _, isVarint_length (by omega)⟩

theorem stream_requiredFieldPack {id : UInt32} {type : CType} {member : type.Member}
    (h : (requiredFieldPack id type member).length < 2 ^ 32) :
    Stream [recordOf id type member] (requiredFieldPack id type member) := by
  rw [requiredFieldPack_eq] at h ⊢
  rw [List.length_append] at h
  exact .single (writes_record id (payloadOf_valid (by omega)))

/-! ## The stream of a message -/

/-- The field holds a payload of its wire type, so that it can be read again. -/
def UnknownField.Holds (field : UnknownField) (p : Payload) : Prop :=
  p.Valid ∧ p.wireType.toUInt8 = field.wireType ∧ p.bytes = field.data

theorem length_le_flatMap {ι : Type*} {items : List ι} {i : ι} (h : i ∈ items)
    (write : ι → List UInt8) : (write i).length ≤ (items.flatMap write).length := by
  rw [List.flatMap_def]
  exact (List.sublist_flatten_of_mem (List.mem_map_of_mem h)).length_le

/-- A field is written as its records. -/
theorem stream_fieldPack {message : S} {field : FieldDescriptor S}
    (h : (fieldPack message field).length < 2 ^ 32) :
    Stream (fieldRecords message field) (fieldPack message field) := by
  cases hlabel : field.label with
  | required place =>
      simp only [fieldPack, fieldRecords, hlabel] at h ⊢
      exact stream_requiredFieldPack h
  | optional quantifier place =>
      simp only [fieldPack, fieldRecords, hlabel, optionalFieldPack] at h ⊢
      split_ifs at h ⊢
      · exact stream_requiredFieldPack h
      · exact .nil
  | oneof case place set =>
      simp only [fieldPack, fieldRecords, hlabel, oneofFieldPack] at h ⊢
      split_ifs at h ⊢
      · exact .nil
      · exact stream_requiredFieldPack h
      · exact .nil
  | repeated array =>
      simp only [fieldPack, fieldRecords, hlabel, repeatedFieldPack] at h ⊢
      rw [← List.flatMap_singleton' (l := array.get message |>.map _), List.flatMap_map]
      refine Stream.flatMap _ fun elem helem => stream_requiredFieldPack ?_
      exact Nat.lt_of_le_of_lt (length_le_flatMap helem fun elem =>
        requiredFieldPack field.id field.type (field.type.ofElem elem)) h

/-- The fields of a message are written as their records. -/
theorem stream_fieldsPack {desc : MessageDescriptor S} {message : S}
    (h : (messagePack desc message).length < 2 ^ 32) :
    Stream (desc.fields.flatMap (fieldRecords message))
      (desc.fields.flatMap (fieldPack message)) := by
  rw [messagePack, List.length_append] at h
  refine Stream.flatMap _ fun field hfield => stream_fieldPack ?_
  have hle := length_le_flatMap hfield (fieldPack message)
  omega

/-- A message without unknown fields is the stream of its fields. -/
theorem stream_messagePack {desc : MessageDescriptor S} {message : S}
    (hplain : desc.unknownFields.get message = [])
    (h : (messagePack desc message).length < 2 ^ 32) :
    Stream (desc.fields.flatMap (fieldRecords message)) (messagePack desc message) := by
  have hfields := stream_fieldsPack h
  rwa [← List.append_nil (desc.fields.flatMap (fieldPack message)), ← List.flatMap_nil,
    ← hplain] at hfields

/-! ## Messages that come back -/

/-- The member comes back when it is unpacked: a string is there and does not hold a 0, and so
is a submessage, which comes back itself. -/
def Returns : (type : CType) → type.Member → Prop
  | .string, str => ∃ chars, str = some chars ∧ 0 ∉ chars
  | .message _ ops, msg => ∃ m, msg = some m ∧ ops.unpack (ops.pack m) = .ok m
  | _, _ => True

/-- The members of the field come back. -/
def FieldReturns (message : S) (field : FieldDescriptor S) : Prop :=
  match field.label with
  | .required place => Returns field.type (place.get message)
  | .optional quantifier place =>
      isSet (quantifier.elim false fun has => has.get message) field.type (place.get message) →
        Returns field.type (place.get message)
  | .oneof case place _ =>
      case message = field.id → isSet true field.type (place message) = true →
        Returns field.type (place message)
  | .repeated array => ∀ elem ∈ array.get message, Returns field.type (field.type.ofElem elem)

/-- The fields come back as unknown ones. -/
def MessageDescriptor.UnknownReturn (desc : MessageDescriptor S) (fields : List UnknownField) :
    Prop :=
  ∀ field ∈ fields, desc.lookup field.tag = none ∧ ∃ p, field.Holds p

/-- A message that comes back from its bytes. -/
structure MessageReturns (desc : MessageDescriptor S) (message : S) : Prop where
  fields : ∀ field ∈ desc.fields, FieldReturns message field
  unknown : desc.UnknownReturn (desc.unknownFields.get message)
  rebuilds : Rebuilds desc message desc.messageInit desc.fields

/-! ## The records say the fields -/

theorem strlen_of_notMem {str : List UInt8} (h : 0 ∉ str) : strlen str = str.length := by
  rw [strlen, List.takeWhile_eq_self_iff.mpr]
  intro b hb
  simpa using fun hzero : b = 0 => h (hzero ▸ hb)

/-- A member that comes back holds an element, which its payload says. -/
theorem Returns.said {type : CType} {member : type.Member} (h : Returns type member) :
    ∃ elem, member = type.ofElem elem ∧ Says type elem (payloadOf type member) := by
  cases type with
  | uint32 =>
      exact ⟨member, rfl, _, _, rfl, uint32Pack_isVarint member, Nat.mod_eq_of_lt member.toNat_lt⟩
  | int64 =>
      exact ⟨member, rfl, _, _, rfl, uint64Pack_isVarint member.toUInt64,
        length_uint64Pack _ ▸ uint64Size_le _, Nat.mod_eq_of_lt member.toUInt64.toNat_lt⟩
  | double => exact ⟨member, rfl, rfl⟩
  | string =>
      obtain ⟨chars, rfl, hzero⟩ := h
      refine ⟨chars, rfl, uint32Pack (strlen chars).toUInt32, ?_⟩
      rw [payloadOf, strlen_of_notMem hzero, List.take_length]
  | message M ops =>
      obtain ⟨m, rfl, hunpack⟩ := h
      exact ⟨m, rfl, _, _, rfl, hunpack⟩

/-- What is written for a field is its records. -/
theorem fieldRecords_written {message : S} {field : FieldDescriptor S}
    (h : FieldReturns message field) : FieldWritten message field (fieldRecords message field) := by
  cases hlabel : field.label with
  | required place =>
      simp only [FieldReturns, FieldWritten, fieldRecords, hlabel] at h ⊢
      obtain ⟨elem, helem, hsaid⟩ := h.said
      exact ⟨elem, _, helem, hsaid, rfl⟩
  | optional quantifier place =>
      simp only [FieldReturns, FieldWritten, fieldRecords, hlabel] at h ⊢
      split_ifs with hset
      · obtain ⟨elem, helem, hsaid⟩ := (h hset).said
        exact ⟨elem, _, helem, hsaid, rfl⟩
      · rfl
  | oneof case place set =>
      simp only [FieldReturns, FieldWritten, fieldRecords, hlabel] at h ⊢
      by_cases hcase : case message = field.id
      · by_cases hset : isSet true field.type (place message) = true
        · obtain ⟨elem, helem, hsaid⟩ := (h hcase hset).said
          rw [if_pos ⟨hcase, hset⟩, if_neg (not_not.mpr hcase), if_pos hset]
          exact ⟨elem, _, helem, hsaid, rfl⟩
        · rw [if_neg fun hboth => hset hboth.2, if_neg (not_not.mpr hcase), if_neg hset]
      · rw [if_neg fun hboth => hcase hboth.1, if_pos hcase]
  | repeated array =>
      simp only [FieldReturns, FieldWritten, fieldRecords, hlabel] at h ⊢
      rw [List.forall₂_map_right_iff, List.forall₂_same]
      intro elem helem
      obtain ⟨elem', hsame, hsaid⟩ := (h elem helem).said
      exact ⟨_, (CType.ofElem_injective _ hsame) ▸ hsaid, rfl⟩

theorem fieldsRecords_written {message : S} {fields : List (FieldDescriptor S)}
    (h : ∀ field ∈ fields, FieldReturns message field) :
    FieldsWritten message fields (fields.flatMap (fieldRecords message)) := by
  induction fields with
  | nil => exact .nil
  | cons field fields ih =>
      exact .cons (fieldRecords_written (h field (by simp))) (ih fun g hg => h g (by simp [hg]))

/-- An unknown field is written as a record of its number. -/
theorem UnknownField.Holds.writes {field : UnknownField} {p : Payload} (h : field.Holds p) :
    (⟨field.tag.toNat, p⟩ : Record).Writes (unknownFieldPack field) := by
  obtain ⟨hvalid, hwire, hdata⟩ := h
  rw [unknownFieldPack, ← hwire, ← hdata]
  exact writes_record field.tag hvalid

/-- Unknown fields are written as their records. -/
theorem unknownRecords_written {desc : MessageDescriptor S} {fields : List UnknownField}
    (h : desc.UnknownReturn fields) :
    ∃ rs, Stream rs (fields.flatMap unknownFieldPack) ∧ UnknownWritten desc fields rs := by
  induction fields with
  | nil => exact ⟨[], .nil, .nil⟩
  | cons field fields ih =>
      obtain ⟨hlookup, p, hp⟩ := h field (by simp)
      obtain ⟨rs, hstream, hwritten⟩ := ih fun g hg => h g (by simp [hg])
      exact ⟨_, .cons hp.writes hstream, .cons ⟨hlookup, p, rfl, hp.2.1, hp.2.2⟩ hwritten⟩

/-- A message comes back from the bytes that it was packed into, when these are not more than
the slabs of the first pass hold members in any case. -/
theorem unpack_pack {desc : MessageDescriptor S} (hapart : desc.Apart) {message : S}
    (h : MessageReturns desc message)
    (hsize : (messagePack desc message).length ≤ 2 * maxMembers) :
    messageUnpack desc (messagePack desc message) = .ok message := by
  have hfields := @stream_fieldsPack _ desc message
    (Nat.lt_of_le_of_lt hsize (by decide))
  obtain ⟨unknown, hunknown, hwritten⟩ := unknownRecords_written h.unknown
  exact unpack_of_written hapart (hfields.append hunknown) (fieldsRecords_written h.fields)
    hwritten h.rebuilds hsize

/-! ## The bytes of a submessage -/

theorem length_fieldPack_le (desc : MessageDescriptor S) (f : Fin desc.fields.length)
    (message : S) :
    (fieldPack message (desc.fields.get f)).length ≤ (messagePack desc message).length := by
  have hle := length_le_flatMap (List.get_mem desc.fields f) (fieldPack message)
  rw [messagePack, List.length_append]
  omega

theorem length_le_requiredFieldPack {M : Type} (id : UInt32) (sub : MessageDescriptor M)
    (msg : M) : (messagePack sub msg).length ≤
      (requiredFieldPack id (.message M (messageOps sub)) (some msg)).length := by
  have hpacked : (prefixedMessagePack (messageOps sub) (some msg)).length =
      (uint32Pack (messagePack sub msg).length.toUInt32).length +
        (messagePack sub msg).length := List.length_append
  rw [requiredFieldPack, List.length_append]
  omega

/-- A submessage that is required, or the one that is set of several. -/
theorem length_le_of_single {M : Type} {desc : MessageDescriptor S} {f : Fin desc.fields.length}
    {message : S} {id : UInt32} {sub : MessageDescriptor M} {msg : M}
    (hfield : fieldPack message (desc.fields.get f) =
      requiredFieldPack id (.message M (messageOps sub)) (some msg)) :
    (messagePack sub msg).length ≤ (messagePack desc message).length :=
  Nat.le_trans (length_le_requiredFieldPack id sub msg)
    (hfield ▸ length_fieldPack_le desc f message)

/-- A submessage of an array. -/
theorem length_le_of_mem {M : Type} {desc : MessageDescriptor S} {f : Fin desc.fields.length}
    {message : S} {id : UInt32} {sub : MessageDescriptor M} {array : List M}
    (hfield : fieldPack message (desc.fields.get f) =
      repeatedFieldPack id (.message M (messageOps sub)) array) {msg : M} (h : msg ∈ array) :
    (messagePack sub msg).length ≤ (messagePack desc message).length := by
  have hle := length_le_flatMap h fun elem =>
    requiredFieldPack id (.message M (messageOps sub)) (some elem)
  have hwhole := length_fieldPack_le desc f message
  rw [hfield] at hwhole
  exact Nat.le_trans (length_le_requiredFieldPack id sub msg) (Nat.le_trans hle hwhole)

end MonitoringTool.Sniffer.Protobuf
