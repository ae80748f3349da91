import MonitoringTool.Sniffer.Protobuf.Descriptors
import MonitoringTool.Sniffer.Protobuf.Integers

/-!
# Packing a message

`protobuf_c_message_get_packed_size` adds up how long a message will be, and
`protobuf_c_message_pack` writes it into a block that was allocated with that length.  They are
two walks over the descriptor, and `length_messagePack` says that they agree, on every message
of every descriptor.
-/

namespace MonitoringTool.Sniffer.Protobuf

open Lib

variable {S : Type}

/-! ## `protobuf_c_message_get_packed_size` -/

/-- `strlen`, of a string in its block. -/
def strlen (str : List UInt8) : ℕ := (str.takeWhile (· ≠ 0)).length

/-- `required_field_get_packed_size`. -/
def requiredFieldGetPackedSize (id : UInt32) : (type : CType) → type.Member → ℕ
  | .uint32, member => getTagSize id + uint32Size member
  | .int64, member => getTagSize id + uint64Size member.toUInt64
  | .double, _ => getTagSize id + 8
  | .string, str =>
      let len := str.elim 0 strlen
      getTagSize id + uint32Size len.toUInt32 + len
  | .message _ ops, msg =>
      let subrv := msg.elim 0 ops.getPackedSize
      getTagSize id + uint32Size subrv.toUInt32 + subrv

/-- Whether a member counts as set: a pointer that is not `NULL`, or what says so for the
others. -/
def isSet (has : Bool) : (type : CType) → type.Member → Bool
  | .string, str => str.isSome
  | .message _ _, msg => msg.isSome
  | _, _ => has

/-- `optional_field_get_packed_size`. -/
def optionalFieldGetPackedSize (id : UInt32) (type : CType) (has : Bool) (member : type.Member) :
    ℕ :=
  if isSet has type member then requiredFieldGetPackedSize id type member else 0

/-- `oneof_field_get_packed_size`. -/
def oneofFieldGetPackedSize (id : UInt32) (type : CType) (case : UInt32) (member : type.Member) :
    ℕ :=
  if case ≠ id then 0
  else if isSet true type member then requiredFieldGetPackedSize id type member else 0

/-- The switch of `repeated_field_get_packed_size`, over what follows the tags. -/
def repeatedElementsSize : (type : CType) → List type.Elem → ℕ
  | .uint32, array => (array.map uint32Size).sum
  | .int64, array => (array.map fun v => uint64Size v.toUInt64).sum
  | .double, array => 8 * array.length
  | .string, array => (array.map fun str => uint32Size (strlen str).toUInt32 + strlen str).sum
  | .message _ ops, array =>
      (array.map fun msg =>
        uint32Size (ops.getPackedSize msg).toUInt32 + ops.getPackedSize msg).sum

/-- `repeated_field_get_packed_size`. -/
def repeatedFieldGetPackedSize (id : UInt32) (type : CType) (array : List type.Elem) : ℕ :=
  let count := array.length
  if count = 0 then 0
  else
    let headerSize := getTagSize id * count
    headerSize + repeatedElementsSize type array

/-- `unknown_field_get_packed_size`. -/
def unknownFieldGetPackedSize (field : UnknownField) : ℕ :=
  getTagSize field.tag + field.data.length

/-- The turn of `protobuf_c_message_get_packed_size` for one field. -/
def fieldGetPackedSize (message : S) (field : FieldDescriptor S) : ℕ :=
  match field.label with
  | .required member => requiredFieldGetPackedSize field.id field.type (member.get message)
  | .oneof case member _ =>
      oneofFieldGetPackedSize field.id field.type (case message) (member message)
  | .optional quantifier member =>
      optionalFieldGetPackedSize field.id field.type
        (quantifier.elim false fun has => has.get message) (member.get message)
  | .repeated array => repeatedFieldGetPackedSize field.id field.type (array.get message)

/-- `protobuf_c_message_get_packed_size`. -/
def messageGetPackedSize (desc : MessageDescriptor S) (message : S) : ℕ :=
  (desc.fields.map (fieldGetPackedSize message)).sum +
    ((desc.unknownFields.get message).map unknownFieldGetPackedSize).sum

/-! ## `protobuf_c_message_pack` -/

/-- `PROTOBUF_C_WIRE_TYPE_VARINT`. -/
def wireTypeVarint : UInt8 := 0

/-- `PROTOBUF_C_WIRE_TYPE_64BIT`. -/
def wireType64Bit : UInt8 := 1

/-- `PROTOBUF_C_WIRE_TYPE_LENGTH_PREFIXED`. -/
def wireTypeLengthPrefixed : UInt8 := 2

/-- `PROTOBUF_C_WIRE_TYPE_32BIT`. -/
def wireType32Bit : UInt8 := 5

/-- `tag_pack` followed by `out[0] |= wire_type`. -/
def tagAndWireType (id : UInt32) (wireType : UInt8) : List UInt8 :=
  (tagPack id).modifyHead (· ||| wireType)

/-- The wire type goes into the lowest three bits of a key. -/
theorem isVarint_or_low {n w : ℕ} {form : List UInt8} (h : IsVarint n form) (hn : n % 8 = 0)
    (hw : w < 8) : IsVarint (n + w) (form.modifyHead (· ||| w.toUInt8)) := by
  have hor (b : UInt8) (hb : b.toNat % 8 = 0) : (b ||| w.toUInt8).toNat = b.toNat + w := by
    have hlt := b.toNat_lt
    have hadd := Nat.two_pow_add_eq_or_of_lt (i := 3) (b := w) hw (b.toNat / 8)
    have hb8 : 2 ^ 3 * (b.toNat / 8) = b.toNat := by omega
    rw [hb8] at hadd
    rw [UInt8.toNat_or, Nat.toUInt8_eq, UInt8.toNat_ofNat', Nat.mod_eq_of_lt (by omega), ← hadd]
  cases h with
  | @last b hb =>
      have hbyte := hor b hn
      rw [List.modifyHead_cons, ← hbyte]
      exact .last (by omega)
  | @more b m form hb hform =>
      have hlt := b.toNat_lt
      have hbyte := hor b (by omega)
      rw [List.modifyHead_cons]
      exact isVarint_more (by omega) (by
        have hdiv : (b.toNat % 128 + 128 * m + w) / 128 = m := by omega
        rwa [hdiv])

/-- A key holds the number of a field and a wire type. -/
theorem tagAndWireType_isVarint (id : UInt32) {wireType : ℕ} (h : wireType < 8) :
    IsVarint (id.toNat * 8 + wireType) (tagAndWireType id wireType.toUInt8) :=
  isVarint_or_low (tagPack_isVarint id) (by omega) h

/-- `string_pack`. -/
def stringPack : Option (List UInt8) → List UInt8
  | none => [0]
  | some str =>
      let len := strlen str
      uint32Pack len.toUInt32 ++ str.take len

/-- `prefixed_message_pack`: the message is written behind room for one byte of length, and
moved when its length takes more. -/
def prefixedMessagePack {M : Type} (ops : MessageOps M) : Option M → List UInt8
  | none => [0]
  | some message =>
      let packed := ops.pack message
      uint32Pack packed.length.toUInt32 ++ packed

/-- `required_field_pack`. -/
def requiredFieldPack (id : UInt32) : (type : CType) → type.Member → List UInt8
  | .uint32, member => tagAndWireType id wireTypeVarint ++ uint32Pack member
  | .int64, member => tagAndWireType id wireTypeVarint ++ uint64Pack member.toUInt64
  | .double, member => tagAndWireType id wireType64Bit ++ fixed64Pack member
  | .string, member => tagAndWireType id wireTypeLengthPrefixed ++ stringPack member
  | .message _ ops, member =>
      tagAndWireType id wireTypeLengthPrefixed ++ prefixedMessagePack ops member

/-- `optional_field_pack`. -/
def optionalFieldPack (id : UInt32) (type : CType) (has : Bool) (member : type.Member) :
    List UInt8 :=
  if isSet has type member then requiredFieldPack id type member else []

/-- `oneof_field_pack`. -/
def oneofFieldPack (id : UInt32) (type : CType) (case : UInt32) (member : type.Member) :
    List UInt8 :=
  if case ≠ id then []
  else if isSet true type member then requiredFieldPack id type member else []

/-- `repeated_field_pack`. -/
def repeatedFieldPack (id : UInt32) (type : CType) (array : List type.Elem) : List UInt8 :=
  array.flatMap fun elem => requiredFieldPack id type (type.ofElem elem)

/-- `unknown_field_pack`. -/
def unknownFieldPack (field : UnknownField) : List UInt8 :=
  tagAndWireType field.tag field.wireType ++ field.data

/-- The turn of `protobuf_c_message_pack` for one field. -/
def fieldPack (message : S) (field : FieldDescriptor S) : List UInt8 :=
  match field.label with
  | .required member => requiredFieldPack field.id field.type (member.get message)
  | .oneof case member _ => oneofFieldPack field.id field.type (case message) (member message)
  | .optional quantifier member =>
      optionalFieldPack field.id field.type (quantifier.elim false fun has => has.get message)
        (member.get message)
  | .repeated array => repeatedFieldPack field.id field.type (array.get message)

/-- `protobuf_c_message_pack`: the bytes written to `out`. -/
def messagePack (desc : MessageDescriptor S) (message : S) : List UInt8 :=
  desc.fields.flatMap (fieldPack message) ++
    (desc.unknownFields.get message).flatMap unknownFieldPack

/-! ## The size is the length of what is written -/

/-- The size and the bytes agree for the messages of a type. -/
def CType.SizeAgrees : CType → Prop
  | .message M ops => ∀ m : M, ops.getPackedSize m = (ops.pack m).length
  | _ => True

theorem length_tagAndWireType (id : UInt32) (wireType : UInt8) :
    (tagAndWireType id wireType).length = getTagSize id := by
  rw [tagAndWireType, List.length_modifyHead, length_tagPack]

theorem length_take_strlen (str : List UInt8) : (str.take (strlen str)).length = strlen str := by
  have hle : strlen str ≤ str.length := (List.takeWhile_prefix _).length_le
  rw [List.length_take, Nat.min_eq_left hle]

theorem length_stringPack (str : Option (List UInt8)) :
    (stringPack str).length = uint32Size (str.elim 0 strlen).toUInt32 + str.elim 0 strlen := by
  cases str with
  | none => rfl
  | some str =>
      rw [stringPack, List.length_append, length_uint32Pack, length_take_strlen]
      rfl

theorem length_prefixedMessagePack {M : Type} {ops : MessageOps M}
    (h : ∀ m, ops.getPackedSize m = (ops.pack m).length) (msg : Option M) :
    (prefixedMessagePack ops msg).length =
      uint32Size (msg.elim 0 ops.getPackedSize).toUInt32 + msg.elim 0 ops.getPackedSize := by
  cases msg with
  | none => rfl
  | some msg =>
      rw [prefixedMessagePack, List.length_append, length_uint32Pack, ← h]
      rfl

theorem length_requiredFieldPack (id : UInt32) {type : CType} (h : type.SizeAgrees)
    (member : type.Member) :
    (requiredFieldPack id type member).length = requiredFieldGetPackedSize id type member := by
  cases type with
  | uint32 =>
      simp [requiredFieldPack, requiredFieldGetPackedSize, length_tagAndWireType, length_uint32Pack]
  | int64 =>
      simp [requiredFieldPack, requiredFieldGetPackedSize, length_tagAndWireType, length_uint64Pack]
  | double => simp [requiredFieldPack, requiredFieldGetPackedSize, length_tagAndWireType]
  | string =>
      simp [requiredFieldPack, requiredFieldGetPackedSize, length_tagAndWireType,
        length_stringPack, Nat.add_assoc]
  | message M ops =>
      simp [requiredFieldPack, requiredFieldGetPackedSize, length_tagAndWireType,
        length_prefixedMessagePack h, Nat.add_assoc]

/-- The elements of a repeated field are written one by one. -/
theorem length_repeatedFieldPack (id : UInt32) {type : CType} (h : type.SizeAgrees)
    (array : List type.Elem) :
    (repeatedFieldPack id type array).length = repeatedFieldGetPackedSize id type array := by
  have hsum : (repeatedFieldPack id type array).length =
      (array.map fun elem => requiredFieldGetPackedSize id type (type.ofElem elem)).sum := by
    simp only [repeatedFieldPack, List.length_flatMap, length_requiredFieldPack id h]
  have hheader (f : type.Elem → ℕ) :
      (array.map fun elem => getTagSize id + f elem).sum =
        getTagSize id * array.length + (array.map f).sum := by
    rw [List.sum_map_add]
    simp [Nat.mul_comm]
  rw [hsum, repeatedFieldGetPackedSize]
  by_cases hnil : array.length = 0
  · rw [List.length_eq_zero_iff.mp hnil]
    simp
  · rw [if_neg hnil]
    cases type with
    | uint32 => exact hheader _
    | int64 => exact hheader _
    | double =>
        simp only [requiredFieldGetPackedSize, repeatedElementsSize, List.map_const',
          List.sum_replicate_nat]
        ring
    | string =>
        simp only [requiredFieldGetPackedSize, CType.ofElem, Option.elim, Nat.add_assoc]
        exact hheader _
    | message M ops =>
        simp only [requiredFieldGetPackedSize, CType.ofElem, Option.elim, Nat.add_assoc]
        exact hheader _

theorem length_fieldPack (message : S) {field : FieldDescriptor S}
    (h : field.type.SizeAgrees) :
    (fieldPack message field).length = fieldGetPackedSize message field := by
  cases hlabel : field.label with
  | required member =>
      simp only [fieldPack, fieldGetPackedSize, hlabel, length_requiredFieldPack field.id h]
  | optional quantifier member =>
      simp only [fieldPack, fieldGetPackedSize, hlabel, optionalFieldPack,
        optionalFieldGetPackedSize]
      split_ifs
      · exact length_requiredFieldPack field.id h _
      · rfl
  | oneof case member set =>
      simp only [fieldPack, fieldGetPackedSize, hlabel, oneofFieldPack, oneofFieldGetPackedSize]
      split_ifs
      · rfl
      · exact length_requiredFieldPack field.id h _
      · rfl
  | repeated array =>
      simp only [fieldPack, fieldGetPackedSize, hlabel, length_repeatedFieldPack field.id h]

/-- The two walks over a descriptor agree when they do on the messages within. -/
theorem length_messagePack {desc : MessageDescriptor S}
    (h : ∀ field ∈ desc.fields, field.type.SizeAgrees) (message : S) :
    (messagePack desc message).length = messageGetPackedSize desc message := by
  have hfields : desc.fields.map (fun field => (fieldPack message field).length) =
      desc.fields.map (fieldGetPackedSize message) :=
    List.map_congr_left fun field hfield => length_fieldPack message (h field hfield)
  have hunknown : (desc.unknownFields.get message).map (fun field =>
      (unknownFieldPack field).length) =
        (desc.unknownFields.get message).map unknownFieldGetPackedSize :=
    List.map_congr_left fun field _ => by
      rw [unknownFieldPack, List.length_append, length_tagAndWireType, unknownFieldGetPackedSize]
  rw [messagePack, List.length_append, List.length_flatMap, List.length_flatMap, hfields, hunknown,
    messageGetPackedSize]

end MonitoringTool.Sniffer.Protobuf
