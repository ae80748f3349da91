import MonitoringTool.Lib.ListModify
import MonitoringTool.Sniffer.Protobuf.Arrays

/-!
# Unpacking what another writer wrote

A message can be written in many ways: every number has many base-128 forms.  `FieldsWritten`
says that records are those of a message, with the fields in the order of the descriptor, and
`unpack_of_written` that the message is what the library unpacks, whatever the forms are.
-/

namespace MonitoringTool.Sniffer.Protobuf

open Lib Wire

variable {S : Type}

/-! ## Payloads and elements -/

/-- The payload says what the element is, in some form. -/
def Says : (type : CType) → type.Elem → Payload → Prop
  | .uint32, v, p => ∃ n form, p = .varint form ∧ IsVarint n form ∧ n % 2 ^ 32 = v.toNat
  | .int64, v, p =>
      ∃ n form, p = .varint form ∧ IsVarint n form ∧ form.length ≤ 10 ∧
        n % 2 ^ 64 = v.toUInt64.toNat
  | .double, v, p => p = .fixed64 (fixed64Pack v)
  | .string, str, p => ∃ lengthForm, p = .delimited lengthForm str
  | .message _ ops, msg, p =>
      ∃ lengthForm bytes, p = .delimited lengthForm bytes ∧ ops.unpack bytes = .ok msg

/-- A member is parsed from what says it, where there is no message to merge it with. -/
theorem parseRequiredMember_eq (number : ℕ) {type : CType} {elem : type.Elem} {p : Payload}
    (h : Says type elem p) {old : type.Member} {maybeClear : Bool} (hold : old = type.zero) :
    parseRequiredMember (memberOf ⟨number, p⟩) type old maybeClear = .ok elem := by
  cases type with
  | uint32 =>
      obtain ⟨n, form, rfl, hform, hn⟩ := h
      have hparse : parseUint32 form.length form = elem := by
        apply UInt32.toNat_inj.mp
        rw [parseUint32_eq hform, hn]
      exact congrArg Except.ok hparse
  | int64 =>
      obtain ⟨n, form, rfl, hform, hten, hn⟩ := h
      have hword : parseUint64 form.length form = elem.toUInt64 := by
        apply UInt64.toNat_inj.mp
        rw [parseUint64_eq hform hten, hn]
      have hparse : (parseUint64 form.length form).toInt64 = elem := by
        rw [hword]
        rfl
      exact congrArg Except.ok hparse
  | double =>
      obtain rfl := h
      exact congrArg Except.ok (parseFixedUint64_fixed64Pack elem)
  | string =>
      obtain ⟨lengthForm, rfl⟩ := h
      simp [parseRequiredMember, memberOf, Payload.wireType, Payload.bytes, wireTypeLengthPrefixed]
  | message M ops =>
      obtain ⟨lengthForm, bytes, rfl, hunpack⟩ := h
      subst hold
      simp [parseRequiredMember, memberOf, Payload.wireType, Payload.bytes, wireTypeLengthPrefixed,
        CType.zero, hunpack]

/-- The element stands alone, not in an array of numbers. -/
theorem Says.not_holdsArray {type : CType} {elem : type.Elem} {p : Payload}
    (h : Says type elem p) : holdsArray type p.wireType.toUInt8 = false := by
  cases type with
  | uint32 =>
      obtain ⟨n, form, rfl, -⟩ := h
      rfl
  | int64 =>
      obtain ⟨n, form, rfl, -⟩ := h
      rfl
  | double =>
      obtain rfl := h
      rfl
  | string => exact Bool.and_false _
  | message M ops => exact Bool.and_false _

/-! ## The records of a message -/

/-- The records are those of a field of the message. -/
def FieldWritten (message : S) (field : FieldDescriptor S) (rs : List Record) : Prop :=
  match field.label with
  | .required place =>
      ∃ elem p, place.get message = field.type.ofElem elem ∧ Says field.type elem p ∧
        rs = [⟨field.id.toNat, p⟩]
  | .optional quantifier place =>
      if isSet (quantifier.elim false fun has => has.get message) field.type (place.get message)
      then
        ∃ elem p, place.get message = field.type.ofElem elem ∧ Says field.type elem p ∧
          rs = [⟨field.id.toNat, p⟩]
      else rs = []
  | .oneof case place _ =>
      if case message = field.id ∧ isSet true field.type (place message) = true then
        ∃ elem p, place message = field.type.ofElem elem ∧ Says field.type elem p ∧
          rs = [⟨field.id.toNat, p⟩]
      else rs = []
  | .repeated array =>
      List.Forall₂ (fun elem r => ∃ p, Says field.type elem p ∧ r = ⟨field.id.toNat, p⟩)
        (array.get message) rs

/-- The records are those of the fields of the message, field by field. -/
inductive FieldsWritten (message : S) : List (FieldDescriptor S) → List Record → Prop where
  | nil : FieldsWritten message [] []
  | cons {field : FieldDescriptor S} {fields : List (FieldDescriptor S)} {rs rest : List Record}
      (h : FieldWritten message field rs) (hrest : FieldsWritten message fields rest) :
      FieldsWritten message (field :: fields) (rs ++ rest)

/-- The records are those of fields that the descriptor does not know. -/
def UnknownWritten (desc : MessageDescriptor S) (fields : List UnknownField)
    (rs : List Record) : Prop :=
  List.Forall₂ (fun field r => desc.lookup field.tag = none ∧
    ∃ p, r = ⟨field.tag.toNat, p⟩ ∧ p.wireType.toUInt8 = field.wireType ∧ p.bytes = field.data)
    fields rs

/-- The field of a structure that is being built is as in a new one, where the message has it:
a submessage would be merged with one that is there. -/
def FieldDescriptor.Fresh (field : FieldDescriptor S) (message target : S) : Prop :=
  match field.label with
  | .required place => place.get target = field.type.zero
  | .optional _ place => place.get target = field.type.zero
  | .oneof case place _ =>
      case message = field.id → case target = 0 ∧ place target = field.type.zero
  | .repeated _ => True

/-- The field of a message, set in a structure that is being built. -/
def FieldDescriptor.copy (field : FieldDescriptor S) (message target : S) : S :=
  match field.label with
  | .required place => place.set (place.get message) target
  | .optional quantifier place =>
      if isSet (quantifier.elim false fun has => has.get message) field.type (place.get message)
      then
        quantifier.elim (place.set (place.get message) target) fun has =>
          has.set true (place.set (place.get message) target)
      else target
  | .oneof case place set =>
      if case message = field.id ∧ isSet true field.type (place message) = true then
        set (place message) target
      else target
  | .repeated array => array.append target (array.get message)

/-- The fields of a message, set one by one, and its unknown fields give the message back. -/
def Rebuilds (desc : MessageDescriptor S) (message : S) : S → List (FieldDescriptor S) → Prop
  | target, [] => desc.unknownFields.append target (desc.unknownFields.get message) = message
  | target, field :: fields =>
      field.Fresh message target ∧ Rebuilds desc message (field.copy message target) fields

/-! ## Reading the records of a field -/

theorem memberOf_tag (id : UInt32) (p : Payload) : (memberOf ⟨id.toNat, p⟩).tag = id :=
  UInt32.ofNat_toNat

/-- Records are written in the numbers of their fields. -/
theorem FieldWritten.said {message : S} {field : FieldDescriptor S} {rs : List Record}
    (h : FieldWritten message field rs) :
    ∀ r ∈ rs, ∃ elem p, Says field.type elem p ∧ r = ⟨field.id.toNat, p⟩ := by
  have hsingle {r : Record} {elem : field.type.Elem} {p : Payload} (hsaid : Says field.type elem p)
      (hr : r ∈ [(⟨field.id.toNat, p⟩ : Record)]) :
      ∃ elem p, Says field.type elem p ∧ r = ⟨field.id.toNat, p⟩ :=
    ⟨elem, p, hsaid, List.mem_singleton.mp hr⟩
  intro r hr
  rw [FieldWritten] at h
  split at h
  · obtain ⟨elem, p, -, hsaid, rfl⟩ := h
    exact hsingle hsaid hr
  · split_ifs at h
    · obtain ⟨elem, p, -, hsaid, rfl⟩ := h
      exact hsingle hsaid hr
    · exact absurd hr (by simp [h])
  · split_ifs at h
    · obtain ⟨elem, p, -, hsaid, rfl⟩ := h
      exact hsingle hsaid hr
    · exact absurd hr (by simp [h])
  · obtain ⟨elem, -, p, hsaid, hr⟩ := exists_of_mem_forall₂ h hr
    exact ⟨elem, p, hsaid, hr⟩

/-- A record that is no array of numbers can be counted. -/
theorem countable_of_not_holdsArray {desc : MessageDescriptor S} {f : Fin desc.fields.length}
    {p : Payload} (h : holdsArray (desc.fields.get f).type p.wireType.toUInt8 = false) :
    Countable desc (memberOf ⟨(desc.fields.get f).id.toNat, p⟩) := by
  intro g hg
  have hlookup := MessageDescriptor.lookup_eq_some_iff.mpr
    (memberOf_tag (desc.fields.get f).id p).symm
  obtain rfl : f = g := Option.some.inj (hlookup.symm.trans hg)
  have hholds : holdsArray (desc.fields.get f).type
      (memberOf ⟨(desc.fields.get f).id.toNat, p⟩).wireType = false := h
  rw [countElements]
  split
  · rw [hholds]
    exact ⟨1, rfl⟩
  · exact ⟨0, rfl⟩

/-- The record of an element can be counted. -/
theorem countable_of_said {desc : MessageDescriptor S} {f : Fin desc.fields.length}
    {elem : (desc.fields.get f).type.Elem} {p : Payload} (h : Says _ elem p) :
    Countable desc (memberOf ⟨(desc.fields.get f).id.toNat, p⟩) :=
  countable_of_not_holdsArray h.not_holdsArray

/-- A record of a field is read by the parser of that field. -/
theorem readMember_eq {desc : MessageDescriptor S} (f : Fin desc.fields.length) (p : Payload)
    (target : S) :
    readMember desc target (memberOf ⟨(desc.fields.get f).id.toNat, p⟩) =
      parseField desc (desc.fields.get f) (fun _ => true)
        (memberOf ⟨(desc.fields.get f).id.toNat, p⟩) target := by
  have htag := memberOf_tag (desc.fields.get f).id p
  have hlookup := MessageDescriptor.lookup_eq_some_iff.mpr htag.symm
  simp only [readMember, parseMember, withField, hlookup]

/-- The records of a repeated field fill its array. -/
theorem readMembers_repeated {desc : MessageDescriptor S} {f : Fin desc.fields.length}
    {array : Lens S (List (desc.fields.get f).type.Elem)}
    (hlabel : (desc.fields.get f).label = .repeated array)
    {elems : List (desc.fields.get f).type.Elem} {rs : List Record}
    (h : List.Forall₂ (fun elem r =>
      ∃ p, Says _ elem p ∧ r = ⟨(desc.fields.get f).id.toNat, p⟩) elems rs) (target : S) :
    (rs.map memberOf).foldlM (readMember desc) target = .ok (array.append target elems) := by
  induction h generalizing target with
  | nil =>
      rw [Lens.append_nil]
      rfl
  | @cons elem r elems rs hhead _ ih =>
      obtain ⟨p, hsaid, rfl⟩ := hhead
      have hparse : repeatedElements (desc.fields.get f).type
          (memberOf ⟨(desc.fields.get f).id.toNat, p⟩) = .ok [elem] := by
        have hholds : holdsArray (desc.fields.get f).type
            (memberOf ⟨(desc.fields.get f).id.toNat, p⟩).wireType = false := hsaid.not_holdsArray
        rw [repeatedElements, hholds, if_neg Bool.false_ne_true, parseRequiredMember_eq _ hsaid rfl]
        rfl
      have hread : readMember desc target (memberOf ⟨(desc.fields.get f).id.toNat, p⟩) =
          .ok (array.append target [elem]) := by
        rw [readMember_eq]
        simp only [parseField, hlabel, hparse, bind, Except.bind, pure, Except.pure, if_true]
      rw [List.map_cons, List.foldlM_cons, hread]
      have hrest := ih (array.append target [elem])
      rw [Lens.append_append, List.singleton_append] at hrest
      exact hrest

/-- The records of a field set it, in a structure where it is as in a new one. -/
theorem readMembers_field {desc : MessageDescriptor S} (f : Fin desc.fields.length)
    {message target : S} {rs : List Record} (hwritten : FieldWritten message (desc.fields.get f) rs)
    (hfresh : (desc.fields.get f).Fresh message target) :
    (rs.map memberOf).foldlM (readMember desc) target =
      .ok ((desc.fields.get f).copy message target) := by
  have hone (p : Payload) :
      ([(⟨(desc.fields.get f).id.toNat, p⟩ : Record)].map memberOf).foldlM (readMember desc)
        target = parseField desc (desc.fields.get f) (fun _ => true)
          (memberOf ⟨(desc.fields.get f).id.toNat, p⟩) target := by
    rw [List.map_singleton, List.foldlM_cons, readMember_eq]
    exact bind_pure _
  cases hlabel : (desc.fields.get f).label with
  | required place =>
      simp only [FieldWritten, FieldDescriptor.Fresh, hlabel] at hwritten hfresh
      obtain ⟨elem, p, helem, hsaid, rfl⟩ := hwritten
      simp only [FieldDescriptor.copy, hlabel, hone, parseField, helem,
        parseRequiredMember_eq _ hsaid hfresh, bind, Except.bind, pure, Except.pure]
  | optional quantifier place =>
      simp only [FieldWritten, FieldDescriptor.Fresh, hlabel] at hwritten hfresh
      simp only [FieldDescriptor.copy, hlabel]
      split_ifs at hwritten ⊢
      · obtain ⟨elem, p, helem, hsaid, rfl⟩ := hwritten
        simp only [hone, parseField, hlabel, helem, parseRequiredMember_eq _ hsaid hfresh, bind,
          Except.bind, pure, Except.pure]
      · rw [hwritten]
        rfl
  | oneof case place set =>
      simp only [FieldWritten, FieldDescriptor.Fresh, hlabel] at hwritten hfresh
      simp only [FieldDescriptor.copy, hlabel]
      split_ifs at hwritten ⊢ with hcase
      · obtain ⟨elem, p, helem, hsaid, rfl⟩ := hwritten
        obtain ⟨hzero, hplace⟩ := hfresh hcase.1
        have hclear : clearOneof desc (desc.fields.get f).type case place target =
            .ok (place target) := by
          rw [clearOneof, if_neg (not_not.mpr hzero)]
        simp only [hone, parseField, hlabel, helem, hclear, parseRequiredMember_eq _ hsaid hplace,
          bind, Except.bind, pure, Except.pure]
      · rw [hwritten]
        rfl
  | repeated array =>
      simp only [FieldWritten, hlabel] at hwritten
      simp only [FieldDescriptor.copy, hlabel]
      exact readMembers_repeated hlabel hwritten target

/-! ## Reading the records of a message -/

/-- Fields that the descriptor does not know come back behind those that are there. -/
theorem readMembers_unknown {desc : MessageDescriptor S} {fields : List UnknownField}
    {rs : List Record} (h : UnknownWritten desc fields rs) (target : S) :
    (rs.map memberOf).foldlM (readMember desc) target =
      .ok (desc.unknownFields.append target fields) := by
  induction h generalizing target with
  | nil =>
      rw [Lens.append_nil]
      rfl
  | @cons field r fields rs hhead _ ih =>
      obtain ⟨hlookup, p, rfl, hwire, hdata⟩ := hhead
      have htag := memberOf_tag field.tag p
      have hfield : (⟨field.tag, p.wireType.toUInt8, p.bytes⟩ : UnknownField) = field := by
        rw [hwire, hdata]
      have hone : readMember desc target (memberOf ⟨field.tag.toNat, p⟩) =
          .ok (desc.unknownFields.append target [field]) := by
        rw [← hfield] at hlookup ⊢
        simp only [readMember, parseMember, withField, htag, hlookup, if_true]
        simp only [memberOf]
      rw [List.map_cons, List.foldlM_cons, hone]
      have hrest := ih (desc.unknownFields.append target [field])
      rw [Lens.append_append, List.singleton_append] at hrest
      exact hrest

/-- The records of the fields rebuild the structure. -/
theorem readMembers_fields {desc : MessageDescriptor S} {message : S}
    {fields : List (FieldDescriptor S)} {rs : List Record}
    (hwritten : FieldsWritten message fields rs) (hfields : ∀ field ∈ fields, field ∈ desc.fields)
    {target : S} (h : Rebuilds desc message target fields) :
    ∃ target', (rs.map memberOf).foldlM (readMember desc) target = .ok target' ∧
      desc.unknownFields.append target' (desc.unknownFields.get message) = message := by
  induction hwritten generalizing target with
  | nil => exact ⟨target, rfl, h⟩
  | @cons field fields rs rest hhead _ ih =>
      obtain ⟨hfresh, hrest⟩ := h
      obtain ⟨f, rfl⟩ := List.mem_iff_get.mp (hfields field (by simp))
      have hread := readMembers_field f hhead hfresh
      obtain ⟨target', htarget, hset⟩ := ih (fun g hg => hfields g (by simp [hg])) hrest
      refine ⟨target', ?_, hset⟩
      rw [List.map_append, List.foldlM_append, hread]
      exact htarget

/-- A record of a field is one of those that were written for it. -/
theorem FieldsWritten.exists_field {message : S} {fields : List (FieldDescriptor S)}
    {rs : List Record} (h : FieldsWritten message fields rs) :
    ∀ r ∈ rs, ∃ field ∈ fields, ∃ elem p, Says field.type elem p ∧ r = ⟨field.id.toNat, p⟩ := by
  induction h with
  | nil => simp
  | @cons field fields rs rest hhead _ ih =>
      intro r hr
      rcases List.mem_append.mp hr with hr | hr
      · exact ⟨field, by simp, hhead.said r hr⟩
      · obtain ⟨g, hg, hsaid⟩ := ih r hr
        exact ⟨g, by simp [hg], hsaid⟩

/-- A required field is always written. -/
theorem FieldsWritten.exists_record {message : S} {fields : List (FieldDescriptor S)}
    {rs : List Record} (h : FieldsWritten message fields rs) {field : FieldDescriptor S}
    (hfield : field ∈ fields) (hrequired : field.isRequired = true) :
    ∃ p, (⟨field.id.toNat, p⟩ : Record) ∈ rs := by
  induction h with
  | nil => exact absurd hfield (by simp)
  | @cons g fields rs rest hhead _ ih =>
      rcases List.mem_cons.mp hfield with rfl | hfield
      · rw [FieldWritten] at hhead
        rw [FieldDescriptor.isRequired] at hrequired
        split at hhead
        · obtain ⟨elem, p, -, -, rfl⟩ := hhead
          exact ⟨p, by simp⟩
        · next hlabel => simp [hlabel] at hrequired
        · next hlabel => simp [hlabel] at hrequired
        · next hlabel => simp [hlabel] at hrequired
      · obtain ⟨p, hp⟩ := ih hfield
        exact ⟨p, by simp [hp]⟩

/-- A message is unpacked from what any writer made of it: its fields in the order of the
descriptor, in whatever forms, and then those that the descriptor does not know. -/
theorem unpack_of_written {desc : MessageDescriptor S} (hapart : desc.Apart) {message : S}
    {rs unknown : List Record} {bytes : List UInt8} (hstream : Stream (rs ++ unknown) bytes)
    (hwritten : FieldsWritten message desc.fields rs)
    (hunknown : UnknownWritten desc (desc.unknownFields.get message) unknown)
    (hrebuilds : Rebuilds desc message desc.messageInit desc.fields)
    (hsize : bytes.length ≤ 2 * maxMembers) : messageUnpack desc bytes = .ok message := by
  have hlt : bytes.length < 2 ^ 32 := Nat.lt_of_le_of_lt hsize (by decide)
  obtain ⟨target, hfields, htarget⟩ :=
    readMembers_fields hwritten (fun _ hfield => hfield) hrebuilds
  have hcount : ∀ r ∈ rs ++ unknown, Countable desc (memberOf r) := by
    intro r hr
    rcases List.mem_append.mp hr with hr | hr
    · obtain ⟨field, hfield, elem, p, hsaid, rfl⟩ := hwritten.exists_field r hr
      obtain ⟨f, rfl⟩ := List.mem_iff_get.mp hfield
      exact countable_of_said hsaid
    · intro f hf
      obtain ⟨field, -, hlookup, p, rfl, -⟩ := exists_of_mem_forall₂ hunknown hr
      rw [memberOf_tag, hlookup] at hf
      exact absurd hf (by simp)
  have hrequired : ∀ f, (desc.fields.get f).isRequired = true →
      ∃ m ∈ (rs ++ unknown).map memberOf, desc.lookup m.tag = some f := by
    intro f hf
    obtain ⟨p, hp⟩ := hwritten.exists_record (List.get_mem _ f) hf
    exact ⟨_, List.mem_map_of_mem (List.mem_append_left _ hp),
      MessageDescriptor.lookup_eq_some_iff.mpr (memberOf_tag _ p).symm⟩
  have hmax : (rs ++ unknown).length ≤ maxMembers := by
    have hle := hstream.length_le
    omega
  rw [messageUnpack_of_stream hapart hstream hlt hmax hcount, decode, if_pos hrequired,
    List.map_append, List.foldlM_append, hfields]
  exact (readMembers_unknown hunknown target).trans (congrArg Except.ok htarget)

/-! ## Messages that are refused -/

/-- The record of a submessage is read as the submessage is unpacked. -/
theorem readMember_message {M : Type} {desc : MessageDescriptor S} {sub : MessageDescriptor M}
    {f : Fin desc.fields.length} {id : UInt32} {array : Lens S (List M)}
    (hfield : desc.fields.get f = ⟨id, .message M (messageOps sub), .repeated array⟩)
    (lengthForm bytes : List UInt8) (message : S) :
    readMember desc message (memberOf ⟨id.toNat, .delimited lengthForm bytes⟩) =
      (messageUnpack sub bytes).map fun m => array.append message [m] := by
  have htag : (memberOf ⟨id.toNat, .delimited lengthForm bytes⟩).tag = id := UInt32.ofNat_toNat
  have hlookup : desc.lookup id = some f := by
    rw [MessageDescriptor.lookup_eq_some_iff, hfield]
  have hparse : parseField desc ⟨id, .message M (messageOps sub), .repeated array⟩ (fun _ => true)
      (memberOf ⟨id.toNat, .delimited lengthForm bytes⟩) message =
        (messageUnpack sub bytes).map fun m => array.append message [m] := by
    cases h : messageUnpack sub bytes with
    | error e =>
        have hops : (messageOps sub).unpack bytes = .error e := h
        simp [parseField, repeatedElements, holdsArray, isPackableType, parseRequiredMember,
          memberOf, Payload.wireType, Payload.bytes, wireTypeLengthPrefixed, hops, bind,
          Except.bind, Except.map]
    | ok m =>
        have hops : (messageOps sub).unpack bytes = .ok m := h
        simp [parseField, repeatedElements, holdsArray, isPackableType, parseRequiredMember,
          memberOf, Payload.wireType, Payload.bytes, wireTypeLengthPrefixed, CType.zero, hops, bind,
          Except.bind, pure, Except.pure, Except.map]
  have hread : readMember desc message (memberOf ⟨id.toNat, .delimited lengthForm bytes⟩) =
      parseField desc (desc.fields.get f) (fun _ => true)
        (memberOf ⟨id.toNat, .delimited lengthForm bytes⟩) message := by
    simp only [readMember, parseMember, withField, htag, hlookup]
  rw [hread, hfield, hparse]

section Refused

variable {desc : MessageDescriptor S} (hapart : desc.Apart) {rs : List Record}
  {bytes : List UInt8} (hstream : Stream rs bytes) (hsize : bytes.length ≤ 2 * maxMembers)
  (hcount : ∀ r ∈ rs, Countable desc (memberOf r))
include hapart hstream hsize hcount

/-- A message of which a required field is missing. -/
theorem unpack_missing {f : Fin desc.fields.length} (hrequired : (desc.fields.get f).isRequired)
    (hmissing : ∀ r ∈ rs, (memberOf r).tag ≠ (desc.fields.get f).id) :
    messageUnpack desc bytes = .error .null := by
  have hlt : bytes.length < 2 ^ 32 := Nat.lt_of_le_of_lt hsize (by decide)
  have hmax : rs.length ≤ maxMembers := by
    have hle := hstream.length_le
    omega
  rw [messageUnpack_of_stream hapart hstream hlt hmax hcount, decode, if_neg]
  intro hall
  obtain ⟨m, hm, hlookup⟩ := hall f hrequired
  obtain ⟨r, hr, rfl⟩ := List.mem_map.mp hm
  exact hmissing r hr (MessageDescriptor.lookup_eq_some_iff.mp hlookup).symm

/-- A message that begins with records that are refused. -/
theorem unpack_refused {before after : List Record} (hrs : rs = before ++ after)
    (hrefused : (before.map memberOf).foldlM (readMember desc) desc.messageInit = .error .null) :
    messageUnpack desc bytes = .error .null := by
  have hlt : bytes.length < 2 ^ 32 := Nat.lt_of_le_of_lt hsize (by decide)
  have hmax : rs.length ≤ maxMembers := by
    have hle := hstream.length_le
    omega
  have hfold : (rs.map memberOf).foldlM (readMember desc) desc.messageInit = .error .null := by
    rw [hrs, List.map_append, List.foldlM_append, hrefused]
    rfl
  rw [messageUnpack_of_stream hapart hstream hlt hmax hcount, decode, hfold, ite_self]

end Refused

end MonitoringTool.Sniffer.Protobuf
