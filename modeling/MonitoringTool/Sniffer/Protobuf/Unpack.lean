import MonitoringTool.Sniffer.Protobuf.Pack
import Mathlib.Data.Fin.Basic

/-!
# Unpacking a message

`protobuf_c_message_unpack` goes over its input twice.  The first pass cuts it into members,
which it keeps in slabs of doubling size, finds the field of each, counts the elements of
the repeated fields and marks the required ones.  Then the arrays are allocated with these
counts, and the second pass parses the members into the structure.

Lengths are the 32-bit numbers that the code computes with: the length of a length-prefixed
member is the sum of its prefix and of what the prefix says, which wraps around
(`scan_length_prefixed_data`), and the length of its contents is taken back from that sum.
-/

namespace MonitoringTool.Sniffer.Protobuf

open Lib

variable {S : Type}

/-! ## The extent of a member -/

/-- What a member is before its field is known: `tag`, `wire_type`, `length_prefix_len`, and
the `len` bytes from `data` on. -/
structure RawMember where
  tag : UInt32
  wireType : UInt8
  lengthPrefixLen : ℕ
  data : List UInt8
  deriving DecidableEq, Repr

/-- The loop of `parse_tag_and_wiretype`, over the bytes from the second to the fifth. -/
def tagLoop (tag shift : UInt32) (rv : ℕ) : List UInt8 → Option (ℕ × UInt32)
  | [] => none
  | b :: data =>
      if b &&& 0x80 ≠ 0 then
        tagLoop (tag ||| (b &&& 0x7F).toUInt32 <<< shift) (shift + 7) (rv + 1) data
      else some (rv + 1, tag ||| b.toUInt32 <<< shift)

/-- `parse_tag_and_wiretype`: the bytes used, the tag and the wire type, or `none` for 0. -/
def parseTagAndWiretype (b : UInt8) (data : List UInt8) : Option (ℕ × UInt32 × UInt8) :=
  let tag := ((b &&& 0x7F) >>> 3).toUInt32
  let wireType := b &&& 7
  if b &&& 0x80 = 0 then some (1, tag, wireType)
  else (tagLoop tag 4 1 (data.take 4)).map fun out => (out.1, out.2, wireType)

/-- `scan_varint`, and the case `PROTOBUF_C_WIRE_TYPE_VARINT` of the scan: the length of the
base-128 number that the bytes begin with, `none` for 0. -/
def scanVarint (data : List UInt8) : Option ℕ :=
  ((data.take 10).findIdx? fun b => b &&& 0x80 = 0).map (· + 1)

/-- The loop of `scan_length_prefixed_data`, over at most five bytes: the length of the prefix
and what it says. -/
def lengthLoop (val shift : UInt32) (i : ℕ) : List UInt8 → Option (ℕ × UInt32)
  | [] => none
  | b :: data =>
      let val := val ||| (b &&& 0x7F).toUInt32 <<< shift
      if b &&& 0x80 = 0 then some (i + 1, val) else lengthLoop val (shift + 7) (i + 1) data

/-- `scan_length_prefixed_data`: the length of the member, a `uint32_t`, and of its prefix, or
`none` for 0. -/
def scanLengthPrefixedData (data : List UInt8) : Option (UInt32 × ℕ) :=
  match lengthLoop 0 0 0 (data.take 5) with
  | none => none
  | some (hdrLen, val) =>
      let len := hdrLen.toUInt32 + val
      if len.toNat > data.length ∨ len = 0 then none else some (len, hdrLen)

/-- The switch over the wire type in `protobuf_c_message_unpack`: `len` and
`length_prefix_len`. -/
def memberLength (wireType : UInt8) (data : List UInt8) : Option (ℕ × ℕ) :=
  if wireType = wireTypeVarint then (scanVarint data).map fun len => (len, 0)
  else if wireType = wireType64Bit then if data.length < 8 then none else some (8, 0)
  else if wireType = wireTypeLengthPrefixed then
    (scanLengthPrefixedData data).map fun out => (out.1.toNat, out.2)
  else if wireType = wireType32Bit then if data.length < 4 then none else some (4, 0)
  else none

/-- The first member of an input that is not used up, and what is behind it. -/
def scanRaw (b : UInt8) (data : List UInt8) : Option (RawMember × List UInt8) :=
  match parseTagAndWiretype b data with
  | none => none
  | some (used, tag, wireType) =>
      let rest := (b :: data).drop used
      (memberLength wireType rest).map fun out =>
        (⟨tag, wireType, out.2, rest.take out.1⟩, rest.drop out.1)

/-! ## The first pass -/

/-- `ScannedMember`, with the index of its field. -/
structure ScannedMember (n : ℕ) extends RawMember where
  field : Option (Fin n)

/-- The variables of the first pass, over a descriptor of `n` fields: the field found last,
the slab that is being filled and the members in it, the number of members without a field, the
bitmap of the required fields, the elements counted for each repeated field, and the
members. -/
structure ScanState (n : ℕ) where
  lastField : Option (Fin n)
  whichSlab : ℕ
  inSlabIndex : ℕ
  nUnknown : ℕ
  requiredFieldsBitmap : Fin n → Bool
  counts : Fin n → ℕ
  members : List (ScannedMember n)

/-- The state before the first member: `last_field` is the first field, when there is one. -/
def ScanState.start (n : ℕ) : ScanState n where
  lastField := if h : 0 < n then some ⟨0, h⟩ else none
  whichSlab := 0
  inSlabIndex := 0
  nUnknown := 0
  requiredFieldsBitmap := fun _ => false
  counts := fun _ => 0
  members := []

/-- The field of a tag: the one found last when it has this number, or the one that is looked
up. -/
def findField (desc : MessageDescriptor S) (last : Option (Fin desc.fields.length))
    (tag : UInt32) : Option (Fin desc.fields.length) :=
  match last with
  | some field => if (desc.fields.get field).id ≠ tag then desc.lookup tag else some field
  | none => desc.lookup tag

/-- `MAX_SCANNED_MEMBER_SLAB`. -/
def maxScannedMemberSlab : ℕ := 22

/-- The slab and the place in it for the next member; there are not more slabs. -/
def nextSlab (whichSlab inSlabIndex : ℕ) : Outcome (ℕ × ℕ) :=
  if inSlabIndex = 1 <<< (whichSlab + 4) then
    if whichSlab = maxScannedMemberSlab then .error .null else .ok (whichSlab + 1, 0)
  else .ok (whichSlab, inSlabIndex)

/-- `tmp.len - tmp.length_prefix_len`, a `size_t`. -/
def contentsLen (member : RawMember) : ℕ :=
  (member.data.length + 2 ^ 64 - member.lengthPrefixLen) % 2 ^ 64

/-- `max_b128_numbers`. -/
def maxB128Numbers (data : List UInt8) : ℕ := data.countP fun b => b &&& 0x80 = 0

/-- `count_packed_elements`, of the contents of a member. -/
def countPackedElements (type : CType) (member : RawMember) : Outcome ℕ :=
  let beyond := member.data.length < member.lengthPrefixLen
  let contents := member.data.drop member.lengthPrefixLen
  match type with
  | .double =>
      if contentsLen member % 8 ≠ 0 then .error .null
      else if beyond then .error .overrun else .ok (contents.length / 8)
  | .uint32 | .int64 => if beyond then .error .overrun else .ok (maxB128Numbers contents)
  | .string | .message _ _ => .error .null

/-- Whether the members of a repeated field hold an array each: they are length-prefixed and
of a packable type. -/
def holdsArray (type : CType) (wireType : UInt8) : Bool :=
  wireType = wireTypeLengthPrefixed && isPackableType type

/-- The elements that a member adds to its field. -/
def countElements (field : FieldDescriptor S) (member : RawMember) : Outcome ℕ :=
  match field.label with
  | .repeated _ =>
      if holdsArray field.type member.wireType then countPackedElements field.type member else .ok 1
  | _ => .ok 0

/-- `field->label == PROTOBUF_C_LABEL_REQUIRED`. -/
def FieldDescriptor.isRequired (field : FieldDescriptor S) : Bool :=
  match field.label with
  | .required _ => true
  | _ => false

/-- A member is put into its slab and counted. -/
def recordMember (desc : MessageDescriptor S) (st : ScanState desc.fields.length)
    (member : RawMember) : Outcome (ScanState desc.fields.length) := do
  let field := findField desc st.lastField member.tag
  let (whichSlab, inSlabIndex) ← nextSlab st.whichSlab st.inSlabIndex
  let counts ← field.elim (.ok st.counts) fun f =>
    (countElements (desc.fields.get f) member).map fun count =>
      Function.update st.counts f (st.counts f + count)
  return {
    lastField := field <|> st.lastField
    whichSlab := whichSlab
    inSlabIndex := inSlabIndex + 1
    nUnknown := if field.isNone then st.nUnknown + 1 else st.nUnknown
    requiredFieldsBitmap := field.elim st.requiredFieldsBitmap fun f =>
      if (desc.fields.get f).isRequired then Function.update st.requiredFieldsBitmap f true
      else st.requiredFieldsBitmap
    counts := counts
    members := st.members ++ [{ member with field := field }] }

theorem lt_of_tagLoop {tag shift : UInt32} {rv : ℕ} {data : List UInt8} {used : ℕ} {out : UInt32}
    (h : tagLoop tag shift rv data = some (used, out)) : rv < used := by
  induction data generalizing tag shift rv with
  | nil => simp [tagLoop] at h
  | cons b data ih =>
      rw [tagLoop] at h
      split_ifs at h with hb
      · exact Nat.lt_of_succ_lt (ih h)
      · rw [Option.some.injEq, Prod.mk.injEq] at h
        omega

/-- A key takes at least one byte. -/
theorem one_le_of_parseTagAndWiretype {b : UInt8} {data : List UInt8} {used : ℕ} {tag : UInt32}
    {wireType : UInt8} (h : parseTagAndWiretype b data = some (used, tag, wireType)) :
    1 ≤ used := by
  rw [parseTagAndWiretype] at h
  split_ifs at h with hb
  · rw [Option.some.injEq, Prod.mk.injEq] at h
    omega
  · obtain ⟨found, hfound, hmap⟩ := Option.map_eq_some_iff.mp h
    rw [Prod.mk.injEq] at hmap
    have hlt := lt_of_tagLoop hfound
    omega

/-- A member takes at least one byte. -/
theorem length_le_of_scanRaw {b : UInt8} {data rest : List UInt8} {member : RawMember}
    (h : scanRaw b data = some (member, rest)) : rest.length ≤ data.length := by
  rw [scanRaw] at h
  split at h
  · exact absurd h (by simp)
  · next used tag wireType htag =>
      obtain ⟨out, -, hout⟩ := Option.map_eq_some_iff.mp h
      have hrest := congrArg Prod.snd hout
      have hused := one_le_of_parseTagAndWiretype htag
      simp only at hrest
      rw [← hrest, List.length_drop, List.length_drop, List.length_cons]
      omega

/-- The loop of the first pass. -/
def scanner (desc : MessageDescriptor S) :
    Reader Failure (ScanState desc.fields.length) UInt8 where
  step st b data :=
    match scanRaw b data with
    | none => .error .null
    | some (member, rest) => (recordMember desc st member).map fun st => (st, rest)
  shrinks := by
    intro st b data st' rest h
    split at h
    · exact absurd h (by simp)
    · next member rest' hraw =>
        cases hrecord : recordMember desc st member with
        | error e => simp [hrecord, Except.map] at h
        | ok out =>
            simp only [hrecord, Except.map, Except.ok.injEq, Prod.mk.injEq] at h
            exact h.2 ▸ length_le_of_scanRaw hraw

/-! ## The second pass -/

/-- `parse_required_member`, into a member that holds `old`. -/
def parseRequiredMember (member : RawMember) :
    (type : CType) → (old : type.Member) → (maybeClear : Bool) → Outcome type.Elem
  | .uint32, _, _ =>
      if member.wireType ≠ wireTypeVarint then .error .null
      else .ok (parseUint32 member.data.length member.data)
  | .int64, _, _ =>
      if member.wireType ≠ wireTypeVarint then .error .null
      else .ok (parseUint64 member.data.length member.data).toInt64
  | .double, _, _ =>
      if member.wireType ≠ wireType64Bit then .error .null
      else .ok (parseFixedUint64 member.data)
  | .string, _, _ =>
      if member.wireType ≠ wireTypeLengthPrefixed then .error .null
      else if member.data.length < member.lengthPrefixLen then .error .overrun
      else .ok (member.data.drop member.lengthPrefixLen)
  | .message _ ops, old, maybeClear =>
      if member.wireType ≠ wireTypeLengthPrefixed then .error .null
      else if member.data.length < member.lengthPrefixLen then .error .overrun
      else
        match ops.unpack (member.data.drop member.lengthPrefixLen) with
        | .error e => .error e
        | .ok subm =>
            match old with
            | some earlier =>
                if maybeClear then
                  match ops.merge earlier subm with
                  | none => .error .null
                  | some merged => .ok merged
                else .ok subm
            | none => .ok subm

/-- The loop of `parse_packed_repeated_member` over base-128 numbers, each read by `parse`. -/
def packedNumbers {A : Type} (parse : ℕ → List UInt8 → A) : Reader Failure (List A) UInt8 where
  step array b data :=
    match scanVarint (b :: data) with
    | none => .error .null
    | some len => .ok (array ++ [parse len ((b :: data).take len)], (b :: data).drop len)
  shrinks := by
    intro array b data array' rest h
    split at h
    · exact absurd h (by simp)
    · next len hlen =>
        obtain ⟨i, -, hi⟩ := Option.map_eq_some_iff.mp hlen
        have hrest := congrArg (fun out => (out.toOption.map Prod.snd).getD []) h
        simp only [Except.toOption, Option.map_some, Option.getD_some] at hrest
        rw [← hrest, ← hi, List.drop_succ_cons]
        rw [List.length_drop]
        omega

/-- The elements that `parse_packed_repeated_member` writes behind those of the array. -/
def packedElements (member : RawMember) : (type : CType) → Outcome (List type.Elem)
  | .uint32 => (packedNumbers parseUint32).run [] (member.data.drop member.lengthPrefixLen)
  | .int64 =>
      (packedNumbers fun len data => (parseUint64 len data).toInt64).run []
        (member.data.drop member.lengthPrefixLen)
  | .double =>
      let contents := member.data.drop member.lengthPrefixLen
      let count := contents.length / 8
      .ok ((List.range count).map fun i => parseFixedUint64 (contents.drop (8 * i)))
  | .string => .error .null
  | .message _ _ => .error .null

/-- The elements that a member of a repeated field writes behind those of the array, by
`parse_repeated_member` or by `parse_packed_repeated_member`. -/
def repeatedElements (type : CType) (member : RawMember) : Outcome (List type.Elem) :=
  if holdsArray type member.wireType then
    if member.data.length < member.lengthPrefixLen then .error .overrun
    else packedElements member type
  else (parseRequiredMember member type type.zero false).map fun elem => [elem]

/-- The member of a oneof before it is parsed: what an earlier member of the oneof left is
freed and cleared. -/
def clearOneof (desc : MessageDescriptor S) (type : CType) (case : S → UInt32)
    (place : S → type.Member) (message : S) : Outcome type.Member :=
  if case message ≠ 0 then
    match desc.lookup (case message) with
    | none => .error .null
    | some _ => .ok type.zero
  else .ok (place message)

/-- `parse_member`, for a member with a field: the structure with the field set.  `room` tells
whether as many elements lie inside the array of a repeated field. -/
def parseField (desc : MessageDescriptor S) (field : FieldDescriptor S) (room : ℕ → Bool)
    (member : RawMember) (message : S) : Outcome S :=
  match field.label with
  | .required place => do
      let elem ← parseRequiredMember member field.type (place.get message) true
      return place.set (field.type.ofElem elem) message
  | .optional quantifier place => do
      let elem ← parseRequiredMember member field.type (place.get message) true
      let message := place.set (field.type.ofElem elem) message
      return quantifier.elim message fun has => has.set true message
  | .oneof case place set => do
      let old ← clearOneof desc field.type case place message
      let elem ← parseRequiredMember member field.type old true
      return set (field.type.ofElem elem) message
  | .repeated array => do
      let elems ← repeatedElements field.type member
      if room ((array.get message).length + elems.length) then return array.append message elems
      else .error .overrun

/-- `parse_member`; `roomUnknown` tells whether as many members without a field lie inside
their array. -/
def parseMember (desc : MessageDescriptor S) (room : Fin desc.fields.length → ℕ → Bool)
    (roomUnknown : ℕ → Bool) (message : S) (member : ScannedMember desc.fields.length) :
    Outcome S :=
  match member.field with
  | none =>
      if roomUnknown ((desc.unknownFields.get message).length + 1) then
        .ok (desc.unknownFields.append message [⟨member.tag, member.wireType, member.data⟩])
      else .error .overrun
  | some f => parseField desc (desc.fields.get f) (room f) member.toRawMember message

/-- Every required field was seen in the first pass. -/
def requiredFieldsSet (desc : MessageDescriptor S) (st : ScanState desc.fields.length) : Bool :=
  (List.finRange desc.fields.length).all fun f =>
    !(desc.fields.get f).isRequired || st.requiredFieldsBitmap f

/-- `protobuf_c_message_unpack`, when no allocation fails.  The arrays are allocated with the
counts of the first pass, as `unsigned`. -/
def messageUnpack (desc : MessageDescriptor S) (data : List UInt8) : Outcome S := do
  let st ← (scanner desc).run (ScanState.start _) data
  if requiredFieldsSet desc st then
    st.members.foldlM
      (parseMember desc (fun f n => n ≤ st.counts f % 2 ^ 32) (fun n => n ≤ st.nUnknown))
      desc.messageInit
  else .error .null

/-! ## `merge_messages` -/

/-- The switch of `merge_messages`: what a member becomes and whether the one of the earlier
message was needed, or `none` when a submessage cannot be merged. -/
def mergeMember (earlierSet latterSet : Bool) :
    (type : CType) → (earlier latter : type.Member) → Option (type.Member × Bool)
  | .message _ ops, some em, some lm => (ops.merge em lm).map fun merged => (some merged, false)
  | .message _ _, some em, none => some (some em, true)
  | .message _ _, none, lm => some (lm, false)
  | .string, eStr, lStr =>
      if eStr.isSome && lStr.isNone then some (eStr, true) else some (lStr, false)
  | .uint32, e, l => if earlierSet && !latterSet then some (e, true) else some (l, false)
  | .int64, e, l => if earlierSet && !latterSet then some (e, true) else some (l, false)
  | .double, e, l => if earlierSet && !latterSet then some (e, true) else some (l, false)

/-- The turn of `merge_messages` for one field. -/
def mergeField (desc : MessageDescriptor S) (earlier : S) (latter : S)
    (field : FieldDescriptor S) : Option S :=
  match field.label with
  | .required _ => some latter
  | .repeated array => some (array.set (array.get earlier ++ array.get latter) latter)
  | .optional quantifier place =>
      let isSet (message : S) := quantifier.elim false fun has => has.get message
      (mergeMember (isSet earlier) (isSet latter) field.type (place.get earlier)
        (place.get latter)).map fun out =>
          let latter := place.set out.1 latter
          if out.2 then quantifier.elim latter fun has => has.set (has.get earlier) latter
          else latter
  | .oneof case _ _ =>
      if case latter ≠ 0 then some latter
      else
        -- the field of the earlier message's case
        (desc.lookup (case earlier)).bind fun f =>
          let field := desc.fields.get f
          match field.label with
          | .oneof _ place set =>
              (mergeMember true false field.type (place earlier) field.type.zero).map fun out =>
                if out.2 then set out.1 latter else latter
          | _ => some latter

/-- `merge_messages`: the latter message with what it takes from the earlier one. -/
def mergeMessages (desc : MessageDescriptor S) (earlier latter : S) : Option S :=
  desc.fields.foldlM (mergeField desc earlier) latter

/-- What the library does with the messages of a descriptor. -/
def messageOps (desc : MessageDescriptor S) : MessageOps S where
  getPackedSize := messageGetPackedSize desc
  pack := messagePack desc
  unpack := messageUnpack desc
  merge := mergeMessages desc

end MonitoringTool.Sniffer.Protobuf
