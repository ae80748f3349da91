import MonitoringTool.Backend.CodedOutput
import MonitoringTool.Lib.Reader
import MonitoringTool.Sniffer.Protobuf.Scan

/-!
# Reading protocol buffers in the backend

What `analysis.rs` uses of the crate `protobuf` to read messages is a parameter, `CodedInput`,
and `Documented` says what the crate's documentation promises of it: what was written as a
record is read as that record, a `String` is read exactly from bytes that are UTF-8, and a message
is what its bytes are merged into.

Every `merge_from` is one loop, `merger`: while the stream is not at its end, read a key and
give the field to a `match`.
-/

namespace MonitoringTool.Backend

open Lib Wire

variable {U E A M : Type}

/-- `WireTypeFixed64`. -/
def wireTypeFixed64 : ℕ := 1

/-- The text that bytes are in UTF-8. -/
def utf8Text (bytes : List UInt8) : Option String := String.fromUTF8? ⟨bytes.toArray⟩

/-- Reading from a stream: the value, and what is left of the stream. -/
abbrev Read (E A : Type) := List UInt8 → Except E (A × List UInt8)

/-- What is left is not longer. -/
def Shrinks (read : Read E A) : Prop :=
  ∀ input a rest, read input = .ok (a, rest) → rest.length ≤ input.length

/-- The trait `Message`, as far as `analysis.rs` implements it: `is_initialized`, and
`merge_from` into an empty message. -/
structure Message (E M : Type) where
  isInitialized : M → Bool
  mergeFrom : List UInt8 → Except E M

/-- The message that the bytes are merged into, if its required fields are set then. -/
def Message.parsed (message : Message E M) (bytes : List UInt8) : Option M :=
  (message.mergeFrom bytes).toOption.filter message.isInitialized

/-- What is used of `CodedInputStream`, `rt` and `parse_from_bytes` to read a message.  `U` is
the type `UnknownFields`, and `noFields` its default; `readUnknown` adds a field with a number
and a wire type to the unknown fields, and `readRepeatedMessage` reads the message that
`read_repeated_message_into` appends.  No function puts bytes back, and a key has one byte at
least. -/
structure CodedInput (U E : Type) where
  noFields : U
  unexpectedWireType : ℕ → E
  readTagUnpack : Read E (ℕ × ℕ)
  readUint32 : Read E UInt32
  readInt64 : Read E Int64
  readDouble : Read E UInt64
  readSingularString : ℕ → Read E String
  readMessage {M : Type} : Message E M → Read E M
  readRepeatedMessage {M : Type} : ℕ → Message E M → Read E M
  readUnknown : ℕ → ℕ → U → Read E U
  parseFromBytes {M : Type} : Message E M → List UInt8 → Except E M
  tag_shrinks : ∀ b input key rest, readTagUnpack (b :: input) = .ok (key, rest) →
    rest.length ≤ input.length
  uint32_shrinks : Shrinks readUint32
  int64_shrinks : Shrinks readInt64
  double_shrinks : Shrinks readDouble
  string_shrinks : ∀ wireType, Shrinks (readSingularString wireType)
  message_shrinks : ∀ {M : Type} (message : Message E M), Shrinks (readMessage message)
  repeated_shrinks : ∀ {M : Type} wireType (message : Message E M),
    Shrinks (readRepeatedMessage wireType message)
  unknown_shrinks : ∀ number wireType fields, Shrinks (readUnknown number wireType fields)

/-- What the crate documents, of what is written as it should be.  A `double` is eight bytes,
the least significant first.  A message is merged from as many bytes as its length says, or from
all bytes by `parse_from_bytes`; then its required fields must be set, except when it is one of
a repeated field. -/
structure CodedInput.Documented (is : CodedInput U E) : Prop where
  tag : ∀ {n wireType : ℕ} {key : List UInt8}, 0 < n → n < 2 ^ 29 → wireType ∈ [0, 1, 2, 5] →
    IsVarint (n * 8 + wireType) key → key.length ≤ 5 → ∀ rest,
      is.readTagUnpack (key ++ rest) = .ok ((n, wireType), rest)
  uint32 : ∀ {n : ℕ} {form : List UInt8}, n < 2 ^ 32 → IsVarint n form → form.length ≤ 10 →
    ∀ rest, is.readUint32 (form ++ rest) = .ok (n.toUInt32, rest)
  int64 : ∀ {n : ℕ} {form : List UInt8}, n < 2 ^ 64 → IsVarint n form → form.length ≤ 10 →
    ∀ rest, is.readInt64 (form ++ rest) = .ok (n.toUInt64.toInt64, rest)
  double : ∀ value rest, is.readDouble (Sniffer.Protobuf.fixed64Pack value ++ rest) =
    .ok (value, rest)
  string : ∀ {form contents : List UInt8}, contents.length < 2 ^ 32 →
    IsVarint contents.length form → form.length ≤ 5 → ∀ {s : String},
      utf8Text contents = some s → ∀ rest,
      is.readSingularString wireTypeLengthDelimited (form ++ (contents ++ rest)) = .ok (s, rest)
  notText : ∀ {form contents : List UInt8}, contents.length < 2 ^ 32 →
    IsVarint contents.length form → form.length ≤ 5 → utf8Text contents = none → ∀ rest,
      ∃ e, is.readSingularString wireTypeLengthDelimited (form ++ (contents ++ rest)) = .error e
  message : ∀ {M : Type} (message : Message E M) {form contents : List UInt8},
    contents.length < 2 ^ 32 → IsVarint contents.length form → form.length ≤ 5 → ∀ rest,
      (is.readMessage message (form ++ (contents ++ rest))).toOption =
        (message.parsed contents).map fun m => (m, rest)
  repeated : ∀ {M : Type} (message : Message E M) {form contents : List UInt8},
    contents.length < 2 ^ 32 → IsVarint contents.length form → form.length ≤ 5 → ∀ rest,
      (is.readRepeatedMessage wireTypeLengthDelimited message
          (form ++ (contents ++ rest))).toOption =
        (message.mergeFrom contents).toOption.map fun m => (m, rest)
  parse : ∀ {M : Type} (message : Message E M) bytes,
    (is.parseFromBytes message bytes).toOption = message.parsed bytes

/-! ## The loop of `merge_from` -/

/-- A field that is read and set. -/
def setField (read : Read E A) (set : A → M) (input : List UInt8) : Except E (M × List UInt8) :=
  (read input).map fun out => (set out.1, out.2)

theorem setField_shrinks {read : Read E A} (h : Shrinks read) (set : A → M) :
    Shrinks (setField read set) := by
  intro input m rest hset
  rw [setField] at hset
  cases hread : read input with
  | error e => simp [hread, Except.map] at hset
  | ok out =>
      simp only [hread, Except.map, Except.ok.injEq, Prod.mk.injEq] at hset
      exact hset.2 ▸ h input out.1 out.2 hread

/-- A field is set to what is read, and not without it. -/
theorem setField_toOption {read : Read E A} {set : A → M} {input rest : List UInt8}
    {value : Option A} (h : (read input).toOption = value.map fun a => (a, rest)) :
    (setField read set input).toOption = (value.map set).map fun m => (m, rest) := by
  rw [setField]
  cases hread : read input with
  | error e => cases value <;> simp_all [Except.toOption, Except.map]
  | ok out => cases value <;> simp_all [Except.toOption, Except.map]

namespace CodedInput

variable (is : CodedInput U E)

/-- The test of the wire type before a value is read. -/
def expect (expected wireType : ℕ) (read : Read E A) : Read E A := fun input =>
  if wireType ≠ expected then .error (is.unexpectedWireType wireType) else read input

variable {is}

theorem expect_shrinks {expected wireType : ℕ} {read : Read E A} (h : Shrinks read) :
    Shrinks (is.expect expected wireType read) := by
  intro input a rest hread
  rw [expect] at hread
  split_ifs at hread
  exact h input a rest hread

variable (is)

/-- `merge_from`, for a `match` over the numbers of the fields. -/
def merger (field : M → ℕ → ℕ → Read E M) (h : ∀ m n wireType, Shrinks (field m n wireType)) :
    Reader E M UInt8 where
  step m b input :=
    match is.readTagUnpack (b :: input) with
    | .error e => .error e
    | .ok ((number, wireType), rest) => field m number wireType rest
  shrinks := by
    intro m b input m' rest hstep
    split at hstep
    · exact absurd hstep (by simp)
    · next number wireType behind htag =>
        exact Nat.le_trans (h m number wireType _ _ _ hstep) (is.tag_shrinks _ _ _ _ htag)

variable {is}

/-- A record is read by its field. -/
theorem run_record (h : is.Documented) {field : M → ℕ → ℕ → Read E M}
    {hshrinks : ∀ m n wireType, Shrinks (field m n wireType)} {r : Record} {bytes : List UInt8}
    (hwrites : r.Writes bytes) (hpos : 0 < r.number) (hlt : r.number < 2 ^ 29) (m : M)
    (rest : List UInt8) :
    (is.merger field hshrinks).run m (bytes ++ rest) =
      match field m r.number r.payload.wireType (r.payload.bytes ++ rest) with
      | .error e => .error e
      | .ok (m', rest') => (is.merger field hshrinks).run m' rest' := by
  obtain ⟨key, hkey, hfive, hvalid, rfl⟩ := hwrites
  have hkind : r.payload.wireType ∈ [0, 1, 2, 5] := by
    cases r.payload <;> simp [Payload.wireType]
  have htag := h.tag hpos hlt hkind hkey hfive (r.payload.bytes ++ rest)
  rw [List.append_assoc]
  cases hbytes : key ++ (r.payload.bytes ++ rest) with
  | nil => exact absurd (List.append_eq_nil_iff.mp hbytes).1 hkey.ne_nil
  | cons b input =>
      rw [hbytes] at htag
      cases hfield : field m r.number r.payload.wireType (r.payload.bytes ++ rest) with
      | error e =>
          refine Reader.run_error ?_
          simp only [merger, htag, hfield]
      | ok out =>
          obtain ⟨m', rest'⟩ := out
          refine Reader.run_step ?_
          simp only [merger, htag, hfield]

/-- The field takes the record as an update of the message, and fails where there is none. -/
def Takes (field : M → ℕ → ℕ → Read E M) (r : Record) (update : M → Option M) : Prop :=
  r.payload.Valid → r.payload.bytes.length < 2 ^ 32 → ∀ m rest,
    (field m r.number r.payload.wireType (r.payload.bytes ++ rest)).toOption =
      (update m).map fun m' => (m', rest)

/-- A stream of records is taken update by update. -/
theorem run_takes (h : is.Documented) {field : M → ℕ → ℕ → Read E M}
    (hshrinks : ∀ m n wireType, Shrinks (field m n wireType))
    (updates : List (Record × (M → Option M))) {bytes : List UInt8}
    (hstream : Stream (updates.map Prod.fst) bytes) (hsize : bytes.length < 2 ^ 32)
    (hnumber : ∀ u ∈ updates, 0 < u.1.number ∧ u.1.number < 2 ^ 29)
    (htakes : ∀ u ∈ updates, Takes field u.1 u.2) (m : M) :
    ((is.merger field hshrinks).run m bytes).toOption = updates.foldlM (fun m u => u.2 m) m := by
  induction updates generalizing m bytes with
  | nil =>
      cases hstream
      rw [Reader.run_nil]
      rfl
  | cons u updates ih =>
      rw [List.map_cons] at hstream
      cases hstream with
      | @cons _ _ record rest hwrites htail =>
      rw [List.length_append] at hsize
      obtain ⟨hpos, hlt⟩ := hnumber u (by simp)
      have hvalid : u.1.payload.Valid ∧ u.1.payload.bytes.length < 2 ^ 32 := by
        obtain ⟨key, -, -, hvalid, rfl⟩ := hwrites
        rw [List.length_append] at hsize
        exact ⟨hvalid, by omega⟩
      have htake := htakes u (by simp) hvalid.1 hvalid.2 m rest
      have hbehind := ih htail (by omega) (fun v hv => hnumber v (by simp [hv]))
        (fun v hv => htakes v (by simp [hv]))
      rw [run_record h hwrites hpos hlt, List.foldlM_cons]
      split
      · next e hfield =>
          rw [hfield] at htake
          cases hupdate : u.2 m with
          | none => rfl
          | some m' => simp [hupdate, Except.toOption] at htake
      · next m' behind hfield =>
          rw [hfield] at htake
          cases hupdate : u.2 m with
          | none => simp [hupdate, Except.toOption] at htake
          | some updated =>
              simp only [hupdate, Except.toOption, Option.map_some, Option.some.injEq,
                Prod.mk.injEq] at htake
              rw [htake.1, htake.2]
              exact hbehind updated

/-! ### What is read, or nothing -/

@[simp] theorem expect_self (wireType : ℕ) (read : Read E A) :
    is.expect wireType wireType read = read := by
  funext input
  simp [expect]

theorem readString_toOption (h : is.Documented) {form contents : List UInt8}
    (hvalid : (Payload.delimited form contents).Valid) (hlt : contents.length < 2 ^ 32)
    (rest : List UInt8) :
    (is.readSingularString wireTypeLengthDelimited (form ++ (contents ++ rest))).toOption =
      (utf8Text contents).map fun s => (s, rest) := by
  obtain ⟨hfive, hform⟩ := hvalid
  cases htext : utf8Text contents with
  | none =>
      obtain ⟨e, he⟩ := h.notText hlt hform hfive htext rest
      rw [he]
      rfl
  | some s =>
      rw [h.string hlt hform hfive htext rest]
      rfl

end CodedInput

/-! ## A stream as documented -/

/-- A base-128 number of at most ten bytes. -/
def readVarint (parse : ℕ → List UInt8 → A) : Read Unit A := fun input =>
  match Sniffer.Protobuf.scanVarint input with
  | none => .error ()
  | some len => .ok (parse len (input.take len), input.drop len)

/-- A length and as many bytes. -/
def readBlock : Read Unit (List UInt8) := fun input =>
  match readVarint Sniffer.Protobuf.parseUint32 input with
  | .error e => .error e
  | .ok (len, rest) =>
      if rest.length < len.toNat then .error () else .ok (rest.take len.toNat, rest.drop len.toNat)

theorem readVarint_shrinks (parse : ℕ → List UInt8 → A) : Shrinks (readVarint parse) := by
  intro input a rest h
  rw [readVarint] at h
  split at h
  · exact absurd h (by simp)
  · rw [Except.ok.injEq, Prod.mk.injEq] at h
    rw [← h.2, List.length_drop]
    exact Nat.sub_le _ _

theorem readVarint_eq {n : ℕ} {form : List UInt8} (h : IsVarint n form) (hten : form.length ≤ 10)
    (parse : ℕ → List UInt8 → A) (rest : List UInt8) :
    readVarint parse (form ++ rest) = .ok (parse form.length form, rest) := by
  rw [readVarint, Sniffer.Protobuf.scanVarint_eq h hten]
  simp only [List.take_left, List.drop_left]

theorem readBlock_shrinks : Shrinks readBlock := by
  intro input contents rest h
  rw [readBlock] at h
  split at h
  · exact absurd h (by simp)
  · next len behind hread =>
      have hle := readVarint_shrinks _ _ _ _ hread
      split_ifs at h
      rw [Except.ok.injEq, Prod.mk.injEq] at h
      rw [← h.2, List.length_drop]
      omega

theorem readBlock_eq {form contents : List UInt8} (hlt : contents.length < 2 ^ 32)
    (h : IsVarint contents.length form) (hfive : form.length ≤ 5) (rest : List UInt8) :
    readBlock (form ++ (contents ++ rest)) = .ok (contents, rest) := by
  have hlen : (Sniffer.Protobuf.parseUint32 form.length form).toNat = contents.length := by
    rw [Sniffer.Protobuf.parseUint32_eq h, Nat.mod_eq_of_lt hlt]
  have henough : ¬ (contents ++ rest).length < contents.length := by
    rw [List.length_append]
    omega
  rw [readBlock, readVarint_eq h (Nat.le_trans hfive (by decide))]
  simp only [hlen, if_neg henough, List.take_left, List.drop_left]

/-- A message is taken when its required fields are set. -/
def initialized (isInitialized : M → Bool) : Except Unit M → Except Unit M
  | .error e => .error e
  | .ok m => if isInitialized m then .ok m else .error ()

/-- A length, and a message in as many bytes. -/
def readBody (merge : List UInt8 → Except Unit M) : Read Unit M := fun input =>
  match readBlock input with
  | .error e => .error e
  | .ok (contents, rest) => (merge contents).map fun m => (m, rest)

theorem initialized_toOption (isInitialized : M → Bool) (merged : Except Unit M) :
    (initialized isInitialized merged).toOption = merged.toOption.filter isInitialized := by
  cases merged with
  | error e => rfl
  | ok m =>
      rw [initialized]
      cases hm : isInitialized m with
      | false => exact (Option.filter_some_neg hm).symm
      | true => exact (Option.filter_some_pos hm).symm

theorem readBody_shrinks (merge : List UInt8 → Except Unit M) : Shrinks (readBody merge) := by
  intro input m rest h
  rw [readBody] at h
  split at h
  · exact absurd h (by simp)
  · next contents behind hblock =>
      cases hmerge : merge contents with
      | error e => simp [hmerge, Except.map] at h
      | ok out =>
          simp only [hmerge, Except.map, Except.ok.injEq, Prod.mk.injEq] at h
          exact h.2 ▸ readBlock_shrinks input contents behind hblock

theorem readBody_toOption (merge : List UInt8 → Except Unit M) {form contents : List UInt8}
    (hlt : contents.length < 2 ^ 32) (h : IsVarint contents.length form) (hfive : form.length ≤ 5)
    (rest : List UInt8) :
    (readBody merge (form ++ (contents ++ rest))).toOption =
      (merge contents).toOption.map fun m => (m, rest) := by
  rw [readBody, readBlock_eq hlt h hfive rest]
  cases hmerge : merge contents <;> simp [hmerge, Except.map, Except.toOption]

/-- A key. -/
def readKey : Read Unit (ℕ × ℕ)
  | [] => .error ()
  | b :: data =>
      match Sniffer.Protobuf.parseTagAndWiretype b data with
      | none => .error ()
      | some (used, tag, wireType) => .ok ((tag.toNat, wireType.toNat), (b :: data).drop used)

/-- Eight bytes. -/
def readFixed64 : Read Unit UInt64 := fun input =>
  if input.length < 8 then .error ()
  else .ok (Sniffer.Protobuf.parseFixedUint64 input, input.drop 8)

/-- A length, and a text in as many bytes. -/
def readText : Read Unit String := fun input =>
  match readBlock input with
  | .error e => .error e
  | .ok (contents, rest) =>
      match utf8Text contents with
      | none => .error ()
      | some s => .ok (s, rest)

/-- What is length-delimited, behind the test of its wire type. -/
def delimited (wireType : ℕ) (read : Read Unit A) : Read Unit A := fun input =>
  if wireType ≠ wireTypeLengthDelimited then .error () else read input

theorem readKey_shrinks {b : UInt8} {input : List UInt8} {key : ℕ × ℕ} {rest : List UInt8}
    (h : readKey (b :: input) = .ok (key, rest)) : rest.length ≤ input.length := by
  rw [readKey] at h
  split at h
  · exact absurd h (by simp)
  · next used tag wireType htag =>
      have hused := Sniffer.Protobuf.one_le_of_parseTagAndWiretype htag
      rw [Except.ok.injEq, Prod.mk.injEq] at h
      rw [← h.2, List.length_drop, List.length_cons]
      omega

theorem readKey_eq {n wireType : ℕ} {key : List UInt8} (hlt : n < 2 ^ 29)
    (hkind : wireType ∈ [0, 1, 2, 5]) (hkey : IsVarint (n * 8 + wireType) key)
    (hfive : key.length ≤ 5) (rest : List UInt8) :
    readKey (key ++ rest) = .ok ((n, wireType), rest) := by
  have hwire : wireType < 8 := by
    simp only [List.mem_cons, List.not_mem_nil, or_false] at hkind
    omega
  cases hbytes : key ++ rest with
  | nil => exact absurd (List.append_eq_nil_iff.mp hbytes).1 hkey.ne_nil
  | cons b data =>
      have htag := Sniffer.Protobuf.parseTagAndWiretype_eq hkey hfive hwire hbytes.symm
      have hn : n.toUInt32.toNat = n := by
        rw [Nat.toUInt32_eq, UInt32.toNat_ofNat']
        omega
      have hw : wireType.toUInt8.toNat = wireType := by
        rw [Nat.toUInt8_eq, UInt8.toNat_ofNat']
        omega
      have hdrop : (b :: data).drop key.length = rest := by
        rw [← hbytes, List.drop_left]
      simp only [readKey, htag, hn, hw, hdrop]

theorem readFixed64_eq (value : UInt64) (rest : List UInt8) :
    readFixed64 (Sniffer.Protobuf.fixed64Pack value ++ rest) = .ok (value, rest) := by
  have hlen : (Sniffer.Protobuf.fixed64Pack value).length = 8 :=
    Sniffer.Protobuf.length_fixed64Pack value
  have henough : ¬ (Sniffer.Protobuf.fixed64Pack value ++ rest).length < 8 := by
    rw [List.length_append]
    omega
  have hvalue : Sniffer.Protobuf.parseFixedUint64 (Sniffer.Protobuf.fixed64Pack value ++ rest) =
      value := by
    have hword := Sniffer.Protobuf.parseFixedUint64_fixed64Pack value
    rw [Sniffer.Protobuf.parseFixedUint64, List.take_of_length_le (Nat.le_of_eq hlen)] at hword
    rw [Sniffer.Protobuf.parseFixedUint64, List.take_left' hlen, hword]
  simp only [readFixed64, if_neg henough, hvalue, List.drop_left' hlen]

theorem readFixed64_shrinks : Shrinks readFixed64 := by
  intro input a rest h
  rw [readFixed64] at h
  split_ifs at h
  rw [Except.ok.injEq, Prod.mk.injEq] at h
  rw [← h.2, List.length_drop]
  omega

theorem readText_shrinks : Shrinks readText := by
  intro input s rest h
  rw [readText] at h
  split at h
  · exact absurd h (by simp)
  · next contents behind hblock =>
      split at h
      · exact absurd h (by simp)
      · rw [Except.ok.injEq, Prod.mk.injEq] at h
        exact h.2 ▸ readBlock_shrinks input contents behind hblock

theorem delimited_shrinks (wireType : ℕ) {read : Read Unit A} (h : Shrinks read) :
    Shrinks (delimited wireType read) := by
  intro input a rest hread
  rw [delimited] at hread
  split_ifs at hread
  exact h input a rest hread

theorem delimited_eq (read : Read Unit A) (input : List UInt8) :
    delimited wireTypeLengthDelimited read input = read input := if_neg (fun h => h rfl)

theorem error_shrinks : Shrinks (E := Unit) (A := A) fun _ => .error () := by
  intro input a rest h
  exact absurd h (by simp)

/-- A stream that reads what is written as it should be; it keeps no unknown fields. -/
def plainInput : CodedInput Unit Unit where
  noFields := ()
  unexpectedWireType _ := ()
  readTagUnpack := readKey
  readUint32 := readVarint Sniffer.Protobuf.parseUint32
  readInt64 := readVarint fun len data => (Sniffer.Protobuf.parseUint64 len data).toInt64
  readDouble := readFixed64
  readSingularString wireType := delimited wireType readText
  readMessage message :=
    readBody fun contents => initialized message.isInitialized (message.mergeFrom contents)
  readRepeatedMessage wireType message := delimited wireType (readBody message.mergeFrom)
  readUnknown _ _ _ _ := .error ()
  parseFromBytes message bytes := initialized message.isInitialized (message.mergeFrom bytes)
  tag_shrinks _ _ _ _ h := readKey_shrinks h
  uint32_shrinks := readVarint_shrinks _
  int64_shrinks := readVarint_shrinks _
  double_shrinks := readFixed64_shrinks
  string_shrinks wireType := delimited_shrinks wireType readText_shrinks
  message_shrinks _ := readBody_shrinks _
  repeated_shrinks wireType _ := delimited_shrinks wireType (readBody_shrinks _)
  unknown_shrinks _ _ _ := error_shrinks

theorem plainInput_documented : plainInput.Documented where
  tag _ hlt hkind hkey hfive rest := readKey_eq hlt hkind hkey hfive rest
  uint32 {n form} hlt h hten rest := by
    have hvalue : Sniffer.Protobuf.parseUint32 form.length form = n.toUInt32 := by
      apply UInt32.toNat_inj.mp
      rw [Sniffer.Protobuf.parseUint32_eq h, Nat.toUInt32_eq, UInt32.toNat_ofNat']
    exact (readVarint_eq h hten _ rest).trans (by rw [hvalue])
  int64 {n form} hlt h hten rest := by
    have hvalue : Sniffer.Protobuf.parseUint64 form.length form = n.toUInt64 := by
      apply UInt64.toNat_inj.mp
      rw [Sniffer.Protobuf.parseUint64_eq h hten, Nat.toUInt64_eq, UInt64.toNat_ofNat']
    have hread := readVarint_eq h hten
      (fun len data => (Sniffer.Protobuf.parseUint64 len data).toInt64) rest
    rw [hvalue] at hread
    exact hread
  double value rest := readFixed64_eq value rest
  string hlt h hfive s hs rest := by
    refine (delimited_eq readText _).trans ?_
    rw [readText, readBlock_eq hlt h hfive rest]
    simp only [hs]
  notText hlt h hfive hs rest := by
    refine ⟨(), (delimited_eq readText _).trans ?_⟩
    rw [readText, readBlock_eq hlt h hfive rest]
    simp only [hs]
  message {_} message {form contents} hlt h hfive rest := by
    rw [Message.parsed, ← initialized_toOption]
    exact readBody_toOption _ hlt h hfive rest
  repeated {_} message {form contents} hlt h hfive rest := by
    change (delimited wireTypeLengthDelimited (readBody message.mergeFrom) _).toOption = _
    rw [delimited_eq]
    exact readBody_toOption _ hlt h hfive rest
  parse message bytes := initialized_toOption _ _

end MonitoringTool.Backend
