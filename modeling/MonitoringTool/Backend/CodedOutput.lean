import MonitoringTool.Lib.WireFormat
import MonitoringTool.Sniffer.Varint

/-!
# Writing protocol buffers in the backend

`analysis.rs` is generated for the crate `protobuf`, which is outside the repository: what it
uses of the crate to write messages is a parameter, `CodedOutput`, and `Documented` says what
the crate's documentation promises of it.  The numbers may have any base-128 form, except that
the keys of the first fifteen fields take one byte, which `compute_size` relies on.
-/

namespace MonitoringTool.Backend

open Lib Wire

/-- The bytes of a `String`. -/
def bytesOf (s : String) : List UInt8 := s.toUTF8.data.toList

/-- `WireTypeVarint`. -/
def wireTypeVarint : ℕ := 0

/-- `WireTypeLengthDelimited`. -/
def wireTypeLengthDelimited : ℕ := 2

/-- What is used of `CodedOutputStream`, `rt` and `Message` to write a message: the bytes that
each function writes, and the sizes.  `U` is the type `UnknownFields`, and `noFields` its default;
`writeLengthDelimitedTo` is given what `compute_size` answers and what
`write_to_with_cached_sizes` writes. -/
structure CodedOutput (U : Type) where
  noFields : U
  writeTag : ℕ → ℕ → List UInt8
  writeRawVarint32 : UInt32 → List UInt8
  writeString : ℕ → String → List UInt8
  writeUint32 : ℕ → UInt32 → List UInt8
  writeUnknownFields : U → List UInt8
  writeLengthDelimitedTo : UInt32 → List UInt8 → List UInt8
  stringSize : ℕ → String → UInt32
  valueSize : ℕ → UInt32 → UInt32
  computeRawVarint32Size : UInt32 → UInt32
  unknownFieldsSize : U → UInt32

/-- What the crate documents: a key and a number are base-128 forms, a value is a key and the
value, a message that is length-delimited is its size and the message, and the sizes are the
lengths of what is written. -/
structure CodedOutput.Documented {U : Type} (os : CodedOutput U) : Prop where
  tag : ∀ {n wireType : ℕ}, n < 2 ^ 29 → wireType < 8 →
    IsVarint (n * 8 + wireType) (os.writeTag n wireType) ∧ (os.writeTag n wireType).length ≤ 5
  tag_short : ∀ {n wireType : ℕ}, n < 16 → wireType < 8 → (os.writeTag n wireType).length = 1
  varint : ∀ v, IsVarint v.toNat (os.writeRawVarint32 v) ∧ (os.writeRawVarint32 v).length ≤ 5
  string : ∀ n s, os.writeString n s =
    os.writeTag n wireTypeLengthDelimited ++
      (os.writeRawVarint32 (bytesOf s).length.toUInt32 ++ bytesOf s)
  uint32 : ∀ n v, os.writeUint32 n v = os.writeTag n wireTypeVarint ++ os.writeRawVarint32 v
  noFields : os.writeUnknownFields os.noFields = []
  lengthDelimited : ∀ size body,
    os.writeLengthDelimitedTo size body = os.writeRawVarint32 size ++ body
  stringSize : ∀ n s, os.stringSize n s = (os.writeString n s).length.toUInt32
  valueSize : ∀ n v, os.valueSize n v = (os.writeUint32 n v).length.toUInt32
  varintSize : ∀ v, os.computeRawVarint32Size v = (os.writeRawVarint32 v).length.toUInt32
  unknownSize : ∀ u, os.unknownFieldsSize u = (os.writeUnknownFields u).length.toUInt32

namespace CodedOutput.Documented

variable {U : Type} {os : CodedOutput U} (h : os.Documented)
include h

/-- A key and a payload are a record. -/
theorem record {n : ℕ} (hn : n < 2 ^ 29) {p : Payload} (hp : p.Valid) :
    (⟨n, p⟩ : Record).Writes (os.writeTag n p.wireType ++ p.bytes) := by
  obtain ⟨hkey, hfive⟩ := h.tag hn p.wireType_lt
  exact ⟨_, hkey, hfive, hp, rfl⟩

/-- A string is a record. -/
theorem writes_string {n : ℕ} (hn : n < 2 ^ 29) {s : String} (hs : (bytesOf s).length < 2 ^ 32) :
    (⟨n, .delimited (os.writeRawVarint32 (bytesOf s).length.toUInt32) (bytesOf s)⟩ :
      Record).Writes (os.writeString n s) := by
  obtain ⟨hform, hfive⟩ := h.varint (bytesOf s).length.toUInt32
  have hlength : (bytesOf s).length.toUInt32.toNat = (bytesOf s).length := by
    rw [Nat.toUInt32_eq, UInt32.toNat_ofNat', Nat.mod_eq_of_lt hs]
  rw [hlength] at hform
  rw [h.string]
  exact h.record hn (p := .delimited _ _) ⟨hfive, hform⟩

/-- A number is a record. -/
theorem writes_uint32 {n : ℕ} (hn : n < 2 ^ 29) (v : UInt32) :
    (⟨n, .varint (os.writeRawVarint32 v)⟩ : Record).Writes (os.writeUint32 n v) := by
  obtain ⟨hform, hfive⟩ := h.varint v
  rw [h.uint32]
  exact h.record hn (p := .varint _) ⟨Nat.le_trans hfive (by decide), _, hform⟩

/-- A message behind its size is a record, when the size is right. -/
theorem writes_message {n : ℕ} (hn : n < 2 ^ 29) {size : UInt32} {body : List UInt8}
    (hsize : size.toNat = body.length) :
    (⟨n, .delimited (os.writeRawVarint32 size) body⟩ : Record).Writes
      (os.writeTag n wireTypeLengthDelimited ++ (os.writeRawVarint32 size ++ body)) := by
  obtain ⟨hform, hfive⟩ := h.varint size
  rw [hsize] at hform
  exact h.record hn (p := .delimited _ _) ⟨hfive, hform⟩

end CodedOutput.Documented

/-! ## A stream as documented -/

/-- A stream that writes every number in its shortest form; `U` has no fields to write. -/
def shortestOutput : CodedOutput Unit where
  noFields := ()
  writeTag n wireType := Sniffer.encodeVarint (n * 8 + wireType).toUInt64
  writeRawVarint32 v := Sniffer.encodeVarint v.toUInt64
  writeString n s :=
    Sniffer.encodeVarint (n * 8 + wireTypeLengthDelimited).toUInt64 ++
      (Sniffer.encodeVarint (bytesOf s).length.toUInt32.toUInt64 ++ bytesOf s)
  writeUint32 n v :=
    Sniffer.encodeVarint (n * 8 + wireTypeVarint).toUInt64 ++ Sniffer.encodeVarint v.toUInt64
  writeUnknownFields _ := []
  writeLengthDelimitedTo size body := Sniffer.encodeVarint size.toUInt64 ++ body
  stringSize n s :=
    (Sniffer.encodeVarint (n * 8 + wireTypeLengthDelimited).toUInt64 ++
      (Sniffer.encodeVarint (bytesOf s).length.toUInt32.toUInt64 ++ bytesOf s)).length.toUInt32
  valueSize n v :=
    (Sniffer.encodeVarint (n * 8 + wireTypeVarint).toUInt64 ++
      Sniffer.encodeVarint v.toUInt64).length.toUInt32
  computeRawVarint32Size v := (Sniffer.encodeVarint v.toUInt64).length.toUInt32
  unknownFieldsSize _ := 0

theorem shortestOutput_documented : shortestOutput.Documented where
  tag {n wireType} hn hw := by
    have hvalue : (n * 8 + wireType).toUInt64.toNat = n * 8 + wireType := by
      rw [Nat.toUInt64_eq, UInt64.toNat_ofNat']
      omega
    have hform := Sniffer.encodeVarint_isVarint (n * 8 + wireType).toUInt64
    rw [hvalue] at hform
    exact ⟨hform, Sniffer.length_encodeVarint_le 4 (by rw [hvalue]; omega)⟩
  tag_short {n wireType} hn hw := by
    have hvalue : (n * 8 + wireType).toUInt64.toNat = n * 8 + wireType := by
      rw [Nat.toUInt64_eq, UInt64.toNat_ofNat']
      omega
    exact (Sniffer.length_encodeVarint_eq_one_iff _).mpr (by omega)
  varint v := by
    have hform := Sniffer.encodeVarint_isVarint v.toUInt64
    have hlt := v.toNat_lt
    rw [UInt32.toNat_toUInt64] at hform
    exact ⟨hform, Sniffer.length_encodeVarint_le 4 (by rw [UInt32.toNat_toUInt64]; omega)⟩
  string _ _ := rfl
  uint32 _ _ := rfl
  noFields := rfl
  lengthDelimited _ _ := rfl
  stringSize _ _ := rfl
  valueSize _ _ := rfl
  varintSize _ := rfl
  unknownSize _ := rfl

end MonitoringTool.Backend
