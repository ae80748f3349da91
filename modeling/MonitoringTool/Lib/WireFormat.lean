import MonitoringTool.Lib.Base128

/-!
# Records of protocol buffers

A message is written as records, one behind the other.  A record is a key, which holds the
number of a field and the kind of what follows, and a payload: a base-128 number, eight or
four bytes, or a length and as many bytes.  Any base-128 form will do for the numbers, within
the limits on its length that every reader keeps to.
-/

namespace MonitoringTool.Lib.Wire

/-- What follows the key of a record, with the base-128 forms that were chosen. -/
inductive Payload where
  | varint (form : List UInt8) : Payload
  | fixed64 (word : List UInt8) : Payload
  | delimited (lengthForm contents : List UInt8) : Payload
  | fixed32 (word : List UInt8) : Payload
  deriving DecidableEq

namespace Payload

/-- The kind of a payload, as a key tells it. -/
def wireType : Payload → ℕ
  | varint _ => 0
  | fixed64 _ => 1
  | delimited _ _ => 2
  | fixed32 _ => 5

def bytes : Payload → List UInt8
  | varint form => form
  | fixed64 word => word
  | delimited lengthForm contents => lengthForm ++ contents
  | fixed32 word => word

/-- The payload can be read: its numbers are base-128 forms, and its words have their size. -/
def Valid : Payload → Prop
  | varint form => form.length ≤ 10 ∧ ∃ n, IsVarint n form
  | fixed64 word => word.length = 8
  | delimited lengthForm contents => lengthForm.length ≤ 5 ∧ IsVarint contents.length lengthForm
  | fixed32 word => word.length = 4

theorem wireType_lt (p : Payload) : p.wireType < 8 := by
  cases p <;> simp [wireType]

theorem Valid.bytes_ne_nil {p : Payload} (h : p.Valid) : p.bytes ≠ [] := by
  cases p with
  | varint form =>
      obtain ⟨-, n, hn⟩ := h
      exact hn.ne_nil
  | fixed64 word =>
      have hword : word.length = 8 := h
      exact List.length_pos_iff.mp (by rw [bytes]; omega)
  | delimited lengthForm contents => exact List.append_ne_nil_of_left_ne_nil h.2.ne_nil _
  | fixed32 word =>
      have hword : word.length = 4 := h
      exact List.length_pos_iff.mp (by rw [bytes]; omega)

end Payload

/-- A record: the number of a field and a payload. -/
structure Record where
  number : ℕ
  payload : Payload
  deriving DecidableEq

/-- The record is written as these bytes: a key, of at most five bytes, and the payload. -/
def Record.Writes (r : Record) (bytes : List UInt8) : Prop :=
  ∃ key, IsVarint (r.number * 8 + r.payload.wireType) key ∧ key.length ≤ 5 ∧ r.payload.Valid ∧
    bytes = key ++ r.payload.bytes

/-- Records are written one behind the other. -/
inductive Stream : List Record → List UInt8 → Prop where
  | nil : Stream [] []
  | cons {r : Record} {rs : List Record} {bytes rest : List UInt8} (h : r.Writes bytes)
      (hrest : Stream rs rest) : Stream (r :: rs) (bytes ++ rest)

namespace Record.Writes

variable {r r' : Record} {bytes bytes' rest rest' : List UInt8}

theorem ne_nil (h : r.Writes bytes) : bytes ≠ [] := by
  obtain ⟨key, hkey, -, -, rfl⟩ := h
  exact List.append_ne_nil_of_left_ne_nil hkey.ne_nil _

end Record.Writes

namespace Stream

variable {rs rs' : List Record} {bytes bytes' : List UInt8}

theorem append (h : Stream rs bytes) (h' : Stream rs' bytes') :
    Stream (rs ++ rs') (bytes ++ bytes') := by
  induction h with
  | nil => exact h'
  | cons hr _ ih =>
      rw [List.cons_append, List.append_assoc]
      exact .cons hr ih

theorem single {r : Record} (h : r.Writes bytes) : Stream [r] bytes := by
  have hstream := Stream.cons h .nil
  rwa [List.append_nil] at hstream

/-- Records written one behind the other. -/
theorem map {ι : Type*} {record : ι → Record} {write : ι → List UInt8} (items : List ι)
    (h : ∀ i ∈ items, (record i).Writes (write i)) :
    Stream (items.map record) (items.flatMap write) := by
  induction items with
  | nil => exact .nil
  | cons i items ih =>
      rw [List.map_cons, List.flatMap_cons]
      exact .cons (h i (by simp)) (ih fun j hj => h j (by simp [hj]))

/-- Streams written one behind the other. -/
theorem flatMap {ι : Type*} {records : ι → List Record} {write : ι → List UInt8} (items : List ι)
    (h : ∀ i ∈ items, Stream (records i) (write i)) :
    Stream (items.flatMap records) (items.flatMap write) := by
  induction items with
  | nil => exact .nil
  | cons i items ih =>
      rw [List.flatMap_cons, List.flatMap_cons]
      exact (h i (by simp)).append (ih fun j hj => h j (by simp [hj]))

/-- A record takes two bytes at least. -/
theorem length_le (h : Stream rs bytes) : 2 * rs.length ≤ bytes.length := by
  induction h with
  | nil => exact Nat.le_refl 0
  | @cons r rs bytes rest hr _ ih =>
      obtain ⟨key, hkey, -, hvalid, rfl⟩ := hr
      have hkey := List.length_pos_iff.mpr hkey.ne_nil
      have hpayload := List.length_pos_iff.mpr hvalid.bytes_ne_nil
      simp only [List.length_append, List.length_cons]
      omega

end Stream

end MonitoringTool.Lib.Wire
