import MonitoringTool.Backend.CodedOutput
import Mathlib.Algebra.BigOperators.Group.List.Basic
import Mathlib.Data.UInt

/-!
# Writing the messages of `analysis.rs`

The backend builds an `Init` from what the browser sent and writes it to the sniffer.  The size
of every message is computed before, and cached: `compute_size` is the size that
`get_cached_size` answers with.
-/

namespace MonitoringTool.Backend

open Lib Wire

variable {U : Type}

/-! ## The messages -/

/-- `Protocol`. -/
structure Protocol (U : Type) where
  id : Option String
  activeMetrics : Option UInt32
  clientIp : Option UInt32
  clientPorts : List UInt32
  serverIp : Option UInt32
  serverPorts : List UInt32
  unknownFields : U

/-- `NetInt`. -/
structure NetInt (U : Type) where
  id : Option String
  protocols : List (Protocol U)
  unknownFields : U

/-- `Init`. -/
structure Init (U : Type) where
  netInts : List (NetInt U)
  interval : Option UInt32
  duration : Option UInt32
  unknownFields : U

/-! ## `is_initialized` -/

def Protocol.isInitialized (p : Protocol U) : Bool := p.id.isSome && p.activeMetrics.isSome

def NetInt.isInitialized (n : NetInt U) : Bool :=
  n.id.isSome && n.protocols.all Protocol.isInitialized

def Init.isInitialized (m : Init U) : Bool :=
  m.interval.isSome && m.duration.isSome && m.netInts.all NetInt.isInitialized

/-! ## `compute_size` and `write_to_with_cached_sizes` -/

section Write

variable (os : CodedOutput U)

/-- `Protocol::compute_size`. -/
def Protocol.computeSize (p : Protocol U) : UInt32 :=
  p.id.elim 0 (os.stringSize 1) + p.activeMetrics.elim 0 (os.valueSize 2) +
    p.clientIp.elim 0 (os.valueSize 3) + (p.clientPorts.map (os.valueSize 4)).sum +
    p.serverIp.elim 0 (os.valueSize 5) + (p.serverPorts.map (os.valueSize 6)).sum +
    os.unknownFieldsSize p.unknownFields

/-- `Protocol::write_to_with_cached_sizes`. -/
def Protocol.writeTo (p : Protocol U) : List UInt8 :=
  p.id.elim [] (os.writeString 1) ++ (p.activeMetrics.elim [] (os.writeUint32 2) ++
    (p.clientIp.elim [] (os.writeUint32 3) ++ (p.clientPorts.flatMap (os.writeUint32 4) ++
      (p.serverIp.elim [] (os.writeUint32 5) ++ (p.serverPorts.flatMap (os.writeUint32 6) ++
        os.writeUnknownFields p.unknownFields)))))

/-- The size of a submessage with its key, as `compute_size` adds it. -/
def submessageSize (len : UInt32) : UInt32 := 1 + os.computeRawVarint32Size len + len

/-- A submessage, as `write_to_with_cached_sizes` writes it. -/
def writeSubmessage (n : ℕ) (len : UInt32) (body : List UInt8) : List UInt8 :=
  os.writeTag n wireTypeLengthDelimited ++ (os.writeRawVarint32 len ++ body)

/-- `NetInt::compute_size`. -/
def NetInt.computeSize (n : NetInt U) : UInt32 :=
  n.id.elim 0 (os.stringSize 1) +
    (n.protocols.map fun p => submessageSize os (p.computeSize os)).sum +
    os.unknownFieldsSize n.unknownFields

/-- `NetInt::write_to_with_cached_sizes`. -/
def NetInt.writeTo (n : NetInt U) : List UInt8 :=
  n.id.elim [] (os.writeString 1) ++
    (n.protocols.flatMap (fun p => writeSubmessage os 2 (p.computeSize os) (p.writeTo os)) ++
      os.writeUnknownFields n.unknownFields)

/-- `Init::compute_size`. -/
def Init.computeSize (m : Init U) : UInt32 :=
  (m.netInts.map fun n => submessageSize os (n.computeSize os)).sum +
    m.interval.elim 0 (os.valueSize 2) + m.duration.elim 0 (os.valueSize 3) +
    os.unknownFieldsSize m.unknownFields

/-- `Init::write_to_with_cached_sizes`. -/
def Init.writeTo (m : Init U) : List UInt8 :=
  m.netInts.flatMap (fun n => writeSubmessage os 1 (n.computeSize os) (n.writeTo os)) ++
    (m.interval.elim [] (os.writeUint32 2) ++ (m.duration.elim [] (os.writeUint32 3) ++
      os.writeUnknownFields m.unknownFields))

end Write

/-! ## The sizes are right -/

theorem toUInt32_add (a b : ℕ) : (a + b).toUInt32 = a.toUInt32 + b.toUInt32 := by
  simp only [Nat.toUInt32_eq, UInt32.ofNat_add]

/-- The length of what a loop writes, as `compute_size` adds it up. -/
theorem toUInt32_length_flatMap {A : Type} {write : A → List UInt8} {size : A → UInt32}
    {l : List A} (h : ∀ a ∈ l, size a = (write a).length.toUInt32) :
    (l.map size).sum = (l.flatMap write).length.toUInt32 := by
  induction l with
  | nil => rfl
  | cons a l ih =>
      rw [List.map_cons, List.sum_cons, List.flatMap_cons, List.length_append, toUInt32_add,
        h a (by simp), ih fun b hb => h b (by simp [hb])]

/-- The length of what is written for a member that may be absent. -/
theorem toUInt32_length_elim {A : Type} {write : A → List UInt8} {size : A → UInt32}
    {o : Option A} (h : ∀ a, size a = (write a).length.toUInt32) :
    o.elim 0 size = (o.elim [] write).length.toUInt32 := by
  cases o with
  | none => rfl
  | some a => exact h a

section Sizes

variable {os : CodedOutput U} (h : os.Documented)
include h

theorem Protocol.computeSize_eq (p : Protocol U) :
    p.computeSize os = (p.writeTo os).length.toUInt32 := by
  simp only [computeSize, writeTo, List.length_append, toUInt32_add, ← UInt32.add_assoc,
    toUInt32_length_elim (h.stringSize 1), toUInt32_length_elim (h.valueSize 2),
    toUInt32_length_elim (h.valueSize 3), toUInt32_length_elim (h.valueSize 5),
    toUInt32_length_flatMap fun v _ => h.valueSize 4 v,
    toUInt32_length_flatMap fun v _ => h.valueSize 6 v, h.unknownSize]

/-- The key of a submessage takes one byte. -/
theorem submessageSize_eq {n : ℕ} (hn : n < 16) {len : UInt32} {body : List UInt8}
    (hlen : len = body.length.toUInt32) :
    submessageSize os len = (writeSubmessage os n len body).length.toUInt32 := by
  have hone : (os.writeTag n wireTypeLengthDelimited).length.toUInt32 = 1 := by
    rw [h.tag_short hn (by decide)]
    rfl
  simp only [submessageSize, writeSubmessage, List.length_append, toUInt32_add, h.varintSize, hone,
    ← hlen, UInt32.add_assoc]

theorem NetInt.computeSize_eq (n : NetInt U) :
    n.computeSize os = (n.writeTo os).length.toUInt32 := by
  have hprotocols : ∀ p ∈ n.protocols, submessageSize os (p.computeSize os) =
      (writeSubmessage os 2 (p.computeSize os) (p.writeTo os)).length.toUInt32 :=
    fun p _ => submessageSize_eq h (by decide) (p.computeSize_eq h)
  simp only [computeSize, writeTo, List.length_append, toUInt32_add, ← UInt32.add_assoc,
    toUInt32_length_elim (h.stringSize 1), toUInt32_length_flatMap hprotocols, h.unknownSize]

theorem Init.computeSize_eq (m : Init U) :
    m.computeSize os = (m.writeTo os).length.toUInt32 := by
  have hnetInts : ∀ n ∈ m.netInts, submessageSize os (n.computeSize os) =
      (writeSubmessage os 1 (n.computeSize os) (n.writeTo os)).length.toUInt32 :=
    fun n _ => submessageSize_eq h (by decide) (n.computeSize_eq h)
  simp only [computeSize, writeTo, List.length_append, toUInt32_add, ← UInt32.add_assoc,
    toUInt32_length_elim (h.valueSize 2), toUInt32_length_elim (h.valueSize 3),
    toUInt32_length_flatMap hnetInts, h.unknownSize]

end Sizes

end MonitoringTool.Backend
