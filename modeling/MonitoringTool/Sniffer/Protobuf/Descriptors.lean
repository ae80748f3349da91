import MonitoringTool.Lib.Lens
import MonitoringTool.Lib.Reader
import Mathlib.Data.List.Pairwise

/-!
# The descriptors of `protobuf-c.h`

`protobuf-c.c` packs and unpacks a C structure by way of a descriptor, a table with one entry
for each field: the number and the type of the field, whether it is required, optional, one
of several or repeated, and where its member lies in the structure.  The entries are sorted by
number, and a second table lists the runs of consecutive numbers, in which
`int_range_lookup` finds the entry of a number by bisection.

Modelled are the types and labels that the descriptors of `analysis.pb-c.c` use.  A member is a
lens into the structure, where C has its offset, and an entry for a submessage holds what the
library does with messages of its descriptor, where C has a pointer to it.  No field
of these descriptors has a default value or is packed.
-/

namespace MonitoringTool.Sniffer.Protobuf

open Lib

/-! ## The types of the library -/

/-- Why an unpacking function has no message to give: it returns `NULL`, or it goes on with a
length or an index beyond the block that it has, and nothing is said about what happens
then. -/
inductive Failure where
  | null : Failure
  | overrun : Failure
  deriving DecidableEq, Repr

abbrev Outcome := Except Failure

/-- A computation goes through when both of its parts do. -/
theorem bind_eq_ok {A B : Type} {x : Outcome A} {f : A → Outcome B} {b : B} :
    x >>= f = .ok b ↔ ∃ a, x = .ok a ∧ f a = .ok b := by
  cases x with
  | error e => simp [bind, Except.bind]
  | ok a => simp [bind, Except.bind]

/-- A computation fails when one of its parts does. -/
theorem bind_eq_error {A B : Type} {x : Outcome A} {f : A → Outcome B} {e : Failure} :
    x >>= f = .error e ↔ x = .error e ∨ ∃ a, x = .ok a ∧ f a = .error e := by
  cases x with
  | error e => simp [bind, Except.bind]
  | ok a => simp [bind, Except.bind]

/-- What is computed from the outcome of something that fails. -/
theorem map_eq_error {A B : Type} {x : Outcome A} {f : A → B} {e : Failure} :
    x.map f = .error e ↔ x = .error e := by
  cases x <;> simp [Except.map]

/-- What the library does with the messages of one descriptor. -/
structure MessageOps (M : Type) where
  getPackedSize : M → ℕ
  pack : M → List UInt8
  unpack : List UInt8 → Outcome M
  merge : M → M → Option M

/-- `ProtobufCType`. -/
inductive CType : Type 1 where
  | uint32 : CType
  | int64 : CType
  | double : CType
  | string : CType
  | message (M : Type) (ops : MessageOps M) : CType

/-- What an element of a repeated field holds.  A `double` is its eight bytes, a string the
block that it lies in, up to the 0 at its end; the pointers of an array are not `NULL`. -/
abbrev CType.Elem : CType → Type
  | uint32 => UInt32
  | int64 => Int64
  | double => UInt64
  | string => List UInt8
  | message M _ => M

/-- What a single member holds: strings and messages are pointers, and may be `NULL`. -/
abbrev CType.Member : CType → Type
  | uint32 => UInt32
  | int64 => Int64
  | double => UInt64
  | string => Option (List UInt8)
  | message M _ => Option M

/-- A member that was cleared by `memset`. -/
def CType.zero : (t : CType) → t.Member
  | uint32 => (0 : UInt32)
  | int64 => (0 : Int64)
  | double => (0 : UInt64)
  | string => (none : Option (List UInt8))
  | message M _ => (none : Option M)

/-- A member that holds an element. -/
def CType.ofElem : (t : CType) → t.Elem → t.Member
  | uint32 => fun v => v
  | int64 => fun v => v
  | double => fun v => v
  | string => some
  | message _ _ => some

/-- A member holds one element. -/
theorem CType.ofElem_injective (t : CType) {a b : t.Elem} (h : t.ofElem a = t.ofElem b) :
    a = b := by
  cases t with
  | uint32 => exact h
  | int64 => exact h
  | double => exact h
  | string => exact Option.some.inj h
  | message M ops => exact Option.some.inj h

/-- `is_packable_type`. -/
def isPackableType : CType → Bool
  | .string => false
  | .message _ _ => false
  | _ => true

/-- `ProtobufCLabel` and the flag `PROTOBUF_C_FIELD_FLAG_ONEOF`, with the members that
`offset` and `quantifier_offset` name.  The members of a oneof share their place with the case
that says which of them is there, so they are set together. -/
inductive Label (S : Type) (t : CType) : Type where
  | required (member : Lens S t.Member) : Label S t
  | optional (quantifier : Option (Lens S Bool)) (member : Lens S t.Member) : Label S t
  | oneof (case : S → UInt32) (member : S → t.Member) (set : t.Member → S → S) : Label S t
  | repeated (array : Lens S (List t.Elem)) : Label S t

/-- `ProtobufCFieldDescriptor`. -/
structure FieldDescriptor (S : Type) : Type 1 where
  id : UInt32
  type : CType
  label : Label S type

/-- `ProtobufCMessageUnknownField`. -/
structure UnknownField where
  tag : UInt32
  wireType : UInt8
  data : List UInt8
  deriving DecidableEq, Repr

/-- `ProtobufCIntRange`. -/
structure IntRange where
  startValue : ℤ
  origIndex : ℕ
  deriving DecidableEq, Repr

/-! ## `int_range_lookup` -/

/-- `ranges[i]`. -/
def rangeAt (ranges : List IntRange) (i : ℕ) : IntRange := ranges.getD i ⟨0, 0⟩

/-- The number of entries in a run: `ranges[i + 1].orig_index - ranges[i].orig_index`. -/
def rangeSize (ranges : List IntRange) (i : ℕ) : ℤ :=
  ((rangeAt ranges (i + 1)).origIndex : ℤ) - (rangeAt ranges i).origIndex

/-- The loop of `int_range_lookup` and what follows it. -/
def intRangeLoop (ranges : List IntRange) (value : ℤ) (start n : ℕ) : Option ℕ :=
  if 1 < n then
    let mid := start + n / 2
    if value < (rangeAt ranges mid).startValue then intRangeLoop ranges value start (mid - start)
    else if (rangeAt ranges mid).startValue + rangeSize ranges mid ≤ value then
      let newStart := mid + 1
      intRangeLoop ranges value newStart (start + n - newStart)
    else some ((value - (rangeAt ranges mid).startValue).toNat + (rangeAt ranges mid).origIndex)
  else if 0 < n then
    if (rangeAt ranges start).startValue ≤ value ∧
        value < (rangeAt ranges start).startValue + rangeSize ranges start then
      some ((value - (rangeAt ranges start).startValue).toNat + (rangeAt ranges start).origIndex)
    else none
  else none
termination_by n
decreasing_by all_goals omega

/-- `int_range_lookup`, with `none` for -1. -/
def intRangeLookup (nRanges : ℕ) (ranges : List IntRange) (value : ℤ) : Option ℕ :=
  if nRanges = 0 then none else intRangeLoop ranges value 0 nRanges

/-- The ranges of a table of increasing numbers: each entry starts a run of consecutive
numbers, and one more entry ends the last run. -/
structure Describes (nRanges : ℕ) (ranges : List IntRange) (ids : List ℤ) : Prop where
  sorted : ids.Pairwise (· < ·)
  empty : nRanges = 0 → ids = []
  first : (rangeAt ranges 0).origIndex = 0
  last : (rangeAt ranges nRanges).origIndex = ids.length
  increasing : ∀ r < nRanges,
    (rangeAt ranges r).origIndex < (rangeAt ranges (r + 1)).origIndex
  run : ∀ r < nRanges, ∀ k, (rangeAt ranges r).origIndex + k <
    (rangeAt ranges (r + 1)).origIndex →
      ids[(rangeAt ranges r).origIndex + k]? = some ((rangeAt ranges r).startValue + k)

namespace Describes

variable {nRanges : ℕ} {ranges : List IntRange} {ids : List ℤ}

/-- The numbers increase. -/
theorem id_lt (h : Describes nRanges ranges ids) {i j : ℕ} {a b : ℤ} (ha : ids[i]? = some a)
    (hb : ids[j]? = some b) : i < j ↔ a < b := by
  obtain ⟨hi, rfl⟩ := List.getElem?_eq_some_iff.mp ha
  obtain ⟨hj, rfl⟩ := List.getElem?_eq_some_iff.mp hb
  have hlt := List.pairwise_iff_getElem.mp h.sorted
  constructor
  · exact hlt i j hi hj
  · intro hab
    rcases Nat.lt_trichotomy i j with hij | rfl | hij
    · exact hij
    · exact absurd hab (Int.lt_irrefl _)
    · exact absurd (hlt j i hj hi hij) (Int.not_lt.mpr (Int.le_of_lt hab))

/-- A number lies in the run that its place lies in. -/
theorem mem_run (h : Describes nRanges ranges ids) {r i : ℕ} {value : ℤ} (hr : r < nRanges)
    (hi : ids[i]? = some value) :
    ((rangeAt ranges r).origIndex ≤ i ↔ (rangeAt ranges r).startValue ≤ value) ∧
      (i < (rangeAt ranges (r + 1)).origIndex ↔
        value < (rangeAt ranges r).startValue + rangeSize ranges r) := by
  have hsize : rangeSize ranges r =
    ((rangeAt ranges (r + 1)).origIndex : ℤ) - (rangeAt ranges r).origIndex := rfl
  have hinc := h.increasing r hr
  have hfirst := h.run r hr 0 (by omega)
  have hlast := h.run r hr ((rangeAt ranges (r + 1)).origIndex -
    (rangeAt ranges r).origIndex - 1) (by omega)
  have hbelow := h.id_lt hi hfirst
  have habove := h.id_lt hlast hi
  omega

/-- The ranges of a table whose numbers are consecutive. -/
theorem single (value : ℤ) {n : ℕ} (hn : 0 < n) :
    Describes 1 [⟨value, 0⟩, ⟨0, n⟩] ((List.range n).map fun i : ℕ => value + i) where
  sorted := by
    rw [List.pairwise_map]
    exact List.pairwise_lt_range.imp fun h => by omega
  empty h := absurd h (by decide)
  first := rfl
  last := by simp [rangeAt]
  increasing r hr := by
    have hr0 : r = 0 := by omega
    rw [hr0]
    exact hn
  run r hr k hk := by
    have hr0 : r = 0 := by omega
    subst hr0
    have hlt : k < n := by simpa [rangeAt] using hk
    simp [rangeAt, hlt]

end Describes

/-- A number that lies in a run has its entry there. -/
theorem Describes.found {nRanges : ℕ} {ranges : List IntRange} {ids : List ℤ}
    (h : Describes nRanges ranges ids) {r : ℕ} (hr : r < nRanges) {value : ℤ}
    (hlow : (rangeAt ranges r).startValue ≤ value)
    (hhigh : value < (rangeAt ranges r).startValue + rangeSize ranges r) (j : ℕ) :
    some ((value - (rangeAt ranges r).startValue).toNat + (rangeAt ranges r).origIndex) =
      some j ↔ ids[j]? = some value := by
  rw [rangeSize] at hhigh
  have hplace := h.run r hr (value - (rangeAt ranges r).startValue).toNat (by omega)
  have hvalue : (rangeAt ranges r).startValue +
      ((value - (rangeAt ranges r).startValue).toNat : ℤ) = value := by omega
  rw [hvalue] at hplace
  constructor
  · intro hj
    rw [Option.some.injEq] at hj
    rwa [← hj, Nat.add_comm]
  · intro hj
    have hlt := h.id_lt hplace hj
    have hgt := h.id_lt hj hplace
    rw [Option.some.injEq]
    omega

/-- The loop finds exactly the numbers of the table, while it looks at the runs between which
the number must be. -/
theorem intRangeLoop_eq_some_iff {nRanges : ℕ} {ranges : List IntRange} {ids : List ℤ}
    (h : Describes nRanges ranges ids) {value : ℤ} (n start : ℕ) (hn : start + n ≤ nRanges)
    (hin : ∀ i, ids[i]? = some value → (rangeAt ranges start).origIndex ≤ i ∧
      i < (rangeAt ranges (start + n)).origIndex) (j : ℕ) :
    intRangeLoop ranges value start n = some j ↔ ids[j]? = some value := by
  induction n using Nat.strongRecOn generalizing start with
  | ind n ih =>
      rw [intRangeLoop]
      by_cases hmany : 1 < n
      · rw [if_pos hmany]
        have hmid : start + n / 2 < nRanges := by omega
        by_cases hless : value < (rangeAt ranges (start + n / 2)).startValue
        · rw [if_pos hless]
          refine ih _ (by omega) start (by omega) fun i hi => ⟨(hin i hi).1, ?_⟩
          have hrun := (h.mem_run hmid hi).1
          have hcut : start + (start + n / 2 - start) = start + n / 2 := by omega
          rw [hcut]
          omega
        · rw [if_neg hless]
          by_cases hmore : (rangeAt ranges (start + n / 2)).startValue +
              rangeSize ranges (start + n / 2) ≤ value
          · rw [if_pos hmore]
            refine ih _ (by omega) _ (by omega) fun i hi => ⟨?_, ?_⟩
            · have hrun := (h.mem_run hmid hi).2
              omega
            · have hcut : start + n / 2 + 1 + (start + n - (start + n / 2 + 1)) = start + n := by
                omega
              rw [hcut]
              exact (hin i hi).2
          · rw [if_neg hmore]
            exact h.found hmid (Int.not_lt.mp hless) (Int.not_le.mp hmore) j
      · rw [if_neg hmany]
        by_cases hone : 0 < n
        · have hn1 : n = 1 := by omega
          subst hn1
          rw [if_pos hone]
          split_ifs with hrun
          · exact h.found (by omega) hrun.1 hrun.2 j
          · constructor
            · exact fun hj => absurd hj (by simp)
            · intro hj
              have hmem := h.mem_run (r := start) (by omega) hj
              have hbounds := hin j hj
              exact absurd ⟨hmem.1.mp hbounds.1, hmem.2.mp hbounds.2⟩ hrun
        · rw [if_neg hone]
          constructor
          · exact fun hj => absurd hj (by simp)
          · intro hj
            have hbounds := hin j hj
            have hn0 : n = 0 := by omega
            rw [hn0, Nat.add_zero] at hbounds
            omega

/-- `int_range_lookup` finds exactly the entry of a number: whatever the gaps between the
numbers of a table are, the bisection over its ranges ends at the place of the number that it
looks for, and at -1 when the table does not have it. -/
theorem intRangeLookup_eq_some_iff {nRanges : ℕ} {ranges : List IntRange} {ids : List ℤ}
    (h : Describes nRanges ranges ids) (value : ℤ) (i : ℕ) :
    intRangeLookup nRanges ranges value = some i ↔ ids[i]? = some value := by
  rw [intRangeLookup]
  split_ifs with hzero
  · simp [h.empty hzero]
  · refine intRangeLoop_eq_some_iff h nRanges 0 (by omega) (fun i hi => ?_) i
    obtain ⟨hlt, -⟩ := List.getElem?_eq_some_iff.mp hi
    rw [Nat.zero_add, h.first, h.last]
    exact ⟨Nat.zero_le i, hlt⟩

/-! ## Message descriptors -/

/-- A field number as `int_range_lookup` takes it, an `int`. -/
def tagValue (tag : UInt32) : ℤ := tag.toInt32.toInt

theorem tagValue_inj {a b : UInt32} : tagValue a = tagValue b ↔ a = b := by
  rw [tagValue, tagValue, Int32.toInt_inj]
  exact ⟨fun h => by simpa using congrArg Int32.toUInt32 h, congrArg _⟩

/-- `ProtobufCMessageDescriptor`, of the structures of type `S`.  The ranges are those of the
numbers of its fields. -/
structure MessageDescriptor (S : Type) : Type 1 where
  fields : List (FieldDescriptor S)
  nFieldRanges : ℕ
  fieldRanges : List IntRange
  messageInit : S
  unknownFields : Lens S (List UnknownField)
  describes : Describes nFieldRanges fieldRanges (fields.map fun field => tagValue field.id)

namespace MessageDescriptor

variable {S : Type} (desc : MessageDescriptor S)

/-- `desc->fields + int_range_lookup(...)`, or no field for -1. -/
def lookup (tag : UInt32) : Option (Fin desc.fields.length) :=
  (intRangeLookup desc.nFieldRanges desc.fieldRanges (tagValue tag)).bind fun i =>
    if h : i < desc.fields.length then some ⟨i, h⟩ else none

variable {desc}

/-- The field that is found is the one with the number. -/
theorem lookup_eq_some_iff {tag : UInt32} {i : Fin desc.fields.length} :
    desc.lookup tag = some i ↔ (desc.fields.get i).id = tag := by
  have hfind (j : ℕ) := intRangeLookup_eq_some_iff desc.describes (tagValue tag) j
  have hid (j : ℕ) : (desc.fields.map fun field => tagValue field.id)[j]? = some (tagValue tag) ↔
      ∃ h : j < desc.fields.length, (desc.fields.get ⟨j, h⟩).id = tag := by
    rw [List.getElem?_eq_some_iff]
    simp [tagValue_inj]
  constructor
  · intro h
    obtain ⟨j, hj, hcast⟩ := Option.bind_eq_some_iff.mp h
    obtain ⟨hlt, hj⟩ := (hid j).mp ((hfind j).mp hj)
    rw [dif_pos hlt, Option.some.injEq] at hcast
    exact hcast ▸ hj
  · intro h
    have hi := (hfind i).mpr ((hid i).mpr ⟨i.isLt, h⟩)
    rw [lookup, hi, Option.bind_some, dif_pos i.isLt]

end MessageDescriptor

end MonitoringTool.Sniffer.Protobuf
