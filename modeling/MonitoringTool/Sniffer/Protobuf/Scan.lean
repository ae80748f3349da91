import MonitoringTool.Lib.WireFormat
import MonitoringTool.Sniffer.Protobuf.Unpack

/-!
# The first pass over a message

Whatever base-128 forms a writer chose, the first pass cuts what it wrote into its records
(`scanRaw_of_writes`), and counts and marks what they say (`scanner_run`, `recordMembers`).
-/

namespace MonitoringTool.Sniffer.Protobuf

open Lib Wire

variable {S : Type}

/-! ## Reading one record -/

/-- The member that is scanned for a record. -/
def memberOf (r : Record) : RawMember where
  tag := r.number.toUInt32
  wireType := r.payload.wireType.toUInt8
  lengthPrefixLen :=
    match r.payload with
    | .delimited lengthForm _ => lengthForm.length
    | _ => 0
  data := r.payload.bytes

theorem and_80_eq_zero_iff (b : UInt8) : b &&& 0x80 = 0 ↔ b.toNat < 128 := by
  have h := and_80_ne_zero_iff b
  rw [← Nat.not_le, ← h, not_not]

/-- The loop of `parse_tag_and_wiretype` reads a base-128 form. -/
theorem tagLoop_eq (j : ℕ) {n k : ℕ} {form : List UInt8} (h : IsVarint n form)
    (hj : form.length ≤ j) (hk : k + 7 * j = 32) (rest : List UInt8) {tag shift : UInt32}
    (hs : shift.toNat = k) (htag : tag.toNat < 2 ^ k) (rv : ℕ) :
    ∃ out, tagLoop tag shift rv ((form ++ rest).take j) = some (rv + form.length, out) ∧
      out.toNat = (tag.toNat + n * 2 ^ k) % 2 ^ 32 := by
  induction h generalizing j k tag shift rv with
  | @last b hb =>
      obtain ⟨j, rfl⟩ : ∃ i, j = i + 1 := ⟨j - 1, by simp at hj; omega⟩
      have hor := toNat_or_shiftLeft32 (y := b.toUInt32) hs (by omega) htag
      rw [UInt8.toNat_toUInt32] at hor
      refine ⟨_, ?_, hor⟩
      rw [List.cons_append, List.take_succ_cons, tagLoop,
        if_neg (by rw [and_80_ne_zero_iff]; omega)]
      rfl
  | @more b n form hb _ ih =>
      obtain ⟨j, rfl⟩ : ∃ i, j = i + 1 := ⟨j - 1, by simp at hj; omega⟩
      have hor : (tag ||| (b &&& 0x7F).toUInt32 <<< shift).toNat =
          (tag.toNat + b.toNat % 128 * 2 ^ k) % 2 ^ 32 := by
        rw [toNat_or_shiftLeft32 hs (by omega) htag, toNat_group32]
      have hnext := group_lt (w := 2 ^ 32) htag (Nat.mod_lt b.toNat (by decide : 0 < 128))
      obtain ⟨out, hout, hvalue⟩ := ih j (by simpa using hj) (k := k + 7) (by omega)
        (toNat_shift32 hs (by omega)) (by rw [hor]; exact hnext) (rv + 1)
      refine ⟨out, ?_, ?_⟩
      · rw [List.cons_append, List.take_succ_cons, tagLoop,
          if_pos ((and_80_ne_zero_iff b).mpr hb), hout, List.length_cons]
        congr 2
        omega
      · rw [hvalue, hor, group_step]

/-- A key is read. -/
theorem parseTagAndWiretype_eq {number wireType : ℕ} {key : List UInt8}
    (h : IsVarint (number * 8 + wireType) key) (hfive : key.length ≤ 5) (hwire : wireType < 8)
    {b : UInt8} {data rest : List UInt8} (hsame : b :: data = key ++ rest) :
    parseTagAndWiretype b data = some (key.length, number.toUInt32, wireType.toUInt8) := by
  have hlow (c : UInt8) : ((c &&& 0x7F) >>> 3).toUInt32.toNat = c.toNat % 128 / 8 := by
    rw [UInt8.toNat_toUInt32, UInt8.toNat_shiftRight, toNat_and_7F, Nat.shiftRight_eq_div_pow]
    rfl
  have hkind (c : UInt8) (hc : c.toNat % 8 = wireType) : c &&& 7 = wireType.toUInt8 := by
    apply UInt8.toNat_inj.mp
    rw [UInt8.toNat_and, Nat.toUInt8_eq, UInt8.toNat_ofNat']
    have hand : c.toNat &&& 7 = c.toNat % 8 := Nat.and_two_pow_sub_one_eq_mod c.toNat 3
    have hseven : (7 : UInt8).toNat = 7 := rfl
    rw [hseven, hand]
    omega
  generalize hvalue : number * 8 + wireType = n at h
  cases h with
  | @last c hc =>
      obtain ⟨rfl, rfl⟩ : b = c ∧ data = rest := by simpa using hsame
      have htag : ((b &&& 0x7F) >>> 3).toUInt32 = number.toUInt32 := by
        apply UInt32.toNat_inj.mp
        rw [hlow, Nat.toUInt32_eq, UInt32.toNat_ofNat']
        omega
      rw [parseTagAndWiretype, if_pos ((and_80_eq_zero_iff b).mpr hc), htag,
        hkind b (by omega)]
      rfl
  | @more c m form hc hform =>
      obtain ⟨rfl, rfl⟩ : b = c ∧ data = form ++ rest := by simpa using hsame
      have hbits : ((b &&& 0x7F) >>> 3).toUInt32.toNat < 2 ^ 4 := by
        rw [hlow]
        omega
      have hshift : (4 : UInt32).toNat = 4 := rfl
      obtain ⟨out, hout, houtValue⟩ :=
        tagLoop_eq 4 hform (Nat.le_of_succ_le_succ hfive) rfl rest hshift hbits 1
      have htag : out = number.toUInt32 := by
        apply UInt32.toNat_inj.mp
        rw [houtValue, hlow, Nat.toUInt32_eq, UInt32.toNat_ofNat']
        omega
      rw [parseTagAndWiretype, if_neg (by rw [and_80_eq_zero_iff]; omega), hout, htag,
        hkind b (by omega), List.length_cons, Nat.add_comm 1]
      rfl

/-- The scan for the end of a base-128 form. -/
theorem scanVarint_eq {n : ℕ} {form : List UInt8} (h : IsVarint n form) (hten : form.length ≤ 10)
    (rest : List UInt8) : scanVarint (form ++ rest) = some form.length := by
  have hfind (j : ℕ) (hj : form.length ≤ j) :
      ((form ++ rest).take j).findIdx? (fun b => decide (b &&& 0x80 = 0)) =
        some (form.length - 1) := by
    induction h generalizing j with
    | @last b hb =>
        obtain ⟨j, rfl⟩ : ∃ i, j = i + 1 := ⟨j - 1, by simp at hj; omega⟩
        simp [List.findIdx?_cons, (and_80_eq_zero_iff b).mpr hb]
    | @more b n form hb hform ih =>
        obtain ⟨j, rfl⟩ : ∃ i, j = i + 1 := ⟨j - 1, by simp at hj; omega⟩
        have hpos := List.length_pos_iff.mpr hform.ne_nil
        have hgo : ¬ b &&& 0x80 = 0 := by
          rw [and_80_eq_zero_iff]
          omega
        have hlen : form.length - 1 + 1 = form.length := by omega
        simp [List.findIdx?_cons, hgo, hlen, ih (by simp at hten; omega) j (by simpa using hj)]
  have hpos := List.length_pos_iff.mpr h.ne_nil
  rw [scanVarint, hfind 10 hten, Option.map_some]
  congr 1
  omega

/-- The loop of `scan_length_prefixed_data` reads a base-128 form. -/
theorem lengthLoop_eq (j : ℕ) {n k : ℕ} {form : List UInt8} (h : IsVarint n form)
    (hj : form.length ≤ j) (hk : k + 7 * j = 35) (rest : List UInt8) {val shift : UInt32}
    (hs : shift.toNat = k) (hval : val.toNat < 2 ^ k) (i : ℕ) :
    ∃ out, lengthLoop val shift i ((form ++ rest).take j) = some (i + form.length, out) ∧
      out.toNat = (val.toNat + n * 2 ^ k) % 2 ^ 32 := by
  induction h generalizing j k val shift i with
  | @last b hb =>
      obtain ⟨j, rfl⟩ : ∃ i, j = i + 1 := ⟨j - 1, by simp at hj; omega⟩
      refine ⟨val ||| (b &&& 0x7F).toUInt32 <<< shift, ?_, ?_⟩
      · rw [List.cons_append, List.take_succ_cons, lengthLoop,
          if_pos ((and_80_eq_zero_iff b).mpr hb)]
        rfl
      · rw [toNat_or_shiftLeft32 hs (by omega) hval, toNat_group32, Nat.mod_eq_of_lt hb]
  | @more b n form hb _ ih =>
      obtain ⟨j, rfl⟩ : ∃ i, j = i + 1 := ⟨j - 1, by simp at hj; omega⟩
      have hor : (val ||| (b &&& 0x7F).toUInt32 <<< shift).toNat =
          (val.toNat + b.toNat % 128 * 2 ^ k) % 2 ^ 32 := by
        rw [toNat_or_shiftLeft32 hs (by omega) hval, toNat_group32]
      have hnext := group_lt (w := 2 ^ 32) hval (Nat.mod_lt b.toNat (by decide : 0 < 128))
      obtain ⟨out, hout, hvalue⟩ := ih j (by simpa using hj) (k := k + 7) (by omega)
        (toNat_shift32 hs (by omega)) (by rw [hor]; exact hnext) (i + 1)
      refine ⟨out, ?_, ?_⟩
      · rw [List.cons_append, List.take_succ_cons, lengthLoop,
          if_neg (by rw [and_80_eq_zero_iff]; omega), hout, List.length_cons]
        congr 2
        omega
      · rw [hvalue, hor, group_step]

/-- A length and what it announces, when the two together are no longer than a `uint32_t` can
say. -/
theorem scanLengthPrefixedData_eq {contents form : List UInt8} (h : IsVarint contents.length form)
    (hfive : form.length ≤ 5) (hsize : form.length + contents.length < 2 ^ 32)
    (rest : List UInt8) :
    ∃ len, scanLengthPrefixedData (form ++ contents ++ rest) = some (len, form.length) ∧
      len.toNat = form.length + contents.length := by
  have hshift : (0 : UInt32).toNat = 0 := rfl
  have hval : (0 : UInt32).toNat < 2 ^ 0 := by decide
  obtain ⟨out, hout, hvalue⟩ := lengthLoop_eq 5 h hfive rfl (contents ++ rest) hshift hval 0
  have hpos := List.length_pos_iff.mpr h.ne_nil
  have hlen : (form.length.toUInt32 + out).toNat = form.length + contents.length := by
    rw [UInt32.toNat_add, hvalue, Nat.toUInt32_eq, UInt32.toNat_ofNat']
    have hzero : (0 : UInt32).toNat = 0 := rfl
    omega
  refine ⟨form.length.toUInt32 + out, ?_, hlen⟩
  rw [Nat.zero_add] at hout
  have hfits : ¬ ((form.length.toUInt32 + out).toNat > (form ++ contents ++ rest).length ∨
      form.length.toUInt32 + out = 0) := by
    rw [← UInt32.toNat_inj, hlen]
    have hzero : (0 : UInt32).toNat = 0 := rfl
    simp only [List.length_append]
    omega
  rw [scanLengthPrefixedData, List.append_assoc, hout]
  simp only
  rw [← List.append_assoc, if_neg hfits]

/-- A payload is as long as the first pass takes it to be, when its length is one that a
`uint32_t` can say. -/
theorem memberLength_eq {p : Payload} (h : p.Valid) (hsize : p.bytes.length < 2 ^ 32)
    (number : ℕ) (rest : List UInt8) :
    memberLength p.wireType.toUInt8 (p.bytes ++ rest) =
      some (p.bytes.length, (memberOf ⟨number, p⟩).lengthPrefixLen) := by
  cases p with
  | varint form =>
      obtain ⟨hten, n, hn⟩ := h
      have hscan := scanVarint_eq hn hten rest
      simp [memberLength, memberOf, Payload.wireType, Payload.bytes, wireTypeVarint, hscan]
  | fixed64 word =>
      have hword : word.length = 8 := h
      simp [memberLength, memberOf, Payload.wireType, Payload.bytes, wireTypeVarint, wireType64Bit,
        hword]
  | fixed32 word =>
      have hword : word.length = 4 := h
      simp [memberLength, memberOf, Payload.wireType, Payload.bytes, wireTypeVarint, wireType64Bit,
        wireTypeLengthPrefixed, wireType32Bit, hword]
  | delimited lengthForm contents =>
      rw [Payload.bytes, List.length_append] at hsize
      obtain ⟨len, hscan, hlen⟩ := scanLengthPrefixedData_eq h.2 h.1 hsize rest
      rw [List.append_assoc] at hscan
      simp [memberLength, memberOf, Payload.wireType, Payload.bytes, wireTypeVarint, wireType64Bit,
        wireTypeLengthPrefixed, hscan, hlen]

/-- A record is cut off the input as it was written. -/
theorem scanRaw_of_writes {r : Record} {bytes : List UInt8} (h : r.Writes bytes)
    (hsize : r.payload.bytes.length < 2 ^ 32) {b : UInt8} {data rest : List UInt8}
    (hsame : b :: data = bytes ++ rest) : scanRaw b data = some (memberOf r, rest) := by
  obtain ⟨key, hkey, hfive, hvalid, rfl⟩ := h
  rw [List.append_assoc] at hsame
  have htag := parseTagAndWiretype_eq hkey hfive r.payload.wireType_lt hsame
  have hlength := memberLength_eq hvalid hsize r.number rest
  rw [scanRaw, htag]
  simp only [hsame, List.drop_left, hlength, Option.map_some, List.take_left, List.drop_left]
  rfl

/-- The first pass over a stream folds its records into the state, and goes on behind it. -/
theorem scanner_run_append {desc : MessageDescriptor S} {rs : List Record} {bytes : List UInt8}
    (h : Stream rs bytes) (hsize : bytes.length < 2 ^ 32) (input : List UInt8)
    (st : ScanState desc.fields.length) :
    (scanner desc).run st (bytes ++ input) =
      (rs.map memberOf).foldlM (recordMember desc) st >>= fun st =>
        (scanner desc).run st input := by
  induction h generalizing st with
  | nil => rfl
  | @cons r rs bytes rest hr _ ih =>
      rw [List.length_append] at hsize
      obtain ⟨b, data, hdata⟩ := List.exists_cons_of_ne_nil hr.ne_nil
      have hpayload : r.payload.bytes.length < 2 ^ 32 := by
        obtain ⟨key, -, -, -, rfl⟩ := hr
        rw [List.length_append] at hsize
        omega
      have hraw : scanRaw b (data ++ (rest ++ input)) = some (memberOf r, rest ++ input) :=
        scanRaw_of_writes hr hpayload (by rw [hdata, List.cons_append])
      rw [List.map_cons, List.foldlM_cons, hdata, List.append_assoc, List.cons_append]
      cases hrecord : recordMember desc st (memberOf r) with
      | error e =>
          refine Reader.run_error ?_
          simp only [scanner, hraw, hrecord]
          rfl
      | ok st' =>
          have hstep : (scanner desc).step st b (data ++ (rest ++ input)) =
              .ok (st', rest ++ input) := by
            simp only [scanner, hraw, hrecord]
            rfl
          rw [Reader.run_step hstep, ih (by omega)]
          rfl

/-- The first pass over a stream. -/
theorem scanner_run {desc : MessageDescriptor S} {rs : List Record} {bytes : List UInt8}
    (h : Stream rs bytes) (hsize : bytes.length < 2 ^ 32) (st : ScanState desc.fields.length) :
    (scanner desc).run st bytes = (rs.map memberOf).foldlM (recordMember desc) st := by
  have hrun := scanner_run_append h hsize [] st
  simp only [List.append_nil, Reader.run_nil] at hrun
  exact hrun.trans (bind_pure _)

/-! ## What the first pass knows -/

/-- Remembering the field found last makes no difference. -/
theorem findField_eq (desc : MessageDescriptor S) (last : Option (Fin desc.fields.length))
    (tag : UInt32) : findField desc last tag = desc.lookup tag := by
  cases last with
  | none => rfl
  | some f =>
      rw [findField]
      split_ifs with hid
      · rfl
      · exact (MessageDescriptor.lookup_eq_some_iff.mpr (not_not.mp hid)).symm

/-- A member with the field of its tag. -/
def withField (desc : MessageDescriptor S) (member : RawMember) :
    ScannedMember desc.fields.length :=
  { member with field := desc.lookup member.tag }

/-- The elements of a field that a member holds. -/
def elementsIn (desc : MessageDescriptor S) (f : Fin desc.fields.length) (member : RawMember) : ℕ :=
  if desc.lookup member.tag = some f then
    match countElements (desc.fields.get f) member with
    | .ok count => count
    | .error _ => 0
  else 0

/-- The elements of the members can be counted. -/
def Countable (desc : MessageDescriptor S) (member : RawMember) : Prop :=
  ∀ f, desc.lookup member.tag = some f →
    ∃ count, countElements (desc.fields.get f) member = .ok count

/-- The slabs hold no more members than this. -/
def maxMembers : ℕ := 2 ^ 27 - 16

/-- What the first pass knows of the members so far. -/
structure ScanInv (desc : MessageDescriptor S) (ms : List RawMember)
    (st : ScanState desc.fields.length) : Prop where
  slabs : 16 * 2 ^ st.whichSlab + st.inSlabIndex = ms.length + 16
  inSlab : st.inSlabIndex ≤ 16 * 2 ^ st.whichSlab
  whichSlab : st.whichSlab ≤ maxScannedMemberSlab
  unknown : st.nUnknown = ms.countP fun m => (desc.lookup m.tag).isNone
  required : ∀ f, st.requiredFieldsBitmap f = true ↔
    (desc.fields.get f).isRequired = true ∧ ∃ m ∈ ms, desc.lookup m.tag = some f
  counts : ∀ f, st.counts f = (ms.map (elementsIn desc f)).sum
  members : st.members = ms.map (withField desc)

theorem scanInv_start (desc : MessageDescriptor S) :
    ScanInv desc [] (ScanState.start desc.fields.length) where
  slabs := rfl
  inSlab := Nat.zero_le _
  whichSlab := Nat.zero_le _
  unknown := rfl
  required := by simp [ScanState.start]
  counts := fun _ => rfl
  members := rfl

/-- There is a place for the next member exactly while there are not too many. -/
theorem nextSlab_eq {desc : MessageDescriptor S} {ms : List RawMember}
    {st : ScanState desc.fields.length} (h : ScanInv desc ms st) :
    if ms.length = maxMembers then nextSlab st.whichSlab st.inSlabIndex = .error .null
    else ∃ which place, nextSlab st.whichSlab st.inSlabIndex = .ok (which, place) ∧
      16 * 2 ^ which + place = ms.length + 16 ∧ place < 16 * 2 ^ which ∧
        which ≤ maxScannedMemberSlab := by
  have hslabs := h.slabs
  have hin := h.inSlab
  have hwhich := h.whichSlab
  have hsize : 1 <<< (st.whichSlab + 4) = 16 * 2 ^ st.whichSlab := by
    rw [Nat.one_shiftLeft, Nat.pow_add, Nat.mul_comm]
  have hpow : 2 ^ st.whichSlab ≤ 2 ^ 22 := Nat.pow_le_pow_right (by decide) hwhich
  rw [nextSlab, hsize]
  by_cases hfull : st.inSlabIndex = 16 * 2 ^ st.whichSlab
  · rw [if_pos hfull]
    by_cases hlast : st.whichSlab = maxScannedMemberSlab
    · have hmax : ms.length = maxMembers := by
        rw [hlast] at hslabs hfull
        simp only [maxScannedMemberSlab, maxMembers] at *
        omega
      rw [if_pos hlast, if_pos hmax]
    · have hdouble : 2 ^ (st.whichSlab + 1) = 2 * 2 ^ st.whichSlab := by
        rw [Nat.pow_succ, Nat.mul_comm]
      have hnext : 2 ^ (st.whichSlab + 1) ≤ 2 ^ 22 :=
        Nat.pow_le_pow_right (by decide) (by simp only [maxScannedMemberSlab] at *; omega)
      have hmax : ms.length ≠ maxMembers := by
        simp only [maxMembers]
        omega
      rw [if_neg hlast, if_neg hmax]
      refine ⟨_, _, rfl, by omega, by omega, ?_⟩
      simp only [maxScannedMemberSlab] at *
      omega
  · have hmax : ms.length ≠ maxMembers := by
      simp only [maxMembers]
      omega
    rw [if_neg hfull, if_neg hmax]
    exact ⟨_, _, rfl, hslabs, by omega, hwhich⟩

theorem elementsIn_of_ne {desc : MessageDescriptor S} {f : Fin desc.fields.length}
    {member : RawMember} (h : desc.lookup member.tag ≠ some f) : elementsIn desc f member = 0 := by
  rw [elementsIn, if_neg h]

theorem elementsIn_of_count {desc : MessageDescriptor S} {f : Fin desc.fields.length}
    {member : RawMember} {count : ℕ} (h : desc.lookup member.tag = some f)
    (hcount : countElements (desc.fields.get f) member = .ok count) :
    elementsIn desc f member = count := by
  rw [elementsIn, if_pos h, hcount]

/-- What a member changes. -/
theorem recordMember_spec {desc : MessageDescriptor S} {st : ScanState desc.fields.length}
    {member : RawMember} {which place : ℕ}
    (hnext : nextSlab st.whichSlab st.inSlabIndex = .ok (which, place))
    (hcount : Countable desc member) :
    ∃ st', recordMember desc st member = .ok st' ∧
      st'.whichSlab = which ∧ st'.inSlabIndex = place + 1 ∧
      st'.nUnknown = st.nUnknown + (if (desc.lookup member.tag).isNone then 1 else 0) ∧
      (∀ f, st'.requiredFieldsBitmap f = (st.requiredFieldsBitmap f ||
        (desc.fields.get f).isRequired && decide (desc.lookup member.tag = some f))) ∧
      (∀ f, st'.counts f = st.counts f + elementsIn desc f member) ∧
      st'.members = st.members ++ [withField desc member] := by
  cases hlookup : desc.lookup member.tag with
  | none =>
      have hzero (f : Fin desc.fields.length) : elementsIn desc f member = 0 :=
        elementsIn_of_ne (by simp [hlookup])
      simp only [recordMember, findField_eq, hlookup, hnext, bind, Except.bind, pure, Except.pure,
        Option.elim, Except.ok.injEq, exists_eq_left']
      simp [hzero, withField, hlookup]
  | some f =>
      obtain ⟨count, hcount⟩ := hcount f hlookup
      have helements := elementsIn_of_count hlookup hcount
      have hother (g : Fin desc.fields.length) (hg : g ≠ f) : elementsIn desc g member = 0 :=
        elementsIn_of_ne (by rw [hlookup]; simpa using hg.symm)
      simp only [recordMember, findField_eq, hlookup, hnext, hcount, bind, Except.bind, pure,
        Except.pure, Option.elim, Except.map, Except.ok.injEq, exists_eq_left']
      refine ⟨trivial, trivial, by simp, fun g => ?_, fun g => ?_, by simp [withField, hlookup]⟩
      · by_cases hg : g = f
        · subst hg
          generalize (desc.fields.get g).isRequired = required
          cases required <;> simp
        · have hother : decide (some f = some g) = false := by simpa using Ne.symm hg
          rw [hother, Bool.and_false, Bool.or_false]
          split_ifs
          · exact Function.update_of_ne hg _ _
          · rfl
      · by_cases hg : g = f
        · subst hg
          simp [helements]
        · simp [hg, hother g hg]

/-- One more member: the invariant is kept while there is a place for it and its elements can
be counted. -/
theorem ScanInv.recordMember {desc : MessageDescriptor S} {ms : List RawMember}
    {st : ScanState desc.fields.length} (h : ScanInv desc ms st) {member : RawMember}
    (hroom : ms.length ≠ maxMembers) (hcount : Countable desc member) :
    ∃ st', recordMember desc st member = .ok st' ∧ ScanInv desc (ms ++ [member]) st' := by
  have hslab := nextSlab_eq h
  rw [if_neg hroom] at hslab
  obtain ⟨which, place, hnext, hslabs, hplace, hwhich⟩ := hslab
  obtain ⟨st', hst', hwhich', hplace', hunknown, hrequired, hcounts, hmembers⟩ :=
    recordMember_spec hnext hcount
  refine ⟨st', hst', ?_, ?_, ?_, ?_, ?_, ?_, ?_⟩
  · rw [hwhich', hplace', List.length_append, List.length_singleton]
    omega
  · rw [hwhich', hplace']
    exact hplace
  · rw [hwhich']
    exact hwhich
  · rw [hunknown, h.unknown, List.countP_append, List.countP_singleton]
  · intro f
    rw [hrequired f, Bool.or_eq_true, h.required f, Bool.and_eq_true, decide_eq_true_iff]
    simp only [List.mem_append, List.mem_singleton, or_and_right, exists_or, exists_eq_left]
    exact and_or_left.symm
  · intro f
    rw [hcounts f, h.counts f, List.map_append, List.sum_append, List.map_singleton,
      List.sum_singleton]
  · rw [hmembers, h.members, List.map_append, List.map_singleton]

/-- The first pass over members that can be counted, and are not too many. -/
theorem recordMembers {desc : MessageDescriptor S} {ms before : List RawMember}
    {st : ScanState desc.fields.length} (h : ScanInv desc before st)
    (hroom : before.length + ms.length ≤ maxMembers) (hcount : ∀ m ∈ ms, Countable desc m) :
    ∃ st', ms.foldlM (recordMember desc) st = .ok st' ∧ ScanInv desc (before ++ ms) st' := by
  induction ms generalizing before st with
  | nil => exact ⟨st, rfl, by rwa [List.append_nil]⟩
  | cons m ms ih =>
      rw [List.length_cons] at hroom
      obtain ⟨st₁, hst₁, h₁⟩ := h.recordMember (by omega) (hcount m (by simp))
      obtain ⟨st', hst', h'⟩ := ih h₁ (by simp; omega) fun m' hm' => hcount m' (by simp [hm'])
      refine ⟨st', ?_, by rwa [List.append_assoc, List.singleton_append] at h'⟩
      rw [List.foldlM_cons, hst₁]
      exact hst'

end MonitoringTool.Sniffer.Protobuf
