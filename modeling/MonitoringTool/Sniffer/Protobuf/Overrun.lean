import MonitoringTool.Sniffer.Protobuf.Analysis
import Mathlib.Algebra.Order.BigOperators.Group.List
import Mathlib.Tactic.FinCases

/-!
# Unpacking what anyone may have written

The bytes that are unpacked come from a socket, so they may be anything.  The length of a
length-prefixed member is a sum that wraps around when the prefix says almost 2³²; the member is
then shorter than its prefix.  The next key would start inside the prefix, on a byte that is no
key (`scanRaw_wrapped`), so the first pass fails before such a member is parsed; but it has
counted the numbers of a packed array by then, beyond the end of the input.

So unpacking never leaves its input and its arrays where no array of numbers can be packed, or
where no length wraps around (`messageUnpack_ne_overrun`).
-/

namespace MonitoringTool.Sniffer.Protobuf

open Lib

variable {S : Type}

/-! ## Lengths that wrap around -/

/-- A length of five bytes which is too close to 2³² to be added to the size of its prefix. -/
def WrappedLength (form : List UInt8) : Prop :=
  ∃ n, IsVarint n form ∧ form.length = 5 ∧ 2 ^ 32 - 5 < n % 2 ^ 32

/-- Somewhere in the input stands a length that wraps around. -/
def HasWrappedLength (data : List UInt8) : Prop := ∃ form, WrappedLength form ∧ form <:+: data

theorem HasWrappedLength.mono {data data' : List UInt8} (h : HasWrappedLength data)
    (hin : data <:+: data') : HasWrappedLength data' := by
  obtain ⟨form, hform, hinfix⟩ := h
  exact ⟨form, hform, hinfix.trans hin⟩

/-- All the groups of such a length but the first are full, so that no byte of it but the
first can be a key. -/
theorem WrappedLength.full {form : List UInt8} (h : WrappedLength form) :
    ∃ b tail, form = b :: tail ∧ ∀ c ∈ tail, c.toNat % 8 = 7 := by
  obtain ⟨n, hform, hlen, hn⟩ := h
  rcases hform with hb₀ | ⟨hb₀, h₁⟩
  · simp at hlen
  rcases h₁ with hb₁ | ⟨hb₁, h₂⟩
  · simp at hlen
  rcases h₂ with hb₂ | ⟨hb₂, h₃⟩
  · simp at hlen
  rcases h₃ with hb₃ | ⟨hb₃, h₄⟩
  · simp at hlen
  rcases h₄ with hb₄ | ⟨hb₄, h₅⟩
  · refine ⟨_, _, rfl, ?_⟩
    simp only [List.mem_cons, List.not_mem_nil, or_false, forall_eq_or_imp, forall_eq]
    omega
  · have hpos := List.length_pos_iff.mpr h₅.ne_nil
    simp only [List.length_cons] at hlen
    omega

/-! ## One member of any input -/

/-- A length that is read is a base-128 form. -/
theorem lengthLoop_form {val shift : UInt32} {i : ℕ} {data : List UInt8} {out : ℕ × UInt32}
    (h : lengthLoop val shift i data = some out) :
    ∃ n form rest, IsVarint n form ∧ data = form ++ rest := by
  induction data generalizing val shift i with
  | nil => simp [lengthLoop] at h
  | cons b data ih =>
      rw [lengthLoop] at h
      split_ifs at h with hb
      · exact ⟨_, [b], data, .last ((and_80_eq_zero_iff b).mp hb), rfl⟩
      · obtain ⟨n, form, rest, hform, rfl⟩ := ih h
        exact ⟨_, b :: form, rest, .more (by rw [and_80_eq_zero_iff] at hb; omega) hform, rfl⟩

/-- What `scan_length_prefixed_data` says of any input: the sum may have wrapped around. -/
theorem scanLengthPrefixedData_spec {data : List UInt8} {len : UInt32} {hdrLen : ℕ}
    (h : scanLengthPrefixedData data = some (len, hdrLen)) :
    ∃ n form, IsVarint n form ∧ form <+: data ∧ form.length = hdrLen ∧ hdrLen ≤ 5 ∧
      len.toNat = (hdrLen + n) % 2 ^ 32 ∧ len.toNat ≤ data.length ∧ 0 < len.toNat := by
  rw [scanLengthPrefixedData] at h
  split at h
  · exact absurd h (by simp)
  · next hdr val hloop =>
      obtain ⟨n, form, rest, hform, htake⟩ := lengthLoop_form hloop
      have hfive : form.length ≤ 5 := by
        have hlen := congrArg List.length htake
        rw [List.length_take, List.length_append] at hlen
        omega
      have hshift : (0 : UInt32).toNat = 0 := rfl
      have hval : (0 : UInt32).toNat < 2 ^ 0 := by decide
      obtain ⟨out, hout, hvalue⟩ := lengthLoop_eq 5 hform hfive rfl rest hshift hval 0
      have htake' : (form ++ rest).take 5 = data.take 5 := by
        rw [← htake, List.take_take, Nat.min_self]
      rw [htake', hloop, Option.some.injEq, Prod.mk.injEq] at hout
      simp only at h
      split_ifs at h with hfits
      rw [Option.some.injEq, Prod.mk.injEq] at h
      rw [not_or, Nat.not_lt, ← UInt32.toNat_inj, h.1, hshift] at hfits
      refine ⟨n, form, hform, ?_, by omega, by omega, ?_, hfits.1, by omega⟩
      · exact List.IsPrefix.trans ⟨rest, htake.symm⟩ (List.take_prefix 5 data)
      · rw [← h.1, UInt32.toNat_add, hout.2, hvalue, Nat.toUInt32_eq, UInt32.toNat_ofNat', hshift]
        omega

/-- A member that is shorter than its length prefix has a length that wraps around, and its end
is inside of that length. -/
theorem wrapped_of_lt {data : List UInt8} {len : UInt32} {hdrLen : ℕ}
    (h : scanLengthPrefixedData data = some (len, hdrLen)) (hlt : len.toNat < hdrLen) :
    HasWrappedLength data ∧ ∃ c rest, data.drop len.toNat = c :: rest ∧ c.toNat % 8 = 7 := by
  obtain ⟨n, form, hform, ⟨rest, rfl⟩, hlen, hfive, hsum, -, hpos⟩ := scanLengthPrefixedData_spec h
  have hbound := hform.lt_pow
  have hfull : form.length = 5 := by
    by_contra hne
    have hpow : 128 ^ form.length ≤ 128 ^ 4 := Nat.pow_le_pow_right (by decide) (by omega)
    have hsmall : (hdrLen + n) % 2 ^ 32 = hdrLen + n := Nat.mod_eq_of_lt (by omega)
    omega
  have hwrapped : WrappedLength form := ⟨n, hform, hfull, by omega⟩
  refine ⟨⟨form, hwrapped, (List.prefix_append form rest).isInfix⟩, ?_⟩
  obtain ⟨b, tail, rfl, htail⟩ := hwrapped.full
  obtain ⟨k, hk⟩ : ∃ k, len.toNat = k + 1 := ⟨len.toNat - 1, by omega⟩
  have hin : k < tail.length := by
    rw [List.length_cons] at hfull
    omega
  refine ⟨tail[k], tail.drop (k + 1) ++ rest, ?_, htail _ (List.getElem_mem hin)⟩
  rw [hk, List.cons_append, List.drop_succ_cons, List.drop_append_of_le_length (by omega),
    List.drop_eq_getElem_cons hin, List.cons_append]

/-- Where a member ends, whatever the input is. -/
theorem memberLength_spec {wireType : UInt8} {data : List UInt8} {out : ℕ × ℕ}
    (h : memberLength wireType data = some out) :
    wireType.toNat % 8 ≠ 7 ∧ 0 < out.1 ∧ out.1 ≤ data.length ∧ (out.1 < out.2 →
      HasWrappedLength data ∧ ∃ c rest, data.drop out.1 = c :: rest ∧ c.toNat % 8 = 7) := by
  rw [memberLength] at h
  split_ifs at h with hvarint hfixed64 hshort hprefixed hfixed32 hshort
  · obtain ⟨len, hlen, rfl⟩ := Option.map_eq_some_iff.mp h
    obtain ⟨i, hi, rfl⟩ := Option.map_eq_some_iff.mp hlen
    obtain ⟨hlt, -⟩ := List.findIdx?_eq_some_iff_getElem.mp hi
    rw [List.length_take] at hlt
    exact ⟨by rw [hvarint]; decide, by omega, by omega, by omega⟩
  · obtain rfl := Option.some.inj h
    exact ⟨by rw [hfixed64]; decide, by omega, by omega, by omega⟩
  · obtain ⟨found, hfound, rfl⟩ := Option.map_eq_some_iff.mp h
    obtain ⟨-, -, -, -, -, -, -, hle, hpos⟩ := scanLengthPrefixedData_spec hfound
    exact ⟨by rw [hprefixed]; decide, hpos, hle, wrapped_of_lt hfound⟩
  · obtain rfl := Option.some.inj h
    exact ⟨by rw [hfixed32]; decide, by omega, by omega, by omega⟩

/-- A member is shorter than its length prefix. -/
def RawMember.Wraps (member : RawMember) : Prop := member.data.length < member.lengthPrefixLen

/-- The input cannot be read on. -/
def Ends (input : List UInt8) : Prop := ∃ c rest, input = c :: rest ∧ c.toNat % 8 = 7

/-- The first member of any input: it has some of the bytes, and what is behind it is read
next.  Behind a member that is shorter than its length prefix nothing can be read. -/
theorem scanRaw_spec {b : UInt8} {data rest : List UInt8} {member : RawMember}
    (h : scanRaw b data = some (member, rest)) :
    rest <:+ b :: data ∧ member.data <:+: b :: data ∧ member.data ≠ [] ∧
      member.data.length + rest.length ≤ data.length ∧
      (member.Wraps → HasWrappedLength (b :: data) ∧ Ends rest) := by
  rw [scanRaw] at h
  split at h
  · exact absurd h (by simp)
  · next used tag wireType htag =>
      obtain ⟨out, hlength, hout⟩ := Option.map_eq_some_iff.mp h
      obtain ⟨hmember, hrest⟩ := Prod.mk.inj hout
      obtain ⟨-, hpos, hle, hwrap⟩ := memberLength_spec hlength
      have hused := one_le_of_parseTagAndWiretype htag
      have hsuffix : (b :: data).drop used <:+ b :: data := List.drop_suffix used _
      have hdata : member.data = ((b :: data).drop used).take out.1 := by rw [← hmember]
      have hlen : member.data.length = out.1 := by
        rw [hdata, List.length_take]
        omega
      have hbehind : ((b :: data).drop used).length + 1 ≤ data.length + 1 := by
        rw [List.length_drop, List.length_cons]
        rw [List.length_drop, List.length_cons] at hle
        omega
      refine ⟨?_, ?_, ?_, ?_, ?_⟩
      · rw [← hrest]
        exact (List.drop_suffix _ _).trans hsuffix
      · rw [hdata]
        exact (List.take_prefix _ _).isInfix.trans hsuffix.isInfix
      · rw [← List.length_pos_iff, hlen]
        exact hpos
      · rw [hlen, ← hrest, List.length_drop]
        omega
      · intro hshort
        rw [RawMember.Wraps, hlen, ← hmember] at hshort
        obtain ⟨hwrapped, hends⟩ := hwrap hshort
        exact ⟨hwrapped.mono hsuffix.isInfix, hrest ▸ hends⟩

/-- A byte whose lowest three bits are set is no key. -/
theorem scanRaw_wrapped {b : UInt8} (h : b.toNat % 8 = 7) (data : List UInt8) :
    scanRaw b data = none := by
  have hkind : (b &&& 7).toNat % 8 = 7 := by
    have hand : b.toNat &&& 7 = b.toNat % 8 := Nat.and_two_pow_sub_one_eq_mod b.toNat 3
    have hseven : (7 : UInt8).toNat = 7 := rfl
    rw [UInt8.toNat_and, hseven, hand]
    omega
  have hnone (input : List UInt8) : memberLength (b &&& 7) input = none := by
    cases hlength : memberLength (b &&& 7) input with
    | none => rfl
    | some out => exact absurd hkind (memberLength_spec hlength).1
  rw [scanRaw]
  split
  · rfl
  · next used tag wireType htag =>
      have hwire : wireType = b &&& 7 := by
        rw [parseTagAndWiretype] at htag
        split_ifs at htag with hb
        · simp only [Option.some.injEq, Prod.mk.injEq] at htag
          exact htag.2.2.symm
        · obtain ⟨found, -, hmap⟩ := Option.map_eq_some_iff.mp htag
          simp only [Prod.mk.injEq] at hmap
          exact hmap.2.2.symm
      simp only [hwire, hnone, Option.map_none]

/-! ## The first pass over any input -/

/-- What the first pass has made of an input, up to what is left of it. -/
structure Scanned (desc : MessageDescriptor S) (data : List UInt8) (ms : List RawMember)
    (st : ScanState desc.fields.length) (rest : List UInt8) : Prop where
  inv : ScanInv desc ms st
  countable : ∀ m ∈ ms, Countable desc m
  inside : ∀ m ∈ ms, m.data ≠ [] ∧ m.data <:+: data
  within : (ms.map fun m => m.data.length).sum + rest.length ≤ data.length
  suffix : rest <:+ data
  whole : (∀ m ∈ ms, ¬ m.Wraps) ∨ Ends rest

theorem scanned_start (desc : MessageDescriptor S) (data : List UInt8) :
    Scanned desc data [] (ScanState.start desc.fields.length) data where
  inv := scanInv_start desc
  countable := by simp
  inside := by simp
  within := by simp
  suffix := List.suffix_refl data
  whole := .inl (by simp)

/-- A member that is recorded can be counted. -/
theorem countable_of_recordMember {desc : MessageDescriptor S}
    {st st' : ScanState desc.fields.length} {member : RawMember}
    (h : recordMember desc st member = .ok st') : Countable desc member := by
  intro f hf
  rw [recordMember, findField_eq, hf] at h
  obtain ⟨place, -, h⟩ := bind_eq_ok.mp h
  obtain ⟨counts, hcounts, -⟩ := bind_eq_ok.mp h
  cases hcount : countElements (desc.fields.get f) member with
  | error e =>
      rw [Option.elim_some, hcount] at hcounts
      exact absurd hcounts (by simp [Except.map])
  | ok count => exact ⟨count, rfl⟩

/-- There was a place for a member that is recorded. -/
theorem room_of_recordMember {desc : MessageDescriptor S} {ms : List RawMember}
    {st st' : ScanState desc.fields.length} (hinv : ScanInv desc ms st) {member : RawMember}
    (h : recordMember desc st member = .ok st') : ms.length ≠ maxMembers := by
  intro hfull
  have hslab := nextSlab_eq hinv
  rw [if_pos hfull] at hslab
  obtain ⟨place, hplace, -⟩ := bind_eq_ok.mp h
  rw [hslab] at hplace
  exact absurd hplace (by simp)

/-- One turn of the first pass. -/
theorem Scanned.step {desc : MessageDescriptor S} {data : List UInt8} {ms : List RawMember}
    {st st' : ScanState desc.fields.length} {b : UInt8} {input rest : List UInt8}
    (h : Scanned desc data ms st (b :: input))
    (hstep : (scanner desc).step st b input = .ok (st', rest)) :
    ∃ member, Scanned desc data (ms ++ [member]) st' rest := by
  simp only [scanner] at hstep
  split at hstep
  · exact absurd hstep (by simp)
  · next member behind hraw =>
      cases hrecord : recordMember desc st member with
      | error e => simp [hrecord, Except.map] at hstep
      | ok out =>
          simp only [hrecord, Except.map, Except.ok.injEq, Prod.mk.injEq] at hstep
          obtain ⟨rfl, rfl⟩ := hstep
          have hcount := countable_of_recordMember hrecord
          obtain ⟨out', hout', hinv⟩ :=
            h.inv.recordMember (room_of_recordMember h.inv hrecord) hcount
          obtain rfl : out = out' := Except.ok.inj (hrecord.symm.trans hout')
          obtain ⟨hsuffix, hinfix, hnil, hlen, hwrap⟩ := scanRaw_spec hraw
          have hwithin := h.within
          have hbefore : ∀ m ∈ ms, ¬ m.Wraps := by
            refine h.whole.resolve_right ?_
            rintro ⟨c, input', hsame, hc⟩
            obtain ⟨rfl, rfl⟩ := List.cons.inj hsame
            exact absurd (hraw.symm.trans (scanRaw_wrapped hc _)) (by simp)
          refine ⟨member, hinv, ?_, ?_, ?_, hsuffix.trans h.suffix, ?_⟩
          · simpa only [List.forall_mem_append, List.forall_mem_singleton] using
              ⟨h.countable, hcount⟩
          · simpa only [List.forall_mem_append, List.forall_mem_singleton] using
              ⟨h.inside, hnil, hinfix.trans h.suffix.isInfix⟩
          · simp only [List.map_append, List.sum_append, List.map_singleton, List.sum_singleton]
            rw [List.length_cons] at hwithin
            omega
          · by_cases hwraps : member.Wraps
            · exact .inr (hwrap hwraps).2
            · exact .inl (by simpa only [List.forall_mem_append, List.forall_mem_singleton] using
                ⟨hbefore, hwraps⟩)

/-- The invariant of the first pass. -/
theorem scanned_next (desc : MessageDescriptor S) (data : List UInt8)
    (st : ScanState desc.fields.length) (b : UInt8) (input : List UInt8)
    (st' : ScanState desc.fields.length) (rest : List UInt8)
    (h : ∃ ms, Scanned desc data ms st (b :: input))
    (hstep : (scanner desc).step st b input = .ok (st', rest)) :
    ∃ ms, Scanned desc data ms st' rest := by
  obtain ⟨ms, hscanned⟩ := h
  obtain ⟨member, hnext⟩ := hscanned.step hstep
  exact ⟨_, hnext⟩

/-- What the first pass has made of an input that it got to the end of. -/
theorem scanned_run {desc : MessageDescriptor S} {data : List UInt8}
    {st : ScanState desc.fields.length}
    (h : (scanner desc).run (ScanState.start _) data = .ok st) :
    ∃ ms, Scanned desc data ms st [] :=
  Reader.run_inv (P := fun st rest => ∃ ms, Scanned desc data ms st rest)
    (scanned_next desc data) ⟨[], scanned_start desc data⟩ h

/-- A field of which a member can hold an array of numbers. -/
def FieldDescriptor.packable (field : FieldDescriptor S) : Bool :=
  match field.label with
  | .repeated _ => isPackableType field.type
  | _ => false

theorem countPackedElements_overrun {type : CType} {member : RawMember}
    (h : countPackedElements type member = .error .overrun) : member.Wraps := by
  by_contra hin
  have hbeyond : ¬ member.data.length < member.lengthPrefixLen := hin
  cases type with
  | uint32 => simp [countPackedElements, hbeyond] at h
  | int64 => simp [countPackedElements, hbeyond] at h
  | double =>
      simp only [countPackedElements, if_neg hbeyond] at h
      split_ifs at h
      exact absurd h (by simp)
  | string => simp [countPackedElements] at h
  | message M ops => simp [countPackedElements] at h

/-- Counting leaves the input only in an array of numbers with a length that wraps around. -/
theorem countElements_overrun {field : FieldDescriptor S} {member : RawMember}
    (h : countElements field member = .error .overrun) :
    field.packable = true ∧ member.Wraps := by
  rw [countElements] at h
  split at h
  · next array hlabel =>
      split_ifs at h with hholds
      rw [holdsArray, Bool.and_eq_true] at hholds
      exact ⟨by rw [FieldDescriptor.packable, hlabel]; exact hholds.2,
        countPackedElements_overrun h⟩
  · exact absurd h (by simp)

/-- Recording a member leaves the input only where its elements are counted. -/
theorem recordMember_overrun {desc : MessageDescriptor S} {st : ScanState desc.fields.length}
    {member : RawMember} (h : recordMember desc st member = .error .overrun) :
    ∃ f, countElements (desc.fields.get f) member = .error .overrun := by
  rw [recordMember] at h
  rcases bind_eq_error.mp h with hslab | ⟨place, -, h⟩
  · rw [nextSlab] at hslab
    split_ifs at hslab
    exact absurd hslab (by simp)
  · rcases bind_eq_error.mp h with hcounts | ⟨counts, -, h⟩
    · cases hfield : findField desc st.lastField member.tag with
      | none =>
          rw [hfield] at hcounts
          exact absurd hcounts (by simp)
      | some f =>
          rw [hfield, Option.elim_some] at hcounts
          exact ⟨f, map_eq_error.mp hcounts⟩
    · exact absurd h (by simp [pure, Except.pure])

/-- The first pass leaves the input only where it counts an array of numbers with a length that
wraps around. -/
theorem scan_overrun {desc : MessageDescriptor S} {data : List UInt8}
    (h : (scanner desc).run (ScanState.start _) data = .error .overrun) :
    HasWrappedLength data ∧ ∃ field ∈ desc.fields, field.packable = true := by
  obtain ⟨st, b, input, ⟨ms, hscanned⟩, hstep⟩ :=
    Reader.run_failed (P := fun st rest => ∃ ms, Scanned desc data ms st rest)
      (scanned_next desc data) ⟨[], scanned_start desc data⟩ h
  simp only [scanner] at hstep
  split at hstep
  · exact absurd hstep (by simp)
  · next member rest hraw =>
      obtain ⟨f, hf⟩ := recordMember_overrun (map_eq_error.mp hstep)
      obtain ⟨hpackable, hwraps⟩ := countElements_overrun hf
      obtain ⟨-, -, -, -, hwrapped⟩ := scanRaw_spec hraw
      exact ⟨(hwrapped hwraps).1.mono hscanned.suffix.isInfix, _, List.get_mem _ f, hpackable⟩

/-! ## Both passes over any input -/

/-- Once the first pass is through, the second one reads its members one by one, with room for
what they hold, and each of them is as long as its length prefix at least. -/
theorem messageUnpack_of_scan {desc : MessageDescriptor S} (hapart : desc.Apart)
    {data : List UInt8} (hsize : data.length < 2 ^ 32) {st : ScanState desc.fields.length}
    (h : (scanner desc).run (ScanState.start _) data = .ok st) :
    ∃ ms : List RawMember, (∀ m ∈ ms, ¬ m.Wraps ∧ m.data <:+: data) ∧
      messageUnpack desc data = decode desc ms := by
  obtain ⟨ms, hscanned⟩ := scanned_run h
  have hwhole : ∀ m ∈ ms, ¬ m.Wraps := by
    refine hscanned.whole.resolve_right ?_
    rintro ⟨c, rest, hnil, -⟩
    exact absurd hnil (by simp)
  have hcounts : ∀ f, st.counts f < 2 ^ 32 := by
    intro f
    have hle : (ms.map (elementsIn desc f)).sum ≤ (ms.map fun m => m.data.length).sum :=
      List.sum_le_sum fun m hm => elementsIn_le f (hscanned.inside m hm).1
    have hwithin := hscanned.within
    rw [hscanned.inv.counts f]
    omega
  have hroom : Room desc ([] ++ ms) (fun f n => n ≤ st.counts f % 2 ^ 32)
      (fun n => n ≤ st.nUnknown) := by
    refine ⟨fun f n hn => ?_, fun n hn => ?_⟩
    · rw [decide_eq_true_iff, Nat.mod_eq_of_lt (hcounts f), hscanned.inv.counts f]
      exact hn
    · rw [decide_eq_true_iff, hscanned.inv.unknown]
      exact hn
  have hfilled : Filled desc [] desc.messageInit :=
    ⟨fun f => hapart.new _ (List.get_mem _ f), by rw [hapart.newUnknown]; rfl⟩
  refine ⟨ms, fun m hm => ⟨hwhole m hm, (hscanned.inside m hm).2⟩, ?_⟩
  have hparse := parseMembers_eq hapart hroom hfilled hscanned.countable
  rw [messageUnpack, h]
  simp only [bind, Except.bind, hscanned.inv.members]
  exact hscanned.inv.decode_eq hparse

/-- The messages of a type are unpacked without leaving these inputs. -/
def CType.StaysInside (P : List UInt8 → Prop) : CType → Prop
  | .message _ ops => ∀ data, P data → ops.unpack data ≠ .error .overrun
  | _ => True

/-- A member that is as long as its prefix is parsed without leaving it. -/
theorem parseRequiredMember_ne_overrun {P : List UInt8 → Prop} {type : CType}
    (hsub : type.StaysInside P) {member : RawMember} (hwhole : ¬ member.Wraps)
    (hP : P (member.data.drop member.lengthPrefixLen)) (old : type.Member) (maybeClear : Bool) :
    parseRequiredMember member type old maybeClear ≠ .error .overrun := by
  have hbeyond : ¬ member.data.length < member.lengthPrefixLen := hwhole
  intro h
  cases type with
  | uint32 =>
      rw [parseRequiredMember] at h
      split_ifs at h
      exact absurd h (by simp)
  | int64 =>
      rw [parseRequiredMember] at h
      split_ifs at h
      exact absurd h (by simp)
  | double =>
      rw [parseRequiredMember] at h
      split_ifs at h
      exact absurd h (by simp)
  | string =>
      rw [parseRequiredMember, if_neg hbeyond] at h
      split_ifs at h
      exact absurd h (by simp)
  | message M ops =>
      have hstays := hsub _ hP
      rw [parseRequiredMember, if_neg hbeyond] at h
      by_cases hwire : member.wireType ≠ wireTypeLengthPrefixed
      · rw [if_pos hwire] at h
        exact absurd h (by simp)
      · rw [if_neg hwire] at h
        split at h
        · next e he =>
            rw [Except.error.injEq] at h
            exact hstays (h ▸ he)
        · split at h
          · split_ifs at h
            split at h
            · exact absurd h (by simp)
            · exact absurd h (by simp)
          · exact absurd h (by simp)

/-- Reading numbers leaves nothing. -/
theorem packedNumbers_ne_overrun {A : Type} (parse : ℕ → List UInt8 → A) (data : List UInt8) :
    (packedNumbers parse).run [] data ≠ .error .overrun := by
  intro h
  obtain ⟨array, b, input, -, hstep⟩ :=
    Reader.run_failed (P := fun _ _ => True) (fun _ _ _ _ _ _ _ => trivial) trivial h
  simp only [packedNumbers] at hstep
  split at hstep
  · exact absurd hstep (by simp)
  · exact absurd hstep (by simp)

theorem repeatedElements_ne_overrun {P : List UInt8 → Prop} {type : CType}
    (hsub : type.StaysInside P) {member : RawMember} (hwhole : ¬ member.Wraps)
    (hP : P (member.data.drop member.lengthPrefixLen)) :
    repeatedElements type member ≠ .error .overrun := by
  have hbeyond : ¬ member.data.length < member.lengthPrefixLen := hwhole
  intro h
  rw [repeatedElements, if_neg hbeyond] at h
  split_ifs at h
  · cases type with
    | uint32 => exact packedNumbers_ne_overrun _ _ h
    | int64 => exact packedNumbers_ne_overrun _ _ h
    | double => simp [packedElements] at h
    | string => simp [packedElements] at h
    | message M ops => simp [packedElements] at h
  · exact parseRequiredMember_ne_overrun hsub hwhole hP _ _ (map_eq_error.mp h)

/-- A member that is as long as its prefix is read without leaving it. -/
theorem readMember_ne_overrun {P : List UInt8 → Prop} {desc : MessageDescriptor S}
    (hsub : ∀ field ∈ desc.fields, field.type.StaysInside P) {member : RawMember}
    (hwhole : ¬ member.Wraps) (hP : P (member.data.drop member.lengthPrefixLen)) (message : S) :
    readMember desc message member ≠ .error .overrun := by
  intro h
  rw [readMember, parseMember] at h
  split at h
  · exact absurd h (by simp)
  · next f hf =>
      have hfield := hsub _ (List.get_mem _ f)
      have hparse := parseRequiredMember_ne_overrun hfield hwhole hP
      have hdone {x : S} : (pure x : Outcome S) ≠ .error .overrun := by
        simp [pure, Except.pure]
      cases hlabel : (desc.fields.get f).label with
      | required place =>
          simp only [parseField, hlabel] at h
          rcases bind_eq_error.mp h with h | ⟨elem, -, h⟩
          · exact hparse _ _ h
          · exact hdone h
      | optional quantifier place =>
          simp only [parseField, hlabel] at h
          rcases bind_eq_error.mp h with h | ⟨elem, -, h⟩
          · exact hparse _ _ h
          · exact hdone h
      | oneof case place set =>
          simp only [parseField, hlabel] at h
          rcases bind_eq_error.mp h with h | ⟨old, -, h⟩
          · rw [clearOneof] at h
            split_ifs at h
            split at h
            · exact absurd h (by simp)
            · exact absurd h (by simp)
          · rcases bind_eq_error.mp h with h | ⟨elem, -, h⟩
            · exact hparse _ _ h
            · exact hdone h
      | repeated array =>
          simp only [parseField, hlabel] at h
          rcases bind_eq_error.mp h with h | ⟨elems, -, h⟩
          · exact repeatedElements_ne_overrun hfield hwhole hP h
          · exact hdone h

/-- A loop that fails does so in one of its turns. -/
theorem foldlM_eq_error {A B : Type} {f : B → A → Outcome B} {e : Failure} {l : List A} {b : B}
    (h : l.foldlM f b = .error e) : ∃ a ∈ l, ∃ b', f b' a = .error e := by
  induction l generalizing b with
  | nil => exact absurd h (by simp [pure, Except.pure])
  | cons a l ih =>
      rw [List.foldlM_cons] at h
      rcases bind_eq_error.mp h with h | ⟨b', -, h⟩
      · exact ⟨a, by simp, b, h⟩
      · obtain ⟨a', ha', hfail⟩ := ih h
        exact ⟨a', by simp [ha'], hfail⟩

/-- Unpacking does not leave its input or its arrays: where no member can hold an array of
numbers, or no length wraps around, and where the same holds of the messages within. -/
theorem messageUnpack_ne_overrun {P : List UInt8 → Prop}
    (hsize : ∀ data, P data → data.length < 2 ^ 32)
    (hpart : ∀ data part, part <:+: data → P data → P part) {desc : MessageDescriptor S}
    (hapart : desc.Apart) (hsub : ∀ field ∈ desc.fields, field.type.StaysInside P)
    (hpacked : (∀ field ∈ desc.fields, field.packable = false) ∨
      ∀ data, P data → ¬ HasWrappedLength data) (data : List UInt8) (hdata : P data) :
    messageUnpack desc data ≠ .error .overrun := by
  intro h
  cases hscan : (scanner desc).run (ScanState.start _) data with
  | error e =>
      have hfailed : messageUnpack desc data = .error e := by
        rw [messageUnpack, hscan]
        rfl
      obtain rfl : e = .overrun := by simpa [hfailed] using h
      obtain ⟨hwrapped, field, hfield, hpackable⟩ := scan_overrun hscan
      rcases hpacked with hnone | hplain
      · exact absurd hpackable (by simp [hnone field hfield])
      · exact hplain data hdata hwrapped
  | ok st =>
      obtain ⟨ms, hms, hunpack⟩ := messageUnpack_of_scan hapart (hsize data hdata) hscan
      rw [hunpack, decode] at h
      split_ifs at h
      · obtain ⟨m, hm, message, hfail⟩ := foldlM_eq_error h
        obtain ⟨hwhole, hinfix⟩ := hms m hm
        have hcontents : m.data.drop m.lengthPrefixLen <:+: data :=
          (List.drop_suffix _ _).isInfix.trans hinfix
        exact readMember_ne_overrun hsub hwhole (hpart _ _ hcontents hdata) message hfail
      · exact absurd h (by simp)

/-! ## A length that wraps around -/

/-- The sum of a length that wraps around is less than the size of the length. -/
theorem scanLengthPrefixedData_wrapped {form : List UInt8} (h : WrappedLength form)
    (rest : List UInt8) :
    ∃ len, scanLengthPrefixedData (form ++ rest) = some (len, 5) ∧ len.toNat < 5 := by
  obtain ⟨n, hform, hfive, hn⟩ := h
  have hshift : (0 : UInt32).toNat = 0 := rfl
  have hval : (0 : UInt32).toNat < 2 ^ 0 := by decide
  obtain ⟨out, hout, hvalue⟩ := lengthLoop_eq 5 hform (by omega) rfl rest hshift hval 0
  rw [Nat.zero_add, hfive] at hout
  have hcast : Nat.toUInt32 5 = 5 := rfl
  have hlen : (Nat.toUInt32 5 + out).toNat + 2 ^ 32 = 5 + n % 2 ^ 32 := by
    have hfive' : (5 : UInt32).toNat = 5 := rfl
    rw [hcast, UInt32.toNat_add, hvalue, hfive', hshift]
    omega
  have hfits : ¬ ((Nat.toUInt32 5 + out).toNat > (form ++ rest).length ∨
      Nat.toUInt32 5 + out = 0) := by
    rw [← UInt32.toNat_inj, hshift, List.length_append]
    omega
  refine ⟨Nat.toUInt32 5 + out, ?_, by omega⟩
  rw [scanLengthPrefixedData, hout]
  simp only
  rw [if_neg hfits]

/-- A key and a length that wraps around are scanned as a member that is shorter than its
length prefix. -/
theorem scanRaw_of_wrapped (id : UInt32) {form : List UInt8} (h : WrappedLength form)
    (rest : List UInt8) {b : UInt8} {data : List UInt8}
    (hsame : b :: data = tagAndWireType id wireTypeLengthPrefixed ++ (form ++ rest)) :
    ∃ member behind, scanRaw b data = some (member, behind) ∧ member.tag = id ∧
      member.wireType = wireTypeLengthPrefixed ∧ member.Wraps := by
  obtain ⟨len, hscan, hlen⟩ := scanLengthPrefixedData_wrapped h rest
  have hkey := tagAndWireType_isVarint id (by decide : 2 < 8)
  have hfive : (tagAndWireType id wireTypeLengthPrefixed).length ≤ 5 :=
    length_tagAndWireType id wireTypeLengthPrefixed ▸ getTagSize_le id
  have htag := parseTagAndWiretype_eq hkey hfive (by decide) hsame
  have hwire : Nat.toUInt8 2 = wireTypeLengthPrefixed := rfl
  rw [hwire] at htag
  have hlength : memberLength wireTypeLengthPrefixed (form ++ rest) = some (len.toNat, 5) := by
    simp [memberLength, wireTypeVarint, wireType64Bit, wireTypeLengthPrefixed, hscan]
  have hid : Nat.toUInt32 id.toNat = id := UInt32.ofNat_toNat
  refine ⟨⟨id, wireTypeLengthPrefixed, 5, (form ++ rest).take len.toNat⟩,
    (form ++ rest).drop len.toNat, ?_, rfl, rfl, ?_⟩
  · rw [scanRaw, htag]
    simp only [hsame, List.drop_left, hlength, Option.map_some, hid]
  · have hshort : ((form ++ rest).take len.toNat).length < 5 :=
      Nat.lt_of_le_of_lt (List.length_take_le _ _) hlen
    exact hshort

/-- The numbers of a member that is shorter than its length prefix are counted beyond the end of
the input. -/
theorem countElements_wrapped {field : FieldDescriptor S} (hpacked : field.packable = true)
    (hnumbers : field.type ≠ .double) {member : RawMember}
    (hwire : member.wireType = wireTypeLengthPrefixed) (hwraps : member.Wraps) :
    countElements field member = .error .overrun := by
  have hbeyond : member.data.length < member.lengthPrefixLen := hwraps
  rw [FieldDescriptor.packable] at hpacked
  split at hpacked
  · next array hlabel =>
      have hholds : holdsArray field.type member.wireType = true := by
        rw [holdsArray, hwire, hpacked]
        rfl
      rw [countElements, hlabel]
      simp only [hholds, if_true]
      cases htype : field.type with
      | uint32 => simp [countPackedElements, hbeyond]
      | int64 => simp [countPackedElements, hbeyond]
      | double => exact absurd htype hnumbers
      | string => simp [htype, isPackableType] at hpacked
      | message M ops => simp [htype, isPackableType] at hpacked
  · exact absurd hpacked (by simp)

/-- An array of numbers with a length that wraps around is counted beyond the end of the input,
wherever it stands. -/
theorem messageUnpack_wrapped {desc : MessageDescriptor S} {rs : List Wire.Record}
    {bytes : List UInt8} (h : Wire.Stream rs bytes) (hsize : bytes.length < 2 ^ 32)
    (hmax : rs.length < maxMembers) (hcount : ∀ r ∈ rs, Countable desc (memberOf r))
    {f : Fin desc.fields.length} (hpacked : (desc.fields.get f).packable = true)
    (hnumbers : (desc.fields.get f).type ≠ .double) {form : List UInt8} (hform : WrappedLength form)
    (rest : List UInt8) :
    messageUnpack desc (bytes ++
      (tagAndWireType (desc.fields.get f).id wireTypeLengthPrefixed ++ (form ++ rest))) =
        .error .overrun := by
  have hcount' : ∀ m ∈ rs.map memberOf, Countable desc m := by
    intro m hm
    obtain ⟨r, hr, rfl⟩ := List.mem_map.mp hm
    exact hcount r hr
  have hfits : ([] : List RawMember).length + (rs.map memberOf).length ≤ maxMembers := by
    simpa using Nat.le_of_lt hmax
  obtain ⟨st, hst, hinv⟩ := recordMembers (scanInv_start desc) hfits hcount'
  have hslab := nextSlab_eq hinv
  rw [if_neg (by simp; omega)] at hslab
  obtain ⟨which, place, hnext, -⟩ := hslab
  have hkey := (tagAndWireType_isVarint (desc.fields.get f).id (by decide : 2 < 8)).ne_nil
  obtain ⟨b, data, hdata⟩ := List.exists_cons_of_ne_nil
    (List.append_ne_nil_of_left_ne_nil hkey (form ++ rest))
  obtain ⟨member, behind, hraw, htag, hwire, hwraps⟩ := scanRaw_of_wrapped _ hform rest hdata.symm
  have helements := countElements_wrapped hpacked hnumbers hwire hwraps
  have hlookup : desc.lookup member.tag = some f :=
    MessageDescriptor.lookup_eq_some_iff.mpr htag.symm
  have hrecord : recordMember desc st member = .error .overrun := by
    simp only [recordMember, findField_eq, hlookup, hnext, helements, bind, Except.bind,
      Option.elim, Except.map]
  have hscan : (scanner desc).run st (b :: data) = .error .overrun := by
    refine Reader.run_error ?_
    simp only [scanner, hraw, hrecord, Except.map]
  have hinput : tagAndWireType (desc.fields.get f).id wireTypeLengthPrefixed ++ (form ++ rest) =
      b :: data := hdata
  rw [messageUnpack, hinput, scanner_run_append h hsize, hst]
  simp only [bind, Except.bind, hscan]

/-! ## What any writer may have written -/

/-- Members that are recorded are not too many, and can be counted. -/
theorem recordMembers_ok {desc : MessageDescriptor S} {before ms : List RawMember}
    {st st' : ScanState desc.fields.length} (hinv : ScanInv desc before st)
    (hbefore : before.length ≤ maxMembers)
    (h : ms.foldlM (recordMember desc) st = .ok st') :
    before.length + ms.length ≤ maxMembers ∧ ∀ m ∈ ms, Countable desc m := by
  induction ms generalizing before st with
  | nil => exact ⟨hbefore, by simp⟩
  | cons m ms ih =>
      rw [List.foldlM_cons] at h
      obtain ⟨st₁, hst₁, h⟩ := bind_eq_ok.mp h
      have hcount := countable_of_recordMember hst₁
      have hroom := room_of_recordMember hinv hst₁
      obtain ⟨st₂, hst₂, hinv'⟩ := hinv.recordMember hroom hcount
      obtain rfl : st₁ = st₂ := Except.ok.inj (hst₁.symm.trans hst₂)
      obtain ⟨hlen, hcounts⟩ := ih hinv' (by simp; omega) h
      rw [List.length_append, List.length_singleton] at hlen
      refine ⟨by rw [List.length_cons]; omega, ?_⟩
      simpa only [List.forall_mem_cons] using ⟨hcount, hcounts⟩

/-- The member of a record is as long as its prefix at least. -/
theorem not_wraps_memberOf (r : Wire.Record) : ¬ (memberOf r).Wraps := by
  obtain ⟨number, payload⟩ := r
  have hle : (memberOf ⟨number, payload⟩).lengthPrefixLen ≤
      (memberOf ⟨number, payload⟩).data.length := by
    cases payload with
    | varint form => exact Nat.zero_le _
    | fixed64 word => exact Nat.zero_le _
    | fixed32 word => exact Nat.zero_le _
    | delimited lengthForm contents =>
        simp [memberOf, Wire.Payload.bytes]
  exact Nat.not_lt.mpr hle

/-- Unpacking what any writer has written is reading its records one by one, as long as they are
not too many for the slabs and the arrays of numbers among them can be counted; otherwise there
is no message. -/
theorem messageUnpack_stream {desc : MessageDescriptor S} (hapart : desc.Apart)
    {rs : List Wire.Record} {bytes : List UInt8} (h : Wire.Stream rs bytes)
    (hsize : bytes.length < 2 ^ 32) :
    ((rs.length ≤ maxMembers ∧ ∀ r ∈ rs, Countable desc (memberOf r)) →
      messageUnpack desc bytes = decode desc (rs.map memberOf)) ∧
    (¬ (rs.length ≤ maxMembers ∧ ∀ r ∈ rs, Countable desc (memberOf r)) →
      messageUnpack desc bytes = .error .null) := by
  refine ⟨fun hall => messageUnpack_of_stream hapart h hsize hall.1 hall.2, fun hnot => ?_⟩
  have hscan := scanner_run h hsize (ScanState.start desc.fields.length)
  cases hrecords : (rs.map memberOf).foldlM (recordMember desc) (ScanState.start _) with
  | ok st =>
      obtain ⟨hlen, hcounts⟩ := recordMembers_ok (scanInv_start desc) (Nat.zero_le _) hrecords
      refine absurd ⟨by simpa using hlen, fun r hr => ?_⟩ hnot
      exact hcounts _ (List.mem_map_of_mem hr)
  | error e =>
      obtain ⟨m, hm, st, hfail⟩ := foldlM_eq_error hrecords
      obtain ⟨r, -, rfl⟩ := List.mem_map.mp hm
      have hnull : e = .null := by
        cases e with
        | null => rfl
        | overrun =>
            obtain ⟨f, hf⟩ := recordMember_overrun hfail
            exact absurd (countElements_overrun hf).2 (not_wraps_memberOf r)
      rw [messageUnpack, hscan, hrecords, hnull]
      rfl

/-- A `Protocol` of which another writer packed the ports, and wrote a key with two bytes. -/
theorem messageUnpack_stream_packed :
    messageUnpack Analysis.protocolDescriptor
        ([0x0A, 1, 0x68] ++ ([0x90, 0x00, 5] ++ ([0x22, 3, 0x50, 0xBB, 0x03] ++ []))) =
      decode Analysis.protocolDescriptor
        (([⟨1, .delimited [1] [0x68]⟩, ⟨2, .varint [5]⟩, ⟨4, .delimited [3] [0x50, 0xBB, 0x03]⟩] :
          List Wire.Record).map memberOf) := by
  have hstream : Wire.Stream
      [⟨1, .delimited [1] [0x68]⟩, ⟨2, .varint [5]⟩, ⟨4, .delimited [3] [0x50, 0xBB, 0x03]⟩]
      ([0x0A, 1, 0x68] ++ ([0x90, 0x00, 5] ++ ([0x22, 3, 0x50, 0xBB, 0x03] ++ []))) := by
    refine .cons ?_ (.cons ?_ (.cons ?_ .nil))
    · exact ⟨[0x0A], .last (b := 0x0A) (by decide), by decide,
        ⟨by decide, .last (b := 1) (by decide)⟩, rfl⟩
    · exact ⟨[0x90, 0x00], .more (b := 0x90) (n := 0) (by decide) (.last (b := 0) (by decide)),
        by decide, ⟨by decide, _, .last (b := 5) (by decide)⟩, rfl⟩
    · exact ⟨[0x22], .last (b := 0x22) (by decide), by decide,
        ⟨by decide, .last (b := 3) (by decide)⟩, rfl⟩
  refine (messageUnpack_stream Analysis.protocolDescriptor_apart hstream (by decide)).1
    ⟨by decide, ?_⟩
  intro r hr f hf
  simp only [List.mem_cons, List.not_mem_nil, or_false] at hr
  rcases hr with rfl | rfl | rfl <;> fin_cases f <;> exact ⟨_, rfl⟩

end MonitoringTool.Sniffer.Protobuf
