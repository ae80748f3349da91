import MonitoringTool.Sniffer.Protobuf.Scan

/-!
# The arrays of the repeated fields

The first pass counts the elements of a repeated field, its array is allocated with that
count, and the second pass writes into it without a look at its end.  It never gets there:
what the second pass writes is what the first pass counted (`length_repeatedElements`), so
unpacking a stream is reading its records one by one, with room for all of them
(`messageUnpack_of_stream`).
-/

namespace MonitoringTool.Sniffer.Protobuf

open Lib Wire

variable {S : Type}

/-! ## Counting the elements of a packed member -/

/-- The length of a base-128 number ends at its first byte without the top bit. -/
theorem countP_of_scanVarint {data : List UInt8} {len : ℕ} (h : scanVarint data = some len) :
    maxB128Numbers data = maxB128Numbers (data.drop len) + 1 := by
  obtain ⟨i, hi, rfl⟩ := Option.map_eq_some_iff.mp h
  obtain ⟨hlt, hend, hbefore⟩ := List.findIdx?_eq_some_iff_getElem.mp hi
  rw [List.length_take] at hlt
  simp only [List.getElem_take] at hend hbefore
  have hsplit : data = data.take i ++ data[i] :: data.drop (i + 1) := by
    rw [List.getElem_cons_drop, List.take_append_drop]
  have hnone : (data.take i).countP (fun b => decide (b &&& 0x80 = 0)) = 0 := by
    rw [List.countP_eq_zero]
    intro b hb
    obtain ⟨j, hj, rfl⟩ := List.getElem_of_mem hb
    rw [List.length_take] at hj
    rw [List.getElem_take]
    exact hbefore j (by omega)
  conv_lhs => rw [hsplit]
  simp only [maxB128Numbers, List.countP_append, List.countP_cons, hnone, hend, if_true,
    Nat.zero_add]

/-- As many numbers are read as there are bytes that end one. -/
theorem length_packedNumbers {A : Type} {parse : ℕ → List UInt8 → A} {data : List UInt8}
    {elems : List A} (h : (packedNumbers parse).run [] data = .ok elems) :
    elems.length = maxB128Numbers data := by
  have hinv := Reader.run_inv
    (P := fun array rest => array.length + maxB128Numbers rest = maxB128Numbers data)
    (fun array b rest array' rest' hsum hstep => ?_) (by simp) h
  · simpa [maxB128Numbers] using hinv
  · simp only [packedNumbers] at hstep
    split at hstep
    · exact absurd hstep (by simp)
    · next len hlen =>
        rw [Except.ok.injEq, Prod.mk.injEq] at hstep
        have hcount := countP_of_scanVarint hlen
        rw [← hstep.1, ← hstep.2, List.length_append, List.length_singleton]
        omega

theorem length_packedElements {type : CType} {member : RawMember} {count : ℕ}
    (hcount : countPackedElements type member = .ok count) {elems : List type.Elem}
    (helems : packedElements member type = .ok elems) : elems.length = count := by
  cases type with
  | uint32 =>
      simp only [countPackedElements] at hcount
      split_ifs at hcount
      rw [Except.ok.injEq] at hcount
      exact hcount ▸ length_packedNumbers helems
  | int64 =>
      simp only [countPackedElements] at hcount
      split_ifs at hcount
      rw [Except.ok.injEq] at hcount
      exact hcount ▸ length_packedNumbers helems
  | double =>
      simp only [countPackedElements] at hcount
      split_ifs at hcount
      simp only [packedElements, Except.ok.injEq] at helems hcount
      rw [← helems, ← hcount, List.length_map, List.length_range]
  | string => simp [countPackedElements] at hcount
  | message M ops => simp [countPackedElements] at hcount

/-- The second pass writes the elements that the first pass counted. -/
theorem length_repeatedElements {field : FieldDescriptor S} {array : Lens S (List field.type.Elem)}
    (hlabel : field.label = .repeated array) {member : RawMember} {count : ℕ}
    (hcount : countElements field member = .ok count) {elems : List field.type.Elem}
    (helems : repeatedElements field.type member = .ok elems) : elems.length = count := by
  simp only [countElements, hlabel] at hcount
  rw [repeatedElements] at helems
  split_ifs at hcount helems with hholds hbeyond
  · exact length_packedElements hcount helems
  · rw [Except.ok.injEq] at hcount
    cases hparse : parseRequiredMember member field.type field.type.zero false with
    | error e => simp [hparse, Except.map] at helems
    | ok elem =>
        simp only [hparse, Except.map, Except.ok.injEq] at helems
        rw [← helems, ← hcount]
        rfl

/-! ## What a member overwrites -/

/-- The elements in the array of a repeated field. -/
def FieldDescriptor.count (field : FieldDescriptor S) (message : S) : ℕ :=
  match field.label with
  | .repeated array => (array.get message).length
  | _ => 0

/-- The field was overwritten, and nothing else. -/
def FieldDescriptor.Sets (field : FieldDescriptor S) (message message' : S) : Prop :=
  match field.label with
  | .required place => ∃ value, message' = place.set value message
  | .optional quantifier place =>
      ∃ value, message' = quantifier.elim (place.set value message) fun has =>
        has.set true (place.set value message)
  | .oneof _ _ set => ∃ value, message' = set value message
  | .repeated array => ∃ elems, message' = array.set elems message

/-- The members of different fields lie apart in the structure, and no array holds anything
in a new one. -/
structure MessageDescriptor.Apart (desc : MessageDescriptor S) : Prop where
  fields : ∀ f ∈ desc.fields, ∀ g ∈ desc.fields, f.id ≠ g.id →
    ∀ message message', g.Sets message message' → f.count message' = f.count message
  ofUnknown : ∀ f ∈ desc.fields, ∀ unknown message,
    f.count (desc.unknownFields.set unknown message) = f.count message
  unknown : ∀ g ∈ desc.fields, ∀ message message', g.Sets message message' →
    desc.unknownFields.get message' = desc.unknownFields.get message
  new : ∀ f ∈ desc.fields, f.count desc.messageInit = 0
  newUnknown : desc.unknownFields.get desc.messageInit = []

/-- Parsing a member of a field overwrites that field; of a repeated one, it writes the
elements that were counted behind those of the array. -/
theorem parseField_sets {desc : MessageDescriptor S} {field : FieldDescriptor S}
    {room : ℕ → Bool} {member : RawMember} {message message' : S} {count : ℕ}
    (hcount : countElements field member = .ok count)
    (h : parseField desc field room member message = .ok message') :
    field.Sets message message' ∧ field.count message' = field.count message + count := by
  cases hlabel : field.label with
  | required place =>
      simp only [countElements, hlabel, Except.ok.injEq] at hcount
      simp only [parseField, hlabel, bind_eq_ok] at h
      obtain ⟨elem, -, hset⟩ := h
      simp only [FieldDescriptor.Sets, FieldDescriptor.count, hlabel]
      exact ⟨⟨_, (Except.ok.inj hset).symm⟩, by omega⟩
  | optional quantifier place =>
      simp only [countElements, hlabel, Except.ok.injEq] at hcount
      simp only [parseField, hlabel, bind_eq_ok] at h
      obtain ⟨elem, -, hset⟩ := h
      simp only [FieldDescriptor.Sets, FieldDescriptor.count, hlabel]
      exact ⟨⟨_, (Except.ok.inj hset).symm⟩, by omega⟩
  | oneof case place set =>
      simp only [countElements, hlabel, Except.ok.injEq] at hcount
      simp only [parseField, hlabel, bind_eq_ok] at h
      obtain ⟨old, -, elem, -, hset⟩ := h
      simp only [FieldDescriptor.Sets, FieldDescriptor.count, hlabel]
      exact ⟨⟨_, (Except.ok.inj hset).symm⟩, by omega⟩
  | repeated array =>
      simp only [parseField, hlabel, bind_eq_ok] at h
      obtain ⟨elems, helems, hset⟩ := h
      have hlength := length_repeatedElements hlabel hcount helems
      simp only [FieldDescriptor.Sets, FieldDescriptor.count, hlabel]
      split_ifs at hset
      have hmessage := Except.ok.inj hset
      refine ⟨⟨_, hmessage.symm⟩, ?_⟩
      rw [← hmessage, Lens.append, Lens.get_set, List.length_append, hlength]

/-! ## Reading the records one by one -/

/-- Parse a member into the structure, with room for whatever it holds. -/
def readMember (desc : MessageDescriptor S) (message : S) (member : RawMember) : Outcome S :=
  parseMember desc (fun _ _ => true) (fun _ => true) message (withField desc member)

/-- What the members of a message say, read one by one; a required field is among them. -/
def decode (desc : MessageDescriptor S) (ms : List RawMember) : Outcome S :=
  if ∀ f, (desc.fields.get f).isRequired = true → ∃ m ∈ ms, desc.lookup m.tag = some f then
    ms.foldlM (readMember desc) desc.messageInit
  else .error .null

/-- The room that is needed for what the members up to some point hold is there. -/
structure Room (desc : MessageDescriptor S) (ms : List RawMember)
    (room : Fin desc.fields.length → ℕ → Bool) (roomUnknown : ℕ → Bool) : Prop where
  arrays : ∀ f n, n ≤ (ms.map (elementsIn desc f)).sum → room f n = true
  unknown : ∀ n, n ≤ (ms.countP fun m => (desc.lookup m.tag).isNone) → roomUnknown n = true

/-- The arrays hold what the members so far held. -/
structure Filled (desc : MessageDescriptor S) (ms : List RawMember) (message : S) : Prop where
  arrays : ∀ f, (desc.fields.get f).count message = (ms.map (elementsIn desc f)).sum
  unknown : (desc.unknownFields.get message).length =
    ms.countP fun m => (desc.lookup m.tag).isNone

/-- With room for what it writes, a field is parsed as with room for anything. -/
theorem parseField_room {desc : MessageDescriptor S} {field : FieldDescriptor S}
    {room : ℕ → Bool} {member : RawMember} {message : S} {count : ℕ}
    (hcount : countElements field member = .ok count)
    (hroom : room (field.count message + count) = true) :
    parseField desc field room member message =
      parseField desc field (fun _ => true) member message := by
  cases hlabel : field.label with
  | required place => simp only [parseField, hlabel]
  | optional quantifier place => simp only [parseField, hlabel]
  | oneof case place set => simp only [parseField, hlabel]
  | repeated array =>
      simp only [parseField, hlabel]
      cases helems : repeatedElements field.type member with
      | error e => rfl
      | ok elems =>
          have hlength := length_repeatedElements hlabel hcount helems
          simp only [FieldDescriptor.count, hlabel] at hroom
          simp only [bind, Except.bind, hlength, hroom]

theorem length_append_unknown {desc : MessageDescriptor S} {message : S} {field : UnknownField} :
    (desc.unknownFields.get (desc.unknownFields.append message [field])).length =
      (desc.unknownFields.get message).length + 1 := by
  rw [Lens.append, Lens.get_set, List.length_append, List.length_singleton]

/-- The next member finds the room that it needs. -/
theorem parseMember_eq {desc : MessageDescriptor S} {before after : List RawMember}
    {member : RawMember} {room : Fin desc.fields.length → ℕ → Bool} {roomUnknown : ℕ → Bool}
    (hroom : Room desc (before ++ member :: after) room roomUnknown) {message : S}
    (hfilled : Filled desc before message) (hcount : Countable desc member) :
    parseMember desc room roomUnknown message (withField desc member) =
      readMember desc message member := by
  cases hlookup : desc.lookup member.tag with
  | none =>
      have hneeded := hroom.unknown ((desc.unknownFields.get message).length + 1) (by
        rw [hfilled.unknown, List.countP_append, List.countP_cons]
        simp [hlookup])
      simp only [readMember, parseMember, withField, hlookup, hneeded]
  | some f =>
      obtain ⟨count, hcount⟩ := hcount f hlookup
      have hneeded := hroom.arrays f ((desc.fields.get f).count message + count) (by
        rw [hfilled.arrays, List.map_append, List.sum_append, List.map_cons, List.sum_cons,
          elementsIn_of_count hlookup hcount]
        omega)
      simp only [readMember, parseMember, withField, hlookup]
      exact parseField_room hcount hneeded

/-- Reading a member fills the arrays by what it holds. -/
theorem Filled.readMember {desc : MessageDescriptor S} (hapart : desc.Apart)
    {before : List RawMember} {member : RawMember} {message message' : S}
    (hfilled : Filled desc before message) (hcount : Countable desc member)
    (h : readMember desc message member = .ok message') :
    Filled desc (before ++ [member]) message' := by
  cases hlookup : desc.lookup member.tag with
  | none =>
      simp only [Protobuf.readMember, parseMember, withField, hlookup, if_true,
        Except.ok.injEq] at h
      subst h
      refine ⟨fun f => ?_, ?_⟩
      · have hzero : elementsIn desc f member = 0 := elementsIn_of_ne (by simp [hlookup])
        rw [Lens.append, hapart.ofUnknown _ (List.get_mem _ f), hfilled.arrays f]
        simp [hzero]
      · rw [length_append_unknown, hfilled.unknown]
        simp [hlookup]
  | some f =>
      obtain ⟨count, hcount⟩ := hcount f hlookup
      simp only [Protobuf.readMember, parseMember, withField, hlookup] at h
      obtain ⟨hsets, hmore⟩ := parseField_sets hcount h
      refine ⟨fun g => ?_, ?_⟩
      · rw [List.map_append, List.sum_append, List.map_singleton, List.sum_singleton,
          ← hfilled.arrays g]
        by_cases hg : g = f
        · rw [hg, hmore, elementsIn_of_count hlookup hcount]
        · have hid : (desc.fields.get g).id ≠ (desc.fields.get f).id := by
            intro hsame
            have hf := MessageDescriptor.lookup_eq_some_iff.mp hlookup
            have hg' := MessageDescriptor.lookup_eq_some_iff.mpr (hsame.trans hf)
            exact hg (Option.some.inj (hg'.symm.trans hlookup))
          have hother : elementsIn desc g member = 0 := elementsIn_of_ne (by
            rw [hlookup]
            simpa using Ne.symm hg)
          rw [hapart.fields _ (List.get_mem _ g) _ (List.get_mem _ f) hid _ _ hsets, hother,
            Nat.add_zero]
      · rw [hapart.unknown _ (List.get_mem _ f) _ _ hsets, hfilled.unknown]
        simp [hlookup]

/-- With the room that is needed, the second pass reads the members one by one. -/
theorem parseMembers_eq {desc : MessageDescriptor S} (hapart : desc.Apart)
    {before ms : List RawMember} {room : Fin desc.fields.length → ℕ → Bool}
    {roomUnknown : ℕ → Bool} (hroom : Room desc (before ++ ms) room roomUnknown) {message : S}
    (hfilled : Filled desc before message) (hcount : ∀ m ∈ ms, Countable desc m) :
    (ms.map (withField desc)).foldlM (parseMember desc room roomUnknown) message =
      ms.foldlM (readMember desc) message := by
  induction ms generalizing before message with
  | nil => rfl
  | cons m ms ih =>
      have hm := hcount m (by simp)
      rw [List.map_cons, List.foldlM_cons, List.foldlM_cons, parseMember_eq hroom hfilled hm]
      cases hread : readMember desc message m with
      | error e => rfl
      | ok message' =>
          have hroom' : Room desc ((before ++ [m]) ++ ms) room roomUnknown := by
            rwa [List.append_assoc, List.singleton_append]
          exact ih hroom' (hfilled.readMember hapart hm hread) fun m' hm' =>
            hcount m' (by simp [hm'])

/-! ## Both passes over a stream -/

/-- A packed member holds no more elements than it has bytes. -/
theorem countPackedElements_le {type : CType} {member : RawMember} {count : ℕ}
    (h : countPackedElements type member = .ok count) : count ≤ member.data.length := by
  have hcontents : (member.data.drop member.lengthPrefixLen).length ≤ member.data.length := by
    rw [List.length_drop]
    omega
  have hnumbers : maxB128Numbers (member.data.drop member.lengthPrefixLen) ≤ member.data.length :=
    Nat.le_trans List.countP_le_length hcontents
  cases type with
  | uint32 =>
      simp only [countPackedElements] at h
      split_ifs at h
      exact Except.ok.inj h ▸ hnumbers
  | int64 =>
      simp only [countPackedElements] at h
      split_ifs at h
      exact Except.ok.inj h ▸ hnumbers
  | double =>
      simp only [countPackedElements] at h
      split_ifs at h
      exact Except.ok.inj h ▸ Nat.le_trans (Nat.div_le_self _ 8) hcontents
  | string => simp [countPackedElements] at h
  | message M ops => simp [countPackedElements] at h

/-- A member holds no more elements than it has bytes. -/
theorem elementsIn_le {desc : MessageDescriptor S} (f : Fin desc.fields.length)
    {member : RawMember} (hbytes : member.data ≠ []) :
    elementsIn desc f member ≤ member.data.length := by
  have hpos := List.length_pos_iff.mpr hbytes
  by_cases hlookup : desc.lookup member.tag = some f
  · cases hcount : countElements (desc.fields.get f) member with
    | error e =>
        rw [elementsIn, if_pos hlookup, hcount]
        exact Nat.zero_le _
    | ok count =>
        rw [elementsIn_of_count hlookup hcount]
        rw [countElements] at hcount
        split at hcount
        · split_ifs at hcount
          · exact countPackedElements_le hcount
          · exact Except.ok.inj hcount ▸ hpos
        · exact Except.ok.inj hcount ▸ Nat.zero_le _
  · rw [elementsIn_of_ne hlookup]
    exact Nat.zero_le _

theorem memberOf_data_ne_nil {r : Record} {bytes : List UInt8} (h : r.Writes bytes) :
    (memberOf r).data ≠ [] := by
  obtain ⟨key, -, -, hvalid, -⟩ := h
  exact hvalid.bytes_ne_nil

/-- A stream holds no more elements than it has bytes. -/
theorem sum_elementsIn_le {desc : MessageDescriptor S} (f : Fin desc.fields.length)
    {rs : List Record} {bytes : List UInt8} (h : Stream rs bytes) :
    ((rs.map memberOf).map (elementsIn desc f)).sum ≤ bytes.length := by
  induction h with
  | nil => exact Nat.le_refl 0
  | @cons r rs bytes rest hr _ ih =>
      have hle := elementsIn_le f (memberOf_data_ne_nil hr)
      have hdata : (memberOf r).data.length ≤ bytes.length := by
        obtain ⟨key, -, -, -, rfl⟩ := hr
        rw [List.length_append]
        exact Nat.le_add_left _ _
      simp only [List.map_cons, List.sum_cons, List.length_append]
      omega

/-- The bitmap of the first pass tells whether every required field is among the members. -/
theorem ScanInv.requiredFieldsSet_iff {desc : MessageDescriptor S} {ms : List RawMember}
    {st : ScanState desc.fields.length} (h : ScanInv desc ms st) :
    requiredFieldsSet desc st = true ↔ ∀ f, (desc.fields.get f).isRequired = true →
      ∃ m ∈ ms, desc.lookup m.tag = some f := by
  rw [requiredFieldsSet, List.all_eq_true]
  simp only [List.mem_finRange, true_implies, Bool.or_eq_true, Bool.not_eq_true']
  refine forall_congr' fun f => ?_
  rw [h.required f]
  cases (desc.fields.get f).isRequired <;> simp

/-- What is left to do behind the first pass, when the second one reads the members one by
one. -/
theorem ScanInv.decode_eq {desc : MessageDescriptor S} {ms : List RawMember}
    {st : ScanState desc.fields.length} (h : ScanInv desc ms st) {out : Outcome S}
    (hout : out = ms.foldlM (readMember desc) desc.messageInit) :
    (if requiredFieldsSet desc st then out else .error .null) = decode desc ms := by
  have hrequired := h.requiredFieldsSet_iff
  rw [decode]
  by_cases hall : requiredFieldsSet desc st = true
  · rw [if_pos hall, if_pos (hrequired.mp hall), hout]
  · rw [if_neg hall, if_neg fun hf => hall (hrequired.mpr hf)]

/-- Unpacking a stream is reading its records one by one: the first pass counts right, so the
second one never leaves an array. -/
theorem messageUnpack_of_stream {desc : MessageDescriptor S} (hapart : desc.Apart)
    {rs : List Record} {bytes : List UInt8} (h : Stream rs bytes) (hsize : bytes.length < 2 ^ 32)
    (hmax : rs.length ≤ maxMembers) (hcount : ∀ r ∈ rs, Countable desc (memberOf r)) :
    messageUnpack desc bytes = decode desc (rs.map memberOf) := by
  have hcount' : ∀ m ∈ rs.map memberOf, Countable desc m := by
    intro m hm
    obtain ⟨r, hr, rfl⟩ := List.mem_map.mp hm
    exact hcount r hr
  have hfits : ([] : List RawMember).length + (rs.map memberOf).length ≤ maxMembers := by
    simpa using hmax
  obtain ⟨st, hst, hinv⟩ := recordMembers (scanInv_start desc) hfits hcount'
  rw [List.nil_append] at hinv
  have hscan := (scanner_run h hsize (ScanState.start _)).trans hst
  have hroom : Room desc ([] ++ rs.map memberOf) (fun f n => n ≤ st.counts f % 2 ^ 32)
      (fun n => n ≤ st.nUnknown) := by
    refine ⟨fun f n hn => ?_, fun n hn => ?_⟩
    · have hle := sum_elementsIn_le f h
      rw [decide_eq_true_iff, hinv.counts f, Nat.mod_eq_of_lt (by omega)]
      exact hn
    · rw [decide_eq_true_iff, hinv.unknown]
      exact hn
  have hfilled : Filled desc [] desc.messageInit :=
    ⟨fun f => hapart.new _ (List.get_mem _ f), by rw [hapart.newUnknown]; rfl⟩
  have hparse := parseMembers_eq hapart hroom hfilled hcount'
  rw [messageUnpack, hscan]
  simp only [bind, Except.bind, hinv.members]
  exact hinv.decode_eq hparse

end MonitoringTool.Sniffer.Protobuf
