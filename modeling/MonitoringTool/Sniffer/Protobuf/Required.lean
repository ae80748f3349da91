import MonitoringTool.Sniffer.Protobuf.Overrun

/-!
# What every unpacked message has

`connection_handler` compares the texts of a message with `strcmp`, without asking whether they
are there.  They are: whatever the input was, the required texts of a message that comes out of
`protobuf_c_message_unpack` are set, and so are those of the messages within.
-/

namespace MonitoringTool.Sniffer.Protobuf

open Lib

variable {S : Type} {desc : MessageDescriptor S}

/-! ## Reading member by member -/

/-- A message that comes out was put together from members of its input. -/
theorem decode_of_messageUnpack (hapart : desc.Apart) {data : List UInt8}
    (hsize : data.length < 2 ^ 32) {message : S} (h : messageUnpack desc data = .ok message) :
    ∃ ms : List RawMember, (∀ m ∈ ms, m.data <:+: data) ∧ decode desc ms = .ok message := by
  cases hscan : (scanner desc).run (ScanState.start _) data with
  | error e =>
      rw [messageUnpack, hscan] at h
      exact absurd h (by simp [bind, Except.bind])
  | ok st =>
      obtain ⟨ms, hms, hunpack⟩ := messageUnpack_of_scan hapart hsize hscan
      exact ⟨ms, fun m hm => (hms m hm).2, hunpack.symm.trans h⟩

/-- What is preserved by every member holds of the message. -/
theorem readMembers_inv {P : S → Prop} {ms : List RawMember}
    (hkeep : ∀ m ∈ ms, ∀ s s', P s → readMember desc s m = .ok s' → P s') {s message : S}
    (hstart : P s) (h : ms.foldlM (readMember desc) s = .ok message) : P message := by
  induction ms generalizing s with
  | nil => exact Except.ok.inj h ▸ hstart
  | cons m ms ih =>
      rw [List.foldlM_cons] at h
      obtain ⟨s', hread, hrest⟩ := bind_eq_ok.mp h
      have hnext : P s' := hkeep m (by simp) s s' hstart hread
      exact ih (fun m' hm' => hkeep m' (by simp [hm'])) hnext hrest

/-- What holds of a new message and is preserved by every member holds of the message. -/
theorem decode_inv {P : S → Prop} {ms : List RawMember} {message : S}
    (hkeep : ∀ m ∈ ms, ∀ s s', P s → readMember desc s m = .ok s' → P s')
    (hstart : P desc.messageInit) (h : decode desc ms = .ok message) : P message := by
  rw [decode] at h
  split_ifs at h
  exact readMembers_inv hkeep hstart h

/-- What a member of a required field brings about and every member preserves holds of the
message. -/
theorem decode_required {P : S → Prop} {ms : List RawMember} {message : S}
    {f : Fin desc.fields.length} (hrequired : (desc.fields.get f).isRequired = true)
    (hset : ∀ m s s', desc.lookup m.tag = some f → readMember desc s m = .ok s' → P s')
    (hkeep : ∀ m s s', P s → readMember desc s m = .ok s' → P s')
    (h : decode desc ms = .ok message) : P message := by
  rw [decode] at h
  split_ifs at h with hall
  obtain ⟨m, hm, hlookup⟩ := hall f hrequired
  obtain ⟨before, after, rfl⟩ := List.append_of_mem hm
  rw [List.foldlM_append] at h
  obtain ⟨s, -, h⟩ := bind_eq_ok.mp h
  rw [List.foldlM_cons] at h
  obtain ⟨s', hread, hrest⟩ := bind_eq_ok.mp h
  exact readMembers_inv (fun m _ => hkeep m) (hset m s s' hlookup hread) hrest

/-! ## What a member does -/

/-- A member is kept as an unknown field, or parsed into its field. -/
theorem readMember_eq_ok {m : RawMember} {s s' : S} (h : readMember desc s m = .ok s') :
    (desc.lookup m.tag = none ∧ ∃ unknown, s' = desc.unknownFields.set unknown s) ∨
      ∃ f, desc.lookup m.tag = some f ∧
        parseField desc (desc.fields.get f) (fun _ => true) m s = .ok s' := by
  rw [readMember, parseMember, withField] at h
  cases hlookup : desc.lookup m.tag with
  | none =>
      simp only [hlookup, if_true, Except.ok.injEq] at h
      exact .inl ⟨rfl, _, h.symm⟩
  | some f =>
      simp only [hlookup] at h
      exact .inr ⟨f, rfl, h⟩

/-- Parsing a member overwrites its field and nothing else. -/
theorem sets_of_parseField {field : FieldDescriptor S} {room : ℕ → Bool} {m : RawMember} {s s' : S}
    (h : parseField desc field room m s = .ok s') : field.Sets s s' := by
  cases hlabel : field.label with
  | required place =>
      simp only [parseField, hlabel] at h
      simp only [FieldDescriptor.Sets, hlabel]
      obtain ⟨elem, -, hset⟩ := bind_eq_ok.mp h
      exact ⟨_, (Except.ok.inj hset).symm⟩
  | optional quantifier place =>
      simp only [parseField, hlabel] at h
      simp only [FieldDescriptor.Sets, hlabel]
      obtain ⟨elem, -, hset⟩ := bind_eq_ok.mp h
      exact ⟨_, (Except.ok.inj hset).symm⟩
  | oneof case place set =>
      simp only [parseField, hlabel] at h
      simp only [FieldDescriptor.Sets, hlabel]
      obtain ⟨old, -, h⟩ := bind_eq_ok.mp h
      obtain ⟨elem, -, hset⟩ := bind_eq_ok.mp h
      exact ⟨_, (Except.ok.inj hset).symm⟩
  | repeated array =>
      simp only [parseField, hlabel] at h
      simp only [FieldDescriptor.Sets, hlabel]
      obtain ⟨elems, -, hset⟩ := bind_eq_ok.mp h
      split_ifs at hset
      exact ⟨_, (Except.ok.inj hset).symm⟩

/-- A member of a required text sets it. -/
theorem exists_text {id : UInt32} {place : Lens S (Option (List UInt8))} {room : ℕ → Bool}
    {m : RawMember} {s s' : S}
    (h : parseField desc ⟨id, .string, .required place⟩ room m s = .ok s') :
    ∃ chars, s' = place.set (some chars) s := by
  simp only [parseField] at h
  obtain ⟨elem, -, hset⟩ := bind_eq_ok.mp h
  exact ⟨elem, (Except.ok.inj hset).symm⟩

/-- A member of a repeated message is unpacked behind those that are there. -/
theorem exists_message {M : Type} {sub : MessageDescriptor M} {id : UInt32}
    {array : Lens S (List M)} {room : ℕ → Bool} {m : RawMember} {s s' : S}
    (h : parseField desc ⟨id, .message M (messageOps sub), .repeated array⟩ room m s = .ok s') :
    ∃ elem, messageUnpack sub (m.data.drop m.lengthPrefixLen) = .ok elem ∧
      s' = array.append s [elem] := by
  simp only [parseField] at h
  obtain ⟨elems, helems, hset⟩ := bind_eq_ok.mp h
  have hone : repeatedElements (.message M (messageOps sub)) m =
      (parseRequiredMember m (.message M (messageOps sub)) none false).map fun elem => [elem] := by
    rw [repeatedElements, holdsArray, isPackableType, Bool.and_false, if_neg Bool.false_ne_true]
    rfl
  rw [hone] at helems
  cases hparse : parseRequiredMember m (.message M (messageOps sub)) none false with
  | error e =>
      rw [hparse] at helems
      exact absurd helems (by simp [Except.map])
  | ok elem =>
      rw [hparse] at helems
      obtain rfl : [elem] = elems := Except.ok.inj helems
      simp only [parseRequiredMember] at hparse
      split_ifs at hparse
      cases hunpack : (messageOps sub).unpack (m.data.drop m.lengthPrefixLen) with
      | error e => simp [hunpack] at hparse
      | ok elem' =>
          obtain rfl : elem' = elem := by simpa [hunpack] using hparse
          split_ifs at hset
          exact ⟨elem', hunpack, (Except.ok.inj hset).symm⟩

/-- A required text that no other field overwrites is set. -/
theorem decode_text {f : Fin desc.fields.length} {id : UInt32}
    {place : Lens S (Option (List UInt8))}
    (hfield : desc.fields.get f = ⟨id, .string, .required place⟩)
    (hother : ∀ g, g ≠ f → ∀ s s', (desc.fields.get g).Sets s s' → place.get s' = place.get s)
    (hunknown : ∀ unknown s, place.get (desc.unknownFields.set unknown s) = place.get s)
    {ms : List RawMember} {message : S} (h : decode desc ms = .ok message) :
    ∃ chars, place.get message = some chars := by
  have hset {m : RawMember} {s s' : S}
      (hparse : parseField desc (desc.fields.get f) (fun _ => true) m s = .ok s') :
      ∃ chars, place.get s' = some chars := by
    rw [hfield] at hparse
    obtain ⟨chars, rfl⟩ := exists_text hparse
    exact ⟨chars, place.get_set _ _⟩
  refine decode_required (P := fun s => ∃ chars, place.get s = some chars) (f := f)
    (by rw [hfield]; rfl) ?_ ?_ h
  · intro m s s' hlookup hread
    rcases readMember_eq_ok hread with ⟨hnone, -⟩ | ⟨g, hg, hparse⟩
    · exact absurd (hnone.symm.trans hlookup) (by simp)
    · obtain rfl : g = f := Option.some.inj (hg.symm.trans hlookup)
      exact hset hparse
  · intro m s s' hs hread
    rcases readMember_eq_ok hread with ⟨-, unknown, rfl⟩ | ⟨g, hg, hparse⟩
    · rwa [hunknown]
    · by_cases hgf : g = f
      · subst hgf
        exact hset hparse
      · rwa [hother g hgf s s' (sets_of_parseField hparse)]

/-- The messages in an array that no other field overwrites were unpacked from parts of the
input. -/
theorem decode_messages {M : Type} {sub : MessageDescriptor M} {f : Fin desc.fields.length}
    {id : UInt32} {array : Lens S (List M)}
    (hfield : desc.fields.get f = ⟨id, .message M (messageOps sub), .repeated array⟩)
    (hother : ∀ g, g ≠ f → ∀ s s', (desc.fields.get g).Sets s s' → array.get s' = array.get s)
    (hunknown : ∀ unknown s, array.get (desc.unknownFields.set unknown s) = array.get s)
    (hnew : array.get desc.messageInit = []) {data : List UInt8} {ms : List RawMember}
    (hms : ∀ m ∈ ms, m.data <:+: data) {message : S} (h : decode desc ms = .ok message) :
    ∀ elem ∈ array.get message, ∃ part, part <:+: data ∧ messageUnpack sub part = .ok elem := by
  refine decode_inv (P := fun s => ∀ elem ∈ array.get s,
    ∃ part, part <:+: data ∧ messageUnpack sub part = .ok elem) ?_ (by simp [hnew]) h
  intro m hm s s' hs hread
  rcases readMember_eq_ok hread with ⟨-, unknown, rfl⟩ | ⟨g, hg, hparse⟩
  · rwa [hunknown]
  · by_cases hgf : g = f
    · subst hgf
      rw [hfield] at hparse
      obtain ⟨elem, helem, rfl⟩ := exists_message hparse
      have hpart : m.data.drop m.lengthPrefixLen <:+: data :=
        (List.drop_suffix _ _).isInfix.trans (hms m hm)
      rw [Lens.append, Lens.get_set]
      simpa only [List.forall_mem_append, List.forall_mem_singleton] using ⟨hs, _, hpart, helem⟩
    · rwa [hother g hgf s s' (sets_of_parseField hparse)]

namespace Analysis

/-! ## The messages that the sniffer receives -/

/-- The text of a protocol is there. -/
theorem protocol_id {data : List UInt8} (hsize : data.length < 2 ^ 32) {p : Protocol}
    (h : messageUnpack protocolDescriptor data = .ok p) : ∃ chars, p.id = some chars := by
  obtain ⟨ms, -, hdecode⟩ := decode_of_messageUnpack protocolDescriptor_apart hsize h
  have hfield : protocolDescriptor.fields.get ⟨0, by decide⟩ = ⟨1, .string, .required
    { get := fun m => m.id, set := fun v m => { m with id := v } }⟩ := rfl
  refine decode_text hfield ?_ (fun _ _ => rfl) hdecode
  intro g hg s s' hsets
  fin_cases g
  · exact absurd rfl hg
  all_goals
    obtain ⟨value, rfl⟩ := hsets
    rfl

/-- The texts of an interface and of its protocols are there. -/
theorem netInt_ids {data : List UInt8} (hsize : data.length < 2 ^ 32) {n : NetInt}
    (h : messageUnpack netIntDescriptor data = .ok n) :
    (∃ chars, n.id = some chars) ∧ ∀ p ∈ n.protocols, ∃ chars, p.id = some chars := by
  obtain ⟨ms, hms, hdecode⟩ := decode_of_messageUnpack netIntDescriptor_apart hsize h
  have hid : netIntDescriptor.fields.get ⟨0, by decide⟩ = ⟨1, .string, .required
    { get := fun m => m.id, set := fun v m => { m with id := v } }⟩ := rfl
  have hprotocols : netIntDescriptor.fields.get ⟨1, by decide⟩ =
    ⟨2, .message Protocol (messageOps protocolDescriptor), .repeated
      { get := fun m => m.protocols, set := fun v m => { m with protocols := v } }⟩ := rfl
  constructor
  · refine decode_text hid ?_ (fun _ _ => rfl) hdecode
    intro g hg s s' hsets
    fin_cases g
    · exact absurd rfl hg
    · obtain ⟨value, rfl⟩ := hsets
      rfl
  · intro p hp
    have hparts := decode_messages hprotocols ?_ (fun _ _ => rfl) rfl hms hdecode
    · obtain ⟨part, hpart, hunpack⟩ := hparts p hp
      exact protocol_id (Nat.lt_of_le_of_lt hpart.length_le hsize) hunpack
    · intro g hg s s' hsets
      fin_cases g
      · obtain ⟨value, rfl⟩ := hsets
        rfl
      · exact absurd rfl hg

/-- The texts that `connection_handler` compares are there, whatever it has received. -/
theorem init_ids {data : List UInt8} (hsize : data.length < 2 ^ 32) {m : Init}
    (h : messageUnpack initDescriptor data = .ok m) :
    ∀ n ∈ m.netInts, (∃ chars, n.id = some chars) ∧
      ∀ p ∈ n.protocols, ∃ chars, p.id = some chars := by
  obtain ⟨ms, hms, hdecode⟩ := decode_of_messageUnpack initDescriptor_apart hsize h
  have hfield : initDescriptor.fields.get ⟨0, by decide⟩ =
    ⟨1, .message NetInt (messageOps netIntDescriptor), .repeated
      { get := fun m => m.netInts, set := fun v m => { m with netInts := v } }⟩ := rfl
  intro n hn
  have hparts := decode_messages hfield ?_ (fun _ _ => rfl) rfl hms hdecode
  · obtain ⟨part, hpart, hunpack⟩ := hparts n hn
    exact netInt_ids (Nat.lt_of_le_of_lt hpart.length_le hsize) hunpack
  · intro g hg s s' hsets
    fin_cases g
    · exact absurd rfl hg
    all_goals
      obtain ⟨value, rfl⟩ := hsets
      rfl

end Analysis

end MonitoringTool.Sniffer.Protobuf
