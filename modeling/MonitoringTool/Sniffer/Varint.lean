import MonitoringTool.Lib.Base128

/-!
# The length prefix the sniffer writes

`encode_varint` of `server.c` writes a 64-bit value as a little-endian base-128
number: seven bits a byte, the top bit set on every byte but the last.
`MetricAvg::sendMsg` and `MetricCumDistr::sendMsg` both put it in front of the
packed message and hand prefix and message to `send` in one buffer, so a
stream of messages is a concatenation of `frame`s.
-/

namespace MonitoringTool.Sniffer

/-- `encode_varint`: the bytes written to `buffer`, in order.  The `do … while`
loop writes one byte and goes on while bits are left. -/
def encodeVarint (value : UInt64) : List UInt8 :=
  let nextByte := (value &&& 0x7F).toUInt8
  let value' := value >>> 7
  if value' ≠ 0 then (nextByte ||| 0x80) :: encodeVarint value' else [nextByte]
termination_by value.toNat
decreasing_by
  have hne : value.toNat / 128 ≠ 0 := by
    intro hz
    apply ‹value' ≠ 0›
    apply UInt64.toNat_inj.mp
    simpa [value', UInt64.toNat_shiftRight, Nat.shiftRight_eq_div_pow] using hz
  simp only [UInt64.toNat_shiftRight, UInt64.reduceToNat, Nat.reduceMod,
    Nat.shiftRight_eq_div_pow]
  omega

/-- What `sendMsg` sends for one packed message: `encode_varint(msg_len)`
followed at once by the message. -/
def frame (payload : List UInt8) : List UInt8 :=
  encodeVarint payload.length.toUInt64 ++ payload

/-- The bytes the sniffer writes to the socket for a sequence of messages. -/
def sentStream (payloads : List (List UInt8)) : List UInt8 :=
  (payloads.map frame).flatten

@[simp] theorem sentStream_nil : sentStream [] = [] := rfl

@[simp] theorem sentStream_cons (m : List UInt8) (ms : List (List UInt8)) :
    sentStream (m :: ms) = frame m ++ sentStream ms := rfl

/-! ## Shape of the encoding -/

/-- What is left after a byte. -/
theorem toNat_shiftRight7 (value : UInt64) : (value >>> 7).toNat = value.toNat / 128 := by
  simp [UInt64.toNat_shiftRight, Nat.shiftRight_eq_div_pow]

/-- The group that a byte takes. -/
theorem toNat_low7 (value : UInt64) : (value &&& 0x7F).toUInt8.toNat = value.toNat % 128 := by
  rw [UInt64.toNat_toUInt8, UInt64.toNat_and,
    show (0x7F : UInt64).toNat = 2 ^ 7 - 1 from rfl, Nat.and_two_pow_sub_one_eq_mod]
  omega

private theorem shiftRight7_eq_zero_iff (value : UInt64) :
    value >>> 7 = 0 ↔ value.toNat < 128 := by
  have hzero : (0 : UInt64).toNat = 0 := rfl
  rw [← UInt64.toNat_inj, toNat_shiftRight7, hzero]
  omega

/-- A value below 128 is its own single byte. -/
theorem encodeVarint_of_lt {value : UInt64} (h : value.toNat < 128) :
    encodeVarint value = [value.toUInt8] := by
  have hzero : value >>> 7 = 0 := (shiftRight7_eq_zero_iff value).mpr h
  have hbyte : (value &&& 0x7F).toUInt8 = value.toUInt8 := by
    apply UInt8.toNat_inj.mp
    rw [toNat_low7, UInt64.toNat_toUInt8]
    omega
  rw [encodeVarint]
  simp [hzero, hbyte]

/-- A value from 128 on takes more than one byte. -/
theorem encodeVarint_of_ge {value : UInt64} (h : 128 ≤ value.toNat) :
    encodeVarint value =
      ((value &&& 0x7F).toUInt8 ||| 0x80) :: encodeVarint (value >>> 7) := by
  have hnonzero : value >>> 7 ≠ 0 := by
    rw [ne_eq, shiftRight7_eq_zero_iff]
    omega
  conv_lhs => rw [encodeVarint]
  simp [hnonzero]

/-- Induction along the loop of `encode_varint`: the last group, or a group and the rest. -/
theorem encodeVarint_induction {motive : UInt64 → Prop}
    (last : ∀ value : UInt64, value.toNat < 128 → motive value)
    (more : ∀ value : UInt64, 128 ≤ value.toNat → motive (value >>> 7) → motive value)
    (value : UInt64) : motive value := by
  induction hn : value.toNat using Nat.strongRecOn generalizing value with
  | ind n ih =>
      subst hn
      rcases Nat.lt_or_ge value.toNat 128 with h | h
      · exact last value h
      · have hshift := toNat_shiftRight7 value
        exact more value h (ih (value >>> 7).toNat (by omega) (value >>> 7) rfl)

/-- The byte of a group that is not the last. -/
theorem toNat_more (value : UInt64) :
    ((value &&& 0x7F).toUInt8 ||| 0x80).toNat = value.toNat % 128 + 128 := by
  have hlow : value.toNat % 128 < 2 ^ 7 := Nat.mod_lt _ (by decide)
  rw [UInt8.toNat_or, toNat_low7]
  exact Lib.or_eq_add (b := 1) hlow

/-- The encoding is a base-128 form of the value. -/
theorem encodeVarint_isVarint (value : UInt64) :
    Lib.IsVarint value.toNat (encodeVarint value) := by
  induction value using encodeVarint_induction with
  | last value h =>
      rw [encodeVarint_of_lt h]
      have hbyte : value.toUInt8.toNat = value.toNat := by
        rw [UInt64.toNat_toUInt8]
        omega
      rw [← hbyte]
      exact .last (by omega)
  | more value h ih =>
      have hshift := toNat_shiftRight7 value
      have hbyte := toNat_more value
      have hvalue : value.toNat = ((value &&& 0x7F).toUInt8 ||| 0x80).toNat % 128 +
          128 * (value >>> 7).toNat := by
        omega
      rw [encodeVarint_of_ge h, hvalue]
      exact .more (by omega) ih

theorem encodeVarint_ne_nil (value : UInt64) : encodeVarint value ≠ [] := by
  rcases Nat.lt_or_ge value.toNat 128 with h | h
  · simp [encodeVarint_of_lt h]
  · simp [encodeVarint_of_ge h]

theorem one_le_length_encodeVarint (value : UInt64) : 1 ≤ (encodeVarint value).length :=
  List.length_pos_iff.mpr (encodeVarint_ne_nil value)

/-- The prefix is one byte long exactly for the values below 128. -/
theorem length_encodeVarint_eq_one_iff (value : UInt64) :
    (encodeVarint value).length = 1 ↔ value.toNat < 128 := by
  rcases Nat.lt_or_ge value.toNat 128 with h | h
  · simp [encodeVarint_of_lt h, h]
  · have hrest := one_le_length_encodeVarint (value >>> 7)
    rw [encodeVarint_of_ge h, List.length_cons]
    omega

/-- A message shorter than 128 bytes is framed by its length in one byte. -/
theorem frame_of_short {payload : List UInt8} (h : payload.length < 128) :
    frame payload = payload.length.toUInt8 :: payload := by
  have hval : payload.length.toUInt64.toNat = payload.length := by
    rw [Nat.toUInt64_eq, UInt64.toNat_ofNat']
    omega
  rw [frame, encodeVarint_of_lt (by omega)]
  have hbyte : payload.length.toUInt64.toUInt8 = payload.length.toUInt8 := by
    apply UInt8.toNat_inj.mp
    rw [UInt64.toNat_toUInt8, hval, Nat.toUInt8_eq, UInt8.toNat_ofNat']
  rw [hbyte]
  rfl

/-! ## The canonical form -/

/-- Each byte takes seven bits. -/
theorem length_encodeVarint_le (n : ℕ) {value : UInt64} (h : value.toNat < 128 ^ (n + 1)) :
    (encodeVarint value).length ≤ n + 1 := by
  induction n generalizing value with
  | zero =>
      rw [encodeVarint_of_lt (by simpa using h)]
      exact Nat.le_refl 1
  | succ n ih =>
      rcases Nat.lt_or_ge value.toNat 128 with hlt | hge
      · rw [encodeVarint_of_lt hlt]
        exact Nat.succ_le_succ (Nat.zero_le _)
      · rw [encodeVarint_of_ge hge, List.length_cons]
        refine Nat.succ_le_succ (ih ?_)
        rw [toNat_shiftRight7]
        exact Nat.div_lt_of_lt_mul (by rw [← Nat.pow_succ']; exact h)

/-- The last group is not 0, unless it is the only one. -/
theorem getLast_encodeVarint (value : UInt64) :
    (encodeVarint value).getLast (encodeVarint_ne_nil value) = 0 ↔ value = 0 := by
  induction value using encodeVarint_induction with
  | last value h =>
      simp only [encodeVarint_of_lt h, List.getLast_singleton]
      rw [← UInt8.toNat_inj, ← UInt64.toNat_inj, UInt64.toNat_toUInt8]
      simp only [UInt8.toNat_zero, UInt64.toNat_zero]
      omega
  | more value h ih =>
      have hshift := toNat_shiftRight7 value
      have hvalue : value ≠ 0 := by
        rintro rfl
        exact absurd h (by decide)
      have hrest : value >>> 7 ≠ 0 := by
        rw [ne_eq, ← UInt64.toNat_inj, hshift, UInt64.toNat_zero]
        omega
      simp only [encodeVarint_of_ge h, List.getLast_cons (encodeVarint_ne_nil _), ih, hvalue, hrest]

/-- **The encoding is the canonical base-128 form.**  Of every value it has between 1 and
10 bytes, of which all but the last have the top bit set, a last byte of 0 for 0 only, and
the value for the weighted sum of its groups.  So no encoding begins another, and what is
written one behind the other can be split in one way only. -/
theorem encode_varint_canonical :
    (∀ value : UInt64,
      1 ≤ (encodeVarint value).length ∧ (encodeVarint value).length ≤ 10 ∧
        (∀ b ∈ (encodeVarint value).dropLast, 128 ≤ b.toNat) ∧
        ((encodeVarint value).getLast (encodeVarint_ne_nil value)).toNat < 128 ∧
        ((encodeVarint value).getLast (encodeVarint_ne_nil value) = 0 ↔ value = 0) ∧
        ((encodeVarint value).mapIdx fun i b => b.toNat % 128 * 128 ^ i).sum = value.toNat) ∧
      (∀ value value' : UInt64,
        encodeVarint value <+: encodeVarint value' ↔ value = value') ∧
      InformationTheory.UniquelyDecodable (Set.range encodeVarint) := by
  refine ⟨fun value => ?_, fun value value' => ⟨fun hpre => ?_, ?_⟩, ?_⟩
  · have hlt : value.toNat < 128 ^ 10 := Nat.lt_trans value.toNat_lt (by decide)
    obtain ⟨init, last, hbytes, hinit, hlast⟩ := (encodeVarint_isVarint value).shape
    refine ⟨one_le_length_encodeVarint value, length_encodeVarint_le 9 hlt, ?_, ?_,
      getLast_encodeVarint value, (encodeVarint_isVarint value).sum_groups⟩
    · simpa [hbytes] using hinit
    · simpa [hbytes] using hlast
  · have hsame := (encodeVarint_isVarint value).eq_of_begins (encodeVarint_isVarint value') hpre
    have hvalue := encodeVarint_isVarint value
    rw [hsame] at hvalue
    exact UInt64.toNat_inj.mp (hvalue.unique (encodeVarint_isVarint value'))
  · rintro rfl
    exact List.prefix_refl _
  · apply Lib.uniquelyDecodable_of_prefixFree
    · rintro ⟨value, hnil⟩
      exact encodeVarint_ne_nil value hnil
    · rintro _ ⟨value, rfl⟩ _ ⟨value', rfl⟩ hpre
      exact (encodeVarint_isVarint value).eq_of_begins (encodeVarint_isVarint value') hpre

/-! ## Frames -/

theorem length_frame (payload : List UInt8) :
    (frame payload).length =
      (encodeVarint payload.length.toUInt64).length + payload.length := by
  simp [frame]

end MonitoringTool.Sniffer
