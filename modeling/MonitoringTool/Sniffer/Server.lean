import MonitoringTool.Lib.Base128
import MonitoringTool.Sniffer.Varint
import Mathlib.Tactic.Ring

/-!
# Receiving the Init message

`connection_handler` of `server.c` reads the length of the backend's Init message with
`decode_varint`, a byte a call of `recv`, and the message with one call.  A call of
`recv` answers with what has arrived, at least one byte and at most what it is asked
for, so the outcome depends on how the bytes arrive.

`decode_undoes_encode_iff` says which lengths are read as they were written, and
`init_survives_iff` when a message is received: the whole of it has arrived when it is asked
for.  The memory for the message is one byte longer than its length, which is a `size_t`: for
the largest length it is empty, and every byte that arrives lies behind it.
-/

namespace MonitoringTool.Sniffer

open Lib

/-! ## The socket -/

/-- A connected socket: the bytes that the client sends and that were not received yet,
the number of calls of `recv` so far, and how many bytes `recv` finds at each call. -/
structure Socket where
  bytes : List UInt8
  calls : ℕ
  ready : ℕ → ℕ

/-- `recv` waits for the first byte.  No byte is left when the client has closed. -/
def Socket.recv (s : Socket) (len : ℕ) : List UInt8 × Socket :=
  let n := min len (max 1 (s.ready s.calls))
  (s.bytes.take n, { s with bytes := s.bytes.drop n, calls := s.calls + 1 })

theorem Socket.recv_one (bytes : List UInt8) (b : UInt8) (calls : ℕ) (ready : ℕ → ℕ) :
    (⟨b :: bytes, calls, ready⟩ : Socket).recv 1 = ([b], ⟨bytes, calls + 1, ready⟩) := by
  simp [recv]

/-- A byte received is a byte less to receive. -/
theorem Socket.length_recv_one (s : Socket) {i : UInt8} {more : List UInt8} {s' : Socket}
    (h : s.recv 1 = (i :: more, s')) : s'.bytes.length < s.bytes.length := by
  obtain ⟨bytes, calls, ready⟩ := s
  cases bytes with
  | nil => simp [recv] at h
  | cons b bytes =>
      rw [recv_one, Prod.mk.injEq] at h
      rw [← h.2]
      exact Nat.lt_succ_self _

/-! ## `decode_varint` -/

/-- `(i & 0x7F) << shifter`, as the `|=` reads it.  The left side is an `int` of 32 bits,
whose shift takes the low five bits of the distance, and which is sign-extended. -/
def shiftedGroup (i : UInt8) (shifter : UInt64) : UInt64 :=
  let group := (i &&& 0x7F).toUInt32 <<< shifter.toUInt32
  .ofBitVec (group.toBitVec.signExtend 64)

/-- The loop of `decode_varint`. -/
def decodeLoop (s : Socket) (value shifter : UInt64) : UInt64 × Socket :=
  match h : s.recv 1 with
  | ([], s') => (value, s')
  | (i :: _, s') =>
      let value := value ||| shiftedGroup i shifter
      let shifter := shifter + 7
      if i &&& 0x80 ≠ 0 then decodeLoop s' value shifter else (value, s')
termination_by s.bytes.length
decreasing_by
  exact s.length_recv_one h

theorem decodeLoop_cons (i : UInt8) (bytes : List UInt8) (calls : ℕ) (ready : ℕ → ℕ)
    (value shifter : UInt64) :
    decodeLoop ⟨i :: bytes, calls, ready⟩ value shifter =
      if i &&& 0x80 ≠ 0 then
        decodeLoop ⟨bytes, calls + 1, ready⟩ (value ||| shiftedGroup i shifter) (shifter + 7)
      else (value ||| shiftedGroup i shifter, ⟨bytes, calls + 1, ready⟩) := by
  have hrecv := Socket.recv_one bytes i calls ready
  conv_lhs => unfold decodeLoop
  split
  · next h => simp [hrecv] at h
  · next h =>
      rw [hrecv, Prod.mk.injEq, List.cons.injEq] at h
      obtain ⟨⟨rfl, -⟩, rfl⟩ := h
      rfl

/-- `decode_varint`. -/
def decodeVarint (s : Socket) : UInt64 × Socket := decodeLoop s 0 0

/-! ## `connection_handler` -/

/-- What `connection_handler` does with the Init message: the client has disconnected, more is
received than there is memory for, `error` ends the thread, or the message is unpacked. -/
inductive Handled where
  | disconnected : Handled
  | overflow : Handled
  | error (m : String) : Handled
  | unpack (msg : List UInt8) : Handled
  deriving DecidableEq

/-- `connection_handler`, up to the call of `analysis__init__unpack`.  `calloc` is given
`msg_len+1`, a `size_t`, and is taken to find that much memory. -/
def connectionHandler (s : Socket) : Handled :=
  let (msgLen, s) := decodeVarint s
  if msgLen > 0 then
    let size := msgLen + 1
    let (msg, _) := s.recv msgLen.toNat
    if size.toNat < msg.length then .overflow
    else if msg.length ≠ msgLen.toNat then
      .error s!"Framing error: expected {msgLen}, read less\n"
    else .unpack msg
  else .disconnected

/-! ## Decoding a base-128 number -/

/-- A group that fits is shifted and no bit is lost. -/
theorem toNat_shiftedGroup {i : UInt8} {shifter : UInt64} {k : ℕ}
    (hlt : i.toNat % 128 * 2 ^ k < 2 ^ 31) (hk : i.toNat % 128 ≠ 0 → shifter.toNat = k) :
    (shiftedGroup i shifter).toNat = i.toNat % 128 * 2 ^ k := by
  have hgroup : ((i &&& 0x7F).toUInt32 <<< shifter.toUInt32).toNat = i.toNat % 128 * 2 ^ k := by
    rw [UInt32.toNat_shiftLeft, UInt8.toNat_toUInt32, toNat_and_7F, UInt64.toNat_toUInt32,
      Nat.shiftLeft_eq]
    by_cases hzero : i.toNat % 128 = 0
    · simp [hzero]
    · have hpow : 2 ^ k < 2 ^ 31 := by
        calc
          2 ^ k ≤ i.toNat % 128 * 2 ^ k := Nat.le_mul_of_pos_left _ (Nat.pos_of_ne_zero hzero)
          _ < 2 ^ 31 := hlt
      have hsmall : k < 31 := (Nat.pow_lt_pow_iff_right (by decide)).mp hpow
      have hshift : k % 2 ^ 32 % 32 = k := by omega
      rw [hk hzero, hshift]
      omega
  unfold shiftedGroup
  dsimp only
  generalize (i &&& 0x7F).toUInt32 <<< shifter.toUInt32 = group at hgroup ⊢
  have hmsb : group.toBitVec.msb = false := by
    rw [BitVec.msb_eq_false_iff_two_mul_lt, UInt32.toNat_toBitVec]
    omega
  rw [UInt64.toNat_ofBitVec, BitVec.toNat_signExtend, hmsb, BitVec.toNat_setWidth,
    UInt32.toNat_toBitVec]
  simp only [Bool.false_eq_true, if_false]
  omega

/-- A group above the bits of `value` is added to it. -/
theorem toNat_or_shiftedGroup {value shifter : UInt64} {i : UInt8} {k : ℕ}
    (hlow : value.toNat < 2 ^ k) (hlt : i.toNat % 128 * 2 ^ k < 2 ^ 31)
    (hk : i.toNat % 128 ≠ 0 → shifter.toNat = k) :
    (value ||| shiftedGroup i shifter).toNat = value.toNat + i.toNat % 128 * 2 ^ k := by
  rw [UInt64.toNat_or, toNat_shiftedGroup hlt hk, or_eq_add hlow]

/-- The loop reads a base-128 number, behind the groups that `value` holds. -/
theorem decodeLoop_eq {n : ℕ} {bytes : List UInt8} (h : IsVarint n bytes) (rest : List UInt8)
    (calls : ℕ) (ready : ℕ → ℕ) (value shifter : UInt64) {k : ℕ}
    (hlt : value.toNat + n * 2 ^ k < 2 ^ 31) (hlow : value.toNat < 2 ^ k)
    (hk : n ≠ 0 → shifter.toNat = k) :
    decodeLoop ⟨bytes ++ rest, calls, ready⟩ value shifter =
      (UInt64.ofNat (value.toNat + n * 2 ^ k), ⟨rest, calls + bytes.length, ready⟩) := by
  induction h generalizing calls value shifter k with
  | @last b hb =>
      have hmod : b.toNat % 128 = b.toNat := Nat.mod_eq_of_lt hb
      have hgroup := toNat_or_shiftedGroup (i := b) hlow (by rw [hmod]; omega) (by rwa [hmod])
      have hstop : ¬ (b &&& 0x80 ≠ 0) := by
        rw [and_80_ne_zero_iff]
        omega
      rw [hmod] at hgroup
      rw [List.singleton_append, decodeLoop_cons, if_neg hstop, ← hgroup, UInt64.ofNat_toNat]
      rfl
  | @more b n bytes hb h ih =>
      have hsplit : (b.toNat % 128 + 128 * n) * 2 ^ k =
          b.toNat % 128 * 2 ^ k + n * 2 ^ (k + 7) := by
        ring
      have hgo : b &&& 0x80 ≠ 0 := (and_80_ne_zero_iff b).mpr hb
      have hgroup := toNat_or_shiftedGroup (i := b) hlow (by omega) fun hne => hk (by omega)
      have hbits : b.toNat % 128 * 2 ^ k ≤ 127 * 2 ^ k := Nat.mul_le_mul_right _ (by omega)
      have hpow : 2 ^ (k + 7) = 128 * 2 ^ k := by ring
      have hnext : n ≠ 0 → (shifter + 7).toNat = k + 7 := by
        intro hne
        have hle : 2 ^ (k + 7) ≤ n * 2 ^ (k + 7) := Nat.le_mul_of_pos_left _ (by omega)
        have hsmall : 2 ^ (k + 7) < 2 ^ 31 := by omega
        have hk31 : k + 7 < 31 := (Nat.pow_lt_pow_iff_right (by decide)).mp hsmall
        have hshift := hk (by omega)
        rw [UInt64.toNat_add, hshift]
        exact Nat.mod_eq_of_lt (by simp only [UInt64.reduceToNat]; omega)
      have hrest := ih (calls + 1) (value ||| shiftedGroup b shifter) (shifter + 7)
        (by rw [hgroup]; omega) (by rw [hgroup]; omega) hnext
      rw [List.cons_append, decodeLoop_cons, if_pos hgo, hrest, hgroup, hsplit, List.length_cons,
        Nat.add_assoc value.toNat]
      congr 2
      omega

/-- `decode_varint` reads a length below 2^31, a byte a call. -/
theorem decodeVarint_eq {n : ℕ} {bytes : List UInt8} (h : IsVarint n bytes) (hlt : n < 2 ^ 31)
    (rest : List UInt8) (calls : ℕ) (ready : ℕ → ℕ) :
    decodeVarint ⟨bytes ++ rest, calls, ready⟩ =
      (UInt64.ofNat n, ⟨rest, calls + bytes.length, ready⟩) := by
  have hloop := decodeLoop_eq h rest calls ready 0 0 (k := 0) (by simpa using hlt) (by decide)
    fun _ => rfl
  unfold decodeVarint
  simpa using hloop

/-! ## Decoding what `encode_varint` writes -/

/-- What the loop makes of the groups of `value`, of which there are at most `n`. -/
def readGroups : ℕ → UInt64 → UInt64 → UInt64
  | 0, _, _ => 0
  | n + 1, value, shifter =>
      shiftedGroup value.toUInt8 shifter ||| readGroups n (value >>> 7) (shifter + 7)

/-- The top bit of a byte is not shifted. -/
theorem shiftedGroup_congr {i j : UInt8} (h : i.toNat % 128 = j.toNat % 128) (shifter : UInt64) :
    shiftedGroup i shifter = shiftedGroup j shifter := by
  have hgroup : i &&& 0x7F = j &&& 0x7F := by
    rw [← UInt8.toNat_inj, toNat_and_7F, toNat_and_7F, h]
  unfold shiftedGroup
  rw [hgroup]

theorem shiftedGroup_zero (shifter : UInt64) : shiftedGroup 0 shifter = 0 := by
  rw [← UInt64.toNat_inj, @toNat_shiftedGroup 0 shifter 0 (by decide) fun h => absurd rfl h]
  rfl

theorem readGroups_zero (n : ℕ) (shifter : UInt64) : readGroups n 0 shifter = 0 := by
  induction n generalizing shifter with
  | zero => rfl
  | succ n ih =>
      have hrest : readGroups n ((0 : UInt64) >>> 7) (shifter + 7) = 0 := ih (shifter + 7)
      have hgroup : shiftedGroup (0 : UInt64).toUInt8 shifter = 0 := shiftedGroup_zero shifter
      rw [readGroups, hrest, hgroup]
      rfl

/-- The last byte of a value. -/
theorem decodeLoop_encodeVarint_of_lt (n : ℕ) {v : UInt64} (h : v.toNat < 128) (rest : List UInt8)
    (calls : ℕ) (ready : ℕ → ℕ) (value shifter : UInt64) :
    decodeLoop ⟨encodeVarint v ++ rest, calls, ready⟩ value shifter =
      (value ||| readGroups (n + 1) v shifter, ⟨rest, calls + 1, ready⟩) := by
  have hshift : v >>> 7 = 0 := by
    rw [← UInt64.toNat_inj, toNat_shiftRight7, UInt64.toNat_zero]
    omega
  have hgroups : readGroups (n + 1) v shifter = shiftedGroup v.toUInt8 shifter := by
    rw [readGroups, hshift, readGroups_zero, UInt64.or_zero]
  have hstop : ¬ (v.toUInt8 &&& 0x80 ≠ 0) := by
    rw [and_80_ne_zero_iff, UInt64.toNat_toUInt8]
    omega
  rw [encodeVarint_of_lt h, List.singleton_append, decodeLoop_cons, if_neg hstop, hgroups]

/-- The loop takes the bytes of the value and no more. -/
theorem decodeLoop_encodeVarint (n : ℕ) {v : UInt64} (h : v.toNat < 128 ^ (n + 1))
    (rest : List UInt8) (calls : ℕ) (ready : ℕ → ℕ) (value shifter : UInt64) :
    decodeLoop ⟨encodeVarint v ++ rest, calls, ready⟩ value shifter =
      (value ||| readGroups (n + 1) v shifter, ⟨rest, calls + (encodeVarint v).length, ready⟩) := by
  have hlast : ∀ {n : ℕ} {v : UInt64} (calls : ℕ) (value shifter : UInt64), v.toNat < 128 →
      decodeLoop ⟨encodeVarint v ++ rest, calls, ready⟩ value shifter =
        (value ||| readGroups (n + 1) v shifter,
          ⟨rest, calls + (encodeVarint v).length, ready⟩) := by
    intro n v calls value shifter hlt
    rw [decodeLoop_encodeVarint_of_lt n hlt, (length_encodeVarint_eq_one_iff v).mpr hlt]
  induction n generalizing v calls value shifter with
  | zero => exact hlast calls value shifter (by simpa using h)
  | succ n ih =>
      rcases Nat.lt_or_ge v.toNat 128 with hlt | hge
      · exact hlast calls value shifter hlt
      · have hmore := toNat_more v
        have hgo : ((v &&& 0x7F).toUInt8 ||| 0x80) &&& 0x80 ≠ 0 := by
          rw [and_80_ne_zero_iff, hmore]
          omega
        have hgroup : shiftedGroup ((v &&& 0x7F).toUInt8 ||| 0x80) shifter =
            shiftedGroup v.toUInt8 shifter := by
          apply shiftedGroup_congr
          rw [hmore, UInt64.toNat_toUInt8]
          omega
        have hshift : (v >>> 7).toNat < 128 ^ (n + 1) := by
          rw [toNat_shiftRight7]
          exact Nat.div_lt_of_lt_mul (by rw [← Nat.pow_succ']; exact h)
        rw [encodeVarint_of_ge hge, List.cons_append, decodeLoop_cons, if_pos hgo, ih hshift,
          hgroup, UInt64.or_assoc, List.length_cons]
        refine congrArg (Prod.mk _) ?_
        rw [Nat.add_assoc, Nat.add_comm 1]

/-- `decode_varint` takes the bytes of the value and no more. -/
theorem decodeVarint_encodeVarint (v : UInt64) (rest : List UInt8) (calls : ℕ) (ready : ℕ → ℕ) :
    decodeVarint ⟨encodeVarint v ++ rest, calls, ready⟩ =
      (readGroups 10 v 0, ⟨rest, calls + (encodeVarint v).length, ready⟩) := by
  have hlt : v.toNat < 128 ^ 10 := Nat.lt_trans v.toNat_lt (by decide)
  rw [decodeVarint, decodeLoop_encodeVarint 9 hlt, UInt64.zero_or]

/-- The bits from 31 on are all alike. -/
def SignExtended (x : UInt64) : Prop := x.toNat < 2 ^ 31 ∨ 2 ^ 64 - 2 ^ 31 ≤ x.toNat

theorem SignExtended.or {x y : UInt64} (hx : SignExtended x) (hy : SignExtended y) :
    SignExtended (x ||| y) := by
  unfold SignExtended
  rw [UInt64.toNat_or]
  rcases hx with hx | hx
  · rcases hy with hy | hy
    · exact .inl (Nat.or_lt_two_pow hx hy)
    · exact .inr (Nat.le_trans hy Nat.right_le_or)
  · exact .inr (Nat.le_trans hx Nat.left_le_or)

theorem signExtended_shiftedGroup (i : UInt8) (shifter : UInt64) :
    SignExtended (shiftedGroup i shifter) := by
  unfold shiftedGroup SignExtended
  dsimp only
  generalize (i &&& 0x7F).toUInt32 <<< shifter.toUInt32 = group
  have hgroup := group.toBitVec.isLt
  rw [UInt64.toNat_ofBitVec, BitVec.toNat_signExtend, BitVec.toNat_setWidth]
  cases hmsb : group.toBitVec.msb with
  | false =>
      have hsmall := BitVec.msb_eq_false_iff_two_mul_lt.mp hmsb
      simp only [Bool.false_eq_true, if_false]
      omega
  | true =>
      have hlarge := BitVec.msb_eq_true_iff_two_mul_ge.mp hmsb
      simp only [if_true]
      omega

theorem signExtended_readGroups (n : ℕ) (v shifter : UInt64) :
    SignExtended (readGroups n v shifter) := by
  induction n generalizing v shifter with
  | zero => exact .inl (Nat.two_pow_pos 31)
  | succ n ih => exact (signExtended_shiftedGroup _ _).or (ih _ _)

/-- Each group is in what is read. -/
theorem shiftedGroup_or_readGroups {n k : ℕ} (hk : k < n) (v shifter : UInt64) {i : UInt8}
    (hi : i.toNat % 128 = v.toNat / 128 ^ k % 128) :
    shiftedGroup i (shifter + 7 * UInt64.ofNat k) ||| readGroups n v shifter =
      readGroups n v shifter := by
  induction n generalizing k v shifter with
  | zero => exact absurd hk (Nat.not_lt_zero k)
  | succ n ih =>
      rw [readGroups]
      cases k with
      | zero =>
          have hgroup : shiftedGroup i (shifter + 7 * UInt64.ofNat 0) =
              shiftedGroup v.toUInt8 shifter := by
            rw [show shifter + 7 * UInt64.ofNat 0 = shifter from UInt64.add_zero shifter]
            apply shiftedGroup_congr
            rw [hi, UInt64.toNat_toUInt8, Nat.pow_zero, Nat.div_one]
            omega
          rw [hgroup, ← UInt64.or_assoc, UInt64.or_self]
      | succ k =>
          have hshift : shifter + 7 * UInt64.ofNat (k + 1) = shifter + 7 + 7 * UInt64.ofNat k := by
            rw [UInt64.ofNat_add, UInt64.mul_add, UInt64.add_assoc, UInt64.add_comm (7 * _)]
            rfl
          have hrest := ih (Nat.lt_of_succ_lt_succ hk) (v >>> 7) (shifter + 7) (by
            rw [hi, toNat_shiftRight7, Nat.div_div_eq_div_mul, Nat.pow_succ'])
          rw [hshift, ← UInt64.or_assoc, UInt64.or_comm (shiftedGroup i _), UInt64.or_assoc, hrest]

/-- The value is read back exactly when it fits in 31 bits or is one of the eight largest. -/
theorem readGroups_eq_iff (v : UInt64) :
    readGroups 10 v 0 = v ↔ v.toNat < 2 ^ 31 ∨ 2 ^ 64 - 8 ≤ v.toNat := by
  have hlt := v.toNat_lt
  constructor
  · intro heq
    have hsign := signExtended_readGroups 10 v 0
    rw [heq] at hsign
    refine hsign.imp_right fun hlarge => ?_
    -- four groups of ones come to lie on the bits 3 to 30
    have hgroup : ∀ k, k < 10 → 127 = v.toNat / 128 ^ k % 128 →
        shiftedGroup 0x7F (7 * UInt64.ofNat k) ||| v = v := by
      intro k hk hone
      have hheld := @shiftedGroup_or_readGroups 10 k hk v 0 0x7F hone
      rwa [heq, UInt64.zero_add] at hheld
    have h5 := hgroup 5 (by decide) (by omega)
    have h6 := hgroup 6 (by decide) (by omega)
    have h7 := hgroup 7 (by decide) (by omega)
    have h8 := hgroup 8 (by decide) (by omega)
    have hones : (0x7FFFFFF8 : UInt64) ||| v = v := by
      have hsplit : (0x7FFFFFF8 : UInt64) = shiftedGroup 0x7F (7 * UInt64.ofNat 5) |||
          (shiftedGroup 0x7F (7 * UInt64.ofNat 6) ||| (shiftedGroup 0x7F (7 * UInt64.ofNat 7) |||
            shiftedGroup 0x7F (7 * UInt64.ofNat 8))) := by
        decide
      rw [hsplit, UInt64.or_assoc, UInt64.or_assoc, UInt64.or_assoc, h8, h7, h6, h5]
    have hlow : 0x7FFFFFF8 ≤ v.toNat % 2 ^ 31 := by
      have hmod := congrArg (fun x : UInt64 => x.toNat % 2 ^ 31) hones
      simp only [UInt64.toNat_or, Nat.or_mod_two_pow] at hmod
      rw [← hmod]
      exact Nat.left_le_or
    omega
  · rintro (hsmall | hlarge)
    · have hread := decodeVarint_eq (encodeVarint_isVarint v) hsmall [] 0 (fun _ => 1)
      rw [decodeVarint_encodeVarint, Prod.mk.injEq, UInt64.ofNat_toNat] at hread
      exact hread.1
    · obtain ⟨j, hj⟩ : ∃ j : Fin 8, v = 0xFFFFFFFFFFFFFFF8 + UInt64.ofNat j := by
        refine ⟨⟨v.toNat - (2 ^ 64 - 8), by omega⟩, ?_⟩
        rw [← UInt64.toNat_inj, UInt64.toNat_add, UInt64.toNat_ofNat']
        simp only [UInt64.reduceToNat]
        omega
      subst hj
      revert j
      decide

/-- **When `decode_varint` undoes `encode_varint`.**  It answers the value, and takes its
bytes and no more, exactly below 2^31 and from 2^64 - 8 on; it takes these bytes in any case.
The group of the fifth byte reaches the sign of the `int` that is shifted, and from the sixth
byte on the groups are shifted by a distance that is larger than the `int`. -/
theorem decode_undoes_encode_iff (v : UInt64) (rest : List UInt8) (calls : ℕ) (ready : ℕ → ℕ) :
    (decodeVarint ⟨encodeVarint v ++ rest, calls, ready⟩ =
        (v, ⟨rest, calls + (encodeVarint v).length, ready⟩) ↔
      v.toNat < 2 ^ 31 ∨ 2 ^ 64 - 8 ≤ v.toNat) ∧
      (decodeVarint ⟨encodeVarint v ++ rest, calls, ready⟩).2 =
        ⟨rest, calls + (encodeVarint v).length, ready⟩ := by
  rw [decodeVarint_encodeVarint, ← readGroups_eq_iff]
  simp

/-- 2^31 is read back with all bits above it. -/
theorem decode_sign_extends :
    ¬ ∀ (v : UInt64) (rest : List UInt8) (ready : ℕ → ℕ),
      decodeVarint ⟨encodeVarint v ++ rest, 0, ready⟩ =
        (v, ⟨rest, (encodeVarint v).length, ready⟩) := by
  intro h
  have hread := h 0x80000000 [] fun _ => 1
  rw [decodeVarint_encodeVarint, Prod.mk.injEq] at hread
  exact absurd hread.1 (by decide)

/-! ## The exact condition -/

/-- A call of `recv` answers with no more than it is asked for. -/
theorem Socket.length_recv_le (s : Socket) (len : ℕ) : (s.recv len).1.length ≤ len := by
  have htake : (s.recv len).1.length ≤ min len (max 1 (s.ready s.calls)) :=
    List.length_take_le _ _
  exact Nat.le_trans htake (Nat.min_le_left _ _)

/-- Below the largest `size_t` the message has the memory that it is received into. -/
theorem connectionHandler_of_decode {s s' : Socket} {msgLen : UInt64}
    (h : decodeVarint s = (msgLen, s')) (hpos : 0 < msgLen.toNat)
    (hlt : msgLen.toNat + 1 < 2 ^ 64) :
    connectionHandler s =
      if (s'.recv msgLen.toNat).1.length = msgLen.toNat then .unpack (s'.recv msgLen.toNat).1
      else .error s!"Framing error: expected {msgLen}, read less\n" := by
  have hsome : msgLen > 0 := UInt64.lt_iff_toNat_lt.mpr hpos
  have hsize : (msgLen + 1).toNat = msgLen.toNat + 1 := by
    rw [UInt64.toNat_add, UInt64.toNat_one]
    exact Nat.mod_eq_of_lt hlt
  have hroom : ¬ (msgLen + 1).toNat < (s'.recv msgLen.toNat).1.length := by
    have hle := s'.length_recv_le msgLen.toNat
    omega
  unfold connectionHandler
  rw [h]
  dsimp only
  rw [if_pos hsome, if_neg hroom, ite_not]

/-- Behind the length, one call of `recv` has to answer with the whole message; else too little
is read. -/
theorem connectionHandler_of_length {payload lenBytes : List UInt8}
    (h : IsVarint payload.length lenBytes) (hpos : 1 ≤ payload.length)
    (hlt : payload.length < 2 ^ 31) (ready : ℕ → ℕ) :
    connectionHandler ⟨lenBytes ++ payload, 0, ready⟩ =
      if payload.length ≤ max 1 (ready lenBytes.length) then .unpack payload
      else .error s!"Framing error: expected {UInt64.ofNat payload.length}, read less\n" := by
  have hval : (UInt64.ofNat payload.length).toNat = payload.length := by
    rw [UInt64.toNat_ofNat']
    omega
  rw [connectionHandler_of_decode (decodeVarint_eq h hlt payload 0 ready) (by rw [hval]; omega)
    (by rw [hval]; omega), hval]
  simp only [Socket.recv, List.length_take, Nat.zero_add]
  generalize ready lenBytes.length = n
  by_cases hn : payload.length ≤ max 1 n
  · have htake : min payload.length (max 1 n) = payload.length := Nat.min_eq_left hn
    rw [if_pos hn, htake, if_pos (Nat.min_self _), List.take_length]
  · have hmin : min (min payload.length (max 1 n)) payload.length ≠ payload.length := by omega
    rw [if_neg hn, if_neg hmin]

/-- The message is unpacked exactly when that call answers with all of it. -/
theorem connectionHandler_eq {payload lenBytes : List UInt8} (h : IsVarint payload.length lenBytes)
    (hpos : 1 ≤ payload.length) (hlt : payload.length < 2 ^ 28) (ready : ℕ → ℕ) :
    connectionHandler ⟨lenBytes ++ payload, 0, ready⟩ = .unpack payload ↔
      payload.length ≤ max 1 (ready lenBytes.length) := by
  rw [connectionHandler_of_length h hpos (Nat.lt_trans hlt (by decide))]
  split_ifs with hn <;> simp [hn]

/-- `write_length_delimited_to` of the backend's protocol buffer library: the length of the
message as a base-128 number, and the message. -/
def LengthDelimited (write : List UInt8 → List UInt8) : Prop :=
  ∀ payload, payload.length < 2 ^ 32 →
    ∃ lenBytes, IsVarint payload.length lenBytes ∧ write payload = lenBytes ++ payload

/-- **The Init message is unpacked exactly when** all of it has arrived by the call of
`recv` that follows those for its length. -/
theorem init_survives_iff (write : List UInt8 → List UInt8) (hwrite : LengthDelimited write)
    (payload : List UInt8) (hpos : 1 ≤ payload.length) (hlt : payload.length < 2 ^ 28)
    (ready : ℕ → ℕ) :
    connectionHandler ⟨write payload, 0, ready⟩ = .unpack payload ↔
      payload.length ≤ max 1 (ready ((write payload).length - payload.length)) := by
  obtain ⟨lenBytes, hlen, hbytes⟩ := hwrite payload (by omega)
  have hcalls : (write payload).length - payload.length = lenBytes.length := by
    rw [hbytes, List.length_append]
    omega
  rw [hcalls, hbytes]
  exact connectionHandler_eq hlen hpos hlt ready

/-- The sniffer's own frames are length-delimited. -/
theorem frame_lengthDelimited : LengthDelimited frame := by
  intro payload hlt
  have hval : payload.length.toUInt64.toNat = payload.length := by
    rw [Nat.toUInt64_eq, UInt64.toNat_ofNat']
    omega
  have hlen := encodeVarint_isVarint payload.length.toUInt64
  rw [hval] at hlen
  exact ⟨_, hlen, rfl⟩

/-- An interval of 5 and a duration of 60 seconds, in four bytes that arrive together. -/
theorem init_survives_iff_together :
    connectionHandler ⟨frame [0x10, 5, 0x18, 60], 0, fun _ => 4⟩ = .unpack [0x10, 5, 0x18, 60] :=
  (init_survives_iff frame frame_lengthDelimited [0x10, 5, 0x18, 60] (by decide) (by decide)
    fun _ => 4).mpr (by decide)

/-- The same message, byte by byte. -/
theorem init_lost_in_pieces :
    ¬ ∀ (write : List UInt8 → List UInt8) (payload : List UInt8) (ready : ℕ → ℕ),
      LengthDelimited write → 1 ≤ payload.length → payload.length < 2 ^ 28 →
        connectionHandler ⟨write payload, 0, ready⟩ = .unpack payload := by
  intro h
  have hpieces := h frame [0x10, 5, 0x18, 60] (fun _ => 1) frame_lengthDelimited (by decide)
    (by decide)
  obtain ⟨lenBytes, hlen, hbytes⟩ := frame_lengthDelimited [0x10, 5, 0x18, 60] (by decide)
  rw [hbytes, connectionHandler_eq hlen (by decide) (by decide)] at hpieces
  exact absurd hpieces (by decide)

end MonitoringTool.Sniffer
