import MonitoringTool.Lib.Base128
import Mathlib.Tactic.Ring

/-!
# The integers of `protobuf-c.c`

Integers are written in base 128 (`uint32_pack`, `uint64_pack`), a `double` as its eight bytes
(`fixed64_pack`), and the number of a field with three bits of wire type below it
(`tag_pack`).  `get_packed_size` adds up lengths that are computed from thresholds
(`uint32_size`, `uint64_size`, `get_tag_size`), and the reading side takes any base-128 form
(`parse_uint32`, `parse_uint64`).
-/

namespace MonitoringTool.Sniffer.Protobuf

open Lib

/-! ## Sizes -/

/-- `get_tag_size`. -/
def getTagSize (number : UInt32) : ℕ :=
  if number < 0x10 then 1
  else if number < 0x800 then 2
  else if number < 0x40000 then 3
  else if number < 0x2000000 then 4
  else 5

/-- `uint32_size`. -/
def uint32Size (v : UInt32) : ℕ :=
  if v < 0x80 then 1
  else if v < 0x4000 then 2
  else if v < 0x200000 then 3
  else if v < 0x10000000 then 4
  else 5

/-- `uint64_size`. -/
def uint64Size (v : UInt64) : ℕ :=
  let upperV := (v >>> 32).toUInt32
  if upperV = 0 then uint32Size v.toUInt32
  else if upperV < 0x8 then 5
  else if upperV < 0x400 then 6
  else if upperV < 0x20000 then 7
  else if upperV < 0x1000000 then 8
  else if upperV < 0x80000000 then 9
  else 10

/-! ## Writing -/

/-- `uint32_pack`: the bytes written to `out`. -/
def uint32Pack (value : UInt32) : List UInt8 :=
  if value ≥ 0x80 then
    let out0 := (value ||| 0x80).toUInt8
    let value := value >>> 7
    if value ≥ 0x80 then
      let out1 := (value ||| 0x80).toUInt8
      let value := value >>> 7
      if value ≥ 0x80 then
        let out2 := (value ||| 0x80).toUInt8
        let value := value >>> 7
        if value ≥ 0x80 then
          let out3 := (value ||| 0x80).toUInt8
          let value := value >>> 7
          [out0, out1, out2, out3, value.toUInt8]
        else [out0, out1, out2, value.toUInt8]
      else [out0, out1, value.toUInt8]
    else [out0, value.toUInt8]
  else [value.toUInt8]

/-- The loop of `uint64_pack`, over the bits above the lowest 35. -/
def hiPack (hi : UInt32) : List UInt8 :=
  if hi ≥ 128 then (hi ||| 0x80).toUInt8 :: hiPack (hi >>> 7) else [hi.toUInt8]
termination_by hi.toNat
decreasing_by
  have hge : (128 : UInt32) ≤ hi := ‹_›
  rw [UInt32.le_iff_toNat_le] at hge
  simp only [UInt32.toNat_shiftRight, UInt32.reduceToNat, Nat.reduceMod,
    Nat.shiftRight_eq_div_pow] at hge ⊢
  omega

/-- `uint64_pack`: the bytes written to `out`. -/
def uint64Pack (value : UInt64) : List UInt8 :=
  let hi := (value >>> 32).toUInt32
  let lo := value.toUInt32
  if hi = 0 then uint32Pack lo
  else
    let low := [(lo ||| 0x80).toUInt8, (lo >>> 7 ||| 0x80).toUInt8, (lo >>> 14 ||| 0x80).toUInt8,
      (lo >>> 21 ||| 0x80).toUInt8]
    if hi < 8 then low ++ [(hi <<< 4 ||| lo >>> 28).toUInt8]
    else low ++ ((hi &&& 7) <<< 4 ||| lo >>> 28 ||| 0x80).toUInt8 :: hiPack (hi >>> 3)

/-- `fixed64_pack`, on a little-endian machine. -/
def fixed64Pack (value : UInt64) : List UInt8 :=
  (List.range 8).map fun i => (value >>> (8 * i).toUInt64).toUInt8

/-- `tag_pack`: the number of a field above three bits that are still 0. -/
def tagPack (id : UInt32) : List UInt8 :=
  if id < 0x20000000 then uint32Pack (id <<< 3) else uint64Pack (id.toUInt64 <<< 3)

/-! ## Reading -/

/-- `parse_uint32`. -/
def parseUint32 (len : ℕ) (data : List UInt8) : UInt32 :=
  let group (i : ℕ) : UInt32 := (data.getD i 0 &&& 0x7F).toUInt32
  let rv := group 0
  if len > 1 then
    let rv := rv ||| group 1 <<< 7
    if len > 2 then
      let rv := rv ||| group 2 <<< 14
      if len > 3 then
        let rv := rv ||| group 3 <<< 21
        if len > 4 then rv ||| (data.getD 4 0).toUInt32 <<< 28 else rv
      else rv
    else rv
  else rv

/-- The loop of `parse_uint64`, from the fifth byte on. -/
def parseUint64Loop (rv shift : UInt64) : List UInt8 → UInt64
  | [] => rv
  | b :: data => parseUint64Loop (rv ||| (b &&& 0x7F).toUInt64 <<< shift) (shift + 7) data

/-- `parse_uint64`. -/
def parseUint64 (len : ℕ) (data : List UInt8) : UInt64 :=
  if len < 5 then (parseUint32 len data).toUInt64
  else
    let group (i : ℕ) : UInt64 := (data.getD i 0 &&& 0x7F).toUInt64
    let rv := group 0 ||| group 1 <<< 7 ||| group 2 <<< 14 ||| group 3 <<< 21
    parseUint64Loop rv 28 ((data.take len).drop 4)

/-- `parse_fixed_uint64`, on a little-endian machine. -/
def parseFixedUint64 (data : List UInt8) : UInt64 :=
  (data.take 8).foldr (fun b rest => b.toUInt64 ||| rest <<< 8) 0

/-! ## One group -/

theorem uint8_or_80 (b : UInt8) : (b ||| 0x80).toNat = b.toNat % 128 + 128 := by
  have hall : ∀ n < 256, (UInt8.ofNat n ||| 0x80).toNat = n % 128 + 128 := by decide +kernel
  have hb := hall b.toNat b.toNat_lt
  rwa [UInt8.ofNat_toNat] at hb

/-- A byte that is not the last takes the lowest seven bits. -/
theorem toNat_more32 (v : UInt32) : (v ||| 0x80).toUInt8.toNat = v.toNat % 128 + 128 := by
  rw [UInt32.toUInt8_or, show (0x80 : UInt32).toUInt8 = 0x80 from rfl, uint8_or_80,
    UInt32.toNat_toUInt8]
  omega

theorem toNat_shiftRight32 (v : UInt32) {s : UInt32} {k : ℕ} (hs : s.toNat = k) (hk : k < 32) :
    (v >>> s).toNat = v.toNat / 2 ^ k := by
  rw [UInt32.toNat_shiftRight, hs, Nat.mod_eq_of_lt hk, Nat.shiftRight_eq_div_pow]

/-- A value below 128 is its own form. -/
theorem isVarint_last32 {v : UInt32} (h : v.toNat < 128) : IsVarint v.toNat [v.toUInt8] := by
  have hbyte : v.toUInt8.toNat = v.toNat := by
    rw [UInt32.toNat_toUInt8]
    omega
  rw [← hbyte]
  exact .last (by omega)

theorem toNat_shiftRight7_32 (v : UInt32) : (v >>> 7).toNat = v.toNat / 128 :=
  toNat_shiftRight32 v (k := 7) rfl (by decide)

/-- A byte with the lowest seven bits of a number in front of the others. -/
theorem isVarint_more {n : ℕ} {b : UInt8} {bytes : List UInt8} (hb : b.toNat = n % 128 + 128)
    (h : IsVarint (n / 128) bytes) : IsVarint n (b :: bytes) := by
  have hn : n = b.toNat % 128 + 128 * (n / 128) := by omega
  rw [hn]
  exact .more (by omega) h

/-- The lowest seven bits of a value in front of the others. -/
theorem isVarint_more32 {v : UInt32} {bytes : List UInt8} (h : IsVarint (v >>> 7).toNat bytes) :
    IsVarint v.toNat ((v ||| 0x80).toUInt8 :: bytes) :=
  isVarint_more (toNat_more32 v) (toNat_shiftRight7_32 v ▸ h)

/-! ## What is written is a base-128 form -/

private theorem ge_80_iff (v : UInt32) : v ≥ 0x80 ↔ 128 ≤ v.toNat := UInt32.le_iff_toNat_le

/-- `uint32_pack` writes a base-128 form. -/
theorem uint32Pack_isVarint (v : UInt32) : IsVarint v.toNat (uint32Pack v) := by
  have hlt := v.toNat_lt
  simp only [uint32Pack, ge_80_iff, toNat_shiftRight7_32]
  split_ifs with h0 h1 h2 h3
  · refine isVarint_more32 (isVarint_more32 (isVarint_more32 (isVarint_more32
      (isVarint_last32 ?_))))
    simp only [toNat_shiftRight7_32]
    omega
  · refine isVarint_more32 (isVarint_more32 (isVarint_more32 (isVarint_last32 ?_)))
    simp only [toNat_shiftRight7_32]
    omega
  · refine isVarint_more32 (isVarint_more32 (isVarint_last32 ?_))
    simp only [toNat_shiftRight7_32]
    omega
  · refine isVarint_more32 (isVarint_last32 ?_)
    rw [toNat_shiftRight7_32]
    omega
  · exact isVarint_last32 (by omega)

/-- `uint32_size` is the length of what `uint32_pack` writes. -/
theorem length_uint32Pack (v : UInt32) : (uint32Pack v).length = uint32Size v := by
  simp only [uint32Pack, uint32Size, ge_80_iff, toNat_shiftRight7_32, UInt32.lt_iff_toNat_lt,
    UInt32.reduceToNat]
  split_ifs <;> simp only [List.length_cons, List.length_nil] <;> omega

private theorem hiPack_of_lt {hi : UInt32} (h : hi.toNat < 128) : hiPack hi = [hi.toUInt8] := by
  rw [hiPack, if_neg (by rw [ge_80_iff]; omega)]

private theorem hiPack_of_ge {hi : UInt32} (h : 128 ≤ hi.toNat) :
    hiPack hi = (hi ||| 0x80).toUInt8 :: hiPack (hi >>> 7) := by
  conv_lhs => rw [hiPack, if_pos ((ge_80_iff hi).mpr h)]

/-- The loop of `uint64_pack` writes what `uint32_pack` does. -/
theorem hiPack_eq (hi : UInt32) : hiPack hi = uint32Pack hi := by
  have hlt := hi.toNat_lt
  simp only [uint32Pack, ge_80_iff]
  split_ifs with h0 h1 h2 h3
  · have h4 : (hi >>> 7 >>> 7 >>> 7 >>> 7).toNat < 128 := by
      simp only [toNat_shiftRight7_32]
      omega
    rw [hiPack_of_ge h0, hiPack_of_ge h1, hiPack_of_ge h2, hiPack_of_ge h3, hiPack_of_lt h4]
  · rw [hiPack_of_ge h0, hiPack_of_ge h1, hiPack_of_ge h2, hiPack_of_lt (Nat.not_le.mp h3)]
  · rw [hiPack_of_ge h0, hiPack_of_ge h1, hiPack_of_lt (Nat.not_le.mp h2)]
  · rw [hiPack_of_ge h0, hiPack_of_lt (Nat.not_le.mp h1)]
  · exact hiPack_of_lt (Nat.not_le.mp h0)

/-- The two halves of a 64-bit value. -/
theorem halves (value : UInt64) : (value >>> 32).toUInt32.toNat = value.toNat / 2 ^ 32 ∧
    value.toUInt32.toNat = value.toNat % 2 ^ 32 := by
  have hlt := value.toNat_lt
  refine ⟨?_, UInt64.toNat_toUInt32 value⟩
  rw [UInt64.toNat_toUInt32, UInt64.toNat_shiftRight, Nat.shiftRight_eq_div_pow]
  simp only [UInt64.reduceToNat, Nat.reduceMod]
  omega

/-- The byte that takes the lowest three bits of the upper half and the highest four of the
lower one. -/
theorem toNat_middle {x y : UInt32} (hx : x.toNat < 8) :
    (x <<< 4 ||| y >>> 28).toNat = x.toNat * 16 + y.toNat / 2 ^ 28 := by
  have hy := y.toNat_lt
  have hlow : (y >>> 28).toNat = y.toNat / 2 ^ 28 :=
    toNat_shiftRight32 y (k := 28) rfl (by decide)
  have hhigh : (x <<< 4).toNat = x.toNat * 2 ^ 4 := by
    rw [UInt32.toNat_shiftLeft, Nat.shiftLeft_eq]
    simp only [UInt32.reduceToNat, Nat.reduceMod]
    omega
  rw [UInt32.toNat_or, Nat.or_comm, hlow, hhigh, or_eq_add (by omega)]
  omega

/-- `uint64_pack` writes a base-128 form. -/
theorem uint64Pack_isVarint (value : UInt64) : IsVarint value.toNat (uint64Pack value) := by
  obtain ⟨hhi, hlo⟩ := halves value
  have hlt := value.toNat_lt
  have hlo7 (s : UInt32) (k : ℕ) (hs : s.toNat = k) (hk : k < 32) :
      (value.toUInt32 >>> s ||| 0x80).toUInt8.toNat = value.toNat % 2 ^ 32 / 2 ^ k % 128 + 128 := by
    rw [toNat_more32, toNat_shiftRight32 _ hs hk, hlo]
  simp only [uint64Pack, ← UInt32.toNat_inj, UInt32.reduceToNat, UInt32.lt_iff_toNat_lt]
  by_cases hzero : (value >>> 32).toUInt32.toNat = 0
  · rw [if_pos hzero]
    have hsame : value.toUInt32.toNat = value.toNat := by omega
    rw [← hsame]
    exact uint32Pack_isVarint _
  · rw [if_neg hzero]
    have h1 := hlo7 7 7 rfl (by decide)
    have h2 := hlo7 14 14 rfl (by decide)
    have h3 := hlo7 21 21 rfl (by decide)
    split_ifs with hsmall
    · have hmid := toNat_middle (x := (value >>> 32).toUInt32) (y := value.toUInt32) hsmall
      have hlast := isVarint_last32
        (v := (value >>> 32).toUInt32 <<< 4 ||| value.toUInt32 >>> 28) (by omega)
      refine isVarint_more (by rw [toNat_more32]; omega) (isVarint_more (by omega)
        (isVarint_more (by omega) (isVarint_more (by omega) ?_)))
      have hrest : value.toNat / 128 / 128 / 128 / 128 =
          ((value >>> 32).toUInt32 <<< 4 ||| value.toUInt32 >>> 28).toNat := by omega
      rw [hrest]
      exact hlast
    · have hand : ((value >>> 32).toUInt32 &&& 7).toNat = value.toNat / 2 ^ 32 % 8 := by
        rw [UInt32.toNat_and, hhi]
        exact Nat.and_two_pow_sub_one_eq_mod _ 3
      have hmid := toNat_middle (x := (value >>> 32).toUInt32 &&& 7) (y := value.toUInt32)
        (by omega)
      have htop : ((value >>> 32).toUInt32 >>> 3).toNat = value.toNat / 2 ^ 32 / 2 ^ 3 := by
        rw [toNat_shiftRight32 _ (k := 3) rfl (by decide), hhi]
      refine isVarint_more (by rw [toNat_more32]; omega) (isVarint_more (by omega)
        (isVarint_more (by omega) (isVarint_more (by omega)
          (isVarint_more (by rw [toNat_more32]; omega) ?_))))
      have hrest : value.toNat / 128 / 128 / 128 / 128 / 128 =
          ((value >>> 32).toUInt32 >>> 3).toNat := by omega
      rw [hiPack_eq, hrest]
      exact uint32Pack_isVarint _

/-- `uint64_size` is the length of what `uint64_pack` writes. -/
theorem length_uint64Pack (value : UInt64) : (uint64Pack value).length = uint64Size value := by
  have htop : ((value >>> 32).toUInt32 >>> 3).toNat = (value >>> 32).toUInt32.toNat / 2 ^ 3 :=
    toNat_shiftRight32 _ (k := 3) rfl (by decide)
  simp only [uint64Pack, uint64Size, ← UInt32.toNat_inj, UInt32.lt_iff_toNat_lt,
    UInt32.reduceToNat]
  by_cases hzero : (value >>> 32).toUInt32.toNat = 0
  · rw [if_pos hzero, if_pos hzero, length_uint32Pack]
  · rw [if_neg hzero, if_neg hzero]
    by_cases hsmall : (value >>> 32).toUInt32.toNat < 8
    · rw [if_pos hsmall, if_pos hsmall]
      rfl
    · rw [if_neg hsmall, if_neg hsmall]
      simp only [List.length_append, List.length_cons, List.length_nil, hiPack_eq,
        length_uint32Pack, uint32Size, UInt32.lt_iff_toNat_lt, UInt32.reduceToNat, htop]
      split_ifs <;> omega

@[simp] theorem length_fixed64Pack (value : UInt64) : (fixed64Pack value).length = 8 := by
  simp [fixed64Pack]

/-! ## The number and the wire type of a field -/

private theorem toNat_shiftLeft3_32 {id : UInt32} (h : id.toNat < 2 ^ 29) :
    (id <<< 3).toNat = id.toNat * 8 := by
  rw [UInt32.toNat_shiftLeft, Nat.shiftLeft_eq]
  simp only [UInt32.reduceToNat, Nat.reduceMod]
  omega

private theorem toNat_shiftLeft3_64 (id : UInt32) : (id.toUInt64 <<< 3).toNat = id.toNat * 8 := by
  have hlt := id.toNat_lt
  rw [UInt64.toNat_shiftLeft, Nat.shiftLeft_eq, UInt32.toNat_toUInt64]
  simp only [UInt64.reduceToNat, Nat.reduceMod]
  omega

/-- `tag_pack` writes the number times eight. -/
theorem tagPack_isVarint (id : UInt32) : IsVarint (id.toNat * 8) (tagPack id) := by
  simp only [tagPack, UInt32.lt_iff_toNat_lt, UInt32.reduceToNat]
  split_ifs with hsmall
  · exact toNat_shiftLeft3_32 hsmall ▸ uint32Pack_isVarint _
  · exact toNat_shiftLeft3_64 id ▸ uint64Pack_isVarint _

/-- `get_tag_size` is the length of what `tag_pack` writes. -/
theorem length_tagPack (id : UInt32) : (tagPack id).length = getTagSize id := by
  have hlt := id.toNat_lt
  simp only [tagPack, getTagSize, UInt32.lt_iff_toNat_lt, UInt32.reduceToNat]
  by_cases hsmall : id.toNat < 0x20000000
  · rw [if_pos hsmall, length_uint32Pack]
    simp only [uint32Size, UInt32.lt_iff_toNat_lt, UInt32.reduceToNat, toNat_shiftLeft3_32 hsmall]
    split_ifs <;> omega
  · obtain ⟨hhi, -⟩ := halves (id.toUInt64 <<< 3)
    rw [if_neg hsmall, length_uint64Pack]
    simp only [uint64Size, ← UInt32.toNat_inj, UInt32.lt_iff_toNat_lt, UInt32.reduceToNat, hhi,
      toNat_shiftLeft3_64]
    split_ifs <;> omega

/-! ## Reading a base-128 form -/

/-- Bits or-ed in above the others are added, up to the width of the word. -/
theorem or_shiftLeft_mod {w k a b : ℕ} (hk : k < w) (ha : a < 2 ^ k) :
    a ||| (b <<< k % 2 ^ w) = (a + b * 2 ^ k) % 2 ^ w := by
  have hpow : 2 ^ w = 2 ^ (w - k) * 2 ^ k := by rw [← Nat.pow_add]; congr 1; omega
  have hb : b <<< k % 2 ^ w = b % 2 ^ (w - k) * 2 ^ k := by
    rw [Nat.shiftLeft_eq, hpow, Nat.mul_mod_mul_right]
  have hlt : a + b % 2 ^ (w - k) * 2 ^ k < 2 ^ w := by
    have hmod : b % 2 ^ (w - k) < 2 ^ (w - k) := Nat.mod_lt _ (Nat.two_pow_pos _)
    have hmul := Nat.mul_le_mul_right (2 ^ k) (Nat.succ_le_of_lt hmod)
    rw [Nat.succ_mul, ← hpow] at hmul
    omega
  rw [hb, or_eq_add ha, ← Nat.mod_eq_of_lt hlt, ← Nat.mul_mod_mul_right, ← hpow, Nat.add_mod_mod]

theorem toNat_or_shiftLeft32 {x y s : UInt32} {k : ℕ} (hs : s.toNat = k) (hk : k < 32)
    (hx : x.toNat < 2 ^ k) : (x ||| y <<< s).toNat = (x.toNat + y.toNat * 2 ^ k) % 2 ^ 32 := by
  rw [UInt32.toNat_or, UInt32.toNat_shiftLeft, hs, Nat.mod_eq_of_lt hk, or_shiftLeft_mod hk hx]

theorem toNat_or_shiftLeft64 {x y s : UInt64} {k : ℕ} (hs : s.toNat = k) (hk : k < 64)
    (hx : x.toNat < 2 ^ k) : (x ||| y <<< s).toNat = (x.toNat + y.toNat * 2 ^ k) % 2 ^ 64 := by
  rw [UInt64.toNat_or, UInt64.toNat_shiftLeft, hs, Nat.mod_eq_of_lt hk, or_shiftLeft_mod hk hx]

theorem toNat_group32 (b : UInt8) : (b &&& 0x7F).toUInt32.toNat = b.toNat % 128 := by
  rw [UInt8.toNat_toUInt32, toNat_and_7F]

theorem toNat_group64 (b : UInt8) : (b &&& 0x7F).toUInt64.toNat = b.toNat % 128 := by
  rw [UInt8.toNat_toUInt64, toNat_and_7F]

/-- `parse_uint32` as a loop, over at most five bytes. -/
def parseUint32Loop (rv shift : UInt32) : List UInt8 → UInt32
  | [] => rv
  | b :: data => parseUint32Loop (rv ||| (b &&& 0x7F).toUInt32 <<< shift) (shift + 7) data

/-- The top bit of the fifth byte is shifted out. -/
private theorem fifth_byte (b : UInt8) : (b &&& 0x7F).toUInt32 <<< 28 = b.toUInt32 <<< 28 := by
  apply UInt32.toNat_inj.mp
  rw [UInt32.toNat_shiftLeft, UInt32.toNat_shiftLeft, toNat_group32, UInt8.toNat_toUInt32,
    Nat.shiftLeft_eq, Nat.shiftLeft_eq]
  simp only [UInt32.reduceToNat, Nat.reduceMod]
  omega

theorem parseUint32_eq_loop (bytes : List UInt8) :
    parseUint32 bytes.length bytes = parseUint32Loop 0 0 (bytes.take 5) := by
  rcases bytes with _ | ⟨b0, _ | ⟨b1, _ | ⟨b2, _ | ⟨b3, _ | ⟨b4, bytes⟩⟩⟩⟩⟩
  case cons.cons.cons.cons.cons =>
      simp [parseUint32, parseUint32Loop, ← fifth_byte]
  all_goals simp [parseUint32, parseUint32Loop]

theorem toNat_shift32 {shift : UInt32} {k : ℕ} (hs : shift.toNat = k) (hk : k < 64) :
    (shift + 7).toNat = k + 7 := by
  have hseven : (7 : UInt32).toNat = 7 := rfl
  rw [UInt32.toNat_add, hs, hseven]
  omega

/-- A group in front of the others, in the value and in the sum. -/
theorem group_step {rv g n k w : ℕ} :
    ((rv + g * 2 ^ k) % w + n * 2 ^ (k + 7)) % w = (rv + (g + 128 * n) * 2 ^ k) % w := by
  have hpow : 2 ^ (k + 7) = 2 ^ k * 128 := Nat.pow_add 2 k 7
  rw [Nat.mod_add_mod, hpow]
  congr 1
  ring

theorem group_lt {rv g k w : ℕ} (hrv : rv < 2 ^ k) (hg : g < 128) :
    (rv + g * 2 ^ k) % w < 2 ^ (k + 7) := by
  have hpow : 2 ^ (k + 7) = 2 ^ k * 128 := Nat.pow_add 2 k 7
  have hmul : g * 2 ^ k ≤ 127 * 2 ^ k := Nat.mul_le_mul_right _ (by omega)
  have hmod := Nat.mod_le (rv + g * 2 ^ k) w
  omega

/-- The loop reads a base-128 form, and drops what does not fit. -/
theorem toNat_parseUint32Loop (m : ℕ) {n k : ℕ} {bytes : List UInt8} (h : IsVarint n bytes)
    (hm : k + 7 * m = 35) {rv shift : UInt32} (hs : shift.toNat = k) (hrv : rv.toNat < 2 ^ k) :
    (parseUint32Loop rv shift (bytes.take m)).toNat = (rv.toNat + n * 2 ^ k) % 2 ^ 32 := by
  induction m generalizing n k bytes rv shift with
  | zero =>
      have hlt := rv.toNat_lt
      obtain rfl : k = 35 := by omega
      simp only [List.take_zero, parseUint32Loop]
      omega
  | succ m ih =>
      have hor (b : UInt8) : (rv ||| (b &&& 0x7F).toUInt32 <<< shift).toNat =
          (rv.toNat + b.toNat % 128 * 2 ^ k) % 2 ^ 32 := by
        rw [toNat_or_shiftLeft32 hs (by omega) hrv, toNat_group32]
      cases h with
      | @last b hb =>
          rw [List.take_succ_cons, List.take_nil, parseUint32Loop, parseUint32Loop, hor,
            Nat.mod_eq_of_lt hb]
      | @more b n bytes hb h =>
          have hnext := group_lt (w := 2 ^ 32) hrv (Nat.mod_lt b.toNat (by decide : 0 < 128))
          rw [List.take_succ_cons, parseUint32Loop,
            ih h (by omega) (toNat_shift32 hs (by omega)) (by rw [hor]; exact hnext), hor,
            group_step]

/-- `parse_uint32` reads a base-128 form, and drops what does not fit. -/
theorem parseUint32_eq {n : ℕ} {bytes : List UInt8} (h : IsVarint n bytes) :
    (parseUint32 bytes.length bytes).toNat = n % 2 ^ 32 := by
  rw [parseUint32_eq_loop, toNat_parseUint32Loop 5 h (k := 0) rfl rfl (by decide)]
  simp

/-- The loop reads a base-128 form, and drops what does not fit. -/
theorem toNat_parseUint64Loop (m : ℕ) {n k : ℕ} {bytes : List UInt8} (h : IsVarint n bytes)
    (hm : k + 7 * m = 70) {rv shift : UInt64} (hs : shift.toNat = k) (hrv : rv.toNat < 2 ^ k) :
    (parseUint64Loop rv shift (bytes.take m)).toNat = (rv.toNat + n * 2 ^ k) % 2 ^ 64 := by
  induction m generalizing n k bytes rv shift with
  | zero =>
      have hlt := rv.toNat_lt
      obtain rfl : k = 70 := by omega
      simp only [List.take_zero, parseUint64Loop]
      omega
  | succ m ih =>
      have hor (b : UInt8) : (rv ||| (b &&& 0x7F).toUInt64 <<< shift).toNat =
          (rv.toNat + b.toNat % 128 * 2 ^ k) % 2 ^ 64 := by
        rw [toNat_or_shiftLeft64 hs (by omega) hrv, toNat_group64]
      have hshift : (shift + 7).toNat = k + 7 := by
        have hseven : (7 : UInt64).toNat = 7 := rfl
        rw [UInt64.toNat_add, hs, hseven]
        omega
      cases h with
      | @last b hb =>
          rw [List.take_succ_cons, List.take_nil, parseUint64Loop, parseUint64Loop, hor,
            Nat.mod_eq_of_lt hb]
      | @more b n bytes hb h =>
          have hnext := group_lt (w := 2 ^ 64) hrv (Nat.mod_lt b.toNat (by decide : 0 < 128))
          rw [List.take_succ_cons, parseUint64Loop,
            ih h (by omega) hshift (by rw [hor]; exact hnext), hor, group_step]

/-- From five bytes on, `parse_uint64` is its loop over all of them. -/
private theorem parseUint64_eq_loop {bytes : List UInt8} (h : 5 ≤ bytes.length) :
    parseUint64 bytes.length bytes = parseUint64Loop 0 0 bytes := by
  rcases bytes with _ | ⟨b0, _ | ⟨b1, _ | ⟨b2, _ | ⟨b3, bytes⟩⟩⟩⟩
  case cons.cons.cons.cons =>
      have hlen : ¬ bytes.length + 1 + 1 + 1 + 1 < 5 := Nat.not_lt.mpr h
      have hcut : bytes.take bytes.length = bytes := List.take_length
      simp [parseUint64, parseUint64Loop, hlen, hcut]
  all_goals simp at h

/-- `parse_uint64` reads a base-128 form of at most ten bytes, and drops what does not fit. -/
theorem parseUint64_eq {n : ℕ} {bytes : List UInt8} (h : IsVarint n bytes)
    (hten : bytes.length ≤ 10) : (parseUint64 bytes.length bytes).toNat = n % 2 ^ 64 := by
  by_cases hshort : bytes.length < 5
  · have hlt : n < 128 ^ 4 :=
      Nat.lt_of_lt_of_le h.lt_pow (Nat.pow_le_pow_right (by decide) (by omega))
    rw [parseUint64, if_pos hshort, UInt32.toNat_toUInt64, parseUint32_eq h]
    omega
  · rw [parseUint64_eq_loop (Nat.not_lt.mp hshort)]
    have hloop := @toNat_parseUint64Loop 10 n 0 bytes h rfl 0 0 rfl (by decide)
    rw [List.take_of_length_le hten] at hloop
    simpa using hloop

/-- `parse_fixed_uint64` reads back what `fixed64_pack` wrote. -/
theorem parseFixedUint64_fixed64Pack (value : UInt64) :
    parseFixedUint64 (fixed64Pack value) = value := by
  have hlt := value.toNat_lt
  have hstep (i : ℕ) (hi : 8 * i < 64) (rest : UInt64) :
      ((value >>> (8 * i).toUInt64).toUInt8.toUInt64 ||| rest <<< 8).toNat =
        (value.toNat / 2 ^ (8 * i) % 256 + rest.toNat * 2 ^ 8) % 2 ^ 64 := by
    have hshift : (8 * i).toUInt64.toNat = 8 * i := by
      rw [Nat.toUInt64_eq, UInt64.toNat_ofNat']
      omega
    have hbyte : (value >>> (8 * i).toUInt64).toUInt8.toUInt64.toNat =
        value.toNat / 2 ^ (8 * i) % 256 := by
      rw [UInt8.toNat_toUInt64, UInt64.toNat_toUInt8, UInt64.toNat_shiftRight, hshift,
        Nat.mod_eq_of_lt hi, Nat.shiftRight_eq_div_pow]
    rw [toNat_or_shiftLeft64 (k := 8) rfl (by decide) (by rw [hbyte]; omega), hbyte]
  apply UInt64.toNat_inj.mp
  have hzero : (0 : UInt64).toNat = 0 := rfl
  simp only [parseFixedUint64, fixed64Pack, List.range, List.range.loop, List.map_cons,
    List.map_nil, List.take_succ_cons, List.take_nil, List.foldr_cons, List.foldr_nil]
  rw [hstep 0 (by decide), hstep 1 (by decide), hstep 2 (by decide), hstep 3 (by decide),
    hstep 4 (by decide), hstep 5 (by decide), hstep 6 (by decide), hstep 7 (by decide), hzero]
  omega

/-! ## Lengths -/

theorem uint32Size_le (v : UInt32) : uint32Size v ≤ 5 := by
  unfold uint32Size
  split_ifs <;> decide

theorem uint64Size_le (v : UInt64) : uint64Size v ≤ 10 := by
  have h := uint32Size_le v.toUInt32
  simp only [uint64Size]
  split_ifs <;> omega

theorem getTagSize_le (number : UInt32) : getTagSize number ≤ 5 := by
  unfold getTagSize
  split_ifs <;> decide

end MonitoringTool.Sniffer.Protobuf
