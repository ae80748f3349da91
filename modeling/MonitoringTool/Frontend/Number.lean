import Mathlib.Algebra.Order.Ring.Int
import Mathlib.Data.List.Basic
import Mathlib.Data.List.TakeWhile
import Mathlib.Data.Nat.Size

/-!
# Numbers of JavaScript without a fraction

`parseInt` and the bit operators answer whole numbers, `NaN` or an infinity.  A whole number
that a double does not hold is rounded to the nearest one, to the even one of two, and from
2^1024 on to an infinity.  The two zeros are one here: no code that is modelled tells them
apart.  Strings are lists of characters.
-/

namespace MonitoringTool.Frontend

/-- A Number that is no fraction. -/
inductive Number where
  | nan : Number
  | infinity (negative : Bool) : Number
  | int (n : ℤ) : Number
  deriving DecidableEq

/-! ## Rounding -/

/-- The nearest number of 53 significant bits, the even one of two. -/
def roundNat (n : ℕ) : ℕ :=
  let ulp := 2 ^ (n.size - 53)
  let up := 2 * (n % ulp) > ulp ∨ (2 * (n % ulp) = ulp ∧ n / ulp % 2 = 1)
  (n / ulp + if up then 1 else 0) * ulp

/-- The exponent at which doubles end. -/
def maxExponent : ℕ := 1024

/-- The Number for an integer. -/
def Number.ofInt (n : ℤ) : Number :=
  if 2 ^ maxExponent ≤ roundNat n.natAbs then .infinity (n < 0)
  else .int (n.sign * roundNat n.natAbs)

/-- Small numbers are not rounded. -/
theorem roundNat_of_lt {n : ℕ} (h : n < 2 ^ 53) : roundNat n = n := by
  have hsize : n.size - 53 = 0 := Nat.sub_eq_zero_of_le (Nat.size_le.mpr h)
  simp [roundNat, hsize, Nat.mod_one]

theorem Number.ofInt_of_lt {n : ℤ} (h : n.natAbs < 2 ^ 53) : ofInt n = .int n := by
  have hlt : ¬ 2 ^ maxExponent ≤ n.natAbs := by
    have hpow : (2 : ℕ) ^ 53 ≤ 2 ^ maxExponent := Nat.pow_le_pow_right (by decide) (by decide)
    exact Nat.not_le.mpr (h.trans_le hpow)
  rw [ofInt, roundNat_of_lt h, if_neg hlt, Int.sign_mul_natAbs]

/-- Rounding does not go below 2^53. -/
theorem le_roundNat {n : ℕ} (h : 2 ^ 53 ≤ n) : 2 ^ 53 ≤ roundNat n := by
  have hsize : 53 < n.size := Nat.lt_size.mpr h
  obtain ⟨k, hk⟩ : ∃ k, n.size = 53 + (k + 1) := ⟨n.size - 54, by omega⟩
  have hlow : 2 ^ (53 + k) ≤ n := Nat.lt_size.mp (by omega)
  have hquot : 2 ^ 52 ≤ n / 2 ^ (k + 1) := by
    rw [Nat.le_div_iff_mul_le (Nat.two_pow_pos _), ← Nat.pow_add]
    exact (Nat.pow_le_pow_right (by decide) (by omega)).trans hlow
  have hexp : n.size - 53 = k + 1 := by omega
  unfold roundNat
  rw [hexp]
  calc 2 ^ 53 = 2 ^ 52 * 2 ^ 1 := by decide
    _ ≤ 2 ^ 52 * 2 ^ (k + 1) := Nat.mul_le_mul_left _ (Nat.pow_le_pow_right (by decide) (by omega))
    _ ≤ (n / 2 ^ (k + 1) + _) * 2 ^ (k + 1) :=
      Nat.mul_le_mul_right _ (hquot.trans (Nat.le_add_right _ _))

/-- Rounding is by less than half. -/
theorem roundNat_bounds (n : ℕ) : n ≤ 2 * roundNat n ∧ roundNat n ≤ 2 * n := by
  rcases Nat.eq_zero_or_pos n with rfl | hpos
  · exact ⟨Nat.zero_le _, by decide⟩
  · have hulp : 2 ^ (n.size - 53) ≤ n := by
      have hsize : 0 < n.size := Nat.size_pos.mpr hpos
      exact (Nat.pow_le_pow_right (by decide) (by omega)).trans
        (Nat.lt_size.mp (Nat.sub_lt hsize Nat.one_pos))
    have hquot : 1 ≤ n / 2 ^ (n.size - 53) := (Nat.one_le_div_iff (Nat.two_pow_pos _)).mpr hulp
    have hdiv := Nat.div_add_mod' n (2 ^ (n.size - 53))
    have hmod := Nat.mod_lt n (Nat.two_pow_pos (n.size - 53))
    obtain ⟨up, hup, hround⟩ : ∃ up ≤ 1, roundNat n =
        (n / 2 ^ (n.size - 53) + up) * 2 ^ (n.size - 53) := ⟨_, by split <;> decide, rfl⟩
    have hone : 2 ^ (n.size - 53) ≤ n / 2 ^ (n.size - 53) * 2 ^ (n.size - 53) :=
      Nat.le_mul_of_pos_left _ hquot
    have hmul : up * 2 ^ (n.size - 53) ≤ 1 * 2 ^ (n.size - 53) := Nat.mul_le_mul_right _ hup
    rw [Nat.add_mul] at hround
    omega

theorem Number.ofInt_eq_int_iff {n m : ℕ} :
    ofInt n = .int m ↔ roundNat n < 2 ^ maxExponent ∧ roundNat n = m := by
  have hsign : (n : ℤ).sign * roundNat n = roundNat n := by
    rcases Nat.eq_zero_or_pos n with rfl | hpos
    · rfl
    · rw [Int.sign_eq_one_of_pos (by exact_mod_cast hpos), one_mul]
  unfold ofInt
  rw [Int.natAbs_natCast, hsign]
  constructor
  · intro h
    split at h
    · cases h
    · next hlt => exact ⟨Nat.not_le.mp hlt, by exact_mod_cast Number.int.inj h⟩
  · rintro ⟨hlt, rfl⟩
    rw [if_neg (Nat.not_le.mpr hlt)]

/-- The Number for an integer is near it. -/
theorem Number.ofInt_bounds {n m : ℕ} (h : ofInt n = .int m) : n ≤ 2 * m ∧ m ≤ 2 * n := by
  obtain ⟨-, rfl⟩ := ofInt_eq_int_iff.mp h
  exact roundNat_bounds n

/-- A Number below 2^53 is that of no other integer. -/
theorem Number.ofInt_eq_int {n m : ℕ} (hm : m < 2 ^ 53) : ofInt n = .int m ↔ n = m := by
  constructor
  · intro h
    by_cases hn : n < 2 ^ 53
    · rw [ofInt_of_lt (by simpa using hn)] at h
      exact_mod_cast Number.int.inj h
    · have hround : 2 ^ 53 ≤ roundNat n := le_roundNat (Nat.not_lt.mp hn)
      have heq : roundNat n = m := (ofInt_eq_int_iff.mp h).2
      omega
  · rintro rfl
    exact ofInt_of_lt (by simpa using hm)

/-! ## Operators -/

/-- `+`. -/
def Number.add : Number → Number → Number
  | .nan, _ => .nan
  | _, .nan => .nan
  | .infinity a, .infinity b => if a = b then .infinity a else .nan
  | .infinity a, .int _ => .infinity a
  | .int _, .infinity b => .infinity b
  | .int m, .int n => ofInt (m + n)

/-- The 32-bit number that a bit operator takes of an operand. -/
def Number.toInt32 : Number → Int32
  | .int n => Int32.ofInt n
  | _ => 0

/-- `x << k`. -/
def Number.shiftLeft (x : Number) (k : Int32) : Number := .int (x.toInt32 <<< k).toInt

/-- `x >>> 0`. -/
def Number.toUint32 (x : Number) : Number := .int x.toInt32.toUInt32.toNat

/-! ## `parseInt` -/

/-- White space and line terminators. -/
def isStrWhiteSpace (c : Char) : Bool :=
  c.toNat ∈ [0x09, 0x0a, 0x0b, 0x0c, 0x0d, 0x20, 0xa0, 0x1680, 0x2028, 0x2029, 0x202f, 0x205f,
    0x3000, 0xfeff] || (0x2000 ≤ c.toNat && c.toNat ≤ 0x200a)

/-- The value of a digit, 36 if the character is none. -/
def digitValue (c : Char) : ℕ :=
  if 48 ≤ c.toNat ∧ c.toNat ≤ 57 then c.toNat - 48
  else if 97 ≤ c.toNat ∧ c.toNat ≤ 122 then c.toNat - 87
  else if 65 ≤ c.toNat ∧ c.toNat ≤ 90 then c.toNat - 55
  else 36

/-- The value of digits. -/
def mathInt (radix : ℕ) (digits : List Char) : ℕ :=
  digits.foldl (fun v c => radix * v + digitValue c) 0

/-- The sign of a number, and what stands behind it. -/
def takeSign : List Char → Bool × List Char
  | '-' :: s => (true, s)
  | '+' :: s => (false, s)
  | s => (false, s)

/-- `0x` or `0X`: the rest of the text. -/
def takeHexPrefix : List Char → Option (List Char)
  | '0' :: 'x' :: s => some s
  | '0' :: 'X' :: s => some s
  | _ => none

/-- `parseInt(string, radix)`, with radix 0 if none is given. -/
def parseInt (string : List Char) (radix : ℕ) : Number :=
  if radix ≠ 0 ∧ (radix < 2 ∨ 36 < radix) then .nan
  else
    let (negative, s) := takeSign (string.dropWhile isStrWhiteSpace)
    let (r, s) :=
      if radix = 0 ∨ radix = 16 then
        match takeHexPrefix s with
        | some s => (16, s)
        | none => (if radix = 0 then 10 else radix, s)
      else (radix, s)
    let digits := s.takeWhile fun c => digitValue c < r
    if digits = [] then .nan
    else .ofInt (if negative then -(mathInt r digits : ℤ) else mathInt r digits)

/-! ## Decimal digits -/

theorem isDigit_iff {c : Char} : c.isDigit ↔ 48 ≤ c.toNat ∧ c.toNat ≤ 57 := by
  simp [Char.isDigit, UInt32.le_iff_toNat_le]

theorem digitValue_lt_ten_iff {c : Char} : digitValue c < 10 ↔ c.isDigit := by
  rw [isDigit_iff]
  unfold digitValue
  split
  · omega
  · split
    · omega
    · split <;> omega

theorem digitValue_of_isDigit {c : Char} (h : c.isDigit) : digitValue c = c.toNat - '0'.toNat :=
  if_pos (isDigit_iff.mp h)

theorem mathInt_decimal {digits : List Char} (h : ∀ c ∈ digits, c.isDigit) :
    mathInt 10 digits = Nat.ofDigitChars 10 digits 0 := by
  unfold mathInt
  rw [Nat.ofDigitChars_eq_foldl]
  refine List.foldl_ext _ _ _ fun v c hc => ?_
  rw [digitValue_of_isDigit (h c hc)]

/-- A digit is no white space, no sign and no letter of a prefix. -/
theorem isDigit_apart {c : Char} (h : c.isDigit) :
    isStrWhiteSpace c = false ∧ c ≠ '-' ∧ c ≠ '+' ∧ c ≠ 'x' ∧ c ≠ 'X' := by
  have hrange := isDigit_iff.mp h
  have hne : ∀ d : Char, d.toNat < 48 ∨ 57 < d.toNat → c ≠ d := by
    rintro d hd rfl
    omega
  refine ⟨?_, hne _ (by decide), hne _ (by decide), hne _ (by decide), hne _ (by decide)⟩
  simp only [isStrWhiteSpace, Bool.or_eq_false_iff, decide_eq_false_iff_not]
  refine ⟨?_, ?_⟩
  · intro hmem
    have hout : ∀ k ∈ [0x09, 0x0a, 0x0b, 0x0c, 0x0d, 0x20, 0xa0, 0x1680, 0x2028, 0x2029, 0x202f,
        0x205f, 0x3000, 0xfeff], k < 48 ∨ 57 < k := by
      decide
    have hk := hout _ hmem
    omega
  · simp
    omega

theorem takeHexPrefix_digits {digits rest : List Char} (hdigits : ∀ c ∈ digits, c.isDigit)
    (hne : digits ≠ []) (hrest : ∀ c ∈ rest.head?, c ≠ 'x' ∧ c ≠ 'X') :
    takeHexPrefix (digits ++ rest) = none := by
  have hsecond : ∀ c d s, digits ++ rest = c :: d :: s → d ≠ 'x' ∧ d ≠ 'X' := by
    intro c d s heq
    match digits, hne with
    | [e], _ =>
        obtain ⟨-, rfl⟩ := List.cons_eq_cons.mp heq
        exact hrest d rfl
    | e :: f :: digits, _ =>
        obtain rfl : f = d := (List.cons_eq_cons.mp (List.cons_eq_cons.mp heq).2).1
        obtain ⟨-, -, -, hx, hX⟩ := isDigit_apart (hdigits f (by simp))
        exact ⟨hx, hX⟩
  unfold takeHexPrefix
  split
  · next s heq => exact absurd rfl (hsecond _ _ _ heq).1
  · next s heq => exact absurd rfl (hsecond _ _ _ heq).2
  · rfl

theorem takeWhile_digitValue (s : List Char) :
    s.takeWhile (fun c => digitValue c < 10) = s.takeWhile Char.isDigit := by
  have hdigit : (fun c => decide (digitValue c < 10)) = Char.isDigit := by
    funext c
    rw [Bool.eq_iff_iff, decide_eq_true_iff, digitValue_lt_ten_iff]
  rw [hdigit]

/-- `parseInt` of a text in decimal: it stops at the first character that is no digit. -/
theorem parseInt_decimal {string s : List Char} {negative : Bool} {radix : ℕ}
    (hsign : takeSign (string.dropWhile isStrWhiteSpace) = (negative, s))
    (hhex : takeHexPrefix s = none) (hradix : radix = 0 ∨ radix = 10) :
    parseInt string radix =
      if s.takeWhile Char.isDigit = [] then .nan
      else
        .ofInt (if negative then -(Nat.ofDigitChars 10 (s.takeWhile Char.isDigit) 0 : ℤ)
          else Nat.ofDigitChars 10 (s.takeWhile Char.isDigit) 0) := by
  have hrange : ¬ (radix ≠ 0 ∧ (radix < 2 ∨ 36 < radix)) := by
    rcases hradix with rfl | rfl <;> omega
  have hdigits : ∀ c ∈ s.takeWhile Char.isDigit, c.isDigit := fun c hc =>
    List.mem_takeWhile_imp hc
  unfold parseInt
  rw [if_neg hrange, hsign]
  rcases hradix with rfl | rfl
  · simp only [hhex, true_or, if_true, takeWhile_digitValue, mathInt_decimal hdigits]
  · simp only [OfNat.ofNat_ne_zero, Nat.reduceEqDiff, or_self, if_false, takeWhile_digitValue,
      mathInt_decimal hdigits]

/-- What `parseInt` makes of digits behind blanks. -/
theorem parseInt_digits {blanks digits rest : List Char} {radix : ℕ}
    (hblanks : ∀ c ∈ blanks, isStrWhiteSpace c = true) (hdigits : ∀ c ∈ digits, c.isDigit)
    (hne : digits ≠ []) (hrest : ∀ c ∈ rest.head?, ¬ c.isDigit ∧ c ≠ 'x' ∧ c ≠ 'X')
    (hradix : radix = 0 ∨ radix = 10) :
    parseInt (blanks ++ (digits ++ rest)) radix =
      .ofInt (Nat.ofDigitChars 10 digits 0 : ℕ) := by
  have hhead : ∀ c s, digits ++ rest = c :: s → c.isDigit := by
    intro c s heq
    obtain ⟨d, tail, rfl⟩ := List.exists_cons_of_ne_nil hne
    obtain ⟨rfl, -⟩ := List.cons_eq_cons.mp heq
    exact hdigits d (by simp)
  have hstart : (blanks ++ (digits ++ rest)).dropWhile isStrWhiteSpace = digits ++ rest := by
    rw [List.dropWhile_append_of_pos hblanks]
    cases hs : digits ++ rest with
    | nil => rfl
    | cons c s =>
        have hspace := (isDigit_apart (hhead c s hs)).1
        simp [hspace]
  have hsign : takeSign (digits ++ rest) = (false, digits ++ rest) := by
    unfold takeSign
    split
    · next s heq => exact absurd rfl (isDigit_apart (hhead _ s heq)).2.1
    · next s heq => exact absurd rfl (isDigit_apart (hhead _ s heq)).2.2.1
    · rfl
  have hhex := takeHexPrefix_digits hdigits hne fun c hc => (hrest c hc).2
  have htake : (digits ++ rest).takeWhile Char.isDigit = digits := by
    rw [List.takeWhile_append_of_pos hdigits]
    cases rest with
    | nil => simp
    | cons c rest => simp [(hrest c rfl).1]
  have hparse := parseInt_decimal ((congrArg takeSign hstart).trans hsign) hhex hradix
  rw [hparse, htake, if_neg hne]
  rfl

/-- A number in decimal. -/
theorem parseInt_toDigits {n : ℕ} (h : n < 2 ^ 53) :
    parseInt (Nat.toDigits 10 n) 10 = .int n := by
  have hdigits : ∀ c ∈ Nat.toDigits 10 n, c.isDigit :=
    fun c hc => Nat.isDigit_of_mem_toDigits (by decide) (by decide) hc
  have hparse : parseInt ([] ++ (Nat.toDigits 10 n ++ [])) 10 = _ :=
    parseInt_digits (by simp) hdigits Nat.toDigits_ne_nil (by simp) (.inr rfl)
  rw [List.append_nil, List.nil_append, Nat.ofDigitChars_ten_toDigits] at hparse
  rw [hparse]
  exact Number.ofInt_of_lt (by simpa using h)

end MonitoringTool.Frontend
