import Mathlib.Algebra.Order.Field.Power
import Mathlib.Algebra.Order.Field.Rat
import Mathlib.Data.List.DropRight
import MonitoringTool.Frontend.Number

/-!
# Texts as Numbers

`isNaN(text)` and `text > 0` read the whole of a text as a numeric literal, which may have a
point and an exponent.  `parseInt(text)` stops at the first character that is no digit.
`readsValue_iff` says when both read the same number.
-/

namespace MonitoringTool.Frontend

/-! ## Literals -/

/-- A text without the white space around it. -/
def trim (text : List Char) : List Char :=
  (text.dropWhile isStrWhiteSpace).rdropWhile isStrWhiteSpace

/-- A decimal literal without its sign. -/
structure DecimalLiteral where
  intDigits : List Char
  fracDigits : List Char
  exponent : ℤ

inductive NumericLiteral where
  | empty : NumericLiteral
  | integer (radix : ℕ) (digits : List Char) : NumericLiteral
  | infinity (negative : Bool) : NumericLiteral
  | decimal (negative : Bool) (literal : DecimalLiteral) : NumericLiteral

/-- What stands behind the digits: nothing, or `e` and a whole number. -/
def exponentPart : List Char → Option ℤ
  | [] => some 0
  | c :: s =>
      if c = 'e' ∨ c = 'E' then
        let (negative, digits) := takeSign s
        if digits ≠ [] ∧ digits.all Char.isDigit then
          if negative then some (-(Nat.ofDigitChars 10 digits 0 : ℤ))
          else some (Nat.ofDigitChars 10 digits 0)
        else none
      else none

/-- The digits behind a point, and what stands behind them. -/
def fraction : List Char → List Char × List Char
  | '.' :: s => (s.takeWhile Char.isDigit, s.dropWhile Char.isDigit)
  | s => ([], s)

def decimalLiteral (s : List Char) : Option DecimalLiteral :=
  let intDigits := s.takeWhile Char.isDigit
  let (fracDigits, rest) := fraction (s.dropWhile Char.isDigit)
  if intDigits = [] ∧ fracDigits = [] then none
  else (exponentPart rest).map fun exponent => ⟨intDigits, fracDigits, exponent⟩

/-- `0b`, `0o` or `0x`: the radix and the rest of the text. -/
def takeRadix : List Char → Option (ℕ × List Char)
  | '0' :: 'b' :: s => some (2, s)
  | '0' :: 'B' :: s => some (2, s)
  | '0' :: 'o' :: s => some (8, s)
  | '0' :: 'O' :: s => some (8, s)
  | s => (takeHexPrefix s).map fun s => (16, s)

/-- The text as a literal; `none` if it is `NaN`. -/
def numericLiteral (text : List Char) : Option NumericLiteral :=
  let s := trim text
  if s = [] then some .empty
  else
    match takeRadix s with
    | some (radix, digits) =>
        if digits ≠ [] ∧ digits.all (digitValue · < radix) then some (.integer radix digits)
        else none
    | none =>
        let (negative, s) := takeSign s
        if s = "Infinity".toList then some (.infinity negative)
        else (decimalLiteral s).map (.decimal negative)

/-- The value of a literal; `none` if it is infinite. -/
def NumericLiteral.value : NumericLiteral → Option ℚ
  | .empty => some 0
  | .integer radix digits => some (mathInt radix digits)
  | .infinity _ => none
  | .decimal negative literal =>
      let value := Nat.ofDigitChars 10 (literal.intDigits ++ literal.fracDigits) 0 *
        (10 : ℚ) ^ (literal.exponent - literal.fracDigits.length)
      some (if negative then -value else value)

/-- `literal > 0`: a value up to 2^-1075 is rounded to 0. -/
def NumericLiteral.isPositive (literal : NumericLiteral) : Bool :=
  match literal with
  | .infinity negative => !negative
  | _ => literal.value.any fun value => (2 : ℚ) ^ (-1075 : ℤ) < value

/-- `isNaN(text)`. -/
def isNaN (text : List Char) : Bool := (numericLiteral text).isNone

/-- `text > 0`. -/
def greaterZero (text : List Char) : Bool := (numericLiteral text).any (·.isPositive)

/-! ## White space behind a text -/

/-- White space is a digit in no radix. -/
theorem digitValue_of_space {c : Char} (h : isStrWhiteSpace c = true) : digitValue c = 36 := by
  simp only [isStrWhiteSpace, Bool.or_eq_true, decide_eq_true_eq, Bool.and_eq_true, List.mem_cons,
    List.not_mem_nil, or_false] at h
  unfold digitValue
  rw [if_neg (by omega), if_neg (by omega), if_neg (by omega)]

theorem space_apart {c : Char} (h : isStrWhiteSpace c = true) : c ≠ '0' ∧ c ≠ 'x' ∧ c ≠ 'X' := by
  have hvalue := digitValue_of_space h
  refine ⟨?_, ?_, ?_⟩ <;> rintro rfl <;> exact absurd hvalue (by decide)

theorem takeWhile_append_of_none {p : Char → Bool} {t : List Char} (ht : ∀ c ∈ t, p c = false)
    (s : List Char) : (s ++ t).takeWhile p = s.takeWhile p := by
  have hnil : t.takeWhile p = [] := by
    cases t with
    | nil => rfl
    | cons c t => simp [ht c (by simp)]
  rw [List.takeWhile_append, hnil]
  split
  · next hall => rw [List.append_nil, (List.takeWhile_prefix p).eq_of_length hall]
  · rfl

section Trailing

variable {s t : List Char} (ht : ∀ c ∈ t, isStrWhiteSpace c = true)

theorem takeSign_append (hs : s ≠ []) (t : List Char) :
    takeSign (s ++ t) = ((takeSign s).1, (takeSign s).2 ++ t) := by
  obtain ⟨c, s, rfl⟩ := List.exists_cons_of_ne_nil hs
  by_cases hminus : c = '-'
  · subst hminus
    rfl
  · by_cases hplus : c = '+'
    · subst hplus
      rfl
    · simp [takeSign, hminus, hplus]

theorem takeHexPrefix_cons (a b : Char) (s : List Char) :
    takeHexPrefix (a :: b :: s) = if a = '0' ∧ (b = 'x' ∨ b = 'X') then some s else none := by
  unfold takeHexPrefix
  split
  · next heq =>
      obtain ⟨rfl, rfl, rfl⟩ := by simpa using heq
      rfl
  · next heq =>
      obtain ⟨rfl, rfl, rfl⟩ := by simpa using heq
      rfl
  · next hx hX =>
      rw [if_neg]
      rintro ⟨rfl, rfl | rfl⟩
      · exact hx s rfl
      · exact hX s rfl

include ht

theorem takeHexPrefix_append : takeHexPrefix (s ++ t) = (takeHexPrefix s).map (· ++ t) := by
  match s with
  | [] =>
      cases t with
      | nil => rfl
      | cons c t =>
          have hc := (space_apart (ht c (by simp))).1
          simp [takeHexPrefix, hc]
  | [a] =>
      cases t with
      | nil => simp [takeHexPrefix]
      | cons c t =>
          obtain ⟨-, hx, hX⟩ := space_apart (ht c (by simp))
          simp [takeHexPrefix, hx, hX]
  | a :: b :: s =>
      rw [List.cons_append, List.cons_append, takeHexPrefix_cons, takeHexPrefix_cons]
      split <;> rfl

end Trailing

/-! ## `parseInt` of a literal -/

section Literals

variable {text s : List Char}

/-- `parseInt` does not skip the white space behind the text. -/
theorem dropWhile_eq_trim (text : List Char) :
    ∃ t, text.dropWhile isStrWhiteSpace = trim text ++ t ∧ ∀ c ∈ t, isStrWhiteSpace c = true :=
  ⟨_, List.rdropWhile_append_rtakeWhile.symm, fun _ hc => List.mem_rtakeWhile_imp hc⟩

theorem parseInt_trim (hs : trim text ≠ []) {negative : Bool}
    (hsign : takeSign (trim text) = (negative, s)) (hhex : takeHexPrefix s = none) :
    parseInt text 0 =
      if s.takeWhile Char.isDigit = [] then .nan
      else
        .ofInt (if negative then -(Nat.ofDigitChars 10 (s.takeWhile Char.isDigit) 0 : ℤ)
          else Nat.ofDigitChars 10 (s.takeWhile Char.isDigit) 0) := by
  obtain ⟨t, htext, ht⟩ := dropWhile_eq_trim text
  have hsign' : takeSign (text.dropWhile isStrWhiteSpace) = (negative, s ++ t) := by
    rw [htext, takeSign_append hs, hsign]
  have hhex' : takeHexPrefix (s ++ t) = none := by
    rw [takeHexPrefix_append ht, hhex]
    rfl
  have htake : (s ++ t).takeWhile Char.isDigit = s.takeWhile Char.isDigit := by
    refine takeWhile_append_of_none (fun c hc => ?_) s
    by_contra hdigit
    have hspace := (isDigit_apart (Bool.of_not_eq_false hdigit)).1
    rw [ht c hc] at hspace
    cases hspace
  rw [parseInt_decimal hsign' hhex' (.inl rfl), htake]

theorem parseInt_hex (hhex : takeHexPrefix (trim text) = some s) (hne : s ≠ [])
    (hdigits : ∀ c ∈ s, digitValue c < 16) : parseInt text 0 = .ofInt (mathInt 16 s : ℕ) := by
  obtain ⟨t, htext, ht⟩ := dropWhile_eq_trim text
  have hhex' : takeHexPrefix (trim text ++ t) = some (s ++ t) := by
    rw [takeHexPrefix_append ht, hhex]
    rfl
  have hsign : takeSign (trim text ++ t) = (false, trim text ++ t) := by
    obtain ⟨a, more, hmore⟩ : ∃ a more, trim text = '0' :: a :: more := by
      unfold takeHexPrefix at hhex
      split at hhex
      · next heq => exact ⟨_, _, heq⟩
      · next heq => exact ⟨_, _, heq⟩
      · cases hhex
    rw [hmore]
    rfl
  have htake : (s ++ t).takeWhile (fun c => digitValue c < 16) = s := by
    have hspace : ∀ c ∈ t, decide (digitValue c < 16) = false := by
      intro c hc
      rw [digitValue_of_space (ht c hc)]
      rfl
    rw [takeWhile_append_of_none hspace]
    exact List.takeWhile_eq_self_iff.mpr fun c hc => decide_eq_true (hdigits c hc)
  unfold parseInt
  rw [htext, hsign]
  simp [hhex', htake, hne]

theorem takeRadix_some {radix : ℕ} {digits : List Char} (h : takeRadix s = some (radix, digits)) :
    (radix = 16 ∧ takeHexPrefix s = some digits) ∨
      radix ≠ 16 ∧ ∃ c, s = '0' :: c :: digits ∧ c.isDigit = false ∧ c ≠ 'x' ∧ c ≠ 'X' := by
  unfold takeRadix at h
  split at h
  all_goals try
    obtain ⟨rfl, rfl⟩ := Prod.mk.inj (Option.some.inj h)
    exact .inr ⟨by decide, _, rfl, by decide⟩
  obtain ⟨rest, hrest, heq⟩ := Option.map_eq_some_iff.mp h
  obtain ⟨rfl, rfl⟩ := Prod.mk.inj heq
  exact .inl ⟨rfl, hrest⟩

theorem decimalLiteral_some {literal : DecimalLiteral} (h : decimalLiteral s = some literal) :
    literal.intDigits = s.takeWhile Char.isDigit ∧ (∀ c ∈ literal.fracDigits, c.isDigit) ∧
      takeHexPrefix s = none := by
  have hfraction : ∀ rest, ∀ c ∈ (fraction rest).1, c.isDigit := by
    intro rest c hc
    unfold fraction at hc
    split at hc
    · exact List.mem_takeWhile_imp hc
    · cases hc
  have hhex : takeHexPrefix s = none := by
    by_contra hsome
    obtain ⟨a, more, rfl, ha⟩ : ∃ a more, s = '0' :: a :: more ∧ (a = 'x' ∨ a = 'X') := by
      unfold takeHexPrefix at hsome
      split at hsome
      · exact ⟨_, _, rfl, .inl rfl⟩
      · exact ⟨_, _, rfl, .inr rfl⟩
      · exact absurd rfl hsome
    have hnone : decimalLiteral ('0' :: a :: more) = none := by
      rcases ha with rfl | rfl <;> rfl
    rw [hnone] at h
    cases h
  unfold decimalLiteral at h
  simp only at h
  split at h
  · cases h
  · obtain ⟨e, -, rfl⟩ := Option.map_eq_some_iff.mp h
    exact ⟨rfl, hfraction _, hhex⟩

end Literals

/-! ## The value of a literal -/

section Digits

/-- The first digit and the others. -/
theorem ofDigitChars_cons (c : Char) (cs : List Char) : Nat.ofDigitChars 10 (c :: cs) 0 =
    10 ^ cs.length * (c.toNat - 48) + Nat.ofDigitChars 10 cs 0 := by
  rw [Nat.ofDigitChars_cons, Nat.ofDigitChars_eq_ofDigitChars_zero, Nat.mul_zero, Nat.zero_add]
  rfl

variable {digits : List Char} (h : ∀ c ∈ digits, c.isDigit)

include h

theorem ofDigitChars_lt : Nat.ofDigitChars 10 digits 0 < 10 ^ digits.length := by
  induction digits with
  | nil => simp
  | cons c cs ih =>
      have hc := isDigit_iff.mp (h c (by simp))
      have hrest := ih fun d hd => h d (by simp [hd])
      have hle : 10 ^ cs.length * (c.toNat - 48) ≤ 10 ^ cs.length * 9 :=
        Nat.mul_le_mul_left _ (by omega)
      rw [ofDigitChars_cons, List.length_cons, Nat.pow_succ]
      omega

theorem ofDigitChars_eq_zero_iff : Nat.ofDigitChars 10 digits 0 = 0 ↔ ∀ c ∈ digits, c = '0' := by
  induction digits with
  | nil => simp
  | cons c cs ih =>
      have hc := isDigit_iff.mp (h c (by simp))
      have hrest := ih fun d hd => h d (by simp [hd])
      have hchar : c.toNat - 48 = 0 ↔ c = '0' := by
        rw [Char.ext_iff, ← UInt32.toNat_inj]
        exact ⟨fun hle => by simpa using (by omega : c.toNat = 48), fun heq => by
          have heq' : c.toNat = 48 := heq
          omega⟩
      rw [ofDigitChars_cons, Nat.add_eq_zero_iff, Nat.mul_eq_zero, hrest]
      simp [hchar]

end Digits

/-- A decimal literal near its integer part is its integer part. -/
theorem decimal_value_iff {int frac k n : ℕ} {e : ℤ} (hfrac : frac < 10 ^ k) (hn : 0 < n)
    (hint : int ≤ 2 * n) (hround : n ≤ 2 * int) :
    ((10 ^ k * int + frac : ℕ) : ℚ) * 10 ^ (e - k) = n ↔ e = 0 ∧ frac = 0 ∧ int = n := by
  have hten : (10 : ℚ) ≠ 0 := by decide
  have hk : 0 < 10 ^ k := Nat.pow_pos (by decide)
  have hn' : 0 < n * 10 ^ k := Nat.mul_pos hn hk
  have hscaled : ((10 ^ k * int + frac : ℕ) : ℚ) * 10 ^ (e - k) = n ↔
      ((10 ^ k * int + frac : ℕ) : ℚ) * 10 ^ e = n * 10 ^ k := by
    rw [zpow_sub₀ hten, zpow_natCast, ← mul_div_assoc, div_eq_iff (pow_ne_zero k hten)]
  have hint' : 10 ^ k * int ≤ 2 * (n * 10 ^ k) := by
    calc 10 ^ k * int ≤ 10 ^ k * (2 * n) := Nat.mul_le_mul_left _ hint
      _ = 2 * (n * 10 ^ k) := by rw [Nat.mul_comm, Nat.mul_assoc]
  have hround' : n * 10 ^ k ≤ 2 * (10 ^ k * int) := by
    calc n * 10 ^ k ≤ 2 * int * 10 ^ k := Nat.mul_le_mul_right _ hround
      _ = 2 * (10 ^ k * int) := by rw [Nat.mul_assoc, Nat.mul_comm int]
  rw [hscaled]
  constructor
  · intro h
    cases e with
    | ofNat j =>
        have hnat : (10 ^ k * int + frac) * 10 ^ j = n * 10 ^ k := by
          rw [Int.ofNat_eq_natCast, zpow_natCast] at h
          exact_mod_cast h
        cases j with
        | zero =>
            have hdiv : (10 ^ k * int + frac) / 10 ^ k = n := by
              rw [← Nat.mul_one (10 ^ k * int + frac), ← Nat.pow_zero 10, hnat,
                Nat.mul_div_cancel n hk]
            rw [Nat.mul_add_div hk, Nat.div_eq_of_lt hfrac, Nat.add_zero] at hdiv
            rw [hdiv, Nat.pow_zero, Nat.mul_one, Nat.mul_comm (10 ^ k)] at hnat
            exact ⟨rfl, by omega, hdiv⟩
        | succ j =>
            have hgrow : (10 ^ k * int + frac) * 10 ≤ n * 10 ^ k := by
              rw [← hnat, Nat.pow_succ]
              exact Nat.mul_le_mul_left _ (Nat.le_mul_of_pos_left _ (Nat.pow_pos (by decide)))
            omega
    | negSucc j =>
        have hnat : 10 ^ k * int + frac = n * 10 ^ k * 10 ^ (j + 1) := by
          rw [zpow_negSucc, ← div_eq_mul_inv, div_eq_iff (pow_ne_zero _ hten)] at h
          exact_mod_cast h
        have hgrow : n * 10 ^ k * 10 ≤ 10 ^ k * int + frac := by
          rw [hnat, Nat.pow_succ]
          exact Nat.mul_le_mul_left _ (Nat.le_mul_of_pos_left _ (Nat.pow_pos (by decide)))
        have hone : 10 ^ k ≤ n * 10 ^ k := Nat.le_mul_of_pos_left _ hn
        omega
  · rintro ⟨rfl, rfl, rfl⟩
    rw [zpow_zero, mul_one, Nat.add_zero, Nat.mul_comm]
    norm_cast

/-- A double holds the integer. -/
def HoldsExactly (n : ℕ) : Prop := roundNat n = n ∧ n < 2 ^ maxExponent

theorem Number.ofInt_eq_self_iff (n : ℕ) : ofInt n = .int n ↔ HoldsExactly n := by
  rw [ofInt_eq_int_iff]
  constructor
  · rintro ⟨hlt, hround⟩
    exact ⟨hround, hround ▸ hlt⟩
  · rintro ⟨hround, hlt⟩
    exact ⟨hround.symm ▸ hlt, hround⟩

/-- A literal that `parseInt` reads as it is meant: in hexadecimal or in decimal with nothing
but zeros behind the point and in the exponent. -/
def NumericLiteral.IsWhole : NumericLiteral → Prop
  | .integer radix digits => radix = 16 ∧ HoldsExactly (mathInt 16 digits)
  | .decimal _ literal =>
      (∀ c ∈ literal.fracDigits, c = '0') ∧ literal.exponent = 0 ∧
        HoldsExactly (Nat.ofDigitChars 10 literal.intDigits 0)
  | _ => False

/-- `parseInt` reads the positive integer that the text stands for. -/
def ReadsValue (text : List Char) (literal : NumericLiteral) : Prop :=
  ∃ n : ℕ, 0 < n ∧ parseInt text 0 = .int n ∧ literal.value = some (n : ℚ)

section Value

variable {text : List Char}

theorem value_pos {literal : NumericLiteral} (hpos : literal.isPositive = true) {value : ℚ}
    (hvalue : literal.value = some value) : 0 < value := by
  have hlt : (2 : ℚ) ^ (-1075 : ℤ) < value := by
    cases literal with
    | infinity negative => cases hvalue
    | _ => simpa [NumericLiteral.isPositive, hvalue] using hpos
  exact (zpow_pos (by decide) _).trans hlt

theorem readsValue_integer {radix : ℕ} {digits : List Char}
    (hradix : takeRadix (trim text) = some (radix, digits)) (hne : digits ≠ [])
    (hdigits : ∀ c ∈ digits, digitValue c < radix)
    (hpos : (NumericLiteral.integer radix digits).isPositive = true) :
    ReadsValue text (.integer radix digits) ↔ (NumericLiteral.integer radix digits).IsWhole := by
  rcases takeRadix_some hradix with ⟨rfl, hhex⟩ | ⟨hother, c, htext, hc, hx, hX⟩
  · have hparse := parseInt_hex hhex hne hdigits
    have hvalue : (0 : ℚ) < mathInt 16 digits := value_pos hpos rfl
    constructor
    · rintro ⟨n, -, hn, hvalue⟩
      have heq : mathInt 16 digits = n := by exact_mod_cast Option.some.inj hvalue
      refine ⟨rfl, (Number.ofInt_eq_self_iff _).mp ?_⟩
      rw [← hparse, hn, heq]
    · rintro ⟨-, hexact⟩
      refine ⟨mathInt 16 digits, by exact_mod_cast hvalue, ?_, rfl⟩
      rw [hparse]
      exact (Number.ofInt_eq_self_iff _).mpr hexact
  · -- `0b` and `0o`: the number ends at the letter
    have hhex : takeHexPrefix (trim text) = none := by
      rw [htext, takeHexPrefix_cons]
      simp [hx, hX]
    have hsign : takeSign (trim text) = (false, trim text) := by
      rw [htext]
      rfl
    have htake : (trim text).takeWhile Char.isDigit = ['0'] := by
      rw [htext]
      simp [hc]
    have hparse : parseInt text 0 = .int 0 := by
      have hzero : (Nat.ofDigitChars 10 ['0'] 0 : ℤ) = 0 := rfl
      rw [parseInt_trim (by simp [htext]) hsign hhex, htake, if_neg (by simp),
        if_neg (by simp), hzero]
      exact Number.ofInt_of_lt (by decide)
    refine iff_of_false ?_ fun h => hother h.1
    rintro ⟨n, hn, hint, -⟩
    rw [hparse] at hint
    have hzero : (0 : ℤ) = n := Number.int.inj hint
    omega

/-- A literal with a minus is not positive. -/
theorem not_negative {negative : Bool} {literal : DecimalLiteral}
    (hpos : (NumericLiteral.decimal negative literal).isPositive = true) : negative = false := by
  cases negative with
  | false => rfl
  | true =>
      have hlt := value_pos hpos rfl
      have hle : (0 : ℚ) ≤ Nat.ofDigitChars 10 (literal.intDigits ++ literal.fracDigits) 0 *
          (10 : ℚ) ^ (literal.exponent - literal.fracDigits.length) :=
        mul_nonneg (Nat.cast_nonneg _) (zpow_nonneg (by decide) _)
      exact absurd hlt (not_lt.mpr (neg_nonpos.mpr hle))

/-- The digits before the point and those behind it. -/
theorem decimal_value (literal : DecimalLiteral) :
    (NumericLiteral.decimal false literal).value =
      some (((10 ^ literal.fracDigits.length * Nat.ofDigitChars 10 literal.intDigits 0 +
        Nat.ofDigitChars 10 literal.fracDigits 0 : ℕ) : ℚ) *
          10 ^ (literal.exponent - literal.fracDigits.length)) := by
  rw [← Nat.ofDigitChars_eq_ofDigitChars_zero, ← Nat.ofDigitChars_append]
  rfl

theorem readsValue_decimal {negative : Bool} {s : List Char} {literal : DecimalLiteral}
    (hne : trim text ≠ []) (hsign : takeSign (trim text) = (negative, s))
    (hliteral : decimalLiteral s = some literal)
    (hpos : (NumericLiteral.decimal negative literal).isPositive = true) :
    ReadsValue text (.decimal negative literal) ↔
      (NumericLiteral.decimal negative literal).IsWhole := by
  obtain ⟨hint, hfrac, hhex⟩ := decimalLiteral_some hliteral
  obtain rfl := not_negative hpos
  have hparse := parseInt_trim hne hsign hhex
  rw [← hint] at hparse
  have hvalue := decimal_value literal
  have hbound := ofDigitChars_lt hfrac
  have hzeros := ofDigitChars_eq_zero_iff hfrac
  constructor
  · rintro ⟨n, hn, hnumber, hn'⟩
    rw [hparse] at hnumber
    split at hnumber
    · cases hnumber
    · have hofInt : Number.ofInt (Nat.ofDigitChars 10 literal.intDigits 0 : ℕ) = .int n := hnumber
      obtain ⟨hint_le, hn_le⟩ := Number.ofInt_bounds hofInt
      rw [hvalue] at hn'
      obtain ⟨he, hzero, heq⟩ := (decimal_value_iff hbound hn hint_le hn_le).mp
        (Option.some.inj hn')
      refine ⟨hzeros.mp hzero, he, (Number.ofInt_eq_self_iff _).mp ?_⟩
      rw [heq] at hofInt ⊢
      exact hofInt
  · rintro ⟨hzero, he, hexact⟩
    have hintPos : 0 < Nat.ofDigitChars 10 literal.intDigits 0 := by
      rcases Nat.eq_zero_or_pos (Nat.ofDigitChars 10 literal.intDigits 0) with hnil | hintPos
      · have hlt := value_pos hpos hvalue
        rw [hnil, hzeros.mpr hzero] at hlt
        simp at hlt
      · exact hintPos
    have hdigits : literal.intDigits ≠ [] := by
      intro hnil
      rw [hnil] at hintPos
      exact absurd hintPos (by decide)
    refine ⟨_, hintPos, ?_, hvalue.trans (congrArg some ?_)⟩
    · rw [hparse, if_neg hdigits]
      exact (Number.ofInt_eq_self_iff _).mpr hexact
    · exact (decimal_value_iff hbound hintPos (by omega) (by omega)).mpr
        ⟨he, hzeros.mpr hzero, rfl⟩

/-- What the form compares with 0 and what `parseInt` reads are the same positive integer
exactly for the literals without a fraction or an exponent that a double holds. -/
theorem readsValue_iff {literal : NumericLiteral} (h : numericLiteral text = some literal)
    (hpos : literal.isPositive = true) : ReadsValue text literal ↔ literal.IsWhole := by
  unfold numericLiteral at h
  simp only at h
  split at h
  · obtain rfl := Option.some.inj h
    exact absurd (value_pos hpos rfl) (lt_irrefl 0)
  · next hne =>
      split at h
      · next radix digits hradix =>
          split at h
          · next hdigits =>
              have hall : ∀ c ∈ digits, digitValue c < radix := by simpa using hdigits.2
              obtain rfl := Option.some.inj h
              exact readsValue_integer hradix hdigits.1 hall hpos
          · cases h
      · split at h
        · obtain rfl := Option.some.inj h
          refine iff_of_false ?_ id
          rintro ⟨n, -, -, hvalue⟩
          cases hvalue
        · obtain ⟨literal, hliteral, rfl⟩ := Option.map_eq_some_iff.mp h
          exact readsValue_decimal hne rfl hliteral hpos

end Value

end MonitoringTool.Frontend
