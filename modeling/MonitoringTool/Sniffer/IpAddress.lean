import MonitoringTool.Sniffer.Metrics.MetricCumDistr

/-!
# `ip_ntos` and `ip_ston`

`ip_ntos` prints an address as four decimal numbers.  `ip_ston` reads one to four numbers,
decimal, octal or hexadecimal by their prefix, and puts them together by how many there are.
What the first prints the second reads: a part that is zero is printed as a lone `0`, which
switches to octal but has no further digit, and no other part begins with `0`.
-/

namespace MonitoringTool.Sniffer

/-! ## Characters -/

def isascii (c : UInt8) : Bool := c < 128

def isdigit (c : UInt8) : Bool := 48 ≤ c && c ≤ 57

def islower (c : UInt8) : Bool := 97 ≤ c && c ≤ 122

def isxdigit (c : UInt8) : Bool := isdigit c || (65 ≤ c && c ≤ 70) || (97 ≤ c && c ≤ 102)

def isspace (c : UInt8) : Bool := c = SP || (9 ≤ c && c ≤ 13)

def DOT : UInt8 := 46

/-! ## `ip_ston` -/

/-- The digits of a number: its value, and the text from the first other byte on. -/
def collectDigits (base : UInt32) : (val : UInt32) → (cp : List UInt8) →
    Option (UInt32 × List UInt8)
  | _, [] => none
  | val, c :: cp =>
      if isascii c && isdigit c then collectDigits base (val * base + (c.toUInt32 - 48)) cp
      else if base = 16 && isascii c && isxdigit c then
        collectDigits base ((val <<< 4) ||| (c.toUInt32 + 10 - if islower c then 97 else 65)) cp
      else some (val, c :: cp)

/-- "0x=hex, 0=octal, isdigit=decimal": the base, and the text behind the prefix. -/
def numberBase : List UInt8 → Option (UInt32 × List UInt8)
  | [] => none
  | c :: cp =>
      if c = 48 then
        match cp with
        | [] => none
        | c :: cp => if c = 120 || c = 88 then some (16, cp) else some (8, c :: cp)
      else some (10, c :: cp)

/-- One number; `none` inside is the return of 0 at a text that begins with no digit. -/
def collectNumber (cp : List UInt8) : Option (Option (UInt32 × List UInt8)) := do
  if !isdigit (← cp.head?) then return none
  let (base, cp) ← numberBase cp
  return some (← collectDigits base 0 cp)

/-- What stands in `parts`, `val` and at `cp` behind the loop. -/
structure Collected where
  parts : List UInt32
  val : UInt32
  cp : List UInt8
  deriving DecidableEq

/-- "Collect number up to ``.''", with room for so many more parts. -/
def collectParts : (room : ℕ) → (parts : List UInt32) → (cp : List UInt8) →
    Option (Option Collected)
  | room, parts, cp => do
      match ← collectNumber cp with
      | none => return none
      | some (val, cp) =>
          if (← cp.head?) = DOT then
            match room with
            | 0 => return none
            | room + 1 => collectParts room (parts ++ [val]) cp.tail
          else return some ⟨parts, val, cp⟩

/-- "Concoct the address according to the number of parts specified". -/
def concoct : (parts : List UInt32) → (val : UInt32) → UInt32
  | [a], val => if val > 0xffffff || a > 0xff then 0 else val ||| (a <<< 24)
  | [a, b], val =>
      if val > 0xffff || a > 0xff || b > 0xff then 0 else val ||| ((a <<< 24) ||| (b <<< 16))
  | [a, b, c], val =>
      if val > 0xff || a > 0xff || b > 0xff || c > 0xff then 0
      else val ||| ((a <<< 24) ||| (b <<< 16) ||| (c <<< 8))
  | _, val => val

/-- `ip_ston`.  A read behind the memory from `cp` on is the outer `none`. -/
def ipSton (cp : List UInt8) : Option UInt32 := do
  match ← collectParts 3 [] cp with
  | none => return 0
  | some ⟨parts, val, cp⟩ =>
      let c ← cp.head?
      if c ≠ 0 && (!isascii c || !isspace c) then return 0
      else return concoct parts val

/-! ## Decimal numbers -/

theorem head?_toDigits_ne_zero {n : ℕ} (h : 0 < n) : (Nat.toDigits 10 n).head? ≠ some '0' := by
  induction n using Nat.strong_induction_on with
  | _ n ih =>
      by_cases hlt : n < 10
      · rw [Nat.toDigits_of_lt_base hlt]
        simp
        omega
      · have hrest : Nat.toDigits 10 (n / 10) ≠ [] := Nat.toDigits_ne_nil
        rw [Nat.toDigits_of_base_le (by omega) (by omega), List.head?_append_of_ne_nil _ hrest]
        exact ih (n / 10) (by omega) (by omega)

/-- The byte of a digit. -/
theorem digit_byte {d : Char} (h : d.isDigit) :
    (isascii (UInt8.ofNat d.toNat) && isdigit (UInt8.ofNat d.toNat)) = true ∧
      (UInt8.ofNat d.toNat).toUInt32 - 48 = UInt32.ofNat (d.toNat - 48) := by
  obtain ⟨k, hk, hd⟩ : ∃ k < 10, d.toNat = 48 + k := by
    have hrange : 48 ≤ d.toNat ∧ d.toNat ≤ 57 := by
      simpa [Char.isDigit, UInt32.le_iff_toNat_le] using h
    exact ⟨d.toNat - 48, by omega, by omega⟩
  have hall : ∀ k < 10, (isascii (UInt8.ofNat (48 + k)) && isdigit (UInt8.ofNat (48 + k))) = true ∧
      (UInt8.ofNat (48 + k)).toUInt32 - 48 = UInt32.ofNat (48 + k - 48) := by
    decide
  rw [hd]
  exact hall k hk

/-- The digits of a decimal number are read up to the byte behind them. -/
theorem collectDigits_decimal {digits : List Char} (hdigits : ∀ d ∈ digits, d.isDigit) {c : UInt8}
    (hc : isdigit c = false) (rest : List UInt8) (val : ℕ) :
    collectDigits 10 (UInt32.ofNat val)
        (digits.map (fun d => UInt8.ofNat d.toNat) ++ c :: rest) =
      some (UInt32.ofNat (Nat.ofDigitChars 10 digits val), c :: rest) := by
  induction digits generalizing val with
  | nil =>
      have hbase : ((10 : UInt32) = 16) = False := by decide
      simp [collectDigits, hc]
  | cons d digits ih =>
      obtain ⟨hdigit, hvalue⟩ := digit_byte (hdigits d (by simp))
      rw [List.map_cons, List.cons_append, collectDigits, if_pos hdigit, hvalue]
      have hstep : UInt32.ofNat val * 10 + UInt32.ofNat (d.toNat - 48) =
          UInt32.ofNat (10 * val + (d.toNat - 48)) := by
        rw [UInt32.ofNat_add, UInt32.ofNat_mul, UInt32.mul_comm]
        rfl
      rw [hstep, ih (fun x hx => hdigits x (by simp [hx])), Nat.ofDigitChars_cons]
      rfl

/-- A number that is printed in decimal is read again, up to a byte that belongs to none. -/
theorem collectNumber_decimal (n : UInt32) {c : UInt8} (hc : isdigit c = false)
    (hx : (c = 120 || c = 88) = false) (rest : List UInt8) :
    collectNumber (decimal n ++ c :: rest) = some (some (n, c :: rest)) := by
  by_cases hzero : n = 0
  · -- a lone 0 switches to octal
    subst hzero
    have hdecimal : decimal 0 = [48] := by decide
    have hdigits : collectDigits 8 0 (c :: rest) = some (0, c :: rest) := by
      simp [collectDigits, hc]
    have hprefix : numberBase (48 :: c :: rest) = some (8, c :: rest) := by
      simp only [numberBase, if_true, hx, Bool.false_eq_true, if_false]
    have hhead : isdigit 48 = true := by decide
    simp only [hdecimal, List.cons_append, List.nil_append, collectNumber, List.head?_cons,
      Option.bind_eq_bind, Option.bind_some, hhead, hprefix, hdigits]
    rfl
  · have hpos : 0 < n.toNat := by
      have hne : n.toNat ≠ 0 := fun h => hzero (UInt32.toNat_inj.mp h)
      omega
    have hdigits : ∀ d ∈ Nat.toDigits 10 n.toNat, d.isDigit :=
      fun d hd => Nat.isDigit_of_mem_toDigits (by decide) (by decide) hd
    have hread := collectDigits_decimal hdigits hc rest 0
    have hhead := head?_toDigits_ne_zero hpos
    rw [Nat.ofDigitChars_ten_toDigits, UInt32.ofNat_toNat] at hread
    unfold decimal
    cases hchars : Nat.toDigits 10 n.toNat with
    | nil => exact absurd hchars Nat.toDigits_ne_nil
    | cons d digits =>
        rw [hchars] at hread hhead hdigits
        have hd := hdigits d (by simp)
        have hdigit : isdigit (UInt8.ofNat d.toNat) = true :=
          (Bool.and_eq_true_iff.mp (digit_byte hd).1).2
        have hne : UInt8.ofNat d.toNat ≠ 48 := by
          intro heq
          have hrange : d.toNat ≤ 57 := by
            have hd' : 48 ≤ d.toNat ∧ d.toNat ≤ 57 := by
              simpa [Char.isDigit, UInt32.le_iff_toNat_le] using hd
            exact hd'.2
          have hcode : d.toNat % 2 ^ 8 = 48 := congrArg UInt8.toNat heq
          have hchar : d = '0' := Char.toNat_inj.mp (by
            rw [Nat.mod_eq_of_lt (by omega)] at hcode
            exact hcode)
          exact hhead (by rw [hchar]; rfl)
        have hprefix : ∀ cp, numberBase (UInt8.ofNat d.toNat :: cp) =
            some (10, UInt8.ofNat d.toNat :: cp) := fun cp => if_neg hne
        rw [List.map_cons, List.cons_append] at hread ⊢
        simp only [collectNumber, List.head?_cons, Option.bind_eq_bind, Option.bind_some, hdigit,
          hprefix]
        have hread' : collectDigits 10 0 _ = _ := hread
        simp only [hread']
        rfl

theorem collectParts_dot (room : ℕ) (parts : List UInt32) (n : UInt32) (rest : List UInt8) :
    collectParts (room + 1) parts (decimal n ++ DOT :: rest) =
      collectParts room (parts ++ [n]) rest := by
  rw [collectParts, collectNumber_decimal n (by decide) (by decide)]
  rfl

theorem collectParts_end (room : ℕ) (parts : List UInt32) (n : UInt32) {rest : List UInt8} :
    collectParts room parts (decimal n ++ 0 :: rest) = some (some ⟨parts, n, 0 :: rest⟩) := by
  cases room <;> rw [collectParts, collectNumber_decimal n (by decide) (by decide)] <;> rfl

/-! ## The four numbers of an address -/

/-- The number that `ip_ntos` prints at a place. -/
def octet (n : UInt32) (shift : ℕ) : ℕ := n.toNat / 2 ^ shift % 256

theorem octet_lt (n : UInt32) (shift : ℕ) : octet n shift < 256 := Nat.mod_lt _ (by decide)

theorem sum_octets (n : UInt32) :
    octet n 24 * 2 ^ 24 + octet n 16 * 2 ^ 16 + octet n 8 * 2 ^ 8 + octet n 0 = n.toNat := by
  have hlt := n.toNat_lt
  unfold octet
  omega

theorem toNat_octets (n : UInt32) :
    ((n &&& 0xff000000) >>> 24).toNat = octet n 24 ∧
      ((n &&& 0x00ff0000) >>> 16).toNat = octet n 16 ∧
      ((n &&& 0x0000ff00) >>> 8).toNat = octet n 8 ∧
      ((n &&& 0x000000ff) >>> 0).toNat = octet n 0 := by
  have hmask : ∀ shift, (n.toNat &&& (255 <<< shift)) >>> shift = octet n shift := by
    intro shift
    rw [Nat.shiftRight_and_distrib, Nat.shiftLeft_shiftRight, Nat.shiftRight_eq_div_pow]
    exact Nat.and_two_pow_sub_one_eq_mod _ 8
  refine ⟨?_, ?_, ?_, ?_⟩
  · rw [UInt32.toNat_shiftRight, UInt32.toNat_and]
    exact hmask 24
  · rw [UInt32.toNat_shiftRight, UInt32.toNat_and]
    exact hmask 16
  · rw [UInt32.toNat_shiftRight, UInt32.toNat_and]
    exact hmask 8
  · rw [UInt32.toNat_shiftRight, UInt32.toNat_and]
    exact hmask 0

/-- Four parts below 256 are put together to the number that they are the octets of. -/
theorem concoct_octets {a b c d : UInt32} (ha : a.toNat < 256) (hb : b.toNat < 256)
    (hc : c.toNat < 256) (hd : d.toNat < 256) :
    (concoct [a, b, c] d).toNat =
      a.toNat * 2 ^ 24 + b.toNat * 2 ^ 16 + c.toNat * 2 ^ 8 + d.toNat := by
  have hsmall : ∀ x : UInt32, x.toNat < 256 → ¬ x > 0xff := by
    intro x hx hgt
    have hgt' : 255 < x.toNat := UInt32.lt_iff_toNat_lt.mp hgt
    omega
  have hguard : (d > 0xff || a > 0xff || b > 0xff || c > 0xff) = false := by
    simp [hsmall a ha, hsmall b hb, hsmall c hc, hsmall d hd]
  have hshift : ∀ (x : UInt32) (k : UInt32), k.toNat ≤ 24 → x.toNat < 256 →
      (x <<< k).toNat = 2 ^ k.toNat * x.toNat := by
    intro x k hk hx
    have hle : 2 ^ k.toNat ≤ 2 ^ 24 := Nat.pow_le_pow_right (by decide) hk
    rw [UInt32.toNat_shiftLeft, Nat.mod_eq_of_lt (by omega : k.toNat < 32), Nat.shiftLeft_eq,
      Nat.mul_comm, Nat.mod_eq_of_lt]
    calc 2 ^ k.toNat * x.toNat ≤ 2 ^ 24 * x.toNat := Nat.mul_le_mul_right _ hle
      _ < 2 ^ 32 := by omega
  have hvalue : concoct [a, b, c] d = d ||| ((a <<< 24) ||| (b <<< 16) ||| (c <<< 8)) := by
    simp only [concoct, hguard, Bool.false_eq_true, if_false]
  have h24 : (a <<< 24).toNat = 2 ^ 24 * a.toNat := hshift a 24 (by decide) ha
  have h16 : (b <<< 16).toNat = 2 ^ 16 * b.toNat := hshift b 16 (by decide) hb
  have h8 : (c <<< 8).toNat = 2 ^ 8 * c.toNat := hshift c 8 (by decide) hc
  have hab : 2 ^ 24 * a.toNat ||| 2 ^ 16 * b.toNat = 2 ^ 24 * a.toNat + 2 ^ 16 * b.toNat :=
    (Nat.two_pow_add_eq_or_of_lt (by omega) _).symm
  have habc : 2 ^ 24 * a.toNat + 2 ^ 16 * b.toNat ||| 2 ^ 8 * c.toNat =
      2 ^ 16 * (2 ^ 8 * a.toNat + b.toNat) + 2 ^ 8 * c.toNat := by
    have hsum : 2 ^ 24 * a.toNat + 2 ^ 16 * b.toNat = 2 ^ 16 * (2 ^ 8 * a.toNat + b.toNat) := by
      omega
    rw [hsum]
    exact (Nat.two_pow_add_eq_or_of_lt (by omega) _).symm
  have habcd : d.toNat ||| (2 ^ 16 * (2 ^ 8 * a.toNat + b.toNat) + 2 ^ 8 * c.toNat) =
      2 ^ 8 * (2 ^ 8 * (2 ^ 8 * a.toNat + b.toNat) + c.toNat) + d.toNat := by
    have hsum : 2 ^ 16 * (2 ^ 8 * a.toNat + b.toNat) + 2 ^ 8 * c.toNat =
        2 ^ 8 * (2 ^ 8 * (2 ^ 8 * a.toNat + b.toNat) + c.toNat) := by
      omega
    rw [hsum, Nat.or_comm]
    exact (Nat.two_pow_add_eq_or_of_lt (by omega) _).symm
  rw [hvalue, UInt32.toNat_or, UInt32.toNat_or, UInt32.toNat_or, h24, h16, h8, hab, habc, habcd]
  omega

/-- `ip_ston` reads what `ip_ntos` prints. -/
theorem ipSton_ipNtos (n : UInt32) (rest : List UInt8) :
    ipSton (ipNtos n ++ 0 :: rest) = some n := by
  have hdot : chars "." = [DOT] := by decide
  obtain ⟨h24, h16, h8, h0⟩ := toNat_octets n
  have hlt := octet_lt n
  unfold ipSton ipNtos
  simp only [hdot, List.append_assoc, List.cons_append, List.nil_append]
  rw [collectParts_dot 2, collectParts_dot 1, collectParts_dot 0, collectParts_end]
  have hconcoct : concoct [(n &&& 0xff000000) >>> 24, (n &&& 0x00ff0000) >>> 16,
      (n &&& 0x0000ff00) >>> 8] ((n &&& 0x000000ff) >>> 0) = n := by
    apply UInt32.toNat_inj.mp
    rw [concoct_octets (h24 ▸ hlt 24) (h16 ▸ hlt 16) (h8 ▸ hlt 8) (h0 ▸ hlt 0), h24, h16, h8, h0]
    exact sum_octets n
  simpa using hconcoct

example : ipSton (chars "0x0a.010" ++ [0]) = some 0x0a000008 := by decide +kernel

end MonitoringTool.Sniffer
