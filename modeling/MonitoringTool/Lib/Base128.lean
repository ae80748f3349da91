import Mathlib.Data.Nat.Bitwise
import Mathlib.Data.Nat.Digits.Lemmas
import Mathlib.InformationTheory.Coding.UniquelyDecodable

/-!
# Base-128 numbers

A number in groups of seven bits, the least significant group first, one group a byte.
Every byte but the last has its top bit set.  This is how protocol buffers write lengths,
there with as few bytes as possible; leading groups of zeros do no harm here.

The top bits say where a number ends, so no form is a proper prefix of another
(`IsVarint.eq_of_begins`), and a sequence of numbers can be written one behind the other
(`uniquelyDecodable_of_prefixFree`).
-/

namespace MonitoringTool.Lib

/-- The bytes are a base-128 form of the number. -/
inductive IsVarint : ℕ → List UInt8 → Prop where
  | last {b : UInt8} (h : b.toNat < 128) : IsVarint b.toNat [b]
  | more {b : UInt8} {n : ℕ} {bytes : List UInt8} (hb : 128 ≤ b.toNat) (h : IsVarint n bytes) :
      IsVarint (b.toNat % 128 + 128 * n) (b :: bytes)

/-- The group of a byte. -/
theorem toNat_and_7F (b : UInt8) : (b &&& 0x7F).toNat = b.toNat % 128 := by
  rw [UInt8.toNat_and]
  exact Nat.and_two_pow_sub_one_eq_mod b.toNat 7

/-- The top bit of a byte. -/
theorem and_80_ne_zero_iff (b : UInt8) : b &&& 0x80 ≠ 0 ↔ 128 ≤ b.toNat := by
  have hbit : (b &&& 0x80).toNat = (b.toNat.testBit 7).toNat * 128 := by
    rw [UInt8.toNat_and]
    exact Nat.and_two_pow b.toNat 7
  have hlt := b.toNat_lt
  rw [ne_eq, ← UInt8.toNat_inj, hbit, Nat.testBit_eq_decide_div_mod_eq]
  by_cases h : 128 ≤ b.toNat
  · have hone : b.toNat / 128 % 2 = 1 := by omega
    simp [hone, h]
  · have hzero : b.toNat / 128 % 2 = 0 := by omega
    simp [hzero, h]

/-- Bits above those of another number are added to it. -/
theorem or_eq_add {a b k : ℕ} (h : a < 2 ^ k) : a ||| b * 2 ^ k = a + b * 2 ^ k := by
  rw [Nat.or_comm, Nat.mul_comm, ← Nat.two_pow_add_eq_or_of_lt h, Nat.add_comm]

/-! ## The bytes of a number -/

namespace IsVarint

variable {n m : ℕ} {bytes bytes' : List UInt8}

/-- The number is the sum of its groups, each with its weight. -/
theorem sum_groups (h : IsVarint n bytes) :
    (bytes.mapIdx fun i b => b.toNat % 128 * 128 ^ i).sum = n := by
  have hdigits : Nat.ofDigits 128 (bytes.map fun b => b.toNat % 128) = n := by
    induction h with
    | last h => simp [Nat.ofDigits_cons, Nat.mod_eq_of_lt h]
    | more _ _ ih => rw [List.map_cons, Nat.ofDigits_cons, ih]
  have hmap : (bytes.map fun b => b.toNat % 128).mapIdx (fun i d => d * 128 ^ i) =
      bytes.mapIdx fun i b => b.toNat % 128 * 128 ^ i :=
    List.ext_getElem (by simp) (by simp)
  rw [← hmap, ← Nat.ofDigits_eq_sum_mapIdx]
  exact hdigits

/-- The same bytes are the same number. -/
theorem unique (h : IsVarint n bytes) (h' : IsVarint m bytes) : n = m :=
  h.sum_groups.symm.trans h'.sum_groups

/-- The top bit is set in every byte but the last. -/
theorem shape (h : IsVarint n bytes) : ∃ init last, bytes = init ++ [last] ∧
    (∀ b ∈ init, 128 ≤ b.toNat) ∧ last.toNat < 128 := by
  induction h with
  | @last b h => exact ⟨[], b, rfl, by simp, h⟩
  | @more b _ _ hb _ ih =>
      obtain ⟨init, last, rfl, hinit, hlast⟩ := ih
      exact ⟨b :: init, last, rfl, by simpa using ⟨hb, hinit⟩, hlast⟩

/-- A number has no more bits than its groups. -/
theorem lt_pow (h : IsVarint n bytes) : n < 128 ^ bytes.length := by
  induction h with
  | last h => simpa using h
  | more _ _ ih =>
      rw [List.length_cons, Nat.pow_succ]
      omega

theorem ne_nil (h : IsVarint n bytes) : bytes ≠ [] := by
  cases h <;> simp

/-- Behind a byte with its top bit set the number goes on. -/
theorem of_cons {b : UInt8} (h : IsVarint n (b :: bytes)) (hb : 128 ≤ b.toNat) :
    ∃ k, IsVarint k bytes := by
  cases h with
  | last h => exact absurd h (Nat.not_lt.mpr hb)
  | more _ hrest => exact ⟨_, hrest⟩

/-- A form that begins another is that form. -/
theorem eq_of_begins (h : IsVarint n bytes) (h' : IsVarint m bytes') (hpre : bytes <+: bytes') :
    bytes = bytes' := by
  induction h generalizing m bytes' with
  | last h =>
      obtain ⟨rest, rfl⟩ := hpre
      cases h' with
      | last _ => rfl
      | more hb _ => exact absurd h (Nat.not_lt.mpr hb)
  | more hb _ ih =>
      obtain ⟨rest, rfl⟩ := hpre
      obtain ⟨k, hrest⟩ := of_cons h' hb
      exact congrArg (List.cons _) (ih hrest (List.prefix_append _ _))

end IsVarint

/-- Words of which none begins another, and none is empty, can be told apart when they are
written one behind the other. -/
theorem uniquelyDecodable_of_prefixFree {α : Type*} {S : Set (List α)} (hnil : [] ∉ S)
    (hfree : ∀ a ∈ S, ∀ b ∈ S, a <+: b → a = b) : InformationTheory.UniquelyDecodable S := by
  intro words words' hwords hwords' hflat
  induction words generalizing words' with
  | nil =>
      cases words' with
      | nil => rfl
      | cons b words' =>
          have hb : b = [] := (List.append_eq_nil_iff.mp hflat.symm).1
          exact absurd (hb ▸ hwords' b (by simp)) hnil
  | cons a words ih =>
      cases words' with
      | nil =>
          have ha : a = [] := (List.append_eq_nil_iff.mp hflat).1
          exact absurd (ha ▸ hwords a (by simp)) hnil
      | cons b words' =>
          rw [List.flatten_cons, List.flatten_cons] at hflat
          have ha := hwords a (by simp)
          have hb := hwords' b (by simp)
          have hab : a = b := by
            rcases List.prefix_or_prefix_of_prefix (List.prefix_append a words.flatten)
              (hflat ▸ List.prefix_append b words'.flatten) with hpre | hpre
            · exact hfree a ha b hb hpre
            · exact (hfree b hb a ha hpre).symm
          subst hab
          rw [ih words' (fun w hw => hwords w (by simp [hw])) (fun w hw => hwords' w (by simp [hw]))
            (List.append_cancel_left hflat)]

end MonitoringTool.Lib
