import Mathlib.Algebra.Group.Nat.Defs

/-!
# Counting with an `int`

A counter of 32 bits that is incremented for each of `n` things holds `Int32.ofNat n`.  It
holds the number itself below 2^31, is negative from there on, and is 0 again at 2^32.
-/

namespace MonitoringTool.Lib

theorem ofNat_succ (n : ℕ) : Int32.ofNat (n + 1) = Int32.ofNat n + 1 := Int32.ofNat_add n 1

/-- Counters agree when the numbers differ by a multiple of 2^32. -/
theorem ofNat_eq_iff {a b : ℕ} : Int32.ofNat a = Int32.ofNat b ↔ a % 2 ^ 32 = b % 2 ^ 32 := by
  rw [← Int32.toBitVec_inj, Int32.toBitVec_ofNat', Int32.toBitVec_ofNat', ← BitVec.toNat_inj,
    BitVec.toNat_ofNat, BitVec.toNat_ofNat]

/-- Numbers of 32 bits are told apart. -/
theorem ofNat_inj {a b : ℕ} (ha : a < 2 ^ 32) (hb : b < 2 ^ 32) :
    Int32.ofNat a = Int32.ofNat b ↔ a = b := by
  rw [ofNat_eq_iff, Nat.mod_eq_of_lt ha, Nat.mod_eq_of_lt hb]

/-- A counter is positive for the numbers that it holds. -/
theorem ofNat_pos_iff {n : ℕ} (h : n ≤ 2 ^ 32) : Int32.ofNat n > 0 ↔ 0 < n ∧ n < 2 ^ 31 := by
  have hzero : (0 : Int32).toInt = 0 := rfl
  rw [gt_iff_lt, Int32.lt_iff_toInt_lt, hzero, Int32.toInt_ofNat', Int.bmod_def]
  have hsize : Int32.size = 2 ^ 32 := rfl
  rw [hsize]
  split <;> omega

theorem ofNat_eq_zero_iff {n : ℕ} (h : n ≤ 2 ^ 32) :
    Int32.ofNat n = 0 ↔ n = 0 ∨ n = 2 ^ 32 := by
  have hzero : (0 : Int32) = Int32.ofNat 0 := rfl
  rw [hzero, ofNat_eq_iff]
  omega

theorem ofNat_eq_one_iff {n : ℕ} (h : n ≤ 2 ^ 32) : Int32.ofNat n = 1 ↔ n = 1 := by
  have hone : (1 : Int32) = Int32.ofNat 1 := rfl
  rw [hone, ofNat_eq_iff]
  omega

end MonitoringTool.Lib
