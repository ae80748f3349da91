import Mathlib.Algebra.Order.Field.Basic
import Mathlib.Tactic.Linarith

/-!
# A mean between two extremes

A weighted sum of values kept beside the least and the greatest of them: the sum is between
the weight times the one and the weight times the other (`Spread`), each further value
keeps it so, and the mean, once there is any weight, is between the extremes.
-/

namespace MonitoringTool.Lib

variable {F : Type*} [Field F] [LinearOrder F]

/-- `sum` is a sum of total weight `weight` of values between `lo` and `hi`. -/
structure Spread (lo hi sum weight : F) : Prop where
  weight_nonneg : 0 ≤ weight
  lo_le : weight * lo ≤ sum
  le_hi : sum ≤ weight * hi

namespace Spread

variable {lo hi sum weight : F}

/-- Before the first value the extremes are whatever one starts with. -/
theorem empty (lo hi : F) : Spread lo hi 0 0 where
  weight_nonneg := le_rfl
  lo_le := by simp
  le_hi := by simp

variable [IsStrictOrderedRing F]

/-- One more value, of weight `w`. -/
theorem record (h : Spread lo hi sum weight) {w : F} (hw : 0 ≤ w) (v : F) :
    Spread (min lo v) (max hi v) (sum + w * v) (weight + w) where
  weight_nonneg := add_nonneg h.weight_nonneg hw
  lo_le := by
    have hold : weight * min lo v ≤ weight * lo :=
      mul_le_mul_of_nonneg_left (min_le_left lo v) h.weight_nonneg
    have hnew : w * min lo v ≤ w * v := mul_le_mul_of_nonneg_left (min_le_right lo v) hw
    have hsum := h.lo_le
    rw [add_mul]
    linarith
  le_hi := by
    have hold : weight * hi ≤ weight * max hi v :=
      mul_le_mul_of_nonneg_left (le_max_left hi v) h.weight_nonneg
    have hnew : w * v ≤ w * max hi v := mul_le_mul_of_nonneg_left (le_max_right hi v) hw
    have hsum := h.le_hi
    rw [add_mul]
    linarith

/-- **The mean is between the extremes.** -/
theorem mean_between (h : Spread lo hi sum weight) (hpos : 0 < weight) :
    lo ≤ sum / weight ∧ sum / weight ≤ hi := by
  rw [le_div_iff₀ hpos, div_le_iff₀ hpos, mul_comm lo, mul_comm hi]
  exact ⟨h.lo_le, h.le_hi⟩

end Spread

end MonitoringTool.Lib
