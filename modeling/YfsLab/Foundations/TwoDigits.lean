/-
# Numbers of two digits

A number is often kept as a high and a low digit over some base, as seconds and
nanoseconds are. Comparing such pairs digit by digit agrees with comparing the
numbers as long as the low digits are below the base, and still agrees up to
equality when a low digit may be the base itself.
-/

import Mathlib.Algebra.Order.Ring.Int
import Mathlib.Tactic.Linarith

namespace TwoDigits

/-- The number that two digits stand for. -/
def value (base hi lo : ℤ) : ℤ := hi * base + lo

variable {base hi lo hi' lo' : ℤ}

/-- A carry does not change the number. -/
theorem value_carry : value base (hi + 1) (lo - base) = value base hi lo := by
  rw [value, value, add_mul, one_mul]
  omega

theorem value_mono_lo (hlo : lo ≤ lo') : value base hi lo ≤ value base hi lo' :=
  Int.add_le_add_left hlo _

theorem value_lt_of_lo_lt (hlo : lo < lo') : value base hi lo < value base hi lo' :=
  Int.add_lt_add_left hlo _

/-- A larger high digit makes up for a low digit of up to the whole base. -/
theorem value_le_of_hi_lt (hbase : 0 ≤ base) (hhi : hi < hi') (hlo : lo ≤ base)
    (hlo' : 0 ≤ lo') : value base hi lo ≤ value base hi' lo' := by
  have hstep : (hi + 1) * base ≤ hi' * base := mul_le_mul_of_nonneg_right hhi hbase
  calc value base hi lo
      ≤ (hi + 1) * base := by rw [value, add_mul, one_mul]; omega
    _ ≤ hi' * base := hstep
    _ ≤ value base hi' lo' := by rw [value]; omega

theorem value_lt_of_hi_lt (hbase : 0 ≤ base) (hhi : hi < hi') (hlo : lo < base)
    (hlo' : 0 ≤ lo') : value base hi lo < value base hi' lo' := by
  have hstep : (hi + 1) * base ≤ hi' * base := mul_le_mul_of_nonneg_right hhi hbase
  calc value base hi lo
      < (hi + 1) * base := by rw [value, add_mul, one_mul]; omega
    _ ≤ hi' * base := hstep
    _ ≤ value base hi' lo' := by rw [value]; omega

end TwoDigits
