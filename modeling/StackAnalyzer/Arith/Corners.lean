import Mathlib.Algebra.Order.Ring.Defs
import Mathlib.Order.MinMax

set_option relaxedAutoImplicit false
set_option autoImplicit false

/-!
# Products of intervals

The product of two numbers in intervals lies between the smallest and the largest product of their
ends.

## Main results

* `StackAnalyzer.Arith.mul_between` — a factor in an interval, and another one that is fixed.
* `StackAnalyzer.Arith.mul_between_corners` — both factors in intervals.
-/

namespace StackAnalyzer.Arith

variable {R : Type*} [CommRing R] [LinearOrder R] [IsStrictOrderedRing R] {a b c d x y : R}

/-- A product with a number in an interval lies between those with its ends. -/
theorem mul_between (hax : a ≤ x) (hxb : x ≤ b) (y : R) :
    min (a * y) (b * y) ≤ x * y ∧ x * y ≤ max (a * y) (b * y) := by
  rcases le_total 0 y with hy | hy
  · exact ⟨min_le_of_left_le (mul_le_mul_of_nonneg_right hax hy),
      le_max_of_le_right (mul_le_mul_of_nonneg_right hxb hy)⟩
  · exact ⟨min_le_of_right_le (mul_le_mul_of_nonpos_right hxb hy),
      le_max_of_le_left (mul_le_mul_of_nonpos_right hax hy)⟩

/-- **A product of numbers in intervals** lies between the four products of the ends. -/
theorem mul_between_corners (hax : a ≤ x) (hxb : x ≤ b) (hcy : c ≤ y) (hyd : y ≤ d) :
    min (min (a * c) (a * d)) (min (b * c) (b * d)) ≤ x * y ∧
      x * y ≤ max (max (a * c) (a * d)) (max (b * c) (b * d)) := by
  obtain ⟨hlower, hupper⟩ := mul_between hax hxb y
  obtain ⟨halower, haupper⟩ := mul_between hcy hyd a
  obtain ⟨hblower, hbupper⟩ := mul_between hcy hyd b
  rw [mul_comm c a, mul_comm d a, mul_comm y a] at halower haupper
  rw [mul_comm c b, mul_comm d b, mul_comm y b] at hblower hbupper
  exact ⟨(min_le_min halower hblower).trans hlower, hupper.trans (max_le_max haupper hbupper)⟩

end StackAnalyzer.Arith
