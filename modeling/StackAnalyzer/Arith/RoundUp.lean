import Mathlib.Algebra.Order.Floor.Div

set_option relaxedAutoImplicit false
set_option autoImplicit false

/-!
# Rounding up to multiples

The least multiple of a number that is not smaller than another one, as it is and with a result that
wraps around.

## Main definitions

* `StackAnalyzer.Arith.roundUp` — the least multiple.

## Main results

* `StackAnalyzer.Arith.roundUp_le_iff` — it is the least one.
* `StackAnalyzer.Arith.roundUp_lt_iff` — when it is below a multiple.
* `StackAnalyzer.Arith.roundUp_mod` — if it wraps around, it becomes zero.
-/

namespace StackAnalyzer.Arith

/-- The least multiple of a number from another number on. -/
def roundUp (n align : ℕ) : ℕ := align * (n ⌈/⌉ align)

/-- It is a multiple. -/
theorem dvd_roundUp (n align : ℕ) : align ∣ roundUp n align := Dvd.intro _ rfl

/-- It is not smaller. -/
theorem le_roundUp {n align : ℕ} (h : 0 < align) : n ≤ roundUp n align := le_smul_ceilDiv h

/-- **It is the least one.** -/
theorem roundUp_le_iff {n align m : ℕ} (h : 0 < align) (hm : align ∣ m) :
    roundUp n align ≤ m ↔ n ≤ m := by
  obtain ⟨k, rfl⟩ := hm
  rw [roundUp, Nat.mul_le_mul_left_iff h, ceilDiv_le_iff_le_mul h]

/-- A multiple stays. -/
theorem roundUp_of_dvd {n align : ℕ} (h : 0 < align) (hn : align ∣ n) : roundUp n align = n :=
  le_antisymm ((roundUp_le_iff h hn).mpr le_rfl) (le_roundUp h)

/-- Rounding keeps the order. -/
theorem roundUp_mono {n m align : ℕ} (h : 0 < align) (hnm : n ≤ m) :
    roundUp n align ≤ roundUp m align :=
  (roundUp_le_iff h (dvd_roundUp m align)).mpr (hnm.trans (le_roundUp h))

/-- **The results below a multiple** are those of the numbers up to the multiple before it. -/
theorem roundUp_lt_iff {n align m : ℕ} (h : 0 < align) (hm : align ∣ m) :
    roundUp n align < m ↔ n + align ≤ m := by
  obtain ⟨k, rfl⟩ := hm
  constructor
  · intro hlt
    obtain ⟨j, hj⟩ := dvd_roundUp n align
    rw [hj, Nat.mul_lt_mul_left h] at hlt
    calc n + align ≤ align * j + align := by
          rw [← hj]
          exact Nat.add_le_add_right (le_roundUp h) align
      _ = align * (j + 1) := (Nat.mul_succ align j).symm
      _ ≤ align * k := Nat.mul_le_mul_left align hlt
  · intro hle
    cases k with
    | zero => omega
    | succ k =>
      have hn : n ≤ align * k := by
        rw [Nat.mul_succ] at hle
        omega
      calc roundUp n align ≤ align * k := (roundUp_le_iff h (Dvd.intro _ rfl)).mpr hn
        _ < align * (k + 1) := by
          rw [Nat.mul_succ]
          omega

/-- **A result that wraps around is zero**: nothing is left of it but the multiple. -/
theorem roundUp_mod {n align m : ℕ} (h : 0 < align) (hm : align ∣ m) (hn : n ≤ m) :
    roundUp n align % m = if n + align ≤ m then roundUp n align else 0 := by
  split_ifs with hle
  · exact Nat.mod_eq_of_lt ((roundUp_lt_iff h hm).mpr hle)
  · have hge : m ≤ roundUp n align := by
      rw [← not_lt, roundUp_lt_iff h hm]
      exact hle
    have heq : roundUp n align = m := le_antisymm ((roundUp_le_iff h hm).mpr hn) hge
    rw [heq, Nat.mod_self]

end StackAnalyzer.Arith
