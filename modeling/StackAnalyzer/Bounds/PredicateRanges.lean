import StackAnalyzer.Bounds.StackBuffers
import StackAnalyzer.Smt.Edges

set_option relaxedAutoImplicit false
set_option autoImplicit false

/-!
# Ranges of compared values

What a comparison with a constant says about the signed value of the other operand, against the
range that is derived from it. For signed predicates and equality the range is right, unless the
bound next to the constant does not fit 64 bits. For unsigned predicates the constant is read as an
unsigned number and the bound is used for the signed value: an upper bound is right only if the
constant is no large number of 64 bits, and a lower bound hardly ever.

## Main definitions

* `StackAnalyzer.Bounds.deriveRangeConstraintFromPredicate` and its copies.
* `StackAnalyzer.Bounds.RangeSound` — the range contains all values, and no bound overflows.
* `StackAnalyzer.Bounds.KeepsValues` — the comparisons for which it does.

## Main results

* `StackAnalyzer.Bounds.bound_eq_wrap64` — the bounds of a range.
* `StackAnalyzer.Bounds.rangeSound_iff` — for which comparisons the range is right.
-/

namespace StackAnalyzer.Bounds

open Llvm
open Smt (IntRange)

/-! ## The three copies -/

section Copies

variable {w : ℕ} (pred : Predicate) (valueIsOp0 : Bool) (c : BitVec w)

/-- The range with some bounds, if there is one. -/
def rangeOfBounds (bounds : IntRange) : Option IntRange :=
  if bounds.hasLower || bounds.hasUpper then some bounds else none

/-- `deriveRangeConstraintFromPredicate`, of the recursion checks. -/
def deriveRangeConstraintFromPredicate : Option IntRange :=
  rangeOfBounds (boundsFromPredicate pred valueIsOp0 c)

/-- `deriveConstraintFromPredicate`, of the checks of buffers. -/
def deriveConstraintFromPredicate : Option IntRange :=
  rangeOfBounds (boundsFromPredicate pred valueIsOp0 c)

/-- The range of one comparison in `computeIntRangesFromICmps`. -/
def icmpRange : Option IntRange :=
  rangeOfBounds (boundsFromPredicate pred valueIsOp0 c)

/-- `getSwappedPredicate`. -/
def swappedPredicate : Predicate → Predicate
  | .ult => .ugt
  | .ule => .uge
  | .ugt => .ult
  | .uge => .ule
  | .slt => .sgt
  | .sle => .sge
  | .sgt => .slt
  | .sge => .sle
  | pred => pred

/-- The predicate with the value as its first operand. -/
def valuePredicate : Predicate := if valueIsOp0 then pred else swappedPredicate pred

/-- The constant as a `long long`. -/
def longConstant : ℤ :=
  match pred with
  | .ult | .ule | .ugt | .uge => wrap64 c.toNat
  | _ => c.toInt

/-- How far the bound is from the constant. -/
def adjustment : ℤ :=
  match valuePredicate pred valueIsOp0 with
  | .slt | .ult => -1
  | .sgt | .ugt => 1
  | _ => 0

/-- The bound is a `long long`. -/
def NoOverflow : Prop :=
  -2 ^ 63 ≤ longConstant pred c + adjustment pred valueIsOp0 ∧
    longConstant pred c + adjustment pred valueIsOp0 < 2 ^ 63

/-- The predicate that holds on the edge of a branch. -/
def edgePredicate (takesTrueEdge : Bool) : Predicate :=
  if takesTrueEdge then pred else inversePredicate pred

/-- The result of the comparison of a value with the constant. -/
def compares (v : BitVec w) : Bool := if valueIsOp0 then pred.holds v c else pred.holds c v

/-- **The derived range is right** on an edge of a branch on a comparison: it contains every value
that takes the edge, its bounds are computed without overflow, and all copies derive it. -/
structure RangeSound (takesTrueEdge : Bool) : Prop where
  contains : ∀ range,
    deriveRangeConstraintFromPredicate (edgePredicate pred takesTrueEdge) valueIsOp0 c =
      some range →
    ∀ v : BitVec w, compares pred valueIsOp0 c v = takesTrueEdge → range.Contains v.toInt
  noOverflow :
    (deriveRangeConstraintFromPredicate (edgePredicate pred takesTrueEdge) valueIsOp0 c).isSome →
      NoOverflow (edgePredicate pred takesTrueEdge) valueIsOp0 c
  copies :
    deriveConstraintFromPredicate (edgePredicate pred takesTrueEdge) valueIsOp0 c =
        deriveRangeConstraintFromPredicate (edgePredicate pred takesTrueEdge) valueIsOp0 c ∧
      icmpRange (edgePredicate pred takesTrueEdge) valueIsOp0 c =
        deriveRangeConstraintFromPredicate (edgePredicate pred takesTrueEdge) valueIsOp0 c

/-- The comparisons `v pred c` for which the derived range is right. -/
def KeepsValues (pred : Predicate) (c : BitVec w) : Prop :=
  match pred with
  | .slt => c.toInt ≠ -2 ^ 63
  | .sgt => c.toInt ≠ 2 ^ 63 - 1
  | .ult | .ule => w < 64 ∨ c.msb = false
  | .ugt => w < 63 ∧ c.toNat = 2 ^ w - 1 ∨ w = 64 ∧ c.msb = true
  | .uge => w = 64 ∧ c.msb = true
  | _ => True

end Copies

/-! ## The value as the first operand -/

section Normal

variable {w : ℕ} (pred : Predicate) (valueIsOp0 : Bool) (c : BitVec w)

theorem holds_inversePredicate (v : BitVec w) :
    (inversePredicate pred).holds v c = !pred.holds v c := by
  rw [Bool.eq_iff_iff]
  cases pred <;> simp [inversePredicate, Predicate.holds]

theorem holds_swappedPredicate (v : BitVec w) :
    (swappedPredicate pred).holds v c = pred.holds c v := by
  cases pred <;> simp [swappedPredicate, Predicate.holds, eq_comm]

/-- A value takes an edge if the predicate of the edge holds. -/
theorem compares_iff (takesTrueEdge : Bool) (v : BitVec w) :
    compares pred valueIsOp0 c v = takesTrueEdge ↔
      (valuePredicate (edgePredicate pred takesTrueEdge) valueIsOp0).holds v c = true := by
  unfold compares valuePredicate edgePredicate
  cases valueIsOp0 <;> cases takesTrueEdge <;>
    simp [holds_swappedPredicate, holds_inversePredicate]

/-- The bounds of a comparison, in terms of the predicate with the value as its first operand. -/
theorem boundsFromPredicate_eq :
    boundsFromPredicate pred valueIsOp0 c =
      match valuePredicate pred valueIsOp0 with
      | .slt => atMost (wrap64 (c.toInt - 1))
      | .sle => atMost c.toInt
      | .sgt => atLeast (wrap64 (c.toInt + 1))
      | .sge => atLeast c.toInt
      | .ult => atMost (wrap64 (wrap64 c.toNat - 1))
      | .ule => atMost (wrap64 c.toNat)
      | .ugt => atLeast (wrap64 (wrap64 c.toNat + 1))
      | .uge => atLeast (wrap64 c.toNat)
      | .eq => exactly c.toInt
      | .ne => {} := by
  cases valueIsOp0 with
  | true => cases pred <;> rfl
  | false => cases pred <;> rfl

theorem longConstant_valuePredicate :
    longConstant (valuePredicate pred valueIsOp0) c = longConstant pred c := by
  cases valueIsOp0 <;> cases pred <;> rfl

theorem noOverflow_valuePredicate :
    NoOverflow pred valueIsOp0 c ↔ NoOverflow (valuePredicate pred valueIsOp0) true c := by
  unfold NoOverflow adjustment
  rw [longConstant_valuePredicate, valuePredicate, valuePredicate, if_pos rfl]

end Normal

/-! ## Numbers of 64 bits -/

section Numbers

variable {w : ℕ}

theorem wrap64_of_mem {x : ℤ} (hlow : -2 ^ 63 ≤ x) (hhigh : x < 2 ^ 63) : wrap64 x = x := by
  unfold wrap64
  rw [Int.bmod_eq_of_le] <;> omega

/-- The signed value of a number of at most 64 bits is a `long long`. -/
theorem toInt_mem (hw : w ≤ 64) (c : BitVec w) : -2 ^ 63 ≤ c.toInt ∧ c.toInt < 2 ^ 63 := by
  have hpow : (2 : ℤ) ^ w ≤ 2 ^ 64 := pow_le_pow_right₀ (by norm_num) hw
  have hlow : -2 ^ w ≤ 2 * c.toInt := BitVec.le_two_mul_toInt
  have hhigh : 2 * c.toInt < 2 ^ w := BitVec.two_mul_toInt_lt
  omega

/-- The signed value of a number. -/
theorem toInt_eq (c : BitVec w) : c.toInt = if c.msb then (c.toNat : ℤ) - 2 ^ w else c.toNat := by
  rw [BitVec.toInt_eq_msb_cond]
  push_cast
  rfl

/-- An unsigned number of less than 64 bits keeps its value. -/
theorem wrap64_toNat_of_lt (hw : w < 64) (c : BitVec w) : wrap64 c.toNat = c.toNat := by
  have hpow : 2 ^ w ≤ 2 ^ 63 := Nat.pow_le_pow_right (by norm_num) (by omega)
  have hlt := c.isLt
  exact wrap64_of_mem (by omega) (by omega)

/-- An unsigned number of 64 bits becomes the signed one. -/
theorem wrap64_toNat (c : BitVec 64) : wrap64 c.toNat = c.toInt := by
  rw [BitVec.toInt_eq_toNat_bmod]
  rfl

end Numbers

/-- **The bounds of a range** are the constant and what it is adjusted by, cut to 64 bits. -/
theorem bound_eq_wrap64 {w : ℕ} (hw : w ≤ 64) (pred : Predicate) (valueIsOp0 : Bool)
    (c : BitVec w) :
    ((boundsFromPredicate pred valueIsOp0 c).hasLower = true →
      (boundsFromPredicate pred valueIsOp0 c).lower =
        wrap64 (longConstant pred c + adjustment pred valueIsOp0)) ∧
    ((boundsFromPredicate pred valueIsOp0 c).hasUpper = true →
      (boundsFromPredicate pred valueIsOp0 c).upper =
        wrap64 (longConstant pred c + adjustment pred valueIsOp0)) := by
  obtain ⟨hlow, hhigh⟩ := toInt_mem hw c
  have hsigned : wrap64 c.toInt = c.toInt := wrap64_of_mem hlow hhigh
  have htwice : ∀ x, wrap64 (wrap64 x) = wrap64 x := fun x => Int.bmod_bmod
  rw [boundsFromPredicate_eq, adjustment, ← longConstant_valuePredicate pred valueIsOp0 c]
  generalize valuePredicate pred valueIsOp0 = p
  cases p <;>
    simp [atMost, atLeast, exactly, longConstant, hsigned, htwice, sub_eq_add_neg]

/-! ## When the range is right -/

section Cases

variable {w : ℕ} {c : BitVec w}

/-- A range that is derived from a comparison with the value as its first operand is right. -/
def Right (pred : Predicate) (c : BitVec w) : Prop :=
  ((boundsFromPredicate pred true c).hasLower || (boundsFromPredicate pred true c).hasUpper) →
    (∀ v : BitVec w, pred.holds v c = true → (boundsFromPredicate pred true c).Contains v.toInt) ∧
      NoOverflow pred true c

/-- The largest unsigned number is minus one. -/
theorem toInt_allOnes_eq (hw : 1 ≤ w) : (BitVec.allOnes w).toInt = -1 := by
  obtain ⟨w, rfl⟩ := Nat.exists_eq_add_of_le' hw
  rw [toInt_eq, BitVec.msb_allOnes (by omega), if_pos rfl, BitVec.toNat_allOnes,
    Nat.cast_sub Nat.one_le_two_pow]
  push_cast
  ring

theorem right_iff_of_atMost {pred : Predicate} {bound : ℤ}
    (h : boundsFromPredicate pred true c = atMost bound) : Right pred c ↔
      (∀ v : BitVec w, pred.holds v c = true → v.toInt ≤ bound) ∧ NoOverflow pred true c := by
  unfold Right
  rw [h]
  simp [atMost, IntRange.Contains]

theorem right_iff_of_atLeast {pred : Predicate} {bound : ℤ}
    (h : boundsFromPredicate pred true c = atLeast bound) : Right pred c ↔
      (∀ v : BitVec w, pred.holds v c = true → bound ≤ v.toInt) ∧ NoOverflow pred true c := by
  unfold Right
  rw [h]
  simp [atLeast, IntRange.Contains]

/-! ### Signed comparisons -/

theorem right_slt_iff (hw : w ≤ 64) : Right .slt c ↔ KeepsValues .slt c := by
  have hmem := toInt_mem hw c
  rw [right_iff_of_atMost (boundsFromPredicate_eq .slt true c)]
  simp only [KeepsValues, NoOverflow, longConstant, adjustment, valuePredicate, if_true]
  constructor
  · intro h
    omega
  · intro h
    refine ⟨fun v hv => ?_, by omega⟩
    have hlt : v.toInt < c.toInt := of_decide_eq_true hv
    rw [wrap64_of_mem (by omega) (by omega)]
    omega

theorem right_sgt_iff (hw : w ≤ 64) : Right .sgt c ↔ KeepsValues .sgt c := by
  have hmem := toInt_mem hw c
  rw [right_iff_of_atLeast (boundsFromPredicate_eq .sgt true c)]
  simp only [KeepsValues, NoOverflow, longConstant, adjustment, valuePredicate, if_true]
  constructor
  · intro h
    omega
  · intro h
    refine ⟨fun v hv => ?_, by omega⟩
    have hlt : c.toInt < v.toInt := of_decide_eq_true hv
    rw [wrap64_of_mem (by omega) (by omega)]
    omega

theorem right_sle (hw : w ≤ 64) : Right .sle c := by
  have hmem := toInt_mem hw c
  refine (right_iff_of_atMost (boundsFromPredicate_eq .sle true c)).mpr ⟨fun v hv => ?_, ?_⟩
  · exact of_decide_eq_true hv
  · simpa [NoOverflow, longConstant, adjustment, valuePredicate] using hmem

theorem right_sge (hw : w ≤ 64) : Right .sge c := by
  have hmem := toInt_mem hw c
  refine (right_iff_of_atLeast (boundsFromPredicate_eq .sge true c)).mpr ⟨fun v hv => ?_, ?_⟩
  · exact of_decide_eq_true hv
  · simpa [NoOverflow, longConstant, adjustment, valuePredicate] using hmem

theorem right_eq (hw : w ≤ 64) : Right .eq c := by
  have hmem := toInt_mem hw c
  intro _
  refine ⟨fun v hv => ?_, ?_⟩
  · obtain rfl : v = c := of_decide_eq_true hv
    rw [boundsFromPredicate_eq]
    exact ⟨fun _ => le_rfl, fun _ => le_rfl⟩
  · simpa [NoOverflow, longConstant, adjustment, valuePredicate] using hmem

/-! ### Unsigned comparisons -/

/-- A constant that is no large number of 64 bits keeps its value. -/
theorem wrap64_toNat_eq (hw : w ≤ 64) (h : w < 64 ∨ c.msb = false) :
    wrap64 c.toNat = c.toNat ∧ (c.toNat : ℤ) < 2 ^ 63 := by
  rcases Nat.lt_or_eq_of_le hw with hlt | rfl
  · have hpow : 2 ^ w ≤ 2 ^ 63 := Nat.pow_le_pow_right (by norm_num) (by omega)
    have hnat := c.isLt
    exact ⟨wrap64_toNat_of_lt hlt c, by omega⟩
  · have hmsb : c.msb = false := h.resolve_left (lt_irrefl 64)
    have hint := toInt_eq c
    rw [hmsb, if_neg Bool.false_ne_true] at hint
    have hmem := toInt_mem le_rfl c
    rw [wrap64_toNat, hint] at *
    exact ⟨rfl, hmem.2⟩

/-- A large number of 64 bits becomes a negative one. -/
theorem wrap64_toNat_large {c : BitVec 64} (h : c.msb = true) :
    wrap64 c.toNat = (c.toNat : ℤ) - 2 ^ 64 ∧ wrap64 c.toNat < 0 ∧ -2 ^ 63 ≤ wrap64 c.toNat := by
  have hint := toInt_eq c
  rw [h, if_pos rfl] at hint
  have hmem := toInt_mem le_rfl c
  have hnat := c.isLt
  rw [wrap64_toNat]
  omega

/-- The signed value of a number is at most the unsigned one. -/
theorem toInt_le_toNat (v : BitVec w) : v.toInt ≤ v.toNat := by
  rw [toInt_eq]
  have hpos : (0 : ℤ) < 2 ^ w := by positivity
  split_ifs
  · linarith
  · exact le_rfl

/-- A constant is no large number of 64 bits, or it is one. -/
theorem large_or (hw : w ≤ 64) : (w < 64 ∨ c.msb = false) ∨ w = 64 ∧ c.msb = true := by
  rcases Nat.lt_or_eq_of_le hw with hlt | heq
  · exact Or.inl (Or.inl hlt)
  · cases c.msb
    · exact Or.inl (Or.inr rfl)
    · exact Or.inr ⟨heq, rfl⟩

theorem right_ule_iff (hw : w ≤ 64) : Right .ule c ↔ KeepsValues .ule c := by
  rw [right_iff_of_atMost (boundsFromPredicate_eq .ule true c)]
  simp only [KeepsValues, NoOverflow, longConstant, adjustment, valuePredicate, if_true]
  rcases large_or (c := c) hw with hsmall | ⟨rfl, hlarge⟩
  · obtain ⟨heq, hlt⟩ := wrap64_toNat_eq hw hsmall
    refine iff_of_true ⟨fun v hv => ?_, by omega⟩ hsmall
    have hle : v.toNat ≤ c.toNat := of_decide_eq_true hv
    have hval := toInt_le_toNat v
    omega
  · obtain ⟨-, hneg, -⟩ := wrap64_toNat_large hlarge
    refine iff_of_false (fun h => ?_) (by simp [hlarge])
    have hzero := h.1 0#64 (by simp [Predicate.holds])
    simp only [BitVec.toInt_zero] at hzero
    omega

theorem right_ult_iff (hw : w ≤ 64) : Right .ult c ↔ KeepsValues .ult c := by
  rw [right_iff_of_atMost (boundsFromPredicate_eq .ult true c)]
  simp only [KeepsValues, NoOverflow, longConstant, adjustment, valuePredicate, if_true]
  rcases large_or (c := c) hw with hsmall | ⟨rfl, hlarge⟩
  · obtain ⟨heq, hlt⟩ := wrap64_toNat_eq hw hsmall
    refine iff_of_true ⟨fun v hv => ?_, by omega⟩ hsmall
    have hle : v.toNat < c.toNat := of_decide_eq_true hv
    have hval := toInt_le_toNat v
    rw [heq, wrap64_of_mem (by omega) (by omega)]
    omega
  · obtain ⟨heq, hneg, hlow⟩ := wrap64_toNat_large hlarge
    refine iff_of_false (fun h => ?_) (by simp [hlarge])
    have hless : Predicate.ult.holds 0#64 c = true := by
      simp only [Predicate.holds, BitVec.toNat_ofNat, decide_eq_true_eq]
      omega
    have hzero := h.1 0#64 hless
    rw [wrap64_of_mem (by omega) (by omega)] at hzero
    simp only [BitVec.toInt_zero] at hzero
    omega

/-- Every number is at most the largest one. -/
theorem le_toNat_allOnes (c : BitVec w) : c.toNat ≤ (BitVec.allOnes w).toNat := by
  have hlt := c.isLt
  rw [BitVec.toNat_allOnes]
  omega

theorem right_uge_iff (hw : 1 ≤ w) (hw' : w ≤ 64) : Right .uge c ↔ KeepsValues .uge c := by
  rw [right_iff_of_atLeast (boundsFromPredicate_eq .uge true c)]
  simp only [KeepsValues, NoOverflow, longConstant, adjustment, valuePredicate, if_true]
  rcases large_or (c := c) hw' with hsmall | ⟨rfl, hlarge⟩
  · obtain ⟨heq, hlt⟩ := wrap64_toNat_eq hw' hsmall
    refine iff_of_false (fun h => ?_) ?_
    · have hones := h.1 (BitVec.allOnes w) (decide_eq_true (le_toNat_allOnes c))
      rw [toInt_allOnes_eq hw] at hones
      omega
    · rintro ⟨rfl, hlarge⟩
      simp [hlarge] at hsmall
  · obtain ⟨heq, hneg, hlow⟩ := wrap64_toNat_large hlarge
    refine iff_of_true ⟨fun v hv => ?_, by omega⟩ ⟨rfl, hlarge⟩
    have hle : c.toNat ≤ v.toNat := of_decide_eq_true hv
    have hval := toInt_eq v
    have hpos : (0 : ℤ) ≤ v.toNat := by omega
    split_ifs at hval <;> omega

theorem right_ugt_iff (hw : 1 ≤ w) (hw' : w ≤ 64) : Right .ugt c ↔ KeepsValues .ugt c := by
  rw [right_iff_of_atLeast (boundsFromPredicate_eq .ugt true c)]
  simp only [KeepsValues, NoOverflow, longConstant, adjustment, valuePredicate, if_true]
  rcases large_or (c := c) hw' with hsmall | ⟨rfl, hlarge⟩
  · obtain ⟨heq, hlt⟩ := wrap64_toNat_eq hw' hsmall
    have hle := le_toNat_allOnes c
    rw [BitVec.toNat_allOnes] at hle
    have hnot : ¬(w = 64 ∧ c.msb = true) := by
      rintro ⟨rfl, hlarge⟩
      simp [hlarge] at hsmall
    rw [or_iff_left hnot]
    by_cases hones : c.toNat = 2 ^ w - 1
    · -- no number is larger
      have hnone : ∀ v : BitVec w, Predicate.ugt.holds v c = true → False := by
        intro v hv
        have hlarger : c.toNat < v.toNat := of_decide_eq_true hv
        have hmax := v.isLt
        omega
      have hpow : (c.toNat : ℤ) + 1 = 2 ^ w := by
        have hone := Nat.one_le_two_pow (n := w)
        rw [hones, Nat.cast_sub hone]
        push_cast
        ring
      rw [heq]
      constructor
      · rintro ⟨-, -, hfit⟩
        rw [hpow] at hfit
        exact ⟨(pow_lt_pow_iff_right₀ (by norm_num : (1 : ℤ) < 2)).mp hfit, hones⟩
      · rintro ⟨hlt63, -⟩
        have hfit : (2 : ℤ) ^ w < 2 ^ 63 := pow_lt_pow_right₀ (by norm_num) hlt63
        exact ⟨fun v hv => absurd (hnone v hv) id, by omega⟩
    · refine iff_of_false (fun h => ?_) (fun h => hones h.2)
      have hlarger : Predicate.ugt.holds (BitVec.allOnes w) c = true := by
        refine decide_eq_true ?_
        rw [BitVec.toNat_allOnes]
        omega
      have hbound := h.1 _ hlarger
      rw [wrap64_of_mem (by omega) (by omega), toInt_allOnes_eq hw] at hbound
      omega
  · obtain ⟨heq, hneg, hlow⟩ := wrap64_toNat_large hlarge
    refine iff_of_true ⟨fun v hv => ?_, by omega⟩ (Or.inr ⟨rfl, hlarge⟩)
    have hlt : c.toNat < v.toNat := of_decide_eq_true hv
    have hval := toInt_eq v
    rw [wrap64_of_mem (by omega) (by omega)]
    split_ifs at hval <;> omega

/-- **When a derived range is right**, for the value as the first operand. -/
theorem right_iff (hw : 1 ≤ w) (hw' : w ≤ 64) (pred : Predicate) :
    Right pred c ↔ KeepsValues pred c := by
  cases pred with
  | slt => exact right_slt_iff hw'
  | sgt => exact right_sgt_iff hw'
  | ult => exact right_ult_iff hw'
  | ule => exact right_ule_iff hw'
  | ugt => exact right_ugt_iff hw hw'
  | uge => exact right_uge_iff hw hw'
  | sle => exact iff_of_true (right_sle hw') trivial
  | sge => exact iff_of_true (right_sge hw') trivial
  | eq => exact iff_of_true (right_eq hw') trivial
  | ne => exact iff_of_true (fun h => absurd h (by simp [boundsFromPredicate])) trivial

end Cases

/-- **For which comparisons the derived range is right**: equalities and signed comparisons, unless
the bound next to the constant does not fit 64 bits; unsigned upper bounds, unless the constant is a
number of 64 bits with its top bit set; and unsigned lower bounds only if it is one, or if no value
is larger and the bound fits.

**Proof sketch.** A comparison with the constant as its first operand, or on the false edge of a
branch, is one with another predicate. Where an unsigned bound is wrong, zero or the largest number
is a value outside of the range, or the bound overflows. -/
theorem rangeSound_iff {w : ℕ} (hw : 1 ≤ w) (hw' : w ≤ 64) (pred : Predicate) (valueIsOp0 : Bool)
    (c : BitVec w) (takesTrueEdge : Bool) :
    RangeSound pred valueIsOp0 c takesTrueEdge ↔
      KeepsValues (valuePredicate (edgePredicate pred takesTrueEdge) valueIsOp0) c := by
  have hcompares := compares_iff pred valueIsOp0 c takesTrueEdge
  set p := edgePredicate pred takesTrueEdge with hp
  have hderive : deriveRangeConstraintFromPredicate p valueIsOp0 c =
      rangeOfBounds (boundsFromPredicate (valuePredicate p valueIsOp0) true c) := by
    rw [deriveRangeConstraintFromPredicate, boundsFromPredicate_eq, boundsFromPredicate_eq _ true]
    rfl
  rw [← right_iff hw hw']
  constructor
  · intro h hsome
    have hrange := hderive.trans (if_pos hsome)
    refine ⟨fun v hv => h.contains _ hrange v ((hcompares v).mpr hv), ?_⟩
    refine (noOverflow_valuePredicate p valueIsOp0 c).mp (h.noOverflow ?_)
    rw [← hp, hrange]
    rfl
  · intro h
    have hbounds : ∀ range, deriveRangeConstraintFromPredicate p valueIsOp0 c = some range →
        (range.hasLower || range.hasUpper) = true ∧
          boundsFromPredicate (valuePredicate p valueIsOp0) true c = range := by
      intro range hrange
      rw [hderive, rangeOfBounds] at hrange
      split_ifs at hrange with hsome
      obtain rfl := Option.some.inj hrange
      exact ⟨hsome, rfl⟩
    refine ⟨fun range hrange v hv => ?_, fun hsome => ?_, rfl, rfl⟩
    · obtain ⟨hsome, rfl⟩ := hbounds range hrange
      exact (h hsome).1 v ((hcompares v).mp hv)
    · obtain ⟨range, hrange⟩ := Option.isSome_iff_exists.mp hsome
      obtain ⟨hsome, rfl⟩ := hbounds range hrange
      exact (noOverflow_valuePredicate p valueIsOp0 c).mpr (h hsome).2

/-- The range of a byte on the true edge of `v < 10` is right. -/
theorem rangeSound_iff_byte :
    RangeSound .slt true (10 : BitVec 8) true ↔
      KeepsValues (valuePredicate (edgePredicate .slt true) true) (10 : BitVec 8) :=
  rangeSound_iff (by decide) (by decide) .slt true 10 true

/-- A byte of 200 is larger than 10 as an unsigned number, and its signed value is negative. -/
theorem not_rangeSound_unsignedByte :
    ¬∀ (w : ℕ), 1 ≤ w → w ≤ 64 → ∀ (pred : Predicate) (valueIsOp0 : Bool) (c : BitVec w)
      (takesTrueEdge : Bool), RangeSound pred valueIsOp0 c takesTrueEdge := by
  intro hall
  have hsound := hall 8 (by decide) (by decide) .ugt true 10 true
  have hlow := (hsound.contains (atLeast (wrap64 (wrap64 10 + 1))) rfl 200 (by decide)).1 rfl
  have heq : wrap64 (wrap64 10 + 1) = 11 := by
    rw [wrap64_of_mem (x := 10) (by norm_num) (by norm_num)]
    exact wrap64_of_mem (by norm_num) (by norm_num)
  rw [atLeast, heq] at hlow
  exact absurd hlow (by decide)

end StackAnalyzer.Bounds
