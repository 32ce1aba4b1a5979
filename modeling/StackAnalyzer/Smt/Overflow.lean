import StackAnalyzer.Smt.Nodes

set_option relaxedAutoImplicit false
set_option autoImplicit false

/-!
# Overflow queries

An overflow query asserts that an operation of width `w` differs from the same operation at width
`w + 1`. One more bit is enough for sums and differences. A product can wrap around the wider
range and land in the narrow one again; this file determines for which operands it does.

## Main results

* `StackAnalyzer.Smt.wraps_iff` — one more bit detects an exact value outside of a range of
  `2 ^ w` values, unless it lies a non-zero multiple of `2 ^ (w + 1)` away from it.
* `StackAnalyzer.Smt.overflowFeasibility_exact` — when the assertions of the signed and unsigned
  queries are true exactly on overflow.
-/

namespace StackAnalyzer.Smt

open Llvm

/-! ## One more bit -/

/-- The range of `2 ^ w` integers from `lo` on. -/
def InRange (lo : ℤ) (w : ℕ) (z : ℤ) : Prop := lo ≤ z ∧ z < lo + 2 ^ w

/-- Two members of a range that differ by a multiple of its size are equal. -/
theorem InRange.eq_of_dvd {lo : ℤ} {w : ℕ} {y z : ℤ} (hy : InRange lo w y) (hz : InRange lo w z)
    (h : (2 : ℤ) ^ w ∣ y - z) : y = z := by
  unfold InRange at hy hz
  have := Int.eq_zero_of_abs_lt_dvd h (by rw [abs_lt]; constructor <;> omega)
  omega

/-- **One more bit**: let `z` be the wrapped value of `p` in a range of `2 ^ w` integers. That `z`
and `p` differ modulo `2 ^ (w + 1)` tells whether `p` lies outside of the range, exactly when no
other multiple of `2 ^ (w + 1)` takes `p` into it. -/
theorem wraps_iff {lo : ℤ} {w : ℕ} {p z : ℤ} (hz : InRange lo w z) (hpz : (2 : ℤ) ^ w ∣ p - z) :
    ((¬ (2 : ℤ) ^ (w + 1) ∣ p - z) ↔ ¬ InRange lo w p) ↔
      ∀ k : ℤ, k ≠ 0 → ¬ InRange lo w (p - k * 2 ^ (w + 1)) := by
  have hdvd : (2 : ℤ) ^ w ∣ 2 ^ (w + 1) := ⟨2, by ring⟩
  have hpos : (0 : ℤ) < 2 ^ w := by positivity
  -- the only multiple that takes `p` into the range takes it to `z`
  have hland : ∀ k : ℤ, InRange lo w (p - k * 2 ^ (w + 1)) → p - z = k * 2 ^ (w + 1) := fun k hk => by
    have h := hk.eq_of_dvd hz (by
      have := Int.dvd_sub hpz (Dvd.dvd.mul_left hdvd k)
      rwa [show p - k * 2 ^ (w + 1) - z = p - z - k * 2 ^ (w + 1) by ring])
    omega
  constructor
  · intro h k hk hin
    have hpk := hland k hin
    have hp : InRange lo w p := by
      by_contra hp
      exact h.mpr hp ⟨k, by rw [hpk]; ring⟩
    have h0 := hp.eq_of_dvd hz hpz
    rw [h0, sub_self] at hpk
    rcases mul_eq_zero.mp hpk.symm with h | h
    · exact hk h
    · rw [pow_succ] at h
      omega
  · intro h
    refine not_congr ⟨?_, fun hp => ?_⟩
    · rintro ⟨k, hk⟩
      by_cases hk0 : k = 0
      · rw [hk0, mul_zero] at hk
        rwa [show p = z by omega]
      · refine absurd ?_ (h k hk0)
        rwa [show p - k * 2 ^ (w + 1) = z by rw [mul_comm] at hk; omega]
    · rw [hp.eq_of_dvd hz hpz, sub_self]
      exact dvd_zero _

/-- Integers within one range of twice the size do not land in the range again. -/
theorem not_inRange_sub_mul {lo : ℤ} {w : ℕ} {p : ℤ} (h₁ : lo - 2 ^ w ≤ p)
    (h₂ : p < lo + 2 ^ (w + 1)) {k : ℤ} (hk : k ≠ 0) :
    ¬ InRange lo w (p - k * 2 ^ (w + 1)) := by
  rintro ⟨hl, hu⟩
  have hpos : (0 : ℤ) < 2 ^ w := by positivity
  rw [pow_succ] at h₂ hl hu
  rcases lt_or_gt_of_ne hk with hk | hk
  · nlinarith
  · nlinarith

/-! ## Arithmetic on extended operands -/

/-- Two integers are the same bit vector when they differ by a multiple of its size. -/
theorem ofInt_eq_ofInt_iff {n : ℕ} {x y : ℤ} :
    BitVec.ofInt n x = BitVec.ofInt n y ↔ (2 : ℤ) ^ n ∣ x - y := by
  rw [← BitVec.toInt_inj, BitVec.toInt_ofInt, BitVec.toInt_ofInt,
    Int.bmod_eq_bmod_iff_bmod_sub_eq_zero, ← Int.dvd_iff_bmod_eq_zero]
  simp

/-- The operation on bit vectors is the exact one, wrapped. -/
theorem arith_ofInt {op : BinaryOp} {k : ExprKind} (hop : op.isArithmetic = true)
    (hk : binaryKind op = some k) (n : ℕ) (x y : ℤ) :
    arith k (BitVec.ofInt n x) (BitVec.ofInt n y) = BitVec.ofInt n (op.exact x y) := by
  cases op <;> simp only [BinaryOp.isArithmetic, Bool.false_eq_true] at hop <;>
    simp only [binaryKind, Option.some.injEq] at hk <;> subst hk <;>
    simp only [arith, BinaryOp.exact]
  · exact (BitVec.ofInt_add x y).symm
  · refine BitVec.eq_of_toInt_eq ?_
    simp [BitVec.toInt_sub]
  · exact (BitVec.ofInt_mul x y).symm

/-- The integer that a bit vector stands for, before `extend`. -/
def extendedInt (ext : ExprKind) {w : ℕ} (x : BitVec w) : ℤ :=
  if ext = .sext then x.toInt else x.toNat

/-- Extending keeps the integer. -/
theorem extend_eq_ofInt (ext : ExprKind) {w : ℕ} (n : ℕ) (x : BitVec w) :
    extend ext n x = BitVec.ofInt n (extendedInt ext x) := by
  unfold extend extendedInt
  split_ifs
  · rfl
  · rw [BitVec.ofInt_natCast]
    exact BitVec.eq_of_toNat_eq (by simp)

/-- A bit vector is the integer it stands for. -/
theorem ofInt_extendedInt (ext : ExprKind) {w : ℕ} (x : BitVec w) :
    BitVec.ofInt w (extendedInt ext x) = x := by
  unfold extendedInt
  split_ifs <;> simp

/-- The smallest integer that a bit vector of width `w` stands for. -/
def lowest (ext : ExprKind) (w : ℕ) : ℤ := if ext = .sext then -2 ^ (w - 1) else 0

/-- The integers that bit vectors of width `w` stand for. -/
theorem inRange_extendedInt (ext : ExprKind) {w : ℕ} (hw : 1 ≤ w) (x : BitVec w) :
    InRange (lowest ext w) w (extendedInt ext x) := by
  obtain ⟨m, rfl⟩ : ∃ m, w = m + 1 := ⟨w - 1, by omega⟩
  unfold InRange lowest extendedInt
  split_ifs
  · have h₁ := BitVec.le_toInt x
    have h₂ := BitVec.toInt_lt (x := x)
    simp only [Nat.add_sub_cancel] at h₁ h₂ ⊢
    rw [pow_succ]
    omega
  · have := x.isLt
    refine ⟨by omega, ?_⟩
    rw [zero_add]
    exact_mod_cast this

/-- **The extended comparison** in terms of the exact result `p`: the two sides differ when `p` and
the wrapped result differ modulo `2 ^ (w + 1)`. -/
theorem extend_arith_eq_iff {op : BinaryOp} {k : ExprKind} (hop : op.isArithmetic = true)
    (hk : binaryKind op = some k) (ext : ExprKind) {w : ℕ} (x y : BitVec w) :
    extend ext (w + 1) (arith k x y) =
        arith k (extend ext (w + 1) x) (extend ext (w + 1) y) ↔
      (2 : ℤ) ^ (w + 1) ∣
        op.exact (extendedInt ext x) (extendedInt ext y) - extendedInt ext (arith k x y) := by
  rw [extend_eq_ofInt, extend_eq_ofInt, extend_eq_ofInt, arith_ofInt hop hk, eq_comm,
    ofInt_eq_ofInt_iff]

/-- The exact result and the wrapped one differ by a multiple of `2 ^ w`. -/
theorem dvd_exact_sub {op : BinaryOp} {k : ExprKind} (hop : op.isArithmetic = true)
    (hk : binaryKind op = some k) (ext : ExprKind) {w : ℕ} (x y : BitVec w) :
    (2 : ℤ) ^ w ∣
      op.exact (extendedInt ext x) (extendedInt ext y) - extendedInt ext (arith k x y) := by
  rw [← ofInt_eq_ofInt_iff, ofInt_extendedInt, ← arith_ofInt hop hk, ofInt_extendedInt,
    ofInt_extendedInt]

/-- The query is right about the operands `x` and `y` of width `w`: the exact result of a product
does not land in the range of the width by a non-zero multiple of `2 ^ (w + 1)`. -/
def OneBitSuffices (op : BinaryOp) (ext : ExprKind) {w : ℕ} (x y : BitVec w) : Prop :=
  op = .mul → ∀ k : ℤ, k ≠ 0 →
    ¬ InRange (lowest ext w) w (extendedInt ext x * extendedInt ext y - k * 2 ^ (w + 1))

/-- **The extended comparison detects overflow** exactly when `OneBitSuffices`. -/
theorem differs_iff_overflow {op : BinaryOp} {k : ExprKind} (hop : op.isArithmetic = true)
    (hk : binaryKind op = some k) (ext : ExprKind) {w : ℕ} (hw : 1 ≤ w) (x y : BitVec w) :
    (extend ext (w + 1) (arith k x y) ≠ arith k (extend ext (w + 1) x) (extend ext (w + 1) y) ↔
        ¬ InRange (lowest ext w) w (op.exact (extendedInt ext x) (extendedInt ext y))) ↔
      OneBitSuffices op ext x y := by
  rw [Ne, extend_arith_eq_iff hop hk, wraps_iff (inRange_extendedInt ext hw _)
    (dvd_exact_sub hop hk ext x y)]
  have hx := inRange_extendedInt ext hw x
  have hy := inRange_extendedInt ext hw y
  -- sums and differences stay within twice the range
  have hlow : -2 ^ w ≤ lowest ext w * 2 ∧ lowest ext w ≤ 0 := by
    obtain ⟨m, rfl⟩ : ∃ m, w = m + 1 := ⟨w - 1, by omega⟩
    unfold lowest
    have hpos : (0 : ℤ) < 2 ^ m := by positivity
    split_ifs <;> simp only [Nat.add_sub_cancel, pow_succ] <;> omega
  have hpos : (0 : ℤ) < 2 ^ w := by positivity
  unfold InRange at hx hy
  unfold OneBitSuffices
  cases op <;> simp only [BinaryOp.isArithmetic, Bool.false_eq_true] at hop
  · refine iff_of_true (fun k hk' => not_inRange_sub_mul ?_ ?_ hk') (by simp)
    · simp only [BinaryOp.exact]; omega
    · simp only [BinaryOp.exact, pow_succ]; omega
  · refine iff_of_true (fun k hk' => not_inRange_sub_mul ?_ ?_ hk') (by simp)
    · simp only [BinaryOp.exact]; omega
    · simp only [BinaryOp.exact, pow_succ]; omega
  · simp [BinaryOp.exact]

/-! ## The queries -/

section Queries

variable {V B : Type*} [DecidableEq V] [DecidableEq B] (fn : Llvm.Function V B)

/-- The operands `a` and `b` of an overflow query are encoded, to expressions with the values `x`
and `y` of width `w`. -/
def OperandValues (fuel : ℕ) (ranges : List (V × IntRange)) (contextInst : Option V) (a b : V)
    (σ : SymbolId → ℕ) {w : ℕ} (x y : BitVec w) : Prop :=
  ∃ lhs rhs s₁ s₂,
    encodeValue fn none fuel a (overflowContext fn fuel ranges contextInst) = (some lhs, s₁) ∧
    encodeValue fn none fuel b s₁ = (some rhs, s₂) ∧
    s₂.builder.value σ lhs = some ⟨w, x⟩ ∧ s₂.builder.value σ rhs = some ⟨w, y⟩

/-- The last assertion is true under the assignment. -/
def LastAssertionTrue (ir : ConstraintIR V) (σ : SymbolId → ℕ) : Prop :=
  (ir.assertions.getLast?.bind (value σ ir.nodes)).any Bits.isTrue = true

/-- The overflow assertion of a query. -/
theorem lastAssertionTrue_iff {fuel : ℕ} {ranges : List (V × IntRange)} {contextInst : Option V}
    {operation a b : V} {op : BinaryOp} {nsw nuw : Bool} {σ : SymbolId → ℕ}
    (hdef : fn.definition operation = .binary op nsw nuw a b) (hop : op.isArithmetic = true)
    {x y : BitVec (fn.inferBitWidth operation)}
    (hxy : OperandValues fn fuel ranges contextInst a b σ x y)
    {ext : ExprKind} (hext : ext = .sext ∨ ext = .zext) {k : ExprKind}
    (hk : binaryKind op = some k) :
    LastAssertionTrue (encodeOverflowFeasibility fn ext fuel ranges operation contextInst) σ ↔
      extend ext (fn.inferBitWidth operation + 1) (arith k x y) ≠
        arith k (extend ext (fn.inferBitWidth operation + 1) x)
          (extend ext (fn.inferBitWidth operation + 1) y) := by
  obtain ⟨lhs, rhs, s₁, s₂, h₁, h₂, hl, hr⟩ := hxy
  have hlim : ¬ fn.inferBitWidth operation ≥ 2 ^ 32 - 1 := not_le.mpr (fn.inferBitWidth_lt operation)
  have hz := value_makeArith hk (fn.one_le_inferBitWidth operation) hl hr
  have hv := value_compareExtended .ne hext hk
    (value_makeBinary_of_value hl k lhs rhs (fn.inferBitWidth operation))
    (value_makeBinary_of_value hr k lhs rhs (fn.inferBitWidth operation)) hz
  rw [show predicateKind .ne = ExprKind.ne from rfl] at hv
  have hir : encodeOverflowFeasibility fn ext fuel ranges operation contextInst =
      ((compareExtended .ne ext k lhs rhs
        (s₂.builder.makeBinary k lhs rhs (fn.inferBitWidth operation)).1 (fn.inferBitWidth operation)
        (s₂.builder.makeBinary k lhs rhs (fn.inferBitWidth operation)).2).2.addAssertion
          (compareExtended .ne ext k lhs rhs
            (s₂.builder.makeBinary k lhs rhs (fn.inferBitWidth operation)).1
            (fn.inferBitWidth operation)
            (s₂.builder.makeBinary k lhs rhs (fn.inferBitWidth operation)).2).1).ir := by
    simp only [encodeOverflowFeasibility, hdef, hop, if_true, withOperands, h₁, h₂, hk,
      Option.getD_some, if_neg hlim]
    rfl
  rw [hir]
  generalize compareExtended .ne ext k lhs rhs
    (s₂.builder.makeBinary k lhs rhs (fn.inferBitWidth operation)).1 (fn.inferBitWidth operation)
    (s₂.builder.makeBinary k lhs rhs (fn.inferBitWidth operation)).2 = cmp at hv
  have hv' : value σ (cmp.2.addAssertion cmp.1).ir.nodes cmp.1 = _ := value_addAssertion hv cmp.1
  unfold LastAssertionTrue
  rw [ConstraintIrBuilder.addAssertion_assertions, List.getLast?_append, List.getLast?_singleton, Option.some_or,
    Option.bind_some, hv', Option.any_some, Bits.isTrue_ofBool le_rfl]
  simp [Predicate.holds]

/-- **Overflow queries**: for every operation and all values `x` and `y` of its operands, the signed
query asserts something true exactly when the exact signed result does not fit, if and only if one
more bit suffices for the two signed values; and likewise for the unsigned query. One more bit
always suffices for sums and differences.

**Proof sketch.** The wrapped result and the exact one differ by a multiple of `2 ^ w`, and the
assertion asks whether they differ modulo `2 ^ (w + 1)`. -/
theorem overflowFeasibility_exact (fuel : ℕ) (ranges : List (V × IntRange))
    (contextInst : Option V) (operation a b : V) (op : BinaryOp) (nsw nuw : Bool)
    (hdef : fn.definition operation = .binary op nsw nuw a b) (hop : op.isArithmetic = true)
    (σ : SymbolId → ℕ) (x y : BitVec (fn.inferBitWidth operation))
    (hxy : OperandValues fn fuel ranges contextInst a b σ x y) :
    ((LastAssertionTrue
          (encodeSignedOverflowFeasibility fn fuel ranges operation contextInst) σ ↔
        ¬ (-2 ^ (fn.inferBitWidth operation - 1) ≤ op.exact x.toInt y.toInt ∧
          op.exact x.toInt y.toInt < 2 ^ (fn.inferBitWidth operation - 1))) ↔
      OneBitSuffices op .sext x y) ∧
    ((LastAssertionTrue
          (encodeUnsignedOverflowFeasibility fn fuel ranges operation contextInst) σ ↔
        ¬ (0 ≤ op.exact x.toNat y.toNat ∧
          op.exact x.toNat y.toNat < 2 ^ fn.inferBitWidth operation)) ↔
      OneBitSuffices op .zext x y) := by
  obtain ⟨k, hk⟩ : ∃ k, binaryKind op = some k := by
    cases op <;> simp [BinaryOp.isArithmetic] at hop <;> exact ⟨_, rfl⟩
  have hw := fn.one_le_inferBitWidth operation
  constructor
  · rw [encodeSignedOverflowFeasibility,
      lastAssertionTrue_iff fn hdef hop hxy (Or.inl rfl) hk,
      ← differs_iff_overflow hop hk .sext hw x y]
    have hrange : InRange (lowest .sext (fn.inferBitWidth operation)) (fn.inferBitWidth operation)
        (op.exact (extendedInt .sext x) (extendedInt .sext y)) ↔
        -2 ^ (fn.inferBitWidth operation - 1) ≤ op.exact x.toInt y.toInt ∧
          op.exact x.toInt y.toInt < 2 ^ (fn.inferBitWidth operation - 1) := by
      obtain ⟨m, hm⟩ : ∃ m, fn.inferBitWidth operation = m + 1 :=
        ⟨fn.inferBitWidth operation - 1, by omega⟩
      simp only [InRange, lowest, extendedInt, if_true, hm, Nat.add_sub_cancel, pow_succ]
      refine and_congr_right fun _ => ?_
      constructor <;> intro h <;> omega
    rw [hrange]
  · rw [encodeUnsignedOverflowFeasibility,
      lastAssertionTrue_iff fn hdef hop hxy (Or.inr rfl) hk,
      ← differs_iff_overflow hop hk .zext hw x y]
    simp only [InRange, lowest, extendedInt, reduceCtorEq, if_false, zero_add]

end Queries

/-- The values of a product. -/
inductive MulValue
  | lhs | rhs | product
  deriving DecidableEq

/-- The product of two arguments, of width 4. -/
def mulFunction : Llvm.Function MulValue Unit where
  definition
    | .product => .binary .mul false false .lhs .rhs
    | _ => .argument
  integerWidth := fun _ => some ⟨4, by decide⟩
  name := fun _ => ""
  parent := fun _ => ()
  instructions := fun _ => [.product]

/-- Both arguments are the bit pattern `1000`. -/
def mulAssignment : SymbolId → ℕ := fun _ => 8

/-- The theorem at the product of two arguments of width 4. -/
theorem overflowFeasibility_exact_mul :
    OperandValues mulFunction 2 [] none .lhs .rhs mulAssignment 8#4 8#4 ∧
    ((LastAssertionTrue (encodeSignedOverflowFeasibility mulFunction 2 [] .product none) mulAssignment ↔
        ¬ (-2 ^ 3 ≤ (8#4).toInt * (8#4).toInt ∧ (8#4).toInt * (8#4).toInt < 2 ^ 3)) ↔
      OneBitSuffices .mul .sext 8#4 8#4) := by
  have hops : OperandValues mulFunction 2 [] none .lhs .rhs mulAssignment 8#4 8#4 :=
    ⟨0, 1, _, _, rfl, rfl, rfl, rfl⟩
  exact ⟨hops, (overflowFeasibility_exact mulFunction 2 [] none .product .lhs .rhs .mul false false rfl rfl
    mulAssignment 8#4 8#4 hops).1⟩

/-- With 4 bits, neither `-8 * -8` as signed numbers nor `8 * 8` as unsigned ones fits, and neither
query notices: 64 is a multiple of `2 ^ 5`. -/
theorem overflowFeasibility_misses_product :
    OperandValues mulFunction 2 [] none .lhs .rhs mulAssignment 8#4 8#4 ∧
    (¬ LastAssertionTrue (encodeSignedOverflowFeasibility mulFunction 2 [] .product none) mulAssignment ∧
      ¬ ((8#4).toInt * (8#4).toInt < 2 ^ 3)) ∧
    (¬ LastAssertionTrue (encodeUnsignedOverflowFeasibility mulFunction 2 [] .product none) mulAssignment ∧
      ¬ ((8#4).toNat * (8#4).toNat < 2 ^ 4)) := by
  refine ⟨⟨0, 1, _, _, rfl, rfl, rfl, rfl⟩, ⟨?_, by decide⟩, ⟨?_, by decide⟩⟩ <;>
    unfold LastAssertionTrue <;> decide

end StackAnalyzer.Smt
