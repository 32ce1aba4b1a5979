import StackAnalyzer.Smt.Encoder

set_option relaxedAutoImplicit false
set_option autoImplicit false

/-!
# Values of the nodes that the encoder builds

For each kind of node, the value of a new node in terms of the values of its operands, and that
building it keeps the values of the others.

## Main results

* `StackAnalyzer.Smt.value_makeConstant`, `StackAnalyzer.Smt.value_makeArith`,
  `StackAnalyzer.Smt.value_makeCompare`, … — the values of new nodes.
* `StackAnalyzer.Smt.value_compareExtended` — the value of the comparison at one more bit.
-/

namespace StackAnalyzer.Smt

open Llvm

/-- The two ways to extend a bit vector. -/
def extend (ext : ExprKind) {w : ℕ} (n : ℕ) (x : BitVec w) : BitVec n :=
  if ext = .sext then x.signExtend n else x.setWidth n

variable {V : Type*} {σ : SymbolId → ℕ} {b : ConstraintIrBuilder V}

/-- The value of an expression of the builder. -/
abbrev ConstraintIrBuilder.value (b : ConstraintIrBuilder V) (σ : SymbolId → ℕ) (e : ExprId) :
    Option Bits := Smt.value σ b.ir.nodes e

/-- The value of an extension node. -/
theorem value_makeExtend {ext : ExprKind} (hext : ext = .sext ∨ ext = .zext) {e : ExprId} {w : ℕ}
    {x : BitVec w} (he : b.value σ e = some ⟨w, x⟩) {n : ℕ} (hn : 1 ≤ n) :
    (b.makeUnary ext e n).2.value σ (b.makeUnary ext e n).1 = some ⟨n, extend ext n x⟩ := by
  have hmake : b.makeUnary ext e n = b.appendNode { kind := ext, bitWidth := n, lhs := e } := by
    rw [ConstraintIrBuilder.makeUnary, normalizeBitWidth, if_neg (by omega)]
  rw [hmake, ConstraintIrBuilder.appendNode, ConstraintIrBuilder.value, value_last]
  rcases hext with rfl | rfl <;> simp only [evalNode, operand_eq he] <;> rfl

/-- The value of an arithmetic node. -/
theorem value_makeArith {op : BinaryOp} {k : ExprKind} (hk : binaryKind op = some k)
    {lhs rhs : ExprId} {n : ℕ} (hn : 1 ≤ n) {x y : BitVec n}
    (hl : b.value σ lhs = some ⟨n, x⟩) (hr : b.value σ rhs = some ⟨n, y⟩) :
    (b.makeBinary k lhs rhs n).2.value σ (b.makeBinary k lhs rhs n).1 =
      some ⟨n, arith k x y⟩ := by
  have hmake : b.makeBinary k lhs rhs n =
      b.appendNode { kind := k, bitWidth := n, lhs := lhs, rhs := rhs } := by
    rw [ConstraintIrBuilder.makeBinary, normalizeBitWidth, if_neg (by omega)]
  rw [hmake, ConstraintIrBuilder.appendNode, ConstraintIrBuilder.value, value_last]
  cases op <;> simp only [binaryKind, Option.some.injEq, reduceCtorEq] at hk <;> subst hk <;>
    simp only [evalNode, operand_eq hl, operand_eq hr, Bits.atWidth_mk]

/-- A comparison node tests the predicate it stands for. -/
theorem compare_predicateKind (p : Predicate) {w : ℕ} (x y : BitVec w) :
    compare (predicateKind p) x y = p.holds x y := by
  cases p <;> simp only [compare, predicateKind, Predicate.holds, BitVec.ult, BitVec.ule,
    BitVec.slt, BitVec.sle]

/-- The value of a comparison node. -/
theorem value_makeCompare (p : Predicate) {lhs rhs : ExprId} {n : ℕ} {x y : BitVec n}
    (hl : b.value σ lhs = some ⟨n, x⟩) (hr : b.value σ rhs = some ⟨n, y⟩) :
    (b.makeBinary (predicateKind p) lhs rhs 1).2.value σ
        (b.makeBinary (predicateKind p) lhs rhs 1).1 =
      some ⟨1, Bits.ofBool 1 (p.holds x y)⟩ := by
  have hmake : b.makeBinary (predicateKind p) lhs rhs 1 =
      b.appendNode { kind := predicateKind p, bitWidth := 1, lhs := lhs, rhs := rhs } := rfl
  rw [hmake, ConstraintIrBuilder.appendNode, ConstraintIrBuilder.value, value_last,
    ← compare_predicateKind]
  cases p <;> simp only [predicateKind, evalNode, operand_eq hl, operand_eq hr, compareBits_mk]

/-- The value of a constant of at most 64 bits. -/
theorem value_makeConstant (c : ℤ) {n : ℕ} (hn : 1 ≤ n) (hn64 : n ≤ 64) :
    (b.makeConstant c n).2.value σ (b.makeConstant c n).1 = some ⟨n, BitVec.ofInt n c⟩ := by
  have hmake : b.makeConstant c n =
      b.appendNode { kind := .constant, constant := c, bitWidth := n } := by
    rw [ConstraintIrBuilder.makeConstant, normalizeBitWidth, if_neg (by omega)]
  rw [hmake, ConstraintIrBuilder.appendNode, ConstraintIrBuilder.value, value_last]
  simp only [evalNode, Option.some.injEq, Bits.mk.injEq, heq_eq_eq, true_and]
  -- the low 64 bits hold the low `n` ones
  refine BitVec.eq_of_toNat_eq ?_
  have hdvd : ((2 ^ n : ℕ) : ℤ) ∣ ((2 ^ 64 : ℕ) : ℤ) :=
    Int.natCast_dvd_natCast.mpr (pow_dvd_pow 2 hn64)
  have h64 : 0 ≤ c % ((2 ^ 64 : ℕ) : ℤ) := Int.emod_nonneg _ (by positivity)
  have hn0 : 0 ≤ c % ((2 ^ n : ℕ) : ℤ) := Int.emod_nonneg _ (by positivity)
  rw [BitVec.toNat_setWidth, BitVec.toNat_ofInt, BitVec.toNat_ofInt]
  refine Int.ofNat_inj.mp ?_
  rw [Int.natCast_emod, Int.toNat_of_nonneg h64, Int.toNat_of_nonneg hn0,
    Int.emod_emod_of_dvd _ hdvd]

/-- The value of a truncation node. -/
theorem value_makeTrunc {e : ExprId} {w : ℕ} {x : BitVec w} (he : b.value σ e = some ⟨w, x⟩)
    {n : ℕ} (hn : 1 ≤ n) : (b.makeUnary .trunc e n).2.value σ (b.makeUnary .trunc e n).1 =
      some ⟨n, x.setWidth n⟩ := by
  have hmake : b.makeUnary .trunc e n =
      b.appendNode { kind := .trunc, bitWidth := n, lhs := e } := by
    rw [ConstraintIrBuilder.makeUnary, normalizeBitWidth, if_neg (by omega)]
  rw [hmake, ConstraintIrBuilder.appendNode, ConstraintIrBuilder.value, value_last]
  simp only [evalNode, operand_eq he]
  rfl

/-- The value of a negation. -/
theorem value_makeNot {e : ExprId} {x : Bits} (he : b.value σ e = some x) :
    (b.makeUnary .not e 1).2.value σ (b.makeUnary .not e 1).1 =
      some ⟨1, Bits.ofBool 1 (!x.isTrue)⟩ := by
  have hmake : b.makeUnary .not e 1 = b.appendNode { kind := .not, bitWidth := 1, lhs := e } := rfl
  rw [hmake, ConstraintIrBuilder.appendNode, ConstraintIrBuilder.value, value_last]
  simp only [evalNode, operand_eq he]

/-- The value of a conjunction. -/
theorem value_makeAnd {lhs rhs : ExprId} {x y : Bits} (hl : b.value σ lhs = some x)
    (hr : b.value σ rhs = some y) :
    (b.makeBinary .and lhs rhs 1).2.value σ (b.makeBinary .and lhs rhs 1).1 =
      some ⟨1, Bits.ofBool 1 (x.isTrue && y.isTrue)⟩ := by
  have hmake : b.makeBinary .and lhs rhs 1 =
      b.appendNode { kind := .and, bitWidth := 1, lhs := lhs, rhs := rhs } := rfl
  rw [hmake, ConstraintIrBuilder.appendNode, ConstraintIrBuilder.value, value_last]
  simp only [evalNode, operand_eq hl, operand_eq hr]

/-- The value of a disjunction. -/
theorem value_makeOr {lhs rhs : ExprId} {x y : Bits} (hl : b.value σ lhs = some x)
    (hr : b.value σ rhs = some y) :
    (b.makeBinary .or lhs rhs 1).2.value σ (b.makeBinary .or lhs rhs 1).1 =
      some ⟨1, Bits.ofBool 1 (x.isTrue || y.isTrue)⟩ := by
  have hmake : b.makeBinary .or lhs rhs 1 =
      b.appendNode { kind := .or, bitWidth := 1, lhs := lhs, rhs := rhs } := rfl
  rw [hmake, ConstraintIrBuilder.appendNode, ConstraintIrBuilder.value, value_last]
  simp only [evalNode, operand_eq hl, operand_eq hr]

/-- The value of a conditional expression. -/
theorem value_makeIte {cond onTrue onFalse : ExprId} {n : ℕ} (hn : 1 ≤ n) {c x y : Bits}
    (hc : b.value σ cond = some c) (hx : b.value σ onTrue = some x)
    (hy : b.value σ onFalse = some y) :
    (b.makeTernary .ite cond onTrue onFalse n).2.value σ
        (b.makeTernary .ite cond onTrue onFalse n).1 =
      some ⟨n, if c.isTrue then x.atWidth n else y.atWidth n⟩ := by
  have hmake : b.makeTernary .ite cond onTrue onFalse n = b.appendNode
      { kind := .ite, bitWidth := n, lhs := cond, rhs := onTrue, extra := onFalse } := by
    rw [ConstraintIrBuilder.makeTernary, normalizeBitWidth, if_neg (by omega)]
  rw [hmake, ConstraintIrBuilder.appendNode, ConstraintIrBuilder.value, value_last]
  simp only [evalNode, operand_eq hc, operand_eq hx, operand_eq hy]

/-- Appending a node keeps the values of the others. -/
theorem value_makeBinary_of_value {e : ExprId} {v : Bits} (he : b.value σ e = some v)
    (k : ExprKind) (lhs rhs : ExprId) (n : ℕ) : (b.makeBinary k lhs rhs n).2.value σ e = some v :=
  value_append he _

/-- Appending a node keeps the values of the others. -/
theorem value_makeUnary_of_value {e : ExprId} {v : Bits} (he : b.value σ e = some v)
    (k : ExprKind) (x : ExprId) (n : ℕ) : (b.makeUnary k x n).2.value σ e = some v :=
  value_append he _

/-- An assertion keeps the values of all expressions. -/
theorem value_addAssertion {e : ExprId} {v : Bits} (he : b.value σ e = some v) (a : ExprId) :
    (b.addAssertion a).value σ e = some v := by
  obtain ⟨more, hmore⟩ := b.nodes_prefix_addAssertion a
  rw [ConstraintIrBuilder.value, ← hmore]
  exact value_append he more

/-- **The value of the extended comparison.** -/
theorem value_compareExtended (p : Predicate) {ext : ExprKind} (hext : ext = .sext ∨ ext = .zext) {op : BinaryOp} {k : ExprKind}
    (hk : binaryKind op = some k) {lhs rhs result : ExprId} {w : ℕ}
    {x y z : BitVec w} (hl : b.value σ lhs = some ⟨w, x⟩) (hr : b.value σ rhs = some ⟨w, y⟩)
    (hz : b.value σ result = some ⟨w, z⟩) :
    (compareExtended (predicateKind p) ext k lhs rhs result w b).2.value σ
        (compareExtended (predicateKind p) ext k lhs rhs result w b).1 =
      some ⟨1, Bits.ofBool 1 (p.holds (extend ext (w + 1) z)
        (arith k (extend ext (w + 1) x) (extend ext (w + 1) y)))⟩ := by
  have hw : 1 ≤ w + 1 := by omega
  have h₁ := value_makeExtend hext hl hw
  have h₂ := value_makeExtend hext (value_makeUnary_of_value hr ext lhs (w + 1)) hw
  have h₃ := value_makeExtend hext (value_makeUnary_of_value
    (value_makeUnary_of_value hz ext lhs (w + 1)) ext rhs (w + 1)) hw
  have h₄ := value_makeArith hk hw
    (value_makeUnary_of_value (value_makeUnary_of_value h₁ ext rhs (w + 1)) ext result (w + 1))
    (value_makeUnary_of_value h₂ ext result (w + 1))
  exact value_makeCompare p (value_makeBinary_of_value h₃ k _ _ (w + 1)) h₄

end StackAnalyzer.Smt
