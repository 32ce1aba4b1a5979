import StackAnalyzer.Smt.Meaning

set_option relaxedAutoImplicit false
set_option autoImplicit false

/-!
# Expressions of Z3

The part of Z3 that the backend uses: expressions over bit vectors and truth values, which Z3 refuses
to build when their sorts do not fit, and a check of a list of assertions. A constant is known by its
name and its width.

## Main definitions

* `StackAnalyzer.Smt.Z3.Expr`, `StackAnalyzer.Smt.Z3.Expr.sort` — expressions and their sorts.
* `StackAnalyzer.Smt.Z3.Expr.eval` — the value of an expression in a model.
* `StackAnalyzer.Smt.Z3.Solver` — the solver; it is correct if it answers for what has no model and
  what has one.

## Main results

* `StackAnalyzer.Smt.Z3.Expr.sort_of_eval` — values have the sorts of their expressions.
-/

namespace StackAnalyzer.Smt.Z3

/-- The operations with two operands. -/
inductive Op
  | bvadd | bvsub | bvmul | bvshl | bvlshr | bvashr
  | eq | distinct | bvult | bvule | bvugt | bvuge | bvslt | bvsle | bvsgt | bvsge
  | and | or
  deriving DecidableEq

/-- Expressions. -/
inductive Expr
  | const (name : String) (width : ℕ)
  | numeral (b : Bits)
  | ite (c l r : Expr)
  | app (op : Op) (l r : Expr)
  | not (e : Expr)
  | zext (i : ℕ) (e : Expr)
  | sext (i : ℕ) (e : Expr)
  | extract (hi lo : ℕ) (e : Expr)
  deriving DecidableEq

/-- The result of an operation on bit vectors of one width. -/
def Op.onBits (op : Op) {w : ℕ} (a b : BitVec w) : Option ExprValue :=
  match op with
  | .bvadd => some (.bits ⟨w, a + b⟩)
  | .bvsub => some (.bits ⟨w, a - b⟩)
  | .bvmul => some (.bits ⟨w, a * b⟩)
  | .bvshl => some (.bits ⟨w, a <<< b⟩)
  | .bvlshr => some (.bits ⟨w, a >>> b⟩)
  | .bvashr => some (.bits ⟨w, a.sshiftRight b.toNat⟩)
  | .eq => some (.bool (decide (a = b)))
  | .distinct => some (.bool (decide (a ≠ b)))
  | .bvult => some (.bool (a.ult b))
  | .bvule => some (.bool (a.ule b))
  | .bvugt => some (.bool (b.ult a))
  | .bvuge => some (.bool (b.ule a))
  | .bvslt => some (.bool (a.slt b))
  | .bvsle => some (.bool (a.sle b))
  | .bvsgt => some (.bool (b.slt a))
  | .bvsge => some (.bool (b.sle a))
  | .and | .or => none

/-- The result of an operation on truth values. -/
def Op.onBools (op : Op) (a b : Bool) : Option ExprValue :=
  match op with
  | .and => some (.bool (a && b))
  | .or => some (.bool (a || b))
  | .eq => some (.bool (a == b))
  | .distinct => some (.bool (a != b))
  | _ => none

/-- The result of an operation, if the sorts of the operands fit. -/
def Op.eval (op : Op) : ExprValue → ExprValue → Option ExprValue
  | .bits l, .bits r =>
    if l.width ≠ r.width then none else op.onBits l.val (r.atWidth l.width)
  | .bool l, .bool r => op.onBools l r
  | _, _ => none

/-- The sort of the result of an operation. -/
def Op.sort (op : Op) : ExprSort → ExprSort → Option ExprSort
  | .bits l, .bits r =>
    if l ≠ r then none
    else
      match op with
      | .bvadd | .bvsub | .bvmul | .bvshl | .bvlshr | .bvashr => some (.bits l)
      | .and | .or => none
      | _ => some .bool
  | .bool, .bool =>
    match op with
    | .and | .or | .eq | .distinct => some .bool
    | _ => none
  | _, _ => none

/-- The result of an operation has the sort of the operation. -/
theorem Op.sort_eval (op : Op) (l r : ExprValue) :
    (op.eval l r).map ExprValue.sort = op.sort l.sort r.sort := by
  cases l with
  | bool l =>
    cases r with
    | bool r => cases op <;> rfl
    | bits r => rfl
  | bits l =>
    cases r with
    | bool r => rfl
    | bits r =>
      simp only [Op.eval, Op.sort, ExprValue.sort]
      split_ifs
      · rfl
      · cases op <;> rfl

namespace Expr

/-- The sort of an expression. Z3 throws an exception when an expression without one is built. -/
def sort : Expr → Option ExprSort
  | const _ width => some (.bits width)
  | numeral b => some (.bits b.width)
  | ite c l r =>
    match c.sort, l.sort, r.sort with
    | some .bool, some s, some s' => if s = s' then some s else none
    | _, _, _ => none
  | app op l r => l.sort.bind fun s => r.sort.bind fun s' => op.sort s s'
  | not e => if e.sort = some .bool then some .bool else none
  | zext i e | sext i e =>
    match e.sort with
    | some (.bits w) => some (.bits (w + i))
    | _ => none
  | extract hi lo e =>
    match e.sort with
    | some (.bits w) => if lo ≤ hi ∧ hi < w then some (.bits (hi - lo + 1)) else none
    | _ => none

/-- The value of an expression in a model, which gives constants their values. -/
def eval (model : String → (w : ℕ) → BitVec w) : Expr → Option ExprValue
  | const name width => some (.bits ⟨width, model name width⟩)
  | numeral b => some (.bits b)
  | ite c l r =>
    match c.eval model, l.eval model, r.eval model with
    | some (.bool c), some l, some r =>
      if l.sort = r.sort then some (if c then l else r) else none
    | _, _, _ => none
  | app op l r => (l.eval model).bind fun l => (r.eval model).bind fun r => op.eval l r
  | not e =>
    match e.eval model with
    | some (.bool b) => some (.bool !b)
    | _ => none
  | zext i e =>
    match e.eval model with
    | some (.bits b) => some (.bits ⟨b.width + i, b.val.setWidth _⟩)
    | _ => none
  | sext i e =>
    match e.eval model with
    | some (.bits b) => some (.bits ⟨b.width + i, b.val.signExtend _⟩)
    | _ => none
  | extract hi lo e =>
    match e.eval model with
    | some (.bits b) =>
      if lo ≤ hi ∧ hi < b.width then some (.bits ⟨hi - lo + 1, b.val.extractLsb hi lo⟩) else none
    | _ => none

/-- **A value has the sort of its expression.** -/
theorem sort_of_eval {model : String → (w : ℕ) → BitVec w} {e : Expr} {v : ExprValue}
    (h : e.eval model = some v) : e.sort = some v.sort := by
  induction e generalizing v with
  | const name width =>
    obtain rfl := Option.some.inj h
    rfl
  | numeral b =>
    obtain rfl := Option.some.inj h
    rfl
  | ite c l r ihc ihl ihr =>
    unfold eval at h
    split at h
    · next cv lv rv hc hl hr =>
      split_ifs at h with hsort hcv
      · obtain rfl := Option.some.inj h
        rw [sort, ihc hc, ihl hl, ihr hr]
        exact if_pos hsort
      · obtain rfl := Option.some.inj h
        rw [sort, ihc hc, ihl hl, ihr hr]
        exact (if_pos hsort).trans (congrArg some hsort)
    · cases h
  | app op l r ihl ihr =>
    obtain ⟨lv, hl, h⟩ := Option.bind_eq_some_iff.mp h
    obtain ⟨rv, hr, h⟩ := Option.bind_eq_some_iff.mp h
    rw [sort, ihl hl, ihr hr, Option.bind_some, Option.bind_some, ← Op.sort_eval, h]
    rfl
  | not e ih =>
    unfold eval at h
    split at h
    · next b he =>
      obtain rfl := Option.some.inj h
      rw [sort, ih he]
      rfl
    · cases h
  | zext i e ih =>
    unfold eval at h
    split at h
    · next b he =>
      obtain rfl := Option.some.inj h
      rw [sort, ih he]
      rfl
    · cases h
  | sext i e ih =>
    unfold eval at h
    split at h
    · next b he =>
      obtain rfl := Option.some.inj h
      rw [sort, ih he]
      rfl
    · cases h
  | extract hi lo e ih =>
    unfold eval at h
    split at h
    · next b he =>
      split_ifs at h with hbounds
      obtain rfl := Option.some.inj h
      simp [sort, ih he, ExprValue.sort, hbounds]
    · cases h

end Expr

/-! ## The solver -/

/-- What a check finds. -/
inductive CheckResult
  | sat
  | unsat
  | unknown (reason : String)
  deriving DecidableEq

/-- The solver: a check of assertions with a time limit, which may throw an exception, and the texts
of the exceptions when an expression has no sort or a truth value is asked for its width. -/
structure Solver where
  check : ℕ → List Expr → Except String CheckResult
  sortError : Expr → String
  widthError : Expr → String

/-- Some model makes all assertions true. -/
def HasModel (assertions : List Expr) : Prop :=
  ∃ model, ∀ e ∈ assertions, e.eval model = some (.bool true)

/-- **Z3 is correct.** -/
structure Solver.Correct (z3 : Solver) : Prop where
  unsat : ∀ timeoutMs assertions, z3.check timeoutMs assertions = .ok .unsat →
    ¬ HasModel assertions
  sat : ∀ timeoutMs assertions, z3.check timeoutMs assertions = .ok .sat → HasModel assertions

end StackAnalyzer.Smt.Z3
