import StackAnalyzer.Llvm.Value
import StackAnalyzer.Smt.ConstraintIR

set_option relaxedAutoImplicit false
set_option autoImplicit false

/-!
# Encoding LLVM values

The encoder that turns the conditions of a control-flow edge into a `ConstraintIR`. It walks the
operands of a value with a memo table, and breaks cycles through phis by a set of values in
progress: a value met again while it is being encoded becomes a symbol.

The recursion takes fuel, one unit for every value that may be in progress at once; the results do
not depend on it once there is enough (`StackAnalyzer.Smt.encodeValue_fuel`).

## Main definitions

* `StackAnalyzer.Smt.EncState` — the builder, the memo table and the values in progress.
* `StackAnalyzer.Smt.encodeValue`, `StackAnalyzer.Smt.encodeAsBoolean` — `LlvmExprEncoder`.
* `StackAnalyzer.Smt.encode` — `LlvmConstraintEncoder::encode`.
* `StackAnalyzer.Smt.encodeSignedOverflowFeasibility`,
  `StackAnalyzer.Smt.encodeUnsignedOverflowFeasibility`.
-/

namespace StackAnalyzer.Smt

open Llvm

variable {V B : Type*} [DecidableEq V] [DecidableEq B]

/-- `IntRange`. -/
structure IntRange where
  lower : ℤ := 0
  upper : ℤ := 0
  hasLower : Bool := false
  hasUpper : Bool := false

/-- The state of an encoder: the builder it writes to, `cache_` and `inProgress_`. -/
structure EncState (V : Type*) where
  builder : ConstraintIrBuilder V := {}
  cache : V → Option ExprId := fun _ => none
  inProgress : List V := []

/-- A step of the encoder that may fail to produce an expression. -/
abbrev Enc (V : Type*) := EncState V → Option ExprId × EncState V

namespace EncState

/-- Run a builder operation. -/
def build {α : Type*} (s : EncState V) (f : ConstraintIrBuilder V → α × ConstraintIrBuilder V) :
    α × EncState V :=
  ((f s.builder).1, { s with builder := (f s.builder).2 })

/-- `cache_.emplace`: keeps an entry that is already there. -/
def emplace (s : EncState V) (v : V) (e : ExprId) : EncState V :=
  match s.cache v with
  | some _ => s
  | none => { s with cache := Function.update s.cache v (some e) }

@[simp] theorem emplace_builder (s : EncState V) (v : V) (e : ExprId) :
    (s.emplace v e).builder = s.builder := by
  unfold emplace
  cases s.cache v <;> rfl

@[simp] theorem emplace_inProgress (s : EncState V) (v : V) (e : ExprId) :
    (s.emplace v e).inProgress = s.inProgress := by
  unfold emplace
  cases s.cache v <;> rfl

/-- `inProgress_.insert`. -/
def enter (s : EncState V) (v : V) : EncState V := { s with inProgress := v :: s.inProgress }

/-- `inProgress_.erase`. -/
def leave (s : EncState V) (v : V) : EncState V := { s with inProgress := s.inProgress.erase v }

end EncState

/-- The end of `encodeValue` for a value that was in progress. -/
def memoise (v : V) (r : Option ExprId × EncState V) : Option ExprId × EncState V :=
  match r.1 with
  | some e => (some e, (r.2.leave v).emplace v e)
  | none => (none, r.2.leave v)

/-! ## `LlvmExprEncoder` -/

/-- Encode one operand and continue with its expression. -/
def withOperand (enc : Enc V) (k : ExprId → Enc V) : Enc V := fun s =>
  match (enc s).1 with
  | some e => k e (enc s).2
  | none => (none, (enc s).2)

/-- Encode two operands and continue with their expressions; both are encoded in any case. -/
def withOperands (enc₁ enc₂ : Enc V) (k : ExprId → ExprId → Enc V) : Enc V := fun s =>
  match (enc₁ s).1, (enc₂ (enc₁ s).2).1 with
  | some a, some b => k a b (enc₂ (enc₁ s).2).2
  | _, _ => (none, (enc₂ (enc₁ s).2).2)

/-- Finish with the expression that a builder operation makes. -/
def emit (f : ConstraintIrBuilder V → ExprId × ConstraintIrBuilder V) : Enc V := fun s =>
  (some (s.build f).1, (s.build f).2)

/-- Read the expression of `enc` as a condition: compare it with zero, unless it is one. -/
def asBoolean (enc : Enc V) : Enc V :=
  withOperand enc fun e s =>
    if isBooleanExprKind (s.builder.node e).kind then (some e, s)
    else
      let (zeroExpr, s') := s.build (·.makeConstant 0 (s.builder.node e).bitWidth)
      emit (·.makeBinary .ne e zeroExpr 1) s'

/-- The expression kind of a binary operator that the encoder knows. -/
def binaryKind : BinaryOp → Option ExprKind
  | .add => some .add
  | .sub => some .sub
  | .mul => some .mul
  | .shl => some .shl
  | .lshr => some .lshr
  | .ashr => some .ashr
  | .other => none

/-- The expression kind of a predicate. -/
def predicateKind : Predicate → ExprKind
  | .eq => .eq
  | .ne => .ne
  | .ult => .ult
  | .ule => .ule
  | .ugt => .ugt
  | .uge => .uge
  | .slt => .slt
  | .sle => .sle
  | .sgt => .sgt
  | .sge => .sge

/-- A `select` of truth values: `(cond and trueValue) or (not cond and falseValue)`. -/
def selectBoolean (cond trueValue falseValue : ExprId) (b : ConstraintIrBuilder V) :
    ExprId × ConstraintIrBuilder V :=
  let (onTrue, b) := b.makeBinary .and cond trueValue 1
  let (notCond, b) := b.makeUnary .not cond 1
  let (onFalse, b) := b.makeBinary .and notCond falseValue 1
  b.makeBinary .or onTrue onFalse 1

/-- The comparison of an operation with the same operation on its operands extended by one bit:
`compare (ext result) (op (ext lhs) (ext rhs))`. -/
def compareExtended (compare ext opKind : ExprKind) (lhs rhs result : ExprId) (bitWidth : ℕ)
    (b : ConstraintIrBuilder V) : ExprId × ConstraintIrBuilder V :=
  let extWidth := bitWidth + 1
  let (lhsExt, b) := b.makeUnary ext lhs extWidth
  let (rhsExt, b) := b.makeUnary ext rhs extWidth
  let (resultExt, b) := b.makeUnary ext result extWidth
  let (extArith, b) := b.makeBinary opKind lhsExt rhsExt extWidth
  b.makeBinary compare resultExt extArith 1

/-- Assert that an operation does not wrap. -/
def assertNoWrap (ext opKind : ExprKind) (lhs rhs result : ExprId) (bitWidth : ℕ)
    (b : ConstraintIrBuilder V) : ConstraintIrBuilder V :=
  let (noWrap, b) := compareExtended .eq ext opKind lhs rhs result bitWidth b
  b.addAssertion noWrap

/-- Assert the wrap flags that an operation carries. -/
def assertFlags (nsw nuw : Bool) (opKind : ExprKind) (lhs rhs result : ExprId) (bitWidth : ℕ)
    (b : ConstraintIrBuilder V) : ConstraintIrBuilder V :=
  let b := if nsw then assertNoWrap .sext opKind lhs rhs result bitWidth b else b
  if nuw then assertNoWrap .zext opKind lhs rhs result bitWidth b else b

/-- `encodeBinaryOperator`, after its operands. -/
def emitBinaryOperator (op : BinaryOp) (nsw nuw : Bool) (bitWidth : ℕ) (lhs rhs : ExprId) : Enc V :=
  fun s =>
    match binaryKind op with
    | none => (none, s)
    | some opKind =>
      let (result, s) := s.build (·.makeBinary opKind lhs rhs bitWidth)
      if !op.isArithmetic || bitWidth ≥ 2 ^ 32 - 1 then (some result, s)
      else
        (some result,
          { s with builder := assertFlags nsw nuw opKind lhs rhs result bitWidth s.builder })

/-- The incoming value that stands for a phi: the one from the incoming block, if that is a
predecessor, else the only one. -/
def resolvedIncoming (incomingBlock : Option B) (incoming : List (B × V)) : Option V :=
  match incomingBlock.bind fun b => (incoming.find? fun p => decide (p.1 = b)).map Prod.snd with
  | some u => some u
  | none =>
    match incoming with
    | [p] => some p.2
    | _ => none

omit [DecidableEq V] in
/-- The value that stands for a phi is an incoming one. -/
theorem mem_of_resolvedIncoming {incomingBlock : Option B} {incoming : List (B × V)} {u : V}
    (h : resolvedIncoming incomingBlock incoming = some u) : ∃ b, (b, u) ∈ incoming := by
  unfold resolvedIncoming at h
  split at h
  · rename_i u' hfind
    obtain rfl := Option.some.inj h
    obtain ⟨b, -, hb⟩ := Option.bind_eq_some_iff.mp hfind
    obtain ⟨p, hp, rfl⟩ := Option.map_eq_some_iff.mp hb
    exact ⟨p.1, List.mem_of_find?_eq_some hp⟩
  · split at h
    · rename_i p _
      obtain rfl := Option.some.inj h
      exact ⟨p.1, List.mem_cons_self⟩
    · simp at h

section Encoder

variable (fn : Function V B) (incomingBlock : Option B)

/-- Make the symbol of `v`. -/
def emitSymbol (v : V) : Enc V := emit (·.makeSymbol fn.name v (fn.inferBitWidth v))

/-- Resize the operand of a cast; another cast is a symbol. -/
def emitCast (v : V) (op : CastOp) (operand : ExprId) : Enc V :=
  match op with
  | .sext => emit (·.makeUnary .sext operand (fn.inferBitWidth v))
  | .zext => emit (·.makeUnary .zext operand (fn.inferBitWidth v))
  | .trunc => emit (·.makeUnary .trunc operand (fn.inferBitWidth v))
  | .other => emitSymbol fn v

/-- `encodeValueImpl`, with `rec` for the recursive calls of `encodeValue`. -/
def encodeValueImpl (rec : V → Enc V) (v : V) : Enc V :=
  match fn.definition v with
  | .constantInt c => emit (·.makeConstant c (fn.inferBitWidth v))
  | .constantPointerNull => emit (·.makeConstant 0 (fn.inferBitWidth v))
  | .undef => emitSymbol fn v
  | .argument => emitSymbol fn v
  | .phi incoming =>
    match resolvedIncoming incomingBlock incoming with
    | some u => rec u
    | none => emitSymbol fn v
  | .freeze x => rec x
  | .select c t f =>
    withOperand (asBoolean (rec c)) fun cond =>
      if fn.isIntegerTy v 1 then
        withOperands (asBoolean (rec t)) (asBoolean (rec f)) fun trueValue falseValue =>
          emit (selectBoolean cond trueValue falseValue)
      else
        withOperands (rec t) (rec f) fun trueValue falseValue =>
          emit (·.makeTernary .ite cond trueValue falseValue (fn.inferBitWidth v))
  | .cast op x =>
    withOperand (rec x) (emitCast fn v op)
  | .icmp p a b =>
    withOperands (rec a) (rec b) fun lhs rhs => emit (·.makeBinary (predicateKind p) lhs rhs 1)
  | .binary op nsw nuw a b =>
    withOperands (rec a) (rec b) (emitBinaryOperator op nsw nuw (fn.inferBitWidth v))
  | .assume _ => emitSymbol fn v
  | .other => emitSymbol fn v

/-- `encodeValue`: a memoised value keeps its expression; a value in progress becomes a symbol,
which stays in the memo table. -/
def encodeValue : ℕ → V → Enc V
  | 0, _ => fun s => (none, s)
  | fuel + 1, v => fun s =>
    match s.cache v with
    | some e => (some e, s)
    | none =>
      if v ∈ s.inProgress then
        let (symbol, s) := s.build (·.makeSymbol fn.name v (fn.inferBitWidth v))
        (some symbol, s.emplace v symbol)
      else memoise v (encodeValueImpl fn incomingBlock (encodeValue fuel) v (s.enter v))

section Equations

variable {fn incomingBlock} {fuel : ℕ} {v : V} {s : EncState V}

/-- A memoised value. -/
theorem encodeValue_of_cache {e : ExprId} (h : s.cache v = some e) :
    encodeValue fn incomingBlock (fuel + 1) v s = (some e, s) := by
  simp only [encodeValue, h]

/-- A value in progress. -/
theorem encodeValue_of_mem (h : s.cache v = none) (hmem : v ∈ s.inProgress) :
    encodeValue fn incomingBlock (fuel + 1) v s =
      (some (s.builder.makeSymbol fn.name v (fn.inferBitWidth v)).1,
        ({ s with builder := (s.builder.makeSymbol fn.name v (fn.inferBitWidth v)).2 }).emplace v
          (s.builder.makeSymbol fn.name v (fn.inferBitWidth v)).1) := by
  simp only [encodeValue, h, if_pos hmem, EncState.build]

/-- A value met for the first time. -/
theorem encodeValue_of_new (h : s.cache v = none) (hmem : v ∉ s.inProgress) :
    encodeValue fn incomingBlock (fuel + 1) v s =
      memoise v (encodeValueImpl fn incomingBlock (encodeValue fn incomingBlock fuel) v
        (s.enter v)) := by
  simp only [encodeValue, h, if_neg hmem]

end Equations

/-- `encodeAsBoolean`. -/
def encodeAsBoolean (fuel : ℕ) (v : V) : Enc V := asBoolean (encodeValue fn incomingBlock fuel v)

/-! ## `LlvmConstraintEncoder` -/

/-- `shouldEncodeRangeConstraint`: an integer value with a bound, and bounds that do not cross. -/
def shouldEncodeRangeConstraint (v : V) (range : IntRange) : Bool :=
  (fn.integerWidth v).isSome && (range.hasLower || range.hasUpper) &&
    !(range.hasLower && range.hasUpper && decide (range.lower > range.upper))

/-- Assert `compare expr bound`, with the bound as a constant of the width of `expr`. -/
def assertBound (compare : ExprKind) (expr : ExprId) (bound : ℤ) (b : ConstraintIrBuilder V) :
    ConstraintIrBuilder V :=
  let (bound, b) := b.makeConstant bound (b.node expr).bitWidth
  let (cmp, b) := b.makeBinary compare expr bound 1
  b.addAssertion cmp

/-- Record the interval of a symbol. -/
def addInterval (symbolId : SymbolId) (range : IntRange) (b : ConstraintIrBuilder V) :
    ConstraintIrBuilder V :=
  { b with ir := { b.ir with intervals := b.ir.intervals ++
    [⟨symbolId, range.lower, range.upper, range.hasLower, range.hasUpper⟩] } }

/-- The interval and the assertions of one entry of the range map, for the expression `expr`. -/
def assertRange (symbolId : SymbolId) (expr : ExprId) (range : IntRange)
    (b : ConstraintIrBuilder V) : ConstraintIrBuilder V :=
  let b := addInterval symbolId range b
  let b := if range.hasLower then assertBound .sge expr range.lower b else b
  if range.hasUpper then assertBound .sle expr range.upper b else b

/-- The body of the loop of `encodeRangeAssertions`. A value whose expression is not a symbol is
represented by a new symbol of its own. -/
def encodeRange (fuel : ℕ) (s : EncState V) (entry : V × IntRange) : EncState V :=
  if shouldEncodeRangeConstraint fn entry.1 entry.2 then
    let r := encodeValue fn incomingBlock fuel entry.1 s
    match r.1 with
    | none => r.2
    | some e =>
      if r.2.builder.lookupSymbolId entry.1 = 0 then
        let (symbol, s) := r.2.build (·.makeSymbol fn.name entry.1 (fn.inferBitWidth entry.1))
        { s with builder := assertRange (s.builder.lookupSymbolId entry.1) symbol entry.2 s.builder }
      else
        { r.2 with
          builder := assertRange (r.2.builder.lookupSymbolId entry.1) e entry.2 r.2.builder }
  else s

/-- `encodeRangeAssertions`: the entries in key order. -/
def encodeRangeAssertions (fuel : ℕ) (ranges : List (V × IntRange)) (s : EncState V) : EncState V :=
  ranges.foldl (encodeRange fn incomingBlock fuel) s

/-- Assert a condition, if it can be encoded. -/
def assertCondition (enc : Enc V) (s : EncState V) : EncState V :=
  match (enc s).1 with
  | some e => { (enc s).2 with builder := (enc s).2.builder.addAssertion e }
  | none => (enc s).2

/-- `getAssumeCondition`. -/
def getAssumeCondition (instruction : V) : Option V :=
  match fn.definition instruction with
  | .assume cond => some cond
  | _ => none

/-- Assert the conditions of the `llvm.assume` calls among the instructions, in order. -/
def encodeAssumes (fuel : ℕ) (instructions : List V) (s : EncState V) : EncState V :=
  (instructions.filterMap (getAssumeCondition fn)).foldl
    (fun s cond => assertCondition (encodeAsBoolean fn incomingBlock fuel cond) s) s

/-- `encodeAssumeAssertions`. -/
def encodeAssumeAssertions (fuel : ℕ) (edgeBlock : Option B) (s : EncState V) : EncState V :=
  match edgeBlock with
  | none => s
  | some b => encodeAssumes fn incomingBlock fuel (fn.instructions b) s

/-- `encodeEdgeCondition`. -/
def encodeEdgeCondition (fuel : ℕ) (edgeCondition : Option V) (takesTrueEdge : Bool)
    (s : EncState V) : EncState V :=
  match edgeCondition with
  | none => s
  | some c =>
    let enc := encodeAsBoolean fn incomingBlock fuel c
    if takesTrueEdge then assertCondition enc s
    else assertCondition (withOperand enc fun e => emit (·.makeUnary .not e 1)) s

/-- The values that `encodeValueImpl` encodes for `v`. -/
def encodedOperands (v : V) : List V :=
  match fn.definition v with
  | .phi incoming => (resolvedIncoming incomingBlock incoming).toList
  | .freeze x => [x]
  | .select c t f => [c, t, f]
  | .cast _ x => [x]
  | .icmp _ a b => [a, b]
  | .binary _ _ _ a b => [a, b]
  | _ => []

/-- `LlvmConstraintEncoder::encode`; `fuel` bounds the number of values in progress. -/
def encode (fuel : ℕ) (ranges : List (V × IntRange)) (edgeCondition : Option V)
    (takesTrueEdge : Bool) (edgeBlock : Option B) : ConstraintIR V :=
  let s := encodeRangeAssertions fn incomingBlock fuel ranges {}
  let s := encodeAssumeAssertions fn incomingBlock fuel edgeBlock s
  (encodeEdgeCondition fn incomingBlock fuel edgeCondition takesTrueEdge s).builder.ir

end Encoder

/-! ## Overflow queries -/

section Overflow

variable (fn : Function V B)

/-- `encodeAssumesBeforeInstruction`. -/
def encodeAssumesBeforeInstruction (fuel : ℕ) (contextInst : Option V) (s : EncState V) :
    EncState V :=
  match contextInst with
  | none => s
  | some inst =>
    encodeAssumes fn none fuel
      ((fn.instructions (fn.parent inst)).takeWhile fun i => decide (i ≠ inst)) s

/-- The state in which an overflow query encodes the operands of its operation. -/
def overflowContext (fuel : ℕ) (ranges : List (V × IntRange)) (contextInst : Option V) :
    EncState V :=
  encodeAssumesBeforeInstruction fn fuel contextInst (encodeRangeAssertions fn none fuel ranges {})

/-- An overflow query: assert that the operation, extended by one bit with `ext`, differs from the
extended result. -/
def encodeOverflowFeasibility (ext : ExprKind) (fuel : ℕ) (ranges : List (V × IntRange))
    (operation : V) (contextInst : Option V) : ConstraintIR V :=
  let s := overflowContext fn fuel ranges contextInst
  match fn.definition operation with
  | .binary op _ _ a b =>
    if op.isArithmetic then
      let opKind := (binaryKind op).getD .add
      let bitWidth := fn.inferBitWidth operation
      (withOperands (encodeValue fn none fuel a) (encodeValue fn none fuel b)
        (fun lhs rhs s =>
          if bitWidth ≥ 2 ^ 32 - 1 then (none, s)
          else
            let (result, s) := s.build (·.makeBinary opKind lhs rhs bitWidth)
            let (overflow, s) := s.build (compareExtended .ne ext opKind lhs rhs result bitWidth)
            (some overflow, { s with builder := s.builder.addAssertion overflow })) s).2.builder.ir
    else s.builder.ir
  | _ => s.builder.ir

/-- `encodeSignedOverflowFeasibility`. -/
def encodeSignedOverflowFeasibility (fuel : ℕ) (ranges : List (V × IntRange)) (operation : V)
    (contextInst : Option V) : ConstraintIR V :=
  encodeOverflowFeasibility fn .sext fuel ranges operation contextInst

/-- `encodeUnsignedOverflowFeasibility`. -/
def encodeUnsignedOverflowFeasibility (fuel : ℕ) (ranges : List (V × IntRange)) (operation : V)
    (contextInst : Option V) : ConstraintIR V :=
  encodeOverflowFeasibility fn .zext fuel ranges operation contextInst

end Overflow

end StackAnalyzer.Smt
