import StackAnalyzer.Bounds.SizeOperands
import StackAnalyzer.Bounds.StackBuffers

set_option relaxedAutoImplicit false
set_option autoImplicit false

/-!
# Integer overflows

The pass that looks for signed operations that may overflow on the way from an argument to the
return, and for risky computations of sizes that are passed to functions like `malloc`. A candidate
is checked once more by the solver, if its operands have known ranges.

## Main definitions

* `StackAnalyzer.Bounds.SizeSink`, `StackAnalyzer.Bounds.resolveSizeSink` — where sizes go.
* `StackAnalyzer.Bounds.shouldSuppressRiskWithSmt` — the check of a size.
* `StackAnalyzer.Bounds.analyzeIntegerOverflows` — the issues of a module.
-/

namespace StackAnalyzer.Bounds

open CrossTU Maps Llvm Smt Consulting

/-! ## Sinks -/

/-- `SizeSink`. -/
structure SizeSink where
  name : CppString
  sizeArgIndex : ℕ

/-- Drop the beginning of a name, if it is there. -/
def dropBegin (start name : CppString) : CppString :=
  if start.isPrefixOf name then name.drop start.length else name

/-- Drop what marks a builtin. -/
def dropBuiltin (name : CppString) : CppString :=
  (dropBegin "builtin_".toList (dropBegin "__builtin_".toList name)).dropWhile (· == '_')

/-- `canonicalCalleeName`. -/
def canonicalCalleeName (name : CppString) : CppString :=
  (dropBuiltin (dropBuiltin (dropBegin [Char.ofNat 1] name))).takeWhile (· != '$')

/-- `resolveSizeSink`. -/
def resolveSizeSink (calleeName : CppString) : Option SizeSink :=
  if calleeName = "malloc".toList then some ⟨"malloc".toList, 0⟩
  else if calleeName = "realloc".toList then some ⟨"realloc".toList, 1⟩
  else if calleeName = "memcpy".toList ∨ calleeName = "memcpy_chk".toList then
    some ⟨"memcpy".toList, 2⟩
  else if calleeName = "memmove".toList ∨ calleeName = "memmove_chk".toList then
    some ⟨"memmove".toList, 2⟩
  else if calleeName = "memset".toList ∨ calleeName = "memset_chk".toList then
    some ⟨"memset".toList, 2⟩
  else if calleeName = "read".toList then some ⟨"read".toList, 2⟩
  else if calleeName = "write".toList then some ⟨"write".toList, 2⟩
  else none

/-- `resolveIntrinsicSizeSink`. -/
def resolveIntrinsicSizeSink {V : Type*} (intrinsic : Option (Intrinsic V)) : Option SizeSink :=
  match intrinsic with
  | some .memcpy => some ⟨"memcpy".toList, 2⟩
  | some .memmove => some ⟨"memmove".toList, 2⟩
  | some .memset => some ⟨"memset".toList, 2⟩
  | _ => none

variable {F V B : Type*} [DecidableEq V] [DecidableEq B] (mod : Module F V B)

/-- `getDirectCallee`. -/
def getDirectCallee (call : CallBase V F) : Option F :=
  match call.calledFunction with
  | some direct => some direct
  | none =>
    match mod.value (mod.stripPointerCasts call.calledOperand) with
    | .function f => some f
    | _ => none

/-! ## Checks by the solver -/

section Checks

variable (ranges : EntryMap V IntRange)

/-- `isUsableRangeForSmt`. -/
def isUsableRangeForSmt (range : IntRange) : Bool :=
  range.hasLower && range.hasUpper && decide (range.lower ≤ range.upper)

/-- `addLocalRangeForSmt`. -/
def addLocalRangeForSmt (queryRanges : EntryMap V IntRange) (queryValue : V) :
    EntryMap V IntRange :=
  if (mod.type queryValue).isIntegerTy then
    match (resolveKnownRange mod ranges queryValue).filter isUsableRangeForSmt with
    | some knownRange => queryRanges.assign queryValue knownRange
    | none => queryRanges
  else queryRanges

/-- The ranges of some values for a query. -/
def queryRangesOf (queryValues : List V) : List (V × IntRange) :=
  (queryValues.foldl (addLocalRangeForSmt mod ranges) EntryMap.empty).entries

variable [Fintype V] (evaluator : SmtConstraintEvaluator)

/-- Whether a query is infeasible, if there are ranges for it. -/
def infeasibleWithRanges (queryRanges : List (V × IntRange))
    (encode : List (V × IntRange) → ConstraintIR V) : Solving V Bool :=
  if queryRanges = [] then .answer false else evaluator.isInfeasible (encode queryRanges)

/-- The query for `isSignedOverflowFeasible`, with `buildArithmeticQueryRanges`. -/
def signedOverflowInfeasible (binary lhs rhs contextInst : V) : Solving V Bool :=
  infeasibleWithRanges evaluator (queryRangesOf mod ranges [lhs, rhs, binary]) fun queryRanges =>
    encodeSignedOverflowFeasibility mod.smtFunction (Fintype.card V + 1) queryRanges binary
      (some contextInst)

/-- `shouldSuppressRiskWithSmt`. -/
def shouldSuppressRiskWithSmt (risk : RiskSummary V) (contextInst : V) : Solving V Bool :=
  match risk.kind with
  | .arithmeticInSizeComputation =>
    match risk.arithmeticOp with
    | none => .answer false
    | some operation =>
      match mod.value operation with
      | .binary _ _ _ lhs rhs =>
        infeasibleWithRanges evaluator (queryRangesOf mod ranges [lhs, rhs, operation])
          fun queryRanges =>
            encodeUnsignedOverflowFeasibility mod.smtFunction (Fintype.card V + 1) queryRanges
              operation (some contextInst)
      | _ => .answer false
  | .signedToUnsignedSize =>
    match risk.relatedValue with
    | none => .answer false
    | some v =>
      infeasibleWithRanges evaluator (queryRangesOf mod ranges [v]) fun queryRanges =>
        encodeComparison mod queryRanges v (-1) false contextInst
  | .truncationInSizeComputation =>
    match risk.relatedValue with
    | none => .answer false
    | some v =>
      if risk.truncTargetBitWidth = 0 ∨ 63 ≤ risk.truncTargetBitWidth then .answer false
      else
        -- both queries are asked in any case
        (infeasibleWithRanges evaluator (queryRangesOf mod ranges [v]) fun queryRanges =>
          encodeComparison mod queryRanges v (-1) false contextInst).bind fun negative =>
        (infeasibleWithRanges evaluator (queryRangesOf mod ranges [v]) fun queryRanges =>
          encodeComparison mod queryRanges v (2 ^ risk.truncTargetBitWidth - 1) true
            contextInst).map fun aboveMax => negative && aboveMax
  | .signedArithmeticOverflow => .answer false

end Checks

/-! ## The pass -/

/-- `IntegerOverflowIssue`. -/
structure IntegerOverflowIssue (V : Type*) where
  funcName : CppString
  filePath : CppString
  sinkName : CppString
  operation : CppString
  inst : V
  kind : IntegerOverflowIssueKind

section Analyze

variable [Fintype V] (evaluator : SmtConstraintEvaluator) (f : F) (ranges : EntryMap V IntRange)

/-- An issue of a function. -/
def overflowIssue (sinkName operation : CppString) (kind : IntegerOverflowIssueKind) (inst : V) :
    IntegerOverflowIssue V :=
  ⟨mod.functionName f, mod.sourcePath f, sinkName, operation, inst, kind⟩

/-- The issues of a binary operator. -/
def binaryIssues (inst : V) (op : BinaryOp) (nsw : Bool) (lhs rhs : V) :
    Solving V (List (IntegerOverflowIssue V)) :=
  if nsw && op.isArithmetic && reachesReturn mod inst && dependsOnFunctionArgument mod inst &&
      !provenNoSignedOverflowByRanges mod ranges inst op lhs rhs then
    reportUnless (signedOverflowInfeasible mod ranges evaluator inst lhs rhs inst)
      (overflowIssue mod f "return".toList (getOpcodeName op) .signedArithmeticOverflow inst)
  else .answer []

/-- The issues of a size that is passed to a function. -/
def sizeIssues (inst : V) (sink : SizeSink) (args : List V) :
    Solving V (List (IntegerOverflowIssue V)) :=
  match (args[sink.sizeArgIndex]?).bind (classifySizeOperand mod ranges) with
  | none => .answer []
  | some risk =>
    reportUnless (shouldSuppressRiskWithSmt mod ranges evaluator risk inst)
      (overflowIssue mod f sink.name risk.operation risk.kind inst)

/-- A call of `calloc` whose product may overflow. -/
def isRiskyCalloc (sinkName : CppString) (args : List V) : Bool :=
  match args with
  | count :: elemSize :: _ =>
    decide (sinkName = "calloc".toList) && !(mod.value count).isConstantInt &&
      !(mod.value elemSize).isConstantInt &&
      (dependsOnFunctionArgument mod count || dependsOnFunctionArgument mod elemSize)
  | _ => false

/-- The issues of a call. -/
def callIssues (inst : V) (call : CallBase V F) : Solving V (List (IntegerOverflowIssue V)) :=
  match resolveIntrinsicSizeSink call.intrinsic, getDirectCallee mod call with
  | some sink, _ => sizeIssues mod evaluator f ranges inst sink call.args
  | none, none => .answer []
  | none, some callee =>
    let sinkName := canonicalCalleeName (mod.functionName callee)
    if isRiskyCalloc mod sinkName call.args then
      .answer [overflowIssue mod f "calloc".toList "mul".toList .arithmeticInSizeComputation inst]
    else
      match resolveSizeSink sinkName with
      | some sink => sizeIssues mod evaluator f ranges inst sink call.args
      | none => .answer []

/-- The issues of an instruction. -/
def instructionIssues (inst : V) : Solving V (List (IntegerOverflowIssue V)) :=
  match mod.value inst with
  | .binary op nsw _ lhs rhs => binaryIssues mod evaluator f ranges inst op nsw lhs rhs
  | .call call => callIssues mod evaluator f ranges inst call
  | _ => .answer []

/-- `analyzeIntegerOverflows`. -/
def analyzeIntegerOverflows (shouldAnalyze : F → Bool) (config : AnalysisConfig) :
    Solving V (List (IntegerOverflowIssue V)) :=
  Consult.collect
    (fun f =>
      Consult.collect
        (instructionIssues mod (.make config "integer-overflow") f (computeIntRangesFromICmps mod f))
        (mod.functionInstructions f))
    (analyzedFunctions mod shouldAnalyze)

end Analyze

end StackAnalyzer.Bounds
