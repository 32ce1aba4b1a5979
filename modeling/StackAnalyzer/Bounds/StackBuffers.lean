import StackAnalyzer.Bounds.PointerOrigins
import StackAnalyzer.Smt.Refinement

set_option relaxedAutoImplicit false
set_option autoImplicit false

/-!
# Accesses outside of buffers

The pass that looks for `getelementptr`s with an index outside of their buffer. The index is a
constant, or it has a range, from the comparisons of the function and from the branch that leads to
the block. An access with a range is checked once more by the solver.

## Main definitions

* `StackAnalyzer.Bounds.AnalysisComplexityBudgets` — what the profiles allow.
* `StackAnalyzer.Bounds.deriveIncomingEdgeRange` — the range from the branch.
* `StackAnalyzer.Bounds.accessTarget` — the number of elements and the index of an access.
* `StackAnalyzer.Bounds.analyzeStackBufferOverflows` — the issues of a module.
-/

namespace StackAnalyzer.Bounds

open CrossTU Maps Llvm Smt Consulting

/-! ## Budgets -/

/-- `AnalysisComplexityBudgets`, as far as this pass reads them. There is no limit if a budget is
`none`, which stands for `kUnlimitedBudget`. -/
structure AnalysisComplexityBudgets where
  pointerStoreScanInstrThreshold : Option ℕ := some 0
  maxInstrForStackBufferPass : Option ℕ := some 1200
  maxAnalyzedGEPsPerFunction : Option ℕ := some 16

/-- `buildAnalysisComplexityBudgets`. -/
def buildAnalysisComplexityBudgets (config : AnalysisConfig) : AnalysisComplexityBudgets :=
  if config.profile = .full then ⟨none, none, none⟩ else {}

/-- A number within a budget. -/
def withinBudget (n : ℕ) (budget : Option ℕ) : Bool := budget.all fun limit => decide (n ≤ limit)

/-- As many members as a budget allows. -/
def takeBudget {A : Type*} (budget : Option ℕ) (as : List A) : List A :=
  match budget with
  | none => as
  | some limit => as.take limit

variable {F V B : Type*} [DecidableEq V] [DecidableEq B] (mod : Module F V B)

/-! ## Ranges at an access -/

section Ranges

/-- `isDirectLoadFromKey`. -/
def isDirectLoadFromKey (v key : V) : Bool :=
  match mod.value v with
  | .load pointer => decide (pointer = key)
  | _ => false

/-- The values that some instructions store to a slot. -/
def storesToKey (instructions : List V) (key : V) : List V :=
  instructions.filterMap fun inst =>
    match mod.value inst with
    | .store value pointer => if pointer = key then some value else none
    | _ => none

/-- `findUniqueStoreToKeyInBlock`, with the value that is stored. -/
def findUniqueStoreToKeyInBlock (block : B) (key : V) : Option V :=
  match storesToKey mod (mod.instructions block) key with
  | [value] => some value
  | _ => none

/-- `extractConstantInitValue`. -/
def extractConstantInitValue (stored : V) : Option ℤ :=
  match mod.value stored with
  | .constantInt _ c => some c.toInt
  | _ => none

/-- `extractConstantStepValue`. -/
def extractConstantStepValue (stored key : V) : Option ℤ :=
  match mod.value stored with
  | .binary op _ _ lhs rhs =>
    let step :=
      match op, mod.value lhs, mod.value rhs with
      | .add, _, .constantInt _ c => if isDirectLoadFromKey mod lhs key then c.toInt else 0
      | .add, .constantInt _ c, _ => if isDirectLoadFromKey mod rhs key then c.toInt else 0
      | .sub, _, .constantInt _ c =>
        if isDirectLoadFromKey mod lhs key then wrap64 (-c.toInt) else 0
      | _, _, _ => 0
    if step = 0 then none else some step
  | _ => none

/-- The stores of a loop counter before the loop and in it, with their blocks. -/
structure GuardStores (B : Type*) where
  init : Option (B × ℤ) := none
  update : Option (B × ℤ) := none

/-- The loop of `deriveBoundedRangeFromNeLoopGuard` over the predecessors. -/
def collectGuardStore (key : V) (stores : Option (GuardStores B)) (incoming : B) :
    Option (GuardStores B) :=
  stores.bind fun stores =>
    match findUniqueStoreToKeyInBlock mod incoming key with
    | none => some stores
    | some stored =>
      match extractConstantInitValue mod stored, extractConstantStepValue mod stored key with
      | some c, _ =>
        if stores.init.isSome then none else some { stores with init := some (incoming, c) }
      | none, some step =>
        if stores.update.isSome then none else some { stores with update := some (incoming, step) }
      | none, none => some stores

/-- The range of a counter that goes from a value to a bound in steps. -/
def counterRange (initValue boundValue stepValue : ℤ) : Option IntRange :=
  if 0 < stepValue then
    if initValue ≥ boundValue ∨ (wrap64 (boundValue - initValue)).tmod stepValue ≠ 0 then none
    else some ⟨initValue, boundValue, true, true⟩
  else if initValue ≤ boundValue ∨
      (wrap64 (initValue - boundValue)).tmod (wrap64 (-stepValue)) ≠ 0 then none
  else some ⟨boundValue, initValue, true, true⟩

/-- `deriveBoundedRangeFromNeLoopGuard`. -/
def deriveBoundedRangeFromNeLoopGuard (f : F) (target condBlock : B) (key : V) (boundValue : ℤ)
    (takesTrueEdge : Bool) : Option IntRange :=
  if !takesTrueEdge || !(mod.value key).isAlloca ||
      decide ((storesToKey mod (mod.functionInstructions f) key).length ≠ 2) ||
      decide ((mod.predecessors condBlock).length ≠ 2) then none
  else
    match (mod.predecessors condBlock).foldl (collectGuardStore mod key) (some {}) with
    | some ⟨some (_, initValue), some (updateBlock, stepValue)⟩ =>
      if updateBlock = target ∨ updateBlock ∈ mod.successors target then
        counterRange initValue boundValue stepValue
      else none
    | _ => none

/-- `getInversePredicate`. -/
def inversePredicate : Predicate → Predicate
  | .eq => .ne
  | .ne => .eq
  | .ult => .uge
  | .ule => .ugt
  | .ugt => .ule
  | .uge => .ult
  | .slt => .sge
  | .sle => .sgt
  | .sgt => .sle
  | .sge => .slt

/-- The branch with which a block ends, if it has a condition that is a comparison. -/
def branchOnICmp (block : B) : Option (Predicate × V × V × B) :=
  match ((mod.instructions block).getLast?).map mod.value with
  | some (.br cond ifTrue _) =>
    match mod.value cond with
    | .icmp predicate op0 op1 => some (predicate, op0, op1, ifTrue)
    | _ => none
  | _ => none

/-- `deriveIncomingEdgeRange`. -/
def deriveIncomingEdgeRange (f : F) (target : B) (key : V) : Option IntRange :=
  match mod.predecessors target with
  | [pred] =>
    match branchOnICmp mod pred with
    | none => none
    | some (predicate, op0, op1, ifTrue) =>
      let takesTrueEdge := decide (ifTrue = target)
      let predToApply := if takesTrueEdge then predicate else inversePredicate predicate
      let matchesKey (v : V) : Bool := decide (v = key) || isDirectLoadFromKey mod v key
      let derive (valueIsOp0 : Bool) {width : ℕ} (c : BitVec width) : Option IntRange :=
        let out := boundsFromPredicate predToApply valueIsOp0 c
        if out.hasLower || out.hasUpper then some out
        else if predToApply = .ne then
          deriveBoundedRangeFromNeLoopGuard mod f target pred key c.toInt takesTrueEdge
        else none
      match matchesKey op0, mod.value op1, matchesKey op1, mod.value op0 with
      | true, .constantInt _ c, _, _ => derive true c
      | _, _, true, .constantInt _ c => derive false c
      | _, _, _, _ => none
  | _ => none

/-- `refineRangeForAccessSite`. -/
def refineRangeForAccessSite (f : F) (coarseRange : IntRange) (accessBlock : B) (key : V) :
    IntRange :=
  match deriveIncomingEdgeRange mod f accessBlock key with
  | none => coarseRange
  | some incomingRange =>
    let refined := intersectRange coarseRange incomingRange
    if refined.hasLower && refined.hasUpper && decide (refined.lower > refined.upper) then
      incomingRange
    else refined

/-- The value whose range an index has: the slot that it is loaded from, if it is loaded. -/
def rangeKey (baseIdxVal : V) : V :=
  match mod.value baseIdxVal with
  | .load pointer => pointer
  | _ => baseIdxVal

/-- The range of an index at an access. -/
def indexRange (f : F) (ranges : EntryMap V IntRange) (block : B) (baseIdxVal : V) :
    Option IntRange :=
  let key := rangeKey mod baseIdxVal
  let range :=
    match ranges.find key with
    | some coarseRange => some (refineRangeForAccessSite mod f coarseRange block key)
    | none => deriveIncomingEdgeRange mod f block key
  range.filter fun range => range.hasLower || range.hasUpper

end Ranges

/-! ## Issues -/

/-- `BufferStorageClass`. -/
inductive BufferStorageClass
  | stack | global
  deriving DecidableEq

/-- `StackBufferOverflowIssue`, with the `getelementptr` of the access and its buffer. -/
structure StackBufferOverflowIssue (V : Type*) where
  funcName : CppString
  varName : CppString
  aliasPath : CppString
  aliasPathVec : List CppString
  inst : V
  arraySize : ℕ
  indexOrUpperBound : ℕ := 0
  lowerBound : ℤ := 0
  storageClass : BufferStorageClass
  isWrite : Bool
  indexIsConstant : Bool
  isLowerBoundViolation : Bool := false
  gep : V
  base : BufferBase V

/-- `buildAliasPathString`. -/
def buildAliasPathString (aliasPath : List CppString) : CppString :=
  " -> ".toList.intercalate aliasPath.reverse

section Accesses

/-- A `getelementptr` in a block. -/
structure GepSite (V B : Type*) where
  block : B
  inst : V
  sourceElementType : Ty
  pointer : V
  indices : List V

/-- The `getelementptr`s of a function, in order. -/
def gepSites (f : F) : List (GepSite V B) :=
  (mod.blocks f).flatMap fun block => (mod.instructions block).filterMap fun inst =>
    match mod.value inst with
    | .getElementPtr sourceElementType pointer indices =>
      some ⟨block, inst, sourceElementType, pointer, indices⟩
    | _ => none

/-- The number of elements and the index, from the type that a `getelementptr` goes through. -/
def inferFromType (site : GepSite V B) : Option (ℕ × V) :=
  match site.sourceElementType with
  | .array numElements _ => (site.indices[1]?).map fun idxVal => (numElements, idxVal)
  | .struct elements =>
    match site.indices with
    | idx0 :: fieldIdx :: idxVal :: _ =>
      match mod.value idx0, mod.value fieldIdx with
      | .constantInt _ _, .constantInt _ field =>
        match (elements[field.toNat % 2 ^ 32]? : Option Ty) with
        | some (.array numElements _) => some (numElements, idxVal)
        | _ => none
      | _, _ => none
    | _ => none
  | _ => none

/-- The number of elements and the index of an access: from the type that it goes through, or from
the type of the buffer. -/
def accessTarget (f : F) (base : BufferBase V) (site : GepSite V B) : Option (ℕ × V) :=
  match site.sourceElementType, inferFromType mod site with
  | .array _ _, none => none
  | _, some (arraySize + 1, idxVal) => some (arraySize + 1, idxVal)
  | _, _ =>
    match fallbackCount mod f base, site.indices with
    | some (arraySize + 1), idxVal :: _ => some (arraySize + 1, idxVal)
    | _, _ => none

/-- The loads and stores that use a value, and whether they are stores. -/
def accesses (v : V) : List (V × Bool) :=
  (mod.users v).filterMap fun user =>
    match mod.value user with
    | .store _ _ => some (user, true)
    | .load _ => some (user, false)
    | _ => none

/-- The fields that all issues of an access have in common. -/
def baseReport (f : F) (base : BufferBase V) (aliasPath : List CppString) (site : GepSite V B)
    (arraySize : ℕ) (indexIsConstant : Bool) (access : V × Bool) : StackBufferOverflowIssue V where
  funcName := mod.functionName f
  varName := base.varName mod
  aliasPath := buildAliasPathString aliasPath
  aliasPathVec := aliasPath
  inst := access.1
  arraySize := arraySize
  storageClass :=
    match base with
    | .stack _ => .stack
    | .global _ => .global
  isWrite := access.2
  indexIsConstant := indexIsConstant
  gep := site.inst
  base := base

end Accesses

/-! ## The pass -/

section Analyze

variable [Fintype V]

/-- The encoder of the queries; the number of values in progress is at most the number of values. -/
def encodeComparison (ranges : List (V × IntRange)) (lhs : V) (rhsConstant : ℤ)
    (greaterThan : Bool) (contextInst : V) : ConstraintIR V :=
  encodeSignedComparisonFeasibility mod.smtFunction (Fintype.card V + 1) ranges lhs rhsConstant
    greaterThan (some contextInst)

/-- A check by the solver, if the index is an integer with a bound. -/
def violationInfeasibleBySmt (localRange : IntRange) (indexExpr : V) (check : Solving V Bool) :
    Solving V Bool :=
  if !(mod.type indexExpr).isIntegerTy || !(localRange.hasLower || localRange.hasUpper) then
    .answer false
  else check

/-- `isUpperViolationInfeasibleBySmt`. -/
def isUpperViolationInfeasibleBySmt (evaluator : SmtConstraintEvaluator) (localRange : IntRange)
    (indexExpr : V) (arraySize : ℕ) (accessInst : V) : Solving V Bool :=
  violationInfeasibleBySmt mod localRange indexExpr
    (if arraySize = 0 ∨ 2 ^ 63 - 1 < arraySize then .answer false
    else evaluator.isInfeasible (encodeComparison mod [(indexExpr, localRange)] indexExpr
      (arraySize - 1) true accessInst))

/-- `isLowerViolationInfeasibleBySmt`. -/
def isLowerViolationInfeasibleBySmt (evaluator : SmtConstraintEvaluator) (localRange : IntRange)
    (indexExpr : V) (accessInst : V) : Solving V Bool :=
  violationInfeasibleBySmt mod localRange indexExpr
    (evaluator.isInfeasible (encodeComparison mod [(indexExpr, localRange)] indexExpr (-1) false
      accessInst))

/-- Report an issue unless it is found infeasible. -/
def reportUnless {I : Type*} (check : Solving V Bool) (issue : I) : Solving V (List I) :=
  check.map fun infeasible => if infeasible then [] else [issue]

/-- The issues of the accesses through a `getelementptr` with a constant index. -/
def constantIndexIssues (report : Bool → V × Bool → StackBufferOverflowIssue V) (site : GepSite V B)
    (arraySize : ℕ) (idxValue : ℤ) : List (StackBufferOverflowIssue V) :=
  if idxValue < 0 ∨ arraySize ≤ toUnsigned64 idxValue then
    (accesses mod site.inst).map fun access =>
      { report true access with indexOrUpperBound := toUnsigned64 idxValue }
  else []

/-- The bound that shows that an index may be too large: the upper one, or the lower one. -/
def exceedingBound (range : IntRange) (arraySize : ℕ) : Option ℕ :=
  if range.hasUpper && decide (0 ≤ range.upper) && decide (arraySize ≤ toUnsigned64 range.upper)
  then some (toUnsigned64 range.upper)
  else if range.hasLower && decide (0 ≤ range.lower) &&
      decide (arraySize ≤ toUnsigned64 range.lower) then some (toUnsigned64 range.lower)
  else none

/-- The issues of the accesses through a `getelementptr` with an index in a range. -/
def variableIndexIssues (evaluator : SmtConstraintEvaluator)
    (report : Bool → V × Bool → StackBufferOverflowIssue V) (site : GepSite V B) (arraySize : ℕ)
    (baseIdxVal : V) (range : IntRange) : Solving V (List (StackBufferOverflowIssue V)) :=
  let upper : Solving V (List (StackBufferOverflowIssue V)) :=
    match exceedingBound range arraySize with
    | none => .answer []
    | some ub =>
      Consult.collect (fun access =>
        reportUnless
          (isUpperViolationInfeasibleBySmt mod evaluator range baseIdxVal arraySize access.1)
          { report false access with indexOrUpperBound := ub }) (accesses mod site.inst)
  let lower : Solving V (List (StackBufferOverflowIssue V)) :=
    if range.hasLower && decide (range.lower < 0) then
      Consult.collect (fun access =>
        reportUnless (isLowerViolationInfeasibleBySmt mod evaluator range baseIdxVal access.1)
          { report false access with isLowerBoundViolation := true, lowerBound := range.lower })
        (accesses mod site.inst)
    else .answer []
  upper.bind fun issues => lower.map (issues ++ ·)

/-- The issues of a `getelementptr` into a buffer. -/
def bufferIssues (evaluator : SmtConstraintEvaluator) (f : F) (ranges : EntryMap V IntRange)
    (site : GepSite V B) (base : BufferBase V) (aliasPath : List CppString) :
    Solving V (List (StackBufferOverflowIssue V)) :=
  match accessTarget mod f base site with
  | none => .answer []
  | some (arraySize, idxVal) =>
    let report := baseReport mod f base aliasPath site arraySize
    match mod.value idxVal with
    | .constantInt _ c => .answer (constantIndexIssues mod report site arraySize c.toInt)
    | _ =>
      let baseIdxVal := mod.stripCasts idxVal
      match indexRange mod f ranges site.block baseIdxVal with
      | none => .answer []
      | some range =>
        variableIndexIssues mod evaluator report site arraySize baseIdxVal range

/-- The issues of a `getelementptr`. -/
def gepIssues (evaluator : SmtConstraintEvaluator) (f : F) (allowPointerStoreScan : Bool)
    (ranges : EntryMap V IntRange) (site : GepSite V B) :
    Solving V (List (StackBufferOverflowIssue V)) :=
  match resolveArrayBufferBase mod f allowPointerStoreScan site.pointer with
  | none => .answer []
  | some (base, aliasPath) => bufferIssues mod evaluator f ranges site base aliasPath

/-- `analyzeStackBufferOverflowsInFunction`. -/
def analyzeStackBufferOverflowsInFunction (budgets : AnalysisComplexityBudgets)
    (evaluator : SmtConstraintEvaluator) (f : F) :
    Solving V (List (StackBufferOverflowIssue V)) :=
  let instructionCount := (mod.functionInstructions f).length
  if withinBudget instructionCount budgets.maxInstrForStackBufferPass then
    let allowPointerStoreScan :=
      withinBudget instructionCount budgets.pointerStoreScanInstrThreshold
    let ranges := computeIntRangesFromICmps mod f
    Consult.collect (gepIssues mod evaluator f allowPointerStoreScan ranges)
      (takeBudget budgets.maxAnalyzedGEPsPerFunction (gepSites mod f))
  else .answer []

/-- The functions that a pass looks at. -/
def analyzedFunctions (shouldAnalyze : F → Bool) : List F :=
  mod.functions.filter fun f => !mod.isDeclaration f && shouldAnalyze f

/-- `analyzeStackBufferOverflows`. -/
def analyzeStackBufferOverflows (shouldAnalyze : F → Bool) (config : AnalysisConfig) :
    Solving V (List (StackBufferOverflowIssue V)) :=
  Consult.collect
    (analyzeStackBufferOverflowsInFunction mod (buildAnalysisComplexityBudgets config)
      (.make config "stack-buffer"))
    (analyzedFunctions mod shouldAnalyze)

end Analyze

end StackAnalyzer.Bounds
