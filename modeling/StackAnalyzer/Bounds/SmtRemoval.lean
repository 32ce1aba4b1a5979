import StackAnalyzer.Bounds.SizeMinusK

set_option relaxedAutoImplicit false
set_option autoImplicit false

/-!
# The solver only removes reports

What the passes over buffers and sizes do with the answers of the solver: an answer `unsat` may
remove a candidate, no answer adds one, and with other answers the issues are the same as without
SMT. In the pass over `size - k`, the issue of a pointer that may be null stays and is changed.

## Main results

* `StackAnalyzer.Bounds.smt_onlyRemoves` — the three passes.
-/

namespace StackAnalyzer.Bounds

open CrossTU Maps Llvm Smt Consulting

variable {F V B : Type*} [DecidableEq V] [DecidableEq B] [Fintype V]
  (mod : Module F V B)

/-! ## Accesses outside of buffers -/

section Buffers

variable (evaluator : SmtConstraintEvaluator)

omit [DecidableEq V] [DecidableEq B] [Fintype V] in
/-- The check of an index succeeds only if the check by the solver does. -/
theorem onRefutation_violation {check : Solving V Bool} (h : OnRefutation evaluator check)
    (localRange : IntRange) (indexExpr : V) :
    OnRefutation evaluator (violationInfeasibleBySmt mod localRange indexExpr check) := by
  unfold violationInfeasibleBySmt
  split_ifs
  · exact onRefutation_answer
  · exact h

theorem onRefutation_upper (localRange : IntRange) (indexExpr : V) (arraySize : ℕ)
    (accessInst : V) :
    OnRefutation evaluator
      (isUpperViolationInfeasibleBySmt mod evaluator localRange indexExpr arraySize accessInst) := by
  refine onRefutation_violation mod evaluator ?_ localRange indexExpr
  split_ifs
  · exact onRefutation_answer
  · exact onRefutation_isInfeasible _

theorem onRefutation_lower (localRange : IntRange) (indexExpr : V) (accessInst : V) :
    OnRefutation evaluator
      (isLowerViolationInfeasibleBySmt mod evaluator localRange indexExpr accessInst) :=
  onRefutation_violation mod evaluator (onRefutation_isInfeasible _) localRange indexExpr

end Buffers

omit [DecidableEq V] [Fintype V] in
/-- An issue that is reported unless a check succeeds. -/
theorem refines_reportUnless {I K : Type*} {config : AnalysisConfig} {ruleId : String}
    {key : I → K} {check check' : Solving V Bool} (h : OnRefutation (.make config ruleId) check)
    (h' : OnRefutation (.make config.withoutSmt ruleId) check') (issue : I) :
    Refines key (reportUnless check issue) (reportUnless check' issue) :=
  refines_map h h' (List.nil_sublist _)

section Passes

variable (config : AnalysisConfig) (f : F) (ranges : EntryMap V IntRange)

/-- The issues of an index in a range: those of the upper bound, then those of the lower one. -/
theorem refines_variableIndexIssues {K : Type*} (key : StackBufferOverflowIssue V → K)
    (ruleId : String) (report : Bool → V × Bool → StackBufferOverflowIssue V)
    (site : GepSite V B) (arraySize : ℕ) (baseIdxVal : V) (range : IntRange) :
    Refines key
      (variableIndexIssues mod (.make config ruleId) report site arraySize baseIdxVal range)
      (variableIndexIssues mod (.make config.withoutSmt ruleId) report site arraySize baseIdxVal
        range) := by
  unfold variableIndexIssues
  refine Prunes.append ?_ ?_
  · cases exceedingBound range arraySize with
    | none => exact Prunes.answer []
    | some ub =>
      exact Prunes.collect fun access _ => refines_reportUnless
        (onRefutation_upper mod (.make config ruleId) range baseIdxVal arraySize access.1)
        (onRefutation_upper mod (.make config.withoutSmt ruleId) range baseIdxVal arraySize
          access.1) _
  · split_ifs
    · exact Prunes.collect fun access _ => refines_reportUnless
        (onRefutation_lower mod (.make config ruleId) range baseIdxVal access.1)
        (onRefutation_lower mod (.make config.withoutSmt ruleId) range baseIdxVal access.1) _
    · exact Prunes.answer []

/-- The issues of a `getelementptr`. -/
theorem refines_gepIssues {K : Type*} (key : StackBufferOverflowIssue V → K) (ruleId : String)
    (allowPointerStoreScan : Bool) (site : GepSite V B) :
    Refines key (gepIssues mod (.make config ruleId) f allowPointerStoreScan ranges site)
      (gepIssues mod (.make config.withoutSmt ruleId) f allowPointerStoreScan ranges site) := by
  unfold gepIssues
  cases resolveArrayBufferBase mod f allowPointerStoreScan site.pointer with
  | none => exact Prunes.answer []
  | some found =>
    obtain ⟨base, aliasPath⟩ := found
    unfold bufferIssues
    dsimp only
    cases accessTarget mod f base site with
    | none => exact Prunes.answer []
    | some target =>
      obtain ⟨arraySize, idxVal⟩ := target
      dsimp only
      split
      · exact Prunes.answer _
      · cases indexRange mod f ranges site.block (mod.stripCasts idxVal) with
        | none => exact Prunes.answer []
        | some range => exact refines_variableIndexIssues mod config key ruleId _ site _ _ range

/-- The issues of the pass over buffers. -/
theorem refines_analyzeStackBufferOverflows {K : Type*} (key : StackBufferOverflowIssue V → K)
    (shouldAnalyze : F → Bool) :
    Refines key (analyzeStackBufferOverflows mod shouldAnalyze config)
      (analyzeStackBufferOverflows mod shouldAnalyze config.withoutSmt) := by
  refine Prunes.collect fun f _ => ?_
  unfold analyzeStackBufferOverflowsInFunction
  dsimp only
  rw [show buildAnalysisComplexityBudgets config.withoutSmt =
    buildAnalysisComplexityBudgets config from rfl]
  split_ifs
  · exact Prunes.collect fun site _ =>
      refines_gepIssues mod config f (computeIntRangesFromICmps mod f) key _ _ site
  · exact Prunes.answer []

/-! ## Integer overflows -/

omit [DecidableEq V] [Fintype V] in
/-- A query that is asked only if there are ranges for it. -/
theorem onRefutation_infeasibleWithRanges (evaluator : SmtConstraintEvaluator)
    (queryRanges : List (V × IntRange)) (encode : List (V × IntRange) → ConstraintIR V) :
    OnRefutation evaluator (infeasibleWithRanges evaluator queryRanges encode) := by
  unfold infeasibleWithRanges
  split_ifs
  · exact onRefutation_answer
  · exact onRefutation_isInfeasible _

/-- The check of a size, by the kinds of risks. -/
theorem onRefutation_shouldSuppressRisk (evaluator : SmtConstraintEvaluator)
    (risk : RiskSummary V) (contextInst : V) :
    OnRefutation evaluator (shouldSuppressRiskWithSmt mod ranges evaluator risk contextInst) := by
  unfold shouldSuppressRiskWithSmt
  cases risk.kind with
  | arithmeticInSizeComputation =>
    cases risk.arithmeticOp with
    | none => exact onRefutation_answer
    | some operation =>
      dsimp only
      split
      · exact onRefutation_infeasibleWithRanges evaluator _ _
      · exact onRefutation_answer
  | signedToUnsignedSize =>
    cases risk.relatedValue with
    | none => exact onRefutation_answer
    | some v => exact onRefutation_infeasibleWithRanges evaluator _ _
  | truncationInSizeComputation =>
    cases risk.relatedValue with
    | none => exact onRefutation_answer
    | some v =>
      dsimp only
      split_ifs
      · exact onRefutation_answer
      · exact (onRefutation_infeasibleWithRanges evaluator _ _).and _
  | signedArithmeticOverflow => exact onRefutation_answer

/-- The issues of an instruction in the pass over integer overflows. -/
theorem refines_instructionIssues {K : Type*} (key : IntegerOverflowIssue V → K) (ruleId : String)
    (inst : V) :
    Refines key (instructionIssues mod (.make config ruleId) f ranges inst)
      (instructionIssues mod (.make config.withoutSmt ruleId) f ranges inst) := by
  have hsize : ∀ (sink : SizeSink) (args : List V),
      Refines key (sizeIssues mod (.make config ruleId) f ranges inst sink args)
        (sizeIssues mod (.make config.withoutSmt ruleId) f ranges inst sink args) := by
    intro sink args
    unfold sizeIssues
    cases (args[sink.sizeArgIndex]?).bind (classifySizeOperand mod ranges) with
    | none => exact Prunes.answer []
    | some risk =>
      exact refines_reportUnless (onRefutation_shouldSuppressRisk mod ranges _ risk inst)
        (onRefutation_shouldSuppressRisk mod ranges _ risk inst) _
  unfold instructionIssues
  split
  · unfold binaryIssues
    split_ifs
    · exact refines_reportUnless (onRefutation_infeasibleWithRanges _ _ _)
        (onRefutation_infeasibleWithRanges _ _ _) _
    · exact Prunes.answer []
  · unfold callIssues
    split
    · exact hsize _ _
    · exact Prunes.answer []
    · dsimp only
      split_ifs
      · exact Prunes.answer _
      · split
        · exact hsize _ _
        · exact Prunes.answer []
  · exact Prunes.answer []

/-! ## Sizes minus a constant -/

variable (oracles : Oracles F V)

/-- An issue of the pass over `size - k`: a refutation removes it, or changes it if the pointer may
be null. -/
theorem refines_emitIssue (ruleId : String) (location dest sizeBase : V) (sinkName : CppString)
    (k : ℤ) :
    Refines (fun issue => (issue.funcName, issue.inst))
      (emitIssue mod oracles (.make config ruleId) f ranges location dest sizeBase sinkName k)
      (emitIssue mod oracles (.make config.withoutSmt ruleId) f ranges location dest sizeBase
        sinkName k) := by
  have hcheck : ∀ evaluator : SmtConstraintEvaluator, OnRefutation evaluator
      (if isGreaterThanAt mod oracles sizeBase k location then .answer false
      else
        infeasibleWithRanges evaluator (buildValueQueryRanges mod ranges sizeBase) fun queryRanges =>
          encodeComparison mod queryRanges sizeBase k false location) := by
    intro evaluator
    split_ifs
    · exact onRefutation_answer
    · exact onRefutation_infeasibleWithRanges evaluator _ _
  refine refines_map (hcheck _) (hcheck _) ?_
  cases isGreaterThanAt mod oracles sizeBase k location <;>
    cases isNonNullAt mod oracles dest location <;> simp

variable [DecidableEq F]

/-- The issues of an instruction in the pass over `size - k`. -/
theorem refines_writeIssues (ruleId : String) (summaries : SizeMinusKSummaryMap F)
    (slots : EntryMap V V) (inst : V) :
    Refines (fun issue => (issue.funcName, issue.inst))
      (writeIssues mod oracles (.make config ruleId) f ranges summaries slots inst)
      (writeIssues mod oracles (.make config.withoutSmt ruleId) f ranges summaries slots inst) := by
  have hsink : ∀ (call : CallBase V F) (sink : SizeMinusKSink) (sinkName : CppString),
      Refines (fun issue => (issue.funcName, issue.inst))
        (sinkIssue mod oracles (.make config ruleId) f ranges slots inst call sink sinkName)
        (sinkIssue mod oracles (.make config.withoutSmt ruleId) f ranges slots inst call sink
          sinkName) := by
    intro call sink sinkName
    unfold sinkIssue
    split
    · exact refines_emitIssue mod config f ranges oracles ruleId _ _ _ _ _
    · exact Prunes.answer []
  unfold writeIssues
  split
  · split
    · exact hsink _ _ _
    · exact Prunes.collect fun sink _ => hsink _ sink _
    · exact Prunes.answer []
  · split
    · split
      · exact refines_emitIssue mod config f ranges oracles ruleId _ _ _ _ _
      · exact Prunes.answer []
    · exact Prunes.answer []
  · exact Prunes.answer []

end Passes

/-! ## The three passes -/

/-- **The solver only removes reports**: for every module, every set of rules and all answers of the
solver, the three passes report nothing at an instruction of a function that they do not report
there without SMT, and if no answer is `unsat`, they report the same issues.

**Proof sketch.** Every candidate is a decision by itself: whether it is reported depends on answers
to its own queries only, and it is left out only if one of them is `unsat`. -/
theorem smt_onlyRemoves [DecidableEq F] (oracles : Oracles F V) (shouldAnalyze : F → Bool) :
    OnlyRemoves (analyzeStackBufferOverflows mod shouldAnalyze)
        (fun issue => (issue.funcName, issue.inst)) ∧
      OnlyRemoves (analyzeIntegerOverflows mod shouldAnalyze)
        (fun issue => (issue.funcName, issue.inst)) ∧
      OnlyRemoves (analyzeSizeMinusKWrites mod oracles shouldAnalyze)
        (fun issue => (issue.funcName, issue.inst)) := by
  refine ⟨onlyRemoves_of_refines fun config => ?_, onlyRemoves_of_refines fun config => ?_,
    onlyRemoves_of_refines fun config => ?_⟩
  · exact refines_analyzeStackBufferOverflows mod config _ shouldAnalyze
  · exact Prunes.collect fun f _ => Prunes.collect fun inst _ =>
      refines_instructionIssues mod config f (computeIntRangesFromICmps mod f) _ _ inst
  · exact Prunes.collect fun f _ => Prunes.collect fun inst _ =>
      refines_writeIssues mod config f (computeIntRangesFromICmps mod f) oracles _ _ _ inst

end StackAnalyzer.Bounds
