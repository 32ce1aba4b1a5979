import StackAnalyzer.Refinement.Consult
import StackAnalyzer.Smt.Encoder
import StackAnalyzer.Smt.SolverOrchestrator

set_option relaxedAutoImplicit false
set_option autoImplicit false

/-!
# Consulting the solver

How the passes consult the solver about their candidates. A pass has a rule, and it consults the
solver only if the configuration enables the rule; the solver may answer anything.

## Main definitions

* `StackAnalyzer.Smt.encodeSignedComparisonFeasibility` — the query for a comparison.
* `StackAnalyzer.Smt.AnalysisConfig`, `StackAnalyzer.Smt.smtRuleEnabled` — what is enabled.
* `StackAnalyzer.Smt.SmtConstraintEvaluator.evaluateQuery` — ask a query, if it is.
* `StackAnalyzer.Smt.OnlyRemoves` — what a pass may do with the answers.

## Main results

* `StackAnalyzer.Smt.onRefutation_isInfeasible` — a query is found infeasible by the answer `unsat`
  only, and never if the rule is not enabled.
* `StackAnalyzer.Smt.refines_map`, `StackAnalyzer.Smt.onlyRemoves_of_refines` — the rules for
  candidates and for passes.
-/

namespace StackAnalyzer.Smt

open Consulting Llvm

/-! ## Queries -/

section Queries

variable {V B : Type*} [DecidableEq V] [DecidableEq B] (fn : Llvm.Function V B)

/-- `encodeSignedComparisonFeasibility`: assert that a value is greater than a constant, or at most
equal to it. -/
def encodeSignedComparisonFeasibility (fuel : ℕ) (ranges : List (V × IntRange)) (lhs : V)
    (rhsConstant : ℤ) (greaterThan : Bool) (contextInst : Option V) : ConstraintIR V :=
  (withOperand (encodeValue fn none fuel lhs)
    (fun lhsExpr s =>
      let bitWidth := (s.builder.node lhsExpr).bitWidth
      let (rhsExpr, s) := s.build (·.makeConstant rhsConstant bitWidth)
      let predicate := if greaterThan then ExprKind.sgt else ExprKind.sle
      let (cmp, s) := s.build (·.makeBinary predicate lhsExpr rhsExpr 1)
      (some cmp, { s with builder := s.builder.addAssertion cmp }))
    (overflowContext fn fuel ranges contextInst)).2.builder.ir

end Queries

/-! ## Rules -/

/-- `AnalysisProfile`. -/
inductive AnalysisProfile
  | fast | full
  deriving DecidableEq

/-- `AnalysisConfig`: the profile, and what concerns the solver. -/
structure AnalysisConfig where
  profile : AnalysisProfile := .full
  smtEnabled : Bool := false
  smtRules : List String := []
  smtTimeoutMs : ℕ := 50
  smtBudgetNodes : ℕ := 10000

/-- The configuration without SMT. -/
def AnalysisConfig.withoutSmt (config : AnalysisConfig) : AnalysisConfig :=
  { config with smtEnabled := false }

/-- `smtRuleEnabled`. -/
def smtRuleEnabled (config : AnalysisConfig) (ruleId : String) : Bool :=
  config.smtEnabled &&
    (config.smtRules.isEmpty ||
      config.smtRules.any fun rawRule => decide (toLowerAscii rawRule = toLowerAscii ruleId))

/-- `SmtFeasibility`. -/
inductive SmtFeasibility
  | feasible | infeasible | inconclusive
  deriving DecidableEq

/-- What a status says about feasibility. -/
def SmtStatus.feasibility : SmtStatus → SmtFeasibility
  | .sat => .feasible
  | .unsat => .infeasible
  | .unknown | .timeout | .error => .inconclusive

/-- `SmtConstraintEvaluator`. The orchestrator is not more than whether there is one: its decisions
are the answers to the queries. -/
structure SmtConstraintEvaluator where
  ruleId : String
  orchestrator : Bool
  timeoutMs : ℕ
  budgetNodes : ℕ

/-- The evaluator of a rule. -/
def SmtConstraintEvaluator.make (config : AnalysisConfig) (ruleId : String) :
    SmtConstraintEvaluator :=
  ⟨ruleId, smtRuleEnabled config ruleId, config.smtTimeoutMs, config.smtBudgetNodes⟩

section Evaluate

variable {V : Type*}

/-- A computation that may consult the solver. -/
abbrev Solving (V A : Type*) := Consult (SmtQuery V) SmtStatus A

/-- `evaluateQuery`. -/
def SmtConstraintEvaluator.evaluateQuery (evaluator : SmtConstraintEvaluator)
    (ir : ConstraintIR V) : Solving V SmtFeasibility :=
  if evaluator.orchestrator then
    .ask ⟨ir, evaluator.ruleId, evaluator.budgetNodes, evaluator.timeoutMs⟩ fun status =>
      .answer status.feasibility
  else .answer .inconclusive

/-- Whether a query is infeasible. -/
def SmtConstraintEvaluator.isInfeasible (evaluator : SmtConstraintEvaluator)
    (ir : ConstraintIR V) : Solving V Bool :=
  (evaluator.evaluateQuery ir).map fun feasibility => decide (feasibility = .infeasible)

/-! ## Checks -/

/-- A check that succeeds only if the solver is consulted and answers `unsat`. -/
def OnRefutation (evaluator : SmtConstraintEvaluator) (check : Solving V Bool) : Prop :=
  ∀ trace refuted, check.Runs trace refuted →
    (evaluator.orchestrator = true → ∀ x ∈ trace, x.2 ≠ .unsat) → refuted = false

variable {evaluator : SmtConstraintEvaluator}

/-- A check that fails without a query. -/
theorem onRefutation_answer : OnRefutation evaluator (.answer false : Solving V Bool) :=
  fun _ _ h _ => (Consult.runs_answer_iff.mp h).2

/-- **A query is found infeasible** by the answer `unsat` only, and never without the rule. -/
theorem onRefutation_isInfeasible (ir : ConstraintIR V) :
    OnRefutation evaluator (evaluator.isInfeasible ir) := by
  intro trace refuted h hnone
  obtain ⟨feasibility, hrun, rfl⟩ := Consult.runs_map_iff.mp h
  unfold SmtConstraintEvaluator.evaluateQuery at hrun
  split_ifs at hrun with henabled
  · obtain ⟨⟩ | ⟨hnext⟩ := hrun
    rename_i status rest
    obtain ⟨-, rfl⟩ := Consult.runs_answer_iff.mp hnext
    have hstatus := hnone henabled _ List.mem_cons_self
    cases status with
    | unsat => exact absurd rfl hstatus
    | _ => rfl
  · obtain ⟨-, rfl⟩ := Consult.runs_answer_iff.mp hrun
    rfl

/-- Two checks, both of which must succeed. -/
theorem OnRefutation.and {check : Solving V Bool} (h : OnRefutation evaluator check)
    (check' : Solving V Bool) :
    OnRefutation evaluator (check.bind fun first => check'.map fun second => first && second) := by
  intro trace refuted hrun hnone
  obtain ⟨first, before, after, hfirst, hrest, rfl⟩ := Consult.runs_bind_iff.mp hrun
  obtain ⟨second, -, rfl⟩ := Consult.runs_map_iff.mp hrest
  rw [h before first hfirst fun henabled x hx =>
    hnone henabled x (List.mem_append_left _ hx), Bool.false_and]

/-- Without SMT no rule is enabled. -/
theorem orchestrator_withoutSmt (config : AnalysisConfig) (ruleId : String) :
    (SmtConstraintEvaluator.make config.withoutSmt ruleId).orchestrator = false := rfl

/-! ## Passes -/

variable {I K : Type*}

/-- The comparison of what a pass yields with and without SMT. -/
abbrev Refines (key : I → K) (p q : Solving V (List I)) : Prop :=
  Prunes (fun status => status = SmtStatus.unsat) key p q

/-- **A check on a candidate**: if it succeeds, fewer issues are reported. -/
theorem refines_map {config : AnalysisConfig} {ruleId : String} {key : I → K}
    {check check' : Solving V Bool} (h : OnRefutation (.make config ruleId) check)
    (h' : OnRefutation (.make config.withoutSmt ruleId) check') {f : Bool → List I}
    (hf : ((f true).map key).Sublist ((f false).map key)) :
    Refines key (check.map f) (check'.map f) := by
  refine Prunes.bind_decision false ?_ ?_ ?_
  · exact fun trace refuted hrun hnone => h trace refuted hrun fun _ => hnone
  · exact fun trace refuted hrun => h' trace refuted hrun fun henabled =>
      absurd henabled (by rw [orchestrator_withoutSmt]; exact Bool.false_ne_true)
  · intro refuted
    cases refuted with
    | false => exact List.Sublist.refl _
    | true => exact hf

/-- What SMT does to the issues of a pass: whatever the answers, the issues are among those without
SMT, compared by a key and as often as there; and they are the same issues, if no answer is
`unsat`. -/
def OnlyRemoves (analyze : AnalysisConfig → Solving V (List I)) (key : I → K) : Prop :=
  ∀ config trace issues, (analyze config).Runs trace issues →
    ∀ trace' baseline, (analyze config.withoutSmt).Runs trace' baseline →
      (issues.map key : Multiset K) ≤ (baseline.map key : Multiset K) ∧
        ((∀ x ∈ trace, x.2 ≠ .unsat) → issues = baseline)

/-- A pass that prunes what it yields without SMT. -/
theorem onlyRemoves_of_refines {analyze : AnalysisConfig → Solving V (List I)} {key : I → K}
    (h : ∀ config, Refines key (analyze config) (analyze config.withoutSmt)) :
    OnlyRemoves analyze key := by
  intro config trace issues hrun trace' baseline hrun'
  obtain ⟨hsub, heq⟩ := h config trace issues trace' baseline hrun hrun'
  exact ⟨hsub.subperm, heq⟩

end Evaluate

end StackAnalyzer.Smt
