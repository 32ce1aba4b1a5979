import StackAnalyzer.Smt.Meaning

set_option relaxedAutoImplicit false
set_option autoImplicit false

/-!
# Asking several solvers

A query goes to one or more backends, chosen by a configuration: the interval backend, which looks
for contradictory bounds only, the Z3 backend, if the program has been built with it, and stand-ins
for backends that are missing. What a mode makes of their answers is the decision.

## Main definitions

* `StackAnalyzer.Smt.resolveBackends` — the backends of a configuration, each once.
* `StackAnalyzer.Smt.runStrategy`, `StackAnalyzer.Smt.aggregateStatuses` — who is asked in a mode,
  and what the mode makes of the answers.
* `StackAnalyzer.Smt.SolverOrchestrator.solve` — the decision.

## Main results

* `StackAnalyzer.Smt.aggregateStatuses_unsat` — a decision that a query cannot be satisfied comes
  from an answer that says so.
* `StackAnalyzer.Smt.SolverOrchestrator.solve_sound` — decisions are refutation-sound in all modes,
  and the portfolio does not mask a refutation.
-/

namespace StackAnalyzer.Smt

/-! ## Queries and answers -/

/-- `SolverMode`. -/
inductive SolverMode
  | single
  | portfolio
  | crossCheck
  | dualConsensus
  deriving DecidableEq

/-- `SmtStatus`. -/
inductive SmtStatus
  | sat
  | unsat
  | unknown
  | timeout
  | error
  deriving DecidableEq

/-- `SmtQuery`. -/
structure SmtQuery (V : Type*) where
  ir : ConstraintIR V
  ruleId : String := ""
  budgetNodes : ℕ := 10000
  timeoutMs : ℕ := 50

/-- `SmtAnswer`. -/
structure SmtAnswer where
  backendName : String
  reason : Option String
  status : SmtStatus
  deriving DecidableEq

/-- `SmtDecision`. -/
structure SmtDecision where
  answers : List SmtAnswer
  status : SmtStatus
  deriving DecidableEq

/-- `ISmtBackend`. -/
structure ISmtBackend (V : Type*) where
  name : String
  solve : SmtQuery V → SmtAnswer

/-- `SolverOrchestratorConfig`. -/
structure SolverOrchestratorConfig where
  primaryBackend : String := "interval"
  secondaryBackend : String := ""
  mode : SolverMode := .single
  budgetNodes : ℕ := 10000
  timeoutMs : ℕ := 50

/-! ## Backends -/

section Backends

variable {V : Type*}

/-- Bounds that no value meets. -/
def IntervalConstraint.contradictory (c : IntervalConstraint) : Bool :=
  c.hasLower && c.hasUpper && decide (c.upper < c.lower)

/-- `IntervalBackend`. -/
def intervalBackend : ISmtBackend V where
  name := "interval"
  solve query :=
    if query.ir.intervals.any IntervalConstraint.contradictory then ⟨"interval", none, .unsat⟩
    else ⟨"interval", none, .sat⟩

/-- `UnavailableExternalBackend`. -/
def unavailableExternalBackend (backendName : String) : ISmtBackend V where
  name := backendName
  solve _ :=
    ⟨backendName, some "backend unavailable in this build (optional dependency not linked)",
      .unknown⟩

/-- `toLowerAscii`. -/
def toLowerAscii (input : String) : String := String.ofList (input.toList.map Char.toLower)

variable (z3 : Option (SmtQuery V → SmtAnswer))

/-- `createBackend`. The Z3 backend is there if the program has been built with it. -/
def createBackend (name : String) : ISmtBackend V :=
  let lowered := toLowerAscii name
  if lowered = "" ∨ lowered = "interval" then intervalBackend
  else if lowered = "z3" then
    match z3 with
    | some solve => ⟨"z3", solve⟩
    | none => unavailableExternalBackend "z3"
  else if lowered = "cvc5" then unavailableExternalBackend "cvc5"
  else unavailableExternalBackend name

/-- `appendBackendIfMissing`. -/
def appendBackendIfMissing (out : List (ISmtBackend V)) (name : String) : List (ISmtBackend V) :=
  let backend := createBackend z3 name
  if out.any fun b => b.name == backend.name then out else out ++ [backend]

/-- `resolveBackends`. -/
def resolveBackends (config : SolverOrchestratorConfig) : List (ISmtBackend V) :=
  let out := appendBackendIfMissing z3 [] config.primaryBackend
  match config.mode with
  | .single => out
  | .crossCheck =>
    if config.secondaryBackend ≠ "" then appendBackendIfMissing z3 out config.secondaryBackend
    else if toLowerAscii config.primaryBackend ≠ "interval" then
      appendBackendIfMissing z3 out "interval"
    else out
  | .portfolio | .dualConsensus =>
    let out :=
      if config.secondaryBackend ≠ "" then appendBackendIfMissing z3 out config.secondaryBackend
      else out
    if toLowerAscii config.primaryBackend ≠ "interval" then
      appendBackendIfMissing z3 out "interval"
    else out

end Backends

/-! ## Strategies -/

section Strategies

variable {V : Type*}

/-- `SingleSolverStrategy`. -/
def singleSolverStrategy (query : SmtQuery V) : List (ISmtBackend V) → List SmtAnswer
  | [] => []
  | backend :: _ => [backend.solve query]

/-- `PortfolioSolverStrategy`. -/
def portfolioSolverStrategy (query : SmtQuery V) (backends : List (ISmtBackend V)) :
    List SmtAnswer :=
  backends.map fun backend => backend.solve query

/-- The answers after which a second backend is asked. -/
def SmtStatus.isInconclusive : SmtStatus → Bool
  | .unknown | .timeout | .error => true
  | .sat | .unsat => false

/-- `CrossCheckSolverStrategy`. -/
def crossCheckSolverStrategy (query : SmtQuery V) : List (ISmtBackend V) → List SmtAnswer
  | [] => []
  | [backend] => [backend.solve query]
  | backend :: second :: _ =>
    let primary := backend.solve query
    if primary.status.isInconclusive then [primary, second.solve query] else [primary]

/-- The strategy of a mode. -/
def runStrategy (mode : SolverMode) (query : SmtQuery V) (backends : List (ISmtBackend V)) :
    List SmtAnswer :=
  match mode with
  | .single => singleSolverStrategy query backends
  | .portfolio => portfolioSolverStrategy query backends
  | .crossCheck => crossCheckSolverStrategy query backends
  | .dualConsensus => portfolioSolverStrategy query backends

/-- Some answer has a status. -/
def sawStatus (answers : List SmtAnswer) (status : SmtStatus) : Bool :=
  answers.any fun answer => decide (answer.status = status)

/-- `aggregateStatuses`. -/
def aggregateStatuses (answers : List SmtAnswer) (mode : SolverMode) : SmtStatus :=
  if answers = [] then .error
  else if mode = .dualConsensus then
    if sawStatus answers .sat then .sat
    else if answers.all fun answer => decide (answer.status = .unsat) then .unsat else .unknown
  else if sawStatus answers .sat && sawStatus answers .unsat then .unknown
  else if sawStatus answers .sat then .sat
  else if sawStatus answers .unsat then .unsat
  else if sawStatus answers .timeout then .timeout
  else if sawStatus answers .error then .error
  else .unknown

/-- The query with the limits of the configuration, where it has none of its own. -/
def runtimeQuery (config : SolverOrchestratorConfig) (query : SmtQuery V) : SmtQuery V :=
  { query with
    timeoutMs := if query.timeoutMs = 0 then config.timeoutMs else query.timeoutMs
    budgetNodes := if query.budgetNodes = 0 then config.budgetNodes else query.budgetNodes }

/-- `SolverOrchestrator::solve`. -/
def SolverOrchestrator.solve (z3 : Option (SmtQuery V → SmtAnswer))
    (config : SolverOrchestratorConfig) (query : SmtQuery V) : SmtDecision :=
  let backends := resolveBackends z3 config
  if backends.isEmpty then
    ⟨[⟨"orchestrator", some "no backend available", .error⟩], .error⟩
  else
    let answers := runStrategy config.mode (runtimeQuery config query) backends
    ⟨answers, aggregateStatuses answers config.mode⟩

end Strategies

/-! ## Decisions come from answers -/

section Decisions

variable {V : Type*} {answers : List SmtAnswer} {mode : SolverMode}

theorem sawStatus_iff {status : SmtStatus} :
    sawStatus answers status = true ↔ ∃ answer ∈ answers, answer.status = status := by
  simp [sawStatus]

/-- **A refutation comes from an answer**, whatever the mode. -/
theorem aggregateStatuses_unsat (h : aggregateStatuses answers mode = .unsat) :
    ∃ answer ∈ answers, answer.status = .unsat := by
  unfold aggregateStatuses at h
  split_ifs at h with hempty hdual hsat hall hboth hsat hunsat htimeout herror
  · -- all answers of a dual consensus are refutations, and there is one
    obtain ⟨answer, hanswer⟩ := List.exists_mem_of_ne_nil answers hempty
    exact ⟨answer, hanswer, of_decide_eq_true (List.all_eq_true.mp hall answer hanswer)⟩
  · exact sawStatus_iff.mp hunsat

/-- A refutation is masked by an opposite answer only, unless consensus is asked for. -/
theorem aggregateStatuses_of_unsat (hmode : mode ≠ .dualConsensus)
    (hunsat : ∃ answer ∈ answers, answer.status = .unsat)
    (hsat : ¬ ∃ answer ∈ answers, answer.status = .sat) :
    aggregateStatuses answers mode = .unsat := by
  have hempty : answers ≠ [] := by
    rintro rfl
    simp at hunsat
  rw [← sawStatus_iff] at hunsat hsat
  unfold aggregateStatuses
  rw [if_neg hempty, if_neg hmode, hunsat, eq_false_of_ne_true hsat]
  rfl

/-- The answers of a strategy are those of backends. -/
theorem exists_backend_of_mem_runStrategy {query : SmtQuery V} {backends : List (ISmtBackend V)}
    {answer : SmtAnswer} (h : answer ∈ runStrategy mode query backends) :
    ∃ backend ∈ backends, answer = backend.solve query := by
  have hportfolio : answer ∈ portfolioSolverStrategy query backends →
      ∃ backend ∈ backends, answer = backend.solve query := fun h => by
    obtain ⟨backend, hbackend, rfl⟩ := List.mem_map.mp h
    exact ⟨backend, hbackend, rfl⟩
  cases mode with
  | portfolio => exact hportfolio h
  | dualConsensus => exact hportfolio h
  | single =>
    cases backends with
    | nil => cases h
    | cons backend backends => exact ⟨backend, List.mem_cons_self, List.mem_singleton.mp h⟩
  | crossCheck =>
    match backends, h with
    | [backend], h => exact ⟨backend, List.mem_cons_self, List.mem_singleton.mp h⟩
    | backend :: second :: _, h =>
      simp only [runStrategy, crossCheckSolverStrategy] at h
      split_ifs at h
      · rcases List.mem_pair.mp h with rfl | rfl
        · exact ⟨backend, List.mem_cons_self, rfl⟩
        · exact ⟨second, List.mem_cons_of_mem _ List.mem_cons_self, rfl⟩
      · exact ⟨backend, List.mem_cons_self, List.mem_singleton.mp h⟩

end Decisions

/-! ## Soundness -/

section Soundness

variable {V : Type*} {z3 : Option (SmtQuery V → SmtAnswer)} {backend : ISmtBackend V}
variable {config : SolverOrchestratorConfig} {query : SmtQuery V}

/-- A backend that refutes only queries that cannot be satisfied, if the assertions imply the
intervals. -/
def ISmtBackend.RefutationSound (backend : ISmtBackend V) : Prop :=
  ∀ query : SmtQuery V, query.ir.IntervalsImplied → (backend.solve query).status = .unsat →
    ¬ query.ir.Satisfiable

/-- The interval backend is sound: bounds that contradict each other do not follow from assertions
that can be true. -/
theorem intervalBackend_sound : (intervalBackend : ISmtBackend V).RefutationSound := by
  intro query himplied hunsat
  rintro ⟨assignment, hfits, hassertions, -⟩
  simp only [intervalBackend] at hunsat
  split_ifs at hunsat with hany
  obtain ⟨c, hc, hcontradictory⟩ := List.any_eq_true.mp hany
  simp only [IntervalConstraint.contradictory, Bool.and_eq_true, decide_eq_true_eq]
    at hcontradictory
  obtain ⟨⟨hlower, hupper⟩, hlt⟩ := hcontradictory
  have hle := (himplied assignment hfits hassertions c hc).lower_le_upper hlower hupper
  omega

/-- A backend that is missing refutes nothing. -/
theorem unavailableExternalBackend_sound (name : String) :
    (unavailableExternalBackend name : ISmtBackend V).RefutationSound := by
  intro query _ hunsat
  cases hunsat

/-- Every backend is sound, whatever name it has been asked for by. -/
theorem createBackend_sound
    (hz3 : ∀ solve, z3 = some solve → ∀ query, (solve query).status = .unsat →
      ¬ query.ir.Satisfiable) (name : String) : (createBackend z3 name).RefutationSound := by
  simp only [createBackend]
  split_ifs
  · exact intervalBackend_sound
  · cases hsolve : z3 with
    | none => exact unavailableExternalBackend_sound _
    | some solve => exact fun query _ hunsat => hz3 solve hsolve query hunsat
  · exact unavailableExternalBackend_sound _
  · exact unavailableExternalBackend_sound _

/-- Appending a backend keeps what holds of all backends that are created. -/
theorem forall_mem_appendBackendIfMissing {p : ISmtBackend V → Prop}
    (hcreate : ∀ name, p (createBackend z3 name)) (out : List (ISmtBackend V))
    (hout : ∀ backend ∈ out, p backend) (name : String) :
    ∀ backend ∈ appendBackendIfMissing z3 out name, p backend := by
  intro backend h
  simp only [appendBackendIfMissing] at h
  split_ifs at h
  · exact hout backend h
  · rcases List.mem_append.mp h with h | h
    · exact hout backend h
    · rw [List.mem_singleton.mp h]
      exact hcreate name

/-- What holds of all backends that are created holds of those of a configuration. -/
theorem forall_mem_resolveBackends {p : ISmtBackend V → Prop}
    (hcreate : ∀ name, p (createBackend z3 name)) : ∀ backend ∈ resolveBackends z3 config,
      p backend := by
  have happend := forall_mem_appendBackendIfMissing hcreate
  have hprimary := happend [] (fun _ h => absurd h List.not_mem_nil) config.primaryBackend
  -- the secondary backend and the interval backend are appended if they are asked for
  have hsecondary : ∀ backend ∈ (if config.secondaryBackend ≠ "" then
      appendBackendIfMissing z3 (appendBackendIfMissing z3 [] config.primaryBackend)
        config.secondaryBackend
      else appendBackendIfMissing z3 [] config.primaryBackend), p backend := by
    split_ifs
    · exact happend _ hprimary _
    · exact hprimary
  unfold resolveBackends
  cases config.mode with
  | single => exact hprimary
  | crossCheck =>
    simp only
    split_ifs
    · exact happend _ hprimary _
    · exact happend _ hprimary _
    · exact hprimary
  | portfolio =>
    simp only
    by_cases hinterval : toLowerAscii config.primaryBackend ≠ "interval"
    · rw [if_pos hinterval]
      exact happend _ hsecondary _
    · rw [if_neg hinterval]
      exact hsecondary
  | dualConsensus =>
    simp only
    by_cases hinterval : toLowerAscii config.primaryBackend ≠ "interval"
    · rw [if_pos hinterval]
      exact happend _ hsecondary _
    · rw [if_neg hinterval]
      exact hsecondary

end Soundness

/-- **Decisions are refutation-sound.** If Z3 refutes only queries that cannot be satisfied, a query
whose intervals follow from its assertions cannot be satisfied when the decision is that it cannot,
in every mode and for all backends. If in addition no backend of a portfolio accepts a query that
cannot be satisfied, the refutation of one of them is the decision.

**Proof sketch.** A refutation as a decision comes from a refutation as an answer, and every backend
is sound. In a portfolio all backends are asked, and only an accepting answer masks a refutation. -/
theorem SolverOrchestrator.solve_sound {V : Type*} (z3 : Option (SmtQuery V → SmtAnswer))
    (config : SolverOrchestratorConfig) (query : SmtQuery V)
    (himplied : query.ir.IntervalsImplied)
    (hz3 : ∀ solve, z3 = some solve → ∀ q : SmtQuery V, (solve q).status = .unsat →
      ¬ q.ir.Satisfiable) :
    ((SolverOrchestrator.solve z3 config query).status = .unsat → ¬ query.ir.Satisfiable) ∧
      (config.mode = .portfolio →
        (∀ backend ∈ resolveBackends z3 config,
          (backend.solve (runtimeQuery config query)).status = .sat → query.ir.Satisfiable) →
        (∃ backend ∈ resolveBackends z3 config,
          (backend.solve (runtimeQuery config query)).status = .unsat) →
        (SolverOrchestrator.solve z3 config query).status = .unsat) := by
  have hsound : ∀ backend ∈ resolveBackends z3 config,
      (backend.solve (runtimeQuery config query)).status = .unsat → ¬ query.ir.Satisfiable :=
    fun backend hbackend => forall_mem_resolveBackends (createBackend_sound hz3) backend hbackend
      (runtimeQuery config query) himplied
  refine ⟨fun hunsat => ?_, fun hmode hsat hunsat => ?_⟩
  · simp only [SolverOrchestrator.solve] at hunsat
    split_ifs at hunsat
    obtain ⟨answer, hanswer, hstatus⟩ := aggregateStatuses_unsat hunsat
    obtain ⟨backend, hbackend, rfl⟩ := exists_backend_of_mem_runStrategy hanswer
    exact hsound backend hbackend hstatus
  · obtain ⟨backend, hbackend, hstatus⟩ := hunsat
    have hnot : ¬ (resolveBackends z3 config).isEmpty := fun hempty => by
      rw [List.isEmpty_iff.mp hempty] at hbackend
      exact List.not_mem_nil hbackend
    simp only [SolverOrchestrator.solve]
    rw [if_neg hnot, hmode]
    apply aggregateStatuses_of_unsat (by simp)
    · exact ⟨_, List.mem_map_of_mem hbackend, hstatus⟩
    · rintro ⟨answer, hanswer, hstatus'⟩
      obtain ⟨backend', hbackend', rfl⟩ := List.mem_map.mp hanswer
      exact hsound backend hbackend hstatus (hsat backend' hbackend' hstatus')

/-- An expression is not different from itself. -/
theorem ConstraintIR.not_evaluates_ne_self {V : Type*} {ir : ConstraintIR V}
    {assignment : SymbolId → Bits} {id : ExprId} {n : ExprNode} (hn : ir.nodes[id]? = some n)
    (hkind : n.kind = .ne) (hself : n.lhs = n.rhs) : ¬ ir.Evaluates assignment id (.bool true) := by
  intro h
  rw [evaluates_iff hn, hkind] at h
  obtain ⟨l, r, hl, hr, hv⟩ := h
  rw [← hself] at hr
  obtain rfl := hl.unique hr
  cases l with
  | bool b => simp [binaryValue, connective] at hv
  | bits b => simp [binaryValue, isArithmetic, isComparison, compareBits, compare] at hv

/-- A solver that sees when an expression is said to be different from itself. -/
def selfInequalitySolver {V : Type*} (query : SmtQuery V) : SmtAnswer :=
  let refuted := query.ir.assertions.any fun id =>
    (query.ir.nodes[id]?).any fun n => decide (n.kind = .ne ∧ n.lhs = n.rhs)
  ⟨"z3", none, if refuted then .unsat else .unknown⟩

theorem selfInequalitySolver_sound {V : Type*} (query : SmtQuery V)
    (hunsat : (selfInequalitySolver query).status = .unsat) : ¬ query.ir.Satisfiable := by
  rintro ⟨assignment, -, hassertions, -⟩
  simp only [selfInequalitySolver] at hunsat
  split_ifs at hunsat with hrefuted
  obtain ⟨id, hid, hany⟩ := List.any_eq_true.mp hrefuted
  cases hn : query.ir.nodes[id]? with
  | none => simp [hn] at hany
  | some n =>
    rw [hn, Option.any_some, decide_eq_true_eq] at hany
    exact ConstraintIR.not_evaluates_ne_self hn hany.1 hany.2 (hassertions id hid)

/-- The query `x ≠ x`, with bounds `5 ≤ x ≤ 3`. -/
def selfInequality : SmtQuery ℕ where
  ir :=
    { nodes := [{ kind := .symbol, symbol := 1, bitWidth := 8 }, { kind := .ne }]
      assertions := [1]
      intervals := [⟨1, 5, 3, true, true⟩] }

/-- A portfolio of the solver and the interval backend refutes the query. -/
theorem solve_sound_selfInequality :
    (SolverOrchestrator.solve (some selfInequalitySolver)
        { primaryBackend := "Z3", mode := .portfolio } selfInequality).status = .unsat ∧
      ¬ selfInequality.ir.Satisfiable := by
  have himplied : selfInequality.ir.IntervalsImplied := fun assignment _ hassertions =>
    absurd (hassertions 1 (by simp [selfInequality]))
      (ConstraintIR.not_evaluates_ne_self rfl rfl rfl)
  have hz3 : ∀ solve, some selfInequalitySolver = some solve → ∀ q : SmtQuery ℕ,
      (solve q).status = .unsat → ¬ q.ir.Satisfiable := fun solve hsolve => by
    obtain rfl := Option.some.inj hsolve
    exact selfInequalitySolver_sound
  obtain ⟨hsound, hportfolio⟩ := SolverOrchestrator.solve_sound (some selfInequalitySolver)
    { primaryBackend := "Z3", mode := .portfolio } selfInequality himplied hz3
  have hnot : ∀ backend ∈ resolveBackends (some selfInequalitySolver)
      { primaryBackend := "Z3", mode := .portfolio },
      (backend.solve (runtimeQuery { primaryBackend := "Z3", mode := .portfolio }
        selfInequality)).status ≠ .sat := by decide
  have hunsat := hportfolio rfl (fun backend h hsat => absurd hsat (hnot backend h)) (by decide)
  exact ⟨hunsat, hsound hunsat⟩

end StackAnalyzer.Smt
