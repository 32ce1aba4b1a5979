import StackAnalyzer.Smt.Exactness
import StackAnalyzer.Smt.SolverOrchestrator

set_option relaxedAutoImplicit false
set_option autoImplicit false

/-!
# What the interval backend says of encoded queries

The encoder records the bounds of a value only if they do not contradict each other, so the interval
backend accepts every query that the encoder builds. That is right iff the query can be satisfied,
and otherwise the acceptance masks the refutation of another backend.

## Main definitions

* `StackAnalyzer.Smt.KeepsIntervals` — a step of the encoder records no interval.
* `StackAnalyzer.Smt.IntervalAnswersRight` — what is expected of the interval backend.

## Main results

* `StackAnalyzer.Smt.intervalBackend_encode` — encoded queries are accepted.
* `StackAnalyzer.Smt.intervalAnswersRight_iff` — acceptance is right iff the query is satisfiable.
-/

namespace StackAnalyzer.Smt

open Llvm

section KeepsIntervals

variable {V B : Type*}

/-- A step of the encoder records no interval. -/
def KeepsIntervals (enc : Enc V) : Prop :=
  ∀ s, (enc s).2.builder.ir.intervals = s.builder.ir.intervals

/-- A builder operation that records no interval. -/
theorem keepsIntervals_emit {f : ConstraintIrBuilder V → ExprId × ConstraintIrBuilder V}
    (h : ∀ b, (f b).2.ir.intervals = b.ir.intervals) : KeepsIntervals (emit f) :=
  fun s => h s.builder

theorem KeepsIntervals.withOperand {enc : Enc V} {k : ExprId → Enc V} (h : KeepsIntervals enc)
    (hk : ∀ e, KeepsIntervals (k e)) : KeepsIntervals (withOperand enc k) := by
  intro s
  unfold Smt.withOperand
  cases (enc s).1 with
  | none => exact h s
  | some e => exact (hk e _).trans (h s)

theorem KeepsIntervals.withOperands {enc₁ enc₂ : Enc V} {k : ExprId → ExprId → Enc V}
    (h₁ : KeepsIntervals enc₁) (h₂ : KeepsIntervals enc₂) (hk : ∀ a b, KeepsIntervals (k a b)) :
    KeepsIntervals (withOperands enc₁ enc₂ k) := by
  intro s
  have h := (h₂ (enc₁ s).2).trans (h₁ s)
  unfold Smt.withOperands
  split
  · exact (hk _ _ _).trans h
  · exact h

@[simp] theorem addAssertion_intervals (b : ConstraintIrBuilder V) (e : ExprId) :
    (b.addAssertion e).ir.intervals = b.ir.intervals := by
  unfold ConstraintIrBuilder.addAssertion
  cases b.ir.entryCondition <;> rfl

theorem KeepsIntervals.asBoolean {enc : Enc V} (h : KeepsIntervals enc) :
    KeepsIntervals (asBoolean enc) := by
  refine h.withOperand fun e s => ?_
  split_ifs <;> rfl

theorem makeSymbol_intervals [DecidableEq V] (name : V → String) (v : V) (w : ℕ)
    (b : ConstraintIrBuilder V) : (b.makeSymbol name v w).2.ir.intervals = b.ir.intervals := by
  unfold ConstraintIrBuilder.makeSymbol
  cases b.symbolByValue v <;> rfl

theorem assertFlags_intervals (nsw nuw : Bool) (opKind : ExprKind) (lhs rhs result : ExprId)
    (w : ℕ) (b : ConstraintIrBuilder V) :
    (assertFlags nsw nuw opKind lhs rhs result w b).ir.intervals = b.ir.intervals := by
  have hnoWrap : ∀ (ext : ExprKind) (b : ConstraintIrBuilder V),
      (assertNoWrap ext opKind lhs rhs result w b).ir.intervals = b.ir.intervals :=
    fun ext b => addAssertion_intervals _ _
  unfold assertFlags
  cases nsw <;> cases nuw <;> simp [hnoWrap]

theorem keepsIntervals_emitBinaryOperator (op : BinaryOp) (nsw nuw : Bool) (w : ℕ)
    (lhs rhs : ExprId) : KeepsIntervals (emitBinaryOperator op nsw nuw w lhs rhs : Enc V) := by
  intro s
  unfold emitBinaryOperator
  cases binaryKind op with
  | none => rfl
  | some opKind =>
    simp only
    split_ifs
    · rfl
    · exact assertFlags_intervals _ _ _ _ _ _ _ _

variable [DecidableEq V] [DecidableEq B] {fn : Llvm.Function V B} {incomingBlock : Option B}

/-- One step of the recursion records no interval if the recursive calls do not. -/
theorem keepsIntervals_encodeValueImpl {rec : V → Enc V} (h : ∀ v, KeepsIntervals (rec v)) (v : V) :
    KeepsIntervals (encodeValueImpl fn incomingBlock rec v) := by
  have hsymbol : KeepsIntervals (emitSymbol fn v) :=
    keepsIntervals_emit fun b => makeSymbol_intervals _ _ _ b
  unfold encodeValueImpl
  cases fn.definition v with
  | constantInt c => exact keepsIntervals_emit fun b => rfl
  | constantPointerNull => exact keepsIntervals_emit fun b => rfl
  | phi incoming =>
    simp only
    cases resolvedIncoming incomingBlock incoming with
    | none => exact hsymbol
    | some u => exact h u
  | freeze x => exact h x
  | select c t f =>
    refine (h c).asBoolean.withOperand fun cond => ?_
    split_ifs
    · exact (h t).asBoolean.withOperands (h f).asBoolean fun _ _ => keepsIntervals_emit fun b => rfl
    · exact (h t).withOperands (h f) fun _ _ => keepsIntervals_emit fun b => rfl
  | cast op x =>
    refine (h x).withOperand fun e => ?_
    cases op with
    | other => exact hsymbol
    | sext | zext | trunc => exact keepsIntervals_emit fun b => rfl
  | icmp p a b => exact (h a).withOperands (h b) fun _ _ => keepsIntervals_emit fun b => rfl
  | binary op nsw nuw a b =>
    exact (h a).withOperands (h b) fun _ _ => keepsIntervals_emitBinaryOperator _ _ _ _ _ _
  | undef | argument | assume _ | other => exact hsymbol

/-- **Encoding a value records no interval.** -/
theorem keepsIntervals_encodeValue (fuel : ℕ) (v : V) :
    KeepsIntervals (encodeValue fn incomingBlock fuel v) := by
  induction fuel generalizing v with
  | zero => exact fun s => rfl
  | succ fuel ih =>
    intro s
    cases hcache : s.cache v with
    | some e => rw [encodeValue_of_cache hcache]
    | none =>
      by_cases hmem : v ∈ s.inProgress
      · rw [encodeValue_of_mem hcache hmem, EncState.emplace_builder]
        exact makeSymbol_intervals _ _ _ _
      · rw [encodeValue_of_new hcache hmem]
        have himpl : KeepsIntervals (encodeValueImpl fn incomingBlock
            (encodeValue fn incomingBlock fuel) v) := keepsIntervals_encodeValueImpl ih v
        unfold memoise
        split
        · rw [EncState.emplace_builder]
          exact himpl (s.enter v)
        · exact himpl (s.enter v)

end KeepsIntervals

/-! ## Encoded queries -/

section Encode

variable {V B : Type*} [DecidableEq V] [DecidableEq B] (fn : Llvm.Function V B)
variable (incomingBlock : Option B) (fuel : ℕ)

/-- The bounds recorded so far do not contradict each other. -/
def Consistent (s : EncState V) : Prop :=
  ∀ c ∈ s.builder.ir.intervals, c.contradictory = false

variable {fn incomingBlock fuel} {s : EncState V}

omit [DecidableEq V] [DecidableEq B] in
theorem Consistent.congr {s' : EncState V} (hs : Consistent s)
    (h : s'.builder.ir.intervals = s.builder.ir.intervals) : Consistent s' := by
  unfold Consistent
  rw [h]
  exact hs

omit [DecidableEq V] [DecidableEq B] in
/-- One entry of the range map records its interval only. -/
theorem assertRange_intervals (symbolId : SymbolId) (e : ExprId) (range : IntRange)
    (b : ConstraintIrBuilder V) : (assertRange symbolId e range b).ir.intervals =
      b.ir.intervals ++
        [⟨symbolId, range.lower, range.upper, range.hasLower, range.hasUpper⟩] := by
  have hbound : ∀ (k : ExprKind) (z : ℤ) (b : ConstraintIrBuilder V),
      (assertBound k e z b).ir.intervals = b.ir.intervals := fun k z b =>
    addAssertion_intervals _ _
  obtain ⟨lower, upper, hasLower, hasUpper⟩ := range
  unfold assertRange
  cases hasLower <;> cases hasUpper <;> simp [hbound, addInterval]

/-- Entries whose bounds contradict each other are passed over. -/
theorem consistent_encodeRange (hs : Consistent s) (entry : V × IntRange) :
    Consistent (encodeRange fn incomingBlock fuel s entry) := by
  unfold encodeRange
  split_ifs with hshould
  · have hentry : ∀ symbolId : SymbolId, IntervalConstraint.contradictory
        ⟨symbolId, entry.2.lower, entry.2.upper, entry.2.hasLower, entry.2.hasUpper⟩ = false := by
      intro symbolId
      simp only [shouldEncodeRangeConstraint, Bool.and_eq_true] at hshould
      have hbounds := hshould.2
      revert hbounds
      unfold IntervalConstraint.contradictory
      cases entry.2.hasLower <;> cases entry.2.hasUpper <;> simp
    have hrange : ∀ (symbolId : SymbolId) (e : ExprId) (s' : EncState V), Consistent s' →
        Consistent { s' with builder := assertRange symbolId e entry.2 s'.builder } := by
      intro symbolId e s' hs' c hc
      rw [assertRange_intervals, List.mem_append, List.mem_singleton] at hc
      rcases hc with hc | rfl
      · exact hs' c hc
      · exact hentry symbolId
    have hkeeps : KeepsIntervals (encodeValue fn incomingBlock fuel entry.1) :=
      keepsIntervals_encodeValue fuel entry.1
    have hvalue := hs.congr (hkeeps s)
    simp only
    generalize encodeValue fn incomingBlock fuel entry.1 s = r at hvalue
    cases r.1 with
    | none => exact hvalue
    | some e =>
      simp only
      split_ifs
      · exact hrange _ _ _ (hvalue.congr (makeSymbol_intervals _ _ _ _))
      · exact hrange _ _ _ hvalue
  · exact hs

omit [DecidableEq V] [DecidableEq B] in
/-- A condition records no interval. -/
theorem consistent_assertCondition {enc : Enc V} (h : KeepsIntervals enc) (hs : Consistent s) :
    Consistent (assertCondition enc s) := by
  unfold assertCondition
  cases (enc s).1 with
  | none => exact hs.congr (h s)
  | some e => exact hs.congr ((addAssertion_intervals _ _).trans (h s))

/-- The conditions of assumptions record no interval. -/
theorem consistent_encodeAssumes (hs : Consistent s) (instructions : List V) :
    Consistent (encodeAssumes fn incomingBlock fuel instructions s) := by
  unfold encodeAssumes
  refine List.foldlRecOn _ _ hs fun s hs cond _ => ?_
  exact consistent_assertCondition (keepsIntervals_encodeValue fuel cond).asBoolean hs

/-- **The bounds of an encoded query do not contradict each other.** -/
theorem not_contradictory_encode (ranges : List (V × IntRange)) (edgeCondition : Option V)
    (takesTrueEdge : Bool) (edgeBlock : Option B) :
    ∀ c ∈ (encode fn incomingBlock fuel ranges edgeCondition takesTrueEdge edgeBlock).intervals,
      c.contradictory = false := by
  have hranges : Consistent (encodeRangeAssertions fn incomingBlock fuel ranges {}) :=
    List.foldlRecOn ranges _ (fun c hc => absurd hc List.not_mem_nil) fun s hs entry _ =>
      consistent_encodeRange hs entry
  have hassumes : Consistent (encodeAssumeAssertions fn incomingBlock fuel edgeBlock
      (encodeRangeAssertions fn incomingBlock fuel ranges {})) := by
    unfold encodeAssumeAssertions
    cases edgeBlock with
    | none => exact hranges
    | some b => exact consistent_encodeAssumes hranges _
  have hedge : Consistent (encodeEdgeCondition fn incomingBlock fuel edgeCondition takesTrueEdge
      (encodeAssumeAssertions fn incomingBlock fuel edgeBlock
        (encodeRangeAssertions fn incomingBlock fuel ranges {}))) := by
    unfold encodeEdgeCondition
    cases edgeCondition with
    | none => exact hassumes
    | some c =>
      have hc : KeepsIntervals (encodeAsBoolean fn incomingBlock fuel c) :=
        (keepsIntervals_encodeValue fuel c).asBoolean
      simp only
      split_ifs
      · exact consistent_assertCondition hc hassumes
      · exact consistent_assertCondition
          (hc.withOperand fun e => keepsIntervals_emit fun b => rfl) hassumes
  exact hedge

/-- **The interval backend accepts every encoded query.** -/
theorem intervalBackend_encode (ranges : List (V × IntRange)) (edgeCondition : Option V)
    (takesTrueEdge : Bool) (edgeBlock : Option B) (query : SmtQuery V)
    (hquery : query.ir =
      encode fn incomingBlock fuel ranges edgeCondition takesTrueEdge edgeBlock) :
    (intervalBackend.solve query).status = .sat := by
  have hany : query.ir.intervals.any IntervalConstraint.contradictory = false := by
    rw [hquery, List.any_eq_false]
    intro c hc
    rw [not_contradictory_encode ranges edgeCondition takesTrueEdge edgeBlock c hc]
    exact Bool.false_ne_true
  simp only [intervalBackend, hany, Bool.false_eq_true, if_false]

end Encode

/-! ## The portfolio -/

section Portfolio

variable {V : Type*} {z3 : Option (SmtQuery V → SmtAnswer)} {config : SolverOrchestratorConfig}

/-- The names of the interval backend. -/
theorem createBackend_eq_intervalBackend {name : String}
    (h : toLowerAscii name = "" ∨ toLowerAscii name = "interval") :
    createBackend z3 name = intervalBackend := by
  simp only [createBackend]
  exact if_pos h

/-- What is named after the interval backend is the interval backend. -/
theorem createBackend_of_name_eq {name : String}
    (h : (createBackend z3 name).name = "interval") : createBackend z3 name = intervalBackend := by
  by_contra hnot
  have hinterval := fun h => hnot (createBackend_eq_intervalBackend h)
  simp only [createBackend, if_neg hinterval] at h
  split_ifs at h
  · cases z3 <;> exact absurd (show "z3" = "interval" from h) (by decide)
  · exact absurd (show "cvc5" = "interval" from h) (by decide)
  · obtain rfl : name = "interval" := h
    exact hinterval (Or.inr (by decide))

/-- The interval backend is there after it has been asked for. -/
theorem intervalBackend_mem_append {out : List (ISmtBackend V)}
    (hout : ∀ backend ∈ out, ∃ name, backend = createBackend z3 name) :
    intervalBackend ∈ appendBackendIfMissing z3 out "interval" := by
  have hcreate : createBackend z3 "interval" = intervalBackend :=
    createBackend_eq_intervalBackend (Or.inr (by decide))
  simp only [appendBackendIfMissing, hcreate]
  split_ifs with hany
  · obtain ⟨backend, hbackend, hname⟩ := List.any_eq_true.mp hany
    obtain ⟨name, rfl⟩ := hout backend hbackend
    rw [← createBackend_of_name_eq (eq_of_beq hname)]
    exact hbackend
  · exact List.mem_append_right out List.mem_cons_self

theorem mem_appendBackendIfMissing {out : List (ISmtBackend V)} {backend : ISmtBackend V}
    (h : backend ∈ out) (name : String) : backend ∈ appendBackendIfMissing z3 out name := by
  simp only [appendBackendIfMissing]
  split_ifs
  · exact h
  · exact List.mem_append_left _ h

/-- **Every portfolio contains the interval backend.** -/
theorem intervalBackend_mem_resolveBackends (hmode : config.mode = .portfolio) :
    intervalBackend ∈ resolveBackends z3 config := by
  have hcreated : ∀ out : List (ISmtBackend V),
      (∀ backend ∈ out, ∃ name, backend = createBackend z3 name) → ∀ name,
        ∀ backend ∈ appendBackendIfMissing z3 out name, ∃ name, backend = createBackend z3 name :=
    fun out hout => forall_mem_appendBackendIfMissing (fun name => ⟨name, rfl⟩) out hout
  have hprimary := hcreated [] (fun _ h => absurd h List.not_mem_nil) config.primaryBackend
  have hsecondary : ∀ backend ∈ (if config.secondaryBackend ≠ "" then
      appendBackendIfMissing z3 (appendBackendIfMissing z3 [] config.primaryBackend)
        config.secondaryBackend
      else appendBackendIfMissing z3 [] config.primaryBackend),
        ∃ name, backend = createBackend z3 name := by
    split_ifs
    · exact hcreated _ hprimary _
    · exact hprimary
  unfold resolveBackends
  rw [hmode]
  simp only
  by_cases hinterval : toLowerAscii config.primaryBackend ≠ "interval"
  · rw [if_pos hinterval]
    exact intervalBackend_mem_append hsecondary
  · rw [if_neg hinterval]
    have hcreate : createBackend z3 config.primaryBackend = intervalBackend :=
      createBackend_eq_intervalBackend (Or.inr (not_not.mp hinterval))
    have hmem : intervalBackend ∈ appendBackendIfMissing z3 [] config.primaryBackend := by
      simp [appendBackendIfMissing, hcreate]
    split_ifs
    · exact mem_appendBackendIfMissing hmem _
    · exact hmem

/-- **A portfolio refutes no query that the interval backend accepts.** -/
theorem solve_portfolio_ne_unsat (hmode : config.mode = .portfolio) {query : SmtQuery V}
    (hsat : (intervalBackend.solve (runtimeQuery config query)).status = .sat) :
    (SolverOrchestrator.solve z3 config query).status ≠ .unsat := by
  have hmem : intervalBackend ∈ resolveBackends z3 config :=
    intervalBackend_mem_resolveBackends hmode
  have hsaw : sawStatus (portfolioSolverStrategy (runtimeQuery config query)
      (resolveBackends z3 config)) .sat = true :=
    sawStatus_iff.mpr ⟨_, List.mem_map_of_mem hmem, hsat⟩
  simp only [SolverOrchestrator.solve, hmode, runStrategy, aggregateStatuses, hsaw]
  split_ifs <;> simp

end Portfolio

/-! ## What is expected of the answers -/

section AnswersRight

variable {V B : Type*}

/-- A query that the interval backend accepts can be satisfied, and one that it refutes cannot. -/
def IntervalAnswersRight (query : SmtQuery V) : Prop :=
  ((intervalBackend.solve query).status = .sat → ∃ σ, query.ir.Holds σ) ∧
    ((intervalBackend.solve query).status = .unsat → ¬ ∃ σ, query.ir.Holds σ)

/-- A backend whose answers are right. -/
def AnswersCorrectly (solve : SmtQuery V → SmtAnswer) : Prop :=
  ∀ query, ((solve query).status = .unsat → ¬ ∃ σ, query.ir.Holds σ) ∧
    ((solve query).status = .sat → ∃ σ, query.ir.Holds σ)

/-- A portfolio with a correct Z3 refutes the query when Z3 does. -/
def PortfolioKeepsRefutation (query : SmtQuery V) : Prop :=
  ∀ (z3 : SmtQuery V → SmtAnswer) (config : SolverOrchestratorConfig), AnswersCorrectly z3 →
    config.mode = .portfolio → (⟨"z3", z3⟩ : ISmtBackend V) ∈ resolveBackends (some z3) config →
      (z3 (runtimeQuery config query)).status = .unsat →
        (SolverOrchestrator.solve (some z3) config query).status = .unsat

/-- **The answers to encoded queries are right iff the query can be satisfied.** For every query that
the encoder builds, the interval backend's answer is right and a portfolio keeps the refutations of a
correct Z3, iff some assignment makes all assertions true.

**Proof sketch.** The encoder records no bounds that contradict each other, so the interval backend
accepts the query. -/
theorem intervalAnswersRight_iff [DecidableEq V] [DecidableEq B] (fn : Llvm.Function V B)
    (incomingBlock : Option B) (fuel : ℕ) (ranges : List (V × IntRange))
    (edgeCondition : Option V) (takesTrueEdge : Bool) (edgeBlock : Option B) (ruleId : String)
    (budgetNodes timeoutMs : ℕ) :
    let query : SmtQuery V :=
      ⟨encode fn incomingBlock fuel ranges edgeCondition takesTrueEdge edgeBlock, ruleId,
        budgetNodes, timeoutMs⟩
    (IntervalAnswersRight query ∧ PortfolioKeepsRefutation query) ↔ ∃ σ, query.ir.Holds σ := by
  intro query
  have hsat := intervalBackend_encode ranges edgeCondition takesTrueEdge edgeBlock query rfl
  refine ⟨fun h => h.1.1 hsat, fun hholds => ⟨⟨fun _ => hholds, fun hunsat => ?_⟩, ?_⟩⟩
  · rw [hsat] at hunsat
    cases hunsat
  · intro z3 config hcorrect _ _ hunsat
    exact absurd hholds ((hcorrect (runtimeQuery config query)).1 hunsat)

/-- A value, and the condition that it is less than itself. -/
def selfLessFn : Llvm.Function Bool Unit where
  definition v := if v then .icmp .slt false false else .argument
  integerWidth v := if v then some ⟨1, Llvm.isWidth_one⟩ else some ⟨8, Llvm.isWidth_eight⟩
  name _ := "value"
  parent _ := ()
  instructions _ := [true]

/-- The query for the branch on that condition. -/
def selfLess : SmtQuery Bool where
  ir := encode selfLessFn none 3 [] (some true) true none

/-- The query cannot be satisfied, the interval backend accepts it, and a portfolio with a solver
that refutes it is undecided. -/
theorem not_intervalAnswersRight : ¬ IntervalAnswersRight selfLess ∧
    (SolverOrchestrator.solve (some fun _ => ⟨"z3", none, .unsat⟩)
      { primaryBackend := "z3", mode := .portfolio } selfLess).status = .unknown := by
  refine ⟨fun hright => ?_, by decide⟩
  obtain ⟨σ, hσ⟩ := hright.1 (by decide)
  have hir : selfLess.ir = (((({} : ConstraintIrBuilder Bool).newSymbol (fun _ => "value") false
      8).makeBinary .slt 0 0 1).2.addAssertion 1).ir := rfl
  rw [hir] at hσ
  obtain ⟨x, hx⟩ : ∃ x : BitVec 8, (({} : ConstraintIrBuilder Bool).newSymbol (fun _ => "value")
      false 8).value σ 0 = some ⟨8, x⟩ := ⟨_, rfl⟩
  have htrue := ConstraintIR.Holds.eq_true hσ (value_makeCompare .slt hx hx)
  simp [Predicate.holds] at htrue

end AnswersRight

end StackAnalyzer.Smt
