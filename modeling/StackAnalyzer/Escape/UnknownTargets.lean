import StackAnalyzer.Escape.EscapeSummaries

set_option relaxedAutoImplicit false
set_option autoImplicit false

/-!
# Unknown targets of indirect calls

Where some targets of an indirect call are known and others are not, the facts keep the known ones
as candidates and say that there is an unknown target. The loop over the facts takes an unknown
target for an escape. This file says for which tables that makes no difference.

## Main definitions

* `StackAnalyzer.Escape.HasUnknownTarget` — an indirect call of a parameter has an unknown target.
* `StackAnalyzer.Escape.UnknownTargetsHarmless` — unknown targets never force an escape.

## Main results

* `StackAnalyzer.Escape.mayEscape_of_hasUnknownTarget` — an unknown target forces an escape.
* `StackAnalyzer.Escape.unknownTargetsHarmless_iff` — when unknown targets make no difference.
-/

namespace StackAnalyzer.Escape

open Maps RoundRobin

variable {F : Type*}

/-! ## The next state of a parameter -/

/-- A loop over indirect calls that finds an escape has found a candidate that may escape, or an
unknown target. -/
theorem exists_of_scanIndirectCalls (state : F × ℕ → EscapeSummaryState)
    {deps : List (IndirectCallDependency F)} {u : Bool}
    (h : (scanIndirectCalls state deps u).1 = true) :
    (∃ dep ∈ deps.flatMap fun dep => dep.candidates,
      state (dep.callee, dep.argIndex) = .mayEscape) ∨
        ∃ dep ∈ deps, dep.hasUnknownTarget = true := by
  induction deps generalizing u with
  | nil => simp [scanIndirectCalls] at h
  | cons dep deps ih =>
    unfold scanIndirectCalls at h
    by_cases hunknown : dep.hasUnknownTarget = true
    · exact Or.inr ⟨dep, List.mem_cons_self, hunknown⟩
    · rw [if_neg hunknown] at h
      dsimp only at h
      split_ifs at h with hscan
      · obtain ⟨cand, hcand, hstate⟩ := (scanDependencies_spec state dep.candidates u).1.mp hscan
        exact Or.inl ⟨cand, List.mem_flatMap.mpr ⟨dep, List.mem_cons_self, hcand⟩, hstate⟩
      · rcases ih h with ⟨cand, hcand, hstate⟩ | ⟨other, hother, hunknown⟩
        · refine Or.inl ⟨cand, ?_, hstate⟩
          rw [List.flatMap_cons]
          exact List.mem_append_right _ hcand
        · exact Or.inr ⟨other, List.mem_cons_of_mem _ hother, hunknown⟩

/-- A loop over indirect calls stops at an unknown target at the latest. -/
theorem scanIndirectCalls_of_unknown (state : F × ℕ → EscapeSummaryState)
    {deps : List (IndirectCallDependency F)} {dep : IndirectCallDependency F} (hdep : dep ∈ deps)
    (hunknown : dep.hasUnknownTarget = true) (u : Bool) :
    (scanIndirectCalls state deps u).1 = true := by
  induction deps generalizing u with
  | nil => exact absurd hdep List.not_mem_nil
  | cons d deps ih =>
    unfold scanIndirectCalls
    by_cases hd : d.hasUnknownTarget = true
    · rw [if_pos hd]
    · rw [if_neg hd]
      dsimp only
      split_ifs with hscan
      · exact hscan
      · rcases List.mem_cons.mp hdep with rfl | hdep
        · exact absurd hunknown hd
        · exact ih hdep _

/-- **With an unknown target** the next state is always that the parameter may escape. -/
theorem nextState_of_unknown (state : F × ℕ → EscapeSummaryState)
    {paramFacts : ParamEscapeFacts F} {dep : IndirectCallDependency F}
    (hdep : dep ∈ paramFacts.indirectDeps) (hunknown : dep.hasUnknownTarget = true) :
    nextState state paramFacts = .mayEscape := by
  unfold nextState
  dsimp only
  split_ifs with hhard hdirect hindirect hu
  · rfl
  · rfl
  · rfl
  all_goals exact absurd (scanIndirectCalls_of_unknown state hdep hunknown _) hindirect

/-- **Why the next state is that a parameter may escape.** -/
theorem exists_of_nextState (state : F × ℕ → EscapeSummaryState)
    {paramFacts : ParamEscapeFacts F} (h : nextState state paramFacts = .mayEscape) :
    paramFacts.hardEscape = true ∨ (∃ q ∈ paramFacts.dependencies, state q = .mayEscape) ∨
      ∃ dep ∈ paramFacts.indirectDeps, dep.hasUnknownTarget = true := by
  have hdependency : ∀ deps : List (DirectParamDependency F),
      (∀ dep ∈ deps, (dep.callee, dep.argIndex) ∈ paramFacts.dependencies) →
        (∃ dep ∈ deps, state (dep.callee, dep.argIndex) = .mayEscape) →
          ∃ q ∈ paramFacts.dependencies, state q = .mayEscape := by
    rintro deps hmem ⟨dep, hdep, hstate⟩
    exact ⟨_, hmem dep hdep, hstate⟩
  unfold nextState at h
  dsimp only at h
  split_ifs at h with hhard hdirect hindirect
  · exact Or.inl hhard
  · refine Or.inr (Or.inl (hdependency paramFacts.directDeps ?_
      ((scanDependencies_spec state paramFacts.directDeps _).1.mp hdirect)))
    intro dep hdep
    exact List.mem_map.mpr ⟨dep, List.mem_append_left _ hdep, rfl⟩
  · rcases exists_of_scanIndirectCalls state hindirect with hcandidate | hunknown
    · refine Or.inr (Or.inl (hdependency _ ?_ hcandidate))
      intro dep hdep
      exact List.mem_map.mpr ⟨dep, List.mem_append_right _ hdep, rfl⟩
    · exact Or.inr (Or.inr hunknown)

/-! ## The states -/

variable [DecidableEq F] {factsMap : FunctionEscapeFactsMap F} {p : F × ℕ}

/-- An indirect call of a pointer parameter has an unknown target. -/
def HasUnknownTarget (factsMap : FunctionEscapeFactsMap F) (p : F × ℕ) : Prop :=
  ∃ param, param? factsMap p = some param ∧ param.isPointerLike = true ∧
    ∃ dep ∈ param.facts.indirectDeps, dep.hasUnknownTarget = true

/-- **Unknown targets never force an escape**: a parameter may escape only if a chain of dependencies
leads to a hard escape, and with an unknown target but without such a chain it is unknown. -/
def UnknownTargetsHarmless (factsMap : FunctionEscapeFactsMap F) : Prop :=
  ∀ p, IsPointerParam factsMap p →
    ((buildFunctionEscapeSummaries factsMap).1 p = .mayEscape → Escapes factsMap p) ∧
      (HasUnknownTarget factsMap p → ¬ Escapes factsMap p →
        (buildFunctionEscapeSummaries factsMap).1 p = .unknown)

/-- **An unknown target forces an escape.** -/
theorem mayEscape_of_hasUnknownTarget (h : HasUnknownTarget factsMap p) :
    (buildFunctionEscapeSummaries factsMap).1 p = .mayEscape := by
  obtain ⟨param, hparam, hpointer, dep, hdep, hunknown⟩ := h
  refine runChanged_const escapeSystem_lawful (mem_pointerParams.mpr ⟨param, hparam, hpointer⟩) ?_
    63 (initialSummaries factsMap)
  intro τ
  simp only [escapeSystem, hparam]
  exact nextState_of_unknown _ hdep hunknown

/-- States that have a reason, if every parameter with an unknown target has one. -/
theorem escapes_of_mayEscape (hunknown : ∀ p, HasUnknownTarget factsMap p → Escapes factsMap p)
    (hp : InTable factsMap p)
    (hmay : (buildFunctionEscapeSummaries factsMap).1 p = .mayEscape) : Escapes factsMap p := by
  -- the invariant of the loop: what may escape has a reason
  have hstep : ∀ q ∈ pointerParams factsMap, ∀ τ : FunctionEscapeSummaryMap F,
      (∀ r, InTable factsMap r → τ r = .mayEscape → Escapes factsMap r) →
        ∀ r, InTable factsMap r →
          Function.update τ q ((escapeSystem factsMap).eval q τ) r = .mayEscape →
            Escapes factsMap r := by
    intro q hq τ hτ r hr hrmay
    by_cases hrq : r = q
    · subst hrq
      obtain ⟨param, hparam, hpointer⟩ := mem_pointerParams.mp hq
      rw [Function.update_self] at hrmay
      simp only [escapeSystem, hparam] at hrmay
      rcases exists_of_nextState _ hrmay with hhard | ⟨t, ht, hstate⟩ | ⟨dep, hdep, hdep'⟩
      · exact ⟨r, .refl, param, hparam, hhard⟩
      · obtain ⟨htin, ht'⟩ := (summaryStateForArg_eq (by simp)).mp hstate
        obtain ⟨s, hts, hs⟩ := hτ t htin ht'
        exact ⟨s, .head ⟨param, hparam, ht⟩ hts, hs⟩
      · exact hunknown r ⟨param, hparam, hpointer, dep, hdep, hdep'⟩
    · rw [Function.update_of_ne hrq] at hrmay
      exact hτ r hr hrmay
  exact runChanged_induction escapeSystem_lawful hstep kEscapeSummaryMaxIterations
    (fun q hq hqmay => (sound_initialSummaries q hq).1 hqmay) p hp hmay

/-- **When unknown targets make no difference**: exactly if every pointer parameter that reaches an
indirect call with an unknown target has a chain of dependencies to a hard escape anyway.

**Proof sketch.** A parameter with an unknown target evaluates to an escape in every round, whatever
the other states are, so it needs a reason. If it always has one, the reasons of all other
parameters go back to a hard escape, by the invariant of the loop. -/
theorem unknownTargetsHarmless_iff (factsMap : FunctionEscapeFactsMap F) :
    UnknownTargetsHarmless factsMap ↔
      ∀ p, HasUnknownTarget factsMap p → Escapes factsMap p := by
  constructor
  · intro h p hp
    have hmay := mayEscape_of_hasUnknownTarget hp
    obtain ⟨param, hparam, hpointer, -⟩ := hp
    exact (h p ⟨param, hparam, hpointer⟩).1 hmay
  · rintro hunknown p ⟨param, hparam, -⟩
    have hin : InTable factsMap p := Option.isSome_iff_exists.mpr ⟨param, hparam⟩
    refine ⟨escapes_of_mayEscape hunknown hin, ?_⟩
    intro hp hnot
    exact absurd (hunknown p hp) hnot

/-- Two functions: the pointer of the first reaches an indirect call that has the second function,
which does nothing, as its only known target, and an unknown one. -/
def partlyKnownTarget : FunctionEscapeFactsMap ℕ where
  entries :=
    [(0, [⟨true, ⟨[], [⟨[⟨1, 0⟩], true⟩], false, true⟩, by simp⟩]),
      (1, [⟨true, ⟨[], [], false, false⟩, by simp⟩])]
  nodup := by decide

/-- The pointer of the first function is found to escape, although nothing lets it escape. -/
theorem not_unknownTargetsHarmless : ¬ UnknownTargetsHarmless partlyKnownTarget := by
  intro h
  have hmay : (buildFunctionEscapeSummaries partlyKnownTarget).1 (0, 0) = .mayEscape := by decide
  obtain ⟨q, -, param, hparam, hhard⟩ := (h (0, 0) ⟨_, rfl, rfl⟩).1 hmay
  have hnone : ∀ entry ∈ partlyKnownTarget.entries, ∀ param ∈ entry.2,
      param.facts.hardEscape = false := by decide
  obtain ⟨params, hparams, hget⟩ := Option.bind_eq_some_iff.mp hparam
  have hfalse := hnone (q.1, params) (EntryMap.find_eq_some_iff.mp hparams) param
    (List.mem_of_getElem? hget)
  exact Bool.false_ne_true (hfalse.symm.trans hhard)

end StackAnalyzer.Escape
