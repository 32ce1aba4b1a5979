import StackAnalyzer.Dataflow.RoundRobin
import StackAnalyzer.Maps.EntryMap

set_option relaxedAutoImplicit false
set_option autoImplicit false

/-!
# Which parameters escape

For each pointer parameter of a function it is known whether the function itself lets it escape,
whether it reaches an opaque call, and to which parameters of other functions it is passed. From
these facts `buildFunctionEscapeSummaries` computes, in place and in the order in which a hash table
is iterated, whether a parameter may escape, does not, or is unknown.

## Main definitions

* `StackAnalyzer.Escape.FunctionEscapeFactsMap` — the table of facts.
* `StackAnalyzer.Escape.buildFunctionEscapeSummaries` — the states, and whether they still change.
* `StackAnalyzer.Escape.DependsOn`, `StackAnalyzer.Escape.Escapes`,
  `StackAnalyzer.Escape.Safe` — a parameter is passed to another one, a chain leads to a hard
  escape, and all chains end well.

## Main results

* `StackAnalyzer.Escape.buildFunctionEscapeSummaries_correct` — states are right, also at the cap,
  and do not depend on the order once they have converged.
-/

namespace StackAnalyzer.Escape

open Maps RoundRobin

/-- `EscapeSummaryState`. -/
inductive EscapeSummaryState
  | unknown
  | noEscape
  | mayEscape
  deriving DecidableEq

/-- `DirectParamDependency`. -/
structure DirectParamDependency (F : Type*) where
  callee : F
  argIndex : ℕ

/-- `IndirectCallDependency`. -/
structure IndirectCallDependency (F : Type*) where
  candidates : List (DirectParamDependency F)
  hasUnknownTarget : Bool

/-- `ParamEscapeFacts`. -/
structure ParamEscapeFacts (F : Type*) where
  directDeps : List (DirectParamDependency F)
  indirectDeps : List (IndirectCallDependency F)
  hardEscape : Bool
  hasOpaqueExternalCall : Bool

/-- The facts that nothing has been collected into. -/
def ParamEscapeFacts.none {F : Type*} : ParamEscapeFacts F := ⟨[], [], false, false⟩

/-! ## The next state of a parameter -/

section NextState

variable {F : Type*}

/-- The loop over dependencies: whether one may escape, and `hasUnknownDependency`. -/
def scanDependencies (state : F × ℕ → EscapeSummaryState) :
    List (DirectParamDependency F) → Bool → Bool × Bool
  | [], hasUnknownDependency => (false, hasUnknownDependency)
  | dep :: deps, hasUnknownDependency =>
    match state (dep.callee, dep.argIndex) with
    | .mayEscape => (true, hasUnknownDependency)
    | .unknown => scanDependencies state deps true
    | .noEscape => scanDependencies state deps hasUnknownDependency

/-- The loop over indirect calls. -/
def scanIndirectCalls (state : F × ℕ → EscapeSummaryState) :
    List (IndirectCallDependency F) → Bool → Bool × Bool
  | [], hasUnknownDependency => (false, hasUnknownDependency)
  | dep :: deps, hasUnknownDependency =>
    if dep.hasUnknownTarget then (true, hasUnknownDependency)
    else
      let r := scanDependencies state dep.candidates hasUnknownDependency
      if r.1 then r else scanIndirectCalls state deps r.2

/-- `nextState`. -/
def nextState (state : F × ℕ → EscapeSummaryState) (paramFacts : ParamEscapeFacts F) :
    EscapeSummaryState :=
  if paramFacts.hardEscape then .mayEscape
  else
    let r := scanDependencies state paramFacts.directDeps paramFacts.hasOpaqueExternalCall
    if r.1 then .mayEscape
    else
      let t := scanIndirectCalls state paramFacts.indirectDeps r.2
      if t.1 then .mayEscape else if t.2 then .unknown else .noEscape

/-- The parameters that a parameter is passed to. -/
def ParamEscapeFacts.dependencies (paramFacts : ParamEscapeFacts F) : List (F × ℕ) :=
  (paramFacts.directDeps ++ paramFacts.indirectDeps.flatMap fun dep => dep.candidates).map
    fun dep => (dep.callee, dep.argIndex)

variable (state : F × ℕ → EscapeSummaryState)

/-- What the loop over dependencies finds. -/
theorem scanDependencies_spec (deps : List (DirectParamDependency F)) (u : Bool) :
    ((scanDependencies state deps u).1 = true ↔
        ∃ dep ∈ deps, state (dep.callee, dep.argIndex) = .mayEscape) ∧
      ((scanDependencies state deps u).1 = false →
        ((scanDependencies state deps u).2 = true ↔
          u = true ∨ ∃ dep ∈ deps, state (dep.callee, dep.argIndex) = .unknown)) := by
  induction deps generalizing u with
  | nil => simp [scanDependencies]
  | cons dep deps ih =>
    unfold scanDependencies
    cases hstate : state (dep.callee, dep.argIndex) with
    | mayEscape => simp [hstate]
    | unknown => simpa [hstate] using ih true
    | noEscape => simpa [hstate] using ih u

/-- What the loop over indirect calls finds, if all targets are known. -/
theorem scanIndirectCalls_spec (deps : List (IndirectCallDependency F))
    (hknown : ∀ dep ∈ deps, dep.hasUnknownTarget = false) (u : Bool) :
    ((scanIndirectCalls state deps u).1 = true ↔
        ∃ dep ∈ deps.flatMap fun dep => dep.candidates,
          state (dep.callee, dep.argIndex) = .mayEscape) ∧
      ((scanIndirectCalls state deps u).1 = false →
        ((scanIndirectCalls state deps u).2 = true ↔ u = true ∨
          ∃ dep ∈ deps.flatMap fun dep => dep.candidates,
            state (dep.callee, dep.argIndex) = .unknown)) := by
  induction deps generalizing u with
  | nil => simp [scanIndirectCalls]
  | cons dep deps ih =>
    obtain ⟨hmay, hunknown⟩ := scanDependencies_spec state dep.candidates u
    have hrest := ih (fun d hd => hknown d (List.mem_cons_of_mem dep hd))
      (scanDependencies state dep.candidates u).2
    unfold scanIndirectCalls
    rw [if_neg (by simp [hknown dep List.mem_cons_self])]
    simp only [List.flatMap_cons, List.mem_append, or_and_right, exists_or]
    cases hscan : (scanDependencies state dep.candidates u).1 with
    | true => simp [hscan, hmay.mp hscan]
    | false =>
      have hnone := fun h => Bool.false_ne_true (hscan.symm.trans (hmay.mpr h))
      rw [if_neg (by simp)]
      refine ⟨hrest.1.trans (or_iff_right hnone).symm, fun hfalse => ?_⟩
      rw [hrest.2 hfalse, hunknown hscan, or_assoc]

/-- **The next state of a parameter**: it may escape iff it escapes in its function or a dependency
may, and does not escape iff neither it nor a dependency gives any reason to think so. -/
theorem nextState_spec {paramFacts : ParamEscapeFacts F}
    (hknown : ∀ dep ∈ paramFacts.indirectDeps, dep.hasUnknownTarget = false) :
    (nextState state paramFacts = .mayEscape ↔ paramFacts.hardEscape = true ∨
        ∃ q ∈ paramFacts.dependencies, state q = .mayEscape) ∧
      (nextState state paramFacts = .noEscape ↔ paramFacts.hardEscape = false ∧
        paramFacts.hasOpaqueExternalCall = false ∧
          ∀ q ∈ paramFacts.dependencies, state q = .noEscape) := by
  have hexists : ∀ s, (∃ q ∈ paramFacts.dependencies, state q = s) ↔
      (∃ dep ∈ paramFacts.directDeps, state (dep.callee, dep.argIndex) = s) ∨
        ∃ dep ∈ paramFacts.indirectDeps.flatMap fun dep => dep.candidates,
          state (dep.callee, dep.argIndex) = s := by
    intro s
    simp only [ParamEscapeFacts.dependencies, List.mem_map, exists_exists_and_eq_and,
      List.mem_append, or_and_right, exists_or]
  have hforall : (∀ q ∈ paramFacts.dependencies, state q = .noEscape) ↔
      (¬ ∃ q ∈ paramFacts.dependencies, state q = .mayEscape) ∧
        ¬ ∃ q ∈ paramFacts.dependencies, state q = .unknown := by
    simp only [not_exists, not_and, ← forall_and]
    refine forall_congr' fun q => forall_congr' fun _ => ?_
    cases state q <;> simp
  obtain ⟨hmay, hunknown⟩ :=
    scanDependencies_spec state paramFacts.directDeps paramFacts.hasOpaqueExternalCall
  obtain ⟨hmay', hunknown'⟩ := scanIndirectCalls_spec state paramFacts.indirectDeps hknown
    (scanDependencies state paramFacts.directDeps paramFacts.hasOpaqueExternalCall).2
  rw [hforall, hexists, hexists, ← hmay, ← hmay']
  unfold nextState
  cases hhard : paramFacts.hardEscape with
  | true => simp
  | false =>
    simp only [Bool.false_eq_true, if_false, false_or, true_and]
    cases hscan : (scanDependencies state paramFacts.directDeps
        paramFacts.hasOpaqueExternalCall).1 with
    | true => simp
    | false =>
      simp only [Bool.false_eq_true, if_false, false_or]
      cases hscan' : (scanIndirectCalls state paramFacts.indirectDeps
          (scanDependencies state paramFacts.directDeps
            paramFacts.hasOpaqueExternalCall).2).1 with
      | true => simp
      | false =>
        have hfound := (hunknown' hscan').trans (or_congr_left (hunknown hscan))
        simp only [Bool.false_eq_true, if_false, not_false_iff, true_and]
        rw [or_assoc, ← hexists .unknown] at hfound
        rw [← hexists .unknown]
        split_ifs with hu
        · refine ⟨by simp, iff_of_false (by simp) ?_⟩
          rintro ⟨hcallOut, hnone⟩
          rcases hfound.mp hu with h | h
          · exact Bool.false_ne_true (hcallOut.symm.trans h)
          · exact hnone h
        · obtain ⟨hcallOut, hnone⟩ := not_or.mp (mt hfound.mpr hu)
          exact ⟨by simp, iff_of_true rfl ⟨eq_false_of_ne_true hcallOut, hnone⟩⟩

end NextState

/-! ## The table -/

/-- A parameter: whether it is a pointer, and its facts. They are collected for pointers only. -/
structure Param (F : Type*) where
  isPointerLike : Bool
  facts : ParamEscapeFacts F
  collected : isPointerLike = false → facts = .none

/-- `FunctionEscapeFacts`: the parameters of a function. -/
abbrev FunctionEscapeFacts (F : Type*) := List (Param F)

/-- `FunctionEscapeFactsMap`. Its entries stand in the order in which the table is iterated. -/
abbrev FunctionEscapeFactsMap (F : Type*) := EntryMap F (FunctionEscapeFacts F)

/-- `FunctionEscapeSummaryMap`: the state of each parameter of a function in the table. -/
abbrev FunctionEscapeSummaryMap (F : Type*) := F × ℕ → EscapeSummaryState

section Build

variable {F : Type*} [DecidableEq F]

/-- A parameter of a function in the table. -/
def param? (factsMap : FunctionEscapeFactsMap F) (p : F × ℕ) : Option (Param F) :=
  (factsMap.find p.1).bind fun params => params[p.2]?

/-- `summaryStateForArg`. -/
def summaryStateForArg (factsMap : FunctionEscapeFactsMap F)
    (summaries : FunctionEscapeSummaryMap F) (p : F × ℕ) : EscapeSummaryState :=
  if (param? factsMap p).isSome then summaries p else .unknown

/-- How the states are iterated. -/
def escapeSystem (factsMap : FunctionEscapeFactsMap F) : System (F × ℕ) EscapeSummaryState where
  eval p summaries :=
    match param? factsMap p with
    | some param => nextState (summaryStateForArg factsMap summaries) param.facts
    | none => summaries p
  same lhs rhs := decide (lhs = rhs)

/-- The pointer parameters, function by function. -/
def pointerParams (factsMap : FunctionEscapeFactsMap F) : List (F × ℕ) :=
  factsMap.entries.flatMap fun entry =>
    ((List.range entry.2.length).filter fun argIndex =>
      (entry.2[argIndex]?).any Param.isPointerLike).map fun argIndex => (entry.1, argIndex)

/-- The states at the start: pointers are unknown. -/
def initialSummaries (factsMap : FunctionEscapeFactsMap F) : FunctionEscapeSummaryMap F := fun p =>
  if (param? factsMap p).any Param.isPointerLike then .unknown else .noEscape

/-- `kEscapeSummaryMaxIterations`. -/
def kEscapeSummaryMaxIterations : ℕ := 64

/-- `buildFunctionEscapeSummaries`: the states, and `changed` when the loop ends. -/
def buildFunctionEscapeSummaries (factsMap : FunctionEscapeFactsMap F) :
    FunctionEscapeSummaryMap F × Bool :=
  runChanged (escapeSystem factsMap) (pointerParams factsMap) kEscapeSummaryMaxIterations
    (initialSummaries factsMap)

/-! ## Chains of dependencies -/

/-- A parameter is passed to another one. -/
def DependsOn (factsMap : FunctionEscapeFactsMap F) (p q : F × ℕ) : Prop :=
  ∃ param, param? factsMap p = some param ∧ q ∈ param.facts.dependencies

/-- A parameter escapes in its function. -/
def HardEscape (factsMap : FunctionEscapeFactsMap F) (p : F × ℕ) : Prop :=
  ∃ param, param? factsMap p = some param ∧ param.facts.hardEscape = true

/-- **A chain of dependencies leads to a hard escape.** -/
def Escapes (factsMap : FunctionEscapeFactsMap F) (p : F × ℕ) : Prop :=
  ∃ q, Relation.ReflTransGen (DependsOn factsMap) p q ∧ HardEscape factsMap q

/-- A parameter reaches an opaque external call in its function. -/
def ReachesOpaqueCall (factsMap : FunctionEscapeFactsMap F) (p : F × ℕ) : Prop :=
  ∃ param, param? factsMap p = some param ∧ param.facts.hasOpaqueExternalCall = true

/-- A parameter is one of a function in the table. -/
def InTable (factsMap : FunctionEscapeFactsMap F) (p : F × ℕ) : Prop :=
  (param? factsMap p).isSome = true

/-- A pointer parameter of a function in the table. -/
def IsPointerParam (factsMap : FunctionEscapeFactsMap F) (p : F × ℕ) : Prop :=
  ∃ param, param? factsMap p = some param ∧ param.isPointerLike = true

/-- No indirect call has an unknown target. -/
def TargetsKnown (factsMap : FunctionEscapeFactsMap F) : Prop :=
  ∀ entry ∈ factsMap.entries, ∀ param ∈ entry.2, ∀ dep ∈ param.facts.indirectDeps,
    dep.hasUnknownTarget = false

/-- **All chains of dependencies end**, in parameters that neither escape nor reach an opaque
call. -/
inductive Safe (factsMap : FunctionEscapeFactsMap F) : F × ℕ → Prop
  | intro {p : F × ℕ} {param : Param F} (hparam : param? factsMap p = some param)
      (hhard : param.facts.hardEscape = false)
      (hcallOut : param.facts.hasOpaqueExternalCall = false)
      (hdeps : ∀ q ∈ param.facts.dependencies, Safe factsMap q) : Safe factsMap p

/-! ## The states -/

section States

variable {factsMap : FunctionEscapeFactsMap F} {σ : FunctionEscapeSummaryMap F} {p : F × ℕ}
variable {param : Param F}

theorem mem_pointerParams : p ∈ pointerParams factsMap ↔ IsPointerParam factsMap p := by
  obtain ⟨callee, argIndex⟩ := p
  unfold pointerParams IsPointerParam param?
  simp only [List.mem_flatMap, List.mem_map, List.mem_filter, List.mem_range, Prod.mk.injEq]
  constructor
  · rintro ⟨⟨f, params⟩, hentry, i, ⟨-, hpointer⟩, rfl, rfl⟩
    cases hget : params[i]? with
    | none => simp [hget] at hpointer
    | some param =>
      refine ⟨param, ?_, by simpa [hget] using hpointer⟩
      rw [EntryMap.find_eq_some_iff.mpr hentry]
      exact hget
  · rintro ⟨param, hparam, hpointer⟩
    obtain ⟨params, hfind, hget⟩ := Option.bind_eq_some_iff.mp hparam
    exact ⟨(callee, params), EntryMap.find_eq_some_iff.mp hfind, argIndex,
      ⟨(List.getElem?_eq_some_iff.mp hget).1, by simp [hget, hpointer]⟩, rfl, rfl⟩

/-- The unknown targets of a parameter. -/
theorem TargetsKnown.facts (hknown : TargetsKnown factsMap)
    (hparam : param? factsMap p = some param) :
    ∀ dep ∈ param.facts.indirectDeps, dep.hasUnknownTarget = false := by
  obtain ⟨params, hparams, hget⟩ := Option.bind_eq_some_iff.mp hparam
  exact hknown (p.1, params) (EntryMap.find_eq_some_iff.mp hparams) param
    (List.mem_of_getElem? hget)

/-- The invariant: a state that is not unknown has a reason, and parameters that are no pointers do
not escape. -/
def Sound (factsMap : FunctionEscapeFactsMap F) (σ : FunctionEscapeSummaryMap F) : Prop :=
  ∀ p, InTable factsMap p → (σ p = .mayEscape → Escapes factsMap p) ∧
    (σ p = .noEscape → Safe factsMap p) ∧ (¬ IsPointerParam factsMap p → σ p = .noEscape)

/-- What escapes or is safe is in the table. -/
theorem Escapes.inTable (h : Escapes factsMap p) : InTable factsMap p := by
  obtain ⟨q, hpq, param, hparam, -⟩ := h
  rcases Relation.ReflTransGen.cases_head hpq with rfl | ⟨r, ⟨param', hparam', -⟩, -⟩
  · exact Option.isSome_iff_exists.mpr ⟨param, hparam⟩
  · exact Option.isSome_iff_exists.mpr ⟨param', hparam'⟩

theorem Safe.inTable (h : Safe factsMap p) : InTable factsMap p := by
  cases h with
  | intro hparam => exact Option.isSome_iff_exists.mpr ⟨_, hparam⟩

/-- A state that is known is that of a parameter in the table. -/
theorem summaryStateForArg_eq {s : EscapeSummaryState} (hs : s ≠ .unknown) :
    summaryStateForArg factsMap σ p = s ↔ InTable factsMap p ∧ σ p = s := by
  unfold summaryStateForArg InTable
  split_ifs with h
  · simp [h]
  · simp [h, hs.symm]

omit [DecidableEq F] in
/-- Only pointers escape or are passed on. -/
theorem Param.isPointerLike_of_facts (h : param.facts ≠ .none) : param.isPointerLike = true := by
  by_contra hnot
  exact h (param.collected (eq_false_of_ne_true hnot))

/-- A parameter that is no pointer is safe. -/
theorem safe_of_not_pointer (hin : InTable factsMap p) (h : ¬ IsPointerParam factsMap p) :
    Safe factsMap p := by
  obtain ⟨param, hparam⟩ := Option.isSome_iff_exists.mp hin
  have hfacts := param.collected (eq_false_of_ne_true fun hpointer => h ⟨param, hparam, hpointer⟩)
  refine .intro hparam ?_ ?_ ?_ <;>
    simp [hfacts, ParamEscapeFacts.none, ParamEscapeFacts.dependencies]

/-- The states at the start are sound. -/
theorem sound_initialSummaries : Sound factsMap (initialSummaries factsMap) := by
  intro p hin
  have hstate : initialSummaries factsMap p =
      if (param? factsMap p).any Param.isPointerLike then .unknown else .noEscape := rfl
  have hpointer : (param? factsMap p).any Param.isPointerLike = true ↔
      IsPointerParam factsMap p := by
    unfold IsPointerParam
    cases param? factsMap p <;> simp
  rw [hstate]
  split_ifs with h
  · exact ⟨by simp, by simp, fun hnot => absurd (hpointer.mp h) hnot⟩
  · have hnot := mt hpointer.mpr h
    exact ⟨by simp, fun _ => safe_of_not_pointer hin hnot, fun _ => rfl⟩

/-- **One update** keeps the states sound. -/
theorem Sound.update (hknown : TargetsKnown factsMap) (hσ : Sound factsMap σ)
    (hp : p ∈ pointerParams factsMap) :
    Sound factsMap (Function.update σ p ((escapeSystem factsMap).eval p σ)) := by
  obtain ⟨param, hparam, hpointer⟩ := mem_pointerParams.mp hp
  have heval : (escapeSystem factsMap).eval p σ =
      nextState (summaryStateForArg factsMap σ) param.facts := by
    simp only [escapeSystem, hparam]
  obtain ⟨hmay, hno⟩ := nextState_spec (summaryStateForArg factsMap σ) (hknown.facts hparam)
  intro q hin
  by_cases hqp : q = p
  · subst hqp
    rw [Function.update_self, heval]
    refine ⟨fun h => ?_, fun h => ?_, fun hnot => absurd ⟨param, hparam, hpointer⟩ hnot⟩
    · rcases hmay.mp h with hhard | ⟨r, hr, hstate⟩
      · exact ⟨q, .refl, param, hparam, hhard⟩
      · obtain ⟨hrin, hr'⟩ := (summaryStateForArg_eq (by simp)).mp hstate
        obtain ⟨t, hrt, ht⟩ := (hσ r hrin).1 hr'
        exact ⟨t, .head ⟨param, hparam, hr⟩ hrt, ht⟩
    · obtain ⟨hhard, hcallOut, hdeps⟩ := hno.mp h
      refine .intro hparam hhard hcallOut fun r hr => ?_
      obtain ⟨hrin, hr'⟩ := (summaryStateForArg_eq (by simp)).mp (hdeps r hr)
      exact (hσ r hrin).2.1 hr'
  · rw [Function.update_of_ne hqp]
    exact hσ q hin

theorem escapeSystem_lawful : (escapeSystem factsMap).Lawful := fun _ _ => decide_eq_true_iff

/-- **The states are sound when the loop ends.** -/
theorem sound_buildFunctionEscapeSummaries (hknown : TargetsKnown factsMap) :
    Sound factsMap (buildFunctionEscapeSummaries factsMap).1 :=
  runChanged_induction escapeSystem_lawful (fun _ hp _ hσ => hσ.update hknown hp) _
    sound_initialSummaries

/-- No chain of dependencies of a safe parameter ends badly. -/
theorem Safe.chain {q : F × ℕ} (h : Safe factsMap p)
    (hpq : Relation.ReflTransGen (DependsOn factsMap) p q) :
    InTable factsMap q ∧ ¬ HardEscape factsMap q ∧ ¬ ReachesOpaqueCall factsMap q := by
  have hq : Safe factsMap q := by
    induction hpq with
    | refl => exact h
    | tail _ hstep ih =>
      obtain ⟨param, hparam, hdep⟩ := hstep
      cases ih with
      | intro hparam' _ _ hdeps =>
        rw [hparam] at hparam'
        exact hdeps _ (Option.some.inj hparam' ▸ hdep)
  refine ⟨hq.inTable, ?_⟩
  cases hq with
  | intro hparam hhard hcallOut _ =>
    refine ⟨?_, ?_⟩
    · rintro ⟨param, hparam', hhard'⟩
      rw [hparam, Option.some.injEq] at hparam'
      exact Bool.false_ne_true (hhard.symm.trans (hparam' ▸ hhard'))
    · rintro ⟨param, hparam', hcallOut'⟩
      rw [hparam, Option.some.injEq] at hparam'
      exact Bool.false_ne_true (hcallOut.symm.trans (hparam' ▸ hcallOut'))

section Fixpoint

variable (hfix : IsFixpoint (escapeSystem factsMap) (pointerParams factsMap) σ)
include hfix

/-- The state of a pointer at a fixpoint. -/
theorem state_eq_nextState (hparam : param? factsMap p = some param)
    (hpointer : param.isPointerLike = true) :
    σ p = nextState (summaryStateForArg factsMap σ) param.facts := by
  rw [← hfix p (mem_pointerParams.mpr ⟨param, hparam, hpointer⟩)]
  simp only [escapeSystem, hparam]

variable (hknown : TargetsKnown factsMap) (hσ : Sound factsMap σ)
include hknown hσ

/-- **At a fixpoint a parameter may escape iff a chain leads to a hard escape.** -/
theorem mayEscape_iff (hin : InTable factsMap p) : σ p = .mayEscape ↔ Escapes factsMap p := by
  refine ⟨(hσ p hin).1, ?_⟩
  rintro ⟨q, hpq, hq⟩
  clear hin
  induction hpq using Relation.ReflTransGen.head_induction_on with
  | refl =>
    obtain ⟨param, hparam, hhard⟩ := hq
    have hpointer : param.isPointerLike = true := Param.isPointerLike_of_facts fun h => by
      rw [h] at hhard
      exact Bool.false_ne_true hhard
    rw [state_eq_nextState hfix hparam hpointer]
    exact (nextState_spec _ (hknown.facts hparam)).1.mpr (Or.inl hhard)
  | head hstep hrest ih =>
    obtain ⟨param, hparam, hdep⟩ := hstep
    have hpointer : param.isPointerLike = true := Param.isPointerLike_of_facts fun h => by
      rw [h] at hdep
      exact List.not_mem_nil hdep
    rw [state_eq_nextState hfix hparam hpointer]
    refine (nextState_spec _ (hknown.facts hparam)).1.mpr (Or.inr ⟨_, hdep, ?_⟩)
    exact (summaryStateForArg_eq (by simp)).mpr ⟨Escapes.inTable ⟨q, hrest, hq⟩, ih⟩

/-- **At a fixpoint a parameter does not escape iff all chains end well.** -/
theorem noEscape_iff (hin : InTable factsMap p) : σ p = .noEscape ↔ Safe factsMap p := by
  refine ⟨(hσ p hin).2.1, fun h => ?_⟩
  clear hin
  induction h with
  | @intro p param hparam hhard hcallOut hdeps ih =>
    by_cases hpointer : param.isPointerLike = true
    · rw [state_eq_nextState hfix hparam hpointer]
      exact (nextState_spec _ (hknown.facts hparam)).2.mpr ⟨hhard, hcallOut, fun q hq =>
        (summaryStateForArg_eq (by simp)).mpr ⟨(hdeps q hq).inTable, ih q hq⟩⟩
    · refine (hσ p (Option.isSome_iff_exists.mpr ⟨param, hparam⟩)).2.2 ?_
      rintro ⟨param', hparam', hpointer'⟩
      rw [hparam, Option.some.injEq] at hparam'
      exact hpointer (hparam' ▸ hpointer')

end Fixpoint

end States

/-! ## The order of the table -/

section Order

variable {factsMap factsMap' : FunctionEscapeFactsMap F} {p : F × ℕ}

theorem param?_congr_perm (h : factsMap.entries.Perm factsMap'.entries) :
    param? factsMap' = param? factsMap := by
  funext p
  rw [param?, param?, EntryMap.find_congr_perm h]

theorem escapes_congr (h : param? factsMap' = param? factsMap) :
    Escapes factsMap' p ↔ Escapes factsMap p := by
  unfold Escapes DependsOn HardEscape
  rw [h]

theorem Safe.congr (h : param? factsMap' = param? factsMap) (hsafe : Safe factsMap p) :
    Safe factsMap' p := by
  induction hsafe with
  | intro hparam hhard hcallOut _ ih => exact .intro (h ▸ hparam) hhard hcallOut ih

end Order

end Build

/-- **Escape summaries are right, in every order of the table.** When the loop ends, also at its
cap, a pointer parameter that may escape has a chain of dependencies to a hard escape, and one that
does not escape has no chain to a hard escape, to an opaque call or out of the table. If nothing has
changed in the last round, every parameter with a chain to a hard escape may escape, and the table
yields the same states in every other order in which nothing has changed in the last round.

**Proof sketch.** One update keeps it true that states which are known have a reason. At a fixpoint
every reason has had its effect: by induction along the chain for parameters that escape, and over
all chains for those that are safe. So a fixpoint is determined by the table. -/
theorem buildFunctionEscapeSummaries_correct {F : Type*} [DecidableEq F]
    (factsMap : FunctionEscapeFactsMap F) (hknown : TargetsKnown factsMap) :
    let r := buildFunctionEscapeSummaries factsMap
    (∀ p, IsPointerParam factsMap p → (r.1 p = .mayEscape → Escapes factsMap p) ∧
        (r.1 p = .noEscape → ∀ q, Relation.ReflTransGen (DependsOn factsMap) p q →
          InTable factsMap q ∧ ¬ HardEscape factsMap q ∧ ¬ ReachesOpaqueCall factsMap q)) ∧
      (r.2 = false →
        (∀ p, IsPointerParam factsMap p → (r.1 p = .mayEscape ↔ Escapes factsMap p)) ∧
          ∀ factsMap' : FunctionEscapeFactsMap F, factsMap.entries.Perm factsMap'.entries →
            (buildFunctionEscapeSummaries factsMap').2 = false →
              ∀ p, IsPointerParam factsMap p →
                (buildFunctionEscapeSummaries factsMap').1 p = r.1 p) := by
  intro r
  have hsound := sound_buildFunctionEscapeSummaries hknown
  have hin : ∀ p, IsPointerParam factsMap p → InTable factsMap p := fun p ⟨param, hparam, _⟩ =>
    Option.isSome_iff_exists.mpr ⟨param, hparam⟩
  refine ⟨fun p hp => ⟨(hsound p (hin p hp)).1, fun hno q hpq =>
    ((hsound p (hin p hp)).2.1 hno).chain hpq⟩, fun hconverged => ?_⟩
  have hfix := isFixpoint_of_runChanged escapeSystem_lawful hconverged
  refine ⟨fun p hp => mayEscape_iff hfix hknown hsound (hin p hp), ?_⟩
  intro factsMap' hperm hconverged' p hp
  have hparam := param?_congr_perm hperm
  have hknown' : TargetsKnown factsMap' := fun entry hentry =>
    hknown entry (hperm.mem_iff.mpr hentry)
  have hsound' := sound_buildFunctionEscapeSummaries hknown'
  have hfix' := isFixpoint_of_runChanged escapeSystem_lawful hconverged'
  have hin' : InTable factsMap' p := by
    unfold InTable
    rw [hparam]
    exact hin p hp
  have hmay := (mayEscape_iff hfix hknown hsound (hin p hp)).trans (escapes_congr hparam).symm
  have hno := noEscape_iff hfix hknown hsound (hin p hp)
  have hmay' := mayEscape_iff hfix' hknown' hsound' hin'
  have hno' := noEscape_iff hfix' hknown' hsound' hin'
  cases hstate : r.1 p with
  | mayEscape => exact hmay'.mpr (hmay.mp hstate)
  | noEscape => exact hno'.mpr ((hno.mp hstate).congr hparam)
  | unknown =>
    -- neither of the two reasons is there
    cases hstate' : (buildFunctionEscapeSummaries factsMap').1 p with
    | mayEscape =>
      have h := hmay.mpr (hmay'.mp hstate')
      exact absurd (hstate.symm.trans h) (by simp)
    | noEscape =>
      have h := hno.mpr ((hno'.mp hstate').congr hparam.symm)
      exact absurd (hstate.symm.trans h) (by simp)
    | unknown => rfl

/-- Three functions with one pointer parameter each: the first passes it to the second, the second
to itself and through an indirect call to the third, which lets it escape. -/
def forwardedPointer : FunctionEscapeFactsMap ℕ where
  entries :=
    [(0, [⟨true, ⟨[⟨1, 0⟩], [], false, false⟩, by simp⟩]),
      (1, [⟨true, ⟨[⟨1, 0⟩], [⟨[⟨2, 0⟩], false⟩], false, false⟩, by simp⟩]),
      (2, [⟨true, ⟨[], [], true, false⟩, by simp⟩])]
  nodup := by decide

/-- The pointer of the first function is found to escape, and a chain of dependencies shows why. -/
theorem buildFunctionEscapeSummaries_forwardedPointer :
    (buildFunctionEscapeSummaries forwardedPointer).2 = false ∧
      (buildFunctionEscapeSummaries forwardedPointer).1 (0, 0) = .mayEscape ∧
        Escapes forwardedPointer (0, 0) := by
  have hconverged : (buildFunctionEscapeSummaries forwardedPointer).2 = false := by decide
  have hstate : (buildFunctionEscapeSummaries forwardedPointer).1 (0, 0) = .mayEscape := by decide
  obtain ⟨-, hright⟩ :=
    buildFunctionEscapeSummaries_correct forwardedPointer (by unfold TargetsKnown; decide)
  exact ⟨hconverged, hstate, ((hright hconverged).1 (0, 0) ⟨_, rfl, rfl⟩).mp hstate⟩

end StackAnalyzer.Escape
