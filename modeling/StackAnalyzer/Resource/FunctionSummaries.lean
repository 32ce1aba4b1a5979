import StackAnalyzer.CrossTU.ResourceIndex
import StackAnalyzer.Dataflow.RoundRobin
import StackAnalyzer.Names.Mangle

set_option relaxedAutoImplicit false
set_option autoImplicit false

/-!
# Resource summaries of functions

The effects of a function on the resources of its callers: those of the calls that rules of the
resource model match, and those of its callees, mapped to its own arguments. The summaries of a
module are iterated in place, in the order of the functions, starting from empty summaries. Callees
of other modules are looked up in an index of external summaries.

## Main definitions

* `StackAnalyzer.Resource.CallSite`, `StackAnalyzer.Resource.Function` — a call with what the
  analysis of pointers says about it, and a function.
* `StackAnalyzer.Resource.buildFunctionLifetimeSummary`,
  `StackAnalyzer.Resource.computeFunctionLifetimeSummaries` — the summary of a function, and the
  summaries of a module.
* `StackAnalyzer.Resource.buildResourceLifetimeSummaryIndex` — the index of a module.

## Main results

* `StackAnalyzer.Resource.mem_buildFunctionLifetimeSummary`,
  `StackAnalyzer.Resource.buildFunctionLifetimeSummary_congr` — a summary consists of the effects
  of the calls, and depends on nothing else.
-/

namespace StackAnalyzer.Resource

open CrossTU

deriving instance DecidableEq for ParamLifetimeEffect

/-- `FunctionLifetimeSummary`: its effects. -/
abbrev FunctionLifetimeSummary := List ParamLifetimeEffect

/-- A `StorageKey` whose scope is an argument or a field of it, with `argumentIndex >= 0`. -/
structure ArgStorage where
  argumentIndex : ℕ
  offset : ℕ

/-- A rule of the resource model that matches the callee of a call: whether the call has the
argument of the rule, the storage of this argument, for an out pointer that is loaded from a slot
also the storage of the slot, and whether its content may reach a return. -/
structure MatchedRule where
  action : RuleAction
  resourceKind : CppString
  hasArg : Bool
  storage : Option ArgStorage
  slotStorage : Option ArgStorage
  contentReachesReturn : Bool

/-- A `CallBase`: the function it resolves to (`resolveDirectCallee`), whether `getCalledFunction`
yields it too, the rules that match it, whether its type is `void`, whether its value may reach a
return, the storages it is stored to, and `mapSummaryEffectToCallerStorage` with
`usedFallback`. -/
structure CallSite where
  callee : Option ℕ
  isCalledFunction : Bool
  rules : List MatchedRule
  isVoid : Bool
  reachesReturn : Bool
  storeDests : List ArgStorage
  mapStorage : ParamLifetimeEffect → Option (ArgStorage × Bool)

/-- A function of a module. -/
structure Function where
  name : CppString
  isDeclaration : Bool
  hasLocalLinkage : Bool
  isCtor : Bool
  isDtor : Bool
  shouldAnalyze : Bool
  calls : List CallSite

/-- The functions of a module, in order. -/
abbrev Module := List Function

/-! ## The summary of a function -/

/-- The effects of a rule that matches the callee of a call. -/
def MatchedRule.effects (call : CallSite) (rule : MatchedRule) : List ParamLifetimeEffect :=
  match rule.action with
  | .acquireOut =>
    if rule.hasArg then
      (match rule.storage, rule.slotStorage with
        | some s, _ => [⟨.acquireOut, s.argumentIndex, s.offset, false, rule.resourceKind⟩]
        | none, some s => [⟨.acquireOut, s.argumentIndex, s.offset, true, rule.resourceKind⟩]
        | none, none => []) ++
        if rule.contentReachesReturn then [⟨.acquireRet, 0, 0, false, rule.resourceKind⟩] else []
    else []
  | .releaseArg =>
    match rule.hasArg, rule.storage with
    | true, some s => [⟨.releaseArg, s.argumentIndex, s.offset, false, rule.resourceKind⟩]
    | _, _ => []
  | .acquireRet =>
    if call.isVoid || !call.reachesReturn then []
    else [⟨.acquireRet, 0, 0, false, rule.resourceKind⟩]

/-- The effects on the caller of an effect of the callee. -/
def CallSite.mapEffect (call : CallSite) (calleeEffect : ParamLifetimeEffect) :
    List ParamLifetimeEffect :=
  match calleeEffect.action with
  | .acquireRet =>
    if call.isVoid then []
    else
      (call.storeDests.map fun s =>
        ⟨.acquireOut, s.argumentIndex, s.offset, false, calleeEffect.resourceKind⟩) ++
        if call.reachesReturn then [⟨.acquireRet, 0, 0, false, calleeEffect.resourceKind⟩] else []
  | action =>
    match call.mapStorage calleeEffect with
    | some (s, usedFallback) =>
      [⟨action, s.argumentIndex, s.offset, usedFallback, calleeEffect.resourceKind⟩]
    | none => []

/-- `addSummaryEffect`: the effects, and the keys that have been added. -/
def addSummaryEffect (r : FunctionLifetimeSummary × List CppString)
    (effect : ParamLifetimeEffect) : FunctionLifetimeSummary × List CppString :=
  if effect.encodeSummaryEffectKey ∈ r.2 then r
  else (r.1 ++ [effect], effect.encodeSummaryEffectKey :: r.2)

/-- Sort effects by their keys. -/
def sortEffects (effects : FunctionLifetimeSummary) : FunctionLifetimeSummary :=
  effects.insertionSort fun lhs rhs => lhs.encodeSummaryEffectKey ≤ rhs.encodeSummaryEffectKey

section Summary

variable (mod : Module) (summaries : ℕ → Option FunctionLifetimeSummary)
variable (external : CppString → Option FunctionLifetimeSummary)

/-- The summary of a callee: that of the module for a definition that is neither constructor nor
destructor, else the external one. Functions of the standard library have none. -/
def calleeSummary (idx : ℕ) (callee : Function) : Option FunctionLifetimeSummary :=
  if isStdLibCalleeName callee.name then none
  else if callee.isDeclaration then external (canonicalizeMangledName callee.name)
  else
    (if callee.isCtor || callee.isDtor then none else summaries idx).or
      (external (canonicalizeMangledName callee.name))

/-- The effects of a call: those of the rules if any matches, else those of the callee. -/
def CallSite.effects (call : CallSite) : List ParamLifetimeEffect :=
  match call.callee with
  | none => []
  | some idx =>
    match mod[idx]? with
    | none => []
    | some callee =>
      if call.rules.isEmpty then
        ((calleeSummary summaries external idx callee).getD []).flatMap call.mapEffect
      else call.rules.flatMap (MatchedRule.effects call)

/-- `buildFunctionLifetimeSummary`. -/
def buildFunctionLifetimeSummary (F : Function) : FunctionLifetimeSummary :=
  sortEffects ((F.calls.flatMap fun call => call.effects mod summaries external).foldl
    addSummaryEffect ([], [])).1

end Summary

/-- `functionLifetimeSummaryEquals`. -/
def functionLifetimeSummaryEquals (lhs rhs : FunctionLifetimeSummary) : Bool :=
  lhs.map ParamLifetimeEffect.encodeSummaryEffectKey ==
    rhs.map ParamLifetimeEffect.encodeSummaryEffectKey

/-! ## The summaries of a module -/

section Module

variable (mod : Module) (external : CppString → Option FunctionLifetimeSummary)

/-- A definition outside the standard library has a summary. -/
def hasSummary (i : ℕ) : Bool :=
  (mod[i]?).any fun F => !F.isDeclaration && !isStdLibCalleeName F.name

/-- The functions with a summary, in the order of the module. -/
def summaryOrder : List ℕ := (List.range mod.length).filter (hasSummary mod)

/-- `functionSummaries`, from the values of the functions that have a summary. -/
def functionSummaries (values : ℕ → FunctionLifetimeSummary) (i : ℕ) :
    Option FunctionLifetimeSummary :=
  if hasSummary mod i then some (values i) else none

/-- How the summaries are iterated. -/
def summarySystem : RoundRobin.System ℕ FunctionLifetimeSummary where
  eval i values :=
    ((mod[i]?).map (buildFunctionLifetimeSummary mod (functionSummaries mod values)
      external)).getD []
  same := functionLifetimeSummaryEquals

/-- `computeFunctionLifetimeSummaries`: at most eight rounds. -/
def computeFunctionLifetimeSummaries : ℕ → Option FunctionLifetimeSummary :=
  functionSummaries mod
    (RoundRobin.run (summarySystem mod external) (summaryOrder mod) 8 fun _ => [])

end Module

/-! ## Indexes -/

/-- `importExternalSummaryMap`. -/
def importExternalSummaryMap (externalSummaries : ResourceSummaryIndex) (name : CppString) :
    Option FunctionLifetimeSummary :=
  (externalSummaries.entries.find? fun entry => canonicalizeMangledName entry.1 == name).map
    fun entry => sortEffects (entry.2.map ResourceSummaryEffect.toParam)

/-- `toPublicSummaryAction`. -/
def toPublicSummaryAction : RuleAction → ResourceSummaryAction
  | .acquireOut => .acquireOut
  | .acquireRet => .acquireRet
  | .releaseArg => .releaseArg

/-- The effect with the action of the index. -/
def toPublicEffect (effect : ParamLifetimeEffect) : ResourceSummaryEffect where
  action := toPublicSummaryAction effect.action
  argIndex := effect.argIndex
  offset := effect.offset
  viaPointerSlot := effect.viaPointerSlot
  resourceKind := effect.resourceKind

/-- Export the summary of a function, unless it is a declaration or local to its module. -/
def exportFunction (mod : Module) (summaries : ℕ → Option FunctionLifetimeSummary)
    (out : ResourceSummaryIndex) (i : ℕ) : ResourceSummaryIndex :=
  match mod[i]?, summaries i with
  | some F, some summary =>
    if F.isDeclaration || F.hasLocalLinkage then out
    else out.assign (canonicalizeMangledName F.name) (summary.map toPublicEffect)
  | _, _ => out

/-- `exportSummaryIndexForModule`. -/
def exportSummaryIndexForModule (mod : Module) (summaries : ℕ → Option FunctionLifetimeSummary) :
    ResourceSummaryIndex :=
  (List.range mod.length).foldl (exportFunction mod summaries) Maps.EntryMap.empty

/-- `buildResourceLifetimeSummaryIndex`: nothing is summarised without a model that has rules. -/
def buildResourceLifetimeSummaryIndex (hasRules : Bool) (mod : Module)
    (externalSummaries : ResourceSummaryIndex) : ResourceSummaryIndex :=
  if hasRules then
    exportSummaryIndexForModule mod
      (computeFunctionLifetimeSummaries mod (importExternalSummaryMap externalSummaries))
  else Maps.EntryMap.empty

/-! ## What a summary consists of -/

/-- An effect is determined by its key. -/
theorem encodeSummaryEffectKey_injective :
    Function.Injective ParamLifetimeEffect.encodeSummaryEffectKey := by
  rintro ⟨a, i, o, v, k⟩ ⟨a', i', o', v', k'⟩ h
  obtain ⟨ha, hi, ho, hv, hk⟩ := effectKey_inj h
  have haction : a.toNat = a'.toNat → a = a' := by cases a <;> cases a' <;> decide
  rw [ParamLifetimeEffect.mk.injEq]
  exact ⟨haction ha, hi, ho, hv, hk⟩

/-- The comparison of summaries decides equality. -/
theorem functionLifetimeSummaryEquals_iff (lhs rhs : FunctionLifetimeSummary) :
    functionLifetimeSummaryEquals lhs rhs = true ↔ lhs = rhs := by
  rw [functionLifetimeSummaryEquals, beq_iff_eq]
  exact (List.map_injective_iff.mpr encodeSummaryEffectKey_injective).eq_iff

/-- Adding effects keeps each of them once. -/
theorem foldl_addSummaryEffect_spec (effects : List ParamLifetimeEffect)
    (r : FunctionLifetimeSummary × List CppString)
    (hkeys : ∀ e : ParamLifetimeEffect, e.encodeSummaryEffectKey ∈ r.2 ↔ e ∈ r.1)
    (hnodup : r.1.Nodup) :
    (∀ e, e ∈ (effects.foldl addSummaryEffect r).1 ↔ e ∈ r.1 ∨ e ∈ effects) ∧
      (effects.foldl addSummaryEffect r).1.Nodup := by
  induction effects generalizing r with
  | nil => exact ⟨by simp, hnodup⟩
  | cons s effects ih =>
    rw [List.foldl_cons]
    by_cases hs : s ∈ r.1
    · have hskip : addSummaryEffect r s = r := if_pos ((hkeys s).mpr hs)
      rw [hskip]
      obtain ⟨hmem, hnd⟩ := ih r hkeys hnodup
      refine ⟨fun e => ?_, hnd⟩
      rw [hmem, List.mem_cons]
      refine ⟨fun h => h.imp_right Or.inr, ?_⟩
      rintro (h | rfl | h)
      · exact Or.inl h
      · exact Or.inl hs
      · exact Or.inr h
    · have hpush : addSummaryEffect r s = (r.1 ++ [s], s.encodeSummaryEffectKey :: r.2) :=
        if_neg fun h => hs ((hkeys s).mp h)
      rw [hpush]
      obtain ⟨hmem, hnd⟩ := ih (r.1 ++ [s], s.encodeSummaryEffectKey :: r.2) (fun e => by
        rw [List.mem_cons, List.mem_append, List.mem_singleton, hkeys, or_comm,
          encodeSummaryEffectKey_injective.eq_iff])
        (hnodup.append (List.nodup_singleton s) (List.disjoint_singleton.mpr hs))
      refine ⟨fun e => ?_, hnd⟩
      rw [hmem]
      simp only [List.mem_append, List.mem_cons, List.not_mem_nil, false_or, or_assoc]

/-- Lists of the same effects are sorted to the same list, if they carry no duplicates. -/
theorem sortEffects_eq {a b : FunctionLifetimeSummary} (ha : a.Nodup) (hb : b.Nodup)
    (h : ∀ e, e ∈ a ↔ e ∈ b) : sortEffects a = sortEffects b := by
  let le : ParamLifetimeEffect → ParamLifetimeEffect → Prop := fun lhs rhs =>
    lhs.encodeSummaryEffectKey ≤ rhs.encodeSummaryEffectKey
  have htotal : Std.Total le := ⟨fun x y => le_total _ _⟩
  have htrans : IsTrans ParamLifetimeEffect le := ⟨fun x y z => le_trans⟩
  have hanti : Std.Antisymm le :=
    ⟨fun x y h h' => encodeSummaryEffectKey_injective (le_antisymm h h')⟩
  refine List.Perm.eq_of_pairwise' (r := le) (List.pairwise_insertionSort le a)
    (List.pairwise_insertionSort le b) ?_
  exact ((List.perm_insertionSort le a).trans ((List.perm_ext_iff_of_nodup ha hb).mpr h)).trans
    (List.perm_insertionSort le b).symm

section Summary

variable {mod : Module} {summaries summaries' : ℕ → Option FunctionLifetimeSummary}
variable {external external' : CppString → Option FunctionLifetimeSummary} {F : Function}

/-- **A summary consists of the effects of the calls.** -/
theorem mem_buildFunctionLifetimeSummary {e : ParamLifetimeEffect} :
    e ∈ buildFunctionLifetimeSummary mod summaries external F ↔
      ∃ call ∈ F.calls, e ∈ call.effects mod summaries external := by
  obtain ⟨hmem, -⟩ := foldl_addSummaryEffect_spec
    (F.calls.flatMap fun call => call.effects mod summaries external) ([], []) (by simp) (by simp)
  rw [buildFunctionLifetimeSummary, sortEffects, List.mem_insertionSort, hmem, List.mem_flatMap]
  simp

/-- **A summary depends on the effects of the calls only.** -/
theorem buildFunctionLifetimeSummary_congr {mod' : Module} {F' : Function}
    (h : ∀ e, (∃ call ∈ F.calls, e ∈ call.effects mod summaries external) ↔
      ∃ call ∈ F'.calls, e ∈ call.effects mod' summaries' external') :
    buildFunctionLifetimeSummary mod summaries external F =
      buildFunctionLifetimeSummary mod' summaries' external' F' := by
  obtain ⟨hmem, hnodup⟩ := foldl_addSummaryEffect_spec
    (F.calls.flatMap fun call => call.effects mod summaries external) ([], []) (by simp) (by simp)
  obtain ⟨hmem', hnodup'⟩ := foldl_addSummaryEffect_spec
    (F'.calls.flatMap fun call => call.effects mod' summaries' external') ([], []) (by simp)
    (by simp)
  refine sortEffects_eq hnodup hnodup' fun e => ?_
  rw [hmem, hmem', List.mem_flatMap, List.mem_flatMap]
  simpa using h e

end Summary

end StackAnalyzer.Resource
