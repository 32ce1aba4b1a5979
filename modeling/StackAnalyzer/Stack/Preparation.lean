import StackAnalyzer.Stack.LocalStack
import StackAnalyzer.Stack.Recursion
import StackAnalyzer.Stack.RecursionReports
import StackAnalyzer.Stack.Results

set_option relaxedAutoImplicit false
set_option autoImplicit false

/-!
# The preparation of a module

Before the checks, the frames of all functions of a module are computed, with the calls among them
and the functions that recurse. The components of the call graph that are reported to recurse
forever are marked in the results. A function that is marked never returns, and it can call itself
through functions of the module.

## Main definitions

* `StackAnalyzer.Frames.computeLocalStacks`, `StackAnalyzer.Frames.buildCallGraphFiltered`,
  `StackAnalyzer.Frames.infiniteRecursionFuncs`.
* `StackAnalyzer.Frames.prepareModule` — the prepared module.
* `StackAnalyzer.Frames.CallsDefined` — the calls of a function to another one of the module.
* `StackAnalyzer.Frames.Returns` — the functions that return.

## Main results

* `StackAnalyzer.Frames.mem_callees_iff` — the edges of the call graph.
* `StackAnalyzer.Frames.results_infiniteRecursion` — what the marks of the results say.
-/

namespace StackAnalyzer.Frames

open CrossTU Graph Llvm Llvm.Machine Values

/-! ## Definitions -/

section Functions

variable {F V B : Type*} (mod : Module F V B)

/-- `allDefinedFunctions`. -/
def allDefinedFunctions : List F := mod.functions.filter fun f => !mod.isDeclaration f

theorem mem_allDefinedFunctions {f : F} :
    f ∈ allDefinedFunctions mod ↔ f ∈ mod.functions ∧ mod.isDeclaration f = false := by
  simp [allDefinedFunctions]

end Functions

section Definitions

variable {F V B : Type*} [DecidableEq F] (mod : Module F V B)

/-- The defined functions in the order of their addresses, which is that of the maps. -/
structure AddressOrder where
  order : List F
  nodup : order.Nodup
  mem_iff : ∀ f, f ∈ order ↔ f ∈ allDefinedFunctions mod

/-- The function that an instruction calls, if it is defined in the module. -/
def calledDefinition (inst : V) : Option F :=
  match mod.value inst with
  | .call call => call.calledFunction.filter fun callee =>
      !mod.isDeclaration callee && decide (callee ∈ allDefinedFunctions mod)
  | _ => none

variable {mod} (addresses : AddressOrder mod)

/-- `buildCallGraphFiltered`. -/
def buildCallGraphFiltered : CallGraph F :=
  PtrMap.ofKeys addresses.order
    (fun f => (mod.functionInstructions f).filterMap (calledDefinition mod)) addresses.nodup

variable [DecidableEq V] [Fintype V]

/-- `computeLocalStacks`. -/
def computeLocalStacks (layout : DataLayout) (deriveAllocaName : V → CppString)
    (mode : AnalysisMode) (alignment : Option StackAlignment) :
    PtrMap F StackAnalyzer.LocalStackInfo :=
  PtrMap.ofKeys addresses.order (fun f =>
    let info := computeLocalStack mod layout deriveAllocaName mode alignment f
    ⟨UInt64.ofNat info.bytes, info.unknown⟩) addresses.nodup

variable [DecidableEq B] (solver : EdgeSolver V B) (hasNoRecurseContract : F → Bool)

/-- The loop of `computeRecursionState` over the recursive components. -/
def infiniteRecursionFuncs : Finset F :=
  (computeRecursiveComponents hasNoRecurseContract (buildCallGraphFiltered addresses)
    (allDefinedFunctions mod)).foldl (fun funcs component =>
      if detectInfiniteRecursionComponent mod solver hasNoRecurseContract component then
        funcs ∪ component.toFinset
      else funcs) ∅

/-- `ModulePreparationService::prepare`; the functions that the filter selects are analysed. -/
def prepareModule (layout : DataLayout) (deriveAllocaName : V → CppString) (mode : AnalysisMode)
    (alignment : Option StackAlignment) (shouldAnalyze : F → Bool) (stackLimit : UInt64) :
    PreparedModule F :=
  prepare hasNoRecurseContract (buildCallGraphFiltered addresses)
    (computeLocalStacks addresses layout deriveAllocaName mode alignment)
    ((allDefinedFunctions mod).filter shouldAnalyze) stackLimit
    (infiniteRecursionFuncs addresses solver hasNoRecurseContract)
    (fun f hf => by
      rw [computeLocalStacks, PtrMap.keys_ofKeys, addresses.mem_iff]
      exact List.mem_of_mem_filter hf)

end Definitions

/-! ## The call graph -/

section Calls

variable {F V B : Type*} [DecidableEq F] (mod : Module F V B)

/-- **A call of a function to another one of the module.** -/
def CallsDefined (f g : F) : Prop :=
  g ∈ allDefinedFunctions mod ∧ ∃ inst ∈ mod.functionInstructions f, ∃ call,
    mod.value inst = .call call ∧ call.calledFunction = some g

variable {mod} {f g : F}

/-- The function that an instruction calls. -/
theorem calledDefinition_eq_some {inst : V} : calledDefinition mod inst = some g ↔
    g ∈ allDefinedFunctions mod ∧ ∃ call, mod.value inst = .call call ∧
      call.calledFunction = some g := by
  unfold calledDefinition
  split
  · next call hvalue =>
    rw [Option.filter_eq_some_iff, Bool.and_eq_true, Bool.not_eq_true', decide_eq_true_eq]
    constructor
    · rintro ⟨hcallee, -, hdefined⟩
      exact ⟨hdefined, call, hvalue, hcallee⟩
    · rintro ⟨hdefined, call', hvalue', hcallee⟩
      obtain rfl := Value.call.inj (hvalue.symm.trans hvalue')
      exact ⟨hcallee, ((mem_allDefinedFunctions mod).mp hdefined).2, hdefined⟩
  · next hnot =>
    refine iff_of_false (fun h => by cases h) ?_
    rintro ⟨-, call, hvalue, -⟩
    exact hnot call hvalue

/-- **The edges of the call graph** are the calls between functions of the module. -/
theorem mem_callees_iff (addresses : AddressOrder mod) :
    g ∈ (buildCallGraphFiltered addresses).callees f ↔
      f ∈ allDefinedFunctions mod ∧ CallsDefined mod f g := by
  unfold CallGraph.callees
  by_cases hf : f ∈ allDefinedFunctions mod
  · have hkey : f ∈ addresses.order := (addresses.mem_iff f).mpr hf
    rw [buildCallGraphFiltered, PtrMap.find_ofKeys _ _ _ hkey, Option.getD_some, List.mem_filterMap]
    simp only [calledDefinition_eq_some, CallsDefined, hf, true_and]
    constructor
    · rintro ⟨inst, hinst, hdefined, hcall⟩
      exact ⟨hdefined, inst, hinst, hcall⟩
    · rintro ⟨hdefined, inst, hinst, hcall⟩
      exact ⟨inst, hinst, hdefined, hcall⟩
  · have hkey : f ∉ (buildCallGraphFiltered addresses).keys := by
      rwa [buildCallGraphFiltered, PtrMap.keys_ofKeys, addresses.mem_iff]
    rw [(PtrMap.find_eq_none_iff _ _).mpr hkey]
    simp [hf]

/-- All edges lead to functions of the module. -/
theorem closed_callees (addresses : AddressOrder mod) :
    Closed (buildCallGraphFiltered addresses).callees (allDefinedFunctions mod) :=
  fun _ _ _ hv => ((mem_callees_iff addresses).mp hv).2.1

end Calls

/-! ## Recursive components -/

section Components

variable {F : Type*} [DecidableEq F] {hasNoRecurseContract : F → Bool} {CG : CallGraph F}
variable {nodes component : List F} {f : F}

/-- What is marked component by component. -/
theorem mem_foldl_marks (detect : List F → Bool) (components : List (List F)) (funcs : Finset F) :
    f ∈ components.foldl (fun funcs component =>
        if detect component then funcs ∪ component.toFinset else funcs) funcs ↔
      f ∈ funcs ∨ ∃ component ∈ components, detect component = true ∧ f ∈ component := by
  induction components generalizing funcs with
  | nil => simp
  | cons component components ih =>
    rw [List.foldl_cons, ih]
    split_ifs with hdetect
    · simp [hdetect, or_assoc]
    · simp [hdetect]

/-- The members of a component are nodes that calls lead back to. -/
theorem mem_of_component (hclosed : Closed CG.callees nodes)
    (hcomponent : component ∈ computeRecursiveComponents hasNoRecurseContract CG nodes)
    (hf : f ∈ component) :
    f ∈ nodes ∧ Relation.TransGen (RecEdge hasNoRecurseContract CG) f f := by
  obtain ⟨out, hout, hrun⟩ := exists_components hasNoRecurseContract CG nodes
  rw [computeRecursiveComponents, hrun, emitAll_recursiveComponents, List.nil_append] at hcomponent
  obtain ⟨p, hp, rfl⟩ := List.mem_map.mp hcomponent
  obtain ⟨hp, hrecorded⟩ := List.mem_filter.mp hp
  exact (exists_recorded_iff hclosed hout f).mp ⟨p, hp, hrecorded, hf⟩

end Components

/-! ## Functions that return -/

section Returns

variable {F V B : Type*} [DecidableEq V] [Fintype V] {mod : Module F V B} {f : F}

variable (mod) in
/-- **Functions that return**: some run arrives at a return, where all functions of the module that
it has called have returned. Values that it compares again have not changed. -/
inductive Returns : F → Prop
  | returns {f : F} {block : B} {inst : V} {rest : List V} {st : State V}
      {trace : List (V × State V)} :
      Run mod f block (inst :: rest) st trace → isReturn mod inst = true → Steady mod f trace →
      (∀ event ∈ trace, ∀ call callee, mod.value event.1 = .call call →
        call.calledFunction = some callee → callee ∈ allDefinedFunctions mod → Returns callee) →
      Returns f

/-- Then the members of each component that it has called have returned. -/
theorem Returns.terminates (h : Returns mod f) {component : List F}
    (hdefined : ∀ g ∈ component, g ∈ allDefinedFunctions mod) : Terminates mod component f := by
  induction h with
  | returns hrun hreturn hsteady _ ih =>
    exact .returns hrun hreturn hsteady fun event hevent call callee hvalue hcallee hmember =>
      ih event hevent call callee hvalue hcallee (hdefined callee hmember)

end Returns

/-! ## The marks -/

section Infinite

variable {F V B : Type*} [DecidableEq F] [DecidableEq V] [Fintype V] [DecidableEq B]
variable {mod : Module F V B} {f : F}

/-- The functions that are marked are the members of the components that are reported. -/
theorem mem_infiniteRecursionFuncs (addresses : AddressOrder mod) (solver : EdgeSolver V B)
    (hasNoRecurseContract : F → Bool) :
    f ∈ infiniteRecursionFuncs addresses solver hasNoRecurseContract ↔
      ∃ component ∈ computeRecursiveComponents hasNoRecurseContract
        (buildCallGraphFiltered addresses) (allDefinedFunctions mod),
        detectInfiniteRecursionComponent mod solver hasNoRecurseContract component = true ∧
          f ∈ component := by
  rw [infiniteRecursionFuncs, mem_foldl_marks (detectInfiniteRecursionComponent mod solver _)]
  simp

/-- **The marks of the results**: a function that is marked to recurse forever never returns, and it
is marked as recursive, as calls between functions of the module lead back to it.

**Proof sketch.** It is a member of a recursive component that has been reported, so none of the
members returns: the one that returned first would have called another one that had returned. -/
theorem results_infiniteRecursion (mod : Module F V B) (addresses : AddressOrder mod)
    (hasNoRecurseContract : F → Bool) (layout : DataLayout) (deriveAllocaName : V → CppString)
    (mode : AnalysisMode) (alignment : Option StackAlignment) (shouldAnalyze : F → Bool)
    (stackLimit : UInt64) (hmod : ∀ f ∈ allDefinedFunctions mod, ReturnsVerified mod f)
    (hright : ∀ f ∈ allDefinedFunctions mod, RightBounds mod f)
    (hfew : ∀ component ∈ computeRecursiveComponents hasNoRecurseContract
      (buildCallGraphFiltered addresses) (allDefinedFunctions mod), ∀ f ∈ component,
      ∀ entry, (mod.blocks f).head? = some entry →
        ∀ key, ¬ CrowdedBlock mod (fun callee => decide (callee ∈ component)) entry key) :
    ∀ result ∈ buildResults (prepareModule addresses noSolver hasNoRecurseContract layout
      deriveAllocaName mode alignment shouldAnalyze stackLimit),
      result.hasInfiniteSelfRecursion = true →
        ¬ Returns mod result.name ∧ result.isRecursive = true ∧
          Relation.TransGen (fun f g => f ∈ allDefinedFunctions mod ∧ CallsDefined mod f g)
            result.name result.name := by
  intro result hresult hinfinite
  obtain ⟨f, -, rfl⟩ := List.mem_map.mp hresult
  obtain ⟨component, hcomponent, hdetect, hf⟩ :=
    (mem_infiniteRecursionFuncs addresses noSolver hasNoRecurseContract).mp
      (of_decide_eq_true hinfinite)
  have hclosed := closed_callees addresses
  have hdefined : ∀ g ∈ component, g ∈ allDefinedFunctions mod :=
    fun g hg => (mem_of_component hclosed hcomponent hg).1
  obtain ⟨hfdefined, hcycle⟩ := mem_of_component hclosed hcomponent hf
  refine ⟨fun hreturns => ?_, ?_, ?_⟩
  · refine Reported.not_terminates (fun g hg => ?_) hf (hreturns.terminates hdefined)
    exact ⟨hmod g (hdefined g hg), hright g (hdefined g hg), hfew component hcomponent g hg,
      answer_of_detect hdetect hg⟩
  · have hkeys : (computeLocalStacks addresses layout deriveAllocaName mode alignment).keys =
        addresses.order := PtrMap.keys_ofKeys _ _ _
    refine decide_eq_true ?_
    have hclosed' : Closed (buildCallGraphFiltered addresses).callees addresses.order :=
      fun u hu v hv => (addresses.mem_iff v).mpr (hclosed u ((addresses.mem_iff u).mp hu) v hv)
    show f ∈ computeRecursiveFunctions hasNoRecurseContract (buildCallGraphFiltered addresses)
      (computeLocalStacks addresses layout deriveAllocaName mode alignment).keys
    rw [hkeys]
    exact (mem_computeRecursiveFunctions hasNoRecurseContract (buildCallGraphFiltered addresses)
      hclosed' f).mpr ⟨(addresses.mem_iff f).mpr hfdefined, hcycle⟩
  · exact hcycle.lift id fun _ _ hedge => (mem_callees_iff addresses).mp hedge.1

end Infinite

/-- The theorem at the function whose branches exclude each other. -/
theorem results_infiniteRecursion_bothSigns : ¬ Returns bothSigns () := by
  refine (results_infiniteRecursion bothSigns ⟨[()], by decide, by decide⟩ (fun _ => false)
    ⟨fun _ => 0, fun _ _ => 0, fun _ _ => rfl⟩ (fun _ => []) .IR none (fun _ => true) 0
    (fun _ _ => returnsVerified_bothSigns) (fun _ _ => rightBounds_bothSigns) ?_
    _ (List.mem_map_of_mem (a := ()) (by decide)) (by decide +kernel)).1
  intro component _ f hf entry hentry key
  obtain rfl : 0 = entry := Option.some.inj hentry
  rw [show (fun callee => decide (callee ∈ component)) = fun _ : Unit => true from
    funext fun _ => decide_eq_true hf]
  exact fewPaths_bothSigns.visits key

end StackAnalyzer.Frames
