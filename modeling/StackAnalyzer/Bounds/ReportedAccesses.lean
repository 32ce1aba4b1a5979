import StackAnalyzer.Bounds.Profiles

set_option relaxedAutoImplicit false
set_option autoImplicit false

/-!
# Which accesses are reported

Whether the pass over buffers reports anything, if the answers of the solver are given, and what is
left of this in functions without an alloca or a store: then every buffer is a global array, and
every access is a load.

## Main definitions

* `StackAnalyzer.Bounds.MayLeave` — an access that is reported for a buffer.

## Main results

* `StackAnalyzer.Bounds.eval_analyzeStackBufferOverflows_eq_nil_iff` — when nothing is reported.
* `StackAnalyzer.Bounds.mem_of_resolveArrayAlloca` — an array in the stack frame is an alloca of the
  function.
-/

namespace StackAnalyzer.Bounds

open CrossTU Maps Llvm Smt Consulting

variable {F V B : Type*} [DecidableEq V] [DecidableEq B]

/-! ## Reported accesses -/

section Reported

variable [Fintype V] (mod : Module F V B) (config : AnalysisConfig)
  (answers : SmtQuery V → SmtStatus)

/-- The rule of the pass. -/
def stackBufferEvaluator : SmtConstraintEvaluator := .make config "stack-buffer"

/-- **An access that is reported** for a buffer: its index is a constant outside, or the range of
the index goes outside and the solver does not refute this. -/
def MayLeave (f : F) (site : GepSite V B) (base : BufferBase V) (inst : V) : Prop :=
  ∃ arraySize idxVal, accessTarget mod f base site = some (arraySize, idxVal) ∧
    match mod.value idxVal with
    | .constantInt _ c => c.toInt < 0 ∨ arraySize ≤ toUnsigned64 c.toInt
    | _ => ∃ range, indexRange mod f (computeIntRangesFromICmps mod f) site.block
          (mod.stripCasts idxVal) = some range ∧
        ((exceedingBound range arraySize).isSome = true ∧
            (isUpperViolationInfeasibleBySmt mod (stackBufferEvaluator config) range
              (mod.stripCasts idxVal) arraySize inst).eval answers = false ∨
          (range.hasLower && decide (range.lower < 0)) = true ∧
            (isLowerViolationInfeasibleBySmt mod (stackBufferEvaluator config) range
              (mod.stripCasts idxVal) inst).eval answers = false)

variable {mod} {config} {answers}

omit [DecidableEq V] [Fintype V] in
/-- Nothing is reported exactly after a refutation. -/
theorem eval_reportUnless_eq_nil_iff {I : Type*} {check : Solving V Bool} {issue : I} :
    (reportUnless check issue).eval answers = [] ↔ check.eval answers = true := by
  unfold reportUnless
  rw [Consult.eval_map]
  cases check.eval answers with
  | true => exact iff_of_true rfl rfl
  | false => exact iff_of_false (List.cons_ne_nil _ _) Bool.false_ne_true

/-- Nothing is reported for an index in a range exactly if, for every access, each bound that is
outside is refuted. -/
theorem eval_variableIndexIssues_eq_nil_iff {evaluator : SmtConstraintEvaluator}
    {report : Bool → V × Bool → StackBufferOverflowIssue V} {site : GepSite V B} {arraySize : ℕ}
    {baseIdxVal : V} {range : IntRange} :
    (variableIndexIssues mod evaluator report site arraySize baseIdxVal range).eval answers = [] ↔
      ∀ access ∈ accesses mod site.inst,
        ((exceedingBound range arraySize).isSome = true →
          (isUpperViolationInfeasibleBySmt mod evaluator range baseIdxVal arraySize
            access.1).eval answers = true) ∧
        ((range.hasLower && decide (range.lower < 0)) = true →
          (isLowerViolationInfeasibleBySmt mod evaluator range baseIdxVal access.1).eval answers =
            true) := by
  unfold variableIndexIssues
  dsimp only
  rw [Consult.eval_bind, Consult.eval_map, List.append_eq_nil_iff, forall₂_and]
  refine and_congr ?_ ?_
  · cases hbound : exceedingBound range arraySize with
    | none => simp
    | some ub =>
      dsimp only
      rw [Consult.eval_collect, List.flatMap_eq_nil_iff]
      refine forall₂_congr fun access _ => ?_
      rw [eval_reportUnless_eq_nil_iff]
      exact ⟨fun h _ => h, fun h => h rfl⟩
  · by_cases hneg : (range.hasLower && decide (range.lower < 0)) = true
    · rw [if_pos hneg, Consult.eval_collect, List.flatMap_eq_nil_iff]
      refine forall₂_congr fun access _ => ?_
      rw [eval_reportUnless_eq_nil_iff]
      exact ⟨fun h _ => h, fun h => h hneg⟩
    · rw [if_neg hneg]
      exact iff_of_true rfl fun access _ h => absurd h hneg

section Buffer

variable {f : F} {site : GepSite V B} {base : BufferBase V} {arraySize : ℕ} {idxVal inst : V}
  (htarget : accessTarget mod f base site = some (arraySize, idxVal))

include htarget

/-- An access with a constant index is reported if the constant is outside. -/
theorem mayLeave_constant {width : ℕ} {c : BitVec width}
    (hvalue : mod.value idxVal = .constantInt width c) :
    MayLeave mod config answers f site base inst ↔
      c.toInt < 0 ∨ arraySize ≤ toUnsigned64 c.toInt := by
  constructor
  · rintro ⟨arraySize', idxVal', heq, h⟩
    obtain ⟨rfl, rfl⟩ := Prod.mk.inj (Option.some.inj (htarget.symm.trans heq))
    rw [hvalue] at h
    exact h
  · intro h
    refine ⟨arraySize, idxVal, htarget, ?_⟩
    rw [hvalue]
    exact h

/-- An access with another index is reported if a bound of its range is outside and not
refuted. -/
theorem mayLeave_range (hvalue : ∀ width c, mod.value idxVal ≠ .constantInt width c) :
    MayLeave mod config answers f site base inst ↔
      ∃ range, indexRange mod f (computeIntRangesFromICmps mod f) site.block
          (mod.stripCasts idxVal) = some range ∧
        ((exceedingBound range arraySize).isSome = true ∧
            (isUpperViolationInfeasibleBySmt mod (stackBufferEvaluator config) range
              (mod.stripCasts idxVal) arraySize inst).eval answers = false ∨
          (range.hasLower && decide (range.lower < 0)) = true ∧
            (isLowerViolationInfeasibleBySmt mod (stackBufferEvaluator config) range
              (mod.stripCasts idxVal) inst).eval answers = false) := by
  constructor
  · rintro ⟨arraySize', idxVal', heq, h⟩
    obtain ⟨rfl, rfl⟩ := Prod.mk.inj (Option.some.inj (htarget.symm.trans heq))
    split at h
    · next width c hconst => exact absurd hconst (hvalue width c)
    · exact h
  · intro h
    refine ⟨arraySize, idxVal, htarget, ?_⟩
    split
    · next width c hconst => exact absurd hconst (hvalue width c)
    · exact h

/-- Nothing is reported for a constant index exactly if no access is reported. -/
theorem eval_bufferIssues_constant {path : List CppString} {width : ℕ} {c : BitVec width}
    (hvalue : mod.value idxVal = .constantInt width c) :
    (bufferIssues mod (stackBufferEvaluator config) f (computeIntRangesFromICmps mod f) site base
        path).eval answers = [] ↔
      ∀ access ∈ accesses mod site.inst, ¬ MayLeave mod config answers f site base access.1 := by
  unfold bufferIssues
  simp only [mayLeave_constant htarget hvalue, htarget, hvalue]
  rw [Consult.eval_answer]
  unfold constantIndexIssues
  split_ifs with hout
  · rw [List.map_eq_nil_iff]
    refine ⟨fun hnil access haccess => ?_, fun h => List.eq_nil_iff_forall_not_mem.mpr
      fun access haccess => h access haccess hout⟩
    rw [hnil] at haccess
    exact absurd haccess List.not_mem_nil
  · exact iff_of_true rfl fun access _ h => hout h

/-- Nothing is reported for another index exactly if no access is reported. -/
theorem eval_bufferIssues_range {path : List CppString}
    (hvalue : ∀ width c, mod.value idxVal ≠ .constantInt width c) :
    (bufferIssues mod (stackBufferEvaluator config) f (computeIntRangesFromICmps mod f) site base
        path).eval answers = [] ↔
      ∀ access ∈ accesses mod site.inst, ¬ MayLeave mod config answers f site base access.1 := by
  simp only [mayLeave_range htarget hvalue]
  unfold bufferIssues
  rw [htarget]
  dsimp only
  split
  · next width c hconst => exact absurd hconst (hvalue width c)
  cases hrange : indexRange mod f (computeIntRangesFromICmps mod f) site.block
      (mod.stripCasts idxVal) with
  | none =>
    refine iff_of_true rfl fun access _ h => ?_
    obtain ⟨range, hsome, -⟩ := h
    exact absurd hsome (by simp)
  | some range =>
    dsimp only
    rw [eval_variableIndexIssues_eq_nil_iff]
    refine forall₂_congr fun access _ => ?_
    constructor
    · rintro ⟨hupper, hlower⟩ ⟨range', heq, ⟨hbound, hfalse⟩ | ⟨hneg, hfalse⟩⟩
      · obtain rfl := Option.some.inj heq
        exact Bool.false_ne_true (hfalse.symm.trans (hupper hbound))
      · obtain rfl := Option.some.inj heq
        exact Bool.false_ne_true (hfalse.symm.trans (hlower hneg))
    · intro h
      refine ⟨fun hbound => ?_, fun hneg => ?_⟩
      · by_contra hne
        exact h ⟨range, rfl, Or.inl ⟨hbound, eq_false_of_ne_true hne⟩⟩
      · by_contra hne
        exact h ⟨range, rfl, Or.inr ⟨hneg, eq_false_of_ne_true hne⟩⟩

end Buffer

/-- **Nothing is reported for a buffer** exactly if no access is reported. -/
theorem eval_bufferIssues_eq_nil_iff {f : F} {site : GepSite V B} {base : BufferBase V}
    {path : List CppString} :
    (bufferIssues mod (stackBufferEvaluator config) f (computeIntRangesFromICmps mod f) site base
        path).eval answers = [] ↔
      ∀ access ∈ accesses mod site.inst, ¬ MayLeave mod config answers f site base access.1 := by
  cases htarget : accessTarget mod f base site with
  | none =>
    unfold bufferIssues MayLeave
    rw [htarget]
    refine iff_of_true rfl ?_
    rintro access _ ⟨arraySize, idxVal, heq, -⟩
    exact absurd heq (by simp)
  | some target =>
    obtain ⟨arraySize, idxVal⟩ := target
    by_cases hconst : ∃ width c, mod.value idxVal = .constantInt width c
    · obtain ⟨width, c, hvalue⟩ := hconst
      exact eval_bufferIssues_constant htarget hvalue
    · exact eval_bufferIssues_range htarget fun width c hvalue => hconst ⟨width, c, hvalue⟩

variable {shouldAnalyze : F → Bool}

/-- **When the pass reports nothing**: no access to a buffer is reported, through any of the
`getelementptr`s that the profile allows.

**Proof sketch.** With given answers the issues of the module are those of its functions one after
another, and those of a function are those of its `getelementptr`s. -/
theorem eval_analyzeStackBufferOverflows_eq_nil_iff :
    (analyzeStackBufferOverflows mod shouldAnalyze config).eval answers = [] ↔
      ∀ f ∈ analyzedFunctions mod shouldAnalyze,
        withinBudget (mod.functionInstructions f).length
          (buildAnalysisComplexityBudgets config).maxInstrForStackBufferPass = true →
        ∀ site ∈ takeBudget (buildAnalysisComplexityBudgets config).maxAnalyzedGEPsPerFunction
          (gepSites mod f), ∀ base path,
        resolveArrayBufferBase mod f (withinBudget (mod.functionInstructions f).length
            (buildAnalysisComplexityBudgets config).pointerStoreScanInstrThreshold)
          site.pointer = some (base, path) →
        ∀ access ∈ accesses mod site.inst,
          ¬ MayLeave mod config answers f site base access.1 := by
  unfold analyzeStackBufferOverflows
  rw [Consult.eval_collect, List.flatMap_eq_nil_iff]
  refine forall₂_congr fun f _ => ?_
  unfold analyzeStackBufferOverflowsInFunction
  dsimp only
  by_cases hbudget : withinBudget (mod.functionInstructions f).length
      (buildAnalysisComplexityBudgets config).maxInstrForStackBufferPass = true
  · rw [if_pos hbudget, Consult.eval_collect, List.flatMap_eq_nil_iff, forall_prop_of_true hbudget]
    refine forall₂_congr fun site _ => ?_
    unfold gepIssues
    cases hbase : resolveArrayBufferBase mod f (withinBudget (mod.functionInstructions f).length
        (buildAnalysisComplexityBudgets config).pointerStoreScanInstrThreshold) site.pointer with
    | none => exact iff_of_true rfl fun base path h => absurd h (by simp)
    | some found =>
      obtain ⟨base, path⟩ := found
      refine Iff.trans eval_bufferIssues_eq_nil_iff ⟨?_, fun h => h base path rfl⟩
      intro h base' path' heq
      obtain ⟨rfl, rfl⟩ := Prod.mk.inj (Option.some.inj heq)
      exact h
  · rw [if_neg hbudget]
    exact iff_of_true rfl fun h => absurd h hbudget

end Reported

/-! ## Arrays in the stack frame -/

omit [DecidableEq B] in
/-- The origin of several candidates is the one of some candidate. -/
theorem mem_of_uniqueOrigin {candidates : List (Option (V × List CppString))}
    {found : V × List CppString} (h : uniqueOrigin candidates = some found) :
    some found ∈ candidates := by
  unfold uniqueOrigin at h
  split at h
  · exact absurd h (by simp)
  · next first rest hreduce =>
    split_ifs at h
    obtain rfl := Option.some.inj h
    have hmem : first ∈ candidates.reduceOption := by rw [hreduce]; exact List.mem_cons_self
    exact List.reduceOption_mem_iff.mp hmem

section StackArrays

variable {mod : Module F V B} {f : F} (hverified : mod.Verified) (hf : f ∈ mod.functions)

include hverified hf

omit [DecidableEq V] [DecidableEq B] in
/-- What an instruction refers to stands in the same function. -/
theorem local_of_operand {v w : V} (hv : mod.LocalTo f v)
    (hinstruction : (mod.value v).isInstruction = true) (hw : w ∈ (mod.value v).operandValues) :
    mod.LocalTo f w :=
  hverified.operand_local f hf v (hv hinstruction) w hw

omit [DecidableEq B] in
/-- **Following a pointer** does not leave the function. -/
theorem local_of_walk {fuel : ℕ} {v cur : V} {visited : List V} {path path' : List CppString}
    (hv : mod.LocalTo f v) (hwalk : walk mod fuel v visited path = some (cur, path')) :
    mod.LocalTo f cur := by
  induction fuel generalizing v visited path with
  | zero => exact absurd hwalk (by simp [walk])
  | succ fuel ih =>
    unfold walk at hwalk
    by_cases hseen : v ∈ visited
    · rw [if_pos hseen] at hwalk
      exact absurd hwalk (by simp)
    rw [if_neg hseen] at hwalk
    dsimp only at hwalk
    have hstep : ∀ w ∈ (mod.value v).operandValues, (mod.value v).isInstruction = true →
        mod.LocalTo f w := fun w hw hinstruction =>
      local_of_operand hverified hf hv hinstruction hw
    cases hvalue : mod.value v with
    | cast op operand =>
      rw [hvalue] at hwalk hstep
      have hoperand : mod.LocalTo f operand := hstep operand (List.mem_singleton_self _) rfl
      cases op with
      | bitcast => exact ih hoperand hwalk
      | _ =>
        obtain ⟨rfl, -⟩ := Prod.mk.inj (Option.some.inj hwalk)
        exact hv
    | getElementPtr sourceElementType pointer indices =>
      rw [hvalue] at hwalk hstep
      exact ih (hstep pointer List.mem_cons_self rfl) hwalk
    | load pointer =>
      rw [hvalue] at hwalk hstep
      exact ih (hstep pointer (List.mem_singleton_self _) rfl) hwalk
    | _ =>
      rw [hvalue] at hwalk
      obtain ⟨rfl, -⟩ := Prod.mk.inj (Option.some.inj hwalk)
      exact hv

omit [DecidableEq B] in
/-- A value that a function stores stands in the function, if it is an instruction. -/
theorem local_of_storedValues {slot v : V} (h : v ∈ storedValues mod f slot) :
    mod.LocalTo f v := by
  obtain ⟨inst, hinst, hvalue⟩ := List.mem_filterMap.mp h
  split at hvalue
  · next value pointer hstore =>
    split_ifs at hvalue
    obtain rfl := Option.some.inj hvalue
    exact hverified.operand_local f hf inst hinst value (by rw [hstore]; exact List.mem_cons_self)
  · exact absurd hvalue (by simp)

variable [Fintype V]

omit [DecidableEq B] in
/-- **The origin of a pointer** is an alloca of the same function.

**Proof sketch.** By induction on the levels that are left: the loop does not leave the function,
and neither do the values of a phi or those that the function stores. -/
theorem mem_of_resolveArrayAlloca {scan : Bool} {levels : ℕ} {v slot : V} {recursionStack : List V}
    {path : List CppString} (hv : mod.LocalTo f v)
    (hfound : resolveArrayAllocaFromPointerInternal mod f scan levels v recursionStack =
      some (slot, path)) :
    slot ∈ mod.functionInstructions f ∧ (mod.value slot).isAlloca = true := by
  induction levels generalizing v slot recursionStack path with
  | zero => exact absurd hfound (by simp [resolveArrayAllocaFromPointerInternal])
  | succ levels ih =>
    unfold resolveArrayAllocaFromPointerInternal at hfound
    by_cases hseen : v ∈ recursionStack
    · rw [if_pos hseen] at hfound
      exact absurd hfound (by simp)
    rw [if_neg hseen] at hfound
    cases hwalk : walk mod (Fintype.card V + 1) v [] [] with
    | none =>
      rw [hwalk] at hfound
      exact absurd hfound (by simp)
    | some found =>
      obtain ⟨cur, path'⟩ := found
      rw [hwalk] at hfound
      dsimp only at hfound
      have hcur := local_of_walk hverified hf hv hwalk
      -- whatever the candidates are, if they stand in the function so does what they lead to
      have hall : ∀ candidates : List V, (∀ w ∈ candidates, mod.LocalTo f w) →
          (uniqueOrigin (candidates.map fun candidate =>
            resolveArrayAllocaFromPointerInternal mod f scan levels candidate
              (v :: recursionStack))).map (fun found => (found.1, path' ++ found.2)) =
            some (slot, path) →
          slot ∈ mod.functionInstructions f ∧ (mod.value slot).isAlloca = true := by
        intro candidates hlocal hmap
        obtain ⟨origin, horigin, heq⟩ := Option.map_eq_some_iff.mp hmap
        obtain ⟨candidate, hcandidate, hresolve⟩ := List.mem_map.mp (mem_of_uniqueOrigin horigin)
        obtain ⟨rfl, -⟩ := Prod.mk.inj heq
        exact ih (hlocal candidate hcandidate) hresolve
      cases hvalue : mod.value cur with
      | alloca allocatedType arraySize used =>
        rw [hvalue] at hfound
        dsimp only at hfound
        by_cases harray : isArrayAlloca mod allocatedType arraySize = true
        · rw [if_pos harray] at hfound
          obtain ⟨rfl, -⟩ := Prod.mk.inj (Option.some.inj hfound)
          exact ⟨hcur (by rw [hvalue]; rfl), by rw [hvalue]; rfl⟩
        · rw [if_neg harray] at hfound
          by_cases hscan : scan = true
          · rw [if_pos hscan] at hfound
            exact hall _ (fun w hw => local_of_storedValues hverified hf hw) hfound
          · rw [if_neg hscan] at hfound
            exact absurd hfound (by simp)
      | phi incoming =>
        rw [hvalue] at hfound
        refine hall _ (fun w hw => ?_) hfound
        exact local_of_operand hverified hf hcur (by rw [hvalue]; rfl) (by rw [hvalue]; exact hw)
      | _ =>
        rw [hvalue] at hfound
        exact absurd hfound (by simp)

end StackArrays

end StackAnalyzer.Bounds
