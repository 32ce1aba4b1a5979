import StackAnalyzer.Bounds.ConstantIndices
import StackAnalyzer.Bounds.OobReads

set_option relaxedAutoImplicit false
set_option autoImplicit false

/-!
# Constant indices into heap allocations

Which loads at a constant offset from a heap allocation are reported, against those that start
outside of it. The pass looks at the last index of one `getelementptr` and compares it with the size
that is recorded for the base, divided by the size of the source type. The other indices and the
offset of the base do not matter, and the recorded size may be that of another allocation.

## Main definitions

* `StackAnalyzer.Bounds.OobReads.recordedBytes` — the size that is recorded for a place, read off
  the instructions.
* `StackAnalyzer.Bounds.OobReads.PointsInto` — pointers at a constant offset from an allocation.
* `StackAnalyzer.Bounds.OobReads.HeapLoad` — a load through one of them.

## Main results

* `StackAnalyzer.Bounds.OobReads.find_foldl_visit` — what is recorded by a run over instructions.
* `StackAnalyzer.Bounds.OobReads.mem_runs_iff` — where the issues of a run come from.
* `StackAnalyzer.Bounds.OobReads.reportsHeapLoad_iff_outside_iff` — when the report is right.
-/

namespace StackAnalyzer.Bounds.OobReads

open CrossTU Maps Llvm Smt Consulting

variable {F V B : Type*} [DecidableEq V] [DecidableEq B] (mod : Module F V B)

/-! ## Recorded sizes -/

section Recorded

variable (layout : DataLayout) (underlying : V → V)

/-- The size that an instruction allocates, if it is a call and the size is a constant. -/
def callBytes (inst : V) : Option ℕ :=
  match mod.value inst with
  | .call call => (calleeName mod call).bind fun name => allocatedBytes mod name call.args
  | _ => none

/-- The size that is recorded for a place after some instructions, the last one first: that of the
last allocation with this result, or of the pointer that was stored there last. -/
def recordedBytes : List V → V → Option ℕ
  | [], _ => none
  | inst :: earlier, place =>
    match mod.value inst with
    | .store value pointer =>
      if place = mod.stripPointerCasts pointer then
        (recordedBytes earlier (mod.stripPointerCasts value)).or (recordedBytes earlier place)
      else recordedBytes earlier place
    | _ =>
      if place = underlying inst ∨ place = inst then
        (callBytes mod inst).or (recordedBytes earlier place)
      else recordedBytes earlier place

/-- **What one instruction records.** -/
theorem find_visit (st : ReadState V) (inst place : V) :
    (visit mod layout underlying st inst).heapAllocBytes.find place =
      match mod.value inst with
      | .store value pointer =>
        if place = mod.stripPointerCasts pointer then
          (st.heapAllocBytes.find (mod.stripPointerCasts value)).or (st.heapAllocBytes.find place)
        else st.heapAllocBytes.find place
      | _ =>
        if place = underlying inst ∨ place = inst then
          (callBytes mod inst).or (st.heapAllocBytes.find place)
        else st.heapAllocBytes.find place := by
  unfold visit callBytes
  cases mod.value inst with
  | store value pointer =>
    dsimp only
    cases hfind : st.heapAllocBytes.find (mod.stripPointerCasts value) with
    | none => simp
    | some bytes => simp [EntryMap.find_assign, eq_comm]
  | call call =>
    dsimp only
    unfold visitCall
    cases calleeName mod call with
    | none => simp
    | some name =>
      dsimp only [Option.bind_some]
      cases allocatedBytes mod name call.args with
      | none => simp
      | some bytes =>
        simp only [EntryMap.find_assign]
        by_cases hroot : place = underlying inst
        · simp [hroot]
        · by_cases hinst : place = inst
          · simp [hinst]
          · simp [hroot, hinst, Ne.symm hroot, Ne.symm hinst]
  | _ => simp

/-- **What a run records**, place by place. -/
theorem find_foldl_visit (insts : List V) (place : V) :
    (insts.foldl (visit mod layout underlying) {}).heapAllocBytes.find place =
      recordedBytes mod underlying insts.reverse place := by
  induction insts using List.reverseRecOn generalizing place with
  | nil => rfl
  | append_singleton insts inst ih =>
    rw [List.foldl_append, List.foldl_cons, List.foldl_nil, find_visit, List.reverse_append,
      List.reverse_singleton, List.singleton_append, recordedBytes]
    simp only [ih]

end Recorded

/-! ## Issues of a run -/

section Runs

variable {mod} {layout : DataLayout} {underlying : V → V}

/-- An instruction is visited with what the instructions before it record. -/
theorem mem_visits_iff {st st' : ReadState V} {insts : List V} {inst : V} :
    (st', inst) ∈ visits mod layout underlying st insts ↔
      ∃ before after, insts = before ++ inst :: after ∧
        st' = before.foldl (visit mod layout underlying) st := by
  induction insts generalizing st with
  | nil => simp [visits]
  | cons first insts ih =>
    rw [visits, List.mem_cons, ih]
    constructor
    · rintro (heq | ⟨before, after, rfl, rfl⟩)
      · obtain ⟨rfl, rfl⟩ := Prod.mk.inj heq
        exact ⟨[], insts, rfl, rfl⟩
      · exact ⟨first :: before, after, rfl, rfl⟩
    · rintro ⟨before, after, hinsts, rfl⟩
      cases before with
      | nil =>
        obtain ⟨rfl, rfl⟩ := List.cons.inj hinsts
        exact Or.inl rfl
      | cons first' before =>
        obtain ⟨rfl, rfl⟩ := List.cons.inj hinsts
        exact Or.inr ⟨before, after, rfl, rfl⟩

omit [DecidableEq V] [DecidableEq B] in
/-- The instructions of a function are all different. -/
theorem nodup_functionInstructions {f : F} (hf : f ∈ mod.functions) :
    (mod.functionInstructions f).Nodup :=
  (List.nodup_flatMap.mp mod.nodup).1 f hf

omit [DecidableEq V] [DecidableEq B] in
/-- What stands before an instruction is unique. -/
theorem before_unique {f : F} (hf : f ∈ mod.functions) {inst : V}
    {before after before' after' : List V}
    (h : mod.functionInstructions f = before ++ inst :: after)
    (h' : mod.functionInstructions f = before' ++ inst :: after') : before = before' := by
  have hnodup := nodup_functionInstructions hf
  rw [h] at hnodup
  have hnot : inst ∉ before ++ after := (List.nodup_cons.mp (List.nodup_middle.mp hnodup)).1
  rw [List.mem_append, not_or] at hnot
  exact ((List.append_cons_inj_of_notMem hnot.1 hnot.2).mp (h.symm.trans h')).1

variable (mod) in
/-- The state of the pass before an instruction. -/
def stateBefore (layout : DataLayout) (underlying : V → V) (before : List V) : ReadState V :=
  before.foldl (visit mod layout underlying) {}

variable [Fintype V] {shouldAnalyze : F → Bool} {config : AnalysisConfig}
  {trace : List (SmtQuery V × SmtStatus)} {issues : List (OOBReadIssue V)}

variable (mod) in
/-- The issues of an instruction after some others. -/
def InstructionRuns (layout : DataLayout) (underlying : V → V) (config : AnalysisConfig) (f : F)
    (before : List V) (inst : V) (trace : List (SmtQuery V × SmtStatus))
    (issues : List (OOBReadIssue V)) : Prop :=
  (issuesAt mod layout underlying (computeIntRangesFromICmps mod f) (.make config "oob-read") f
    (stateBefore mod layout underlying before) inst).Runs trace issues

/-- An issue of an instruction is about this instruction. -/
theorem inst_of_mem_issuesAt {ranges : EntryMap V IntRange} {evaluator : SmtConstraintEvaluator}
    {f : F} {st : ReadState V} {inst : V}
    (hrun : (issuesAt mod layout underlying ranges evaluator f st inst).Runs trace issues)
    {issue : OOBReadIssue V} (hissue : issue ∈ issues) : issue.inst = inst := by
  have hload : (loadIssue mod layout underlying ranges evaluator f st inst).Runs trace issues →
      issue.inst = inst := by
    intro hrun
    unfold loadIssue at hrun
    split at hrun
    · obtain ⟨-, rfl⟩ := Consult.runs_answer_iff.mp hrun
      exact absurd hissue List.not_mem_nil
    · split at hrun
      · obtain ⟨-, rfl⟩ := Consult.runs_answer_iff.mp hrun
        split_ifs at hissue
        · rw [List.mem_singleton.mp hissue]
          rfl
        · exact absurd hissue List.not_mem_nil
      · split_ifs at hrun
        · rw [eq_of_mem_reportUnless hrun hissue]
          rfl
        · obtain ⟨-, rfl⟩ := Consult.runs_answer_iff.mp hrun
          exact absurd hissue List.not_mem_nil
  unfold issuesAt at hrun
  split at hrun
  · obtain ⟨-, rfl⟩ := Consult.runs_answer_iff.mp hrun
    have hfound := Option.mem_toList.mp hissue
    unfold strlenIssue at hfound
    split_ifs at hfound
    · obtain ⟨obj, -, hfound⟩ := Option.bind_eq_some_iff.mp hfound
      obtain ⟨write, -, hfound⟩ := Option.bind_eq_some_iff.mp hfound
      split_ifs at hfound
      obtain rfl := Option.some.inj hfound
      rfl
  · exact hload hrun

/-- **The issues of an instruction in a run**: those that it has with what is recorded before it. -/
theorem runs_issuesAt
    (hrun : (analyzeOOBReads mod layout underlying shouldAnalyze config).Runs trace issues) {f : F}
    (hf : f ∈ analyzedFunctions mod shouldAnalyze) {inst : V} {before after : List V}
    (hstands : mod.functionInstructions f = before ++ inst :: after) :
    (∃ trace' issues',
      InstructionRuns mod layout underlying config f before inst trace' issues' ∧
        issues' ⊆ issues) ∧
      ∀ issue ∈ issues, issue.inst = inst → ∃ trace' issues',
        InstructionRuns mod layout underlying config f before inst trace' issues' ∧
          issue ∈ issues' := by
  have hvisit : (stateBefore mod layout underlying before, inst) ∈
      visits mod layout underlying {} (mod.functionInstructions f) :=
    mem_visits_iff.mpr ⟨before, after, hstands, rfl⟩
  refine ⟨?_, fun issue hissue hinst => ?_⟩
  · obtain ⟨_, found, hfunction, hfound⟩ := Consult.exists_runs_of_collect hrun hf
    obtain ⟨trace', issues', hruns, hsub⟩ := Consult.exists_runs_of_collect hfunction hvisit
    exact ⟨trace', issues', hruns, fun issue hissue => hfound (hsub hissue)⟩
  · obtain ⟨f', hf', _, found, hfunction, hmem⟩ := Consult.exists_of_runs_collect hrun hissue
    obtain ⟨⟨st, inst'⟩, hvisit', trace', issues', hruns, hmem'⟩ :=
      Consult.exists_of_runs_collect hfunction hmem
    obtain rfl : inst' = inst := (inst_of_mem_issuesAt hruns hmem').symm.trans hinst
    obtain ⟨before', after', hstands', rfl⟩ := mem_visits_iff.mp hvisit'
    have hmem_f : ∀ {f : F} {before after : List V},
        mod.functionInstructions f = before ++ inst' :: after →
          inst' ∈ mod.functionInstructions f := by
      intro f before after h
      rw [h]
      exact List.mem_append_right _ List.mem_cons_self
    obtain rfl : f' = f := mod.function_unique (List.mem_of_mem_filter hf')
      (List.mem_of_mem_filter hf) (hmem_f hstands') (hmem_f hstands)
    obtain rfl := before_unique (List.mem_of_mem_filter hf) hstands hstands'
    exact ⟨trace', issues', hruns, hmem'⟩

end Runs

/-! ## Loads at a constant offset -/

section Loads

variable (layout : DataLayout) (underlying : V → V)

/-- The size of an allocation: the argument of `malloc` or `realloc`, or the exact product of those
of `calloc`. -/
def requestedBytes (alloc : V) : Option ℕ :=
  match mod.value alloc with
  | .call call =>
    if calleeName mod call = some "calloc".toList then
      match call.args with
      | count :: elem :: _ =>
        (tryGetConstantU64 mod count).bind fun count =>
          (tryGetConstantU64 mod elem).map fun elem => count * elem
      | _ => none
    else callBytes mod alloc
  | _ => none

/-- A pointer points into an allocation, after some steps: it is the result of the call, or it comes
from such a pointer by a constant `getelementptr`, a cast, or a variable that is stored to once. -/
inductive PointsInto (alloc : V) : V → List IndexStep → Prop
  | base : PointsInto alloc alloc []
  | gep {v pointer : V} {sourceElementType : Ty} {indices : List V}
      {constants : List IndexConstant} {own steps : List IndexStep} :
      mod.value v = .getElementPtr sourceElementType pointer indices →
      mod.indexConstants indices = some constants →
      layout.gepSteps sourceElementType constants = some own →
      PointsInto alloc pointer steps → PointsInto alloc v (steps ++ own)
  | cast {v operand : V} {op : CastInst} {steps : List IndexStep} :
      mod.value v = .cast op operand → op = .bitcast ∨ op = .other →
      mod.IsPointerCast v operand → PointsInto alloc operand steps → PointsInto alloc v steps
  | reload {v value : V} {steps : List IndexStep} :
      reloadedPointer mod v = some value → PointsInto alloc value steps → PointsInto alloc v steps

/-- A load through a `getelementptr` with constant indices, from a pointer into an allocation whose
size is a constant. -/
structure HeapLoad (f : F) where
  inst : V
  before : List V
  after : List V
  stands : mod.functionInstructions f = before ++ inst :: after
  sourceElementType : Ty
  basePtr : V
  indices : List V
  loads : loadedElement mod inst = some (sourceElementType, basePtr, indices)
  constants : List IndexConstant
  constants_eq : mod.indexConstants indices = some constants
  own : List IndexStep
  own_eq : layout.gepSteps sourceElementType constants = some own
  alloc : V
  size : ℕ
  size_eq : requestedBytes mod alloc = some size
  baseSteps : List IndexStep
  points : PointsInto mod layout alloc basePtr baseSteps

variable {mod} {layout} {f : F} (load : HeapLoad mod layout f)

/-- All steps from the allocation to the address. -/
def HeapLoad.steps : List IndexStep := load.baseSteps ++ load.own

/-- The size that is recorded for the base of a load: for the object that it points into, for the
pointer that the base keeps, or for the base itself. -/
def HeapLoad.recorded : Option ℕ :=
  let recordedFor := recordedBytes mod underlying load.before.reverse
  (recordedFor (baseRoot mod underlying load.basePtr)).or
    ((recordedFor (peelPointerFromSingleStoreSlot mod load.basePtr)).or
      (recordedFor (mod.stripPointerCasts load.basePtr)))

/-- What the last index is compared with: the recorded size, in elements of the source type, if it
is that of one element at least. -/
def HeapLoad.compared : Option (ℕ × ℕ) :=
  if load.indices = [] then none
  else ((load.recorded underlying).bind (capacityOf layout load.sourceElementType)).map
    fun capacity => (load.steps.length - 1, capacity)

/-- An instruction is reported as a load outside of an allocation. -/
def ReportsHeapIndex (issues : List (OOBReadIssue V)) (inst : V) : Prop :=
  ∃ issue ∈ issues, issue.inst = inst ∧ issue.kind = .heapIndexOutOfBounds

/-- The size that is known for the base is the recorded one. -/
theorem HeapLoad.knownBytes_eq :
    knownBytes mod underlying (stateBefore mod layout underlying load.before) load.basePtr =
      load.recorded underlying := by
  unfold knownBytes HeapLoad.recorded stateBefore
  rw [find_foldl_visit, find_foldl_visit, find_foldl_visit]

/-- The last step of a load has the index that is compared. -/
theorem HeapLoad.exists_last (hindices : load.indices ≠ []) :
    ∃ step indexValue constant, load.steps[load.steps.length - 1]? = some step ∧
      load.indices.getLast? = some indexValue ∧ mod.indexConstant indexValue = some constant ∧
        step.index = constant.sext := by
  have hall := indexConstants_forall₂ load.constants_eq
  have hlength : load.own.length = load.indices.length :=
    (layout.gepSteps_length load.own_eq).trans hall.length_eq.symm
  have hpos : 0 < load.indices.length := List.length_pos_of_ne_nil hindices
  obtain ⟨n, hn⟩ : ∃ n, load.indices.length = n + 1 := ⟨load.indices.length - 1, by omega⟩
  have hlast : load.steps.length - 1 = load.baseSteps.length + n := by
    rw [HeapLoad.steps, List.length_append, hlength]
    omega
  have hown : n < load.own.length := by omega
  have hconstants : n < load.constants.length := by
    rw [← hall.length_eq]
    omega
  have hindex : load.own[n].index = load.constants[n].sext := by
    have hmap := congrArg (fun indices => indices[n]?) (layout.gepSteps_index load.own_eq)
    simpa [hown, hconstants] using hmap
  have hvalue : n < load.indices.length := by omega
  refine ⟨load.own[n], load.indices[n], load.constants[n], ?_, ?_, hall.get hvalue hconstants,
    hindex⟩
  · rw [hlast, HeapLoad.steps, List.getElem?_append_right (Nat.le_add_right _ _),
      Nat.add_sub_cancel_left]
    exact List.getElem?_eq_getElem hown
  · rw [List.getLast?_eq_getElem?, hn, Nat.add_sub_cancel]
    exact List.getElem?_eq_getElem hvalue

variable {underlying} [Fintype V] {shouldAnalyze : F → Bool} {config : AnalysisConfig}
  {trace : List (SmtQuery V × SmtStatus)} {issues : List (OOBReadIssue V)}

omit [Fintype V] in
/-- The step that is compared. -/
theorem HeapLoad.exists_step {position count : ℕ}
    (hcompared : load.compared underlying = some (position, count)) :
    ∃ step, load.steps[position]? = some step := by
  unfold HeapLoad.compared at hcompared
  split_ifs at hcompared with hindices
  obtain ⟨capacity, -, heq⟩ := Option.map_eq_some_iff.mp hcompared
  obtain ⟨rfl, -⟩ := Prod.mk.inj heq
  obtain ⟨step, -, -, hstep, -⟩ := load.exists_last hindices
  exact ⟨step, hstep⟩

/-- The issues of a load: no question is asked. -/
theorem HeapLoad.issuesAt_eq (ranges : EntryMap V IntRange) (evaluator : SmtConstraintEvaluator)
    (st : ReadState V) (hst : st = stateBefore mod layout underlying load.before) :
    ∃ issues : List (OOBReadIssue V),
      issuesAt mod layout underlying ranges evaluator f st load.inst = .answer issues ∧
        (ReportsHeapIndex issues load.inst ↔
          ∃ position count step, load.compared underlying = some (position, count) ∧
            load.steps[position]? = some step ∧ ¬ InRange count step.index) := by
  have hissues : issuesAt mod layout underlying ranges evaluator f st load.inst =
      loadIssue mod layout underlying ranges evaluator f st load.inst := by
    have hloads := load.loads
    unfold loadedElement at hloads
    unfold issuesAt
    split
    · next hcall =>
      rw [hcall] at hloads
      cases hloads
    · rfl
  have hnone : load.compared underlying = none →
      (ReportsHeapIndex ([] : List (OOBReadIssue V)) load.inst ↔
        ∃ position count step, load.compared underlying = some (position, count) ∧
          load.steps[position]? = some step ∧ ¬ InRange count step.index) := by
    intro hcompared
    refine iff_of_false ?_ ?_
    · rintro ⟨issue, hissue, -⟩
      exact List.not_mem_nil hissue
    · rintro ⟨position, count, step, hsome, -⟩
      rw [hcompared] at hsome
      cases hsome
  rw [hissues, loadIssue, checkedLoad, load.loads, Option.bind_some]
  dsimp only
  by_cases hindices : load.indices = []
  · refine ⟨[], ?_, hnone (if_pos hindices)⟩
    rw [hindices]
    rfl
  · obtain ⟨step, indexValue, constant, hstep, hlast, hconstant, hindex⟩ :=
      load.exists_last hindices
    have hknown := load.knownBytes_eq underlying
    rw [← hst] at hknown
    rw [hlast, Option.bind_some, hknown]
    have hcompared : load.compared underlying =
        ((load.recorded underlying).bind (capacityOf layout load.sourceElementType)).map
          fun capacity => (load.steps.length - 1, capacity) := if_neg hindices
    have hchecked : ((load.recorded underlying).bind fun bytes =>
        (capacityOf layout load.sourceElementType bytes).map fun capacity =>
          (baseRoot mod underlying load.basePtr, capacity, indexValue)) =
        ((load.recorded underlying).bind (capacityOf layout load.sourceElementType)).map
          fun capacity => (baseRoot mod underlying load.basePtr, capacity, indexValue) := by
      rw [Option.map_bind]
      rfl
    rw [hchecked]
    cases hcapacity : (load.recorded underlying).bind
        (capacityOf layout load.sourceElementType) with
    | none =>
      rw [hcapacity] at hcompared
      exact ⟨[], rfl, hnone hcompared⟩
    | some capacity =>
      rw [hcapacity] at hcompared
      rw [Option.map_some]
      dsimp only
      rw [value_of_indexConstant hconstant]
      refine ⟨_, rfl, ?_⟩
      have houtside : constantOutside constant.bits.toInt capacity = true ↔
          ¬ InRange capacity step.index := by
        rw [hindex]
        exact decide_eq_true_iff.trans (not_inRange_iff constant.significant.2).symm
      rw [hcompared]
      constructor
      · rintro ⟨issue, hissue, -⟩
        split_ifs at hissue with hout
        · exact ⟨_, capacity, step, rfl, hstep, houtside.mp hout⟩
        · exact absurd hissue List.not_mem_nil
      · rintro ⟨position, count, step', heq, hstep', hrange⟩
        obtain ⟨rfl, rfl⟩ := Prod.mk.inj (Option.some.inj heq)
        obtain rfl : step = step' := Option.some.inj (hstep.symm.trans hstep')
        rw [if_pos (houtside.mpr hrange)]
        exact ⟨_, List.mem_singleton_self _, rfl, rfl⟩

/-- **Which loads are reported**: those with a last index out of range. -/
theorem reportsHeapIndex_iff
    (hrun : (analyzeOOBReads mod layout underlying shouldAnalyze config).Runs trace issues)
    (hf : f ∈ analyzedFunctions mod shouldAnalyze) :
    ReportsHeapIndex issues load.inst ↔
      ∃ position count step, load.compared underlying = some (position, count) ∧
        load.steps[position]? = some step ∧ ¬ InRange count step.index := by
  obtain ⟨⟨trace', issues', hruns, hsub⟩, hfrom⟩ := runs_issuesAt hrun hf load.stands
  obtain ⟨answer, hanswer, hiff⟩ :=
    load.issuesAt_eq (computeIntRangesFromICmps mod f) (.make config "oob-read") _ rfl
  have hruns_eq : ∀ {trace' issues'}, InstructionRuns mod layout underlying config f load.before
      load.inst trace' issues' → issues' = answer := by
    intro trace' issues' hruns
    unfold InstructionRuns at hruns
    rw [hanswer] at hruns
    exact (Consult.runs_answer_iff.mp hruns).2
  rw [← hiff]
  constructor
  · rintro ⟨issue, hissue, hinst, hkind⟩
    obtain ⟨trace', issues', hruns, hmem⟩ := hfrom issue hissue hinst
    exact ⟨issue, hruns_eq hruns ▸ hmem, hinst, hkind⟩
  · rintro ⟨issue, hissue, hinst, hkind⟩
    exact ⟨issue, hsub (hruns_eq hruns ▸ hissue), hinst, hkind⟩

/-- **Constant indices into the heap**: for every load through a `getelementptr` with constant
indices, from a pointer into an allocation of a constant size, it is reported if and only if its
offset is outside of the allocation, exactly if the last index agrees with the offset, or the offset
is inside and the index is not compared.

**Proof sketch.** The sizes that the pass has recorded are those that can be read off the
instructions before the load. The report depends on the last index alone, and the offset is the sum
of its step and all other steps. -/
theorem reportsHeapIndex_iff_outside_iff
    (hrun : (analyzeOOBReads mod layout underlying shouldAnalyze config).Runs trace issues)
    (hf : f ∈ analyzedFunctions mod shouldAnalyze) :
    (ReportsHeapIndex issues load.inst ↔ ¬ InBytes load.size (totalOffset load.steps)) ↔
      AgreesAt load.size load.steps (load.compared underlying) := by
  rw [reportsHeapIndex_iff load hrun hf]
  cases hcompared : load.compared underlying with
  | none =>
    rw [AgreesAt]
    simp
  | some compared =>
    obtain ⟨position, count⟩ := compared
    obtain ⟨step, hstep⟩ := load.exists_step hcompared
    have hreported : (∃ position' count' step',
        some (position, count) = some (position', count') ∧
          load.steps[position']? = some step' ∧ ¬ InRange count' step'.index) ↔
        ¬ InRange count step.index := by
      constructor
      · rintro ⟨position', count', step', heq, hstep', hrange⟩
        obtain ⟨rfl, rfl⟩ := Prod.mk.inj (Option.some.inj heq)
        obtain rfl : step = step' := Option.some.inj (hstep.symm.trans hstep')
        exact hrange
      · exact fun hrange => ⟨position, count, step, rfl, hstep, hrange⟩
    rw [hreported, not_iff_not, agreesAt_iff hstep]

variable (mod) (layout) (underlying) (shouldAnalyze)

/-- **The check is exact**: a load at a constant offset from an allocation is reported if and only
if it starts outside of the allocation. -/
def ExactHeapCheck : Prop :=
  ∀ config trace issues,
    (analyzeOOBReads mod layout underlying shouldAnalyze config).Runs trace issues →
    ∀ f ∈ analyzedFunctions mod shouldAnalyze, ∀ load : HeapLoad mod layout f,
      (ReportsHeapIndex issues load.inst ↔ ¬ InBytes load.size (totalOffset load.steps))

end Loads

/-! ## Recorded allocations -/

section Ordinary

variable {mod} {underlying : V → V}

/-- An instruction records nothing for a place. -/
def Leaves (mod : Module F V B) (underlying : V → V) (place inst : V) : Prop :=
  match mod.value inst with
  | .store _ pointer => place ≠ mod.stripPointerCasts pointer
  | _ => place ≠ underlying inst ∧ place ≠ inst

omit [DecidableEq B] in
/-- **The ordinary case**: the size of an allocation stays recorded for its result, as long as no
pointer is stored there. -/
theorem recordedBytes_alloc {alloc : V} {bytes : ℕ} (hbytes : callBytes mod alloc = some bytes)
    (earlier : List V) {later : List V}
    (hlater : ∀ inst ∈ later, Leaves mod underlying alloc inst) :
    recordedBytes mod underlying (later ++ alloc :: earlier) alloc = some bytes := by
  induction later with
  | nil =>
    rw [List.nil_append, recordedBytes]
    split
    · next value pointer hstore =>
      unfold callBytes at hbytes
      rw [hstore] at hbytes
      cases hbytes
    · rw [if_pos (Or.inr rfl), hbytes]
      rfl
  | cons inst later ih =>
    have hleaves := hlater inst List.mem_cons_self
    unfold Leaves at hleaves
    rw [List.cons_append, recordedBytes]
    split
    · next value pointer hstore =>
      rw [hstore] at hleaves
      rw [if_neg hleaves]
      exact ih fun inst' hinst' => hlater inst' (List.mem_cons_of_mem inst hinst')
    · next hother =>
      split at hleaves
      · next value pointer hstore => exact absurd hstore (hother value pointer)
      · rw [if_neg (not_or.mpr hleaves)]
        exact ih fun inst' hinst' => hlater inst' (List.mem_cons_of_mem inst hinst')

end Ordinary

/-! ## Two indices -/

section Rows

/-- The example has eight values. -/
theorem neZero_eight : NeZero 8 := ⟨Nat.succ_ne_zero 7⟩

attribute [local instance] neZero_eight

/-- The values of `int (*m)[4] = malloc(16); return m[2][0];`: three constants, `malloc`, the call,
the `getelementptr` and the load. -/
def rowsValue : Fin 8 → Value (Fin 8) Unit Bool
  | 0 => .constantInt 64 16
  | 1 => .constantInt 64 2
  | 2 => .constantInt 64 0
  | 3 => .function false
  | 4 => .call ⟨some false, 3, [0], none, false⟩
  | 5 => .getElementPtr (.array 4 (.int ⟨32, isWidth_thirtyTwo⟩)) 4 [1, 2]
  | 6 => .load 5
  | 7 => .ret

/-- The module of this function, which is `true`, and `malloc`. -/
def rows : Module Bool (Fin 8) Unit where
  functions := [true, false]
  functionName f := if f then "f".toList else "malloc".toList
  isDeclaration f := !f
  sourcePath _ := []
  blocks f := if f then [()] else []
  instructions _ := [4, 5, 6, 7]
  parent _ := ()
  successors _ := []
  predecessors _ := []
  value := rowsValue
  type
    | 0 | 1 | 2 => .int ⟨64, isWidth_sixtyFour⟩
    | 3 | 4 | 5 => .ptr
    | 6 => .int ⟨32, isWidth_thirtyTwo⟩
    | _ => .other
  name
    | 3 => "malloc".toList
    | _ => []
  users
    | 0 => [4]
    | 1 => [5]
    | 2 => [5]
    | 3 => [4]
    | 4 => [5]
    | 5 => [6]
    | 6 => [7]
    | _ => []
  operands
    | 4 => [0, 3]
    | 5 => [4, 1, 2]
    | 6 => [5]
    | 7 => [6]
    | _ => []
  underlyingObject
    | 5 => 4
    | v => v
  stripPointerCasts v := v
  nodup := by decide

/-- The load of `m[2][0]`. -/
def rowsLoad : HeapLoad rows byteLayout true where
  inst := 6
  before := [4, 5]
  after := [7]
  stands := rfl
  sourceElementType := .array 4 (.int ⟨32, isWidth_thirtyTwo⟩)
  basePtr := 4
  indices := [1, 2]
  loads := rfl
  constants := [⟨64, 2, by decide⟩, ⟨64, 0, by decide⟩]
  constants_eq := rfl
  own := [.element 2 16, .element 0 4]
  own_eq := rfl
  alloc := 4
  size := 16
  size_eq := rfl
  baseSteps := []
  points := .base

/-- Nothing is reported. -/
theorem rows_runs :
    (analyzeOOBReads rows byteLayout rows.underlyingObject (fun _ => true) {}).Runs [] [] := by
  rw [show analyzeOOBReads rows byteLayout rows.underlyingObject (fun _ => true) {} = .answer []
    from rfl]
  exact .answer _

/-- **The check is not exact**: the load is thirty-two bytes after the start of an allocation of
sixteen bytes, and it is not reported, as its last index is zero. -/
theorem not_exactHeapCheck_rows :
    ¬ ExactHeapCheck rows byteLayout rows.underlyingObject fun _ => true := by
  intro h
  obtain ⟨issue, hissue, -⟩ :=
    (h {} [] [] rows_runs true (by decide) rowsLoad).mpr (by decide)
  exact List.not_mem_nil hissue

/-- The theorem at this load: the last index is in range, and the offset is not. -/
theorem reportsHeapIndex_iff_outside_iff_rows :
    (ReportsHeapIndex (V := Fin 8) [] 6 ↔ ¬ InBytes 16 32) ↔
      AgreesAt 16 [.element 2 16, .element 0 4] (some (1, 1)) :=
  reportsHeapIndex_iff_outside_iff rowsLoad rows_runs
    (show true ∈ analyzedFunctions rows fun _ => true by decide)

end Rows

end StackAnalyzer.Bounds.OobReads
