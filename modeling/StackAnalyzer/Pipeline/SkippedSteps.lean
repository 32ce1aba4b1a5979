import StackAnalyzer.Bounds.ReportedAccesses
import StackAnalyzer.Pipeline.StepDiagnostics

set_option relaxedAutoImplicit false
set_option autoImplicit false

/-!
# Steps that are skipped

Two steps of the pipeline are skipped if the functions that are analysed have no instruction of some
kinds: the pass over buffers without an alloca, a store or a memory intrinsic, and the pass over
resources without a call. This file says when skipping them changes the diagnostics.

## Main definitions

* `StackAnalyzer.Pipeline.PipelineModule` — what the two steps read of a module.
* `StackAnalyzer.Pipeline.PipelineSubscriberSignals` — the numbers that the gates look at.
* `StackAnalyzer.Pipeline.run` — the diagnostics of a run.
* `StackAnalyzer.Pipeline.SkipUnchanged` — executing a step that is skipped changes nothing.
* `StackAnalyzer.Pipeline.ReadsOutsideGlobal` — a load that may be outside of a global array.

## Main results

* `StackAnalyzer.Pipeline.derivePipelineSignals_collectIRFacts` — the facts give the same numbers.
* `StackAnalyzer.Pipeline.resourceLifetimeStep_forced` — the second gate changes nothing.
* `StackAnalyzer.Pipeline.skipUnchanged_iff` — when the first one changes nothing.
-/

namespace StackAnalyzer.Pipeline

open App Bounds Consulting CrossTU Llvm Resource Smt

/-! ## Modules -/

/-- Which instruction a `CallBase` is. -/
inductive CallInstruction
  | call | invoke | callBr
  deriving DecidableEq

/-- `isa<MemIntrinsic>`, of a call. -/
def isMemIntrinsic {V F : Type*} (call : CallBase V F) : Bool :=
  match call.intrinsic with
  | some .memcpy | some .memmove | some .memset => true
  | _ => false

/-- A module: what the pass over buffers reads of it, and what the pass over resources reads of its
functions. Both see the same instructions and calls. A `callbr` calls inline assembly, so it has no
callee. `isUnreachable` is `isStaticallyUnreachableStackAccess`. -/
structure PipelineModule (F V B : Type*) where
  mod : Llvm.Module F V B
  verified : mod.Verified
  callInstruction : V → CallInstruction
  debugLoc : V → Option DebugLoc
  isUnreachable : V → Bool
  lifetime : F → LifetimeFunction V B V
  methodInfo : F → MethodClassInfo
  instructions_eq : ∀ f, (lifetime f).instructions = mod.functionInstructions f
  value_of_call : ∀ f v call, ((lifetime f).inst v).call = some call →
    ∃ callBase, mod.value v = .call callBase
  callee_of_callBr : ∀ f v call, ((lifetime f).inst v).call = some call →
    callInstruction v = .callBr → call.callee = none

variable {F V B : Type*}

/-! ## Signals -/

section Signals

variable (p : PipelineModule F V B)

/-- `IRFacts`, the numbers of instructions in the functions that are analysed. -/
structure IRFacts where
  callInstCount : ℕ := 0
  invokeInstCount : ℕ := 0
  allocaInstCount : ℕ := 0
  loadInstCount : ℕ := 0
  storeInstCount : ℕ := 0
  memIntrinsicCount : ℕ := 0

/-- `PipelineSubscriberSignals`. -/
structure PipelineSubscriberSignals where
  callSiteCount : ℕ := 0
  loadCount : ℕ := 0
  bufferRelevantCount : ℕ := 0

/-- `onAlloca`, `onStore` and `onMemIntrinsic`. -/
def PipelineSubscriberSignals.onBufferRelevant (signals : PipelineSubscriberSignals) :
    PipelineSubscriberSignals :=
  { signals with bufferRelevantCount := signals.bufferRelevantCount + 1 }

/-- `onLoad`. -/
def PipelineSubscriberSignals.onLoad (signals : PipelineSubscriberSignals) :
    PipelineSubscriberSignals :=
  { signals with loadCount := signals.loadCount + 1 }

/-- `onCall` and `onInvoke`. -/
def PipelineSubscriberSignals.onCallSite (signals : PipelineSubscriberSignals) :
    PipelineSubscriberSignals :=
  { signals with callSiteCount := signals.callSiteCount + 1 }

/-- What the traversal of `collectIRFacts` notifies the subscriber of for an instruction. A memory
intrinsic is a call as well. -/
def PipelineSubscriberSignals.notify (signals : PipelineSubscriberSignals) (inst : V) :
    PipelineSubscriberSignals :=
  match p.mod.value inst with
  | .alloca _ _ _ | .store _ _ => signals.onBufferRelevant
  | .load _ => signals.onLoad
  | .call call =>
    match p.callInstruction inst with
    | .call =>
      if isMemIntrinsic call then signals.onCallSite.onBufferRelevant else signals.onCallSite
    | .invoke => signals.onCallSite
    | .callBr => signals
  | _ => signals

/-- What the traversal counts for an instruction. -/
def IRFacts.visit (facts : IRFacts) (inst : V) : IRFacts :=
  match p.mod.value inst with
  | .alloca _ _ _ => { facts with allocaInstCount := facts.allocaInstCount + 1 }
  | .store _ _ => { facts with storeInstCount := facts.storeInstCount + 1 }
  | .load _ => { facts with loadInstCount := facts.loadInstCount + 1 }
  | .call call =>
    match p.callInstruction inst with
    | .call =>
      { facts with
        callInstCount := facts.callInstCount + 1
        memIntrinsicCount := facts.memIntrinsicCount + if isMemIntrinsic call then 1 else 0 }
    | .invoke => { facts with invokeInstCount := facts.invokeInstCount + 1 }
    | .callBr => facts
  | _ => facts

variable (shouldAnalyze : F → Bool)

/-- The instructions of the functions that are analysed. -/
def selectedInstructions : List V :=
  (analyzedFunctions p.mod shouldAnalyze).flatMap p.mod.functionInstructions

/-- `collectIRFacts`, the facts. -/
def collectIRFacts : IRFacts :=
  (selectedInstructions p shouldAnalyze).foldl (IRFacts.visit p) {}

/-- `collectIRFacts`, as the subscriber sees it. -/
def collectSignals : PipelineSubscriberSignals :=
  (selectedInstructions p shouldAnalyze).foldl (PipelineSubscriberSignals.notify p) {}

/-- `derivePipelineSignals`. -/
def derivePipelineSignals (facts : IRFacts) : PipelineSubscriberSignals where
  callSiteCount := facts.callInstCount + facts.invokeInstCount
  loadCount := facts.loadInstCount
  bufferRelevantCount :=
    facts.allocaInstCount + facts.storeInstCount + facts.memIntrinsicCount

/-- The signals of a run, with subscribers or without. -/
def signalsOf (subscribersEnabled : Bool) : PipelineSubscriberSignals :=
  if subscribersEnabled then collectSignals p shouldAnalyze
  else derivePipelineSignals (collectIRFacts p shouldAnalyze)

/-- An instruction for which the pass over buffers is not skipped. -/
def isBufferRelevant (inst : V) : Bool :=
  match p.mod.value inst with
  | .alloca _ _ _ | .store _ _ => true
  | .call call => decide (p.callInstruction inst = .call) && isMemIntrinsic call
  | _ => false

/-- An instruction for which the pass over resources is not skipped. -/
def isCallSite (inst : V) : Bool :=
  match p.mod.value inst with
  | .call _ => decide (p.callInstruction inst ≠ .callBr)
  | _ => false

variable {p}

/-- The counted facts of one more instruction are its notification. -/
theorem derivePipelineSignals_visit (facts : IRFacts) (inst : V) :
    derivePipelineSignals (facts.visit p inst) =
      (derivePipelineSignals facts).notify p inst := by
  unfold IRFacts.visit PipelineSubscriberSignals.notify derivePipelineSignals
  cases p.mod.value inst with
  | alloca allocatedType arraySize used =>
    simp only [PipelineSubscriberSignals.onBufferRelevant, PipelineSubscriberSignals.mk.injEq,
      true_and]
    omega
  | store value pointer =>
    simp only [PipelineSubscriberSignals.onBufferRelevant, PipelineSubscriberSignals.mk.injEq,
      true_and]
    omega
  | call call =>
    dsimp only
    cases p.callInstruction inst with
    | call =>
      cases isMemIntrinsic call with
      | true =>
        simp only [PipelineSubscriberSignals.onBufferRelevant, PipelineSubscriberSignals.onCallSite,
          if_true, PipelineSubscriberSignals.mk.injEq, true_and]
        omega
      | false =>
        simp only [PipelineSubscriberSignals.onCallSite, Bool.false_eq_true, if_false,
          PipelineSubscriberSignals.mk.injEq, true_and]
        omega
    | _ => rfl
  | _ => rfl

/-- **The facts give the same numbers** as the notifications. -/
theorem derivePipelineSignals_collectIRFacts :
    derivePipelineSignals (collectIRFacts p shouldAnalyze) = collectSignals p shouldAnalyze := by
  unfold collectIRFacts collectSignals
  exact (List.foldl_hom derivePipelineSignals fun facts inst =>
    (derivePipelineSignals_visit facts inst).symm).symm

/-- The mode does not matter to the signals. -/
theorem signalsOf_eq (subscribersEnabled : Bool) :
    signalsOf p shouldAnalyze subscribersEnabled = collectSignals p shouldAnalyze := by
  cases subscribersEnabled with
  | true => rfl
  | false => exact derivePipelineSignals_collectIRFacts shouldAnalyze

/-- What one notification counts. -/
theorem notify_counts (signals : PipelineSubscriberSignals) (inst : V) :
    (signals.notify p inst).bufferRelevantCount =
        signals.bufferRelevantCount + (if isBufferRelevant p inst then 1 else 0) ∧
      (signals.notify p inst).callSiteCount =
        signals.callSiteCount + (if isCallSite p inst then 1 else 0) := by
  unfold PipelineSubscriberSignals.notify isBufferRelevant isCallSite
  cases p.mod.value inst with
  | call call =>
    cases p.callInstruction inst with
    | call =>
      by_cases hmem : isMemIntrinsic call = true
      · simp [hmem, PipelineSubscriberSignals.onBufferRelevant,
          PipelineSubscriberSignals.onCallSite]
      · simp [hmem, PipelineSubscriberSignals.onCallSite]
    | _ => exact ⟨rfl, rfl⟩
  | _ => exact ⟨rfl, rfl⟩

/-- **What the signals count.** -/
theorem collectSignals_counts :
    (collectSignals p shouldAnalyze).bufferRelevantCount =
        (selectedInstructions p shouldAnalyze).countP (isBufferRelevant p) ∧
      (collectSignals p shouldAnalyze).callSiteCount =
        (selectedInstructions p shouldAnalyze).countP (isCallSite p) := by
  unfold collectSignals
  generalize selectedInstructions p shouldAnalyze = insts
  induction insts using List.reverseRecOn with
  | nil => exact ⟨rfl, rfl⟩
  | append_singleton insts inst ih =>
    rw [List.foldl_append, List.foldl_cons, List.foldl_nil, List.countP_append,
      List.countP_append, List.countP_singleton, List.countP_singleton, ← ih.1, ← ih.2]
    exact notify_counts _ inst

end Signals

/-! ## The pipeline -/

section Run

variable [DecidableEq V] [DecidableEq B] [Fintype V] (p : PipelineModule F V B)
  (shouldAnalyze : F → Bool)

/-- The steps with a gate. -/
inductive GatedStep
  | stackBufferOverflows | resourceLifetime
  deriving DecidableEq

/-- The signals tell that a step has nothing to do. -/
def PipelineSubscriberSignals.skips (signals : PipelineSubscriberSignals) : GatedStep → Bool
  | .stackBufferOverflows => decide (signals.bufferRelevantCount = 0)
  | .resourceLifetime => decide (signals.callSiteCount = 0)

/-- What a run depends on besides the module: the functions that are analysed, the configuration,
the resource model if there is one, the mode, and the other steps. These append their diagnostics
before the pass over buffers, or between the two passes; they read no diagnostics. -/
structure RunOptions (F V : Type*) where
  shouldAnalyze : F → Bool
  config : Smt.AnalysisConfig
  resourceModel : Option LifetimeContext
  subscribersEnabled : Bool
  before : Solving V (List Diagnostic)
  between : Solving V (List Diagnostic)

variable (options : RunOptions F V) (forced : GatedStep → Bool)

/-- A step is executed: its gate is open, or it is executed anyway. -/
def executes (step : GatedStep) : Bool :=
  forced step || !(signalsOf p options.shouldAnalyze options.subscribersEnabled).skips step

/-- The issues that the pass over buffers finds. -/
def stackBufferIssues : Solving V (List (StackBufferOverflowIssue V)) :=
  analyzeStackBufferOverflows p.mod options.shouldAnalyze options.config

/-- The issues that the pass over resources finds. -/
def resourceLifetimeIssues : List (LifetimeIssue V V) :=
  analyzeResourceLifetime options.resourceModel
    ((analyzedFunctions p.mod options.shouldAnalyze).map fun f => (p.lifetime f, p.methodInfo f))

/-- The step `Stack buffer overflows`. -/
def stackBufferStep : Solving V (List Diagnostic) :=
  if executes p options forced .stackBufferOverflows then
    (stackBufferIssues p options).map (stackBufferDiagnostics p.debugLoc p.isUnreachable)
  else .answer []

/-- The step `Resource lifetime`. -/
def resourceLifetimeStep : List Diagnostic :=
  if executes p options forced .resourceLifetime then
    resourceLifetimeDiagnostics p.debugLoc (resourceLifetimeIssues p options)
  else []

/-- **The diagnostics of a run**, in which some steps are executed whatever the signals say. -/
def run : Solving V (List Diagnostic) :=
  options.before.bind fun summary =>
    (stackBufferStep p options forced).bind fun buffers =>
      options.between.map fun others =>
        summary ++ buffers ++ others ++ resourceLifetimeStep p options forced

/-- **Skipping changes nothing**: with the same answers of the solver, the diagnostics are the same
if steps that are skipped are executed. -/
def SkipUnchanged (answers : SmtQuery V → SmtStatus) : Prop :=
  ∀ forced : GatedStep → Bool,
    (run p options fun _ => false).eval answers = (run p options forced).eval answers

/-- A load goes through a `getelementptr` into a global array, and its index may be outside. -/
def ReadsOutsideGlobal (answers : SmtQuery V → SmtStatus) : Prop :=
  ∃ f ∈ analyzedFunctions p.mod options.shouldAnalyze,
    withinBudget (p.mod.functionInstructions f).length
        (buildAnalysisComplexityBudgets options.config).maxInstrForStackBufferPass = true ∧
      ∃ site ∈ takeBudget
          (buildAnalysisComplexityBudgets options.config).maxAnalyzedGEPsPerFunction
          (gepSites p.mod f),
        ∃ globalVar, resolveArrayGlobalFromPointer p.mod site.pointer = some globalVar ∧
          ∃ inst ∈ p.mod.users site.inst, (∃ pointer, p.mod.value inst = .load pointer) ∧
            MayLeave p.mod options.config answers f site (.global globalVar) inst

/-- No function that is analysed has an alloca, a store or a memory intrinsic. -/
def WithoutBuffers : Prop :=
  ∀ f ∈ analyzedFunctions p.mod options.shouldAnalyze, ∀ inst ∈ p.mod.functionInstructions f,
    isBufferRelevant p inst = false

variable {p} {options}

omit [DecidableEq V] [DecidableEq B] [Fintype V] in
/-- Nothing of some kind is counted exactly if there is nothing of this kind. -/
theorem countP_selectedInstructions_eq_zero_iff (kind : V → Bool) :
    (selectedInstructions p options.shouldAnalyze).countP kind = 0 ↔
      ∀ f ∈ analyzedFunctions p.mod options.shouldAnalyze,
        ∀ inst ∈ p.mod.functionInstructions f, kind inst = false := by
  rw [List.countP_eq_zero]
  unfold selectedInstructions
  constructor
  · intro h f hf inst hinst
    exact eq_false_of_ne_true (h inst (List.mem_flatMap.mpr ⟨f, hf, hinst⟩))
  · intro h inst hinst
    obtain ⟨f, hf, hinst⟩ := List.mem_flatMap.mp hinst
    exact ne_true_of_eq_false (h f hf inst hinst)

omit [DecidableEq V] [DecidableEq B] [Fintype V] in
/-- The first gate is closed exactly without a buffer. -/
theorem skips_stackBufferOverflows_iff :
    (signalsOf p options.shouldAnalyze options.subscribersEnabled).skips .stackBufferOverflows =
      true ↔ WithoutBuffers p options := by
  rw [signalsOf_eq]
  unfold PipelineSubscriberSignals.skips
  rw [decide_eq_true_iff, (collectSignals_counts options.shouldAnalyze).1]
  exact countP_selectedInstructions_eq_zero_iff _

omit [DecidableEq V] [DecidableEq B] [Fintype V] in
/-- The second gate is closed exactly without a call. -/
theorem skips_resourceLifetime_iff :
    (signalsOf p options.shouldAnalyze options.subscribersEnabled).skips .resourceLifetime =
      true ↔ ∀ f ∈ analyzedFunctions p.mod options.shouldAnalyze,
        ∀ inst ∈ p.mod.functionInstructions f, isCallSite p inst = false := by
  rw [signalsOf_eq]
  unfold PipelineSubscriberSignals.skips
  rw [decide_eq_true_iff, (collectSignals_counts options.shouldAnalyze).2]
  exact countP_selectedInstructions_eq_zero_iff _

/-! ### Resources -/

omit [DecidableEq V] [DecidableEq B] [Fintype V] in
/-- Without a call that is counted, an instruction only accesses memory. -/
theorem events_of_not_isCallSite {f : F} {inst : V} (h : isCallSite p inst = false)
    (ctx : LifetimeContext) {event : Event V}
    (hevent : event ∈ ((p.lifetime f).inst inst).events ctx) :
    ∃ storage, event = .access storage := by
  unfold Resource.Instruction.events at hevent
  rcases List.mem_append.mp hevent with hmemory | hcall
  · unfold MemoryAccess.events at hmemory
    split at hmemory
    · split_ifs at hmemory
      · exact absurd hmemory List.not_mem_nil
      · exact ⟨_, List.mem_singleton.mp hmemory⟩
    · exact ⟨_, List.mem_singleton.mp hmemory⟩
    · rcases List.mem_cons.mp hmemory with rfl | hsource
      · exact ⟨_, rfl⟩
      · obtain ⟨storage, -, rfl⟩ := Option.map_eq_some_iff.mp (Option.mem_toList.mp hsource)
        exact ⟨storage, rfl⟩
    · exact absurd hmemory List.not_mem_nil
  · cases hinst : ((p.lifetime f).inst inst).call with
    | none =>
      rw [hinst] at hcall
      exact absurd hcall List.not_mem_nil
    | some call =>
      -- an instruction that is not counted is a `callbr`
      obtain ⟨callBase, hvalue⟩ := p.value_of_call f inst call hinst
      have hcallBr : p.callInstruction inst = .callBr := by
        unfold isCallSite at h
        rw [hvalue] at h
        exact not_not.mp (of_decide_eq_false h)
      rw [hinst, Option.map_some, Option.getD_some] at hcall
      unfold LifetimeCall.events at hcall
      rw [p.callee_of_callBr f inst call hinst hcallBr] at hcall
      exact absurd hcall List.not_mem_nil

omit [DecidableEq B] [Fintype V] in
/-- **Without a call** the pass over resources finds nothing. -/
theorem resourceLifetimeIssues_eq_nil
    (h : ∀ f ∈ analyzedFunctions p.mod options.shouldAnalyze,
      ∀ inst ∈ p.mod.functionInstructions f, isCallSite p inst = false) :
    resourceLifetimeIssues p options = [] := by
  unfold resourceLifetimeIssues
  apply analyzeResourceLifetime_eq_nil
  intro ctx _ F hF
  obtain ⟨f, hf, rfl⟩ := List.mem_map.mp hF
  intro event hevent
  unfold LifetimeFunction.events at hevent
  obtain ⟨inst, hinst, hevent⟩ := List.mem_flatMap.mp hevent
  obtain ⟨event', hevent', rfl⟩ := List.mem_map.mp hevent
  have hmem : inst ∈ p.mod.functionInstructions f := p.instructions_eq f ▸ hinst
  exact events_of_not_isCallSite (h f hf inst hmem) ctx hevent'

omit [DecidableEq B] [Fintype V] in
/-- **The gate of the pass over resources** never changes the diagnostics. -/
theorem resourceLifetimeStep_forced :
    resourceLifetimeStep p options (fun _ => false) = resourceLifetimeStep p options forced := by
  unfold resourceLifetimeStep executes
  by_cases hskip : (signalsOf p options.shouldAnalyze options.subscribersEnabled).skips
      .resourceLifetime = true
  · rw [resourceLifetimeIssues_eq_nil (skips_resourceLifetime_iff.mp hskip)]
    show ite _ [] [] = ite _ [] []
    rw [ite_self, ite_self]
  · rw [eq_false_of_ne_true hskip]
    simp

/-! ### Buffers -/

omit [DecidableEq B] in
/-- Without a buffer in the functions that are analysed, a pointer can only be into a global
array. -/
theorem resolveArrayBufferBase_of_withoutBuffers (h : WithoutBuffers p options) {f : F}
    (hf : f ∈ analyzedFunctions p.mod options.shouldAnalyze) {pointer : V}
    (hpointer : p.mod.LocalTo f pointer) (scan : Bool) :
    resolveArrayBufferBase p.mod f scan pointer =
      (resolveArrayGlobalFromPointer p.mod pointer).map fun globalVar =>
        (.global globalVar,
          if p.mod.name globalVar = [] then [] else [p.mod.name globalVar]) := by
  unfold resolveArrayBufferBase
  cases hfound : resolveArrayAllocaFromPointer p.mod f scan pointer with
  | none => rfl
  | some found =>
    obtain ⟨slot, path⟩ := found
    obtain ⟨hmem, halloca⟩ := mem_of_resolveArrayAlloca p.verified (List.mem_of_mem_filter hf)
      hpointer hfound
    have hnone := h f hf slot hmem
    unfold isBufferRelevant at hnone
    unfold Value.isAlloca at halloca
    cases hvalue : p.mod.value slot with
    | alloca allocatedType arraySize used =>
      rw [hvalue] at hnone
      exact absurd hnone.symm Bool.false_ne_true
    | _ =>
      rw [hvalue] at halloca
      exact absurd halloca Bool.false_ne_true

omit [DecidableEq V] [DecidableEq B] [Fintype V] in
/-- Without a buffer in the functions that are analysed, all accesses are loads. -/
theorem mem_accesses_of_withoutBuffers (h : WithoutBuffers p options) {f : F}
    (hf : f ∈ analyzedFunctions p.mod options.shouldAnalyze) {v : V}
    (hv : v ∈ p.mod.functionInstructions f) {inst : V} :
    (∃ access ∈ accesses p.mod v, access.1 = inst) ↔
      inst ∈ p.mod.users v ∧ ∃ pointer, p.mod.value inst = .load pointer := by
  constructor
  · rintro ⟨access, haccess, rfl⟩
    obtain ⟨user, huser, hvalue⟩ := List.mem_filterMap.mp haccess
    split at hvalue
    · next value pointer hstore =>
      have hnone := h f hf user (p.verified.user_mem f (List.mem_of_mem_filter hf) v hv user huser)
      unfold isBufferRelevant at hnone
      rw [hstore] at hnone
      exact absurd hnone.symm Bool.false_ne_true
    · next pointer hload =>
      obtain rfl := Option.some.inj hvalue
      exact ⟨huser, pointer, hload⟩
    · exact absurd hvalue (by simp)
  · rintro ⟨huser, pointer, hload⟩
    refine ⟨(inst, false), List.mem_filterMap.mpr ⟨inst, huser, ?_⟩, rfl⟩
    rw [hload]

variable {answers : SmtQuery V → SmtStatus}

/-- **Without a buffer** the pass over buffers finds something exactly if a load may be outside of
a global array. -/
theorem eval_stackBufferIssues_eq_nil_iff (h : WithoutBuffers p options) :
    (stackBufferIssues p options).eval answers = [] ↔ ¬ ReadsOutsideGlobal p options answers := by
  unfold stackBufferIssues ReadsOutsideGlobal
  rw [eval_analyzeStackBufferOverflows_eq_nil_iff]
  have hlocal : ∀ f ∈ analyzedFunctions p.mod options.shouldAnalyze, ∀ site ∈ takeBudget
      (buildAnalysisComplexityBudgets options.config).maxAnalyzedGEPsPerFunction
      (gepSites p.mod f), p.mod.LocalTo f site.pointer := by
    intro f hf site hsite
    obtain ⟨hmem, hvalue⟩ := mem_gepSites (mem_of_mem_takeBudget hsite)
    apply p.verified.operand_local f (List.mem_of_mem_filter hf) site.inst hmem
    rw [hvalue]
    exact List.mem_cons_self
  constructor
  · rintro hnone ⟨f, hf, hbudget, site, hsite, globalVar, hglobal, inst, huser, hload, hleave⟩
    have hmem := mem_gepSites (mem_of_mem_takeBudget hsite)
    obtain ⟨access, haccess, rfl⟩ := (mem_accesses_of_withoutBuffers h hf hmem.1).mpr ⟨huser, hload⟩
    have hbase := resolveArrayBufferBase_of_withoutBuffers h hf (hlocal f hf site hsite)
    rw [hglobal, Option.map_some] at hbase
    exact hnone f hf hbudget site hsite _ _ (hbase _) access haccess hleave
  · intro hnone f hf hbudget site hsite base path hbase access haccess hleave
    have hmem := mem_gepSites (mem_of_mem_takeBudget hsite)
    rw [resolveArrayBufferBase_of_withoutBuffers h hf (hlocal f hf site hsite)] at hbase
    obtain ⟨globalVar, hglobal, heq⟩ := Option.map_eq_some_iff.mp hbase
    obtain ⟨rfl, -⟩ := Prod.mk.inj heq
    obtain ⟨huser, hload⟩ :=
      (mem_accesses_of_withoutBuffers h hf hmem.1).mp ⟨access, haccess, rfl⟩
    exact hnone ⟨f, hf, hbudget, site, hsite, globalVar, hglobal, access.1, huser, hload, hleave⟩

/-- The diagnostics of a run with given answers. -/
theorem eval_run :
    (run p options forced).eval answers = options.before.eval answers ++
      (stackBufferStep p options forced).eval answers ++ options.between.eval answers ++
        resourceLifetimeStep p options forced := by
  unfold run
  rw [Consult.eval_bind, Consult.eval_bind, Consult.eval_map]

/-- **When skipping changes nothing**: unless no function that is analysed has an alloca, a store or
a memory intrinsic, and one of them loads through a `getelementptr` from a global array with an
index that may be outside.

**Proof sketch.** Without a call nothing is acquired or released, so the pass over resources has no
issues and its gate does not matter. Without an alloca every buffer is a global array, and without a
store every access is a load; so the pass over buffers has an issue exactly for such a load. Every
issue is a diagnostic more. -/
theorem skipUnchanged_iff :
    SkipUnchanged p options answers ↔
      ¬ (WithoutBuffers p options ∧ ReadsOutsideGlobal p options answers) := by
  have hstep : SkipUnchanged p options answers ↔ ∀ forced : GatedStep → Bool,
      (stackBufferStep p options fun _ => false).eval answers =
        (stackBufferStep p options forced).eval answers := by
    refine forall_congr' fun forced => ?_
    rw [eval_run, eval_run, resourceLifetimeStep_forced forced, List.append_left_inj,
      List.append_left_inj, List.append_right_inj]
  rw [hstep]
  by_cases hskip : (signalsOf p options.shouldAnalyze options.subscribersEnabled).skips
      .stackBufferOverflows = true
  · have hwithout := skips_stackBufferOverflows_iff.mp hskip
    rw [not_and, forall_prop_of_true hwithout, ← eval_stackBufferIssues_eq_nil_iff hwithout]
    unfold stackBufferStep executes
    rw [hskip]
    constructor
    · intro h
      have hforced := h fun _ => true
      rw [if_neg (by simp), if_pos (by simp), Consult.eval_map] at hforced
      exact List.map_eq_nil_iff.mp hforced.symm
    · intro hnil forced
      rw [if_neg (by simp)]
      cases forced .stackBufferOverflows with
      | true =>
        rw [if_pos (by simp), Consult.eval_map, hnil]
        rfl
      | false => rw [if_neg (by simp)]
  · refine iff_of_true (fun forced => ?_) fun h => hskip (skips_stackBufferOverflows_iff.mpr h.1)
    unfold stackBufferStep executes
    rw [eq_false_of_ne_true hskip]
    rw [if_pos (by simp), if_pos (by simp)]

end Run

/-! ## A table -/

section Table

/-- The example has three blocks. -/
theorem neZero_three : NeZero 3 := ⟨three_ne_zero⟩

attribute [local instance] neZero_three

/-- The values of `int table[4]; int f(int i) { if (i < 10) return table[i]; return 0; }` without an
alloca: the table, three constants, the parameter, the comparison and the branch, then the extended
index, the `getelementptr`, the load and the returns. -/
def tableValue : Fin 11 → Value (Fin 11) (Fin 3) Unit
  | 0 => .globalVariable (.array 4 (.int ⟨32, isWidth_thirtyTwo⟩))
  | 1 => .constantInt 32 10
  | 2 => .constantInt 64 0
  | 3 => .argument 0 false
  | 4 => .icmp .slt 3 1
  | 5 => .br 4 1 2
  | 6 => .cast .sext 3
  | 7 => .getElementPtr (.array 4 (.int ⟨32, isWidth_thirtyTwo⟩)) 0 [2, 6]
  | 8 => .load 7
  | _ => .ret

/-- The instructions of its blocks. -/
def tableInstructions : Fin 3 → List (Fin 11)
  | 0 => [4, 5]
  | 1 => [6, 7, 8, 9]
  | 2 => [10]

/-- The module of this function. -/
def table : Llvm.Module Unit (Fin 11) (Fin 3) where
  functions := [()]
  functionName _ := "f".toList
  isDeclaration _ := false
  sourcePath _ := []
  blocks _ := [0, 1, 2]
  instructions := tableInstructions
  parent
    | 6 | 7 | 8 | 9 => 1
    | 10 => 2
    | _ => 0
  successors
    | 0 => [1, 2]
    | _ => []
  predecessors
    | 0 => []
    | _ => [0]
  value := tableValue
  type
    | 0 | 7 => .ptr
    | 1 | 3 | 8 => .int ⟨32, isWidth_thirtyTwo⟩
    | 2 | 6 => .int ⟨64, isWidth_sixtyFour⟩
    | 4 => .int ⟨1, isWidth_one⟩
    | _ => .other
  name
    | 0 => "table".toList
    | 3 => "i".toList
    | _ => []
  users
    | 0 => [7]
    | 1 => [4]
    | 2 => [7]
    | 3 => [4, 6]
    | 4 => [5]
    | 6 => [7]
    | 7 => [8]
    | 8 => [9]
    | _ => []
  operands
    | 4 => [3, 1]
    | 5 => [4]
    | 6 => [3]
    | 7 => [0, 2, 6]
    | 8 => [7]
    | 9 => [8]
    | _ => []
  underlyingObject v := if v = 7 then 0 else v
  stripPointerCasts v := v
  nodup := by decide

/-- The table, as the pass over resources sees it: no call, and one load of unknown storage. -/
def tableLifetime : LifetimeFunction (Fin 11) (Fin 3) (Fin 11) where
  name := "f".toList
  blocks := [0, 1, 2]
  cfg := ⟨0, table.successors, tableInstructions, fun _ => none⟩
  inst v :=
    { memory := if v = 8 then .load false .unknown else .none
      call := none
      ret := if v = 9 ∨ v = 10 then some (some (.unknown, none)) else none }
  line _ := none
  deriveAllocaName _ := []
  argumentShadow _ := false
  hasExplicitExternalStore _ _ := false
  addressEscapesToUnmodeledCall _ := false
  shouldReportIncompleteInterproc _ _ := false
  mayStoreValueFrom _ _ := false
  potentiallyReachable _ _ := true
  nodup := by decide

/-- Its instructions refer only to each other. -/
theorem verified_table : table.Verified where
  operand_local := by
    unfold Llvm.Module.LocalTo
    decide
  user_mem := by decide

/-- The table, as the pipeline sees it. -/
def tableModule : PipelineModule Unit (Fin 11) (Fin 3) where
  mod := table
  verified := verified_table
  callInstruction _ := .call
  debugLoc _ := none
  isUnreachable _ := false
  lifetime _ := tableLifetime
  methodInfo _ := {}
  instructions_eq _ := rfl
  value_of_call _ _ _ h := absurd h (by simp [tableLifetime])
  callee_of_callBr _ _ _ h := absurd h (by simp [tableLifetime])

/-- A run without SMT and without a resource model, in which the other steps find nothing. -/
def defaultOptions : RunOptions Unit (Fin 11) where
  shouldAnalyze _ := true
  config := {}
  resourceModel := none
  subscribersEnabled := true
  before := .answer []
  between := .answer []

/-- **Skipping changes the diagnostics**: the index may be up to 9, and the pass that would say so
is skipped. -/
theorem not_skipUnchanged_table :
    ¬ SkipUnchanged tableModule defaultOptions fun _ => .unknown := by
  intro h
  have hlength := congrArg List.length (h fun _ => true)
  rw [eval_run, eval_run] at hlength
  exact absurd hlength (by decide)

end Table

end StackAnalyzer.Pipeline
