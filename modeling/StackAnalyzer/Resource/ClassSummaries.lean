import StackAnalyzer.Resource.Lifetime

set_option relaxedAutoImplicit false
set_option autoImplicit false

/-!
# Resource lifetimes of a module

The pass over the functions of a module. Besides the handles of each function it follows the fields
of classes: what the constructors acquire must be released by the destructor or by a method for
this purpose.

## Main definitions

* `StackAnalyzer.Resource.ClassLifecycleSummary` — what is known of the fields of a class.
* `StackAnalyzer.Resource.trackClassEvent`, `StackAnalyzer.Resource.trackClass` — how the summaries
  are collected.
* `StackAnalyzer.Resource.analyzeResourceLifetime` — the issues of a module.

## Main results

* `StackAnalyzer.Resource.analyzeFunctionLifetime_eq_nil` — accesses alone are never reported.
* `StackAnalyzer.Resource.analyzeResourceLifetime_eq_nil` — nor in all functions of a module.
-/

namespace StackAnalyzer.Resource

open CrossTU Maps

variable {A B I : Type*}

/-! ## Summaries of classes -/

/-- `MethodClassInfo`, which `describeMethodClass` reads off the name of a function. -/
structure MethodClassInfo where
  className : CppString := []
  isCtor : Bool := false
  isDtor : Bool := false
  isLifecycleReleaseLike : Bool := false

/-- `ClassAcquireRecord`. -/
structure ClassAcquireRecord (I : Type*) where
  className : CppString
  fieldName : CppString
  resourceKind : CppString
  funcName : CppString
  inst : I

/-- `ClassLifecycleSummary`. A key is the storage of a field with the kind of the resource. -/
structure ClassLifecycleSummary (A I : Type*) where
  ctorAcquires : EntryMap (StorageKey A × CppString) (ClassAcquireRecord I) := EntryMap.empty
  dtorReleases : List (StorageKey A × CppString) := []
  lifecycleReleases : List (StorageKey A × CppString) := []
  dtorFuncName : CppString := []
  dtorAnchor : Option I := none

/-- The summaries of a module, by the names of the classes. -/
abbrev ClassSummaries (A I : Type*) := EntryMap CppString (ClassLifecycleSummary A I)

/-- Change the summary of a class. -/
def ClassSummaries.update (summaries : ClassSummaries A I) (className : CppString)
    (change : ClassLifecycleSummary A I → ClassLifecycleSummary A I) : ClassSummaries A I :=
  summaries.assign className (change ((summaries.find className).getD {}))

/-- `formatFieldName`. -/
def formatFieldName (offset : ℕ) : CppString := "this+".toList ++ decimal offset

/-- `firstInstructionAnchor`: the first instruction with a debug location, or the first one. -/
def LifetimeFunction.firstInstructionAnchor (F : LifetimeFunction A B I) : Option I :=
  (F.instructions.find? fun i => (F.line i).isSome).or F.instructions.head?

section Track

variable [DecidableEq A] (F : LifetimeFunction A B I) (methodInfo : MethodClassInfo)

/-- A constructor acquires a field; only the first time counts. -/
def ClassLifecycleSummary.recordAcquire (summary : ClassLifecycleSummary A I)
    (key : StorageKey A × CppString) (record : ClassAcquireRecord I) : ClassLifecycleSummary A I :=
  if (summary.ctorAcquires.find key).isSome then summary
  else { summary with ctorAcquires := summary.ctorAcquires.assign key record }

/-- A destructor releases a field; the first release is the anchor. -/
def ClassLifecycleSummary.recordDtorRelease (summary : ClassLifecycleSummary A I)
    (key : StorageKey A × CppString) (funcName : CppString) (anchorInst : I) :
    ClassLifecycleSummary A I :=
  { summary with
    dtorReleases := summary.dtorReleases.insert key
    dtorAnchor := summary.dtorAnchor.or (some anchorInst)
    dtorFuncName := if summary.dtorAnchor.isNone then funcName else summary.dtorFuncName }

/-- What `trackAcquire` and `trackRelease` do to the summaries of classes. -/
def trackClassEvent (summaries : ClassSummaries A I) (event : I × Event A) : ClassSummaries A I :=
  match event.2 with
  | .acquire (.thisField className offset) resourceKind =>
    if methodInfo.isCtor && decide (className ≠ []) then
      summaries.update className fun summary =>
        summary.recordAcquire (.thisField className offset, resourceKind)
          ⟨className, formatFieldName offset, resourceKind, F.name, event.1⟩
    else summaries
  | .release (.thisField className offset) resourceKind _ =>
    if methodInfo.isDtor && decide (className ≠ []) then
      summaries.update className fun summary =>
        summary.recordDtorRelease (.thisField className offset, resourceKind) F.name event.1
    else if methodInfo.isLifecycleReleaseLike && decide (className ≠ []) then
      summaries.update className fun summary =>
        { summary with
          lifecycleReleases :=
            summary.lifecycleReleases.insert (.thisField className offset, resourceKind) }
    else summaries
  | _ => summaries

/-- The destructor is the place of the issues of its class, also if it releases nothing. -/
def trackDtor (summaries : ClassSummaries A I) : ClassSummaries A I :=
  if methodInfo.isDtor && decide (methodInfo.className ≠ []) then
    summaries.update methodInfo.className fun summary =>
      if summary.dtorFuncName = [] then
        { summary with dtorFuncName := F.name, dtorAnchor := F.firstInstructionAnchor }
      else summary
  else summaries

/-- What a function does to the summaries of classes. -/
def trackClass (ctx : LifetimeContext) (summaries : ClassSummaries A I) : ClassSummaries A I :=
  trackDtor F methodInfo ((F.events ctx).foldl (trackClassEvent F methodInfo) summaries)

end Track

/-! ## The issues of a module -/

/-- An issue of the kind `MissingDestructorRelease`. -/
structure MissingDestructorRelease (I : Type*) where
  funcName : CppString
  resourceKind : CppString
  handleName : CppString
  className : CppString
  inst : I

/-- The issues of a module: those of its functions, and those of its classes. -/
inductive LifetimeIssue (A I : Type*)
  | inFunction (issue : ResourceLifetimeIssue A I)
  | missingDestructorRelease (issue : MissingDestructorRelease I)

section Analyze

variable [DecidableEq A] [DecidableEq I]

/-- The issues of a class: the fields that are acquired and not released. -/
def ClassLifecycleSummary.missingReleases (summary : ClassLifecycleSummary A I) :
    List (MissingDestructorRelease I) :=
  (summary.ctorAcquires.entries.filter fun entry =>
    decide (entry.1 ∉ summary.dtorReleases ∧ entry.1 ∉ summary.lifecycleReleases)).map fun entry =>
      ⟨if summary.dtorFuncName = [] then entry.2.funcName else summary.dtorFuncName,
        entry.2.resourceKind, entry.2.fieldName, entry.2.className,
        summary.dtorAnchor.getD entry.2.inst⟩

/-- `analyzeResourceLifetime`, of the functions that are analysed. There is no model if no path is
given or the file cannot be parsed. -/
def analyzeResourceLifetime (model : Option LifetimeContext)
    (functions : List (LifetimeFunction A B I × MethodClassInfo)) : List (LifetimeIssue A I) :=
  match model with
  | none => []
  | some ctx =>
    if ctx.rules.isEmpty then []
    else
      let classSummaries : ClassSummaries A I :=
        functions.foldl (fun summaries F => trackClass F.1 F.2 ctx summaries) EntryMap.empty
      (functions.flatMap fun F => (analyzeFunctionLifetime F.1 ctx).map .inFunction) ++
        classSummaries.entries.flatMap fun entry =>
          entry.2.missingReleases.map .missingDestructorRelease

end Analyze

/-! ## Functions that only access memory -/

section Quiet

variable [DecidableEq A] (F : LifetimeFunction A B I)

/-- No event of a function acquires or releases anything. -/
def OnlyAccesses (ctx : LifetimeContext) : Prop :=
  ∀ event ∈ F.events ctx, ∃ storage, event.2 = .access storage

/-- No constructor has acquired a field. -/
def NothingAcquired (summaries : ClassSummaries A I) : Prop :=
  ∀ className summary, summaries.find className = some summary →
    summary.ctorAcquires = EntryMap.empty

variable {F} {ctx : LifetimeContext}

section Function

variable [DecidableEq I]

/-- An access is a use only of a handle that has a state. -/
theorem reportUseAfterRelease_of_no_states {tracker : Tracker A I}
    (hstates : tracker.localStates = EntryMap.empty) (storage : StorageKey A) (i : I) :
    reportUseAfterReleaseIfNeeded F tracker storage i = tracker := by
  cases storage with
  | localSlot localAlloca offset =>
    unfold reportUseAfterReleaseIfNeeded
    rw [hstates]
    rfl
  | _ => rfl

/-- **One access** changes nothing while no handle has a state. -/
theorem trackEvent_of_no_states {tracker : Tracker A I}
    (hstates : tracker.localStates = EntryMap.empty) {event : I × Event A}
    (haccess : ∃ storage, event.2 = .access storage) : trackEvent F tracker event = tracker := by
  obtain ⟨storage, heq⟩ := haccess
  unfold trackEvent
  rw [heq]
  exact reportUseAfterRelease_of_no_states hstates storage event.1

/-- **One return** changes nothing while no handle has a state. -/
theorem trackReturn_of_no_states {tracker : Tracker A I}
    (hstates : tracker.localStates = EntryMap.empty) (i : I) :
    trackReturn F tracker i = tracker := by
  unfold trackReturn
  split
  · rfl
  · rfl
  · next returned retSlot _ =>
    rw [reportUseAfterRelease_of_no_states hstates]
    show { tracker with
      localStates := tracker.localStates.mapValues (markEscape F returned retSlot) } = tracker
    rw [hstates]
    obtain ⟨localStates, _, _, _, _⟩ := tracker
    subst hstates
    rfl

/-- **Accesses alone are never reported.**

**Proof sketch.** Only acquires and releases give a handle a state. Without a state nothing is used
after its release, nothing escapes by a return and nothing is leaked. -/
theorem analyzeFunctionLifetime_eq_nil (hquiet : OnlyAccesses F ctx) :
    analyzeFunctionLifetime F ctx = [] := by
  have hevents : trackFunction F ctx = {} := by
    unfold trackFunction
    unfold OnlyAccesses at hquiet
    generalize F.events ctx = events at hquiet
    induction events with
    | nil => rfl
    | cons event events ih =>
      rw [List.foldl_cons, trackEvent_of_no_states rfl (hquiet event List.mem_cons_self)]
      exact ih fun event hevent => hquiet event (List.mem_cons_of_mem _ hevent)
  have hreturns : ∀ instructions : List I,
      instructions.foldl (trackReturn F) ({} : Tracker A I) = {} := by
    intro instructions
    induction instructions with
    | nil => rfl
    | cons i instructions ih => rw [List.foldl_cons, trackReturn_of_no_states rfl, ih]
  unfold analyzeFunctionLifetime
  rw [hevents, hreturns]
  rfl

end Function

omit [DecidableEq A] in
/-- A change that acquires nothing. -/
theorem NothingAcquired.update {summaries : ClassSummaries A I} (h : NothingAcquired summaries)
    {className : CppString} {change : ClassLifecycleSummary A I → ClassLifecycleSummary A I}
    (hchange : ∀ summary, (change summary).ctorAcquires = summary.ctorAcquires) :
    NothingAcquired (summaries.update className change) := by
  intro other summary hfind
  unfold ClassSummaries.update at hfind
  rw [EntryMap.find_assign] at hfind
  split_ifs at hfind with hkey
  · rw [← Option.some.inj hfind, hchange]
    cases hold : summaries.find className with
    | none => rfl
    | some old => exact h className old hold
  · exact h other summary hfind

/-- **One function** that only accesses memory acquires no field of a class. -/
theorem NothingAcquired.trackClass {summaries : ClassSummaries A I} (h : NothingAcquired summaries)
    (methodInfo : MethodClassInfo) (hquiet : OnlyAccesses F ctx) :
    NothingAcquired (trackClass F methodInfo ctx summaries) := by
  have hevents : (F.events ctx).foldl (trackClassEvent F methodInfo) summaries = summaries := by
    unfold OnlyAccesses at hquiet
    generalize F.events ctx = events at hquiet
    induction events with
    | nil => rfl
    | cons event events ih =>
      obtain ⟨storage, heq⟩ := hquiet event List.mem_cons_self
      have hstep : trackClassEvent F methodInfo summaries event = summaries := by
        unfold trackClassEvent
        rw [heq]
      rw [List.foldl_cons, hstep]
      exact ih fun event hevent => hquiet event (List.mem_cons_of_mem _ hevent)
  unfold Resource.trackClass trackDtor
  rw [hevents]
  split_ifs
  · refine h.update fun summary => ?_
    split_ifs <;> rfl
  · exact h

variable [DecidableEq I]

/-- **A module whose functions only access memory** has no issues.

**Proof sketch.** Its functions have none, and the summaries of its classes say at most where the
destructors are. -/
theorem analyzeResourceLifetime_eq_nil {model : Option LifetimeContext}
    {functions : List (LifetimeFunction A B I × MethodClassInfo)}
    (hquiet : ∀ ctx ∈ model, ∀ F ∈ functions, OnlyAccesses F.1 ctx) :
    analyzeResourceLifetime model functions = [] := by
  unfold analyzeResourceLifetime
  cases model with
  | none => rfl
  | some ctx =>
    have hquiet : ∀ F ∈ functions, OnlyAccesses F.1 ctx := hquiet ctx rfl
    dsimp only
    split_ifs
    · rfl
    have hclasses : ∀ summaries : ClassSummaries A I, NothingAcquired summaries →
        NothingAcquired (functions.foldl (fun summaries F => trackClass F.1 F.2 ctx summaries)
          summaries) := by
      clear * - hquiet
      induction functions with
      | nil => exact fun summaries h => h
      | cons F functions ih =>
        intro summaries h
        rw [List.foldl_cons]
        exact ih (fun F' hF' => hquiet F' (List.mem_cons_of_mem _ hF')) _
          (h.trackClass F.2 (hquiet F List.mem_cons_self))
    have hnone : NothingAcquired (EntryMap.empty : ClassSummaries A I) := by
      intro className summary hfind
      exact absurd hfind (by simp)
    rw [List.append_eq_nil_iff]
    refine ⟨List.flatMap_eq_nil_iff.mpr fun F hF => ?_, List.flatMap_eq_nil_iff.mpr ?_⟩
    · rw [analyzeFunctionLifetime_eq_nil (hquiet F hF), List.map_nil]
    · rintro ⟨className, summary⟩ hentry
      have hempty := hclasses EntryMap.empty hnone className summary
        (EntryMap.find_eq_some_iff.mpr hentry)
      unfold ClassLifecycleSummary.missingReleases
      rw [hempty]
      rfl

end Quiet

end StackAnalyzer.Resource
