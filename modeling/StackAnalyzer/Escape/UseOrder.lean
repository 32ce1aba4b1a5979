import StackAnalyzer.Escape.PointerValues
import StackAnalyzer.Graph.FirstFound

set_option relaxedAutoImplicit false
set_option autoImplicit false

/-!
# The order in which uses are listed

The escape analysis follows a tracked pointer through its uses: for a parameter it collects facts,
for a local variable it reports issues. A pointer that is loaded from a local slot is followed if a
tracked pointer has been stored in the slot before the load is looked at, and an unnamed variable is
called after the first named one that its address is stored in. Both can depend on the order in
which uses are listed; this file says when they do not.

## Main definitions

* `StackAnalyzer.Escape.EscapeModule.useEffect` — where a use leads.
* `StackAnalyzer.Escape.EscapeModule.collectParamEscapeFacts` — the facts of a parameter.
* `StackAnalyzer.Escape.EscapeModule.deriveAllocaName` — the name of a local variable.
* `StackAnalyzer.Escape.EscapeModule.analyzeStackPointerEscapesInFunction` — the issues.
* `StackAnalyzer.Escape.EscapeModule.OrderIndependent` — all orders of the uses give the same.
* `StackAnalyzer.Escape.EscapeModule.LateStore`, `StackAnalyzer.Escape.EscapeModule.NamesHarmless`
  — what the result depends on.

## Main results

* `StackAnalyzer.Escape.escapesOrderIndependent_iff` — when the order does not matter.
-/

namespace StackAnalyzer.Escape

open SlotSearch

/-! ## Where a use leads -/

namespace EscapeModule

variable {V F : Type*} [DecidableEq V] [DecidableEq F] (M : EscapeModule V F)
variable (order : V → List V) (fn : F)

/-- Where a use of a tracked pointer leads, in both loops: to the slot that it is stored in, to the
pointer that is loaded, or to a pointer that is derived from it. -/
def useEffect (v user : V) : Effect V :=
  match M.kind user with
  | .store value pointer =>
    if value ≠ v then .none
    else
      match M.localSlot order fn pointer with
      | some slot => .mark slot
      | none => .none
  | .load pointer =>
    if M.stripPointerCasts pointer ≠ v then .none
    else if M.isPointer user then .load user (M.localSlot order fn pointer)
    else .none
  | .bitcast | .phi | .select => if M.isPointer user then .push user else .none
  | .gep _ => .push user
  | _ => .none

/-! ## The facts of a parameter -/

/-- `containsDirectDependency`. -/
def containsDirectDependency (deps : List (DirectParamDependency F)) (callee : F)
    (argIndex : ℕ) : Bool :=
  deps.any fun dep => decide (dep.callee = callee ∧ dep.argIndex = argIndex)

/-- A dependency is added unless it is there. -/
def addDirectDependency (deps : List (DirectParamDependency F)) (callee : F) (argIndex : ℕ) :
    List (DirectParamDependency F) :=
  if containsDirectDependency deps callee argIndex then deps else deps ++ [⟨callee, argIndex⟩]

/-- The loop over the candidates of a virtual call. -/
def indirectDependency (candidates : List F) (argIndex : ℕ) : IndirectCallDependency F :=
  candidates.foldl (fun dep candidate =>
    if (M.function candidate).isDeclaration || !M.shouldAnalyze candidate then
      { dep with hasUnknownTarget := true }
    else if (M.function candidate).argSize ≤ argIndex then { dep with hasUnknownTarget := true }
    else { dep with candidates := addDirectDependency dep.candidates candidate argIndex })
    ⟨[], false⟩

/-- A tracked pointer is passed at a place of a call. -/
def collectCallArg (site : CallSite V F) (argIndex : ℕ) (facts : ParamEscapeFacts F) :
    ParamEscapeFacts F :=
  if site.hasNonCaptureLikeAttr argIndex then facts
  else
    match site.directCallee with
    | some callee =>
      if M.modelSaysNoEscapeArg callee argIndex then facts
      else if isStdLibCallee (M.function callee).name then facts
      else if (M.function callee).argSize ≤ argIndex then
        { facts with hasOpaqueExternalCall := true }
      else if (M.function callee).isDeclaration || !M.shouldAnalyze callee then
        { facts with hasOpaqueExternalCall := true }
      else { facts with directDeps := addDirectDependency facts.directDeps callee argIndex }
    | none =>
      if !site.isLikelyVirtualDispatch then { facts with hasOpaqueExternalCall := true }
      else if site.candidates.isEmpty then { facts with hardEscape := true }
      else
        let dep := M.indirectDependency site.candidates argIndex
        if dep.candidates.isEmpty then { facts with hardEscape := true }
        else
          { facts with
            hasOpaqueExternalCall := facts.hasOpaqueExternalCall || dep.hasUnknownTarget
            indirectDeps := facts.indirectDeps ++ [dep] }

/-- What `collectParamEscapeFacts` collects at a use. -/
def collectUse (v user : V) (facts : ParamEscapeFacts F) : ParamEscapeFacts F :=
  match M.kind user with
  | .ret => { facts with hardEscape := true }
  | .store value pointer =>
    if value ≠ v then facts
    else if (M.localSlot order fn pointer).isSome then facts
    else { facts with hardEscape := true }
  | .call site =>
    (List.range site.args.length).foldl
      (fun facts argIndex =>
        if site.args[argIndex]? = some v then M.collectCallArg site argIndex facts else facts)
      facts
  | _ => facts

/-- The loop of `collectParamEscapeFacts`. -/
def collectSearch : Search V V (ParamEscapeFacts F) where
  effect := M.useEffect order fn
  emit := M.collectUse order fn

/-- `collectParamEscapeFacts`: the state at the end of the loop, with the facts as its output. -/
def collectParamEscapeFacts [Fintype V] (arg : V) : State V (ParamEscapeFacts F) :=
  run (M.collectSearch order fn) order arg .none

/-! ## The name of a local variable -/

/-- What a use tells about the name of a variable, and where the search for a name goes on. -/
def nameSearch : FirstFound.Telling V V (List Char) where
  tells v user :=
    match M.kind user with
    | .call site => if site.debugVariable = [] then none else some site.debugVariable
    | .store value pointer =>
      if value ≠ v then none
      else
        let dst := M.stripPointerCasts pointer
        match M.kind dst with
        | .alloca _ => if M.name dst = [] then none else some (M.name dst)
        | _ => none
    | _ => none
  next v user :=
    match M.kind user with
    | .store value pointer => if value ≠ v then none else some (M.stripPointerCasts pointer)
    | .bitcast | .gep _ => some user
    | .phi | .select => if M.isPointer user then some user else none
    | _ => none

/-- The name of a variable for which no name is found. -/
def unnamed : List Char := "<unnamed>".toList

/-- `deriveAllocaName`. -/
def deriveAllocaName [Fintype V] (alloca : V) : List Char :=
  if M.name alloca ≠ [] then M.name alloca
  else (FirstFound.search M.nameSearch order alloca).getD unnamed

/-- `classifyAllocaOrigin`, where it says that the variable is generated by the compiler, from the
derived name. -/
def isCompilerGenerated (site : AllocaSite F) (alloca : V) (derivedName : List Char) : Bool :=
  let sawUserDebugVar := site.debugVariables.any (!·)
  let sawArtificialDebugVar := site.debugVariables.any id
  if sawUserDebugVar && !sawArtificialDebugVar then false
  else if sawArtificialDebugVar && !sawUserDebugVar then true
  else if derivedName ≠ [] ∧ derivedName ≠ unnamed ∧
      isLikelyCompilerTemporaryName derivedName = true then true
  else if M.name alloca ≠ [] ∧ M.name alloca ≠ unnamed ∧
      isLikelyCompilerTemporaryName (M.name alloca) = true then true
  else false

/-! ## The issues of a local variable -/

end EscapeModule

/-- `StackPointerEscapeIssue`. -/
structure StackPointerEscapeIssue (V : Type*) where
  funcName : List Char
  varName : List Char
  escapeKind : String
  targetName : List Char
  inst : V
  deriving DecidableEq

/-- What a use reports: the kind, the target, and for a callback whether it is dispatched
virtually. -/
structure EscapeReport where
  escapeKind : String
  targetName : List Char
  callback : Option Bool

/-- The tables of the analysis, and whether it is built with `CT_DISABLE_CALL_ARG`. -/
structure EscapeTables (F : Type*) where
  summaries : F → Option (List EscapeSummaryState)
  hardEscapesByArg : F → Option (List Bool)
  ctDisableCallArg : Bool

/-- `summaryStateForArg`. -/
def EscapeTables.summaryStateForArg {F : Type*} (T : EscapeTables F) (callee : F)
    (argIndex : ℕ) : EscapeSummaryState :=
  match T.summaries callee with
  | none => .unknown
  | some perArg => perArg[argIndex]?.getD .unknown

/-- `summaryHasLocalHardEscape`. -/
def EscapeTables.summaryHasLocalHardEscape {F : Type*} (T : EscapeTables F) (callee : F)
    (argIndex : ℕ) : Bool :=
  match T.hardEscapesByArg callee with
  | none => false
  | some perArg => perArg[argIndex]?.getD false

/-- The state of the loop: the issues, whether one of them is not for a callback, and the callbacks
that are kept back. -/
structure IssueState (V : Type*) where
  out : List (StackPointerEscapeIssue V)
  sawNonCallbackEscape : Bool
  deferredCallbacks : List (StackPointerEscapeIssue V × Bool)

namespace EscapeModule

variable {V F : Type*} [DecidableEq V] [DecidableEq F] (M : EscapeModule V F) (T : EscapeTables F)
variable (order : V → List V) (fn : F)

/-- What is reported if a tracked address is passed at a place of a call. -/
def callArgReports (site : CallSite V F) (argIndex : ℕ) : List EscapeReport :=
  if site.hasNonCaptureLikeAttr argIndex then []
  else
    match site.directCallee with
    | some callee =>
      let calleeName := (M.function callee).name
      if T.summaryStateForArg callee argIndex = .noEscape then []
      else if M.modelSaysNoEscapeArg callee argIndex then []
      else if containsText "unique_ptr".toList calleeName ||
        containsText "make_unique".toList calleeName then []
      else if isStdLibCallee calleeName then []
      else if (M.function callee).isDeclaration || (T.summaries callee).isNone then []
      else if T.ctDisableCallArg then [⟨"call_arg", calleeName, none⟩]
      else []
    | none =>
      let hasMayEscapeCandidate := site.candidates.any fun candidate =>
        decide (argIndex < (M.function candidate).argSize) &&
          !M.modelSaysNoEscapeArg candidate argIndex &&
          !isStdLibCallee (M.function candidate).name &&
          decide (T.summaryStateForArg candidate argIndex = .mayEscape) &&
          T.summaryHasLocalHardEscape candidate argIndex
      if site.isLikelyVirtualDispatch && !site.candidates.isEmpty && !hasMayEscapeCandidate then []
      else [⟨"call_callback", [], some site.isLikelyVirtualDispatch⟩]

/-- What is reported at a use of a tracked address. -/
def useReports (v user : V) : List EscapeReport :=
  match M.kind user with
  | .ret => [⟨"return", [], none⟩]
  | .store value pointer =>
    if value ≠ v then []
    else
      let dstObj := M.getUnderlyingPointerObject order pointer
      match M.kind dstObj with
      | .globalVariable => [⟨"store_global", M.name dstObj, none⟩]
      | _ =>
        if (M.localSlot order fn pointer).isSome then []
        else [⟨"store_unknown", M.name dstObj, none⟩]
  | .call site =>
    (List.range site.args.length).flatMap fun argIndex =>
      if site.args[argIndex]? = some v then M.callArgReports T site argIndex else []
  | _ => []

omit [DecidableEq V] [DecidableEq F] in
/-- The issue of a report. -/
def issueOf (varName : List Char) (inst : V) (report : EscapeReport) :
    StackPointerEscapeIssue V where
  funcName := (M.function fn).name
  varName := if varName = [] then unnamed else varName
  escapeKind := report.escapeKind
  targetName := report.targetName
  inst := inst

omit [DecidableEq V] [DecidableEq F] in
/-- A report becomes an issue, or is kept back as a callback. -/
def addReport (varName : List Char) (compilerGenerated : Bool) (inst : V) (st : IssueState V)
    (report : EscapeReport) : IssueState V :=
  let issue := M.issueOf fn varName inst report
  match report.callback with
  | none => { st with out := st.out ++ [issue], sawNonCallbackEscape := true }
  | some isVirtualDispatch =>
    if compilerGenerated then
      { st with deferredCallbacks := st.deferredCallbacks ++ [(issue, isVirtualDispatch)] }
    else { st with out := st.out ++ [issue] }

/-- The loop of `analyzeStackPointerEscapesInFunction` over a variable. -/
def issueSearch (varName : List Char) (compilerGenerated : Bool) :
    Search V V (IssueState V) where
  effect := M.useEffect order fn
  emit v user st :=
    (M.useReports T order fn v user).foldl (M.addReport fn varName compilerGenerated user) st

omit [DecidableEq V] [DecidableEq F] in
/-- `isLikelyArgumentShadowPointerSlot`. -/
def isLikelyArgumentShadowPointerSlot (site : AllocaSite F) (alloca : V) : Bool :=
  site.allocatesPointer && (M.name alloca != []) &&
    (".addr".toList.isSuffixOf (M.name alloca) || "this.addr".toList.isPrefixOf (M.name alloca))

/-- The issues of the loop, and the callbacks that were kept back unless all of them are virtual
and nothing else escapes. -/
def reportedIssues (compilerGenerated : Bool) (st : IssueState V) :
    List (StackPointerEscapeIssue V) :=
  if st.deferredCallbacks = [] then st.out
  else if compilerGenerated && !st.sawNonCallbackEscape &&
    st.deferredCallbacks.all (fun deferred => deferred.2) then st.out
  else st.out ++ st.deferredCallbacks.map fun deferred => deferred.1

variable [Fintype V]

/-- The state at the end of the loop over a variable. -/
def trackAlloca (site : AllocaSite F) (alloca : V) : State V (IssueState V) :=
  let varName := M.deriveAllocaName order alloca
  run (M.issueSearch T order fn varName (M.isCompilerGenerated site alloca varName)) order alloca
    ⟨[], false, []⟩

/-- The issues of a variable. -/
def issuesOfAlloca (site : AllocaSite F) (alloca : V) : List (StackPointerEscapeIssue V) :=
  reportedIssues (M.isCompilerGenerated site alloca (M.deriveAllocaName order alloca))
    (M.trackAlloca T order fn site alloca).out

/-- `analyzeStackPointerEscapesInFunction`. -/
def analyzeStackPointerEscapesInFunction : List (StackPointerEscapeIssue V) :=
  if (M.function fn).isDeclaration then []
  else
    (M.instructions fn).flatMap fun inst =>
      match M.kind inst with
      | .alloca site =>
        if M.isLikelyArgumentShadowPointerSlot site inst then []
        else M.issuesOfAlloca T order fn site inst
      | _ => []

end EscapeModule

/-! ## What a use adds to the facts -/

/-- A single fact. -/
inductive ParamEscapeFact (F : Type*)
  | hardEscape
  | opaqueExternalCall
  | direct (dep : DirectParamDependency F)
  | indirect (dep : IndirectCallDependency F)

/-- The facts include one. -/
def ParamEscapeFacts.Says {F : Type*} (facts : ParamEscapeFacts F) : ParamEscapeFact F → Prop
  | .hardEscape => facts.hardEscape = true
  | .opaqueExternalCall => facts.hasOpaqueExternalCall = true
  | .direct dep => dep ∈ facts.directDeps
  | .indirect dep => dep ∈ facts.indirectDeps

/-- The same flags, and the same sets of dependencies. -/
def SameFacts {F : Type*} (facts facts' : ParamEscapeFacts F) : Prop :=
  facts.hardEscape = facts'.hardEscape ∧
    facts.hasOpaqueExternalCall = facts'.hasOpaqueExternalCall ∧
      (∀ dep, dep ∈ facts.directDeps ↔ dep ∈ facts'.directDeps) ∧
        ∀ dep, dep ∈ facts.indirectDeps ↔ dep ∈ facts'.indirectDeps

theorem sameFacts_of_says {F : Type*} {facts facts' : ParamEscapeFacts F}
    (h : ∀ x, facts.Says x ↔ facts'.Says x) : SameFacts facts facts' :=
  ⟨Bool.eq_iff_iff.mpr (h .hardEscape), Bool.eq_iff_iff.mpr (h .opaqueExternalCall),
    fun dep => h (.direct dep), fun dep => h (.indirect dep)⟩

namespace EscapeModule

variable {V F : Type*} [DecidableEq V] [DecidableEq F] (M : EscapeModule V F)
variable (order : V → List V) (fn : F)

theorem mem_addDirectDependency (deps : List (DirectParamDependency F)) (callee : F)
    (argIndex : ℕ) (dep : DirectParamDependency F) :
    dep ∈ addDirectDependency deps callee argIndex ↔ dep ∈ deps ∨ dep = ⟨callee, argIndex⟩ := by
  unfold addDirectDependency
  split_ifs with hcontains
  · refine ⟨Or.inl, fun h => h.elim id ?_⟩
    rintro rfl
    obtain ⟨other, hother, heq⟩ := List.any_eq_true.mp hcontains
    obtain ⟨rfl, rfl⟩ := of_decide_eq_true heq
    exact hother
  · simp

omit [DecidableEq V] in
/-- A place of a call adds the same to all facts. -/
theorem says_collectCallArg (site : CallSite V F) (argIndex : ℕ) (facts : ParamEscapeFacts F)
    (x : ParamEscapeFact F) : (M.collectCallArg site argIndex facts).Says x ↔
      facts.Says x ∨ (M.collectCallArg site argIndex .none).Says x := by
  unfold collectCallArg
  cases site.directCallee with
  | some callee =>
    dsimp only
    split_ifs <;> cases x <;>
      simp [ParamEscapeFacts.Says, ParamEscapeFacts.none, mem_addDirectDependency]
  | none =>
    dsimp only
    split_ifs <;> cases x <;> simp [ParamEscapeFacts.Says, ParamEscapeFacts.none]

/-- **A use adds the same to all facts.** -/
theorem says_collectUse (v user : V) (facts : ParamEscapeFacts F) (x : ParamEscapeFact F) :
    (M.collectUse order fn v user facts).Says x ↔
      facts.Says x ∨ (M.collectUse order fn v user .none).Says x := by
  have hcall : ∀ (site : CallSite V F) (argIndex : ℕ) (facts : ParamEscapeFacts F)
      (x : ParamEscapeFact F),
      (if site.args[argIndex]? = some v then M.collectCallArg site argIndex facts
        else facts).Says x ↔ facts.Says x ∨ (site.args[argIndex]? = some v ∧
          (M.collectCallArg site argIndex .none).Says x) := by
    intro site argIndex facts x
    split_ifs with hv
    · rw [says_collectCallArg, and_iff_right hv]
    · simp [hv]
  have hnone : ¬ParamEscapeFacts.none.Says x := by
    cases x <;> simp [ParamEscapeFacts.Says, ParamEscapeFacts.none]
  unfold collectUse
  cases M.kind user with
  | ret => cases x <;> simp [ParamEscapeFacts.Says, ParamEscapeFacts.none]
  | store value pointer =>
    dsimp only
    split_ifs <;> cases x <;> simp [ParamEscapeFacts.Says, ParamEscapeFacts.none]
  | call site =>
    dsimp only
    rw [mem_foldl (M := ParamEscapeFacts.Says) (hcall site),
      mem_foldl (M := ParamEscapeFacts.Says) (hcall site), or_iff_right hnone]
  | _ => exact (or_iff_left hnone).symm

/-! ## What a use adds to the issues -/

end EscapeModule

/-- A single thing that the loop over a variable keeps. -/
inductive IssueFact (V : Type*)
  | issue (issue : StackPointerEscapeIssue V)
  | nonCallbackEscape
  | deferred (deferred : StackPointerEscapeIssue V × Bool)

/-- The state includes one. -/
def IssueState.Says {V : Type*} (st : IssueState V) : IssueFact V → Prop
  | .issue issue => issue ∈ st.out
  | .nonCallbackEscape => st.sawNonCallbackEscape = true
  | .deferred deferred => deferred ∈ st.deferredCallbacks

namespace EscapeModule

variable {V F : Type*} (M : EscapeModule V F) (fn : F)

/-- What a report adds. -/
def ReportAdds (varName : List Char) (compilerGenerated : Bool) (inst : V)
    (report : EscapeReport) : IssueFact V → Prop
  | .issue issue => issue = M.issueOf fn varName inst report ∧
      (report.callback = none ∨ compilerGenerated = false)
  | .nonCallbackEscape => report.callback = none
  | .deferred deferred => deferred.1 = M.issueOf fn varName inst report ∧
      report.callback = some deferred.2 ∧ compilerGenerated = true

theorem says_addReport (varName : List Char) (compilerGenerated : Bool) (inst : V)
    (report : EscapeReport) (st : IssueState V) (x : IssueFact V) :
    (M.addReport fn varName compilerGenerated inst st report).Says x ↔
      st.Says x ∨ M.ReportAdds fn varName compilerGenerated inst report x := by
  unfold addReport
  cases hcallback : report.callback with
  | none => cases x <;> simp [IssueState.Says, ReportAdds, hcallback]
  | some isVirtualDispatch =>
    cases compilerGenerated with
    | false => cases x <;> simp [IssueState.Says, ReportAdds, hcallback]
    | true =>
      cases x with
      | issue issue => simp [IssueState.Says, ReportAdds, hcallback]
      | nonCallbackEscape => simp [IssueState.Says, ReportAdds, hcallback]
      | deferred deferred =>
        simp [IssueState.Says, ReportAdds, hcallback, Prod.ext_iff, eq_comm]

end EscapeModule

/-! ## What the result depends on -/

namespace EscapeModule

variable {V F : Type*} [DecidableEq V] [DecidableEq F] (M : EscapeModule V F) (T : EscapeTables F)
variable (uses : V → List V) (fn : F)

/-- **A late store**: in some order of the uses a load from a local slot is looked at before the
tracked pointer is stored in the slot. -/
def LateStore (start : V) : Prop := LateMark (M.useEffect uses fn) uses start

omit [DecidableEq F] in
/-- A variable can get a name: its own, or one that a search can find first. -/
def CanBeNamed (alloca : V) (varName : List Char) : Prop :=
  if M.name alloca ≠ [] then varName = M.name alloca
  else FirstFound.CanBeFound M.nameSearch uses alloca varName ∨
    varName = unnamed ∧ ∀ name, ¬FirstFound.CanBeFound M.nameSearch uses alloca name

/-- A use of a tracked address of a variable reports something. -/
def ReportedAt (alloca user : V) (report : EscapeReport) : Prop :=
  ∃ v, Tracked (M.useEffect uses fn) uses alloca v ∧ user ∈ uses v ∧
    report ∈ M.useReports T uses fn v user

/-- Nothing is reported for a variable with this name: all that could be is a virtual callback, and
by its name the variable is generated by the compiler. -/
def Unreported (site : AllocaSite F) (alloca : V) (varName : List Char) : Prop :=
  ∀ user report, M.ReportedAt T uses fn alloca user report →
    report.callback = some true ∧ M.isCompilerGenerated site alloca varName = true

/-- **The names do no harm**: a variable can get only one name, or nothing is reported for it. -/
def NamesHarmless (site : AllocaSite F) (alloca : V) : Prop :=
  ∀ name name', M.CanBeNamed uses alloca name → M.CanBeNamed uses alloca name' →
    name = name' ∨ M.Unreported T uses fn site alloca name ∧ M.Unreported T uses fn site alloca name'

omit [DecidableEq V] [DecidableEq F] in
/-- A pointer parameter of the function. -/
def PointerArgument (arg : V) : Prop :=
  (∃ argNo, M.kind arg = .argument fn argNo) ∧ M.isPointer arg = true

omit [DecidableEq V] [DecidableEq F] in
/-- A variable of the function that is tracked. -/
def TrackedAlloca (site : AllocaSite F) (alloca : V) : Prop :=
  alloca ∈ M.instructions fn ∧ M.kind alloca = .alloca site ∧
    M.isLikelyArgumentShadowPointerSlot site alloca = false

/-- **The order of the uses does not matter** for a function: all orders give the same facts about
its pointer parameters and the same issues of its variables, and loads from local slots are followed
if and only if a tracked pointer is stored in the slot. -/
structure OrderIndependent [Fintype V] : Prop where
  facts : ∀ arg, M.PointerArgument fn arg → ∀ order order' : V → List V,
    (∀ v, (order v).Perm (uses v)) → (∀ v, (order' v).Perm (uses v)) →
      SameFacts (M.collectParamEscapeFacts order fn arg).out
        (M.collectParamEscapeFacts order' fn arg).out
  factsFollowed : ∀ arg, M.PointerArgument fn arg → ∀ order : V → List V,
    (∀ v, (order v).Perm (uses v)) →
      LoadsFollowed (M.useEffect uses fn) uses (M.collectParamEscapeFacts order fn arg).visited
  issues : ∀ site alloca, M.TrackedAlloca fn site alloca → ∀ order order' : V → List V,
    (∀ v, (order v).Perm (uses v)) → (∀ v, (order' v).Perm (uses v)) → ∀ issue,
      issue ∈ M.issuesOfAlloca T order fn site alloca ↔
        issue ∈ M.issuesOfAlloca T order' fn site alloca
  issuesFollowed : ∀ site alloca, M.TrackedAlloca fn site alloca → ∀ order : V → List V,
    (∀ v, (order v).Perm (uses v)) →
      LoadsFollowed (M.useEffect uses fn) uses (M.trackAlloca T order fn site alloca).visited
  functionIssues : ∀ order order' : V → List V,
    (∀ v, (order v).Perm (uses v)) → (∀ v, (order' v).Perm (uses v)) → ∀ issue,
      issue ∈ M.analyzeStackPointerEscapesInFunction T order fn ↔
        issue ∈ M.analyzeStackPointerEscapesInFunction T order' fn

/-! ## What does not depend on the order -/

section Order

variable {uses} {order : V → List V} (hperm : ∀ v, (order v).Perm (uses v))

include hperm

theorem useEffect_of_perm : M.useEffect order fn = M.useEffect uses fn := by
  funext v user
  simp only [useEffect, M.localSlot_of_perm hperm]

theorem collectSearch_of_perm : M.collectSearch order fn = M.collectSearch uses fn := by
  have hemit : M.collectUse order fn = M.collectUse uses fn := by
    funext v user facts
    simp only [collectUse, M.localSlot_of_perm hperm]
  simp only [collectSearch, M.useEffect_of_perm fn hperm, hemit]

theorem issueSearch_of_perm (varName : List Char) (compilerGenerated : Bool) :
    M.issueSearch T order fn varName compilerGenerated =
      M.issueSearch T uses fn varName compilerGenerated := by
  have hreports : M.useReports T order fn = M.useReports T uses fn := by
    funext v user
    simp only [useReports, M.localSlot_of_perm hperm, M.getUnderlyingPointerObject_of_perm hperm]
  simp only [issueSearch, M.useEffect_of_perm fn hperm, hreports]

end Order

/-- A local slot is a variable. -/
theorem kind_of_localSlot {order : V → List V} {ptr slot : V}
    (h : M.localSlot order fn ptr = some slot) : ∃ site, M.kind slot = .alloca site := by
  unfold localSlot at h
  dsimp only at h
  split at h
  · rename_i site hkind
    split_ifs at h
    cases h
    exact ⟨site, hkind⟩
  · cases h

/-- What is pushed is a variable, or the user itself. -/
theorem mayPush_useEffect {v user w : V} (h : (M.useEffect uses fn v user).mayPush = some w) :
    (∃ site, M.kind w = .alloca site) ∨ w = user ∧
      ∀ pointer, M.kind user = .load pointer → M.stripPointerCasts pointer = v ∧
        M.useEffect uses fn v user = .load user (M.localSlot uses fn pointer) := by
  cases hkind : M.kind user with
  | store value pointer =>
    simp only [useEffect, hkind] at h
    split_ifs at h
    · cases h
    · cases hslot : M.localSlot uses fn pointer with
      | none =>
        rw [hslot] at h
        cases h
      | some slot =>
        rw [hslot] at h
        cases h
        exact Or.inl (M.kind_of_localSlot fn hslot)
  | load pointer =>
    simp only [useEffect, hkind] at h
    split_ifs at h with hstrip hpointer
    · cases h
    · cases h
      refine Or.inr ⟨rfl, fun p hp => ?_⟩
      cases hp
      refine ⟨not_not.mp hstrip, ?_⟩
      simp only [useEffect, hkind, if_neg hstrip, if_pos hpointer]
    · cases h
  | bitcast | phi | select =>
    simp only [useEffect, hkind] at h
    split_ifs at h
    · cases h
      exact Or.inr ⟨rfl, fun p hp => by cases hp⟩
    · cases h
  | gep pointer =>
    simp only [useEffect, hkind] at h
    cases h
    exact Or.inr ⟨rfl, fun p hp => by cases hp⟩
  | _ =>
    simp only [useEffect, hkind] at h
    cases h

/-- A slotted load is of the load instruction itself. -/
theorem kind_of_useEffect_load {v user w : V} {slot : Option V}
    (h : M.useEffect uses fn v user = .load w slot) :
    w = user ∧ ∃ pointer, M.kind user = .load pointer := by
  cases hkind : M.kind user with
  | load pointer =>
    simp only [useEffect, hkind] at h
    split_ifs at h
    cases h
    exact ⟨rfl, pointer, rfl⟩
  | store value pointer =>
    simp only [useEffect, hkind] at h
    split_ifs at h
    cases hslot : M.localSlot uses fn pointer with
    | none =>
      rw [hslot] at h
      cases h
    | some slot =>
      rw [hslot] at h
      cases h
  | bitcast | phi | select =>
    simp only [useEffect, hkind] at h
    split_ifs at h
  | _ =>
    simp only [useEffect, hkind] at h
    cases h

/-- **Each load is from one pointer**, so what it loads can be pushed only there. -/
theorem loadsUnique {start : V} (hstart : ∀ pointer, M.kind start ≠ .load pointer) :
    LoadsUnique (M.useEffect uses fn) uses start := by
  intro v w s u _ heffect
  obtain ⟨rfl, pointer, hkind⟩ := M.kind_of_useEffect_load uses fn heffect
  refine ⟨fun heq => hstart pointer (heq ▸ hkind), fun v' u' _ hpush => ?_⟩
  rcases M.mayPush_useEffect uses fn hpush with ⟨site, halloca⟩ | ⟨rfl, hload⟩
  · rw [hkind] at halloca
    cases halloca
  · obtain ⟨hv', heffect'⟩ := hload pointer hkind
    have hmay : (M.useEffect uses fn v w).mayPush = some w := by
      rw [heffect]
      rfl
    rcases M.mayPush_useEffect uses fn hmay with ⟨site, halloca⟩ | ⟨-, hload'⟩
    · rw [hkind] at halloca
      cases halloca
    · obtain ⟨hv, hslot⟩ := hload' pointer hkind
      refine ⟨hv'.symm.trans hv, ?_⟩
      rw [heffect', ← hslot, heffect]

/-! ## The results in all orders -/

section Results

variable [Fintype V] {uses} {order : V → List V} (hperm : ∀ v, (order v).Perm (uses v))

include hperm

theorem visited_collectParamEscapeFacts (arg : V) :
    (M.collectParamEscapeFacts order fn arg).visited =
      (run (M.collectSearch uses fn) order arg .none).visited := by
  rw [collectParamEscapeFacts, M.collectSearch_of_perm fn hperm]

/-- Both loops visit the same. -/
theorem visited_trackAlloca (site : AllocaSite F) (alloca : V) :
    (M.trackAlloca T order fn site alloca).visited =
      (run (M.collectSearch uses fn) order alloca .none).visited := by
  unfold trackAlloca
  generalize M.deriveAllocaName order alloca = name
  have heffect : (M.issueSearch T order fn name (M.isCompilerGenerated site alloca name)).effect =
      (M.collectSearch uses fn).effect := M.useEffect_of_perm fn hperm
  exact visited_run_congr heffect order alloca _ _

/-- Without late stores the facts are those of all tracked pointers. -/
theorem says_collectParamEscapeFacts {arg : V} (hlate : ¬M.LateStore uses fn arg)
    (x : ParamEscapeFact F) : (M.collectParamEscapeFacts order fn arg).out.Says x ↔
      ∃ v, Tracked (M.useEffect uses fn) uses arg v ∧
        ∃ u ∈ uses v, (M.collectUse uses fn v u .none).Says x := by
  have hnone : ¬ParamEscapeFacts.none.Says x := by
    cases x <;> simp [ParamEscapeFacts.Says, ParamEscapeFacts.none]
  unfold collectParamEscapeFacts
  rw [M.collectSearch_of_perm fn hperm]
  rw [mem_out_run (M := ParamEscapeFacts.Says) (M.collectSearch uses fn) hperm arg .none
    (M.says_collectUse uses fn), or_iff_right hnone]
  simp only [mem_visited_run_iff (M.collectSearch uses fn) hperm arg .none hlate]
  rfl

omit [DecidableEq F] in
/-- The name of a variable is one that it can get. -/
theorem canBeNamed_deriveAllocaName (alloca : V) :
    M.CanBeNamed uses alloca (M.deriveAllocaName order alloca) := by
  unfold CanBeNamed deriveAllocaName
  split_ifs with hname
  · rfl
  · have hsome : (FirstFound.search M.nameSearch order alloca).isSome = true ↔ _ :=
      FirstFound.isSome_search_iff M.nameSearch hperm
    cases hsearch : FirstFound.search M.nameSearch order alloca with
    | some name => exact Or.inl (FirstFound.canBeFound_of_search M.nameSearch hperm hsearch)
    | none =>
      refine Or.inr ⟨rfl, fun name hname => ?_⟩
      rw [hsearch] at hsome
      exact absurd (hsome.mpr ⟨name, hname⟩) (by simp)

omit hperm in
omit [Fintype V] [DecidableEq F] [DecidableEq V] in
/-- **What is reported in the end**: an issue for each report, unless all of them are virtual
callbacks and the variable is generated by the compiler. -/
theorem mem_reportedIssues {reported : V → EscapeReport → Prop} {name : List Char}
    {compilerGenerated : Bool} {st : IssueState V}
    (htold : ∀ x, st.Says x ↔ ∃ user report, reported user report ∧
      M.ReportAdds fn name compilerGenerated user report x) (issue : StackPointerEscapeIssue V) :
    issue ∈ reportedIssues compilerGenerated st ↔
      (¬∀ user report, reported user report →
        report.callback = some true ∧ compilerGenerated = true) ∧
          ∃ user report, reported user report ∧ issue = M.issueOf fn name user report := by
  have hissue : issue ∈ st.out ↔ _ := htold (.issue issue)
  have hsaw : st.sawNonCallbackEscape = true ↔ _ := htold .nonCallbackEscape
  have hdeferred : ∀ d, d ∈ st.deferredCallbacks ↔ _ := fun d => htold (.deferred d)
  simp only [ReportAdds] at hissue hsaw hdeferred
  unfold reportedIssues
  cases compilerGenerated with
  | false =>
    have hnil : st.deferredCallbacks = [] := by
      apply List.eq_nil_iff_forall_not_mem.mpr
      intro d hd
      obtain ⟨user, report, -, -, -, hfalse⟩ := (hdeferred d).mp hd
      cases hfalse
    rw [if_pos hnil, hissue]
    constructor
    · rintro ⟨user, report, hreport, heq, -⟩
      refine ⟨fun hall => ?_, user, report, hreport, heq⟩
      cases (hall user report hreport).2
    · rintro ⟨-, user, report, hreport, heq⟩
      exact ⟨user, report, hreport, heq, Or.inr rfl⟩
  | true =>
    by_cases hall : ∀ user report, reported user report → report.callback = some true
    · -- nothing but virtual callbacks, which are all kept back
      have hout : issue ∉ st.out := by
        intro hmem
        obtain ⟨user, report, hreport, -, hnone | hfalse⟩ := hissue.mp hmem
        · rw [hall user report hreport] at hnone
          cases hnone
        · cases hfalse
      have hnot : st.sawNonCallbackEscape = false := by
        apply Bool.eq_false_iff.mpr
        intro htrue
        obtain ⟨user, report, hreport, hnone⟩ := hsaw.mp htrue
        rw [hall user report hreport] at hnone
        cases hnone
      have hvirtual : st.deferredCallbacks.all (fun deferred => deferred.2) = true := by
        apply List.all_eq_true.mpr
        intro d hd
        obtain ⟨user, report, hreport, -, hcallback, -⟩ := (hdeferred d).mp hd
        rw [hall user report hreport] at hcallback
        exact (Option.some.inj hcallback).symm
      simp only [hnot, hvirtual, Bool.not_false, Bool.and_true, if_true, ite_self]
      refine ⟨fun hmem => absurd hmem hout, fun h => absurd ?_ h.1⟩
      exact fun user report hreport => ⟨hall user report hreport, trivial⟩
    · have hkept : issue ∈ (if st.deferredCallbacks = [] then st.out
          else if true && !st.sawNonCallbackEscape &&
            st.deferredCallbacks.all (fun deferred => deferred.2) then st.out
          else st.out ++ st.deferredCallbacks.map fun deferred => deferred.1) ↔
          issue ∈ st.out ∨ ∃ d ∈ st.deferredCallbacks, d.1 = issue := by
        split_ifs with hnil hsuppress
        · simp [hnil]
        · refine absurd ?_ hall
          simp only [Bool.true_and, Bool.and_eq_true, Bool.not_eq_true',
            List.all_eq_true] at hsuppress
          intro user report hreport
          cases hcallback : report.callback with
          | none =>
            have htrue := hsaw.mpr ⟨user, report, hreport, hcallback⟩
            rw [hsuppress.1] at htrue
            cases htrue
          | some isVirtualDispatch =>
            have hd := (hdeferred (_, isVirtualDispatch)).mpr
              ⟨user, report, hreport, rfl, hcallback, rfl⟩
            exact congrArg some (hsuppress.2 _ hd)
        · rw [List.mem_append, List.mem_map]
      rw [hkept, hissue]
      constructor
      · intro h
        refine ⟨fun h' => hall fun user report hreport => (h' user report hreport).1, ?_⟩
        rcases h with ⟨user, report, hreport, heq, -⟩ | ⟨d, hd, rfl⟩
        · exact ⟨user, report, hreport, heq⟩
        · obtain ⟨user, report, hreport, heq, -⟩ := (hdeferred d).mp hd
          exact ⟨user, report, hreport, heq⟩
      · rintro ⟨-, user, report, hreport, heq⟩
        cases hcallback : report.callback with
        | none => exact Or.inl ⟨user, report, hreport, heq, Or.inl hcallback⟩
        | some isVirtualDispatch =>
          exact Or.inr ⟨(issue, isVirtualDispatch),
            (hdeferred _).mpr ⟨user, report, hreport, heq, hcallback, rfl⟩, rfl⟩

/-- Without late stores the loop over a variable keeps what the reports at tracked addresses add. -/
theorem says_trackAlloca {site : AllocaSite F} {alloca : V}
    (hlate : ¬M.LateStore uses fn alloca) (x : IssueFact V) :
    (M.trackAlloca T order fn site alloca).out.Says x ↔
      ∃ user report, M.ReportedAt T uses fn alloca user report ∧
        M.ReportAdds fn (M.deriveAllocaName order alloca)
          (M.isCompilerGenerated site alloca (M.deriveAllocaName order alloca)) user report x := by
  unfold trackAlloca
  generalize M.deriveAllocaName order alloca = name
  dsimp only
  generalize M.isCompilerGenerated site alloca name = compilerGenerated
  have hnone : ¬(⟨[], false, []⟩ : IssueState V).Says x := by
    cases x <;> simp [IssueState.Says]
  have hemit : ∀ v user (st : IssueState V) x,
      ((M.issueSearch T uses fn name compilerGenerated).emit v user st).Says x ↔ st.Says x ∨
        ∃ report ∈ M.useReports T uses fn v user,
          M.ReportAdds fn name compilerGenerated user report x :=
    fun v user st x => mem_foldl (M := IssueState.Says)
      (fun report st => M.says_addReport fn name compilerGenerated user report st) _ st x
  rw [M.issueSearch_of_perm T fn hperm]
  rw [mem_out_run (M := IssueState.Says) _ hperm alloca _ hemit, or_iff_right hnone]
  simp only [mem_visited_run_iff (M.issueSearch T uses fn name compilerGenerated) hperm alloca _
    hlate]
  constructor
  · rintro ⟨v, hv, user, huser, report, hreport, hadds⟩
    exact ⟨user, report, ⟨v, hv, huser, hreport⟩, hadds⟩
  · rintro ⟨user, report, ⟨v, hv, huser, hreport⟩, hadds⟩
    exact ⟨v, hv, user, huser, report, hreport, hadds⟩

/-- **The issues of a variable** without late stores: those of the reports at tracked addresses, if
the variable is reported under its name. -/
theorem mem_issuesOfAlloca {site : AllocaSite F} {alloca : V} (hlate : ¬M.LateStore uses fn alloca)
    (issue : StackPointerEscapeIssue V) : issue ∈ M.issuesOfAlloca T order fn site alloca ↔
      ¬M.Unreported T uses fn site alloca (M.deriveAllocaName order alloca) ∧
        ∃ user report, M.ReportedAt T uses fn alloca user report ∧
          issue = M.issueOf fn (M.deriveAllocaName order alloca) user report :=
  M.mem_reportedIssues fn (M.says_trackAlloca T fn hperm hlate) issue

end Results

/-! ## When the order does not matter -/

section Iff

variable [Fintype V]

omit [DecidableEq F] in
/-- A name that a variable can get is the one that it gets in some order. -/
theorem exists_deriveAllocaName_eq {uses : V → List V} {alloca : V} {name : List Char}
    (h : M.CanBeNamed uses alloca name) :
    ∃ order : V → List V, (∀ v, (order v).Perm (uses v)) ∧
      M.deriveAllocaName order alloca = name := by
  unfold CanBeNamed at h
  unfold deriveAllocaName
  split_ifs at h ⊢ with hname
  · exact ⟨uses, fun v => .refl _, h.symm⟩
  · rcases h with h | ⟨rfl, hnone⟩
    · obtain ⟨order, hperm, hsearch⟩ := FirstFound.exists_search_eq M.nameSearch h
      refine ⟨order, hperm, ?_⟩
      rw [hsearch]
      rfl
    · refine ⟨uses, fun v => .refl _, ?_⟩
      have hsearch : FirstFound.search M.nameSearch uses alloca = none := by
        apply Option.not_isSome_iff_eq_none.mp
        intro hsome
        obtain ⟨name, hname⟩ :=
          (FirstFound.isSome_search_iff M.nameSearch fun v => .refl _).mp hsome
        exact hnone name hname
      rw [hsearch]
      rfl

omit [DecidableEq F] [DecidableEq V] [Fintype V] in
/-- What is not empty tells the names apart. -/
theorem issueOf_varName {name : List Char} (hname : name ≠ []) (inst : V) (report : EscapeReport) :
    (M.issueOf fn name inst report).varName = name :=
  if_neg hname

omit [DecidableEq F] [Fintype V] in
/-- No empty name is told. -/
theorem ne_nil_of_tells {v user : V} {name : List Char}
    (h : M.nameSearch.tells v user = some name) : name ≠ [] := by
  cases hkind : M.kind user with
  | call site =>
    simp only [nameSearch, hkind] at h
    split_ifs at h with hne
    exact Option.some.inj h ▸ hne
  | store value pointer =>
    simp only [nameSearch, hkind] at h
    cases hdst : M.kind (M.stripPointerCasts pointer) with
    | alloca site =>
      simp only [hdst] at h
      split_ifs at h with hvalue hne
      exact Option.some.inj h ▸ hne
    | _ =>
      simp only [hdst, ite_self] at h
      cases h
  | _ =>
    simp only [nameSearch, hkind] at h
    cases h

omit [DecidableEq F] [Fintype V] in
/-- No variable can get an empty name. -/
theorem ne_nil_of_canBeNamed {uses : V → List V} {alloca : V} {name : List Char}
    (h : M.CanBeNamed uses alloca name) : name ≠ [] := by
  unfold CanBeNamed at h
  split_ifs at h with hname
  · exact h ▸ hname
  · rcases h with ⟨b, v, user, -, -, -, htells⟩ | ⟨rfl, -⟩
    · exact M.ne_nil_of_tells htells
    · exact List.cons_ne_nil _ _

/-- All orders report the same for a variable without late stores iff its names do no harm. -/
theorem issues_iff {uses : V → List V} {site : AllocaSite F} {alloca : V}
    (hlate : ¬M.LateStore uses fn alloca) :
    (∀ order order' : V → List V, (∀ v, (order v).Perm (uses v)) →
      (∀ v, (order' v).Perm (uses v)) → ∀ issue,
        issue ∈ M.issuesOfAlloca T order fn site alloca ↔
          issue ∈ M.issuesOfAlloca T order' fn site alloca) ↔
      M.NamesHarmless T uses fn site alloca := by
  constructor
  · intro h name name' hname hname'
    obtain ⟨order, hperm, rfl⟩ := M.exists_deriveAllocaName_eq hname
    obtain ⟨order', hperm', rfl⟩ := M.exists_deriveAllocaName_eq hname'
    have hsame := h order order' hperm hperm'
    simp only [M.mem_issuesOfAlloca T fn hperm hlate,
      M.mem_issuesOfAlloca T fn hperm' hlate] at hsame
    -- an issue tells under which name it is reported
    have hunreported : ∀ {n n' : List Char}, M.CanBeNamed uses alloca n →
        M.CanBeNamed uses alloca n' → n ≠ n' →
        (∀ issue, (¬M.Unreported T uses fn site alloca n ∧
          ∃ user report, M.ReportedAt T uses fn alloca user report ∧
            issue = M.issueOf fn n user report) →
          ∃ user report, M.ReportedAt T uses fn alloca user report ∧
            issue = M.issueOf fn n' user report) →
        M.Unreported T uses fn site alloca n := by
      intro n n' hn hn' hne himp
      by_contra hnot
      have hex := hnot
      unfold Unreported at hex
      push Not at hex
      obtain ⟨user, report, hreport, -⟩ := hex
      obtain ⟨user', report', -, heq⟩ := himp _ ⟨hnot, user, report, hreport, rfl⟩
      have hvar := congrArg StackPointerEscapeIssue.varName heq
      rw [M.issueOf_varName fn (M.ne_nil_of_canBeNamed hn),
        M.issueOf_varName fn (M.ne_nil_of_canBeNamed hn')] at hvar
      exact hne hvar
    by_cases hne : M.deriveAllocaName order alloca = M.deriveAllocaName order' alloca
    · exact Or.inl hne
    · refine Or.inr ⟨hunreported hname hname' hne fun issue hi => ((hsame issue).mp hi).2, ?_⟩
      exact hunreported hname' hname (Ne.symm hne) fun issue hi => ((hsame issue).mpr hi).2
  · intro h order order' hperm hperm' issue
    rw [M.mem_issuesOfAlloca T fn hperm hlate, M.mem_issuesOfAlloca T fn hperm' hlate]
    rcases h _ _ (M.canBeNamed_deriveAllocaName hperm alloca)
      (M.canBeNamed_deriveAllocaName hperm' alloca) with heq | ⟨hun, hun'⟩
    · rw [heq]
    · exact iff_of_false (fun hi => hi.1 hun) fun hi => hi.1 hun'

/-- **Escape propagation does not depend on the order of the uses** iff no tracked pointer is stored
late in a slot, and the names of unnamed variables do no harm.

**Proof sketch.** With a late store some order does not follow the load, by `loadsFollowed_iff`.
Without one every order visits the tracked pointers, so the facts are determined, and the issues are
up to the name of the variable, which is one of those that can be found first. -/
theorem escapesOrderIndependent_iff {uses : V → List V} :
    M.OrderIndependent T uses fn ↔
      (∀ arg, M.PointerArgument fn arg → ¬M.LateStore uses fn arg) ∧
        ∀ site alloca, M.TrackedAlloca fn site alloca →
          ¬M.LateStore uses fn alloca ∧ M.NamesHarmless T uses fn site alloca := by
  have harg : ∀ {arg}, M.PointerArgument fn arg → ∀ pointer, M.kind arg ≠ .load pointer := by
    rintro arg ⟨⟨argNo, hkind⟩, -⟩ pointer hload
    rw [hkind] at hload
    cases hload
  have halloca : ∀ {site alloca}, M.TrackedAlloca fn site alloca →
      ∀ pointer, M.kind alloca ≠ .load pointer := by
    rintro site alloca ⟨-, hkind, -⟩ pointer hload
    rw [hkind] at hload
    cases hload
  constructor
  · intro h
    refine ⟨fun arg hpointer => ?_, fun site alloca htracked => ?_⟩
    · apply (loadsFollowed_iff (M.collectSearch uses fn) arg .none
        (M.loadsUnique uses fn (harg hpointer))).mp
      intro order hperm
      have hfollow := h.factsFollowed arg hpointer order hperm
      rwa [M.visited_collectParamEscapeFacts fn hperm] at hfollow
    · have hlate : ¬M.LateStore uses fn alloca := by
        apply (loadsFollowed_iff (M.collectSearch uses fn) alloca .none
          (M.loadsUnique uses fn (halloca htracked))).mp
        intro order hperm
        have hfollow := h.issuesFollowed site alloca htracked order hperm
        rwa [M.visited_trackAlloca T fn hperm] at hfollow
      exact ⟨hlate, (M.issues_iff T fn hlate).mp (h.issues site alloca htracked)⟩
  · rintro ⟨hargs, hallocas⟩
    have hissues : ∀ site alloca, M.TrackedAlloca fn site alloca → _ := fun site alloca htracked =>
      (M.issues_iff T fn (hallocas site alloca htracked).1).mpr (hallocas site alloca htracked).2
    refine ⟨?_, ?_, hissues, ?_, ?_⟩
    · intro arg hpointer order order' hperm hperm'
      apply sameFacts_of_says
      intro x
      rw [M.says_collectParamEscapeFacts fn hperm (hargs arg hpointer),
        M.says_collectParamEscapeFacts fn hperm' (hargs arg hpointer)]
    · intro arg hpointer order hperm
      rw [M.visited_collectParamEscapeFacts fn hperm]
      exact loadsFollowed_run (M.collectSearch uses fn) hperm arg .none
        (M.loadsUnique uses fn (harg hpointer)) (hargs arg hpointer)
    · intro site alloca htracked order hperm
      rw [M.visited_trackAlloca T fn hperm]
      exact loadsFollowed_run (M.collectSearch uses fn) hperm alloca .none
        (M.loadsUnique uses fn (halloca htracked)) (hallocas site alloca htracked).1
    · intro order order' hperm hperm' issue
      unfold analyzeStackPointerEscapesInFunction
      split_ifs
      · exact Iff.rfl
      · simp only [List.mem_flatMap]
        refine exists_congr fun inst => and_congr_right fun hinst => ?_
        cases hkind : M.kind inst with
        | alloca site =>
          dsimp only
          by_cases hshadow : M.isLikelyArgumentShadowPointerSlot site inst = true
          · rw [if_pos hshadow, if_pos hshadow]
          · rw [if_neg hshadow, if_neg hshadow]
            exact hissues site inst ⟨hinst, hkind, Bool.eq_false_iff.mpr hshadow⟩ order order'
              hperm hperm' issue
        | _ => exact Iff.rfl

end Iff

end EscapeModule

/-! ## A load that is looked at first -/

/-- The values of `void *p; p = &p; return p;`. -/
inductive SlotValue
  | slot
  | store
  | load
  | ret
  deriving DecidableEq

theorem SlotValue.mem_all (v : SlotValue) : v ∈ [slot, store, load, ret].toFinset := by
  cases v <;> decide

instance : Fintype SlotValue := ⟨[.slot, .store, .load, .ret].toFinset, SlotValue.mem_all⟩

/-- The function that stores the address of a local variable in the variable itself and returns what
it loads from there. -/
def selfStoring : EscapeModule SlotValue Unit where
  kind
    | .slot => .alloca ⟨(), true, true, [false]⟩
    | .store => .store .slot .slot
    | .load => .load .slot
    | .ret => .ret
  name v := if v = .slot then ['p'] else []
  isPointer v := v = .slot ∨ v = .load
  stripPointerCasts v := v
  getUnderlyingObject v := v
  function _ := ⟨['f'], false, 0, fun _ => false⟩
  instructions _ := [.slot, .store, .load, .ret]
  shouldAnalyze _ := true
  modelSaysNoEscapeArg _ _ := false
  returnedArgAliases _ := none

/-- Its uses, with the last one in front. -/
def selfStoringUses : SlotValue → List SlotValue
  | .slot => [.load, .store, .store]
  | .load => [.ret]
  | _ => []

/-- Its uses, with the first one in front. -/
def selfStoringOrder : SlotValue → List SlotValue
  | .slot => [.store, .store, .load]
  | .load => [.ret]
  | _ => []

/-- No summaries. -/
def noTables : EscapeTables Unit := ⟨fun _ => none, fun _ => none, false⟩

/-- With the last use in front, the load is looked at before the store, and the escape by the return
is missed. -/
theorem not_orderIndependent_selfStoring :
    ¬selfStoring.OrderIndependent noTables selfStoringUses () := by
  intro h
  have hperm : ∀ v, (selfStoringOrder v).Perm (selfStoringUses v) := by
    intro v
    cases v <;> decide
  have hsame := h.functionIssues selfStoringOrder selfStoringUses hperm (fun v => .refl _)
    ⟨['f'], ['p'], "return", [], .ret⟩
  exact absurd (hsame.mp (by decide)) (by decide)

end StackAnalyzer.Escape
