import StackAnalyzer.Graph.Cfg
import StackAnalyzer.Resource.FunctionSummaries

set_option relaxedAutoImplicit false
set_option autoImplicit false

/-!
# Resource lifetimes in a function

The pass that follows the handles of a function. It goes over the instructions in the order of the
blocks, counts how often every handle is acquired and released, and reports uses of a handle after
a release that may reach them, releases without a matching acquire, and handles that are acquired
more often than they are released.

## Main definitions

* `StackAnalyzer.Resource.StorageKey` — where a handle is stored.
* `StackAnalyzer.Resource.Instruction`, `StackAnalyzer.Resource.LifetimeFunction` — what the pass
  reads of a function.
* `StackAnalyzer.Resource.Event`, `StackAnalyzer.Resource.Instruction.events` — what an instruction
  does to handles.
* `StackAnalyzer.Resource.trackAcquire`, `StackAnalyzer.Resource.trackRelease`,
  `StackAnalyzer.Resource.reportUseAfterReleaseIfNeeded` — how an event is followed.
* `StackAnalyzer.Resource.analyzeFunctionLifetime` — the issues of a function.
-/

namespace StackAnalyzer.Resource

open CrossTU Maps Graph

/-! ## Storages, calls and instructions -/

/-- `StorageKey`: its scope, with the parts that its key consists of. -/
inductive StorageKey (A : Type*)
  | unknown
  | localSlot (localAlloca : A) (offset : ℕ)
  | global (name : CppString) (offset : ℕ)
  | argument (argumentIndex offset : ℕ)
  | thisField (className : CppString) (offset : ℕ)
  deriving DecidableEq

instance lawfulBEq_handle {A : Type*} [DecidableEq A] :
    LawfulBEq (StorageKey A × CppString) := inferInstance

/-- `ResourceRule`. -/
structure ResourceRule where
  functionPattern : CppString
  resourceKind : CppString
  argIndex : ℕ
  action : RuleAction

/-- An argument of a call: whether it is a pointer, `callArgumentLikelyDereferenced`,
`resolvePointerStorage` and `resolveHandleStorage`, and the slot of the owner that a released handle
is derived from, if the content of this slot may reach the return of an owner-like value. -/
structure CallArg (A : Type*) where
  isPointer : Bool
  likelyDereferenced : Bool
  pointerStorage : StorageKey A
  handleStorage : StorageKey A
  escapingOwner : Option A

/-- A `CallBase`: the function that it resolves to, by its number in the module, its arguments,
whether its type is `void`, the storages of `collectStoredDestinations`, and
`mapSummaryEffectToCallerStorage` without the fallback. -/
structure LifetimeCall (A : Type*) where
  callee : Option ℕ
  args : List (CallArg A)
  isVoid : Bool
  storedDestinations : List (StorageKey A)
  mapSummaryEffect : ParamLifetimeEffect → StorageKey A

/-- What an instruction reads or writes, with `resolveHandleStorage` of the pointers. -/
inductive MemoryAccess (A : Type*)
  | load (feedsOnlyDirectReleaseArgs : Bool) (pointerOperand : StorageKey A)
  | store (pointerOperand : StorageKey A)
  | memIntrinsic (dest : StorageKey A) (source : Option (StorageKey A))
  | none

/-- An instruction: a memory intrinsic is also a call. A return has a value or not; of the value
its storage is known, and the slot that it is loaded from. -/
structure Instruction (A : Type*) where
  memory : MemoryAccess A
  call : Option (LifetimeCall A)
  ret : Option (Option (StorageKey A × Option A))

/-- A `ReturnInst`. -/
def Instruction.isReturn {A : Type*} (i : Instruction A) : Bool := i.ret.isSome

/-- What is known of the functions that are called: the rules of the model and which functions they
match, the functions of the module, and the external summaries. -/
structure LifetimeContext where
  rules : List ResourceRule
  ruleMatchesFunction : ResourceRule → ℕ → Bool
  mod : Module
  external : CppString → Option FunctionLifetimeSummary

/-- A function, with allocas of type `A`. `argumentShadow`, `hasExplicitExternalStore`,
`addressEscapesToUnmodeledCall`, `shouldReportIncompleteInterproc` and `mayStoreValueFrom` are what
the analysis of pointers says about its slots, and `potentiallyReachable` about its instructions. A
line is given if there is a debug location. -/
structure LifetimeFunction (A B I : Type*) where
  name : CppString
  blocks : List B
  cfg : Cfg B I
  inst : I → Instruction A
  line : I → Option ℕ
  deriveAllocaName : A → CppString
  argumentShadow : A → Bool
  hasExplicitExternalStore : A → ℕ → Bool
  addressEscapesToUnmodeledCall : A → Bool
  shouldReportIncompleteInterproc : A → ℕ → Bool
  mayStoreValueFrom : A → A → Bool
  potentiallyReachable : I → I → Bool
  nodup : (blocks.flatMap cfg.instructions).Nodup

variable {A B I : Type*}

/-- The instructions of a function, in order. -/
def LifetimeFunction.instructions (F : LifetimeFunction A B I) : List I :=
  F.blocks.flatMap F.cfg.instructions

/-- `displayName` of a local storage. -/
def LifetimeFunction.displayName (F : LifetimeFunction A B I) (localAlloca : A) (offset : ℕ) :
    CppString :=
  let name := F.deriveAllocaName localAlloca
  let varName := if name = [] ∨ name = "<unnamed>".toList then "local".toList else name
  if offset = 0 then varName else varName ++ '+' :: decimal offset

/-- `instructionMayReach`; within a block only the order counts. -/
def LifetimeFunction.instructionMayReach [DecidableEq I] (F : LifetimeFunction A B I)
    (source target : I) : Bool :=
  if source = target then true
  else
    match F.blocks.find? fun b => source ∈ F.cfg.instructions b ∧ target ∈ F.cfg.instructions b with
    | some b => decide ((F.cfg.instructions b).idxOf source < (F.cfg.instructions b).idxOf target)
    | none => F.potentiallyReachable source target

/-! ## Events -/

/-- What happens to a storage. -/
inductive Event (A : Type*)
  | access (storage : StorageKey A)
  | acquire (storage : StorageKey A) (resourceKind : CppString)
  | release (storage : StorageKey A) (resourceKind : CppString) (fromSummary : Bool)
  | releasedEscape (owner : A) (resourceKind : CppString)
  deriving DecidableEq

/-- The accesses of an instruction to memory. -/
def MemoryAccess.events : MemoryAccess A → List (Event A)
  | .load feedsOnlyDirectReleaseArgs storage =>
    if feedsOnlyDirectReleaseArgs then [] else [.access storage]
  | .store storage => [.access storage]
  | .memIntrinsic dest source => .access dest :: (source.map Event.access).toList
  | .none => []

namespace LifetimeCall

variable (ctx : LifetimeContext) (call : LifetimeCall A)

/-- `callArgumentIsDirectReleaseArg`. -/
def isDirectReleaseArg (callee argIndex : ℕ) : Bool :=
  ctx.rules.any fun rule => decide (rule.action = .releaseArg) &&
    decide (rule.argIndex = argIndex) && ctx.ruleMatchesFunction rule callee

/-- The arguments that the callee is likely to dereference. -/
def argumentEvents (callee : ℕ) : List (Event A) :=
  call.args.zipIdx.filterMap fun arg =>
    if arg.1.isPointer && !isDirectReleaseArg ctx callee arg.2 && arg.1.likelyDereferenced then
      some (.access arg.1.handleStorage)
    else none

/-- The events of a rule that matches the callee. -/
def ruleEvents (rule : ResourceRule) : List (Event A) :=
  match rule.action with
  | .acquireOut =>
    match call.args[rule.argIndex]? with
    | none => []
    | some arg => [.acquire arg.pointerStorage rule.resourceKind]
  | .acquireRet =>
    if call.isVoid then []
    else call.storedDestinations.map fun storage => .acquire storage rule.resourceKind
  | .releaseArg =>
    match call.args[rule.argIndex]? with
    | none => []
    | some arg => .release arg.handleStorage rule.resourceKind false ::
        (arg.escapingOwner.map fun owner => Event.releasedEscape owner rule.resourceKind).toList

/-- The events of an effect of the callee. -/
def summaryEvents (effect : ParamLifetimeEffect) : List (Event A) :=
  match effect.action with
  | .acquireRet =>
    if call.isVoid then []
    else call.storedDestinations.map fun storage => .acquire storage effect.resourceKind
  | .acquireOut => [.acquire (call.mapSummaryEffect effect) effect.resourceKind]
  | .releaseArg => [.release (call.mapSummaryEffect effect) effect.resourceKind true]

/-- The events of a call: those of the rules if any matches, else those of the summary. -/
def events : List (Event A) :=
  match call.callee with
  | none => []
  | some idx =>
    call.argumentEvents ctx idx ++
      if ctx.rules.any fun rule => ctx.ruleMatchesFunction rule idx then
        (ctx.rules.filter fun rule => ctx.ruleMatchesFunction rule idx).flatMap call.ruleEvents
      else
        (((ctx.mod[idx]?).bind fun callee =>
          calleeSummary (computeFunctionLifetimeSummaries ctx.mod ctx.external) ctx.external idx
            callee).getD []).flatMap call.summaryEvents

end LifetimeCall

/-- The events of an instruction, in order. -/
def Instruction.events (ctx : LifetimeContext) (i : Instruction A) : List (Event A) :=
  i.memory.events ++ (i.call.map fun call => call.events ctx).getD []

/-! ## Following handles -/

/-- `ResourceLifetimeIssueKind`, of the issues of a function. -/
inductive ResourceLifetimeIssueKind
  | missingRelease | doubleRelease | incompleteInterproc | useAfterRelease | releasedHandleEscapes
  deriving DecidableEq

/-- `ResourceLifetimeIssue`, with the storage that it is about. -/
structure ResourceLifetimeIssue (A I : Type*) where
  funcName : CppString
  resourceKind : CppString
  handleName : CppString
  inst : Option I
  kind : ResourceLifetimeIssueKind
  storage : StorageKey A

/-- `LocalHandleState`. -/
structure LocalHandleState (A I : Type*) where
  storage : StorageKey A := .unknown
  resourceKind : CppString := []
  firstAcquireInst : Option I := none
  releaseInsts : List I := []
  acquires : ℕ := 0
  releases : ℕ := 0
  escapesViaReturn : Bool := false

/-- What tells uses apart: the line, or the instruction if it has none. -/
inductive Anchor (I : Type*)
  | line (n : ℕ)
  | inst (i : I)
  deriving DecidableEq

/-- What the loops over a function keep: the states of its handles, what has been reported, and the
issues. -/
structure Tracker (A I : Type*) where
  localStates : EntryMap (StorageKey A × CppString) (LocalHandleState A I) := EntryMap.empty
  interprocUncertaintyReported : List (StorageKey A × CppString) := []
  useAfterReleaseReported : List (StorageKey A × Anchor I) := []
  releasedEscapeReported : List (A × CppString) := []
  issues : List (ResourceLifetimeIssue A I) := []

section Track

variable [DecidableEq A] [DecidableEq I] (F : LifetimeFunction A B I)

/-- The state of a handle after one more acquire. -/
def LocalHandleState.acquire (state : LocalHandleState A I) (storage : StorageKey A)
    (resourceKind : CppString) (anchorInst : I) : LocalHandleState A I :=
  { state with
    storage := storage
    resourceKind := resourceKind
    acquires := state.acquires + 1
    firstAcquireInst := state.firstAcquireInst.or (some anchorInst) }

/-- The state of a handle after one more release. -/
def LocalHandleState.release (state : LocalHandleState A I) (storage : StorageKey A)
    (resourceKind : CppString) (anchorInst : I) : LocalHandleState A I :=
  { state with
    storage := if state.storage = .unknown then storage else state.storage
    resourceKind := if state.storage = .unknown then resourceKind else state.resourceKind
    releases := state.releases + 1
    releaseInsts := state.releaseInsts ++ [anchorInst] }

/-- `trackAcquire`. -/
def trackAcquire (tracker : Tracker A I) (storage : StorageKey A) (resourceKind : CppString)
    (anchorInst : I) : Tracker A I :=
  if storage = .unknown then tracker
  else
    let state := tracker.localStates.find (storage, resourceKind)
    { tracker with
      localStates := tracker.localStates.assign (storage, resourceKind)
        ((state.getD {}).acquire storage resourceKind anchorInst) }

/-- What keeps a release without any acquire of a slot from being reported as a double release. -/
inductive Suppression
  | argumentShadow | incompleteInterproc
  deriving DecidableEq

/-- The checks on a slot that is released and has never been acquired. -/
def releaseSuppression (localAlloca : A) (offset : ℕ) (fromSummary : Bool) : Option Suppression :=
  if F.argumentShadow localAlloca then some .argumentShadow
  else if F.hasExplicitExternalStore localAlloca offset ||
      F.addressEscapesToUnmodeledCall localAlloca || fromSummary then some .incompleteInterproc
  else none

/-- `trackRelease`. -/
def trackRelease (tracker : Tracker A I) (storage : StorageKey A) (resourceKind : CppString)
    (anchorInst : I) (fromSummary : Bool) : Tracker A I :=
  match storage with
  | .localSlot localAlloca offset =>
    let state := ((tracker.localStates.find (storage, resourceKind)).getD {}).release storage
      resourceKind anchorInst
    let tracked :=
      { tracker with localStates := tracker.localStates.assign (storage, resourceKind) state }
    let issue (kind : ResourceLifetimeIssueKind) : ResourceLifetimeIssue A I :=
      ⟨F.name, resourceKind, F.displayName localAlloca offset, some anchorInst, kind, storage⟩
    if state.releases ≤ state.acquires then tracked
    else
      match if state.acquires = 0 then releaseSuppression F localAlloca offset fromSummary
        else none with
      | some .argumentShadow => tracked
      | some .incompleteInterproc =>
        if !F.shouldReportIncompleteInterproc localAlloca offset ||
            decide ((storage, resourceKind) ∈ tracked.interprocUncertaintyReported) then tracked
        else
          { tracked with
            interprocUncertaintyReported :=
              (storage, resourceKind) :: tracked.interprocUncertaintyReported
            issues := tracked.issues ++ [issue .incompleteInterproc] }
      | none => { tracked with issues := tracked.issues ++ [issue .doubleRelease] }
  | _ => tracker

/-- The tests of `reportUseAfterReleaseIfNeeded` on one state. -/
def isUseAfterRelease (storage : StorageKey A) (anchorInst : I) (state : LocalHandleState A I) :
    Bool :=
  decide (state.storage = storage) && decide (0 < state.acquires) && decide (0 < state.releases) &&
    state.releaseInsts.any fun releaseInst => F.instructionMayReach releaseInst anchorInst

/-- The key by which uses after a release are reported only once: the storage, and the line. -/
def LifetimeFunction.dedupKey (storage : StorageKey A) (anchorInst : I) : StorageKey A × Anchor I :=
  (storage, match F.line anchorInst with
    | some line => .line line
    | none => .inst anchorInst)

/-- The body of the loop of `reportUseAfterReleaseIfNeeded`. -/
def reportUse (localAlloca : A) (offset : ℕ) (anchorInst : I) (tracker : Tracker A I)
    (state : LocalHandleState A I) : Tracker A I :=
  let storage := StorageKey.localSlot localAlloca offset
  if isUseAfterRelease F storage anchorInst state then
    if F.dedupKey storage anchorInst ∈ tracker.useAfterReleaseReported then tracker
    else
      { tracker with
        useAfterReleaseReported :=
          F.dedupKey storage anchorInst :: tracker.useAfterReleaseReported
        issues := tracker.issues ++ [⟨F.name, state.resourceKind,
          F.displayName localAlloca offset, some anchorInst, .useAfterRelease, storage⟩] }
  else tracker

/-- `reportUseAfterReleaseIfNeeded`. -/
def reportUseAfterReleaseIfNeeded (tracker : Tracker A I) (storage : StorageKey A)
    (anchorInst : I) : Tracker A I :=
  match storage with
  | .localSlot localAlloca offset =>
    (tracker.localStates.entries.map Prod.snd).foldl
      (reportUse F localAlloca offset anchorInst) tracker
  | _ => tracker

/-- `reportReleasedHandleEscapesIfNeeded`, for a handle with an owner. -/
def reportReleasedHandleEscapesIfNeeded (tracker : Tracker A I) (owner : A)
    (resourceKind : CppString) (anchorInst : I) : Tracker A I :=
  if (owner, resourceKind) ∈ tracker.releasedEscapeReported then tracker
  else
    { tracker with
      releasedEscapeReported := (owner, resourceKind) :: tracker.releasedEscapeReported
      issues := tracker.issues ++ [⟨F.name, resourceKind, F.displayName owner 0, some anchorInst,
        .releasedHandleEscapes, .localSlot owner 0⟩] }

/-- Follow an event of an instruction. -/
def trackEvent (tracker : Tracker A I) (event : I × Event A) : Tracker A I :=
  match event.2 with
  | .access storage => reportUseAfterReleaseIfNeeded F tracker storage event.1
  | .acquire storage resourceKind => trackAcquire tracker storage resourceKind event.1
  | .release storage resourceKind fromSummary =>
    trackRelease F tracker storage resourceKind event.1 fromSummary
  | .releasedEscape owner resourceKind =>
    reportReleasedHandleEscapesIfNeeded F tracker owner resourceKind event.1

/-- The events of a function, each with its instruction. -/
def LifetimeFunction.events (ctx : LifetimeContext) : List (I × Event A) :=
  F.instructions.flatMap fun i => ((F.inst i).events ctx).map fun event => (i, event)

/-- The loop over the instructions of a function. -/
def trackFunction (ctx : LifetimeContext) : Tracker A I :=
  (F.events ctx).foldl (trackEvent F) {}

/-! ## Returns and leaks -/

/-- The value that is returned may be the handle: it has its slot, or it is loaded from a slot that
the handle may be stored to. -/
def returnsHandle (returned : StorageKey A) (retSlot : Option A) (state : LocalHandleState A I) :
    Bool :=
  match state.storage with
  | .localSlot localAlloca _ =>
    (match returned with
      | .localSlot returnedAlloca _ => decide (returnedAlloca = localAlloca)
      | _ => false) || retSlot.any fun slot => F.mayStoreValueFrom slot localAlloca
  | _ => false

/-- Mark a state whose handle may be returned. -/
def markEscape (returned : StorageKey A) (retSlot : Option A) (state : LocalHandleState A I) :
    LocalHandleState A I :=
  if returnsHandle F returned retSlot state then { state with escapesViaReturn := true } else state

/-- The body of the loop over the returns. -/
def trackReturn (tracker : Tracker A I) (i : I) : Tracker A I :=
  match (F.inst i).ret with
  | none | some none => tracker
  | some (some (returned, retSlot)) =>
    let reported := reportUseAfterReleaseIfNeeded F tracker returned i
    { reported with localStates := reported.localStates.mapValues (markEscape F returned retSlot) }

/-- A handle that is reported as not released. -/
def isMissingRelease (state : LocalHandleState A I) : Bool :=
  match state.storage with
  | .localSlot localAlloca _ =>
    decide (0 < state.acquires) && decide (state.releases < state.acquires) &&
      !state.escapesViaReturn && !F.addressEscapesToUnmodeledCall localAlloca
  | _ => false

/-- The issue of such a handle. -/
def missingReleaseIssue (state : LocalHandleState A I) : ResourceLifetimeIssue A I where
  funcName := F.name
  resourceKind := state.resourceKind
  handleName := match state.storage with
    | .localSlot localAlloca offset => F.displayName localAlloca offset
    | _ => "<unknown>".toList
  inst := state.firstAcquireInst
  kind := .missingRelease
  storage := state.storage

/-- `analyzeResourceLifetime`, in one function. -/
def analyzeFunctionLifetime (ctx : LifetimeContext) : List (ResourceLifetimeIssue A I) :=
  let tracker := F.instructions.foldl (trackReturn F) (trackFunction F ctx)
  tracker.issues ++
    ((tracker.localStates.entries.map Prod.snd).filter (isMissingRelease F)).map
      (missingReleaseIssue F)

end Track

end StackAnalyzer.Resource
