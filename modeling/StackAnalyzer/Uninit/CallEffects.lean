import StackAnalyzer.Escape.UseOrder
import StackAnalyzer.Uninit.RangeCover

set_option relaxedAutoImplicit false
set_option autoImplicit false

/-!
# The effects of calls on initialised bytes

What a call does to the initialisation of the objects of its caller, from the summary of the callee:
for each argument the reads of the callee are checked against the bytes that are initialised, and
its writes are added. The `this` pointer of a constructor and a pointer for a returned struct are
initialised anyway, as far as their size is known.

## Main definitions

* `StackAnalyzer.Uninit.UninitModule`, `StackAnalyzer.Uninit.TrackedObjectContext` — what is read of
  the module, and the tracked objects of the caller.
* `StackAnalyzer.Uninit.CallState` — what the analysis knows, and what it has reported.
* `StackAnalyzer.Uninit.UninitModule.resolveTrackedObjectBase` — the object that a pointer is into.
* `StackAnalyzer.Uninit.UninitModule.markKnownWriteOnPointerOperand` — a write through a pointer.
* `StackAnalyzer.Uninit.UninitModule.applyCalleeSummaryAtCall` — the effects of a call.
-/

namespace StackAnalyzer.Uninit

open Escape Ranges

/-! ## What is read -/

/-- What is read of a module, where `getUnderlyingObject` looks through 16 values at most: the uses of
a value, `GetPointerBaseWithConstantOffset`, the size of the result type of a `getelementptr` (zero
for a scalable one), the blocks of a function, whether arguments of functions and of calls have the
attribute `sret`, and for a function with a debug type which of the types in it are those of an
object pointer, the return type first. -/
structure UninitModule (V F : Type*) extends EscapeModule V F where
  users : V → List V
  pointerBase : V → V × ℤ
  gepResultSize : V → Option ℕ
  blocks : F → List (List V)
  hasStructRet : F → ℕ → Bool
  callHasStructRet : V → ℕ → Bool
  debugObjectPointers : F → Option (List Bool)
  deriveAllocaName : V → List Char

/-- A tracked object: the `alloca`, or the argument with its number, and the bytes that are no
padding if the layout is known. -/
structure TrackedObject (V : Type*) extends TrackedMemoryObject where
  value : V
  argNo : ℕ
  nonPaddingRanges : Option RangeSet

/-- `TrackedObjectContext`. -/
structure TrackedObjectContext (V : Type*) where
  objects : List (TrackedObject V)
  allocaIndex : V → Option ℕ
  paramIndex : V → Option ℕ

/-- A call of a function with a summary. -/
structure SummarizedCall (V F : Type*) where
  inst : V
  args : List V
  caller : F
  callee : F

/-- `UninitializedLocalReadIssue`, of the kind for reads via calls. -/
structure LocalReadIssue (V : Type*) where
  funcName : List Char
  varName : List Char
  inst : V
  line : ℕ
  column : ℕ
  calleeName : List Char

/-- What the analysis knows and records: the initialised bytes, bits for the objects, the summary of
the caller and the issues, each of these only if it is asked for. -/
structure CallState (V : Type*) where
  initialized : InitRangeState
  writeSeen : Option (List Bool)
  constructedSeen : Option (List Bool)
  defaultCtorSeen : Option (List Bool)
  readBeforeInitSeen : Option (List Bool)
  currentSummary : Option UninitializedSummaryFunction
  emittedIssues : Option (List (LocalReadIssue V))

/-- `InitLatticeState`. -/
inductive InitLatticeState
  | uninit | partially | init
  deriving DecidableEq

/-- `classifyInitState`. -/
def classifyInitState (initialized : RangeSet) (totalSize : ℕ) : InitLatticeState :=
  if totalSize = 0 ∨ initialized = [] then .uninit
  else
    match initialized with
    | [r] => if r.begin = 0 ∧ totalSize ≤ r.stop then .init else .partially
    | _ => .partially

/-! ## Names -/

section Names

/-- `hasCtorToken`. -/
def hasCtorToken (symbol token : List Char) : Bool :=
  symbol.tails.any fun rest => token.isPrefixOf rest &&
    match rest.drop token.length with
    | [] => true
    | next :: _ => next == 'E' || next == 'B' || next == 'v' || next == 'I'

/-- `isLikelyCppConstructorSymbol`. -/
def isLikelyCppConstructorSymbol (symbol : List Char) : Bool :=
  "_Z".toList.isPrefixOf symbol && (hasCtorToken symbol "C1".toList ||
    hasCtorToken symbol "C2".toList || hasCtorToken symbol "C3".toList)

/-- `isLikelyCppAssignmentOperatorSymbol`. -/
def isLikelyCppAssignmentOperatorSymbol (symbol : List Char) : Bool :=
  "_Z".toList.isPrefixOf symbol && containsText "aSE".toList symbol

/-- `isLikelyCppMethodSymbol`. -/
def isLikelyCppMethodSymbol (symbol : List Char) : Bool := "_ZN".toList.isPrefixOf symbol

end Names

/-! ## Marks -/

section Marks

variable {V : Type*} (st : CallState V)

/-- Set a bit, if there are bits and there is one for the object. -/
def setSeen (bits : Option (List Bool)) (objectIdx : ℕ) : Option (List Bool) :=
  bits.map fun bits => bits.set objectIdx true

/-- Mark bytes of an object as initialised. -/
def CallState.addInitialized (objectIdx : ℕ) (range : ByteRange) : CallState V :=
  { st with initialized := st.initialized.modify objectIdx (addRange · range.begin range.stop) }

/-- Change the effect on a parameter in the summary of the caller. -/
def CallState.updateParam (argNo : ℕ) (change : ParamEffect → ParamEffect) : CallState V :=
  { st with currentSummary := st.currentSummary.map fun summary => summary.modify argNo change }

/-- `addPointerSlotWriteEffect`. -/
def addPointerSlotWriteEffect (slotOffset writeSizeBytes : ℕ) (effect : ParamEffect) :
    ParamEffect :=
  if ⟨slotOffset, writeSizeBytes⟩ ∈ effect.pointerSlotWrites then effect
  else { effect with
    pointerSlotWrites := effect.pointerSlotWrites ++ [⟨slotOffset, writeSizeBytes⟩] }

/-- `hasAnyEffect`. -/
def ParamEffect.hasAnyEffect (effect : ParamEffect) : Bool :=
  effect.hasUnknownReadBeforeWrite || effect.hasUnknownWrite ||
    !effect.readBeforeWriteRanges.isEmpty || !effect.writeRanges.isEmpty ||
    !effect.pointerSlotWrites.isEmpty

/-- The effect on a parameter has an unknown write. -/
def withUnknownWrite (effect : ParamEffect) : ParamEffect := { effect with hasUnknownWrite := true }

/-- The effect on a parameter writes a range. -/
def withWriteRange (range : ByteRange) (effect : ParamEffect) : ParamEffect :=
  { effect with writeRanges := addRange effect.writeRanges range.begin range.stop }

end Marks

namespace UninitModule

variable {V F : Type*} [DecidableEq V] (M : UninitModule V F) (T : TrackedObjectContext V)

/-! ## Objects -/

section Objects

/-- An object that a pointer is into, and the offset if it is a constant. -/
structure ResolvedBase (V : Type*) where
  objectIdx : ℕ
  obj : TrackedObject V
  offset : ℕ
  hasConstOffset : Bool

/-- `peelPointerFromSingleStoreSlot`, without casts. -/
def canonical (ptr : V) : V :=
  M.stripPointerCasts (M.peelPointerFromSingleStoreSlot M.users ptr)

omit [DecidableEq V] in
/-- `lookupTrackedObjectIndex`. -/
def lookupTrackedObjectIndex (base : V) : Option ℕ :=
  match M.kind base with
  | .alloca _ => T.allocaIndex base
  | .argument _ _ => T.paramIndex base
  | _ => none

/-- `resolveTrackedObjectBase`. -/
def resolveTrackedObjectBase (ptr : V) : Option (ResolvedBase V) :=
  if M.isPointer ptr = false then none
  else
    let strippedPtr := M.canonical ptr
    let (base, signedOffset) := M.pointerBase strippedPtr
    let constant :=
      if 0 ≤ signedOffset then M.lookupTrackedObjectIndex T (M.canonical base) else none
    match constant with
    | some objectIdx =>
      T.objects[objectIdx]?.map fun obj => ⟨objectIdx, obj, signedOffset.toNat, true⟩
    | none =>
      let canonicalUnderlying := M.canonical (M.getUnderlyingObject strippedPtr)
      (M.lookupTrackedObjectIndex T canonicalUnderlying).bind fun objectIdx =>
        T.objects[objectIdx]?.map fun obj =>
          ⟨objectIdx, obj, 0, decide (canonicalUnderlying = strippedPtr)⟩

/-- `resolvePointerSlotBaseFromLoadedPointer`. -/
def resolvePointerSlotBaseFromLoadedPointer (ptrOperand : V) : Option (ResolvedBase V) :=
  if M.isPointer ptrOperand = false then none
  else
    match M.kind (M.stripPointerCasts ptrOperand) with
    | .load pointer => M.resolveTrackedObjectBase T pointer
    | _ => none

/-- `isParamObject`. -/
def isParamObject (obj : TrackedObject V) : Bool := decide (obj.kind = .pointerParam)

/-- `isAllocaObject`. -/
def isAllocaObject (obj : TrackedObject V) : Bool := decide (obj.kind = .alloca)

end Objects

/-! ## Writes through pointers -/

section Writes

/-- The bytes that a write of some size changes; size zero stands for the whole object. -/
def writtenRange (base : ResolvedBase V) (writeSizeBytes : ℕ) : Option ByteRange :=
  if base.hasConstOffset then
    clipRangeToObject base.obj.toTrackedMemoryObject base.offset
      (saturatingAdd base.offset
        (if 0 < writeSizeBytes then writeSizeBytes
          else getObjectFullRangeEnd base.obj.toTrackedMemoryObject))
  else none

/-- A write through a pointer that has been loaded from a parameter, for the summary. -/
def markSlotWrite (slot : ResolvedBase V) (writeSizeBytes : ℕ) (st : CallState V) : CallState V :=
  if slot.hasConstOffset then
    st.updateParam slot.obj.argNo (addPointerSlotWriteEffect slot.offset writeSizeBytes)
  else st.updateParam slot.obj.argNo withUnknownWrite

/-- A write into an object. -/
def markObjectWrite (base : ResolvedBase V) (writeSizeBytes : ℕ) (st : CallState V) :
    CallState V :=
  let range := writtenRange base writeSizeBytes
  let st := match range with
    | some range => st.addInitialized base.objectIdx range
    | none => st
  if isAllocaObject base.obj then { st with writeSeen := setSeen st.writeSeen base.objectIdx }
  else if base.hasConstOffset then
    match range with
    | some range => st.updateParam base.obj.argNo (withWriteRange range)
    | none => st
  else st.updateParam base.obj.argNo withUnknownWrite

/-- The parameter that a pointer has been loaded from, if the summary of the caller is asked for. -/
def summarizedSlot (hasSummary : Bool) (ptrOperand : V) : Option (ResolvedBase V) :=
  if hasSummary then
    (M.resolvePointerSlotBaseFromLoadedPointer T ptrOperand).filter fun slot =>
      isParamObject slot.obj
  else none

/-- `markKnownWriteOnPointerOperand`. -/
def markKnownWriteOnPointerOperand (ptrOperand : V) (writeSizeBytes : ℕ) (st : CallState V) :
    CallState V :=
  if M.isPointer ptrOperand = false then st
  else
    match M.summarizedSlot T st.currentSummary.isSome ptrOperand with
    | some slot => markSlotWrite slot writeSizeBytes st
    | none =>
      match M.resolveTrackedObjectBase T ptrOperand with
      | none => st
      | some base => markObjectWrite base writeSizeBytes st

/-- `inferWriteSizeFromPointerOperand`. -/
def inferWriteSizeFromPointerOperand (ptrOperand : V) : ℕ :=
  if M.isPointer ptrOperand = false then 0
  else (M.gepResultSize (M.stripPointerCasts ptrOperand)).getD 0

/-- `markGuaranteedCtorOrSRetWriteOnPointerOperand`, for writes whose size must be known. -/
def markGuaranteedCtorOrSRetWriteOnPointerOperand (ptrOperand : V) (st : CallState V) :
    CallState V :=
  let inferredSize := M.inferWriteSizeFromPointerOperand ptrOperand
  if inferredSize = 0 then st else M.markKnownWriteOnPointerOperand T ptrOperand inferredSize st

/-- `markConstructedOnPointerOperand`. -/
def markConstructedOnPointerOperand (ptrOperand : V) (st : CallState V) : CallState V :=
  match M.resolveTrackedObjectBase T ptrOperand with
  | some base =>
    if isAllocaObject base.obj then
      { st with constructedSeen := setSeen st.constructedSeen base.objectIdx }
    else st
  | none => st

/-- `markDefaultCtorOnPointerOperand`. -/
def markDefaultCtorOnPointerOperand (ptrOperand : V) (st : CallState V) : CallState V :=
  match M.resolveTrackedObjectBase T ptrOperand with
  | some base =>
    if isAllocaObject base.obj then
      { st with defaultCtorSeen := setSeen st.defaultCtorSeen base.objectIdx }
    else st
  | none => st

end Writes

/-! ## Pointers in slots -/

section Slots

/-- `storeTargetsTrackedSlot`, for stores of pointers: the pointer that is stored. -/
def pointerStoredToSlot (slotObjectIdx slotOffset : ℕ) (inst : V) : Option V :=
  match M.kind inst with
  | .store value pointer =>
    if M.isPointer value = false then none
    else
      match M.resolveTrackedObjectBase T pointer with
      | some base =>
        if base.hasConstOffset = true ∧ base.objectIdx = slotObjectIdx ∧ base.offset = slotOffset
        then some (M.stripPointerCasts value)
        else none
      | none => none
  | _ => none

/-- The loop for a pointer that is the only one. -/
def uniqueFallback : List V → Option V → Option V
  | [], unique => unique
  | candidate :: candidates, none => uniqueFallback candidates (some candidate)
  | candidate :: candidates, some unique =>
    if unique ≠ candidate then none else uniqueFallback candidates (some unique)

/-- `findStoredPointerForTrackedSlotBeforeCall`: the last pointer that is stored in front of the
call in its block, or else the only one in all blocks. -/
def findStoredPointerForTrackedSlotBeforeCall (call : SummarizedCall V F)
    (slotObjectIdx slotOffset : ℕ) : Option V :=
  let stored (block : List V) : List V :=
    (block.takeWhile fun inst => decide (inst ≠ call.inst)).filterMap
      (M.pointerStoredToSlot T slotObjectIdx slotOffset)
  let blocks := M.blocks call.caller
  match ((blocks.find? fun block => decide (call.inst ∈ block)).map stored).bind
      List.getLast? with
  | some lastInBlock => some lastInBlock
  | none => uniqueFallback (blocks.flatMap stored) none

end Slots

/-! ## Reads of the callee -/

section Reads

/-- What the reads of the callee find: whether something is read that is not initialised, whether
that is somewhere in the object, and which ranges are. -/
structure ReadFindings where
  hasReadBeforeWrite : Bool
  readWasUnknown : Bool
  uncoveredReadRanges : RangeSet

/-- A range of the callee in the object of the caller. -/
def mapRange (base : ResolvedBase V) (range : ByteRange) : Option ByteRange :=
  clipRangeToObject base.obj.toTrackedMemoryObject (saturatingAdd base.offset range.begin)
    (saturatingAdd base.offset range.stop)

/-- The state of the object. -/
def objectState (base : ResolvedBase V) (initialized : InitRangeState) : InitLatticeState :=
  classifyInitState (initialized.getD base.objectIdx [])
    (getObjectFullRangeEnd base.obj.toTrackedMemoryObject)

/-- The reads at constant offsets that are not covered. -/
def uncoveredReads (effect : ParamEffect) (base : ResolvedBase V) (initialized : InitRangeState) :
    RangeSet :=
  (effect.readBeforeWriteRanges.filterMap (mapRange base)).filter fun range =>
    !isRangeCoveredRespectingNonPaddingLayout base.obj.nonPaddingRanges
      (initialized.getD base.objectIdx []) range.begin range.stop

/-- The checks of the reads of the callee. -/
def findReads (effect : ParamEffect) (base : ResolvedBase V) (initialized : InitRangeState) :
    ReadFindings :=
  let uninit := decide (objectState base initialized = .uninit)
  if base.hasConstOffset then
    let uncovered := uncoveredReads effect base initialized
    ⟨!uncovered.isEmpty || (effect.hasUnknownReadBeforeWrite && uninit),
      effect.hasUnknownReadBeforeWrite && uninit, uncovered⟩
  else
    let found := (effect.hasUnknownReadBeforeWrite || !effect.readBeforeWriteRanges.isEmpty) &&
      uninit
    ⟨found, found, []⟩

omit [DecidableEq V] in
/-- `suppressForAssignmentPadding || suppressCtorThisReadBeforeWrite`. -/
def suppressesRead (calleeName : List Char) (isCtorThis : Bool) (state : InitLatticeState) : Bool :=
  isLikelyCppAssignmentOperatorSymbol calleeName && decide (state = .partially) || isCtorThis

/-- A read that is found is reported, or recorded in the summary of the caller. -/
def reportRead (call : SummarizedCall V F) (effect : ParamEffect) (base : ResolvedBase V)
    (found : ReadFindings) (st : CallState V) : CallState V :=
  if isAllocaObject base.obj then
    let st := { st with readBeforeInitSeen := setSeen st.readBeforeInitSeen base.objectIdx }
    let varName := M.deriveAllocaName base.obj.value
    if isLikelyCompilerTemporaryName varName then st
    else { st with emittedIssues := st.emittedIssues.map fun issues =>
      issues ++ [⟨(M.function call.caller).name, varName, call.inst, 0, 0,
        (M.function call.callee).name⟩] }
  else
    let st := found.uncoveredReadRanges.foldl (fun st range =>
      st.updateParam base.obj.argNo fun current => { current with
        readBeforeWriteRanges :=
          addRange current.readBeforeWriteRanges range.begin range.stop }) st
    if found.readWasUnknown || (!base.hasConstOffset &&
        (!effect.readBeforeWriteRanges.isEmpty || effect.hasUnknownReadBeforeWrite)) then
      st.updateParam base.obj.argNo fun current => { current with hasUnknownReadBeforeWrite := true }
    else st

end Reads

/-! ## Calls -/

section Calls

/-- A pointer that the callee writes through, after it has been loaded from the argument. -/
def applySlotWrite (call : SummarizedCall V F) (base : ResolvedBase V) (st : CallState V)
    (slotWrite : PointerSlotWrite) : CallState V :=
  let mappedSlotOffset := saturatingAdd base.offset slotWrite.slotOffset
  let st :=
    match M.findStoredPointerForTrackedSlotBeforeCall T call base.objectIdx mappedSlotOffset with
    | some storedPtr => M.markKnownWriteOnPointerOperand T storedPtr slotWrite.writeSizeBytes st
    | none => st
  if isParamObject base.obj then
    st.updateParam base.obj.argNo (addPointerSlotWriteEffect mappedSlotOffset
      slotWrite.writeSizeBytes)
  else st

/-- All of them. -/
def applySlotWrites (call : SummarizedCall V F) (effect : ParamEffect) (base : ResolvedBase V)
    (st : CallState V) : CallState V :=
  if effect.pointerSlotWrites = [] then st
  else if base.hasConstOffset then
    effect.pointerSlotWrites.foldl (M.applySlotWrite T call base) st
  else if isParamObject base.obj then st.updateParam base.obj.argNo withUnknownWrite
  else st

omit [DecidableEq V] in
/-- A range that the callee writes. -/
def applyWriteRange (base : ResolvedBase V) (st : CallState V) (range : ByteRange) : CallState V :=
  let st := st.addInitialized base.objectIdx range
  if isParamObject base.obj then st.updateParam base.obj.argNo (withWriteRange range) else st

omit [DecidableEq V] in
/-- The ranges of the object that the callee writes. -/
def mappedWrites (effect : ParamEffect) (base : ResolvedBase V) : List ByteRange :=
  if base.hasConstOffset then effect.writeRanges.filterMap (mapRange base) else []

omit [DecidableEq V] in
/-- All writes of the callee into the object. -/
def applyWrites (effect : ParamEffect) (base : ResolvedBase V) (st : CallState V) : CallState V :=
  let mapped := mappedWrites effect base
  let writeWasUnknown := effect.hasUnknownWrite ||
    (!base.hasConstOffset && !effect.writeRanges.isEmpty)
  let wroteSomething := !mapped.isEmpty || writeWasUnknown
  let st := mapped.foldl (applyWriteRange base) st
  let st := if writeWasUnknown && isParamObject base.obj then
      st.updateParam base.obj.argNo withUnknownWrite
    else st
  if wroteSomething && isAllocaObject base.obj then
    { st with
      writeSeen := setSeen st.writeSeen base.objectIdx
      constructedSeen := setSeen st.constructedSeen base.objectIdx }
  else st

omit [DecidableEq V] in
/-- `getDebugObjectPointerArgIndex`. -/
def getDebugObjectPointerArgIndex (callee : F) : Option ℕ :=
  match M.debugObjectPointers callee with
  | some (_ :: params) =>
    (params.findIdx? id).bind fun debugObjectParamIdx =>
      let irArgCount := (M.function callee).argSize
      if irArgCount < params.length then none
      else
        let objectArgIdx := irArgCount - params.length + debugObjectParamIdx
        if irArgCount ≤ objectArgIdx then none else some objectArgIdx
  | _ => none

omit [DecidableEq V] in
/-- `getLikelyCppMethodReceiverArgIndex`. -/
def getLikelyCppMethodReceiverArgIndex (callee : F) : Option ℕ :=
  match M.getDebugObjectPointerArgIndex callee with
  | some receiverIdx => some receiverIdx
  | none =>
    if isLikelyCppMethodSymbol (M.function callee).name then
      let argSize := (M.function callee).argSize
      let receiverIdx := ((List.range argSize).takeWhile (M.hasStructRet callee)).length
      if argSize ≤ receiverIdx then none else some receiverIdx
    else none

variable (call : SummarizedCall V F)

omit [DecidableEq V] in
/-- The argument is the `this` pointer of a constructor. -/
def isCtorThis (argIdx : ℕ) : Bool :=
  isLikelyCppConstructorSymbol (M.function call.callee).name && decide (argIdx = 0)

omit [DecidableEq V] in
/-- `hasGuaranteedCtorOrSRetWrite`. -/
def hasGuaranteedCtorOrSRetWrite (argIdx : ℕ) : Bool :=
  M.isCtorThis call argIdx || M.callHasStructRet call.inst argIdx

/-- Record that an object is constructed. -/
def markConstructed (actual : V) (argIdx : ℕ) (st : CallState V) : CallState V :=
  if M.hasGuaranteedCtorOrSRetWrite call argIdx ||
      decide (M.getLikelyCppMethodReceiverArgIndex call.callee = some argIdx) then
    let st := M.markConstructedOnPointerOperand T actual st
    -- `isLikelyDefaultConstructorThisArg`
    if M.isCtorThis call argIdx && decide (call.args.length = 1) then
      M.markDefaultCtorOnPointerOperand T actual st
    else st
  else st

omit [DecidableEq V] in
/-- The effect of the callee on an argument, if there is any. -/
def effectOf (calleeSummary : UninitializedSummaryFunction) (argIdx : ℕ) : Option ParamEffect :=
  calleeSummary[argIdx]?.filter ParamEffect.hasAnyEffect

/-- The guaranteed write, if there is one. -/
def markGuaranteed (actual : V) (argIdx : ℕ) (st : CallState V) : CallState V :=
  if M.hasGuaranteedCtorOrSRetWrite call argIdx then
    M.markGuaranteedCtorOrSRetWriteOnPointerOperand T actual st
  else st

/-- The rest of the loop over the arguments, for an argument that resolves to an object. A read that
is suppressed ends it early. -/
def applyEffect (effect : ParamEffect) (base : ResolvedBase V) (actual : V) (argIdx : ℕ)
    (st : CallState V) : CallState V :=
  let found := findReads effect base st.initialized
  if found.hasReadBeforeWrite && suppressesRead (M.function call.callee).name
      (M.isCtorThis call argIdx) (objectState base st.initialized) then st
  else
    let st := if found.hasReadBeforeWrite then M.reportRead call effect base found st else st
    let st := M.markGuaranteed T call actual argIdx st
    let st := M.applySlotWrites T call effect base st
    applyWrites effect base st

/-- The body of the loop over the arguments. -/
def applyArgument (calleeSummary : UninitializedSummaryFunction) (st : CallState V)
    (arg : V × ℕ) : CallState V :=
  if M.isPointer arg.1 = false then st
  else
    let st := M.markConstructed T call arg.1 arg.2 st
    match effectOf calleeSummary arg.2 with
    | none => M.markGuaranteed T call arg.1 arg.2 st
    | some effect =>
      match M.resolveTrackedObjectBase T arg.1 with
      | none => st
      | some base => M.applyEffect T call effect base arg.1 arg.2 st

/-- `applyCalleeSummaryAtCall`. -/
def applyCalleeSummaryAtCall (calleeSummary : UninitializedSummaryFunction) (st : CallState V) :
    CallState V :=
  call.args.zipIdx.foldl (M.applyArgument T call calleeSummary) st

end Calls

end UninitModule

end StackAnalyzer.Uninit
