import StackAnalyzer.Bounds.SizeMinusK
import StackAnalyzer.Llvm.ConstantOffsets

set_option relaxedAutoImplicit false
set_option autoImplicit false

/-!
# Reads outside of buffers

The pass that looks for `strlen` on buffers without a terminator and for loads outside of heap
allocations. It goes through the instructions of a function once, in the order of the blocks, and
keeps the last write to each buffer and the sizes of allocations. A size is recorded for the call
that allocates and for every place that its result is stored to.

## Main definitions

* `StackAnalyzer.Bounds.OobReads.ReadState` — the writes and the sizes.
* `StackAnalyzer.Bounds.OobReads.visit`, `StackAnalyzer.Bounds.OobReads.issuesAt` — one instruction.
* `StackAnalyzer.Bounds.OobReads.analyzeOOBReads` — the issues of a module.
-/

namespace StackAnalyzer.Bounds.OobReads

open CrossTU Maps Llvm Smt Consulting

/-! ## Data -/

/-- `RecentWriteKind`. -/
inductive RecentWriteKind
  | unknown | memcpyLike | memsetNonZero | strcpyLike
  deriving DecidableEq

/-- `RecentWrite`. -/
structure RecentWrite where
  apiName : CppString
  writeSizeBytes : ℕ := 0
  kind : RecentWriteKind := .unknown

/-- `ObjectInfo`. -/
structure ObjectInfo (V : Type*) where
  root : V
  sizeBytes : ℕ
  displayName : CppString

/-- `OOBReadIssueKind`. -/
inductive OOBReadIssueKind
  | missingNullTerminator | heapIndexOutOfBounds
  deriving DecidableEq

/-- `OOBReadIssue`. -/
structure OOBReadIssue (V : Type*) where
  funcName : CppString
  filePath : CppString
  bufferName : CppString
  apiName : CppString
  bufferSizeBytes : ℕ := 0
  writeSizeBytes : ℕ := 0
  capacityElements : ℕ := 0
  inst : V
  kind : OOBReadIssueKind := .heapIndexOutOfBounds

/-- `recentWrites` and `heapAllocBytes`. -/
structure ReadState (V : Type*) where
  recentWrites : EntryMap V RecentWrite := EntryMap.empty
  heapAllocBytes : EntryMap V ℕ := EntryMap.empty

/-! ## Pointers -/

/-- `canonicalCalleeName`. -/
def canonicalCalleeName (name : CppString) : CppString :=
  dropBegin "_".toList (dropBegin [Char.ofNat 1] name)

variable {F V B : Type*} [DecidableEq V] [DecidableEq B] (mod : Module F V B)

section Pointers

/-- `tryGetConstantU64`. -/
def tryGetConstantU64 (v : V) : Option ℕ :=
  match mod.value v with
  | .constantInt _ c => some c.toNat
  | _ => none

/-- A variable in the stack frame that keeps a pointer. -/
def isPointerSlot (slot : V) : Bool :=
  mod.isStaticAlloca slot &&
    match mod.value slot with
    | .alloca allocatedType _ _ => allocatedType.isPointerTy
    | _ => false

/-- The pointer that a variable keeps, if there is one store to it and the others are harmless. -/
def reloadedPointer (v : V) : Option V :=
  match mod.value v with
  | .load pointer =>
    let slot := mod.stripPointerCasts pointer
    if isPointerSlot mod slot then
      (findUniqueStoreToSlot mod slot).bind fun store =>
        match mod.value store with
        | .store value _ => some value
        | _ => none
    else none
  | _ => none

/-- The loop of `peelPointerFromSingleStoreSlot`. -/
def peelWithin : ℕ → V → V
  | 0, current => current
  | depth + 1, current =>
    match reloadedPointer mod current with
    | some value => peelWithin depth (mod.stripPointerCasts value)
    | none => current

/-- `peelPointerFromSingleStoreSlot`. -/
def peelPointerFromSingleStoreSlot (v : V) : V := peelWithin mod 6 (mod.stripPointerCasts v)

/-- `dependsOnFunctionArgumentRecursive`, with the number of levels that are left. -/
def dependsOnFunctionArgumentRecursive : ℕ → V → List V → Option Unit × List V
  | 0, _, visited => (none, visited)
  | levels + 1, v, visited =>
    if v ∈ visited then (none, visited)
    else if (mod.value v).isArgument then (some (), v :: visited)
    else if (mod.value v).isConstant then (none, v :: visited)
    else
      firstVisited (dependsOnFunctionArgumentRecursive levels)
        (peelPointerFromSingleStoreSlot mod v :: (peelLoadFromSingleStoreSlot mod v).toList ++
          if (mod.value v).isInstruction then mod.operands v else []) (v :: visited)

/-- `dependsOnFunctionArgument`: the depth is at most 32. -/
def dependsOnFunctionArgument (v : V) : Bool :=
  (dependsOnFunctionArgumentRecursive mod 33 v []).1.isSome

/-- `lookupRange`, through at most as many casts as the fuel. -/
def lookupRangeWithin (ranges : EntryMap V IntRange) : ℕ → V → Option IntRange
  | 0, _ => none
  | fuel + 1, v =>
    match ranges.find v with
    | some range => some range
    | none =>
      match castOperand mod v with
      | some operand => lookupRangeWithin ranges fuel operand
      | none => none

/-- `lookupRange`. -/
def lookupRange [Fintype V] (ranges : EntryMap V IntRange) (v : V) : Option IntRange :=
  lookupRangeWithin mod ranges (Fintype.card V + 1) v

end Pointers

/-! ## Objects

`getUnderlyingObject` with 32 lookups is the function `underlying`. -/

section Objects

variable (layout : DataLayout) (underlying : V → V)

/-- `getObjectSizeBytes`. -/
def getObjectSizeBytes (root : V) : Option ℕ :=
  match mod.value root with
  | .alloca allocatedType arraySize _ =>
    if mod.isArrayAllocation arraySize then
      (tryGetConstantU64 mod arraySize).map fun n =>
        n * layout.typeAllocSize allocatedType % 2 ^ 64
    else some (layout.typeAllocSize allocatedType)
  | .globalVariable valueType => some (layout.typeAllocSize valueType)
  | _ => none

/-- `resolveObjectInfo`. -/
def resolveObjectInfo (pointer : V) : Option (ObjectInfo V) :=
  if (mod.type pointer).isPointerTy then
    let base := peelPointerFromSingleStoreSlot mod
      (underlying (peelPointerFromSingleStoreSlot mod pointer))
    match getObjectSizeBytes mod layout base with
    | some (size + 1) =>
      some ⟨base, size + 1, if mod.name base = [] then "<buffer>".toList else mod.name base⟩
    | _ => none
  else none

/-- The name of the function that is called. -/
def calleeName (call : CallBase V F) : Option CppString :=
  match call.intrinsic with
  | some .memcpy => some "memcpy".toList
  | some .memmove => some "memmove".toList
  | some .memset => some "memset".toList
  | _ => (getDirectCallee mod call).map fun f => canonicalCalleeName (mod.functionName f)

/-- The size that a call allocates, if it is a constant. -/
def allocatedBytes (name : CppString) (args : List V) : Option ℕ :=
  if name = "malloc".toList then (args[0]?).bind (tryGetConstantU64 mod)
  else if name = "calloc".toList then
    match args with
    | count :: elem :: _ =>
      (tryGetConstantU64 mod count).bind fun count =>
        (tryGetConstantU64 mod elem).map fun elem => count * elem % 2 ^ 64
    | _ => none
  else if name = "realloc".toList then (args[1]?).bind (tryGetConstantU64 mod)
  else none

/-- The object of the first argument of a call and the constant length, which is the third one. -/
def writtenObject (args : List V) : Option (ObjectInfo V × V × ℕ) :=
  match args with
  | dest :: second :: len :: _ =>
    (resolveObjectInfo mod layout underlying dest).bind fun obj =>
      (tryGetConstantU64 mod len).map fun len => (obj, second, len)
  | _ => none

/-- The write of a call to a buffer. -/
def recordedWrite (name : CppString) (args : List V) : Option (V × RecentWrite) :=
  if name ∈ ["memcpy".toList, "memmove".toList, "__memcpy_chk".toList, "__memmove_chk".toList] then
    (writtenObject mod layout underlying args).map fun (obj, _, len) =>
      (obj.root, ⟨name, len, .memcpyLike⟩)
  else if name ∈ ["memset".toList, "__memset_chk".toList] then
    (writtenObject mod layout underlying args).bind fun (obj, value, len) =>
      (tryGetConstantU64 mod value).map fun fill =>
        (obj.root, ⟨name, len, if fill = 0 then .unknown else .memsetNonZero⟩)
  else if name = "strncpy".toList then
    (writtenObject mod layout underlying args).map fun (obj, _, len) =>
      (obj.root, ⟨"strncpy".toList, len, .memcpyLike⟩)
  else if name ∈ ["strcpy".toList, "__strcpy_chk".toList] then
    ((args[0]?).bind (resolveObjectInfo mod layout underlying)).map fun obj =>
      (obj.root, ⟨name, 0, .strcpyLike⟩)
  else none

/-! ## One instruction -/

/-- What the pass remembers of a call. -/
def visitCall (st : ReadState V) (inst : V) (call : CallBase V F) : ReadState V :=
  match calleeName mod call with
  | none => st
  | some name =>
    { recentWrites :=
        match recordedWrite mod layout underlying name call.args with
        | some (root, write) => st.recentWrites.assign root write
        | none => st.recentWrites
      heapAllocBytes :=
        match allocatedBytes mod name call.args with
        | some bytes => (st.heapAllocBytes.assign inst bytes).assign (underlying inst) bytes
        | none => st.heapAllocBytes }

/-- What the pass remembers of an instruction. -/
def visit (st : ReadState V) (inst : V) : ReadState V :=
  match mod.value inst with
  | .call call => visitCall mod layout underlying st inst call
  | .store value pointer =>
    match st.heapAllocBytes.find (mod.stripPointerCasts value) with
    | some bytes =>
      { st with
        heapAllocBytes := st.heapAllocBytes.assign (mod.stripPointerCasts pointer) bytes }
    | none => st
  | _ => st

/-- The issue of `strlen` on a buffer that has been filled. -/
def strlenIssue (f : F) (st : ReadState V) (inst : V) (call : CallBase V F) :
    Option (OOBReadIssue V) :=
  if calleeName mod call = some "strlen".toList then
    ((call.args[0]?).bind (resolveObjectInfo mod layout underlying)).bind fun obj =>
      (st.recentWrites.find obj.root).bind fun write =>
        if (write.kind = .memcpyLike ∨ write.kind = .memsetNonZero) ∧
            obj.sizeBytes ≤ write.writeSizeBytes then
          some
            { funcName := mod.functionName f
              filePath := mod.sourcePath f
              bufferName := obj.displayName
              apiName := "strlen".toList
              bufferSizeBytes := obj.sizeBytes
              writeSizeBytes := write.writeSizeBytes
              inst := inst
              kind := .missingNullTerminator }
        else none
  else none

/-- The object of the base of a `getelementptr`, as its name is reported. -/
def baseRoot (basePtr : V) : V :=
  peelPointerFromSingleStoreSlot mod (underlying (peelPointerFromSingleStoreSlot mod basePtr))

/-- The size that is known for the base of a `getelementptr`. -/
def knownBytes (st : ReadState V) (basePtr : V) : Option ℕ :=
  (st.heapAllocBytes.find (baseRoot mod underlying basePtr)).or
    ((st.heapAllocBytes.find (peelPointerFromSingleStoreSlot mod basePtr)).or
      (st.heapAllocBytes.find (mod.stripPointerCasts basePtr)))

/-- The number of elements of some type in an allocation, if there is at least one. -/
def capacityOf (sourceElementType : Ty) (bytes : ℕ) : Option ℕ :=
  if layout.typeAllocSize sourceElementType = 0 ∨
      bytes / layout.typeAllocSize sourceElementType = 0 then none
  else some (bytes / layout.typeAllocSize sourceElementType)

/-- The issue of a load outside of an allocation. -/
def heapIssue (f : F) (inst root : V) (capacity : ℕ) : OOBReadIssue V where
  funcName := mod.functionName f
  filePath := mod.sourcePath f
  bufferName := if mod.name root = [] then "<heap-buffer>".toList else mod.name root
  apiName := "indexed-load".toList
  capacityElements := capacity
  inst := inst

/-- A range shows that an index is inside of an allocation. -/
def rangeWithin (range : IntRange) (capacity : ℕ) : Bool :=
  range.hasLower && decide (0 ≤ range.lower) && range.hasUpper &&
    decide (toUnsigned64 range.upper < capacity)

/-- A constant index is outside of an allocation. -/
def constantOutside (index : ℤ) (capacity : ℕ) : Bool :=
  decide (index < 0 ∨ capacity ≤ toUnsigned64 index)

/-- The `getelementptr` that a load goes through: its source type, its pointer and its indices. -/
def loadedElement (inst : V) : Option (Ty × V × List V) :=
  match mod.value inst with
  | .load pointer =>
    match mod.value pointer with
    | .getElementPtr sourceElementType basePtr indices =>
      some (sourceElementType, basePtr, indices)
    | _ => none
  | _ => none

/-- The capacity and the index of a load from an allocation with a known size. -/
def checkedLoad (st : ReadState V) (inst : V) : Option (V × ℕ × V) :=
  (loadedElement mod inst).bind fun (sourceElementType, basePtr, indices) =>
    indices.getLast?.bind fun indexValue =>
      (knownBytes mod underlying st basePtr).bind fun bytes =>
        (capacityOf layout sourceElementType bytes).map fun capacity =>
          (baseRoot mod underlying basePtr, capacity, indexValue)

variable [Fintype V] (ranges : EntryMap V IntRange)

/-- A variable index looks suspicious. -/
def suspiciousIndex (indexValue : V) (capacity : ℕ) : Bool :=
  !((lookupRange mod ranges indexValue).any fun range => rangeWithin range capacity) &&
    dependsOnFunctionArgument mod indexValue

variable (evaluator : SmtConstraintEvaluator)

/-- `isHeapIndexViolationInfeasibleBySmt`. -/
def isHeapIndexViolationInfeasibleBySmt (indexExpr : V) (capacity : ℕ) (accessInst : V) :
    Solving V Bool :=
  if (mod.type indexExpr).isIntegerTy then
    match lookupRange mod ranges indexExpr with
    | none => .answer false
    | some range =>
      (evaluator.isInfeasible
        (encodeComparison mod [(indexExpr, range)] indexExpr (-1) false accessInst)).bind
        fun negativeInfeasible =>
          if !negativeInfeasible || decide (capacity = 0 ∨ 2 ^ 63 - 1 < capacity) then
            .answer false
          else
            evaluator.isInfeasible
              (encodeComparison mod [(indexExpr, range)] indexExpr (capacity - 1) true accessInst)
  else .answer false

/-- The issue of a load through a `getelementptr`. -/
def loadIssue (f : F) (st : ReadState V) (inst : V) : Solving V (List (OOBReadIssue V)) :=
  match checkedLoad mod layout underlying st inst with
  | none => .answer []
  | some (root, capacity, indexValue) =>
    let issue := heapIssue mod f inst root capacity
    match mod.value indexValue with
    | .constantInt _ c => .answer (if constantOutside c.toInt capacity then [issue] else [])
    | _ =>
      if suspiciousIndex mod ranges indexValue capacity then
        reportUnless
          (isHeapIndexViolationInfeasibleBySmt mod ranges evaluator (mod.stripCasts indexValue)
            capacity inst) issue
      else .answer []

/-- The issues of an instruction. -/
def issuesAt (f : F) (st : ReadState V) (inst : V) : Solving V (List (OOBReadIssue V)) :=
  match mod.value inst with
  | .call call => .answer (strlenIssue mod layout underlying f st inst call).toList
  | _ => loadIssue mod layout underlying ranges evaluator f st inst

end Objects

/-! ## The pass -/

section Analyze

variable (layout : DataLayout) (underlying : V → V)

/-- The instructions, each with what is remembered before it. -/
def visits : ReadState V → List V → List (ReadState V × V)
  | _, [] => []
  | st, inst :: insts => (st, inst) :: visits (visit mod layout underlying st inst) insts

variable [Fintype V]

/-- The body of the loop of `analyzeOOBReads` over the functions. -/
def analyzeOOBReadsInFunction (evaluator : SmtConstraintEvaluator) (f : F) :
    Solving V (List (OOBReadIssue V)) :=
  Consult.collect
    (fun entry => issuesAt mod layout underlying (computeIntRangesFromICmps mod f) evaluator f
      entry.1 entry.2)
    (visits mod layout underlying {} (mod.functionInstructions f))

/-- `analyzeOOBReads`. -/
def analyzeOOBReads (shouldAnalyze : F → Bool) (config : AnalysisConfig) :
    Solving V (List (OOBReadIssue V)) :=
  Consult.collect (analyzeOOBReadsInFunction mod layout underlying (.make config "oob-read"))
    (analyzedFunctions mod shouldAnalyze)

end Analyze

end StackAnalyzer.Bounds.OobReads
