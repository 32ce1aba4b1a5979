import StackAnalyzer.Llvm.Ir

set_option relaxedAutoImplicit false
set_option autoImplicit false

/-!
# Null dereferences

The check for dereferenced null pointers: a pointer is null if it is the null constant, if the
nearest store to its slot before the access stores null, or if the only predecessor of the block
branches to it when a pointer with the same identity is null. Results of allocators that nobody
checks are reported too.

## Main definitions

* `StackAnalyzer.NullDeref.dereferencedPointer` — the pointer that an instruction accesses.
* `StackAnalyzer.NullDeref.canonicalPointerIdentity` — what is compared when two pointers are.
* `StackAnalyzer.NullDeref.conditionImpliesNullForSuccessor` — the pointer that is null on an edge.
* `StackAnalyzer.NullDeref.precedingStoreSetsNull` — the scan for the last store of a block.
* `StackAnalyzer.NullDeref.analyzeNullDereferences` — the pass.

## Main results

* `StackAnalyzer.NullDeref.reported_of_mem` — why an issue has been reported.
-/

namespace StackAnalyzer.NullDeref

open CrossTU Llvm

/-- Why a dereference is reported. -/
inductive NullDerefIssueKind
  | directNullPointer | nullBranchDereference | nullStoredInLocalSlot | uncheckedAllocatorResult
  deriving DecidableEq

/-- A reported dereference. -/
structure NullDerefIssue (V : Type*) where
  funcName : CppString
  filePath : CppString
  pointerName : CppString
  inst : V
  kind : NullDerefIssueKind

/-- What LLVM answers: the pointers of atomic operations and of constant `getelementptr`s,
`getUnderlyingObject` with 32 steps, and the attributes of returned values. -/
structure Answers (F V : Type*) where
  atomicPointerOperand : V → Option V
  constantGepPointer : V → Option V
  underlyingObject : V → V
  callDereferenceable : V → Bool
  functionNonNull : F → Bool
  functionDereferenceable : F → Bool

variable {F V B : Type*} (mod : Module F V B) (answers : Answers F V)

/-! ## Pointers -/

/-- `isLocalPointerSlot`. -/
def isLocalPointerSlot [DecidableEq B] (pointer : V) : Bool :=
  mod.isStaticAlloca (mod.stripPointerCasts pointer)

/-- `dereferencedPointer`. A pointer that is kept in a local slot is no access to it. -/
def dereferencedPointer [DecidableEq B] (inst : V) : Option V :=
  match mod.value inst with
  | .load pointer =>
    if (mod.type inst).isPointerTy && isLocalPointerSlot mod pointer then none else some pointer
  | .store value pointer =>
    if (mod.type value).isPointerTy && isLocalPointerSlot mod pointer then none else some pointer
  | .instruction => answers.atomicPointerOperand inst
  | _ => none

/-- `pointerDisplayName`. -/
def pointerDisplayName (pointer : V) : CppString :=
  let root := answers.underlyingObject pointer
  match mod.name root, mod.value root with
  | [], .argument _ _ => "<arg>".toList
  | [], _ => "<pointer>".toList
  | name, _ => name

/-- The pointer operand of a `GEPOperator`. -/
def gepPointerOperand (v : V) : Option V :=
  match mod.value v with
  | .getElementPtr _ pointer _ => some pointer
  | .constant => answers.constantGepPointer v
  | _ => none

/-- Some rounds of `stripPointerAddressOps`. -/
def stripAddressOpsWithin : ℕ → V → V
  | 0, current => current
  | depth + 1, current =>
    match gepPointerOperand mod answers (mod.stripPointerCasts current) with
    | some pointer => stripAddressOpsWithin depth pointer
    | none => mod.stripPointerCasts current

/-- `stripPointerAddressOps`. -/
def stripPointerAddressOps (pointer : V) : V :=
  mod.stripPointerCasts (stripAddressOpsWithin mod answers 8 pointer)

/-- The slot that a value is loaded from. -/
def loadedSlot (v : V) : Option V :=
  match mod.value v with
  | .load pointer => some (mod.stripPointerCasts pointer)
  | _ => none

/-- `canonicalPointerIdentity`: the slot from which the pointer is loaded, or its object. -/
def canonicalPointerIdentity (pointer : V) : V :=
  let current := stripPointerAddressOps mod answers pointer
  match loadedSlot mod current with
  | some slot =>
    if (mod.value slot).isAlloca || (mod.value slot).isArgument then slot
    else answers.underlyingObject current
  | none => answers.underlyingObject current

/-- `samePointerRoot`. -/
def samePointerRoot [DecidableEq V] (lhs rhs : V) : Bool :=
  decide (canonicalPointerIdentity mod answers lhs = canonicalPointerIdentity mod answers rhs)

/-- `isNullValue`. -/
def isNullValue (v : V) : Bool :=
  match mod.value (mod.stripPointerCasts v) with
  | .constantPointerNull => true
  | _ => false

/-! ## Allocators -/

/-- `canonicalExternalCalleeName`. -/
def canonicalExternalCalleeName (name : CppString) : CppString :=
  let name := if name.head? = some '\x01' then name.tail else name
  let name := if name.head? = some '_' then name.tail else name
  name.takeWhile fun c => decide (c ≠ '$')

/-- `isAllocatorLikeName`. -/
def isAllocatorLikeName (calleeName : CppString) : Bool :=
  decide (calleeName ∈
    ["malloc".toList, "calloc".toList, "realloc".toList, "aligned_alloc".toList])

/-- `hasKnownNonNullReturn`. -/
def hasKnownNonNullReturn (inst : V) (call : CallBase V F) (callee : F) : Bool :=
  call.retNonNull || answers.callDereferenceable inst || answers.functionNonNull callee ||
    answers.functionDereferenceable callee

/-- `isUncheckedAllocatorResult`. -/
def isUncheckedAllocatorResult (v : V) : Bool :=
  match mod.value (mod.stripPointerCasts v) with
  | .call call =>
    match call.calledFunction with
    | some callee =>
      mod.isDeclaration callee &&
        isAllocatorLikeName (canonicalExternalCalleeName (mod.functionName callee)) &&
        !hasKnownNonNullReturn answers (mod.stripPointerCasts v) call callee
    | none => false
  | _ => false

/-! ## Facts about pointers -/

/-- What `icmp eq` and `icmp ne` with null mean where the comparison is true. -/
def nullOnTrue : Predicate → Option Bool
  | .eq => some true
  | .ne => some false
  | _ => none

/-- The pointer that is compared with null. -/
def pointerComparedWithNull (lhs rhs : V) : Option V :=
  if isNullValue mod lhs && (mod.type rhs).isPointerTy then some rhs
  else if isNullValue mod rhs && (mod.type lhs).isPointerTy then some lhs
  else none

/-- `conditionImpliesNullForSuccessor`: the pointer that is null if the branch goes to the
successor. -/
def conditionImpliesNullForSuccessor [DecidableEq B] (branch : V) (successor : B) : Option V :=
  match mod.value branch with
  | .br cond ifTrue _ =>
    match mod.value (mod.stripPointerCasts cond) with
    | .icmp predicate lhs rhs =>
      match pointerComparedWithNull mod lhs rhs, nullOnTrue predicate with
      | some pointer, some nullIfTrue =>
        if (if ifTrue = successor then nullIfTrue else !nullIfTrue) then some pointer else none
      | _, _ => none
    | _ => none
  | _ => none

/-- A store through a pointer to a slot, with the stored value. -/
def storedIn [DecidableEq V] (slot inst : V) : Option V :=
  match mod.value inst with
  | .store value pointer => if mod.stripPointerCasts pointer = slot then some value else none
  | _ => none

/-- `findNearestPrecedingStoreToSlot`: the nearest store before an instruction of a block. -/
def findNearestPrecedingStoreToSlot [DecidableEq V] (derefInst slot : V) : Option V :=
  (((mod.instructions (mod.parent derefInst)).takeWhile fun inst =>
    decide (inst ≠ derefInst)).reverse).find? fun inst => (storedIn mod slot inst).isSome

/-- `precedingStoreSetsNull`. -/
def precedingStoreSetsNull [DecidableEq V] (derefInst pointerOperand : V) : Bool :=
  match loadedSlot mod (stripPointerAddressOps mod answers pointerOperand) with
  | some slot =>
    (mod.value slot).isAlloca &&
      match findNearestPrecedingStoreToSlot mod derefInst slot with
      | some store => (storedIn mod slot store).any (isNullValue mod)
      | none => false
  | none => false

/-- `derefComesFromUncheckedAllocator`. -/
def derefComesFromUncheckedAllocator [DecidableEq V] (derefInst pointerOperand : V) : Bool :=
  let producer := stripPointerAddressOps mod answers pointerOperand
  (mod.type producer).isPointerTy &&
    (isUncheckedAllocatorResult mod answers producer ||
      match loadedSlot mod producer with
      | some slot =>
        (mod.value slot).isAlloca &&
          match findNearestPrecedingStoreToSlot mod derefInst slot with
          | some store => (storedIn mod slot store).any (isUncheckedAllocatorResult mod answers)
          | none => false
      | none => false)

/-! ## The pass -/

variable [DecidableEq V] [DecidableEq B]

/-- The pointer that is null on the edge to a block, if there is only one edge. -/
def nullOnEntry (block : B) : Option V :=
  match mod.predecessors block with
  | [pred] =>
    (mod.instructions pred).getLast?.bind fun branch =>
      conditionImpliesNullForSuccessor mod branch block
  | _ => none

/-- Why a dereference in a block is reported, if it is. -/
def kindOf (block : B) (inst pointer : V) : Option NullDerefIssueKind :=
  if !(mod.type pointer).isPointerTy then none
  else if isNullValue mod pointer then some .directNullPointer
  else if precedingStoreSetsNull mod answers inst pointer then some .nullStoredInLocalSlot
  else if (nullOnEntry mod block).any (samePointerRoot mod answers pointer) then
    some .nullBranchDereference
  else if derefComesFromUncheckedAllocator mod answers inst pointer then
    some .uncheckedAllocatorResult
  else none

/-- One instruction of the pass. -/
def visitInstruction (f : F) (block : B) (issues : List (NullDerefIssue V)) (inst : V) :
    List (NullDerefIssue V) :=
  match dereferencedPointer mod answers inst with
  | none => issues
  | some pointer =>
    match kindOf mod answers block inst pointer with
    | none => issues
    | some kind =>
      if issues.any fun issue => decide (issue.inst = inst) then issues
      else issues ++ [⟨mod.functionName f, mod.sourcePath f,
        pointerDisplayName mod answers pointer, inst, kind⟩]

/-- `analyzeNullDereferences`. -/
def analyzeNullDereferences (shouldAnalyze : F → Bool) : List (NullDerefIssue V) :=
  mod.functions.foldl (fun issues f =>
    if mod.isDeclaration f || !shouldAnalyze f then issues
    else (mod.blocks f).foldl (fun issues block =>
      (mod.instructions block).foldl (visitInstruction mod answers f block) issues) issues) []

/-! ## Reports -/

/-- An issue is reported for an instruction of a block of a function. -/
structure Reported (issue : NullDerefIssue V) (f : F) (block : B) (pointer : V) : Prop where
  function_mem : f ∈ mod.functions
  block_mem : block ∈ mod.blocks f
  inst_mem : issue.inst ∈ mod.instructions block
  pointer_eq : dereferencedPointer mod answers issue.inst = some pointer
  kind_eq : kindOf mod answers block issue.inst pointer = some issue.kind

variable {mod answers}

/-- One instruction adds an issue that is reported for it, or none. -/
theorem mem_visitInstruction {f : F} {block : B} {issues : List (NullDerefIssue V)} {inst : V}
    {issue : NullDerefIssue V} (h : issue ∈ visitInstruction mod answers f block issues inst) :
    issue ∈ issues ∨ issue.inst = inst ∧ ∃ pointer,
      dereferencedPointer mod answers inst = some pointer ∧
        kindOf mod answers block inst pointer = some issue.kind := by
  unfold visitInstruction at h
  split at h
  · exact Or.inl h
  · next pointer hpointer =>
    split at h
    · exact Or.inl h
    · next kind hkind =>
      split_ifs at h with hemitted
      · exact Or.inl h
      · rcases List.mem_append.mp h with h | h
        · exact Or.inl h
        · obtain rfl := List.mem_singleton.mp h
          exact Or.inr ⟨rfl, pointer, hpointer, hkind⟩

/-- **Why an issue has been reported**: its instruction is in a function, and there is a reason. -/
theorem reported_of_mem {shouldAnalyze : F → Bool} {issue : NullDerefIssue V}
    (h : issue ∈ analyzeNullDereferences mod answers shouldAnalyze) :
    ∃ f block pointer, Reported mod answers issue f block pointer := by
  revert h
  refine List.foldlRecOn (motive := fun issues => issue ∈ issues → _) mod.functions _
    (fun h => absurd h List.not_mem_nil) ?_
  intro issues hissues f hf
  split_ifs
  · exact hissues
  refine List.foldlRecOn (motive := fun issues => issue ∈ issues → _) (mod.blocks f) _ hissues ?_
  intro issues hissues block hblock
  refine List.foldlRecOn (motive := fun issues => issue ∈ issues → _) (mod.instructions block) _
    hissues ?_
  intro issues hissues inst hinst h
  rcases mem_visitInstruction h with h | ⟨hinst', pointer, hpointer, hkind⟩
  · exact hissues h
  · exact ⟨f, block, pointer, hf, hblock, hinst' ▸ hinst, hinst' ▸ hpointer, hinst' ▸ hkind⟩

end StackAnalyzer.NullDeref
