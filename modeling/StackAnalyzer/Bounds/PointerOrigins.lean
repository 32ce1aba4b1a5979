import StackAnalyzer.Bounds.IntRanges

set_option relaxedAutoImplicit false
set_option autoImplicit false

/-!
# Origins of pointers

The buffer that a pointer points into. A pointer is followed back through casts, `getelementptr`s
and loads; a phi is resolved if all values that are resolved at all have the same origin, and so is
a pointer variable, if the values stored to it are looked for.

## Main definitions

* `StackAnalyzer.Bounds.walk` — following a pointer to where it does not simply go on.
* `StackAnalyzer.Bounds.resolveArrayAllocaFromPointer` — the array in the stack frame.
* `StackAnalyzer.Bounds.BufferBase`, `StackAnalyzer.Bounds.resolveArrayBufferBase` — the buffer.
* `StackAnalyzer.Bounds.fallbackCount` — the number of its elements, from its own type.

## Main results

* `StackAnalyzer.Bounds.resolve_scan_of_walk` — an origin that is found without a phi does not
  depend on whether stored values are looked for.
-/

namespace StackAnalyzer.Bounds

open CrossTU Maps Llvm

variable {F V B : Type*}

/-! ## Following a pointer -/

section Resolve

variable [DecidableEq V] (mod : Module F V B)

/-- `isArrayAlloca`. -/
def isArrayAlloca (allocatedType : Ty) (arraySize : V) : Bool :=
  mod.isArrayAllocation arraySize || allocatedType.isArrayBacked

/-- The loop of `resolveArrayAllocaFromPointerInternal`: the value where it ends, and the names on
the way. -/
def walk : ℕ → V → List V → List CppString → Option (V × List CppString)
  | 0, _, _, _ => none
  | fuel + 1, cur, visited, path =>
    if cur ∈ visited then none
    else
      let path := if mod.name cur = [] then path else path ++ [mod.name cur]
      match mod.value cur with
      | .cast .bitcast operand => walk fuel operand (cur :: visited) path
      | .getElementPtr _ pointer _ => walk fuel pointer (cur :: visited) path
      | .load pointer => walk fuel pointer (cur :: visited) path
      | _ => some (cur, path)

/-- The loop visits no value twice, so it ends within as many steps as there are values. -/
theorem walk_succ [Fintype V] {fuel : ℕ} {cur : V} {visited : List V} {path : List CppString}
    (hnodup : visited.Nodup) (hfuel : Fintype.card V < fuel + visited.length) :
    walk mod (fuel + 1) cur visited path = walk mod fuel cur visited path := by
  induction fuel generalizing cur visited path with
  | zero =>
    have hle := hnodup.length_le_card
    omega
  | succ fuel ih =>
    unfold walk
    by_cases hmem : cur ∈ visited
    · rw [if_pos hmem, if_pos hmem]
    · rw [if_neg hmem, if_neg hmem]
      have hnodup' : (cur :: visited).Nodup := List.nodup_cons.mpr ⟨hmem, hnodup⟩
      have hfuel' : Fintype.card V < fuel + (cur :: visited).length := by
        rw [List.length_cons]
        omega
      cases mod.value cur with
      | cast op operand =>
        cases op with
        | bitcast => exact ih hnodup' hfuel'
        | _ => rfl
      | getElementPtr sourceElementType pointer indices => exact ih hnodup' hfuel'
      | load pointer => exact ih hnodup' hfuel'
      | _ => rfl

/-- The values that a function stores to a pointer variable. -/
def storedValues (f : F) (slot : V) : List V :=
  (mod.functionInstructions f).filterMap fun inst =>
    match mod.value inst with
    | .store value pointer => if pointer = slot then some value else none
    | _ => none

/-- The first candidate that is resolved, unless another one has a different origin. -/
def uniqueOrigin (candidates : List (Option (V × List CppString))) :
    Option (V × List CppString) :=
  match candidates.reduceOption with
  | [] => none
  | found :: rest =>
    if rest.all fun candidate => decide (candidate.1 = found.1) then some found else none

variable [Fintype V]

/-- `resolveArrayAllocaFromPointerInternal`, with the number of levels that are left. -/
def resolveArrayAllocaFromPointerInternal (f : F) (allowPointerStoreScan : Bool) :
    ℕ → V → List V → Option (V × List CppString)
  | 0, _, _ => none
  | levels + 1, v, recursionStack =>
    if v ∈ recursionStack then none
    else
      match walk mod (Fintype.card V + 1) v [] [] with
      | none => none
      | some (cur, path) =>
        let resolveAll (candidates : List V) : Option (V × List CppString) :=
          (uniqueOrigin (candidates.map fun candidate =>
            resolveArrayAllocaFromPointerInternal f allowPointerStoreScan levels candidate
              (v :: recursionStack))).map fun found => (found.1, path ++ found.2)
        match mod.value cur with
        | .alloca allocatedType arraySize _ =>
          if isArrayAlloca mod allocatedType arraySize then some (cur, path)
          else if allowPointerStoreScan then resolveAll (storedValues mod f cur)
          else none
        | .phi incoming => resolveAll (incoming.map Prod.snd)
        | _ => none

/-- `resolveArrayAllocaFromPointer`: the depth is at most 64. -/
def resolveArrayAllocaFromPointer (f : F) (allowPointerStoreScan : Bool) (v : V) :
    Option (V × List CppString) :=
  resolveArrayAllocaFromPointerInternal mod f allowPointerStoreScan 65 v []

/-- **Origins without a phi**: they do not depend on whether stored values are looked for. -/
theorem resolve_scan_of_walk {f : F} {v cur : V} {path : List CppString}
    (hwalk : walk mod (Fintype.card V + 1) v [] [] = some (cur, path))
    (hphi : ∀ incoming, mod.value cur ≠ .phi incoming) {found : V × List CppString}
    (hfound : resolveArrayAllocaFromPointer mod f false v = some found) :
    resolveArrayAllocaFromPointer mod f true v = some found := by
  unfold resolveArrayAllocaFromPointer resolveArrayAllocaFromPointerInternal at hfound ⊢
  rw [if_neg List.not_mem_nil] at hfound ⊢
  rw [hwalk] at hfound ⊢
  dsimp only at hfound ⊢
  cases hvalue : mod.value cur with
  | alloca allocatedType arraySize used =>
    rw [hvalue] at hfound
    dsimp only at hfound ⊢
    by_cases harray : isArrayAlloca mod allocatedType arraySize = true
    · rw [if_pos harray] at hfound ⊢
      exact hfound
    · rw [if_neg harray, if_neg Bool.false_ne_true] at hfound
      exact absurd hfound (by simp)
  | phi incoming => exact absurd hvalue (hphi incoming)
  | _ =>
    rw [hvalue] at hfound
    exact absurd hfound (by simp)

end Resolve

/-! ## Buffers -/

section Buffers

variable [DecidableEq V] (mod : Module F V B)

/-- `isAllocaArrayByDebugInfo`. -/
def isAllocaArrayByDebugInfo (f : F) (slot : V) : Option Bool :=
  (mod.functionInstructions f).findSome? fun inst =>
    match mod.value inst with
    | .call call =>
      match call.intrinsic with
      | some (.dbgVariable (some location) isArray) =>
        if mod.underlyingObject location = slot then some isArray else none
      | _ => none
    | _ => none

/-- `shouldUseAllocaFallback`. -/
def shouldUseAllocaFallback (f : F) (slot : V) : Bool :=
  match isAllocaArrayByDebugInfo mod f slot with
  | some debugArray => debugArray
  | none =>
    match mod.value slot with
    | .alloca (.array _ (.array _ _)) _ _ => true
    | .alloca (.array numElements _) _ _ => decide (1 < numElements)
    | .alloca _ arraySize _ =>
      mod.isArrayAllocation arraySize &&
        match mod.value arraySize with
        | .constantInt _ size => decide (1 < size.toNat)
        | _ => true
    | _ => false

/-- `getAllocaElementCount`. -/
def getAllocaElementCount (slot : V) : Option ℕ :=
  match mod.value slot with
  | .alloca allocatedType arraySize _ =>
    let elements :=
      match allocatedType with
      | .array numElements _ => some numElements
      | _ => none
    if mod.isArrayAllocation arraySize then
      match mod.value arraySize with
      | .constantInt _ size => some (elements.getD 1 * size.toNat % 2 ^ 64)
      | _ => none
    else elements
  | _ => none

/-- `getGlobalElementCount`. -/
def getGlobalElementCount (globalVar : V) : Option ℕ :=
  match mod.value globalVar with
  | .globalVariable (.array numElements _) => some numElements
  | _ => none

/-- `resolveArrayGlobalFromPointer`. -/
def resolveArrayGlobalFromPointer (v : V) : Option V :=
  match mod.value (mod.underlyingObject v) with
  | .globalVariable valueType =>
    if valueType.isArrayBacked then some (mod.underlyingObject v) else none
  | _ => none

/-- The buffer that a pointer points into. -/
inductive BufferBase (V : Type*)
  | stack (slot : V)
  | global (globalVar : V)
  deriving DecidableEq

/-- The name of a buffer in an issue. -/
def BufferBase.varName (base : BufferBase V) : CppString :=
  match base with
  | .stack slot => if mod.name slot = [] then "<unnamed>".toList else mod.name slot
  | .global globalVar =>
    if mod.name globalVar = [] then "<unnamed-global>".toList else mod.name globalVar

/-- `resolveArrayBufferBaseCached`: the buffer, and the names of its aliases. The cache only keeps
what has been computed for a pointer before. -/
def resolveArrayBufferBase [Fintype V] (f : F) (allowPointerStoreScan : Bool) (basePtr : V) :
    Option (BufferBase V × List CppString) :=
  match resolveArrayAllocaFromPointer mod f allowPointerStoreScan basePtr with
  | some (slot, path) => some (.stack slot, path)
  | none =>
    (resolveArrayGlobalFromPointer mod basePtr).map fun globalVar =>
      (.global globalVar, if mod.name globalVar = [] then [] else [mod.name globalVar])

/-- The number of elements of a buffer by its own type. -/
def fallbackCount (f : F) (base : BufferBase V) : Option ℕ :=
  match base with
  | .stack slot =>
    if shouldUseAllocaFallback mod f slot then getAllocaElementCount mod slot else none
  | .global globalVar => getGlobalElementCount mod globalVar

end Buffers

end StackAnalyzer.Bounds
