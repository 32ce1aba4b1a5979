import StackAnalyzer.Bounds.IntRanges

set_option relaxedAutoImplicit false
set_option autoImplicit false

/-!
# Operands that depend on arguments

What the pass over integer overflows finds out about operands before it consults the solver: whether
they depend on an argument of the function or reach its return, which constants and ranges they are
known to have, and what may go wrong in the computation of a size.

## Main definitions

* `StackAnalyzer.Bounds.peelLoadFromSingleStoreSlot` — looking through a variable.
* `StackAnalyzer.Bounds.dependsOnFunctionArgument`, `StackAnalyzer.Bounds.reachesReturn` — searches.
* `StackAnalyzer.Bounds.resolveKnownRange`, `StackAnalyzer.Bounds.resolveConstInt` — known values.
* `StackAnalyzer.Bounds.provenNoSignedOverflowByRanges` — results that fit by their ranges.
* `StackAnalyzer.Bounds.classifySizeOperand` — the risk of a size.
-/

namespace StackAnalyzer.Bounds

open CrossTU Maps Llvm
open Smt (IntRange)

/-! ## Searches -/

/-- Search some places in order, passing on what has been visited, until one of them succeeds. -/
def firstVisited {X V R : Type*} (search : X → List V → Option R × List V) :
    List X → List V → Option R × List V
  | [], visited => (none, visited)
  | x :: xs, visited =>
    match search x visited with
    | (some r, visited) => (some r, visited)
    | (none, visited) => firstVisited search xs visited

variable {F V B : Type*} [DecidableEq V] [DecidableEq B] (mod : Module F V B)

section Slots

/-- How a slot is used. -/
inductive SlotUse (V : Type*)
  | stored (store : V)
  | harmless
  | unknown

/-- A use of a slot. -/
def slotUse (slot user : V) : SlotUse V :=
  match mod.value user with
  | .store _ pointer => if mod.stripPointerCasts pointer = slot then .stored user else .unknown
  | .load pointer => if mod.stripPointerCasts pointer = slot then .harmless else .unknown
  | .call call =>
    match call.intrinsic with
    | some (.dbgVariable _ _) | some .dbgInfo | some .lifetime => .harmless
    | _ => .unknown
  | _ => .unknown

/-- The body of the loop of `findUniqueStoreToSlot`; there is no result after a failure. -/
def collectSlotUse (slot : V) (uniqueStore : Option (Option V)) (user : V) : Option (Option V) :=
  uniqueStore.bind fun uniqueStore =>
    match slotUse mod slot user with
    | .stored store =>
      if uniqueStore.all fun other => decide (other = store) then some (some store) else none
    | .harmless => some uniqueStore
    | .unknown => none

/-- `findUniqueStoreToSlot`. -/
def findUniqueStoreToSlot (slot : V) : Option V :=
  ((mod.users slot).foldl (collectSlotUse mod slot) (some none)).join

/-- `peelLoadFromSingleStoreSlot`. -/
def peelLoadFromSingleStoreSlot (v : V) : Option V :=
  match mod.value v with
  | .load pointer =>
    let slot := mod.stripPointerCasts pointer
    if mod.isStaticAlloca slot then
      (findUniqueStoreToSlot mod slot).bind fun store =>
        match mod.value store with
        | .store value _ => some value
        | _ => none
    else none
  | _ => none

/-- `dependsOnFunctionArgumentRecursive`, with the number of levels that are left. -/
def dependsOnFunctionArgumentRecursive : ℕ → V → List V → Option Unit × List V
  | 0, _, visited => (none, visited)
  | levels + 1, v, visited =>
    if v ∈ visited then (none, visited)
    else if (mod.value v).isArgument then (some (), v :: visited)
    else if (mod.value v).isConstant then (none, v :: visited)
    else
      firstVisited (dependsOnFunctionArgumentRecursive levels)
        ((peelLoadFromSingleStoreSlot mod v).toList ++
          if (mod.value v).isInstruction then mod.operands v else []) (v :: visited)

/-- `dependsOnFunctionArgument`: the depth is at most 32. -/
def dependsOnFunctionArgument (v : V) : Bool :=
  (dependsOnFunctionArgumentRecursive mod 33 v []).1.isSome

/-- Where the value of a user goes on: `none` is a return. -/
def reachedFrom (v user : V) : List (Option V) :=
  match mod.value user with
  | .ret => [none]
  | .cast _ _ | .phi _ | .select _ _ _ => [some user]
  | .store value pointer =>
    let slot := mod.stripPointerCasts pointer
    if value = v ∧ mod.isStaticAlloca slot then
      (mod.users slot).filterMap fun slotUser =>
        match mod.value slotUser with
        | .load pointer => if mod.stripPointerCasts pointer = slot then some (some slotUser) else none
        | _ => none
    else []
  | _ => []

/-- `reachesReturnRecursive`, with the number of levels that are left. -/
def reachesReturnRecursive : ℕ → V → List V → Option Unit × List V
  | 0, _, visited => (none, visited)
  | levels + 1, v, visited =>
    if v ∈ visited then (none, visited)
    else
      firstVisited
        (fun next visited =>
          match next with
          | none => (some (), visited)
          | some next => reachesReturnRecursive levels next visited)
        ((mod.users v).flatMap (reachedFrom mod v)) (v :: visited)

/-- `reachesReturn`. -/
def reachesReturn (v : V) : Bool := (reachesReturnRecursive mod 33 v []).1.isSome

end Slots

/-! ## Known values -/

section Known

variable (ranges : EntryMap V IntRange)

/-- The range of the slot that a value is loaded from. -/
def slotRange (v : V) : Option IntRange :=
  match mod.value v with
  | .load pointer => ranges.find pointer
  | _ => none

/-- The operand of a cast. -/
def castOperand (v : V) : Option V :=
  match mod.value v with
  | .cast _ operand => some operand
  | _ => none

/-- A range that lies between non-negative bounds. -/
def isNonNegativeRange (range : IntRange) : Bool :=
  range.hasLower && range.hasUpper && decide (0 ≤ range.lower) && decide (0 ≤ range.upper)

/-- `hasKnownNonNegativeRange`, through at most as many casts as the fuel. -/
def hasKnownNonNegativeRangeWithin : ℕ → V → Bool
  | 0, _ => false
  | fuel + 1, v =>
    (ranges.find v).any isNonNegativeRange ||
      match castOperand mod v with
      | some operand => hasKnownNonNegativeRangeWithin fuel operand
      | none => (slotRange mod ranges v).any isNonNegativeRange

/-- `hasKnownNonNegativeRange`. -/
def hasKnownNonNegativeRange [Fintype V] (v : V) : Bool :=
  hasKnownNonNegativeRangeWithin mod ranges (Fintype.card V + 1) v

/-- `resolveKnownRangeRecursive`, with the number of levels that are left. -/
def resolveKnownRangeRecursive : ℕ → V → List V → Option IntRange
  | 0, _, _ => none
  | levels + 1, v, visited =>
    if v ∈ visited then none
    else
      (ranges.find v).or ((slotRange mod ranges v).or
        (((peelLoadFromSingleStoreSlot mod v).or (castOperand mod v)).bind fun next =>
          resolveKnownRangeRecursive levels next (v :: visited)))

/-- `resolveKnownRange`. -/
def resolveKnownRange (v : V) : Option IntRange := resolveKnownRangeRecursive mod ranges 33 v []

/-- `resolveConstIntRecursive`, with the number of levels that are left. -/
def resolveConstIntRecursive : ℕ → V → List V → Option ((width : ℕ) × BitVec width)
  | 0, _, _ => none
  | levels + 1, v, visited =>
    if v ∈ visited then none
    else
      match mod.value v with
      | .constantInt width bits => some ⟨width, bits⟩
      | _ =>
        ((peelLoadFromSingleStoreSlot mod v).or (castOperand mod v)).bind fun next =>
          resolveConstIntRecursive levels next (v :: visited)

/-- `resolveConstInt`. -/
def resolveConstInt (v : V) : Option ((width : ℕ) × BitVec width) :=
  resolveConstIntRecursive mod 33 v []

/-- `truncationDropsKnownBits`. -/
def truncationDropsKnownBits (source : V) (targetBitWidth : ℕ) : Bool :=
  match resolveConstInt mod source with
  | some ⟨width, bits⟩ =>
    decide (targetBitWidth < width) && decide (bits.toNat % 2 ^ targetBitWidth ≠ bits.toNat)
  | none =>
    match resolveKnownRange mod ranges source with
    | none => false
    | some knownRange =>
      if knownRange.hasLower && decide (knownRange.lower < 0) then true
      else if 63 ≤ targetBitWidth ∨ knownRange.hasUpper = false ∨ knownRange.upper < 0 then false
      else decide (2 ^ targetBitWidth - 1 < knownRange.upper)

/-- `isPotentiallyLossyTruncation`. -/
def isPotentiallyLossyTruncation (trunc source : V) : Bool :=
  match (mod.type source).integerWidth, (mod.type trunc).integerWidth with
  | some sourceWidth, some targetWidth =>
    if sourceWidth.val ≤ targetWidth.val then false
    else truncationDropsKnownBits mod ranges source targetWidth.val ||
      dependsOnFunctionArgument mod source
  | _, _ => false

/-- `tryGetSignedRange`: both bounds. -/
def tryGetSignedRange (v : V) : Option (ℤ × ℤ) :=
  match resolveConstInt mod v with
  | some ⟨width, bits⟩ =>
    if width = 0 ∨ 63 < width then none else some (bits.toInt, bits.toInt)
  | none =>
    (resolveKnownRange mod ranges v).bind fun knownRange =>
      if knownRange.hasLower && knownRange.hasUpper then some (knownRange.lower, knownRange.upper)
      else none

/-- The smallest and the largest result of an operation on operands in ranges. -/
def resultRange (op : BinaryOp) (lhs rhs : ℤ × ℤ) : Option (ℤ × ℤ) :=
  match op with
  | .add => some (lhs.1 + rhs.1, lhs.2 + rhs.2)
  | .sub => some (lhs.1 - rhs.2, lhs.2 - rhs.1)
  | .mul =>
    let c1 := lhs.1 * rhs.1
    let c2 := lhs.1 * rhs.2
    let c3 := lhs.2 * rhs.1
    let c4 := lhs.2 * rhs.2
    some (min (min c1 c2) (min c3 c4), max (max c1 c2) (max c3 c4))
  | _ => none

/-- `provenNoSignedOverflowByRanges`. -/
def provenNoSignedOverflowByRanges (binary : V) (op : BinaryOp) (lhs rhs : V) : Bool :=
  match (mod.type binary).integerWidth with
  | none => false
  | some width =>
    if 63 < width.val then false
    else
      match tryGetSignedRange mod ranges lhs, tryGetSignedRange mod ranges rhs with
      | some lhsRange, some rhsRange =>
        match resultRange op lhsRange rhsRange with
        | some (resultMin, resultMax) =>
          decide (-2 ^ (width.val - 1) ≤ resultMin) && decide (resultMax ≤ 2 ^ (width.val - 1) - 1)
        | none => false
      | _, _ => false

end Known

/-! ## Sizes -/

/-- `IntegerOverflowIssueKind`. -/
inductive IntegerOverflowIssueKind
  | arithmeticInSizeComputation | signedToUnsignedSize | truncationInSizeComputation
  | signedArithmeticOverflow
  deriving DecidableEq

/-- `RiskSummary`. -/
structure RiskSummary (V : Type*) where
  kind : IntegerOverflowIssueKind
  relatedValue : Option V
  arithmeticOp : Option V := none
  operation : CppString
  truncTargetBitWidth : ℕ := 0

/-- `getOpcodeName`, of the operators that the pass names. -/
def getOpcodeName : BinaryOp → CppString
  | .add => "add".toList
  | .sub => "sub".toList
  | .mul => "mul".toList
  | .shl => "shl".toList
  | .lshr => "lshr".toList
  | .ashr => "ashr".toList
  | .other => []

section Classify

variable [Fintype V] (ranges : EntryMap V IntRange)

/-- The name of an arithmetic operation with overflow that a value is extracted from. -/
def withOverflowName (aggregate : V) : Option CppString :=
  match mod.value aggregate with
  | .call call =>
    match call.intrinsic with
    | some .withOverflow =>
      some ((call.calledFunction.map mod.functionName).getD "with.overflow".toList)
    | _ => none
  | _ => none

/-- `classifySizeOperandRecursive`, with the number of levels that are left. -/
def classifySizeOperandRecursive : ℕ → V → List V → Option (RiskSummary V) × List V
  | 0, _, visited => (none, visited)
  | levels + 1, v, visited =>
    if v ∈ visited then (none, visited)
    else
      match mod.value v with
      | .cast .trunc source =>
        if isPotentiallyLossyTruncation mod ranges v source then
          (some ⟨.truncationInSizeComputation, some source, none, "trunc".toList,
            (((mod.type v).integerWidth).map Subtype.val).getD 0⟩, v :: visited)
        else classifySizeOperandRecursive levels source (v :: visited)
      | .cast .sext source =>
        if dependsOnFunctionArgument mod source && !hasKnownNonNegativeRange mod ranges source then
          (some ⟨.signedToUnsignedSize, some source, none, "sext".toList, 0⟩, v :: visited)
        else classifySizeOperandRecursive levels source (v :: visited)
      | .cast .zext source => classifySizeOperandRecursive levels source (v :: visited)
      | .binary op _ _ lhs rhs =>
        if (op = .add ∨ op = .sub ∨ op = .mul ∨ op = .shl) ∧
            !((mod.value lhs).isConstantInt && (mod.value rhs).isConstantInt) ∧
            dependsOnFunctionArgument mod v then
          (some ⟨.arithmeticInSizeComputation, some v, some v, getOpcodeName op, 0⟩, v :: visited)
        else (none, v :: visited)
      | .extractValue aggregate =>
        match withOverflowName mod aggregate with
        | some operation =>
          (some ⟨.arithmeticInSizeComputation, some aggregate, none, operation, 0⟩, v :: visited)
        | none => classifySizeOperandRecursive levels aggregate (v :: visited)
      | .load _ =>
        match peelLoadFromSingleStoreSlot mod v with
        | some peeled => classifySizeOperandRecursive levels peeled (v :: visited)
        | none => (none, v :: visited)
      | .phi incoming =>
        firstVisited (classifySizeOperandRecursive levels) (incoming.map Prod.snd) (v :: visited)
      | .select _ trueValue falseValue =>
        firstVisited (classifySizeOperandRecursive levels) [trueValue, falseValue] (v :: visited)
      | _ => (none, v :: visited)

/-- `classifySizeOperand`. -/
def classifySizeOperand (v : V) : Option (RiskSummary V) :=
  (classifySizeOperandRecursive mod ranges 33 v []).1

end Classify

end StackAnalyzer.Bounds
