import StackAnalyzer.Graph.Worklist
import StackAnalyzer.Ranges.RangeList

set_option relaxedAutoImplicit false
set_option autoImplicit false

/-!
# The definite-initialisation analysis

The must analysis that decides which bytes of the tracked objects are initialised on every path to
a block: `analyzeFunction`, for functions whose instructions are loads from and stores to tracked
objects at constant offsets.

## Main definitions

* `StackAnalyzer.Uninit.addRange`, `StackAnalyzer.Uninit.intersectRanges` — byte ranges.
* `StackAnalyzer.Uninit.TrackedFunction` — a function with its tracked objects.
* `StackAnalyzer.Uninit.computeInState` — the state in which a block starts.
* `StackAnalyzer.Uninit.sweep`, `StackAnalyzer.Uninit.fixpointLoop` — the loop over the blocks.
* `StackAnalyzer.Uninit.analyzeFunction` — the analysis, with its iteration budget.
-/

namespace StackAnalyzer.Uninit

open Graph

/-! ## Byte ranges -/

/-- `ByteRange`: the bytes from `begin` up to and without `stop`. -/
abbrev ByteRange := Ranges.Range

/-- `RangeSet`. -/
abbrev RangeSet := List ByteRange

/-- `InitRangeState`: the initialised bytes of each tracked object. -/
abbrev InitRangeState := List RangeSet

/-- The largest `std::uint64_t`. -/
def maxVal : ℕ := 2 ^ 64 - 1

/-- `saturatingAdd`. -/
def saturatingAdd (lhs rhs : ℕ) : ℕ := if lhs > maxVal - rhs then maxVal else lhs + rhs

/-- `addRange`. -/
def addRange (ranges : RangeSet) (begin stop : ℕ) : RangeSet := Ranges.add ranges begin stop

/-- `intersectRanges`. -/
def intersectRanges (lhs rhs : RangeSet) : RangeSet := Ranges.inter lhs rhs

/-! ## Tracked objects -/

/-- `TrackedObjectKind`. -/
inductive TrackedObjectKind
  | alloca
  | pointerParam
  deriving DecidableEq

/-- `TrackedMemoryObject`: the size is that of a tracked alloca, or `0` for what a parameter points
to. -/
structure TrackedMemoryObject where
  kind : TrackedObjectKind
  sizeBytes : ℕ
  sizeBytes_le : sizeBytes ≤ maxVal
  sizeBytes_eq_zero : sizeBytes = 0 ↔ kind = .pointerParam

/-- `kUnknownObjectFullRange`. -/
def kUnknownObjectFullRange : ℕ := maxVal / 4

/-- `getObjectFullRangeEnd`. -/
def getObjectFullRangeEnd (obj : TrackedMemoryObject) : ℕ :=
  if obj.sizeBytes = 0 then kUnknownObjectFullRange else obj.sizeBytes

/-- `clipRangeToObject`. -/
def clipRangeToObject (obj : TrackedMemoryObject) (begin stop : ℕ) : Option ByteRange :=
  if obj.sizeBytes = 0 then if begin ≥ stop then none else some ⟨begin, stop⟩
  else if begin ≥ obj.sizeBytes then none
  else if begin < min stop obj.sizeBytes then some ⟨begin, min stop obj.sizeBytes⟩
  else none

/-- `resolveAccessFromPointer`, for a pointer at a constant offset into the object. -/
def resolveAccess (obj : TrackedMemoryObject) (offset accessSize : ℕ) : Option ByteRange :=
  if accessSize = 0 then none else clipRangeToObject obj offset (saturatingAdd offset accessSize)

/-! ## Instructions -/

/-- The instructions that access the object of an index at a constant offset. A store may store an
`undef` or `poison` value. -/
inductive Instruction
  | load (object offset size : ℕ)
  | store (object offset size : ℕ) (undef : Bool)
  deriving DecidableEq

/-- `transferInstruction`: a store initialises the bytes that it writes, unless the value is `undef`
or `poison`. -/
def transferInstruction (objects : List TrackedMemoryObject) (initialized : InitRangeState) :
    Instruction → InitRangeState
  | .load _ _ _ => initialized
  | .store object offset size undef =>
    if undef then initialized
    else
      match objects[object]?.bind fun obj => resolveAccess obj offset size with
      | some access => initialized.modify object (addRange · access.begin access.stop)
      | none => initialized

/-- `makeBottomState`. -/
def makeBottomState (trackedCount : ℕ) : InitRangeState := List.replicate trackedCount []

/-- `makeTopState`. -/
def makeTopState (objects : List TrackedMemoryObject) : InitRangeState :=
  objects.map fun obj => addRange [] 0 (getObjectFullRangeEnd obj)

/-- `meetMustState`. -/
def meetMustState (accum incoming : InitRangeState) : InitRangeState :=
  if accum.length ≠ incoming.length then accum else List.zipWith intersectRanges accum incoming

/-! ## Functions -/

/-- A function: its blocks in layout order, the entry first, the edges in both directions, the
instructions of the blocks, and the tracked objects. No edge leads to the entry. -/
structure TrackedFunction (B : Type*) where
  entry : B
  rest : List B
  successors : B → List B
  predecessors : B → List B
  instructions : B → List Instruction
  objects : List TrackedMemoryObject
  nodup : (entry :: rest).Nodup
  successors_mem : ∀ b ∈ entry :: rest, ∀ s ∈ successors b, s ∈ entry :: rest
  mem_predecessors : ∀ b p, p ∈ predecessors b ↔ p ∈ entry :: rest ∧ b ∈ successors p
  predecessors_entry : predecessors entry = []

/-- `inState` and `outState`. -/
structure FlowStates (B : Type*) where
  inState : B → Option InitRangeState
  outState : B → Option InitRangeState

section Analysis

variable {B : Type*} [DecidableEq B] (F : TrackedFunction B)

/-- The blocks in layout order. -/
def TrackedFunction.blocks : List B := F.entry :: F.rest

/-- `computeReachableBlocks`. -/
def computeReachableBlocks : B → Bool :=
  reachFrom F.successors (F.blocks.length + 1) F.entry

/-- The merge over the predecessors: it stops at a predecessor without a state. -/
def mergePredecessors (reachable : B → Bool) (outState : B → Option InitRangeState) :
    List B → InitRangeState → InitRangeState
  | [], merged => merged
  | pred :: preds, merged =>
    if reachable pred then
      match outState pred with
      | some out => mergePredecessors reachable outState preds (meetMustState merged out)
      | none => makeBottomState F.objects.length
    else mergePredecessors reachable outState preds merged

/-- `computeInState`. -/
def computeInState (reachable : B → Bool) (outState : B → Option InitRangeState) (b : B) :
    InitRangeState :=
  if b = F.entry then makeBottomState F.objects.length
  else if (F.predecessors b).any reachable then
    mergePredecessors F reachable outState (F.predecessors b) (makeTopState F.objects)
  else makeBottomState F.objects.length

/-- The states before the first iteration. -/
def initialStates (reachable : B → Bool) : FlowStates B :=
  let initial b :=
    if reachable b then
      some (if b = F.entry then makeBottomState F.objects.length else makeTopState F.objects)
    else none
  ⟨initial, initial⟩

/-- The body of the loop over the blocks: update the states of a block, and record whether they
changed. -/
def updateBlock (reachable : B → Bool) (r : FlowStates B × Bool) (b : B) : FlowStates B × Bool :=
  if reachable b then
    let newIn := computeInState F reachable r.1.outState b
    let state := (F.instructions b).foldl (transferInstruction F.objects) newIn
    (⟨Function.update r.1.inState b (some newIn), Function.update r.1.outState b (some state)⟩,
      r.2 || decide (r.1.inState b ≠ some newIn) || decide (r.1.outState b ≠ some state))
  else r

/-- One iteration of the fixpoint loop, and whether a state changed. -/
def sweep (reachable : B → Bool) (s : FlowStates B) : FlowStates B × Bool :=
  F.blocks.foldl (updateBlock F reachable) (s, false)

/-- The fixpoint loop, for a number of iterations that may be left: the states and `changed`. -/
def fixpointLoop (reachable : B → Bool) : ℕ → FlowStates B → FlowStates B × Bool
  | 0, s => (s, true)
  | iterations + 1, s =>
    let r := sweep F reachable s
    if r.2 then fixpointLoop reachable iterations r.1 else (r.1, false)

/-- The number of reachable blocks. -/
def reachableCount : ℕ := (F.blocks.filter (computeReachableBlocks F)).length

/-- `maxIterations`, computed with `unsigned` numbers of 32 bits. -/
def maxIterations (reachableBlocks : ℕ) : ℕ :=
  max 64 (reachableBlocks % 2 ^ 32 * 16 % 2 ^ 32)

/-- `analyzeFunction`: the states that the fixpoint loop leaves, and whether it gave up. There is
nothing to do without tracked objects. -/
def analyzeFunction : Option (FlowStates B × Bool) :=
  if F.objects = [] then none
  else
    let reachable := computeReachableBlocks F
    some (fixpointLoop F reachable (maxIterations (reachableCount F)) (initialStates F reachable))

end Analysis

end StackAnalyzer.Uninit
