import StackAnalyzer.Bounds.IntegerOverflows

set_option relaxedAutoImplicit false
set_option autoImplicit false

/-!
# Writes of a size minus a constant

The pass that looks for writes of `size - k` bytes, or at the index `size - k`, where the pointer
may be null or the size may be at most `k`. The functions that write so many bytes are those of the
library, and functions that pass their parameters on to them.

## Main definitions

* `StackAnalyzer.Bounds.canonical` — looking through casts and the slots of parameters.
* `StackAnalyzer.Bounds.matchSizeMinusK` — a size minus a constant.
* `StackAnalyzer.Bounds.buildSizeMinusKSummaries` — the parameters that functions pass on.
* `StackAnalyzer.Bounds.analyzeSizeMinusKWrites` — the issues of a module.
-/

namespace StackAnalyzer.Bounds

open CrossTU Maps Llvm Smt Consulting

/-- `LibFunc`, of the functions that the pass knows. -/
inductive LibFunc
  | memcpy | memmove | memset | strncpy | strncat | stpncpy | other
  deriving DecidableEq

/-- What LLVM answers: `getLibFunc` of a function, and `getPredicateAt` for a pointer that is not
null, and for a number that is greater than a constant. -/
structure Oracles (F V : Type*) where
  getLibFunc : F → Option LibFunc
  isNonNull : V → V → Bool
  isGreaterThan : V → ℤ → V → Bool

/-- `SizeMinusKSink`. -/
structure SizeMinusKSink where
  dstIdx : ℕ
  lenIdx : ℕ
  deriving DecidableEq

/-- `SizeMinusKWriteIssue`. -/
structure SizeMinusKWriteIssue (V : Type*) where
  funcName : CppString
  sinkName : CppString
  k : ℤ
  inst : V
  ptrNonNull : Bool
  sizeAboveK : Bool
  hasPointerDest : Bool

/-- `canonicalizeSinkName`. -/
def canonicalizeSinkName (name : CppString) : CppString :=
  if "__".toList.isPrefixOf name && "_chk".toList.isSuffixOf name && decide (6 < name.length) then
    (name.drop 2).take (name.length - 6)
  else name

variable {F V B : Type*} [DecidableEq F] [DecidableEq V] [DecidableEq B] [Fintype V]
  (mod : Module F V B) (oracles : Oracles F V)

/-! ## Sizes and sinks -/

section Sinks

/-- The parameters that the entry block stores to slots; a later store replaces an earlier one. -/
def argSlots (f : F) : EntryMap V V :=
  (((mod.blocks f).head?.map mod.instructions).getD []).foldl
    (fun slots inst =>
      match mod.value inst with
      | .store value pointer =>
        let arg := mod.stripCasts value
        let slot := mod.stripCasts pointer
        if (mod.value arg).isArgument && (mod.value slot).isAlloca then slots.assign slot arg
        else slots
      | _ => slots) EntryMap.empty

/-- `canonicalize`: look through casts, and the load of the slot of a parameter. -/
def canonical (slots : EntryMap V V) (v : V) : V :=
  match mod.value (mod.stripCasts v) with
  | .load pointer => (slots.find (mod.stripCasts pointer)).getD (mod.stripCasts v)
  | _ => mod.stripCasts v

/-- `matchSizeMinusK`: the size and the constant. -/
def matchSizeMinusK (slots : EntryMap V V) (v : V) : Option (V × ℤ) :=
  match mod.value (canonical mod slots v) with
  | .binary op _ _ lhs rhs =>
    match mod.value (canonical mod slots rhs) with
    | .constantInt _ c =>
      let k :=
        match op with
        | .sub => c.toInt
        | .add => wrap64 (-c.toInt)
        | _ => 0
      if 0 < k then some (canonical mod slots lhs, k) else none
    | _ => none
  | _ => none

/-- The names of the functions that are taken for functions of the library. -/
def sinkNames : List CppString :=
  ["memcpy".toList, "memmove".toList, "memset".toList, "strncpy".toList, "strncat".toList,
    "stpncpy".toList]

/-- `getKnownSinkCallInfo`: the sink, with its name. -/
def getKnownSinkCallInfo (call : CallBase V F) : Option (SizeMinusKSink × CppString) :=
  if call.args.length < 3 then none
  else
    match call.intrinsic with
    | some .memcpy | some .memmove | some .memset => some (⟨0, 2⟩, "llvm.mem*".toList)
    | some _ => none
    | none =>
      match mod.value (mod.stripPointerCasts call.calledOperand) with
      | .function callee =>
        let name := mod.functionName callee
        let matched :=
          (oracles.getLibFunc callee).any (fun libFunc => decide (libFunc ≠ .other)) ||
            sinkNames.any fun sinkName => decide (sinkName <:+: name)
        if matched then some (⟨0, 2⟩, if name = [] then "lib call".toList else name) else none
      | _ => none

/-- `getArgIndex`. -/
def getArgIndex (slots : EntryMap V V) (v : V) : Option ℕ :=
  match mod.value (canonical mod slots v) with
  | .argument argNo _ => some argNo
  | _ => none

/-- The parameters of a function that a call passes on to a sink of the callee. -/
def passedSink (slots : EntryMap V V) (call : CallBase V F) (sink : SizeMinusKSink) :
    Option SizeMinusKSink :=
  match (call.args[sink.dstIdx]?).bind (getArgIndex mod slots),
    (call.args[sink.lenIdx]?).bind (getArgIndex mod slots) with
  | some dstArg, some lenArg => some ⟨dstArg, lenArg⟩
  | _, _ => none

end Sinks

/-! ## Summaries -/

section Summaries

/-- `SizeMinusKSummaryMap`. -/
abbrev SizeMinusKSummaryMap (F : Type*) := EntryMap F (List SizeMinusKSink)

/-- `addSummarySink`, and whether the sink is new. -/
def addSummarySink (f : F) (state : SizeMinusKSummaryMap F × Bool) (sink : SizeMinusKSink) :
    SizeMinusKSummaryMap F × Bool :=
  let sinks := (state.1.find f).getD []
  if sink ∈ sinks then state else (state.1.assign f (sinks ++ [sink]), true)

/-- The calls of a function, in order. -/
def callsOf (f : F) : List (CallBase V F) :=
  (mod.functionInstructions f).filterMap fun inst =>
    match mod.value inst with
    | .call call => some call
    | _ => none

/-- The functions with a body. -/
def definedFunctions : List F := mod.functions.filter fun f => !mod.isDeclaration f

/-- The first pass of `buildSizeMinusKSummaries`: the functions of the library. -/
def directSinks : SizeMinusKSummaryMap F :=
  ((definedFunctions mod).foldl
    (fun state f =>
      ((callsOf mod f).filterMap fun call =>
        (getKnownSinkCallInfo mod oracles call).bind fun known =>
          passedSink mod (argSlots mod f) call known.1).foldl (addSummarySink f) state)
    (EntryMap.empty, false)).1

/-- A call in the second pass: the sinks that the callee has when the call is reached. -/
def propagateCall (f : F) (state : SizeMinusKSummaryMap F × Bool) (call : CallBase V F) :
    SizeMinusKSummaryMap F × Bool :=
  match call.calledFunction with
  | none => state
  | some callee =>
    if mod.isDeclaration callee then state
    else
      (((state.1.find callee).getD []).filterMap (passedSink mod (argSlots mod f) call)).foldl
        (addSummarySink f) state

/-- The second pass once. -/
def propagateOnce (summaries : SizeMinusKSummaryMap F) : SizeMinusKSummaryMap F × Bool :=
  (definedFunctions mod).foldl
    (fun state f => (callsOf mod f).foldl (propagateCall mod f) state) (summaries, false)

/-- The second pass, until nothing changes. -/
def propagate : ℕ → SizeMinusKSummaryMap F → SizeMinusKSummaryMap F
  | 0, summaries => summaries
  | fuel + 1, summaries =>
    match propagateOnce mod summaries with
    | (summaries, true) => propagate fuel summaries
    | (summaries, false) => summaries

/-- `buildSizeMinusKSummaries`: a round adds a pair of parameters to a function, and there are not
more parameters than values. -/
def buildSizeMinusKSummaries : SizeMinusKSummaryMap F :=
  propagate mod (mod.functions.length * Fintype.card V ^ 2 + 1) (directSinks mod oracles)

end Summaries

/-! ## The pass -/

section Analyze

variable (evaluator : SmtConstraintEvaluator) (f : F) (ranges : EntryMap V IntRange)

/-- `resolveSmtRangeRecursive`, with the number of levels that are left. -/
def resolveSmtRangeRecursive : ℕ → V → List V → Option IntRange
  | 0, _, _ => none
  | levels + 1, v, visited =>
    if v ∈ visited then none
    else
      ((ranges.find v).filter isUsableRangeForSmt).or
        (((slotRange mod ranges v).filter isUsableRangeForSmt).or
          ((castOperand mod v).bind fun operand =>
            resolveSmtRangeRecursive levels operand (v :: visited)))

/-- `buildValueQueryRanges`. -/
def buildValueQueryRanges (v : V) : List (V × IntRange) :=
  if (mod.type v).isIntegerTy then
    ((resolveSmtRangeRecursive mod ranges 17 v []).map fun range => (v, range)).toList
  else []

/-- `isNonNullAt`. -/
def isNonNullAt (v location : V) : Bool :=
  (mod.type v).isPointerTy &&
    match mod.value v with
    | .argument _ nonNull => nonNull || oracles.isNonNull v location
    | .call call => call.retNonNull || oracles.isNonNull v location
    | _ => oracles.isNonNull v location

/-- `isGreaterThanAt`. -/
def isGreaterThanAt (v : V) (bound : ℤ) (location : V) : Bool :=
  (mod.type v).isIntegerTy &&
    match mod.value v with
    | .constantInt _ c => decide (bound < c.toInt)
    | _ => oracles.isGreaterThan v bound location

/-- `emitIssue`. The solver is consulted if it is not known that the size is above the constant. -/
def emitIssue (location dest sizeBase : V) (sinkName : CppString) (k : ℤ) :
    Solving V (List (SizeMinusKWriteIssue V)) :=
  let aboveK := isGreaterThanAt mod oracles sizeBase k location
  let ptrNonNull := isNonNullAt mod oracles dest location
  let refuted :=
    if aboveK then .answer false
    else
      infeasibleWithRanges evaluator (buildValueQueryRanges mod ranges sizeBase) fun queryRanges =>
        encodeComparison mod queryRanges sizeBase k false location
  refuted.map fun atMostKInfeasible =>
    if !ptrNonNull || !(aboveK || atMostKInfeasible) then
      [⟨mod.functionName f, sinkName, k, location, ptrNonNull, aboveK || atMostKInfeasible, true⟩]
    else []

/-- The issue of a call with a size minus a constant as the length. -/
def sinkIssue (slots : EntryMap V V) (location : V) (call : CallBase V F) (sink : SizeMinusKSink)
    (sinkName : CppString) : Solving V (List (SizeMinusKWriteIssue V)) :=
  match call.args[sink.dstIdx]?, (call.args[sink.lenIdx]?).bind (matchSizeMinusK mod slots) with
  | some dst, some (base, k) =>
    emitIssue mod oracles evaluator f ranges location (canonical mod slots dst) base sinkName k
  | _, _ => .answer []

/-- The name of a sink in an issue. -/
def sinkLabel (sinkName : CppString) : CppString :=
  let label := canonicalizeSinkName sinkName
  if label = "llvm.mem*".toList ∨ label = "lib call".toList then
    label ++ " (len = size-k)".toList
  else label

/-- The issues of an instruction. -/
def writeIssues (summaries : SizeMinusKSummaryMap F) (slots : EntryMap V V) (inst : V) :
    Solving V (List (SizeMinusKWriteIssue V)) :=
  match mod.value inst with
  | .call call =>
    match getKnownSinkCallInfo mod oracles call, call.calledFunction with
    | some (sink, sinkName), _ =>
      sinkIssue mod oracles evaluator f ranges slots inst call sink (sinkLabel sinkName)
    | none, some callee =>
      Consult.collect
        (fun sink =>
          sinkIssue mod oracles evaluator f ranges slots inst call sink (mod.functionName callee))
        ((summaries.find callee).getD [])
    | none, none => .answer []
  | .store _ pointer =>
    match mod.value pointer with
    | .getElementPtr _ base indices =>
      match indices.findSome? (matchSizeMinusK mod slots) with
      | some (size, k) =>
        emitIssue mod oracles evaluator f ranges inst (canonical mod slots base) size
          "store (idx = size-k)".toList k
      | none => .answer []
    | _ => .answer []
  | _ => .answer []

/-- `analyzeSizeMinusKWrites`. -/
def analyzeSizeMinusKWrites (shouldAnalyzeFunction : F → Bool) (config : AnalysisConfig) :
    Solving V (List (SizeMinusKWriteIssue V)) :=
  let summaries := buildSizeMinusKSummaries mod oracles
  Consult.collect
    (fun f =>
      Consult.collect
        (writeIssues mod oracles (.make config "size-minus-k") f (computeIntRangesFromICmps mod f)
          summaries (argSlots mod f))
        (mod.functionInstructions f))
    (analyzedFunctions mod shouldAnalyzeFunction)

end Analyze

end StackAnalyzer.Bounds
