import StackAnalyzer.Graph.Cfg
import StackAnalyzer.Maps.EntryMap

set_option relaxedAutoImplicit false
set_option autoImplicit false

/-!
# Global buffers that are read before they are written

The pass that looks for reads of zero-initialized global arrays without an earlier write in the
same function. It records the accesses of a function in instruction order, keeps the first read of
every global that no single write dominates, and reports it with what is known of other writes.

## Main definitions

* `StackAnalyzer.Globals.Module`, `StackAnalyzer.Globals.Function`,
  `StackAnalyzer.Globals.Opcode` — what the pass reads of a module.
* `StackAnalyzer.Globals.buildGlobalReadBeforeWriteSummaryIndex`,
  `StackAnalyzer.Globals.mergeGlobalReadBeforeWriteSummaryIndex` — the index of written globals.
* `StackAnalyzer.Globals.selectedReads`, `StackAnalyzer.Globals.analyzeFunction` — the reads that
  are reported.
-/

namespace StackAnalyzer.Globals

open Maps Graph

/-! ## Modules -/

/-- `GlobalVariable`. The name is empty if it has none. -/
structure GlobalVariable where
  name : String
  hasLocalLinkage : Bool
  isDeclaration : Bool
  isConstant : Bool
  hasInitializer : Bool
  isNullInitializer : Bool
  isArray : Bool

/-- `isTrackedDefinitionGlobal`. -/
def GlobalVariable.isTrackedDefinition (global : GlobalVariable) : Bool :=
  if global.isDeclaration || global.isConstant then false
  else if !global.hasInitializer || !global.isNullInitializer then false
  else global.isArray

/-- The instructions that access memory, with their pointer operands. `controlOnly` is
`isControlOnlyLoadUsage`. -/
inductive Opcode (V : Type*)
  | store (isVolatile : Bool) (pointerOperand : V)
  | memTransfer (isVolatile : Bool) (rawDest rawSource : V)
  | memSet (isVolatile : Bool) (rawDest : V)
  | atomicRMW (pointerOperand : V)
  | atomicCmpXchg (pointerOperand : V)
  | call (mayRead mayWrite : Bool) (args : List V)
  | load (isVolatile controlOnly : Bool) (pointerOperand : V)
  | other

/-- A function, with blocks of type `B` and instructions of type `I`. -/
structure Function (V B I : Type*) where
  name : String
  isDeclaration : Bool
  blocks : List B
  cfg : Cfg B I
  opcode : I → Opcode V
  nodup : (blocks.flatMap cfg.instructions).Nodup

/-- The instructions of a function, in order. -/
def Function.instructions {V B I : Type*} (fn : Function V B I) : List I :=
  fn.blocks.flatMap fn.cfg.instructions

/-- A module, with functions of type `F` and globals of type `G`. `underlyingGlobal` is the global
that a pointer is based on, constants included. Globals with a name are determined by it. -/
structure Module (F G V B I : Type*) where
  functions : List F
  function : F → Function V B I
  shouldAnalyze : F → Bool
  globals : List G
  global : G → GlobalVariable
  underlyingGlobal : V → Option G
  name_injective : ∀ g h, (global g).name = (global h).name → (global g).name ≠ "" → g = h

variable {F G V B I : Type*}

namespace Module

variable (mod : Module F G V B I)

/-- The functions that are analysed. -/
def selected : List F :=
  mod.functions.filter fun f => !(mod.function f).isDeclaration && mod.shouldAnalyze f

/-- `resolveUnderlyingGlobal`. -/
def resolveUnderlyingGlobal (pointerOperand : V) : Option G :=
  (mod.underlyingGlobal pointerOperand).filter fun g => !(mod.global g).isConstant

end Module

/-! ## The index of written globals -/

/-- `GlobalReadBeforeWriteGlobalSummary`. -/
structure GlobalSummary where
  zeroInitializedArray : Bool := false
  hasAnyWrite : Bool := false
  deriving DecidableEq

/-- `GlobalReadBeforeWriteSummaryIndex`. -/
abbrev SummaryIndex := EntryMap String GlobalSummary

/-- The pointers that an instruction may write through. -/
def Opcode.writtenPointers : Opcode V → List V
  | .store isVolatile p => if isVolatile then [] else [p]
  | .memTransfer isVolatile dest _ => if isVolatile then [] else [dest]
  | .memSet isVolatile dest => if isVolatile then [] else [dest]
  | .atomicRMW p => [p]
  | .atomicCmpXchg p => [p]
  | .call _ mayWrite args => if mayWrite then args else []
  | .load _ _ _ => []
  | .other => []

/-- `collectGlobalWriteSummaryForPointer`. -/
def collectGlobalWriteSummaryForPointer (mod : Module F G V B I) (out : SummaryIndex)
    (pointerOperand : V) : SummaryIndex :=
  match mod.resolveUnderlyingGlobal pointerOperand with
  | none => out
  | some g =>
    if (mod.global g).name = "" then out
    else
      let summary := (out.find (mod.global g).name).getD {}
      out.assign (mod.global g).name
        { zeroInitializedArray :=
            summary.zeroInitializedArray || (mod.global g).isTrackedDefinition
          hasAnyWrite := true }

/-- The pointers that the functions of a module may write through. -/
def Module.writtenPointers (mod : Module F G V B I) : List V :=
  mod.selected.flatMap fun f =>
    (mod.function f).instructions.flatMap fun i => ((mod.function f).opcode i).writtenPointers

/-- The loop over the globals of a module. -/
def collectTrackedGlobals (mod : Module F G V B I) : SummaryIndex :=
  mod.globals.foldl (fun out g =>
    if !(mod.global g).isTrackedDefinition || decide ((mod.global g).name = "") then out
    else out.assign (mod.global g).name
      { (out.find (mod.global g).name).getD {} with zeroInitializedArray := true }) EntryMap.empty

/-- `buildGlobalReadBeforeWriteSummaryIndex`. -/
def buildGlobalReadBeforeWriteSummaryIndex (mod : Module F G V B I) : SummaryIndex :=
  mod.writtenPointers.foldl (collectGlobalWriteSummaryForPointer mod) (collectTrackedGlobals mod)

/-- How `mergeGlobalReadBeforeWriteSummaryIndex` joins an entry to an old one. -/
def summaryJoining : Joining GlobalSummary where
  skip _ := false
  normalize := id
  join merged src :=
    let joined : GlobalSummary :=
      { zeroInitializedArray := merged.zeroInitializedArray || src.zeroInitializedArray
        hasAnyWrite := merged.hasAnyWrite || src.hasAnyWrite }
    (joined, joined.zeroInitializedArray != merged.zeroInitializedArray ||
      joined.hasAnyWrite != merged.hasAnyWrite)

/-- `mergeGlobalReadBeforeWriteSummaryIndex`: the new `dst`, and whether it changed. -/
def mergeGlobalReadBeforeWriteSummaryIndex (dst src : SummaryIndex) : SummaryIndex × Bool :=
  EntryMap.merge summaryJoining dst src

/-- `buildCrossTUGlobalReadBeforeWriteSummaryIndex`: a single module has no index. -/
def buildCrossTUGlobalReadBeforeWriteSummaryIndex (loadedModules : List (Module F G V B I)) :
    Option SummaryIndex :=
  if loadedModules.length < 2 then none
  else some (loadedModules.foldl (fun globalIndex mod =>
    (mergeGlobalReadBeforeWriteSummaryIndex globalIndex
      (buildGlobalReadBeforeWriteSummaryIndex mod)).1) EntryMap.empty)

/-! ## Recorded accesses -/

section Analysis

variable [DecidableEq G] [DecidableEq I]

/-- An access through a pointer. -/
inductive Access (V : Type*)
  | read (pointerOperand : V)
  | write (pointerOperand : V)

/-- The accesses of an instruction, in the order in which they are recorded. -/
def Opcode.accesses : Opcode V → List (Access V)
  | .store isVolatile p => if isVolatile then [] else [.write p]
  | .memTransfer isVolatile dest source =>
    if isVolatile then [] else [.write dest, .read source]
  | .memSet isVolatile dest => if isVolatile then [] else [.write dest]
  | .atomicRMW p => [.read p, .write p]
  | .atomicCmpXchg p => [.read p, .write p]
  | .call mayRead mayWrite args =>
    args.flatMap fun arg =>
      (if mayRead then [.read arg] else []) ++ if mayWrite then [.write arg] else []
  | .load isVolatile controlOnly p => if isVolatile || controlOnly then [] else [.read p]
  | .other => []

/-- `lookupExternalSummary`. -/
def lookupExternalSummary (externalSummaries : Option SummaryIndex) (global : GlobalVariable) :
    Option GlobalSummary :=
  externalSummaries.bind fun index => if global.name = "" then none else index.find global.name

/-- `resolveTrackedGlobalBuffer`: the global, and its summary. -/
def resolveTrackedGlobalBuffer (mod : Module F G V B I) (externalSummaries : Option SummaryIndex)
    (pointerOperand : V) : Option (G × Option GlobalSummary) :=
  (mod.resolveUnderlyingGlobal pointerOperand).bind fun g =>
    let external := lookupExternalSummary externalSummaries (mod.global g)
    if (mod.global g).isTrackedDefinition || external.any GlobalSummary.zeroInitializedArray then
      some (g, external)
    else none

/-- What is recorded of a function. -/
structure Recorded (G I : Type*) where
  writesByGlobal : EntryMap G (List I) := EntryMap.empty
  hasAnyKnownWriteByGlobal : EntryMap G Bool := EntryMap.empty
  reads : List (I × G) := []

/-- `rememberAnyKnownWrite`. -/
def rememberAnyKnownWrite (tracked : G × Option GlobalSummary) (known : EntryMap G Bool) :
    EntryMap G Bool :=
  let known := match known.find tracked.1 with
    | none => known.assign tracked.1 false
    | some _ => known
  if tracked.2.any GlobalSummary.hasAnyWrite then known.assign tracked.1 true else known

/-- `recordGlobalWrite` and `recordGlobalRead`. -/
def recordAccess (mod : Module F G V B I) (externalSummaries : Option SummaryIndex)
    (recorded : Recorded G I) (event : I × Access V) : Recorded G I :=
  match event.2 with
  | .write p =>
    match resolveTrackedGlobalBuffer mod externalSummaries p with
    | none => recorded
    | some tracked =>
      { recorded with
        writesByGlobal := recorded.writesByGlobal.assign tracked.1
          ((recorded.writesByGlobal.find tracked.1).getD [] ++ [event.1])
        hasAnyKnownWriteByGlobal :=
          rememberAnyKnownWrite tracked recorded.hasAnyKnownWriteByGlobal }
  | .read p =>
    match resolveTrackedGlobalBuffer mod externalSummaries p with
    | none => recorded
    | some tracked =>
      { recorded with
        reads := recorded.reads ++ [(event.1, tracked.1)]
        hasAnyKnownWriteByGlobal :=
          rememberAnyKnownWrite tracked recorded.hasAnyKnownWriteByGlobal }

/-- The accesses of a function, each with its instruction. -/
def Function.events (fn : Function V B I) : List (I × Access V) :=
  fn.instructions.flatMap fun i => (fn.opcode i).accesses.map fun access => (i, access)

/-- The loop over the instructions of a function. -/
def recordFunction (mod : Module F G V B I) (externalSummaries : Option SummaryIndex)
    (fn : Function V B I) : Recorded G I :=
  fn.events.foldl (recordAccess mod externalSummaries) {}

/-! ## Selected reads -/

/-- `GlobalReadBeforeWriteKind`. -/
inductive GlobalReadBeforeWriteKind
  | beforeFirstLocalWrite | withoutLocalWrite
  deriving DecidableEq

/-- The read that is selected for a global. -/
structure SelectedRead (I : Type*) where
  inst : I
  firstWrite : Option I
  kind : GlobalReadBeforeWriteKind

/-- The position of an instruction in its function. -/
def Function.instructionOrder (fn : Function V B I) (i : I) : ℕ := fn.instructions.idxOf i

variable (dominates : I → I → Bool) (instructionOrder : I → ℕ)

/-- The loop over the writes of a global: `none` once a write dominates the read, else the first
write that the read dominates. -/
def scanWrites (readInst : I) : List I → Option I → Option (Option I)
  | [], firstWriteAfterRead => some firstWriteAfterRead
  | writeInst :: writes, firstWriteAfterRead =>
    if writeInst = readInst then scanWrites readInst writes firstWriteAfterRead
    else if dominates writeInst readInst then none
    else if dominates readInst writeInst && firstWriteAfterRead.all fun w =>
        decide (instructionOrder writeInst < instructionOrder w) then
      scanWrites readInst writes (some writeInst)
    else scanWrites readInst writes firstWriteAfterRead

/-- The body of the loop over the reads. -/
def selectRead (writesByGlobal : EntryMap G (List I)) (selected : EntryMap G (SelectedRead I))
    (readEvent : I × G) : EntryMap G (SelectedRead I) :=
  match scanWrites dominates instructionOrder readEvent.1
      ((writesByGlobal.find readEvent.2).getD []) none with
  | none => selected
  | some firstWrite =>
    let entry : SelectedRead I := ⟨readEvent.1, firstWrite,
      if firstWrite.isSome then .beforeFirstLocalWrite else .withoutLocalWrite⟩
    match selected.find readEvent.2 with
    | none => selected.assign readEvent.2 entry
    | some earlier =>
      if instructionOrder readEvent.1 < instructionOrder earlier.inst then
        selected.assign readEvent.2 entry
      else selected

/-- The tables of selected reads, writes and kinds, as one table. -/
def selectedReads (recorded : Recorded G I) : EntryMap G (SelectedRead I) :=
  recorded.reads.foldl (selectRead dominates instructionOrder recorded.writesByGlobal)
    EntryMap.empty

/-- `GlobalReadBeforeWriteIssue`. -/
structure GlobalReadBeforeWriteIssue (I : Type*) where
  funcName : String
  globalName : String
  readInst : I
  firstWriteInst : Option I
  kind : GlobalReadBeforeWriteKind
  hasNonLocalWrite : Bool

/-- The issue of a selected read. -/
def toIssue (mod : Module F G V B I) (fn : Function V B I) (recorded : Recorded G I)
    (entry : G × SelectedRead I) : GlobalReadBeforeWriteIssue I where
  funcName := fn.name
  globalName :=
    if (mod.global entry.1).name = "" then "<unnamed-global>" else (mod.global entry.1).name
  readInst := entry.2.inst
  firstWriteInst := entry.2.firstWrite
  kind := entry.2.kind
  hasNonLocalWrite := (recorded.hasAnyKnownWriteByGlobal.find entry.1).getD false

/-- The selected reads of a function. -/
def Module.selectedReads (mod : Module F G V B I) (externalSummaries : Option SummaryIndex)
    (f : F) : EntryMap G (SelectedRead I) :=
  Globals.selectedReads dominates (mod.function f).instructionOrder
    (recordFunction mod externalSummaries (mod.function f))

/-- `analyzeGlobalReadBeforeWrites`; `enumerate f` is the order in which the table of selected
reads of a function is iterated over. -/
def analyzeGlobalReadBeforeWrites (mod : Module F G V B I)
    (externalSummaries : Option SummaryIndex) (enumerate : F → List (G × SelectedRead I)) :
    List (GlobalReadBeforeWriteIssue I) :=
  mod.selected.flatMap fun f => (enumerate f).map
    (toIssue mod (mod.function f) (recordFunction mod externalSummaries (mod.function f)))

/-- An order for every table of selected reads. -/
def IsEnumeration (mod : Module F G V B I) (externalSummaries : Option SummaryIndex)
    (dominates : F → I → I → Bool) (enumerate : F → List (G × SelectedRead I)) : Prop :=
  ∀ f ∈ mod.selected,
    (enumerate f).Perm (mod.selectedReads (dominates f) externalSummaries f).entries

end Analysis

end StackAnalyzer.Globals
