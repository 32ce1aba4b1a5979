import StackAnalyzer.Passes.InstructionCache

set_option relaxedAutoImplicit false
set_option autoImplicit false

/-!
# The passes that read the instruction cache

Dynamic allocas, writes of memory functions past a stack buffer, shell commands that are no
literals, and files that are checked and then used. Each pass exists twice: it walks a function, or
it reads the lists that the cache has for it.

## Main definitions

* `StackAnalyzer.Passes.analyzeDynamicAllocas`, `StackAnalyzer.Passes.analyzeMemIntrinsicOverflows`,
  `StackAnalyzer.Passes.analyzeCommandInjection`, `StackAnalyzer.Passes.analyzeTOCTOU` — the passes
  over the functions.
* `StackAnalyzer.Passes.analyzeDynamicAllocasCached` and so on — the passes over the lists.
* `StackAnalyzer.Passes.Diagnostic` and the functions that build one from an issue.
-/

namespace StackAnalyzer.Passes

variable {V : Type*}

/-! ## Dynamic allocas -/

/-- `DynamicAllocaIssue`. -/
structure DynamicAllocaIssue (V : Type*) where
  funcName : String
  varName : String
  typeName : String
  allocaInst : V

/-- The value is a `ConstantInt`. -/
def ValueTable.isConstantInt (values : ValueTable V) (v : V) : Bool :=
  match values.kind v with
  | .constantInt _ => true
  | _ => false

/-- The issue of one alloca: its size is neither a constant nor derived from one. -/
def dynamicAllocaIssue (values : ValueTable V) (fn : Function V) (AI : AllocaInst V) :
    Option (DynamicAllocaIssue V) :=
  if values.isConstantInt AI.arraySize then none
  else if fn.tryGetConstFromValue AI.arraySize then none
  else some ⟨fn.name, AI.derivedName, AI.typeName, AI.value⟩

/-- `analyzeDynamicAllocasInFunction`. -/
def analyzeDynamicAllocas (values : ValueTable V) (fn : Function V) :
    List (DynamicAllocaIssue V) :=
  fn.instructions.filterMap fun I => I.asAlloca.bind (dynamicAllocaIssue values fn)

/-- `analyzeDynamicAllocasCached`. -/
def analyzeDynamicAllocasCached (values : ValueTable V) (fn : Function V)
    (allocas : List (AllocaInst V)) : List (DynamicAllocaIssue V) :=
  allocas.filterMap (dynamicAllocaIssue values fn)

/-! ## Writes of memory functions -/

/-- `BufferWriteRuleKind`. -/
inductive BufferWriteRuleKind
  | boundedWrite | unboundedWrite
  deriving DecidableEq

/-- `BufferWriteRule`. -/
structure BufferWriteRule where
  functionPattern : String
  destArgIndex : ℕ
  sizeArgIndex : ℕ
  kind : BufferWriteRuleKind

/-- The loop of `globMatches`: the rest of the pattern and of the text, and where to go on after the
last star. The fuel covers every restart at the star. -/
def globLoop : ℕ → List Char → List Char → Option (List Char × List Char) → Bool
  | 0, _, _, _ => false
  | _ + 1, p, [], _ => p.all fun c => decide (c = '*')
  | fuel + 1, p, c :: t, star =>
    match p with
    | q :: p =>
      if q = '?' ∨ q = c then globLoop fuel p t star
      else if q = '*' then globLoop fuel p (c :: t) (some (p, c :: t))
      else match star with
        | some (sp, m) => globLoop fuel sp m.tail (some (sp, m.tail))
        | none => false
    | [] => match star with
      | some (sp, m) => globLoop fuel sp m.tail (some (sp, m.tail))
      | none => false

/-- `globMatches`. -/
def globMatches (pattern text : String) : Bool :=
  let n := pattern.length + text.length + 2
  globLoop (n * n) pattern.toList text.toList none

/-- `ruleMatchesFunction`: the name, the demangled name, or what stands before its parameters. -/
def ruleMatchesFunction (rule : BufferWriteRule) (callee : Callee) : Bool :=
  let names := [callee.name, callee.demangled,
    String.ofList (callee.demangled.toList.takeWhile fun c => decide (c ≠ '('))]
  if rule.functionPattern.toList.any fun c => decide (c = '*' ∨ c = '?') then
    names.any (globMatches rule.functionPattern)
  else names.any fun name => decide (rule.functionPattern = name)

/-- `findMatchingRule`: the first rule whose argument indexes exist. -/
def findMatchingRule (rules : List BufferWriteRule) (callee : Callee) (argCount : ℕ) :
    Option BufferWriteRule :=
  rules.find? fun rule => ruleMatchesFunction rule callee && match rule.kind with
    | .boundedWrite => decide (rule.destArgIndex < argCount ∧ rule.sizeArgIndex < argCount)
    | .unboundedWrite => decide (rule.destArgIndex < argCount)

/-- `ResolvedSink`, if it is valid. -/
structure ResolvedSink where
  displayName : String
  destArgIndex : ℕ
  sizeArgIndex : ℕ
  hasExplicitLength : Bool

/-- The display name of a memory intrinsic. -/
def MemIntrinsicID.displayName : MemIntrinsicID → String
  | .memcpy => "memcpy"
  | .memset => "memset"
  | .memmove => "memmove"

/-- The memory function that a callee is, by its intrinsic or by its name. -/
def memoryFunction (callee : Callee) : Option MemIntrinsicID :=
  match callee.intrinsicID with
  | some id => some id
  | none =>
    if callee.name = "memcpy" ∨ callee.name = "__memcpy_chk" then some .memcpy
    else if callee.name = "memset" ∨ callee.name = "__memset_chk" then some .memset
    else if callee.name = "memmove" ∨ callee.name = "__memmove_chk" then some .memmove
    else none

/-- `resolveBuiltInSink`. -/
def resolveBuiltInSink (CB : CallBase V) : Option ResolvedSink := do
  let callee ← CB.callee
  let id ← memoryFunction callee
  return ⟨id.displayName, 0, 2, true⟩

/-- `resolveModelSink`; without a model there are no rules. -/
def resolveModelSink (rules : List BufferWriteRule) (CB : CallBase V) : Option ResolvedSink := do
  let callee ← CB.callee
  let rule ← findMatchingRule rules callee CB.args.length
  return ⟨callee.name, rule.destArgIndex, rule.sizeArgIndex, decide (rule.kind = .boundedWrite)⟩

/-- `resolveStackDestinationAlloca`. -/
def resolveStackDestinationAlloca (values : ValueTable V) (destinationPtr : V) :
    Option (AllocaInst V) :=
  let cur := values.stripPointerCasts destinationPtr
  match values.kind cur with
  | .alloca AI => some AI
  | .gepOperator true pointerOperand =>
    match values.kind pointerOperand with
    | .alloca AI => some AI
    | _ => none
  | _ => none

/-- `getAllocaTotalSizeBytes`. -/
def getAllocaTotalSizeBytes (values : ValueTable V) (AI : AllocaInst V) : Option UInt64 :=
  if AI.isArrayAllocation then
    match values.kind AI.arraySize with
    | .constantInt count => some (count * AI.typeAllocSize)
    | _ => none
  else some AI.typeAllocSize

/-- `MemIntrinsicIssue`. -/
structure MemIntrinsicIssue (V : Type*) where
  funcName : String
  varName : String
  intrinsicName : String
  destSizeBytes : UInt64
  lengthBytes : UInt64
  inst : V
  hasExplicitLength : Bool

/-- The issue of one call: it writes to a stack buffer of known size, and its length is a larger
constant, or it has none. -/
def memIntrinsicIssue (values : ValueTable V) (rules : List BufferWriteRule) (fn : Function V)
    (CB : CallBase V) : Option (MemIntrinsicIssue V) :=
  ((resolveModelSink rules CB).or (resolveBuiltInSink CB)).bind fun sink =>
  CB.args[sink.destArgIndex]?.bind fun dest =>
  (resolveStackDestinationAlloca values dest).bind fun AI =>
  (getAllocaTotalSizeBytes values AI).bind fun destBytes =>
  let varName := if AI.name = "" then "<unnamed>" else AI.name
  if sink.hasExplicitLength then
    CB.args[sink.sizeArgIndex]?.bind fun lenV =>
    match values.kind lenV with
    | .constantInt len =>
      if len ≤ destBytes then none
      else some ⟨fn.name, varName, sink.displayName, destBytes, len, CB.value, true⟩
    | _ => none
  else some ⟨fn.name, varName, sink.displayName, destBytes, 0, CB.value, false⟩

/-- An issue names the function and the call. -/
theorem memIntrinsicIssue_place {values : ValueTable V} {rules : List BufferWriteRule}
    {fn : Function V} {CB : CallBase V} {issue : MemIntrinsicIssue V}
    (h : memIntrinsicIssue values rules fn CB = some issue) :
    issue.funcName = fn.name ∧ issue.inst = CB.value := by
  unfold memIntrinsicIssue at h
  obtain ⟨sink, -, h⟩ := Option.bind_eq_some_iff.mp h
  obtain ⟨dest, -, h⟩ := Option.bind_eq_some_iff.mp h
  obtain ⟨AI, -, h⟩ := Option.bind_eq_some_iff.mp h
  obtain ⟨destBytes, -, h⟩ := Option.bind_eq_some_iff.mp h
  dsimp only at h
  by_cases hlength : sink.hasExplicitLength = true
  · rw [if_pos hlength] at h
    obtain ⟨lenV, -, h⟩ := Option.bind_eq_some_iff.mp h
    cases hkind : values.kind lenV with
    | constantInt len =>
      simp only [hkind] at h
      by_cases hle : len ≤ destBytes
      · rw [if_pos hle] at h
        exact absurd h.symm (Option.some_ne_none _)
      · rw [if_neg hle] at h
        rw [← Option.some.inj h]
        exact ⟨rfl, rfl⟩
    | _ =>
      simp only [hkind] at h
      exact absurd h.symm (Option.some_ne_none _)
  · rw [if_neg hlength] at h
    rw [← Option.some.inj h]
    exact ⟨rfl, rfl⟩

/-- `analyzeMemIntrinsicOverflowsInFunction`. -/
def analyzeMemIntrinsicOverflows (values : ValueTable V) (rules : List BufferWriteRule)
    (fn : Function V) : List (MemIntrinsicIssue V) :=
  fn.instructions.filterMap fun I => I.asCallBase.bind (memIntrinsicIssue values rules fn)

/-- `analyzeMemIntrinsicOverflowsCached`. -/
def analyzeMemIntrinsicOverflowsCached (values : ValueTable V) (rules : List BufferWriteRule)
    (fn : Function V) (calls invokes : List (CallBase V)) : List (MemIntrinsicIssue V) :=
  calls.filterMap (memIntrinsicIssue values rules fn) ++
    invokes.filterMap (memIntrinsicIssue values rules fn)

/-! ## Command injection -/

/-- `canonicalCalleeName`: without the mark of an exact name, and without one underscore. -/
def canonicalCalleeName (name : String) : String :=
  let name := match name.toList with
    | c :: rest => if c = Char.ofNat 1 then rest else c :: rest
    | [] => []
  String.ofList <| match name with
    | c :: rest => if c = '_' then rest else c :: rest
    | [] => []

/-- The walk to a global through GEPs and constant casts, eight steps at most. -/
def walkToGlobal (values : ValueTable V) : ℕ → V → Option (Option String)
  | 0, _ => none
  | depth + 1, current =>
    match values.kind current with
    | .globalVariable initializer => initializer
    | .gepOperator _ pointerOperand =>
      walkToGlobal values depth (values.stripPointerCasts pointerOperand)
    | .castExpr operand => walkToGlobal values depth (values.stripPointerCasts operand)
    | _ => none

/-- The text of the C string that the value points to. -/
def tryExtractStringLiteral (values : ValueTable V) (value : V) : Option String :=
  (walkToGlobal values 8 (values.stripPointerCasts value)).join

/-- `isCompileTimeConstantString`. -/
def isCompileTimeConstantString (values : ValueTable V) (value : V) : Bool :=
  (tryExtractStringLiteral values value).isSome

/-- `shellCommandArgIndex`. -/
def shellCommandArgIndex (calleeName : String) : Option ℕ :=
  if calleeName = "system" ∨ calleeName = "popen" then some 0 else none

/-- `CommandInjectionIssue`. -/
structure CommandInjectionIssue (V : Type*) where
  funcName : String
  filePath : String
  sinkName : String
  inst : V

/-- The issue of one call: a shell command that is no constant string. -/
def commandInjectionIssue (values : ValueTable V) (fn : Function V) (call : CallBase V) :
    Option (CommandInjectionIssue V) :=
  call.callee.bind fun callee =>
  let canonicalName := canonicalCalleeName callee.name
  (shellCommandArgIndex canonicalName).bind fun commandArg =>
  call.args[commandArg]?.bind fun commandValue =>
  if isCompileTimeConstantString values commandValue then none
  else some ⟨fn.name, fn.filePath, canonicalName, call.value⟩

/-- `analyzeCommandInjection`, in one function. -/
def analyzeCommandInjection (values : ValueTable V) (fn : Function V) :
    List (CommandInjectionIssue V) :=
  fn.instructions.filterMap fun I => I.asCallBase.bind (commandInjectionIssue values fn)

/-- `analyzeCommandInjectionCached`. -/
def analyzeCommandInjectionCached (values : ValueTable V) (fn : Function V)
    (calls invokes : List (CallBase V)) : List (CommandInjectionIssue V) :=
  calls.filterMap (commandInjectionIssue values fn) ++
    invokes.filterMap (commandInjectionIssue values fn)

/-! ## Checks and uses of a path -/

/-- `checkPathArgIndex`. -/
def checkPathArgIndex (calleeName : String) : Option ℕ :=
  if calleeName = "access" ∨ calleeName = "stat" ∨ calleeName = "lstat" then some 0
  else if calleeName = "faccessat" ∨ calleeName = "fstatat" then some 1
  else none

/-- `usePathArgIndex`. -/
def usePathArgIndex (calleeName : String) : Option ℕ :=
  if calleeName = "open" ∨ calleeName = "fopen" then some 0
  else if calleeName = "openat" then some 1
  else none

section Slots

variable [DecidableEq V]

/-- The loop over the users of a slot: the only store to it, unless a user is unsafe. -/
def scanSlotUsers (values : ValueTable V) (slot : V) :
    List (SlotUser V) → Option (V × V) → Option (Option (V × V))
  | [], uniqueStore => some uniqueStore
  | .store inst pointerOperand valueOperand :: users, uniqueStore =>
    if values.stripPointerCasts pointerOperand ≠ slot then none
    else match uniqueStore with
      | some store =>
        if store.1 ≠ inst then none
        else scanSlotUsers values slot users (some (inst, valueOperand))
      | none => scanSlotUsers values slot users (some (inst, valueOperand))
  | .load pointerOperand :: users, uniqueStore =>
    if values.stripPointerCasts pointerOperand ≠ slot then none
    else scanSlotUsers values slot users uniqueStore
  | .debugOrLifetime :: users, uniqueStore => scanSlotUsers values slot users uniqueStore
  | .other :: _, _ => none

/-- The value that a load takes from a slot with one store. -/
def loadedFromSingleStore (values : ValueTable V) (current : V) : Option V :=
  match values.kind current with
  | .load pointerOperand =>
    let slot := values.stripPointerCasts pointerOperand
    match values.kind slot with
    | .alloca AI =>
      if AI.isStaticAlloca ∧ AI.allocatesPointer then
        match scanSlotUsers values slot (values.users slot) none with
        | some (some store) => some (values.stripPointerCasts store.2)
        | _ => none
      else none
    | _ => none
  | _ => none

/-- The loop of `peelPointerFromSingleStoreSlot`. -/
def peelSlots (values : ValueTable V) : ℕ → V → V
  | 0, current => current
  | depth + 1, current =>
    match loadedFromSingleStore values current with
    | some next => peelSlots values depth next
    | none => current

/-- `peelPointerFromSingleStoreSlot`. -/
def peelPointerFromSingleStoreSlot (values : ValueTable V) (value : V) : V :=
  peelSlots values 4 (values.stripPointerCasts value)

/-- `PathEvent`. -/
structure PathEvent (V : Type*) where
  literal : String
  api : String
  inst : V
  root : V
  order : ℕ

/-- `likelySamePath`. -/
def likelySamePath (lhs rhs : PathEvent V) : Bool :=
  decide (lhs.root = rhs.root) ||
    (decide (lhs.literal ≠ "") && decide (rhs.literal ≠ "") && decide (lhs.literal = rhs.literal))

/-- The event of one call, and whether it is a check. -/
def pathEvent (values : ValueTable V) (order : ℕ) (call : CallBase V) :
    Option (Bool × PathEvent V) :=
  call.callee.bind fun callee =>
  let canonicalName := canonicalCalleeName callee.name
  let checkArg := checkPathArgIndex canonicalName
  (checkArg.or (usePathArgIndex canonicalName)).bind fun argIndex =>
  call.args[argIndex]?.map fun arg =>
  let pathValue := peelPointerFromSingleStoreSlot values arg
  (checkArg.isSome,
    { literal := (tryExtractStringLiteral values pathValue).getD ""
      api := canonicalName
      inst := call.value
      root := values.getUnderlyingObject pathValue
      order })

/-- The events collected so far: checks, uses, and the number of instructions visited. -/
structure PathEvents (V : Type*) where
  checks : List (PathEvent V) := []
  uses : List (PathEvent V) := []
  order : ℕ := 0

/-- Visit an instruction, with its call if it is one. -/
def PathEvents.visit (values : ValueTable V) (events : PathEvents V)
    (call : Option (CallBase V)) : PathEvents V :=
  let order := events.order + 1
  match call.bind (pathEvent values order) with
  | some (true, event) => { events with checks := events.checks ++ [event], order }
  | some (false, event) => { events with uses := events.uses ++ [event], order }
  | none => { events with order }

/-- `TOCTOUIssue`. -/
structure TOCTOUIssue (V : Type*) where
  funcName : String
  filePath : String
  checkApi : String
  useApi : String
  inst : V

/-- The loops over uses and checks: the first check before a use of the same path is reported. -/
def reportUses (fn : Function V) (events : PathEvents V) : List (TOCTOUIssue V) :=
  events.uses.filterMap fun useEvent =>
    (events.checks.find? fun checkEvent =>
      !decide (checkEvent.order ≥ useEvent.order) && likelySamePath checkEvent useEvent).map
    fun checkEvent => ⟨fn.name, fn.filePath, checkEvent.api, useEvent.api, useEvent.inst⟩

/-- `analyzeTOCTOU`, in one function. -/
def analyzeTOCTOU (values : ValueTable V) (fn : Function V) : List (TOCTOUIssue V) :=
  reportUses fn
    ((fn.instructions.map Instruction.asCallBase).foldl (PathEvents.visit values) {})

/-- `analyzeTOCTOUCached`: the calls are visited first, then the invokes. -/
def analyzeTOCTOUCached (values : ValueTable V) (fn : Function V)
    (calls invokes : List (CallBase V)) : List (TOCTOUIssue V) :=
  reportUses fn
    ((invokes.map some).foldl (PathEvents.visit values)
      ((calls.map some).foldl (PathEvents.visit values) {}))

end Slots

/-! ## Diagnostics -/

/-- `ResolvedLocation`. -/
structure ResolvedLocation where
  hasLocation : Bool
  line : ℕ
  column : ℕ
  startLine : ℕ
  startColumn : ℕ
  endLine : ℕ
  endColumn : ℕ
  deriving DecidableEq

/-- `DescriptiveErrorCode`, of the diagnostics below. -/
inductive DescriptiveErrorCode
  | none | vlaUsage | commandInjection | tocTouRace | globalReadBeforeWrite
  deriving DecidableEq

/-- `Diagnostic`, all of them warnings. The confidence is given in hundredths. -/
structure Diagnostic where
  filePath : String := ""
  funcName : String
  location : ResolvedLocation
  errCode : DescriptiveErrorCode := .none
  ruleId : String := ""
  confidence : Option ℕ := none
  cweId : String := ""
  message : String
  deriving DecidableEq

/-- `location` of the builder: all positions are zero without a location. -/
def ResolvedLocation.build (loc : ResolvedLocation) : ResolvedLocation :=
  if loc.hasLocation then loc else ⟨false, 0, 0, 0, 0, 0, 0⟩

/-- `kWarnPrefix`. -/
def kWarnPrefix : String := "[ !!Warn ]"

/-- `kDiagIndentArrow`. -/
def kDiagIndentArrow : String := "\t\t ↳ "

/-- The diagnostic of `appendDynamicAllocaDiagnostics`. -/
def dynamicAllocaDiagnostic (resolve : V → Bool → ResolvedLocation)
    (issue : DynamicAllocaIssue V) : Diagnostic where
  funcName := issue.funcName
  location := (resolve issue.allocaInst false).build
  errCode := .vlaUsage
  message := "\t[ !!Warn ] dynamic stack allocation detected for variable '" ++ issue.varName ++
    "'\n" ++ "\t\t ↳ allocated type: " ++ issue.typeName ++ "\n" ++
    "\t\t ↳ size of this allocation is not compile-time constant " ++
    "(VLA / variable alloca) and may lead to unbounded stack usage\n"

/-- The diagnostic of `appendMemIntrinsicDiagnostics`. -/
def memIntrinsicDiagnostic (resolve : V → Bool → ResolvedLocation) (issue : MemIntrinsicIssue V) :
    Diagnostic where
  funcName := issue.funcName
  location := (resolve issue.inst false).build
  message := "\t" ++ kWarnPrefix ++ " potential stack buffer overflow in " ++
    issue.intrinsicName ++ " on variable '" ++ issue.varName ++ "'\n" ++
    "\t\t ↳ destination stack buffer size: " ++ toString issue.destSizeBytes ++ " bytes\n" ++
    if issue.hasExplicitLength then
      "\t\t ↳ requested " ++ toString issue.lengthBytes ++ " bytes to be copied/initialized\n"
    else "\t\t ↳ this API has no explicit size argument; " ++
      "destination fit cannot be proven statically\n"

/-- The diagnostic of `appendCommandInjectionDiagnostics`. -/
def commandInjectionDiagnostic (resolve : V → Bool → ResolvedLocation)
    (issue : CommandInjectionIssue V) : Diagnostic where
  filePath := issue.filePath
  funcName := issue.funcName
  location := (resolve issue.inst true).build
  errCode := .commandInjection
  ruleId := "CommandInjection.NonLiteralCommand"
  confidence := some 70
  cweId := "CWE-78"
  message := "\t" ++ kWarnPrefix ++
    " potential command injection: non-literal command reaches '" ++ issue.sinkName ++ "'\n" ++
    kDiagIndentArrow ++ "the command argument is not a compile-time string literal\n" ++
    kDiagIndentArrow ++ "validate/sanitize external input or avoid shell command composition\n"

/-- The diagnostic of `appendTOCTOUDiagnostics`. -/
def toctouDiagnostic (resolve : V → Bool → ResolvedLocation) (issue : TOCTOUIssue V) :
    Diagnostic where
  filePath := issue.filePath
  funcName := issue.funcName
  location := (resolve issue.inst true).build
  errCode := .tocTouRace
  ruleId := "TOCTOU.PathCheckThenUse"
  confidence := some 70
  cweId := "CWE-367"
  message := "\t" ++ kWarnPrefix ++ " potential TOCTOU race: path checked with '" ++
    issue.checkApi ++ "' then used with '" ++ issue.useApi ++ "'\n" ++
    kDiagIndentArrow ++ "the file target may change between check and use operations\n" ++
    kDiagIndentArrow ++
    "prefer descriptor-based validation (open + fstat) on the same handle\n"

end StackAnalyzer.Passes
