import StackAnalyzer.App.Results
import StackAnalyzer.Bounds.StackBuffers
import StackAnalyzer.Resource.ClassSummaries

set_option relaxedAutoImplicit false
set_option autoImplicit false

/-!
# Diagnostics of the steps

What two steps of the pipeline append to the diagnostics: one diagnostic for each issue, in order.

## Main definitions

* `StackAnalyzer.Pipeline.resolveFromInstruction` — the place of an instruction.
* `StackAnalyzer.Pipeline.stackBufferDiagnostic` — the diagnostic of an access outside of a buffer.
* `StackAnalyzer.Pipeline.resourceLifetimeDiagnostic` — the diagnostic of a resource issue.
-/

namespace StackAnalyzer.Pipeline

open App CrossTU

variable {A V : Type*}

/-! ## Locations -/

/-- A debug location. -/
structure DebugLoc where
  line : UInt32
  column : UInt32

/-- `ResolvedLocation`, as far as a diagnostic keeps it. -/
structure ResolvedLocation where
  hasLocation : Bool := false
  line : UInt32 := 0
  column : UInt32 := 0
  endLine : UInt32 := 0
  endColumn : UInt32 := 0

/-- `resolveFromInstruction`, with the debug location of the instruction if there is one. -/
def resolveFromInstruction (debugLoc : Option DebugLoc) (includeRange : Bool) : ResolvedLocation :=
  match debugLoc with
  | none => {}
  | some loc =>
    if loc.line = 0 then {}
    else
      let column := if loc.column ≠ 0 then loc.column else 1
      { hasLocation := true
        line := loc.line
        column := column
        endLine := loc.line
        endColumn := if includeRange && decide (loc.column ≠ 0) then loc.column + 1 else column }

/-- `location` of the builder: all positions are zero without a location. -/
def located (loc : ResolvedLocation) (diag : Diagnostic) : Diagnostic :=
  if loc.hasLocation then
    { diag with
      line := loc.line
      column := loc.column
      endLine := loc.endLine
      endColumn := loc.endColumn }
  else { diag with line := 0, column := 0, endLine := 0, endColumn := 0 }

/-- The beginning of a line that explains a diagnostic, `kDiagIndentArrow`. -/
def kDiagIndentArrow : CppString := "\t\t ↳ ".toList

/-- `prefixForSeverity`. -/
def prefixForSeverity : DiagnosticSeverity → CppString
  | .info => "[ !Info! ]".toList
  | .warning => "[ !!Warn ]".toList
  | .error => "[!!!Error]".toList

/-- A number that may be negative, in decimal digits. -/
def signedDecimal (x : ℤ) : CppString :=
  if x < 0 then '-' :: decimal x.natAbs else decimal x.natAbs

/-! ## Accesses outside of buffers -/

section StackBuffers

open Bounds

/-- The names on the way to a buffer, if there are any. -/
def aliasPathLine (issue : StackBufferOverflowIssue V) : CppString :=
  if issue.aliasPath = [] then []
  else kDiagIndentArrow ++ "alias path: ".toList ++ issue.aliasPath ++ "\n".toList

/-- The message about an index that may be negative. -/
def lowerBoundMessage (issue : StackBufferOverflowIssue V) : CppString :=
  "  [!!] potential negative index on variable '".toList ++ issue.varName ++ "' (size ".toList ++
    decimal issue.arraySize ++ ")\n".toList ++ aliasPathLine issue ++ kDiagIndentArrow ++
    "inferred lower bound for index expression: ".toList ++ signedDecimal issue.lowerBound ++
    " (index may be < 0)\n".toList

/-- The message about an index that may be too large. -/
def upperBoundMessage (issue : StackBufferOverflowIssue V) : CppString :=
  "\t[ !!Warn ] potential ".toList ++
    (match issue.storageClass with
      | .global => "buffer overflow on global variable '".toList
      | .stack => "stack buffer overflow on variable '".toList) ++
    issue.varName ++ "' (size ".toList ++ decimal issue.arraySize ++ ")\n".toList ++
    aliasPathLine issue ++ kDiagIndentArrow ++
    if issue.indexIsConstant then
      "constant index ".toList ++ decimal issue.indexOrUpperBound ++
        " is out of bounds (0..".toList ++ decimal (issue.arraySize - 1) ++ ")\n".toList
    else
      "index variable may go up to ".toList ++ decimal issue.indexOrUpperBound ++
        " (array last valid index: ".toList ++ decimal (issue.arraySize - 1) ++ ")\n".toList

/-- The diagnostic of an issue in `appendStackBufferDiagnostics`. `isUnreachable` is
`isStaticallyUnreachableStackAccess`. -/
def stackBufferDiagnostic (debugLoc : V → Option DebugLoc) (isUnreachable : V → Bool)
    (issue : StackBufferOverflowIssue V) : Diagnostic :=
  located (resolveFromInstruction (debugLoc issue.inst) true)
    { funcName := issue.funcName
      severity := .warning
      errCode := if issue.isLowerBoundViolation then .negativeStackIndex else .stackBufferOverflow
      variableAliasingVec := issue.aliasPathVec
      message :=
        (if issue.isLowerBoundViolation then lowerBoundMessage issue
            else upperBoundMessage issue) ++
          kDiagIndentArrow ++ (if issue.isWrite then "(this is a write access)\n".toList
            else "(this is a read access)\n".toList) ++
          if isUnreachable issue.inst then
            kDiagIndentArrow ++ "[info] this access appears unreachable at runtime ".toList ++
              "(condition is always false for this branch)\n".toList
          else [] }

/-- `appendStackBufferDiagnostics`, what is appended. -/
def stackBufferDiagnostics (debugLoc : V → Option DebugLoc) (isUnreachable : V → Bool)
    (issues : List (StackBufferOverflowIssue V)) : List Diagnostic :=
  issues.map (stackBufferDiagnostic debugLoc isUnreachable)

end StackBuffers

/-! ## Resources -/

section Resources

open Resource

/-- The `double` that is closest to 0.80. -/
def resourceConfidence : FiniteDouble := ⟨false, 3602879701896397 / 4503599627370496⟩

/-- The severity, the rule, the weakness and the lines of a diagnostic about a resource. -/
structure ResourceText where
  severity : DiagnosticSeverity
  ruleId : CppString
  cweId : CppString := []
  headline : CppString
  details : List CppString

/-- The texts for an issue of a function. -/
def resourceText {I : Type*} (issue : ResourceLifetimeIssue A I) : ResourceText :=
  match issue.kind with
  | .missingRelease =>
    { severity := .warning
      ruleId := "ResourceLifetime.MissingRelease".toList
      cweId := "CWE-772".toList
      headline := " potential resource leak: '".toList ++ issue.resourceKind ++
        "' acquired in handle '".toList ++ issue.handleName ++
        "' is not released in this function\n".toList
      details := ["no matching release call was found for the tracked handle\n".toList] }
  | .doubleRelease =>
    { severity := .error
      ruleId := "ResourceLifetime.DoubleRelease".toList
      cweId := "CWE-415".toList
      headline := " potential double release: '".toList ++ issue.resourceKind ++
        "' handle '".toList ++ issue.handleName ++
        "' is released without a matching acquire in this function\n".toList
      details := ["this may indicate release-after-release or ownership mismatch\n".toList] }
  | .incompleteInterproc =>
    { severity := .warning
      ruleId := "ResourceLifetime.IncompleteInterproc".toList
      headline := " inter-procedural resource analysis incomplete: handle '".toList ++
        issue.handleName ++
        "' may be acquired by an unmodeled/external callee before release\n".toList
      details :=
        ["no matching resource model rule or cross-TU summary was found for at ".toList ++
            "least one related call\n".toList,
          "include callee definitions in inputs or extend --resource-model to ".toList ++
            "improve precision\n".toList] }
  | .useAfterRelease =>
    { severity := .error
      ruleId := "ResourceLifetime.UseAfterRelease".toList
      cweId := "CWE-416".toList
      headline := " potential use-after-release: '".toList ++ issue.resourceKind ++
        "' handle '".toList ++ issue.handleName ++
        "' is used after a release in this function\n".toList
      details := ["a later dereference/call argument use may access invalid memory\n".toList] }
  | .releasedHandleEscapes =>
    { severity := .warning
      ruleId := "ResourceLifetime.ReleasedHandleEscapes".toList
      cweId := "CWE-416".toList
      headline := " released handle derived from '".toList ++ issue.handleName ++
        "' may escape through a returned owner object\n".toList
      details := ["caller-visible object may contain dangling pointer state\n".toList] }

/-- The texts for an issue of a class. -/
def destructorText {I : Type*} (issue : MissingDestructorRelease I) : ResourceText where
  severity := .warning
  ruleId := "ResourceLifetime.MissingDestructorRelease".toList
  cweId := "CWE-772".toList
  headline := " resource acquired in constructor may leak: class '".toList ++ issue.className ++
    "' does not release '".toList ++ issue.resourceKind ++ "' field '".toList ++ issue.handleName ++
    "' in destructor\n".toList
  details := ["tracked constructor acquisitions for this field have no matching ".toList ++
    "destructor release\n".toList]

/-- The diagnostic with some texts at an instruction. -/
def ResourceText.diagnostic (text : ResourceText) (funcName : CppString)
    (debugLoc : Option DebugLoc) : Diagnostic :=
  located (resolveFromInstruction debugLoc false)
    { funcName := funcName
      severity := text.severity
      errCode := .resourceLifetimeIssue
      ruleId := text.ruleId
      confidence := resourceConfidence
      cweId := text.cweId
      message := "\t".toList ++ prefixForSeverity text.severity ++ text.headline ++
        text.details.flatMap (kDiagIndentArrow ++ ·) }

/-- The diagnostic of an issue in `appendResourceLifetimeDiagnostics`. -/
def resourceLifetimeDiagnostic (debugLoc : V → Option DebugLoc) :
    LifetimeIssue A V → Diagnostic
  | .inFunction issue => (resourceText issue).diagnostic issue.funcName (issue.inst.bind debugLoc)
  | .missingDestructorRelease issue =>
    (destructorText issue).diagnostic issue.funcName (debugLoc issue.inst)

/-- `appendResourceLifetimeDiagnostics`, what is appended. -/
def resourceLifetimeDiagnostics (debugLoc : V → Option DebugLoc)
    (issues : List (LifetimeIssue A V)) : List Diagnostic :=
  issues.map (resourceLifetimeDiagnostic debugLoc)

end Resources

end StackAnalyzer.Pipeline
