import StackAnalyzer.App.Config

set_option relaxedAutoImplicit false
set_option autoImplicit false

/-!
# Analysis results

What an analysis of a module hands to the reports: one record for each function, and the
diagnostics.

## Main definitions

* `StackAnalyzer.App.FunctionResult`, `StackAnalyzer.App.Diagnostic` — the records.
* `StackAnalyzer.App.AnalysisResult` — the result of a module.
* `StackAnalyzer.App.summarizeDiagnostics` — how many diagnostics there are of each severity.
* `StackAnalyzer.App.mergeAnalysisResults` — the results of several inputs as one.

## Main results

* `StackAnalyzer.App.total_summarizeDiagnostics` — every diagnostic is counted once.
* `StackAnalyzer.App.summarizeDiagnostics_append` — summaries add up, as the totals of a report do.
-/

namespace StackAnalyzer.App

open CrossTU

/-- `FunctionResult`. -/
structure FunctionResult where
  filePath : CppString := []
  name : CppString
  localStack : UInt64 := 0
  maxStack : UInt64 := 0
  localStackUnknown : Bool := false
  maxStackUnknown : Bool := false
  hasDynamicAlloca : Bool := false
  isRecursive : Bool := false
  hasInfiniteSelfRecursion : Bool := false
  exceedsLimit : Bool := false
  deriving DecidableEq

/-- `DiagnosticSeverity`. -/
inductive DiagnosticSeverity
  | info | warning | error
  deriving DecidableEq

/-- `DescriptiveErrorCode`. -/
inductive DescriptiveErrorCode
  | none | stackBufferOverflow | negativeStackIndex | vlaUsage | stackPointerEscape
  | memcpyWithStackDest | multipleStoresToStackBuffer | allocaUserControlled | allocaTooLarge
  | allocaUsageWarning | invalidBaseReconstruction | constParameterNotModified
  | sizeMinusOneWrite | duplicateIfCondition | uninitializedLocalRead | stackFrameTooLarge
  | resourceLifetimeIssue | nullPointerDereference | commandInjection | tocTouRace
  | integerOverflow | typeConfusion | outOfBoundsRead | globalReadBeforeWrite
  deriving DecidableEq

/-- The names of the severities. -/
def DiagnosticSeverity.enumToString : DiagnosticSeverity → CppString
  | .info => "INFO".toList
  | .warning => "WARNING".toList
  | .error => "ERROR".toList

/-- The names of the error codes. -/
def DescriptiveErrorCode.enumToString : DescriptiveErrorCode → CppString
  | .none => "None".toList
  | .stackBufferOverflow => "StackBufferOverflow".toList
  | .negativeStackIndex => "NegativeStackIndex".toList
  | .vlaUsage => "VLAUsage".toList
  | .stackPointerEscape => "StackPointerEscape".toList
  | .memcpyWithStackDest => "MemcpyWithStackDest".toList
  | .multipleStoresToStackBuffer => "MultipleStoresToStackBuffer".toList
  | .allocaUserControlled => "AllocaUserControlled".toList
  | .allocaTooLarge => "AllocaTooLarge".toList
  | .allocaUsageWarning => "AllocaUsageWarning".toList
  | .invalidBaseReconstruction => "InvalidBaseReconstruction".toList
  | .constParameterNotModified => "ConstParameterNotModified".toList
  | .sizeMinusOneWrite => "SizeMinusOneWrite".toList
  | .duplicateIfCondition => "DuplicateIfCondition".toList
  | .uninitializedLocalRead => "UninitializedLocalRead".toList
  | .stackFrameTooLarge => "StackFrameTooLarge".toList
  | .resourceLifetimeIssue => "ResourceLifetimeIssue".toList
  | .nullPointerDereference => "NullPointerDereference".toList
  | .commandInjection => "CommandInjection".toList
  | .tocTouRace => "TOCTOURace".toList
  | .integerOverflow => "IntegerOverflow".toList
  | .typeConfusion => "TypeConfusion".toList
  | .outOfBoundsRead => "OutOfBoundsRead".toList
  | .globalReadBeforeWrite => "GlobalReadBeforeWrite".toList

/-- A finite `double`: its sign, and its absolute value. Zero has both signs. -/
structure FiniteDouble where
  negative : Bool
  magnitude : ℚ≥0
  deriving DecidableEq

/-- The comparison `0.0 <= x`. -/
def FiniteDouble.isNonnegative (x : FiniteDouble) : Bool :=
  !x.negative || decide (x.magnitude = 0)

/-- `Diagnostic`. The confidence is finite; the fields `startLine` and `startColumn` of the source
are set by the analyses and read by no report. -/
structure Diagnostic where
  filePath : CppString := []
  funcName : CppString := []
  line : UInt32 := 0
  column : UInt32 := 0
  endLine : UInt32 := 0
  endColumn : UInt32 := 0
  severity : DiagnosticSeverity := .warning
  errCode : DescriptiveErrorCode := .none
  ruleId : CppString := []
  confidence : FiniteDouble := ⟨true, 1⟩
  cweId : CppString := []
  variableAliasingVec : List CppString := []
  message : CppString := []
  deriving DecidableEq

/-- `AnalysisResult`. -/
structure AnalysisResult where
  config : AnalysisConfig
  functions : List FunctionResult
  diagnostics : List Diagnostic
  deriving DecidableEq

/-- An input file with the result of its analysis. -/
abbrev AnalysisEntry := CppString × AnalysisResult

/-! ## Summaries -/

/-- `DiagnosticSummary`. -/
structure DiagnosticSummary where
  info : ℕ := 0
  warning : ℕ := 0
  error : ℕ := 0
  deriving DecidableEq

/-- One round of the loop of `summarizeDiagnostics`. -/
def DiagnosticSummary.count (summary : DiagnosticSummary) (d : Diagnostic) : DiagnosticSummary :=
  match d.severity with
  | .info => { summary with info := summary.info + 1 }
  | .warning => { summary with warning := summary.warning + 1 }
  | .error => { summary with error := summary.error + 1 }

/-- `summarizeDiagnostics`. -/
def summarizeDiagnostics (diagnostics : List Diagnostic) : DiagnosticSummary :=
  diagnostics.foldl DiagnosticSummary.count {}

/-- `accumulateSummary`. -/
def accumulateSummary (total add : DiagnosticSummary) : DiagnosticSummary where
  info := total.info + add.info
  warning := total.warning + add.warning
  error := total.error + add.error

/-- The number of diagnostics that a summary counts. -/
def DiagnosticSummary.total (summary : DiagnosticSummary) : ℕ :=
  summary.info + summary.warning + summary.error

/-- Counting goes on from what is already counted. -/
theorem foldl_count (diagnostics : List Diagnostic) (summary : DiagnosticSummary) :
    diagnostics.foldl DiagnosticSummary.count summary =
      accumulateSummary summary (summarizeDiagnostics diagnostics) := by
  unfold summarizeDiagnostics
  induction diagnostics generalizing summary with
  | nil => simp [accumulateSummary]
  | cons d ds ih =>
    rw [List.foldl_cons, List.foldl_cons, ih, ih (DiagnosticSummary.count {} d)]
    cases hd : d.severity <;>
      simp [DiagnosticSummary.count, accumulateSummary, hd] <;> omega

/-- **Summaries add up.** -/
theorem summarizeDiagnostics_append (ds es : List Diagnostic) :
    summarizeDiagnostics (ds ++ es) =
      accumulateSummary (summarizeDiagnostics ds) (summarizeDiagnostics es) := by
  rw [← foldl_count, summarizeDiagnostics, summarizeDiagnostics, List.foldl_append]

/-- **Every diagnostic is counted once.** -/
theorem total_summarizeDiagnostics (diagnostics : List Diagnostic) :
    (summarizeDiagnostics diagnostics).total = diagnostics.length := by
  induction diagnostics with
  | nil => rfl
  | cons d ds ih =>
    have hcons : summarizeDiagnostics (d :: ds) =
        accumulateSummary (summarizeDiagnostics [d]) (summarizeDiagnostics ds) :=
      summarizeDiagnostics_append [d] ds
    rw [hcons, List.length_cons, ← ih]
    cases hd : d.severity <;>
      simp [summarizeDiagnostics, DiagnosticSummary.count, accumulateSummary,
        DiagnosticSummary.total, hd] <;> omega

/-! ## Merging -/

/-- `mergeAnalysisResults`. -/
def mergeAnalysisResults (results : List AnalysisEntry) (cfg : AnalysisConfig) : AnalysisResult :=
  results.foldl
    (fun merged entry =>
      { merged with
        functions := merged.functions ++ entry.2.functions
        diagnostics := merged.diagnostics ++ entry.2.diagnostics })
    ⟨cfg, [], []⟩

/-- Merging keeps all functions and diagnostics, in order. -/
theorem mergeAnalysisResults_eq (results : List AnalysisEntry) (cfg : AnalysisConfig) :
    mergeAnalysisResults results cfg =
      ⟨cfg, results.flatMap (·.2.functions), results.flatMap (·.2.diagnostics)⟩ := by
  have hrun : ∀ start : AnalysisResult,
      results.foldl
        (fun merged entry =>
          { merged with
            functions := merged.functions ++ entry.2.functions
            diagnostics := merged.diagnostics ++ entry.2.diagnostics }) start =
        { start with
          functions := start.functions ++ results.flatMap (·.2.functions)
          diagnostics := start.diagnostics ++ results.flatMap (·.2.diagnostics) } := by
    induction results with
    | nil => simp
    | cons entry rest ih =>
      intro start
      rw [List.foldl_cons, ih]
      simp [List.append_assoc]
  unfold mergeAnalysisResults
  rw [hrun]
  simp

end StackAnalyzer.App
