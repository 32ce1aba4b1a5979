import StackAnalyzer.Smt.Refinement
import StackAnalyzer.CrossTU.ResourceIndex

set_option relaxedAutoImplicit false
set_option autoImplicit false

/-!
# The configuration

The record that the command line fills and that every analysis and every report reads.

## Main definitions

* `StackAnalyzer.App.AnalysisConfig` — the configuration, with its defaults.
* `StackAnalyzer.App.AnalysisConfig.Filters` — a report filter is set.
-/

namespace StackAnalyzer.App

open Smt CrossTU

/-- `AnalysisMode`. -/
inductive AnalysisMode
  | ir | abi
  deriving DecidableEq

/-- `CompileIRFormat`. -/
inductive CompileIRFormat
  | bc | ll
  deriving DecidableEq

/-- `AnalysisConfig`, without the indices that other translation units are summarised in. -/
structure AnalysisConfig where
  stackLimit : UInt64 := 8 * 1024 * 1024
  smtBudgetNodes : UInt64 := 10000
  excludeDirs : List CppString := []
  extraCompileArgs : List CppString := []
  onlyDirs : List CppString := []
  onlyFiles : List CppString := []
  onlyFunctions : List CppString := []
  smtRules : List CppString := []
  compileIRCacheDir : CppString := []
  smtSecondaryBackend : CppString := []
  smtBackend : CppString := "interval".toList
  dumpIRPath : CppString := []
  escapeModelPath : CppString := []
  bufferModelPath : CppString := []
  resourceModelPath : CppString := []
  resourceSummaryCacheDir : CppString := ".cache/resource-lifetime".toList
  smtTimeoutMs : UInt32 := 50
  /-- Zero is the number of processors. -/
  jobs : UInt32 := 0
  smtMode : SolverMode := .single
  mode : AnalysisMode := .ir
  profile : AnalysisProfile := .full
  compileIRFormat : CompileIRFormat := .bc
  compdbFast : Bool := false
  demangle : Bool := false
  dumpFilter : Bool := false
  dumpIRIsDir : Bool := false
  includeSTL : Bool := false
  requireCompilationDatabase : Bool := false
  jobsAuto : Bool := true
  quiet : Bool := false
  smtEnabled : Bool := false
  timing : Bool := false
  uninitializedCrossTU : Bool := true
  resourceCrossTU : Bool := true
  resourceSummaryMemoryOnly : Bool := false
  warningsOnly : Bool := false
  deriving DecidableEq

/-- A report filter is set: `--only-file`, `--only-dir` or `--only-function`. -/
def AnalysisConfig.Filters (cfg : AnalysisConfig) : Prop :=
  ¬ (cfg.onlyFiles.isEmpty && cfg.onlyDirs.isEmpty && cfg.onlyFunctions.isEmpty) = true

instance decidableFilters (cfg : AnalysisConfig) : Decidable cfg.Filters :=
  inferInstanceAs (Decidable (¬ _ = true))

end StackAnalyzer.App
