import StackAnalyzer.App.Filters
import StackAnalyzer.App.SarifReport

set_option relaxedAutoImplicit false
set_option autoImplicit false

/-!
# Writing reports

The reports of a run, in JSON, in SARIF and as plain text. Each emitter decides by itself whether
the report filters are applied. The guard at the call sites is the opposite of the guard inside
`filterResult`, so this file also says what the filters have no influence on.

## Main definitions

* `StackAnalyzer.App.Environment.selectResult` — what every emitter does to a result first.
* `StackAnalyzer.App.Environment.emitJsonOutput`, `StackAnalyzer.App.Environment.emitSarifOutput`,
  `StackAnalyzer.App.Environment.emitHumanOutput` — the texts of the emitters.
* `StackAnalyzer.App.Environment.written` — the functions and diagnostics that an emitter writes.

## Main results

* `StackAnalyzer.App.selectResult_of_filters` — a filter that is set is not applied.
* `StackAnalyzer.App.decode_emitJsonOutput` — a reader of the JSON report finds what is written.
* `StackAnalyzer.App.filtersHonoured_iff` — when every emitter writes what the filters let through.
-/

namespace StackAnalyzer.App

open CrossTU Formats

namespace Environment

/-! ## The emitters -/

/-- The result that an emitter writes: `applyFilter` is true where no filter is set. -/
def selectResult (env : Environment) (cfg : AnalysisConfig) (filters : NormalizedPathFilters)
    (result : AnalysisResult) : AnalysisResult :=
  let applyFilter := cfg.onlyFiles.isEmpty && cfg.onlyDirs.isEmpty && cfg.onlyFunctions.isEmpty
  filterWarningsOnly (if applyFilter then env.filterResult cfg filters result else result) cfg

/-- The result of a run in JSON and in SARIF: that of the only input, or all of them merged. -/
def reportResult (env : Environment) (cfg : AnalysisConfig) (filters : NormalizedPathFilters)
    (results : List AnalysisEntry) : AnalysisResult :=
  match results with
  | [entry] => env.selectResult cfg filters entry.2
  | _ => env.selectResult cfg filters (mergeAnalysisResults results cfg)

/-- `emitJsonOutput`. -/
def emitJsonOutput (env : Environment) (results : List AnalysisEntry) (cfg : AnalysisConfig)
    (inputFilenames : List CppString) (filters : NormalizedPathFilters) : CppString :=
  toJson (env.reportResult cfg filters results)
    (match results with
      | [entry] => .file entry.1
      | _ => .files inputFilenames)

/-- `emitSarifOutput`. The text is also what `writeSarifToFile` puts into a file. -/
def emitSarifOutput (env : Environment) (results : List AnalysisEntry) (cfg : AnalysisConfig)
    (inputFilenames : List CppString) (sarifBaseDir : CppString)
    (canonical : CppString → Option CppString) (filters : NormalizedPathFilters) : CppString :=
  let inputFile := match results with
    | [entry] => entry.1
    | _ => inputFilenames.headD []
  toSarif ⟨inputFile, "coretrace-stack-analyzer".toList, "0.1.0".toList, sarifBaseDir, canonical⟩
    (env.reportResult cfg filters results)

/-- The result of one input in plain text. -/
def humanResult (env : Environment) (cfg : AnalysisConfig) (filters : NormalizedPathFilters)
    (result : AnalysisResult) : AnalysisResult :=
  let result := env.selectResult cfg filters result
  if cfg.warningsOnly then filterFunctionsWithDiagnostics result else result

end Environment

/-- The diagnostics that stand under a function in plain text. -/
def diagnosticsUnder (result : AnalysisResult) (f : FunctionResult) : List Diagnostic :=
  if result.config.quiet then []
  else result.diagnostics.filter fun d => decide (d.funcName = f.name)

/-- The line about a size. -/
def stackLine (label : String) (unknown : Bool) (size : UInt64) : CppString :=
  '\t' :: label.toList ++
    (if unknown then
      ": unknown".toList ++
        (if 0 < size then " (>= ".toList ++ decimal size.toNat ++ " bytes)".toList else [])
    else ": ".toList ++ decimal size.toNat ++ " bytes".toList) ++ ['\n']

/-- The lines about a diagnostic. -/
def diagnosticLines (d : Diagnostic) : CppString :=
  (if d.line ≠ 0 then
    "\tat line ".toList ++ decimal d.line.toNat ++ ", column ".toList ++ decimal d.column.toNat ++
      ['\n']
    else []) ++ d.message ++ ['\n']

/-- The line of a summary. -/
def summaryLine (label : String) (summary : DiagnosticSummary) : CppString :=
  label.toList ++ ": info=".toList ++ decimal summary.info ++ ", warning=".toList ++
    decimal summary.warning ++ ", error=".toList ++ decimal summary.error

namespace Environment

/-- The part of the plain text about a function. -/
def functionBlock (env : Environment) (cfg : AnalysisConfig) (result : AnalysisResult)
    (f : FunctionResult) : CppString :=
  "Function: ".toList ++
    (if cfg.demangle then env.demangle f.name
    else f.name ++ [' '] ++ (if env.isMangled f.name then env.demangle f.name else [])) ++
    ['\n'] ++
    stackLine "local stack" f.localStackUnknown f.localStack ++
    stackLine "max stack (including callees)" f.maxStackUnknown f.maxStack ++
    (diagnosticsUnder result f).flatMap diagnosticLines ++ ['\n']

/-- The part of the plain text about an input file, which has a number. -/
def inputBlock (env : Environment) (cfg : AnalysisConfig) (filters : NormalizedPathFilters)
    (multiFile : Bool) (r : ℕ) (entry : AnalysisEntry) : CppString :=
  let result := env.humanResult cfg filters entry.2
  (if multiFile then
    (if 0 < r then ['\n'] else []) ++ "File: ".toList ++ entry.1 ++ ['\n'] else []) ++
    "Mode: ".toList ++ modeText result.config.mode ++ ['\n', '\n'] ++
    result.functions.flatMap (env.functionBlock cfg result) ++
    summaryLine "Diagnostics summary" (summarizeDiagnostics result.diagnostics) ++ ['\n']

/-- `emitHumanOutput`. -/
def emitHumanOutput (env : Environment) (results : List AnalysisEntry) (cfg : AnalysisConfig)
    (filters : NormalizedPathFilters) : CppString :=
  let multiFile := decide (1 < results.length)
  let totalSummary := results.foldl (fun total entry => accumulateSummary total
    (summarizeDiagnostics (env.humanResult cfg filters entry.2).diagnostics)) {}
  (results.mapIdx (env.inputBlock cfg filters multiFile)).flatten ++
    if multiFile then
      '\n' :: summaryLine "Total diagnostics summary" totalSummary ++ " (across ".toList ++
        decimal results.length ++ " files)\n".toList
    else []

end Environment

/-- The emitters. -/
inductive Emitter
  | json | sarif | sarifFile | human
  deriving DecidableEq

/-- **What an emitter writes**: functions and diagnostics. There are no functions in SARIF. -/
def Environment.written (env : Environment) (results : List AnalysisEntry) (cfg : AnalysisConfig)
    (filters : NormalizedPathFilters) : Emitter → List FunctionResult × List Diagnostic
  | .json =>
    ((env.reportResult cfg filters results).functions,
      (env.reportResult cfg filters results).diagnostics)
  | .sarif | .sarifFile => ([], (env.reportResult cfg filters results).diagnostics)
  | .human =>
    (results.flatMap fun entry => (env.humanResult cfg filters entry.2).functions,
      results.flatMap fun entry => (env.humanResult cfg filters entry.2).functions.flatMap
        (diagnosticsUnder (env.humanResult cfg filters entry.2)))

/-- **A reader of the JSON report** finds the functions and the diagnostics that are written. -/
theorem decode_emitJsonOutput (env : Environment) (results : List AnalysisEntry)
    (cfg : AnalysisConfig) (inputFilenames : List CppString) (filters : NormalizedPathFilters) :
    ∃ v report inputFile,
      parseJson (env.emitJsonOutput results cfg inputFilenames filters) = some v ∧
      decodeReport v = some report ∧
      report.functions = (env.written results cfg filters .json).1.map
        (reportedFunction inputFile) ∧
      report.diagnostics = (env.written results cfg filters .json).2.map
        (reportedDiagnostic inputFile) :=
  ⟨_, _, _, parseJson_toJsonImpl _ _ _, decodeReport_reportJson _ _ _, rfl, rfl⟩

/-! ## Filters that are set -/

section Filters

variable {env : Environment} {cfg : AnalysisConfig} {filters : NormalizedPathFilters}

/-- **A filter that is set is not applied.** -/
theorem selectResult_of_filters (hfilters : cfg.Filters) (result : AnalysisResult) :
    env.selectResult cfg filters result = filterWarningsOnly result cfg := by
  unfold Environment.selectResult
  dsimp only
  rw [if_neg hfilters]

/-- Without a filter a result is not restricted either. -/
theorem selectResult_of_not_filters (hfilters : ¬ cfg.Filters) (result : AnalysisResult) :
    env.selectResult cfg filters result = filterWarningsOnly result cfg := by
  have hempty := not_not.mp hfilters
  unfold Environment.selectResult Environment.filterResult
  dsimp only
  rw [if_pos hempty, if_pos hempty]

/-- **The filters have no influence on the reports.** -/
theorem selectResult_eq (result : AnalysisResult) :
    env.selectResult cfg filters result = filterWarningsOnly result cfg := by
  by_cases hfilters : cfg.Filters
  · exact selectResult_of_filters hfilters result
  · exact selectResult_of_not_filters hfilters result

/-- The functions of the report of a run are all functions. -/
theorem functions_reportResult (results : List AnalysisEntry) :
    (env.reportResult cfg filters results).functions = results.flatMap (·.2.functions) := by
  unfold Environment.reportResult
  split <;> simp [selectResult_eq, mergeAnalysisResults_eq]

/-- The diagnostics of the report of a run are all that are reported. -/
theorem mem_diagnostics_reportResult {results : List AnalysisEntry} {d : Diagnostic} :
    d ∈ (env.reportResult cfg filters results).diagnostics ↔
      d ∈ results.flatMap (·.2.diagnostics) ∧ cfg.Reports d := by
  unfold Environment.reportResult
  split <;>
    simp [selectResult_eq, mem_diagnostics_filterWarningsOnly, mergeAnalysisResults_eq]

/-- The functions of an input in plain text. -/
theorem mem_functions_humanResult {result : AnalysisResult} {f : FunctionResult} :
    f ∈ (env.humanResult cfg filters result).functions ↔ f ∈ result.functions ∧
      (cfg.warningsOnly = true → f.name ≠ [] ∧
        ∃ d ∈ result.diagnostics, cfg.Reports d ∧ d.funcName = f.name) := by
  unfold Environment.humanResult
  dsimp only
  rw [selectResult_eq]
  split_ifs with hwarnings
  · rw [mem_functions_filterFunctionsWithDiagnostics]
    simp [hwarnings, mem_diagnostics_filterWarningsOnly, and_assoc]
  · simp [hwarnings]

/-- Plain text is within the filters exactly if the functions in it are. -/
theorem written_human_within_iff (results : List AnalysisEntry) :
    env.Within cfg filters (results.flatMap (·.2.functions))
        (env.written results cfg filters .human).1 (env.written results cfg filters .human).2 ↔
      ∀ entry ∈ results, ∀ f ∈ (env.humanResult cfg filters entry.2).functions,
        env.isSatisfiedBy cfg filters f = true := by
  unfold Environment.Within Environment.written
  dsimp only
  constructor
  · rintro ⟨hfunctions, -⟩ entry hentry f hf
    exact hfunctions f (List.mem_flatMap.mpr ⟨entry, hentry, hf⟩)
  · intro h
    refine ⟨?_, ?_⟩
    · intro f hf
      obtain ⟨entry, hentry, hf⟩ := List.mem_flatMap.mp hf
      exact h entry hentry f hf
    · intro d hd
      obtain ⟨entry, hentry, hd⟩ := List.mem_flatMap.mp hd
      obtain ⟨f, hf, hd⟩ := List.mem_flatMap.mp hd
      refine ⟨f, List.mem_flatMap.mpr ⟨entry, hentry, (mem_functions_humanResult.mp hf).1⟩,
        h entry hentry f hf, ?_⟩
      unfold diagnosticsUnder at hd
      split_ifs at hd
      · exact absurd hd List.not_mem_nil
      · exact (of_decide_eq_true (List.mem_filter.mp hd).2).symm

/-- **The filters are honoured**: if one is set, then every function that an emitter writes
satisfies the function report specification, and every diagnostic belongs to a function that
does. -/
def FiltersHonoured (env : Environment) (cfg : AnalysisConfig) (results : List AnalysisEntry) :
    Prop :=
  cfg.Filters → ∀ emitter,
    env.Within cfg (env.buildNormalizedPathFilters cfg) (results.flatMap (·.2.functions))
      (env.written results cfg (env.buildNormalizedPathFilters cfg) emitter).1
      (env.written results cfg (env.buildNormalizedPathFilters cfg) emitter).2

/-- **When every emitter writes what the filters let through**: exactly if the filters let through
every function of the results, and every diagnostic that is reported.

**Proof sketch.** The JSON report has all functions and all diagnostics that are reported, so there
the condition is necessary. What is in the other reports is also in the JSON report, or stands
under a function in it. -/
theorem filtersHonoured_iff (env : Environment) (cfg : AnalysisConfig)
    (results : List AnalysisEntry) :
    FiltersHonoured env cfg results ↔ (cfg.Filters →
      (∀ entry ∈ results, ∀ f ∈ entry.2.functions,
        env.isSatisfiedBy cfg (env.buildNormalizedPathFilters cfg) f = true) ∧
      ∀ entry ∈ results, ∀ d ∈ entry.2.diagnostics, cfg.Reports d →
        ∃ other ∈ results, ∃ f ∈ other.2.functions, f.name = d.funcName) := by
  refine imp_congr_right fun hfilters => ?_
  constructor
  · intro h
    obtain ⟨hfunctions, hdiagnostics⟩ := h .json
    unfold Environment.written at hfunctions hdiagnostics
    refine ⟨?_, ?_⟩
    · intro entry hentry f hf
      apply hfunctions
      rw [functions_reportResult]
      exact List.mem_flatMap.mpr ⟨entry, hentry, hf⟩
    · intro entry hentry d hd hreports
      obtain ⟨f, hf, -, hname⟩ := hdiagnostics d
        (mem_diagnostics_reportResult.mpr ⟨List.mem_flatMap.mpr ⟨entry, hentry, hd⟩, hreports⟩)
      obtain ⟨other, hother, hf⟩ := List.mem_flatMap.mp hf
      exact ⟨other, hother, f, hf, hname⟩
  · rintro ⟨hfunctions, hdiagnostics⟩ emitter
    have hreport : ∀ d ∈ (env.reportResult cfg (env.buildNormalizedPathFilters cfg)
        results).diagnostics, ∃ f ∈ results.flatMap (·.2.functions),
          env.isSatisfiedBy cfg (env.buildNormalizedPathFilters cfg) f = true ∧
            f.name = d.funcName := by
      intro d hd
      obtain ⟨hd, hreports⟩ := mem_diagnostics_reportResult.mp hd
      obtain ⟨entry, hentry, hd⟩ := List.mem_flatMap.mp hd
      obtain ⟨other, hother, f, hf, hname⟩ := hdiagnostics entry hentry d hd hreports
      exact ⟨f, List.mem_flatMap.mpr ⟨other, hother, hf⟩, hfunctions other hother f hf, hname⟩
    cases emitter with
    | json =>
      refine ⟨?_, hreport⟩
      intro f hf
      unfold Environment.written at hf
      rw [functions_reportResult] at hf
      obtain ⟨entry, hentry, hf⟩ := List.mem_flatMap.mp hf
      exact hfunctions entry hentry f hf
    | sarif | sarifFile =>
      refine ⟨?_, hreport⟩
      intro f hf
      exact absurd hf List.not_mem_nil
    | human =>
      refine (written_human_within_iff results).mpr ?_
      intro entry hentry f hf
      exact hfunctions entry hentry f (mem_functions_humanResult.mp hf).1

end Filters

/-- Names that are not mangled, and paths in normal form. -/
def plainEnvironment : Environment := ⟨fun _ => none, id⟩

/-- The option `--only-function=main`. -/
def onlyMain : AnalysisConfig := { onlyFunctions := ["main".toList] }

/-- A run on one file with a function `helper`, which is written although only `main` is asked
for. -/
theorem not_filtersHonoured_onlyMain :
    ¬ FiltersHonoured plainEnvironment onlyMain
      [("a.c".toList, ⟨onlyMain, [{ name := "helper".toList }], []⟩)] := by
  intro h
  obtain ⟨hfunctions, -⟩ := h (by decide) .json
  exact absurd (hfunctions { name := "helper".toList } (by decide)) (by decide)

end StackAnalyzer.App
