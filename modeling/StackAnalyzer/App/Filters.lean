import StackAnalyzer.App.Results

set_option relaxedAutoImplicit false
set_option autoImplicit false

/-!
# Report filters

The options `--only-file`, `--only-dir` and `--only-function` restrict a report to some functions
and their diagnostics, `--warnings-only` restricts it to what is not a mere information. The
demangler and the normal form of a path come from outside: they are fields of `Environment`.

## Main definitions

* `StackAnalyzer.App.Environment.functionNameMatches`,
  `StackAnalyzer.App.Environment.shouldIncludePath` — the two tests of a function.
* `StackAnalyzer.App.Environment.isSatisfiedBy` — the function report specification.
* `StackAnalyzer.App.Environment.filterResult` — the result restricted to these functions.
* `StackAnalyzer.App.filterWarningsOnly`, `StackAnalyzer.App.filterFunctionsWithDiagnostics` — the
  restrictions of `--warnings-only`.
* `StackAnalyzer.App.Environment.Within` — functions and diagnostics that a filter lets through.

## Main results

* `StackAnalyzer.App.within_filterResult` — a filtered result is within the filter.
* `StackAnalyzer.App.filterResult_eq_self_iff` — what filtering leaves as it is.
-/

namespace StackAnalyzer.App

open CrossTU

/-- What the tests of names and paths call: `__cxa_demangle`, which gives no text for what is no
mangled name, and `normalizePath`. -/
structure Environment where
  cxaDemangle : CppString → Option CppString
  normalizePath : CppString → CppString

/-- `NormalizedPathFilters`, without the excluded directories, which no report reads. -/
structure NormalizedPathFilters where
  onlyFiles : List CppString
  onlyDirs : List CppString
  deriving DecidableEq

/-! ## Names -/

/-- What stands before the first opening parenthesis, if that is something. -/
def beforeParameters (demangledName : CppString) : CppString :=
  if '(' ∈ demangledName then demangledName.takeWhile (· ≠ '(') else []

/-- The length prefix of a mangled name, as a `size_t`. -/
def lengthPrefix (digits : CppString) : ℕ :=
  digits.foldl (fun len c => (len * 10 + (c.toNat - '0'.toNat)) % 2 ^ 64) 0

/-- `itaniumBaseName`: the first name in a mangled name, empty where there is none. -/
def itaniumBaseName (symbol : CppString) : CppString :=
  if !(['_', 'Z'].isPrefixOf symbol) then []
  else
    let rest := symbol.drop 2
    let rest := if rest.head? = some 'L' then rest.drop 1 else rest
    let digits := rest.takeWhile Char.isDigit
    let i := symbol.length - rest.length + digits.length
    let len := lengthPrefix digits
    if digits.isEmpty || decide (len = 0) || decide (symbol.length < (i + len) % 2 ^ 64) then []
    else (symbol.drop i).take len

namespace Environment

/-- `ctrace_tools::isMangled`. -/
def isMangled (env : Environment) (name : CppString) : Bool :=
  ['_', 'Z'].isPrefixOf name && (env.cxaDemangle name).isSome

/-- `ctrace_tools::demangle`. -/
def demangle (env : Environment) (name : CppString) : CppString :=
  (env.cxaDemangle name).getD name

/-- One filter of `functionNameMatches`. -/
def nameMatchesFilter (env : Environment) (name demangledName filter : CppString) : Bool :=
  let demangledBase := beforeParameters demangledName
  let itaniumBase := itaniumBaseName name
  decide (name = filter) ||
    (!demangledName.isEmpty && decide (demangledName = filter)) ||
    (!demangledBase.isEmpty && decide (demangledBase = filter)) ||
    (!itaniumBase.isEmpty && decide (itaniumBase = filter)) ||
    (env.isMangled filter &&
      ((!demangledName.isEmpty && decide (demangledName = env.demangle filter)) ||
        (!(beforeParameters (env.demangle filter)).isEmpty &&
          decide (demangledBase = beforeParameters (env.demangle filter)))))

/-- `functionNameMatches`. -/
def functionNameMatches (env : Environment) (cfg : AnalysisConfig) (name : CppString) : Bool :=
  if cfg.onlyFunctions.isEmpty then true
  else
    let demangledName :=
      if env.isMangled name || ['_', 'Z'].isPrefixOf name then env.demangle name else []
    cfg.onlyFunctions.any (env.nameMatchesFilter name demangledName)

end Environment

/-! ## Paths -/

/-- `basenameOf`. -/
def basenameOf (path : CppString) : CppString :=
  (path.reverse.takeWhile (· ≠ '/')).reverse

/-- `pathHasSuffix`: the suffix ends the path, from a component on. -/
def pathHasSuffix (path suffix : CppString) : Bool :=
  if suffix.isEmpty then false
  else if path.length < suffix.length then false
  else if path.drop (path.length - suffix.length) ≠ suffix then false
  else if path.length = suffix.length then true
  else decide (path[path.length - suffix.length - 1]? = some '/')

/-- `pathHasPrefix`: the prefix begins the path, up to a component. -/
def pathHasPrefix (path pre : CppString) : Bool :=
  if pre.isEmpty then false
  else if path.length < pre.length then false
  else if path.take pre.length ≠ pre then false
  else if path.length = pre.length then true
  else decide (path[pre.length]? = some '/')

namespace Environment

/-- `buildNormalizedPathFilters`. -/
def buildNormalizedPathFilters (env : Environment) (cfg : AnalysisConfig) :
    NormalizedPathFilters where
  onlyFiles := cfg.onlyFiles.map env.normalizePath
  onlyDirs := cfg.onlyDirs.map env.normalizePath

/-- `shouldIncludePath`. -/
def shouldIncludePath (env : Environment) (cfg : AnalysisConfig) (filters : NormalizedPathFilters)
    (path : CppString) : Bool :=
  if cfg.onlyFiles.isEmpty && cfg.onlyDirs.isEmpty then true
  else if path.isEmpty then false
  else
    let normPath := env.normalizePath path
    (filters.onlyFiles.any fun normFile =>
      decide (normPath = normFile) || pathHasSuffix normPath normFile ||
        (!(basenameOf normFile).isEmpty && decide (basenameOf normPath = basenameOf normFile))) ||
    (filters.onlyDirs.any fun normDir =>
      pathHasPrefix normPath normDir || pathHasSuffix normPath normDir ||
        decide ('/' :: normDir ++ ['/'] <:+: normPath))

/-- `FunctionReportSpecification::isSatisfiedBy`. -/
def isSatisfiedBy (env : Environment) (cfg : AnalysisConfig) (filters : NormalizedPathFilters)
    (function : FunctionResult) : Bool :=
  let keep := env.functionNameMatches cfg function.name
  if keep && (!cfg.onlyFiles.isEmpty || !cfg.onlyDirs.isEmpty) then
    env.shouldIncludePath cfg filters function.filePath
  else keep

/-! ## Filtering -/

/-- `filterResult`. -/
def filterResult (env : Environment) (cfg : AnalysisConfig) (filters : NormalizedPathFilters)
    (result : AnalysisResult) : AnalysisResult :=
  if cfg.onlyFiles.isEmpty && cfg.onlyDirs.isEmpty && cfg.onlyFunctions.isEmpty then result
  else
    let kept := result.functions.filter (env.isSatisfiedBy cfg filters)
    let keepFuncs := kept.map FunctionResult.name
    { config := result.config
      functions := kept
      diagnostics :=
        if keepFuncs.isEmpty then []
        else result.diagnostics.filter fun d => decide (d.funcName ∈ keepFuncs) }

end Environment

/-- `filterWarningsOnly`. -/
def filterWarningsOnly (result : AnalysisResult) (cfg : AnalysisConfig) : AnalysisResult :=
  if !cfg.warningsOnly then result
  else
    { result with
      diagnostics := result.diagnostics.filter fun d => decide (d.severity ≠ .info) }

/-- `filterFunctionsWithDiagnostics`. -/
def filterFunctionsWithDiagnostics (result : AnalysisResult) : AnalysisResult :=
  let warnedFunctions :=
    (result.diagnostics.filter fun d => !d.funcName.isEmpty).map Diagnostic.funcName
  { result with
    functions :=
      if warnedFunctions.isEmpty then []
      else result.functions.filter fun f => decide (f.name ∈ warnedFunctions) }

/-- A diagnostic that `--warnings-only` does not drop. -/
def AnalysisConfig.Reports (cfg : AnalysisConfig) (d : Diagnostic) : Prop :=
  cfg.warningsOnly = true → d.severity ≠ .info

/-- The diagnostics of a result without the dropped ones. -/
theorem mem_diagnostics_filterWarningsOnly {result : AnalysisResult} {cfg : AnalysisConfig}
    {d : Diagnostic} :
    d ∈ (filterWarningsOnly result cfg).diagnostics ↔ d ∈ result.diagnostics ∧ cfg.Reports d := by
  unfold filterWarningsOnly AnalysisConfig.Reports
  cases cfg.warningsOnly <;> simp

/-- The functions stay. -/
@[simp] theorem functions_filterWarningsOnly (result : AnalysisResult) (cfg : AnalysisConfig) :
    (filterWarningsOnly result cfg).functions = result.functions := by
  unfold filterWarningsOnly
  split <;> rfl

/-- The configuration stays. -/
@[simp] theorem config_filterWarningsOnly (result : AnalysisResult) (cfg : AnalysisConfig) :
    (filterWarningsOnly result cfg).config = result.config := by
  unfold filterWarningsOnly
  split <;> rfl

/-- The functions that have a diagnostic. -/
theorem mem_functions_filterFunctionsWithDiagnostics {result : AnalysisResult}
    {f : FunctionResult} :
    f ∈ (filterFunctionsWithDiagnostics result).functions ↔
      f ∈ result.functions ∧ f.name ≠ [] ∧ ∃ d ∈ result.diagnostics, d.funcName = f.name := by
  unfold filterFunctionsWithDiagnostics
  dsimp only
  split_ifs with hempty
  · refine ⟨fun h => absurd h List.not_mem_nil, ?_⟩
    rintro ⟨-, hname, d, hd, hdf⟩
    rw [List.isEmpty_iff, List.map_eq_nil_iff, List.filter_eq_nil_iff] at hempty
    exact absurd (by simp [hdf, hname]) (hempty d hd)
  · rw [List.mem_filter, decide_eq_true_iff, List.mem_map]
    refine and_congr_right fun _ => ⟨?_, ?_⟩
    · rintro ⟨d, hd, hdf⟩
      obtain ⟨hd, hne⟩ := List.mem_filter.mp hd
      exact ⟨by simpa [hdf] using hne, d, hd, hdf⟩
    · rintro ⟨hname, d, hd, hdf⟩
      exact ⟨d, List.mem_filter.mpr ⟨hd, by simpa [hdf] using hname⟩, hdf⟩

/-- The diagnostics stay. -/
@[simp] theorem diagnostics_filterFunctionsWithDiagnostics (result : AnalysisResult) :
    (filterFunctionsWithDiagnostics result).diagnostics = result.diagnostics := rfl

/-! ## Within a filter -/

section Within

variable (env : Environment) (cfg : AnalysisConfig) (filters : NormalizedPathFilters)

/-- **Functions and diagnostics that a filter lets through**: the functions satisfy the function
report specification, and each diagnostic belongs to a function among `everything` that does. -/
def Environment.Within (everything functions : List FunctionResult)
    (diagnostics : List Diagnostic) : Prop :=
  (∀ f ∈ functions, env.isSatisfiedBy cfg filters f = true) ∧
    ∀ d ∈ diagnostics, ∃ f ∈ everything,
      env.isSatisfiedBy cfg filters f = true ∧ f.name = d.funcName

variable {env cfg filters} {result : AnalysisResult}

/-- The functions of a filtered result. -/
theorem mem_functions_filterResult (hfilters : cfg.Filters) {f : FunctionResult} :
    f ∈ (env.filterResult cfg filters result).functions ↔
      f ∈ result.functions ∧ env.isSatisfiedBy cfg filters f = true := by
  unfold Environment.filterResult
  rw [if_neg hfilters, List.mem_filter]

/-- The diagnostics of a filtered result. -/
theorem mem_diagnostics_filterResult (hfilters : cfg.Filters) {d : Diagnostic} :
    d ∈ (env.filterResult cfg filters result).diagnostics ↔
      d ∈ result.diagnostics ∧ ∃ f ∈ result.functions,
        env.isSatisfiedBy cfg filters f = true ∧ f.name = d.funcName := by
  unfold Environment.filterResult
  rw [if_neg hfilters]
  dsimp only
  split_ifs with hempty
  · refine ⟨fun h => absurd h List.not_mem_nil, ?_⟩
    rintro ⟨-, f, hf, hsat, -⟩
    rw [List.isEmpty_iff, List.map_eq_nil_iff, List.filter_eq_nil_iff] at hempty
    exact absurd hsat (hempty f hf)
  · rw [List.mem_filter, decide_eq_true_iff, List.mem_map]
    simp only [List.mem_filter, and_assoc]

/-- **A filtered result is within the filter.** -/
theorem within_filterResult (hfilters : cfg.Filters) :
    env.Within cfg filters result.functions (env.filterResult cfg filters result).functions
      (env.filterResult cfg filters result).diagnostics := by
  refine ⟨?_, ?_⟩
  · intro f hf
    exact ((mem_functions_filterResult hfilters).mp hf).2
  · intro d hd
    exact ((mem_diagnostics_filterResult hfilters).mp hd).2

/-- **What filtering leaves as it is**: a result that is within the filter already. -/
theorem filterResult_eq_self_iff (hfilters : cfg.Filters) :
    env.filterResult cfg filters result = result ↔
      env.Within cfg filters result.functions result.functions result.diagnostics := by
  constructor
  · intro heq
    have hwithin := @within_filterResult env cfg filters result hfilters
    rwa [heq] at hwithin
  rintro ⟨hfunctions, hdiagnostics⟩
  have hkept : result.functions.filter (env.isSatisfiedBy cfg filters) = result.functions :=
    List.filter_eq_self.mpr hfunctions
  unfold Environment.filterResult
  rw [if_neg hfilters]
  dsimp only
  rw [hkept]
  have hall : ∀ d ∈ result.diagnostics,
      d.funcName ∈ result.functions.map FunctionResult.name := by
    intro d hd
    obtain ⟨f, hf, -, hname⟩ := hdiagnostics d hd
    exact List.mem_map.mpr ⟨f, hf, hname⟩
  split_ifs with hempty
  · have hnil : result.diagnostics = [] := by
      rw [List.eq_nil_iff_forall_not_mem]
      intro d hd
      have := hall d hd
      rw [List.isEmpty_iff.mp hempty] at this
      exact absurd this List.not_mem_nil
    rw [← hnil]
  · rw [List.filter_eq_self.mpr fun d hd => decide_eq_true (hall d hd)]

end Within

end StackAnalyzer.App
