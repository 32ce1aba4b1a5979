import StackAnalyzer.Cli.Values
import StackAnalyzer.Maps.FieldChanges

set_option relaxedAutoImplicit false
set_option autoImplicit false

/-!
# Settings

What the command line and the configuration file fill: the fields of the configuration and those
that only the application reads. A handler of an option is the list of its changes, or an error that
does not depend on the settings. The handlers of the solver options serve both sources.

## Main definitions

* `StackAnalyzer.Cli.Field`, `StackAnalyzer.Cli.ParsedArguments` — the fields and their values.
* `StackAnalyzer.Cli.SmtOption.applySmtOptionValue` — the changes of a solver option.
* `StackAnalyzer.Cli.ParsedArguments.config` — the configuration.

## Main results

* `StackAnalyzer.Cli.SmtOption.apply_cases` — all solver options assign their fields, but for the
  rules on the command line.
-/

namespace StackAnalyzer.Cli

open App CrossTU Maps
open Smt (SolverMode AnalysisProfile)

/-! ## Fields -/

/-- `OutputFormat`. -/
inductive OutputFormat
  | human | json | sarif
  deriving DecidableEq

/-- The fields of `AnalysisConfig` and of `ParsedArguments` that are filled. -/
inductive Field
  | stackLimit | smtBudgetNodes | excludeDirs | extraCompileArgs | onlyDirs | onlyFiles
  | onlyFunctions | smtRules | compileIRCacheDir | smtSecondaryBackend | smtBackend | dumpIRPath
  | escapeModelPath | bufferModelPath | resourceModelPath | resourceSummaryCacheDir | smtTimeoutMs
  | jobs | smtMode | mode | profile | compileIRFormat | compdbFast | demangle | dumpFilter
  | includeSTL | jobsAuto | quiet | smtEnabled | timing | uninitializedCrossTU | resourceCrossTU
  | resourceSummaryMemoryOnly | warningsOnly
  | inputFilenames | sarifBaseDir | sarifOutPath | configPath | compileCommandsPath | outputFormat
  | compileCommandsExplicit | analysisProfileExplicit | includeCompdbDeps | printEffectiveConfig
  | verbose
  deriving DecidableEq

/-- The type of a field. -/
abbrev Field.Value : Field → Type
  | .stackLimit | .smtBudgetNodes => UInt64
  | .excludeDirs | .extraCompileArgs | .onlyDirs | .onlyFiles | .onlyFunctions | .smtRules
  | .inputFilenames => List CppString
  | .compileIRCacheDir | .smtSecondaryBackend | .smtBackend | .dumpIRPath | .escapeModelPath
  | .bufferModelPath | .resourceModelPath | .resourceSummaryCacheDir | .sarifBaseDir
  | .sarifOutPath | .configPath | .compileCommandsPath => CppString
  | .smtTimeoutMs | .jobs => UInt32
  | .smtMode => SolverMode
  | .mode => AnalysisMode
  | .profile => AnalysisProfile
  | .compileIRFormat => CompileIRFormat
  | .outputFormat => OutputFormat
  | .compdbFast | .demangle | .dumpFilter | .includeSTL | .jobsAuto | .quiet | .smtEnabled
  | .timing | .uninitializedCrossTU | .resourceCrossTU | .resourceSummaryMemoryOnly
  | .warningsOnly | .compileCommandsExplicit | .analysisProfileExplicit | .includeCompdbDeps
  | .printEffectiveConfig | .verbose => Bool

/-- `ParsedArguments`, with its configuration: a value for each field. -/
abbrev ParsedArguments := (field : Field) → field.Value

/-- A change of a field. -/
abbrev Change := FieldChange Field.Value

/-- The default configuration. -/
def defaults : AnalysisConfig where

/-- The values that `parseArguments` starts with: the defaults, and two compiler arguments. -/
def ParsedArguments.initial : ParsedArguments
  | .stackLimit => defaults.stackLimit
  | .smtBudgetNodes => defaults.smtBudgetNodes
  | .excludeDirs => defaults.excludeDirs
  | .extraCompileArgs => defaults.extraCompileArgs ++ ["-O0".toList, "--ct-optnone".toList]
  | .onlyDirs => defaults.onlyDirs
  | .onlyFiles => defaults.onlyFiles
  | .onlyFunctions => defaults.onlyFunctions
  | .smtRules => defaults.smtRules
  | .compileIRCacheDir => defaults.compileIRCacheDir
  | .smtSecondaryBackend => defaults.smtSecondaryBackend
  | .smtBackend => defaults.smtBackend
  | .dumpIRPath => defaults.dumpIRPath
  | .escapeModelPath => defaults.escapeModelPath
  | .bufferModelPath => defaults.bufferModelPath
  | .resourceModelPath => defaults.resourceModelPath
  | .resourceSummaryCacheDir => defaults.resourceSummaryCacheDir
  | .smtTimeoutMs => defaults.smtTimeoutMs
  | .jobs => defaults.jobs
  | .smtMode => defaults.smtMode
  | .mode => defaults.mode
  | .profile => defaults.profile
  | .compileIRFormat => defaults.compileIRFormat
  | .compdbFast => defaults.compdbFast
  | .demangle => defaults.demangle
  | .dumpFilter => defaults.dumpFilter
  | .includeSTL => defaults.includeSTL
  | .jobsAuto => defaults.jobsAuto
  | .quiet => false
  | .smtEnabled => defaults.smtEnabled
  | .timing => defaults.timing
  | .uninitializedCrossTU => defaults.uninitializedCrossTU
  | .resourceCrossTU => defaults.resourceCrossTU
  | .resourceSummaryMemoryOnly => defaults.resourceSummaryMemoryOnly
  | .warningsOnly => false
  | .inputFilenames => []
  | .sarifBaseDir | .sarifOutPath | .configPath | .compileCommandsPath => []
  | .outputFormat => .human
  | .compileCommandsExplicit | .analysisProfileExplicit | .includeCompdbDeps
  | .printEffectiveConfig | .verbose => false

/-- The configuration. -/
def ParsedArguments.config (parsed : ParsedArguments) : AnalysisConfig where
  stackLimit := parsed .stackLimit
  smtBudgetNodes := parsed .smtBudgetNodes
  excludeDirs := parsed .excludeDirs
  extraCompileArgs := parsed .extraCompileArgs
  onlyDirs := parsed .onlyDirs
  onlyFiles := parsed .onlyFiles
  onlyFunctions := parsed .onlyFunctions
  smtRules := parsed .smtRules
  compileIRCacheDir := parsed .compileIRCacheDir
  smtSecondaryBackend := parsed .smtSecondaryBackend
  smtBackend := parsed .smtBackend
  dumpIRPath := parsed .dumpIRPath
  escapeModelPath := parsed .escapeModelPath
  bufferModelPath := parsed .bufferModelPath
  resourceModelPath := parsed .resourceModelPath
  resourceSummaryCacheDir := parsed .resourceSummaryCacheDir
  smtTimeoutMs := parsed .smtTimeoutMs
  jobs := parsed .jobs
  smtMode := parsed .smtMode
  mode := parsed .mode
  profile := parsed .profile
  compileIRFormat := parsed .compileIRFormat
  compdbFast := parsed .compdbFast
  demangle := parsed .demangle
  dumpFilter := parsed .dumpFilter
  includeSTL := parsed .includeSTL
  jobsAuto := parsed .jobsAuto
  quiet := parsed .quiet
  smtEnabled := parsed .smtEnabled
  timing := parsed .timing
  uninitializedCrossTU := parsed .uninitializedCrossTU
  resourceCrossTU := parsed .resourceCrossTU
  resourceSummaryMemoryOnly := parsed .resourceSummaryMemoryOnly
  warningsOnly := parsed .warningsOnly

/-- An assignment of a text that is accepted. -/
def assignParsed (field : Field) (value : Except CppString field.Value) :
    Except CppString (List Change) :=
  value.map fun v => [.assign field v]

/-- The assignments of an analysis profile. -/
def assignProfile (value : Except CppString AnalysisProfile) : Except CppString (List Change) :=
  value.map fun profile => [.assign .profile profile, .assign .analysisProfileExplicit true]

/-- The assignments of a number of jobs. -/
def assignJobs (value : Except CppString (UInt32 × Bool)) : Except CppString (List Change) :=
  value.map fun parsed => [.assign .jobs parsed.1, .assign .jobsAuto parsed.2]

/-- The fields whose lists only the command line fills. -/
def Field.isCliList : Field → Bool
  | .onlyFiles | .onlyFunctions | .onlyDirs | .excludeDirs | .extraCompileArgs
  | .inputFilenames => true
  | _ => false

/-! ## Solver options -/

/-- `SmtOptionSource`. -/
inductive SmtOptionSource
  | config | cli
  deriving DecidableEq

/-- The solver options, in the order of `kSmtOptionSpecs`. -/
inductive SmtOption
  | switch | backend | secondaryBackend | mode | timeout | budget | rules
  deriving DecidableEq

namespace SmtOption

/-- `configKey`. -/
def configKey : SmtOption → String
  | .switch => "smt"
  | .backend => "smt-backend"
  | .secondaryBackend => "smt-secondary-backend"
  | .mode => "smt-mode"
  | .timeout => "smt-timeout-ms"
  | .budget => "smt-budget-nodes"
  | .rules => "smt-rules"

/-- `cliOption`. -/
def cliOption : SmtOption → String
  | .switch => "--smt"
  | .backend => "--smt-backend"
  | .secondaryBackend => "--smt-secondary-backend"
  | .mode => "--smt-mode"
  | .timeout => "--smt-timeout-ms"
  | .budget => "--smt-budget-nodes"
  | .rules => "--smt-rules"

/-- `impliesSmtEnabled`. -/
def impliesSmtEnabled : SmtOption → Bool
  | .switch => false
  | _ => true

/-- `apply`: the rules are replaced by those of the configuration file, and those of the command
line are added to them. -/
def apply (value : CppString) (source : SmtOptionSource) :
    SmtOption → Except CppString (List Change)
  | .switch =>
    assignParsed .smtEnabled
      (if source = .cli then parseSmtSwitch value else parseBoolSwitch value)
  | .backend => .ok [.assign .smtBackend value]
  | .secondaryBackend => .ok [.assign .smtSecondaryBackend value]
  | .mode => assignParsed .smtMode (parseSmtMode value)
  | .timeout => assignParsed .smtTimeoutMs (parsePositiveUnsigned value)
  | .budget => assignParsed .smtBudgetNodes (parsePositiveU64 value)
  | .rules =>
    if source = .config then .ok [.assign .smtRules (csvItems value)]
    else .ok [.modify .smtRules fun rules => rules ++ csvItems value]

/-- `applySmtOptionValue`. -/
def applySmtOptionValue (value : CppString) (source : SmtOptionSource) (spec : SmtOption) :
    Except CppString (List Change) :=
  (spec.apply value source).map fun changes =>
    if spec.impliesSmtEnabled then changes ++ [.assign .smtEnabled true] else changes

end SmtOption

/-! ## What the handlers change -/

theorem map_eq_ok {E A B : Type*} {x : Except E A} {g : A → B} {b : B} (h : x.map g = .ok b) :
    ∃ a, x = .ok a ∧ g a = b := by
  cases x with
  | error e => cases h
  | ok a => exact ⟨a, rfl, Except.ok.inj h⟩

/-- An accepted text is assigned to its field. -/
theorem eq_of_assignParsed {field : Field} {value : Except CppString field.Value}
    {changes : List Change} (h : assignParsed field value = .ok changes) :
    ∃ v, value = .ok v ∧ changes = [.assign field v] := by
  obtain ⟨v, hv, rfl⟩ := map_eq_ok h
  exact ⟨v, hv, rfl⟩

/-- What a solver option changes: the rules by themselves, other fields by an assignment. -/
theorem SmtOption.apply_cases {value : CppString} {source : SmtOptionSource} {spec : SmtOption}
    {changes : List Change} (h : spec.apply value source = .ok changes) :
    (spec = .rules ∧ source = .cli ∧
      changes = [.modify .smtRules fun rules => rules ++ csvItems value]) ∨
    (spec = .rules ∧ source = .config ∧ changes = [.assign .smtRules (csvItems value)]) ∨
    (spec ≠ .rules ∧ ∀ c ∈ changes, c.isAssign = true ∧ c.field.isCliList = false ∧
      c.field ≠ .smtRules) := by
  have hassign : ∀ {field : Field} {v : Except CppString field.Value},
      field.isCliList = false → field ≠ .smtRules → assignParsed field v = .ok changes →
        ∀ c ∈ changes, c.isAssign = true ∧ c.field.isCliList = false ∧ c.field ≠ .smtRules := by
    intro field v hlist hne h c hc
    obtain ⟨v', -, rfl⟩ := eq_of_assignParsed h
    rw [List.mem_singleton.mp hc]
    exact ⟨rfl, hlist, hne⟩
  cases spec with
  | rules =>
    cases source with
    | cli => exact Or.inl ⟨rfl, rfl, (Except.ok.inj h).symm⟩
    | config => exact Or.inr (Or.inl ⟨rfl, rfl, (Except.ok.inj h).symm⟩)
  | backend | secondaryBackend =>
    refine Or.inr (Or.inr ⟨SmtOption.noConfusion, fun c hc => ?_⟩)
    obtain rfl := Except.ok.inj h
    rw [List.mem_singleton.mp hc]
    exact ⟨rfl, rfl, Field.noConfusion⟩
  | switch => exact Or.inr (Or.inr ⟨SmtOption.noConfusion, hassign rfl Field.noConfusion h⟩)
  | mode => exact Or.inr (Or.inr ⟨SmtOption.noConfusion, hassign rfl Field.noConfusion h⟩)
  | timeout => exact Or.inr (Or.inr ⟨SmtOption.noConfusion, hassign rfl Field.noConfusion h⟩)
  | budget => exact Or.inr (Or.inr ⟨SmtOption.noConfusion, hassign rfl Field.noConfusion h⟩)

/-- What a solver option changes, with the switch that it implies. -/
theorem SmtOption.mem_applySmtOptionValue {value : CppString} {source : SmtOptionSource}
    {spec : SmtOption} {changes : List Change}
    (h : spec.applySmtOptionValue value source = .ok changes) {c : Change} (hc : c ∈ changes) :
    (∃ own, spec.apply value source = .ok own ∧ c ∈ own) ∨ c = .assign .smtEnabled true := by
  obtain ⟨own, hown, rfl⟩ := map_eq_ok h
  split_ifs at hc
  · rcases List.mem_append.mp hc with hc | hc
    · exact Or.inl ⟨own, hown, hc⟩
    · exact Or.inr (List.mem_singleton.mp hc)
  · exact Or.inl ⟨own, hown, hc⟩

/-- No solver option changes a list of the command line, and one changes the rules. -/
theorem SmtOption.field_of_applySmtOptionValue {value : CppString} {source : SmtOptionSource}
    {spec : SmtOption} {changes : List Change}
    (h : spec.applySmtOptionValue value source = .ok changes) :
    ∀ c ∈ changes, c.field.isCliList = false ∧ (c.field = .smtRules → spec = .rules) := by
  intro c hc
  rcases mem_applySmtOptionValue h hc with ⟨own, hown, hc⟩ | rfl
  · rcases apply_cases hown with ⟨hspec, -, rfl⟩ | ⟨hspec, -, rfl⟩ | ⟨-, hall⟩
    · rw [List.mem_singleton.mp hc]
      exact ⟨rfl, fun _ => hspec⟩
    · rw [List.mem_singleton.mp hc]
      exact ⟨rfl, fun _ => hspec⟩
    · exact ⟨(hall c hc).2.1, fun hrules => absurd hrules (hall c hc).2.2⟩
  · exact ⟨rfl, Field.noConfusion⟩

end StackAnalyzer.Cli
