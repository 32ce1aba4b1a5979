import StackAnalyzer.Cli.ConfigFile

set_option relaxedAutoImplicit false
set_option autoImplicit false

/-!
# The command line

The arguments are read twice: first for the configuration file, whose entries change the settings,
and then for all options, whose handlers change them again. Each argument is compared with the
options one after the other.

## Main definitions

* `StackAnalyzer.Cli.CliOption`, `StackAnalyzer.Cli.cliForms` — the options, as they are written.
* `StackAnalyzer.Cli.CliOption.changes` — the changes of an option with a value.
* `StackAnalyzer.Cli.Surroundings.parseArguments` — the settings, or an error.
* `StackAnalyzer.Cli.cliActions` — the options on a command line, with their values.

## Main results

* `StackAnalyzer.Cli.parseLoop_eq_ok` — an accepted command line is a list of changes.
* `StackAnalyzer.Cli.CliOption.changes_cases` — which options do not assign their fields.
-/

namespace StackAnalyzer.Cli

open App CrossTU Maps

/-! ## Options -/

/-- The options, and the name of an input file. -/
inductive CliOption
  | help | demangle | quiet | verbose | printEffectiveConfig | config | stl | onlyFile
  | onlyFunction | onlyDir | excludeDir | stackLimit | dumpFilter | dumpIR | includePath | define
  | compileArg | compdbFast | analysisProfile | includeCompdbDeps | jobs | timing
  | smt (spec : SmtOption) | resourceModel | escapeModel | bufferModel | resourceCrossTU
  | noResourceCrossTU | uninitializedCrossTU | noUninitializedCrossTU | resourceSummaryCacheDir
  | compileIRCacheDir | compileIRFormat | resourceSummaryMemoryOnly | compileCommands
  | warningsOnly | formatJson | formatSarif | formatHuman | baseDir | sarifOut | mode | inputFile
  deriving DecidableEq

/-- How an option is written: alone, with a value after it or after an equality sign, with a value
after it or attached to it, or with an attached value. -/
inductive Form
  | flag (name : String)
  | valued (name : String)
  | joined (name : String)
  | attached (name : String)

/-- What an argument is: an option whose value is the next argument, an option with its value, or an
unknown option. -/
inductive Recognized
  | separate (option : CliOption) (name : String)
  | complete (option : CliOption) (value : CppString)
  | unknown

/-- An argument is compared with an option. -/
def Form.recognize (option : CliOption) (arg : CppString) : Form → Option Recognized
  | .flag name => if arg = name.toList then some (.complete option []) else none
  | .valued name =>
    if arg = name.toList then some (.separate option name)
    else if (name.toList ++ ['=']).isPrefixOf arg then
      some (.complete option (arg.drop (name.length + 1)))
    else none
  | .joined name =>
    if arg = name.toList then some (.separate option name)
    else if name.toList.isPrefixOf arg then some (.complete option (arg.drop name.length))
    else none
  | .attached name =>
    if name.toList.isPrefixOf arg then some (.complete option (arg.drop name.length)) else none

/-- The options of the first part of the loop. -/
def firstForms : List (CliOption × Form) :=
  [(.help, .flag "-h"), (.help, .flag "--help"), (.demangle, .flag "--demangle"),
    (.quiet, .flag "--quiet"), (.verbose, .flag "--verbose"),
    (.printEffectiveConfig, .flag "--print-effective-config"), (.config, .valued "--config"),
    (.stl, .flag "--STL"), (.stl, .flag "--stl"), (.onlyFile, .valued "--only-file"),
    (.onlyFunction, .valued "--only-func"), (.onlyFunction, .valued "--only-function"),
    (.onlyDir, .valued "--only-dir"), (.excludeDir, .valued "--exclude-dir"),
    (.stackLimit, .valued "--stack-limit"), (.dumpFilter, .flag "--dump-filter"),
    (.dumpIR, .valued "--dump-ir"), (.includePath, .joined "-I"), (.define, .joined "-D"),
    (.compileArg, .valued "--compile-arg"), (.compdbFast, .flag "--compdb-fast"),
    (.analysisProfile, .valued "--analysis-profile"),
    (.includeCompdbDeps, .flag "--include-compdb-deps"), (.jobs, .valued "--jobs"),
    (.timing, .flag "--timing")]

/-- The solver options, tried one after the other. -/
def smtForms : List (CliOption × Form) :=
  [SmtOption.switch, .backend, .secondaryBackend, .mode, .timeout, .budget, .rules].map
    fun spec => (.smt spec, .valued spec.cliOption)

/-- The options of the last part of the loop. -/
def lastForms : List (CliOption × Form) :=
  [(.resourceModel, .valued "--resource-model"), (.escapeModel, .valued "--escape-model"),
    (.bufferModel, .valued "--buffer-model"), (.resourceCrossTU, .flag "--resource-cross-tu"),
    (.noResourceCrossTU, .flag "--no-resource-cross-tu"),
    (.uninitializedCrossTU, .flag "--uninitialized-cross-tu"),
    (.noUninitializedCrossTU, .flag "--no-uninitialized-cross-tu"),
    (.resourceSummaryCacheDir, .valued "--resource-summary-cache-dir"),
    (.compileIRCacheDir, .valued "--compile-ir-cache-dir"),
    (.compileIRFormat, .valued "--compile-ir-format"),
    (.resourceSummaryMemoryOnly, .flag "--resource-summary-cache-memory-only"),
    (.compileCommands, .valued "--compile-commands"), (.compileCommands, .valued "--compdb"),
    (.warningsOnly, .flag "--warnings-only"), (.formatJson, .flag "--format=json"),
    (.formatSarif, .flag "--format=sarif"), (.formatHuman, .flag "--format=human"),
    (.baseDir, .valued "--base-dir"), (.sarifOut, .valued "--sarif-out"),
    (.mode, .attached "--mode=")]

/-- The options in the order in which an argument is compared with them. -/
def cliForms : List (CliOption × Form) := firstForms ++ smtForms ++ lastForms

/-- What an argument is. One that does not begin with a dash is the name of an input file. -/
def recognize (arg : CppString) : Recognized :=
  match cliForms.findSome? fun form => form.2.recognize form.1 arg with
  | some recognized => recognized
  | none => if arg.head? = some '-' then .unknown else .complete .inputFile arg

/-- An item is added to a list. -/
def addTo (items : List CppString) (rest : List CppString) : List CppString := rest ++ items

namespace CliOption

/-- The changes of an option with a value. -/
def changes (hardwareConcurrency : UInt32) (value : CppString) :
    CliOption → Except CppString (List Change)
  | .help => .ok []
  | .demangle => .ok [.assign .demangle true]
  | .quiet => .ok [.assign .quiet true]
  | .verbose => .ok [.assign .quiet false, .assign .verbose true]
  | .printEffectiveConfig => .ok [.assign .printEffectiveConfig true]
  | .config => .ok [.assign .configPath value]
  | .stl => .ok [.assign .includeSTL true]
  | .onlyFile => .ok [.modify .onlyFiles (addTo [value])]
  | .onlyFunction => .ok [.modify .onlyFunctions (addTo (csvItems value))]
  | .onlyDir => .ok [.modify .onlyDirs (addTo [value])]
  | .excludeDir => .ok [.modify .excludeDirs (addTo (csvItems value))]
  | .stackLimit =>
    (assignParsed .stackLimit (parseStackLimitValue value)).mapError fun e =>
      "Invalid --stack-limit value: ".toList ++ e
  | .dumpFilter => .ok [.assign .dumpFilter true]
  | .dumpIR => .ok [.assign .dumpIRPath value]
  | .includePath => .ok [.modify .extraCompileArgs (addTo ["-I".toList ++ value])]
  | .define => .ok [.modify .extraCompileArgs (addTo ["-D".toList ++ value])]
  | .compileArg => .ok [.modify .extraCompileArgs (addTo [value])]
  | .compdbFast => .ok [.assign .compdbFast true]
  | .analysisProfile =>
    (assignProfile (parseAnalysisProfile value)).mapError fun e =>
      "Invalid --analysis-profile value: ".toList ++ e
  | .includeCompdbDeps => .ok [.assign .includeCompdbDeps true]
  | .jobs =>
    (assignJobs (parseJobsValue hardwareConcurrency value)).mapError fun e =>
      "Invalid --jobs value: ".toList ++ e
  | .timing => .ok [.assign .timing true]
  | .smt spec =>
    (spec.applySmtOptionValue value .cli).mapError fun e =>
      "Invalid ".toList ++ spec.cliOption.toList ++ " value: ".toList ++ e
  | .resourceModel => .ok [.assign .resourceModelPath value]
  | .escapeModel => .ok [.assign .escapeModelPath value]
  | .bufferModel => .ok [.assign .bufferModelPath value]
  | .resourceCrossTU => .ok [.assign .resourceCrossTU true]
  | .noResourceCrossTU => .ok [.assign .resourceCrossTU false]
  | .uninitializedCrossTU => .ok [.assign .uninitializedCrossTU true]
  | .noUninitializedCrossTU => .ok [.assign .uninitializedCrossTU false]
  | .resourceSummaryCacheDir => .ok [.assign .resourceSummaryCacheDir value]
  | .compileIRCacheDir => .ok [.assign .compileIRCacheDir value]
  | .compileIRFormat =>
    (assignParsed .compileIRFormat (parseCompileIRFormat value)).mapError fun e =>
      "Invalid --compile-ir-format value: ".toList ++ e
  | .resourceSummaryMemoryOnly => .ok [.assign .resourceSummaryMemoryOnly true]
  | .compileCommands =>
    .ok [.assign .compileCommandsPath value, .assign .compileCommandsExplicit true]
  | .warningsOnly => .ok [.assign .warningsOnly true]
  | .formatJson => .ok [.assign .outputFormat .json]
  | .formatSarif => .ok [.assign .outputFormat .sarif]
  | .formatHuman => .ok [.assign .outputFormat .human]
  | .baseDir => .ok [.assign .sarifBaseDir value]
  | .sarifOut => .ok [.assign .sarifOutPath value]
  | .mode =>
    if value = "ir".toList then .ok [.assign .mode .ir]
    else if value = "abi".toList then .ok [.assign .mode .abi]
    else .error ("Unknown mode: ".toList ++ value ++ " (expected 'ir' or 'abi')".toList)
  | .inputFile => .ok [.modify .inputFilenames (addTo [value])]

/-- The entries of the configuration file for an option. -/
def configKeys : CliOption → List ConfigKey
  | .demangle => [.demangle]
  | .quiet | .verbose => [.quiet]
  | .analysisProfile => [.analysisProfile]
  | .includeCompdbDeps => [.includeCompdbDeps]
  | .jobs => [.jobs]
  | .timing => [.timing]
  | .smt spec => [.smt spec]
  | .resourceModel => [.resourceModel]
  | .escapeModel => [.escapeModel]
  | .bufferModel => [.bufferModel]
  | .resourceCrossTU | .noResourceCrossTU => [.resourceCrossTU]
  | .uninitializedCrossTU | .noUninitializedCrossTU => [.uninitializedCrossTU]
  | .resourceSummaryCacheDir => [.resourceSummaryCacheDir]
  | .compileIRCacheDir => [.compileIRCacheDir]
  | .compileIRFormat => [.compileIRFormat]
  | .resourceSummaryMemoryOnly => [.resourceSummaryMemoryOnly]
  | .compileCommands => [.compileCommands]
  | .warningsOnly => [.warningsOnly]
  | _ => []

end CliOption

/-! ## The two passes -/

/-- `PreParsedCliMeta`. -/
structure PreParsedCliMeta where
  configPath : CppString
  printEffectiveConfig : Bool

/-- `preScanMetaOptions`: every argument is looked at, also those that are values. -/
def preScanMetaOptions : List CppString → PreParsedCliMeta → Except CppString PreParsedCliMeta
  | [], outMeta => .ok outMeta
  | arg :: rest, outMeta =>
    if arg = "--print-effective-config".toList then
      preScanMetaOptions rest { outMeta with printEffectiveConfig := true }
    else
      match (Form.valued "--config").recognize .config arg with
      | some (.separate _ name) =>
        match rest with
        | [] => .error ("Missing argument for ".toList ++ name.toList)
        | value :: rest' => preScanMetaOptions rest' { outMeta with configPath := value }
      | some (.complete _ value) => preScanMetaOptions rest { outMeta with configPath := value }
      | _ => preScanMetaOptions rest outMeta

/-- `ParseResult`. -/
inductive ParseResult
  | ok (parsed : ParsedArguments)
  | help (parsed : ParsedArguments)
  | error (message : CppString)

/-- `unknownOptionErrorWithSuggestion`. -/
def unknownOptionError (suggest : CppString → Option CppString) (arg : CppString) : CppString :=
  match suggest arg with
  | some suggestion =>
    "Unknown option: ".toList ++ arg ++ ". Did you mean '".toList ++ suggestion ++ "'?".toList
  | none => "Unknown option: ".toList ++ arg

/-- An option is applied: the settings after it, or the end of the loop. -/
def applyOption (hardwareConcurrency : UInt32) (option : CliOption) (value : CppString)
    (parsed : ParsedArguments) : ParsedArguments ⊕ ParseResult :=
  if option = .help then .inr (.help parsed)
  else
    match option.changes hardwareConcurrency value with
    | .error e => .inr (.error e)
    | .ok changes => .inl (applyAll parsed changes)

/-- The loop of `parseArguments`. -/
def parseLoop (hardwareConcurrency : UInt32) (suggest : CppString → Option CppString) :
    List CppString → ParsedArguments → ParseResult
  | [], parsed => .ok parsed
  | arg :: rest, parsed =>
    match recognize arg with
    | .unknown => .error (unknownOptionError suggest arg)
    | .complete option value =>
      match applyOption hardwareConcurrency option value parsed with
      | .inl parsed' => parseLoop hardwareConcurrency suggest rest parsed'
      | .inr result => result
    | .separate option name =>
      match rest with
      | [] => .error ("Missing argument for ".toList ++ name.toList)
      | value :: rest' =>
        match applyOption hardwareConcurrency option value parsed with
        | .inl parsed' => parseLoop hardwareConcurrency suggest rest' parsed'
        | .inr result => result

/-- `parseArguments`, without the name of the program. -/
def Surroundings.parseArguments (S : Surroundings) (args : List CppString) : ParseResult :=
  match preScanMetaOptions args ⟨[], false⟩ with
  | .error e => .error e
  | .ok outMeta =>
    let parsed := (FieldChange.assign .printEffectiveConfig outMeta.printEffectiveConfig).apply
      ParsedArguments.initial
    if outMeta.configPath = [] then parseLoop S.hardwareConcurrency S.suggest args parsed
    else
      match S.loadConfigFile outMeta.configPath with
      | .error e => .error e
      | .ok changes =>
        parseLoop S.hardwareConcurrency S.suggest args
          (applyAll parsed (changes ++ [.assign .configPath outMeta.configPath]))

/-! ## The options on a command line -/

/-- The options on a command line, with their values, as the loop reads them. -/
def cliActions : List CppString → List (CliOption × CppString)
  | [] => []
  | arg :: rest =>
    match recognize arg with
    | .unknown => []
    | .complete option value => (option, value) :: cliActions rest
    | .separate option _ =>
      match rest with
      | [] => []
      | value :: rest' => (option, value) :: cliActions rest'

/-- The changes of some options. -/
def cliChanges (hardwareConcurrency : UInt32) :
    List (CliOption × CppString) → Except CppString (List Change)
  | [] => .ok []
  | action :: actions =>
    match action.1.changes hardwareConcurrency action.2 with
    | .error e => .error e
    | .ok changes => (cliChanges hardwareConcurrency actions).map fun rest => changes ++ rest

/-! ## An accepted command line is a list of changes -/

theorem applyOption_eq_inl {hardwareConcurrency : UInt32} {option : CliOption} {value : CppString}
    {parsed parsed' : ParsedArguments}
    (h : applyOption hardwareConcurrency option value parsed = .inl parsed') :
    ∃ changes, option.changes hardwareConcurrency value = .ok changes ∧
      parsed' = applyAll parsed changes ∧
        ∀ other, applyOption hardwareConcurrency option value other =
          .inl (applyAll other changes) := by
  unfold applyOption at h ⊢
  split_ifs at h with hhelp
  cases hchanges : option.changes hardwareConcurrency value with
  | error e =>
    rw [hchanges] at h
    cases h
  | ok changes =>
    rw [hchanges] at h
    obtain rfl := Sum.inl.inj h
    exact ⟨changes, rfl, rfl, fun other => if_neg hhelp⟩

/-- No option ends the loop with settings. -/
theorem applyOption_ne_ok {hardwareConcurrency : UInt32} (option : CliOption) (value : CppString)
    (parsed parsed' : ParsedArguments) :
    applyOption hardwareConcurrency option value parsed ≠ .inr (.ok parsed') := by
  intro heq
  unfold applyOption at heq
  split_ifs at heq
  · cases heq
  · split at heq <;> cases heq

/-- The changes of an option and of those after it. -/
theorem cliChanges_cons {hardwareConcurrency : UInt32} {action : CliOption × CppString}
    {actions : List (CliOption × CppString)} {cs : List Change}
    (h : cliChanges hardwareConcurrency (action :: actions) = .ok cs) :
    ∃ first rest, action.1.changes hardwareConcurrency action.2 = .ok first ∧
      cliChanges hardwareConcurrency actions = .ok rest ∧ cs = first ++ rest := by
  rw [cliChanges] at h
  cases hfirst : action.1.changes hardwareConcurrency action.2 with
  | error e =>
    rw [hfirst] at h
    cases h
  | ok first =>
    rw [hfirst] at h
    obtain ⟨rest, hrest, rfl⟩ := map_eq_ok h
    exact ⟨first, rest, rfl, hrest, rfl⟩

/-- **An accepted command line is a list of changes**, those of its options, whatever the settings
are.

**Proof sketch.** By induction along the loop, which goes on only after an option that is accepted,
with one argument or with two. -/
theorem parseLoop_eq_ok {hardwareConcurrency : UInt32} {suggest : CppString → Option CppString}
    {args : List CppString} {parsed parsed' : ParsedArguments}
    (h : parseLoop hardwareConcurrency suggest args parsed = .ok parsed') :
    ∃ cs, cliChanges hardwareConcurrency (cliActions args) = .ok cs ∧
      parsed' = applyAll parsed cs ∧ ∀ other,
        parseLoop hardwareConcurrency suggest args other = .ok (applyAll other cs) := by
  -- what an option does in front of a loop
  have hstep : ∀ {option : CliOption} {value : CppString} {rest : List CppString}
      {parsed parsed' : ParsedArguments},
      (∀ {parsed parsed' : ParsedArguments},
        parseLoop hardwareConcurrency suggest rest parsed = .ok parsed' →
          ∃ cs, cliChanges hardwareConcurrency (cliActions rest) = .ok cs ∧
            parsed' = applyAll parsed cs ∧ ∀ other,
              parseLoop hardwareConcurrency suggest rest other = .ok (applyAll other cs)) →
      (match applyOption hardwareConcurrency option value parsed with
        | .inl parsed' => parseLoop hardwareConcurrency suggest rest parsed'
        | .inr result => result) = .ok parsed' →
      (∀ parsed'', applyOption hardwareConcurrency option value parsed ≠ .inr (.ok parsed'')) →
      ∃ cs, cliChanges hardwareConcurrency ((option, value) :: cliActions rest) = .ok cs ∧
        parsed' = applyAll parsed cs ∧ ∀ other,
          (match applyOption hardwareConcurrency option value other with
            | .inl parsed' => parseLoop hardwareConcurrency suggest rest parsed'
            | .inr result => result) = .ok (applyAll other cs) := by
    intro option value rest parsed parsed' ih h hend
    cases happly : applyOption hardwareConcurrency option value parsed with
    | inr result =>
      rw [happly] at h
      exact absurd (happly.trans (congrArg Sum.inr h)) (hend parsed')
    | inl next =>
      rw [happly] at h
      obtain ⟨changes, hchanges, rfl, hall⟩ := applyOption_eq_inl happly
      obtain ⟨cs, hcs, rfl, hother⟩ := ih h
      refine ⟨changes ++ cs, ?_, (applyAll_append _ _ _).symm, fun other => ?_⟩
      · rw [cliChanges, hchanges, hcs]
        rfl
      · rw [hall other, applyAll_append]
        exact hother (applyAll other changes)
  induction args using cliActions.induct generalizing parsed parsed' with
  | case1 => exact ⟨[], rfl, (ParseResult.ok.inj h).symm, fun other => rfl⟩
  | case2 arg rest hunknown =>
    rw [parseLoop, hunknown] at h
    cases h
  | case3 arg rest option value hcomplete ih =>
    rw [parseLoop, hcomplete] at h
    simp only [parseLoop, cliActions, hcomplete]
    exact hstep ih h (applyOption_ne_ok option value parsed)
  | case4 arg option name hseparate =>
    rw [parseLoop, hseparate] at h
    cases h
  | case5 arg option name hseparate value rest ih =>
    rw [parseLoop, hseparate] at h
    simp only [parseLoop, cliActions, hseparate]
    exact hstep ih h (applyOption_ne_ok option value parsed)

/-! ## What the options change -/

/-- **What an option changes**: it assigns a field, or adds to a list that only the command line
fills, or adds to the rules. -/
theorem CliOption.changes_cases {hardwareConcurrency : UInt32} {value : CppString}
    {option : CliOption} {changes : List Change}
    (h : option.changes hardwareConcurrency value = .ok changes) {c : Change} (hc : c ∈ changes) :
    (c.isAssign = true ∧ c.field ≠ .smtRules ∧
      (c.field = .smtEnabled → ∃ spec, option = .smt spec)) ∨
    c.field.isCliList = true ∨
    (option = .smt .rules ∧ c.field = .smtRules) := by
  have hassign : ∀ {field : Field} {v : Except CppString field.Value} {before : CppString},
      field ≠ .smtRules → field ≠ .smtEnabled →
        ((assignParsed field v).mapError fun e => before ++ e) = .ok changes →
          (c.isAssign = true ∧ c.field ≠ .smtRules ∧
            (c.field = .smtEnabled → ∃ spec, option = .smt spec)) := by
    intro field v before hrules henabled heq
    obtain ⟨v', -, rfl⟩ := eq_of_assignParsed (mapError_eq_ok heq)
    rw [List.mem_singleton.mp hc]
    exact ⟨rfl, hrules, fun h => absurd h henabled⟩
  cases option with
  | smt spec =>
    have happly : spec.applySmtOptionValue value .cli = .ok changes := by
      simp only [CliOption.changes] at h
      exact mapError_eq_ok h
    rcases SmtOption.mem_applySmtOptionValue happly hc with ⟨own, hown, hc⟩ | rfl
    · rcases SmtOption.apply_cases hown with ⟨rfl, -, rfl⟩ | ⟨-, hsource, -⟩ | ⟨-, hall⟩
      · rw [List.mem_singleton.mp hc]
        exact Or.inr (Or.inr ⟨rfl, rfl⟩)
      · cases hsource
      · exact Or.inl ⟨(hall c hc).1, (hall c hc).2.2, fun _ => ⟨spec, rfl⟩⟩
    · exact Or.inl ⟨rfl, Field.noConfusion, fun _ => ⟨spec, rfl⟩⟩
  | help =>
    obtain rfl := Except.ok.inj h
    exact absurd hc List.not_mem_nil
  | onlyFile | onlyFunction | onlyDir | excludeDir | includePath | define | compileArg
  | inputFile =>
    obtain rfl := Except.ok.inj h
    rw [List.mem_singleton.mp hc]
    exact Or.inr (Or.inl rfl)
  | stackLimit => exact Or.inl (hassign Field.noConfusion Field.noConfusion h)
  | compileIRFormat => exact Or.inl (hassign Field.noConfusion Field.noConfusion h)
  | analysisProfile | jobs =>
    simp only [CliOption.changes] at h
    obtain ⟨v, -, rfl⟩ := map_eq_ok (mapError_eq_ok h)
    refine Or.inl ?_
    rcases List.mem_cons.mp hc with rfl | hc
    · exact ⟨rfl, Field.noConfusion, Field.noConfusion⟩
    · rw [List.mem_singleton.mp hc]
      exact ⟨rfl, Field.noConfusion, Field.noConfusion⟩
  | verbose | compileCommands =>
    obtain rfl := Except.ok.inj h
    refine Or.inl ?_
    rcases List.mem_cons.mp hc with rfl | hc
    · exact ⟨rfl, Field.noConfusion, Field.noConfusion⟩
    · rw [List.mem_singleton.mp hc]
      exact ⟨rfl, Field.noConfusion, Field.noConfusion⟩
  | mode =>
    simp only [CliOption.changes] at h
    refine Or.inl ?_
    split_ifs at h
    all_goals
      obtain rfl := Except.ok.inj h
      rw [List.mem_singleton.mp hc]
      exact ⟨rfl, Field.noConfusion, Field.noConfusion⟩
  | _ =>
    obtain rfl := Except.ok.inj h
    rw [List.mem_singleton.mp hc]
    exact Or.inl ⟨rfl, Field.noConfusion, Field.noConfusion⟩

/-- A change of a command line is one of its options. -/
theorem exists_action_of_cliChanges {hardwareConcurrency : UInt32}
    {actions : List (CliOption × CppString)} {cs : List Change}
    (h : cliChanges hardwareConcurrency actions = .ok cs) {c : Change} (hc : c ∈ cs) :
    ∃ action ∈ actions, ∃ own, action.1.changes hardwareConcurrency action.2 = .ok own ∧
      c ∈ own := by
  induction actions generalizing cs with
  | nil =>
    obtain rfl := Except.ok.inj h
    exact absurd hc List.not_mem_nil
  | cons action actions ih =>
    obtain ⟨first, rest, hfirst, hrest, rfl⟩ := cliChanges_cons h
    rcases List.mem_append.mp hc with hc | hc
    · exact ⟨action, List.mem_cons_self, first, hfirst, hc⟩
    · obtain ⟨action', haction, hexists⟩ := ih hrest hc
      exact ⟨action', List.mem_cons_of_mem action haction, hexists⟩

/-- The changes of an option are changes of the command line. -/
theorem mem_cliChanges {hardwareConcurrency : UInt32} {actions : List (CliOption × CppString)}
    {cs : List Change} (h : cliChanges hardwareConcurrency actions = .ok cs)
    {action : CliOption × CppString} (haction : action ∈ actions) {own : List Change}
    (hown : action.1.changes hardwareConcurrency action.2 = .ok own) {c : Change} (hc : c ∈ own) :
    c ∈ cs := by
  induction actions generalizing cs with
  | nil => exact absurd haction List.not_mem_nil
  | cons other actions ih =>
    obtain ⟨first, rest, hfirst, hrest, rfl⟩ := cliChanges_cons h
    rcases List.mem_cons.mp haction with rfl | haction
    · rw [hown] at hfirst
      exact List.mem_append_left rest (Except.ok.inj hfirst ▸ hc)
    · exact List.mem_append_right first (ih hrest haction)

/-- The rules that an option lists. -/
def listedRules (action : CliOption × CppString) : List CppString :=
  if action.1 = .smt .rules then csvItems action.2 else []

/-- The rules after a command line: those before it, and all that it lists. -/
theorem smtRules_of_cliChanges {hardwareConcurrency : UInt32}
    {actions : List (CliOption × CppString)} {cs : List Change}
    (h : cliChanges hardwareConcurrency actions = .ok cs) (parsed : ParsedArguments) :
    applyAll parsed cs .smtRules = parsed .smtRules ++ actions.flatMap listedRules := by
  induction actions generalizing cs parsed with
  | nil =>
    obtain rfl := Except.ok.inj h
    exact (List.append_nil _).symm
  | cons action actions ih =>
    obtain ⟨first, rest, hfirst, hrest, rfl⟩ := cliChanges_cons h
    rw [applyAll_append, ih hrest, List.flatMap_cons, ← List.append_assoc]
    congr 1
    obtain ⟨option, value⟩ := action
    unfold listedRules
    by_cases hrules : option = .smt .rules
    · subst hrules
      simp only [CliOption.changes] at hfirst
      obtain rfl := Except.ok.inj (mapError_eq_ok hfirst)
      rw [if_pos rfl]
      rfl
    · rw [if_neg hrules, List.append_nil]
      refine applyAll_of_untouched (fun c hc hfield => ?_) parsed
      rcases CliOption.changes_cases hfirst hc with ⟨-, hne, -⟩ | hlist | ⟨hoption, -⟩
      · exact hne hfield
      · rw [hfield] at hlist
        cases hlist
      · exact hrules hoption

end StackAnalyzer.Cli
