import StackAnalyzer.Cli.Arguments

set_option relaxedAutoImplicit false
set_option autoImplicit false

/-!
# The command line overrides the configuration file

The settings that a command line leads to are compared with those that it leads to when the
configuration file has no entry for one of its options. An option that assigns its field, and one
that adds to a list that no entry fills, leaves the same value. The rules of the solver are the only
field that both sources fill and the command line adds to: they keep the rules of the configuration
file.

## Main definitions

* `StackAnalyzer.Cli.Surroundings.withoutEntries` — the files without some entries.
* `StackAnalyzer.Cli.Overrides` — the command line overrides the configuration file.
* `StackAnalyzer.Cli.Surroundings.configuredRules` — the rules of the configuration file.

## Main results

* `StackAnalyzer.Cli.parseArguments_eq_ok` — the settings are the changes of both sources.
* `StackAnalyzer.Cli.overrides_iff` — when the command line overrides the configuration file.
-/

namespace StackAnalyzer.Cli

open App CrossTU Maps

/-! ## The two sources -/

namespace Surroundings

variable (S : Surroundings)

/-- The files without the entries of some keys. -/
def withoutEntries (keys : List ConfigKey) : Surroundings :=
  { S with readLines := fun path => (S.readLines path).map (withoutKeys keys) }

/-- The changes of the configuration file, if there is one. -/
def configChanges (configPath : CppString) : Except CppString (List Change) :=
  if configPath = [] then .ok []
  else (S.loadConfigFile configPath).map fun changes => changes ++ [.assign .configPath configPath]

/-- The rules of the configuration file of a command line. -/
def configuredRules (args : List CppString) : List CppString :=
  match preScanMetaOptions args ⟨[], false⟩ with
  | .error _ => []
  | .ok outMeta =>
    if outMeta.configPath = [] then []
    else
      match S.readLines outMeta.configPath with
      | none => []
      | some lines => Cli.configuredRules lines

end Surroundings

/-- The values before the changes of the two sources. -/
def ParsedArguments.scanned (outMeta : PreParsedCliMeta) : ParsedArguments :=
  (FieldChange.assign .printEffectiveConfig outMeta.printEffectiveConfig).apply
    ParsedArguments.initial

/-- **The command line overrides the configuration file**: a field that an option changes has the
value that it has when the configuration file has no entry for the option; a solver that the last
solver option switches off stays off; and where the command line lists rules, the rules are those
that it lists. -/
structure Overrides (S : Surroundings) (args : List CppString) (parsed : ParsedArguments) :
    Prop where
  sameFields : ∀ action ∈ cliActions args, ∀ changes,
    action.1.changes S.hardwareConcurrency action.2 = .ok changes → ∀ c ∈ changes,
      ∃ parsed', (S.withoutEntries action.1.configKeys).parseArguments args = .ok parsed' ∧
        parsed c.field = parsed' c.field
  staysOff : ∀ before value after,
    cliActions args = before ++ (.smt .switch, value) :: after →
      parseSmtSwitch value = .ok false → (∀ action ∈ after, ∀ spec, action.1 ≠ .smt spec) →
        parsed .smtEnabled = false
  rulesListed : (∃ value, (.smt .rules, value) ∈ cliActions args) →
    parsed .smtRules = (cliActions args).flatMap listedRules

/-! ## The settings as changes -/

section TwoSources

variable {S : Surroundings} {args : List CppString} {parsed : ParsedArguments}

theorem parseArguments_eq {outMeta : PreParsedCliMeta}
    (hscan : preScanMetaOptions args ⟨[], false⟩ = .ok outMeta) :
    S.parseArguments args =
      match S.configChanges outMeta.configPath with
      | .error e => .error e
      | .ok file => parseLoop S.hardwareConcurrency S.suggest args
          (applyAll (ParsedArguments.scanned outMeta) file) := by
  simp only [Surroundings.parseArguments, hscan, Surroundings.configChanges]
  split_ifs with hempty
  · rfl
  · cases S.loadConfigFile outMeta.configPath with
    | error e => rfl
    | ok changes => rfl

/-- **The settings are the changes of both sources**, first those of the configuration file, and
the changes of the command line do not depend on the file.

**Proof sketch.** The loop over the arguments is a list of changes whatever the settings are, and
the surroundings matter to it only by the number of processors and by what is suggested. -/
theorem parseArguments_eq_ok (h : S.parseArguments args = .ok parsed) :
    ∃ outMeta file cs, preScanMetaOptions args ⟨[], false⟩ = .ok outMeta ∧
      S.configChanges outMeta.configPath = .ok file ∧
      cliChanges S.hardwareConcurrency (cliActions args) = .ok cs ∧
      parsed = applyAll (applyAll (ParsedArguments.scanned outMeta) file) cs ∧
      ∀ keys file', (S.withoutEntries keys).configChanges outMeta.configPath = .ok file' →
        (S.withoutEntries keys).parseArguments args =
          .ok (applyAll (applyAll (ParsedArguments.scanned outMeta) file') cs) := by
  cases hscan : preScanMetaOptions args ⟨[], false⟩ with
  | error e =>
    rw [Surroundings.parseArguments, hscan] at h
    cases h
  | ok outMeta =>
    rw [parseArguments_eq hscan] at h
    cases hfile : S.configChanges outMeta.configPath with
    | error e =>
      rw [hfile] at h
      cases h
    | ok file =>
      rw [hfile] at h
      obtain ⟨cs, hcs, rfl, hother⟩ := parseLoop_eq_ok h
      refine ⟨outMeta, file, cs, rfl, hfile, hcs, rfl, fun keys file' hfile' => ?_⟩
      rw [parseArguments_eq hscan, hfile']
      exact hother _

end TwoSources

/-! ## The configuration file without some entries -/

section Files

variable {S : Surroundings} {configPath : CppString} {file : List Change}

/-- The changes of a file are those of its lines, and its path. -/
theorem configChanges_eq_ok (h : S.configChanges configPath = .ok file) (hpath : configPath ≠ []) :
    ∃ lines changes, S.readLines configPath = some lines ∧
      S.loadLines (S.baseDirOf configPath) 0 lines = .ok changes ∧
      file = changes ++ [.assign .configPath configPath] := by
  rw [Surroundings.configChanges, if_neg hpath] at h
  obtain ⟨changes, hload, rfl⟩ := map_eq_ok h
  rw [Surroundings.loadConfigFile] at hload
  cases hlines : S.readLines configPath with
  | none =>
    rw [hlines] at hload
    cases hload
  | some lines =>
    rw [hlines] at hload
    exact ⟨lines, changes, rfl, hload, rfl⟩

theorem applyLine_withoutEntries (keys : List ConfigKey) :
    (S.withoutEntries keys).applyLine = S.applyLine := by
  rfl

/-- The files matter to what is loaded by their lines only. -/
theorem loadLines_withoutEntries (keys : List ConfigKey) (baseDir : CppString) (lineNo : ℕ)
    (lines : List CppString) :
    (S.withoutEntries keys).loadLines baseDir lineNo lines =
      S.loadLines baseDir lineNo lines := by
  induction lines generalizing lineNo with
  | nil => rfl
  | cons line lines ih =>
    rw [Surroundings.loadLines, Surroundings.loadLines, applyLine_withoutEntries, ih]

/-- Without some entries the file can be loaded too. Its changes are those of the lines that are
left, and its path. -/
theorem exists_configChanges_withoutEntries (h : S.configChanges configPath = .ok file)
    (keys : List ConfigKey) :
    ∃ file', (S.withoutEntries keys).configChanges configPath = .ok file' := by
  by_cases hpath : configPath = []
  · exact ⟨[], if_pos hpath⟩
  · obtain ⟨lines, changes, hlines, hload, rfl⟩ := configChanges_eq_ok h hpath
    obtain ⟨changes', hload'⟩ := exists_loadLines_withoutKeys hload keys 0
    refine ⟨changes' ++ [.assign .configPath configPath], ?_⟩
    have hread : (S.withoutEntries keys).readLines configPath = some (withoutKeys keys lines) := by
      show (S.readLines configPath).map (withoutKeys keys) = some (withoutKeys keys lines)
      rw [hlines]
      rfl
    have hfile : (S.withoutEntries keys).loadConfigFile configPath = .ok changes' := by
      rw [Surroundings.loadConfigFile, hread]
      exact (loadLines_withoutEntries keys _ 0 _).trans hload'
    rw [Surroundings.configChanges, if_neg hpath, hfile]
    rfl

/-- No configuration file fills a list of the command line. -/
theorem isCliList_of_configChanges (h : S.configChanges configPath = .ok file) {field : Field}
    (hlist : field.isCliList = true) : ∀ c ∈ file, c.field ≠ field := by
  intro c hc
  by_cases hpath : configPath = []
  · rw [Surroundings.configChanges, if_pos hpath] at h
    obtain rfl := Except.ok.inj h
    exact absurd hc List.not_mem_nil
  · obtain ⟨lines, changes, -, hload, rfl⟩ := configChanges_eq_ok h hpath
    rcases List.mem_append.mp hc with hc | hc
    · exact isCliList_of_loadLines hload hlist c hc
    · rw [List.mem_singleton.mp hc]
      rintro rfl
      cases hlist

/-- Without the entries for rules, the configuration file does not fill the rules. -/
theorem smtRules_of_configChanges_withoutEntries {keys : List ConfigKey}
    (hkeys : .smt .rules ∈ keys)
    (h : (S.withoutEntries keys).configChanges configPath = .ok file) :
    ∀ c ∈ file, c.field ≠ .smtRules := by
  intro c hc
  by_cases hpath : configPath = []
  · rw [Surroundings.configChanges, if_pos hpath] at h
    obtain rfl := Except.ok.inj h
    exact absurd hc List.not_mem_nil
  · obtain ⟨lines, changes, hlines, hload, rfl⟩ := configChanges_eq_ok h hpath
    obtain ⟨lines, -, rfl⟩ := Option.map_eq_some_iff.mp hlines
    rw [loadLines_withoutEntries] at hload
    rcases List.mem_append.mp hc with hc | hc
    · exact smtRules_of_loadLines_withoutKeys hkeys hload c hc
    · rw [List.mem_singleton.mp hc]
      exact Field.noConfusion

/-- The rules after the configuration file. -/
theorem smtRules_of_configChanges {args : List CppString} {outMeta : PreParsedCliMeta}
    (hscan : preScanMetaOptions args ⟨[], false⟩ = .ok outMeta)
    (h : S.configChanges outMeta.configPath = .ok file) :
    applyAll (ParsedArguments.scanned outMeta) file .smtRules = S.configuredRules args := by
  simp only [Surroundings.configuredRules, hscan]
  split_ifs with hpath
  · rw [Surroundings.configChanges, if_pos hpath] at h
    obtain rfl := Except.ok.inj h
    rfl
  · obtain ⟨lines, changes, hlines, hload, rfl⟩ := configChanges_eq_ok h hpath
    rw [hlines, applyAll_append]
    exact smtRules_of_loadLines hload (ParsedArguments.scanned outMeta)

end Files

/-! ## When the command line overrides the file -/

section Override

variable {hardwareConcurrency : UInt32}

/-- The changes of the options of two parts of a command line. -/
theorem cliChanges_append {actions actions' : List (CliOption × CppString)} {cs : List Change}
    (h : cliChanges hardwareConcurrency (actions ++ actions') = .ok cs) :
    ∃ first rest, cliChanges hardwareConcurrency actions = .ok first ∧
      cliChanges hardwareConcurrency actions' = .ok rest ∧ cs = first ++ rest := by
  induction actions generalizing cs with
  | nil => exact ⟨[], cs, rfl, h, rfl⟩
  | cons action actions ih =>
    obtain ⟨own, others, hown, hothers, rfl⟩ := cliChanges_cons h
    obtain ⟨first, rest, hfirst, hrest, rfl⟩ := ih hothers
    refine ⟨own ++ first, rest, ?_, hrest, (List.append_assoc own first rest).symm⟩
    rw [cliChanges, hown, hfirst]
    rfl

/-- **A solver that is switched off stays off**, if no solver option follows. -/
theorem smtEnabled_of_cliChanges {before after : List (CliOption × CppString)} {value : CppString}
    {cs : List Change}
    (h : cliChanges hardwareConcurrency (before ++ (.smt .switch, value) :: after) = .ok cs)
    (hoff : parseSmtSwitch value = .ok false)
    (hafter : ∀ action ∈ after, ∀ spec, action.1 ≠ .smt spec) (parsed : ParsedArguments) :
    applyAll parsed cs .smtEnabled = false := by
  obtain ⟨first, rest, -, hrest, rfl⟩ := cliChanges_append h
  obtain ⟨own, others, hown, hothers, rfl⟩ := cliChanges_cons hrest
  have hassign : own = [.assign .smtEnabled false] := by
    simp only [CliOption.changes] at hown
    have happly := mapError_eq_ok hown
    simp only [SmtOption.applySmtOptionValue, SmtOption.apply, if_true, hoff] at happly
    exact (Except.ok.inj happly).symm
  subst hassign
  rw [applyAll_append, applyAll_append]
  have huntouched : ∀ c ∈ others, c.field ≠ .smtEnabled := by
    intro c hc henabled
    obtain ⟨action, haction, changes, hchanges, hc⟩ := exists_action_of_cliChanges hothers hc
    rcases CliOption.changes_cases hchanges hc with ⟨-, -, hsmt⟩ | hlist | ⟨-, hrules⟩
    · obtain ⟨spec, hspec⟩ := hsmt henabled
      exact hafter action haction spec hspec
    · rw [henabled] at hlist
      cases hlist
    · rw [henabled] at hrules
      cases hrules
  rw [applyAll_of_untouched huntouched]
  rfl

end Override

/-- **When the command line overrides the configuration file**: it lists no rules, or the
configuration file has none.

**Proof sketch.** After the command line, a field that it assigns does not depend on the file, and
no file changes a list that only the command line fills. The rules are those of the file and, behind
them, those of the command line, so they are what the command line lists exactly when the file has
none. -/
theorem overrides_iff {S : Surroundings} {args : List CppString} {parsed : ParsedArguments}
    (h : S.parseArguments args = .ok parsed) :
    Overrides S args parsed ↔
      ((∃ value, (.smt .rules, value) ∈ cliActions args) → S.configuredRules args = []) := by
  obtain ⟨outMeta, file, cs, hscan, hfile, hcs, rfl, hother⟩ := parseArguments_eq_ok h
  have hrules : applyAll (applyAll (ParsedArguments.scanned outMeta) file) cs .smtRules =
      S.configuredRules args ++ (cliActions args).flatMap listedRules := by
    rw [smtRules_of_cliChanges hcs, smtRules_of_configChanges hscan hfile]
  constructor
  · intro hoverrides hlists
    have hlisted := hoverrides.rulesListed hlists
    rw [hrules] at hlisted
    exact List.append_left_eq_self.mp hlisted
  · intro hempty
    refine ⟨?_, ?_, ?_⟩
    · intro action haction changes hchanges c hc
      obtain ⟨file', hfile'⟩ := exists_configChanges_withoutEntries hfile action.1.configKeys
      refine ⟨_, hother _ file' hfile', ?_⟩
      rcases CliOption.changes_cases hchanges hc with ⟨hassign, -, -⟩ | hlist | ⟨hoption, hfield⟩
      · exact applyAll_of_assigned (mem_cliChanges hcs haction hchanges hc) hassign _ _
      · refine applyAll_congr cs ?_
        rw [applyAll_of_untouched (isCliList_of_configChanges hfile hlist),
          applyAll_of_untouched (isCliList_of_configChanges hfile' hlist)]
      · have hlists : ∃ value, (.smt .rules, value) ∈ cliActions args :=
          ⟨action.2, hoption ▸ haction⟩
        have hkeys : ConfigKey.smt .rules ∈ action.1.configKeys := by
          rw [hoption]
          exact List.mem_singleton_self _
        rw [hfield]
        refine applyAll_congr cs ?_
        rw [smtRules_of_configChanges hscan hfile, hempty hlists,
          applyAll_of_untouched (smtRules_of_configChanges_withoutEntries hkeys hfile')]
        rfl
    · intro before value after hactions hoff hafter
      rw [hactions] at hcs
      exact smtEnabled_of_cliChanges hcs hoff hafter _
    · intro hlists
      rw [hrules, hempty hlists, List.nil_append]

/-! ## A file with rules -/

/-- A configuration file that lists one rule. -/
def oneRuleFile : Surroundings where
  readLines _ := some ["smt-rules=a".toList]
  parentPath _ := []
  currentPath := []
  lexicallyNormal path := path
  hardwareConcurrency := 1
  suggest _ := none

/-- The rules of the settings, where the command line is accepted. -/
def ParseResult.smtRules : ParseResult → Option (List CppString)
  | .ok parsed => some (parsed .smtRules)
  | _ => none

/-- The settings after the file of one rule and a switch that is off. -/
def switchedOff : ParsedArguments :=
  applyAll (applyAll (ParsedArguments.scanned ⟨['c'], false⟩)
    [.assign .smtRules [['a']], .assign .smtEnabled true, .assign .configPath ['c']])
    [.assign .configPath ['c'], .assign .smtEnabled false]

/-- A command line that lists no rules overrides the file of one rule. -/
theorem overrides_iff_switchedOff :
    Overrides oneRuleFile ["--config=c".toList, "--smt=off".toList] switchedOff ↔
      ((∃ value, (.smt .rules, value) ∈ cliActions ["--config=c".toList, "--smt=off".toList]) →
        oneRuleFile.configuredRules ["--config=c".toList, "--smt=off".toList] = []) :=
  overrides_iff rfl

/-- A command line that lists the rule `b` keeps the rule `a` of the configuration file. -/
theorem not_overrides_oneRuleFile :
    ¬ ∀ (S : Surroundings) (args : List CppString) (parsed : ParsedArguments),
      S.parseArguments args = .ok parsed → Overrides S args parsed := by
  intro hall
  have hrules : (oneRuleFile.parseArguments
      ["--config=c".toList, "--smt-rules=b".toList]).smtRules = some [['a'], ['b']] := by
    decide +kernel
  have hactions : cliActions ["--config=c".toList, "--smt-rules=b".toList] =
      [(.config, ['c']), (.smt .rules, ['b'])] := by
    decide +kernel
  cases hparse : oneRuleFile.parseArguments ["--config=c".toList, "--smt-rules=b".toList] with
  | help parsed =>
    rw [hparse] at hrules
    cases hrules
  | error message =>
    rw [hparse] at hrules
    cases hrules
  | ok parsed =>
    rw [hparse] at hrules
    have hlisted := (hall oneRuleFile _ parsed hparse).rulesListed
      ⟨['b'], by rw [hactions]; exact List.mem_cons_of_mem _ List.mem_cons_self⟩
    rw [hactions] at hlisted
    have htwo : parsed .smtRules = [['a'], ['b']] := Option.some.inj hrules
    rw [htwo] at hlisted
    cases hlisted

end StackAnalyzer.Cli
