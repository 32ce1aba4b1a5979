import StackAnalyzer.Cli.Settings

set_option relaxedAutoImplicit false
set_option autoImplicit false

/-!
# The configuration file

A configuration file is read line by line. Blank lines and comments are passed over; every other
line is an entry `key=value`, whose handler changes the settings.

## Main definitions

* `StackAnalyzer.Cli.Surroundings` — files, directories and the machine.
* `StackAnalyzer.Cli.ConfigKey`, `StackAnalyzer.Cli.Surroundings.applyConfigEntry` — the entries.
* `StackAnalyzer.Cli.Surroundings.loadConfigFile` — the changes of a file, or an error.
* `StackAnalyzer.Cli.withoutKeys` — the file without the entries of some keys.

## Main results

* `StackAnalyzer.Cli.field_of_applyConfigKey` — which fields an entry changes.
* `StackAnalyzer.Cli.exists_loadLines_withoutKeys` — without some entries a file can be loaded too.
* `StackAnalyzer.Cli.smtRules_of_loadLines` — the rules after a file.
-/

namespace StackAnalyzer.Cli

open App CrossTU Maps CompileCommands

/-- What the parser finds around it: the lines of the files that can be opened, the directories, the
normal form of a path, the number of processors, and what is suggested for an unknown option. -/
structure Surroundings where
  readLines : CppString → Option (List CppString)
  parentPath : CppString → CppString
  currentPath : CppString
  lexicallyNormal : CppString → CppString
  hardwareConcurrency : UInt32
  suggest : CppString → Option CppString

/-! ## Entries -/

/-- The keys of a configuration file. -/
inductive ConfigKey
  | resourceModel | escapeModel | bufferModel | compileCommands | analysisProfile | jobs | timing
  | warningsOnly | quiet | demangle | resourceCrossTU | uninitializedCrossTU
  | resourceSummaryMemoryOnly | includeCompdbDeps | smt (spec : SmtOption)
  | resourceSummaryCacheDir | compileIRCacheDir | compileIRFormat
  deriving DecidableEq

/-- The keys in front of those of the solver. -/
def firstKeys : List (String × ConfigKey) :=
  [("resource-model", .resourceModel), ("escape-model", .escapeModel),
    ("buffer-model", .bufferModel), ("compile-commands", .compileCommands),
    ("compdb", .compileCommands), ("analysis-profile", .analysisProfile), ("jobs", .jobs),
    ("timing", .timing), ("warnings-only", .warningsOnly), ("quiet", .quiet),
    ("demangle", .demangle), ("resource-cross-tu", .resourceCrossTU),
    ("uninitialized-cross-tu", .uninitializedCrossTU),
    ("resource-summary-cache-memory-only", .resourceSummaryMemoryOnly),
    ("include-compdb-deps", .includeCompdbDeps)]

/-- The keys of the solver. -/
def smtKeys : List (String × ConfigKey) :=
  [SmtOption.switch, .backend, .secondaryBackend, .mode, .timeout, .budget, .rules].map
    fun spec => (spec.configKey, .smt spec)

/-- The keys behind those of the solver. -/
def lastKeys : List (String × ConfigKey) :=
  [("resource-summary-cache-dir", .resourceSummaryCacheDir),
    ("compile-ir-cache-dir", .compileIRCacheDir), ("compile-ir-format", .compileIRFormat)]

/-- The keys by their texts, in the order in which they are tried. -/
def configKeys : List (String × ConfigKey) := firstKeys ++ smtKeys ++ lastKeys

/-- The spelling of a key: in lower case, with dashes. -/
def normalizeKey (keyRaw : CppString) : CppString :=
  (toLowerAsciiCopy (trimCopy keyRaw)).map fun c => if c = '_' then '-' else c

/-- The key with a text. -/
def configKeyOf (key : CppString) : Option ConfigKey :=
  (configKeys.find? fun entry => decide (entry.1.toList = key)).map Prod.snd

namespace Surroundings

variable (S : Surroundings)

/-- `resolveConfigRelativePath`. -/
def resolveConfigRelativePath (rawPath configDir : CppString) : CppString :=
  if rawPath = [] then rawPath
  else if !isRelative rawPath then S.lexicallyNormal rawPath
  else S.lexicallyNormal (joinPath configDir rawPath)

/-- The changes of an entry, or the error of its value, with the text in front of it. -/
def applyConfigKey (configDir value : CppString) :
    ConfigKey → Except (String × CppString) (List Change)
  | .resourceModel =>
    .ok [.assign .resourceModelPath (S.resolveConfigRelativePath value configDir)]
  | .escapeModel => .ok [.assign .escapeModelPath (S.resolveConfigRelativePath value configDir)]
  | .bufferModel => .ok [.assign .bufferModelPath (S.resolveConfigRelativePath value configDir)]
  | .compileCommands =>
    .ok [.assign .compileCommandsPath (S.resolveConfigRelativePath value configDir),
      .assign .compileCommandsExplicit true]
  | .analysisProfile =>
    (assignProfile (parseAnalysisProfile value)).mapError fun e =>
      ("invalid analysis profile: ", e)
  | .jobs =>
    (assignJobs (parseJobsValue S.hardwareConcurrency value)).mapError fun e =>
      ("invalid jobs value: ", e)
  | .timing =>
    (assignParsed .timing (parseBoolSwitch value)).mapError fun e => ("invalid timing value: ", e)
  | .warningsOnly =>
    (assignParsed .warningsOnly (parseBoolSwitch value)).mapError fun e =>
      ("invalid warnings-only value: ", e)
  | .quiet =>
    (assignParsed .quiet (parseBoolSwitch value)).mapError fun e => ("invalid quiet value: ", e)
  | .demangle =>
    (assignParsed .demangle (parseBoolSwitch value)).mapError fun e =>
      ("invalid demangle value: ", e)
  | .resourceCrossTU =>
    (assignParsed .resourceCrossTU (parseBoolSwitch value)).mapError fun e =>
      ("invalid resource-cross-tu value: ", e)
  | .uninitializedCrossTU =>
    (assignParsed .uninitializedCrossTU (parseBoolSwitch value)).mapError fun e =>
      ("invalid uninitialized-cross-tu value: ", e)
  | .resourceSummaryMemoryOnly =>
    (assignParsed .resourceSummaryMemoryOnly (parseBoolSwitch value)).mapError fun e =>
      ("invalid resource-summary-cache-memory-only value: ", e)
  | .includeCompdbDeps =>
    (assignParsed .includeCompdbDeps (parseBoolSwitch value)).mapError fun e =>
      ("invalid include-compdb-deps value: ", e)
  | .smt spec =>
    (spec.applySmtOptionValue value .config).mapError fun e =>
      ("invalid " ++ spec.configKey ++ " value: ", e)
  | .resourceSummaryCacheDir =>
    .ok [.assign .resourceSummaryCacheDir (S.resolveConfigRelativePath value configDir)]
  | .compileIRCacheDir =>
    .ok [.assign .compileIRCacheDir (S.resolveConfigRelativePath value configDir)]
  | .compileIRFormat =>
    (assignParsed .compileIRFormat (parseCompileIRFormat value)).mapError fun e =>
      ("invalid compile-ir-format value: ", e)

/-- `applyConfigEntry`. -/
def applyConfigEntry (keyRaw valueRaw configDir : CppString) : Except CppString (List Change) :=
  let key := normalizeKey keyRaw
  let value := stripOptionalQuotes (trimCopy valueRaw)
  if key = [] then .error "empty key".toList
  else
    match configKeyOf key with
    | none => .error ("unknown key '".toList ++ key ++ "'".toList)
    | some configKey =>
      (S.applyConfigKey configDir value configKey).mapError fun e => e.1.toList ++ e.2

end Surroundings

/-! ## Lines -/

/-- The line is passed over. -/
def isSkippedLine (trimmed : CppString) : Bool :=
  trimmed.isEmpty || ['#'].isPrefixOf trimmed || [';'].isPrefixOf trimmed ||
    ['/', '/'].isPrefixOf trimmed

/-- The texts before and after the first equality sign. -/
def splitEntry (trimmed : CppString) : Option (CppString × CppString) :=
  if '=' ∈ trimmed then
    some (trimCopy (trimmed.takeWhile (· ≠ '=')), trimCopy ((trimmed.dropWhile (· ≠ '=')).drop 1))
  else none

/-- A message with the number of its line. -/
def lineMessage (before : String) (lineNo : ℕ) (after : CppString) : CppString :=
  before.toList ++ Nat.toDigits 10 lineNo ++ after

namespace Surroundings

variable (S : Surroundings)

/-- The changes of a line, or an error. -/
def applyLine (baseDir : CppString) (lineNo : ℕ) (line : CppString) :
    Except CppString (List Change) :=
  let trimmed := trimCopy line
  if isSkippedLine trimmed then .ok []
  else
    match splitEntry trimmed with
    | none =>
      .error (lineMessage "Invalid config syntax at line " lineNo ": expected key=value".toList)
    | some (key, value) =>
      if key = [] then
        .error (lineMessage "Invalid config syntax at line " lineNo ": empty key".toList)
      else
        (S.applyConfigEntry key value baseDir).mapError fun e =>
          lineMessage "Invalid config entry at line " lineNo (": ".toList ++ e)

/-- The loop over the lines, with the number of lines before them. -/
def loadLines (baseDir : CppString) : ℕ → List CppString → Except CppString (List Change)
  | _, [] => .ok []
  | lineNo, line :: lines =>
    match S.applyLine baseDir (lineNo + 1) line with
    | .error e => .error e
    | .ok changes => (loadLines baseDir (lineNo + 1) lines).map fun rest => changes ++ rest

/-- The directory that the paths of a configuration file are relative to. -/
def baseDirOf (configPath : CppString) : CppString :=
  if S.parentPath configPath = [] then S.currentPath else S.parentPath configPath

/-- `loadConfigFile`. -/
def loadConfigFile (configPath : CppString) : Except CppString (List Change) :=
  match S.readLines configPath with
  | none => .error ("Unable to open config file: ".toList ++ configPath)
  | some lines => S.loadLines (S.baseDirOf configPath) 0 lines

end Surroundings

/-! ## Files without some entries -/

/-- The key of a line and the text of its value, if the line is an entry. -/
def lineEntry (line : CppString) : Option (ConfigKey × CppString) :=
  let trimmed := trimCopy line
  if isSkippedLine trimmed then none
  else
    (splitEntry trimmed).bind fun entry =>
      (configKeyOf (normalizeKey entry.1)).map fun key =>
        (key, stripOptionalQuotes (trimCopy entry.2))

/-- A line is an entry of one of some keys. -/
def hasKey (keys : List ConfigKey) (line : CppString) : Bool :=
  match lineEntry line with
  | some (key, _) => decide (key ∈ keys)
  | none => false

/-- The lines without the entries of some keys. -/
def withoutKeys (keys : List ConfigKey) (lines : List CppString) : List CppString :=
  lines.filter fun line => !hasKey keys line

/-! ## What the entries change -/

theorem mapError_eq_ok {E E' A : Type*} {x : Except E A} {g : E → E'} {a : A}
    (h : x.mapError g = .ok a) : x = .ok a := by
  cases x with
  | error e => cases h
  | ok b => exact congrArg Except.ok (Except.ok.inj h)

theorem eq_ok_of_applyConfigKey_smt {S : Surroundings} {configDir value : CppString}
    {spec : SmtOption} {changes : List Change}
    (h : S.applyConfigKey configDir value (.smt spec) = .ok changes) :
    spec.applySmtOptionValue value .config = .ok changes := by
  simp only [Surroundings.applyConfigKey] at h
  exact mapError_eq_ok h

/-- **What an entry changes**: no list of the command line, and the rules only as their entry. -/
theorem field_of_applyConfigKey {S : Surroundings} {configDir value : CppString}
    {key : ConfigKey} {changes : List Change}
    (h : S.applyConfigKey configDir value key = .ok changes) :
    ∀ c ∈ changes, c.field.isCliList = false ∧ (c.field = .smtRules → key = .smt .rules) := by
  -- an entry that assigns the text of one field
  have hassign : ∀ {field : Field} {v : Except CppString field.Value} {before : String},
      field.isCliList = false → field ≠ .smtRules →
        ((assignParsed field v).mapError fun e => (before, e)) = .ok changes →
          ∀ c ∈ changes, c.field.isCliList = false ∧ (c.field = .smtRules → key = .smt .rules) := by
    intro field v before hlist hne heq c hc
    obtain ⟨v', -, rfl⟩ := eq_of_assignParsed (mapError_eq_ok heq)
    rw [List.mem_singleton.mp hc]
    exact ⟨hlist, fun h => absurd h hne⟩
  cases key with
  | resourceModel | escapeModel | bufferModel | resourceSummaryCacheDir | compileIRCacheDir =>
    obtain rfl := Except.ok.inj h
    intro c hc
    rw [List.mem_singleton.mp hc]
    exact ⟨rfl, Field.noConfusion⟩
  | compileCommands =>
    obtain rfl := Except.ok.inj h
    intro c hc
    rcases List.mem_cons.mp hc with rfl | hc
    · exact ⟨rfl, Field.noConfusion⟩
    · rw [List.mem_singleton.mp hc]
      exact ⟨rfl, Field.noConfusion⟩
  | analysisProfile =>
    obtain ⟨v, -, rfl⟩ := map_eq_ok (mapError_eq_ok h)
    intro c hc
    rcases List.mem_cons.mp hc with rfl | hc
    · exact ⟨rfl, Field.noConfusion⟩
    · rw [List.mem_singleton.mp hc]
      exact ⟨rfl, Field.noConfusion⟩
  | jobs =>
    obtain ⟨v, -, rfl⟩ := map_eq_ok (mapError_eq_ok h)
    intro c hc
    rcases List.mem_cons.mp hc with rfl | hc
    · exact ⟨rfl, Field.noConfusion⟩
    · rw [List.mem_singleton.mp hc]
      exact ⟨rfl, Field.noConfusion⟩
  | timing => exact hassign rfl Field.noConfusion h
  | warningsOnly => exact hassign rfl Field.noConfusion h
  | quiet => exact hassign rfl Field.noConfusion h
  | demangle => exact hassign rfl Field.noConfusion h
  | resourceCrossTU => exact hassign rfl Field.noConfusion h
  | uninitializedCrossTU => exact hassign rfl Field.noConfusion h
  | resourceSummaryMemoryOnly => exact hassign rfl Field.noConfusion h
  | includeCompdbDeps => exact hassign rfl Field.noConfusion h
  | compileIRFormat => exact hassign rfl Field.noConfusion h
  | smt spec =>
    intro c hc
    obtain ⟨hlist, hrules⟩ :=
      SmtOption.field_of_applySmtOptionValue (eq_ok_of_applyConfigKey_smt h) c hc
    exact ⟨hlist, fun heq => by rw [hrules heq]⟩

/-! ## Lines that are accepted -/

section Lines

variable {S : Surroundings} {baseDir : CppString}

/-- **What an accepted line is**: a line that is passed over, or an entry. -/
theorem applyLine_cases {lineNo : ℕ} {line : CppString} {changes : List Change}
    (h : S.applyLine baseDir lineNo line = .ok changes) :
    (lineEntry line = none ∧ changes = []) ∨ ∃ key value, lineEntry line = some (key, value) ∧
      S.applyConfigKey baseDir value key = .ok changes := by
  simp only [Surroundings.applyLine] at h
  unfold lineEntry
  dsimp only
  split_ifs at h ⊢ with hskip
  · exact Or.inl ⟨rfl, (Except.ok.inj h).symm⟩
  · cases hsplit : splitEntry (trimCopy line) with
    | none =>
      rw [hsplit] at h
      cases h
    | some entry =>
      rw [hsplit] at h
      dsimp only at h
      split_ifs at h
      have hentry := mapError_eq_ok h
      simp only [Surroundings.applyConfigEntry] at hentry
      split_ifs at hentry
      cases hkey : configKeyOf (normalizeKey entry.1) with
      | none =>
        rw [hkey] at hentry
        cases hentry
      | some key =>
        rw [hkey] at hentry
        refine Or.inr ⟨key, _, ?_, mapError_eq_ok hentry⟩
        simp only [Option.bind_some, hkey, Option.map_some]

/-- The number of a line matters to errors only. -/
theorem applyLine_lineNo {lineNo : ℕ} {line : CppString} {changes : List Change}
    (h : S.applyLine baseDir lineNo line = .ok changes) (lineNo' : ℕ) :
    S.applyLine baseDir lineNo' line = .ok changes := by
  simp only [Surroundings.applyLine] at h ⊢
  split_ifs at h ⊢
  · exact h
  · cases hsplit : splitEntry (trimCopy line) with
    | none =>
      rw [hsplit] at h
      cases h
    | some entry =>
      rw [hsplit] at h
      dsimp only at h ⊢
      split_ifs at h ⊢
      rw [mapError_eq_ok h]
      rfl

/-- The loop over an accepted line and the lines after it. -/
theorem loadLines_cons {lineNo : ℕ} {line : CppString} {lines : List CppString}
    {changes : List Change} (h : S.loadLines baseDir lineNo (line :: lines) = .ok changes) :
    ∃ first rest, S.applyLine baseDir (lineNo + 1) line = .ok first ∧
      S.loadLines baseDir (lineNo + 1) lines = .ok rest ∧ changes = first ++ rest := by
  rw [Surroundings.loadLines] at h
  cases hline : S.applyLine baseDir (lineNo + 1) line with
  | error e =>
    rw [hline] at h
    cases h
  | ok first =>
    rw [hline] at h
    obtain ⟨rest, hrest, rfl⟩ := map_eq_ok h
    exact ⟨first, rest, rfl, hrest, rfl⟩

/-- A change of a file is a change of one of its entries. -/
theorem exists_entry_of_loadLines {lineNo : ℕ} {lines : List CppString} {changes : List Change}
    (h : S.loadLines baseDir lineNo lines = .ok changes) {c : Change} (hc : c ∈ changes) :
    ∃ line ∈ lines, ∃ key value own, lineEntry line = some (key, value) ∧
      S.applyConfigKey baseDir value key = .ok own ∧ c ∈ own := by
  induction lines generalizing lineNo changes with
  | nil =>
    obtain rfl := Except.ok.inj h
    exact absurd hc List.not_mem_nil
  | cons line lines ih =>
    obtain ⟨first, rest, hfirst, hrest, rfl⟩ := loadLines_cons h
    rcases List.mem_append.mp hc with hc | hc
    · rcases applyLine_cases hfirst with ⟨-, rfl⟩ | ⟨key, value, hentry, happly⟩
      · exact absurd hc List.not_mem_nil
      · exact ⟨line, List.mem_cons_self, key, value, first, hentry, happly, hc⟩
    · obtain ⟨line', hline', hexists⟩ := ih hrest hc
      exact ⟨line', List.mem_cons_of_mem line hline', hexists⟩

/-- Without the entries of some keys a file can be loaded as well. -/
theorem exists_loadLines_withoutKeys {lineNo : ℕ} {lines : List CppString} {changes : List Change}
    (h : S.loadLines baseDir lineNo lines = .ok changes) (keys : List ConfigKey) (lineNo' : ℕ) :
    ∃ changes', S.loadLines baseDir lineNo' (withoutKeys keys lines) = .ok changes' := by
  induction lines generalizing lineNo changes lineNo' with
  | nil => exact ⟨[], rfl⟩
  | cons line lines ih =>
    obtain ⟨first, rest, hfirst, hrest, rfl⟩ := loadLines_cons h
    unfold withoutKeys at ih ⊢
    rw [List.filter_cons]
    split_ifs
    · obtain ⟨rest', hrest'⟩ := ih hrest (lineNo' + 1)
      refine ⟨first ++ rest', ?_⟩
      rw [Surroundings.loadLines, applyLine_lineNo hfirst, hrest']
      rfl
    · exact ih hrest lineNo'

/-- No list of the command line is changed. -/
theorem isCliList_of_loadLines {lineNo : ℕ} {lines : List CppString} {changes : List Change}
    (h : S.loadLines baseDir lineNo lines = .ok changes) {field : Field}
    (hlist : field.isCliList = true) : ∀ c ∈ changes, c.field ≠ field := by
  rintro c hc rfl
  obtain ⟨line, -, key, value, own, -, happly, hc⟩ := exists_entry_of_loadLines h hc
  rw [(field_of_applyConfigKey happly c hc).1] at hlist
  cases hlist

/-- Without the entries of the rules, the rules are not changed. -/
theorem smtRules_of_loadLines_withoutKeys {lineNo : ℕ} {lines : List CppString}
    {keys : List ConfigKey} (hkeys : .smt .rules ∈ keys) {changes : List Change}
    (h : S.loadLines baseDir lineNo (withoutKeys keys lines) = .ok changes) :
    ∀ c ∈ changes, c.field ≠ .smtRules := by
  intro c hc hrules
  obtain ⟨line, hline, key, value, own, hentry, happly, hc⟩ := exists_entry_of_loadLines h hc
  have hkey := (field_of_applyConfigKey happly c hc).2 hrules
  have hnot := (List.mem_filter.mp hline).2
  unfold hasKey at hnot
  rw [hentry] at hnot
  dsimp only at hnot
  rw [hkey, decide_eq_true hkeys] at hnot
  cases hnot

end Lines

/-! ## The rules of a file -/

/-- The rules after a line. -/
def rulesAfterLine (rules : List CppString) (line : CppString) : List CppString :=
  match lineEntry line with
  | some (.smt .rules, value) => csvItems value
  | _ => rules

/-- **The rules of a configuration file**: those of its last entry for rules. -/
def configuredRules (lines : List CppString) : List CppString := lines.foldl rulesAfterLine []

/-- The rules after a file. -/
theorem smtRules_of_loadLines {S : Surroundings} {baseDir : CppString} {lineNo : ℕ}
    {lines : List CppString} {changes : List Change}
    (h : S.loadLines baseDir lineNo lines = .ok changes) (parsed : ParsedArguments) :
    applyAll parsed changes .smtRules = lines.foldl rulesAfterLine (parsed .smtRules) := by
  induction lines generalizing lineNo changes parsed with
  | nil =>
    obtain rfl := Except.ok.inj h
    rfl
  | cons line lines ih =>
    obtain ⟨first, rest, hfirst, hrest, rfl⟩ := loadLines_cons h
    rw [applyAll_append, ih hrest, List.foldl_cons]
    congr 1
    unfold rulesAfterLine
    rcases applyLine_cases hfirst with ⟨hentry, rfl⟩ | ⟨key, value, hentry, happly⟩
    · rw [hentry]
      rfl
    · rw [hentry]
      by_cases hkey : key = .smt .rules
      · subst hkey
        obtain rfl := Except.ok.inj (eq_ok_of_applyConfigKey_smt happly)
        rfl
      · have hsame : applyAll parsed first .smtRules = parsed .smtRules :=
          applyAll_of_untouched (fun c hc hrules =>
            hkey ((field_of_applyConfigKey happly c hc).2 hrules)) parsed
        rw [hsame]
        split
        · rename_i heq
          cases heq
          exact absurd rfl hkey
        · rfl

end StackAnalyzer.Cli
