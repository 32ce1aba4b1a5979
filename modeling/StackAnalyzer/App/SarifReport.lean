import StackAnalyzer.App.JsonReport

set_option relaxedAutoImplicit false
set_option autoImplicit false

/-!
# The SARIF report

The report lists the rules of the diagnostics, sorted, and the diagnostics as results. This file
reads it back and shows that rules and results belong together.

## Main definitions

* `StackAnalyzer.App.collectRules` — the rules, through a map from identifiers to places.
* `StackAnalyzer.App.toSarif` — the report. `StackAnalyzer.App.sarifJson` — its value.
* `StackAnalyzer.App.decodeSarif` — what a reader takes from the value.

## Main results

* `StackAnalyzer.App.mem_collectRules_iff` — the rules, with the first weakness of each.
* `StackAnalyzer.App.parseJson_toSarif` — the report is one JSON value.
* `StackAnalyzer.App.toSarif_closed` — the report is closed.
-/

namespace StackAnalyzer.App

open CrossTU Formats

/-! ## Rules -/

/-- `SarifRuleEntry`. -/
structure SarifRuleEntry where
  id : CppString
  cweId : CppString
  deriving DecidableEq

/-- A weakness for a rule that has none. -/
def SarifRuleEntry.withCwe (rule : SarifRuleEntry) (cweId : CppString) : SarifRuleEntry :=
  if rule.cweId.isEmpty && !cweId.isEmpty then { rule with cweId := cweId } else rule

@[simp] theorem SarifRuleEntry.id_withCwe (rule : SarifRuleEntry) (cweId : CppString) :
    (rule.withCwe cweId).id = rule.id := by
  unfold SarifRuleEntry.withCwe
  split <;> rfl

/-- The rules so far, and the map from their identifiers to their places. -/
structure RuleTable where
  rules : List SarifRuleEntry := []
  ruleIndices : List (CppString × ℕ) := []

/-- One round of the loop that collects the rules. -/
def RuleTable.add (table : RuleTable) (d : Diagnostic) : RuleTable :=
  let rid := resolveRuleId d
  match Maps.lookup table.ruleIndices rid with
  | none =>
    { rules := table.rules ++ [⟨rid, d.cweId⟩]
      ruleIndices := table.ruleIndices ++ [(rid, table.rules.length)] }
  | some i =>
    { table with rules := table.rules.modify i (·.withCwe d.cweId) }

/-- The rules, in the order in which their diagnostics come. -/
def collectRules (diagnostics : List Diagnostic) : List SarifRuleEntry :=
  (diagnostics.foldl RuleTable.add {}).rules

/-- The rules of the report: `std::sort` by their identifiers. -/
def sarifRules (diagnostics : List Diagnostic) : List SarifRuleEntry :=
  (collectRules diagnostics).mergeSort fun lhs rhs => decide (lhs.id ≤ rhs.id)

/-! ## The report -/

/-- `severityToSarifLevel`. -/
def severityToSarifLevel : DiagnosticSeverity → CppString
  | .info => "note".toList
  | .warning => "warning".toList
  | .error => "error".toList

/-- What `toSarif` is given beside the result. The canonical form of a path comes from the file
system, which has none for some paths. -/
structure SarifContext where
  inputFile : CppString
  toolName : CppString
  toolVersion : CppString
  baseDir : CppString
  canonical : CppString → Option CppString

/-- `stripBase`. -/
def SarifContext.stripBase (ctx : SarifContext) (path : CppString) : CppString :=
  if ctx.baseDir.isEmpty then path
  else
    let base := (ctx.canonical ctx.baseDir).getD ctx.baseDir
    let base := if !base.isEmpty && decide (base.getLast? ≠ some '/') then base ++ ['/'] else base
    if base.isPrefixOf path then path.drop base.length else path

/-- The URI of a diagnostic. -/
def SarifContext.uri (ctx : SarifContext) (d : Diagnostic) : CppString :=
  ctx.stripBase (if d.filePath.isEmpty then ctx.inputFile else d.filePath)

/-- A position, which begins with one. -/
def sarifPosition (n : UInt32) : UInt32 := if 0 < n then n else 1

/-- The record of a rule. -/
def ruleText (rule : SarifRuleEntry) : CppString :=
  List.replicate 12 ' ' ++ objectText 12
    (line 14 "id" (jsonString rule.id) [',', '\n'] ::
      if !rule.cweId.isEmpty then
        [line 14 "shortDescription" (inlineText "text" (jsonString rule.id)) [',', '\n'],
          line 14 "properties"
            (objectText 14 [line 16 "tags" (stringsText [rule.cweId]) ['\n']]) ['\n']]
      else [line 14 "shortDescription" (inlineText "text" (jsonString rule.id)) ['\n']])

/-- The lines of the properties of a result. -/
def propertyLines (d : Diagnostic) : List CppString :=
  (if d.confidence.isNonnegative then
    [line 12 "confidence" (formatConfidence d.confidence)
      (if !d.cweId.isEmpty then [',', '\n'] else ['\n'])]
    else []) ++
    if !d.cweId.isEmpty then [line 12 "cwe" (jsonString d.cweId) ['\n']] else []

/-- The lines of a place. -/
def locationText (ctx : SarifContext) (d : Diagnostic) : CppString :=
  objectText 14
    [line 16 "artifactLocation" (inlineText "uri" (jsonString (ctx.uri d))) [',', '\n'],
      line 16 "region"
        (objectText 16
          [line 18 "startLine" (decimal (sarifPosition d.line).toNat) [',', '\n'],
            line 18 "startColumn" (decimal (sarifPosition d.column).toNat) ['\n']]) ['\n']]

/-- The record of a result. -/
def sarifResultText (ctx : SarifContext) (d : Diagnostic) : CppString :=
  List.replicate 8 ' ' ++ objectText 8
    ([line 10 "ruleId" (jsonString (resolveRuleId d)) [',', '\n'],
        line 10 "level" (jsonString (severityToSarifLevel d.severity)) [',', '\n'],
        line 10 "message" (inlineText "text" (jsonString d.message)) [',', '\n']] ++
      ((if d.confidence.isNonnegative || !d.cweId.isEmpty then
          [line 10 "properties" (objectText 10 (propertyLines d)) [',', '\n']]
        else []) ++
        [line 10 "locations"
          (arrayText 10
            [List.replicate 12 ' ' ++
              objectText 12 [line 14 "physicalLocation" (locationText ctx d) ['\n']]]) ['\n']]))

/-- The schema of the report. -/
def sarifSchema : CppString :=
  "https://schemastore.azurewebsites.net/schemas/json/sarif-2.1.0.json".toList

/-- `toSarif`. -/
def toSarif (ctx : SarifContext) (result : AnalysisResult) : CppString :=
  objectText 0
    [line 2 "version" (jsonString "2.1.0".toList) [',', '\n'],
      line 2 "$schema" (jsonString sarifSchema) [',', '\n'],
      line 2 "runs"
        (arrayText 2
          [List.replicate 4 ' ' ++ objectText 4
            [line 6 "tool"
                (objectText 6
                  [line 8 "driver"
                    (objectText 8
                      [line 10 "name" (jsonString ctx.toolName) [',', '\n'],
                        line 10 "version" (jsonString ctx.toolVersion) [',', '\n'],
                        line 10 "rules"
                          (arrayText 10 ((sarifRules result.diagnostics).map ruleText)) ['\n']])
                    ['\n']]) [',', '\n'],
              line 6 "results"
                (arrayText 6 (result.diagnostics.map (sarifResultText ctx))) ['\n']]]) ['\n']] ++
    ['\n']

/-! ## The value of the report -/

/-- The value of a rule. -/
def ruleJson (rule : SarifRuleEntry) : Json :=
  .object
    (jsonMember "id" (.string rule.id) ::
      jsonMember "shortDescription" (.object [jsonMember "text" (.string rule.id)]) ::
      if !rule.cweId.isEmpty then
        [jsonMember "properties"
          (.object [jsonMember "tags" (.array ([rule.cweId].map .string))])]
      else [])

/-- The members of the properties of a result. -/
def propertyMembers (d : Diagnostic) : Members :=
  (if d.confidence.isNonnegative then
    [jsonMember "confidence" (formatConfidenceJson d.confidence)] else []) ++
    if !d.cweId.isEmpty then [jsonMember "cwe" (.string d.cweId)] else []

/-- The value of a place. -/
def locationJson (ctx : SarifContext) (d : Diagnostic) : Json :=
  .object
    [jsonMember "artifactLocation" (.object [jsonMember "uri" (.string (ctx.uri d))]),
      jsonMember "region" (.object
        [jsonMember "startLine" (.integer (sarifPosition d.line).toNat),
          jsonMember "startColumn" (.integer (sarifPosition d.column).toNat)])]

/-- The value of a result. -/
def sarifResultJson (ctx : SarifContext) (d : Diagnostic) : Json :=
  .object
    ([jsonMember "ruleId" (.string (resolveRuleId d)),
        jsonMember "level" (.string (severityToSarifLevel d.severity)),
        jsonMember "message" (.object [jsonMember "text" (.string d.message)])] ++
      ((if d.confidence.isNonnegative || !d.cweId.isEmpty then
          [jsonMember "properties" (.object (propertyMembers d))]
        else []) ++
        [jsonMember "locations"
          (.array [.object [jsonMember "physicalLocation" (locationJson ctx d)]])]))

/-- **The value of the report.** -/
def sarifJson (ctx : SarifContext) (result : AnalysisResult) : Json :=
  .object
    [jsonMember "version" (.string "2.1.0".toList),
      jsonMember "$schema" (.string sarifSchema),
      jsonMember "runs" (.array [.object
        [jsonMember "tool" (.object
            [jsonMember "driver" (.object
              [jsonMember "name" (.string ctx.toolName),
                jsonMember "version" (.string ctx.toolVersion),
                jsonMember "rules" (.array ((sarifRules result.diagnostics).map ruleJson))])]),
          jsonMember "results" (.array (result.diagnostics.map (sarifResultJson ctx)))]])]

/-- The record of a rule. -/
theorem lexes_ruleText (rule : SarifRuleEntry) :
    Lexes .between (ruleText rule) (tokens (ruleJson rule)) .between := by
  unfold ruleText ruleJson
  refine (MemberLines.lexes_objectText ?_ 12).indented 12
  refine .line (isText_jsonString _) ?_
  split_ifs
  · refine .line (isText_inlineText "text" (isText_jsonString _)) (.lastLine ?_)
    exact MemberLines.isText_objectText (.lastLine (isText_stringsText _)) 14
  · exact .lastLine (isText_inlineText "text" (isText_jsonString _))

/-- The lines of the properties of a result that has some. -/
theorem memberLines_propertyLines {d : Diagnostic}
    (h : (d.confidence.isNonnegative || !d.cweId.isEmpty) = true) :
    MemberLines (propertyLines d) (propertyMembers d) := by
  unfold propertyLines propertyMembers
  cases hcwe : d.cweId.isEmpty with
  | true =>
    rw [hcwe] at h
    have hconfidence : d.confidence.isNonnegative = true := by simpa using h
    rw [hconfidence]
    exact .lastLine (isText_formatConfidence _)
  | false =>
    cases d.confidence.isNonnegative with
    | true => exact .line (isText_formatConfidence _) (.lastLine (isText_jsonString _))
    | false => exact .lastLine (isText_jsonString _)

/-- A place. -/
theorem isText_locationText (ctx : SarifContext) (d : Diagnostic) :
    IsText (locationText ctx d) (locationJson ctx d) := by
  unfold locationText locationJson
  refine MemberLines.isText_objectText ?_ 14
  refine .line (isText_inlineText "uri" (isText_jsonString _)) (.lastLine ?_)
  refine MemberLines.isText_objectText ?_ 16
  exact .line (isText_decimal _) (.lastLine (isText_decimal _))

/-- The record of a result. -/
theorem lexes_sarifResultText (ctx : SarifContext) (d : Diagnostic) :
    Lexes .between (sarifResultText ctx d) (tokens (sarifResultJson ctx d)) .between := by
  have hplaces : MemberLines
      [line 10 "locations" (arrayText 10 [List.replicate 12 ' ' ++
        objectText 12 [line 14 "physicalLocation" (locationText ctx d) ['\n']]]) ['\n']]
      [jsonMember "locations"
        (.array [.object [jsonMember "physicalLocation" (locationJson ctx d)]])] := by
    refine .lastLine (isText_arrayText 10 (.cons ?_ .nil))
    refine (MemberLines.lexes_objectText ?_ 12).indented 12
    exact .lastLine (isText_locationText ctx d)
  unfold sarifResultText sarifResultJson
  refine (MemberLines.lexes_objectText ?_ 8).indented 8
  refine .line (isText_jsonString _) (.line (isText_jsonString _) ?_)
  refine .line (isText_inlineText "text" (isText_jsonString _)) ?_
  by_cases hproperties : (d.confidence.isNonnegative || !d.cweId.isEmpty) = true
  · rw [if_pos hproperties, if_pos hproperties]
    exact .line (MemberLines.isText_objectText (memberLines_propertyLines hproperties) 10) hplaces
  · rw [if_neg hproperties, if_neg hproperties]
    exact hplaces

/-- **The report is one JSON value.** -/
theorem parseJson_toSarif (ctx : SarifContext) (result : AnalysisResult) :
    parseJson (toSarif ctx result) = some (sarifJson ctx result) := by
  have hrules : List.Forall₂ (fun text v => Lexes .between text (tokens v) .between)
      ((sarifRules result.diagnostics).map ruleText)
      ((sarifRules result.diagnostics).map ruleJson) := by
    rw [List.forall₂_map_left_iff, List.forall₂_map_right_iff]
    exact List.forall₂_same.mpr fun rule _ => lexes_ruleText rule
  have hresults : List.Forall₂ (fun text v => Lexes .between text (tokens v) .between)
      (result.diagnostics.map (sarifResultText ctx))
      (result.diagnostics.map (sarifResultJson ctx)) := by
    rw [List.forall₂_map_left_iff, List.forall₂_map_right_iff]
    exact List.forall₂_same.mpr fun d _ => lexes_sarifResultText ctx d
  apply parseJson_of_lexes
  unfold toSarif sarifJson
  refine (MemberLines.lexes_objectText ?_ 0).newline
  refine .line (isText_jsonString _) (.line (isText_jsonString _) (.lastLine ?_))
  refine isText_arrayText 2 (.cons ?_ .nil)
  refine (MemberLines.lexes_objectText ?_ 4).indented 4
  refine .line (MemberLines.isText_objectText (.lastLine ?_) 6)
    (.lastLine (isText_arrayText 6 hresults))
  refine MemberLines.isText_objectText ?_ 8
  exact .line (isText_jsonString _) (.line (isText_jsonString _)
    (.lastLine (isText_arrayText 10 hrules)))

/-! ## Reading a report -/

/-- What a report says about a rule. -/
structure ReportedRule where
  id : CppString
  tags : List CppString

/-- What a report says about a result. -/
structure ReportedResult where
  ruleId : CppString
  level : CppString
  message : CppString
  uri : CppString
  startLine : ℤ
  startColumn : ℤ

/-- What a report says. -/
structure SarifLog where
  rules : List ReportedRule
  results : List ReportedResult

/-- The first element of an array. -/
def readFirst {A : Type*} (read : Json → Option A) (v : Json) : Option A :=
  v.getAsArray.bind fun vs => vs.head?.bind read

/-- Read the record of a rule. Without properties there are no tags. -/
def decodeRule (v : Json) : Option ReportedRule := do
  let id ← readMember v "id" Json.getAsString
  let tags := readMember v "properties" fun properties =>
    readMember properties "tags" (readAll Json.getAsString)
  return ⟨id, tags.getD []⟩

/-- Read the record of a result. -/
def decodeResult (v : Json) : Option ReportedResult := do
  let ruleId ← readMember v "ruleId" Json.getAsString
  let level ← readMember v "level" Json.getAsString
  let message ← readMember v "message" fun text => readMember text "text" Json.getAsString
  let place ← readMember v "locations" (readFirst fun place =>
    readMember place "physicalLocation" some)
  let uri ← readMember place "artifactLocation" fun artifact =>
    readMember artifact "uri" Json.getAsString
  let region ← readMember place "region" some
  let startLine ← readMember region "startLine" Json.getAsInteger
  let startColumn ← readMember region "startColumn" Json.getAsInteger
  return ⟨ruleId, level, message, uri, startLine, startColumn⟩

/-- Read a report. -/
def decodeSarif (v : Json) : Option SarifLog := do
  let firstRun ← readMember v "runs" (readFirst some)
  let rules ← readMember firstRun "tool" fun tool => readMember tool "driver" fun driver =>
    readMember driver "rules" (readAll decodeRule)
  let results ← readMember firstRun "results" (readAll decodeResult)
  return ⟨rules, results⟩

/-- What the report says about a rule. -/
def reportedRule (rule : SarifRuleEntry) : ReportedRule :=
  ⟨rule.id, if rule.cweId.isEmpty then [] else [rule.cweId]⟩

/-- What the report says about a diagnostic. -/
def reportedResult (ctx : SarifContext) (d : Diagnostic) : ReportedResult :=
  ⟨resolveRuleId d, severityToSarifLevel d.severity, d.message, ctx.uri d,
    (sarifPosition d.line).toNat, (sarifPosition d.column).toNat⟩

/-- The record of a rule is read. -/
theorem decodeRule_ruleJson (rule : SarifRuleEntry) :
    decodeRule (ruleJson rule) = some (reportedRule rule) := by
  unfold ruleJson decodeRule reportedRule
  have hstrings := readAll_strings [rule.cweId]
  cases hcwe : rule.cweId.isEmpty with
  | true => simp
  | false =>
    simp only [Bool.not_false, if_true, Bool.false_eq_true, if_false]
    rw [readMember_head, readMember_skip (by decide), readMember_skip (by decide),
      readMember_head, readMember_head, hstrings]
    rfl

/-- The record of a result is read. -/
theorem decodeResult_sarifResultJson (ctx : SarifContext) (d : Diagnostic) :
    decodeResult (sarifResultJson ctx d) = some (reportedResult ctx d) := by
  unfold sarifResultJson decodeResult reportedResult locationJson
  split_ifs <;> simp [readFirst, Json.getAsArray]

/-- **What a reader takes from the value of the report.** -/
theorem decodeSarif_sarifJson (ctx : SarifContext) (result : AnalysisResult) :
    decodeSarif (sarifJson ctx result) =
      some ⟨(sarifRules result.diagnostics).map reportedRule,
        result.diagnostics.map (reportedResult ctx)⟩ := by
  have hrules : readAll decodeRule (.array ((sarifRules result.diagnostics).map ruleJson)) =
      some ((sarifRules result.diagnostics).map reportedRule) := by
    apply mapM_of_forall₂
    rw [List.forall₂_map_left_iff, List.forall₂_map_right_iff]
    exact List.forall₂_same.mpr fun rule _ => decodeRule_ruleJson rule
  have hresults : readAll decodeResult (.array (result.diagnostics.map (sarifResultJson ctx))) =
      some (result.diagnostics.map (reportedResult ctx)) := by
    apply mapM_of_forall₂
    rw [List.forall₂_map_left_iff, List.forall₂_map_right_iff]
    exact List.forall₂_same.mpr fun d _ => decodeResult_sarifResultJson ctx d
  simp [decodeSarif, sarifJson, readFirst, Json.getAsArray, hrules, hresults]

/-! ## The rules of the diagnostics -/

/-- The first weakness, in order, of the diagnostics of a rule. -/
def firstCwe (diagnostics : List Diagnostic) (rid : CppString) : Option CppString :=
  (diagnostics.find? fun d => decide (resolveRuleId d = rid) && !d.cweId.isEmpty).map
    Diagnostic.cweId

/-- The table of some diagnostics: every rule stands at the place that the map says, and it has the
first weakness of its diagnostics. -/
structure RuleTable.Collected (table : RuleTable) (diagnostics : List Diagnostic) : Prop where
  places : ∀ rid i, Maps.lookup table.ruleIndices rid = some i ↔
    ∃ rule, table.rules[i]? = some rule ∧ rule.id = rid
  seen : ∀ rid, (Maps.lookup table.ruleIndices rid).isSome = true ↔
    ∃ d ∈ diagnostics, resolveRuleId d = rid
  cwe : ∀ rule ∈ table.rules, rule.cweId = (firstCwe diagnostics rule.id).getD []

/-- One more diagnostic. -/
theorem firstCwe_append (diagnostics : List Diagnostic) (d : Diagnostic) (rid : CppString) :
    firstCwe (diagnostics ++ [d]) rid =
      (firstCwe diagnostics rid).or
        (if resolveRuleId d = rid ∧ d.cweId ≠ [] then some d.cweId else none) := by
  unfold firstCwe
  rw [List.find?_append]
  cases diagnostics.find? fun d => decide (resolveRuleId d = rid) && !d.cweId.isEmpty with
  | some e => rfl
  | none =>
    by_cases hd : resolveRuleId d = rid ∧ d.cweId ≠ []
    · simp [hd]
    · rw [if_neg hd]
      simp only [List.find?_singleton]
      simp_all

/-- The empty table. -/
theorem collected_nil : RuleTable.Collected {} [] where
  places := by simp [Maps.lookup]
  seen := by simp [Maps.lookup]
  cwe := by simp

/-- A rule that no diagnostic has has no weakness. -/
theorem firstCwe_eq_none {diagnostics : List Diagnostic} {rid : CppString}
    (h : ¬ ∃ d ∈ diagnostics, resolveRuleId d = rid) : firstCwe diagnostics rid = none := by
  unfold firstCwe
  rw [Option.map_eq_none_iff, List.find?_eq_none]
  intro d hd hmatch
  rw [Bool.and_eq_true, decide_eq_true_iff] at hmatch
  exact h ⟨d, hd, hmatch.1⟩

/-- The first weakness is one. -/
theorem firstCwe_ne_nil {diagnostics : List Diagnostic} {rid c : CppString}
    (h : firstCwe diagnostics rid = some c) : c ≠ [] := by
  obtain ⟨d, hd, rfl⟩ := Option.map_eq_some_iff.mp h
  have hmatch := List.find?_some hd
  rw [Bool.and_eq_true] at hmatch
  simpa using hmatch.2

/-- The places of a list with one more element. -/
theorem getElem?_concat_eq_some {A : Type*} (l : List A) (x a : A) (i : ℕ) :
    (l ++ [x])[i]? = some a ↔ l[i]? = some a ∨ i = l.length ∧ x = a := by
  rcases lt_trichotomy i l.length with hi | hi | hi
  · rw [List.getElem?_append_left hi]
    simp [hi.ne]
  · subst hi
    simp
  · rw [List.getElem?_eq_none (by simp; omega), List.getElem?_eq_none (by omega)]
    simp [hi.ne']

/-- A diagnostic of a rule that is new. -/
theorem RuleTable.Collected.add_new {table : RuleTable} {diagnostics : List Diagnostic}
    (h : table.Collected diagnostics) {d : Diagnostic}
    (hnew : Maps.lookup table.ruleIndices (resolveRuleId d) = none) :
    (table.add d).Collected (diagnostics ++ [d]) := by
  have hid : ∀ rule ∈ table.rules, rule.id ≠ resolveRuleId d := by
    intro rule hrule heq
    obtain ⟨i, hi⟩ := List.mem_iff_getElem?.mp hrule
    have := (h.places (resolveRuleId d) i).mpr ⟨rule, hi, heq⟩
    rw [hnew] at this
    exact absurd this (by simp)
  have hadd : table.add d =
      ⟨table.rules ++ [⟨resolveRuleId d, d.cweId⟩],
        table.ruleIndices ++ [(resolveRuleId d, table.rules.length)]⟩ := by
    simp [RuleTable.add, hnew]
  rw [hadd]
  constructor
  · intro rid i
    rw [Maps.lookup_append]
    simp only [getElem?_concat_eq_some]
    by_cases hrid : rid = resolveRuleId d
    · subst hrid
      simp only [hnew, Option.none_or, Maps.lookup, if_true, Option.some_inj]
      constructor
      · rintro rfl
        exact ⟨_, Or.inr ⟨rfl, rfl⟩, rfl⟩
      · rintro ⟨rule, hrule | ⟨rfl, rfl⟩, hruleId⟩
        · exact absurd hruleId (hid rule (List.mem_of_getElem? hrule))
        · rfl
    · rw [show Maps.lookup [(resolveRuleId d, table.rules.length)] rid = none by
        simp [Maps.lookup, Ne.symm hrid], Option.or_none, h.places]
      refine exists_congr fun rule => and_congr_left fun hruleId => (or_iff_left ?_).symm
      rintro ⟨-, rfl⟩
      exact hrid hruleId.symm
  · intro rid
    rw [Maps.lookup_append, Option.isSome_or, Bool.or_eq_true, h.seen]
    by_cases hrid : resolveRuleId d = rid <;> simp [Maps.lookup, hrid, or_and_right, exists_or]
  · intro rule hrule
    rw [firstCwe_append]
    rcases List.mem_append.mp hrule with hrule | hrule
    · rw [if_neg fun hd => hid rule hrule hd.1.symm, Option.or_none]
      exact h.cwe rule hrule
    · obtain rfl := List.mem_singleton.mp hrule
      rw [firstCwe_eq_none fun hd => by
        rw [← h.seen, hnew] at hd
        exact absurd hd (by simp)]
      by_cases hcwe : d.cweId = [] <;> simp [hcwe]

/-- A diagnostic of a rule that is there. -/
theorem RuleTable.Collected.add_known {table : RuleTable} {diagnostics : List Diagnostic}
    (h : table.Collected diagnostics) {d : Diagnostic} {i : ℕ}
    (hplace : Maps.lookup table.ruleIndices (resolveRuleId d) = some i) :
    (table.add d).Collected (diagnostics ++ [d]) := by
  have hadd : table.add d =
      ⟨table.rules.modify i (·.withCwe d.cweId), table.ruleIndices⟩ := by
    simp [RuleTable.add, hplace]
  have hunique : ∀ j rule, table.rules[j]? = some rule → rule.id = resolveRuleId d → i = j := by
    intro j rule hrule hruleId
    have := (h.places _ j).mpr ⟨rule, hrule, hruleId⟩
    exact Option.some.inj (hplace.symm.trans this)
  obtain ⟨found, hfound, hfoundId⟩ := (h.places _ _).mp hplace
  rw [hadd]
  constructor
  · intro rid j
    rw [h.places, List.getElem?_modify]
    constructor
    · rintro ⟨rule, hrule, rfl⟩
      refine ⟨if i = j then rule.withCwe d.cweId else rule, by rw [hrule]; rfl, ?_⟩
      split_ifs
      · rw [SarifRuleEntry.id_withCwe]
      · rfl
    · rintro ⟨rule, hrule, rfl⟩
      obtain ⟨rule', hrule', rfl⟩ := Option.map_eq_some_iff.mp hrule
      refine ⟨rule', hrule', ?_⟩
      split_ifs
      · rw [SarifRuleEntry.id_withCwe]
      · rfl
  · intro rid
    rw [h.seen]
    have hseen := (h.seen (resolveRuleId d)).mp (by rw [hplace]; rfl)
    constructor
    · rintro ⟨e, he, hrid⟩
      exact ⟨e, List.mem_append_left _ he, hrid⟩
    · rintro ⟨e, he, rfl⟩
      rcases List.mem_append.mp he with he | he
      · exact ⟨e, he, rfl⟩
      · obtain rfl := List.mem_singleton.mp he
        exact hseen
  · intro rule hrule
    obtain ⟨j, hj⟩ := List.mem_iff_getElem?.mp hrule
    rw [List.getElem?_modify] at hj
    obtain ⟨rule', hrule', rfl⟩ := Option.map_eq_some_iff.mp hj
    have hcwe := h.cwe rule' (List.mem_of_getElem? hrule')
    by_cases hij : i = j
    · subst hij
      obtain rfl := Option.some.inj (hfound.symm.trans hrule')
      rw [if_pos rfl, SarifRuleEntry.id_withCwe, firstCwe_append, ← hfoundId]
      cases hfirst : firstCwe diagnostics found.id with
      | none =>
        rw [hfirst, Option.getD_none] at hcwe
        by_cases hd : d.cweId = [] <;> simp [SarifRuleEntry.withCwe, hcwe, hd]
      | some c =>
        rw [hfirst, Option.getD_some] at hcwe
        have hne := firstCwe_ne_nil hfirst
        simp [SarifRuleEntry.withCwe, hcwe, hne]
    · have hne : resolveRuleId d ≠ rule'.id := fun heq => hij (hunique j rule' hrule' heq.symm)
      rw [if_neg hij, firstCwe_append, if_neg fun hd => hne hd.1, Option.or_none]
      exact hcwe

/-- One more diagnostic. -/
theorem RuleTable.Collected.add {table : RuleTable} {diagnostics : List Diagnostic}
    (h : table.Collected diagnostics) (d : Diagnostic) :
    (table.add d).Collected (diagnostics ++ [d]) := by
  cases hplace : Maps.lookup table.ruleIndices (resolveRuleId d) with
  | none => exact h.add_new hplace
  | some i => exact h.add_known hplace

/-- All diagnostics, one after the other. -/
theorem collected_foldl (diagnostics : List Diagnostic) :
    (diagnostics.foldl RuleTable.add {}).Collected diagnostics := by
  induction diagnostics using List.reverseRecOn with
  | nil => exact collected_nil
  | append_singleton ds d ih =>
    rw [List.foldl_append]
    exact ih.add d

/-- **The rules, with the first weakness of each.** -/
theorem mem_collectRules_iff (diagnostics : List Diagnostic) (rule : SarifRuleEntry) :
    rule ∈ collectRules diagnostics ↔
      (∃ d ∈ diagnostics, resolveRuleId d = rule.id) ∧
        rule.cweId = (firstCwe diagnostics rule.id).getD [] := by
  have h := collected_foldl diagnostics
  have hids : (∃ other ∈ collectRules diagnostics, other.id = rule.id) ↔
      ∃ d ∈ diagnostics, resolveRuleId d = rule.id := by
    rw [← h.seen, Option.isSome_iff_exists]
    constructor
    · rintro ⟨other, hother, hid⟩
      obtain ⟨i, hi⟩ := List.mem_iff_getElem?.mp hother
      exact ⟨i, (h.places _ i).mpr ⟨other, hi, hid⟩⟩
    · rintro ⟨i, hi⟩
      obtain ⟨other, hother, hid⟩ := (h.places _ i).mp hi
      exact ⟨other, List.mem_of_getElem? hother, hid⟩
  constructor
  · intro hrule
    exact ⟨hids.mp ⟨rule, hrule, rfl⟩, h.cwe rule hrule⟩
  · rintro ⟨hd, hcwe⟩
    obtain ⟨other, hother, hid⟩ := hids.mpr hd
    have heq : other = rule := by
      have hother' := h.cwe other hother
      rw [hid, ← hcwe] at hother'
      cases other
      cases rule
      simp_all
    exact heq ▸ hother

/-- The identifiers of the rules are distinct. -/
theorem nodup_collectRules (diagnostics : List Diagnostic) :
    ((collectRules diagnostics).map SarifRuleEntry.id).Nodup := by
  have h := collected_foldl diagnostics
  rw [List.nodup_iff_getElem?_ne_getElem?]
  intro i j hij hj heq
  rw [List.length_map] at hj
  have hi := (List.getElem?_eq_getElem (hij.trans hj) : (collectRules diagnostics)[i]? = _)
  have hj' := (List.getElem?_eq_getElem hj : (collectRules diagnostics)[j]? = _)
  rw [List.getElem?_map, List.getElem?_map, hi, hj'] at heq
  have hplaceI := (h.places _ i).mpr ⟨_, hi, rfl⟩
  have hplaceJ := (h.places _ j).mpr ⟨_, hj', rfl⟩
  rw [Option.map_some, Option.map_some, Option.some_inj] at heq
  rw [heq, hplaceJ] at hplaceI
  exact hij.ne' (Option.some.inj hplaceI)

/-- The rules of the report are those of the diagnostics. -/
theorem perm_sarifRules (diagnostics : List Diagnostic) :
    (sarifRules diagnostics).Perm (collectRules diagnostics) :=
  List.mergeSort_perm _ _

/-- **The rules of the report are sorted**, with distinct identifiers. -/
theorem pairwise_sarifRules (diagnostics : List Diagnostic) :
    ((sarifRules diagnostics).map SarifRuleEntry.id).Pairwise (· < ·) := by
  have hnodup : ((sarifRules diagnostics).map SarifRuleEntry.id).Nodup :=
    ((perm_sarifRules diagnostics).map _).nodup_iff.mpr (nodup_collectRules diagnostics)
  have hsorted : (sarifRules diagnostics).Pairwise fun a b => a.id ≤ b.id := by
    have := @List.pairwise_mergeSort _ (fun lhs rhs : SarifRuleEntry => decide (lhs.id ≤ rhs.id))
      (fun a b c hab hbc => by
        rw [decide_eq_true_iff] at *
        exact le_trans hab hbc)
      (fun a b => by simpa using le_total a.id b.id) (collectRules diagnostics)
    simpa [sarifRules] using this
  rw [List.pairwise_map]
  rw [List.nodup_iff_pairwise_ne, List.pairwise_map] at hnodup
  exact (hsorted.and hnodup).imp fun h => lt_of_le_of_ne h.1 h.2

/-! ## The report is closed -/

/-- The positions of a result begin with one. -/
theorem one_le_sarifPosition (n : UInt32) : (1 : ℤ) ≤ (sarifPosition n).toNat := by
  unfold sarifPosition
  split_ifs with hn
  · have : 0 < n.toNat := by simpa [UInt32.lt_iff_toNat_lt] using hn
    omega
  · simp

/-- **A closed report**: the rules are sorted, and no identifier is there twice; every result has
exactly one rule and every rule a result; the results are those of the diagnostics, in order; the
tags of a rule are the first weakness of its diagnostics; the positions begin with one. -/
structure SarifLog.Closed (log : SarifLog) (ctx : SarifContext) (diagnostics : List Diagnostic) :
    Prop where
  sorted : (log.rules.map ReportedRule.id).Pairwise (· < ·)
  hasRule : ∀ result ∈ log.results, ∃! rule, rule ∈ log.rules ∧ rule.id = result.ruleId
  isUsed : ∀ rule ∈ log.rules, ∃ result ∈ log.results, result.ruleId = rule.id
  inOrder : log.results = diagnostics.map (reportedResult ctx)
  tags : ∀ rule ∈ log.rules, rule.tags = (firstCwe diagnostics rule.id).toList
  tagged : ∀ rule ∈ log.rules, rule.tags ≠ [] ↔
    ∃ d ∈ diagnostics, resolveRuleId d = rule.id ∧ d.cweId ≠ []
  positions : ∀ result ∈ log.results, 1 ≤ result.startLine ∧ 1 ≤ result.startColumn

/-- A rule with the first weakness of its diagnostics has it as its only tag. -/
theorem tags_reportedRule {diagnostics : List Diagnostic} {rule : SarifRuleEntry}
    (h : rule.cweId = (firstCwe diagnostics rule.id).getD []) :
    (reportedRule rule).tags = (firstCwe diagnostics rule.id).toList := by
  unfold reportedRule
  cases hfirst : firstCwe diagnostics rule.id with
  | none =>
    rw [hfirst, Option.getD_none] at h
    simp [h]
  | some c =>
    rw [hfirst, Option.getD_some] at h
    simp [h, firstCwe_ne_nil hfirst]

/-- There is a first weakness if there is one. -/
theorem firstCwe_ne_none_iff (diagnostics : List Diagnostic) (rid : CppString) :
    firstCwe diagnostics rid ≠ none ↔
      ∃ d ∈ diagnostics, resolveRuleId d = rid ∧ d.cweId ≠ [] := by
  unfold firstCwe
  rw [Ne, Option.map_eq_none_iff, List.find?_eq_none]
  push Not
  simp

/-- The report of a result is closed. -/
theorem closed_sarif (ctx : SarifContext) (diagnostics : List Diagnostic) :
    SarifLog.Closed
      ⟨(sarifRules diagnostics).map reportedRule, diagnostics.map (reportedResult ctx)⟩ ctx
      diagnostics := by
  have hmem : ∀ rule, rule ∈ sarifRules diagnostics ↔
      (∃ d ∈ diagnostics, resolveRuleId d = rule.id) ∧
        rule.cweId = (firstCwe diagnostics rule.id).getD [] := by
    intro rule
    rw [(perm_sarifRules diagnostics).mem_iff, mem_collectRules_iff]
  have htags : ∀ rule ∈ (sarifRules diagnostics).map reportedRule,
      rule.tags = (firstCwe diagnostics rule.id).toList := by
    intro rule hrule
    obtain ⟨entry, hentry, rfl⟩ := List.mem_map.mp hrule
    exact tags_reportedRule ((hmem entry).mp hentry).2
  refine ⟨?_, ?_, ?_, rfl, htags, ?_, ?_⟩
  · rw [List.map_map]
    exact pairwise_sarifRules diagnostics
  · intro result hresult
    obtain ⟨d, hd, rfl⟩ := List.mem_map.mp hresult
    refine ⟨reportedRule ⟨resolveRuleId d, (firstCwe diagnostics (resolveRuleId d)).getD []⟩,
      ⟨List.mem_map.mpr ⟨_, (hmem _).mpr ⟨⟨d, hd, rfl⟩, rfl⟩, rfl⟩, rfl⟩, ?_⟩
    rintro rule ⟨hrule, hid⟩
    obtain ⟨entry, hentry, rfl⟩ := List.mem_map.mp hrule
    have hcwe := ((hmem entry).mp hentry).2
    have hentryId : entry.id = resolveRuleId d := hid
    rw [← hentryId, ← hcwe]
  · intro rule hrule
    obtain ⟨entry, hentry, rfl⟩ := List.mem_map.mp hrule
    obtain ⟨d, hd, hid⟩ := ((hmem entry).mp hentry).1
    exact ⟨_, List.mem_map.mpr ⟨d, hd, rfl⟩, hid⟩
  · intro rule hrule
    rw [htags rule hrule, ← firstCwe_ne_none_iff]
    cases firstCwe diagnostics rule.id <;> simp
  · intro result hresult
    obtain ⟨d, hd, rfl⟩ := List.mem_map.mp hresult
    exact ⟨one_le_sarifPosition d.line, one_le_sarifPosition d.column⟩

/-- **SARIF reports are well-formed and closed**: the text is one JSON value, and what a reader
takes from it is closed.

**Proof sketch.** `parseJson_toSarif` says which value the text is, `decodeSarif_sarifJson` what a
reader takes from it, and `closed_sarif` that this is closed: the table of the rules has the first
weakness of each rule after every diagnostic. -/
theorem toSarif_closed (ctx : SarifContext) (result : AnalysisResult) :
    ∃ v log, parseJson (toSarif ctx result) = some v ∧ decodeSarif v = some log ∧
      log.Closed ctx result.diagnostics := by
  refine ⟨_, _, parseJson_toSarif ctx result, decodeSarif_sarifJson ctx result, ?_⟩
  exact closed_sarif ctx result.diagnostics

end StackAnalyzer.App
