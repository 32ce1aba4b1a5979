import StackAnalyzer.App.Results
import StackAnalyzer.Formats.JsonParser

set_option relaxedAutoImplicit false
set_option autoImplicit false

/-!
# The JSON report

The report is written line by line, with its strings escaped by hand. This file reads it back: the
text is one JSON value, and the value has the functions and the diagnostics of the result.

## Main definitions

* `StackAnalyzer.App.jsonEscape`, `StackAnalyzer.App.formatConfidence` — the texts of values.
* `StackAnalyzer.App.toJsonImpl` — the report.
* `StackAnalyzer.App.reportJson` — the value that the report is.
* `StackAnalyzer.App.decodeReport` — what a reader takes from the value.

## Main results

* `StackAnalyzer.App.parseJson_toJsonImpl` — the report is one JSON value.
* `StackAnalyzer.App.decodeReport_reportJson` — what a reader takes from it.
* `StackAnalyzer.App.toJson_gives_back` — the report gives back the result.
-/

namespace StackAnalyzer.App

open CrossTU Formats

/-! ## Texts of values -/

/-- One character of `jsonEscape`. -/
def jsonEscapeChar (c : Char) : CppString :=
  if c = '\\' then ['\\', '\\']
  else if c = '"' then ['\\', '"']
  else if c = '\n' then ['\\', 'n']
  else if c = '\r' then ['\\', 'r']
  else if c = '\t' then ['\\', 't']
  else if c.toNat < 0x20 then
    ['\\', 'u', '0', '0', Nat.digitChar (c.toNat / 16), Nat.digitChar (c.toNat % 16)]
  else [c]

/-- `jsonEscape`. -/
def jsonEscape (s : CppString) : CppString := s.flatMap jsonEscapeChar

/-- `jsonEscape`, of the bytes of a string: one byte. -/
def jsonEscapeByte (b : UInt8) : List UInt8 :=
  if b = 0x5c then [0x5c, 0x5c]
  else if b = 0x22 then [0x5c, 0x22]
  else if b = 0x0a then [0x5c, 0x6e]
  else if b = 0x0d then [0x5c, 0x72]
  else if b = 0x09 then [0x5c, 0x74]
  else if b < 0x20 then
    [0x5c, 0x75, 0x30, 0x30, UInt8.ofNat (Nat.digitChar (b.toNat / 16)).toNat,
      UInt8.ofNat (Nat.digitChar (b.toNat % 16)).toNat]
  else [b]

/-- The bytes of a string, in UTF-8. -/
def utf8 (s : CppString) : List UInt8 := s.flatMap String.utf8EncodeChar

/-- A string between quotation marks. -/
def jsonString (s : CppString) : CppString := '"' :: jsonEscape s ++ ['"']

/-- A truth value. -/
def jsonBoolean (b : Bool) : CppString :=
  if b then ['t', 'r', 'u', 'e'] else ['f', 'a', 'l', 's', 'e']

/-- `null`. -/
def jsonNull : CppString := ['n', 'u', 'l', 'l']

/-- `resolveRuleId`. -/
def resolveRuleId (d : Diagnostic) : CppString :=
  if !d.ruleId.isEmpty then d.ruleId else d.errCode.enumToString

/-- A number rounded to an integer, to an even one where two of them are equally close. -/
def roundHalfEven (q : ℚ≥0) : ℕ :=
  let below := q.num / q.den
  let twice := 2 * (q.num % q.den)
  if twice < q.den ∨ (twice = q.den ∧ below % 2 = 0) then below else below + 1

/-- The value in hundredths, without its sign. -/
def FiniteDouble.hundredths (x : FiniteDouble) : ℕ := roundHalfEven (x.magnitude * 100)

/-- `formatConfidence`: fixed notation with two digits after the point. -/
def formatConfidence (x : FiniteDouble) : CppString :=
  (if x.negative then ['-'] else []) ++ Nat.toDigits 10 (x.hundredths / 100) ++
    ['.', Nat.digitChar (x.hundredths % 100 / 10), Nat.digitChar (x.hundredths % 10)]

/-! ## The report -/

/-- A path of a record, or that of the input file where the record has none. -/
def reportedPath (inputFile : Option CppString) (path : CppString) : CppString :=
  if path.isEmpty then inputFile.getD path else path

/-- A size, if it is known. -/
def stackText (unknown : Bool) (size : UInt64) : CppString :=
  if unknown then jsonNull else decimal size.toNat

/-- A lower bound of a size that is not known. -/
def lowerBoundText (unknown : Bool) (size : UInt64) : CppString :=
  if unknown && decide (0 < size) then decimal size.toNat else jsonNull

/-- The record of a function. -/
def functionText (inputFile : Option CppString) (f : FunctionResult) : CppString :=
  List.replicate 4 ' ' ++ objectText 4
    [line 6 "file" (jsonString (reportedPath inputFile f.filePath)) [',', '\n'],
      line 6 "name" (jsonString f.name) [',', '\n'],
      line 6 "localStack" (stackText f.localStackUnknown f.localStack) [',', '\n'],
      line 6 "localStackLowerBound" (lowerBoundText f.localStackUnknown f.localStack) [',', '\n'],
      line 6 "localStackUnknown" (jsonBoolean f.localStackUnknown) [',', '\n'],
      line 6 "maxStack" (stackText f.maxStackUnknown f.maxStack) [',', '\n'],
      line 6 "maxStackLowerBound" (lowerBoundText f.maxStackUnknown f.maxStack) [',', '\n'],
      line 6 "maxStackUnknown" (jsonBoolean f.maxStackUnknown) [',', '\n'],
      line 6 "hasDynamicAlloca" (jsonBoolean f.hasDynamicAlloca) [',', '\n'],
      line 6 "isRecursive" (jsonBoolean f.isRecursive) [',', '\n'],
      line 6 "hasInfiniteSelfRecursion" (jsonBoolean f.hasInfiniteSelfRecursion) [',', '\n'],
      line 6 "exceedsLimit" (jsonBoolean f.exceedsLimit) ['\n']]

/-- The texts of strings in one line. -/
def stringsText (strings : List CppString) : CppString :=
  ['['] ++ (separate [',', ' '] [] (strings.map jsonString) ++ [']'])

/-- The confidence, if it is set. -/
def confidenceText (confidence : FiniteDouble) : CppString :=
  if confidence.isNonnegative then formatConfidence confidence else jsonNull

/-- The weakness, if there is one. -/
def cweText (cweId : CppString) : CppString :=
  if !cweId.isEmpty then jsonString cweId else jsonNull

/-- The record of a diagnostic, which has a number. -/
def diagnosticText (inputFile : Option CppString) (i : ℕ) (d : Diagnostic) : CppString :=
  List.replicate 4 ' ' ++ objectText 4
    [line 6 "id" (jsonString ("diag-".toList ++ decimal (i + 1))) [',', '\n'],
      line 6 "severity" (jsonString d.severity.enumToString) [',', '\n'],
      line 6 "ruleId" (jsonString (resolveRuleId d)) [',', '\n'],
      line 6 "confidence" (confidenceText d.confidence) [',', '\n'],
      line 6 "cwe" (cweText d.cweId) [',', '\n'],
      line 6 "location"
        (objectText 6
          [line 8 "file" (jsonString (reportedPath inputFile d.filePath)) [',', '\n'],
            line 8 "function" (jsonString d.funcName) [',', '\n'],
            line 8 "startLine" (decimal d.line.toNat) [',', '\n'],
            line 8 "startColumn" (decimal d.column.toNat) [',', '\n'],
            line 8 "endLine" (decimal d.endLine.toNat) [',', '\n'],
            line 8 "endColumn" (decimal d.endColumn.toNat) ['\n']]) [',', '\n'],
      line 6 "details"
        (objectText 6
          [line 8 "message" (jsonString d.message) [',', '\n'],
            line 8 "variableAliasing" (stringsText d.variableAliasingVec) ['\n']]) ['\n']]

/-- The line of the input files, if there are any. -/
def inputLines (inputFile : Option CppString) (inputFiles : Option (List CppString)) :
    List CppString :=
  match inputFiles, inputFile with
  | some (file :: files), _ => [line 4 "inputFiles" (stringsText (file :: files)) [',', '\n']]
  | _, some file => [line 4 "inputFile" (jsonString file) [',', '\n']]
  | _, none => []

/-- The name of a mode. -/
def modeText (mode : AnalysisMode) : CppString :=
  match mode with
  | .ir => "IR".toList
  | .abi => "ABI".toList

/-- `toJsonImpl`. -/
def toJsonImpl (result : AnalysisResult) (inputFile : Option CppString)
    (inputFiles : Option (List CppString)) : CppString :=
  let summary := summarizeDiagnostics result.diagnostics
  objectText 0
    [line 2 "meta"
        (objectText 1
          (line 4 "tool" (jsonString "ctrace-stack-analyzer".toList) [',', '\n'] ::
            (inputLines inputFile inputFiles ++
              [line 4 "mode" (jsonString (modeText result.config.mode)) [',', '\n'],
                line 4 "stackLimit" (decimal result.config.stackLimit.toNat) [',', '\n'],
                line 4 "analysisTimeMs" ['-', '1'] ['\n']]))) [',', '\n'],
      line 2 "functions" (arrayText 2 (result.functions.map (functionText inputFile))) [',', '\n'],
      line 2 "diagnostics"
        (arrayText 2 (result.diagnostics.mapIdx (diagnosticText inputFile))) [',', '\n'],
      line 2 "diagnosticsSummary"
        (objectText 2
          [line 4 "info" (decimal summary.info) [',', '\n'],
            line 4 "warning" (decimal summary.warning) [',', '\n'],
            line 4 "error" (decimal summary.error) ['\n']]) ['\n']] ++ ['\n']

/-- What a report is about: one input file or several ones. -/
inductive ReportInputs
  | file (inputFile : CppString)
  | files (inputFiles : List CppString)

/-- The input file, where there is one. -/
def ReportInputs.inputFile : ReportInputs → Option CppString
  | .file inputFile => some inputFile
  | .files _ => none

/-- The input files, where there are several ones. -/
def ReportInputs.inputFiles : ReportInputs → Option (List CppString)
  | .file _ => none
  | .files inputFiles => some inputFiles

/-- `toJson`, of both kinds. -/
def toJson (result : AnalysisResult) (inputs : ReportInputs) : CppString :=
  toJsonImpl result inputs.inputFile inputs.inputFiles

/-! ## The value of the report -/

/-- The value of a size. -/
def stackJson (unknown : Bool) (size : UInt64) : Json :=
  if unknown then .null else .integer size.toNat

/-- The value of a lower bound. -/
def lowerBoundJson (unknown : Bool) (size : UInt64) : Json :=
  if unknown && decide (0 < size) then .integer size.toNat else .null

/-- The value of the record of a function. -/
def functionJson (inputFile : Option CppString) (f : FunctionResult) : Json :=
  .object
    [jsonMember "file" (.string (reportedPath inputFile f.filePath)),
      jsonMember "name" (.string f.name),
      jsonMember "localStack" (stackJson f.localStackUnknown f.localStack),
      jsonMember "localStackLowerBound" (lowerBoundJson f.localStackUnknown f.localStack),
      jsonMember "localStackUnknown" (.boolean f.localStackUnknown),
      jsonMember "maxStack" (stackJson f.maxStackUnknown f.maxStack),
      jsonMember "maxStackLowerBound" (lowerBoundJson f.maxStackUnknown f.maxStack),
      jsonMember "maxStackUnknown" (.boolean f.maxStackUnknown),
      jsonMember "hasDynamicAlloca" (.boolean f.hasDynamicAlloca),
      jsonMember "isRecursive" (.boolean f.isRecursive),
      jsonMember "hasInfiniteSelfRecursion" (.boolean f.hasInfiniteSelfRecursion),
      jsonMember "exceedsLimit" (.boolean f.exceedsLimit)]

/-- The value of a confidence that is set. -/
def formatConfidenceJson (x : FiniteDouble) : Json :=
  .number (formatConfidence x)
    (NumberParts.asInteger ⟨x.negative, Nat.toDigits 10 (x.hundredths / 100),
      some [Nat.digitChar (x.hundredths % 100 / 10), Nat.digitChar (x.hundredths % 10)], none⟩)

/-- The value of a confidence. -/
def confidenceJson (confidence : FiniteDouble) : Json :=
  if confidence.isNonnegative then formatConfidenceJson confidence else .null

/-- The value of a weakness. -/
def cweJson (cweId : CppString) : Json := if !cweId.isEmpty then .string cweId else .null

/-- The value of the record of a diagnostic. -/
def diagnosticJson (inputFile : Option CppString) (i : ℕ) (d : Diagnostic) : Json :=
  .object
    [jsonMember "id" (.string ("diag-".toList ++ decimal (i + 1))),
      jsonMember "severity" (.string d.severity.enumToString),
      jsonMember "ruleId" (.string (resolveRuleId d)),
      jsonMember "confidence" (confidenceJson d.confidence),
      jsonMember "cwe" (cweJson d.cweId),
      jsonMember "location" (.object
        [jsonMember "file" (.string (reportedPath inputFile d.filePath)),
          jsonMember "function" (.string d.funcName),
          jsonMember "startLine" (.integer d.line.toNat),
          jsonMember "startColumn" (.integer d.column.toNat),
          jsonMember "endLine" (.integer d.endLine.toNat),
          jsonMember "endColumn" (.integer d.endColumn.toNat)]),
      jsonMember "details" (.object
        [jsonMember "message" (.string d.message),
          jsonMember "variableAliasing" (.array (d.variableAliasingVec.map .string))])]

/-- The members about the input files. -/
def inputMembers (inputFile : Option CppString) (inputFiles : Option (List CppString)) : Members :=
  match inputFiles, inputFile with
  | some (file :: files), _ => [jsonMember "inputFiles" (.array ((file :: files).map .string))]
  | _, some file => [jsonMember "inputFile" (.string file)]
  | _, none => []

/-- The value of what the report is about. -/
def metaJson (result : AnalysisResult) (inputFile : Option CppString)
    (inputFiles : Option (List CppString)) : Json :=
  .object
    (jsonMember "tool" (.string "ctrace-stack-analyzer".toList) ::
      (inputMembers inputFile inputFiles ++
        [jsonMember "mode" (.string (modeText result.config.mode)),
          jsonMember "stackLimit" (.integer result.config.stackLimit.toNat),
          jsonMember "analysisTimeMs" (.integer (-1))]))

/-- **The value of the report.** -/
def reportJson (result : AnalysisResult) (inputFile : Option CppString)
    (inputFiles : Option (List CppString)) : Json :=
  let summary := summarizeDiagnostics result.diagnostics
  .object
    [jsonMember "meta" (metaJson result inputFile inputFiles),
      jsonMember "functions" (.array (result.functions.map (functionJson inputFile))),
      jsonMember "diagnostics" (.array (result.diagnostics.mapIdx (diagnosticJson inputFile))),
      jsonMember "diagnosticsSummary" (.object
        [jsonMember "info" (.integer summary.info),
          jsonMember "warning" (.integer summary.warning),
          jsonMember "error" (.integer summary.error)])]

/-! ## The report is one value -/

/-! ### Bytes -/

/-- A byte of a longer character stays. -/
theorem jsonEscapeByte_of_le {b : UInt8} (hb : 0x80 ≤ b.toNat) : jsonEscapeByte b = [b] := by
  have hne : ∀ d : UInt8, d.toNat < 0x80 → b ≠ d := by
    rintro d hd rfl
    omega
  have hlt : ¬ b < 0x20 := by
    rw [UInt8.lt_iff_toNat_lt]
    simp
    omega
  simp [jsonEscapeByte, hne 0x5c (by decide), hne 0x22 (by decide), hne 0x0a (by decide),
    hne 0x0d (by decide), hne 0x09 (by decide), hlt]

/-- The bytes of a longer character. -/
theorem le_toNat_of_mem_utf8EncodeChar {c : Char} (hc : 0x80 ≤ c.toNat) {b : UInt8}
    (hb : b ∈ String.utf8EncodeChar c) : 0x80 ≤ b.toNat := by
  have hval : c.val.toNat = c.toNat := rfl
  unfold String.utf8EncodeChar at hb
  dsimp only at hb
  rw [hval, if_neg (by omega)] at hb
  split_ifs at hb
  all_goals
    simp only [List.mem_cons, List.not_mem_nil, or_false] at hb
    rcases hb with rfl | rfl | rfl | rfl <;> simp only [UInt8.toNat_ofNat'] <;> omega

/-- The characters of one byte. -/
theorem jsonEscapeByte_ascii : ∀ n < 0x80,
    (String.utf8EncodeChar (Char.ofNat n)).flatMap jsonEscapeByte =
      utf8 (jsonEscapeChar (Char.ofNat n)) := by
  decide +kernel

/-- A longer character stays. -/
theorem jsonEscapeChar_of_le {c : Char} (hc : 0x80 ≤ c.toNat) : jsonEscapeChar c = [c] := by
  have hne : ∀ d : Char, d.toNat < 0x80 → c ≠ d := by
    rintro d hd rfl
    omega
  have hlt : ¬ c.toNat < 0x20 := by omega
  simp [jsonEscapeChar, hne '\\' (by decide), hne '"' (by decide), hne '\n' (by decide),
    hne '\r' (by decide), hne '\t' (by decide), hlt]

/-- The bytes of one character. -/
theorem jsonEscapeByte_utf8EncodeChar (c : Char) :
    (String.utf8EncodeChar c).flatMap jsonEscapeByte = utf8 (jsonEscapeChar c) := by
  rcases lt_or_ge c.toNat 0x80 with hc | hc
  · have h := jsonEscapeByte_ascii c.toNat hc
    rwa [Char.ofNat_toNat] at h
  · have hbytes : ∀ b ∈ String.utf8EncodeChar c, jsonEscapeByte b = [b] :=
      fun b hb => jsonEscapeByte_of_le (le_toNat_of_mem_utf8EncodeChar hc hb)
    rw [List.flatMap_congr hbytes, jsonEscapeChar_of_le hc, List.flatMap_singleton', utf8,
      List.flatMap_singleton]

/-- **Escaping goes byte by byte**, and the bytes of a character that has several ones stay. -/
theorem utf8_jsonEscape (s : CppString) :
    (utf8 s).flatMap jsonEscapeByte = utf8 (jsonEscape s) := by
  unfold utf8 jsonEscape
  rw [List.flatMap_assoc, List.flatMap_assoc]
  exact List.flatMap_congr fun c _ => jsonEscapeByte_utf8EncodeChar c

/-! ### Texts -/

/-- The escapes are those of JSON. -/
theorem jsonString_eq (s : CppString) : jsonString s = Json.quote s := by
  have hchar : ∀ c, jsonEscapeChar c = quoteChar c := by
    intro c
    unfold jsonEscapeChar quoteChar Json.escapeControl
    split_ifs <;> simp_all
  unfold jsonString jsonEscape Json.quote
  rw [funext hchar]
  rfl

/-- A string. -/
theorem isText_jsonString (s : CppString) : IsText (jsonString s) (.string s) := by
  rw [jsonString_eq]
  exact isText_quote s

/-- A truth value. -/
theorem isText_jsonBoolean (b : Bool) : IsText (jsonBoolean b) (.boolean b) := by
  cases b
  · exact isText_false
  · exact isText_true

/-- A number. -/
theorem isText_decimal (n : ℕ) : IsText (decimal n) (.integer n) := isText_toDigits n

/-- A size. -/
theorem isText_stackText (unknown : Bool) (size : UInt64) :
    IsText (stackText unknown size) (stackJson unknown size) := by
  unfold stackText stackJson
  split_ifs
  · exact isText_null
  · exact isText_decimal _

/-- A lower bound. -/
theorem isText_lowerBoundText (unknown : Bool) (size : UInt64) :
    IsText (lowerBoundText unknown size) (lowerBoundJson unknown size) := by
  unfold lowerBoundText lowerBoundJson
  split_ifs
  · exact isText_decimal _
  · exact isText_null

/-- A confidence that is set. -/
theorem isText_formatConfidence (x : FiniteDouble) :
    IsText (formatConfidence x) (formatConfidenceJson x) := by
  have hdigit : ∀ n < 10, (Nat.digitChar n).isDigit = true := by
    intro n hn
    interval_cases n <;> rfl
  have hd := hdigit (x.hundredths % 100 / 10) (by omega)
  have he := hdigit (x.hundredths % 10) (by omega)
  have hw : ∀ c ∈ formatConfidence x, isDelimiter c = false := by
    intro c hc
    unfold formatConfidence at hc
    simp only [List.mem_append, List.mem_cons, List.not_mem_nil, or_false] at hc
    rcases hc with (hc | hc) | rfl | rfl | rfl
    · obtain rfl : c = '-' := by
        cases hx : x.negative <;> simp_all
      rfl
    · exact isDelimiter_of_isDigit (isDigit_toDigits c hc)
    · rfl
    · exact isDelimiter_of_isDigit hd
    · exact isDelimiter_of_isDigit he
  refine isText_word hw ?_ (scalar_fixed x.negative _ hd he)
    (by rw [formatConfidenceJson, tokens])
  unfold formatConfidence
  simp

/-- A confidence. -/
theorem isText_confidenceText (x : FiniteDouble) :
    IsText (confidenceText x) (confidenceJson x) := by
  unfold confidenceText confidenceJson
  split_ifs
  · exact isText_formatConfidence x
  · exact isText_null

/-- A weakness. -/
theorem isText_cweText (cweId : CppString) : IsText (cweText cweId) (cweJson cweId) := by
  unfold cweText cweJson
  split_ifs
  · exact isText_jsonString cweId
  · exact isText_null

/-- Strings in one line. -/
theorem isText_stringsText (strings : List CppString) :
    IsText (stringsText strings) (.array (strings.map .string)) := by
  apply Lexes.isText
  refine lexes_array (show Lexes .between [',', ' '] [.comma] .between from rfl) (Lexes.nil _)
    (show Lexes .between ['['] [.lbracket] .between from rfl)
    (show Lexes .between [']'] [.rbracket] .between from rfl) ?_
  rw [List.forall₂_map_left_iff, List.forall₂_map_right_iff]
  refine List.forall₂_same.mpr fun s _ => ?_
  rw [jsonString_eq, tokens]
  exact lexes_quote s

/-- The record of a function. -/
theorem lexes_functionText (inputFile : Option CppString) (f : FunctionResult) :
    Lexes .between (functionText inputFile f) (tokens (functionJson inputFile f)) .between := by
  unfold functionText functionJson
  refine (MemberLines.lexes_objectText ?_ 4).indented 4
  refine .line (isText_jsonString _) (.line (isText_jsonString _) ?_)
  refine .line (isText_stackText _ _) (.line (isText_lowerBoundText _ _) ?_)
  refine .line (isText_jsonBoolean _) (.line (isText_stackText _ _) ?_)
  refine .line (isText_lowerBoundText _ _) (.line (isText_jsonBoolean _) ?_)
  refine .line (isText_jsonBoolean _) (.line (isText_jsonBoolean _) ?_)
  exact .line (isText_jsonBoolean _) (.lastLine (isText_jsonBoolean _))

/-- The record of a diagnostic. -/
theorem lexes_diagnosticText (inputFile : Option CppString) (i : ℕ) (d : Diagnostic) :
    Lexes .between (diagnosticText inputFile i d) (tokens (diagnosticJson inputFile i d))
      .between := by
  unfold diagnosticText diagnosticJson
  refine (MemberLines.lexes_objectText ?_ 4).indented 4
  refine .line (isText_jsonString _) (.line (isText_jsonString _) ?_)
  refine .line (isText_jsonString _) (.line (isText_confidenceText _) ?_)
  refine .line (isText_cweText _) (.line (MemberLines.isText_objectText ?_ 6)
    (.lastLine (MemberLines.isText_objectText ?_ 6)))
  · refine .line (isText_jsonString _) (.line (isText_jsonString _) ?_)
    refine .line (isText_decimal _) (.line (isText_decimal _) ?_)
    exact .line (isText_decimal _) (.lastLine (isText_decimal _))
  · exact .line (isText_jsonString _) (.lastLine (isText_stringsText _))

/-- The lines about the input files stand before other lines. -/
theorem memberLines_inputLines (inputFile : Option CppString)
    (inputFiles : Option (List CppString)) {lines : List CppString} {ms : Members}
    (h : MemberLines lines ms) :
    MemberLines (inputLines inputFile inputFiles ++ lines)
      (inputMembers inputFile inputFiles ++ ms) := by
  unfold inputLines inputMembers
  split
  · exact .line (isText_stringsText _) h
  · exact .line (isText_jsonString _) h
  · exact h

/-- The number `-1`. -/
theorem isText_minusOne : IsText ['-', '1'] (.integer (-1)) :=
  isText_word (by simp [isDelimiter, isBlank, punctuation]) (by simp)
    (scalar_of_numberParts (p := ⟨true, ['1'], none, none⟩) rfl) (by rw [tokens])

/-- **The report is one JSON value.**

**Proof sketch.** Each line has the tokens of its key and its value, so the lines of an object have
the tokens of the object; the records of an array are separated by commas. -/
theorem parseJson_toJsonImpl (result : AnalysisResult) (inputFile : Option CppString)
    (inputFiles : Option (List CppString)) :
    parseJson (toJsonImpl result inputFile inputFiles) =
      some (reportJson result inputFile inputFiles) := by
  have hfunctions : List.Forall₂ (fun text v => Lexes .between text (tokens v) .between)
      (result.functions.map (functionText inputFile))
      (result.functions.map (functionJson inputFile)) := by
    rw [List.forall₂_map_left_iff, List.forall₂_map_right_iff]
    exact List.forall₂_same.mpr fun f _ => lexes_functionText inputFile f
  have hdiagnostics : List.Forall₂ (fun text v => Lexes .between text (tokens v) .between)
      (result.diagnostics.mapIdx (diagnosticText inputFile))
      (result.diagnostics.mapIdx (diagnosticJson inputFile)) := by
    rw [List.forall₂_iff_get]
    refine ⟨by simp, ?_⟩
    intro i hi hi'
    simpa using lexes_diagnosticText inputFile i _
  apply parseJson_of_lexes
  unfold toJsonImpl reportJson metaJson
  refine (MemberLines.lexes_objectText ?_ 0).newline
  refine .line (MemberLines.isText_objectText (.line (isText_jsonString _)
    (memberLines_inputLines inputFile inputFiles ?_)) 1) ?_
  · exact .line (isText_jsonString _) (.line (isText_decimal _) (.lastLine isText_minusOne))
  · refine .line (isText_arrayText 2 hfunctions) (.line (isText_arrayText 2 hdiagnostics) ?_)
    refine .lastLine (MemberLines.isText_objectText ?_ 2)
    exact .line (isText_decimal _) (.line (isText_decimal _) (.lastLine (isText_decimal _)))

/-! ## Reading a report -/

/-- A member of an object. -/
def readMember {A : Type*} (v : Json) (key : String) (read : Json → Option A) : Option A :=
  (v.getAsObject.bind fun ms => Members.get ms key.toList).bind read

/-- A value that may be `null`. -/
def readNullable {A : Type*} (read : Json → Option A) (v : Json) : Option (Option A) :=
  match v with
  | .null => some none
  | v => (read v).map some

/-- The elements of an array. -/
def readAll {A : Type*} (read : Json → Option A) (v : Json) : Option (List A) :=
  v.getAsArray.bind fun vs => vs.mapM read

/-- What a report says about a function. -/
structure ReportedFunction where
  file : CppString
  name : CppString
  localStack : Option ℤ
  localStackLowerBound : Option ℤ
  localStackUnknown : Bool
  maxStack : Option ℤ
  maxStackLowerBound : Option ℤ
  maxStackUnknown : Bool
  hasDynamicAlloca : Bool
  isRecursive : Bool
  hasInfiniteSelfRecursion : Bool
  exceedsLimit : Bool

/-- Where a report says that a diagnostic is. -/
structure ReportedLocation where
  file : CppString
  function : CppString
  startLine : ℤ
  startColumn : ℤ
  endLine : ℤ
  endColumn : ℤ

/-- What a report says about a diagnostic. -/
structure ReportedDiagnostic where
  severity : CppString
  ruleId : CppString
  cwe : Option CppString
  location : ReportedLocation
  message : CppString
  variableAliasing : List CppString

/-- A report. -/
structure Report where
  inputFiles : List CppString
  functions : List ReportedFunction
  diagnostics : List ReportedDiagnostic

/-- Read the record of a function. -/
def decodeFunction (v : Json) : Option ReportedFunction := do
  let file ← readMember v "file" Json.getAsString
  let name ← readMember v "name" Json.getAsString
  let localStack ← readMember v "localStack" (readNullable Json.getAsInteger)
  let localBound ← readMember v "localStackLowerBound" (readNullable Json.getAsInteger)
  let localUnknown ← readMember v "localStackUnknown" Json.getAsBoolean
  let maxStack ← readMember v "maxStack" (readNullable Json.getAsInteger)
  let maxBound ← readMember v "maxStackLowerBound" (readNullable Json.getAsInteger)
  let maxUnknown ← readMember v "maxStackUnknown" Json.getAsBoolean
  let hasDynamicAlloca ← readMember v "hasDynamicAlloca" Json.getAsBoolean
  let isRecursive ← readMember v "isRecursive" Json.getAsBoolean
  let hasInfiniteSelfRecursion ← readMember v "hasInfiniteSelfRecursion" Json.getAsBoolean
  let exceedsLimit ← readMember v "exceedsLimit" Json.getAsBoolean
  return ⟨file, name, localStack, localBound, localUnknown, maxStack, maxBound, maxUnknown,
    hasDynamicAlloca, isRecursive, hasInfiniteSelfRecursion, exceedsLimit⟩

/-- Read a location. -/
def decodeLocation (v : Json) : Option ReportedLocation := do
  let file ← readMember v "file" Json.getAsString
  let function ← readMember v "function" Json.getAsString
  let startLine ← readMember v "startLine" Json.getAsInteger
  let startColumn ← readMember v "startColumn" Json.getAsInteger
  let endLine ← readMember v "endLine" Json.getAsInteger
  let endColumn ← readMember v "endColumn" Json.getAsInteger
  return ⟨file, function, startLine, startColumn, endLine, endColumn⟩

/-- Read the record of a diagnostic. -/
def decodeDiagnostic (v : Json) : Option ReportedDiagnostic := do
  let severity ← readMember v "severity" Json.getAsString
  let ruleId ← readMember v "ruleId" Json.getAsString
  let cwe ← readMember v "cwe" (readNullable Json.getAsString)
  let location ← readMember v "location" decodeLocation
  let details ← readMember v "details" some
  let message ← readMember details "message" Json.getAsString
  let variableAliasing ← readMember details "variableAliasing" (readAll Json.getAsString)
  return ⟨severity, ruleId, cwe, location, message, variableAliasing⟩

/-- Read the input files: several ones, or one of them, or none. -/
def decodeInputs (v : Json) : List CppString :=
  ((readMember v "inputFiles" (readAll Json.getAsString)).orElse fun _ =>
    (readMember v "inputFile" Json.getAsString).map fun file => [file]).getD []

/-- Read a report. -/
def decodeReport (v : Json) : Option Report := do
  let inputFiles ← readMember v "meta" fun header => some (decodeInputs header)
  let functions ← readMember v "functions" (readAll decodeFunction)
  let diagnostics ← readMember v "diagnostics" (readAll decodeDiagnostic)
  return ⟨inputFiles, functions, diagnostics⟩

/-! ## What a report says -/

/-- What the report says about a function. A size is `null` exactly if it is not known. -/
def reportedFunction (inputFile : Option CppString) (f : FunctionResult) : ReportedFunction where
  file := reportedPath inputFile f.filePath
  name := f.name
  localStack := if f.localStackUnknown then none else some f.localStack.toNat
  localStackLowerBound :=
    if f.localStackUnknown && decide (0 < f.localStack) then some f.localStack.toNat else none
  localStackUnknown := f.localStackUnknown
  maxStack := if f.maxStackUnknown then none else some f.maxStack.toNat
  maxStackLowerBound :=
    if f.maxStackUnknown && decide (0 < f.maxStack) then some f.maxStack.toNat else none
  maxStackUnknown := f.maxStackUnknown
  hasDynamicAlloca := f.hasDynamicAlloca
  isRecursive := f.isRecursive
  hasInfiniteSelfRecursion := f.hasInfiniteSelfRecursion
  exceedsLimit := f.exceedsLimit

/-- What the report says about a diagnostic. -/
def reportedDiagnostic (inputFile : Option CppString) (d : Diagnostic) : ReportedDiagnostic where
  severity := d.severity.enumToString
  ruleId := resolveRuleId d
  cwe := if d.cweId = [] then none else some d.cweId
  location := ⟨reportedPath inputFile d.filePath, d.funcName, d.line.toNat, d.column.toNat,
    d.endLine.toNat, d.endColumn.toNat⟩
  message := d.message
  variableAliasing := d.variableAliasingVec

/-- The input files of a report. -/
def reportedInputs (inputFile : Option CppString) (inputFiles : Option (List CppString)) :
    List CppString :=
  match inputFiles, inputFile with
  | some (file :: files), _ => file :: files
  | _, some file => [file]
  | _, none => []

/-! ## What a reader takes -/

/-- The first member. -/
@[simp] theorem readMember_head {A : Type*} (key : String) (v : Json) (ms : Members)
    (read : Json → Option A) :
    readMember (.object (jsonMember key v :: ms)) key read = read v := by
  simp [jsonMember, readMember, Json.getAsObject, Members.get, Maps.lookup]

/-- Another member. -/
@[simp] theorem readMember_skip {A : Type*} {key' key : String} (hne : key' ≠ key) (v : Json)
    (ms : Members) (read : Json → Option A) :
    readMember (.object (jsonMember key' v :: ms)) key read =
      readMember (.object ms) key read := by
  have hlist : key'.toList ≠ key.toList := fun h => hne (String.toList_injective h)
  simp [jsonMember, readMember, Json.getAsObject, Members.get, Maps.lookup, hlist]

/-- No member. -/
@[simp] theorem readMember_nil {A : Type*} (key : String) (read : Json → Option A) :
    readMember (.object []) key read = none := rfl

@[simp] theorem getAsString_string (s : CppString) : Json.getAsString (.string s) = some s := rfl

@[simp] theorem getAsBoolean_boolean (b : Bool) : Json.getAsBoolean (.boolean b) = some b := rfl

@[simp] theorem getAsInteger_integer (n : ℤ) : Json.getAsInteger (.integer n) = some n := rfl

/-- Records that are read one after the other. -/
theorem mapM_of_forall₂ {A B : Type*} {read : A → Option B} {vs : List A} {as : List B}
    (h : List.Forall₂ (fun v a => read v = some a) vs as) : vs.mapM read = some as := by
  induction h with
  | nil => rfl
  | cons hhead _ ih => simp [hhead, ih]

/-- Strings that are read one after the other. -/
theorem readAll_strings (strings : List CppString) :
    readAll Json.getAsString (.array (strings.map .string)) = some strings := by
  apply mapM_of_forall₂
  rw [List.forall₂_map_left_iff]
  exact List.forall₂_same.mpr fun s _ => rfl

/-- A size. -/
theorem readNullable_stackJson (unknown : Bool) (size : UInt64) :
    readNullable Json.getAsInteger (stackJson unknown size) =
      some (if unknown then none else some (size.toNat : ℤ)) := by
  cases unknown <;> rfl

/-- A lower bound. -/
theorem readNullable_lowerBoundJson (unknown : Bool) (size : UInt64) :
    readNullable Json.getAsInteger (lowerBoundJson unknown size) =
      some (if unknown && decide (0 < size) then some (size.toNat : ℤ) else none) := by
  unfold lowerBoundJson
  split <;> rfl

/-- A weakness. -/
theorem readNullable_cweJson (cweId : CppString) :
    readNullable Json.getAsString (cweJson cweId) =
      some (if cweId = [] then none else some cweId) := by
  cases cweId <;> rfl

/-- The record of a function is read. -/
theorem decodeFunction_functionJson (inputFile : Option CppString) (f : FunctionResult) :
    decodeFunction (functionJson inputFile f) = some (reportedFunction inputFile f) := by
  simp [decodeFunction, functionJson, readNullable_stackJson, readNullable_lowerBoundJson,
    reportedFunction]

/-- The record of a diagnostic is read. -/
theorem decodeDiagnostic_diagnosticJson (inputFile : Option CppString) (i : ℕ) (d : Diagnostic) :
    decodeDiagnostic (diagnosticJson inputFile i d) = some (reportedDiagnostic inputFile d) := by
  simp [decodeDiagnostic, decodeLocation, diagnosticJson, readNullable_cweJson, readAll_strings,
    reportedDiagnostic]

/-- The input files are read. -/
theorem decodeInputs_meta (result : AnalysisResult) (inputFile : Option CppString)
    (inputFiles : Option (List CppString)) :
    decodeInputs (metaJson result inputFile inputFiles) = reportedInputs inputFile inputFiles := by
  unfold decodeInputs metaJson inputMembers reportedInputs
  split
  · simp only [List.cons_append, List.nil_append]
    rw [readMember_skip (by decide), readMember_head, readAll_strings]
    rfl
  · simp [readMember_skip, Option.orElse]
  · simp [Option.orElse]

/-- **What a reader takes from the value of the report.** -/
theorem decodeReport_reportJson (result : AnalysisResult) (inputFile : Option CppString)
    (inputFiles : Option (List CppString)) :
    decodeReport (reportJson result inputFile inputFiles) =
      some ⟨reportedInputs inputFile inputFiles,
        result.functions.map (reportedFunction inputFile),
        result.diagnostics.map (reportedDiagnostic inputFile)⟩ := by
  have hfunctions : readAll decodeFunction
      (.array (result.functions.map (functionJson inputFile))) =
        some (result.functions.map (reportedFunction inputFile)) := by
    apply mapM_of_forall₂
    rw [List.forall₂_map_left_iff, List.forall₂_map_right_iff]
    exact List.forall₂_same.mpr fun f _ => decodeFunction_functionJson inputFile f
  have hdiagnostics : readAll decodeDiagnostic
      (.array (result.diagnostics.mapIdx (diagnosticJson inputFile))) =
        some (result.diagnostics.map (reportedDiagnostic inputFile)) := by
    apply mapM_of_forall₂
    rw [List.forall₂_iff_get]
    refine ⟨by simp, ?_⟩
    intro i hi hi'
    simpa using decodeDiagnostic_diagnosticJson inputFile i _
  simp [decodeReport, reportJson, decodeInputs_meta, hfunctions, hdiagnostics]

/-- The input files of a report. -/
def ReportInputs.list : ReportInputs → List CppString
  | .file inputFile => [inputFile]
  | .files inputFiles => inputFiles

/-- The input files that the report says. -/
theorem reportedInputs_eq (inputs : ReportInputs) :
    reportedInputs inputs.inputFile inputs.inputFiles = inputs.list := by
  rcases inputs with file | _ | ⟨file, files⟩ <;> rfl

/-- A diagnostic as it is recorded: its own rule identifier, and its own path. -/
def recordedDiagnostic (d : Diagnostic) : ReportedDiagnostic :=
  { reportedDiagnostic none d with ruleId := d.ruleId }

/-- A diagnostic that has a path and a rule identifier is reported as it is recorded. -/
theorem reportedDiagnostic_eq_recorded (inputFile : Option CppString) {d : Diagnostic}
    (hpath : d.filePath ≠ []) (hrule : d.ruleId ≠ []) :
    reportedDiagnostic inputFile d = recordedDiagnostic d := by
  simp [reportedDiagnostic, recordedDiagnostic, reportedPath, resolveRuleId, hpath, hrule]

/-- **The report gives back the result**: the text is one JSON value, and reading it gives the input
files, every function and every diagnostic, in order. The rule of a diagnostic that has no
identifier is its error code, and without a path it is in the input file.

**Proof sketch.** `parseJson_toJsonImpl` says which value the text is, and
`decodeReport_reportJson` what a reader takes from it. -/
theorem toJson_gives_back (result : AnalysisResult) (inputs : ReportInputs) :
    ∃ v, parseJson (toJson result inputs) = some v ∧
      decodeReport v = some
        ⟨inputs.list, result.functions.map (reportedFunction inputs.inputFile),
          result.diagnostics.map (reportedDiagnostic inputs.inputFile)⟩ := by
  refine ⟨_, parseJson_toJsonImpl result inputs.inputFile inputs.inputFiles, ?_⟩
  rw [decodeReport_reportJson, reportedInputs_eq]

/-- A result with one diagnostic that has no path. -/
def pathlessResult : AnalysisResult := ⟨{}, [], [{ ruleId := ['R'] }]⟩

/-- The diagnostic without a path is reported in the input file, which is not its own path. -/
theorem not_gives_back_recorded :
    ¬ ∀ (result : AnalysisResult) (inputs : ReportInputs), ∃ v report,
      parseJson (toJson result inputs) = some v ∧ decodeReport v = some report ∧
        report.diagnostics = result.diagnostics.map recordedDiagnostic := by
  intro h
  obtain ⟨v, report, hv, hreport, hdiagnostics⟩ := h pathlessResult (.file ['a'])
  obtain rfl : reportJson pathlessResult (some ['a']) none = v :=
    Option.some.inj ((parseJson_toJsonImpl _ _ _).symm.trans hv)
  rw [decodeReport_reportJson, Option.some_inj] at hreport
  subst hreport
  have hfile := congrArg (List.map fun d => d.location.file) hdiagnostics
  exact absurd hfile (by decide)

end StackAnalyzer.App
