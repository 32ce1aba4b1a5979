import StackAnalyzer.Cli.StackLimits
import StackAnalyzer.CrossTU.ResourceIndex
import StackAnalyzer.Lists.Searching

set_option relaxedAutoImplicit false
set_option autoImplicit false

/-!
# Lines of diagnostics

The compiler writes a warning or an error as one line: a path, a line, a column, the severity and a
message. The parser looks for a warning anywhere in the line before it looks for an error, and of
the path it takes what stands behind the last space.

## Main definitions

* `StackAnalyzer.Frontend.parseFrontendWarningLine` — parsing.
* `StackAnalyzer.Frontend.formatLine` — how a line is written.

## Main results

* `StackAnalyzer.Frontend.parse_formatLine` — which lines are parsed as they were written.
* `StackAnalyzer.Frontend.parse_wellFormed` — what is returned for any line.
-/

namespace StackAnalyzer.Frontend

open CrossTU CompileCommands Lists

/-! ## Parsing -/

section Parsing

/-- `ParsedSeverity`. -/
inductive ParsedSeverity
  | warning
  | error
  deriving DecidableEq

/-- `ParsedFrontendWarning`. -/
structure ParsedFrontendWarning where
  filePath : CppString
  message : CppString
  severity : ParsedSeverity
  line : ℕ
  column : ℕ
  deriving DecidableEq

/-- What stands in front of a message. -/
def ParsedSeverity.marker : ParsedSeverity → CppString
  | .warning => ": warning: ".toList
  | .error => ": error: ".toList

/-- `trim`. -/
def trim (s : CppString) : CppString := Lists.trim isSpace s

/-- The body of the loop of `parseUnsigned`. -/
def parseDigit (value : ℕ) (c : Char) : Option ℕ :=
  if c.isDigit then
    let value := value * 10 + (c.toNat - '0'.toNat)
    if 2 ^ 32 - 1 < value then none else some value
  else none

/-- `parseUnsigned`. -/
def parseUnsigned (text : CppString) : Option ℕ :=
  if text = [] then none else text.foldlM parseDigit 0

/-- The first marker of a warning, or if there is none, the first one of an error. -/
def findMarker (line : CppString) : Option (ℕ × ParsedSeverity) :=
  match findInfix (ParsedSeverity.marker .warning) line with
  | some markerPos => some (markerPos, .warning)
  | none => (findInfix (ParsedSeverity.marker .error) line).map fun markerPos => (markerPos, .error)

/-- A path: what stands behind the last space or tab. -/
def pathOf (text : CppString) : CppString :=
  let filePath := trim text
  match lastIndexWhere (fun c => c = ' ' || c = '\t') filePath with
  | some trailingSpace => trim (filePath.drop (trailingSpace + 1))
  | none => trim filePath

/-- What stands in front of a marker: a path, a line and a column. If the column has the only colon
at the very beginning, `colSep - 1` is `npos`, and the line is found at the same colon. -/
def parsePosition (front : CppString) : Option (CppString × ℕ × ℕ) := do
  let colSep ← lastIndexWhere (· = ':') front
  let lineSep ← lastIndexWhere (· = ':') (if colSep = 0 then front else front.take colSep)
  let lineStr := if colSep = 0 then front.drop 1
    else (front.drop (lineSep + 1)).take (colSep - lineSep - 1)
  let parsedLine ← parseUnsigned lineStr
  let parsedColumn ← parseUnsigned (front.drop (colSep + 1))
  let filePath := pathOf (front.take lineSep)
  if filePath = [] then none else some (filePath, parsedLine, parsedColumn)

/-- `parseFrontendWarningLine`: what it stores, if it succeeds. -/
def parseFrontendWarningLine (line : CppString) : Option ParsedFrontendWarning := do
  let (markerPos, severity) ← findMarker line
  let message := trim (line.drop (markerPos + severity.marker.length))
  if message = [] then none
  else
    let (filePath, parsedLine, parsedColumn) ← parsePosition (line.take markerPos)
    some ⟨filePath, message, severity, parsedLine, parsedColumn⟩

/-- **A line as the compiler writes it.** -/
def formatLine (d : ParsedFrontendWarning) : CppString :=
  d.filePath ++ ':' :: (decimal d.line ++ ':' :: (decimal d.column ++ (d.severity.marker ++
    d.message)))

example : parseFrontendWarningLine "/src/a:b.c:12:3: error: bad: warning sign".toList =
    some ⟨"/src/a:b.c".toList, "bad: warning sign".toList, .error, 12, 3⟩ := by
  decide +kernel

end Parsing

/-! ## What is returned -/

section Returned

variable {text : CppString} {number : ℕ}

/-- A number that is parsed fits in 32 bits. -/
theorem parseUnsigned_lt (h : parseUnsigned text = some number) : number < 2 ^ 32 := by
  have hfold : ∀ (text : CppString) (start : ℕ), start < 2 ^ 32 →
      text.foldlM parseDigit start = some number → number < 2 ^ 32 := by
    intro text
    induction text with
    | nil =>
      intro start hstart h
      obtain rfl : start = number := Option.some.inj h
      exact hstart
    | cons c text ih =>
      intro start hstart h
      rw [List.foldlM_cons, Option.bind_eq_bind, Option.bind_eq_some_iff] at h
      obtain ⟨value, hvalue, h⟩ := h
      refine ih value ?_ h
      unfold parseDigit at hvalue
      dsimp only at hvalue
      split_ifs at hvalue with hdigit hlarge
      obtain rfl := Option.some.inj hvalue
      omega
  unfold parseUnsigned at h
  split_ifs at h
  exact hfold text 0 (by decide) h

/-- A text that has been trimmed stays as it is. -/
theorem trim_trim (text : CppString) : trim (trim text) = trim text := Lists.trim_trim

/-- What is left of a text is in it. -/
theorem mem_of_mem_trim {c : Char} (h : c ∈ trim text) : c ∈ text := by
  obtain ⟨front, back, heq, -, -⟩ := Lists.exists_trim (p := isSpace) (l := text)
  rw [heq]
  exact List.mem_append_left _ (List.mem_append_right _ h)

/-- A path has no space and no tab. -/
theorem not_mem_pathOf {c : Char} (h : c ∈ pathOf text) : c ≠ ' ' ∧ c ≠ '\t' := by
  suffices hboth : (decide (c = ' ') || decide (c = '\t')) = false by
    simpa using hboth
  unfold pathOf at h
  dsimp only at h
  cases hlast : lastIndexWhere (fun c => c = ' ' || c = '\t') (trim text) with
  | some n =>
    rw [hlast] at h
    exact Lists.not_of_mem_drop hlast (mem_of_mem_trim h)
  | none =>
    rw [hlast] at h
    exact Lists.lastIndexWhere_eq_none_iff.mp hlast c (mem_of_mem_trim h)

/-- A path has been trimmed. -/
theorem trim_pathOf (text : CppString) : trim (pathOf text) = pathOf text := by
  unfold pathOf
  dsimp only
  split <;> exact trim_trim _

/-- What is returned for a position. -/
theorem parsePosition_wellFormed {front filePath : CppString} {line column : ℕ}
    (h : parsePosition front = some (filePath, line, column)) :
    filePath ≠ [] ∧ (∃ text, filePath = pathOf text) ∧ line < 2 ^ 32 ∧ column < 2 ^ 32 := by
  unfold parsePosition at h
  simp only [Option.bind_eq_bind, Option.bind_eq_some_iff] at h
  obtain ⟨colSep, -, lineSep, -, parsedLine, hline, parsedColumn, hcolumn, h⟩ := h
  split_ifs at h with hpath
  simp only [Option.some.injEq, Prod.mk.injEq] at h
  obtain ⟨rfl, rfl, rfl⟩ := h
  exact ⟨hpath, ⟨_, rfl⟩, parseUnsigned_lt hline, parseUnsigned_lt hcolumn⟩

/-- **What is returned for any line**: a path without spaces and tabs, a message, both without
blanks around them, and numbers of 32 bits. -/
theorem parse_wellFormed {line : CppString} {d : ParsedFrontendWarning}
    (h : parseFrontendWarningLine line = some d) :
    d.filePath ≠ [] ∧ (∀ c ∈ d.filePath, c ≠ ' ' ∧ c ≠ '\t') ∧ trim d.filePath = d.filePath ∧
      d.message ≠ [] ∧ trim d.message = d.message ∧ d.line < 2 ^ 32 ∧ d.column < 2 ^ 32 := by
  unfold parseFrontendWarningLine at h
  simp only [Option.bind_eq_bind, Option.bind_eq_some_iff] at h
  obtain ⟨⟨markerPos, severity⟩, -, h⟩ := h
  split_ifs at h with hmessage
  simp only [Option.bind_eq_some_iff] at h
  obtain ⟨⟨filePath, parsedLine, parsedColumn⟩, hposition, h⟩ := h
  obtain rfl := Option.some.inj h
  obtain ⟨hpath, ⟨text, rfl⟩, hline, hcolumn⟩ := parsePosition_wellFormed hposition
  exact ⟨hpath, fun c hc => not_mem_pathOf hc, trim_pathOf text, hmessage, trim_trim _, hline,
    hcolumn⟩

end Returned

/-! ## Lines as they are written -/

section Written

variable {path message : CppString} {line column : ℕ}

/-- A number is parsed as it was written. -/
theorem parseUnsigned_decimal {n : ℕ} (h : n < 2 ^ 32) : parseUnsigned (decimal n) = some n := by
  have hne : decimal n ≠ [] := Nat.toDigits_ne_nil
  rw [parseUnsigned, if_neg hne]
  clear hne
  induction n using Nat.strong_induction_on with
  | _ n ih =>
    have hstep : ∀ value : ℕ, value * 10 + n % 10 = n →
        parseDigit value (n % 10).digitChar = some n := by
      intro value hvalue
      have hlt : n % 10 < 10 := Nat.mod_lt n (by decide)
      have hdigit : (n % 10).digitChar.isDigit = true := by
        have hmem : (n % 10).digitChar ∈ Nat.toDigits 10 (n % 10) := by
          rw [Nat.toDigits_of_lt_base hlt]
          exact List.mem_singleton_self _
        exact Nat.isDigit_of_mem_toDigits (by decide) (by decide) hmem
      have hcode : (n % 10).digitChar.toNat - '0'.toNat = n % 10 := by
        rw [Nat.toNat_digitChar_of_lt_ten hlt]
        show 48 + n % 10 - 48 = n % 10
        omega
      rw [parseDigit, if_pos hdigit, hcode]
      dsimp only
      rw [hvalue, if_neg (by omega)]
    by_cases hsmall : n < 10
    · rw [decimal, Nat.toDigits_of_lt_base hsmall, List.foldlM_cons]
      have hone := hstep 0 (by omega)
      rw [Nat.mod_eq_of_lt hsmall] at hone
      rw [hone]
      rfl
    · rw [decimal, Nat.toDigits_of_base_le (by decide) (by omega), List.foldlM_append,
        ← decimal, ih (n / 10) (by omega) (by omega)]
      rw [Option.bind_eq_bind, Option.bind_some, List.foldlM_cons, hstep (n / 10) (by omega)]
      rfl

/-- A number has no blank and no colon. -/
theorem not_mem_decimal_of_mem {n : ℕ} {c : Char} (h : c ∈ decimal n) : c ≠ ' ' ∧ c ≠ ':' := by
  constructor
  · rintro rfl
    exact not_mem_decimal (by decide) n h
  · rintro rfl
    exact not_mem_decimal (by decide) n h

/-- What stands in front of a marker. -/
def formatPosition (path : CppString) (line column : ℕ) : CppString :=
  path ++ ':' :: (decimal line ++ ':' :: decimal column)

/-- **The position is parsed as it was written**, up to what is taken of the path. -/
theorem parsePosition_formatPosition (hline : line < 2 ^ 32) (hcolumn : column < 2 ^ 32)
    (hpath : pathOf path = path) (hne : path ≠ []) :
    parsePosition (formatPosition path line column) = some (path, line, column) := by
  have hcolon : ∀ n, ∀ c ∈ decimal n, decide (c = ':') = false := fun n c hc =>
    decide_eq_false (not_mem_decimal_of_mem hc).2
  have hsplit : formatPosition path line column =
      (path ++ ':' :: decimal line) ++ ':' :: decimal column := by
    rw [formatPosition, List.append_assoc, List.cons_append]
  have hcolSep : lastIndexWhere (· = ':') (formatPosition path line column) =
      some (path ++ ':' :: decimal line).length := by
    rw [hsplit]
    exact lastIndexWhere_append (by decide) (hcolon column)
  have htake : (formatPosition path line column).take (path ++ ':' :: decimal line).length =
      path ++ ':' :: decimal line := by
    rw [hsplit]
    exact List.take_left
  have hlineSep : lastIndexWhere (· = ':') (path ++ ':' :: decimal line) = some path.length :=
    lastIndexWhere_append (by decide) (hcolon line)
  have hlen : (path ++ ':' :: decimal line).length = path.length + 1 + (decimal line).length := by
    rw [List.length_append, List.length_cons]
    omega
  have hnot : (path ++ ':' :: decimal line).length ≠ 0 := by omega
  have hlineStr : ((formatPosition path line column).drop (path.length + 1)).take
      ((path ++ ':' :: decimal line).length - path.length - 1) = decimal line := by
    have hcount : (path ++ ':' :: decimal line).length - path.length - 1 =
        (decimal line).length := by omega
    have hdrop : (formatPosition path line column).drop (path.length + 1) =
        decimal line ++ ':' :: decimal column := by
      rw [formatPosition, ← List.drop_drop, List.drop_left]
      rfl
    rw [hcount, hdrop]
    exact List.take_left
  have hcolStr : (formatPosition path line column).drop
      ((path ++ ':' :: decimal line).length + 1) = decimal column := by
    rw [hsplit, ← List.drop_drop, List.drop_left]
    rfl
  have hfile : (formatPosition path line column).take path.length = path := List.take_left
  unfold parsePosition
  rw [hcolSep]
  simp only [Option.bind_eq_bind, Option.bind_some, if_neg hnot, htake, hlineSep, hlineStr,
    hcolStr, parseUnsigned_decimal hline, parseUnsigned_decimal hcolumn, hfile, hpath, if_neg hne]

/-- Nothing in a position is taken for a marker. -/
theorem findInfix_formatPosition (hspace : ' ' ∉ path) (line column : ℕ)
    (pattern rest : CppString) :
    findInfix (':' :: ' ' :: pattern) (formatPosition path line column ++ rest) =
      (findInfix (':' :: ' ' :: pattern) rest).map
        (· + (formatPosition path line column).length) := by
  have hnot : ' ' ∉ formatPosition path line column := by
    intro hmem
    rw [formatPosition, List.mem_append, List.mem_cons, List.mem_append, List.mem_cons] at hmem
    obtain h | h | h | h | h := hmem
    · exact hspace h
    · exact absurd h (by decide)
    · exact (not_mem_decimal_of_mem h).1 rfl
    · exact absurd h (by decide)
    · exact (not_mem_decimal_of_mem h).1 rfl
  have hlast : ∃ init c, formatPosition path line column = init ++ [c] ∧ c ≠ ':' := by
    have hne : decimal column ≠ [] := Nat.toDigits_ne_nil
    refine ⟨path ++ ':' :: (decimal line ++ ':' :: (decimal column).dropLast),
      (decimal column).getLast hne, ?_, (not_mem_decimal_of_mem (List.getLast_mem hne)).2⟩
    rw [formatPosition, List.append_assoc, List.cons_append, List.append_assoc, List.cons_append,
      List.dropLast_concat_getLast]
  obtain ⟨init, last, heq, hcolon⟩ := hlast
  refine findInfix_append fun c back hback hprefix => ?_
  rw [List.cons_prefix_cons] at hprefix
  obtain ⟨rfl, hprefix⟩ := hprefix
  cases back with
  | nil =>
    -- the colon would be the last character
    obtain ⟨front, hfront⟩ := hback
    rw [heq] at hfront
    exact hcolon (List.singleton_inj.mp (List.append_inj' hfront rfl).2.symm)
  | cons d back =>
    -- the next character would be a space
    rw [List.cons_append, List.cons_prefix_cons] at hprefix
    obtain ⟨rfl, -⟩ := hprefix
    exact hnot (hback.subset (by simp))

/-- No warning begins in the marker of an error before its second colon. -/
theorem not_prefix_error (c : Char) (back : CppString) (hback : c :: back <:+ ": error".toList) :
    ¬ ParsedSeverity.marker .warning <+: c :: (back ++ ':' :: ' ' :: message) := by
  have hmem : c :: back ∈ (": error".toList).tails := (List.mem_tails _ _).mpr hback
  have htails : (": error".toList).tails = [": error".toList, " error".toList, "error".toList,
      "rror".toList, "ror".toList, "or".toList, "r".toList, []] := by decide
  rw [htails] at hmem
  intro hprefix
  have hfirst : c = ':' := (List.cons_prefix_cons.mp hprefix).1.symm
  subst hfirst
  have hback : back = " error".toList := by
    simpa using hmem
  subst hback
  have hthird := (List.cons_prefix_cons.mp (List.cons_prefix_cons.mp
    (List.cons_prefix_cons.mp hprefix).2).2).1
  exact absurd hthird (by decide)

/-- **The marker is found where it was written**, unless there is a warning in the message of an
error. -/
theorem findMarker_formatPosition (hspace : ' ' ∉ path) {severity : ParsedSeverity}
    (herror : severity = .error →
      ¬ ParsedSeverity.marker .warning <:+: ':' :: ' ' :: message) :
    findMarker (formatPosition path line column ++ (severity.marker ++ message)) =
      some ((formatPosition path line column).length, severity) := by
  have hwarning : ParsedSeverity.marker .warning = ':' :: ' ' :: "warning: ".toList := by decide
  have hmarker : ParsedSeverity.marker .error = ':' :: ' ' :: "error: ".toList := by decide
  have hfound : ∀ severity : ParsedSeverity,
      findInfix severity.marker (severity.marker ++ message) = some 0 := fun severity =>
    findInfix_of_prefix (List.prefix_append _ _)
  unfold findMarker
  cases severity with
  | warning =>
    have hplace := findInfix_formatPosition hspace line column "warning: ".toList
      (ParsedSeverity.marker .warning ++ message)
    rw [← hwarning, hfound, Option.map_some, Nat.zero_add] at hplace
    rw [hplace]
  | error =>
    have hplace := findInfix_formatPosition hspace line column "error: ".toList
      (ParsedSeverity.marker .error ++ message)
    have hnone := findInfix_formatPosition hspace line column "warning: ".toList
      (ParsedSeverity.marker .error ++ message)
    have hbehind : findInfix (ParsedSeverity.marker .warning)
        (ParsedSeverity.marker .error ++ message) = none := by
      have herror := findInfix_eq_none_iff.mpr (herror rfl)
      have hskip : findInfix (ParsedSeverity.marker .warning)
          (": error".toList ++ ':' :: ' ' :: message) = _ := findInfix_append not_prefix_error
      rw [herror, Option.map_none] at hskip
      exact hskip
    rw [← hmarker, hfound, Option.map_some, Nat.zero_add] at hplace
    rw [← hwarning, hbehind, Option.map_none] at hnone
    rw [hnone, hplace]
    rfl

/-- A path without spaces and tabs, and without blanks around it, stays as it is. -/
theorem pathOf_eq_self (hblank : ∀ c ∈ path, c ≠ ' ' ∧ c ≠ '\t') (htrim : trim path = path) :
    pathOf path = path := by
  have hnone : lastIndexWhere (fun c => c = ' ' || c = '\t') path = none :=
    lastIndexWhere_eq_none_iff.mpr fun c hc => by simpa using hblank c hc
  unfold pathOf
  simp only [htrim, hnone]

/-- **A line is parsed as it was written**, if its path has no spaces or tabs and no other blanks
around it, and if the message of an error does not look like a warning. -/
theorem parse_formatLine {d : ParsedFrontendWarning} (hpath : d.filePath ≠ [])
    (hblank : ∀ c ∈ d.filePath, c ≠ ' ' ∧ c ≠ '\t') (htrim : trim d.filePath = d.filePath)
    (hmessage : d.message ≠ []) (hmessageTrim : trim d.message = d.message)
    (hline : d.line < 2 ^ 32) (hcolumn : d.column < 2 ^ 32)
    (herror : d.severity = .error →
      ¬ ParsedSeverity.marker .warning <:+: ':' :: ' ' :: d.message) :
    parseFrontendWarningLine (formatLine d) = some d := by
  have hspace : ' ' ∉ d.filePath := fun hmem => (hblank ' ' hmem).1 rfl
  have hformat : formatLine d = formatPosition d.filePath d.line d.column ++
      (d.severity.marker ++ d.message) := by
    simp only [formatLine, formatPosition, List.append_assoc, List.cons_append]
  have htake : (formatLine d).take (formatPosition d.filePath d.line d.column).length =
      formatPosition d.filePath d.line d.column := by
    rw [hformat]
    exact List.take_left
  have hdrop : (formatLine d).drop ((formatPosition d.filePath d.line d.column).length +
      d.severity.marker.length) = d.message := by
    rw [hformat, ← List.drop_drop, List.drop_left, List.drop_left]
  have hmarker : findMarker (formatLine d) =
      some ((formatPosition d.filePath d.line d.column).length, d.severity) := by
    rw [hformat]
    exact findMarker_formatPosition hspace herror
  unfold parseFrontendWarningLine
  rw [hmarker]
  simp only [Option.bind_eq_bind, Option.bind_some, hdrop, htake, hmessageTrim, if_neg hmessage,
    parsePosition_formatPosition hline hcolumn (pathOf_eq_self hblank htrim) hpath]

/-- A colon in the path, and the word `error` in the message of a warning. -/
theorem parse_formatLine_colons :
    parseFrontendWarningLine (formatLine ⟨"/src/a:b.c".toList, "bad: error: x".toList, .warning, 12,
      3⟩) = some ⟨"/src/a:b.c".toList, "bad: error: x".toList, .warning, 12, 3⟩ :=
  have hblank : "/src/a:b.c".toList.all (fun c => c ≠ ' ' && c ≠ '\t') = true := by decide
  parse_formatLine (by decide) (fun c hc => by simpa using List.all_eq_true.mp hblank c hc)
    (by decide) (by decide) (by decide) (by decide) (by decide) nofun

/-- Of a path with a space, only what stands behind it is returned. -/
theorem not_parse_formatLine :
    ¬ ∀ d : ParsedFrontendWarning, d.filePath ≠ [] → '\n' ∉ d.filePath → d.message ≠ [] →
      trim d.message = d.message → d.line < 2 ^ 32 → d.column < 2 ^ 32 →
        parseFrontendWarningLine (formatLine d) = some d := by
  intro h
  have hparse := h ⟨"my dir/a.c".toList, "bad".toList, .warning, 12, 3⟩ (by decide) (by decide)
    (by decide) (by decide) (by decide) (by decide)
  exact absurd rfl ((parse_wellFormed hparse).2.1 ' ' (by decide)).1

end Written

end StackAnalyzer.Frontend
