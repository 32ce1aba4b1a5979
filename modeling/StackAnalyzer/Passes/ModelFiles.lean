import StackAnalyzer.Formats.RuleFiles
import StackAnalyzer.Frontend.DiagnosticLines
import StackAnalyzer.Passes.PerFunctionPasses
import StackAnalyzer.Resource.Lifetime

set_option relaxedAutoImplicit false
set_option autoImplicit false

/-!
# Model files

Rules for functions that write to buffers, that keep no pointer, or that acquire and release
resources are read from three kinds of files. Each is a file of rules with its own actions. An index
that does not fit is refused in the first two, and wraps around in the third.

## Main definitions

* `StackAnalyzer.Passes.parseBufferWriteModel`, `StackAnalyzer.Passes.parseStackEscapeModel`,
  `StackAnalyzer.Passes.parseResourceModel` — reading the files.
* `StackAnalyzer.Passes.BufferWriteRule.Spells`, `StackAnalyzer.Passes.StackEscapeRule.Spells`,
  `StackAnalyzer.Passes.ResourceRule.Spells` — which words stand for a rule.
* `StackAnalyzer.Passes.ReadsRules`, `StackAnalyzer.Passes.WritesRules` — a reader of rules, and how
  they are written.

## Main results

* `StackAnalyzer.Passes.modelFiles_read` — which files are read, and where reading ends otherwise.
* `StackAnalyzer.Passes.rulesInForce` — what counts of a file with an error.
* `StackAnalyzer.Passes.modelFiles_write` — which rules files stand for.
-/

namespace StackAnalyzer.Passes

open Formats CrossTU CompileCommands Frontend Cli
open Resource (ResourceRule)

/-! ## Words -/

/-- The signs of a model file. -/
def modelSigns : RuleSigns Char where
  newline := '\n'
  hash := '#'
  blank := isSpace
  blank_newline := by decide
  blank_hash := by decide

/-- The body of the loop of `parseUnsignedIndex`. -/
def parseIndexDigit (value : ℕ) (c : Char) : Option ℕ :=
  if c.isDigit then
    let digit := c.toNat - '0'.toNat
    if (2 ^ 32 - 1 - digit) / 10 < value then none else some (value * 10 + digit)
  else none

/-- `parseUnsignedIndex` of `BufferWriteModel.cpp`. -/
def parseUnsignedIndex (token : CppString) : Option ℕ :=
  if token.isEmpty then none else token.foldlM parseIndexDigit 0

/-- `parseUnsignedIndex` of `StackPointerEscapeModel.cpp`, which has the same body. -/
def StackEscapeModel.parseUnsignedIndex (token : CppString) : Option ℕ :=
  Passes.parseUnsignedIndex token

/-- The body of the loop of `parseUnsignedIndex` of `ResourceLifetimeAnalysis.cpp`. -/
def ResourceModel.parseIndexDigit (value : ℕ) (c : Char) : Option ℕ :=
  if c.isDigit then some ((value * 10 + (c.toNat - '0'.toNat)) % 2 ^ 32) else none

/-- `parseUnsignedIndex` of `ResourceLifetimeAnalysis.cpp`. -/
def ResourceModel.parseUnsignedIndex (token : CppString) : Option ℕ :=
  if token.isEmpty then none else token.foldlM ResourceModel.parseIndexDigit 0

/-- `hasUnsupportedBracketClassSyntax`. -/
def hasUnsupportedBracketClassSyntax (pattern : CppString) : Bool :=
  pattern.contains '[' || pattern.contains ']'

/-- An error of a line. -/
def lineError (message : CppString) (lineNo : ℕ) : CppString :=
  message ++ " at line ".toList ++ decimal (lineNo % 2 ^ 32)

/-! ## Reading -/

/-- A line of `parseBufferWriteModel`. -/
def parseBufferWriteRule (lineNo : ℕ) (tokens : List CppString) :
    Except CppString BufferWriteRule :=
  let pattern := tokens.getD 1 []
  let brackets := lineError "unsupported character class syntax '[...]'".toList lineNo ++
    " (buffer model supports only '*' and '?' wildcards)".toList
  if tokens.headD [] = "bounded_write".toList then
    if tokens.length ≠ 4 then .error (lineError "invalid bounded_write rule".toList lineNo)
    else if hasUnsupportedBracketClassSyntax pattern then .error brackets
    else
      match parseUnsignedIndex (tokens.getD 2 []), parseUnsignedIndex (tokens.getD 3 []) with
      | some destArgIndex, some sizeArgIndex =>
        .ok ⟨String.ofList pattern, destArgIndex, sizeArgIndex, .boundedWrite⟩
      | _, _ => .error (lineError "invalid argument index".toList lineNo)
  else if tokens.headD [] = "unbounded_write".toList then
    if tokens.length ≠ 3 then .error (lineError "invalid unbounded_write rule".toList lineNo)
    else if hasUnsupportedBracketClassSyntax pattern then .error brackets
    else
      match parseUnsignedIndex (tokens.getD 2 []) with
      | some destArgIndex => .ok ⟨String.ofList pattern, destArgIndex, 0, .unboundedWrite⟩
      | none => .error (lineError "invalid argument index".toList lineNo)
  else
    .error (lineError ("unknown buffer model action '".toList ++ tokens.headD [] ++ "'".toList)
      lineNo)

/-- `parseBufferWriteModel`, of a file that can be opened or not: the rules, and the error. -/
def parseBufferWriteModel (path : CppString) : Option CppString →
    List BufferWriteRule × Option CppString
  | none => ([], some ("cannot open buffer model file: ".toList ++ path))
  | some text => parseRules modelSigns parseBufferWriteRule text

/-- `StackEscapeRule`. -/
structure StackEscapeRule where
  functionPattern : CppString
  argIndex : ℕ

/-- A line of `parseStackEscapeModel`. -/
def parseStackEscapeRule (lineNo : ℕ) (tokens : List CppString) :
    Except CppString StackEscapeRule :=
  let pattern := tokens.getD 1 []
  if tokens.headD [] ≠ "noescape_arg".toList then
    .error (lineError ("unknown stack escape model action '".toList ++ tokens.headD [] ++
      "'".toList) lineNo)
  else if tokens.length ≠ 3 then .error (lineError "invalid noescape_arg rule".toList lineNo)
  else if hasUnsupportedBracketClassSyntax pattern then
    .error (lineError "unsupported character class syntax '[...]'".toList lineNo ++
      " (stack escape model supports only '*' and '?' wildcards)".toList)
  else
    match StackEscapeModel.parseUnsignedIndex (tokens.getD 2 []) with
    | some argIndex => .ok ⟨pattern, argIndex⟩
    | none => .error (lineError "invalid argument index".toList lineNo)

/-- `parseStackEscapeModel`. -/
def parseStackEscapeModel (path : CppString) : Option CppString →
    List StackEscapeRule × Option CppString
  | none => ([], some ("cannot open stack escape model file: ".toList ++ path))
  | some text => parseRules modelSigns parseStackEscapeRule text

/-- The branches of a line of `parseResourceModel` for a rule with an index. -/
def parseIndexedResourceRule (action : RuleAction) (name : String) (lineNo : ℕ)
    (tokens : List CppString) : Except CppString ResourceRule :=
  if tokens.length ≠ 4 then
    .error (lineError ("invalid ".toList ++ name.toList ++ " rule".toList) lineNo)
  else
    match ResourceModel.parseUnsignedIndex (tokens.getD 2 []) with
    | some argIndex => .ok ⟨tokens.getD 1 [], tokens.getD 3 [], argIndex, action⟩
    | none => .error (lineError "invalid argument index".toList lineNo)

/-- A line of `parseResourceModel`. -/
def parseResourceRule (lineNo : ℕ) (tokens : List CppString) : Except CppString ResourceRule :=
  if tokens.headD [] = "acquire_out".toList then
    parseIndexedResourceRule .acquireOut "acquire_out" lineNo tokens
  else if tokens.headD [] = "acquire_ret".toList then
    if tokens.length ≠ 3 then .error (lineError "invalid acquire_ret rule".toList lineNo)
    else .ok ⟨tokens.getD 1 [], tokens.getD 2 [], 0, .acquireRet⟩
  else if tokens.headD [] = "release_arg".toList then
    parseIndexedResourceRule .releaseArg "release_arg" lineNo tokens
  else
    .error (lineError ("unknown rule action '".toList ++ tokens.headD [] ++ "'".toList) lineNo)

/-- `parseResourceModel`. -/
def parseResourceModel (path : CppString) : Option CppString →
    List ResourceRule × Option CppString
  | none => ([], some ("cannot open model file: ".toList ++ path))
  | some text => parseRules modelSigns parseResourceRule text

/-! ## The rules in force -/

/-- The model of `analyzeMemIntrinsicOverflows`: a file with an error counts for nothing. -/
def externalBufferModel (path : CppString) (file : Option CppString) :
    Option (List BufferWriteRule) :=
  if path.isEmpty then none
  else
    match parseBufferWriteModel path file with
    | (rules, none) => some rules
    | (_, some _) => none

/-- The model of `analyzeStackPointerEscapes`: an error is written to the log. -/
def stackEscapeModel (path : CppString) (file : Option CppString) : List StackEscapeRule :=
  if path.isEmpty then [] else (parseStackEscapeModel path file).1

/-- The model of `analyzeResourceLifetime`: without rules nothing is analyzed. -/
def resourceModel (path : CppString) (file : Option CppString) : Option (List ResourceRule) :=
  if path.isEmpty then none
  else
    match parseResourceModel path file with
    | (rules, none) => if rules.isEmpty then none else some rules
    | (_, some _) => none

/-! ## Spelling -/

/-- The digits of an index. -/
def IsDigits (token : CppString) : Prop := token ≠ [] ∧ ∀ c ∈ token, c.isDigit = true

/-- A pattern without brackets. -/
def NoBrackets (pattern : CppString) : Prop := '[' ∉ pattern ∧ ']' ∉ pattern

/-- **The words that stand for a rule of a buffer model.** -/
inductive BufferWriteRule.Spells : List CppString → BufferWriteRule → Prop
  | bounded {pattern dest size : CppString} : NoBrackets pattern → IsDigits dest →
      digitsValue dest < 2 ^ 32 → IsDigits size → digitsValue size < 2 ^ 32 →
      Spells ["bounded_write".toList, pattern, dest, size]
        ⟨String.ofList pattern, digitsValue dest, digitsValue size, .boundedWrite⟩
  | unbounded {pattern dest : CppString} : NoBrackets pattern → IsDigits dest →
      digitsValue dest < 2 ^ 32 →
      Spells ["unbounded_write".toList, pattern, dest]
        ⟨String.ofList pattern, digitsValue dest, 0, .unboundedWrite⟩

/-- **The words that stand for a rule of a stack escape model.** -/
inductive StackEscapeRule.Spells : List CppString → StackEscapeRule → Prop
  | noescapeArg {pattern arg : CppString} : NoBrackets pattern → IsDigits arg →
      digitsValue arg < 2 ^ 32 →
      Spells ["noescape_arg".toList, pattern, arg] ⟨pattern, digitsValue arg⟩

/-- **The words that stand for a rule of a resource model**: an index wraps around. -/
inductive ResourceRule.Spells : List CppString → ResourceRule → Prop
  | acquireOut {pattern arg kind : CppString} : IsDigits arg →
      Spells ["acquire_out".toList, pattern, arg, kind]
        ⟨pattern, kind, digitsValue arg % 2 ^ 32, .acquireOut⟩
  | acquireRet {pattern kind : CppString} :
      Spells ["acquire_ret".toList, pattern, kind] ⟨pattern, kind, 0, .acquireRet⟩
  | releaseArg {pattern arg kind : CppString} : IsDigits arg →
      Spells ["release_arg".toList, pattern, arg, kind]
        ⟨pattern, kind, digitsValue arg % 2 ^ 32, .releaseArg⟩

section Indexes

variable {token : CppString} {n : ℕ}

/-- The body of the loop is that of the other parsers of numbers. -/
theorem parseIndexDigit_eq : parseIndexDigit = parseDigit := by
  funext value c
  rw [parseIndexDigit, parseDigit]
  split_ifs with hdigit
  · have hlt : c.toNat - '0'.toNat < 10 := by
      simp only [Char.isDigit, Bool.and_eq_true, decide_eq_true_eq] at hdigit
      have hle : c.toNat ≤ '9'.toNat := hdigit.2
      have hnine : '9'.toNat = 57 := rfl
      have hzero : '0'.toNat = 48 := rfl
      omega
    dsimp only
    generalize c.toNat - '0'.toNat = digit at hlt
    have hiff : (2 ^ 32 - 1 - digit) / 10 < value ↔ 2 ^ 32 - 1 < value * 10 + digit := by omega
    rw [if_congr hiff rfl rfl]
  · rfl

/-- Digits are read as the number that they write, if it fits. -/
theorem foldlM_parseDigit_eq_some_iff {value : ℕ} (hvalue : value < 2 ^ 32) :
    token.foldlM parseDigit value = some n ↔ (∀ c ∈ token, c.isDigit = true) ∧
      n = token.foldl (fun n c => n * 10 + (c.toNat - '0'.toNat)) value ∧ n < 2 ^ 32 := by
  induction token generalizing value with
  | nil =>
    simp only [List.foldlM_nil, Option.pure_def, Option.some_inj, List.foldl_nil]
    constructor
    · rintro rfl
      exact ⟨by simp, rfl, hvalue⟩
    · rintro ⟨-, rfl, -⟩
      rfl
  | cons c cs ih =>
    have hmono : ∀ (cs : CppString) (value : ℕ),
        value ≤ cs.foldl (fun n c => n * 10 + (c.toNat - '0'.toNat)) value := by
      intro cs
      induction cs with
      | nil => exact fun value => le_rfl
      | cons c cs ih =>
        intro value
        have hstep : value ≤ value * 10 + (c.toNat - '0'.toNat) := by omega
        exact hstep.trans (ih _)
    rw [List.foldlM_cons, List.foldl_cons, parseDigit]
    dsimp only
    split_ifs with hdigit hlarge
    · refine iff_of_false (fun h => absurd h (Option.some_ne_none n).symm) ?_
      rintro ⟨-, rfl, hlt⟩
      have := hmono cs (value * 10 + (c.toNat - '0'.toNat))
      omega
    · rw [Option.bind_eq_bind, Option.bind_some, ih (by omega), List.forall_mem_cons]
      exact ⟨fun h => ⟨⟨hdigit, h.1⟩, h.2⟩, fun h => ⟨h.1.2, h.2⟩⟩
    · refine iff_of_false (fun h => absurd h (Option.some_ne_none n).symm) ?_
      rintro ⟨hall, -⟩
      exact absurd (hall c List.mem_cons_self) hdigit

/-- **An index of a buffer model** is read if it fits. -/
theorem parseUnsignedIndex_eq_some_iff : parseUnsignedIndex token = some n ↔
    IsDigits token ∧ digitsValue token < 2 ^ 32 ∧ n = digitsValue token := by
  rw [parseUnsignedIndex, IsDigits, parseIndexDigit_eq, ← foldl_eq_digitsValue]
  split_ifs with hempty
  · simp [List.isEmpty_iff.mp hempty]
  · rw [foldlM_parseDigit_eq_some_iff (by decide)]
    have hne : token ≠ [] := by simpa using hempty
    constructor
    · rintro ⟨hall, rfl, hlt⟩
      exact ⟨⟨hne, hall⟩, hlt, rfl⟩
    · rintro ⟨⟨-, hall⟩, hlt, rfl⟩
      exact ⟨hall, rfl, hlt⟩

/-- Digits of a resource model are read as the number that they write, wrapped around. -/
theorem foldlM_resourceDigit_eq_some_iff {value : ℕ} (hvalue : value < 2 ^ 32) :
    token.foldlM ResourceModel.parseIndexDigit value = some n ↔
      (∀ c ∈ token, c.isDigit = true) ∧
        n = token.foldl (fun n c => n * 10 + (c.toNat - '0'.toNat)) value % 2 ^ 32 := by
  induction token generalizing value with
  | nil =>
    simp only [List.foldlM_nil, Option.pure_def, Option.some_inj, List.foldl_nil,
      Nat.mod_eq_of_lt hvalue]
    exact ⟨fun h => ⟨by simp, h.symm⟩, fun h => h.2.symm⟩
  | cons c cs ih =>
    have hmod : ∀ (cs : CppString) (value : ℕ),
        cs.foldl (fun n c => n * 10 + (c.toNat - '0'.toNat)) (value % 2 ^ 32) % 2 ^ 32 =
          cs.foldl (fun n c => n * 10 + (c.toNat - '0'.toNat)) value % 2 ^ 32 := by
      intro cs
      induction cs with
      | nil => exact fun value => Nat.mod_mod value (2 ^ 32)
      | cons c cs ih =>
        intro value
        rw [List.foldl_cons, List.foldl_cons, ← ih, ← ih (value * 10 + _)]
        congr 2
        omega
    rw [List.foldlM_cons, List.foldl_cons, ResourceModel.parseIndexDigit]
    split_ifs with hdigit
    · rw [Option.bind_eq_bind, Option.bind_some, ih (Nat.mod_lt _ (by decide)), hmod,
        List.forall_mem_cons]
      exact ⟨fun h => ⟨⟨hdigit, h.1⟩, h.2⟩, fun h => ⟨h.1.2, h.2⟩⟩
    · refine ⟨nofun, ?_⟩
      rintro ⟨hall, -⟩
      exact absurd (hall c List.mem_cons_self) hdigit

/-- **An index of a resource model** is read in any case, and wraps around. -/
theorem resourceIndex_eq_some_iff : ResourceModel.parseUnsignedIndex token = some n ↔
    IsDigits token ∧ n = digitsValue token % 2 ^ 32 := by
  rw [ResourceModel.parseUnsignedIndex, IsDigits, ← foldl_eq_digitsValue]
  split_ifs with hempty
  · simp [List.isEmpty_iff.mp hempty]
  · rw [foldlM_resourceDigit_eq_some_iff (by decide)]
    have hne : token ≠ [] := by simpa using hempty
    exact ⟨fun h => ⟨⟨hne, h.1⟩, h.2⟩, fun h => ⟨h.1.2, h.2⟩⟩

/-- An index is written in digits. -/
theorem isDigits_decimal (n : ℕ) : IsDigits (decimal n) :=
  ⟨Nat.toDigits_ne_nil, fun _ hc => Nat.isDigit_of_mem_toDigits (by decide) le_rfl hc⟩

/-- The digits of an index have its value. -/
theorem digitsValue_decimal (hn : n < 2 ^ 32) : digitsValue (decimal n) = n := by
  have hparse : parseUnsignedIndex (decimal n) = some n := by
    have h := parseUnsigned_decimal hn
    rw [parseUnsigned, if_neg (isDigits_decimal n).1] at h
    rw [parseUnsignedIndex, if_neg (by simpa using (isDigits_decimal n).1), parseIndexDigit_eq]
    exact h
  exact (parseUnsignedIndex_eq_some_iff.mp hparse).2.2.symm

end Indexes

/-! ## Reading a file -/

section Files

variable {R : Type*}

/-- The number of a line stands in an error. -/
def NamesLine (error : CppString) (lineNo : ℕ) : Prop :=
  ∃ front back, error = front ++ " at line ".toList ++ decimal (lineNo % 2 ^ 32) ++ back ∧
    ∀ c ∈ back.head?, c = ' '

/-- **A reader of rules.** It accepts the files of which each line with words spells a rule, and
returns these rules. Any other file is refused at the first line that spells none, the rules in
front of it are returned as well, and the error gives the number of the line. -/
structure ReadsRules (parse : CppString → List R × Option CppString)
    (Spells : List CppString → R → Prop) : Prop where
  accepts (text : CppString) (rules : List R) : parse text = (rules, none) ↔
    List.Forall₂ (fun entry r => Spells entry.2 r) (entries modelSigns text) rules
  refuses (text : CppString) (rules : List R) :
    (∃ error, parse text = (rules, some error)) ↔
      ∃ front entry back, entries modelSigns text = front ++ entry :: back ∧
        List.Forall₂ (fun entry r => Spells entry.2 r) front rules ∧ ¬ ∃ r, Spells entry.2 r
  names (text : CppString) (rules : List R) (error : CppString) :
    parse text = (rules, some error) →
      ∃ front entry back, entries modelSigns text = front ++ entry :: back ∧
        List.Forall₂ (fun entry r => Spells entry.2 r) front rules ∧
        (¬ ∃ r, Spells entry.2 r) ∧ NamesLine error entry.1

/-- An error of a line gives its number. -/
theorem namesLine_lineError (message : CppString) (lineNo : ℕ) {back : CppString}
    (hback : ∀ c ∈ back.head?, c = ' ') : NamesLine (lineError message lineNo ++ back) lineNo :=
  ⟨message, back, rfl, hback⟩

/-- An error of a line that ends with its number. -/
theorem namesLine_lineError' (message : CppString) (lineNo : ℕ) :
    NamesLine (lineError message lineNo) lineNo := by
  have h : NamesLine (lineError message lineNo ++ []) lineNo :=
    namesLine_lineError message lineNo (by simp)
  rwa [List.append_nil] at h

/-- The loop reads rules if each line is read as it is spelled. -/
theorem readsRules_parseRules {rule : ℕ → List CppString → Except CppString R}
    {Spells : List CppString → R → Prop}
    (hok : ∀ lineNo tokens r, rule lineNo tokens = .ok r ↔ Spells tokens r)
    (herror : ∀ lineNo tokens error, rule lineNo tokens = .error error → NamesLine error lineNo) :
    ReadsRules (parseRules modelSigns rule) Spells := by
  have hspells : (fun (entry : ℕ × List CppString) r => rule entry.1 entry.2 = .ok r) =
      fun entry r => Spells entry.2 r := by
    funext entry r
    exact propext (hok entry.1 entry.2 r)
  have hrefused : ∀ (entry : ℕ × List CppString) (error : CppString),
      rule entry.1 entry.2 = .error error → ¬ ∃ r, Spells entry.2 r := by
    rintro entry error he ⟨r, hr⟩
    rw [← hok entry.1, he] at hr
    cases hr
  refine ⟨fun text rules => ?_, fun text rules => ⟨?_, ?_⟩, fun text rules error h => ?_⟩
  · rw [parseRules_eq_none_iff, hspells]
  · rintro ⟨error, h⟩
    obtain ⟨front, entry, back, hentries, hfront, he⟩ := parseRules_eq_some_iff.mp h
    exact ⟨front, entry, back, hentries, hspells ▸ hfront, hrefused entry error he⟩
  · rintro ⟨front, entry, back, hentries, hfront, hnone⟩
    cases hrule : rule entry.1 entry.2 with
    | ok r => exact absurd ⟨r, (hok _ _ _).mp hrule⟩ hnone
    | error error =>
      exact ⟨error, parseRules_eq_some_iff.mpr
        ⟨front, entry, back, hentries, hspells ▸ hfront, hrule⟩⟩
  · obtain ⟨front, entry, back, hentries, hfront, he⟩ := parseRules_eq_some_iff.mp h
    exact ⟨front, entry, back, hentries, hspells ▸ hfront, hrefused entry error he,
      herror _ _ _ he⟩

end Files

section Lines

variable {lineNo : ℕ} {tokens : List CppString}

/-- Whether brackets are found. -/
theorem hasUnsupportedBracketClassSyntax_eq_false_iff {pattern : CppString} :
    hasUnsupportedBracketClassSyntax pattern = false ↔ NoBrackets pattern := by
  simp [hasUnsupportedBracketClassSyntax, NoBrackets]

/-- A list of four. -/
theorem exists_of_length_eq_four (h : tokens.length = 4) : ∃ a b c d, tokens = [a, b, c, d] := by
  obtain ⟨a, rest, rfl⟩ := List.exists_cons_of_length_eq_add_one h
  obtain ⟨b, c, d, rfl⟩ := List.length_eq_three.mp (Nat.succ.inj h)
  exact ⟨a, b, c, d, rfl⟩

/-- **A line of a buffer model** is read as it is spelled. -/
theorem parseBufferWriteRule_eq_ok_iff {r : BufferWriteRule} :
    parseBufferWriteRule lineNo tokens = .ok r ↔ BufferWriteRule.Spells tokens r := by
  constructor
  · intro h
    unfold parseBufferWriteRule at h
    dsimp only at h
    split_ifs at h with haction hlength hbrackets haction' hlength hbrackets
    · obtain ⟨a, pattern, dest, size, rfl⟩ := exists_of_length_eq_four (not_not.mp hlength)
      split at h
      · next d s hd hs =>
        obtain ⟨hdest, hdlt, rfl⟩ := parseUnsignedIndex_eq_some_iff.mp hd
        obtain ⟨hsize, hslt, rfl⟩ := parseUnsignedIndex_eq_some_iff.mp hs
        obtain rfl := Except.ok.inj h
        have hpattern := hasUnsupportedBracketClassSyntax_eq_false_iff.mp (by simpa using hbrackets)
        rw [List.headD_cons] at haction
        rw [haction]
        exact .bounded hpattern hdest hdlt hsize hslt
      · cases h
    · obtain ⟨a, pattern, dest, rfl⟩ := List.length_eq_three.mp (not_not.mp hlength)
      split at h
      · next d hd =>
        obtain ⟨hdest, hdlt, rfl⟩ := parseUnsignedIndex_eq_some_iff.mp hd
        obtain rfl := Except.ok.inj h
        have hpattern := hasUnsupportedBracketClassSyntax_eq_false_iff.mp (by simpa using hbrackets)
        rw [List.headD_cons] at haction'
        rw [haction']
        exact .unbounded hpattern hdest hdlt
      · cases h
  · intro h
    cases h with
    | @bounded pattern dest size hpattern hdest hdlt hsize hslt =>
      have hd := parseUnsignedIndex_eq_some_iff.mpr ⟨hdest, hdlt, rfl⟩
      have hs := parseUnsignedIndex_eq_some_iff.mpr ⟨hsize, hslt, rfl⟩
      have hp := hasUnsupportedBracketClassSyntax_eq_false_iff.mpr hpattern
      simp [parseBufferWriteRule, hd, hs, hp]
    | @unbounded pattern dest hpattern hdest hdlt =>
      have hd := parseUnsignedIndex_eq_some_iff.mpr ⟨hdest, hdlt, rfl⟩
      have hp := hasUnsupportedBracketClassSyntax_eq_false_iff.mpr hpattern
      simp [parseBufferWriteRule, hd, hp]

/-- An error of a buffer model gives the line. -/
theorem parseBufferWriteRule_error {error : CppString}
    (h : parseBufferWriteRule lineNo tokens = .error error) : NamesLine error lineNo := by
  unfold parseBufferWriteRule at h
  dsimp only at h
  split_ifs at h
  · exact Except.error.inj h ▸ namesLine_lineError' _ _
  · exact Except.error.inj h ▸ namesLine_lineError _ _ (by simp)
  · split at h
    · cases h
    · exact Except.error.inj h ▸ namesLine_lineError' _ _
  · exact Except.error.inj h ▸ namesLine_lineError' _ _
  · exact Except.error.inj h ▸ namesLine_lineError _ _ (by simp)
  · split at h
    · cases h
    · exact Except.error.inj h ▸ namesLine_lineError' _ _
  · exact Except.error.inj h ▸ namesLine_lineError' _ _

/-- **A line of a stack escape model** is read as it is spelled. -/
theorem parseStackEscapeRule_eq_ok_iff {r : StackEscapeRule} :
    parseStackEscapeRule lineNo tokens = .ok r ↔ StackEscapeRule.Spells tokens r := by
  constructor
  · intro h
    unfold parseStackEscapeRule at h
    dsimp only at h
    split_ifs at h with haction hlength hbrackets
    obtain ⟨a, pattern, arg, rfl⟩ := List.length_eq_three.mp (not_not.mp hlength)
    split at h
    · next n hn =>
      obtain ⟨harg, hlt, rfl⟩ := parseUnsignedIndex_eq_some_iff.mp hn
      obtain rfl := Except.ok.inj h
      have hpattern := hasUnsupportedBracketClassSyntax_eq_false_iff.mp (by simpa using hbrackets)
      rw [List.headD_cons, not_not] at haction
      rw [haction]
      exact .noescapeArg hpattern harg hlt
    · cases h
  · rintro ⟨hpattern, harg, hlt⟩
    have hn := parseUnsignedIndex_eq_some_iff.mpr ⟨harg, hlt, rfl⟩
    have hp := hasUnsupportedBracketClassSyntax_eq_false_iff.mpr hpattern
    simp [parseStackEscapeRule, StackEscapeModel.parseUnsignedIndex, hn, hp]

/-- An error of a stack escape model gives the line. -/
theorem parseStackEscapeRule_error {error : CppString}
    (h : parseStackEscapeRule lineNo tokens = .error error) : NamesLine error lineNo := by
  unfold parseStackEscapeRule at h
  dsimp only at h
  split_ifs at h
  · exact Except.error.inj h ▸ namesLine_lineError' _ _
  · exact Except.error.inj h ▸ namesLine_lineError' _ _
  · exact Except.error.inj h ▸ namesLine_lineError _ _ (by simp)
  · split at h
    · cases h
    · exact Except.error.inj h ▸ namesLine_lineError' _ _

/-- A rule of a resource model with an index. -/
theorem parseIndexedResourceRule_eq_ok_iff {action : RuleAction} {name : String}
    {r : ResourceRule} : parseIndexedResourceRule action name lineNo tokens = .ok r ↔
      ∃ word pattern arg kind, tokens = [word, pattern, arg, kind] ∧ IsDigits arg ∧
        r = ⟨pattern, kind, digitsValue arg % 2 ^ 32, action⟩ := by
  constructor
  · intro h
    unfold parseIndexedResourceRule at h
    split_ifs at h with hlength
    obtain ⟨word, pattern, arg, kind, rfl⟩ := exists_of_length_eq_four (not_not.mp hlength)
    split at h
    · next n hn =>
      obtain ⟨harg, rfl⟩ := resourceIndex_eq_some_iff.mp hn
      exact ⟨word, pattern, arg, kind, rfl, harg, (Except.ok.inj h).symm⟩
    · cases h
  · rintro ⟨word, pattern, arg, kind, rfl, harg, rfl⟩
    have hn := resourceIndex_eq_some_iff.mpr ⟨harg, rfl⟩
    simp [parseIndexedResourceRule, hn]

/-- An error of such a rule gives the line. -/
theorem parseIndexedResourceRule_error {action : RuleAction} {name : String} {error : CppString}
    (h : parseIndexedResourceRule action name lineNo tokens = .error error) :
    NamesLine error lineNo := by
  unfold parseIndexedResourceRule at h
  split_ifs at h
  · exact Except.error.inj h ▸ namesLine_lineError' _ _
  · split at h
    · cases h
    · exact Except.error.inj h ▸ namesLine_lineError' _ _

/-- **A line of a resource model** is read as it is spelled. -/
theorem parseResourceRule_eq_ok_iff {r : ResourceRule} :
    parseResourceRule lineNo tokens = .ok r ↔ ResourceRule.Spells tokens r := by
  constructor
  · intro h
    unfold parseResourceRule at h
    split_ifs at h with hout hret hlength hrelease
    · obtain ⟨word, pattern, arg, kind, rfl, harg, rfl⟩ :=
        parseIndexedResourceRule_eq_ok_iff.mp h
      rw [List.headD_cons] at hout
      exact hout ▸ .acquireOut harg
    · obtain ⟨word, pattern, kind, rfl⟩ := List.length_eq_three.mp (not_not.mp hlength)
      obtain rfl := Except.ok.inj h
      rw [List.headD_cons] at hret
      exact hret ▸ .acquireRet
    · obtain ⟨word, pattern, arg, kind, rfl, harg, rfl⟩ :=
        parseIndexedResourceRule_eq_ok_iff.mp h
      rw [List.headD_cons] at hrelease
      exact hrelease ▸ .releaseArg harg
  · intro h
    have hret : "acquire_ret".toList ≠ "acquire_out".toList := by decide
    have hrelease : "release_arg".toList ≠ "acquire_out".toList := by decide
    have hrelease' : "release_arg".toList ≠ "acquire_ret".toList := by decide
    unfold parseResourceRule
    cases h with
    | acquireOut harg =>
      rw [if_pos (List.headD_cons ..)]
      exact parseIndexedResourceRule_eq_ok_iff.mpr ⟨_, _, _, _, rfl, harg, rfl⟩
    | acquireRet =>
      rw [List.headD_cons, if_neg hret, if_pos rfl]
      rfl
    | releaseArg harg =>
      rw [List.headD_cons, if_neg hrelease, if_neg hrelease', if_pos rfl]
      exact parseIndexedResourceRule_eq_ok_iff.mpr ⟨_, _, _, _, rfl, harg, rfl⟩

/-- An error of a resource model gives the line. -/
theorem parseResourceRule_error {error : CppString}
    (h : parseResourceRule lineNo tokens = .error error) : NamesLine error lineNo := by
  unfold parseResourceRule at h
  split_ifs at h
  · exact parseIndexedResourceRule_error h
  · exact Except.error.inj h ▸ namesLine_lineError' _ _
  · exact parseIndexedResourceRule_error h
  · exact Except.error.inj h ▸ namesLine_lineError' _ _

end Lines

/-- A buffer model is read rule by rule. -/
theorem readsRules_bufferWriteModel (path : CppString) :
    ReadsRules (fun text => parseBufferWriteModel path (some text)) BufferWriteRule.Spells :=
  readsRules_parseRules (fun _ _ _ => parseBufferWriteRule_eq_ok_iff)
    fun _ _ _ => parseBufferWriteRule_error

/-- A stack escape model is read rule by rule. -/
theorem readsRules_stackEscapeModel (path : CppString) :
    ReadsRules (fun text => parseStackEscapeModel path (some text)) StackEscapeRule.Spells :=
  readsRules_parseRules (fun _ _ _ => parseStackEscapeRule_eq_ok_iff)
    fun _ _ _ => parseStackEscapeRule_error

/-- A resource model is read rule by rule. -/
theorem readsRules_resourceModel (path : CppString) :
    ReadsRules (fun text => parseResourceModel path (some text)) ResourceRule.Spells :=
  readsRules_parseRules (fun _ _ _ => parseResourceRule_eq_ok_iff)
    fun _ _ _ => parseResourceRule_error

/-- **Which files are read**: each reader of a model file accepts the files of its rules, and
refuses any other one at the first line that is not a rule. -/
theorem modelFiles_read (path : CppString) :
    ReadsRules (fun text => parseBufferWriteModel path (some text)) BufferWriteRule.Spells ∧
      ReadsRules (fun text => parseStackEscapeModel path (some text)) StackEscapeRule.Spells ∧
      ReadsRules (fun text => parseResourceModel path (some text)) ResourceRule.Spells :=
  ⟨readsRules_bufferWriteModel path, readsRules_stackEscapeModel path,
    readsRules_resourceModel path⟩

/-- **The rules in force.** A buffer model with an error counts for nothing, and so does a resource
model with an error or without rules. Of a stack escape model the rules in front of the first error
stay in force. -/
theorem rulesInForce (c : Char) (path text : CppString) :
    (∀ rules, externalBufferModel (c :: path) (some text) = some rules ↔
      List.Forall₂ (fun entry r => BufferWriteRule.Spells entry.2 r) (entries modelSigns text)
        rules) ∧
    (∀ rules, resourceModel (c :: path) (some text) = some rules ↔
      List.Forall₂ (fun entry r => ResourceRule.Spells entry.2 r) (entries modelSigns text) rules ∧
        rules ≠ []) ∧
    ∀ rules, stackEscapeModel (c :: path) (some text) = rules ↔
      ∃ front back, entries modelSigns text = front ++ back ∧
        List.Forall₂ (fun entry r => StackEscapeRule.Spells entry.2 r) front rules ∧
        ∀ entry ∈ back.head?, ¬ ∃ r, StackEscapeRule.Spells entry.2 r := by
  refine ⟨fun rules => ?_, fun rules => ?_, fun rules => ?_⟩
  · rw [← (readsRules_bufferWriteModel (c :: path)).accepts, externalBufferModel, if_neg (by simp)]
    split <;> simp_all
  · rw [← (readsRules_resourceModel (c :: path)).accepts, resourceModel, if_neg (by simp)]
    split
    · next rules' hparse =>
      rw [hparse]
      split_ifs with hempty
      · simp only [Prod.mk.injEq, and_true, false_iff, not_and, not_not]
        rintro rfl
        exact List.isEmpty_iff.mp hempty
      · simp only [Option.some_inj, Prod.mk.injEq, and_true, iff_self_and]
        rintro rfl
        simpa using hempty
    · simp_all
  · have hreads := readsRules_stackEscapeModel (c :: path)
    rw [stackEscapeModel, if_neg (by simp)]
    constructor
    · rintro rfl
      cases herror : (parseStackEscapeModel (c :: path) (some text)).2 with
      | none =>
        exact ⟨_, [], (List.append_nil _).symm, (hreads.accepts text _).mp (Prod.ext rfl herror),
          by simp⟩
      | some error =>
        obtain ⟨front, entry, back, hentries, hfront, hentry⟩ :=
          (hreads.refuses text _).mp ⟨error, Prod.ext rfl herror⟩
        refine ⟨front, entry :: back, hentries, hfront, ?_⟩
        rintro entry' ⟨⟩
        exact hentry
    · rintro ⟨front, back, hentries, hfront, hback⟩
      cases back with
      | nil =>
        rw [List.append_nil] at hentries
        exact congrArg Prod.fst ((hreads.accepts text rules).mpr (hentries ▸ hfront))
      | cons entry back =>
        obtain ⟨error, herror⟩ := (hreads.refuses text rules).mpr
          ⟨front, entry, back, hentries, hfront, hback entry rfl⟩
        exact congrArg Prod.fst herror

/-! ## Writing a file -/

/-- The words of a rule of a buffer model. -/
def BufferWriteRule.spell (r : BufferWriteRule) : List CppString :=
  match r.kind with
  | .boundedWrite => ["bounded_write".toList, r.functionPattern.toList, decimal r.destArgIndex,
      decimal r.sizeArgIndex]
  | .unboundedWrite => ["unbounded_write".toList, r.functionPattern.toList,
      decimal r.destArgIndex]

/-- The rules of a buffer model. -/
structure BufferWriteRule.WellFormed (r : BufferWriteRule) : Prop where
  pattern : IsWord modelSigns r.functionPattern.toList
  noBrackets : NoBrackets r.functionPattern.toList
  dest : r.destArgIndex < 2 ^ 32
  size : r.sizeArgIndex < 2 ^ 32
  unbounded : r.kind = .unboundedWrite → r.sizeArgIndex = 0

/-- The words of a rule of a stack escape model. -/
def StackEscapeRule.spell (r : StackEscapeRule) : List CppString :=
  ["noescape_arg".toList, r.functionPattern, decimal r.argIndex]

/-- The rules of a stack escape model. -/
structure StackEscapeRule.WellFormed (r : StackEscapeRule) : Prop where
  pattern : IsWord modelSigns r.functionPattern
  noBrackets : NoBrackets r.functionPattern
  arg : r.argIndex < 2 ^ 32

/-- The words of a rule of a resource model. -/
def ResourceRule.spell (r : ResourceRule) : List CppString :=
  match r.action with
  | .acquireOut => ["acquire_out".toList, r.functionPattern, decimal r.argIndex, r.resourceKind]
  | .acquireRet => ["acquire_ret".toList, r.functionPattern, r.resourceKind]
  | .releaseArg => ["release_arg".toList, r.functionPattern, decimal r.argIndex, r.resourceKind]

/-- The rules of a resource model. -/
structure ResourceRule.WellFormed (r : ResourceRule) : Prop where
  pattern : IsWord modelSigns r.functionPattern
  kind : IsWord modelSigns r.resourceKind
  arg : r.argIndex < 2 ^ 32
  ret : r.action = .acquireRet → r.argIndex = 0

section Written

variable {R : Type*}

/-- **How rules are written.** Well-formed rules are read again as they are written, one on a line,
and only such rules are ever read, also from a file that is refused. -/
structure WritesRules (parse : CppString → List R × Option CppString)
    (spell : R → List CppString) (WellFormed : R → Prop) : Prop where
  roundTrip (rules : List R) : (∀ r ∈ rules, WellFormed r) →
    parse (renderLines modelSigns ' ' (rules.map spell)) = (rules, none)
  wellFormed (text : CppString) : ∀ r ∈ (parse text).1, WellFormed r

/-- Digits are a word. -/
theorem isWord_digits {token : CppString} (h : IsDigits token) : IsWord modelSigns token := by
  refine ⟨h.1, fun c hc => ?_⟩
  have hdigit := h.2 c hc
  have hcode : 48 ≤ c.toNat := by
    simp only [Char.isDigit, Bool.and_eq_true, decide_eq_true_eq] at hdigit
    exact hdigit.1
  constructor
  · have hspace : c ≠ ' ' := by
      rintro rfl
      exact absurd hcode (by decide)
    simp only [modelSigns, isSpace, hspace, decide_false, Bool.false_or, Bool.and_eq_false_iff,
      decide_eq_false_iff_not]
    omega
  · rintro rfl
    exact absurd hcode (by decide)

/-- What is read is well formed, and is read again, if this holds of the words of a rule. -/
theorem writesRules_of_readsRules {parse : CppString → List R × Option CppString}
    {Spells : List CppString → R → Prop} {spell : R → List CppString} {WellFormed : R → Prop}
    (hreads : ReadsRules parse Spells)
    (hspell : ∀ r, WellFormed r → Spells (spell r) r ∧ spell r ≠ [] ∧
      ∀ word ∈ spell r, IsWord modelSigns word)
    (hwell : ∀ tokens r, Spells tokens r → (∀ word ∈ tokens, IsWord modelSigns word) →
      WellFormed r) : WritesRules parse spell WellFormed := by
  refine ⟨fun rules hrules => ?_, fun text r hr => ?_⟩
  · have hentries : (entries modelSigns (renderLines modelSigns ' ' (rules.map spell))).map
        Prod.snd = rules.map spell := by
      refine entries_renderLines (by decide) (by decide) fun line hline => ?_
      obtain ⟨r, hr, rfl⟩ := List.mem_map.mp hline
      exact (hspell r (hrules r hr)).2
    rw [hreads.accepts, ← List.forall₂_map_left_iff (f := Prod.snd), hentries,
      List.forall₂_map_left_iff, List.forall₂_same]
    exact fun r hr => (hspell r (hrules r hr)).1
  · have hfront : ∃ front back, entries modelSigns text = front ++ back ∧
        List.Forall₂ (fun entry r => Spells entry.2 r) front (parse text).1 := by
      cases herror : (parse text).2 with
      | none =>
        exact ⟨_, [], (List.append_nil _).symm, (hreads.accepts text _).mp (Prod.ext rfl herror)⟩
      | some error =>
        obtain ⟨front, entry, back, hentries, hfront, -⟩ :=
          (hreads.refuses text _).mp ⟨error, Prod.ext rfl herror⟩
        exact ⟨front, entry :: back, hentries, hfront⟩
    obtain ⟨front, back, hentries, hfront⟩ := hfront
    obtain ⟨entry, hentry, hspells⟩ := exists_mem_of_forall₂ hfront hr
    have hmem : entry ∈ entriesFrom modelSigns 0 (linesOf modelSigns.newline text) := by
      rw [← entries, hentries]
      exact List.mem_append_left back hentry
    exact hwell entry.2 r hspells (isWord_of_mem_entriesFrom hmem)

/-- A rule of a buffer model is spelled by its words. -/
theorem spells_bufferWriteRule {r : BufferWriteRule} (h : r.WellFormed) :
    BufferWriteRule.Spells r.spell r ∧ r.spell ≠ [] ∧
      ∀ word ∈ r.spell, IsWord modelSigns word := by
  obtain ⟨pattern, dest, size, kind⟩ := r
  obtain ⟨hpattern, hbrackets, hdest, hsize, hunbounded⟩ := h
  dsimp only at hpattern hbrackets hdest hsize hunbounded
  have hword : IsWord modelSigns "bounded_write".toList := by decide
  have hword' : IsWord modelSigns "unbounded_write".toList := by decide
  cases kind with
  | boundedWrite =>
    refine ⟨?_, List.cons_ne_nil _ _, ?_⟩
    · have h := BufferWriteRule.Spells.bounded hbrackets (isDigits_decimal dest)
        ((digitsValue_decimal hdest).symm ▸ hdest) (isDigits_decimal size)
        ((digitsValue_decimal hsize).symm ▸ hsize)
      rwa [digitsValue_decimal hdest, digitsValue_decimal hsize, String.ofList_toList] at h
    · simp only [BufferWriteRule.spell, List.forall_mem_cons, hword, hpattern,
        isWord_digits (isDigits_decimal _), List.not_mem_nil, false_imp_iff, implies_true, and_self]
  | unboundedWrite =>
    obtain rfl := hunbounded rfl
    refine ⟨?_, List.cons_ne_nil _ _, ?_⟩
    · have h := BufferWriteRule.Spells.unbounded hbrackets (isDigits_decimal dest)
        ((digitsValue_decimal hdest).symm ▸ hdest)
      rwa [digitsValue_decimal hdest, String.ofList_toList] at h
    · simp only [BufferWriteRule.spell, List.forall_mem_cons, hword', hpattern,
        isWord_digits (isDigits_decimal _), List.not_mem_nil, false_imp_iff, implies_true, and_self]

/-- A rule of a stack escape model is spelled by its words. -/
theorem spells_stackEscapeRule {r : StackEscapeRule} (h : r.WellFormed) :
    StackEscapeRule.Spells r.spell r ∧ r.spell ≠ [] ∧
      ∀ word ∈ r.spell, IsWord modelSigns word := by
  obtain ⟨pattern, arg⟩ := r
  obtain ⟨hpattern, hbrackets, harg⟩ := h
  dsimp only at hpattern hbrackets harg
  have hword : IsWord modelSigns "noescape_arg".toList := by decide
  refine ⟨?_, List.cons_ne_nil _ _, ?_⟩
  · have h := StackEscapeRule.Spells.noescapeArg hbrackets (isDigits_decimal arg)
      ((digitsValue_decimal harg).symm ▸ harg)
    rwa [digitsValue_decimal harg] at h
  · simp only [StackEscapeRule.spell, List.forall_mem_cons, hword, hpattern,
      isWord_digits (isDigits_decimal arg), List.not_mem_nil, false_imp_iff, implies_true, and_self]

/-- A rule of a resource model is spelled by its words. -/
theorem spells_resourceRule {r : ResourceRule} (h : ResourceRule.WellFormed r) :
    ResourceRule.Spells (ResourceRule.spell r) r ∧ ResourceRule.spell r ≠ [] ∧
      ∀ word ∈ ResourceRule.spell r, IsWord modelSigns word := by
  obtain ⟨pattern, kind, arg, action⟩ := r
  obtain ⟨hpattern, hkind, harg, hret⟩ := h
  dsimp only at hpattern hkind harg hret
  have hout : IsWord modelSigns "acquire_out".toList := by decide
  have hacquire : IsWord modelSigns "acquire_ret".toList := by decide
  have hrelease : IsWord modelSigns "release_arg".toList := by decide
  have hdigits := isDigits_decimal arg
  have hvalue : digitsValue (decimal arg) % 2 ^ 32 = arg := by
    rw [digitsValue_decimal harg, Nat.mod_eq_of_lt harg]
  cases action with
  | acquireOut =>
    refine ⟨?_, List.cons_ne_nil _ _, ?_⟩
    · have h := @ResourceRule.Spells.acquireOut pattern _ kind hdigits
      rwa [hvalue] at h
    · simp only [ResourceRule.spell, List.forall_mem_cons, hout, hpattern, hkind,
        isWord_digits hdigits, List.not_mem_nil, false_imp_iff, implies_true, and_self]
  | acquireRet =>
    obtain rfl := hret rfl
    refine ⟨.acquireRet, List.cons_ne_nil _ _, ?_⟩
    simp only [ResourceRule.spell, List.forall_mem_cons, hacquire, hpattern, hkind,
      List.not_mem_nil, false_imp_iff, implies_true, and_self]
  | releaseArg =>
    refine ⟨?_, List.cons_ne_nil _ _, ?_⟩
    · have h := @ResourceRule.Spells.releaseArg pattern _ kind hdigits
      rwa [hvalue] at h
    · simp only [ResourceRule.spell, List.forall_mem_cons, hrelease, hpattern, hkind,
        isWord_digits hdigits, List.not_mem_nil, false_imp_iff, implies_true, and_self]

/-- What spells a rule of a buffer model is well formed. -/
theorem wellFormed_bufferWriteRule {tokens : List CppString} {r : BufferWriteRule}
    (h : BufferWriteRule.Spells tokens r) (hwords : ∀ word ∈ tokens, IsWord modelSigns word) :
    r.WellFormed := by
  cases h with
  | @bounded pattern dest size hpattern hdest hdlt hsize hslt =>
    have hword : IsWord modelSigns pattern := hwords pattern (by simp)
    exact ⟨by rwa [String.toList_ofList], by rwa [String.toList_ofList], hdlt, hslt, nofun⟩
  | @unbounded pattern dest hpattern hdest hdlt =>
    have hword : IsWord modelSigns pattern := hwords pattern (by simp)
    exact ⟨by rwa [String.toList_ofList], by rwa [String.toList_ofList], hdlt,
      Nat.two_pow_pos 32, fun _ => rfl⟩

/-- What spells a rule of a stack escape model is well formed. -/
theorem wellFormed_stackEscapeRule {tokens : List CppString} {r : StackEscapeRule}
    (h : StackEscapeRule.Spells tokens r) (hwords : ∀ word ∈ tokens, IsWord modelSigns word) :
    r.WellFormed := by
  obtain ⟨hpattern, harg, hlt⟩ := h
  exact ⟨hwords _ (by simp), hpattern, hlt⟩

/-- What spells a rule of a resource model is well formed. -/
theorem wellFormed_resourceRule {tokens : List CppString} {r : ResourceRule}
    (h : ResourceRule.Spells tokens r) (hwords : ∀ word ∈ tokens, IsWord modelSigns word) :
    ResourceRule.WellFormed r := by
  cases h with
  | acquireOut harg =>
    exact ⟨hwords _ (by simp), hwords _ (by simp), Nat.mod_lt _ (by decide), nofun⟩
  | acquireRet =>
    exact ⟨hwords _ (by simp), hwords _ (by simp), Nat.two_pow_pos 32, fun _ => rfl⟩
  | releaseArg harg =>
    exact ⟨hwords _ (by simp), hwords _ (by simp), Nat.mod_lt _ (by decide), nofun⟩

end Written

/-- **Which rules files stand for**: well-formed rules are read again as they are written, and
nothing else is read from any file. -/
theorem modelFiles_write (path : CppString) :
    WritesRules (fun text => parseBufferWriteModel path (some text)) BufferWriteRule.spell
        BufferWriteRule.WellFormed ∧
      WritesRules (fun text => parseStackEscapeModel path (some text)) StackEscapeRule.spell
        StackEscapeRule.WellFormed ∧
      WritesRules (fun text => parseResourceModel path (some text)) ResourceRule.spell
        ResourceRule.WellFormed :=
  ⟨writesRules_of_readsRules (readsRules_bufferWriteModel path) (fun _ => spells_bufferWriteRule)
      fun _ _ => wellFormed_bufferWriteRule,
    writesRules_of_readsRules (readsRules_stackEscapeModel path) (fun _ => spells_stackEscapeRule)
      fun _ _ => wellFormed_stackEscapeRule,
    writesRules_of_readsRules (readsRules_resourceModel path) (fun _ => spells_resourceRule)
      fun _ _ => wellFormed_resourceRule⟩

end StackAnalyzer.Passes
