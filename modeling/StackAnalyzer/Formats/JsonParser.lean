import StackAnalyzer.Formats.JsonLexer

set_option relaxedAutoImplicit false
set_option autoImplicit false

/-!
# Parsing JSON text

A parser of token lists, and from it the value that a text is. The members of an object are kept in
the order of the text.

## Main definitions

* `Formats.parseValue` — a value at the front of a list of tokens.
* `Formats.parseJson` — the value of a text: the text is this one value.
* `Formats.tokens` — the tokens of a value.
* `Formats.IsText` — a text of a value, where a delimiter follows.
* `Formats.line`, `Formats.separate`, `Formats.arrayText`, `Formats.objectText` — what printers put
  around values.

## Main results

* `Formats.parseTokens_tokens` — the tokens of a value are parsed as the value.
* `Formats.parseJson_of_lexes` — a text with the tokens of a value is the value.
* `Formats.lexes_line` — a key with its value.
* `Formats.isText_arrayText`, `Formats.MemberLines.isText_objectText` — arrays and objects.
-/

namespace Formats

mutual

/-- A value at the front of a list of tokens, and what follows it. -/
def parseValue : ℕ → List Token → Option (Json × List Token)
  | 0, _ => none
  | _ + 1, .scalar v :: rest => some (v, rest)
  | _ + 1, .string s :: rest => some (.string s, rest)
  | _ + 1, .lbracket :: .rbracket :: rest => some (.array [], rest)
  | n + 1, .lbracket :: rest => (parseElements n rest).map fun r => (.array r.1, r.2)
  | _ + 1, .lbrace :: .rbrace :: rest => some (.object [], rest)
  | n + 1, .lbrace :: rest => (parseMembers n rest).map fun r => (.object r.1, r.2)
  | _ + 1, _ => none

/-- The elements of an array, from one of them on. -/
def parseElements : ℕ → List Token → Option (List Json × List Token)
  | 0, _ => none
  | n + 1, ts =>
    match parseValue n ts with
    | some (v, .rbracket :: rest) => some ([v], rest)
    | some (v, .comma :: rest) => (parseElements n rest).map fun r => (v :: r.1, r.2)
    | _ => none

/-- The members of an object, from one of them on. -/
def parseMembers : ℕ → List Token → Option (Members × List Token)
  | 0, _ => none
  | n + 1, .string key :: .colon :: ts =>
    match parseValue n ts with
    | some (v, .rbrace :: rest) => some ([(key, v)], rest)
    | some (v, .comma :: rest) => (parseMembers n rest).map fun r => ((key, v) :: r.1, r.2)
    | _ => none
  | _ + 1, _ => none

end

/-- A value that takes all tokens. Each call takes a token, so there are never more calls inside
each other than twice the tokens. -/
def parseTokens (ts : List Token) : Option Json :=
  match parseValue (2 * ts.length + 2) ts with
  | some (v, []) => some v
  | _ => none

/-- **The value of a text**: the text is exactly this one JSON value. -/
def parseJson (text : List Char) : Option Json := (lex text).bind parseTokens

mutual

/-- The tokens of a value. -/
def tokens : Json → List Token
  | .null => [.scalar .null]
  | .boolean b => [.scalar (.boolean b)]
  | .integer n => [.scalar (.integer n)]
  | .number text asInteger => [.scalar (.number text asInteger)]
  | .string s => [.string s]
  | .array [] => [.lbracket, .rbracket]
  | .array (v :: vs) => .lbracket :: (tokens v ++ elementTokens vs)
  | .object [] => [.lbrace, .rbrace]
  | .object ((key, v) :: ms) => .lbrace :: .string key :: .colon :: (tokens v ++ memberTokens ms)

/-- The tokens of an array after its first element. -/
def elementTokens : List Json → List Token
  | [] => [.rbracket]
  | v :: vs => .comma :: (tokens v ++ elementTokens vs)

/-- The tokens of an object after its first member. -/
def memberTokens : List (List Char × Json) → List Token
  | [] => [.rbrace]
  | (key, v) :: ms => .comma :: .string key :: .colon :: (tokens v ++ memberTokens ms)

end

/-- The first token of a value is no closing bracket. -/
theorem head_tokens (v : Json) : ∃ t ts, tokens v = t :: ts ∧ t ≠ .rbracket := by
  cases v with
  | null | boolean | integer | number | string => exact ⟨_, _, rfl, by simp⟩
  | array vs => cases vs <;> exact ⟨_, _, rfl, by simp⟩
  | object ms => rcases ms with _ | ⟨⟨key, v⟩, ms⟩ <;> exact ⟨_, _, rfl, by simp⟩

/-- An array that is not empty. -/
theorem parseValue_lbracket {n : ℕ} {ts : List Token} (h : ∀ rest, ts ≠ .rbracket :: rest) :
    parseValue (n + 1) (.lbracket :: ts) =
      (parseElements n ts).map fun r => (.array r.1, r.2) := by
  cases ts with
  | nil => rfl
  | cons t ts => cases t <;> first | rfl | exact absurd rfl (h ts)

mutual

/-- **The tokens of a value are parsed as the value.** -/
theorem parseValue_tokens (v : Json) (n : ℕ) (rest : List Token)
    (hn : 2 * (tokens v).length ≤ n) :
    parseValue n (tokens v ++ rest) = some (v, rest) := by
  cases v with
  | null | boolean | integer | number | string =>
    simp only [tokens, List.length_singleton] at hn
    obtain ⟨n, rfl⟩ : ∃ k, n = k + 1 := ⟨n - 1, by omega⟩
    rfl
  | array vs =>
    cases vs with
    | nil =>
      simp only [tokens, List.length_cons] at hn
      obtain ⟨n, rfl⟩ : ∃ k, n = k + 1 := ⟨n - 1, by omega⟩
      rfl
    | cons v vs =>
      simp only [tokens, List.length_cons, List.length_append] at hn
      obtain ⟨n, rfl⟩ : ∃ k, n = k + 1 := ⟨n - 1, by omega⟩
      obtain ⟨t, ts, hts, hne⟩ := head_tokens v
      rw [tokens, List.cons_append, parseValue_lbracket]
      · rw [parseElements_tokens v vs n rest (by omega)]
        rfl
      · intro rest' heq
        rw [hts] at heq
        exact hne (List.cons.inj heq).1
  | object ms =>
    cases ms with
    | nil =>
      simp only [tokens, List.length_cons] at hn
      obtain ⟨n, rfl⟩ : ∃ k, n = k + 1 := ⟨n - 1, by omega⟩
      rfl
    | cons m ms =>
      obtain ⟨key, v⟩ := m
      simp only [tokens, List.length_cons, List.length_append] at hn
      obtain ⟨n, rfl⟩ : ∃ k, n = k + 1 := ⟨n - 1, by omega⟩
      have hmembers := parseMembers_tokens key v ms n rest (by omega)
      rw [tokens, List.cons_append, List.cons_append, List.cons_append]
      rw [List.cons_append, List.cons_append] at hmembers
      show (parseMembers n _).map _ = _
      rw [hmembers]
      rfl
termination_by n

/-- The elements of an array. -/
theorem parseElements_tokens (v : Json) (vs : List Json) (n : ℕ) (rest : List Token)
    (hn : 2 * ((tokens v).length + (elementTokens vs).length) - 1 ≤ n) :
    parseElements n (tokens v ++ elementTokens vs ++ rest) = some (v :: vs, rest) := by
  have hpos : 1 ≤ (elementTokens vs).length := by cases vs <;> simp [elementTokens]
  obtain ⟨n, rfl⟩ : ∃ k, n = k + 1 := ⟨n - 1, by omega⟩
  rw [List.append_assoc, parseElements, parseValue_tokens v n _ (by omega)]
  cases vs with
  | nil => rfl
  | cons w ws =>
    simp only [elementTokens, List.length_cons, List.length_append] at hn
    rw [elementTokens, List.cons_append]
    dsimp only
    rw [parseElements_tokens w ws n rest (by omega)]
    rfl
termination_by n

/-- The members of an object. -/
theorem parseMembers_tokens (key : List Char) (v : Json) (ms : List (List Char × Json)) (n : ℕ)
    (rest : List Token) (hn : 2 * ((tokens v).length + (memberTokens ms).length) - 1 ≤ n) :
    parseMembers n (.string key :: .colon :: (tokens v ++ memberTokens ms) ++ rest) =
      some ((key, v) :: ms, rest) := by
  have hpos : 1 ≤ (memberTokens ms).length := by
    rcases ms with _ | ⟨⟨k, w⟩, ms⟩ <;> simp [memberTokens]
  obtain ⟨n, rfl⟩ : ∃ k, n = k + 1 := ⟨n - 1, by omega⟩
  rw [List.cons_append, List.cons_append, List.append_assoc, parseMembers,
    parseValue_tokens v n _ (by omega)]
  cases ms with
  | nil => rfl
  | cons m ms =>
    obtain ⟨k, w⟩ := m
    simp only [memberTokens, List.length_cons, List.length_append] at hn
    rw [memberTokens, List.cons_append]
    dsimp only
    rw [parseMembers_tokens k w ms n rest (by omega)]
    rfl
termination_by n

end

/-- **The tokens of a value are parsed as the value.** -/
theorem parseTokens_tokens (v : Json) : parseTokens (tokens v) = some v := by
  have h := parseValue_tokens v (2 * (tokens v).length + 2) [] (by omega)
  rw [List.append_nil] at h
  rw [parseTokens, h]

/-- **A text with the tokens of a value** is the value. -/
theorem parseJson_of_lexes {text : List Char} {v : Json}
    (h : Lexes .between text (tokens v) .between) : parseJson text = some v := by
  rw [parseJson, lex, h]
  exact parseTokens_tokens v

/-! ## Texts of values -/

/-- A text of a value, where a delimiter follows. -/
def IsText (text : List Char) (v : Json) : Prop :=
  ∀ ⦃c : Char⦄ ⦃rest : List Char⦄ ⦃ts : List Token⦄ ⦃m : Mode⦄, isDelimiter c = true →
    Lexes .between (c :: rest) ts m → Lexes .between (text ++ c :: rest) (tokens v ++ ts) m

/-- A text that ends between tokens. -/
theorem Lexes.isText {text : List Char} {v : Json}
    (h : Lexes .between text (tokens v) .between) : IsText text v :=
  fun _ _ _ _ _ hrest => h.append hrest

/-- A quoted string. -/
theorem isText_quote (s : List Char) : IsText (Json.quote s) (.string s) := by
  apply Lexes.isText
  simpa only [tokens] using lexes_quote s

/-- A word. -/
theorem isText_word {w : List Char} (hw : ∀ c ∈ w, isDelimiter c = false) (hne : w ≠ []) {v : Json}
    (hv : scalar w = some v) (htokens : tokens v = [.scalar v]) : IsText w v := by
  intro c rest ts m hc hrest
  rw [htokens]
  exact lexes_word hw hv hne hc hrest

/-- The word `null`. -/
theorem isText_null : IsText ['n', 'u', 'l', 'l'] .null :=
  isText_word (by simp [isDelimiter, isBlank, punctuation]) (by simp) (by simp [scalar])
    (by rw [tokens])

/-- The word `true`. -/
theorem isText_true : IsText ['t', 'r', 'u', 'e'] (.boolean true) :=
  isText_word (by simp [isDelimiter, isBlank, punctuation]) (by simp) (by simp [scalar])
    (by rw [tokens])

/-- The word `false`. -/
theorem isText_false : IsText ['f', 'a', 'l', 's', 'e'] (.boolean false) :=
  isText_word (by simp [isDelimiter, isBlank, punctuation]) (by simp) (by simp [scalar])
    (by rw [tokens])

/-- The decimal digits of a number. -/
theorem isText_toDigits (n : ℕ) : IsText (Nat.toDigits 10 n) (.integer n) :=
  isText_word (fun _ hc => isDelimiter_of_isDigit (isDigit_toDigits _ hc)) Nat.toDigits_ne_nil
    (scalar_toDigits n) (by rw [tokens])

/-! ## Printers -/

/-- A key at an indentation. -/
def jsonKey (indent : ℕ) (key : String) : List Char :=
  List.replicate indent ' ' ++ Json.quote key.toList ++ [':', ' ']

/-- A member of an object. -/
def jsonMember (key : String) (v : Json) : List Char × Json := (key.toList, v)

/-- A key with the text of its value, and what ends the line. -/
def line (indent : ℕ) (key : String) (text ending : List Char) : List Char :=
  jsonKey indent key ++ text ++ ending

/-- Texts in an array: each but the last one is followed by the separator. -/
def separate (separator ending : List Char) (texts : List (List Char)) : List Char :=
  (texts.mapIdx fun i text =>
    text ++ if i + 1 < texts.length then separator else ending).flatten

/-- Blanks have no tokens. -/
theorem lexes_blanks (n : ℕ) : Lexes .between (List.replicate n ' ') [] .between := by
  induction n with
  | zero => exact Lexes.nil _
  | succ n ih => exact Lexes.cons (show step .between ' ' = ([], .between) from rfl) ih

/-- A text at an indentation. -/
theorem Lexes.indented {text : List Char} {ts : List Token} {m : Mode}
    (h : Lexes .between text ts m) (n : ℕ) :
    Lexes .between (List.replicate n ' ' ++ text) ts m :=
  (lexes_blanks n).append h

/-- A text with a new line at its end. -/
theorem Lexes.newline {m : Mode} {text : List Char} {ts : List Token}
    (h : Lexes m text ts .between) : Lexes m (text ++ ['\n']) ts .between := by
  have hend := h.append (show Lexes .between ['\n'] [] .between from rfl)
  rwa [List.append_nil] at hend

/-- The tokens of a key. -/
theorem lexes_jsonKey (indent : ℕ) (key : String) :
    Lexes .between (jsonKey indent key) [.string key.toList, .colon] .between := by
  have hcolon : Lexes .between [':', ' '] [.colon] .between := rfl
  exact ((lexes_blanks indent).append (lexes_quote key.toList)).append hcolon

/-- **A key with its value.** -/
theorem lexes_line (indent : ℕ) (key : String) {text : List Char} {v : Json} (htext : IsText text v)
    {c : Char} {rest : List Char} {ts : List Token} (hc : isDelimiter c = true)
    (hrest : Lexes .between (c :: rest) ts .between) :
    Lexes .between (line indent key text (c :: rest))
      (.string key.toList :: .colon :: (tokens v ++ ts)) .between := by
  unfold line
  rw [List.append_assoc]
  exact (lexes_jsonKey indent key).append (htext hc hrest)

/-- A line in the middle of an object. -/
theorem lexes_line_comma (indent : ℕ) (key : String) {text : List Char} {v : Json}
    (htext : IsText text v) :
    Lexes .between (line indent key text [',', '\n'])
      (.string key.toList :: .colon :: (tokens v ++ [.comma])) .between :=
  lexes_line indent key htext rfl rfl

/-- The last line of an object. -/
theorem lexes_line_last (indent : ℕ) (key : String) {text : List Char} {v : Json}
    (htext : IsText text v) :
    Lexes .between (line indent key text ['\n'])
      (.string key.toList :: .colon :: tokens v) .between := by
  have h := lexes_line indent key htext (show isDelimiter '\n' = true from rfl)
    (show Lexes .between ['\n'] [] .between from rfl)
  rwa [List.append_nil] at h

@[simp] theorem separate_nil (separator ending : List Char) : separate separator ending [] = [] :=
  rfl

/-- The last text is followed by the ending. -/
theorem separate_singleton (separator ending text : List Char) :
    separate separator ending [text] = text ++ ending := by
  simp [separate]

/-- A text that is not the last one is followed by the separator. -/
theorem separate_cons (separator ending text u : List Char) (texts : List (List Char)) :
    separate separator ending (text :: u :: texts) =
      text ++ separator ++ separate separator ending (u :: texts) := by
  unfold separate
  rw [List.mapIdx_cons, List.flatten_cons, if_pos (by simp), List.append_assoc]
  simp [List.append_assoc]

/-- Texts with separators, before a closing bracket: the tokens that follow the opening one. -/
theorem lexes_separate {separator ending closing : List Char}
    (hseparator : Lexes .between separator [.comma] .between)
    (hending : Lexes .between ending [] .between)
    (hclosing : Lexes .between closing [.rbracket] .between) {text : List Char} {v : Json}
    {texts : List (List Char)} {vs : List Json}
    (hhead : Lexes .between text (tokens v) .between)
    (htail : List.Forall₂ (fun text v => Lexes .between text (tokens v) .between) texts vs) :
    Lexes .between (separate separator ending (text :: texts) ++ closing)
      (tokens v ++ elementTokens vs) .between := by
  induction htail generalizing text v with
  | nil =>
    rw [separate_singleton, elementTokens]
    simpa only [List.append_nil] using (hhead.append hending).append hclosing
  | cons hu _ ih =>
    rw [separate_cons, elementTokens, List.append_assoc, List.append_assoc]
    exact hhead.append (hseparator.append (ih hu))

/-- **Texts with separators are the elements of an array.** -/
theorem lexes_array {separator ending opening closing : List Char}
    (hseparator : Lexes .between separator [.comma] .between)
    (hending : Lexes .between ending [] .between)
    (hopening : Lexes .between opening [.lbracket] .between)
    (hclosing : Lexes .between closing [.rbracket] .between)
    {texts : List (List Char)} {vs : List Json}
    (h : List.Forall₂ (fun text v => Lexes .between text (tokens v) .between) texts vs) :
    Lexes .between (opening ++ (separate separator ending texts ++ closing))
      (tokens (.array vs)) .between := by
  cases h with
  | nil =>
    rw [separate_nil, tokens]
    exact hopening.append hclosing
  | cons hhead htail =>
    rw [tokens]
    exact hopening.append (lexes_separate hseparator hending hclosing hhead htail)

/-- An array with its elements on lines of their own. -/
def arrayText (indent : ℕ) (texts : List (List Char)) : List Char :=
  ['[', '\n'] ++
    (separate [',', '\n'] ['\n'] texts ++ (List.replicate indent ' ' ++ [']']))

/-- **An array with its elements on lines of their own.** -/
theorem isText_arrayText (indent : ℕ) {texts : List (List Char)} {vs : List Json}
    (h : List.Forall₂ (fun text v => Lexes .between text (tokens v) .between) texts vs) :
    IsText (arrayText indent texts) (.array vs) := by
  apply Lexes.isText
  exact lexes_array (show Lexes .between [',', '\n'] [.comma] .between from rfl)
    (show Lexes .between ['\n'] [] .between from rfl)
    (show Lexes .between ['[', '\n'] [.lbracket] .between from rfl)
    ((show Lexes .between [']'] [.rbracket] .between from rfl).indented indent) h

/-- An object with one member, in one line. -/
def inlineText (key : String) (text : List Char) : List Char :=
  ['\x7b', ' '] ++ (line 0 key text [' '] ++ ['\x7d'])

/-- **An object with one member, in one line.** -/
theorem isText_inlineText (key : String) {text : List Char} {v : Json} (h : IsText text v) :
    IsText (inlineText key text) (.object [jsonMember key v]) := by
  apply Lexes.isText
  have hline := lexes_line 0 key h (show isDelimiter ' ' = true from rfl)
    (show Lexes .between [' '] [] .between from rfl)
  have hopening : Lexes .between ['\x7b', ' '] [.lbrace] .between := rfl
  have hclosing : Lexes .between ['\x7d'] [.rbrace] .between := rfl
  rw [jsonMember, tokens, memberTokens, inlineText]
  simpa using hopening.append (hline.append hclosing)

/-- An object with a member on each line. -/
def objectText (indent : ℕ) (lines : List (List Char)) : List Char :=
  ['\x7b', '\n'] ++ (lines.flatten ++ (List.replicate indent ' ' ++ ['\x7d']))

/-- The lines of the members of an object, each but the last one with a comma. -/
inductive MemberLines : List (List Char) → Members → Prop
  | last {text : List Char} {key : List Char} {v : Json}
      (h : Lexes .between text (.string key :: .colon :: tokens v) .between) :
      MemberLines [text] [(key, v)]
  | cons {text : List Char} {key : List Char} {v : Json} {lines : List (List Char)} {ms : Members}
      (h : Lexes .between text (.string key :: .colon :: (tokens v ++ [.comma])) .between)
      (hrest : MemberLines lines ms) : MemberLines (text :: lines) ((key, v) :: ms)

namespace MemberLines

/-- A line before other ones. -/
theorem line {indent : ℕ} {key : String} {text : List Char} {v : Json} {lines : List (List Char)}
    {ms : Members} (htext : IsText text v) (hrest : MemberLines lines ms) :
    MemberLines (line indent key text [',', '\n'] :: lines) (jsonMember key v :: ms) :=
  .cons (lexes_line_comma indent key htext) hrest

/-- The last line. -/
theorem lastLine {indent : ℕ} {key : String} {text : List Char} {v : Json} (htext : IsText text v) :
    MemberLines [Formats.line indent key text ['\n']] [jsonMember key v] :=
  .last (lexes_line_last indent key htext)

/-- The lines, before the closing brace. -/
theorem lexes_flatten {lines : List (List Char)} {ms : Members} (h : MemberLines lines ms)
    {closing : List Char} (hclosing : Lexes .between closing [.rbrace] .between) :
    ∃ key v rest, ms = (key, v) :: rest ∧ Lexes .between (lines.flatten ++ closing)
      (.string key :: .colon :: (tokens v ++ memberTokens rest)) .between := by
  induction h with
  | last h =>
    refine ⟨_, _, [], rfl, ?_⟩
    rw [List.flatten_singleton, memberTokens]
    exact h.append hclosing
  | cons h _ ih =>
    obtain ⟨key, v, rest, rfl, hrest⟩ := ih
    refine ⟨_, _, _, rfl, ?_⟩
    rw [List.flatten_cons, List.append_assoc, memberTokens]
    simpa only [List.append_assoc, List.cons_append, List.nil_append] using h.append hrest

/-- **An object with a member on each line.** -/
theorem lexes_objectText {lines : List (List Char)} {ms : Members} (h : MemberLines lines ms)
    (indent : ℕ) : Lexes .between (objectText indent lines) (tokens (.object ms)) .between := by
  have hclosing : Lexes .between (List.replicate indent ' ' ++ ['\x7d']) [.rbrace] .between :=
    (lexes_blanks indent).append (show Lexes .between ['\x7d'] [.rbrace] .between from rfl)
  have hopening : Lexes .between ['\x7b', '\n'] [.lbrace] .between := rfl
  obtain ⟨key, v, rest, rfl, hrest⟩ := h.lexes_flatten hclosing
  rw [tokens]
  exact hopening.append hrest

/-- The text of such an object. -/
theorem isText_objectText {lines : List (List Char)} {ms : Members} (h : MemberLines lines ms)
    (indent : ℕ) : IsText (objectText indent lines) (.object ms) :=
  (h.lexes_objectText indent).isText

end MemberLines

end Formats
