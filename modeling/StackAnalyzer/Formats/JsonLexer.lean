import StackAnalyzer.Formats.Json

set_option relaxedAutoImplicit false
set_option autoImplicit false

/-!
# Tokens of JSON text

A JSON text is a sequence of tokens with blanks between them. The lexer reads it character by
character and keeps where it stands in a mode, so the tokens of a text that is put together from
parts are put together from the tokens of the parts.

## Main definitions

* `Formats.Token` — punctuation, strings, and the words for numbers, truth values and `null`.
* `Formats.scalar` — the value that a word stands for.
* `Formats.step`, `Formats.run` — the lexer. `Formats.lex` — the tokens of a text.
* `Formats.Lexes` — a text leads from one mode to another one.

## Main results

* `Formats.Lexes.append` — texts one after the other.
* `Formats.lexes_quote` — a quoted string is the token of the string.
* `Formats.lexes_word` — a word ends at the next delimiter.
* `Formats.scalar_toDigits` — the decimal digits of a number.
-/

namespace Formats

/-- The tokens of a JSON text. A scalar is what a word stands for. -/
inductive Token
  | lbrace | rbrace | lbracket | rbracket | colon | comma
  | string (s : List Char)
  | scalar (v : Json)

/-! ## Words -/

/-- The parts of a number: a sign, digits, digits of a fraction, and the exponent. -/
structure NumberParts where
  negative : Bool
  whole : List Char
  fraction : Option (List Char)
  exponent : Option (Bool × List Char)

/-- The digits at the front, and what follows them. -/
def spanDigits (w : List Char) : List Char × List Char :=
  (w.takeWhile Char.isDigit, w.dropWhile Char.isDigit)

/-- The exponent of a number, to the end of the word. -/
def exponentParts : List Char → Option (Option (Bool × List Char))
  | [] => some none
  | e :: rest =>
    if e = 'e' ∨ e = 'E' then
      let negative := decide (rest.head? = some '-')
      let digits := if negative || decide (rest.head? = some '+') then rest.drop 1 else rest
      if digits ≠ [] ∧ digits.all Char.isDigit then some (some (negative, digits)) else none
    else none

/-- The fraction and the exponent of a number. -/
def fractionParts : List Char → Option (Option (List Char) × Option (Bool × List Char))
  | [] => some (none, none)
  | c :: rest =>
    if c = '.' then
      if (spanDigits rest).1 = [] then none
      else (exponentParts (spanDigits rest).2).map fun e => (some (spanDigits rest).1, e)
    else (exponentParts (c :: rest)).map fun e => (none, e)

/-- The parts of a number. There are digits in front, no needless zeros before them, and digits
after a point and in an exponent. -/
def numberParts (w : List Char) : Option NumberParts :=
  let negative := decide (w.head? = some '-')
  let body := if negative then w.drop 1 else w
  let whole := (spanDigits body).1
  if whole = [] ∨ (whole.head? = some '0' ∧ whole.length ≠ 1) then none
  else (fractionParts (spanDigits body).2).map fun p => ⟨negative, whole, p.1, p.2⟩

/-- A number with a sign. -/
def signed (negative : Bool) (n : ℕ) : ℤ := if negative then -n else n

/-- The integer that a number equals, if any. -/
def NumberParts.asInteger (p : NumberParts) : Option ℤ :=
  let fraction := p.fraction.getD []
  let mantissa := Nat.ofDigitChars 10 (p.whole ++ fraction) 0
  let scale : ℤ :=
    (p.exponent.elim 0 fun e => signed e.1 (Nat.ofDigitChars 10 e.2 0)) - fraction.length
  if 0 ≤ scale then some (signed p.negative (mantissa * 10 ^ scale.toNat))
  else if mantissa % 10 ^ (-scale).toNat = 0 then
    some (signed p.negative (mantissa / 10 ^ (-scale).toNat))
  else none

/-- The value of a number: an integer where it is written as one. -/
def NumberParts.value (w : List Char) (p : NumberParts) : Json :=
  match p.fraction, p.exponent with
  | none, none => .integer (signed p.negative (Nat.ofDigitChars 10 p.whole 0))
  | _, _ => .number w p.asInteger

/-- The value that a word stands for. -/
def scalar (w : List Char) : Option Json :=
  if w = ['n', 'u', 'l', 'l'] then some .null
  else if w = ['t', 'r', 'u', 'e'] then some (.boolean true)
  else if w = ['f', 'a', 'l', 's', 'e'] then some (.boolean false)
  else (numberParts w).map (NumberParts.value w)

/-! ## The lexer -/

/-- The characters between tokens. -/
def isBlank (c : Char) : Bool := c = ' ' || c = '\t' || c = '\n' || c = '\r'

/-- The tokens of one character. -/
def punctuation (c : Char) : Option Token :=
  if c = '\x7b' then some .lbrace
  else if c = '\x7d' then some .rbrace
  else if c = '[' then some .lbracket
  else if c = ']' then some .rbracket
  else if c = ':' then some .colon
  else if c = ',' then some .comma
  else none

/-- A character that ends a word. -/
def isDelimiter (c : Char) : Bool := isBlank c || (punctuation c).isSome || decide (c = '"')

/-- The characters that a backslash and one more character stand for. -/
def simpleEscape (c : Char) : Option Char :=
  if c = '"' ∨ c = '\\' ∨ c = '/' then some c
  else if c = 'b' then some (Char.ofNat 8)
  else if c = 'f' then some (Char.ofNat 12)
  else if c = 'n' then some '\n'
  else if c = 'r' then some '\r'
  else if c = 't' then some '\t'
  else none

/-- The value of a hexadecimal digit. -/
def hexValue (c : Char) : Option ℕ :=
  if c.isDigit then some (c.toNat - '0'.toNat)
  else if 'a' ≤ c ∧ c ≤ 'f' then some (c.toNat - 'a'.toNat + 10)
  else if 'A' ≤ c ∧ c ≤ 'F' then some (c.toNat - 'A'.toNat + 10)
  else none

/-- Where the lexer stands: between tokens, in a word, or in a string. A string keeps what it has
so far, an escape also the code so far, the number of its digits left, and the first half of a
surrogate pair if there is one. -/
inductive Mode
  | between
  | word (w : List Char)
  | text (s : List Char)
  | escape (s : List Char)
  | hex (s : List Char) (high : Option ℕ) (digits code : ℕ)
  | pair (s : List Char) (high : ℕ)
  | pairEscape (s : List Char) (high : ℕ)
  | failed

/-- The end of an escape with a code. -/
def Mode.ofCode (s : List Char) (high : Option ℕ) (code : ℕ) : Mode :=
  match high with
  | none =>
    if 0xD800 ≤ code ∧ code < 0xDC00 then .pair s code
    else if 0xDC00 ≤ code ∧ code < 0xE000 then .failed
    else .text (s ++ [Char.ofNat code])
  | some high =>
    if 0xDC00 ≤ code ∧ code < 0xE000 then
      .text (s ++ [Char.ofNat (0x10000 + (high - 0xD800) * 0x400 + (code - 0xDC00))])
    else .failed

/-- A character between tokens. -/
def stepBetween (c : Char) : List Token × Mode :=
  if isBlank c then ([], .between)
  else if c = '"' then ([], .text [])
  else match punctuation c with
    | some t => ([t], .between)
    | none => ([], .word [c])

/-- One character: the tokens that are complete, and the mode after it. -/
def step : Mode → Char → List Token × Mode
  | .between, c => stepBetween c
  | .word w, c =>
    if isDelimiter c then
      match scalar w with
      | some v => (.scalar v :: (stepBetween c).1, (stepBetween c).2)
      | none => ([], .failed)
    else ([], .word (w ++ [c]))
  | .text s, c =>
    if c = '"' then ([.string s], .between)
    else if c = '\\' then ([], .escape s)
    else if c.toNat < 32 then ([], .failed)
    else ([], .text (s ++ [c]))
  | .escape s, c =>
    match simpleEscape c with
    | some d => ([], .text (s ++ [d]))
    | none => if c = 'u' then ([], .hex s none 4 0) else ([], .failed)
  | .hex s high digits code, c =>
    match hexValue c with
    | some d =>
      if digits ≤ 1 then ([], .ofCode s high (code * 16 + d))
      else ([], .hex s high (digits - 1) (code * 16 + d))
    | none => ([], .failed)
  | .pair s high, c => if c = '\\' then ([], .pairEscape s high) else ([], .failed)
  | .pairEscape s high, c => if c = 'u' then ([], .hex s (some high) 4 0) else ([], .failed)
  | .failed, _ => ([], .failed)

/-- The lexer, from a mode on. -/
def run : Mode → List Char → List Token × Mode
  | m, [] => ([], m)
  | m, c :: cs => ((step m c).1 ++ (run (step m c).2 cs).1, (run (step m c).2 cs).2)

/-- The tokens of a text. -/
def lex (text : List Char) : Option (List Token) :=
  match run .between text with
  | (ts, .between) => some ts
  | (ts, .word w) => (scalar w).map fun v => ts ++ [.scalar v]
  | _ => none

/-! ## Texts one after the other -/

/-- A text leads from one mode to another one and gives tokens. -/
def Lexes (m : Mode) (text : List Char) (ts : List Token) (m' : Mode) : Prop :=
  run m text = (ts, m')

/-- Nothing leads nowhere. -/
theorem Lexes.nil (m : Mode) : Lexes m [] [] m := rfl

/-- **One text after the other.** -/
theorem Lexes.append {m m' m'' : Mode} {a b : List Char} {ts us : List Token}
    (ha : Lexes m a ts m') (hb : Lexes m' b us m'') : Lexes m (a ++ b) (ts ++ us) m'' := by
  unfold Lexes at *
  induction a generalizing m ts with
  | nil =>
    obtain ⟨rfl, rfl⟩ := Prod.mk.inj ha
    exact hb
  | cons c cs ih =>
    simp only [run, Prod.mk.injEq] at ha
    obtain ⟨hts, hm⟩ := ha
    have hrest := ih (Prod.ext rfl hm : run (step m c).2 cs = ((run (step m c).2 cs).1, m'))
    rw [List.cons_append]
    simp only [run, hrest]
    rw [← hts, List.append_assoc]

/-- One character after the other. -/
theorem Lexes.cons {m m' m'' : Mode} {c : Char} {cs : List Char} {ts us : List Token}
    (hstep : step m c = (ts, m')) (hrest : Lexes m' cs us m'') :
    Lexes m (c :: cs) (ts ++ us) m'' := by
  unfold Lexes at *
  rw [run, hstep, hrest]

/-! ## Strings -/

/-- A character of a string, as `Json.quote` writes it. -/
def quoteChar (c : Char) : List Char :=
  if c = '"' ∨ c = '\\' then ['\\', c] else if c.toNat < 32 then '\\' :: Json.escapeControl c
  else [c]

/-- The hexadecimal digits. -/
theorem hexValue_digitChar {n : ℕ} (hn : n < 16) : hexValue (Nat.digitChar n) = some n := by
  interval_cases n <;> decide

/-- A backslash in a string. -/
theorem step_backslash (s : List Char) : step (.text s) '\\' = ([], .escape s) := rfl

/-- An escape by four digits gives the control character back. -/
theorem lexes_escapeCode (s : List Char) {c : Char} (hc : c.toNat < 32) :
    Lexes (.escape s) ('u' :: '0' :: '0' :: Nat.digitChar (c.toNat / 16) ::
      [Nat.digitChar (c.toNat % 16)]) [] (.text (s ++ [c])) := by
  have hhigh : hexValue (Nat.digitChar (c.toNat / 16)) = some (c.toNat / 16) :=
    hexValue_digitChar (by omega)
  have hlow : hexValue (Nat.digitChar (c.toNat % 16)) = some (c.toNat % 16) :=
    hexValue_digitChar (by omega)
  have hcode : Mode.ofCode s none (c.toNat / 16 * 16 + c.toNat % 16) = .text (s ++ [c]) := by
    rw [show c.toNat / 16 * 16 + c.toNat % 16 = c.toNat by omega, Mode.ofCode,
      if_neg (by omega), if_neg (by omega), Char.ofNat_toNat]
  have hfirst : step (.hex s none 2 0) (Nat.digitChar (c.toNat / 16)) =
      ([], .hex s none 1 (c.toNat / 16)) := by
    simp [step, hhigh]
  have hsecond : step (.hex s none 1 (c.toNat / 16)) (Nat.digitChar (c.toNat % 16)) =
      ([], .text (s ++ [c])) := by
    simp [step, hlow, hcode]
  have hu : step (.escape s) 'u' = ([], .hex s none 4 0) := rfl
  have hzero : step (.hex s none 4 0) '0' = ([], .hex s none 3 0) := rfl
  have hzero' : step (.hex s none 3 0) '0' = ([], .hex s none 2 0) := rfl
  exact Lexes.cons hu (Lexes.cons hzero (Lexes.cons hzero' (Lexes.cons hfirst
    (Lexes.cons hsecond (Lexes.nil _)))))

/-- A character of a string gives the character back. -/
theorem lexes_quoteChar (s : List Char) (c : Char) :
    Lexes (.text s) (quoteChar c) [] (.text (s ++ [c])) := by
  unfold quoteChar
  split_ifs with hquote hcontrol
  · have hescape : step (.escape s) c = ([], .text (s ++ [c])) := by
      rcases hquote with rfl | rfl <;> rfl
    exact Lexes.cons (step_backslash s) (Lexes.cons hescape (Lexes.nil _))
  · refine Lexes.cons (step_backslash s) ?_
    unfold Json.escapeControl
    split_ifs with htab hnewline hreturn
    · subst htab
      exact Lexes.cons rfl (Lexes.nil _)
    · subst hnewline
      exact Lexes.cons rfl (Lexes.nil _)
    · subst hreturn
      exact Lexes.cons rfl (Lexes.nil _)
    · exact lexes_escapeCode s hcontrol
  · have hplain : step (.text s) c = ([], .text (s ++ [c])) := by
      rw [not_or] at hquote
      simp [step, hquote, hcontrol]
    exact Lexes.cons hplain (Lexes.nil _)

/-- The characters of a string, one after the other. -/
theorem lexes_quoteChars (s t : List Char) :
    Lexes (.text s) (t.flatMap quoteChar) [] (.text (s ++ t)) := by
  induction t generalizing s with
  | nil =>
    rw [List.flatMap_nil, List.append_nil]
    exact Lexes.nil _
  | cons c t ih =>
    rw [List.flatMap_cons, show s ++ c :: t = s ++ [c] ++ t by simp]
    exact (lexes_quoteChar s c).append (ih (s ++ [c]))

/-- **A quoted string** is the token of the string. -/
theorem lexes_quote (s : List Char) : Lexes .between (Json.quote s) [.string s] .between := by
  have hopen : step .between '"' = ([], .text []) := rfl
  have hclose : Lexes (.text s) ['"'] [.string s] .between := Lexes.cons rfl (Lexes.nil _)
  have hinner := (lexes_quoteChars [] s).append hclose
  exact Lexes.cons hopen hinner

/-! ## Words in a text -/

/-- The characters of a word, after the first one. -/
theorem lexes_wordChars {w : List Char} (hw : ∀ c ∈ w, isDelimiter c = false) (u : List Char) :
    Lexes (.word u) w [] (.word (u ++ w)) := by
  induction w generalizing u with
  | nil =>
    rw [List.append_nil]
    exact Lexes.nil _
  | cons c w ih =>
    have hstep : step (.word u) c = ([], .word (u ++ [c])) := by
      simp [step, hw c List.mem_cons_self]
    rw [show u ++ c :: w = u ++ [c] ++ w by simp]
    exact Lexes.cons hstep (ih (fun d hd => hw d (List.mem_cons_of_mem c hd)) (u ++ [c]))

/-- The characters of a word. -/
theorem lexes_wordStart {w : List Char} (hw : ∀ c ∈ w, isDelimiter c = false) (hne : w ≠ []) :
    Lexes .between w [] (.word w) := by
  obtain ⟨c, w, rfl⟩ := List.exists_cons_of_ne_nil hne
  have hc : isDelimiter c = false := hw c List.mem_cons_self
  have hstep : step .between c = ([], .word [c]) := by
    simp only [isDelimiter, Bool.or_eq_false_iff, Option.isSome_eq_false_iff,
      Option.isNone_iff_eq_none, decide_eq_false_iff_not] at hc
    simp [step, stepBetween, hc]
  exact Lexes.cons hstep (lexes_wordChars (fun d hd => hw d (List.mem_cons_of_mem c hd)) [c])

/-- **A word ends at the next delimiter**, where its value is known. -/
theorem lexes_word {w : List Char} (hw : ∀ c ∈ w, isDelimiter c = false) {v : Json}
    (hv : scalar w = some v) (hne : w ≠ []) {c : Char} (hc : isDelimiter c = true)
    {rest : List Char} {ts : List Token} {m : Mode} (hrest : Lexes .between (c :: rest) ts m) :
    Lexes .between (w ++ c :: rest) (.scalar v :: ts) m := by
  have hend : Lexes (.word w) (c :: rest) (.scalar v :: ts) m := by
    unfold Lexes at *
    simp only [run, step, Prod.mk.injEq] at hrest
    simp [run, step, hc, hv, hrest]
  exact (lexes_wordStart hw hne).append hend

/-! ## Decimal digits -/

/-- A digit is no delimiter. -/
theorem isDelimiter_of_isDigit {c : Char} (hc : c.isDigit = true) : isDelimiter c = false := by
  have hrange : '0' ≤ c ∧ c ≤ '9' := by
    simp only [Char.isDigit, Bool.and_eq_true, decide_eq_true_eq] at hc
    exact hc
  have hne : ∀ d : Char, d < '0' ∨ '9' < d → c ≠ d := by
    rintro d hd rfl
    rcases hd with hd | hd
    · exact absurd hrange.1 (not_le.mpr hd)
    · exact absurd hrange.2 (not_le.mpr hd)
  simp [isDelimiter, isBlank, punctuation, hne ' ' (by decide), hne '\t' (by decide),
    hne '\n' (by decide), hne '\r' (by decide), hne '\x7b' (by decide), hne '\x7d' (by decide),
    hne '[' (by decide), hne ']' (by decide), hne ':' (by decide), hne ',' (by decide),
    hne '"' (by decide)]

/-- The digits of a word that begins with digits. -/
theorem spanDigits_append {digits rest : List Char} (hdigits : ∀ c ∈ digits, c.isDigit = true)
    (hrest : ∀ c ∈ rest.head?, c.isDigit = false) :
    spanDigits (digits ++ rest) = (digits, rest) := by
  unfold spanDigits
  rw [List.takeWhile_append_of_pos hdigits, List.dropWhile_append_of_pos hdigits]
  cases rest with
  | nil => simp
  | cons c rest =>
    have hc : c.isDigit = false := hrest c rfl
    simp [hc]

/-- The decimal digits of a positive number begin with a positive digit. -/
theorem head?_toDigits_ne {n : ℕ} (hn : n ≠ 0) : (Nat.toDigits 10 n).head? ≠ some '0' := by
  induction n using Nat.strong_induction_on with
  | _ n ih =>
    rw [Nat.toDigits_eq_if (by decide)]
    split_ifs with hsmall
    · interval_cases n
      · exact absurd rfl hn
      all_goals decide
    · have hhead := ih (n / 10) (by omega) (by omega)
      obtain ⟨c, cs, hcs⟩ := List.exists_cons_of_ne_nil (Nat.toDigits_ne_nil (n := n / 10))
      rw [hcs] at hhead ⊢
      simpa using hhead

/-- The decimal digits of a number have no needless zero. -/
theorem length_toDigits_of_head? {n : ℕ} (hhead : (Nat.toDigits 10 n).head? = some '0') :
    (Nat.toDigits 10 n).length = 1 := by
  by_cases hn : n = 0
  · subst hn
    rfl
  · exact absurd hhead (head?_toDigits_ne hn)

/-- The decimal digits of a number are digits. -/
theorem isDigit_toDigits {n : ℕ} : ∀ c ∈ Nat.toDigits 10 n, c.isDigit = true :=
  fun _ hc => Nat.isDigit_of_mem_toDigits (by decide) le_rfl hc

/-- The parts of a number whose whole part is written in decimal. -/
theorem numberParts_toDigits (negative : Bool) (n : ℕ) (rest : List Char)
    (hrest : ∀ c ∈ rest.head?, c.isDigit = false)
    {p : Option (List Char) × Option (Bool × List Char)} (hp : fractionParts rest = some p) :
    numberParts ((if negative then ['-'] else []) ++ Nat.toDigits 10 n ++ rest) =
      some ⟨negative, Nat.toDigits 10 n, p.1, p.2⟩ := by
  obtain ⟨c, cs, hcs⟩ := List.exists_cons_of_ne_nil (Nat.toDigits_ne_nil (n := n) (b := 10))
  have hc : c.isDigit = true := isDigit_toDigits c (by rw [hcs]; exact List.mem_cons_self)
  have hminus : c ≠ '-' := by
    rintro rfl
    exact absurd hc (by decide)
  have hspan := spanDigits_append (isDigit_toDigits (n := n)) hrest
  have hzero : ¬ (Nat.toDigits 10 n = [] ∨
      (Nat.toDigits 10 n).head? = some '0' ∧ (Nat.toDigits 10 n).length ≠ 1) := by
    rintro (hnil | ⟨hhead, hlength⟩)
    · exact absurd hnil Nat.toDigits_ne_nil
    · exact hlength (length_toDigits_of_head? hhead)
  cases negative with
  | true =>
    simp only [numberParts, if_true, List.cons_append, List.nil_append, List.head?_cons,
      decide_true, List.drop_succ_cons, List.drop_zero, hspan]
    rw [if_neg hzero, hp, Option.map_some]
  | false =>
    have hhead : (Nat.toDigits 10 n ++ rest).head? ≠ some '-' := by
      rw [hcs]
      simpa using hminus
    simp only [numberParts, Bool.false_eq_true, if_false, List.nil_append, hhead, decide_false,
      hspan]
    rw [if_neg hzero, hp, Option.map_some]

/-- A number is no other word. -/
theorem scalar_of_numberParts {w : List Char} {p : NumberParts} (hp : numberParts w = some p) :
    scalar w = some (p.value w) := by
  unfold scalar
  split_ifs with hnull htrue hfalse
  · subst hnull
    exact absurd hp (by simp [show numberParts ['n', 'u', 'l', 'l'] = none from rfl])
  · subst htrue
    exact absurd hp (by simp [show numberParts ['t', 'r', 'u', 'e'] = none from rfl])
  · subst hfalse
    exact absurd hp (by simp [show numberParts ['f', 'a', 'l', 's', 'e'] = none from rfl])
  · rw [hp, Option.map_some]

/-- **The decimal digits of a number** stand for the number. -/
theorem scalar_toDigits (n : ℕ) : scalar (Nat.toDigits 10 n) = some (.integer n) := by
  have hp := numberParts_toDigits false n [] (by simp)
    (show fractionParts [] = some (none, none) from rfl)
  rw [if_neg (by decide), List.nil_append, List.append_nil] at hp
  rw [scalar_of_numberParts hp]
  simp [NumberParts.value, signed, Nat.ofDigitChars_ten_toDigits]

/-- The fraction of a number with two digits after the point. -/
theorem fractionParts_two {d e : Char} (hd : d.isDigit = true) (he : e.isDigit = true) :
    fractionParts ['.', d, e] = some (some [d, e], none) := by
  have hspan : spanDigits ([d, e] ++ []) = ([d, e], []) :=
    spanDigits_append (by simp [hd, he]) (by simp)
  rw [List.append_nil] at hspan
  simp [fractionParts, hspan, exponentParts]

/-- **A number with two digits after the point.** -/
theorem scalar_fixed (negative : Bool) (n : ℕ) {d e : Char} (hd : d.isDigit = true)
    (he : e.isDigit = true) :
    scalar ((if negative then ['-'] else []) ++ Nat.toDigits 10 n ++ ['.', d, e]) =
      some (.number ((if negative then ['-'] else []) ++ Nat.toDigits 10 n ++ ['.', d, e])
        (NumberParts.asInteger ⟨negative, Nat.toDigits 10 n, some [d, e], none⟩)) := by
  have hp := numberParts_toDigits negative n ['.', d, e]
    (by
      rintro c hc
      obtain rfl : '.' = c := by simpa using hc
      decide) (fractionParts_two hd he)
  rw [scalar_of_numberParts hp]
  rfl

end Formats
