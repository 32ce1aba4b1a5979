import StackAnalyzer.Cli.Values

set_option relaxedAutoImplicit false
set_option autoImplicit false

/-!
# Splitting command lines

The command lines of requests are split by a machine with three flags, and those of compilation
databases by a tokenizer with three states. Both find the same arguments, but the tokenizer takes a
command line that ends in the middle of something as it is. An argument has no beginning of its own:
it is what has been read up to a blank, so an empty one is lost.

## Main definitions

* `StackAnalyzer.Cli.splitCommandLine` — the arguments of a command line, or an error.
* `StackAnalyzer.Cli.Complete`, `StackAnalyzer.Cli.EndsAfterBackslash`,
  `StackAnalyzer.Cli.EndsInQuotes` — how command lines end.
* `StackAnalyzer.Cli.quoteArgument`, `StackAnalyzer.Cli.joinArguments` — quoting.

## Main results

* `StackAnalyzer.Cli.splitCommandLine_agrees` — both find the same arguments, and when splitting
  fails.
* `StackAnalyzer.Cli.split_joinArguments_iff` — splitting undoes quoting if and only if no argument
  is empty.
-/

namespace StackAnalyzer.Cli

open CrossTU CompileCommands

/-! ## The machine -/

section Machine

/-- The variables of `splitCommandLine`. -/
structure SplitState where
  outArgs : List CppString := []
  current : CppString := []
  inSingleQuote : Bool := false
  inDoubleQuote : Bool := false
  escaping : Bool := false

/-- `flushCurrent`. -/
def SplitState.flushCurrent (st : SplitState) : SplitState :=
  if st.current = [] then st
  else { st with outArgs := st.outArgs ++ [st.current], current := [] }

/-- The body of the loop of `splitCommandLine`. -/
def splitStep (st : SplitState) (ch : Char) : SplitState :=
  if st.escaping then { st with current := st.current ++ [ch], escaping := false }
  else if st.inSingleQuote then
    if ch = Char.ofNat 39 then { st with inSingleQuote := false }
    else { st with current := st.current ++ [ch] }
  else if st.inDoubleQuote then
    if ch = '"' then { st with inDoubleQuote := false }
    else if ch = '\\' then { st with escaping := true }
    else { st with current := st.current ++ [ch] }
  else if isSpace ch then st.flushCurrent
  else if ch = Char.ofNat 39 then { st with inSingleQuote := true }
  else if ch = '"' then { st with inDoubleQuote := true }
  else if ch = '\\' then { st with escaping := true }
  else { st with current := st.current ++ [ch] }

/-- The error for a backslash at the end. -/
def danglingEscape : CppString := "Invalid command line: dangling escape at end of input".toList

/-- The error for a quote that is not closed. -/
def unterminatedQuote : CppString := "Invalid command line: unterminated quoted string".toList

/-- What `splitCommandLine` does after the loop. -/
def SplitState.finish (st : SplitState) : Except CppString (List CppString) :=
  if st.escaping then .error danglingEscape
  else if st.inSingleQuote || st.inDoubleQuote then .error unterminatedQuote
  else .ok st.flushCurrent.outArgs

/-- `splitCommandLine`. -/
def splitCommandLine (commandLine : CppString) : Except CppString (List CppString) :=
  (commandLine.foldl splitStep {}).finish

end Machine

/-! ## How command lines end -/

section Endings

/-- What may stand between double quotes: a backslash takes its meaning from the next character. -/
inductive DoubleQuoted : CppString → Prop
  | nil : DoubleQuoted []
  | plain {c : Char} {rest : CppString} : c ≠ '"' → c ≠ '\\' → DoubleQuoted rest →
      DoubleQuoted (c :: rest)
  | escape {c : Char} {rest : CppString} : DoubleQuoted rest → DoubleQuoted ('\\' :: c :: rest)

/-- **A complete command line**: plain characters, characters behind a backslash, and texts between
quotes. -/
inductive Complete : CppString → Prop
  | nil : Complete []
  | plain {c : Char} {rest : CppString} : c ≠ Char.ofNat 39 → c ≠ '"' → c ≠ '\\' → Complete rest →
      Complete (c :: rest)
  | escape {c : Char} {rest : CppString} : Complete rest → Complete ('\\' :: c :: rest)
  | single {body rest : CppString} : Char.ofNat 39 ∉ body → Complete rest →
      Complete (Char.ofNat 39 :: (body ++ Char.ofNat 39 :: rest))
  | double {body rest : CppString} : DoubleQuoted body → Complete rest →
      Complete ('"' :: (body ++ '"' :: rest))

/-- **A command line that ends right behind a backslash**, which is not escaped itself, and does not
stand between single quotes. -/
def EndsAfterBackslash (commandLine : CppString) : Prop :=
  ∃ front, Complete front ∧ (commandLine = front ++ ['\\'] ∨
    ∃ body, DoubleQuoted body ∧ commandLine = front ++ '"' :: (body ++ ['\\']))

/-- **A command line that ends in quotes**. -/
def EndsInQuotes (commandLine : CppString) : Prop :=
  ∃ front body, Complete front ∧
    (Char.ofNat 39 ∉ body ∧ commandLine = front ++ Char.ofNat 39 :: body ∨
      DoubleQuoted body ∧ commandLine = front ++ '"' :: body)

variable {piece rest : CppString}

/-- Pieces that complete command lines may begin with can stand in front of all of them. -/
theorem EndsAfterBackslash.prepend (h : EndsAfterBackslash rest)
    (hpiece : ∀ front, Complete front → Complete (piece ++ front)) :
    EndsAfterBackslash (piece ++ rest) := by
  obtain ⟨front, hfront, rfl | ⟨body, hbody, rfl⟩⟩ := h
  · exact ⟨piece ++ front, hpiece front hfront, Or.inl (List.append_assoc _ _ _).symm⟩
  · exact ⟨piece ++ front, hpiece front hfront,
      Or.inr ⟨body, hbody, (List.append_assoc _ _ _).symm⟩⟩

theorem EndsInQuotes.prepend (h : EndsInQuotes rest)
    (hpiece : ∀ front, Complete front → Complete (piece ++ front)) : EndsInQuotes (piece ++ rest) := by
  obtain ⟨front, body, hfront, ⟨hbody, rfl⟩ | ⟨hbody, rfl⟩⟩ := h
  · exact ⟨piece ++ front, body, hpiece front hfront,
      Or.inl ⟨hbody, (List.append_assoc _ _ _).symm⟩⟩
  · exact ⟨piece ++ front, body, hpiece front hfront,
      Or.inr ⟨hbody, (List.append_assoc _ _ _).symm⟩⟩

/-- A text behind a double quote: the quote is closed, or it ends before, maybe behind a
backslash. -/
theorem doubleQuoted_cases (text : CppString) :
    (∃ body tail, DoubleQuoted body ∧ text = body ++ '"' :: tail) ∨ DoubleQuoted text ∨
      ∃ body, DoubleQuoted body ∧ text = body ++ ['\\'] := by
  induction hlength : text.length using Nat.strong_induction_on generalizing text with
  | _ n ih =>
    cases text with
    | nil => exact Or.inr (Or.inl .nil)
    | cons c cs =>
      rw [List.length_cons] at hlength
      by_cases hquote : c = '"'
      · exact Or.inl ⟨[], cs, .nil, by rw [hquote]; rfl⟩
      by_cases hbackslash : c = '\\'
      · subst hbackslash
        cases cs with
        | nil => exact Or.inr (Or.inr ⟨[], .nil, rfl⟩)
        | cons d ds =>
          rw [List.length_cons] at hlength
          rcases ih ds.length (by omega) ds rfl with
            ⟨body, tail, hbody, rfl⟩ | hall | ⟨body, hbody, rfl⟩
          · exact Or.inl ⟨'\\' :: d :: body, tail, hbody.escape, rfl⟩
          · exact Or.inr (Or.inl hall.escape)
          · exact Or.inr (Or.inr ⟨'\\' :: d :: body, hbody.escape, rfl⟩)
      · rcases ih cs.length (by omega) cs rfl with
          ⟨body, tail, hbody, rfl⟩ | hall | ⟨body, hbody, rfl⟩
        · exact Or.inl ⟨c :: body, tail, hbody.plain hquote hbackslash, rfl⟩
        · exact Or.inr (Or.inl (hall.plain hquote hbackslash))
        · exact Or.inr (Or.inr ⟨c :: body, hbody.plain hquote hbackslash, rfl⟩)

/-- **Every command line ends in one of three ways.** -/
theorem ends_cases (commandLine : CppString) :
    Complete commandLine ∨ EndsAfterBackslash commandLine ∨ EndsInQuotes commandLine := by
  induction hlength : commandLine.length using Nat.strong_induction_on generalizing commandLine with
  | _ n ih =>
    -- a piece in front of a shorter command line
    have hstep : ∀ piece rest, commandLine = piece ++ rest → piece ≠ [] →
        (∀ front, Complete front → Complete (piece ++ front)) →
        Complete commandLine ∨ EndsAfterBackslash commandLine ∨ EndsInQuotes commandLine := by
      intro piece rest heq hne hpiece
      have hlt : rest.length < n := by
        have hpos := List.length_pos_of_ne_nil hne
        rw [← hlength, heq, List.length_append]
        omega
      rw [heq]
      rcases ih rest.length hlt rest rfl with hcomplete | hbackslash | hquotes
      · exact Or.inl (hpiece rest hcomplete)
      · exact Or.inr (Or.inl (hbackslash.prepend hpiece))
      · exact Or.inr (Or.inr (hquotes.prepend hpiece))
    cases hcommand : commandLine with
    | nil => exact Or.inl .nil
    | cons c cs =>
      rw [hcommand] at hstep
      by_cases hsingle : c = Char.ofNat 39
      · subst hsingle
        by_cases hmem : Char.ofNat 39 ∈ cs
        · obtain ⟨body, tail, rfl, hbody⟩ := List.eq_append_cons_of_mem hmem
          refine hstep (Char.ofNat 39 :: (body ++ [Char.ofNat 39])) tail (by simp) (by simp) ?_
          intro front hfront
          simpa using Complete.single hbody hfront
        · exact Or.inr (Or.inr ⟨[], cs, .nil, Or.inl ⟨hmem, rfl⟩⟩)
      by_cases hdouble : c = '"'
      · subst hdouble
        rcases doubleQuoted_cases cs with ⟨body, tail, hbody, rfl⟩ | hall | ⟨body, hbody, rfl⟩
        · refine hstep ('"' :: (body ++ ['"'])) tail (by simp) (by simp) ?_
          intro front hfront
          simpa using Complete.double hbody hfront
        · exact Or.inr (Or.inr ⟨[], cs, .nil, Or.inr ⟨hall, rfl⟩⟩)
        · exact Or.inr (Or.inl ⟨[], .nil, Or.inr ⟨body, hbody, rfl⟩⟩)
      by_cases hbackslash : c = '\\'
      · subst hbackslash
        cases cs with
        | nil => exact Or.inr (Or.inl ⟨[], .nil, Or.inl rfl⟩)
        | cons d ds => exact hstep ['\\', d] ds rfl (by simp) fun front hfront => hfront.escape
      · exact hstep [c] cs rfl (by simp) fun front hfront =>
          hfront.plain hsingle hdouble hbackslash

end Endings

/-! ## When splitting fails -/

section Failures

/-- The variables between two characters, in a state of the tokenizer. -/
def SplitState.within (outArgs : List CppString) (current : CppString) : QuoteState → SplitState
  | .normal => { outArgs := outArgs, current := current }
  | .singleQuote => { outArgs := outArgs, current := current, inSingleQuote := true }
  | .doubleQuote => { outArgs := outArgs, current := current, inDoubleQuote := true }

variable {outArgs : List CppString} {current : CppString} {c : Char}

theorem splitStep_blank (hspace : isSpace c = true) :
    splitStep (.within outArgs current .normal) c =
      .within (outArgs ++ pushToken current []) [] .normal := by
  by_cases hcurrent : current = [] <;>
    simp [splitStep, SplitState.within, SplitState.flushCurrent, pushToken, hspace, hcurrent]

theorem splitStep_plain (hspace : ¬ isSpace c = true) (hsingle : c ≠ Char.ofNat 39)
    (hdouble : c ≠ '"') (hbackslash : c ≠ '\\') :
    splitStep (.within outArgs current .normal) c = .within outArgs (current ++ [c]) .normal := by
  simp [splitStep, SplitState.within, hspace, hsingle, hdouble, hbackslash]

theorem splitStep_openSingle :
    splitStep (.within outArgs current .normal) (Char.ofNat 39) =
      .within outArgs current .singleQuote := by
  simp [splitStep, SplitState.within, isSpace]

theorem splitStep_openDouble :
    splitStep (.within outArgs current .normal) '"' = .within outArgs current .doubleQuote := by
  simp [splitStep, SplitState.within, isSpace]

theorem splitStep_escape :
    splitStep (splitStep (.within outArgs current .normal) '\\') c =
      .within outArgs (current ++ [c]) .normal := by
  simp [splitStep, SplitState.within, isSpace]

theorem splitStep_single (hsingle : c ≠ Char.ofNat 39) :
    splitStep (.within outArgs current .singleQuote) c =
      .within outArgs (current ++ [c]) .singleQuote := by
  simp [splitStep, SplitState.within, hsingle]

theorem splitStep_closeSingle :
    splitStep (.within outArgs current .singleQuote) (Char.ofNat 39) =
      .within outArgs current .normal := by
  simp [splitStep, SplitState.within]

theorem splitStep_double (hdouble : c ≠ '"') (hbackslash : c ≠ '\\') :
    splitStep (.within outArgs current .doubleQuote) c =
      .within outArgs (current ++ [c]) .doubleQuote := by
  simp [splitStep, SplitState.within, hdouble, hbackslash]

theorem splitStep_closeDouble :
    splitStep (.within outArgs current .doubleQuote) '"' = .within outArgs current .normal := by
  simp [splitStep, SplitState.within]

theorem splitStep_escapeDouble :
    splitStep (splitStep (.within outArgs current .doubleQuote) '\\') c =
      .within outArgs (current ++ [c]) .doubleQuote := by
  simp [splitStep, SplitState.within]

/-- Nothing is missing at the end. -/
theorem finish_normal :
    (SplitState.within outArgs current .normal).finish = .ok (outArgs ++ pushToken current []) := by
  by_cases hcurrent : current = [] <;>
    simp [SplitState.finish, SplitState.within, SplitState.flushCurrent, pushToken, hcurrent]

/-- A text between single quotes is read as it is. -/
theorem foldl_single {body : CppString} (hbody : Char.ofNat 39 ∉ body) :
    body.foldl splitStep (.within outArgs current .singleQuote) =
      .within outArgs (current ++ body) .singleQuote := by
  induction body generalizing current with
  | nil => simp
  | cons c cs ih =>
    rw [List.mem_cons, not_or] at hbody
    rw [List.foldl_cons, splitStep_single (Ne.symm hbody.1), ih hbody.2, List.append_assoc]
    rfl

/-- A text between double quotes does not close them. -/
theorem foldl_double {body : CppString} (hbody : DoubleQuoted body) :
    ∃ current', body.foldl splitStep (.within outArgs current .doubleQuote) =
      .within outArgs current' .doubleQuote := by
  induction hbody generalizing current with
  | nil => exact ⟨current, rfl⟩
  | plain hdouble hbackslash _ ih =>
    rw [List.foldl_cons, splitStep_double hdouble hbackslash]
    exact ih
  | escape _ ih =>
    rw [List.foldl_cons, List.foldl_cons, splitStep_escapeDouble]
    exact ih

/-- **A complete command line** leaves no flag behind. -/
theorem foldl_complete {front : CppString} (hfront : Complete front) :
    ∃ outArgs' current', front.foldl splitStep (.within outArgs current .normal) =
      .within outArgs' current' .normal := by
  induction hfront generalizing outArgs current with
  | nil => exact ⟨outArgs, current, rfl⟩
  | @plain c rest hsingle hdouble hbackslash _ ih =>
    rw [List.foldl_cons]
    by_cases hspace : isSpace c = true
    · rw [splitStep_blank hspace]
      exact ih
    · rw [splitStep_plain hspace hsingle hdouble hbackslash]
      exact ih
  | escape _ ih =>
    rw [List.foldl_cons, List.foldl_cons, splitStep_escape]
    exact ih
  | single hbody _ ih =>
    rw [List.foldl_cons, splitStep_openSingle, List.foldl_append, foldl_single hbody,
      List.foldl_cons, splitStep_closeSingle]
    exact ih
  | @double body rest hbody _ ih =>
    obtain ⟨current', hread⟩ : ∃ current', body.foldl splitStep
        (.within outArgs current .doubleQuote) = .within outArgs current' .doubleQuote :=
      foldl_double hbody
    rw [List.foldl_cons, splitStep_openDouble, List.foldl_append, hread, List.foldl_cons,
      splitStep_closeDouble]
    exact ih

/-- A complete command line is split. -/
theorem splitCommandLine_complete {commandLine : CppString} (h : Complete commandLine) :
    ∃ args, splitCommandLine commandLine = .ok args := by
  obtain ⟨outArgs, current, hread⟩ : ∃ outArgs current, commandLine.foldl splitStep
      (.within [] [] .normal) = .within outArgs current .normal := foldl_complete h
  exact ⟨_, (congrArg SplitState.finish hread).trans finish_normal⟩

/-- Splitting fails for a backslash at the end. -/
theorem splitCommandLine_backslash {commandLine : CppString} (h : EndsAfterBackslash commandLine) :
    splitCommandLine commandLine = .error danglingEscape := by
  obtain ⟨front, hfront, hends⟩ := h
  obtain ⟨outArgs, current, hread⟩ : ∃ outArgs current, front.foldl splitStep
      (.within [] [] .normal) = .within outArgs current .normal := foldl_complete hfront
  change (commandLine.foldl splitStep (.within [] [] .normal)).finish = _
  rcases hends with rfl | ⟨body, hbody, rfl⟩
  · rw [List.foldl_append, hread]
    simp [splitStep, SplitState.within, isSpace, SplitState.finish]
  · obtain ⟨current', hquoted⟩ : ∃ current', body.foldl splitStep
        (.within outArgs current .doubleQuote) = .within outArgs current' .doubleQuote :=
      foldl_double hbody
    rw [List.foldl_append, hread, List.foldl_cons, splitStep_openDouble, List.foldl_append, hquoted]
    simp [splitStep, SplitState.within, SplitState.finish]

/-- Splitting fails for quotes that are not closed. -/
theorem splitCommandLine_quotes {commandLine : CppString} (h : EndsInQuotes commandLine) :
    splitCommandLine commandLine = .error unterminatedQuote := by
  obtain ⟨front, body, hfront, hends⟩ := h
  obtain ⟨outArgs, current, hread⟩ : ∃ outArgs current, front.foldl splitStep
      (.within [] [] .normal) = .within outArgs current .normal := foldl_complete hfront
  change (commandLine.foldl splitStep (.within [] [] .normal)).finish = _
  rcases hends with ⟨hbody, rfl⟩ | ⟨hbody, rfl⟩
  · rw [List.foldl_append, hread, List.foldl_cons, splitStep_openSingle, foldl_single hbody]
    simp [SplitState.within, SplitState.finish]
  · obtain ⟨current', hquoted⟩ : ∃ current', body.foldl splitStep
        (.within outArgs current .doubleQuote) = .within outArgs current' .doubleQuote :=
      foldl_double hbody
    rw [List.foldl_append, hread, List.foldl_cons, splitStep_openDouble, hquoted]
    simp [SplitState.within, SplitState.finish]

end Failures

/-! ## Both find the same arguments -/

section Agreement

theorem pushToken_append (current : CppString) (tokens : List CppString) :
    pushToken current [] ++ tokens = pushToken current tokens := by
  unfold pushToken
  split_ifs <;> simp

/-- **From any state on both find the same arguments**, if splitting does not fail.

**Proof sketch.** By induction along the tokenizer. Each character leads both from one state to the
same other one; only a backslash at the end is read by the tokenizer, and makes splitting fail. -/
theorem eq_tokenizeFrom (rest : CppString) (quote : QuoteState) (current : CppString)
    (outArgs args : List CppString)
    (h : (rest.foldl splitStep (.within outArgs current quote)).finish = .ok args) :
    args = outArgs ++ tokenizeFrom rest quote current := by
  induction rest, quote, current using tokenizeFrom.induct generalizing outArgs with
  | case1 quote current =>
    cases quote with
    | normal =>
      rw [List.foldl_nil, finish_normal] at h
      rw [tokenizeFrom]
      exact (Except.ok.inj h).symm
    | singleQuote => cases h
    | doubleQuote => cases h
  | case2 c cs current hspace ih =>
    rw [List.foldl_cons, splitStep_blank hspace] at h
    rw [ih _ h, tokenizeFrom.eq_def (c :: cs)]
    simp only [hspace, if_true, List.append_assoc, pushToken_append]
  | case3 cs current hspace ih =>
    rw [List.foldl_cons, splitStep_openSingle] at h
    rw [ih _ h, tokenizeFrom.eq_def (Char.ofNat 39 :: cs)]
    simp only [hspace, Bool.false_eq_true, if_false, if_true]
  | case4 cs current hspace hsingle ih =>
    rw [List.foldl_cons, splitStep_openDouble] at h
    rw [ih _ h, tokenizeFrom.eq_def ('"' :: cs)]
    simp only [hspace, hsingle, Bool.false_eq_true, if_false, if_true]
  | case5 current hspace hsingle hdouble ih =>
    simp [splitStep, SplitState.within, isSpace, SplitState.finish] at h
  | case6 current d ds hspace hsingle hdouble ih =>
    rw [List.foldl_cons, List.foldl_cons, splitStep_escape] at h
    rw [ih _ h, tokenizeFrom, if_neg hspace, if_neg hsingle, if_neg hdouble, if_pos rfl]
  | case7 c cs current hspace hsingle hdouble hbackslash ih =>
    rw [List.foldl_cons, splitStep_plain hspace hsingle hdouble hbackslash] at h
    rw [ih _ h, tokenizeFrom.eq_def (c :: cs)]
    simp only [hspace, hsingle, hdouble, hbackslash, Bool.false_eq_true, if_false]
  | case8 cs current ih =>
    rw [List.foldl_cons, splitStep_closeSingle] at h
    rw [ih _ h, tokenizeFrom, if_pos rfl]
  | case9 c cs current hsingle ih =>
    rw [List.foldl_cons, splitStep_single hsingle] at h
    rw [ih _ h, tokenizeFrom, if_neg hsingle]
  | case10 cs current ih =>
    rw [List.foldl_cons, splitStep_closeDouble] at h
    rw [ih _ h, tokenizeFrom.eq_def ('"' :: cs)]
    simp only [if_true]
  | case11 current hdouble ih =>
    simp [splitStep, SplitState.within, SplitState.finish] at h
  | case12 current d ds hdouble ih =>
    rw [List.foldl_cons, List.foldl_cons, splitStep_escapeDouble] at h
    rw [ih _ h, tokenizeFrom, if_neg hdouble, if_pos rfl]
  | case13 c cs current hdouble hbackslash ih =>
    rw [List.foldl_cons, splitStep_double hdouble hbackslash] at h
    rw [ih _ h, tokenizeFrom.eq_def (c :: cs)]
    simp only [hdouble, hbackslash, if_false]

/-- The arguments that splitting finds are those of the tokenizer. -/
theorem eq_tokenizeCommandLine {commandLine : CppString} {args : List CppString}
    (h : splitCommandLine commandLine = .ok args) : args = tokenizeCommandLine commandLine :=
  eq_tokenizeFrom commandLine .normal [] [] args h

/-- **Both find the same arguments**, and splitting fails exactly for command lines that end in
quotes or right behind a backslash. -/
theorem splitCommandLine_agrees (commandLine : CppString) :
    (∀ args, splitCommandLine commandLine = .ok args → args = tokenizeCommandLine commandLine) ∧
      ((∃ error, splitCommandLine commandLine = .error error) ↔
        EndsInQuotes commandLine ∨ EndsAfterBackslash commandLine) := by
  refine ⟨fun args => eq_tokenizeCommandLine, ?_, ?_⟩
  · rintro ⟨error, herror⟩
    rcases ends_cases commandLine with hcomplete | hbackslash | hquotes
    · obtain ⟨args, hargs⟩ := splitCommandLine_complete hcomplete
      rw [hargs] at herror
      cases herror
    · exact Or.inr hbackslash
    · exact Or.inl hquotes
  · rintro (hquotes | hbackslash)
    · exact ⟨unterminatedQuote, splitCommandLine_quotes hquotes⟩
    · exact ⟨danglingEscape, splitCommandLine_backslash hbackslash⟩

end Agreement

/-! ## Quoting -/

section Quoting

/-- A character between single quotes: a single quote closes them, stands behind a backslash, and
opens them again. -/
def quoteChar (c : Char) : CppString :=
  if c = Char.ofNat 39 then [Char.ofNat 39, '\\', Char.ofNat 39, Char.ofNat 39] else [c]

/-- **An argument between single quotes.** -/
def quoteArgument (arg : CppString) : CppString :=
  Char.ofNat 39 :: (arg.flatMap quoteChar ++ [Char.ofNat 39])

/-- **Arguments between single quotes**, with blanks between them. -/
def joinArguments (args : List CppString) : CppString :=
  List.intercalate [' '] (args.map quoteArgument)

variable {outArgs : List CppString} {current : CppString}

/-- A quoted text is read as it was. -/
theorem foldl_quoteChar (arg : CppString) :
    (arg.flatMap quoteChar).foldl splitStep (.within outArgs current .singleQuote) =
      .within outArgs (current ++ arg) .singleQuote := by
  induction arg generalizing current with
  | nil => simp
  | cons c cs ih =>
    rw [List.flatMap_cons, List.foldl_append]
    by_cases hsingle : c = Char.ofNat 39
    · rw [quoteChar, if_pos hsingle, List.foldl_cons, splitStep_closeSingle, List.foldl_cons,
        List.foldl_cons, splitStep_escape, List.foldl_cons, splitStep_openSingle, List.foldl_nil, ih,
        List.append_assoc, hsingle]
      rfl
    · rw [quoteChar, if_neg hsingle, List.foldl_cons, splitStep_single hsingle, List.foldl_nil, ih,
        List.append_assoc]
      rfl

/-- A quoted argument is added to what has been read. -/
theorem foldl_quoteArgument (arg : CppString) :
    (quoteArgument arg).foldl splitStep (.within outArgs current .normal) =
      .within outArgs (current ++ arg) .normal := by
  rw [quoteArgument, List.foldl_cons, splitStep_openSingle, List.foldl_append, foldl_quoteChar,
    List.foldl_cons, splitStep_closeSingle, List.foldl_nil]

/-- Quoted arguments that follow a blank. -/
theorem finish_quoted (args : List CppString) :
    ((args.flatMap fun arg => ' ' :: quoteArgument arg).foldl splitStep
      (.within outArgs current .normal)).finish =
        .ok (outArgs ++ pushToken current (args.filter (· ≠ []))) := by
  induction args generalizing outArgs current with
  | nil => exact finish_normal
  | cons arg args ih =>
    have hblank : isSpace ' ' = true := by decide
    rw [List.flatMap_cons, List.cons_append, List.foldl_cons, splitStep_blank hblank,
      List.foldl_append, foldl_quoteArgument, List.nil_append, ih, List.append_assoc,
      pushToken_append]
    by_cases harg : arg = [] <;> simp [pushToken, harg]

theorem joinArguments_cons (arg : CppString) (args : List CppString) :
    joinArguments (arg :: args) =
      quoteArgument arg ++ args.flatMap fun arg => ' ' :: quoteArgument arg := by
  induction args generalizing arg with
  | nil => simp [joinArguments]
  | cons next args ih =>
    have hjoin : joinArguments (arg :: next :: args) =
        quoteArgument arg ++ [' '] ++ joinArguments (next :: args) :=
      List.intercalate_cons_cons
    rw [hjoin, ih, List.flatMap_cons, List.append_assoc]
    rfl

/-- **Splitting quoted arguments** gives all of them that are not empty. -/
theorem splitCommandLine_joinArguments (args : List CppString) :
    splitCommandLine (joinArguments args) = .ok (args.filter (· ≠ [])) := by
  cases args with
  | nil => rfl
  | cons arg args =>
    change ((joinArguments (arg :: args)).foldl splitStep (.within [] [] .normal)).finish = _
    rw [joinArguments_cons, List.foldl_append, foldl_quoteArgument, finish_quoted]
    by_cases harg : arg = [] <;> simp [pushToken, harg]

/-- **Splitting undoes quoting** if and only if no argument is empty: an argument that is empty has
no character, and leaves no trace. -/
theorem split_joinArguments_iff (args : List CppString) :
    (splitCommandLine (joinArguments args) = .ok args ∧
      tokenizeCommandLine (joinArguments args) = args) ↔ [] ∉ args := by
  have hsplit := splitCommandLine_joinArguments args
  have htokens : args.filter (· ≠ []) = tokenizeCommandLine (joinArguments args) :=
    eq_tokenizeCommandLine hsplit
  have hfilter : args.filter (· ≠ []) = args ↔ [] ∉ args := by
    rw [List.filter_eq_self]
    simp only [ne_eq, decide_eq_true_eq]
    exact ⟨fun h hmem => h [] hmem rfl, fun h arg harg heq => h (heq ▸ harg)⟩
  rw [hsplit, ← htokens, Except.ok.injEq, and_self, hfilter]

/-- **An empty argument is lost.** -/
theorem not_split_joinArguments_empty :
    ¬ (splitCommandLine (joinArguments [[]]) = .ok [[]] ∧
      tokenizeCommandLine (joinArguments [[]]) = [[]]) := by
  rintro ⟨hsplit, -⟩
  rw [splitCommandLine_joinArguments] at hsplit
  cases hsplit

end Quoting

end StackAnalyzer.Cli
