import StackAnalyzer.Maps.KeepBest
import StackAnalyzer.Formats.Json

set_option relaxedAutoImplicit false
set_option autoImplicit false

/-!
# Compile commands

The arguments of an entry of a compilation database are taken from its list of arguments or from its
command line, and those for output, dependencies and the input file are stripped. Of two commands
for one file the one with more semantic weight is preferred, and then the one with more arguments,
the smaller directory and the smaller arguments.

## Main definitions

* `StackAnalyzer.CompileCommands.tokenizeCommandLine` — the arguments of a command line.
* `StackAnalyzer.CompileCommands.stripOutputAndDependencyArgs`,
  `StackAnalyzer.CompileCommands.stripLeadingCommandTokens` — what is stripped.
* `StackAnalyzer.CompileCommands.commandSemanticWeight`,
  `StackAnalyzer.CompileCommands.shouldPreferCandidateCommand` — which command is preferred.

## Main results

* `StackAnalyzer.CompileCommands.shouldPrefer_iff` — the preference compares four keys.
* `StackAnalyzer.CompileCommands.isStrictTotalOrder_shouldPrefer` — it is a strict total order.
-/

namespace StackAnalyzer.CompileCommands

open Formats

/-- `CompileCommand`. -/
structure CompileCommand where
  directory : List Char
  arguments : List (List Char)
  deriving DecidableEq

/-! ## Arguments -/

/-- `std::isspace`. -/
def isSpace (c : Char) : Bool :=
  c = ' ' || (9 ≤ c.toNat && c.toNat ≤ 13)

/-- The states of the tokenizer. -/
inductive QuoteState
  | normal
  | singleQuote
  | doubleQuote

/-- The token that has been read so far, unless it is empty, in front of the tokens after it. -/
def pushToken (current : List Char) (tokens : List (List Char)) : List (List Char) :=
  if current = [] then tokens else current :: tokens

/-- The loop of `tokenizeCommandLine`. A backslash stands for itself at the end of the text. -/
def tokenizeFrom : List Char → QuoteState → List Char → List (List Char)
  | [], _, current => pushToken current []
  | c :: cs, .normal, current =>
    if isSpace c then pushToken current (tokenizeFrom cs .normal [])
    else if c = Char.ofNat 39 then tokenizeFrom cs .singleQuote current
    else if c = '"' then tokenizeFrom cs .doubleQuote current
    else if c = '\\' then
      match cs with
      | [] => tokenizeFrom [] .normal (current ++ [c])
      | d :: ds => tokenizeFrom ds .normal (current ++ [d])
    else tokenizeFrom cs .normal (current ++ [c])
  | c :: cs, .singleQuote, current =>
    if c = Char.ofNat 39 then tokenizeFrom cs .normal current
    else tokenizeFrom cs .singleQuote (current ++ [c])
  | c :: cs, .doubleQuote, current =>
    if c = '"' then tokenizeFrom cs .normal current
    else if c = '\\' then
      match cs with
      | [] => tokenizeFrom [] .doubleQuote (current ++ [c])
      | d :: ds => tokenizeFrom ds .doubleQuote (current ++ [d])
    else tokenizeFrom cs .doubleQuote (current ++ [c])

/-- `tokenizeCommandLine`. -/
def tokenizeCommandLine (command : List Char) : List (List Char) :=
  tokenizeFrom command .normal []

/-- An argument is one of some texts. -/
def isOneOf (texts : List String) (arg : List Char) : Bool :=
  texts.any fun text => decide (text.toList = arg)

/-- An argument begins with one of some texts. -/
def beginsWith (texts : List String) (arg : List Char) : Bool :=
  texts.any fun text => text.toList.isPrefixOf arg

/-- The loop of `stripOutputAndDependencyArgs`, with whether the next argument is skipped. -/
def stripOutputFrom : Bool → List (List Char) → List (List Char)
  | _, [] => []
  | true, _ :: args => stripOutputFrom false args
  | false, arg :: args =>
    if isOneOf ["-o", "--output"] arg then stripOutputFrom true args
    else if 2 < arg.length ∧ beginsWith ["-o"] arg = true then stripOutputFrom false args
    else if isOneOf ["-MF", "-MT", "-MQ"] arg then stripOutputFrom true args
    else if 3 < arg.length ∧ beginsWith ["-MF", "-MT", "-MQ"] arg = true then
      stripOutputFrom false args
    else if isOneOf ["-M", "-MM", "-MD", "-MMD", "-MG", "-MP"] arg then stripOutputFrom false args
    else arg :: stripOutputFrom false args

/-- `stripOutputAndDependencyArgs`. -/
def stripOutputAndDependencyArgs (args : List (List Char)) : List (List Char) :=
  stripOutputFrom false args

/-- `stripLeadingCommandTokens`: what stands before the first option or response file. -/
def stripLeadingCommandTokens (args : List (List Char)) : List (List Char) :=
  args.dropWhile fun token => !(decide (token.head? = some '-') || decide (token.head? = some '@'))

/-- `extractArguments`. -/
def extractArguments (obj : Members) : List (List Char) :=
  match (obj.get "arguments".toList).bind Json.getAsArray with
  | some values => values.filterMap Json.getAsString
  | none =>
    match (obj.get "command".toList).bind Json.getAsString with
    | some command => tokenizeCommandLine command
    | none => []

/-! ## Preference -/

/-- What an argument adds to the weight, and whether there is an argument after it. -/
def argumentWeight (arg : List Char) (hasNext : Bool) : ℕ :=
  if arg = [] then 0
  else if isOneOf ["-I", "-isystem", "-D", "-U", "-include", "-imacros"] arg then
    if hasNext then 4 else 3
  else if beginsWith ["-I", "-D", "-U", "--sysroot=", "-std=", "-isystem"] arg then 3
  else if isOneOf ["-std", "--sysroot"] arg then
    if hasNext then 3 else 2
  else if arg.head? = some '-' then 1
  else 0

/-- `commandSemanticWeight`. -/
def commandSemanticWeight : List (List Char) → ℕ
  | [] => 0
  | arg :: args => argumentWeight arg (!args.isEmpty) + commandSemanticWeight args

/-- `shouldPreferCandidateCommand`. -/
def shouldPreferCandidateCommand (existing candidate : CompileCommand) : Bool :=
  let existingWeight := commandSemanticWeight existing.arguments
  let candidateWeight := commandSemanticWeight candidate.arguments
  if candidateWeight ≠ existingWeight then decide (existingWeight < candidateWeight)
  else if candidate.arguments.length ≠ existing.arguments.length then
    decide (existing.arguments.length < candidate.arguments.length)
  else if candidate.directory ≠ existing.directory then
    decide (candidate.directory < existing.directory)
  else decide (candidate.arguments < existing.arguments)

/-- The four keys of a command, the more preferred the greater. -/
def preferenceKey (command : CompileCommand) :
    ℕ ×ₗ ℕ ×ₗ (List Char)ᵒᵈ ×ₗ (List (List Char))ᵒᵈ :=
  toLex (commandSemanticWeight command.arguments, toLex (command.arguments.length,
    toLex (OrderDual.toDual command.directory, OrderDual.toDual command.arguments)))

/-- **The preference compares four keys**, one after the other. -/
theorem shouldPrefer_iff (existing candidate : CompileCommand) :
    shouldPreferCandidateCommand existing candidate = true ↔
      preferenceKey existing < preferenceKey candidate := by
  simp only [preferenceKey, Prod.Lex.toLex_lt_toLex, OrderDual.toDual_lt_toDual,
    shouldPreferCandidateCommand, OrderDual.toDual_inj]
  split_ifs with hweight hlength hdirectory
  · simp [Ne.symm hweight]
  · simp [not_not.mp hweight, Ne.symm hlength]
  · simp [not_not.mp hweight, not_not.mp hlength, Ne.symm hdirectory]
  · simp [not_not.mp hweight, not_not.mp hlength, not_not.mp hdirectory]

/-- The keys tell commands apart. -/
theorem preferenceKey_injective : Function.Injective preferenceKey := by
  intro c c' h
  obtain ⟨directory, arguments⟩ := c
  obtain ⟨directory', arguments'⟩ := c'
  simp only [preferenceKey, EmbeddingLike.apply_eq_iff_eq, Prod.mk.injEq] at h
  obtain ⟨-, -, rfl, rfl⟩ := h
  rfl

/-- **The preference is a strict total order.** -/
theorem isStrictTotalOrder_shouldPrefer : IsStrictTotalOrder CompileCommand
    fun existing candidate => shouldPreferCandidateCommand existing candidate = true where
  irrefl c h := lt_irrefl _ ((shouldPrefer_iff c c).mp h)
  trans a b c hab hbc := by
    rw [shouldPrefer_iff] at hab hbc ⊢
    exact hab.trans hbc
  trichotomous a b hab hba := by
    rw [shouldPrefer_iff] at hab hba
    exact preferenceKey_injective (le_antisymm (not_lt.mp hba) (not_lt.mp hab))

end StackAnalyzer.CompileCommands
