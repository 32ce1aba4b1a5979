import StackAnalyzer.Cli.Arguments
import StackAnalyzer.Lists.EditDistance

set_option relaxedAutoImplicit false
set_option autoImplicit false

/-!
# Suggestions for unknown options

An option that is not known may be a known one with a typing error. The known option with the least
edit distance is suggested, of several ones the first in the order of texts, unless the distance is
too large. For an option with a value the options with fixed values come first, and then the option
is looked at without its value.

## Main definitions

* `StackAnalyzer.Cli.levenshteinDistance`, `StackAnalyzer.Cli.findBestCandidate` — the distance of
  two texts, and the nearest candidate.
* `StackAnalyzer.Cli.suggest` — the suggestion.
* `StackAnalyzer.Cli.Nearest` — what is to be suggested.

## Main results

* `StackAnalyzer.Cli.isLeast_levenshteinDistance` — the distance is the least number of edits.
* `StackAnalyzer.Cli.suggest_eq_some_iff` — the suggestion is the nearest option.
-/

namespace StackAnalyzer.Cli

open CrossTU Lists

/-! ## Candidates -/

/-- `OptionCandidate`. -/
structure OptionCandidate where
  matcher : CppString
  suggestion : CppString

/-- A candidate that is suggested as it is. -/
def plain (option : String) : OptionCandidate := ⟨option.toList, option.toList⟩

/-- A candidate that is suggested otherwise. -/
def suggested (matcher suggestion : String) : OptionCandidate :=
  ⟨matcher.toList, suggestion.toList⟩

/-- `kCandidates`. -/
def kCandidates : List OptionCandidate :=
  [plain "-h", plain "--help", plain "--demangle", plain "--quiet", plain "--verbose",
    suggested "--stl" "--STL", plain "--only-file", plain "--only-func", plain "--only-function",
    plain "--only-dir", plain "--exclude-dir", plain "--stack-limit", plain "--dump-filter",
    plain "--dump-ir", plain "-I", plain "-D", plain "--compile-arg", plain "--compdb-fast",
    plain "--analysis-profile", plain "--include-compdb-deps", plain "--jobs", plain "--timing",
    suggested "--smt" "--smt=on", plain "--smt=on", plain "--smt=off",
    suggested "--smt-backend" "--smt-backend=interval",
    suggested "--smt-secondary-backend" "--smt-secondary-backend=interval",
    suggested "--smt-mode" "--smt-mode=single", plain "--smt-timeout-ms",
    plain "--smt-budget-nodes", plain "--smt-rules", plain "--resource-model",
    plain "--escape-model", plain "--buffer-model", plain "--resource-cross-tu",
    plain "--no-resource-cross-tu", plain "--uninitialized-cross-tu",
    plain "--no-uninitialized-cross-tu", plain "--resource-summary-cache-dir",
    plain "--resource-summary-cache-memory-only", plain "--compile-ir-cache-dir",
    plain "--compile-ir-format", plain "--compile-ir-format=bc", plain "--compile-ir-format=ll",
    plain "--config", plain "--print-effective-config", plain "--compile-commands",
    plain "--compdb", plain "--warnings-only", plain "--base-dir",
    suggested "--format" "--format=json", plain "--format=json", plain "--format=sarif",
    plain "--format=human", suggested "--mode" "--mode=ir", plain "--mode=ir", plain "--mode=abi"]

/-- `CandidateScore`, of a candidate. -/
structure CandidateScore where
  suggestion : CppString
  distance : ℕ
  queryLength : ℕ

/-! ## The suggestion -/

/-- `levenshteinDistance`. -/
def levenshteinDistance (lhs rhs : CppString) : ℕ :=
  if lhs.isEmpty then rhs.length
  else if rhs.isEmpty then lhs.length
  else (lastRow lhs rhs).getD rhs.length 0

/-- `isFixedValue`. -/
def isFixedValue (candidate : OptionCandidate) : Bool := '=' ∈ candidate.matcher

/-- The candidates that are looked at. -/
def candidates (onlyFixedValueCandidates : Bool) : List OptionCandidate :=
  kCandidates.filter fun candidate => !onlyFixedValueCandidates || isFixedValue candidate

/-- The score of a candidate. -/
def scoreOf (loweredQuery : CppString) (candidate : OptionCandidate) : CandidateScore :=
  ⟨candidate.suggestion,
    levenshteinDistance loweredQuery (toLowerAsciiCopy candidate.matcher), loweredQuery.length⟩

/-- The body of the loop over the candidates. -/
def betterScore (loweredQuery : CppString) (best : Option CandidateScore)
    (candidate : OptionCandidate) : Option CandidateScore :=
  let score := scoreOf loweredQuery candidate
  match best with
  | none => some score
  | some best =>
    if score.distance < best.distance ∨
        (score.distance = best.distance ∧ score.suggestion < best.suggestion) then some score
    else some best

/-- `findBestCandidate`. -/
def findBestCandidate (query : CppString) (onlyFixedValueCandidates : Bool) :
    Option CandidateScore :=
  let loweredQuery := toLowerAsciiCopy query
  if loweredQuery.isEmpty then none
  else (candidates onlyFixedValueCandidates).foldl (betterScore loweredQuery) none

/-- `maxAcceptedDistance`. -/
def maxAcceptedDistance (queryLength : ℕ) : ℕ :=
  if queryLength ≤ 4 then 1 else if queryLength ≤ 12 then 2 else 3

/-- `suggestByMatcher`. -/
def suggestByMatcher (query : CppString) (onlyFixedValueCandidates : Bool) : Option CppString :=
  match findBestCandidate query onlyFixedValueCandidates with
  | none => none
  | some best =>
    if maxAcceptedDistance best.queryLength < best.distance then none else some best.suggestion

/-- `isLongOptionWithInlineValue`. -/
def isLongOptionWithInlineValue (option : CppString) : Bool :=
  decide (2 < option.length) && ['-', '-'].isPrefixOf option && decide ('=' ∈ option)

/-- The part of an option before its value. -/
def optionBase (unknownOption : CppString) : CppString := unknownOption.takeWhile (· ≠ '=')

/-- `suggest`. -/
def suggest (unknownOption : CppString) : Option CppString :=
  if unknownOption.head? ≠ some '-' then none
  else if isLongOptionWithInlineValue unknownOption then
    match suggestByMatcher unknownOption true with
    | some fixedValueSuggestion => some fixedValueSuggestion
    | none => suggestByMatcher (optionBase unknownOption) false
  else suggestByMatcher unknownOption false

/-! ## What is to be suggested -/

/-- **The distance is the least number of edits.** -/
theorem isLeast_levenshteinDistance (lhs rhs : CppString) :
    IsLeast {n | Edits n lhs rhs} (levenshteinDistance lhs rhs) := by
  have hdistance : levenshteinDistance lhs rhs = editDistance lhs rhs := by
    unfold levenshteinDistance
    split_ifs with hlhs hrhs
    · rw [List.isEmpty_iff.mp hlhs, editDistance_nil_left]
    · rw [List.isEmpty_iff.mp hrhs, editDistance_nil_right]
    · exact getD_lastRow lhs rhs
  rw [hdistance]
  exact isLeast_editDistance lhs rhs

/-- The number of edits between a query and a candidate, in any case of letters. -/
noncomputable def edits (query : CppString) (candidate : OptionCandidate) : ℕ :=
  sInf {n | Edits n (toLowerAsciiCopy query) (toLowerAsciiCopy candidate.matcher)}

/-- **What is to be suggested**: the suggestion of a candidate with the least number of edits, the
first one in the order of texts, if the number is not too large. -/
def Nearest (onlyFixedValueCandidates : Bool) (query suggestion : CppString) : Prop :=
  ∃ candidate ∈ candidates onlyFixedValueCandidates, candidate.suggestion = suggestion ∧
    edits query candidate ≤ maxAcceptedDistance query.length ∧
    ∀ other ∈ candidates onlyFixedValueCandidates, edits query candidate < edits query other ∨
      (edits query candidate = edits query other ∧ suggestion ≤ other.suggestion)

/-! ## The nearest candidate -/

section Scores

/-- A score is at least as good as another one. -/
def CandidateScore.AtLeast (score other : CandidateScore) : Prop :=
  score.distance < other.distance ∨
    (score.distance = other.distance ∧ score.suggestion ≤ other.suggestion)

theorem CandidateScore.AtLeast.refl (score : CandidateScore) : score.AtLeast score :=
  Or.inr ⟨rfl, le_rfl⟩

theorem CandidateScore.AtLeast.trans {a b c : CandidateScore} (h : a.AtLeast b)
    (h' : b.AtLeast c) : a.AtLeast c := by
  obtain hlt | ⟨heq, hle⟩ := h <;> obtain hlt' | ⟨heq', hle'⟩ := h'
  · exact Or.inl (hlt.trans hlt')
  · exact Or.inl (heq' ▸ hlt)
  · exact Or.inl (heq ▸ hlt')
  · exact Or.inr ⟨heq.trans heq', hle.trans hle'⟩

variable (loweredQuery : CppString)

/-- The body of the loop leaves a score that is at least as good as both. -/
theorem betterScore_spec (best : Option CandidateScore) (candidate : OptionCandidate) :
    ∃ score, betterScore loweredQuery best candidate = some score ∧
      (best = some score ∨ score = scoreOf loweredQuery candidate) ∧
      score.AtLeast (scoreOf loweredQuery candidate) ∧
      ∀ other, best = some other → score.AtLeast other := by
  cases best with
  | none => exact ⟨_, rfl, Or.inr rfl, .refl _, nofun⟩
  | some best =>
    simp only [betterScore]
    split_ifs with hbetter
    · refine ⟨_, rfl, Or.inr rfl, .refl _, ?_⟩
      rintro other ⟨⟩
      exact hbetter.imp_right fun h => ⟨h.1, h.2.le⟩
    · refine ⟨best, rfl, Or.inl rfl, ?_, ?_⟩
      · rw [not_or, not_and, not_lt, not_lt] at hbetter
        obtain hlt | heq := hbetter.1.lt_or_eq
        · exact Or.inl hlt
        · exact Or.inr ⟨heq, hbetter.2 heq.symm⟩
      · rintro other ⟨⟩
        exact .refl _

/-- **The loop leaves the best score.** By induction on the candidates, from any score so far. -/
theorem foldl_betterScore (cs : List OptionCandidate) (best : Option CandidateScore)
    {score : CandidateScore} (h : cs.foldl (betterScore loweredQuery) best = some score) :
    (best = some score ∨ ∃ candidate ∈ cs, score = scoreOf loweredQuery candidate) ∧
      (∀ candidate ∈ cs, score.AtLeast (scoreOf loweredQuery candidate)) ∧
      ∀ other, best = some other → score.AtLeast other := by
  induction cs generalizing best with
  | nil =>
    rw [List.foldl_nil] at h
    refine ⟨Or.inl h, by simp, ?_⟩
    rintro other hother
    rw [hother] at h
    cases h
    exact .refl _
  | cons c cs ih =>
    obtain ⟨first, hfirst, hfrom, hc, hbest⟩ := betterScore_spec loweredQuery best c
    obtain ⟨hmem, hall, hle⟩ := ih (some first) (by rwa [List.foldl_cons, hfirst] at h)
    have hkept := hle first rfl
    refine ⟨?_, ?_, fun other hother => hkept.trans (hbest other hother)⟩
    · obtain hsome | ⟨candidate, hcandidate, hscore⟩ := hmem
      · cases hsome
        refine hfrom.imp_right fun h => ⟨c, List.mem_cons_self, h⟩
      · exact Or.inr ⟨candidate, List.mem_cons_of_mem _ hcandidate, hscore⟩
    · intro candidate hcandidate
      obtain rfl | hcandidate := List.mem_cons.mp hcandidate
      · exact hkept.trans hc
      · exact hall candidate hcandidate

/-- There is a score if there is a candidate. -/
theorem foldl_betterScore_ne_none {cs : List OptionCandidate} (h : cs ≠ []) :
    cs.foldl (betterScore loweredQuery) none ≠ none := by
  have hsome : ∀ (cs : List OptionCandidate) (score : CandidateScore),
      cs.foldl (betterScore loweredQuery) (some score) ≠ none := by
    intro cs
    induction cs with
    | nil => exact fun _ => Option.some_ne_none _
    | cons c cs ih =>
      intro score
      obtain ⟨first, hfirst, -⟩ := betterScore_spec loweredQuery (some score) c
      rw [List.foldl_cons, hfirst]
      exact ih first
  cases cs with
  | nil => exact absurd rfl h
  | cons c cs => exact hsome cs _

end Scores

section Suggestions

variable {query suggestion : CppString} {onlyFixed : Bool}

/-- The number of edits is the distance. -/
theorem edits_eq (query : CppString) (candidate : OptionCandidate) : edits query candidate =
    levenshteinDistance (toLowerAsciiCopy query) (toLowerAsciiCopy candidate.matcher) :=
  (isLeast_levenshteinDistance _ _).csInf_eq

theorem candidates_ne_nil (onlyFixed : Bool) : candidates onlyFixed ≠ [] := by
  cases onlyFixed <;> decide

/-- The best score, if the query is not empty. -/
theorem exists_findBestCandidate (onlyFixed : Bool) (hquery : query ≠ []) :
    ∃ candidate ∈ candidates onlyFixed,
      findBestCandidate query onlyFixed = some (scoreOf (toLowerAsciiCopy query) candidate) ∧
      ∀ other ∈ candidates onlyFixed, (scoreOf (toLowerAsciiCopy query) candidate).AtLeast
        (scoreOf (toLowerAsciiCopy query) other) := by
  have hlowered : ¬ (toLowerAsciiCopy query).isEmpty := by
    simpa [toLowerAsciiCopy] using hquery
  obtain ⟨score, hscore⟩ := Option.ne_none_iff_exists'.mp
    (foldl_betterScore_ne_none (toLowerAsciiCopy query) (candidates_ne_nil onlyFixed))
  obtain ⟨hmem, hall, -⟩ := foldl_betterScore (toLowerAsciiCopy query) _ none hscore
  obtain ⟨candidate, hcandidate, rfl⟩ := hmem.resolve_left nofun
  refine ⟨candidate, hcandidate, ?_, hall⟩
  rw [findBestCandidate, if_neg hlowered, hscore]

/-- **The nearest candidate is suggested.** -/
theorem suggestByMatcher_eq_some (hquery : query ≠ []) :
    suggestByMatcher query onlyFixed = some suggestion ↔ Nearest onlyFixed query suggestion := by
  obtain ⟨best, hbest, hfind, hall⟩ := exists_findBestCandidate onlyFixed hquery
  have hlength : (toLowerAsciiCopy query).length = query.length := List.length_map ..
  have hleast : ∀ other ∈ candidates onlyFixed, edits query best < edits query other ∨
      (edits query best = edits query other ∧ best.suggestion ≤ other.suggestion) := by
    intro other hother
    rw [edits_eq, edits_eq]
    exact hall other hother
  simp only [suggestByMatcher, hfind]
  constructor
  · intro h
    split_ifs at h with hfar
    cases h
    refine ⟨best, hbest, rfl, ?_, hleast⟩
    rw [edits_eq, ← hlength]
    exact not_lt.mp hfar
  · rintro ⟨candidate, hcandidate, rfl, hnear, hother⟩
    -- both are nearest, so they have the same distance and the same suggestion
    have hto := hleast candidate hcandidate
    have hfrom := hother best hbest
    have hsame : edits query best = edits query candidate := by omega
    have hsuggestion : best.suggestion = candidate.suggestion := by
      refine le_antisymm ?_ ?_
      · exact (hto.resolve_left (by omega)).2
      · exact (hfrom.resolve_left (by omega)).2
    rw [← hsame, edits_eq, ← hlength] at hnear
    refine (if_neg (not_lt.mpr hnear)).trans (congrArg some hsuggestion)

end Suggestions

/-- **The suggestion is the nearest option**: for an option with a value the nearest option with a
fixed value, or if there is none that is near enough, the one nearest to the part before the
value. -/
theorem suggest_eq_some_iff (unknownOption suggestion : CppString) :
    suggest unknownOption = some suggestion ↔ unknownOption.head? = some '-' ∧
      if isLongOptionWithInlineValue unknownOption then
        Nearest true unknownOption suggestion ∨
          ((∀ other, ¬ Nearest true unknownOption other) ∧
            Nearest false (optionBase unknownOption) suggestion)
      else Nearest false unknownOption suggestion := by
  unfold suggest
  by_cases hdash : unknownOption.head? = some '-'
  · have hne : unknownOption ≠ [] := by
      rintro rfl
      cases hdash
    rw [if_neg (not_not.mpr hdash)]
    split_ifs with hinline
    · have hbase : optionBase unknownOption ≠ [] := by
        cases unknownOption with
        | nil => exact absurd rfl hne
        | cons c cs =>
          obtain rfl : c = '-' := Option.some.inj hdash
          simp [optionBase]
      cases hfixed : suggestByMatcher unknownOption true with
      | some fixed =>
        have hnearest := (suggestByMatcher_eq_some hne).mp hfixed
        rw [← suggestByMatcher_eq_some hne, hfixed]
        simp only [hdash, true_and]
        refine ⟨Or.inl, fun h => h.resolve_right fun hnone => hnone.1 fixed hnearest⟩
      | none =>
        have hnone : ∀ other, ¬ Nearest true unknownOption other := by
          intro other hother
          rw [← suggestByMatcher_eq_some hne, hfixed] at hother
          cases hother
        simp only [hdash, true_and, hnone, not_false_eq_true, implies_true, false_or]
        exact suggestByMatcher_eq_some hbase
    · simp only [hdash, true_and]
      exact suggestByMatcher_eq_some hne
  · rw [if_pos hdash]
    simp [hdash]

end StackAnalyzer.Cli
