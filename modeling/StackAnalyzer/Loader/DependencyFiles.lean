import StackAnalyzer.Loader.CacheEntry

set_option relaxedAutoImplicit false
set_option autoImplicit false

/-!
# Dependency files

What is written in the format of `make` and read back. A compiler puts a backslash in front of a
space or a `#` in a path, and doubles a `$`. The reader takes backslashes away, but it leaves a `$`
as it is, and it takes every blank that has no backslash in front for the end of a path.

## Main definitions

* `StackAnalyzer.Loader.escapePath`, `StackAnalyzer.Loader.dependencyFile` — how a dependency file
  is written.
* `StackAnalyzer.Loader.Plain` — a path that reads as it is written.
* `StackAnalyzer.Loader.ReadsBack` — the reader finds the paths that were written.

## Main results

* `StackAnalyzer.Loader.dependencyNames_entries` — the names that are found are the paths with
  every `$` doubled.
* `StackAnalyzer.Loader.readsBack_iff` — exactly the plain paths are read back.
-/

namespace StackAnalyzer.Loader

open App CrossTU CompileCommands

/-! ## Writing -/

section Writing

/-- How a character of a path is written. -/
def escapeChar (c : Char) : CppString :=
  if c = ' ' ∨ c = '#' then ['\\', c] else if c = '$' then ['$', '$'] else [c]

/-- How a path is written. -/
def escapePath (path : CppString) : CppString := path.flatMap escapeChar

/-- A character that is written behind a backslash. -/
theorem escapePath_escaped {c : Char} {path : CppString} (h : c = ' ' ∨ c = '#') :
    escapePath (c :: path) = '\\' :: c :: escapePath path := by
  rw [escapePath, List.flatMap_cons, escapeChar, if_pos h]
  rfl

/-- A `$` is doubled. -/
theorem escapePath_dollar {path : CppString} :
    escapePath ('$' :: path) = '$' :: '$' :: escapePath path := rfl

/-- Any other character is written as it is. -/
theorem escapePath_plain {c : Char} {path : CppString} (h : ¬ (c = ' ' ∨ c = '#'))
    (hdollar : c ≠ '$') : escapePath (c :: path) = c :: escapePath path := by
  rw [escapePath, List.flatMap_cons, escapeChar, if_neg h, if_neg hdollar]
  rfl

/-- The end of a line. -/
def lineEnd (crlf : Bool) : CppString := if crlf then ['\r', '\n'] else ['\n']

/-- What may stand in front of a path besides the first space: another space, or the end of a line
behind a backslash. -/
inductive Gap
  | space
  | continuation (crlf : Bool)

/-- A gap as it is written. -/
def Gap.text : Gap → CppString
  | .space => [' ']
  | .continuation crlf => '\\' :: lineEnd crlf

/-- What stands in front of a path. -/
def separatorText (gaps : List Gap) : CppString := ' ' :: gaps.flatMap Gap.text

/-- `coretrace_compile_ir_cache_target`, of `appendDependencyCaptureArgs`. -/
def captureTarget : CppString := "coretrace_compile_ir_cache_target".toList

/-- The paths with the separators in front of them. -/
def writeEntries (entries : List (List Gap × CppString)) : CppString :=
  entries.flatMap fun entry => separatorText entry.1 ++ escapePath entry.2

/-- The end of the last line, if it has one. -/
def lastEnd (lastLine : Option Bool) : CppString := (lastLine.map lineEnd).getD []

/-- **A dependency file**, with or without an end of the last line. -/
def dependencyFile (entries : List (List Gap × CppString)) (lastLine : Option Bool) : CppString :=
  captureTarget ++ ':' :: (writeEntries entries ++ lastEnd lastLine)

end Writing

/-! ## Joining the lines -/

section Lines

variable {c : Char} {path rest : CppString}

/-- Without a backslash a character stays. -/
theorem mergeLines_cons (hc : c ≠ '\\') : mergeLines (c :: rest) = c :: mergeLines rest := by
  rw [mergeLines] <;> simp [hc]

/-- A backslash in front of anything but the end of a line stays. -/
theorem mergeLines_escape (hlf : c ≠ '\n') (hcr : c ≠ '\r') :
    mergeLines ('\\' :: c :: rest) = '\\' :: mergeLines (c :: rest) := by
  rw [mergeLines] <;> simp [hlf, hcr]

/-- A path is on one line. -/
theorem mergeLines_escapePath (hpath : '\\' ∉ path) :
    mergeLines (escapePath path ++ rest) = escapePath path ++ mergeLines rest := by
  induction path with
  | nil => rfl
  | cons c path ih =>
    rw [List.mem_cons, not_or] at hpath
    have hc : c ≠ '\\' := Ne.symm hpath.1
    by_cases hescaped : c = ' ' ∨ c = '#'
    · have hlf : c ≠ '\n' := by
        rintro rfl
        simp at hescaped
      have hcr : c ≠ '\r' := by
        rintro rfl
        simp at hescaped
      rw [escapePath_escaped hescaped, List.cons_append, List.cons_append,
        mergeLines_escape hlf hcr, mergeLines_cons hc, ih hpath.2]
      rfl
    · by_cases hdollar : c = '$'
      · subst hdollar
        rw [escapePath_dollar, List.cons_append, List.cons_append, mergeLines_cons hc,
          mergeLines_cons hc, ih hpath.2]
        rfl
      · rw [escapePath_plain hescaped hdollar, List.cons_append, mergeLines_cons hc, ih hpath.2]
        rfl

/-- What is left of a gap. -/
def Gap.merged : Gap → CppString
  | .space => [' ']
  | .continuation _ => []

/-- Of a separator only the spaces are left. -/
theorem mergeLines_separatorText (gaps : List Gap) :
    mergeLines (separatorText gaps ++ rest) =
      ' ' :: (gaps.flatMap Gap.merged ++ mergeLines rest) := by
  unfold separatorText
  rw [List.cons_append, mergeLines_cons (by decide)]
  congr 1
  induction gaps with
  | nil => rfl
  | cons gap gaps ih =>
    rw [List.flatMap_cons, List.flatMap_cons, List.append_assoc, List.append_assoc, ← ih]
    cases gap with
    | space => exact mergeLines_cons (by decide)
    | continuation crlf =>
      cases crlf with
      | false => rfl
      | true => rfl

/-- The paths and separators after the lines have been joined. -/
def mergedEntries (entries : List (List Gap × CppString)) : CppString :=
  entries.flatMap fun entry => ' ' :: (entry.1.flatMap Gap.merged ++ escapePath entry.2)

/-- **The lines are joined** at the separators only. -/
theorem mergeLines_writeEntries {entries : List (List Gap × CppString)}
    (hpaths : ∀ entry ∈ entries, '\\' ∉ entry.2) :
    mergeLines (writeEntries entries ++ rest) = mergedEntries entries ++ mergeLines rest := by
  induction entries with
  | nil => rfl
  | cons entry entries ih =>
    obtain ⟨hpath, hpaths⟩ := List.forall_mem_cons.mp hpaths
    unfold writeEntries mergedEntries at ih ⊢
    rw [List.flatMap_cons, List.flatMap_cons, List.append_assoc, List.append_assoc,
      mergeLines_separatorText, mergeLines_escapePath hpath, ih hpaths]
    simp only [List.cons_append, List.append_assoc]

/-- In a text without a backslash there is nothing to join. -/
theorem mergeLines_append (hpath : '\\' ∉ path) :
    mergeLines (path ++ rest) = path ++ mergeLines rest := by
  induction path with
  | nil => rfl
  | cons c path ih =>
    rw [List.mem_cons, not_or] at hpath
    rw [List.cons_append, mergeLines_cons (Ne.symm hpath.1), ih hpath.2, List.cons_append]

/-- The end of the last line stays. -/
theorem mergeLines_lastEnd (lastLine : Option Bool) :
    mergeLines (lastEnd lastLine) = lastEnd lastLine := by
  cases lastLine with
  | none => rfl
  | some crlf =>
    cases crlf with
    | false => rfl
    | true => rfl

/-- Without a colon there is no beginning of the paths. -/
theorem dependenciesPart_append (hpath : ':' ∉ path) :
    dependenciesPart (path ++ rest) = dependenciesPart rest := by
  induction path with
  | nil => rfl
  | cons c path ih =>
    rw [List.mem_cons, not_or] at hpath
    rw [List.cons_append, dependenciesPart, if_neg fun h => hpath.1 h.1.symm, ih hpath.2]

/-- **The paths begin behind the target.** -/
theorem dependenciesPart_dependencyFile {entries : List (List Gap × CppString)}
    (hne : entries ≠ []) (hpaths : ∀ entry ∈ entries, '\\' ∉ entry.2) (lastLine : Option Bool) :
    dependenciesPart (mergeLines (dependencyFile entries lastLine)) =
      some (mergedEntries entries ++ lastEnd lastLine) := by
  have htarget : '\\' ∉ captureTarget := by decide
  have hcolon : ':' ∉ captureTarget := by decide
  rw [dependencyFile, mergeLines_append htarget, mergeLines_cons (by decide),
    mergeLines_writeEntries hpaths, mergeLines_lastEnd, dependenciesPart_append hcolon]
  obtain ⟨entry, entries, rfl⟩ := List.exists_cons_of_ne_nil hne
  rfl

end Lines

/-! ## The names that are found -/

section Names

variable {current path rest : CppString}

/-- A path with every `$` doubled. -/
def doubleDollars (path : CppString) : CppString :=
  path.flatMap fun c => if c = '$' then ['$', '$'] else [c]

/-- A character that is not doubled. -/
theorem doubleDollars_cons {c : Char} (h : c ≠ '$') :
    doubleDollars (c :: path) = c :: doubleDollars path := by
  rw [doubleDollars, List.flatMap_cons, if_neg h]
  rfl

/-- A character that is doubled. -/
theorem doubleDollars_dollar : doubleDollars ('$' :: path) = '$' :: '$' :: doubleDollars path := rfl

/-- The blanks of a path are spaces. -/
def OnlySpaces (path : CppString) : Prop := ∀ c ∈ path, isSpace c = true → c = ' '

instance (path : CppString) : Decidable (OnlySpaces path) :=
  decidable_of_iff (path.all fun c => !isSpace c || decide (c = ' ')) <| by
    simp only [OnlySpaces, List.all_eq_true, Bool.or_eq_true, Bool.not_eq_true', decide_eq_true_eq,
      ← Bool.not_eq_true, imp_iff_not_or]

/-- The name that has been read so far. -/
def flushName (current : CppString) : List CppString := if current = [] then [] else [current]

/-- A blank is the end of a name. -/
theorem dependencyNames_blank {c : Char} (hc : isSpace c = true) :
    dependencyNames current false (c :: rest) =
      flushName current ++ dependencyNames [] false rest := by
  have hbackslash : c ≠ '\\' := by
    rintro rfl
    exact absurd hc (by decide)
  rw [dependencyNames, if_neg hbackslash, if_pos hc, flushName]
  split_ifs <;> rfl

/-- What stands behind a backslash belongs to the name. -/
theorem dependencyNames_escape {c : Char} :
    dependencyNames current false ('\\' :: c :: rest) =
      dependencyNames (current ++ [c]) false rest := rfl

/-- Any other character belongs to the name. -/
theorem dependencyNames_cons {c : Char} (hbackslash : c ≠ '\\') (hc : ¬ isSpace c = true) :
    dependencyNames current false (c :: rest) = dependencyNames (current ++ [c]) false rest := by
  rw [dependencyNames, if_neg hbackslash, if_neg hc]

/-- At the end the last name is read. -/
theorem dependencyNames_nil : dependencyNames current false [] = flushName current := rfl

/-- **A path is read with its `$` doubled.** -/
theorem dependencyNames_escapePath (hbackslash : '\\' ∉ path) (hspaces : OnlySpaces path) :
    dependencyNames current false (escapePath path ++ rest) =
      dependencyNames (current ++ doubleDollars path) false rest := by
  induction path generalizing current with
  | nil =>
    rw [doubleDollars, List.flatMap_nil, List.append_nil]
    rfl
  | cons c path ih =>
    rw [List.mem_cons, not_or] at hbackslash
    obtain ⟨hc, hspaces⟩ := List.forall_mem_cons.mp hspaces
    have hbefore : c ≠ '\\' := Ne.symm hbackslash.1
    have ih : ∀ current', dependencyNames current' false (escapePath path ++ rest) =
        dependencyNames (current' ++ doubleDollars path) false rest := fun _ =>
      ih hbackslash.2 hspaces
    by_cases hescaped : c = ' ' ∨ c = '#'
    · have hdollar : c ≠ '$' := by
        rintro rfl
        simp at hescaped
      rw [escapePath_escaped hescaped, List.cons_append, List.cons_append, dependencyNames_escape,
        ih, doubleDollars_cons hdollar, List.append_assoc, List.singleton_append]
    · have hblank : ¬ isSpace c = true := fun h => hescaped (Or.inl (hc h))
      by_cases hdollar : c = '$'
      · subst hdollar
        rw [escapePath_dollar, List.cons_append, List.cons_append,
          dependencyNames_cons hbefore hblank, dependencyNames_cons hbefore hblank, ih,
          doubleDollars_dollar, List.append_assoc, List.append_assoc]
        rfl
      · rw [escapePath_plain hescaped hdollar, List.cons_append,
          dependencyNames_cons hbefore hblank, ih, doubleDollars_cons hdollar, List.append_assoc,
          List.singleton_append]

/-- More spaces do not matter. -/
theorem dependencyNames_merged (gaps : List Gap) :
    dependencyNames [] false (gaps.flatMap Gap.merged ++ rest) =
      dependencyNames [] false rest := by
  induction gaps with
  | nil => rfl
  | cons gap gaps ih =>
    cases gap with
    | space => exact ih
    | continuation _ => exact ih

/-- The end of the last line is the end of the last name. -/
theorem dependencyNames_lastEnd (lastLine : Option Bool) :
    dependencyNames current false (lastEnd lastLine) = flushName current := by
  cases lastLine with
  | none => rfl
  | some crlf =>
    cases crlf with
    | false =>
      show dependencyNames current false ['\n'] = _
      rw [dependencyNames_blank (by decide), dependencyNames_nil]
      exact List.append_nil _
    | true =>
      show dependencyNames current false ['\r', '\n'] = _
      rw [dependencyNames_blank (by decide), dependencyNames_blank (by decide),
        dependencyNames_nil]
      exact List.append_nil _

/-- **The names that are found** are the paths with every `$` doubled, except empty ones. -/
theorem dependencyNames_entries {entries : List (List Gap × CppString)}
    (hbackslash : ∀ entry ∈ entries, '\\' ∉ entry.2)
    (hspaces : ∀ entry ∈ entries, OnlySpaces entry.2) (lastLine : Option Bool) :
    dependencyNames current false (mergedEntries entries ++ lastEnd lastLine) =
      flushName current ++ entries.flatMap fun entry => flushName (doubleDollars entry.2) := by
  induction entries generalizing current with
  | nil =>
    rw [List.flatMap_nil, List.append_nil]
    exact dependencyNames_lastEnd lastLine
  | cons entry entries ih =>
    obtain ⟨hpath, hbackslash⟩ := List.forall_mem_cons.mp hbackslash
    obtain ⟨hentry, hspaces⟩ := List.forall_mem_cons.mp hspaces
    unfold mergedEntries at ih ⊢
    rw [List.flatMap_cons, List.cons_append, List.cons_append, dependencyNames_blank (by decide),
      List.append_assoc, List.append_assoc, dependencyNames_merged,
      dependencyNames_escapePath hpath hentry, ih hbackslash hspaces, List.nil_append,
      List.flatMap_cons]

/-- **Behind a backslash** the only blanks are spaces. -/
inductive SpaceEscapes : CppString → Prop
  | nil : SpaceEscapes []
  | plain {c : Char} {rest : CppString} : c ≠ '\\' → SpaceEscapes rest → SpaceEscapes (c :: rest)
  | escape {c : Char} {rest : CppString} : (isSpace c = true → c = ' ') → SpaceEscapes rest →
      SpaceEscapes ('\\' :: c :: rest)

/-- One text behind another. -/
theorem SpaceEscapes.append (hpath : SpaceEscapes path) (hrest : SpaceEscapes rest) :
    SpaceEscapes (path ++ rest) := by
  induction hpath with
  | nil => exact hrest
  | plain hc _ ih => exact .plain hc ih
  | escape hc _ ih => exact .escape hc ih

/-- A text without a backslash. -/
theorem SpaceEscapes.of_not_mem (hpath : '\\' ∉ path) : SpaceEscapes path := by
  induction path with
  | nil => exact .nil
  | cons c path ih =>
    rw [List.mem_cons, not_or] at hpath
    exact .plain (Ne.symm hpath.1) (ih hpath.2)

/-- A path that is written. -/
theorem spaceEscapes_escapePath (hpath : '\\' ∉ path) : SpaceEscapes (escapePath path) := by
  induction path with
  | nil => exact .nil
  | cons c path ih =>
    rw [List.mem_cons, not_or] at hpath
    have hc : c ≠ '\\' := Ne.symm hpath.1
    by_cases hescaped : c = ' ' ∨ c = '#'
    · rw [escapePath_escaped hescaped]
      refine .escape (fun hblank => hescaped.resolve_right ?_) (ih hpath.2)
      rintro rfl
      exact absurd hblank (by decide)
    · by_cases hdollar : c = '$'
      · subst hdollar
        rw [escapePath_dollar]
        exact .plain hc (.plain hc (ih hpath.2))
      · rw [escapePath_plain hescaped hdollar]
        exact .plain hc (ih hpath.2)

/-- The paths and separators that are written. -/
theorem spaceEscapes_entries {entries : List (List Gap × CppString)}
    (hbackslash : ∀ entry ∈ entries, '\\' ∉ entry.2) (lastLine : Option Bool) :
    SpaceEscapes (mergedEntries entries ++ lastEnd lastLine) := by
  refine .append ?_ (.of_not_mem ?_)
  · induction entries with
    | nil => exact .nil
    | cons entry entries ih =>
      obtain ⟨hpath, hbackslash⟩ := List.forall_mem_cons.mp hbackslash
      have hgaps : '\\' ∉ entry.1.flatMap Gap.merged := by
        intro hmem
        obtain ⟨gap, -, hgap⟩ := List.mem_flatMap.mp hmem
        cases gap with
        | space => exact absurd hgap (by decide)
        | continuation _ => exact absurd hgap List.not_mem_nil
      exact (((SpaceEscapes.of_not_mem hgaps).append (spaceEscapes_escapePath hpath)).plain
        (by decide)).append (ih hbackslash)
  · cases lastLine with
    | none => exact List.not_mem_nil
    | some crlf => cases crlf <;> decide

/-- **Every name that is found** has a character, and no other blanks than spaces. -/
theorem names_of_spaceEscapes {text : CppString} (htext : SpaceEscapes text)
    (hcurrent : OnlySpaces current) :
    ∀ name ∈ dependencyNames current false text, name ≠ [] ∧ OnlySpaces name := by
  have hflush : ∀ current, OnlySpaces current →
      ∀ name ∈ flushName current, name ≠ [] ∧ OnlySpaces name := by
    intro current hcurrent name hname
    by_cases hempty : current = []
    · rw [flushName, if_pos hempty] at hname
      exact absurd hname List.not_mem_nil
    · rw [flushName, if_neg hempty] at hname
      obtain rfl := List.mem_singleton.mp hname
      exact ⟨hempty, hcurrent⟩
  have hsnoc : ∀ (current : CppString) (c : Char), OnlySpaces current →
      (isSpace c = true → c = ' ') → OnlySpaces (current ++ [c]) := by
    intro current c hcurrent hc d hd
    rw [List.mem_append, List.mem_singleton] at hd
    obtain hd | rfl := hd
    · exact hcurrent d hd
    · exact hc
  induction htext generalizing current with
  | nil => exact hflush current hcurrent
  | @plain c rest hbackslash _ ih =>
    by_cases hblank : isSpace c = true
    · rw [dependencyNames_blank hblank]
      intro name hname
      obtain hname | hname := List.mem_append.mp hname
      · exact hflush current hcurrent name hname
      · exact ih (fun _ h => absurd h List.not_mem_nil) name hname
    · rw [dependencyNames_cons hbackslash hblank]
      exact ih (hsnoc current c hcurrent fun h => absurd h hblank)
  | @escape c rest hc _ ih =>
    rw [dependencyNames_escape]
    exact ih (hsnoc current c hcurrent hc)

end Names

/-! ## Reading back -/

section ReadingBack

/-- An absolute path is not empty. -/
def Surroundings.NonemptyPaths (E : Surroundings) : Prop := ∀ path, E.absolute path ≠ some []

/-- **The paths are read back**: their absolute forms, first occurrences only, in order. -/
def ReadsBack (entries : List (List Gap × CppString)) (lastLine : Option Bool) : Prop :=
  ∀ (E : Surroundings) (compileWorkingDir : CppString), E.NonemptyPaths →
    E.parseDepfileDependencies (some (dependencyFile entries lastLine)) compileWorkingDir =
      some (entries.map fun entry =>
        E.makeAbsolutePathFrom entry.2 compileWorkingDir).eraseDups

/-- **A path that reads as it is written**: it has a character, no `$`, and no other blanks than
spaces. -/
def Plain (path : CppString) : Prop := path ≠ [] ∧ '$' ∉ path ∧ OnlySpaces path

instance (path : CppString) : Decidable (Plain path) :=
  inferInstanceAs (Decidable (_ ∧ _ ∧ OnlySpaces path))

variable {E : Surroundings} {entries : List (List Gap × CppString)} {lastLine : Option Bool}
variable {compileWorkingDir : CppString}

/-- The normal form of a path is not empty. -/
theorem lexicallyNormal_ne_nil {path : CppString} (h : path ≠ []) : lexicallyNormal path ≠ [] := by
  have hdot : ∀ text : CppString, (if text = [] then ".".toList else text) ≠ [] := by
    intro text
    split_ifs with htext
    · decide
    · exact htext
  rw [lexicallyNormal, if_neg h]
  exact hdot _

/-- The absolute form of a path is not empty. -/
theorem makeAbsolutePathFrom_ne_nil (hE : E.NonemptyPaths) {path : CppString} (h : path ≠ []) :
    E.makeAbsolutePathFrom path compileWorkingDir ≠ [] := by
  have hjoin : (if isRelative path ∧ compileWorkingDir ≠ [] then joinPath compileWorkingDir path
      else path) ≠ [] := by
    unfold joinPath
    split_ifs <;> simp [h]
  refine lexicallyNormal_ne_nil ?_
  cases habsolute : E.absolute (if isRelative path ∧ compileWorkingDir ≠ [] then
      joinPath compileWorkingDir path else path) with
  | none => exact hjoin
  | some result =>
    rintro rfl
    exact hE _ habsolute

/-- **What the reader returns**, for the names that it finds. -/
theorem parseDepfileDependencies_eq (hE : E.NonemptyPaths) (hne : entries ≠ [])
    (hbackslash : ∀ entry ∈ entries, '\\' ∉ entry.2) {names : List CppString}
    (hnames : dependencyNames [] false (mergedEntries entries ++ lastEnd lastLine) = names) :
    E.parseDepfileDependencies (some (dependencyFile entries lastLine)) compileWorkingDir =
      if names = [] then none
      else some (names.map fun name =>
        E.makeAbsolutePathFrom name compileWorkingDir).eraseDups := by
  have hgood : ∀ name ∈ names, name ≠ [] ∧ OnlySpaces name := by
    rw [← hnames]
    exact names_of_spaceEscapes (spaceEscapes_entries hbackslash lastLine)
      fun _ h => absurd h List.not_mem_nil
  have hall : (names.map fun name => E.makeAbsolutePathFrom name compileWorkingDir).filter
      (· ≠ []) = names.map fun name => E.makeAbsolutePathFrom name compileWorkingDir := by
    refine List.filter_eq_self.mpr fun path hpath => ?_
    obtain ⟨name, hname, rfl⟩ := List.mem_map.mp hpath
    exact decide_eq_true (makeAbsolutePathFrom_ne_nil hE (hgood name hname).1)
  unfold Surroundings.parseDepfileDependencies
  rw [Option.bind_some, dependenciesPart_dependencyFile hne hbackslash, Option.bind_some]
  dsimp only
  rw [hnames, hall]
  cases names with
  | nil => rfl
  | cons name names => rw [List.map_cons, List.eraseDups_cons, if_neg (List.cons_ne_nil _ _),
      if_neg (List.cons_ne_nil _ _)]

/-- Without a `$` nothing is doubled. -/
theorem doubleDollars_eq_self {path : CppString} (h : '$' ∉ path) : doubleDollars path = path := by
  induction path with
  | nil => rfl
  | cons c path ih =>
    rw [List.mem_cons, not_or] at h
    rw [doubleDollars_cons (Ne.symm h.1), ih h.2]

/-- How often `$` occurs afterwards. -/
theorem count_doubleDollars (path : CppString) :
    (doubleDollars path).count '$' = 2 * path.count '$' := by
  induction path with
  | nil => rfl
  | cons c path ih =>
    by_cases hdollar : c = '$'
    · subst hdollar
      rw [doubleDollars_dollar, List.count_cons_self, List.count_cons_self, List.count_cons_self,
        ih]
      omega
    · rw [doubleDollars_cons hdollar, List.count_cons_of_ne hdollar, List.count_cons_of_ne hdollar,
        ih]

/-- Doubling leaves no path empty, and makes none empty. -/
theorem doubleDollars_ne_nil {path : CppString} (h : path ≠ []) : doubleDollars path ≠ [] := by
  obtain ⟨c, path, rfl⟩ := List.exists_cons_of_ne_nil h
  by_cases hdollar : c = '$'
  · subst hdollar
    exact List.cons_ne_nil _ _
  · rw [doubleDollars_cons hdollar]
    exact List.cons_ne_nil _ _

/-- The names that are found, when no path is empty. -/
theorem names_of_nonempty (hbackslash : ∀ entry ∈ entries, '\\' ∉ entry.2)
    (hspaces : ∀ entry ∈ entries, entry.2 ≠ [] ∧ OnlySpaces entry.2) :
    dependencyNames [] false (mergedEntries entries ++ lastEnd lastLine) =
      entries.map fun entry => doubleDollars entry.2 := by
  have hflush : ∀ entry ∈ entries, flushName (doubleDollars entry.2) =
      [doubleDollars entry.2] := fun entry hentry =>
    if_neg (doubleDollars_ne_nil (hspaces entry hentry).1)
  rw [dependencyNames_entries hbackslash (fun entry hentry => (hspaces entry hentry).2) lastLine,
    List.flatMap_congr hflush]
  exact List.map_eq_flatMap.symm

/-- **Plain paths are read back.** -/
theorem readsBack_of_plain (hne : entries ≠ []) (hbackslash : ∀ entry ∈ entries, '\\' ∉ entry.2)
    (hplain : ∀ entry ∈ entries, Plain entry.2) : ReadsBack entries lastLine := by
  intro E compileWorkingDir hE
  have hnames : dependencyNames [] false (mergedEntries entries ++ lastEnd lastLine) =
      entries.map Prod.snd := by
    rw [names_of_nonempty hbackslash fun entry hentry =>
      ⟨(hplain entry hentry).1, (hplain entry hentry).2.2⟩]
    exact List.map_congr_left fun entry hentry => doubleDollars_eq_self (hplain entry hentry).2.1
  rw [parseDepfileDependencies_eq hE hne hbackslash hnames, if_neg (by simpa using hne),
    List.map_map]
  rfl

/-- Surroundings that only tell some paths from the others. -/
def markedPaths (marked : CppString → Bool) : Surroundings where
  absolute path := some (if marked path then "/x".toList else "/y".toList)
  md5Hex _ := []

/-- Their paths are not empty. -/
theorem nonemptyPaths_markedPaths (marked : CppString → Bool) :
    (markedPaths marked).NonemptyPaths := by
  intro path
  simp only [markedPaths]
  split_ifs <;> decide

/-- The absolute form of a path there. -/
theorem makeAbsolutePathFrom_markedPaths (marked : CppString → Bool) (path : CppString) :
    (markedPaths marked).makeAbsolutePathFrom path [] =
      if marked path then "/x".toList else "/y".toList := by
  have hx : lexicallyNormal "/x".toList = "/x".toList := by decide +kernel
  have hy : lexicallyNormal "/y".toList = "/y".toList := by decide +kernel
  unfold Surroundings.makeAbsolutePathFrom
  simp only [ne_eq, not_true_eq_false, and_false, if_false, markedPaths, Option.getD_some]
  split_ifs
  · exact hx
  · exact hy

/-- What is read back tells the same paths from the others as what was written. -/
theorem marked_iff (h : ReadsBack entries lastLine) (hne : entries ≠ [])
    (hbackslash : ∀ entry ∈ entries, '\\' ∉ entry.2) {names : List CppString}
    (hnames : dependencyNames [] false (mergedEntries entries ++ lastEnd lastLine) = names)
    (marked : CppString → Bool) :
    (∃ name ∈ names, marked name = true) ↔ ∃ entry ∈ entries, marked entry.2 = true := by
  have hread := h (markedPaths marked) [] (nonemptyPaths_markedPaths marked)
  rw [parseDepfileDependencies_eq (nonemptyPaths_markedPaths marked) hne hbackslash hnames] at hread
  have hfound : ∀ {α : Type} (paths : List α) (path : α → CppString),
      "/x".toList ∈ (paths.map fun p =>
        (markedPaths marked).makeAbsolutePathFrom (path p) []).eraseDups ↔
        ∃ p ∈ paths, marked (path p) = true := by
    intro α paths path
    simp only [List.mem_eraseDups, List.mem_map, makeAbsolutePathFrom_markedPaths]
    refine exists_congr fun p => and_congr_right fun _ => ?_
    cases marked (path p) <;> decide
  by_cases hempty : names = []
  · rw [if_pos hempty] at hread
    cases hread
  · rw [if_neg hempty] at hread
    rw [← hfound entries Prod.snd, ← Option.some.inj hread]
    exact (hfound names id).symm

/-- **Exactly the plain paths are read back**, whatever stands between them. -/
theorem readsBack_iff (hne : entries ≠ []) (hbackslash : ∀ entry ∈ entries, '\\' ∉ entry.2)
    (lastLine : Option Bool) :
    ReadsBack entries lastLine ↔ ∀ entry ∈ entries, Plain entry.2 := by
  refine ⟨fun h => ?_, readsBack_of_plain hne hbackslash⟩
  have hspaces : ∀ entry ∈ entries, entry.2 ≠ [] ∧ OnlySpaces entry.2 := by
    -- mark what no name can be
    have hmarked := marked_iff h hne hbackslash rfl fun path =>
      decide (¬ (path ≠ [] ∧ OnlySpaces path))
    intro entry hentry
    by_contra hbad
    obtain ⟨name, hname, hmark⟩ := hmarked.mpr ⟨entry, hentry, decide_eq_true hbad⟩
    exact of_decide_eq_true hmark (names_of_spaceEscapes (spaceEscapes_entries hbackslash lastLine)
      (fun _ h => absurd h List.not_mem_nil) name hname)
  have hdollars : ∀ entry ∈ entries, '$' ∉ entry.2 := by
    have hnames : dependencyNames [] false (mergedEntries entries ++ lastEnd lastLine) = _ :=
      names_of_nonempty hbackslash hspaces
    intro entry hentry hmem
    have hpos : 0 < entry.2.count '$' := List.count_pos_iff.mpr hmem
    -- a name has twice as many as its path, so there would be paths with any number of them
    have hmany : ∀ n, ∃ other ∈ entries, n + 1 ≤ other.2.count '$' := by
      intro n
      induction n with
      | zero => exact ⟨entry, hentry, hpos⟩
      | succ n ih =>
        obtain ⟨other, hother, hcount⟩ := ih
        have hmarked := (marked_iff h hne hbackslash hnames fun path =>
          decide (n + 2 ≤ path.count '$')).mp
            ⟨_, List.mem_map_of_mem hother, decide_eq_true ?_⟩
        · obtain ⟨more, hmore, hmark⟩ := hmarked
          exact ⟨more, hmore, of_decide_eq_true hmark⟩
        · rw [count_doubleDollars]
          omega
    obtain ⟨other, hother, hcount⟩ := hmany (entries.map fun entry => entry.2.count '$').sum
    have hle := List.single_le_sum (fun _ _ => Nat.zero_le _) _
      (List.mem_map_of_mem (f := fun entry : List Gap × CppString => entry.2.count '$') hother)
    omega
  exact fun entry hentry => ⟨(hspaces entry hentry).1, hdollars entry hentry,
    (hspaces entry hentry).2⟩

/-- Two paths with spaces, a `#` and a colon, on two lines. -/
theorem readsBack_twoPaths :
    ReadsBack [([], "a b.c".toList), ([.continuation true, .space], "c:#d.h".toList)]
      (some false) := by
  refine (readsBack_iff (List.cons_ne_nil _ _) (by decide) (some false)).mpr ?_
  decide

/-- The current directory is `/w`. -/
def workingIn : Surroundings where
  absolute path := some (joinPath "/w".toList path)
  md5Hex _ := []

/-- Paths are not empty there. -/
theorem nonemptyPaths_workingIn : workingIn.NonemptyPaths := by
  intro path hpath
  have hjoin : joinPath "/w".toList path = [] := Option.some.inj hpath
  unfold joinPath at hjoin
  split_ifs at hjoin with hrelative
  · rw [hjoin] at hrelative
    exact absurd hrelative (by decide)
  · exact absurd hjoin (by simp)
  · exact absurd hjoin (by simp)

/-- The path `a$b` is read as `a$$b`. -/
theorem not_readsBack_dollar :
    ¬ ∀ (entries : List (List Gap × CppString)) (lastLine : Option Bool), entries ≠ [] →
      (∀ entry ∈ entries, '\\' ∉ entry.2 ∧ '\n' ∉ entry.2) → ReadsBack entries lastLine := by
  intro h
  have hread := h [([], "a$b".toList)] none (List.cons_ne_nil _ _) (by decide) workingIn []
    nonemptyPaths_workingIn
  exact absurd hread (by decide +kernel)

end ReadingBack

end StackAnalyzer.Loader
