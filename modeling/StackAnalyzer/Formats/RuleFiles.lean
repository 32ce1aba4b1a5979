import StackAnalyzer.Lists.Trimming

set_option relaxedAutoImplicit false
set_option autoImplicit false

/-!
# Files of rules

A file of rules is read line by line. What stands behind a comment sign does not count, a line
without words is passed over, and the words of any other line are one rule. Reading ends at the
first line that is refused, and the rules in front of it have been read by then.

## Main definitions

* `Formats.RuleSigns` — what ends a line, what begins a comment, and the blanks.
* `Formats.linesOf`, `Formats.words` — the lines of a text and the words of a line.
* `Formats.parseLines` — reading the lines. `Formats.entries` — the lines that have words.
* `Formats.renderLines` — lines of words as they are written.

## Main results

* `Formats.parseLines_eq_none_iff` — when all lines are read.
* `Formats.parseLines_eq_some_iff` — where reading ends otherwise.
* `Formats.entries_renderLines` — what is written is read again.
-/

namespace Formats

open Lists

/-- **The signs of a file of rules**: the end of a line is a blank, the comment sign is none. -/
structure RuleSigns (A : Type*) where
  newline : A
  hash : A
  blank : A → Bool
  blank_newline : blank newline = true
  blank_hash : blank hash = false

section Words

variable {A : Type*} {blank : A → Bool} {line back word : List A}

/-- **The words of a line**, as they are read from a stream. -/
def words (blank : A → Bool) (line : List A) : List (List A) :=
  (line.splitOnP blank).filter fun word => !word.isEmpty

/-- A blank in front does not count. -/
theorem words_cons_blank {a : A} (ha : blank a = true) : words blank (a :: line) =
    words blank line := by
  rw [words, List.splitOnP_cons_eq_if_modifyHead, if_pos ha, List.filter_cons_of_neg (by simp),
    words]

/-- A word in front, and a blank behind it. -/
theorem words_append_cons {a : A} (hword : ∀ b ∈ word, blank b = false) (hne : word ≠ [])
    (ha : blank a = true) : words blank (word ++ a :: line) = word :: words blank line := by
  rw [words, List.splitOnP_append_cons_of_forall_mem hword a ha,
    List.filter_cons_of_pos (by simpa using hne), words]

/-- A line of one word. -/
theorem words_word (hword : ∀ b ∈ word, blank b = false) (hne : word ≠ []) :
    words blank word = [word] := by
  rw [words, List.splitOnP_eq_singleton hword, List.filter_cons_of_pos (by simpa using hne),
    List.filter_nil]

/-- A line of blanks has no words. -/
theorem words_eq_nil (hblank : ∀ a ∈ line, blank a = true) : words blank line = [] := by
  induction line with
  | nil => rfl
  | cons a as ih =>
    rw [words_cons_blank (hblank a List.mem_cons_self)]
    exact ih fun b hb => hblank b (List.mem_cons_of_mem a hb)

/-- Blanks behind a line do not count. -/
theorem words_append_blanks (hback : ∀ a ∈ back, blank a = true) :
    words blank (line ++ back) = words blank line := by
  cases back with
  | nil => rw [List.append_nil]
  | cons a as =>
    have has : words blank as = [] :=
      words_eq_nil fun b hb => hback b (List.mem_cons_of_mem a hb)
    rw [words, List.splitOnP_append_cons line as (hback a List.mem_cons_self),
      List.filter_append, ← words, ← words, has, List.append_nil]

/-- Trimming a line does not change its words. -/
theorem words_trim : words blank (trim blank line) = words blank line := by
  obtain ⟨front, back, hline, hfront, hback⟩ := exists_trim (p := blank) (l := line)
  conv_rhs => rw [hline, words_append_blanks hback]
  clear hline
  induction front with
  | nil => rfl
  | cons a as ih =>
    rw [List.cons_append, words_cons_blank (hfront a List.mem_cons_self)]
    exact ih fun b hb => hfront b (List.mem_cons_of_mem a hb)

/-- What splitting returns has no separators, and is taken from the list. -/
theorem forall_mem_splitOnP (hword : word ∈ line.splitOnP blank) :
    ∀ a ∈ word, blank a = false ∧ a ∈ line := by
  induction line generalizing word with
  | nil =>
    rw [List.splitOnP_nil, List.mem_singleton] at hword
    simp [hword]
  | cons b bs ih =>
    rw [List.splitOnP_cons_eq_if_modifyHead] at hword
    split_ifs at hword with hb
    · rcases List.mem_cons.mp hword with rfl | hword
      · simp
      · exact fun a ha => ⟨(ih hword a ha).1, List.mem_cons_of_mem b (ih hword a ha).2⟩
    · obtain ⟨first, rest, hsplit⟩ := List.exists_cons_of_ne_nil (List.splitOnP_ne_nil blank bs)
      rw [hsplit] at hword ih
      rw [List.modifyHead_cons] at hword
      rcases List.mem_cons.mp hword with rfl | hword
      · intro a ha
        rcases List.mem_cons.mp ha with rfl | ha
        · exact ⟨Bool.not_eq_true _ ▸ hb, List.mem_cons_self⟩
        · have h := ih List.mem_cons_self a ha
          exact ⟨h.1, List.mem_cons_of_mem b h.2⟩
      · intro a ha
        have h := ih (List.mem_cons_of_mem first hword) a ha
        exact ⟨h.1, List.mem_cons_of_mem b h.2⟩

/-- **A word** is not empty, has no blanks, and is taken from the line. -/
theorem wellFormed_of_mem_words (hword : word ∈ words blank line) :
    word ≠ [] ∧ ∀ a ∈ word, blank a = false ∧ a ∈ line := by
  obtain ⟨hsplit, hne⟩ := List.mem_filter.mp hword
  exact ⟨by simpa using hne, forall_mem_splitOnP hsplit⟩

/-- Words with a blank between them are read again. -/
theorem words_intercalate {a : A} (ha : blank a = true) {line : List (List A)}
    (hwords : ∀ word ∈ line, word ≠ [] ∧ ∀ b ∈ word, blank b = false) :
    words blank ([a].intercalate line) = line := by
  induction line with
  | nil => rfl
  | cons word rest ih =>
    obtain ⟨hne, hword⟩ := hwords word List.mem_cons_self
    cases rest with
    | nil => rw [List.intercalate_singleton, words_word hword hne]
    | cons next rest =>
      rw [List.intercalate_cons_cons, List.append_assoc, List.singleton_append,
        words_append_cons hword hne ha, ih fun w hw => hwords w (List.mem_cons_of_mem word hw)]

/-- What a line of words consists of. -/
theorem mem_intercalate {space a : A} {line : List (List A)}
    (ha : a ∈ [space].intercalate line) : a = space ∨ ∃ word ∈ line, a ∈ word := by
  induction line with
  | nil => exact absurd ha List.not_mem_nil
  | cons word rest ih =>
    cases rest with
    | nil =>
      rw [List.intercalate_singleton] at ha
      exact Or.inr ⟨word, List.mem_cons_self, ha⟩
    | cons next rest =>
      rw [List.intercalate_cons_cons, List.append_assoc, List.mem_append,
        List.singleton_append, List.mem_cons] at ha
      rcases ha with ha | ha | ha
      · exact Or.inr ⟨word, List.mem_cons_self, ha⟩
      · exact Or.inl ha
      · rcases ih ha with h | ⟨w, hw, h⟩
        · exact Or.inl h
        · exact Or.inr ⟨w, List.mem_cons_of_mem word hw, h⟩

end Words

section Lines

variable {A : Type*} [DecidableEq A] {newline : A} {line text : List A}

/-- **The lines of a text**: there is no line behind the last end of a line. -/
def linesOf (newline : A) (text : List A) : List (List A) :=
  let parts := text.splitOn newline
  if parts.getLast? = some [] then parts.dropLast else parts

/-- The first line of a text. -/
theorem linesOf_append_cons (hline : newline ∉ line) :
    linesOf newline (line ++ newline :: text) = line :: linesOf newline text := by
  have hsplit : (line ++ newline :: text).splitOn newline = line :: text.splitOn newline := by
    rw [List.splitOn_eq_splitOnP, List.splitOn_eq_splitOnP]
    refine List.splitOnP_append_cons_of_forall_mem (fun a ha => ?_) newline (by simp) text
    exact beq_eq_false_iff_ne.mpr (ne_of_mem_of_not_mem ha hline)
  have hne := List.splitOn_ne_nil newline text
  rw [linesOf, hsplit, linesOf, List.getLast?_cons_of_ne_nil hne, List.dropLast_cons_of_ne_nil hne]
  split_ifs <;> rfl

/-- Lines that are written one after the other. -/
theorem linesOf_flatMap {lines : List (List A)} (hlines : ∀ line ∈ lines, newline ∉ line) :
    linesOf newline (lines.flatMap fun line => line ++ [newline]) = lines := by
  induction lines with
  | nil => simp [linesOf]
  | cons line rest ih =>
    rw [List.flatMap_cons, List.append_assoc, List.singleton_append,
      linesOf_append_cons (hlines line List.mem_cons_self),
      ih fun l hl => hlines l (List.mem_cons_of_mem line hl)]

end Lines

section Loop

variable {A R E : Type*} (rule : ℕ → List (List A) → Except E R)

/-- The loop over the lines that have words. -/
def readEntries (rules : List R) : List (ℕ × List (List A)) → List R × Option E
  | [] => (rules, none)
  | entry :: rest =>
    match rule entry.1 entry.2 with
    | .ok r => readEntries (rules ++ [r]) rest
    | .error error => (rules, some error)

variable {rule} {rules : List R} {error : E}

/-- All lines are read if there is a rule for each of them. -/
theorem readEntries_eq_none_iff {before : List R} {found : List (ℕ × List (List A))} :
    readEntries rule before found = (rules, none) ↔
      ∃ new, rules = before ++ new ∧
        List.Forall₂ (fun entry r => rule entry.1 entry.2 = .ok r) found new := by
  induction found generalizing before with
  | nil => simp [readEntries, eq_comm]
  | cons entry rest ih =>
    rw [readEntries]
    constructor
    · split
      · next r hr =>
        rw [ih]
        rintro ⟨new, rfl, hnew⟩
        exact ⟨r :: new, by simp, .cons hr hnew⟩
      · simp
    · rintro ⟨new, rfl, hnew⟩
      cases hnew with
      | cons hr hnew =>
        next r new =>
        rw [hr]
        exact ih.mpr ⟨new, by simp, hnew⟩

/-- Otherwise reading ends at the first line that is refused. -/
theorem readEntries_eq_some_iff {before : List R} {found : List (ℕ × List (List A))} :
    readEntries rule before found = (rules, some error) ↔
      ∃ new front entry back, rules = before ++ new ∧ found = front ++ entry :: back ∧
        List.Forall₂ (fun entry r => rule entry.1 entry.2 = .ok r) front new ∧
        rule entry.1 entry.2 = .error error := by
  induction found generalizing before with
  | nil => simp [readEntries]
  | cons first rest ih =>
    rw [readEntries]
    constructor
    · split
      · next r hr =>
        rw [ih]
        rintro ⟨new, front, entry, back, rfl, rfl, hfront, hentry⟩
        exact ⟨r :: new, first :: front, entry, back, by simp, rfl, .cons hr hfront, hentry⟩
      · next e he =>
        intro h
        rw [Prod.mk.injEq, Option.some_inj] at h
        obtain ⟨rfl, rfl⟩ := h
        exact ⟨[], [], first, rest, by simp, rfl, .nil, he⟩
    · rintro ⟨new, front, entry, back, rfl, hfound, hfront, hentry⟩
      cases hfront with
      | nil =>
        obtain ⟨rfl, rfl⟩ := List.cons.inj hfound
        rw [hentry, List.append_nil]
      | cons hr hfront =>
        next b r front new =>
        obtain ⟨rfl, rfl⟩ := List.cons.inj hfound
        rw [hr]
        exact ih.mpr ⟨new, front, entry, back, by simp, rfl, hfront, hentry⟩

end Loop

section Reading

variable {A R E : Type*} [DecidableEq A] (signs : RuleSigns A)
  (rule : ℕ → List (List A) → Except E R)

/-- A line without its comment, trimmed. -/
def contentOf (line : List A) : List A :=
  trim signs.blank (line.takeWhile fun a => a ≠ signs.hash)

/-- **Reading the lines**: the number of the last line, the rules that have been read, and the
lines that are left. -/
def parseLines : ℕ → List R → List (List A) → List R × Option E
  | _, rules, [] => (rules, none)
  | lineNo, rules, line :: rest =>
    let line := contentOf signs line
    if line.isEmpty then parseLines (lineNo + 1) rules rest
    else
      match words signs.blank line with
      | [] => parseLines (lineNo + 1) rules rest
      | token :: tokens =>
        match rule (lineNo + 1) (token :: tokens) with
        | .ok r => parseLines (lineNo + 1) (rules ++ [r]) rest
        | .error error => (rules, some error)

/-- The lines that have words, with their numbers. -/
def entriesFrom : ℕ → List (List A) → List (ℕ × List (List A))
  | _, [] => []
  | lineNo, line :: rest =>
    match words signs.blank (line.takeWhile fun a => a ≠ signs.hash) with
    | [] => entriesFrom (lineNo + 1) rest
    | token :: tokens => (lineNo + 1, token :: tokens) :: entriesFrom (lineNo + 1) rest

/-- **The lines of a text that have words**, with their numbers. -/
def entries (text : List A) : List (ℕ × List (List A)) :=
  entriesFrom signs 0 (linesOf signs.newline text)

/-- **Reading a text.** -/
def parseRules (text : List A) : List R × Option E :=
  parseLines signs rule 0 [] (linesOf signs.newline text)

/-- Only the lines that have words are read. -/
theorem parseLines_eq (lineNo : ℕ) (rules : List R) (lines : List (List A)) :
    parseLines signs rule lineNo rules lines =
      readEntries rule rules (entriesFrom signs lineNo lines) := by
  induction lines generalizing lineNo rules with
  | nil => rfl
  | cons line rest ih =>
    have hwords : words signs.blank (contentOf signs line) =
        words signs.blank (line.takeWhile fun a => a ≠ signs.hash) := words_trim
    rw [parseLines, entriesFrom, ← hwords]
    split_ifs with hempty
    · rw [List.isEmpty_iff.mp hempty]
      exact ih (lineNo + 1) rules
    · split
      · exact ih (lineNo + 1) rules
      · next token tokens _ =>
        rw [readEntries]
        cases rule (lineNo + 1) (token :: tokens) with
        | ok r => exact ih (lineNo + 1) (rules ++ [r])
        | error error => rfl

variable {signs rule} {rules : List R} {error : E}

/-- Each rule that is read comes from a line. -/
theorem exists_mem_of_forall₂ {B C : Type*} {P : B → C → Prop} {l : List B} {l' : List C}
    (h : List.Forall₂ P l l') {c : C} (hc : c ∈ l') : ∃ b ∈ l, P b c := by
  induction h with
  | nil => exact absurd hc List.not_mem_nil
  | @cons b c' l l' hb _ ih =>
    rcases List.mem_cons.mp hc with rfl | hc
    · exact ⟨b, List.mem_cons_self, hb⟩
    · obtain ⟨b', hb', hP⟩ := ih hc
      exact ⟨b', List.mem_cons_of_mem b hb', hP⟩

/-- **All lines are read** if there is a rule for each of them. -/
theorem parseRules_eq_none_iff {text : List A} : parseRules signs rule text = (rules, none) ↔
    List.Forall₂ (fun entry r => rule entry.1 entry.2 = .ok r) (entries signs text) rules := by
  rw [parseRules, parseLines_eq, readEntries_eq_none_iff]
  simp [entries]

/-- **Otherwise reading ends at the first line that is refused.** -/
theorem parseRules_eq_some_iff {text : List A} :
    parseRules signs rule text = (rules, some error) ↔
      ∃ front entry back, entries signs text = front ++ entry :: back ∧
        List.Forall₂ (fun entry r => rule entry.1 entry.2 = .ok r) front rules ∧
        rule entry.1 entry.2 = .error error := by
  rw [parseRules, parseLines_eq, readEntries_eq_some_iff]
  simp [entries]

end Reading

section Writing

variable {A : Type*} [DecidableEq A] (signs : RuleSigns A)

/-- Lines of words as they are written. -/
def renderLines (space : A) (lines : List (List (List A))) : List A :=
  lines.flatMap fun line => [space].intercalate line ++ [signs.newline]

/-- A word that can be written: it is not empty, and has no blanks and no comment signs. -/
def IsWord (word : List A) : Prop :=
  word ≠ [] ∧ ∀ a ∈ word, signs.blank a = false ∧ a ≠ signs.hash

instance (word : List A) : Decidable (IsWord signs word) :=
  inferInstanceAs (Decidable (_ ∧ _))

variable {signs}

/-- The words of an entry can be written. -/
theorem isWord_of_mem_entriesFrom {lineNo : ℕ} {lines : List (List A)}
    {entry : ℕ × List (List A)} (hentry : entry ∈ entriesFrom signs lineNo lines) :
    ∀ word ∈ entry.2, IsWord signs word := by
  induction lines generalizing lineNo with
  | nil => exact absurd hentry List.not_mem_nil
  | cons line rest ih =>
    rw [entriesFrom] at hentry
    split at hentry
    · exact ih hentry
    · next token tokens hwords =>
      rcases List.mem_cons.mp hentry with rfl | hentry
      · intro word hword
        obtain ⟨hne, hall⟩ := wellFormed_of_mem_words (hwords ▸ hword)
        refine ⟨hne, fun a ha => ⟨(hall a ha).1, ?_⟩⟩
        simpa using List.mem_takeWhile_imp (hall a ha).2
      · exact ih hentry

/-- **What is written is read again.** -/
theorem entries_renderLines {space : A} (hspace : signs.blank space = true)
    (hnewline : space ≠ signs.newline) {lines : List (List (List A))}
    (hlines : ∀ line ∈ lines, line ≠ [] ∧ ∀ word ∈ line, IsWord signs word) :
    (entries signs (renderLines signs space lines)).map Prod.snd = lines := by
  have hmem : ∀ line ∈ lines, ∀ a ∈ [space].intercalate line,
      a = space ∨ signs.blank a = false ∧ a ≠ signs.hash := by
    intro line hline a ha
    rcases mem_intercalate ha with h | ⟨word, hword, h⟩
    · exact Or.inl h
    · exact Or.inr (((hlines line hline).2 word hword).2 a h)
  have hrender : linesOf signs.newline (renderLines signs space lines) =
      lines.map ([space].intercalate ·) := by
    have hflat := @linesOf_flatMap A _ signs.newline (lines.map ([space].intercalate ·))
    rw [List.flatMap_map] at hflat
    refine hflat fun text htext hin => ?_
    obtain ⟨line, hline, rfl⟩ := List.mem_map.mp htext
    rcases hmem line hline _ hin with h | ⟨h, -⟩
    · exact hnewline h.symm
    · exact Bool.noConfusion (signs.blank_newline.symm.trans h)
  rw [entries, hrender]
  generalize 0 = lineNo
  clear hrender
  induction lines generalizing lineNo with
  | nil => rfl
  | cons line rest ih =>
    obtain ⟨hne, hwords⟩ := hlines line List.mem_cons_self
    have hcomment : ([space].intercalate line).takeWhile (fun a => a ≠ signs.hash) =
        [space].intercalate line := by
      refine List.takeWhile_eq_self_iff.mpr fun a ha => decide_eq_true ?_
      rcases hmem line List.mem_cons_self a ha with rfl | ⟨-, h⟩
      · rintro rfl
        exact Bool.noConfusion (hspace.symm.trans signs.blank_hash)
      · exact h
    have hline : words signs.blank ([space].intercalate line) = line :=
      words_intercalate hspace fun word hword =>
        ⟨(hwords word hword).1, fun a ha => ((hwords word hword).2 a ha).1⟩
    rw [List.map_cons, entriesFrom, hcomment, hline]
    split
    · exact absurd rfl hne
    · rw [List.map_cons, ih (fun l hl => hlines l (List.mem_cons_of_mem _ hl))
        (fun l hl => hmem l (List.mem_cons_of_mem _ hl))]

end Writing

end Formats
