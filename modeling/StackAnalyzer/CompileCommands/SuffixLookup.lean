import StackAnalyzer.CompileCommands.Database

set_option relaxedAutoImplicit false
set_option autoImplicit false

/-!
# Looking up a file by the end of its path

A file that is not in the database is looked up by the ends of its path, from the longest one on.
The ends begin with a slash, and where a path has such an end, a slash is asked for in front of it as
well, so only a database path that is wholly the end of the path is found.

## Main definitions

* `StackAnalyzer.CompileCommands.pathHasSuffix`, `StackAnalyzer.CompileCommands.buildPathSuffixes`
  — the test and the ends.
* `StackAnalyzer.CompileCommands.FileSystem.findCommandForFile` — the lookup.
* `StackAnalyzer.CompileCommands.sharedComponents` — how many components two paths share at the end.
* `StackAnalyzer.CompileCommands.FindsClosest` — the lookup finds the only closest path.
* `StackAnalyzer.CompileCommands.WhollyShared` — when the closest path is found.

## Main results

* `StackAnalyzer.CompileCommands.lookupSuffixes_eq_some_iff` — the longest path that is an end.
* `StackAnalyzer.CompileCommands.findsClosest_iff` — when the lookup is right.
-/

namespace StackAnalyzer.CompileCommands

open Formats Maps

/-! ## Ends of paths -/

/-- `pathHasSuffix`. -/
def pathHasSuffix (path suffix : List Char) : Bool :=
  if suffix = [] then false
  else if path.length < suffix.length then false
  else if path.drop (path.length - suffix.length) ≠ suffix then false
  else if path.length = suffix.length then true
  else decide (path[path.length - suffix.length - 1]? = some '/')

/-- The ends that begin with a slash and go on after it, from the longest one on. -/
def slashSuffixes : List Char → List (List Char)
  | [] => []
  | c :: cs => if c = '/' ∧ cs ≠ [] then (c :: cs) :: slashSuffixes cs else slashSuffixes cs

/-- `buildPathSuffixes`. -/
def buildPathSuffixes (path : List Char) : List (List Char) :=
  match path with
  | [] => []
  | _ :: cs => path :: slashSuffixes cs

/-- The loop over the suffixes: one that a single path has gives its entry, one that several paths
have ends the loop. -/
def lookupSuffixes (commands : EntryMap (List Char) CompileCommand) :
    List (List Char) → Option (List Char × CompileCommand)
  | [] => none
  | suffix :: suffixes =>
    match commands.entries.filter fun entry => pathHasSuffix entry.1 suffix with
    | [] => lookupSuffixes commands suffixes
    | [entry] => some entry
    | _ :: _ :: _ => none

/-- `CompilationDatabase::findCommandForFile`: the entry whose command is returned. -/
def FileSystem.findCommandForFile (S : FileSystem) (db : CompilationDatabase)
    (filePath : List Char) : Option (List Char × CompileCommand) :=
  if filePath = [] then none
  else
    let key := S.normalizePath filePath
    match db.commands.find key with
    | some command => some (key, command)
    | none => lookupSuffixes db.commands (buildPathSuffixes key).tail

/-! ## What the lookup is for -/

/-- The components of a path, with the characters of the component that has begun. -/
def componentsFrom : List Char → List Char → List (List Char)
  | [], current => pushToken current []
  | c :: cs, current =>
    if c = '/' then pushToken current (componentsFrom cs []) else componentsFrom cs (current ++ [c])

/-- The components of a path. -/
def components (path : List Char) : List (List Char) := componentsFrom path []

/-- The length of the common beginning of two lists. -/
def commonLength : List (List Char) → List (List Char) → ℕ
  | a :: as, b :: bs => if a = b then commonLength as bs + 1 else 0
  | _, _ => 0

/-- The number of whole components that two paths share at their ends. -/
def sharedComponents (path path' : List Char) : ℕ :=
  commonLength (components path).reverse (components path').reverse

section Spec

variable (commands : EntryMap (List Char) CompileCommand) (key : List Char)

/-- A path of the database shares at least one component, and no path shares more. -/
def IsClosest (entry : List Char × CompileCommand) : Prop :=
  entry ∈ commands.entries ∧ 1 ≤ sharedComponents entry.1 key ∧
    ∀ other ∈ commands.entries, sharedComponents other.1 key ≤ sharedComponents entry.1 key

/-- **The lookup finds the closest path**: what it returns is the only path that shares the most
components, and it returns nothing iff no path shares a component or several share the most. -/
structure FindsClosest (result : Option (List Char × CompileCommand)) : Prop where
  found : ∀ entry, result = some entry ↔
    IsClosest commands key entry ∧ ∀ other, IsClosest commands key other → other = entry
  notFound : result = none ↔ (∀ entry ∈ commands.entries, sharedComponents entry.1 key = 0) ∨
    ∃ entry other, IsClosest commands key entry ∧ IsClosest commands key other ∧ entry ≠ other

/-- A path of the database is wholly an end of the path. -/
def IsWholeEnd (entry : List Char × CompileCommand) : Prop :=
  entry ∈ commands.entries ∧ entry.1 ≠ key ∧ entry.1 <:+ key ∧ entry.1.head? = some '/' ∧
    1 < entry.1.length

/-- **The closest path is wholly shared**: if only one path shares the most components, then it is
wholly an end of the path, and if several do, then no path is. -/
def WhollyShared : Prop :=
  (∀ entry, IsClosest commands key entry → (∀ other, IsClosest commands key other → other = entry) →
    IsWholeEnd commands key entry) ∧
  ((∃ entry other, IsClosest commands key entry ∧ IsClosest commands key other ∧ entry ≠ other) →
    ∀ entry, ¬IsWholeEnd commands key entry)

end Spec

/-- No path that has been made canonical has two slashes in a row. -/
def FileSystem.Canonical (S : FileSystem) : Prop :=
  ∀ path, ¬['/', '/'] <:+: S.canonicalText path

/-! ## Components -/

theorem componentsFrom_append (a b current : List Char) :
    componentsFrom (a ++ '/' :: b) current = componentsFrom a current ++ componentsFrom b [] := by
  have hpush : ∀ (t : List Char) (ts us : List (List Char)),
      pushToken t (ts ++ us) = pushToken t ts ++ us := by
    intro t ts us
    unfold pushToken
    split_ifs <;> rfl
  induction a generalizing current with
  | nil =>
    have hnil := hpush current [] (componentsFrom b [])
    rw [List.nil_append] at hnil
    simpa only [List.nil_append, componentsFrom, if_true] using hnil
  | cons c cs ih =>
    rw [List.cons_append, componentsFrom, componentsFrom]
    split_ifs
    · rw [ih, hpush]
    · exact ih _

/-- The components of a path up to a slash, and after it. -/
theorem components_append (a b : List Char) :
    components (a ++ '/' :: b) = components a ++ components ('/' :: b) := by
  have hslash : components ('/' :: b) = components b := rfl
  rw [hslash]
  exact componentsFrom_append a b []

theorem componentsFrom_ne_nil {current : List Char} (hcurrent : current ≠ []) (a : List Char) :
    componentsFrom a current ≠ [] := by
  induction a generalizing current with
  | nil => simp [componentsFrom, pushToken, hcurrent]
  | cons c cs ih =>
    rw [componentsFrom]
    split_ifs
    · simp [pushToken, hcurrent]
    · exact ih (by simp)

/-- A text that begins with a slash and goes on with another character has a component. -/
theorem components_ne_nil {c : Char} (hc : c ≠ '/') (cs : List Char) :
    components ('/' :: c :: cs) ≠ [] := by
  have hslash : components ('/' :: c :: cs) = components (c :: cs) := rfl
  rw [hslash, components, componentsFrom, if_neg hc]
  exact componentsFrom_ne_nil (by simp) cs

theorem commonLength_append (a b : List (List Char)) : commonLength a (a ++ b) = a.length := by
  induction a with
  | nil => cases b <;> rfl
  | cons x xs ih => rw [List.cons_append, commonLength, if_pos rfl, ih, List.length_cons]

/-- A path without two slashes in a row goes on with a component after its first slash. -/
theorem exists_of_noDoubleSlash {path : List Char} (hpath : ¬['/', '/'] <:+: path)
    (hhead : path.head? = some '/') (hlength : 1 < path.length) :
    ∃ c cs, c ≠ '/' ∧ path = '/' :: c :: cs := by
  match path, hhead, hlength with
  | a :: c :: cs, hhead, _ =>
    obtain rfl : a = '/' := Option.some.inj hhead
    refine ⟨c, cs, ?_, rfl⟩
    rintro rfl
    exact hpath ⟨[], cs, rfl⟩

section Ends

variable {commands : EntryMap (List Char) CompileCommand} {key : List Char}
variable (hcommands : ∀ entry ∈ commands.entries, ¬['/', '/'] <:+: entry.1)

include hcommands

/-- All components of a path that is wholly an end are shared. -/
theorem IsWholeEnd.sharedComponents {entry : List Char × CompileCommand}
    (h : IsWholeEnd commands key entry) :
    sharedComponents entry.1 key = (components entry.1).length ∧ 1 ≤ (components entry.1).length := by
  obtain ⟨hmem, -, ⟨r, hkey⟩, hhead, hlength⟩ := h
  obtain ⟨c, cs, hc, hentry⟩ := exists_of_noDoubleSlash (hcommands entry hmem) hhead hlength
  refine ⟨?_, ?_⟩
  · unfold CompileCommands.sharedComponents
    rw [← hkey, hentry, components_append, List.reverse_append, commonLength_append,
      List.length_reverse]
  · rw [hentry]
    exact List.length_pos_of_ne_nil (components_ne_nil hc cs)

/-- Of two paths that are wholly ends the longer one has more components. -/
theorem IsWholeEnd.components_lt {entry other : List Char × CompileCommand}
    (h : IsWholeEnd commands key entry) (h' : IsWholeEnd commands key other)
    (hlt : entry.1.length < other.1.length) :
    (components entry.1).length < (components other.1).length := by
  obtain ⟨hmem, -, hsuffix, hhead, hlength⟩ := h
  obtain ⟨hmem', -, hsuffix', hhead', hlength'⟩ := h'
  obtain ⟨r, hr⟩ := List.suffix_of_suffix_length_le hsuffix hsuffix' hlt.le
  obtain ⟨c, cs, -, hentry⟩ := exists_of_noDoubleSlash (hcommands entry hmem) hhead hlength
  obtain ⟨c', cs', hc', hother⟩ := exists_of_noDoubleSlash (hcommands other hmem') hhead' hlength'
  have hcomponents : components other.1 = components r ++ components entry.1 := by
    rw [← hr, hentry, components_append]
  rw [hcomponents, List.length_append]
  -- what the longer path begins with is a slash and a component
  have hr' : components r ≠ [] := by
    rw [hentry, hother] at hr
    match r, hr with
    | [], hr =>
      have := congrArg List.length hr
      rw [hentry, hother] at hlt
      simp only [List.length_cons, List.nil_append] at this hlt
      omega
    | [a], hr =>
      simp only [List.cons_append, List.nil_append, List.cons.injEq] at hr
      exact absurd hr.2.1.symm hc'
    | a :: b :: r, hr =>
      simp only [List.cons_append, List.cons.injEq] at hr
      obtain ⟨rfl, rfl, -⟩ := hr
      exact components_ne_nil hc' r
  have hpos := List.length_pos_of_ne_nil hr'
  omega

end Ends

/-! ## The loop over the ends -/

theorem mem_slashSuffixes_iff (l suffix : List Char) : suffix ∈ slashSuffixes l ↔
    suffix <:+ l ∧ suffix.head? = some '/' ∧ 1 < suffix.length := by
  induction l with
  | nil =>
    simp only [slashSuffixes, List.not_mem_nil, List.suffix_nil, false_iff]
    rintro ⟨rfl, hhead, -⟩
    cases hhead
  | cons c cs ih =>
    have hiff : suffix ∈ slashSuffixes (c :: cs) ↔
        (c = '/' ∧ cs ≠ [] ∧ suffix = c :: cs) ∨ suffix ∈ slashSuffixes cs := by
      rw [slashSuffixes]
      split_ifs with h
      · simp [h.1, h.2]
      · simp only [iff_or_self]
        exact fun h' => absurd ⟨h'.1, h'.2.1⟩ h
    rw [hiff, ih, List.suffix_cons_iff]
    constructor
    · rintro (⟨rfl, hne, rfl⟩ | ⟨hsuffix, hrest⟩)
      · refine ⟨Or.inl rfl, rfl, ?_⟩
        have := List.length_pos_of_ne_nil hne
        rw [List.length_cons]
        omega
      · exact ⟨Or.inr hsuffix, hrest⟩
    · rintro ⟨rfl | hsuffix, hhead, hlength⟩
      · refine Or.inl ⟨Option.some.inj hhead, ?_, rfl⟩
        rintro rfl
        simp at hlength
      · exact Or.inr ⟨hsuffix, hhead, hlength⟩

/-- The ends are listed from the longest one on. -/
theorem pairwise_slashSuffixes (l : List Char) :
    (slashSuffixes l).Pairwise fun a b => b.length < a.length := by
  induction l with
  | nil => exact List.Pairwise.nil
  | cons c cs ih =>
    rw [slashSuffixes]
    split_ifs
    · refine List.Pairwise.cons (fun b hb => ?_) ih
      have := ((mem_slashSuffixes_iff cs b).mp hb).1.length_le
      rw [List.length_cons]
      omega
    · exact ih

/-- Without two slashes in a row, the only path with an end that begins with a slash is this end. -/
theorem pathHasSuffix_iff {path suffix : List Char} (hpath : ¬['/', '/'] <:+: path)
    (hhead : suffix.head? = some '/') : pathHasSuffix path suffix = true ↔ path = suffix := by
  have hne : suffix ≠ [] := by
    rintro rfl
    cases hhead
  unfold pathHasSuffix
  rw [if_neg hne]
  constructor
  · intro h
    split_ifs at h with hlt hdrop hlength
    · rw [not_not] at hdrop
      rw [← hdrop, hlength, Nat.sub_self, List.drop_zero]
    · rw [not_not] at hdrop
      exfalso
      obtain ⟨cs, rfl⟩ : ∃ cs, suffix = '/' :: cs := by
        match suffix, hhead with
        | a :: cs, hhead => exact ⟨cs, by rw [Option.some.inj hhead]⟩
      have hn : path.length - ('/' :: cs).length - 1 < path.length := by
        simp only [List.length_cons] at hlength hlt ⊢
        omega
      have hget : path[path.length - ('/' :: cs).length - 1] = '/' := by
        rw [List.getElem?_eq_getElem hn] at h
        exact Option.some.inj (of_decide_eq_true h)
      have hsplit : path.drop (path.length - ('/' :: cs).length - 1) = '/' :: '/' :: cs := by
        rw [List.drop_eq_getElem_cons hn, hget]
        have hsucc : path.length - ('/' :: cs).length - 1 + 1 =
            path.length - ('/' :: cs).length := by
          simp only [List.length_cons] at hlength hlt ⊢
          omega
        rw [hsucc, hdrop]
      refine hpath ⟨path.take (path.length - ('/' :: cs).length - 1), cs, ?_⟩
      rw [List.append_assoc, List.cons_append, List.cons_append, List.nil_append, ← hsplit,
        List.take_append_drop]
  · rintro rfl
    simp

section Loop

variable {commands : EntryMap (List Char) CompileCommand} {key : List Char}
variable (hcommands : ∀ entry ∈ commands.entries, ¬['/', '/'] <:+: entry.1)

include hcommands

/-- An end has at most one path. -/
theorem filter_pathHasSuffix {suffix : List Char} (hhead : suffix.head? = some '/') :
    (commands.entries.filter fun entry => pathHasSuffix entry.1 suffix) =
      match commands.find suffix with
      | none => []
      | some command => [(suffix, command)] := by
  have hcongr : (commands.entries.filter fun entry => pathHasSuffix entry.1 suffix) =
      commands.entries.filter fun entry => decide (entry.1 = suffix) := by
    apply List.filter_congr
    intro entry hmem
    rw [Bool.eq_iff_iff, decide_eq_true_iff]
    exact pathHasSuffix_iff (hcommands entry hmem) hhead
  rw [hcongr]
  have hnodup := commands.nodup
  unfold EntryMap.find
  generalize commands.entries = entries at hnodup
  clear hcongr
  induction entries with
  | nil => rfl
  | cons entry entries ih =>
    obtain ⟨hnot, hnodup⟩ := List.nodup_cons.mp hnodup
    rw [List.filter_cons, lookup]
    by_cases heq : entry.1 = suffix
    · have hnone : lookup entries suffix = none := lookup_eq_none_iff.mpr (heq ▸ hnot)
      have hrest := ih hnodup
      rw [hnone] at hrest
      rw [if_pos (decide_eq_true heq), if_pos heq, hrest, ← heq]
    · rw [if_neg (by simpa using heq), if_neg heq]
      exact ih hnodup

/-- **The longest path that is wholly an end is found.** -/
theorem lookupSuffixes_eq_some_iff {suffixes : List (List Char)}
    (hhead : ∀ suffix ∈ suffixes, suffix.head? = some '/')
    (hsorted : suffixes.Pairwise fun a b => b.length < a.length)
    (entry : List Char × CompileCommand) :
    lookupSuffixes commands suffixes = some entry ↔ entry ∈ commands.entries ∧
      entry.1 ∈ suffixes ∧ ∀ other ∈ commands.entries, other.1 ∈ suffixes →
        other.1.length ≤ entry.1.length := by
  induction suffixes with
  | nil => simp [lookupSuffixes]
  | cons suffix suffixes ih =>
    obtain ⟨hlonger, hsorted⟩ := List.pairwise_cons.mp hsorted
    have hrest := ih (fun s hs => hhead s (List.mem_cons_of_mem suffix hs)) hsorted
    have hfilter := filter_pathHasSuffix hcommands (hhead suffix List.mem_cons_self)
    rw [lookupSuffixes, hfilter]
    cases hfind : commands.find suffix with
    | none =>
      have hnot : ∀ other ∈ commands.entries, other.1 ≠ suffix := by
        rintro ⟨path, command⟩ hother rfl
        rw [EntryMap.find_eq_some_iff.mpr hother] at hfind
        cases hfind
      rw [hrest]
      refine and_congr_right fun hmem => ?_
      simp only [List.mem_cons, hnot entry hmem, false_or]
      refine and_congr_right fun _ => ?_
      constructor
      · rintro h other hother (heq | hin)
        · exact absurd heq (hnot other hother)
        · exact h other hother hin
      · exact fun h other hother hin => h other hother (Or.inr hin)
    | some command =>
      have hmem := EntryMap.find_eq_some_iff.mp hfind
      constructor
      · intro h
        obtain rfl := Option.some.inj h
        refine ⟨hmem, List.mem_cons_self, fun other hother hin => ?_⟩
        rcases List.mem_cons.mp hin with heq | hin
        · rw [heq]
        · exact (hlonger _ hin).le
      · rintro ⟨hentry, hin, hall⟩
        have hle := hall _ hmem List.mem_cons_self
        rcases List.mem_cons.mp hin with heq | hin
        · have hfind' := (EntryMap.find_eq_some_iff (m := commands) (k := entry.1)).mpr hentry
          rw [heq, hfind] at hfind'
          obtain rfl := Option.some.inj hfind'
          rw [← heq]
        · exact absurd (hlonger _ hin) (not_lt.mpr hle)

end Loop

/-! ## When the closest path is found -/

/-- The ends that are looked up are proper. -/
theorem mem_tail_buildPathSuffixes (key suffix : List Char) :
    suffix ∈ (buildPathSuffixes key).tail ↔
      suffix ≠ key ∧ suffix <:+ key ∧ suffix.head? = some '/' ∧ 1 < suffix.length := by
  cases key with
  | nil =>
    simp only [buildPathSuffixes, List.tail_nil, List.not_mem_nil, List.suffix_nil, false_iff]
    exact fun h => h.1 h.2.1
  | cons c cs =>
    rw [buildPathSuffixes, List.tail_cons, mem_slashSuffixes_iff, List.suffix_cons_iff]
    constructor
    · rintro ⟨hsuffix, hrest⟩
      refine ⟨?_, Or.inr hsuffix, hrest⟩
      rintro rfl
      have := hsuffix.length_le
      rw [List.length_cons] at this
      omega
    · rintro ⟨hne, hsuffix, hrest⟩
      exact ⟨hsuffix.resolve_left hne, hrest⟩

section Closest

variable {commands : EntryMap (List Char) CompileCommand} {key : List Char}

/-- If some path shares a component, then some path is closest. -/
theorem exists_isClosest {entry : List Char × CompileCommand} (hmem : entry ∈ commands.entries)
    (hshared : 1 ≤ sharedComponents entry.1 key) : ∃ closest, IsClosest commands key closest := by
  obtain ⟨closest, hclosest, hmax⟩ := Finset.exists_max_image commands.entries.toFinset
    (fun e => sharedComponents e.1 key) ⟨entry, List.mem_toFinset.mpr hmem⟩
  refine ⟨closest, List.mem_toFinset.mp hclosest, ?_, fun other hother => ?_⟩
  · exact hshared.trans (hmax entry (List.mem_toFinset.mpr hmem))
  · exact hmax other (List.mem_toFinset.mpr hother)

/-- What is not found is not there, or not the only one. -/
theorem findsClosest_of_found {result : Option (List Char × CompileCommand)}
    (hfound : ∀ entry, result = some entry ↔
      IsClosest commands key entry ∧ ∀ other, IsClosest commands key other → other = entry) :
    FindsClosest commands key result where
  found := hfound
  notFound := by
    constructor
    · intro hnone
      by_cases hall : ∀ entry ∈ commands.entries, sharedComponents entry.1 key = 0
      · exact Or.inl hall
      · push Not at hall
        obtain ⟨entry, hmem, hshared⟩ := hall
        obtain ⟨closest, hclosest⟩ := exists_isClosest hmem (Nat.one_le_iff_ne_zero.mpr hshared)
        refine Or.inr ⟨closest, ?_⟩
        by_contra hunique
        push Not at hunique
        have hsome := (hfound closest).mpr
          ⟨hclosest, fun other hother => (hunique other hclosest hother).symm⟩
        rw [hnone] at hsome
        cases hsome
    · intro h
      cases hresult : result with
      | none => rfl
      | some found =>
        obtain ⟨hclosest, hunique⟩ := (hfound found).mp hresult
        rcases h with hall | ⟨entry, other, hentry, hother, hne⟩
        · have hshared := hclosest.2.1
          rw [hall found hclosest.1] at hshared
          omega
        · exact absurd ((hunique entry hentry).trans (hunique other hother).symm) hne

variable (hcommands : ∀ entry ∈ commands.entries, ¬['/', '/'] <:+: entry.1)

include hcommands

/-- A lookup of the longest whole end is right iff the closest path is wholly shared. -/
theorem findsClosest_iff_whollyShared {result : Option (List Char × CompileCommand)}
    (hresult : ∀ entry, result = some entry ↔ IsWholeEnd commands key entry ∧
      ∀ other, IsWholeEnd commands key other → other.1.length ≤ entry.1.length) :
    FindsClosest commands key result ↔ WhollyShared commands key := by
  have hsome : ∀ {entry}, IsWholeEnd commands key entry → ∃ found, result = some found := by
    intro entry hentry
    by_contra hnone
    -- the longest of the whole ends is found
    let ends := commands.entries.toFinset.filter fun e =>
      e.1 ≠ key ∧ e.1 <:+ key ∧ e.1.head? = some '/' ∧ 1 < e.1.length
    have hmem : ∀ e, e ∈ ends ↔ IsWholeEnd commands key e := by
      intro e
      simp only [ends, Finset.mem_filter, List.mem_toFinset, IsWholeEnd]
    obtain ⟨longest, hlongest, hmax⟩ := Finset.exists_max_image ends (fun e => e.1.length)
      ⟨entry, (hmem entry).mpr hentry⟩
    refine hnone ⟨longest, (hresult longest).mpr ⟨(hmem longest).mp hlongest, ?_⟩⟩
    exact fun other hother => hmax other ((hmem other).mpr hother)
  constructor
  · intro h
    refine ⟨fun entry hclosest hunique => ?_, fun htie entry hentry => ?_⟩
    · exact ((hresult entry).mp ((h.found entry).mpr ⟨hclosest, hunique⟩)).1
    · obtain ⟨found, hfound⟩ := hsome hentry
      obtain ⟨-, hunique⟩ := (h.found found).mp hfound
      obtain ⟨e, other, he, hother, hne⟩ := htie
      exact hne ((hunique e he).trans (hunique other hother).symm)
  · rintro ⟨hunique, htie⟩
    apply findsClosest_of_found
    -- what is found is the only closest path
    have hfound : ∀ found, result = some found → IsClosest commands key found ∧
        ∀ other, IsClosest commands key other → other = found := by
      intro found hfound
      obtain ⟨hwhole, hlongest⟩ := (hresult found).mp hfound
      obtain ⟨hshared, hpos⟩ := hwhole.sharedComponents hcommands
      obtain ⟨closest, hclosest⟩ := exists_isClosest hwhole.1 (hshared ▸ hpos)
      have honly : ∀ other, IsClosest commands key other → other = closest := by
        intro other hother
        by_contra hne
        exact htie ⟨other, closest, hother, hclosest, hne⟩ found hwhole
      have hclosestWhole := hunique closest hclosest honly
      have heq : closest = found := by
        have hle := hclosest.2.2 found hwhole.1
        rw [hshared, (hclosestWhole.sharedComponents hcommands).1] at hle
        have hlength : closest.1.length = found.1.length := by
          apply le_antisymm (hlongest closest hclosestWhole)
          by_contra hlt
          have := hclosestWhole.components_lt hcommands hwhole (not_le.mp hlt)
          omega
        have hpath : closest.1 = found.1 :=
          (List.suffix_of_suffix_length_le hclosestWhole.2.2.1 hwhole.2.2.1
            hlength.le).eq_of_length hlength
        have hfind := EntryMap.find_eq_some_iff.mpr hclosest.1
        have hfind' := EntryMap.find_eq_some_iff.mpr hwhole.1
        rw [hpath, hfind'] at hfind
        exact Prod.ext hpath (Option.some.inj hfind).symm
      rw [heq] at hclosest honly
      exact ⟨hclosest, honly⟩
    intro entry
    refine ⟨hfound entry, ?_⟩
    rintro ⟨hclosest, honly⟩
    obtain ⟨found, hresult'⟩ := hsome (hunique entry hclosest honly)
    rw [hresult', honly found (hfound found hresult').1]

end Closest

/-! ## The databases that are loaded -/

theorem not_infix_dropTrailingSlashes {out : List Char} (h : ¬['/', '/'] <:+: out) :
    ¬['/', '/'] <:+: dropTrailingSlashes out := by
  cases out with
  | nil => exact h
  | cons c cs =>
    have hfront : dropTrailingSlashes (c :: cs) <+: c :: cs := by
      rw [dropTrailingSlashes, List.prefix_cons_inj, ← List.reverse_suffix, List.reverse_reverse]
      exact List.dropWhile_suffix _
    exact fun hpart => h (hpart.trans hfront.isInfix)

/-- No normal path has two slashes in a row. -/
theorem FileSystem.Canonical.normalizePath {S : FileSystem} (hS : S.Canonical)
    (path : List Char) : ¬['/', '/'] <:+: S.normalizePath path := by
  unfold FileSystem.normalizePath
  split_ifs
  · simp
  · exact not_infix_dropTrailingSlashes (hS path)

/-- No path of a database has two slashes in a row. -/
theorem FileSystem.Canonical.loadEntries {S : FileSystem} (hS : S.Canonical) (path : List Char)
    (entries : List Json) :
    ∀ entry ∈ (S.loadEntries path entries).entries, ¬['/', '/'] <:+: entry.1 := by
  rintro ⟨fileKey, command⟩ hmem
  obtain ⟨hbest, -⟩ := (S.find_loadEntries_iff path entries fileKey command).mp
    (EntryMap.find_eq_some_iff.mpr hmem)
  obtain ⟨entryValue, -, hentry⟩ := List.mem_filterMap.mp hbest
  unfold FileSystem.entryCommand at hentry
  split at hentry
  · cases hentry
  · split at hentry
    · cases hentry
    · dsimp only at hentry
      split_ifs at hentry
      all_goals
        obtain ⟨rfl, -⟩ := Prod.mk.inj (Option.some.inj hentry)
        exact hS.normalizePath _

/-- **The lookup finds the closest path** of a database that has been loaded iff the closest path is
wholly shared.

**Proof sketch.** The ends begin with a slash and no path has two in a row, so a path has an end iff
it is this end, and the longest path that is an end is found. All its components are shared, so if
there is an only closest path and it is such an end, then it is the longest one. -/
theorem findsClosest_iff (S : FileSystem) (hS : S.Canonical) (path : List Char)
    (entries : List Json) {filePath : List Char} (hne : filePath ≠ [])
    (hkey : (S.loadEntries path entries).find (S.normalizePath filePath) = none) :
    FindsClosest (S.loadEntries path entries) (S.normalizePath filePath)
        (S.findCommandForFile ⟨S.normalizePath path, S.loadEntries path entries⟩ filePath) ↔
      WhollyShared (S.loadEntries path entries) (S.normalizePath filePath) := by
  have hcommands := hS.loadEntries path entries
  apply findsClosest_iff_whollyShared hcommands
  intro entry
  have hlookup : S.findCommandForFile ⟨S.normalizePath path, S.loadEntries path entries⟩ filePath =
      lookupSuffixes (S.loadEntries path entries)
        (buildPathSuffixes (S.normalizePath filePath)).tail := by
    simp only [FileSystem.findCommandForFile, if_neg hne, hkey]
  have hmem := mem_tail_buildPathSuffixes (S.normalizePath filePath)
  have hsorted : (buildPathSuffixes (S.normalizePath filePath)).tail.Pairwise
      fun a b => b.length < a.length := by
    cases S.normalizePath filePath with
    | nil => exact List.Pairwise.nil
    | cons c cs => exact pairwise_slashSuffixes cs
  rw [hlookup, lookupSuffixes_eq_some_iff hcommands
    (fun suffix hsuffix => ((hmem suffix).mp hsuffix).2.2.1) hsorted]
  simp only [hmem, IsWholeEnd]
  constructor
  · rintro ⟨hentry, hend, hall⟩
    exact ⟨⟨hentry, hend⟩, fun other hother => hall other hother.1 hother.2⟩
  · rintro ⟨⟨hentry, hend⟩, hall⟩
    exact ⟨hentry, hend, fun other hother hend => hall other ⟨hother, hend⟩⟩

/-! ## A path that is shared only in part -/

/-- Slashes in a row become one. -/
def squeezeSlashes : List Char → List Char
  | [] => []
  | c :: cs =>
    if c = '/' ∧ (squeezeSlashes cs).head? = some '/' then squeezeSlashes cs
    else c :: squeezeSlashes cs

theorem not_infix_squeezeSlashes (path : List Char) : ¬['/', '/'] <:+: squeezeSlashes path := by
  induction path with
  | nil => simp [squeezeSlashes]
  | cons c cs ih =>
    rw [squeezeSlashes]
    split_ifs with h
    · exact ih
    · rw [List.infix_cons_iff]
      rintro (hfront | hpart)
      · obtain ⟨rfl, hrest⟩ := List.cons_prefix_cons.mp hfront
        refine h ⟨rfl, ?_⟩
        obtain ⟨rest, hrest⟩ := hrest
        rw [← hrest]
        rfl
      · exact ih hpart

/-- A file system without links in which every path is absolute. No text is parsed. -/
def plainFiles : FileSystem where
  parse _ := .error []
  canonicalText := squeezeSlashes
  parentPath path := (path.reverse.dropWhile (· ≠ '/')).reverse
  currentPath := some ['/']

/-- A database with the file `/p/a` only. -/
def singleEntry : List Json :=
  [.object [("arguments".toList, .array [.string ['-', 'c']]),
    ("file".toList, .string ['/', 'p', '/', 'a'])]]

/-- The lookup is right for `/q/p/a`, of which the path of the database is wholly an end. -/
theorem findsClosest_iff_wholeEnd :
    FindsClosest (plainFiles.loadEntries ['/', 'd'] singleEntry)
        (plainFiles.normalizePath ['/', 'q', '/', 'p', '/', 'a'])
        (plainFiles.findCommandForFile ⟨plainFiles.normalizePath ['/', 'd'],
          plainFiles.loadEntries ['/', 'd'] singleEntry⟩ ['/', 'q', '/', 'p', '/', 'a']) ↔
      WhollyShared (plainFiles.loadEntries ['/', 'd'] singleEntry)
        (plainFiles.normalizePath ['/', 'q', '/', 'p', '/', 'a']) :=
  findsClosest_iff plainFiles not_infix_squeezeSlashes ['/', 'd'] singleEntry (by decide)
    (by decide)

/-- The file `/q/a` shares its name with the only path of the database, and is not found. -/
theorem not_findsClosest_siblingDirectory :
    ¬FindsClosest (plainFiles.loadEntries ['/', 'd'] singleEntry)
        (plainFiles.normalizePath ['/', 'q', '/', 'a'])
        (plainFiles.findCommandForFile ⟨plainFiles.normalizePath ['/', 'd'],
          plainFiles.loadEntries ['/', 'd'] singleEntry⟩ ['/', 'q', '/', 'a']) := by
  intro h
  have hentries : (plainFiles.loadEntries ['/', 'd'] singleEntry).entries =
      [(['/', 'p', '/', 'a'], ⟨['/'], [['-', 'c']]⟩)] := by
    decide
  have hmem : ∀ {entry}, entry ∈ (plainFiles.loadEntries ['/', 'd'] singleEntry).entries →
      entry = (['/', 'p', '/', 'a'], ⟨['/'], [['-', 'c']]⟩) := by
    intro entry hentry
    rw [hentries] at hentry
    exact List.mem_singleton.mp hentry
  rcases h.notFound.mp (by decide) with hall | ⟨entry, other, hentry, hother, hne⟩
  · have hzero := hall (['/', 'p', '/', 'a'], ⟨['/'], [['-', 'c']]⟩) (by decide)
    exact absurd hzero (by decide)
  · exact hne ((hmem hentry.1).trans (hmem hother.1).symm)

end StackAnalyzer.CompileCommands
