import StackAnalyzer.Names.Mangle

set_option relaxedAutoImplicit false
set_option autoImplicit false

/-!
# Canonical names

Both replacements take a version away behind `St`. Each pass leaves no match of its own pattern:
where the replaced text stands in front of another version, the search begins there again. But the
second pass can uncover a version of the first pattern, which the first pass has not seen. So a name
is canonical after one call unless it has such a version behind versions of the second pattern.

## Main definitions

* `StackAnalyzer.dropVersion` — one pass, without fuel.
* `StackAnalyzer.Uncovers` — the second pass uncovers a version of the first pattern.

## Main results

* `StackAnalyzer.not_infix_dropVersion` — a pass leaves no match of its own pattern.
* `StackAnalyzer.canonicalizeMangledName_idem_iff` — when canonicalising twice is canonicalising
  once.
-/

namespace StackAnalyzer

/-! ## One pass -/

section Passes

/-- The versions that the passes take away behind `St`. -/
def libcxxVersion : List Char := ['3', '_', '_', '1']

/-- The version of `St7__cxx11`. -/
def libstdcxxVersion : List Char := ['7', '_', '_', 'c', 'x', 'x', '1', '1']

/-- **One pass**: a version is taken away behind `St`, and the search begins there again. -/
def dropVersion (version text : List Char) : List Char :=
  replaceAll ('S' :: 't' :: version) ['S', 't'] text.length text

variable {version text : List Char}

/-- More fuel than characters does not matter. -/
theorem replaceAll_fuel (hne : version ≠ []) {n m : ℕ} (hn : text.length ≤ n)
    (hm : text.length ≤ m) :
    replaceAll ('S' :: 't' :: version) ['S', 't'] n text =
      replaceAll ('S' :: 't' :: version) ['S', 't'] m text := by
  induction n generalizing m text with
  | zero =>
    obtain rfl := List.eq_nil_of_length_eq_zero (Nat.le_zero.mp hn)
    cases m with
    | zero => rfl
    | succ m => rfl
  | succ n ih =>
    cases m with
    | zero =>
      obtain rfl := List.eq_nil_of_length_eq_zero (Nat.le_zero.mp hm)
      rfl
    | succ m =>
      unfold replaceAll
      split_ifs with hprefix
      · obtain ⟨rest, rfl⟩ := List.isPrefixOf_iff_prefix.mp hprefix
        have hpos := List.length_pos_of_ne_nil hne
        rw [List.drop_left]
        simp only [List.length_append, List.length_cons] at hn hm
        refine ih ?_ ?_ <;>
          simp only [List.length_append, List.length_cons, List.length_nil] <;> omega
      · cases text with
        | nil => rfl
        | cons c rest =>
          rw [List.length_cons] at hn hm
          dsimp only
          rw [ih (m := m) (by omega) (by omega)]

@[simp] theorem dropVersion_nil : dropVersion version [] = [] := rfl

/-- A version behind `St` is taken away. -/
theorem dropVersion_version (hne : version ≠ []) :
    dropVersion version ('S' :: 't' :: (version ++ text)) =
      dropVersion version ('S' :: 't' :: text) := by
  have hpos := List.length_pos_of_ne_nil hne
  have hprefix : ('S' :: 't' :: version).isPrefixOf ('S' :: 't' :: (version ++ text)) = true :=
    List.isPrefixOf_iff_prefix.mpr ⟨text, rfl⟩
  have hdrop : ('S' :: 't' :: (version ++ text)).drop ('S' :: 't' :: version).length = text :=
    List.drop_left
  rw [dropVersion, List.length_cons, replaceAll, if_pos hprefix, hdrop]
  refine replaceAll_fuel hne ?_ le_rfl
  simp only [List.length_append, List.length_cons, List.length_nil]
  omega

/-- Without a version, `St` stays. -/
theorem dropVersion_kept (hnot : ¬ version <+: text) :
    dropVersion version ('S' :: 't' :: text) = 'S' :: 't' :: dropVersion version text := by
  have hfirst : ¬ ('S' :: 't' :: version).isPrefixOf ('S' :: 't' :: text) = true := by
    simpa [List.isPrefixOf_iff_prefix] using hnot
  have hsecond : ¬ ('S' :: 't' :: version).isPrefixOf ('t' :: text) = true := by
    simp [List.isPrefixOf_iff_prefix]
  rw [dropVersion, List.length_cons, replaceAll, if_neg hfirst, List.length_cons, replaceAll,
    if_neg hsecond]
  rfl

/-- Any other character stays. -/
theorem dropVersion_cons {c : Char} (hnot : ¬ ['S', 't'] <+: c :: text) :
    dropVersion version (c :: text) = c :: dropVersion version text := by
  have hfirst : ¬ ('S' :: 't' :: version).isPrefixOf (c :: text) = true := by
    rw [List.isPrefixOf_iff_prefix]
    intro hprefix
    exact hnot ((List.prefix_append ['S', 't'] version).trans hprefix)
  rw [dropVersion, List.length_cons, replaceAll, if_neg hfirst]
  rfl

end Passes

/-! ## What a pass leaves -/

section Texts

/-- A text that begins with `St`. -/
theorem St_prefix_iff {c : Char} {text : List Char} :
    ['S', 't'] <+: c :: text ↔ c = 'S' ∧ ∃ tail, text = 't' :: tail := by
  rw [List.cons_prefix_cons, eq_comm]
  refine and_congr_right fun _ => ⟨?_, ?_⟩
  · rintro ⟨tail, rfl⟩
    exact ⟨tail, rfl⟩
  · rintro ⟨tail, rfl⟩
    exact ⟨tail, rfl⟩

/-- **Induction over a pass**: a version behind `St`, `St` without a version, another character. -/
theorem pass_induction {version : List Char} (hne : version ≠ []) {motive : List Char → Prop}
    (nil : motive [])
    (drop : ∀ text, motive ('S' :: 't' :: text) → motive ('S' :: 't' :: (version ++ text)))
    (keep : ∀ text, ¬ version <+: text → motive text → motive ('S' :: 't' :: text))
    (cons : ∀ c text, ¬ ['S', 't'] <+: c :: text → motive text → motive (c :: text))
    (text : List Char) : motive text := by
  induction hlen : text.length using Nat.strong_induction_on generalizing text with
  | _ n ih =>
    subst hlen
    match text with
    | [] => exact nil
    | c :: rest =>
      by_cases hSt : ['S', 't'] <+: c :: rest
      · obtain ⟨rfl, tail, rfl⟩ := St_prefix_iff.mp hSt
        by_cases hversion : version <+: tail
        · obtain ⟨after, rfl⟩ := hversion
          have hpos := List.length_pos_of_ne_nil hne
          refine drop after (ih _ ?_ _ rfl)
          simp only [List.length_cons, List.length_append]
          omega
        · refine keep tail hversion (ih _ ?_ _ rfl)
          simp only [List.length_cons]
          omega
      · exact cons c rest hSt (ih _ (Nat.lt_succ_self _) _ rfl)

variable {version text word : List Char}

/-- `St` is left in front. -/
theorem exists_dropVersion_St (hne : version ≠ []) (text : List Char) :
    ∃ rest, dropVersion version ('S' :: 't' :: text) = 'S' :: 't' :: rest := by
  induction hlen : text.length using Nat.strong_induction_on generalizing text with
  | _ n ih =>
    subst hlen
    by_cases hversion : version <+: text
    · obtain ⟨after, rfl⟩ := hversion
      have hpos := List.length_pos_of_ne_nil hne
      rw [dropVersion_version hne]
      refine ih _ ?_ _ rfl
      rw [List.length_append]
      omega
    · exact ⟨_, dropVersion_kept hversion⟩

/-- A word without the letter `S` stays in front. -/
theorem dropVersion_append (hword : 'S' ∉ word) :
    dropVersion version (word ++ text) = word ++ dropVersion version text := by
  induction word with
  | nil => rfl
  | cons c word ih =>
    rw [List.mem_cons, not_or] at hword
    have hnot : ¬ ['S', 't'] <+: c :: (word ++ text) := by
      rw [List.cons_prefix_cons]
      exact fun h => hword.1 h.1
    rw [List.cons_append, dropVersion_cons hnot, ih hword.2, List.cons_append]

/-- A word without the letter `S` stands in front before if and only if it does afterwards. -/
theorem prefix_dropVersion_iff (hne : version ≠ []) (hword : 'S' ∉ word) :
    word <+: dropVersion version text ↔ word <+: text := by
  induction word generalizing text with
  | nil => simp
  | cons c word ih =>
    rw [List.mem_cons, not_or] at hword
    cases text with
    | nil => rfl
    | cons d rest =>
      by_cases hSt : ['S', 't'] <+: d :: rest
      · -- both texts begin with `S`
        obtain ⟨rfl, tail, rfl⟩ := St_prefix_iff.mp hSt
        obtain ⟨left, hleft⟩ := exists_dropVersion_St hne tail
        have hc : c ≠ 'S' := Ne.symm hword.1
        rw [hleft, List.cons_prefix_cons, List.cons_prefix_cons]
        simp only [hc, false_and]
      · rw [dropVersion_cons hSt, List.cons_prefix_cons, List.cons_prefix_cons, ih hword.2]

/-- A pass only takes characters away. -/
theorem dropVersion_sublist (hne : version ≠ []) (text : List Char) :
    (dropVersion version text).Sublist text := by
  induction text using pass_induction hne with
  | nil => exact List.Sublist.refl _
  | drop text ih =>
    rw [dropVersion_version hne]
    exact ih.trans (((List.sublist_append_right version text).cons_cons 't').cons_cons 'S')
  | keep text hnot ih =>
    rw [dropVersion_kept hnot]
    exact (ih.cons_cons 't').cons_cons 'S'
  | cons c text hnot ih =>
    rw [dropVersion_cons hnot]
    exact ih.cons_cons c

/-- What is found in a text that begins with `St` is found behind it or is its beginning. -/
theorem infix_St_iff :
    'S' :: 't' :: version <:+: 'S' :: 't' :: text ↔
      version <+: text ∨ 'S' :: 't' :: version <:+: text := by
  rw [List.infix_cons_iff, List.infix_cons_iff, List.cons_prefix_cons, List.cons_prefix_cons,
    List.cons_prefix_cons]
  simp

/-- What is found in another text is found behind its first character. -/
theorem infix_cons_other_iff {c : Char} (hnot : ¬ ['S', 't'] <+: c :: text) :
    'S' :: 't' :: version <:+: c :: text ↔ 'S' :: 't' :: version <:+: text := by
  rw [List.infix_cons_iff, or_iff_right]
  exact fun h => hnot ((List.prefix_append ['S', 't'] version).trans h)

/-- The pass does not bring `St` about. -/
theorem not_St_prefix_dropVersion (hne : version ≠ []) {c : Char}
    (hnot : ¬ ['S', 't'] <+: c :: text) :
    ¬ ['S', 't'] <+: c :: dropVersion version text := by
  have ht : 'S' ∉ ['t'] := by decide
  rw [List.cons_prefix_cons, prefix_dropVersion_iff hne ht, ← List.cons_prefix_cons]
  exact hnot

/-- **No match of its own pattern is left by a pass**. -/
theorem not_infix_dropVersion (hne : version ≠ []) (hS : 'S' ∉ version) (text : List Char) :
    ¬ 'S' :: 't' :: version <:+: dropVersion version text := by
  induction text using pass_induction hne with
  | nil => simp
  | drop text ih =>
    rw [dropVersion_version hne]
    exact ih
  | keep text hnot ih =>
    rw [dropVersion_kept hnot, infix_St_iff, prefix_dropVersion_iff hne hS]
    exact fun h => h.elim hnot ih
  | cons c text hnot ih =>
    rw [dropVersion_cons hnot, infix_cons_other_iff (not_St_prefix_dropVersion hne hnot)]
    exact ih

/-- **A pass leaves a text as it is** if and only if its pattern is not found. -/
theorem dropVersion_eq_self_iff (hne : version ≠ []) (hS : 'S' ∉ version) :
    dropVersion version text = text ↔ ¬ 'S' :: 't' :: version <:+: text := by
  constructor
  · intro heq
    have hleft := not_infix_dropVersion hne hS text
    rwa [heq] at hleft
  · induction text using pass_induction hne with
    | nil => exact fun _ => rfl
    | drop text ih =>
      intro hnone
      exact absurd (List.infix_append [] ('S' :: 't' :: version) text) hnone
    | keep text hnot ih =>
      intro hnone
      rw [infix_St_iff, not_or] at hnone
      rw [dropVersion_kept hnot, ih hnone.2]
    | cons c text hnot ih =>
      intro hnone
      rw [infix_cons_other_iff hnot] at hnone
      rw [dropVersion_cons hnot, ih hnone]

end Texts

/-! ## Both passes -/

section BothPasses

/-- Versions of the first pattern, then at least one of the second, and one of the first again. -/
def UncoversHere (text : List Char) : Prop :=
  ∃ i j : ℕ, (List.replicate i libcxxVersion).flatten ++
    ((List.replicate (j + 1) libstdcxxVersion).flatten ++ libcxxVersion) <+: text

/-- **The second pass uncovers a version of the first pattern**: somewhere behind `St`. -/
def Uncovers (name : List Char) : Prop :=
  ∃ text, 'S' :: 't' :: text <:+ name ∧ UncoversHere text

/-- Both passes one after the other. -/
theorem canonicalizeMangledName_eq (name : List Char) :
    canonicalizeMangledName name =
      dropVersion libstdcxxVersion (dropVersion libcxxVersion name) := rfl

variable {text word : List Char}

theorem libcxxVersion_ne_nil : libcxxVersion ≠ [] := by decide

theorem libstdcxxVersion_ne_nil : libstdcxxVersion ≠ [] := by decide

theorem not_mem_libcxxVersion : 'S' ∉ libcxxVersion := by decide

theorem not_mem_libstdcxxVersion : 'S' ∉ libstdcxxVersion := by decide

/-- Nothing begins with both versions. -/
theorem not_both (hfirst : libcxxVersion <+: text) : ¬ libstdcxxVersion <+: text := by
  obtain ⟨rest, rfl⟩ := hfirst
  rintro ⟨rest', heq⟩
  exact absurd (List.cons.inj heq).1 (by decide)

/-- A version of the first pattern in front does not matter. -/
theorem uncoversHere_libcxx : UncoversHere (libcxxVersion ++ text) ↔ UncoversHere text := by
  constructor
  · rintro ⟨i, j, hprefix⟩
    cases i with
    | zero =>
      -- the word would begin with a version of the second pattern
      rw [List.replicate_zero, List.flatten_nil, List.nil_append, List.replicate_succ,
        List.flatten_cons, List.append_assoc] at hprefix
      exact absurd ((List.prefix_append _ _).trans hprefix) (not_both (List.prefix_append _ _))
    | succ i =>
      rw [List.replicate_succ, List.flatten_cons, List.append_assoc,
        List.prefix_append_right_inj] at hprefix
      exact ⟨i, j, hprefix⟩
  · rintro ⟨i, j, hprefix⟩
    refine ⟨i + 1, j, ?_⟩
    rw [List.replicate_succ, List.flatten_cons, List.append_assoc, List.prefix_append_right_inj]
    exact hprefix

/-- Behind a version of the second pattern, one of the first is enough. -/
theorem uncoversHere_libstdcxx :
    UncoversHere (libstdcxxVersion ++ text) ↔ libcxxVersion <+: text ∨ UncoversHere text := by
  constructor
  · rintro ⟨i, j, hprefix⟩
    cases i with
    | zero =>
      rw [List.replicate_zero, List.flatten_nil, List.nil_append, List.replicate_succ,
        List.flatten_cons, List.append_assoc, List.prefix_append_right_inj] at hprefix
      cases j with
      | zero => exact Or.inl hprefix
      | succ j => exact Or.inr ⟨0, j, hprefix⟩
    | succ i =>
      rw [List.replicate_succ, List.flatten_cons, List.append_assoc] at hprefix
      exact absurd (List.prefix_append _ _) (not_both ((List.prefix_append _ _).trans hprefix))
  · intro h
    by_cases hfirst : libcxxVersion <+: text
    · refine ⟨0, 0, ?_⟩
      rw [List.replicate_zero, List.flatten_nil, List.nil_append, List.replicate_one,
        List.flatten_singleton, List.prefix_append_right_inj]
      exact hfirst
    · obtain ⟨i, j, hprefix⟩ := h.resolve_left hfirst
      cases i with
      | zero =>
        refine ⟨0, j + 1, ?_⟩
        rw [List.replicate_zero, List.flatten_nil, List.nil_append, List.replicate_succ,
          List.flatten_cons, List.append_assoc, List.prefix_append_right_inj]
        exact hprefix
      | succ i =>
        rw [List.replicate_succ, List.flatten_cons, List.append_assoc] at hprefix
        exact absurd ((List.prefix_append _ _).trans hprefix) hfirst

/-- Without any version there is nothing to uncover. -/
theorem not_uncoversHere (hfirst : ¬ libcxxVersion <+: text)
    (hsecond : ¬ libstdcxxVersion <+: text) : ¬ UncoversHere text := by
  rintro ⟨i, j, hprefix⟩
  cases i with
  | zero =>
    rw [List.replicate_zero, List.flatten_nil, List.nil_append, List.replicate_succ,
      List.flatten_cons, List.append_assoc] at hprefix
    exact hsecond ((List.prefix_append _ _).trans hprefix)
  | succ i =>
    rw [List.replicate_succ, List.flatten_cons, List.append_assoc] at hprefix
    exact hfirst ((List.prefix_append _ _).trans hprefix)

/-- In a text that begins with `St`, a version is uncovered right there or behind it. -/
theorem uncovers_St : Uncovers ('S' :: 't' :: text) ↔ UncoversHere text ∨ Uncovers text := by
  constructor
  · rintro ⟨rest, hsuffix, hhere⟩
    rw [List.suffix_cons_iff, List.suffix_cons_iff] at hsuffix
    obtain heq | heq | hsuffix := hsuffix
    · obtain rfl : rest = text := by simpa using heq
      exact Or.inl hhere
    · exact absurd (List.cons.inj heq).1 (by decide)
    · exact Or.inr ⟨rest, hsuffix, hhere⟩
  · rintro (hhere | ⟨rest, hsuffix, hhere⟩)
    · exact ⟨text, List.suffix_refl _, hhere⟩
    · exact ⟨rest, hsuffix.trans (List.suffix_append ['S', 't'] text), hhere⟩

/-- Another first character does not matter. -/
theorem uncovers_cons_other {c : Char} (hnot : ¬ ['S', 't'] <+: c :: text) :
    Uncovers (c :: text) ↔ Uncovers text := by
  constructor
  · rintro ⟨rest, hsuffix, hhere⟩
    rw [List.suffix_cons_iff] at hsuffix
    obtain heq | hsuffix := hsuffix
    · exact absurd ⟨rest, heq⟩ hnot
    · exact ⟨rest, hsuffix, hhere⟩
  · rintro ⟨rest, hsuffix, hhere⟩
    exact ⟨rest, hsuffix.trans (List.suffix_cons c text), hhere⟩

/-- A word without the letter `S` does not matter. -/
theorem uncovers_append (hword : 'S' ∉ word) : Uncovers (word ++ text) ↔ Uncovers text := by
  induction word with
  | nil => rfl
  | cons c word ih =>
    rw [List.mem_cons, not_or] at hword
    have hnot : ¬ ['S', 't'] <+: c :: (word ++ text) := fun h =>
      hword.1 (St_prefix_iff.mp h).1.symm
    rw [List.cons_append, uncovers_cons_other hnot, ih hword.2]

/-- **A version of the first pattern is left** if and only if the second pass uncovers one. -/
theorem infix_canonicalizeMangledName_iff (name : List Char) :
    libcxxNamespace <:+: canonicalizeMangledName name ↔ Uncovers name := by
  have h3 := libcxxVersion_ne_nil
  have h7 := libstdcxxVersion_ne_nil
  have hs3 := not_mem_libcxxVersion
  have hs7 := not_mem_libstdcxxVersion
  rw [canonicalizeMangledName_eq]
  change 'S' :: 't' :: libcxxVersion <:+: _ ↔ _
  induction hlen : name.length using Nat.strong_induction_on generalizing name with
  | _ n ih =>
    subst hlen
    match name with
    | [] =>
      refine iff_of_false (by simp) ?_
      rintro ⟨rest, hsuffix, -⟩
      exact absurd (List.suffix_nil.mp hsuffix) (List.cons_ne_nil _ _)
    | c :: rest =>
      by_cases hSt : ['S', 't'] <+: c :: rest
      · obtain ⟨rfl, tail, rfl⟩ := St_prefix_iff.mp hSt
        by_cases hfirst : libcxxVersion <+: tail
        · -- the first pass takes the version away
          obtain ⟨after, rfl⟩ := hfirst
          rw [dropVersion_version h3, ih ('S' :: 't' :: after).length ?_ _ rfl, uncovers_St,
            uncovers_St, uncoversHere_libcxx, uncovers_append hs3]
          simp only [List.length_cons, List.length_append]
          have := List.length_pos_of_ne_nil h3
          omega
        by_cases hsecond : libstdcxxVersion <+: tail
        · -- the second pass takes the version away
          obtain ⟨after, rfl⟩ := hsecond
          rw [dropVersion_kept hfirst, dropVersion_append hs7, dropVersion_version h7, uncovers_St,
            uncoversHere_libstdcxx, uncovers_append hs7]
          by_cases hcovered : libcxxVersion <+: after
          · -- and what is behind it comes to stand behind `St`
            refine iff_of_true ?_ (Or.inl (Or.inl hcovered))
            obtain ⟨behind, rfl⟩ := hcovered
            rw [dropVersion_append hs3, dropVersion_kept (not_both (List.prefix_append _ _)),
              dropVersion_append hs3]
            exact List.infix_append [] ('S' :: 't' :: libcxxVersion) _
          · rw [← dropVersion_kept hcovered, ih ('S' :: 't' :: after).length ?_ _ rfl,
              uncovers_St]
            · tauto
            · simp only [List.length_cons, List.length_append]
              have := List.length_pos_of_ne_nil h7
              omega
        · have hsecond' := (prefix_dropVersion_iff h3 hs7).not.mpr hsecond
          have hfirst' : ¬ libcxxVersion <+:
              dropVersion libstdcxxVersion (dropVersion libcxxVersion tail) := by
            rwa [prefix_dropVersion_iff h7 hs3, prefix_dropVersion_iff h3 hs3]
          rw [dropVersion_kept hfirst, dropVersion_kept hsecond', infix_St_iff,
            ih tail.length ?_ _ rfl, uncovers_St]
          · simp only [hfirst', not_uncoversHere hfirst hsecond, false_or]
          · simp only [List.length_cons]
            omega
      · have hSt' := not_St_prefix_dropVersion h3 hSt
        rw [dropVersion_cons hSt, dropVersion_cons hSt',
          infix_cons_other_iff (not_St_prefix_dropVersion h7 hSt'),
          ih rest.length (Nat.lt_succ_self _) _ rfl, uncovers_cons_other hSt]

/-- **Canonicalising twice is canonicalising once** if and only if the second pass does not uncover
a version of the first pattern. -/
theorem canonicalizeMangledName_idem_iff (name : List Char) :
    canonicalizeMangledName (canonicalizeMangledName name) = canonicalizeMangledName name ↔
      ¬ Uncovers name := by
  rw [← infix_canonicalizeMangledName_iff]
  have h3 := libcxxVersion_ne_nil
  have h7 := libstdcxxVersion_ne_nil
  have hfirst : dropVersion libcxxVersion (canonicalizeMangledName name) =
      canonicalizeMangledName name ↔ ¬ libcxxNamespace <:+: canonicalizeMangledName name :=
    dropVersion_eq_self_iff h3 not_mem_libcxxVersion
  have hsecond : dropVersion libstdcxxVersion (canonicalizeMangledName name) =
      canonicalizeMangledName name ↔ ¬ libstdcxxNamespace <:+: canonicalizeMangledName name :=
    dropVersion_eq_self_iff h7 not_mem_libstdcxxVersion
  rw [canonicalizeMangledName_eq (canonicalizeMangledName name)]
  constructor
  · intro heq
    -- each pass only takes away, so the first of them has left the name as it was
    have hback := dropVersion_sublist h7 (dropVersion libcxxVersion (canonicalizeMangledName name))
    rw [heq] at hback
    exact hfirst.mp ((dropVersion_sublist h3 _).antisymm hback)
  · intro hnone
    rw [hfirst.mpr hnone]
    exact hsecond.mpr (not_infix_dropVersion h7 not_mem_libstdcxxVersion _)

/-- The second pass uncovers `St3__1` in the name of a function in `std::__cxx11::__1`. -/
theorem canonicalizeMangledName_not_idem :
    ¬ ∀ name : List Char,
      canonicalizeMangledName (canonicalizeMangledName name) = canonicalizeMangledName name := by
  intro h
  exact absurd (h "_ZNSt7__cxx113__14moveEv".toList) (by decide)

end BothPasses

end StackAnalyzer
