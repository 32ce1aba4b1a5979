import StackAnalyzer.Passes.PerFunctionPasses
import StackAnalyzer.Words.Globs

set_option relaxedAutoImplicit false
set_option autoImplicit false

/-!
# Glob patterns of rules

The rules of the models name functions by glob patterns. The matcher goes on after the last star when
it gets stuck, and takes a star for a literal character if the text has a star there. So it decides
the language in which a star that faces a star stands for just this one, and brackets stand for
themselves.

## Main definitions

* `StackAnalyzer.Passes.plainPieces` — a pattern with `*` and `?`.
* `StackAnalyzer.Passes.ClassMatches` — the language of a pattern that also has `[...]`.
* `StackAnalyzer.Passes.GlobExact` — the matchers of the three models are exact.

## Main results

* `StackAnalyzer.Passes.globMatches_iff` — what the matcher decides.
* `StackAnalyzer.Passes.globExact_iff` — when the matchers are exact.
* `StackAnalyzer.Passes.not_globExact_operator` — `operator*` and an operator of this name.
-/

namespace StackAnalyzer.Passes

open Words

/-! ## The matchers -/

/-- `globMatches` of `StackPointerEscapeModel.cpp`, which has the same body. -/
def StackEscapeModel.globMatches (pattern text : String) : Bool := Passes.globMatches pattern text

/-- `globMatches` of `ResourceLifetimeAnalysis.cpp`, which has the same body. -/
def ResourceModel.globMatches (pattern text : String) : Bool := Passes.globMatches pattern text

/-! ## The languages -/

/-- A character of a pattern. -/
def plainPiece (q : Char) : Piece Char :=
  if q = '*' then .star else if q = '?' then .one fun _ => True else .one fun c => c = q

/-- A pattern in which `*` stands for any word, and `?` for any character. -/
def plainPieces (pattern : List Char) : List (Piece Char) := pattern.map plainPiece

/-- **The language of a pattern with classes**: brackets with some characters between them stand for
one character of this class. A bracket that is not closed stands for itself. -/
inductive ClassMatches (inClass : List Char → Char → Prop) : List Char → List Char → Prop
  | nil : ClassMatches inClass [] []
  | star {p t : List Char} (w : List Char) :
      ClassMatches inClass p t → ClassMatches inClass ('*' :: p) (w ++ t)
  | question {p t : List Char} {c : Char} :
      ClassMatches inClass p t → ClassMatches inClass ('?' :: p) (c :: t)
  | bracket {p t body : List Char} {c : Char} : ']' ∉ body → inClass body c →
      ClassMatches inClass p t → ClassMatches inClass ('[' :: (body ++ ']' :: p)) (c :: t)
  | literal {p t : List Char} {c : Char} : c ≠ '*' → c ≠ '?' → ¬ (c = '[' ∧ ']' ∈ p) →
      ClassMatches inClass p t → ClassMatches inClass (c :: p) (c :: t)

/-- **The matchers of the three models are exact** for a pattern and a text. The resource model is
documented with `[...]`. -/
structure GlobExact (inClass : List Char → Char → Prop) (pattern text : String) : Prop where
  bufferModel : globMatches pattern text = true ↔ Matches (plainPieces pattern.toList) text.toList
  escapeModel : StackEscapeModel.globMatches pattern text = true ↔
    Matches (plainPieces pattern.toList) text.toList
  resourceModel : ResourceModel.globMatches pattern text = true ↔
    ClassMatches inClass pattern.toList text.toList

/-! ## What the matcher decides -/

/-- What the loop decides: whether the rest of the text matches the rest of the pattern, or some later
part of the text matches the pattern after the last star. -/
def Decides (p t : List Char) : Option (List Char × List Char) → Prop
  | none => Facing '*' (plainPieces p) t
  | some (sp, m) => ∃ later, later <:+ m ∧ Facing '*' (plainPieces sp) later

/-- The invariant of the loop: the same number of characters has been read of the pattern and of the
text since the last star. -/
def ReadTogether (p t : List Char) : Option (List Char × List Char) → Prop
  | none => True
  | some (sp, m) => Aligned '*' (plainPieces sp) m (plainPieces p) t

/-- The steps that are left, if a pattern and a text have less than `n` characters together. -/
def stepsLeft (n : ℕ) (p t : List Char) : Option (List Char × List Char) → ℕ
  | none => t.length * n + p.length + t.length
  | some (_, m) => m.length * n + p.length + t.length

/-- A pattern and a text that the loop compares have less than some number of characters together. -/
def ShorterThan (n : ℕ) (p t : List Char) : Option (List Char × List Char) → Prop
  | none => p.length + t.length < n
  | some (sp, m) => sp.length + m.length < n

section Loop

variable {p t : List Char} {q c : Char} {n : ℕ} {star : Option (List Char × List Char)}

theorem length_plainPieces : (plainPieces p).length = p.length := List.length_map _

/-- A star after the text has been read. -/
theorem all_star_iff : (p.all fun c => decide (c = '*')) = true ↔
    Facing '*' (plainPieces p) [] := by
  rw [facing_text_nil_iff, List.all_eq_true]
  simp only [plainPieces, List.forall_mem_map, decide_eq_true_eq]
  refine forall_congr' fun q => imp_congr_right fun _ => ?_
  unfold plainPiece
  split_ifs with hstar hquestion <;> simp [hstar]

/-- A character of the pattern that is the one of the text, or a question mark, reads it. -/
theorem facing_same_iff (h : q = '?' ∨ q = c) :
    Facing '*' (plainPieces (q :: p)) (c :: t) ↔ Facing '*' (plainPieces p) t := by
  show Facing '*' (plainPiece q :: plainPieces p) (c :: t) ↔ _
  unfold plainPiece
  split_ifs with hstar hquestion
  · obtain rfl : c = '*' := by
      rcases h with rfl | rfl
      · exact absurd hstar (by decide)
      · exact hstar
    exact facing_star_symbol_iff
  · rw [facing_one_iff, and_iff_right trivial]
  · rw [facing_one_iff, and_iff_right (h.resolve_left hquestion).symm]

/-- So the invariant goes on. -/
theorem ReadTogether.same (h : ReadTogether (q :: p) (c :: t) star) (hq : q = '?' ∨ q = c) :
    ReadTogether p t star := by
  cases star with
  | none => trivial
  | some last =>
    change Aligned '*' (plainPieces last.1) last.2 (plainPiece q :: plainPieces p) (c :: t) at h
    unfold plainPiece at h
    split_ifs at h with hstar hquestion
    · obtain rfl : c = '*' := by
        rcases hq with rfl | rfl
        · exact absurd hstar (by decide)
        · exact hstar
      exact h.symbol
    · exact h.one trivial
    · exact h.one (hq.resolve_left hquestion).symm

/-- What the loop decides does not change. -/
theorem decides_same_iff (hq : q = '?' ∨ q = c) :
    Decides (q :: p) (c :: t) star ↔ Decides p t star := by
  cases star with
  | none => exact facing_same_iff hq
  | some last => exact Iff.rfl

/-- A star that does not face one becomes the last star. -/
theorem decides_star_iff (h : ReadTogether ('*' :: p) (c :: t) star) (hc : c ≠ '*') :
    Decides ('*' :: p) (c :: t) star ↔ Decides p (c :: t) (some (p, c :: t)) := by
  have hhead : (c :: t).head? ≠ some '*' := by simpa using hc
  have hnew : Facing '*' (plainPieces ('*' :: p)) (c :: t) ↔
      Decides p (c :: t) (some (p, c :: t)) := facing_star_iff hhead
  cases star with
  | none => exact hnew
  | some last =>
    rw [← hnew]
    constructor
    · rintro ⟨later, hlater, hfacing⟩
      obtain ⟨later', hlater', hfacing'⟩ := Aligned.exists_suffix h hlater hfacing
      obtain ⟨later'', hlater'', hfacing''⟩ := hfacing'.exists_after_star
      exact (facing_star_iff hhead).mpr ⟨later'', hlater''.trans hlater', hfacing''⟩
    · intro hfacing
      exact ⟨last.2, List.suffix_rfl, (Aligned.facing_iff h).mpr hfacing⟩

/-- At the end of the text, the rest of the pattern decides. -/
theorem decides_nil_iff (h : ReadTogether p [] star) :
    Decides p [] star ↔ Facing '*' (plainPieces p) [] := by
  cases star with
  | none => exact Iff.rfl
  | some last =>
    constructor
    · rintro ⟨later, hlater, hfacing⟩
      obtain ⟨later', hlater', hfacing'⟩ := Aligned.exists_suffix h hlater hfacing
      rwa [List.suffix_nil.mp hlater'] at hfacing'
    · exact fun hfacing => ⟨last.2, List.suffix_rfl, (Aligned.facing_iff h).mpr hfacing⟩

/-- Both that the last star has read something and that it can read more. -/
theorem exists_next_start {sp m : List Char} (h : ReadTogether p (c :: t) (some (sp, m))) :
    ∃ x m', m = x :: m' := by
  have hle := (Aligned.length_le h).2
  cases m with
  | nil => simp at hle
  | cons x m' => exact ⟨x, m', rfl⟩

/-- When the loop is stuck, it starts again one character after the last start. -/
theorem decides_stuck_iff {sp m : List Char} {x : Char}
    (h : ReadTogether p (c :: t) (some (sp, x :: m)))
    (hstuck : ¬ Facing '*' (plainPieces p) (c :: t)) :
    Decides p (c :: t) (some (sp, x :: m)) ↔ Decides sp m (some (sp, m)) := by
  constructor
  · rintro ⟨later, hlater, hfacing⟩
    rcases List.suffix_cons_iff.mp hlater with rfl | hlater
    · exact absurd ((Aligned.facing_iff h).mp hfacing) hstuck
    · exact ⟨later, hlater, hfacing⟩
  · rintro ⟨later, hlater, hfacing⟩
    exact ⟨later, hlater.trans (List.suffix_cons x m), hfacing⟩

/-- A character of the pattern that reads nothing. -/
theorem not_facing_of_ne (hq : ¬ (q = '?' ∨ q = c)) (hstar : q ≠ '*') :
    ¬ Facing '*' (plainPieces (q :: p)) (c :: t) := by
  show ¬ Facing '*' (plainPiece q :: plainPieces p) (c :: t)
  rw [plainPiece, if_neg hstar, if_neg fun h => hq (Or.inl h), facing_one_iff]
  exact fun h => hq (Or.inr h.1.symm)

/-- The steps that a character that has been read leaves. -/
theorem stepsLeft_same_lt (n : ℕ) :
    stepsLeft n p t star < stepsLeft n (q :: p) (c :: t) star := by
  cases star with
  | none =>
    simp only [stepsLeft, List.length_cons, Nat.succ_mul]
    omega
  | some last =>
    simp only [stepsLeft, List.length_cons]
    omega

/-- A pattern and a text get shorter. -/
theorem ShorterThan.same (h : ShorterThan n (q :: p) (c :: t) star) : ShorterThan n p t star := by
  cases star with
  | none =>
    simp only [ShorterThan, List.length_cons] at h ⊢
    omega
  | some last => exact h

/-- A new last star. -/
theorem ShorterThan.newStar (h : ShorterThan n (q :: p) t star)
    (hread : ReadTogether (q :: p) t star) :
    ShorterThan n p t (some (p, t)) ∧
      stepsLeft n p t (some (p, t)) < stepsLeft n (q :: p) t star := by
  cases star with
  | none =>
    simp only [ShorterThan, stepsLeft, List.length_cons] at h ⊢
    omega
  | some last =>
    obtain ⟨hp, ht⟩ := Aligned.length_le hread
    simp only [length_plainPieces, List.length_cons] at hp
    have hmul : t.length * n ≤ last.2.length * n := Nat.mul_le_mul_right n ht
    simp only [ShorterThan, stepsLeft, List.length_cons] at h ⊢
    omega

/-- The loop when it is stuck: it starts again after the last star, if there is one. -/
def restart (fuel : ℕ) (star : Option (List Char × List Char)) : Bool :=
  match star with
  | some (sp, m) => globLoop fuel sp m.tail (some (sp, m.tail))
  | none => false

/-- A loop that is stuck is right if it is right when it starts again. -/
theorem restart_iff {fuel : ℕ}
    (hloop : ∀ {sp m : List Char}, ShorterThan n sp m (some (sp, m)) →
      stepsLeft n sp m (some (sp, m)) < fuel →
      (globLoop fuel sp m (some (sp, m)) = true ↔ Decides sp m (some (sp, m))))
    (hread : ReadTogether p (c :: t) star) (hshort : ShorterThan n p (c :: t) star)
    (hfuel : stepsLeft n p (c :: t) star < fuel + 1)
    (hstuck : ¬ Facing '*' (plainPieces p) (c :: t)) :
    restart fuel star = true ↔ Decides p (c :: t) star := by
  cases star with
  | none => exact iff_of_false Bool.false_ne_true hstuck
  | some last =>
    obtain ⟨sp, m⟩ := last
    obtain ⟨x, m, rfl⟩ := exists_next_start hread
    rw [decides_stuck_iff hread hstuck]
    simp only [ShorterThan, stepsLeft, List.length_cons, Nat.succ_mul] at hshort hfuel
    refine hloop ?_ ?_
    · simp only [ShorterThan, List.tail_cons]
      omega
    · simp only [stepsLeft, List.tail_cons]
      omega

/-- **The loop is right**: as long as the invariant holds and enough steps are left, it decides
whether some part of the text matches.

**Proof sketch.** By induction on the fuel, with one lemma for each branch: a character is read, a
star becomes the last star, the loop is stuck, or the text has been read. -/
theorem globLoop_iff (fuel : ℕ) {p t : List Char} {star : Option (List Char × List Char)}
    (hread : ReadTogether p t star) (hshort : ShorterThan n p t star)
    (hfuel : stepsLeft n p t star < fuel) :
    globLoop fuel p t star = true ↔ Decides p t star := by
  induction fuel generalizing p t star with
  | zero => exact absurd hfuel (Nat.not_lt_zero _)
  | succ fuel ih =>
    have hagain : ∀ {sp m : List Char}, ShorterThan n sp m (some (sp, m)) →
        stepsLeft n sp m (some (sp, m)) < fuel →
        (globLoop fuel sp m (some (sp, m)) = true ↔ Decides sp m (some (sp, m))) := by
      intro sp m hshort hfuel
      have hread : ReadTogether sp m (some (sp, m)) := Aligned.refl _ _
      exact ih hread hshort hfuel
    cases t with
    | nil => rw [globLoop, all_star_iff, decides_nil_iff hread]
    | cons c t =>
      cases p with
      | nil =>
        refine restart_iff hagain hread hshort hfuel ?_
        simp [plainPieces, facing_nil_iff]
      | cons q p =>
        simp only [globLoop]
        split_ifs with hq hstar
        · have hlt : stepsLeft n p t star < stepsLeft n (q :: p) (c :: t) star :=
            stepsLeft_same_lt n
          rw [ih (hread.same hq) hshort.same (by omega), decides_same_iff hq]
        · subst hstar
          have hc : c ≠ '*' := fun hc => hq (Or.inr hc.symm)
          obtain ⟨hshort', hlt⟩ := hshort.newStar hread
          rw [hagain hshort' (by omega), decides_star_iff hread hc]
        · exact restart_iff hagain hread hshort hfuel (not_facing_of_ne hq hstar)

/-- **What the matcher decides**: whether the text matches the pattern in such a way that each star
that faces a star stands for just this one. -/
theorem globMatches_iff (pattern text : String) : globMatches pattern text = true ↔
    Facing '*' (plainPieces pattern.toList) text.toList := by
  have hp : pattern.toList.length = pattern.length := String.length_toList
  have ht : text.toList.length = text.length := String.length_toList
  refine globLoop_iff _ (n := pattern.length + text.length + 1) trivial ?_ ?_
  · simp only [ShorterThan, hp, ht]
    omega
  · simp only [stepsLeft, hp, ht]
    nlinarith

end Loop

/-! ## When the matchers are exact -/

/-- A pattern without brackets means the same with and without classes. -/
theorem classMatches_iff_of_notMem {inClass : List Char → Char → Prop} {p t : List Char}
    (h : '[' ∉ p) : ClassMatches inClass p t ↔ Matches (plainPieces p) t := by
  constructor
  · intro hclass
    induction hclass with
    | nil => exact .nil
    | star w _ ih => exact .star w (ih fun hmem => h (List.mem_cons_of_mem _ hmem))
    | question _ ih => exact .one trivial (ih fun hmem => h (List.mem_cons_of_mem _ hmem))
    | bracket => exact absurd List.mem_cons_self h
    | @literal p t c hstar hquestion _ _ ih =>
      have hpiece : plainPieces (c :: p) = .one (fun x => x = c) :: plainPieces p := by
        simp [plainPieces, plainPiece, hstar, hquestion]
      rw [hpiece]
      exact .one rfl (ih fun hmem => h (List.mem_cons_of_mem _ hmem))
  · intro hplain
    generalize hpieces : plainPieces p = pieces at hplain
    induction hplain generalizing p with
    | nil =>
      obtain rfl := List.map_eq_nil_iff.mp hpieces
      exact .nil
    | @one accepts pieces c t haccepts _ ih =>
      obtain ⟨q, p, rfl, hq, rfl⟩ := List.map_eq_cons_iff.mp hpieces
      have hrest := ih (fun hmem => h (List.mem_cons_of_mem _ hmem)) rfl
      unfold plainPiece at hq
      split_ifs at hq with hstar hquestion
      · rw [hquestion]
        exact .question hrest
      · obtain rfl := Piece.one.inj hq
        obtain rfl : c = q := haccepts
        refine .literal hstar hquestion ?_ hrest
        rintro ⟨rfl, -⟩
        exact h List.mem_cons_self
    | @star pieces t w _ ih =>
      obtain ⟨q, p, rfl, hq, rfl⟩ := List.map_eq_cons_iff.mp hpieces
      have hrest := ih (fun hmem => h (List.mem_cons_of_mem _ hmem)) rfl
      unfold plainPiece at hq
      split_ifs at hq with hstar
      rw [hstar]
      exact .star w hrest

/-- **When the matchers are exact**: if the text matches the pattern, it does so in such a way that
each star that faces a star stands for just this one; and it makes no difference whether brackets
stand for classes or for themselves. -/
theorem globExact_iff (inClass : List Char → Char → Prop) (pattern text : String) :
    GlobExact inClass pattern text ↔
      (Matches (plainPieces pattern.toList) text.toList →
        Facing '*' (plainPieces pattern.toList) text.toList) ∧
      (ClassMatches inClass pattern.toList text.toList ↔
        Matches (plainPieces pattern.toList) text.toList) := by
  have hmatches := globMatches_iff pattern text
  constructor
  · rintro ⟨hbuffer, -, hresource⟩
    exact ⟨fun h => hmatches.mp (hbuffer.mpr h), hresource.symm.trans hbuffer⟩
  · rintro ⟨hfacing, hclass⟩
    have hexact : globMatches pattern text = true ↔
        Matches (plainPieces pattern.toList) text.toList :=
      ⟨fun h => (hmatches.mp h).matches, fun h => hmatches.mpr (hfacing h)⟩
    exact ⟨hexact, hexact, hexact.trans hclass.symm⟩

/-- The matchers are exact for texts without stars and patterns without brackets. -/
theorem globExact_of_notMem {inClass : List Char → Char → Prop} {pattern text : String}
    (hstar : '*' ∉ text.toList) (hbracket : '[' ∉ pattern.toList) :
    GlobExact inClass pattern text :=
  (globExact_iff inClass pattern text).mpr
    ⟨fun h => h.facing hstar, classMatches_iff_of_notMem hbracket⟩

/-- `operator*` matches all names that begin with `operator`. -/
theorem matches_operator :
    Matches (plainPieces "operator*".toList) "operator*(Vec)".toList := by
  have hstar : Matches [Piece.star] "*(Vec)".toList := .star "*(Vec)".toList .nil
  exact .one rfl (.one rfl (.one rfl (.one rfl (.one rfl (.one rfl (.one rfl (.one rfl hstar)))))))

/-- **The matchers are not exact**: the star of the pattern is taken for that of the operator. -/
theorem not_globExact_operator :
    ¬ GlobExact (fun body c => c ∈ body) "operator*" "operator*(Vec)" := by
  intro h
  have hfalse : globMatches "operator*" "operator*(Vec)" = false := by decide
  have htrue := h.bufferModel.mpr matches_operator
  rw [hfalse] at htrue
  cases htrue

end StackAnalyzer.Passes
