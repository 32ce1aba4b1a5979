import Mathlib

set_option relaxedAutoImplicit false
set_option autoImplicit false

/-!
# Glob patterns

Patterns of stars, which stand for any word, and of pieces for one symbol. A matcher with a single
point of return may read a symbol of the text as the star itself. Then it decides a smaller language,
in which a star that faces this symbol stands for just this symbol.

## Main definitions

* `Words.Piece`, `Words.Matches` — patterns and their language.
* `Words.Facing` — the language with a symbol that is read as a star.
* `Words.Aligned` — a pattern and a text of which the same number of symbols has been read.

## Main results

* `Words.Facing.matches` — the smaller language is one.
* `Words.Matches.facing` — texts without the symbol make no difference.
* `Words.Aligned.exists_suffix` — a later start does not lead further.
-/

namespace Words

/-- A piece of a pattern: a star, or one symbol of some kind. -/
inductive Piece (A : Type*)
  | star
  | one (accepts : A → Prop)

variable {A : Type*}

/-- **The language of a pattern.** -/
inductive Matches : List (Piece A) → List A → Prop
  | nil : Matches [] []
  | one {accepts : A → Prop} {p : List (Piece A)} {c : A} {t : List A} :
      accepts c → Matches p t → Matches (.one accepts :: p) (c :: t)
  | star {p : List (Piece A)} {t : List A} (w : List A) :
      Matches p t → Matches (.star :: p) (w ++ t)

/-- The language with a symbol that is read as a star: a star that faces it stands for just this
symbol, and for any word otherwise. -/
inductive Facing (symbol : A) : List (Piece A) → List A → Prop
  | nil : Facing symbol [] []
  | one {accepts : A → Prop} {p : List (Piece A)} {c : A} {t : List A} :
      accepts c → Facing symbol p t → Facing symbol (.one accepts :: p) (c :: t)
  | symbol {p : List (Piece A)} {t : List A} :
      Facing symbol p t → Facing symbol (.star :: p) (symbol :: t)
  | star {p : List (Piece A)} {t : List A} (w : List A) : (w ++ t).head? ≠ some symbol →
      Facing symbol p t → Facing symbol (.star :: p) (w ++ t)

/-- **It is a smaller language.** -/
theorem Facing.matches {symbol : A} {p : List (Piece A)} {t : List A} (h : Facing symbol p t) :
    Matches p t := by
  induction h with
  | nil => exact .nil
  | one haccepts _ ih => exact .one haccepts ih
  | symbol _ ih => exact .star [symbol] ih
  | star w _ _ ih => exact .star w ih

/-- **Texts without the symbol** make no difference. -/
theorem Matches.facing {symbol : A} {p : List (Piece A)} {t : List A} (h : Matches p t)
    (hsymbol : symbol ∉ t) : Facing symbol p t := by
  induction h with
  | nil => exact .nil
  | one haccepts _ ih => exact .one haccepts (ih fun hmem => hsymbol (List.mem_cons_of_mem _ hmem))
  | star w _ ih =>
    refine .star w ?_ (ih fun hmem => hsymbol (List.mem_append_right w hmem))
    exact fun hhead => hsymbol (List.mem_of_mem_head? hhead)

/-! ## Where a star is not read as the symbol -/

variable {symbol : A} {p : List (Piece A)} {t : List A}

/-- A pattern without stars and pieces matches nothing else than the empty text. -/
theorem facing_nil_iff : Facing symbol [] t ↔ t = [] := by
  constructor
  · rintro ⟨⟩
    rfl
  · rintro rfl
    exact .nil

/-- A piece for one symbol. -/
theorem facing_one_iff {accepts : A → Prop} {c : A} :
    Facing symbol (.one accepts :: p) (c :: t) ↔ accepts c ∧ Facing symbol p t := by
  constructor
  · rintro ⟨⟩
    exact ⟨‹_›, ‹_›⟩
  · rintro ⟨haccepts, h⟩
    exact .one haccepts h

/-- The empty text matches the patterns of stars. -/
theorem facing_text_nil_iff : Facing symbol p [] ↔ ∀ piece ∈ p, piece = .star := by
  induction p with
  | nil => simp [facing_nil_iff]
  | cons piece p ih =>
    rw [List.forall_mem_cons, ← ih]
    constructor
    · intro h
      generalize htext : ([] : List A) = t at h
      cases h with
      | one => cases htext
      | symbol => cases htext
      | star w _ h =>
        obtain ⟨rfl, rfl⟩ := List.nil_eq_append_iff.mp htext
        exact ⟨rfl, h⟩
    · rintro ⟨rfl, h⟩
      exact .star [] (by simp) h

/-- A star that faces the symbol stands for it. -/
theorem facing_star_symbol_iff :
    Facing symbol (.star :: p) (symbol :: t) ↔ Facing symbol p t := by
  constructor
  · intro h
    generalize htext : symbol :: t = t' at h
    cases h with
    | symbol h =>
      obtain ⟨-, rfl⟩ := List.cons.inj htext
      exact h
    | star w hhead _ =>
      rw [← htext] at hhead
      exact absurd rfl hhead
  · exact .symbol

/-- What a star leaves comes later. -/
theorem Facing.exists_after_star (h : Facing symbol (.star :: p) t) :
    ∃ t', t' <:+ t ∧ Facing symbol p t' := by
  cases h with
  | symbol h => exact ⟨_, List.suffix_cons _ _, h⟩
  | star w _ h => exact ⟨_, List.suffix_append w _, h⟩

/-- A star that does not face the symbol stands for any word. -/
theorem facing_star_iff (hhead : t.head? ≠ some symbol) :
    Facing symbol (.star :: p) t ↔ ∃ t', t' <:+ t ∧ Facing symbol p t' := by
  constructor
  · exact Facing.exists_after_star
  · rintro ⟨t', ⟨w, rfl⟩, h⟩
    exact .star w hhead h

/-! ## Reading a pattern and a text together -/

/-- A pattern and a text of which the same number of pieces and symbols has been read: each piece
has accepted its symbol, and each star has faced the symbol that is read as a star. -/
inductive Aligned (symbol : A) : List (Piece A) → List A → List (Piece A) → List A → Prop
  | refl (p : List (Piece A)) (t : List A) : Aligned symbol p t p t
  | one {p p' : List (Piece A)} {t t' : List A} {accepts : A → Prop} {c : A} :
      Aligned symbol p t (.one accepts :: p') (c :: t') → accepts c → Aligned symbol p t p' t'
  | symbol {p p' : List (Piece A)} {t t' : List A} :
      Aligned symbol p t (.star :: p') (symbol :: t') → Aligned symbol p t p' t'

/-- Such a text matches its pattern if the rest of it matches the rest of the pattern. -/
theorem Aligned.facing_iff {p' : List (Piece A)} {t' : List A} (h : Aligned symbol p t p' t') :
    Facing symbol p t ↔ Facing symbol p' t' := by
  induction h with
  | refl => exact Iff.rfl
  | one _ haccepts ih => rw [ih, facing_one_iff, and_iff_right haccepts]
  | symbol _ ih => rw [ih, facing_star_symbol_iff]

/-- The rest of the pattern and the rest of the text are no longer than these. -/
theorem Aligned.length_le {p' : List (Piece A)} {t' : List A} (h : Aligned symbol p t p' t') :
    p'.length ≤ p.length ∧ t'.length ≤ t.length := by
  induction h with
  | refl => exact ⟨le_rfl, le_rfl⟩
  | one _ _ ih | symbol _ ih =>
    simp only [List.length_cons] at ih
    omega

/-- What comes later than a text with one symbol in front comes later than the text, without its
own first symbol. -/
theorem suffix_of_cons {c c' : A} {t' : List A} (h : c' :: t' <:+ c :: t) : t' <:+ t := by
  rcases List.suffix_cons_iff.mp h with heq | hsuffix
  · obtain ⟨-, rfl⟩ := List.cons.inj heq
    exact List.suffix_rfl
  · exact (List.suffix_cons c' t').trans hsuffix

/-- **A later start does not lead further**: if the pattern also matches from a later start, then the
rest of the pattern matches from a later point of the rest.

**Proof sketch.** A piece accepts one symbol on both sides. A star that faces the symbol on the one
side stands for it on the other side, or for a word there, which only leads to a later point. -/
theorem Aligned.exists_suffix {p' : List (Piece A)} {t' later : List A}
    (h : Aligned symbol p t p' t') (hlater : later <:+ t) (hfacing : Facing symbol p later) :
    ∃ later', later' <:+ t' ∧ Facing symbol p' later' := by
  induction h with
  | refl => exact ⟨later, hlater, hfacing⟩
  | one _ _ ih =>
    obtain ⟨later', hsuffix, h⟩ := ih hlater
    cases h with
    | one _ h => exact ⟨_, suffix_of_cons hsuffix, h⟩
  | symbol _ ih =>
    obtain ⟨later', hsuffix, h⟩ := ih hlater
    cases h with
    | symbol h => exact ⟨_, suffix_of_cons hsuffix, h⟩
    | star w hhead h =>
      refine ⟨_, ?_, h⟩
      rcases List.suffix_cons_iff.mp hsuffix with heq | hsuffix
      · rw [heq] at hhead
        exact absurd rfl hhead
      · exact (List.suffix_append w _).trans hsuffix

end Words
