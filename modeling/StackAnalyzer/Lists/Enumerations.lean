import Mathlib

set_option relaxedAutoImplicit false
set_option autoImplicit false

/-!
# Concatenations in any order

A container without a fixed order is enumerated block by block, and the blocks are concatenated.
This file says when the result depends on the order, and what a list loses of its order when it is
sorted into two kinds.

## Main definitions

* `Enumerations.Swappable` — two blocks that can be swapped.
* `Enumerations.AtSome` — a property of some element and what stands before it.
* `Enumerations.OrderFree` — all orders of some elements have the same concatenation of blocks.

## Main results

* `Enumerations.orderFree_iff` — the order does not matter exactly when all blocks commute.
* `Enumerations.swappable_iff_of_owners` — blocks of different owners commute only if one is empty.
* `Enumerations.filterMap_perm_kinds` — a list is a rearrangement of its two kinds.
* `Enumerations.filterMap_perm_iff` — two passes find the same exactly when they do so at every
  element.
* `Enumerations.foldl_iff` — what a loop collects.
-/

namespace Enumerations

variable {α β ι κ : Type*}

/-- Two blocks have the same concatenation in both orders. -/
def Swappable (u v : List α) : Prop := u ++ v = v ++ u

/-- The elements of a list have blocks with the same concatenation in all orders. -/
def OrderFree (block : ι → List α) (l : List ι) : Prop :=
  ∀ es es' : List ι, es.Perm l → es'.Perm l → es.flatMap block = es'.flatMap block

/-- Rearranging elements with commuting blocks keeps the concatenation. -/
theorem flatMap_eq_of_perm {block : ι → List α} {es es' : List ι} (hperm : es.Perm es')
    (h : es.Pairwise fun x y => Swappable (block x) (block y)) :
    es.flatMap block = es'.flatMap block := by
  induction hperm with
  | nil => rfl
  | cons x _ ih =>
    rw [List.flatMap_cons, List.flatMap_cons, ih (List.pairwise_cons.mp h).2]
  | swap x y es =>
    have hyx : block y ++ block x = block x ++ block y :=
      (List.pairwise_cons.mp h).1 x List.mem_cons_self
    simp only [List.flatMap_cons, ← List.append_assoc, hyx]
  | trans h₁ _ ih₁ ih₂ =>
    exact (ih₁ h).trans (ih₂ ((h₁.pairwise_iff Eq.symm).mp h))

/-- **When the order does not matter**: exactly when any two blocks commute.

**Proof sketch.** Two elements may be put in front in both orders, and what follows cancels. In the
other direction a rearrangement is a sequence of swaps. -/
theorem orderFree_iff (block : ι → List α) (l : List ι) :
    OrderFree block l ↔ l.Pairwise fun x y => Swappable (block x) (block y) := by
  constructor
  · intro h
    induction l with
    | nil => exact List.Pairwise.nil
    | cons x l ih =>
      refine List.pairwise_cons.mpr ⟨fun y hy => ?_, ih fun es es' hes hes' => ?_⟩
      · obtain ⟨pre, post, rfl⟩ := List.append_of_mem hy
        have hrest : (pre ++ y :: post).Perm (y :: (pre ++ post)) := List.perm_middle
        have hxy := h (x :: y :: (pre ++ post)) (y :: x :: (pre ++ post)) (hrest.symm.cons x)
          ((List.Perm.swap x y _).trans (hrest.symm.cons x))
        simp only [List.flatMap_cons, ← List.append_assoc] at hxy
        exact List.append_cancel_right hxy
      · have hcons := h (x :: es) (x :: es') (hes.cons x) (hes'.cons x)
        simpa using hcons
  · intro h es es' hes hes'
    rw [← flatMap_eq_of_perm hes.symm h, ← flatMap_eq_of_perm hes'.symm h]

/-- **Blocks of different owners** commute exactly when one of them is empty. -/
theorem swappable_iff_of_owners {owner : α → κ} {u v : List α} {a b : κ}
    (hu : ∀ x ∈ u, owner x = a) (hv : ∀ x ∈ v, owner x = b) (hab : a ≠ b) :
    Swappable u v ↔ u = [] ∨ v = [] := by
  constructor
  · intro h
    cases u with
    | nil => exact Or.inl rfl
    | cons x u =>
      cases v with
      | nil => exact Or.inr rfl
      | cons y v =>
        have hxy : x = y := (List.cons.inj h).1
        have hx := hu x List.mem_cons_self
        rw [hxy, hv y List.mem_cons_self] at hx
        exact absurd hx.symm hab
  · rintro (rfl | rfl) <;> simp [Swappable]

/-- **A list is a rearrangement of its two kinds**: what neither kind keeps is dropped. -/
theorem filterMap_perm_kinds {p p₁ p₂ : α → Option β}
    (h : ∀ x, p₁ x = p x ∧ p₂ x = none ∨ p₁ x = none ∧ p₂ x = p x) (l : List α) :
    (l.filterMap p₁ ++ l.filterMap p₂).Perm (l.filterMap p) := by
  induction l with
  | nil => exact List.Perm.refl _
  | cons x l ih =>
    rcases h x with ⟨h₁, h₂⟩ | ⟨h₁, h₂⟩
    · rw [List.filterMap_cons_none h₂]
      cases hx : p x with
      | none => rwa [List.filterMap_cons_none hx, List.filterMap_cons_none (h₁.trans hx)]
      | some y =>
        rw [List.filterMap_cons_some hx, List.filterMap_cons_some (h₁.trans hx)]
        exact ih.cons y
    · rw [List.filterMap_cons_none h₁]
      cases hx : p x with
      | none => rwa [List.filterMap_cons_none hx, List.filterMap_cons_none (h₂.trans hx)]
      | some y =>
        rw [List.filterMap_cons_some hx, List.filterMap_cons_some (h₂.trans hx)]
        exact List.perm_middle.trans (ih.cons y)

/-- **Findings with owners**: when every element of a list has its own findings, two passes over
the list find the same exactly when they find the same at every element. -/
theorem filterMap_perm_iff {key : α → ι} (owner : β → ι) {l : List α} (hnd : (l.map key).Nodup)
    (g g' : α → Option β) (hg : ∀ x y, g x = some y → owner y = key x)
    (hg' : ∀ x y, g' x = some y → owner y = key x) :
    (l.filterMap g).Perm (l.filterMap g') ↔ ∀ x ∈ l, g x = g' x := by
  constructor
  · intro h x hx
    -- a finding of one pass is a finding of the other one at the same element
    have hto : ∀ {p q : α → Option β}, (∀ x y, p x = some y → owner y = key x) →
        (∀ x y, q x = some y → owner y = key x) → (l.filterMap p).Perm (l.filterMap q) →
        ∀ y, p x = some y → q x = some y := by
      intro p q hp hq hpq y hy
      have hmem : y ∈ l.filterMap p := List.mem_filterMap.mpr ⟨x, hx, hy⟩
      obtain ⟨x', hx', hy'⟩ := List.mem_filterMap.mp (hpq.mem_iff.mp hmem)
      have hkey : key x' = key x := (hq x' y hy').symm.trans (hp x y hy)
      rwa [List.inj_on_of_nodup_map hnd hx' hx hkey] at hy'
    apply Option.ext
    intro y
    exact ⟨hto hg hg' h y, hto hg' hg h.symm y⟩
  · intro h
    rw [List.filterMap_congr h]

/-- **What a loop collects**: if every step may only make a property true, it holds after the loop
iff it held before or some element made it true. -/
theorem foldl_iff {σ : Type*} {f : σ → ι → σ} {Q : σ → Prop} {P : ι → Prop}
    (h : ∀ s e, Q (f s e) ↔ Q s ∨ P e) (es : List ι) (s : σ) :
    Q (es.foldl f s) ↔ Q s ∨ ∃ e ∈ es, P e := by
  induction es generalizing s with
  | nil => simp
  | cons e es ih =>
    rw [List.foldl_cons, ih, h, or_assoc, List.exists_mem_cons_iff]

/-- A list with an element of some kind has a first one. -/
theorem exists_first {P : α → Prop} {l : List α} (h : ∃ x ∈ l, P x) :
    ∃ pre x post, l = pre ++ x :: post ∧ P x ∧ ∀ y ∈ pre, ¬ P y := by
  induction l with
  | nil => simp at h
  | cons a l ih =>
    by_cases ha : P a
    · exact ⟨[], a, l, rfl, ha, by simp⟩
    · obtain ⟨pre, x, post, rfl, hx, hpre⟩ :=
        ih (((List.exists_mem_cons_iff P a l).mp h).resolve_left ha)
      exact ⟨a :: pre, x, post, rfl, hx, List.forall_mem_cons.mpr ⟨ha, hpre⟩⟩

/-- A property of some element of a list and of what stands before it. -/
def AtSome (P : List α → α → Prop) (l : List α) : Prop :=
  ∃ pre x post, l = pre ++ x :: post ∧ P pre x

theorem not_atSome_nil (P : List α → α → Prop) : ¬ AtSome P [] := by
  rintro ⟨pre, x, post, heq, -⟩
  exact List.append_ne_nil_of_right_ne_nil pre (List.cons_ne_nil x post) heq.symm

/-- One more element at the end is at the last position. -/
theorem atSome_append_singleton (P : List α → α → Prop) (l : List α) (e : α) :
    AtSome P (l ++ [e]) ↔ AtSome P l ∨ P l e := by
  constructor
  · rintro ⟨pre, x, post, heq, h⟩
    rcases List.eq_nil_or_concat post with rfl | ⟨post', y, rfl⟩
    · obtain ⟨rfl, hx⟩ := List.append_inj' heq rfl
      obtain rfl := (List.cons.inj hx).1
      exact Or.inr h
    · rw [List.concat_eq_append, ← List.cons_append, ← List.append_assoc] at heq
      exact Or.inl ⟨pre, x, post', (List.append_inj' heq rfl).1, h⟩
  · rintro (⟨pre, x, post, rfl, h⟩ | h)
    · exact ⟨pre, x, post ++ [e], by rw [List.append_assoc, List.cons_append], h⟩
    · exact ⟨l, e, [], rfl, h⟩

end Enumerations
