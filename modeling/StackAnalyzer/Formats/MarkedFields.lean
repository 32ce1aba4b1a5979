import Mathlib

set_option relaxedAutoImplicit false
set_option autoImplicit false

/-!
# Fields behind markers

Texts that are put together from fields with a marker in front of each of them, without lengths and
without escapes. If the first character of the marker does not occur in the rest of it, the fields
that do not contain the marker can be told from the text.

## Main results

* `MarkedFields.append_marker_inj` — the text in front of the first marker is determined.
* `MarkedFields.intercalate_inj` — the fields between markers are determined.
-/

namespace MarkedFields

variable {A : Type*} {c : A} {t : List A}

/-- A text that begins with a marker does not begin inside of the marker. -/
theorem not_append_eq_marker (hc : c ∉ t) {u s X Y : List A} (hs : s ≠ []) (hu : u ≠ [])
    (hmarker : c :: t = s ++ u) : u ++ X ≠ c :: t ++ Y := by
  intro h
  obtain ⟨d, s', rfl⟩ := List.exists_cons_of_ne_nil hs
  obtain ⟨e, u', rfl⟩ := List.exists_cons_of_ne_nil hu
  obtain ⟨-, ht⟩ := List.cons.inj hmarker
  obtain ⟨rfl, -⟩ := List.cons.inj h
  exact hc (ht ▸ List.mem_append_right s' List.mem_cons_self)

/-- **The text in front of the first marker** is determined, if it does not contain the marker.

**Proof sketch.** Of two such texts one begins with the other. The rest of it, if there is any,
contains the marker or ends inside of it, where no marker can begin. -/
theorem append_marker_inj (hc : c ∉ t) {x y X Y : List A} (hx : ¬c :: t <:+: x)
    (hy : ¬c :: t <:+: y) (h : x ++ (c :: t ++ X) = y ++ (c :: t ++ Y)) : x = y ∧ X = Y := by
  -- one text cannot be longer than the other
  have hlonger : ∀ {x s X Y : List A}, ¬c :: t <:+: x ++ s → c :: t ++ X = s ++ (c :: t ++ Y) →
      s = [] := by
    intro x s X Y hs heq
    by_contra hne
    rcases List.append_eq_append_iff.mp heq with ⟨u, hsu, -⟩ | ⟨u, hmu, hu⟩
    · exact hs (List.IsInfix.trans (hsu ▸ (List.prefix_append _ u).isInfix)
        (List.suffix_append x s).isInfix)
    · by_cases hempty : u = []
      · subst hempty
        rw [List.append_nil] at hmu
        exact hs (hmu ▸ (List.suffix_append x s).isInfix)
      · exact not_append_eq_marker hc hne hempty hmu hu.symm
  rcases List.append_eq_append_iff.mp h with ⟨s, rfl, hs⟩ | ⟨s, rfl, hs⟩
  · obtain rfl := hlonger hy hs
    rw [List.append_nil]
    exact ⟨rfl, List.append_cancel_left hs⟩
  · obtain rfl := hlonger hx hs
    rw [List.append_nil]
    exact ⟨rfl, (List.append_cancel_left hs).symm⟩

/-- **The fields between markers** are determined, if no field contains the marker. -/
theorem intercalate_inj (hc : c ∉ t) {x y : List A} {xs ys : List (List A)}
    (hx : ∀ z ∈ x :: xs, ¬c :: t <:+: z) (hy : ∀ z ∈ y :: ys, ¬c :: t <:+: z)
    (h : (c :: t).intercalate (x :: xs) = (c :: t).intercalate (y :: ys)) :
    x :: xs = y :: ys := by
  induction xs generalizing x y ys with
  | nil =>
    cases ys with
    | nil => rwa [List.intercalate_singleton, List.intercalate_singleton, ← List.singleton_inj] at h
    | cons z ys =>
      rw [List.intercalate_singleton, List.intercalate_cons_cons] at h
      exact absurd ⟨y, _, h.symm⟩ (hx x List.mem_cons_self)
  | cons x' xs ih =>
    cases ys with
    | nil =>
      rw [List.intercalate_singleton, List.intercalate_cons_cons] at h
      exact absurd ⟨x, _, h⟩ (hy y List.mem_cons_self)
    | cons y' ys =>
      rw [List.intercalate_cons_cons, List.intercalate_cons_cons, List.append_assoc,
        List.append_assoc] at h
      obtain ⟨rfl, hrest⟩ :=
        append_marker_inj hc (hx x List.mem_cons_self) (hy y List.mem_cons_self) h
      rw [ih (fun z hz => hx z (List.mem_cons_of_mem x hz))
        (fun z hz => hy z (List.mem_cons_of_mem x hz)) hrest]

end MarkedFields
