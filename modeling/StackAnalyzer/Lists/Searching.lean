import Mathlib

set_option relaxedAutoImplicit false
set_option autoImplicit false

/-!
# Searching

The first place where a list stands in another one, the last member with some property, and the one
member with an answer.

## Main definitions

* `Lists.findInfix` — where a list stands in another one first.
* `Lists.lastIndexWhere` — the last member with some property.

## Main results

* `Lists.findInfix_eq_none_iff` — when there is no such place.
* `Lists.lastIndexWhere_append` — a member behind which there is no other one.
* `Lists.findSome?_eq_of_forall_ne` — the answer of the one member that has one.
-/

namespace Lists

variable {A : Type*}

/-! ## From the front -/

section Front

variable [DecidableEq A]

/-- **Where a list stands in another one first.** -/
def findInfix (pattern : List A) : List A → Option ℕ
  | [] => if pattern = [] then some 0 else none
  | a :: as =>
    if pattern <+: a :: as then some 0 else (findInfix pattern as).map (· + 1)

variable {pattern l : List A}

/-- It stands at the beginning. -/
theorem findInfix_of_prefix (h : pattern <+: l) : findInfix pattern l = some 0 := by
  cases l with
  | nil => rw [findInfix, if_pos (List.prefix_nil.mp h)]
  | cons a as => rw [findInfix, if_pos h]

/-- **There is no place** if and only if the list does not stand in the other one. -/
theorem findInfix_eq_none_iff : findInfix pattern l = none ↔ ¬ pattern <:+: l := by
  induction l with
  | nil =>
    rw [findInfix, List.infix_nil]
    split_ifs with h <;> simp [h]
  | cons a as ih =>
    rw [findInfix, List.infix_cons_iff, not_or]
    split_ifs with h
    · simp [h]
    · rw [Option.map_eq_none_iff, ih]
      simp [h]

/-- Places that are passed over. -/
theorem findInfix_append {front : List A} (h : ∀ a back, a :: back <:+ front →
    ¬ pattern <+: a :: (back ++ l)) :
    findInfix pattern (front ++ l) = (findInfix pattern l).map (· + front.length) := by
  induction front with
  | nil => simp
  | cons a front ih =>
    have hhere : ¬ pattern <+: a :: (front ++ l) := h a front (List.suffix_refl _)
    rw [List.cons_append, findInfix, if_neg hhere,
      ih fun b back hback => h b back (hback.trans (List.suffix_cons a front)), Option.map_map]
    rfl

end Front

/-! ## From the back -/

section Back

/-- **The last member** with some property. -/
def lastIndexWhere (p : A → Bool) : List A → Option ℕ
  | [] => none
  | a :: as =>
    match lastIndexWhere p as with
    | some n => some (n + 1)
    | none => if p a then some 0 else none

variable {p : A → Bool} {l : List A}

/-- There is none. -/
theorem lastIndexWhere_eq_none_iff : lastIndexWhere p l = none ↔ ∀ a ∈ l, p a = false := by
  induction l with
  | nil => simp [lastIndexWhere]
  | cons a as ih =>
    rw [List.forall_mem_cons, ← ih, lastIndexWhere]
    cases lastIndexWhere p as with
    | some n => simp
    | none => simp

/-- **A member behind which there is no other one**. -/
theorem lastIndexWhere_append {front back : List A} {a : A} (ha : p a = true)
    (hback : ∀ b ∈ back, p b = false) :
    lastIndexWhere p (front ++ a :: back) = some front.length := by
  induction front with
  | nil =>
    rw [List.nil_append, lastIndexWhere, lastIndexWhere_eq_none_iff.mpr hback]
    exact if_pos ha
  | cons b front ih => rw [List.cons_append, lastIndexWhere, ih, List.length_cons]

/-- What stands behind the last member has not got the property. -/
theorem not_of_mem_drop {n : ℕ} (h : lastIndexWhere p l = some n) {a : A}
    (ha : a ∈ l.drop (n + 1)) : p a = false := by
  induction l generalizing n with
  | nil => cases h
  | cons b as ih =>
    rw [List.drop_succ_cons] at ha
    rw [lastIndexWhere] at h
    cases hlast : lastIndexWhere p as with
    | some m =>
      rw [hlast] at h
      obtain rfl := Option.some.inj h
      exact ih hlast ha
    | none => exact lastIndexWhere_eq_none_iff.mp hlast a (List.mem_of_mem_drop ha)

end Back

/-! ## For an answer -/

section Answer

variable {B : Type*}

/-- **The answer of the one member that has one.** -/
theorem findSome?_eq_of_forall_ne {l : List A} {f : A → Option B} {x : A} (hx : x ∈ l)
    (h : ∀ y ∈ l, y ≠ x → f y = none) : l.findSome? f = f x := by
  induction l with
  | nil => exact absurd hx List.not_mem_nil
  | cons a l ih =>
    have htail : x ∈ l → l.findSome? f = f x :=
      fun hmem => ih hmem fun y hy => h y (List.mem_cons_of_mem _ hy)
    rw [List.findSome?_cons]
    by_cases hax : a = x
    · subst hax
      cases hfa : f a with
      | some answer => rfl
      | none =>
        refine List.findSome?_eq_none_iff.mpr fun y hy => ?_
        by_cases hya : y = a
        · rw [hya, hfa]
        · exact h y (List.mem_cons_of_mem _ hy) hya
    · rw [h a List.mem_cons_self hax]
      exact htail ((List.mem_cons.mp hx).resolve_left (Ne.symm hax))

end Answer

end Lists
