import Mathlib

set_option relaxedAutoImplicit false
set_option autoImplicit false

/-!
# Changes of the fields of a record

A record as the values of its fields. A change assigns a value to a field, or modifies the value
that it has. What a list of changes leaves in a field that it assigns does not depend on what was
there before.

## Main definitions

* `Maps.FieldChange`, `Maps.applyAll` — changes, and their effect on a record.

## Main results

* `Maps.applyAll_of_untouched`, `Maps.applyAll_of_assigned`, `Maps.applyAll_congr` — what the value
  of a field after some changes depends on.
-/

namespace Maps

/-- A change of a field. -/
inductive FieldChange {K : Type*} (Value : K → Type*)
  | assign (field : K) (v : Value field)
  | modify (field : K) (g : Value field → Value field)

namespace FieldChange

variable {K : Type*} {Value : K → Type*}

/-- The field that is changed. -/
def field : FieldChange Value → K
  | .assign field _ => field
  | .modify field _ => field

/-- The change is an assignment. -/
def isAssign : FieldChange Value → Bool
  | .assign _ _ => true
  | .modify _ _ => false

variable [DecidableEq K]

/-- The record after a change. -/
def apply (record : ∀ field, Value field) : FieldChange Value → ∀ field, Value field
  | .assign field v => Function.update record field v
  | .modify field g => Function.update record field (g (record field))

theorem apply_of_ne {record : ∀ field, Value field} {c : FieldChange Value} {k : K}
    (h : k ≠ c.field) : c.apply record k = record k := by
  cases c with
  | assign field v => exact Function.update_of_ne h _ _
  | modify field g => exact Function.update_of_ne h _ _

/-- A change depends on the old value of its field only. -/
theorem apply_congr {record record' : ∀ field, Value field} (c : FieldChange Value) {k : K}
    (h : record k = record' k) : c.apply record k = c.apply record' k := by
  by_cases hk : k = c.field
  · subst hk
    cases c with
    | assign field v => simp only [apply, FieldChange.field, Function.update_self]
    | modify field g =>
      simp only [apply, FieldChange.field, Function.update_self] at h ⊢
      rw [h]
  · rw [apply_of_ne hk, apply_of_ne hk, h]

/-- An assignment does not depend on the record. -/
theorem apply_of_isAssign (record record' : ∀ field, Value field) {c : FieldChange Value}
    (h : c.isAssign = true) : c.apply record c.field = c.apply record' c.field := by
  cases c with
  | assign field v => simp only [apply, FieldChange.field, Function.update_self]
  | modify field g => cases h

end FieldChange

section ApplyAll

variable {K : Type*} [DecidableEq K] {Value : K → Type*}

/-- The record after some changes. -/
def applyAll (record : ∀ field, Value field) (cs : List (FieldChange Value)) :
    ∀ field, Value field :=
  cs.foldl FieldChange.apply record

theorem applyAll_append (record : ∀ field, Value field) (cs cs' : List (FieldChange Value)) :
    applyAll record (cs ++ cs') = applyAll (applyAll record cs) cs' :=
  List.foldl_append

/-- A field that no change is about keeps its value. -/
theorem applyAll_of_untouched {cs : List (FieldChange Value)} {k : K}
    (h : ∀ c ∈ cs, c.field ≠ k) (record : ∀ field, Value field) :
    applyAll record cs k = record k := by
  induction cs generalizing record with
  | nil => rfl
  | cons c cs ih =>
    have hrest := ih (fun c' hc' => h c' (List.mem_cons_of_mem c hc')) (c.apply record)
    have hne : k ≠ c.field := fun heq => h c List.mem_cons_self heq.symm
    exact hrest.trans (FieldChange.apply_of_ne hne)

/-- The value of a field depends on its old value only. -/
theorem applyAll_congr (cs : List (FieldChange Value)) {record record' : ∀ field, Value field}
    {k : K} (h : record k = record' k) : applyAll record cs k = applyAll record' cs k := by
  induction cs generalizing record record' with
  | nil => exact h
  | cons c cs ih => exact ih (c.apply_congr h)

/-- **A field that is assigned** has the same value after the changes of any record. -/
theorem applyAll_of_assigned {cs : List (FieldChange Value)} {c : FieldChange Value} (hc : c ∈ cs)
    (hassign : c.isAssign = true) (record record' : ∀ field, Value field) :
    applyAll record cs c.field = applyAll record' cs c.field := by
  induction cs generalizing record record' with
  | nil => exact absurd hc List.not_mem_nil
  | cons c' cs ih =>
    rcases List.mem_cons.mp hc with rfl | hc
    · exact applyAll_congr cs (FieldChange.apply_of_isAssign record record' hassign)
    · exact ih hc (c'.apply record) (c'.apply record')

end ApplyAll

end Maps
