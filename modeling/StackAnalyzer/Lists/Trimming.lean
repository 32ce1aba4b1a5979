import Mathlib

set_option relaxedAutoImplicit false
set_option autoImplicit false

/-!
# Trimming

What some predicate holds of is dropped from both ends of a list.

## Main definitions

* `Lists.trim` — a list without what it begins and ends with.

## Main results

* `Lists.exists_trim` — what is dropped.
* `Lists.trim_eq_self` — a list that neither begins nor ends so stays as it is.
* `Lists.trim_append` — what is dropped in front can be left out.
-/

namespace Lists

variable {A : Type*} {p : A → Bool} {l front : List A}

/-- **A list without what it begins and ends with**, as far as the predicate holds. -/
def trim (p : A → Bool) (l : List A) : List A :=
  ((l.dropWhile p).reverse.dropWhile p).reverse

/-- What is dropped in front can be left out. -/
theorem trim_append (hfront : ∀ a ∈ front, p a = true) : trim p (front ++ l) = trim p l := by
  rw [trim, List.dropWhile_append_of_pos hfront, trim]

/-- Nothing is dropped from a list that begins with something else. -/
theorem dropWhile_eq_self (h : ∀ a, l.head? = some a → p a = false) : l.dropWhile p = l := by
  cases l with
  | nil => rfl
  | cons a as => rw [List.dropWhile_cons_of_neg (by simp [h a rfl])]

/-- From a list that ends with something else, nothing is dropped at the end. -/
theorem trim_eq_dropWhile (h : ∀ a, l.getLast? = some a → p a = false) :
    trim p l = l.dropWhile p := by
  rw [trim, dropWhile_eq_self, List.reverse_reverse]
  intro a ha
  rw [List.head?_reverse] at ha
  refine h a ?_
  obtain ⟨init, hinit⟩ := List.getLast?_eq_some_iff.mp ha
  rw [← List.takeWhile_append_dropWhile (p := p) (l := l), hinit, ← List.append_assoc]
  exact List.getLast?_concat

/-- **A list that neither begins nor ends so** stays as it is. -/
theorem trim_eq_self (hhead : ∀ a, l.head? = some a → p a = false)
    (hlast : ∀ a, l.getLast? = some a → p a = false) : trim p l = l := by
  rw [trim_eq_dropWhile hlast, dropWhile_eq_self hhead]

/-- The predicate fails where dropping stops. -/
theorem not_of_head_dropWhile {a : A} (h : (l.dropWhile p).head? = some a) : p a = false := by
  have hstop := List.head?_dropWhile_not p l
  rw [h] at hstop
  simpa using hstop

/-- What is dropped at the end. -/
theorem dropWhile_eq_trim_append :
    ∃ back, l.dropWhile p = trim p l ++ back ∧ ∀ a ∈ back, p a = true := by
  refine ⟨((l.dropWhile p).reverse.takeWhile p).reverse, ?_, fun a ha => ?_⟩
  · rw [trim, ← List.reverse_append, List.takeWhile_append_dropWhile, List.reverse_reverse]
  · exact List.mem_takeWhile_imp (List.mem_reverse.mp ha)

/-- **What is dropped.** -/
theorem exists_trim : ∃ front back, l = front ++ trim p l ++ back ∧ (∀ a ∈ front, p a = true) ∧
    ∀ a ∈ back, p a = true := by
  obtain ⟨back, hback, hpback⟩ := dropWhile_eq_trim_append (p := p) (l := l)
  refine ⟨l.takeWhile p, back, ?_, fun a ha => List.mem_takeWhile_imp ha, hpback⟩
  rw [List.append_assoc, ← hback, List.takeWhile_append_dropWhile]

/-- A list that has been trimmed does not begin so. -/
theorem head_trim {a : A} (h : (trim p l).head? = some a) : p a = false := by
  obtain ⟨back, hback, -⟩ := dropWhile_eq_trim_append (p := p) (l := l)
  refine not_of_head_dropWhile (l := l) ?_
  rw [hback, List.head?_append, h]
  rfl

/-- A list that has been trimmed does not end so. -/
theorem getLast_trim {a : A} (h : (trim p l).getLast? = some a) : p a = false := by
  rw [trim, List.getLast?_reverse] at h
  exact not_of_head_dropWhile h

/-- Trimming twice is trimming once. -/
theorem trim_trim : trim p (trim p l) = trim p l :=
  trim_eq_self (fun _ => head_trim) fun _ => getLast_trim

end Lists
