import Mathlib

set_option relaxedAutoImplicit false
set_option autoImplicit false

/-!
# Computations that consult an oracle

A computation that may ask questions and go on with the answers, whatever they are. Two computations
of lists are compared: the first one *prunes* the second one if it only leaves out elements, and
leaves out none unless one of the answers it got refutes something.

## Main definitions

* `Consulting.Consult` — such computations, a monad.
* `Consulting.Consult.Runs` — a computation ends with a value after some questions and answers.
* `Consulting.Consult.collect` — do the same for all members of a list and append the results.
* `Consulting.Consult.eval` — the value if the answers are given by a function.
* `Consulting.Prunes` — the comparison.

## Main results

* `Consulting.Consult.eval_collect` — what is collected if the answers are given by a function.
* `Consulting.Consult.exists_of_runs_collect`, `Consulting.Consult.exists_runs_of_collect` — what is
  collected for a list.
* `Consulting.Prunes.collect`, `Consulting.Prunes.bind_decision` — how comparisons are composed.
-/

namespace Consulting

/-- A computation of an `A` that may ask questions `Q`, with answers `R`. -/
inductive Consult (Q R A : Type*)
  | answer (a : A)
  | ask (q : Q) (next : R → Consult Q R A)

namespace Consult

variable {Q R A B C : Type*}

/-- Go on with the value of a computation. -/
def bind (p : Consult Q R A) (f : A → Consult Q R B) : Consult Q R B :=
  match p with
  | .answer a => f a
  | .ask q next => .ask q fun r => (next r).bind f

/-- Change the value of a computation. -/
def map (f : A → B) (p : Consult Q R A) : Consult Q R B := p.bind fun a => .answer (f a)

/-- Do the same for all members of a list and append the results. -/
def collect (f : A → Consult Q R (List B)) : List A → Consult Q R (List B)
  | [] => .answer []
  | a :: as => (f a).bind fun bs => (collect f as).map (bs ++ ·)

/-- The computation asks some questions, gets some answers, and ends with a value. -/
inductive Runs : Consult Q R A → List (Q × R) → A → Prop
  | answer (a : A) : Runs (.answer a) [] a
  | ask {q : Q} {next : R → Consult Q R A} {r : R} {trace : List (Q × R)} {a : A} :
      Runs (next r) trace a → Runs (.ask q next) ((q, r) :: trace) a

/-- A computation without a question has one run. -/
theorem runs_answer_iff {a b : A} {trace : List (Q × R)} :
    (answer a : Consult Q R A).Runs trace b ↔ trace = [] ∧ b = a := by
  constructor
  · rintro ⟨⟩
    exact ⟨rfl, rfl⟩
  · rintro ⟨rfl, rfl⟩
    exact .answer b

/-- A run that goes on with a value is a run to this value and a run from it. -/
theorem runs_bind_iff {p : Consult Q R A} {f : A → Consult Q R B} {trace : List (Q × R)} {b : B} :
    (p.bind f).Runs trace b ↔
      ∃ a before after, p.Runs before a ∧ (f a).Runs after b ∧ trace = before ++ after := by
  constructor
  · intro h
    induction p generalizing trace with
    | answer a => exact ⟨a, [], trace, .answer a, h, rfl⟩
    | ask q next ih =>
      obtain ⟨⟩ | ⟨hnext⟩ := h
      obtain ⟨a, before, after, hbefore, hafter, rfl⟩ := ih _ hnext
      exact ⟨a, _, after, .ask hbefore, hafter, rfl⟩
  · rintro ⟨a, before, after, hbefore, hafter, rfl⟩
    induction hbefore with
    | answer a => exact hafter
    | ask _ ih => exact .ask (ih hafter)

/-- The runs of a changed computation. -/
theorem runs_map_iff {p : Consult Q R A} {f : A → B} {trace : List (Q × R)} {b : B} :
    (p.map f).Runs trace b ↔ ∃ a, p.Runs trace a ∧ b = f a := by
  unfold map
  rw [runs_bind_iff]
  constructor
  · rintro ⟨a, before, after, hbefore, hafter, rfl⟩
    obtain ⟨rfl, rfl⟩ := runs_answer_iff.mp hafter
    exact ⟨a, by rwa [List.append_nil], rfl⟩
  · rintro ⟨a, hrun, rfl⟩
    exact ⟨a, trace, [], hrun, .answer _, by rw [List.append_nil]⟩

/-- What is collected comes from a run for some member. -/
theorem exists_of_runs_collect {f : A → Consult Q R (List B)} {as : List A}
    {trace : List (Q × R)} {bs : List B} (h : (collect f as).Runs trace bs) {b : B} (hb : b ∈ bs) :
    ∃ a ∈ as, ∃ trace' bs', (f a).Runs trace' bs' ∧ b ∈ bs' := by
  induction as generalizing trace bs with
  | nil =>
    obtain ⟨-, rfl⟩ := runs_answer_iff.mp h
    exact absurd hb List.not_mem_nil
  | cons a as ih =>
    obtain ⟨first, before, after, hfirst, hrest, rfl⟩ := runs_bind_iff.mp h
    obtain ⟨rest, hrun, rfl⟩ := runs_map_iff.mp hrest
    rcases List.mem_append.mp hb with hb | hb
    · exact ⟨a, List.mem_cons_self, before, first, hfirst, hb⟩
    · obtain ⟨a', ha', hfound⟩ := ih hrun hb
      exact ⟨a', List.mem_cons_of_mem a ha', hfound⟩

/-- A run for every member is part of what is collected. -/
theorem exists_runs_of_collect {f : A → Consult Q R (List B)} {as : List A}
    {trace : List (Q × R)} {bs : List B} (h : (collect f as).Runs trace bs) {a : A} (ha : a ∈ as) :
    ∃ trace' bs', (f a).Runs trace' bs' ∧ bs' ⊆ bs := by
  induction as generalizing trace bs with
  | nil => exact absurd ha List.not_mem_nil
  | cons a' as ih =>
    obtain ⟨first, before, after, hfirst, hrest, rfl⟩ := runs_bind_iff.mp h
    obtain ⟨rest, hrun, rfl⟩ := runs_map_iff.mp hrest
    rcases List.mem_cons.mp ha with rfl | ha
    · exact ⟨before, first, hfirst, List.subset_append_left first rest⟩
    · obtain ⟨trace', bs', hfound, hsub⟩ := ih hrun ha
      exact ⟨trace', bs', hfound, fun b hb => List.mem_append_right first (hsub hb)⟩

/-- The value of a computation if every question always gets the same answer. -/
def eval (answers : Q → R) : Consult Q R A → A
  | .answer a => a
  | .ask q next => (next (answers q)).eval answers

@[simp] theorem eval_answer (answers : Q → R) (a : A) :
    (answer a : Consult Q R A).eval answers = a := rfl

@[simp] theorem eval_bind (answers : Q → R) (p : Consult Q R A) (f : A → Consult Q R B) :
    (p.bind f).eval answers = (f (p.eval answers)).eval answers := by
  induction p with
  | answer a => rfl
  | ask q next ih => exact ih (answers q)

@[simp] theorem eval_map (answers : Q → R) (f : A → B) (p : Consult Q R A) :
    (p.map f).eval answers = f (p.eval answers) :=
  eval_bind answers p _

/-- What is collected, with the same answers for all members. -/
@[simp] theorem eval_collect (answers : Q → R) (f : A → Consult Q R (List B)) (as : List A) :
    (collect f as).eval answers = as.flatMap fun a => (f a).eval answers := by
  induction as with
  | nil => rfl
  | cons a as ih => rw [collect, eval_bind, eval_map, ih, List.flatMap_cons]

end Consult

/-! ## Pruning -/

section Prunes

variable {Q R A B D K : Type*} (refutes : R → Prop) (key : B → K)

/-- The first computation leaves out elements of the second one, which are compared by a key, and
yields the same list unless one of the answers that it got refutes something. -/
def Prunes (p q : Consult Q R (List B)) : Prop :=
  ∀ trace bs trace' bs', p.Runs trace bs → q.Runs trace' bs' →
    (bs.map key).Sublist (bs'.map key) ∧ ((∀ x ∈ trace, ¬ refutes x.2) → bs = bs')

variable {refutes key}

/-- The same list without a question. -/
theorem Prunes.answer (bs : List B) :
    Prunes refutes key (.answer bs : Consult Q R (List B)) (.answer bs) := by
  intro trace out trace' out' h h'
  obtain ⟨-, rfl⟩ := Consult.runs_answer_iff.mp h
  obtain ⟨-, rfl⟩ := Consult.runs_answer_iff.mp h'
  exact ⟨List.Sublist.refl _, fun _ => rfl⟩

/-- **A decision**: both computations make a decision and go on from it. If the first one decides
differently only after a refutation, and this leaves out elements, it prunes the second one. -/
theorem Prunes.bind_decision {p q : Consult Q R D} {f : D → List B} (fallback : D)
    (hp : ∀ trace d, p.Runs trace d → (∀ x ∈ trace, ¬ refutes x.2) → d = fallback)
    (hq : ∀ trace d, q.Runs trace d → d = fallback)
    (hf : ∀ d, ((f d).map key).Sublist ((f fallback).map key)) :
    Prunes refutes key (p.map f) (q.map f) := by
  intro trace out trace' out' h h'
  obtain ⟨d, hd, rfl⟩ := Consult.runs_map_iff.mp h
  obtain ⟨d', hd', rfl⟩ := Consult.runs_map_iff.mp h'
  rw [hq _ _ hd']
  exact ⟨hf d, fun hnone => by rw [hp _ _ hd hnone]⟩

/-- One computation after another. -/
theorem Prunes.append {p q p' q' : Consult Q R (List B)} (h : Prunes refutes key p q)
    (h' : Prunes refutes key p' q') :
    Prunes refutes key (p.bind fun bs => p'.map (bs ++ ·)) (q.bind fun bs => q'.map (bs ++ ·)) := by
  intro trace out trace' out' hrun hrun'
  obtain ⟨bs, before, after, hbs, hrest, rfl⟩ := Consult.runs_bind_iff.mp hrun
  obtain ⟨cs, hcs, rfl⟩ := Consult.runs_map_iff.mp hrest
  obtain ⟨bs', before', after', hbs', hrest', rfl⟩ := Consult.runs_bind_iff.mp hrun'
  obtain ⟨cs', hcs', rfl⟩ := Consult.runs_map_iff.mp hrest'
  obtain ⟨hsub, heq⟩ := h _ _ _ _ hbs hbs'
  obtain ⟨hsub', heq'⟩ := h' _ _ _ _ hcs hcs'
  refine ⟨?_, fun hnone => ?_⟩
  · rw [List.map_append, List.map_append]
    exact hsub.append hsub'
  · rw [heq fun x hx => hnone x (List.mem_append_left _ hx),
      heq' fun x hx => hnone x (List.mem_append_right _ hx)]

/-- **Lists**: the comparison of what is done for each member. -/
theorem Prunes.collect {f g : A → Consult Q R (List B)} {as : List A}
    (h : ∀ a ∈ as, Prunes refutes key (f a) (g a)) :
    Prunes refutes key (Consult.collect f as) (Consult.collect g as) := by
  induction as with
  | nil => exact Prunes.answer []
  | cons a as ih =>
    exact (h a List.mem_cons_self).append (ih fun a' ha' => h a' (List.mem_cons_of_mem a ha'))

end Prunes

end Consulting
