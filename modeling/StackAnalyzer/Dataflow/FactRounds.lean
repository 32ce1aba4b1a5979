import Mathlib

set_option relaxedAutoImplicit false
set_option autoImplicit false

/-!
# Rounds that add facts

Steps that add to a set of facts what they derive from it, and that record whether something was new.
A round makes all steps in order. The rounds are repeated until one adds nothing. If only finitely
many facts can be derived, then they end, with the least set of facts that is closed under all steps.

A step may also be undefined. Then it is asked at each step that is reached whether it is defined.

## Main definitions

* `FactRounds.Adds` — a step adds what it derives.
* `FactRounds.rounds` — the repeated rounds.
* `FactRounds.LeastClosed` — the least set of facts that is closed under some steps.

## Main results

* `FactRounds.exists_rounds` — the rounds end with the least closed set of facts.
* `FactRounds.foldlM_eq_foldl` — steps that are defined where they are reached.
-/

namespace FactRounds

variable {σ X ι : Type*}

/-! ## Rounds -/

/-- A step adds to the facts what it derives from them, and records whether something was new. -/
structure Adds (facts : σ → Set X) (derive : Set X → Set X) (step : σ × Bool → σ × Bool) :
    Prop where
  facts_eq : ∀ st, facts (step st).1 = facts st.1 ∪ derive (facts st.1)
  unchanged_iff : ∀ st, (step st).2 = false ↔ st.2 = false ∧ derive (facts st.1) ⊆ facts st.1

/-- The rounds, until one records nothing new. There may be no fuel left, and a round may be
undefined. -/
def rounds (round : σ → Option (σ × Bool)) : ℕ → σ → Option σ
  | 0, _ => none
  | fuel + 1, s =>
    match round s with
    | none => none
    | some (s, true) => rounds round fuel s
    | some (s, false) => some s

/-- A set of facts is the least one that contains some facts and is closed under the steps. -/
structure LeastClosed (derive : ι → Set X → Set X) (order : List ι) (start S : Set X) : Prop where
  start_subset : start ⊆ S
  closed : ∀ i ∈ order, derive i S ⊆ S
  least : ∀ T, start ⊆ T → (∀ i ∈ order, ∀ S' ⊆ T, derive i S' ⊆ T) → S ⊆ T

section Steps

variable {facts : σ → Set X} {derive : ι → Set X → Set X} {step : ι → σ × Bool → σ × Bool}
  {order : List ι}

/-- The steps of a round, in order. -/
def allSteps (step : ι → σ × Bool → σ × Bool) (order : List ι) (st : σ × Bool) : σ × Bool :=
  order.foldl (fun st i => step i st) st

/-- Facts stay. -/
theorem subset_allSteps (h : ∀ i ∈ order, Adds facts (derive i) (step i)) (st : σ × Bool) :
    facts st.1 ⊆ facts (allSteps step order st).1 := by
  induction order generalizing st with
  | nil => exact subset_rfl
  | cons i order ih =>
    obtain ⟨hi, h⟩ := List.forall_mem_cons.mp h
    have hstep : facts st.1 ⊆ facts (step i st).1 := by
      rw [hi.facts_eq]
      exact Set.subset_union_left
    exact hstep.trans (ih h _)

/-- A closed set contains the facts of a round if it contains those before. -/
theorem allSteps_subset (h : ∀ i ∈ order, Adds facts (derive i) (step i)) {T : Set X}
    (hclosed : ∀ i ∈ order, ∀ S' ⊆ T, derive i S' ⊆ T) {st : σ × Bool} (hst : facts st.1 ⊆ T) :
    facts (allSteps step order st).1 ⊆ T := by
  induction order generalizing st with
  | nil => exact hst
  | cons i order ih =>
    obtain ⟨hi, h⟩ := List.forall_mem_cons.mp h
    obtain ⟨hclosedi, hclosed⟩ := List.forall_mem_cons.mp hclosed
    refine ih h hclosed ?_
    rw [hi.facts_eq]
    exact Set.union_subset hst (hclosedi _ hst)

/-- A round that records nothing new has derived nothing new. -/
theorem allSteps_unchanged (h : ∀ i ∈ order, Adds facts (derive i) (step i)) {st : σ × Bool}
    (hst : (allSteps step order st).2 = false) :
    st.2 = false ∧ facts (allSteps step order st).1 = facts st.1 ∧
      ∀ i ∈ order, derive i (facts st.1) ⊆ facts st.1 := by
  induction order generalizing st with
  | nil => exact ⟨hst, rfl, by simp⟩
  | cons i order ih =>
    obtain ⟨hi, h⟩ := List.forall_mem_cons.mp h
    obtain ⟨hflag, hfacts, hclosed⟩ := ih h hst
    obtain ⟨hflag, hsub⟩ := (hi.unchanged_iff st).mp hflag
    have hstep : facts (step i st).1 = facts st.1 := by
      rw [hi.facts_eq, Set.union_eq_left.mpr hsub]
    rw [hstep] at hfacts hclosed
    exact ⟨hflag, hfacts, List.forall_mem_cons.mpr ⟨hsub, hclosed⟩⟩

/-- A round that records something new has added a fact. -/
theorem allSteps_changed (h : ∀ i ∈ order, Adds facts (derive i) (step i)) {st : σ × Bool}
    (hst : (allSteps step order st).2 = true) :
    st.2 = true ∨ facts st.1 ⊂ facts (allSteps step order st).1 := by
  induction order generalizing st with
  | nil => exact Or.inl hst
  | cons i order ih =>
    obtain ⟨hi, h⟩ := List.forall_mem_cons.mp h
    have hstep : facts st.1 ⊆ facts (step i st).1 := by
      rw [hi.facts_eq]
      exact Set.subset_union_left
    rcases ih h hst with hflag | hlt
    · by_cases hbefore : st.2 = true
      · exact Or.inl hbefore
      · right
        have hnew : ¬ derive i (facts st.1) ⊆ facts st.1 := by
          intro hsub
          rw [(hi.unchanged_iff st).mpr ⟨Bool.eq_false_iff.mpr hbefore, hsub⟩] at hflag
          cases hflag
        have hlt : facts st.1 ⊂ facts (step i st).1 := by
          refine ⟨hstep, fun hle => hnew ?_⟩
          rw [hi.facts_eq] at hle
          exact Set.subset_union_right.trans hle
        exact hlt.trans_subset (subset_allSteps h (step i st))
    · exact Or.inr (hstep.trans_ssubset hlt)

/-- **The rounds end** with the least closed set of facts, if a finite set of facts is closed and a
round is defined for each state that is reached.

**Proof sketch.** By induction on the fuel: a round that changes something leaves fewer facts of the
finite set. After a round that does not, the facts are closed. -/
theorem exists_rounds (h : ∀ i ∈ order, Adds facts (derive i) (step i))
    {round : σ → Option (σ × Bool)} {Reached : σ → Prop}
    (hround : ∀ s, Reached s → round s = some (allSteps step order (s, false)))
    (hnext : ∀ s s', Reached s → round s = some (s', true) → Reached s')
    {U : Set X} (hfin : U.Finite) (hU : ∀ i ∈ order, ∀ S' ⊆ U, derive i S' ⊆ U) (fuel : ℕ) {s : σ}
    (hs : Reached s) (hsU : facts s ⊆ U) (hfuel : (U \ facts s).ncard < fuel) :
    ∃ r, rounds round fuel s = some r ∧ LeastClosed derive order (facts s) (facts r) := by
  induction fuel generalizing s with
  | zero => exact absurd hfuel (Nat.not_lt_zero _)
  | succ fuel ih =>
    have hrest : facts (allSteps step order (s, false)).1 ⊆ U := allSteps_subset h hU hsU
    cases hflag : (allSteps step order (s, false)).2 with
    | true =>
      have hstep : round s = some ((allSteps step order (s, false)).1, true) :=
        (hround s hs).trans (congrArg some (Prod.ext rfl hflag))
      have hlt := (allSteps_changed h hflag).resolve_left Bool.false_ne_true
      have hless : (U \ facts (allSteps step order (s, false)).1).ncard < (U \ facts s).ncard := by
        obtain ⟨x, hx, hx'⟩ := Set.exists_of_ssubset hlt
        refine Set.ncard_lt_ncard ⟨Set.sdiff_subset_sdiff_right hlt.subset, fun hle => ?_⟩ hfin.sdiff
        exact (hle ⟨hrest hx, hx'⟩).2 hx
      obtain ⟨r, hr, hclosed⟩ := ih (hnext s _ hs hstep) hrest (by omega)
      refine ⟨r, by rw [rounds, hstep]; exact hr, hlt.subset.trans hclosed.start_subset,
        hclosed.closed, fun T hT hTclosed => ?_⟩
      exact hclosed.least T (allSteps_subset h hTclosed hT) hTclosed
    | false =>
      have hstep : round s = some ((allSteps step order (s, false)).1, false) :=
        (hround s hs).trans (congrArg some (Prod.ext rfl hflag))
      obtain ⟨-, hfacts, hclosed⟩ := allSteps_unchanged h hflag
      refine ⟨(allSteps step order (s, false)).1, by rw [rounds, hstep], ?_⟩
      rw [hfacts]
      exact ⟨subset_rfl, hclosed, fun T hT _ => hT⟩

end Steps

/-! ## Steps that may be undefined -/

section Undefined

variable {step : σ → ι → σ} {stepM : σ → ι → Option σ} {l : List ι}

/-- Steps that are defined where they are reached. -/
theorem foldlM_eq_foldl {s : σ}
    (h : ∀ pre i post, l = pre ++ i :: post → ∀ st, pre.foldlM stepM s = some st →
      stepM st i = some (step st i)) :
    l.foldlM stepM s = some (l.foldl step s) := by
  induction l generalizing s with
  | nil => rfl
  | cons i l ih =>
    have hi : stepM s i = some (step s i) := h [] i l rfl s rfl
    rw [List.foldlM_cons, hi, List.foldl_cons, Option.bind_eq_bind, Option.bind_some]
    refine ih fun pre j post hl st hst => h (i :: pre) j post (by rw [hl, List.cons_append]) st ?_
    rw [List.foldlM_cons, hi]
    exact hst

/-- If all steps together are defined, then so is each where it is reached. -/
theorem isSome_of_foldlM {s r : σ} (h : l.foldlM stepM s = some r) {pre post : List ι} {i : ι}
    (hl : l = pre ++ i :: post) {st : σ} (hst : pre.foldlM stepM s = some st) :
    ∃ st', stepM st i = some st' := by
  rw [hl, List.foldlM_append, hst, Option.bind_eq_bind, Option.bind_some, List.foldlM_cons] at h
  cases hi : stepM st i with
  | none =>
    rw [hi] at h
    cases h
  | some st' => exact ⟨st', rfl⟩

/-- If the rounds end, then a round that is reached is defined. -/
theorem rounds_next {round : σ → Option (σ × Bool)} {fuel : ℕ} {s r : σ}
    (h : rounds round (fuel + 1) s = some r) :
    (∃ st, round s = some st) ∧
      ∀ s', round s = some (s', true) → rounds round fuel s' = some r := by
  rw [rounds] at h
  split at h
  · cases h
  · rename_i s' hs'
    refine ⟨⟨_, hs'⟩, fun s'' hs'' => ?_⟩
    rw [hs'] at hs''
    obtain rfl : s' = s'' := by simpa using hs''
    exact h
  · rename_i s' hs'
    refine ⟨⟨_, hs'⟩, fun s'' hs'' => ?_⟩
    rw [hs'] at hs''
    simp at hs''

end Undefined

end FactRounds
