import StackAnalyzer.Graph.SlotSearch

set_option relaxedAutoImplicit false
set_option autoImplicit false

/-!
# A search for the first thing that is told

A search with a stack of vertices that ends at the first use that tells something. Which one this is
depends on the order of the uses; this file says what can be found.

## Main definitions

* `FirstFound.Telling` — what a use tells, and where it leads.
* `FirstFound.search` — the search, which returns at once.
* `FirstFound.CanBeFound` — something is told at the end of a trail of silent vertices.

## Main results

* `FirstFound.canBeFound_of_search`, `FirstFound.exists_search_eq` — what the orders find.
* `FirstFound.isSome_search_iff` — whether anything is found does not depend on the order.
-/

namespace FirstFound

open SlotSearch

/-- What a use of a vertex tells, and the vertex that it leads to. -/
structure Telling (V U R : Type*) where
  tells : V → U → Option R
  next : V → U → Option V

variable {V U R : Type*} [DecidableEq V]

/-! ## The search -/

/-- Look at the uses of a vertex: what the first use tells that tells something, or the stack. -/
def scan (T : Telling V U R) (v : V) : List U → List V → R ⊕ List V
  | [], worklist => .inr worklist
  | u :: us, worklist =>
    match T.tells v u with
    | some r => .inl r
    | none => scan T v us ((T.next v u).toList ++ worklist)

/-- The search with a bound on the rounds. -/
def searchFrom (T : Telling V U R) (order : V → List U) : ℕ → List V → List V → Option R
  | 0, _, _ => none
  | _ + 1, [], _ => none
  | n + 1, v :: rest, visited =>
    if v ∈ visited then searchFrom T order n rest visited
    else
      match scan T v (order v) rest with
      | .inl r => some r
      | .inr worklist => searchFrom T order n worklist (v :: visited)

/-- The search from a vertex, with enough rounds. -/
def search [Fintype V] (T : Telling V U R) (order : V → List U) (start : V) : Option R :=
  searchFrom T order (rounds order) [start] []

/-- The search that goes on, and keeps what was told first. -/
def Telling.toSearch (T : Telling V U R) : Search V U (Option R) where
  effect v u :=
    match T.next v u with
    | some w => .push w
    | none => .none
  emit v u a := a.or (T.tells v u)

variable (T : Telling V U R)

omit [DecidableEq V] in
/-- Nothing is loaded, and no slot is marked. -/
theorem effect_toSearch (v : V) (u : U) : T.toSearch.effect v u = .none ∨
    ∃ w, T.toSearch.effect v u = .push w := by
  cases hnext : T.next v u with
  | none => exact Or.inl (by simp [Telling.toSearch, hnext])
  | some w => exact Or.inr ⟨w, by simp [Telling.toSearch, hnext]⟩

/-! ## The search that goes on finds the same -/

theorem foldl_out_some (v : V) (us : List U) {st : State V (Option R)} {r : R}
    (h : st.out = some r) : (us.foldl (applyUse T.toSearch v) st).out = some r := by
  induction us generalizing st with
  | nil => exact h
  | cons u us ih => exact ih (by simp [applyUse, Telling.toSearch, h])

theorem step_out_some (order : V → List U) {st : State V (Option R)} {r : R}
    (h : st.out = some r) : (step T.toSearch order st).out = some r := by
  rcases step_cases T.toSearch order st with ⟨-, heq⟩ | ⟨v, rest, -, -, heq⟩ | ⟨v, rest, -, -, heq⟩
  · rw [heq]
    exact h
  · rw [heq]
    exact h
  · rw [heq]
    exact foldl_out_some T v _ h

theorem iterate_out_some (order : V → List U) (n : ℕ) {st : State V (Option R)} {r : R}
    (h : st.out = some r) : ((step T.toSearch order)^[n] st).out = some r := by
  induction n generalizing st with
  | zero => exact h
  | succ n ih => exact ih (step_out_some T order h)

/-- What a scan returns is told by the fold, and otherwise the stacks agree. -/
theorem foldl_of_scan (v : V) (us : List U) (worklist visited slots : List V) :
    match scan T v us worklist with
    | .inl r => (us.foldl (applyUse T.toSearch v) ⟨worklist, visited, slots, none⟩).out = some r
    | .inr worklist' => us.foldl (applyUse T.toSearch v) ⟨worklist, visited, slots, none⟩ =
        ⟨worklist', visited, slots, none⟩ := by
  induction us generalizing worklist with
  | nil => rfl
  | cons u us ih =>
    rw [scan, List.foldl_cons]
    cases htells : T.tells v u with
    | some r =>
      refine foldl_out_some T v us ?_
      simp [applyUse, Telling.toSearch, htells]
    | none =>
      have hstep : applyUse T.toSearch v ⟨worklist, visited, slots, none⟩ u =
          ⟨(T.next v u).toList ++ worklist, visited, slots, none⟩ := by
        cases hnext : T.next v u <;>
          simp [applyUse, Telling.toSearch, htells, hnext, Effect.target, Effect.slotsAfter]
      rw [hstep]
      exact ih _

/-- The search that goes on finds the same. -/
theorem searchFrom_eq_out (order : V → List U) (n : ℕ) (worklist visited slots : List V) :
    searchFrom T order n worklist visited =
      ((step T.toSearch order)^[n] ⟨worklist, visited, slots, none⟩).out := by
  induction n generalizing worklist visited with
  | zero => rfl
  | succ n ih =>
    rw [Function.iterate_succ_apply]
    cases worklist with
    | nil =>
      have hstop : step T.toSearch order ⟨[], visited, slots, none⟩ = ⟨[], visited, slots, none⟩ :=
        rfl
      have hnone : searchFrom T order n [] visited = none := by
        cases n <;> rfl
      rw [hstop, ← ih, hnone, searchFrom]
    | cons v rest =>
      rw [searchFrom]
      by_cases hv : v ∈ visited
      · rw [if_pos hv, ih]
        congr 2
        exact (if_pos hv).symm
      · rw [if_neg hv, step_of_notMem T.toSearch order hv]
        have hscan := foldl_of_scan T v (order v) rest (v :: visited) slots
        cases hresult : scan T v (order v) rest with
        | inl r =>
          rw [hresult] at hscan
          exact (iterate_out_some T order n hscan).symm
        | inr worklist' =>
          rw [hresult] at hscan
          rw [hscan]
          exact ih worklist' (v :: visited)

/-! ## What can be found -/

section Found

variable (uses : V → List U) (start : V)

/-- **What can be found**: it is told at the end of a trail, and nothing is told before. -/
def CanBeFound (r : R) : Prop :=
  ∃ b v u, Trail T.toSearch.effect uses start b v ∧ (∀ x ∈ b, ∀ u ∈ uses x, T.tells x u = none) ∧
    u ∈ uses v ∧ T.tells v u = some r

omit [DecidableEq V] in
theorem not_lateMark : ¬LateMark T.toSearch.effect uses start := by
  rintro ⟨b, v, w, s, v', u, u', -, -, heffect, -⟩
  rcases effect_toSearch T v u with h | ⟨x, h⟩
  · rw [h] at heffect
    cases heffect
  · rw [h] at heffect
    cases heffect

variable {uses start} {order : V → List U} (hperm : ∀ v, (order v).Perm (uses v))

omit [DecidableEq V] in
/-- What is known first is told by a use. -/
theorem exists_of_foldl_or (v : V) {us : List U} {r : R}
    (h : us.foldl (fun a u => T.toSearch.emit v u a) none = some r) :
    ∃ u ∈ us, T.tells v u = some r := by
  induction us with
  | nil => cases h
  | cons u us ih =>
    rw [List.foldl_cons] at h
    cases htells : T.tells v u with
    | none =>
      have hnone : T.toSearch.emit v u none = none := htells
      rw [hnone] at h
      obtain ⟨u', hu', htells'⟩ := ih h
      exact ⟨u', List.mem_cons_of_mem u hu', htells'⟩
    | some r' =>
      have hsome : T.toSearch.emit v u none = some r' := htells
      have hkeep : ∀ us : List U,
          us.foldl (fun a u => T.toSearch.emit v u a) (some r') = some r' := by
        intro us
        induction us with
        | nil => rfl
        | cons u us ih => exact ih
      rw [hsome, hkeep] at h
      exact ⟨u, List.mem_cons_self, htells.trans h⟩

omit [DecidableEq V] in
/-- A use that tells something leaves something told. -/
theorem isSome_emit (v : V) (u : U) (a : Option R) (_ : Unit) :
    (T.toSearch.emit v u a).isSome = true ↔ a.isSome = true ∨ (T.tells v u).isSome = true := by
  simp [Telling.toSearch]

include hperm

/-- What is found in some number of rounds can be found.

**Proof sketch.** By induction on the rounds. Where it is found all vertices visited before are
silent, and some of them are a trail to the vertex that is visited. -/
theorem canBeFound_of_iterate (n : ℕ) {r : R}
    (h : ((step T.toSearch order)^[n] (init start none)).out = some r) :
    CanBeFound T uses start r := by
  induction n with
  | zero => cases h
  | succ n ih =>
    cases hout : ((step T.toSearch order)^[n] (init start none)).out with
    | some r' =>
      rw [Function.iterate_succ_apply', step_out_some T order hout] at h
      exact ih (hout.trans h)
    | none =>
      have hinv := invariant_iterate T.toSearch hperm start none n
      have hon := onTime_iterate T.toSearch hperm start none (not_lateMark T uses start) n
      rw [Function.iterate_succ_apply'] at h
      rcases step_cases T.toSearch order ((step T.toSearch order)^[n] (init start none)) with
        ⟨-, heq⟩ | ⟨v, rest, -, -, heq⟩ | ⟨v, rest, hwork, hv, heq⟩
      · rw [heq, hout] at h
        cases h
      · rw [heq, hout] at h
        cases h
      · rw [heq, foldl_out, hout] at h
        obtain ⟨u, hu, htells⟩ := exists_of_foldl_or T v h
        obtain ⟨b, hsub, htrail⟩ := (hon.trail v (hwork ▸ List.mem_cons_self)).resolve_left hv
        refine ⟨b, v, u, htrail, ?_, (hperm v).mem_iff.mp hu, htells⟩
        intro x hx u' hu'
        by_contra htold
        have hsome := (mem_foldl_emit (M := fun (a : Option R) (_ : Unit) => a.isSome = true)
          T.toSearch (isSome_emit T) _ none ()).mpr (Or.inr ⟨(x, u'),
            mem_pairs.mpr ⟨List.mem_reverse.mpr (hsub hx), (hperm x).mem_iff.mpr hu'⟩,
            Option.isSome_iff_ne_none.mpr htold⟩)
        rw [← hinv.out, hout] at hsome
        cases hsome

variable [Fintype V]

/-- What a search finds can be found. -/
theorem canBeFound_of_search {r : R} (h : search T order start = some r) :
    CanBeFound T uses start r := by
  unfold search at h
  rw [searchFrom_eq_out T order _ _ _ []] at h
  exact canBeFound_of_iterate T hperm _ h

/-- **Whether anything is found does not depend on the order.** -/
theorem isSome_search_iff :
    (search T order start).isSome = true ↔ ∃ r, CanBeFound T uses start r := by
  constructor
  · intro h
    obtain ⟨r, hr⟩ := Option.isSome_iff_exists.mp h
    exact ⟨r, canBeFound_of_search T hperm hr⟩
  · rintro ⟨r, b, v, u, htrail, -, hu, htells⟩
    unfold search
    rw [searchFrom_eq_out T order _ _ _ []]
    refine (mem_out_run (M := fun (a : Option R) (_ : Unit) => a.isSome = true) T.toSearch hperm
      start none (isSome_emit T) ()).mpr (Or.inr ⟨v, ?_, u, hu, ?_⟩)
    · exact (mem_visited_run_iff T.toSearch hperm start none (not_lateMark T uses start)).mpr
        htrail.tracked.1
    · rw [htells]
      rfl

end Found

/-- **What can be found is found in some order.**

**Proof sketch.** The trail is the beginning of a run, in which nothing is told, and then the use is
looked at first. -/
theorem exists_search_eq [Fintype V] {uses : V → List U} {start : V} {r : R}
    (h : CanBeFound T uses start r) :
    ∃ order : V → List U, (∀ x, (order x).Perm (uses x)) ∧ search T order start = some r := by
  obtain ⟨b, v, u, htrail, hsilent, hu, htells⟩ := h
  obtain ⟨order, hperm, n, hrun⟩ := exists_order_of_trail T.toSearch start none htrail
  obtain ⟨us₁, us₂, huses⟩ := List.append_of_mem hu
  let order' : V → List U := Function.update order v (u :: (us₁ ++ us₂))
  have hperm' : ∀ x, (order' x).Perm (uses x) := by
    intro x
    by_cases hx : x = v
    · subst hx
      simp only [order', Function.update_self, huses]
      exact List.perm_middle.symm
    · simp only [order', Function.update_of_ne hx]
      exact hperm x
  obtain ⟨rest, slots, out, heq⟩ := hrun order' hperm' fun x hx => by
    have hxv : x ≠ v := fun h => htrail.notMem (h ▸ hx)
    exact Function.update_of_ne hxv _ _
  -- nothing is told on the trail
  have hout : out = none := by
    have hinv := (invariant_iterate T.toSearch hperm' start none n).out
    rw [heq] at hinv
    have hnot := mt (mem_foldl_emit (M := fun (a : Option R) (_ : Unit) => a.isSome = true)
      T.toSearch (isSome_emit T) _ none ()).mp (by
        rintro (h | ⟨⟨x, u'⟩, hp, htold⟩)
        · cases h
        · obtain ⟨hx, hu'⟩ := mem_pairs.mp hp
          rw [hsilent x (List.mem_reverse.mp hx) u' ((hperm' x).mem_iff.mp hu')] at htold
          cases htold)
    rw [← hinv] at hnot
    exact Option.not_isSome_iff_eq_none.mp hnot
  have hfound : ((step T.toSearch order')^[n + 1] (init start none)).out = some r := by
    rw [Function.iterate_succ_apply', heq, step_of_notMem T.toSearch order' htrail.notMem]
    simp only [order', Function.update_self, List.foldl_cons]
    refine foldl_out_some T v _ ?_
    simp [applyUse, Telling.toSearch, htells, hout]
  refine ⟨order', hperm', ?_⟩
  have hsome := (isSome_search_iff T hperm').mpr ⟨r, b, v, u, htrail, hsilent, hu, htells⟩
  obtain ⟨r', hr'⟩ := Option.isSome_iff_exists.mp hsome
  have hlast : ((step T.toSearch order')^[rounds order'] (init start none)).out = some r' := by
    unfold search at hr'
    rw [searchFrom_eq_out T order' _ _ _ []] at hr'
    exact hr'
  -- both are told in a run that is long enough
  have hlong := iterate_out_some T order' (rounds order') hfound
  have hlong' := iterate_out_some T order' (n + 1) hlast
  rw [← Function.iterate_add_apply] at hlong hlong'
  rw [add_comm, hlong'] at hlong
  rw [hr', hlong]

end FirstFound
