import StackAnalyzer.Graph.Cfg
import StackAnalyzer.Graph.Worklist

set_option relaxedAutoImplicit false
set_option autoImplicit false

/-!
# Dominators

A vertex dominates another one if every path from the entry to the other one leads through it.
Whether that is so can be computed: without the edges of the first vertex, the second one must be
out of reach.

## Main definitions

* `Graph.avoiding` — the edges that do not leave a vertex.
* `Graph.dominates` — whether a vertex dominates another one, as LLVM has it: what is out of reach
  is dominated by all vertices, and dominates none but itself.
* `Graph.Precedes` — every path from the entry to a vertex leaves another one before.

## Main results

* `Graph.dominates_iff` — dominators in terms of paths.
* `Graph.Precedes.not_reach` — no path leads back from a vertex to what lies behind another one
  without passing that one.
* `Graph.Cfg.TraceTo.passes_or_avoids` — a path to a block executes another one, or avoids it.
* `Graph.Cfg.TraceTo.passes_dominator` — a path to a block executes each other block that dominates
  it.
-/

namespace Graph

variable {V : Type*} [DecidableEq V]

/-- The edges that do not leave a vertex. -/
def avoiding (succ : V → List V) (a v : V) : List V := if v = a then [] else succ v

/-- **Dominators.** -/
def dominates (succ : V → List V) (fuel : ℕ) (entry a b : V) : Bool :=
  decide (a = b) || !reachFrom succ fuel entry b ||
    (reachFrom succ fuel entry a && !reachFrom (avoiding succ a) fuel entry b)

/-- Other vertices keep their edges. -/
theorem mem_avoiding {succ : V → List V} {a v w : V} (hv : v ≠ a) (hw : w ∈ succ v) :
    w ∈ avoiding succ a v := by
  rwa [avoiding, if_neg hv]

/-- What is closed stays so with fewer edges. -/
theorem closed_avoiding {succ : V → List V} {U : List V} (hU : Closed succ U) (a : V) :
    Closed (avoiding succ a) U := by
  intro u hu v hv
  unfold avoiding at hv
  split_ifs at hv
  · exact absurd hv List.not_mem_nil
  · exact hU u hu v hv

/-- **Dominators in terms of paths.** -/
theorem dominates_iff {succ : V → List V} {U : List V} (hU : Closed succ U) {entry : V}
    (hentry : entry ∈ U) {fuel : ℕ} (hfuel : U.length < fuel) (a b : V) :
    dominates succ fuel entry a b = true ↔
      a = b ∨ ¬ Reach succ entry b ∨
        Reach succ entry a ∧ ¬ Reach (avoiding succ a) entry b := by
  have hreach := reachFrom_iff hU hentry hfuel
  have havoiding := reachFrom_iff (closed_avoiding hU a) hentry hfuel b
  rw [dominates, Bool.or_eq_true, Bool.or_eq_true, Bool.and_eq_true, decide_eq_true_eq,
    Bool.not_eq_true', Bool.not_eq_true', ← Bool.not_eq_true, ← Bool.not_eq_true, hreach, hreach,
    havoiding, or_assoc]

/-! ## What comes before on every path -/

section Precedes

/-- Every path from the entry to `b` leaves `a` before. -/
def Precedes (succ : V → List V) (entry a b : V) : Prop := ¬ Reach (avoiding succ a) entry b

variable {succ : V → List V} {entry a b c : V}

/-- An edge that does not leave a vertex. -/
theorem edge_avoiding (hedge : Edge succ b c) (hne : b ≠ a) : Edge (avoiding succ a) b c :=
  mem_avoiding hne hedge

/-- Edges that do not leave a vertex are edges. -/
theorem edge_of_avoiding (hedge : Edge (avoiding succ a) b c) : b ≠ a ∧ Edge succ b c := by
  unfold Edge avoiding at hedge
  split_ifs at hedge with hb
  · exact absurd hedge List.not_mem_nil
  · exact ⟨hb, hedge⟩

/-- A path that avoids one vertex avoids another one too, or leads to that one. -/
theorem reach_avoiding_or (h : Reach (avoiding succ a) entry c) (b : V) :
    Reach (avoiding succ b) entry c ∨ Reach (avoiding succ a) entry b := by
  induction h with
  | refl => exact Or.inl (Reach.refl _)
  | @tail x y hpath hedge ih =>
    rcases ih with havoids | hpasses
    · by_cases hx : x = b
      · subst hx
        exact Or.inr hpath
      · exact Or.inl (havoids.tail (edge_avoiding (edge_of_avoiding hedge).2 hx))
    · exact Or.inr hpasses

/-- A path leads to a vertex, or to another one without leaving the first. -/
theorem reach_avoiding_of_reach (h : Reach succ entry c) (a : V) :
    Reach (avoiding succ a) entry c ∨ Reach (avoiding succ a) entry a := by
  induction h with
  | refl => exact Or.inl (Reach.refl _)
  | @tail x y _ hedge ih =>
    rcases ih with havoids | hpasses
    · by_cases hx : x = a
      · subst hx
        exact Or.inr havoids
      · exact Or.inl (havoids.tail (edge_avoiding hedge hx))
    · exact Or.inr hpasses

/-- A vertex that can be reached does not come before itself. -/
theorem not_precedes_self (h : Reach succ entry a) : ¬ Precedes succ entry a a := by
  intro hself
  rcases reach_avoiding_of_reach h a with hreach | hreach
  · exact hself hreach
  · exact hself hreach

/-- What comes before a vertex can be reached without leaving that one. -/
theorem Precedes.reach_avoiding (h : Precedes succ entry a b) (hreach : Reach succ entry a) :
    Reach (avoiding succ b) entry a := by
  rcases reach_avoiding_of_reach hreach b with ha | hb
  · exact ha
  · exact (reach_avoiding_or hb a).resolve_left h

/-- Of two vertices that can be reached, one comes before the other at most. -/
theorem Precedes.asymm (h : Precedes succ entry a b) (hreach : Reach succ entry a) :
    ¬ Precedes succ entry b a :=
  fun hback => hback (h.reach_avoiding hreach)

/-- What comes before comes before what is behind. -/
theorem Precedes.trans (hab : Precedes succ entry a b) (hbc : Precedes succ entry b c) :
    Precedes succ entry a c := by
  intro hpath
  rcases reach_avoiding_or hpath b with havoids | hpasses
  · exact hbc havoids
  · exact hab hpasses

/-- What comes before the end of an edge comes before its beginning, or is it. -/
theorem Precedes.of_edge (h : Precedes succ entry a c) (hedge : Edge succ b c) (hne : b ≠ a) :
    Precedes succ entry a b :=
  fun hpath => h (hpath.tail (edge_avoiding hedge hne))

/-- **No path leads back** from what comes before a vertex to what lies behind it, without leaving
this vertex again. -/
theorem Precedes.not_reach (hab : Precedes succ entry a b) (hbc : Precedes succ entry b c)
    (hreach : Reach succ entry a) : ¬ Reach (avoiding succ b) a c :=
  fun hpath => hbc ((hab.reach_avoiding hreach).trans hpath)

end Precedes

namespace Cfg

variable {B I : Type*} [DecidableEq B] {g : Cfg B I} {pass : B → B → List I}

omit [DecidableEq B] in
/-- A block that a path arrives at is in reach. -/
theorem TraceTo.reach {b : B} {t : List I} (h : g.TraceTo pass b t) : Reach g.succ g.entry b := by
  induction h with
  | entry => exact Reach.refl _
  | step _ hedge ih => exact ih.tail hedge

/-- **A path to a block executes another one, or avoids it.** -/
theorem TraceTo.passes_or_avoids (a : B) {b : B} {t : List I} (h : g.TraceTo pass b t) :
    (∃ c, pass a c ⊆ t) ∨ Reach (avoiding g.succ a) g.entry b := by
  induction h with
  | entry => exact Or.inr (Reach.refl _)
  | @step b c t _ hedge ih =>
    rcases ih with ⟨c', hpass⟩ | havoids
    · exact Or.inl ⟨c', fun i hi => List.mem_append_left _ (hpass hi)⟩
    · by_cases hb : b = a
      · subst hb
        exact Or.inl ⟨c, List.subset_append_right t _⟩
      · exact Or.inr (havoids.tail (mem_avoiding hb hedge))

/-- **A path to a block executes each other block that dominates it.** -/
theorem TraceTo.passes_dominator {a b : B} {t : List I} {U : List B} {fuel : ℕ}
    (h : g.TraceTo pass b t) (hU : Closed g.succ U) (hentry : g.entry ∈ U)
    (hfuel : U.length < fuel) (hdom : dominates g.succ fuel g.entry a b = true) (hne : a ≠ b) :
    ∃ c, pass a c ⊆ t := by
  rcases (dominates_iff hU hentry hfuel a b).mp hdom with heq | hunreached | ⟨-, havoids⟩
  · exact absurd heq hne
  · exact absurd h.reach hunreached
  · exact (h.passes_or_avoids a).resolve_right havoids

end Cfg

end Graph
