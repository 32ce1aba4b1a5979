import Mathlib

set_option relaxedAutoImplicit false
set_option autoImplicit false

/-!
# Reachability in finitely branching graphs

A graph is given by its successor lists `succ : V → List V`, as call graphs and module graphs
are stored. This file fixes the edge relation, reachability, mutual reachability, and the two
counting tools every depth-first search over such a graph needs: sets of vertices closed under
`succ`, and the number of vertices of a list that a search has not seen yet.

## Main definitions

* `Graph.Edge`, `Graph.Reach`, `Graph.SameSCC` — edges, reachability, mutual reachability.
* `Graph.Closed` — a vertex list closed under successors.
* `Graph.unseen` — how many vertices of a list are not seen.

## Main results

* `Graph.Reach.mem_of_closed` — a closed set contains what its members reach.
* `Graph.Reach.exit` — a path from inside a set to outside crosses an edge that leaves it.
* `Graph.unseen_lt` — seeing one more vertex lowers the count.
-/

namespace Graph

variable {V : Type*}

/-- There is an edge from `u` to each member of its successor list. -/
def Edge (succ : V → List V) (u v : V) : Prop := v ∈ succ u

/-- Reachability by zero or more edges. -/
def Reach (succ : V → List V) : V → V → Prop := Relation.ReflTransGen (Edge succ)

/-- Mutual reachability: `u` and `v` lie in one strongly connected component. -/
def SameSCC (succ : V → List V) (u v : V) : Prop := Reach succ u v ∧ Reach succ v u

/-- The vertex list `U` contains the successors of its members. -/
def Closed (succ : V → List V) (U : List V) : Prop := ∀ u ∈ U, ∀ v ∈ succ u, v ∈ U

variable {succ : V → List V}

namespace Reach

/-- Every vertex reaches itself. -/
theorem refl (u : V) : Reach succ u u := Relation.ReflTransGen.refl

/-- Reachability is transitive. -/
theorem trans {u v w : V} (h : Reach succ u v) (h' : Reach succ v w) : Reach succ u w :=
  Relation.ReflTransGen.trans h h'

/-- An edge is a path. -/
theorem edge {u v : V} (h : v ∈ succ u) : Reach succ u v := Relation.ReflTransGen.single h

/-- An edge in front of a path. -/
theorem head {u v w : V} (h : v ∈ succ u) (h' : Reach succ v w) : Reach succ u w :=
  Relation.ReflTransGen.head h h'

/-- An edge behind a path. -/
theorem tail {u v w : V} (h : Reach succ u v) (h' : w ∈ succ v) : Reach succ u w :=
  Relation.ReflTransGen.tail h h'

/-- A set closed under successors contains everything its members reach. -/
theorem mem_of_closed {P : V → Prop} (hP : ∀ u, P u → ∀ v ∈ succ u, P v) {u v : V}
    (h : Reach succ u v) (hu : P u) : P v := by
  induction h with
  | refl => exact hu
  | tail _ hbc ih => exact hP _ ih _ hbc

/-- A path from inside a set to outside of it crosses an edge that leaves the set. -/
theorem exit {P : V → Prop} {u v : V} (h : Reach succ u v) (hu : P u) (hv : ¬ P v) :
    ∃ a b, P a ∧ ¬ P b ∧ b ∈ succ a ∧ Reach succ u a ∧ Reach succ b v := by
  induction h with
  | refl => exact absurd hu hv
  | @tail b c hab hbc ih =>
    by_cases hb : P b
    · exact ⟨b, c, hb, hv, hbc, hab, refl c⟩
    · obtain ⟨a, d, ha, hd, had, hua, hdb⟩ := ih hb
      exact ⟨a, d, ha, hd, had, hua, hdb.tail hbc⟩

/-- A path either is empty or starts with an edge. -/
theorem cases_head {u v : V} (h : Reach succ u v) : u = v ∨ ∃ w ∈ succ u, Reach succ w v := by
  rcases Relation.ReflTransGen.cases_head h with h | ⟨w, hw, h⟩
  · exact Or.inl h
  · exact Or.inr ⟨w, hw, h⟩

end Reach

namespace SameSCC

/-- Every vertex shares a component with itself. -/
theorem refl (u : V) : SameSCC succ u u := ⟨Reach.refl u, Reach.refl u⟩

/-- Sharing a component is symmetric. -/
theorem symm {u v : V} (h : SameSCC succ u v) : SameSCC succ v u := ⟨h.2, h.1⟩

/-- Sharing a component is transitive. -/
theorem trans {u v w : V} (h : SameSCC succ u v) (h' : SameSCC succ v w) : SameSCC succ u w :=
  ⟨h.1.trans h'.1, h'.2.trans h.2⟩

end SameSCC

/-! ## Counting what a search has not seen -/

/-- The number of vertices of `U` that are not seen. -/
def unseen (U : List V) (seen : V → Bool) : ℕ := (U.filter fun v => !seen v).length

/-- Seeing more vertices does not raise the count. -/
theorem unseen_mono {U : List V} {seen seen' : V → Bool}
    (h : ∀ v, seen v = true → seen' v = true) : unseen U seen' ≤ unseen U seen := by
  unfold unseen
  refine List.Sublist.length_le (List.monotone_filter_right U fun v hv => ?_)
  cases hs : seen v
  · rfl
  · simp [h v hs] at hv

/-- Seeing a new vertex of `U` lowers the count. -/
theorem unseen_lt {U : List V} {seen seen' : V → Bool} {v : V}
    (h : ∀ u, seen u = true → seen' u = true) (hv : v ∈ U) (hn : seen v = false)
    (hv' : seen' v = true) : unseen U seen' < unseen U seen := by
  induction U with
  | nil => simp at hv
  | cons a U ih =>
    have hle : unseen U seen' ≤ unseen U seen := unseen_mono h
    simp only [unseen] at hle ih ⊢
    rcases List.mem_cons.mp hv with rfl | hv
    · simp only [List.filter_cons, hn, hv', Bool.not_true, Bool.not_false, if_true,
        Bool.false_eq_true, if_false, List.length_cons]
      omega
    · have hlt := ih hv
      simp only [List.filter_cons]
      cases hs : seen a
      · cases hs' : seen' a <;> simp <;> omega
      · simp only [h a hs, Bool.not_true, Bool.false_eq_true, if_false]
        exact hlt

end Graph
