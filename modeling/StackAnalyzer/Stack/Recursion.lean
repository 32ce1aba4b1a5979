import StackAnalyzer.Graph.TarjanInv
import StackAnalyzer.Stack.CallGraph

set_option relaxedAutoImplicit false
set_option autoImplicit false

/-!
# Recursive components

The recursive components of the call graph are the strongly connected components, of the graph
restricted to functions without the `norecurse` attribute, that have several members or a function
that calls itself.

## Main definitions

* `StackAnalyzer.RecEdge` — a call between functions without the attribute.
* `StackAnalyzer.IsRecursiveComponent` — recursive components, as sets of functions.

## Main results

* `StackAnalyzer.recursiveComponents_correct` — what `computeRecursiveComponents` and
  `computeRecursiveFunctions` return.
-/

namespace StackAnalyzer

open Graph

variable {F : Type*} [DecidableEq F] (hasNoRecurseContract : F → Bool) (CG : CallGraph F)

/-- A call between two functions without the `norecurse` attribute. -/
def RecEdge (a b : F) : Prop :=
  b ∈ CG.callees a ∧ hasNoRecurseContract a = false ∧ hasNoRecurseContract b = false

/-- `K` is the strongly connected component of a function of `nodes`, in the call graph restricted
to functions without the attribute, and has two members or one that calls itself. -/
def IsRecursiveComponent (nodes : List F) (K : Set F) : Prop :=
  (∃ v ∈ nodes, hasNoRecurseContract v = false ∧
    ∀ u, u ∈ K ↔ Relation.ReflTransGen (RecEdge hasNoRecurseContract CG) v u ∧
      Relation.ReflTransGen (RecEdge hasNoRecurseContract CG) u v) ∧
  ((∃ a ∈ K, ∃ b ∈ K, a ≠ b) ∨ ∃ a ∈ K, a ∈ CG.callees a)

/-- The edges that the search follows are the calls between functions without the attribute. -/
theorem mem_recursionCallees {a b : F} :
    b ∈ recursionCallees hasNoRecurseContract CG a ↔ RecEdge hasNoRecurseContract CG a b := by
  unfold recursionCallees RecEdge
  cases ha : hasNoRecurseContract a <;> simp

/-- Reachability in the search. -/
theorem reach_recursionCallees : Reach (recursionCallees hasNoRecurseContract CG) =
    Relation.ReflTransGen (RecEdge hasNoRecurseContract CG) := by
  unfold Reach
  congr 1
  funext a b
  exact propext (mem_recursionCallees hasNoRecurseContract CG)

/-- `hasSelfCall` on a function without the attribute. -/
theorem hasSelfCall_iff {f : F} (hf : hasNoRecurseContract f = false) :
    hasSelfCall hasNoRecurseContract CG f = true ↔ f ∈ CG.callees f := by
  simp [hasSelfCall, hf]

/-- The component popped at `p.1` is recorded. -/
def isRecorded (p : F × List F) : Bool :=
  decide (p.2.length > 1) || hasSelfCall hasNoRecurseContract CG p.1

/-- Recording all popped components keeps those that satisfy the test, in order. -/
theorem emitAll_recursiveComponents (out : List (F × List F)) (r : RecursionResult F) :
    (Tarjan.emitAll (recordRecursive hasNoRecurseContract CG) r out).recursiveComponents =
      r.recursiveComponents ++
        (out.filter (isRecorded hasNoRecurseContract CG)).map Prod.snd := by
  induction out generalizing r with
  | nil => simp [Tarjan.emitAll]
  | cons p out ih =>
    rw [Tarjan.emitAll, List.foldl_cons, ← Tarjan.emitAll, ih, List.filter_cons]
    unfold recordRecursive isRecorded
    by_cases hlen : p.2.length > 1
    · simp [hlen]
    · cases hself : hasSelfCall hasNoRecurseContract CG p.1 <;> simp [hlen]

/-- The recursive functions are the members of the recorded components. -/
theorem mem_emitAll_recursive (out : List (F × List F)) (r : RecursionResult F)
    (hout : ∀ p ∈ out, p.1 ∈ p.2) (f : F) :
    f ∈ (Tarjan.emitAll (recordRecursive hasNoRecurseContract CG) r out).recursive ↔
      f ∈ r.recursive ∨ ∃ p ∈ out, isRecorded hasNoRecurseContract CG p = true ∧ f ∈ p.2 := by
  induction out generalizing r with
  | nil => simp [Tarjan.emitAll]
  | cons p out ih =>
    have hp := hout p List.mem_cons_self
    rw [Tarjan.emitAll, List.foldl_cons, ← Tarjan.emitAll,
      ih _ fun q hq => hout q (List.mem_cons_of_mem _ hq)]
    have hstep : f ∈ (recordRecursive hasNoRecurseContract CG p.1 p.2 r).recursive ↔
        f ∈ r.recursive ∨ isRecorded hasNoRecurseContract CG p = true ∧ f ∈ p.2 := by
      unfold recordRecursive isRecorded
      by_cases hlen : p.2.length > 1
      · simp [hlen]
      · -- a component of one member is its root
        have hroot : p.2 = [p.1] := by
          obtain ⟨a, ha⟩ := List.length_eq_one_iff.mp
            (Nat.le_antisymm (Nat.not_lt.mp hlen) (List.length_pos_of_mem hp))
          rw [ha, List.mem_singleton] at hp
          rw [ha, hp]
        cases hself : hasSelfCall hasNoRecurseContract CG p.1 <;> simp [hroot, or_comm]
    rw [hstep]
    simp only [List.mem_cons, exists_eq_or_imp, or_assoc]

section Correctness

variable {nodes : List F} {out : List (F × List F)}

/-- The recorded run of the loop over the nodes. -/
theorem exists_components (nodes : List F) :
    ∃ out : List (F × List F), Tarjan.Components (recursionCallees hasNoRecurseContract CG)
        (nodes.filter fun V => !hasNoRecurseContract V) out ∧
      runTarjan hasNoRecurseContract CG nodes =
        Tarjan.emitAll (recordRecursive hasNoRecurseContract CG) ⟨∅, []⟩ out := by
  have hclosed : Closed (recursionCallees hasNoRecurseContract CG) (nodes ++ CG.functions) :=
    fun u hu v hv => CG.closed_functions nodes u hu v
      ((mem_recursionCallees hasNoRecurseContract CG).mp hv).1
  refine ⟨_, Tarjan.run_spec hclosed (Nat.lt_succ_self _) fun v hv =>
    List.mem_append_left _ (List.mem_filter.mp hv).1, Tarjan.run_out _ _ _ _ _⟩

variable {hasNoRecurseContract CG}
  (hclosed : Closed CG.callees nodes)
  (hout : Tarjan.Components (recursionCallees hasNoRecurseContract CG)
    (nodes.filter fun V => !hasNoRecurseContract V) out)
include hclosed hout

/-- The components partition the nodes without the attribute. -/
theorem mem_component_iff (f : F) :
    (∃ p ∈ out, f ∈ p.2) ↔ f ∈ nodes ∧ hasNoRecurseContract f = false := by
  rw [hout.cover f]
  refine ⟨?_, fun ⟨hf, hn⟩ => ⟨f, List.mem_filter.mpr ⟨hf, by simp [hn]⟩, Reach.refl f⟩⟩
  rintro ⟨r, hr, hrf⟩
  refine hrf.mem_of_closed (P := fun x => x ∈ nodes ∧ hasNoRecurseContract x = false)
    (fun u hu v hv => ?_) (by simpa using hr)
  obtain ⟨hv, -, hn⟩ := (mem_recursionCallees hasNoRecurseContract CG).mp hv
  exact ⟨hclosed u hu.1 v hv, hn⟩

/-- The recorded components are those with two members or one that calls itself. -/
theorem isRecorded_iff {p : F × List F} (hp : p ∈ out) :
    isRecorded hasNoRecurseContract CG p = true ↔
      (∃ a ∈ p.2, ∃ b ∈ p.2, a ≠ b) ∨ ∃ a ∈ p.2, a ∈ CG.callees a := by
  obtain ⟨hnd, hroot, -⟩ := hout.sccs p hp
  have hn : hasNoRecurseContract p.1 = false :=
    ((mem_component_iff hclosed hout p.1).mp ⟨p, hp, hroot⟩).2
  unfold isRecorded
  rw [Bool.or_eq_true, decide_eq_true_eq, hasSelfCall_iff hasNoRecurseContract CG hn]
  have hpair : p.2.length > 1 ↔ ∃ a ∈ p.2, ∃ b ∈ p.2, a ≠ b := by
    rw [gt_iff_lt, ← List.toFinset_card_of_nodup hnd, Finset.one_lt_card]
    simp only [List.mem_toFinset]
  rw [hpair]
  refine or_congr_right' fun hone => ⟨fun h => ⟨p.1, hroot, h⟩, ?_⟩
  rintro ⟨a, ha, hself⟩
  obtain rfl : a = p.1 := by
    by_contra hne
    exact hone ⟨a, ha, p.1, hroot, hne⟩
  exact hself

/-- A member of a component lies in a recorded one exactly when a call path leads back to it. -/
theorem isRecorded_iff_transGen {p : F × List F} (hp : p ∈ out) {f : F} (hf : f ∈ p.2) :
    isRecorded hasNoRecurseContract CG p = true ↔
      Relation.TransGen (RecEdge hasNoRecurseContract CG) f f := by
  have hn : ∀ {x}, x ∈ p.2 → hasNoRecurseContract x = false := fun {x} hx =>
    ((mem_component_iff hclosed hout x).mp ⟨p, hp, hx⟩).2
  have hscc : ∀ {x y}, x ∈ p.2 → y ∈ p.2 →
      Relation.ReflTransGen (RecEdge hasNoRecurseContract CG) x y := fun {x y} hx hy => by
    have hx' := ((hout.sccs p hp).2.2 x).mp hx
    have hy' := ((hout.sccs p hp).2.2 y).mp hy
    rw [← reach_recursionCallees]
    exact hx'.2.trans hy'.1
  rw [isRecorded_iff hclosed hout hp]
  refine ⟨?_, fun h => ?_⟩
  · rintro (⟨a, ha, b, hb, hab⟩ | ⟨a, ha, hself⟩)
    · -- one of the two differs from `f`
      obtain ⟨c, hc, hcf⟩ : ∃ c ∈ p.2, c ≠ f := by
        by_cases h : a = f
        · exact ⟨b, hb, fun h' => hab (h.trans h'.symm)⟩
        · exact ⟨a, ha, h⟩
      rcases Relation.reflTransGen_iff_eq_or_transGen.mp (hscc hf hc) with h | h
      · exact absurd h hcf
      · exact h.trans_left (hscc hc hf)
    · exact Relation.TransGen.trans_left
        (Relation.TransGen.tail' (hscc hf ha) ⟨hself, hn ha, hn ha⟩) (hscc ha hf)
  · obtain ⟨w, hfw, hwf⟩ := Relation.TransGen.head'_iff.mp h
    by_cases hw : w = f
    · exact Or.inr ⟨f, hf, hw ▸ hfw.1⟩
    · refine Or.inl ⟨w, ?_, f, hf, hw⟩
      rw [(hout.sccs p hp).2.2 w]
      have hf' := ((hout.sccs p hp).2.2 f).mp hf
      refine hf'.trans ⟨Reach.edge ((mem_recursionCallees hasNoRecurseContract CG).mpr hfw), ?_⟩
      rw [reach_recursionCallees]
      exact hwf

/-- The members of the recorded components are the nodes that a call path leads back to. -/
theorem exists_recorded_iff (f : F) :
    (∃ p ∈ out, isRecorded hasNoRecurseContract CG p = true ∧ f ∈ p.2) ↔
      f ∈ nodes ∧ Relation.TransGen (RecEdge hasNoRecurseContract CG) f f := by
  refine ⟨?_, fun ⟨hf, hcyc⟩ => ?_⟩
  · rintro ⟨p, hp, hrec, hf⟩
    exact ⟨((mem_component_iff hclosed hout f).mp ⟨p, hp, hf⟩).1,
      (isRecorded_iff_transGen hclosed hout hp hf).mp hrec⟩
  · obtain ⟨w, hfw, -⟩ := Relation.TransGen.head'_iff.mp hcyc
    obtain ⟨p, hp, hfp⟩ := (mem_component_iff hclosed hout f).mpr ⟨hf, hfw.2.1⟩
    exact ⟨p, hp, (isRecorded_iff_transGen hclosed hout hp hfp).mpr hcyc, hfp⟩

/-- The recorded components, as sets, are the recursive components. -/
theorem recorded_iff_isRecursiveComponent (K : Set F) :
    (∃ p ∈ out, isRecorded hasNoRecurseContract CG p = true ∧ K = {u | u ∈ p.2}) ↔
      IsRecursiveComponent hasNoRecurseContract CG nodes K := by
  have hscc : ∀ {p} (_ : p ∈ out) {v} (_ : v ∈ p.2) (u : F), u ∈ p.2 ↔
      Relation.ReflTransGen (RecEdge hasNoRecurseContract CG) v u ∧
        Relation.ReflTransGen (RecEdge hasNoRecurseContract CG) u v := fun {p} hp {v} hv u => by
    rw [← reach_recursionCallees, (hout.sccs p hp).2.2 u]
    have hv' := ((hout.sccs p hp).2.2 v).mp hv
    exact ⟨fun h => hv'.symm.trans h, fun h => hv'.trans h⟩
  refine ⟨?_, ?_⟩
  · rintro ⟨p, hp, hrec, rfl⟩
    have hroot := (hout.sccs p hp).2.1
    obtain ⟨hn, ha⟩ := (mem_component_iff hclosed hout p.1).mp ⟨p, hp, hroot⟩
    exact ⟨⟨p.1, hn, ha, hscc hp hroot⟩, (isRecorded_iff hclosed hout hp).mp hrec⟩
  · rintro ⟨⟨v, hv, ha, hK⟩, hrec⟩
    obtain ⟨p, hp, hvp⟩ := (mem_component_iff hclosed hout v).mpr ⟨hv, ha⟩
    have hKp : K = {u | u ∈ p.2} := Set.ext fun u => (hK u).trans (hscc hp hvp u).symm
    refine ⟨p, hp, (isRecorded_iff hclosed hout hp).mpr ?_, hKp⟩
    rwa [hKp] at hrec

end Correctness

/-- The recursive functions of a node list closed under calls. -/
theorem mem_computeRecursiveFunctions {nodes : List F} (hclosed : Closed CG.callees nodes) (f : F) :
    f ∈ computeRecursiveFunctions hasNoRecurseContract CG nodes ↔
      f ∈ nodes ∧ Relation.TransGen (RecEdge hasNoRecurseContract CG) f f := by
  obtain ⟨out, hout, hrun⟩ := exists_components hasNoRecurseContract CG nodes
  rw [computeRecursiveFunctions, hrun, mem_emitAll_recursive _ _ _ _
    (fun p hp => (hout.sccs p hp).2.1), ← exists_recorded_iff hclosed hout f]
  simp

/-- **The recursive components**: on a node list closed under calls, the computed components are
duplicate-free and pairwise disjoint, and as sets they are exactly the recursive components of the
nodes. The recursive functions are their members, which are the functions that a non-empty call
path through functions without the `norecurse` attribute leads back to.

**Proof sketch.** Tarjan's algorithm pops exactly the strongly connected components of the
restricted graph; which of them are recorded is decided from the component and its root alone. -/
theorem recursiveComponents_correct (nodes : List F) (hclosed : Closed CG.callees nodes) :
    let components := computeRecursiveComponents hasNoRecurseContract CG nodes
    components.Nodup ∧ (∀ C ∈ components, C.Nodup) ∧ components.Pairwise List.Disjoint ∧
    (∀ K : Set F, (∃ C ∈ components, K = {u | u ∈ C}) ↔
      IsRecursiveComponent hasNoRecurseContract CG nodes K) ∧
    ∀ LocalStack : PtrMap F LocalStackInfo, (∀ f, f ∈ LocalStack.keys ↔ f ∈ nodes) →
      ∀ f, (f ∈ (computeGlobalStackUsage hasNoRecurseContract CG LocalStack).RecursiveFuncs ↔
          ∃ C ∈ components, f ∈ C) ∧
        (f ∈ (computeGlobalStackUsage hasNoRecurseContract CG LocalStack).RecursiveFuncs ↔
          f ∈ nodes ∧ Relation.TransGen (RecEdge hasNoRecurseContract CG) f f) := by
  intro components
  obtain ⟨out, hout, hrun⟩ := exists_components hasNoRecurseContract CG nodes
  have hcomp : components = (out.filter (isRecorded hasNoRecurseContract CG)).map Prod.snd := by
    change (runTarjan hasNoRecurseContract CG nodes).recursiveComponents = _
    rw [hrun, emitAll_recursiveComponents, List.nil_append]
  have hmem : ∀ C, C ∈ components ↔
      ∃ p ∈ out, isRecorded hasNoRecurseContract CG p = true ∧ C = p.2 := fun C => by
    rw [hcomp]
    simp only [List.mem_map, List.mem_filter, and_assoc, eq_comm]
  have hdisjoint : components.Pairwise List.Disjoint := by
    rw [hcomp, List.pairwise_map]
    exact (hout.pairwise.imp fun h u hu hu' => (h u hu).1 hu').filter _
  have hex : ∀ f, (∃ C ∈ components, f ∈ C) ↔
      f ∈ nodes ∧ Relation.TransGen (RecEdge hasNoRecurseContract CG) f f := fun f => by
    rw [← exists_recorded_iff hclosed hout f]
    constructor
    · rintro ⟨C, hC, hf⟩
      obtain ⟨p, hp, hrec, rfl⟩ := (hmem C).mp hC
      exact ⟨p, hp, hrec, hf⟩
    · rintro ⟨p, hp, hrec, hf⟩
      exact ⟨p.2, (hmem p.2).mpr ⟨p, hp, hrec, rfl⟩, hf⟩
  refine ⟨hdisjoint.imp_of_mem fun {C D} hC _ hCD h => ?_, fun C hC => ?_, hdisjoint,
    fun K => ?_, fun LocalStack hkeys f => ?_⟩
  · -- components have a member, so disjoint ones differ
    obtain ⟨p, hp, -, rfl⟩ := (hmem C).mp hC
    exact hCD (hout.sccs p hp).2.1 (h ▸ (hout.sccs p hp).2.1)
  · obtain ⟨p, hp, -, rfl⟩ := (hmem C).mp hC
    exact (hout.sccs p hp).1
  · rw [← recorded_iff_isRecursiveComponent hclosed hout K]
    constructor
    · rintro ⟨C, hC, rfl⟩
      obtain ⟨p, hp, hrec, rfl⟩ := (hmem C).mp hC
      exact ⟨p, hp, hrec, rfl⟩
    · rintro ⟨p, hp, hrec, rfl⟩
      exact ⟨p.2, (hmem p.2).mpr ⟨p, hp, hrec, rfl⟩, rfl⟩
  · have hclosed' : Closed CG.callees LocalStack.keys := fun u hu v hv =>
      (hkeys v).mpr (hclosed u ((hkeys u).mp hu) v hv)
    have hrec := mem_computeRecursiveFunctions hasNoRecurseContract CG hclosed' f
    rw [hkeys f] at hrec
    exact ⟨hrec.trans (hex f).symm, hrec⟩

/-- The theorem at two functions that call each other and call a third one, which calls itself
but has the `norecurse` attribute. -/
theorem recursiveComponents_correct_pair :
    (computeRecursiveComponents (fun f : Fin 3 => decide (f = 2))
      ⟨[(0, [1, 2]), (1, [0]), (2, [2])], by decide⟩ [0, 1, 2]).Pairwise List.Disjoint ∧
    computeRecursiveComponents (fun f : Fin 3 => decide (f = 2))
      ⟨[(0, [1, 2]), (1, [0]), (2, [2])], by decide⟩ [0, 1, 2] = [[1, 0]] :=
  ⟨(recursiveComponents_correct _ ⟨[(0, [1, 2]), (1, [0]), (2, [2])], by decide⟩ [0, 1, 2]
    (by unfold Closed; decide)).2.2.1, rfl⟩

end StackAnalyzer
