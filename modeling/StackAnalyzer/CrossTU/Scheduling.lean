import StackAnalyzer.Graph.Levels
import StackAnalyzer.Graph.TarjanInv

set_option relaxedAutoImplicit false
set_option autoImplicit false

/-!
# The order in which modules are summarised

The modules of a run and their dependencies form a graph. `ModuleTarjan` splits it into strongly
connected components, callees first, and `computeSCCLevels` gives each component a level, so that
components of one level do not depend on each other and can be processed in parallel.

## Main definitions

* `StackAnalyzer.CrossTU.ModuleEdges` — the dependencies between the modules of a run.
* `StackAnalyzer.CrossTU.computeTopologicalSCCOrder` — the components, callees first.
* `StackAnalyzer.CrossTU.computeSCCLevels` — their levels.
* `StackAnalyzer.CrossTU.DependsOn` — one component depends on another one.

## Main results

* `StackAnalyzer.CrossTU.moduleScheduling_correct` — components, order and levels are as they should
  be.
-/

namespace StackAnalyzer.CrossTU

open Graph

/-- The edges between `N` modules: for each module the members of an `unordered_set`, in the order
in which it is iterated over. -/
structure ModuleEdges (N : ℕ) where
  targets : ℕ → List ℕ
  targets_lt : ∀ v w, w ∈ targets v → w < N

variable {N : ℕ}

/-- Sort a popped component and add it to `sccs`. -/
def pushComponent (_ : ℕ) (component : List ℕ) (sccs : List (List ℕ)) : List (List ℕ) :=
  sccs ++ [component.insertionSort (· ≤ ·)]

/-- `computeTopologicalSCCOrder`: run `ModuleTarjan` on all modules. -/
def computeTopologicalSCCOrder (filteredEdges : ModuleEdges N) : List (List ℕ) :=
  (Tarjan.run filteredEdges.targets pushComponent (N + 1) (List.range N) (Tarjan.State.init [])).out

/-- `moduleToSCC`: the index of the component of each module. -/
def moduleToSCC (sccOrder : List (List ℕ)) : ℕ → ℕ :=
  (List.range sccOrder.length).foldl
    (fun map s => (sccOrder.getD s []).foldl (fun map m => Function.update map m s) map) fun _ => 0

/-- The loop over the dependencies of a module: `hasPred` and `maxPred`. -/
def scanDependencies (toSCC level : ℕ → ℕ) (s : ℕ) (deps : List ℕ) (r : Bool × ℕ) : Bool × ℕ :=
  deps.foldl (fun r dep =>
    if toSCC dep ≠ s then (true, max r.2 (level (toSCC dep))) else r) r

/-- The level of a component, from the levels so far. -/
def nextLevel (sccOrder : List (List ℕ)) (filteredEdges : ModuleEdges N) (s : ℕ)
    (level : ℕ → ℕ) : ℕ :=
  let r := (sccOrder.getD s []).foldl (fun r m =>
    scanDependencies (moduleToSCC sccOrder) level s (filteredEdges.targets m) r) (false, 0)
  if r.1 then r.2 + 1 else 0

/-- `computeSCCLevels`. -/
def computeSCCLevels (sccOrder : List (List ℕ)) (filteredEdges : ModuleEdges N) : ℕ → ℕ :=
  (List.range sccOrder.length).foldl
    (fun level s => Function.update level s (nextLevel sccOrder filteredEdges s level)) fun _ => 0

/-- The component at `s` has an edge into the other component at `t`. -/
def DependsOn (sccOrder : List (List ℕ)) (filteredEdges : ModuleEdges N) (s t : ℕ) : Prop :=
  s ≠ t ∧ ∃ C D, sccOrder[s]? = some C ∧ sccOrder[t]? = some D ∧
    ∃ m ∈ C, ∃ w ∈ filteredEdges.targets m, w ∈ D

section Components

variable (filteredEdges : ModuleEdges N)

/-- The components are those that Tarjan's algorithm records, sorted. -/
theorem exists_components : ∃ out : List (ℕ × List ℕ),
    Tarjan.Components filteredEdges.targets (List.range N) out ∧
      computeTopologicalSCCOrder filteredEdges = out.map fun p => p.2.insertionSort (· ≤ ·) := by
  have hclosed : Closed filteredEdges.targets (List.range N) := fun v _ w hw =>
    List.mem_range.mpr (filteredEdges.targets_lt v w hw)
  have hfuel : (List.range N).length < N + 1 := by simp
  refine ⟨_, Tarjan.run_spec hclosed hfuel fun v hv => hv, ?_⟩
  rw [computeTopologicalSCCOrder, Tarjan.run_out]
  have hfold : ∀ (out : List (ℕ × List ℕ)) (sccs : List (List ℕ)),
      Tarjan.emitAll pushComponent sccs out = sccs ++ out.map fun p => p.2.insertionSort (· ≤ ·) := by
    intro out
    induction out with
    | nil => simp [Tarjan.emitAll]
    | cons p out ih =>
      intro sccs
      rw [Tarjan.emitAll, List.foldl_cons, ← Tarjan.emitAll, ih, pushComponent, List.map_cons,
        List.append_assoc, List.singleton_append]
  rw [hfold, List.nil_append]

/-- What a path reaches from a module is a module. -/
theorem reach_lt {u v : ℕ} (h : Reach filteredEdges.targets u v) (hu : u < N) : v < N :=
  h.mem_of_closed (fun a _ b hb => filteredEdges.targets_lt a b hb) hu

/-- Each component consists of the modules that are mutually reachable. -/
theorem mem_component_iff {C : List ℕ} (hC : C ∈ computeTopologicalSCCOrder filteredEdges) :
    C ≠ [] ∧ C.Nodup ∧ ∀ u ∈ C, u < N ∧ ∀ v, v ∈ C ↔ SameSCC filteredEdges.targets u v := by
  obtain ⟨out, hout, heq⟩ := exists_components filteredEdges
  rw [heq] at hC
  obtain ⟨p, hp, rfl⟩ := List.mem_map.mp hC
  obtain ⟨hnodup, hroot, hscc⟩ := hout.sccs p hp
  refine ⟨List.ne_nil_of_mem ((List.mem_insertionSort (· ≤ ·)).mpr hroot),
    (List.perm_insertionSort (· ≤ ·) p.2).nodup_iff.mpr hnodup, fun u hu => ⟨?_, fun v => ?_⟩⟩
  · obtain ⟨r, hr, hru⟩ := (hout.cover u).mp ⟨p, hp, (List.mem_insertionSort (· ≤ ·)).mp hu⟩
    exact reach_lt filteredEdges hru (List.mem_range.mp hr)
  · have hpu := (hscc u).mp ((List.mem_insertionSort (· ≤ ·)).mp hu)
    rw [(List.mem_insertionSort (· ≤ ·)), hscc v]
    exact ⟨fun h => hpu.symm.trans h, fun h => hpu.trans h⟩

/-- Components are disjoint, and no edge leads from a component to a later one. -/
theorem pairwise_components : (computeTopologicalSCCOrder filteredEdges).Pairwise fun C D =>
    ∀ u ∈ C, u ∉ D ∧ ∀ w ∈ filteredEdges.targets u, w ∉ D := by
  obtain ⟨out, hout, heq⟩ := exists_components filteredEdges
  rw [heq]
  refine List.Pairwise.map _ (fun p q hpq u hu => ?_) hout.pairwise
  obtain ⟨hdisj, hedge⟩ := hpq u ((List.mem_insertionSort (· ≤ ·)).mp hu)
  exact ⟨fun h => hdisj ((List.mem_insertionSort (· ≤ ·)).mp h), fun w hw h =>
    hedge w hw ((List.mem_insertionSort (· ≤ ·)).mp h)⟩

/-- **The components partition the modules.** -/
theorem flatten_perm_range :
    (computeTopologicalSCCOrder filteredEdges).flatten.Perm (List.range N) := by
  refine (List.perm_ext_iff_of_nodup ?_ List.nodup_range).mpr fun m => ?_
  · refine List.nodup_flatten.mpr ⟨fun C hC => (mem_component_iff filteredEdges hC).2.1, ?_⟩
    exact (pairwise_components filteredEdges).imp fun h => List.disjoint_left.mpr fun u hu =>
      (h u hu).1
  · rw [List.mem_flatten, List.mem_range]
    constructor
    · rintro ⟨C, hC, hm⟩
      exact ((mem_component_iff filteredEdges hC).2.2 m hm).1
    · intro hm
      obtain ⟨out, hout, heq⟩ := exists_components filteredEdges
      obtain ⟨p, hp, hmp⟩ := (hout.cover m).mpr ⟨m, List.mem_range.mpr hm, Reach.refl m⟩
      exact ⟨p.2.insertionSort (· ≤ ·), heq ▸ List.mem_map_of_mem hp, (List.mem_insertionSort (· ≤ ·)).mpr hmp⟩

/-- Dependencies are emitted first. -/
theorem DependsOn.lt {filteredEdges : ModuleEdges N} {s t : ℕ}
    (h : DependsOn (computeTopologicalSCCOrder filteredEdges) filteredEdges s t) :
    t < s ∧ s < (computeTopologicalSCCOrder filteredEdges).length := by
  obtain ⟨hst, C, D, hC, hD, m, hm, w, hw, hwD⟩ := h
  obtain ⟨hs, rfl⟩ := List.getElem?_eq_some_iff.mp hC
  obtain ⟨ht, rfl⟩ := List.getElem?_eq_some_iff.mp hD
  refine ⟨lt_of_not_ge fun hle => ?_, hs⟩
  have hpair := List.pairwise_iff_getElem.mp (pairwise_components filteredEdges) s t hs ht
    (lt_of_le_of_ne hle hst)
  exact (hpair m hm).2 w hw hwD

/-- Each module is mapped to its component. -/
theorem moduleToSCC_eq {t m : ℕ} {D : List ℕ}
    (hD : (computeTopologicalSCCOrder filteredEdges)[t]? = some D) (hm : m ∈ D) :
    moduleToSCC (computeTopologicalSCCOrder filteredEdges) m = t := by
  have hupdate : ∀ (C : List ℕ) (s : ℕ) (map : ℕ → ℕ),
      C.foldl (fun map m => Function.update map m s) map m = if m ∈ C then s else map m := by
    intro C s
    induction C with
    | nil => simp
    | cons c C ih =>
      intro map
      rw [List.foldl_cons, ih]
      by_cases hc : m = c <;> by_cases hC : m ∈ C <;> simp [hc, hC]
  obtain ⟨ht, rfl⟩ := List.getElem?_eq_some_iff.mp hD
  -- only the round of `t` writes to `m`
  have hother : ∀ s, s ≠ t → m ∉ (computeTopologicalSCCOrder filteredEdges).getD s [] := by
    intro s hst hms
    by_cases hs : s < (computeTopologicalSCCOrder filteredEdges).length
    · rw [List.getD_eq_getElem _ _ hs] at hms
      have hpair := List.pairwise_iff_getElem.mp (pairwise_components filteredEdges)
      rcases lt_or_gt_of_ne hst with hlt | hlt
      · exact (hpair s t hs ht hlt m hms).1 hm
      · exact (hpair t s ht hs hlt m hm).1 hms
    · rw [List.getD_eq_default _ _ (not_lt.mp hs)] at hms
      exact List.not_mem_nil hms
  have hpass : ∀ n, t < n → (List.range n).foldl (fun map s =>
      ((computeTopologicalSCCOrder filteredEdges).getD s []).foldl
        (fun map m => Function.update map m s) map) (fun _ => 0) m = t := by
    intro n
    induction n with
    | zero => intro h; exact absurd h (Nat.not_lt_zero t)
    | succ n ih =>
      intro h
      rw [List.range_succ, List.foldl_append, List.foldl_cons, List.foldl_nil, hupdate]
      rcases Nat.lt_succ_iff_lt_or_eq.mp h with hlt | rfl
      · rw [if_neg (hother n (Nat.ne_of_gt hlt)), ih hlt]
      · rw [List.getD_eq_getElem _ _ ht, if_pos hm]
  exact hpass _ ht

/-- The loop over dependencies: whether there is one in another component, and bounds on levels. -/
theorem scanDependencies_spec (toSCC level : ℕ → ℕ) (s : ℕ) (deps : List ℕ) (r : Bool × ℕ) (k : ℕ)
    (hr : r.1 = false → r.2 = 0) :
    ((scanDependencies toSCC level s deps r).1 = false →
        (scanDependencies toSCC level s deps r).2 = 0) ∧
      ((scanDependencies toSCC level s deps r).1 = true ∧
          k ≤ (scanDependencies toSCC level s deps r).2 ↔
        (r.1 = true ∧ k ≤ r.2) ∨ ∃ dep ∈ deps, toSCC dep ≠ s ∧ k ≤ level (toSCC dep)) := by
  unfold scanDependencies
  induction deps generalizing r with
  | nil => simpa using hr
  | cons dep deps ih =>
    rw [List.foldl_cons]
    by_cases hdep : toSCC dep = s
    · obtain ⟨h₁, h₂⟩ := ih r hr
      refine ⟨by simpa [hdep] using h₁, ?_⟩
      simpa [hdep] using h₂
    · obtain ⟨h₁, h₂⟩ := ih (true, max r.2 (level (toSCC dep))) (by simp)
      rw [if_pos hdep]
      refine ⟨h₁, h₂.trans ?_⟩
      have hmax : (r.1 = true ∧ k ≤ r.2) ∨ k ≤ level (toSCC dep) ↔
          k ≤ max r.2 (level (toSCC dep)) := by
        rw [le_max_iff]
        cases hfst : r.1 with
        | true => simp
        | false =>
          have := hr hfst
          simp only [Bool.false_eq_true, false_and, false_or]
          omega
      simp only [true_and, List.mem_cons, exists_eq_or_imp, ← or_assoc, hdep, ne_eq,
        not_false_eq_true, hmax]

/-- The level of a component lies just above those of its dependencies. -/
theorem nextLevel_spec (s : ℕ) (level : ℕ → ℕ) (k : ℕ)
    (hs : s < (computeTopologicalSCCOrder filteredEdges).length) :
    k < nextLevel (computeTopologicalSCCOrder filteredEdges) filteredEdges s level ↔
      ∃ t, DependsOn (computeTopologicalSCCOrder filteredEdges) filteredEdges s t ∧
        k ≤ level t := by
  have hscan : ∀ (C : List ℕ) (r : Bool × ℕ), (r.1 = false → r.2 = 0) →
      ((C.foldl (fun r m => scanDependencies
            (moduleToSCC (computeTopologicalSCCOrder filteredEdges)) level s
            (filteredEdges.targets m) r) r).1 = true ∧
          k ≤ (C.foldl (fun r m => scanDependencies
            (moduleToSCC (computeTopologicalSCCOrder filteredEdges)) level s
            (filteredEdges.targets m) r) r).2 ↔
        (r.1 = true ∧ k ≤ r.2) ∨ ∃ m ∈ C, ∃ dep ∈ filteredEdges.targets m,
          moduleToSCC (computeTopologicalSCCOrder filteredEdges) dep ≠ s ∧
            k ≤ level (moduleToSCC (computeTopologicalSCCOrder filteredEdges) dep)) := by
    intro C
    induction C with
    | nil => simp
    | cons m C ih =>
      intro r hr
      obtain ⟨h₁, h₂⟩ := scanDependencies_spec
        (moduleToSCC (computeTopologicalSCCOrder filteredEdges)) level s
        (filteredEdges.targets m) r k hr
      rw [List.foldl_cons, ih _ h₁, h₂, or_assoc]
      simp only [List.mem_cons, exists_eq_or_imp]
  have hlevel : ∀ r : Bool × ℕ, (k < if r.1 then r.2 + 1 else 0) ↔ r.1 = true ∧ k ≤ r.2 := by
    rintro ⟨_ | _, maxPred⟩ <;> simp
  unfold nextLevel
  rw [hlevel, hscan _ _ (fun _ => rfl), List.getD_eq_getElem _ _ hs]
  simp only [Bool.false_eq_true, false_and, false_or]
  constructor
  · rintro ⟨m, hm, dep, hdep, hne, hle⟩
    have hmem : dep ∈ (computeTopologicalSCCOrder filteredEdges).flatten :=
      (flatten_perm_range filteredEdges).mem_iff.mpr
        (List.mem_range.mpr (filteredEdges.targets_lt m dep hdep))
    obtain ⟨D, hD, hdepD⟩ := List.mem_flatten.mp hmem
    obtain ⟨t, ht⟩ := List.mem_iff_getElem?.mp hD
    have hmap := moduleToSCC_eq filteredEdges ht hdepD
    rw [hmap] at hne hle
    exact ⟨t, ⟨hne.symm, _, D, List.getElem?_eq_getElem hs, ht, m, hm, dep, hdep, hdepD⟩, hle⟩
  · rintro ⟨t, ⟨hne, C, D, hC, hD, m, hm, dep, hdep, hdepD⟩, hle⟩
    obtain ⟨_, rfl⟩ := List.getElem?_eq_some_iff.mp hC
    have hmap := moduleToSCC_eq filteredEdges hD hdepD
    exact ⟨m, hm, dep, hdep, by rw [hmap]; exact hne.symm, by rw [hmap]; exact hle⟩

/-- The levels lie just above those of the dependencies. -/
theorem isLevel_computeSCCLevels :
    IsLevel (DependsOn (computeTopologicalSCCOrder filteredEdges) filteredEdges)
      (computeSCCLevels (computeTopologicalSCCOrder filteredEdges) filteredEdges) :=
  isLevel_foldl (fun _ _ h => h.lt) fun s level k hs => nextLevel_spec filteredEdges s level k hs

/-- **Modules are scheduled correctly**: the components partition the modules into the classes of
mutual reachability, dependencies are emitted first, a level is the length of a longest chain of
distinct dependencies, and so components of one level do not depend on each other.

**Proof sketch.** The components are those of Tarjan's algorithm. The pass over them finds the final
levels of all dependencies, since these have been emitted before. -/
theorem moduleScheduling_correct {N : ℕ} (edges : ModuleEdges N) :
    (computeTopologicalSCCOrder edges).flatten.Perm (List.range N) ∧
      (∀ C ∈ computeTopologicalSCCOrder edges, C ≠ [] ∧
        ∀ u ∈ C, ∀ v, v ∈ C ↔ SameSCC edges.targets u v) ∧
      (∀ s t, DependsOn (computeTopologicalSCCOrder edges) edges s t → t < s) ∧
      (∀ s < (computeTopologicalSCCOrder edges).length,
        IsGreatest {k | ∃ chain,
            DepChain (DependsOn (computeTopologicalSCCOrder edges) edges) s chain ∧
              chain.length = k}
          (computeSCCLevels (computeTopologicalSCCOrder edges) edges s)) ∧
      (∀ s t, DependsOn (computeTopologicalSCCOrder edges) edges s t →
        computeSCCLevels (computeTopologicalSCCOrder edges) edges t <
          computeSCCLevels (computeTopologicalSCCOrder edges) edges s) ∧
      ∀ s t, computeSCCLevels (computeTopologicalSCCOrder edges) edges s =
          computeSCCLevels (computeTopologicalSCCOrder edges) edges t →
        ¬ DependsOn (computeTopologicalSCCOrder edges) edges s t ∧
          ¬ DependsOn (computeTopologicalSCCOrder edges) edges t s := by
  have hlevel := isLevel_computeSCCLevels edges
  refine ⟨flatten_perm_range edges, fun C hC => ?_, fun s t h => h.lt.1,
    fun s _ => hlevel.isGreatest s, fun s t h => hlevel.lt h, fun s t heq => ⟨?_, ?_⟩⟩
  · obtain ⟨hne, -, hscc⟩ := mem_component_iff edges hC
    exact ⟨hne, fun u hu => (hscc u hu).2⟩
  · intro h
    have := hlevel.lt h
    omega
  · intro h
    have := hlevel.lt h
    omega

end Components

end StackAnalyzer.CrossTU
