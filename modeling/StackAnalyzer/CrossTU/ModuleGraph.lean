import StackAnalyzer.CrossTU.ResourceIndex
import StackAnalyzer.CrossTU.Scheduling

set_option relaxedAutoImplicit false
set_option autoImplicit false

/-!
# The graph of modules, and the groups in which it is processed

A module depends on another one if it calls a function that only the other one defines. The
strongly connected components of this graph are processed level by level. In a level the modules
that form a component of their own come first, then the components with cycles, in the order of
their smallest modules.

## Main definitions

* `StackAnalyzer.CrossTU.definedBy`, `StackAnalyzer.CrossTU.isSingleDef` — the modules that define
  a name, and the names with a single definition.
* `StackAnalyzer.CrossTU.buildSingleDefFilteredEdges` — the dependencies between modules.
* `StackAnalyzer.CrossTU.trivialModules`, `StackAnalyzer.CrossTU.cyclicSCCs` — the two parts of a
  level.

## Main results

* `StackAnalyzer.CrossTU.exists_level` — every module is processed in some level.
-/

namespace StackAnalyzer.CrossTU

/-! ## Edges -/

section Edges

variable (definedNames : List (List CppString))

/-- `definedBy`: the module of each definition of a name, from the names that each module
defines. -/
def definedBy (name : CppString) : List ℕ :=
  (List.range definedNames.length).flatMap fun i =>
    ((definedNames.getD i []).filter fun n => n = name).map fun _ => i

/-- `singleDefNames`. -/
def isSingleDef (name : CppString) : Bool := (definedBy definedNames name).length == 1

/-- The module with the only definition of a callee, if it is another one. -/
def singleDefTarget (i : ℕ) (callee : CppString) : Option ℕ :=
  match definedBy definedNames callee with
  | [j] => if j ≠ i then some j else none
  | _ => none

variable {definedNames}

theorem mem_definedBy {name : CppString} {j : ℕ} : j ∈ definedBy definedNames name ↔
    j < definedNames.length ∧ name ∈ definedNames.getD j [] := by
  simp only [definedBy, List.mem_flatMap, List.mem_range, List.mem_map, List.mem_filter,
    decide_eq_true_eq]
  constructor
  · rintro ⟨i, hi, n, ⟨hn, rfl⟩, rfl⟩
    exact ⟨hi, hn⟩
  · rintro ⟨hj, hname⟩
    exact ⟨j, hj, name, ⟨hname, rfl⟩, rfl⟩

theorem singleDefTarget_eq_some {i j : ℕ} {callee : CppString} :
    singleDefTarget definedNames i callee = some j ↔
      definedBy definedNames callee = [j] ∧ j ≠ i := by
  unfold singleDefTarget
  split
  · rename_i k h
    rw [h, List.singleton_inj]
    by_cases hk : k = i
    · simp only [hk, ne_eq, not_true_eq_false, if_false, reduceCtorEq, false_iff]
      rintro ⟨rfl, h⟩
      exact h rfl
    · simp only [ne_eq, hk, not_false_eq_true, if_true, Option.some.injEq]
      refine ⟨fun h => ⟨h, h ▸ hk⟩, And.left⟩
  · rename_i h
    simp only [reduceCtorEq, false_iff]
    exact fun hj => h j hj.1

variable (definedNames)

/-- `buildSingleDefFilteredEdges`. -/
def buildSingleDefFilteredEdges (moduleCalleeNames : ℕ → List CppString) :
    ModuleEdges definedNames.length where
  targets i := ((moduleCalleeNames i).filterMap (singleDefTarget definedNames i)).dedup
  targets_lt i j hj := by
    obtain ⟨callee, -, hcallee⟩ := List.mem_filterMap.mp (List.mem_dedup.mp hj)
    have hdef := (singleDefTarget_eq_some.mp hcallee).1
    exact (mem_definedBy.mp (hdef ▸ List.mem_singleton_self j)).1

end Edges

/-! ## Levels -/

section Levels

variable {N : ℕ} (filteredEdges : ModuleEdges N) (sccOrder : List (List ℕ))

/-- `maxLevel`. -/
def maxLevel (sccLevels : ℕ → ℕ) : ℕ :=
  (List.range sccOrder.length).foldl (fun m s => max m (sccLevels s)) 0

/-- `levelGroups[level]`. -/
def levelGroup (sccLevels : ℕ → ℕ) (level : ℕ) : List ℕ :=
  (List.range sccOrder.length).filter fun s => sccLevels s = level

/-- A component of one module without an edge to itself. -/
def isTrivial (scc : List ℕ) : Bool :=
  match scc with
  | [m] => !decide (m ∈ filteredEdges.targets m)
  | _ => false

/-- `trivialModules` of a level. -/
def trivialModules (group : List ℕ) : List ℕ :=
  (group.filter fun s => isTrivial filteredEdges (sccOrder.getD s [])).map fun s =>
    (sccOrder.getD s []).headD 0

/-- The components of `cyclicSCCIndices`, sorted by their first modules. -/
def cyclicSCCs (group : List ℕ) : List (List ℕ) :=
  ((group.filter fun s => !isTrivial filteredEdges (sccOrder.getD s [])).insertionSort fun a b =>
    (sccOrder.getD a []).headD 0 ≤ (sccOrder.getD b []).headD 0).map fun s => sccOrder.getD s []

variable {sccOrder}

theorem le_maxLevel {sccLevels : ℕ → ℕ} {s : ℕ} (hs : s < sccOrder.length) :
    sccLevels s ≤ maxLevel sccOrder sccLevels := by
  have hfold : ∀ (l : List ℕ) (m : ℕ), m ≤ l.foldl (fun m s => max m (sccLevels s)) m ∧
      ∀ s ∈ l, sccLevels s ≤ l.foldl (fun m s => max m (sccLevels s)) m := by
    intro l
    induction l with
    | nil => simp
    | cons t l ih =>
      intro m
      rw [List.foldl_cons]
      obtain ⟨hle, hall⟩ := ih (max m (sccLevels t))
      refine ⟨(le_max_left _ _).trans hle, fun s hs => ?_⟩
      rcases List.mem_cons.mp hs with rfl | hs
      · exact (le_max_right _ _).trans hle
      · exact hall s hs
  exact (hfold _ 0).2 s (List.mem_range.mpr hs)

/-- A module of a component is in one of the two parts of its level. -/
theorem mem_level (sccLevels : ℕ → ℕ) {C : List ℕ} {m : ℕ} (hC : C ∈ sccOrder) (hm : m ∈ C) :
    ∃ level ≤ maxLevel sccOrder sccLevels,
      m ∈ trivialModules filteredEdges sccOrder (levelGroup sccOrder sccLevels level) ∨
        C ∈ cyclicSCCs filteredEdges sccOrder (levelGroup sccOrder sccLevels level) := by
  obtain ⟨s, hs, rfl⟩ := List.mem_iff_getElem.mp hC
  have hget : sccOrder.getD s [] = sccOrder[s] := by
    rw [List.getD_eq_getElem?_getD, List.getElem?_eq_getElem hs, Option.getD_some]
  have hgroup : s ∈ levelGroup sccOrder sccLevels (sccLevels s) :=
    List.mem_filter.mpr ⟨List.mem_range.mpr hs, decide_eq_true rfl⟩
  refine ⟨sccLevels s, le_maxLevel hs, ?_⟩
  by_cases htrivial : isTrivial filteredEdges (sccOrder.getD s []) = true
  · left
    refine List.mem_map.mpr ⟨s, List.mem_filter.mpr ⟨hgroup, htrivial⟩, ?_⟩
    rw [hget] at htrivial ⊢
    unfold isTrivial at htrivial
    split at htrivial
    · rename_i k hk
      rw [hk, List.mem_singleton] at hm
      rw [hk, hm, List.headD_cons]
    · exact absurd htrivial (by simp)
  · right
    refine List.mem_map.mpr ⟨s, (List.mem_insertionSort _).mpr (List.mem_filter.mpr ⟨hgroup, ?_⟩),
      hget⟩
    simpa using htrivial

/-- **Every module is processed in some level**, alone or with its component. -/
theorem exists_level {m : ℕ} (hm : m < N) :
    let sccOrder := computeTopologicalSCCOrder filteredEdges
    let sccLevels := computeSCCLevels sccOrder filteredEdges
    ∃ level ≤ maxLevel sccOrder sccLevels,
      m ∈ trivialModules filteredEdges sccOrder (levelGroup sccOrder sccLevels level) ∨
        ∃ C ∈ cyclicSCCs filteredEdges sccOrder (levelGroup sccOrder sccLevels level), m ∈ C := by
  intro sccOrder sccLevels
  obtain ⟨C, hC, hmC⟩ := List.mem_flatten.mp
    ((flatten_perm_range filteredEdges).mem_iff.mpr (List.mem_range.mpr hm))
  obtain ⟨level, hlevel, hcase⟩ := mem_level filteredEdges sccLevels hC hmC
  exact ⟨level, hlevel, hcase.imp_right fun h => ⟨C, h, hmC⟩⟩

end Levels

end StackAnalyzer.CrossTU
