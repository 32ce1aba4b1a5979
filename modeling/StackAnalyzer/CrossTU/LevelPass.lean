import StackAnalyzer.CrossTU.ModuleGraph
import StackAnalyzer.CrossTU.SccLoop

set_option relaxedAutoImplicit false
set_option autoImplicit false

/-!
# One pass over the levels of the module graph

The levels of the module graph are processed one after the other. In a level the modules outside
cycles are summarised against the global index at its start, then the cyclic components are iterated
in turn. So the index that a module is summarised against has met the summaries of all modules that
it depends on, and later only modules of the same level or of higher ones are merged.

## Main definitions

* `StackAnalyzer.CrossTU.processIndexLevels` — the pass.
* `StackAnalyzer.CrossTU.GrowsBy` — an index grows by merges of summaries of some modules.
* `StackAnalyzer.CrossTU.PassStep` — what a step of the pass does for some modules.
* `StackAnalyzer.CrossTU.moduleLevel` — the level of a module.

## Main results

* `StackAnalyzer.CrossTU.passStep_level` — what a level does.
* `StackAnalyzer.CrossTU.processIndexLevels_spec` — what the pass does for a module.
* `StackAnalyzer.CrossTU.moduleLevel_lt` — dependencies outside cycles have smaller levels.
-/

namespace StackAnalyzer.CrossTU

open SummaryOps Graph

/-- The variables of a pass: the global index and the summaries of the modules, and, for what is
said about them, the index that each module was last summarised against, and whether every cyclic
component has converged. -/
structure IndexPass (I : Type*) where
  globalIndex : I
  moduleSummaries : ℕ → I
  builtAgainst : ℕ → I
  converged : Bool

section Pass

variable {I Name : Type*} [DecidableEq Name] (ops : SummaryOps I Name)
variable (filteredCalleeNames : ℕ → List Name) (buildModuleSummary : I → ℕ → I)

/-- Summarise modules against the global index, and merge their summaries in order. -/
def processTrivial (modules : List ℕ) (p : IndexPass I) : IndexPass I :=
  let summaries := fun m =>
    if m ∈ modules then buildModuleSummary p.globalIndex m else p.moduleSummaries m
  { p with
    globalIndex := mergeAll ops p.globalIndex modules summaries
    moduleSummaries := summaries
    builtAgainst := fun m => if m ∈ modules then p.globalIndex else p.builtAgainst m }

/-- The iterations over a cyclic component, with what is recorded of them. -/
def sccRun (scc : List ℕ) :
    ℕ → ℕ → SccState I Name → (ℕ → I) → SccState I Name × (ℕ → I) × Bool
  | 0, _, s, built => (s, built, false)
  | n + 1, sccIter, s, built =>
    let r := sccIteration ops filteredCalleeNames buildModuleSummary scc sccIter s
    let built := fun m =>
      if m ∈ dirtyInSCC filteredCalleeNames scc sccIter s then s.globalIndex else built m
    if r.2 then (r.1, built, true) else sccRun scc n (sccIter + 1) r.1 built

/-- Process a cyclic component. -/
def processSCC (p : IndexPass I) (scc : List ℕ) : IndexPass I :=
  let r := sccRun ops filteredCalleeNames buildModuleSummary scc kCrossTUMaxIterations 0
    (sccStart ops p.globalIndex p.moduleSummaries) p.builtAgainst
  { globalIndex := mergeAll ops r.1.globalIndex scc r.1.moduleSummaries
    moduleSummaries := r.1.moduleSummaries
    builtAgainst := r.2.1
    converged := p.converged && r.2.2 }

variable {N : ℕ} (filteredEdges : ModuleEdges N)

/-- Process a level. -/
def processIndexLevel (p : IndexPass I) (level : ℕ) : IndexPass I :=
  let sccOrder := computeTopologicalSCCOrder filteredEdges
  let group := levelGroup sccOrder (computeSCCLevels sccOrder filteredEdges) level
  (cyclicSCCs filteredEdges sccOrder group).foldl
    (processSCC ops filteredCalleeNames buildModuleSummary)
    (processTrivial ops buildModuleSummary (trivialModules filteredEdges sccOrder group) p)

/-- Process all levels. -/
def processIndexLevels : IndexPass I :=
  let sccOrder := computeTopologicalSCCOrder filteredEdges
  (List.range (maxLevel sccOrder (computeSCCLevels sccOrder filteredEdges) + 1)).foldl
    (processIndexLevel ops filteredCalleeNames buildModuleSummary filteredEdges)
    ⟨ops.empty, fun _ => ops.empty, fun _ => ops.empty, true⟩

/-- What is recorded does not change the loop. -/
theorem sccRun_fst (scc : List ℕ) (n sccIter : ℕ) (s : SccState I Name) (built : ℕ → I) :
    (sccRun ops filteredCalleeNames buildModuleSummary scc n sccIter s built).1 =
      sccLoop ops filteredCalleeNames buildModuleSummary scc n sccIter s := by
  induction n generalizing sccIter s built with
  | zero => rfl
  | succ n ih =>
    rw [sccRun, sccLoop]
    split_ifs
    · rfl
    · exact ih _ _ _

/-- A component is processed as by `processCyclicSCC`. -/
theorem processSCC_eq (p : IndexPass I) (scc : List ℕ) :
    ((processSCC ops filteredCalleeNames buildModuleSummary p scc).globalIndex,
      (processSCC ops filteredCalleeNames buildModuleSummary p scc).moduleSummaries) =
        processCyclicSCC ops filteredCalleeNames buildModuleSummary scc
          (p.globalIndex, p.moduleSummaries) := by
  rw [processSCC, processCyclicSCC]
  dsimp only
  rw [sccRun_fst]

end Pass

/-! ## Growth by some modules -/

section Growth

variable {I Name : Type*} (ops : SummaryOps I Name) (buildModuleSummary : I → ℕ → I)

/-- **An index grows by merges of summaries of some modules.** -/
def GrowsBy (modules : Set ℕ) : I → I → Prop :=
  Relation.ReflTransGen fun a b => ∃ m ∈ modules, ∃ index,
    b = ops.merge a (buildModuleSummary index m)

variable {ops buildModuleSummary} {A B : Set ℕ} {a b c : I}

theorem GrowsBy.refl (a : I) : GrowsBy ops buildModuleSummary A a a := Relation.ReflTransGen.refl

theorem GrowsBy.trans (h : GrowsBy ops buildModuleSummary A a b)
    (h' : GrowsBy ops buildModuleSummary A b c) : GrowsBy ops buildModuleSummary A a c :=
  Relation.ReflTransGen.trans h h'

theorem GrowsBy.mono (hAB : A ⊆ B) (h : GrowsBy ops buildModuleSummary A a b) :
    GrowsBy ops buildModuleSummary B a b :=
  Relation.ReflTransGen.mono (fun _ _ ⟨m, hm, index, hb⟩ => ⟨m, hAB hm, index, hb⟩) _ _ h

theorem GrowsBy.grows (h : GrowsBy ops buildModuleSummary A a b) : ops.Grows a b :=
  Relation.ReflTransGen.mono (fun _ _ ⟨_, _, _, hb⟩ => ⟨_, hb⟩) _ _ h

/-- Merging the summary of a module. -/
theorem GrowsBy.merge {m : ℕ} (hm : m ∈ A) (a index : I) :
    GrowsBy ops buildModuleSummary A a (ops.merge a (buildModuleSummary index m)) :=
  Relation.ReflTransGen.single ⟨m, hm, index, rfl⟩

/-- Merging the summaries of modules. -/
theorem growsBy_mergeAll {modules : List ℕ} {summaries built : ℕ → I} (hmem : ∀ m ∈ modules, m ∈ A)
    (hbuilt : ∀ m ∈ modules, summaries m = buildModuleSummary (built m) m) (dst : I) :
    GrowsBy ops buildModuleSummary A dst (mergeAll ops dst modules summaries) := by
  induction modules generalizing dst with
  | nil => exact GrowsBy.refl dst
  | cons k modules ih =>
    have hstep : GrowsBy ops buildModuleSummary A dst (ops.merge dst (summaries k)) := by
      rw [hbuilt k List.mem_cons_self]
      exact GrowsBy.merge (hmem k List.mem_cons_self) dst (built k)
    exact hstep.trans (ih (fun m hm => hmem m (List.mem_cons_of_mem k hm))
      (fun m hm => hbuilt m (List.mem_cons_of_mem k hm)) _)

variable (ops buildModuleSummary) in
/-- A summary has been merged on the way from one index to another one. -/
def AbsorbedBy (modules : Set ℕ) (a x b : I) : Prop :=
  ∃ c, GrowsBy ops buildModuleSummary modules a c ∧
    GrowsBy ops buildModuleSummary modules (ops.merge c x) b

theorem AbsorbedBy.mono {a' b' x : I} (hAB : A ⊆ B)
    (h : AbsorbedBy ops buildModuleSummary A a x b) (ha : GrowsBy ops buildModuleSummary B a' a)
    (hb : GrowsBy ops buildModuleSummary B b b') : AbsorbedBy ops buildModuleSummary B a' x b' := by
  obtain ⟨c, hac, hcb⟩ := h
  exact ⟨c, ha.trans (hac.mono hAB), (hcb.mono hAB).trans hb⟩

theorem AbsorbedBy.absorbed {x : I} (h : AbsorbedBy ops buildModuleSummary A a x b) :
    ops.Absorbed a x b := by
  obtain ⟨c, hac, hcb⟩ := h
  exact ⟨c, hac.grows, hcb.grows⟩

/-- Merging the summaries of modules absorbs each of them. -/
theorem absorbedBy_mergeAll {modules : List ℕ} {summaries built : ℕ → I}
    (hmem : ∀ m ∈ modules, m ∈ A)
    (hbuilt : ∀ m ∈ modules, summaries m = buildModuleSummary (built m) m) {m : ℕ}
    (hm : m ∈ modules) (dst : I) :
    AbsorbedBy ops buildModuleSummary A dst (summaries m) (mergeAll ops dst modules summaries) := by
  induction modules generalizing dst with
  | nil => exact absurd hm List.not_mem_nil
  | cons k modules ih =>
    have hmem' := fun m hm => hmem m (List.mem_cons_of_mem k hm)
    have hbuilt' := fun m hm => hbuilt m (List.mem_cons_of_mem k hm)
    rcases List.mem_cons.mp hm with rfl | hm
    · exact ⟨dst, GrowsBy.refl dst, growsBy_mergeAll hmem' hbuilt' _⟩
    · have hstep : GrowsBy ops buildModuleSummary A dst (ops.merge dst (summaries k)) := by
        rw [hbuilt k List.mem_cons_self]
        exact GrowsBy.merge (hmem k List.mem_cons_self) dst (built k)
      exact (ih hmem' hbuilt' hm _).mono subset_rfl hstep (GrowsBy.refl _)

end Growth

/-! ## Steps of a pass -/

section Step

variable {I Name : Type*} (ops : SummaryOps I Name) (buildModuleSummary : I → ℕ → I)

/-- **What a step of a pass does for some modules**: the global index grows by their summaries, each
of them has been summarised against an index on the way, and merged, and nothing is recorded of
other modules. -/
structure PassStep (modules : Set ℕ) (p q : IndexPass I) : Prop where
  grows : GrowsBy ops buildModuleSummary modules p.globalIndex q.globalIndex
  kept : ∀ m ∉ modules, q.moduleSummaries m = p.moduleSummaries m ∧
    q.builtAgainst m = p.builtAgainst m
  built : ∀ m ∈ modules, q.moduleSummaries m = buildModuleSummary (q.builtAgainst m) m
  before : ∀ m ∈ modules,
    GrowsBy ops buildModuleSummary modules p.globalIndex (q.builtAgainst m)
  absorbed : ∀ m ∈ modules, AbsorbedBy ops buildModuleSummary modules (q.builtAgainst m)
    (q.moduleSummaries m) q.globalIndex

variable {ops buildModuleSummary} {A B : Set ℕ} {p q r : IndexPass I}

/-- Steps one after the other. -/
theorem PassStep.trans (h : PassStep ops buildModuleSummary A p q)
    (h' : PassStep ops buildModuleSummary B q r) :
    PassStep ops buildModuleSummary (A ∪ B) p r := by
  have hA : A ⊆ A ∪ B := Set.subset_union_left
  have hB : B ⊆ A ∪ B := Set.subset_union_right
  have hold : ∀ m ∈ A, m ∉ B → r.moduleSummaries m = q.moduleSummaries m ∧
      r.builtAgainst m = q.builtAgainst m := fun m _ hm => h'.kept m hm
  refine ⟨(h.grows.mono hA).trans (h'.grows.mono hB), fun m hm => ?_, fun m hm => ?_,
    fun m hm => ?_, fun m hm => ?_⟩
  · obtain ⟨hmA, hmB⟩ := not_or.mp hm
    exact ⟨(h'.kept m hmB).1.trans (h.kept m hmA).1, (h'.kept m hmB).2.trans (h.kept m hmA).2⟩
  · by_cases hmB : m ∈ B
    · exact h'.built m hmB
    · have hmA := hm.resolve_right hmB
      rw [(hold m hmA hmB).1, (hold m hmA hmB).2]
      exact h.built m hmA
  · by_cases hmB : m ∈ B
    · exact (h.grows.mono hA).trans ((h'.before m hmB).mono hB)
    · have hmA := hm.resolve_right hmB
      rw [(hold m hmA hmB).2]
      exact (h.before m hmA).mono hA
  · by_cases hmB : m ∈ B
    · exact (h'.absorbed m hmB).mono hB (GrowsBy.refl _) (GrowsBy.refl _)
    · have hmA := hm.resolve_right hmB
      rw [(hold m hmA hmB).1, (hold m hmA hmB).2]
      exact (h.absorbed m hmA).mono hA (GrowsBy.refl _) (h'.grows.mono hB)

/-- A step for each element of a list. -/
theorem passStep_foldl {X : Type*} {step : IndexPass I → X → IndexPass I} {covered : X → Set ℕ}
    (h : ∀ p x, PassStep ops buildModuleSummary (covered x) p (step p x)) (xs : List X)
    (p : IndexPass I) :
    PassStep ops buildModuleSummary {m | ∃ x ∈ xs, m ∈ covered x} p (xs.foldl step p) := by
  induction xs generalizing p with
  | nil =>
    exact ⟨GrowsBy.refl _, fun _ _ => ⟨rfl, rfl⟩, fun m ⟨x, hx, _⟩ => absurd hx List.not_mem_nil,
      fun m ⟨x, hx, _⟩ => absurd hx List.not_mem_nil,
      fun m ⟨x, hx, _⟩ => absurd hx List.not_mem_nil⟩
  | cons x xs ih =>
    have hset : {m | ∃ y ∈ x :: xs, m ∈ covered y} = covered x ∪ {m | ∃ y ∈ xs, m ∈ covered y} := by
      ext m
      simp
    rw [hset]
    exact (h p x).trans (ih (step p x))

/-- Modules outside cycles. -/
theorem passStep_processTrivial (modules : List ℕ) (p : IndexPass I) :
    PassStep ops buildModuleSummary {m | m ∈ modules} p
      (processTrivial ops buildModuleSummary modules p) := by
  have hbuilt : ∀ m ∈ modules, (processTrivial ops buildModuleSummary modules p).moduleSummaries m =
      buildModuleSummary ((processTrivial ops buildModuleSummary modules p).builtAgainst m) m := by
    intro m hm
    rw [processTrivial]
    dsimp only
    rw [if_pos hm, if_pos hm]
  have hagainst : ∀ m ∈ modules,
      (processTrivial ops buildModuleSummary modules p).builtAgainst m = p.globalIndex :=
    fun m hm => if_pos hm
  refine ⟨growsBy_mergeAll (fun m hm => hm) hbuilt p.globalIndex,
    fun m hm => ⟨if_neg hm, if_neg hm⟩, hbuilt, fun m hm => ?_, fun m hm => ?_⟩
  · rw [hagainst m hm]
    exact GrowsBy.refl _
  · rw [hagainst m hm]
    exact absorbedBy_mergeAll (fun m hm => hm) hbuilt hm p.globalIndex

variable [DecidableEq Name] {filteredCalleeNames : ℕ → List Name} {scc : List ℕ}

/-- The invariant of the loop over a component: after the first iteration each module has been
summarised against an index on the way. -/
structure LoopRun (ops : SummaryOps I Name) (buildModuleSummary : I → ℕ → I) (scc : List ℕ)
    (p : IndexPass I) (sccIter : ℕ) (s : SccState I Name) (built : ℕ → I) : Prop where
  grows : GrowsBy ops buildModuleSummary {m | m ∈ scc} p.globalIndex s.globalIndex
  kept : ∀ m ∉ scc, s.moduleSummaries m = p.moduleSummaries m ∧ built m = p.builtAgainst m
  prev : 0 < sccIter → ∀ m ∈ scc, s.sccPrevSummaries m = buildModuleSummary (built m) m ∧
    s.moduleSummaries m = s.sccPrevSummaries m
  before : 0 < sccIter → ∀ m ∈ scc,
    GrowsBy ops buildModuleSummary {m | m ∈ scc} p.globalIndex (built m) ∧
      GrowsBy ops buildModuleSummary {m | m ∈ scc} (built m) s.globalIndex

/-- A module that is not dirty is one of a later iteration. -/
theorem pos_of_not_dirty {sccIter m : ℕ} {s : SccState I Name} (hm : m ∈ scc)
    (h : m ∉ dirtyInSCC filteredCalleeNames scc sccIter s) : 0 < sccIter := by
  rw [Nat.pos_iff_ne_zero]
  rintro rfl
  exact h hm

/-- The modules that an iteration builds are those of the component. -/
theorem mem_of_dirty {sccIter m : ℕ} {s : SccState I Name}
    (h : m ∈ dirtyInSCC filteredCalleeNames scc sccIter s) : m ∈ scc := by
  unfold dirtyInSCC at h
  split_ifs at h
  · exact h
  · exact (List.mem_filter.mp h).1

/-- **One iteration** preserves the invariant. -/
theorem LoopRun.step (filteredCalleeNames : ℕ → List Name) {sccIter : ℕ} {s : SccState I Name}
    {built : ℕ → I}
    (h : LoopRun ops buildModuleSummary scc p sccIter s built) :
    LoopRun ops buildModuleSummary scc p (sccIter + 1)
      (sccIteration ops filteredCalleeNames buildModuleSummary scc sccIter s).1
      fun m => if m ∈ dirtyInSCC filteredCalleeNames scc sccIter s then s.globalIndex
        else built m := by
  set summaries := iterationSummaries filteredCalleeNames buildModuleSummary scc sccIter s
  set t := (sccIteration ops filteredCalleeNames buildModuleSummary scc sccIter s).1 with ht
  have hbuilt : ∀ m ∈ scc, summaries m = buildModuleSummary
      (if m ∈ dirtyInSCC filteredCalleeNames scc sccIter s then s.globalIndex else built m) m := by
    intro m hm
    split_ifs with hdirty
    · exact if_pos hdirty
    · rw [← (h.prev (pos_of_not_dirty hm hdirty) m hm).1]
      exact (if_neg hdirty).trans (if_pos hm)
  have hgrown : GrowsBy ops buildModuleSummary {m | m ∈ scc} s.globalIndex t.globalIndex := by
    rw [ht, sccIteration]
    dsimp only
    split_ifs
    · exact GrowsBy.refl _
    · exact growsBy_mergeAll (fun m hm => hm) hbuilt s.globalIndex
  refine ⟨h.grows.trans hgrown, fun m hm => ?_, fun _ m hm => ⟨?_, ?_⟩, fun _ m hm => ?_⟩
  · have hclean : m ∉ dirtyInSCC filteredCalleeNames scc sccIter s := fun hd => hm (mem_of_dirty hd)
    rw [if_neg hclean]
    exact ⟨((if_neg hclean).trans (if_neg hm)).trans (h.kept m hm).1, (h.kept m hm).2⟩
  · rw [← hbuilt m hm]
    exact if_pos hm
  · exact (if_pos hm).symm
  · split_ifs with hdirty
    · exact ⟨h.grows, hgrown⟩
    · obtain ⟨hbefore, hafter⟩ := h.before (pos_of_not_dirty hm hdirty) m hm
      exact ⟨hbefore, hafter.trans hgrown⟩

/-- The invariant holds behind the loop, which makes an iteration at least. -/
theorem LoopRun.sccRun (filteredCalleeNames : ℕ → List Name) {n sccIter : ℕ} {s : SccState I Name}
    {built : ℕ → I}
    (h : LoopRun ops buildModuleSummary scc p sccIter s built) (hpos : 0 < n + sccIter) :
    ∃ k, 0 < k ∧ LoopRun ops buildModuleSummary scc p k
      (sccRun ops filteredCalleeNames buildModuleSummary scc n sccIter s built).1
      (sccRun ops filteredCalleeNames buildModuleSummary scc n sccIter s built).2.1 := by
  induction n generalizing sccIter s built with
  | zero => exact ⟨sccIter, by omega, h⟩
  | succ n ih =>
    have hstep := h.step filteredCalleeNames
    rw [CrossTU.sccRun]
    split_ifs
    · exact ⟨sccIter + 1, Nat.succ_pos _, hstep⟩
    · exact ih hstep (by omega)

/-- **A cyclic component.** -/
theorem passStep_processSCC (p : IndexPass I) (scc : List ℕ) :
    PassStep ops buildModuleSummary {m | m ∈ scc} p
      (processSCC ops filteredCalleeNames buildModuleSummary p scc) := by
  have hstart : LoopRun ops buildModuleSummary scc p 0
      (sccStart ops p.globalIndex p.moduleSummaries) p.builtAgainst :=
    ⟨GrowsBy.refl _, fun _ _ => ⟨rfl, rfl⟩, fun h => absurd h (lt_irrefl 0),
      fun h => absurd h (lt_irrefl 0)⟩
  have hpos : 0 < kCrossTUMaxIterations + 0 := by decide
  obtain ⟨k, hk, hrun⟩ := hstart.sccRun filteredCalleeNames hpos
  set r := sccRun ops filteredCalleeNames buildModuleSummary scc kCrossTUMaxIterations 0
    (sccStart ops p.globalIndex p.moduleSummaries) p.builtAgainst with hr
  have hbuilt : ∀ m ∈ scc, r.1.moduleSummaries m = buildModuleSummary (r.2.1 m) m :=
    fun m hm => (hrun.prev hk m hm).2.trans (hrun.prev hk m hm).1
  have hmerged : GrowsBy ops buildModuleSummary {m | m ∈ scc} r.1.globalIndex
      (mergeAll ops r.1.globalIndex scc r.1.moduleSummaries) :=
    growsBy_mergeAll (fun m hm => hm) hbuilt _
  exact ⟨hrun.grows.trans hmerged, fun m hm => hrun.kept m hm, hbuilt,
    fun m hm => (hrun.before hk m hm).1,
    fun m hm => (absorbedBy_mergeAll (fun m hm => hm) hbuilt hm _).mono subset_rfl
      (hrun.before hk m hm).2 (GrowsBy.refl _)⟩

end Step

/-! ## Levels -/

section Levels

variable {N : ℕ} (filteredEdges : ModuleEdges N)

/-- **The level of a module** is that of its component. -/
def moduleLevel (m : ℕ) : ℕ :=
  computeSCCLevels (computeTopologicalSCCOrder filteredEdges) filteredEdges
    (moduleToSCC (computeTopologicalSCCOrder filteredEdges) m)

/-- The components of a level. -/
def groupAt (level : ℕ) : List ℕ :=
  levelGroup (computeTopologicalSCCOrder filteredEdges)
    (computeSCCLevels (computeTopologicalSCCOrder filteredEdges) filteredEdges) level

variable {filteredEdges} {m level : ℕ}

/-- Every module has a component. -/
theorem exists_component (filteredEdges : ModuleEdges N) (hm : m < N) :
    ∃ (s : ℕ) (C : List ℕ), (computeTopologicalSCCOrder filteredEdges)[s]? = some C ∧ m ∈ C := by
  obtain ⟨C, hC, hmC⟩ := List.mem_flatten.mp
    ((flatten_perm_range filteredEdges).mem_iff.mpr (List.mem_range.mpr hm))
  obtain ⟨s, hs⟩ := List.mem_iff_getElem?.mp hC
  exact ⟨s, C, hs, hmC⟩

/-- The level of a module in a component. -/
theorem moduleLevel_eq {s : ℕ} {C : List ℕ}
    (hs : (computeTopologicalSCCOrder filteredEdges)[s]? = some C) (hm : m ∈ C) :
    m < N ∧ moduleLevel filteredEdges m =
      computeSCCLevels (computeTopologicalSCCOrder filteredEdges) filteredEdges s := by
  refine ⟨((mem_component_iff filteredEdges (List.mem_of_getElem? hs)).2.2 m hm).1, ?_⟩
  rw [moduleLevel, moduleToSCC_eq filteredEdges hs hm]

theorem getD_eq_of_getElem? {s : ℕ} {C : List ℕ}
    (hs : (computeTopologicalSCCOrder filteredEdges)[s]? = some C) :
    (computeTopologicalSCCOrder filteredEdges).getD s [] = C := by
  rw [List.getD_eq_getElem?_getD, hs, Option.getD_some]

theorem mem_groupAt {s : ℕ} : s ∈ groupAt filteredEdges level ↔
    (∃ C, (computeTopologicalSCCOrder filteredEdges)[s]? = some C) ∧
      computeSCCLevels (computeTopologicalSCCOrder filteredEdges) filteredEdges s = level := by
  rw [groupAt, levelGroup, List.mem_filter, List.mem_range, decide_eq_true_eq]
  refine and_congr_left fun _ => ⟨fun h => ⟨_, List.getElem?_eq_getElem h⟩, ?_⟩
  rintro ⟨C, hC⟩
  exact (List.getElem?_eq_some_iff.mp hC).1

/-- A component outside cycles consists of its first module. -/
theorem eq_head_of_isTrivial {C : List ℕ} (h : isTrivial filteredEdges C = true) :
    C = [C.headD 0] := by
  unfold isTrivial at h
  split at h
  · rfl
  · exact absurd h (by simp)

/-- **The modules of a level** are those that are processed in it. -/
theorem mem_level_iff :
    (m ∈ trivialModules filteredEdges (computeTopologicalSCCOrder filteredEdges)
        (groupAt filteredEdges level) ∨
      ∃ C ∈ cyclicSCCs filteredEdges (computeTopologicalSCCOrder filteredEdges)
        (groupAt filteredEdges level), m ∈ C) ↔
      m < N ∧ moduleLevel filteredEdges m = level := by
  constructor
  · rintro (hm | ⟨C, hC, hm⟩)
    · obtain ⟨s, hs, rfl⟩ := List.mem_map.mp hm
      obtain ⟨hgroup, htrivial⟩ := List.mem_filter.mp hs
      obtain ⟨⟨C, hC⟩, hlevel⟩ := mem_groupAt.mp hgroup
      rw [getD_eq_of_getElem? hC] at htrivial ⊢
      have hmem : C.headD 0 ∈ C := by
        rw [eq_head_of_isTrivial htrivial]
        exact List.mem_singleton_self _
      exact hlevel ▸ moduleLevel_eq hC hmem
    · obtain ⟨s, hs, rfl⟩ := List.mem_map.mp hC
      obtain ⟨hgroup, -⟩ := List.mem_filter.mp ((List.mem_insertionSort _).mp hs)
      obtain ⟨⟨C, hC⟩, hlevel⟩ := mem_groupAt.mp hgroup
      rw [getD_eq_of_getElem? hC] at hm
      exact hlevel ▸ moduleLevel_eq hC hm
  · rintro ⟨hm, rfl⟩
    obtain ⟨s, C, hC, hmC⟩ := exists_component filteredEdges hm
    have hgroup : s ∈ groupAt filteredEdges (moduleLevel filteredEdges m) :=
      mem_groupAt.mpr ⟨⟨C, hC⟩, (moduleLevel_eq hC hmC).2.symm⟩
    have hget := getD_eq_of_getElem? hC
    by_cases htrivial : isTrivial filteredEdges C = true
    · left
      refine List.mem_map.mpr ⟨s, List.mem_filter.mpr ⟨hgroup, by rwa [hget]⟩, ?_⟩
      rw [eq_head_of_isTrivial htrivial, List.mem_singleton] at hmC
      rw [hget, hmC]
    · right
      refine ⟨C, List.mem_map.mpr ⟨s, (List.mem_insertionSort _).mpr
        (List.mem_filter.mpr ⟨hgroup, ?_⟩), hget⟩, hmC⟩
      rw [hget]
      simpa using htrivial

/-- No module has a level above the last one. -/
theorem moduleLevel_le (hm : m < N) : moduleLevel filteredEdges m ≤
    maxLevel (computeTopologicalSCCOrder filteredEdges)
      (computeSCCLevels (computeTopologicalSCCOrder filteredEdges) filteredEdges) := by
  obtain ⟨s, C, hC, hmC⟩ := exists_component filteredEdges hm
  rw [(moduleLevel_eq hC hmC).2]
  exact le_maxLevel (List.getElem?_eq_some_iff.mp hC).1

/-- A dependency is of the same component, or of a smaller level. -/
theorem sameSCC_or_lt {v w : ℕ} (hv : v < N) (hw : w ∈ filteredEdges.targets v) :
    SameSCC filteredEdges.targets v w ∨
      moduleLevel filteredEdges w < moduleLevel filteredEdges v := by
  obtain ⟨s, C, hC, hvC⟩ := exists_component filteredEdges hv
  obtain ⟨t, D, hD, hwD⟩ := exists_component filteredEdges
    (filteredEdges.targets_lt v w hw)
  by_cases hst : s = t
  · subst hst
    rw [hC] at hD
    obtain rfl := Option.some.inj hD
    exact Or.inl (((mem_component_iff filteredEdges (List.mem_of_getElem? hC)).2.2 v hvC).2 w |>.mp
      hwD)
  · right
    rw [(moduleLevel_eq hC hvC).2, (moduleLevel_eq hD hwD).2]
    exact (isLevel_computeSCCLevels filteredEdges).lt ⟨hst, C, D, hC, hD, v, hvC, w, hw, hwD⟩

/-- The modules of a component have one level. -/
theorem moduleLevel_eq_of_sameSCC {v w : ℕ} (hv : v < N) (h : SameSCC filteredEdges.targets v w) :
    moduleLevel filteredEdges v = moduleLevel filteredEdges w := by
  obtain ⟨s, C, hC, hvC⟩ := exists_component filteredEdges hv
  have hwC : w ∈ C := ((mem_component_iff filteredEdges (List.mem_of_getElem? hC)).2.2 v hvC).2 w
    |>.mpr h
  rw [(moduleLevel_eq hC hvC).2, (moduleLevel_eq hC hwC).2]

/-- A module outside cycles does not depend on its component. -/
theorem not_mem_targets_of_trivial {v w : ℕ}
    (hv : v ∈ trivialModules filteredEdges (computeTopologicalSCCOrder filteredEdges)
      (groupAt filteredEdges level)) (h : SameSCC filteredEdges.targets v w) :
    w ∉ filteredEdges.targets v := by
  obtain ⟨s, hs, rfl⟩ := List.mem_map.mp hv
  obtain ⟨hgroup, htrivial⟩ := List.mem_filter.mp hs
  obtain ⟨⟨C, hC⟩, -⟩ := mem_groupAt.mp hgroup
  rw [getD_eq_of_getElem? hC] at htrivial h ⊢
  have hsingle := eq_head_of_isTrivial htrivial
  have hv : C.headD 0 ∈ C := hsingle ▸ List.mem_singleton_self _
  have hw : w ∈ C := ((mem_component_iff filteredEdges (List.mem_of_getElem? hC)).2.2 _ hv).2 w
    |>.mpr h
  rw [hsingle, List.mem_singleton] at hw
  rw [hsingle] at htrivial
  subst hw
  simpa [isTrivial] using htrivial

/-- What a module reaches is of the same component, or of a smaller level. -/
theorem sameSCC_or_lt_of_reach {v w : ℕ} (hv : v < N) (h : Reach filteredEdges.targets v w) :
    SameSCC filteredEdges.targets v w ∨
      moduleLevel filteredEdges w < moduleLevel filteredEdges v := by
  induction h with
  | refl => exact Or.inl (SameSCC.refl v)
  | @tail u w hvu huw ih =>
    have hu : u < N := reach_lt filteredEdges hvu hv
    rcases ih with hvu' | hlt <;> rcases sameSCC_or_lt hu huw with huw' | hlt'
    · exact Or.inl (hvu'.trans huw')
    · exact Or.inr (moduleLevel_eq_of_sameSCC hv hvu' ▸ hlt')
    · exact Or.inr (moduleLevel_eq_of_sameSCC hu huw' ▸ hlt)
    · exact Or.inr (hlt'.trans hlt)

/-- **Dependencies outside cycles have smaller levels.** -/
theorem moduleLevel_lt {v w : ℕ} (hv : v < N) (h : Reach filteredEdges.targets v w)
    (hback : ¬ Reach filteredEdges.targets w v) :
    moduleLevel filteredEdges w < moduleLevel filteredEdges v :=
  (sameSCC_or_lt_of_reach hv h).resolve_left fun hsame => hback hsame.2

end Levels

/-! ## The whole pass -/

section Run

variable {I Name : Type*} [DecidableEq Name] {ops : SummaryOps I Name}
variable {filteredCalleeNames : ℕ → List Name} {buildModuleSummary : I → ℕ → I}
variable {N : ℕ} {filteredEdges : ModuleEdges N}

/-- **What a level does** for its modules. -/
theorem passStep_level (p : IndexPass I) (level : ℕ) :
    PassStep ops buildModuleSummary {m | m < N ∧ moduleLevel filteredEdges m = level} p
      (processIndexLevel ops filteredCalleeNames buildModuleSummary filteredEdges p level) := by
  have hset : {m | m < N ∧ moduleLevel filteredEdges m = level} =
      {m | m ∈ trivialModules filteredEdges (computeTopologicalSCCOrder filteredEdges)
          (groupAt filteredEdges level)} ∪
        {m | ∃ C ∈ cyclicSCCs filteredEdges (computeTopologicalSCCOrder filteredEdges)
          (groupAt filteredEdges level), m ∈ C} := Set.ext fun m => mem_level_iff.symm
  rw [hset]
  exact (passStep_processTrivial _ p).trans
    (passStep_foldl (fun p scc => passStep_processSCC p scc) _ _)

/-- The invariant of the pass: every module of the levels so far has been summarised against an
index that has met the summaries of all lower levels, its summary has been merged, and since then
only modules of its level or of higher ones have been. -/
structure PassRun (ops : SummaryOps I Name) (buildModuleSummary : I → ℕ → I)
    (filteredEdges : ModuleEdges N) (levels : ℕ) (p : IndexPass I) : Prop where
  grows : GrowsBy ops buildModuleSummary Set.univ ops.empty p.globalIndex
  built : ∀ m < N, moduleLevel filteredEdges m < levels →
    p.moduleSummaries m = buildModuleSummary (p.builtAgainst m) m
  start : ∀ m < N, moduleLevel filteredEdges m < levels →
    GrowsBy ops buildModuleSummary Set.univ ops.empty (p.builtAgainst m)
  met : ∀ m < N, moduleLevel filteredEdges m < levels → ∀ j < N,
    moduleLevel filteredEdges j < moduleLevel filteredEdges m →
      ops.Absorbed ops.empty (p.moduleSummaries j) (p.builtAgainst m)
  absorbed : ∀ m < N, moduleLevel filteredEdges m < levels →
    AbsorbedBy ops buildModuleSummary
      {k | moduleLevel filteredEdges m ≤ moduleLevel filteredEdges k} (p.builtAgainst m)
      (p.moduleSummaries m) p.globalIndex

/-- **One level** preserves the invariant. -/
theorem PassRun.step {levels : ℕ} {p : IndexPass I}
    (h : PassRun ops buildModuleSummary filteredEdges levels p) :
    PassRun ops buildModuleSummary filteredEdges (levels + 1)
      (processIndexLevel ops filteredCalleeNames buildModuleSummary filteredEdges p levels) := by
  have hstep : PassStep ops buildModuleSummary {m | m < N ∧ moduleLevel filteredEdges m = levels} p
      (processIndexLevel ops filteredCalleeNames buildModuleSummary filteredEdges p levels) :=
    passStep_level p levels
  set q := processIndexLevel ops filteredCalleeNames buildModuleSummary filteredEdges p levels
  have hkept : ∀ m, moduleLevel filteredEdges m < levels →
      q.moduleSummaries m = p.moduleSummaries m ∧ q.builtAgainst m = p.builtAgainst m :=
    fun m hm => hstep.kept m fun hmem => absurd hmem.2 (Nat.ne_of_lt hm)
  refine ⟨h.grows.trans (hstep.grows.mono (Set.subset_univ _)), fun m hN hm => ?_,
    fun m hN hm => ?_, fun m hN hm j hj hlt => ?_, fun m hN hm => ?_⟩
  · rcases Nat.lt_succ_iff_lt_or_eq.mp hm with hold | hnew
    · rw [(hkept m hold).1, (hkept m hold).2]
      exact h.built m hN hold
    · exact hstep.built m ⟨hN, hnew⟩
  · rcases Nat.lt_succ_iff_lt_or_eq.mp hm with hold | hnew
    · rw [(hkept m hold).2]
      exact h.start m hN hold
    · exact h.grows.trans ((hstep.before m ⟨hN, hnew⟩).mono (Set.subset_univ _))
  · rcases Nat.lt_succ_iff_lt_or_eq.mp hm with hold | hnew
    · rw [(hkept m hold).2, (hkept j (hlt.trans hold)).1]
      exact h.met m hN hold j hj hlt
    · have hjold : moduleLevel filteredEdges j < levels := hnew ▸ hlt
      rw [(hkept j hjold).1]
      exact (h.absorbed j hj hjold).absorbed.mono (h.start j hj hjold).grows
        (hstep.before m ⟨hN, hnew⟩).grows
  · rcases Nat.lt_succ_iff_lt_or_eq.mp hm with hold | hnew
    · rw [(hkept m hold).1, (hkept m hold).2]
      refine (h.absorbed m hN hold).mono subset_rfl (GrowsBy.refl _) (hstep.grows.mono ?_)
      rintro k ⟨-, hk⟩
      exact hold.le.trans hk.ge
    · refine (hstep.absorbed m ⟨hN, hnew⟩).mono ?_ (GrowsBy.refl _) (GrowsBy.refl _)
      rintro k ⟨-, hk⟩
      exact hnew.le.trans hk.ge

/-- **What the pass does for a module.** -/
theorem processIndexLevels_spec (ops : SummaryOps I Name) (filteredCalleeNames : ℕ → List Name)
    (buildModuleSummary : I → ℕ → I) (filteredEdges : ModuleEdges N) :
    ∃ levels, (∀ m < N, moduleLevel filteredEdges m < levels) ∧
      PassRun ops buildModuleSummary filteredEdges levels
        (processIndexLevels ops filteredCalleeNames buildModuleSummary filteredEdges) := by
  have hlevels : ∀ levels, PassRun ops buildModuleSummary filteredEdges levels
      ((List.range levels).foldl
        (processIndexLevel ops filteredCalleeNames buildModuleSummary filteredEdges)
        ⟨ops.empty, fun _ => ops.empty, fun _ => ops.empty, true⟩) := by
    intro levels
    induction levels with
    | zero =>
      exact ⟨GrowsBy.refl _, fun _ _ h => absurd h (Nat.not_lt_zero _),
        fun _ _ h => absurd h (Nat.not_lt_zero _), fun _ _ h => absurd h (Nat.not_lt_zero _),
        fun _ _ h => absurd h (Nat.not_lt_zero _)⟩
    | succ levels ih =>
      rw [List.range_succ, List.foldl_append, List.foldl_cons, List.foldl_nil]
      exact ih.step
  exact ⟨_, fun m hm => Nat.lt_succ_of_le (moduleLevel_le hm), hlevels _⟩

end Run

end StackAnalyzer.CrossTU
