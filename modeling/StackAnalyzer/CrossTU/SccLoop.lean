import Mathlib

set_option relaxedAutoImplicit false
set_option autoImplicit false

/-!
# The loop over a cyclic component of modules

The modules of a component are summarised against a global index until their summaries stop to
change, at most a number of iterations. From the second iteration on only dirty modules are built
again: those that call a function whose summary has changed. The summaries of an iteration are
merged into the global index before the next one.

## Main definitions

* `StackAnalyzer.CrossTU.SummaryOps` — the operations on indexes.
* `StackAnalyzer.CrossTU.sccIteration`, `StackAnalyzer.CrossTU.processCyclicSCC` — one iteration,
  and the whole loop.
* `StackAnalyzer.CrossTU.SummaryOps.Grows`, `StackAnalyzer.CrossTU.SummaryOps.Absorbed` — an index
  grows by merges, and an index has been merged into another one that has grown since.

## Main results

* `StackAnalyzer.CrossTU.processCyclicSCC_absorbed` — the loop merges the summary that each module
  has against the index at its start.
-/

namespace StackAnalyzer.CrossTU

/-- The operations on indexes: the empty one, merging an index into another one, comparing, and the
names of the functions that changed. -/
structure SummaryOps (I Name : Type*) where
  empty : I
  merge : I → I → I
  equals : I → I → Bool
  changedNames : I → I → List Name

/-- `kCrossTUMaxIterations`. -/
def kCrossTUMaxIterations : ℕ := 12

/-- The variables of the loop over a component. -/
structure SccState (I Name : Type*) where
  globalIndex : I
  moduleSummaries : ℕ → I
  sccPrevSummaries : ℕ → I
  sccChangedNames : List Name

section Loop

variable {I Name : Type*} [DecidableEq Name] (ops : SummaryOps I Name)

/-- Merge the summaries of modules into an index, in order. -/
def mergeAll (dst : I) (modules : List ℕ) (summaries : ℕ → I) : I :=
  modules.foldl (fun index m => ops.merge index (summaries m)) dst

variable (filteredCalleeNames : ℕ → List Name) (buildModuleSummary : I → ℕ → I) (scc : List ℕ)

/-- A module calls a function whose summary has changed. -/
def isDirty (changedNames : List Name) (m : ℕ) : Bool :=
  (filteredCalleeNames m).any fun callee => callee ∈ changedNames

/-- `dirtyInSCC`: all modules in the first iteration. -/
def dirtyInSCC (sccIter : ℕ) (s : SccState I Name) : List ℕ :=
  if sccIter = 0 then scc else scc.filter (isDirty filteredCalleeNames s.sccChangedNames)

/-- The summaries of an iteration: dirty modules are built, the other ones of the component keep
their previous summaries. -/
def iterationSummaries (sccIter : ℕ) (s : SccState I Name) (m : ℕ) : I :=
  if m ∈ dirtyInSCC filteredCalleeNames scc sccIter s then buildModuleSummary s.globalIndex m
  else if m ∈ scc then s.sccPrevSummaries m
  else s.moduleSummaries m

/-- One iteration, and `iterConverged`. The global index is left alone if the summaries have not
changed. -/
def sccIteration (sccIter : ℕ) (s : SccState I Name) : SccState I Name × Bool :=
  let summaries := iterationSummaries filteredCalleeNames buildModuleSummary scc sccIter s
  let sccMerged := mergeAll ops ops.empty scc summaries
  let prevSccMerged := mergeAll ops ops.empty scc s.sccPrevSummaries
  let iterConverged := ops.equals sccMerged prevSccMerged
  ({  globalIndex :=
        if iterConverged then s.globalIndex else mergeAll ops s.globalIndex scc summaries
      moduleSummaries := summaries
      sccPrevSummaries := fun m => if m ∈ scc then summaries m else s.sccPrevSummaries m
      sccChangedNames := ops.changedNames prevSccMerged sccMerged }, iterConverged)

/-- The iterations from `sccIter` on, at most a number of them. -/
def sccLoop : ℕ → ℕ → SccState I Name → SccState I Name
  | 0, _, s => s
  | n + 1, sccIter, s =>
    let r := sccIteration ops filteredCalleeNames buildModuleSummary scc sccIter s
    if r.2 then r.1 else sccLoop n (sccIter + 1) r.1

/-- The state before the first iteration. -/
def sccStart (globalIndex : I) (moduleSummaries : ℕ → I) : SccState I Name :=
  ⟨globalIndex, moduleSummaries, fun _ => ops.empty, []⟩

/-- Process a cyclic component: the global index and the summaries of the modules. -/
def processCyclicSCC (r : I × (ℕ → I)) : I × (ℕ → I) :=
  let s := sccLoop ops filteredCalleeNames buildModuleSummary scc kCrossTUMaxIterations 0
    (sccStart ops r.1 r.2)
  (mergeAll ops s.globalIndex scc s.moduleSummaries, s.moduleSummaries)

/-- The state before an iteration, if the loop gets there, with the global index that each module was
last built against. -/
def sccTrace (start : SccState I Name) : ℕ → Option (SccState I Name × (ℕ → I))
  | 0 => some (start, fun _ => ops.empty)
  | k + 1 =>
    (sccTrace start k).bind fun r =>
      let t := sccIteration ops filteredCalleeNames buildModuleSummary scc k r.1
      if t.2 || k + 1 == kCrossTUMaxIterations then none
      else some (t.1, fun m =>
        if m ∈ dirtyInSCC filteredCalleeNames scc k r.1 then r.1.globalIndex else r.2 m)

/-- The loop if every iteration builds all modules, as the first one does. -/
def fullLoop : ℕ → SccState I Name → SccState I Name
  | 0, s => s
  | n + 1, s =>
    let r := sccIteration ops filteredCalleeNames buildModuleSummary scc 0 s
    if r.2 then r.1 else fullLoop n r.1

/-- `processCyclicSCC` with `fullLoop`. -/
def processCyclicSCCFull (r : I × (ℕ → I)) : I × (ℕ → I) :=
  let s := fullLoop ops filteredCalleeNames buildModuleSummary scc kCrossTUMaxIterations
    (sccStart ops r.1 r.2)
  (mergeAll ops s.globalIndex scc s.moduleSummaries, s.moduleSummaries)

end Loop

/-! ## Growth -/

namespace SummaryOps

variable {I Name : Type*} (ops : SummaryOps I Name)

/-- An index has grown by merges. -/
def Grows : I → I → Prop := Relation.ReflTransGen fun a b => ∃ src, b = ops.merge a src

/-- An index has been merged on the way from one index to another one. -/
def Absorbed (a x b : I) : Prop := ∃ c, ops.Grows a c ∧ ops.Grows (ops.merge c x) b

variable {ops}

theorem Grows.refl (a : I) : ops.Grows a a := Relation.ReflTransGen.refl

theorem Grows.trans {a b c : I} (h : ops.Grows a b) (h' : ops.Grows b c) : ops.Grows a c :=
  Relation.ReflTransGen.trans h h'

theorem grows_merge (a src : I) : ops.Grows a (ops.merge a src) :=
  Relation.ReflTransGen.single ⟨src, rfl⟩

theorem Absorbed.grows {a x b : I} (h : ops.Absorbed a x b) : ops.Grows a b := by
  obtain ⟨c, hac, hcb⟩ := h
  exact (hac.trans (grows_merge c x)).trans hcb

theorem Absorbed.mono {a a' x b b' : I} (h : ops.Absorbed a x b) (ha : ops.Grows a' a)
    (hb : ops.Grows b b') : ops.Absorbed a' x b' := by
  obtain ⟨c, hac, hcb⟩ := h
  exact ⟨c, ha.trans hac, hcb.trans hb⟩

theorem grows_mergeAll (modules : List ℕ) (summaries : ℕ → I) (dst : I) :
    ops.Grows dst (mergeAll ops dst modules summaries) := by
  induction modules generalizing dst with
  | nil => exact Grows.refl dst
  | cons k modules ih => exact (grows_merge dst _).trans (ih _)

/-- Merging the summaries of modules absorbs each of them. -/
theorem absorbed_mergeAll {modules : List ℕ} {summaries : ℕ → I} {m : ℕ} (hm : m ∈ modules)
    (dst : I) : ops.Absorbed dst (summaries m) (mergeAll ops dst modules summaries) := by
  induction modules generalizing dst with
  | nil => simp at hm
  | cons k modules ih =>
    rcases List.mem_cons.mp hm with rfl | hm
    · exact ⟨dst, Grows.refl dst, grows_mergeAll modules summaries _⟩
    · exact (ih hm _).mono (grows_merge dst _) (Grows.refl _)

end SummaryOps

open SummaryOps

section Loop

variable {I Name : Type*} [DecidableEq Name] {ops : SummaryOps I Name}
variable {filteredCalleeNames : ℕ → List Name} {buildModuleSummary : I → ℕ → I} {scc : List ℕ}

theorem grows_sccIteration (sccIter : ℕ) (s : SccState I Name) : ops.Grows s.globalIndex
    (sccIteration ops filteredCalleeNames buildModuleSummary scc sccIter s).1.globalIndex := by
  unfold sccIteration
  simp only
  split_ifs
  · exact Grows.refl _
  · exact grows_mergeAll scc _ _

theorem grows_sccLoop (n sccIter : ℕ) (s : SccState I Name) : ops.Grows s.globalIndex
    (sccLoop ops filteredCalleeNames buildModuleSummary scc n sccIter s).globalIndex := by
  induction n generalizing sccIter s with
  | zero => exact Grows.refl _
  | succ n ih =>
    unfold sccLoop
    simp only
    split_ifs
    · exact grows_sccIteration sccIter s
    · exact (grows_sccIteration sccIter s).trans (ih _ _)

/-- The index grows while a component is processed. -/
theorem grows_processCyclicSCC (r : I × (ℕ → I)) : ops.Grows r.1
    (processCyclicSCC ops filteredCalleeNames buildModuleSummary scc r).1 := by
  set s : SccState I Name := sccStart ops r.1 r.2
  have hloop : ops.Grows s.globalIndex (sccLoop ops filteredCalleeNames buildModuleSummary scc
      kCrossTUMaxIterations 0 s).globalIndex := grows_sccLoop _ _ _
  exact hloop.trans (grows_mergeAll scc _ _)

/-- **The loop absorbs the summary of every module** of the component against the index at its start.

**Proof sketch.** The first iteration builds all modules. If it converges, their summaries are merged
behind the loop, else at its end. -/
theorem processCyclicSCC_absorbed {m : ℕ} (hm : m ∈ scc) (r : I × (ℕ → I)) :
    ops.Absorbed r.1 (buildModuleSummary r.1 m)
      (processCyclicSCC ops filteredCalleeNames buildModuleSummary scc r).1 := by
  have hfirst : iterationSummaries filteredCalleeNames buildModuleSummary scc 0
      (sccStart ops r.1 r.2) m = buildModuleSummary r.1 m := if_pos hm
  unfold processCyclicSCC kCrossTUMaxIterations
  rw [sccLoop]
  simp only
  split_ifs with hconverged
  · have hglobal : (sccIteration ops filteredCalleeNames buildModuleSummary scc 0
        (sccStart ops r.1 r.2)).1.globalIndex = r.1 := if_pos hconverged
    rw [hglobal, ← hfirst]
    exact absorbed_mergeAll hm _
  · refine Absorbed.mono ?_ (Grows.refl _)
      ((grows_sccLoop 11 1 _).trans (grows_mergeAll scc _ _))
    have hglobal : (sccIteration ops filteredCalleeNames buildModuleSummary scc 0
        (sccStart ops r.1 r.2)).1.globalIndex = mergeAll ops r.1 scc
          (iterationSummaries filteredCalleeNames buildModuleSummary scc 0
            (sccStart ops r.1 r.2)) := if_neg hconverged
    rw [hglobal, ← hfirst]
    exact absorbed_mergeAll hm _

end Loop

end StackAnalyzer.CrossTU
