import StackAnalyzer.CrossTU.LevelPass

set_option relaxedAutoImplicit false
set_option autoImplicit false

/-!
# When one pass leads to a fixpoint

A pass over the levels of the module graph summarises a module once, or until its component
converges. If every name that a module looks up is exported by one module at most, then the global
index has under these names, in the end, what it had when the module was last summarised. So the
module would be summarised in the same way again.

## Main definitions

* `StackAnalyzer.CrossTU.EntryLaws` — how the entries of indexes behave under merges.
* `StackAnalyzer.CrossTU.SingleSources` — modules that look up names with one source at most.
* `StackAnalyzer.CrossTU.Settled` — modules that see what they were summarised against.

## Main results

* `StackAnalyzer.CrossTU.sccRun_settles` — a component that converges.
* `StackAnalyzer.CrossTU.merge_globalIndex_eq` — the final index contains all summaries.
* `StackAnalyzer.CrossTU.build_globalIndex_eq` — a pass in which all components converge.
-/

namespace StackAnalyzer.CrossTU

open SummaryOps Graph

/-- **How the entries of indexes behave**: a merge is made entry by entry, an index whose entry is
missing changes nothing, and neither does one that has been merged before, not even later. -/
structure EntryLaws {I Name : Type*} (ops : SummaryOps I Name) (Value : Type*) where
  Good : I → Prop
  entry : I → Name → Option Value
  good_empty : Good ops.empty
  good_merge : ∀ a b, Good a → Good b → Good (ops.merge a b)
  entry_empty : ∀ name, entry ops.empty name = none
  merge_congr : ∀ a a' b b' name, Good a → Good a' → Good b → Good b' →
    entry a name = entry a' name → entry b name = entry b' name →
      entry (ops.merge a b) name = entry (ops.merge a' b') name
  merge_none : ∀ a b name, Good a → Good b → entry b name = none →
    entry (ops.merge a b) name = entry a name
  empty_merge : ∀ b name, Good b → entry (ops.merge ops.empty b) name = entry b name
  merge_merge : ∀ a b name, Good a → Good b →
    entry (ops.merge (ops.merge a b) b) name = entry (ops.merge a b) name
  merge_after : ∀ a x b name, Good a → Good x → Good b →
    entry (ops.merge a b) name = entry a name →
      entry (ops.merge (ops.merge a x) b) name = entry (ops.merge a x) name
  eq_of_equals : ∀ a b, Good a → Good b → ops.equals a b = true →
    ∀ name, entry a name = entry b name
  eq_of_unchanged : ∀ a b name, Good a → Good b → name ∉ ops.changedNames a b →
    entry b name = entry a name

/-- **Modules that look up names with one source at most.** A summary has entries for exported names
only, and depends on the entries of the names that are looked up. A name that is looked up is
exported by one module at most, on which the module depends, and it counts for dirty-marking. -/
structure SingleSources {I Name : Type*} {ops : SummaryOps I Name} {Value : Type*}
    (laws : EntryLaws ops Value) (buildModuleSummary : I → ℕ → I)
    (filteredCalleeNames : ℕ → List Name) {N : ℕ} (filteredEdges : ModuleEdges N)
    (exported looksUp : ℕ → Set Name) : Prop where
  good_build : ∀ index m, laws.Good (buildModuleSummary index m)
  entry_build : ∀ index m name, name ∉ exported m →
    laws.entry (buildModuleSummary index m) name = none
  build_congr : ∀ a b m, laws.Good a → laws.Good b →
    (∀ name ∈ looksUp m, laws.entry a name = laws.entry b name) →
      buildModuleSummary a m = buildModuleSummary b m
  mem_targets : ∀ m < N, ∀ name ∈ looksUp m, ∀ j, name ∈ exported j → j ∈ filteredEdges.targets m
  mem_names : ∀ m < N, ∀ name ∈ looksUp m, ∀ j, name ∈ exported j → name ∈ filteredCalleeNames m
  unique : ∀ m < N, ∀ name ∈ looksUp m, ∀ j k, name ∈ exported j → name ∈ exported k → j = k

section Entries

variable {I Name : Type*} {ops : SummaryOps I Name} {Value : Type*} {laws : EntryLaws ops Value}
variable {name : Name}

/-- Merging good indexes yields a good index. -/
theorem good_mergeAll {modules : List ℕ} {summaries : ℕ → I}
    (hgood : ∀ m ∈ modules, laws.Good (summaries m)) {dst : I} (hdst : laws.Good dst) :
    laws.Good (mergeAll ops dst modules summaries) := by
  induction modules generalizing dst with
  | nil => exact hdst
  | cons k modules ih =>
    exact ih (fun m hm => hgood m (List.mem_cons_of_mem k hm))
      (laws.good_merge _ _ hdst (hgood k List.mem_cons_self))

/-- Merging indexes without an entry changes nothing. -/
theorem entry_mergeAll_none {modules : List ℕ} {summaries : ℕ → I}
    (hgood : ∀ m ∈ modules, laws.Good (summaries m))
    (hnone : ∀ m ∈ modules, laws.entry (summaries m) name = none) {dst : I} (hdst : laws.Good dst) :
    laws.entry (mergeAll ops dst modules summaries) name = laws.entry dst name := by
  induction modules generalizing dst with
  | nil => rfl
  | cons k modules ih =>
    have hk := hgood k List.mem_cons_self
    exact (ih (fun m hm => hgood m (List.mem_cons_of_mem k hm))
      (fun m hm => hnone m (List.mem_cons_of_mem k hm)) (laws.good_merge _ _ hdst hk)).trans
      (laws.merge_none _ _ _ hdst hk (hnone k List.mem_cons_self))

/-- Merging indexes of which one has an entry is merging this one. -/
theorem entry_mergeAll_single {modules : List ℕ} {summaries : ℕ → I} {j : ℕ} (hj : j ∈ modules)
    (hnodup : modules.Nodup) (hgood : ∀ m ∈ modules, laws.Good (summaries m))
    (hnone : ∀ m ∈ modules, m ≠ j → laws.entry (summaries m) name = none) {dst : I}
    (hdst : laws.Good dst) :
    laws.entry (mergeAll ops dst modules summaries) name =
      laws.entry (ops.merge dst (summaries j)) name := by
  induction modules generalizing dst with
  | nil => exact absurd hj List.not_mem_nil
  | cons k modules ih =>
    have hk := hgood k List.mem_cons_self
    have hgood' := fun m hm => hgood m (List.mem_cons_of_mem k hm)
    obtain ⟨hkmem, hnodup'⟩ := List.nodup_cons.mp hnodup
    rcases List.mem_cons.mp hj with rfl | hj
    · refine entry_mergeAll_none hgood' (fun m hm => ?_) (laws.good_merge _ _ hdst hk)
      exact hnone m (List.mem_cons_of_mem j hm) fun h => hkmem (h ▸ hm)
    · have hkj : k ≠ j := fun h => hkmem (h ▸ hj)
      have hgoodj := hgood' j hj
      refine (ih hj hnodup' hgood' (fun m hm => hnone m (List.mem_cons_of_mem k hm))
        (laws.good_merge _ _ hdst hk)).trans ?_
      exact laws.merge_congr _ _ _ _ _ (laws.good_merge _ _ hdst hk) hdst hgoodj hgoodj
        (laws.merge_none _ _ _ hdst hk (hnone k List.mem_cons_self hkj)) rfl

end Entries

section Growth

variable {I Name : Type*} {ops : SummaryOps I Name} {Value : Type*} {laws : EntryLaws ops Value}
variable {buildModuleSummary : I → ℕ → I} {exported : ℕ → Set Name}

/-- An index that grows stays good, and keeps the entries that no module exports by which it
grows. -/
theorem entry_of_growsBy (hgood : ∀ index m, laws.Good (buildModuleSummary index m))
    (hnone : ∀ index m name, name ∉ exported m →
      laws.entry (buildModuleSummary index m) name = none) {modules : Set ℕ} {a b : I}
    (hgrows : GrowsBy ops buildModuleSummary modules a b) (ha : laws.Good a) :
    laws.Good b ∧ ∀ name, (∀ m ∈ modules, name ∉ exported m) →
      laws.entry b name = laws.entry a name := by
  induction hgrows with
  | refl => exact ⟨ha, fun _ _ => rfl⟩
  | tail _ hstep ih =>
    obtain ⟨m, hm, index, rfl⟩ := hstep
    have hbuild := hgood index m
    refine ⟨laws.good_merge _ _ ih.1 hbuild, fun name hname => ?_⟩
    rw [laws.merge_none _ _ _ ih.1 hbuild (hnone index m name (hname m hm)), ih.2 name hname]

/-- What has been merged on the way changes nothing when it is merged again. -/
theorem entry_of_absorbedBy (hgood : ∀ index m, laws.Good (buildModuleSummary index m))
    (hnone : ∀ index m name, name ∉ exported m →
      laws.entry (buildModuleSummary index m) name = none) {modules : Set ℕ} {a x b : I}
    (habsorbed : AbsorbedBy ops buildModuleSummary modules a x b) (ha : laws.Good a)
    (hx : laws.Good x) (name : Name) :
    laws.entry (ops.merge b x) name = laws.entry b name := by
  obtain ⟨c, hac, hcb⟩ := habsorbed
  have hc : laws.Good c := (entry_of_growsBy hgood hnone hac ha).1
  have hcx : laws.Good (ops.merge c x) := laws.good_merge _ _ hc hx
  suffices h : laws.Good b ∧ laws.entry (ops.merge b x) name = laws.entry b name from h.2
  induction hcb with
  | refl => exact ⟨hcx, laws.merge_merge _ _ _ hc hx⟩
  | tail _ hstep ih =>
    obtain ⟨m, -, index, rfl⟩ := hstep
    exact ⟨laws.good_merge _ _ ih.1 (hgood index m),
      laws.merge_after _ _ _ _ ih.1 (hgood index m) hx ih.2⟩

end Growth

/-! ## A component that converges -/

section Entry

variable {I Name : Type*} {ops : SummaryOps I Name} {Value : Type*} {laws : EntryLaws ops Value}
variable {exported looksUp : ℕ → Set Name} {scc : List ℕ}

/-- A module is the only one of a component that exports a name. -/
structure IsSource (exported : ℕ → Set Name) (scc : List ℕ) (j : ℕ) (name : Name) : Prop where
  mem : j ∈ scc
  exports : name ∈ exported j
  unique : ∀ i ∈ scc, name ∈ exported i → i = j

/-- The invariant of the loop over a component: the global index has absorbed the previous summaries
under names with one source, and under those that have not changed it has what modules were
summarised against. -/
structure EntryRun (laws : EntryLaws ops Value) (exported looksUp : ℕ → Set Name) (scc : List ℕ)
    (sccIter : ℕ) (s : SccState I Name) (built : ℕ → I) : Prop where
  good : laws.Good s.globalIndex
  goodPrev : ∀ m ∈ scc, laws.Good (s.sccPrevSummaries m)
  nonePrev : ∀ m ∈ scc, ∀ name ∉ exported m, laws.entry (s.sccPrevSummaries m) name = none
  absorbs : ∀ j name, IsSource exported scc j name →
    laws.entry (ops.merge s.globalIndex (s.sccPrevSummaries j)) name = laws.entry s.globalIndex name
  kept : 0 < sccIter → ∀ m ∈ scc, ∀ name ∈ looksUp m, ∀ j, IsSource exported scc j name →
    name ∉ s.sccChangedNames → laws.entry (built m) name = laws.entry s.globalIndex name

/-- What was merged before an iteration under a name with one source. -/
theorem EntryRun.entry_prevMerged {sccIter : ℕ} {s : SccState I Name} {built : ℕ → I}
    (hrun : EntryRun laws exported looksUp scc sccIter s built) (hnodup : scc.Nodup) {j : ℕ}
    {name : Name} (hj : IsSource exported scc j name) :
    laws.entry (mergeAll ops ops.empty scc s.sccPrevSummaries) name =
      laws.entry (s.sccPrevSummaries j) name :=
  (entry_mergeAll_single hj.mem hnodup hrun.goodPrev
    (fun m hm hne => hrun.nonePrev m hm name fun hname => hne (hj.unique m hm hname))
    laws.good_empty).trans (laws.empty_merge _ _ (hrun.goodPrev j hj.mem))

/-- The invariant holds before the first iteration. -/
theorem EntryRun.start {globalIndex : I} (hgood : laws.Good globalIndex) (moduleSummaries : ℕ → I)
    (built : ℕ → I) : EntryRun laws exported looksUp scc 0
      (sccStart ops globalIndex moduleSummaries) built :=
  ⟨hgood, fun _ _ => laws.good_empty, fun _ _ name _ => laws.entry_empty name,
    fun _ name _ => laws.merge_none _ _ name hgood laws.good_empty (laws.entry_empty name),
    fun h => absurd h (lt_irrefl 0)⟩

end Entry

section Component

variable {I Name : Type*} [DecidableEq Name] {ops : SummaryOps I Name} {Value : Type*}
variable {laws : EntryLaws ops Value} {buildModuleSummary : I → ℕ → I}
variable {filteredCalleeNames : ℕ → List Name} {N : ℕ} {filteredEdges : ModuleEdges N}
variable {exported looksUp : ℕ → Set Name} {scc : List ℕ}
variable {sccIter : ℕ} {s : SccState I Name} {built : ℕ → I}
variable (h : SingleSources laws buildModuleSummary filteredCalleeNames filteredEdges exported
  looksUp)
include h

/-- The summaries of an iteration are good, and have entries for exported names only. -/
theorem EntryRun.summaries (hrun : EntryRun laws exported looksUp scc sccIter s built) {m : ℕ}
    (hm : m ∈ scc) :
    laws.Good (iterationSummaries filteredCalleeNames buildModuleSummary scc sccIter s m) ∧
      ∀ name ∉ exported m, laws.entry
          (iterationSummaries filteredCalleeNames buildModuleSummary scc sccIter s m) name =
        none := by
  rw [iterationSummaries]
  split_ifs
  · exact ⟨h.good_build _ m, h.entry_build _ m⟩
  · exact ⟨hrun.goodPrev m hm, hrun.nonePrev m hm⟩

/-- What an iteration merges under a name with one source. -/
theorem EntryRun.entry_merged (hrun : EntryRun laws exported looksUp scc sccIter s built)
    (hnodup : scc.Nodup) {j : ℕ} {name : Name} (hj : IsSource exported scc j name) {dst : I}
    (hdst : laws.Good dst) :
    laws.entry (mergeAll ops dst scc
        (iterationSummaries filteredCalleeNames buildModuleSummary scc sccIter s)) name =
      laws.entry (ops.merge dst
        (iterationSummaries filteredCalleeNames buildModuleSummary scc sccIter s j)) name :=
  entry_mergeAll_single hj.mem hnodup (fun _ hm => (hrun.summaries h hm).1)
    (fun m hm hne => (hrun.summaries h hm).2 name fun hname => hne (hj.unique m hm hname)) hdst

/-- **A name that has not changed** keeps its entry when the summaries are merged. -/
theorem EntryRun.entry_of_same (hrun : EntryRun laws exported looksUp scc sccIter s built)
    (hnodup : scc.Nodup) {j : ℕ} {name : Name} (hj : IsSource exported scc j name)
    (hsame : laws.entry (mergeAll ops ops.empty scc
        (iterationSummaries filteredCalleeNames buildModuleSummary scc sccIter s)) name =
      laws.entry (mergeAll ops ops.empty scc s.sccPrevSummaries) name) :
    laws.entry (mergeAll ops s.globalIndex scc
        (iterationSummaries filteredCalleeNames buildModuleSummary scc sccIter s)) name =
      laws.entry s.globalIndex name := by
  have hgood : laws.Good
      (iterationSummaries filteredCalleeNames buildModuleSummary scc sccIter s j) :=
    (hrun.summaries h hj.mem).1
  rw [hrun.entry_merged h hnodup hj laws.good_empty, laws.empty_merge _ _ hgood,
    hrun.entry_prevMerged hnodup hj] at hsame
  rw [hrun.entry_merged h hnodup hj hrun.good, ← hrun.absorbs j name hj]
  exact laws.merge_congr _ _ _ _ _ hrun.good hrun.good hgood (hrun.goodPrev j hj.mem) rfl hsame

/-- A module that is not built again has met what the global index has. -/
theorem EntryRun.entry_built (hrun : EntryRun laws exported looksUp scc sccIter s built)
    {m j : ℕ} {name : Name} (hN : m < N) (hm : m ∈ scc) (hname : name ∈ looksUp m)
    (hj : IsSource exported scc j name) :
    laws.entry (if m ∈ dirtyInSCC filteredCalleeNames scc sccIter s then s.globalIndex
      else built m) name = laws.entry s.globalIndex name := by
  split_ifs with hdirty
  · rfl
  · have hiter := pos_of_not_dirty hm hdirty
    refine hrun.kept hiter m hm name hname j hj fun hchanged => hdirty ?_
    rw [dirtyInSCC, if_neg hiter.ne']
    refine List.mem_filter.mpr ⟨hm, List.any_eq_true.mpr ⟨name, ?_, by simpa using hchanged⟩⟩
    exact h.mem_names m hN name hname j hj.exports

/-- **One iteration** that does not converge preserves the invariant. -/
theorem EntryRun.step (hrun : EntryRun laws exported looksUp scc sccIter s built)
    (hnodup : scc.Nodup) (hN : ∀ m ∈ scc, m < N)
    (hgoes : ¬ (sccIteration ops filteredCalleeNames buildModuleSummary scc sccIter s).2 = true) :
    EntryRun laws exported looksUp scc (sccIter + 1)
      (sccIteration ops filteredCalleeNames buildModuleSummary scc sccIter s).1
      fun m => if m ∈ dirtyInSCC filteredCalleeNames scc sccIter s then s.globalIndex
        else built m := by
  set summaries := iterationSummaries filteredCalleeNames buildModuleSummary scc sccIter s
   
  set t := (sccIteration ops filteredCalleeNames buildModuleSummary scc sccIter s).1
  have hglobal : t.globalIndex = mergeAll ops s.globalIndex scc summaries := if_neg hgoes
  have hprev : ∀ m ∈ scc, t.sccPrevSummaries m = summaries m := fun m hm => if_pos hm
  have hgoods : ∀ m ∈ scc, laws.Good (summaries m) := fun m hm => (hrun.summaries h hm).1
  have hmerged : laws.Good (mergeAll ops ops.empty scc summaries) :=
    good_mergeAll hgoods laws.good_empty
  have hprevMerged : laws.Good (mergeAll ops ops.empty scc s.sccPrevSummaries) :=
    good_mergeAll hrun.goodPrev laws.good_empty
  refine ⟨?_, fun m hm => ?_, fun m hm name hname => ?_, fun j name hj => ?_,
    fun _ m hm name hname j hj hch => ?_⟩
  · rw [hglobal]
    exact good_mergeAll hgoods hrun.good
  · rw [hprev m hm]
    exact hgoods m hm
  · rw [hprev m hm]
    exact (hrun.summaries h hm).2 name hname
  · rw [hprev j hj.mem, hglobal]
    have hentry := hrun.entry_merged h hnodup hj hrun.good
    have hgoodj := hgoods j hj.mem
    rw [hentry, ← laws.merge_merge _ _ _ hrun.good hgoodj]
    exact laws.merge_congr _ _ _ _ _ (good_mergeAll hgoods hrun.good)
      (laws.good_merge _ _ hrun.good hgoodj) hgoodj hgoodj hentry rfl
  · have hsame := hrun.entry_of_same h hnodup hj
      (laws.eq_of_unchanged _ _ _ hprevMerged hmerged hch)
    rw [hglobal, hsame]
    exact hrun.entry_built h (hN m hm) hm hname hj

/-- **A component that converges**: what a module of it was last summarised against has the final
entries of the names that modules of the component export. -/
theorem sccRun_settles (hrun : EntryRun laws exported looksUp scc sccIter s built)
    (hnodup : scc.Nodup) (hN : ∀ m ∈ scc, m < N) {n : ℕ}
    (hconverged : (sccRun ops filteredCalleeNames buildModuleSummary scc n sccIter s built).2.2 =
      true) {m j : ℕ} {name : Name} (hm : m ∈ scc) (hname : name ∈ looksUp m)
    (hj : IsSource exported scc j name) :
    let r := sccRun ops filteredCalleeNames buildModuleSummary scc n sccIter s built
    laws.entry (r.2.1 m) name =
      laws.entry (mergeAll ops r.1.globalIndex scc r.1.moduleSummaries) name := by
  induction n generalizing sccIter s built with
  | zero => exact Bool.noConfusion hconverged
  | succ n ih =>
    intro r
    rw [sccRun] at hconverged
    simp only [r, sccRun]
    split_ifs at hconverged ⊢ with hiter
    · set summaries := iterationSummaries filteredCalleeNames buildModuleSummary scc sccIter s
      have hglobal : (sccIteration ops filteredCalleeNames buildModuleSummary scc sccIter
          s).1.globalIndex = s.globalIndex := if_pos hiter
      have hgoods : ∀ k ∈ scc, laws.Good (summaries k) := fun k hk => (hrun.summaries h hk).1
      have hsame := laws.eq_of_equals _ _ (good_mergeAll hgoods laws.good_empty)
        (good_mergeAll hrun.goodPrev laws.good_empty) hiter name
      calc laws.entry (if m ∈ dirtyInSCC filteredCalleeNames scc sccIter s then s.globalIndex
              else built m) name
          = laws.entry s.globalIndex name := hrun.entry_built h (hN m hm) hm hname hj
        _ = laws.entry (mergeAll ops s.globalIndex scc summaries) name :=
            (hrun.entry_of_same h hnodup hj hsame).symm
        _ = _ := by rw [hglobal]; rfl
    · exact ih (hrun.step h hnodup hN hiter) hconverged

end Component

/-! ## The pass -/

section Settled

variable {I Name : Type*} {ops : SummaryOps I Name} {Value : Type*}
variable {laws : EntryLaws ops Value} {buildModuleSummary : I → ℕ → I}
variable {filteredCalleeNames : ℕ → List Name} {N : ℕ} {filteredEdges : ModuleEdges N}
variable {exported looksUp : ℕ → Set Name} {A B : Set ℕ} {p q : IndexPass I}

/-- **Modules that see what they were summarised against**: as long as all components have
converged, the global index has the entries of the index that a module was last summarised against,
under all names that it looks up. -/
structure Settled (laws : EntryLaws ops Value) (looksUp : ℕ → Set Name) (A : Set ℕ)
    (p : IndexPass I) : Prop where
  good : laws.Good p.globalIndex
  same : p.converged = true → ∀ m ∈ A, ∀ name ∈ looksUp m,
    laws.entry (p.builtAgainst m) name = laws.entry p.globalIndex name

variable (h : SingleSources laws buildModuleSummary filteredCalleeNames filteredEdges exported
  looksUp)
include h

/-- **A step** keeps settled what looks up no names that the modules of the step export. -/
theorem Settled.step (hp : Settled laws looksUp A p)
    (hstep : PassStep ops buildModuleSummary B p q)
    (hconverged : q.converged = true → p.converged = true)
    (hapart : ∀ m ∈ A, m ∉ B → ∀ name ∈ looksUp m, ∀ j ∈ B, name ∉ exported j)
    (hnew : q.converged = true → ∀ m ∈ B, ∀ name ∈ looksUp m, ∀ j ∈ B, name ∈ exported j →
      laws.entry (q.builtAgainst m) name = laws.entry q.globalIndex name) :
    Settled laws looksUp (A ∪ B) q := by
  obtain ⟨hgood, hentry⟩ := entry_of_growsBy h.good_build h.entry_build hstep.grows hp.good
  refine ⟨hgood, fun hq m hm name hname => ?_⟩
  by_cases hmB : m ∈ B
  · by_cases hsource : ∃ j ∈ B, name ∈ exported j
    · obtain ⟨j, hj, hjname⟩ := hsource
      exact hnew hq m hmB name hname j hj hjname
    · have hnone : ∀ j ∈ B, name ∉ exported j := fun j hj hjname => hsource ⟨j, hj, hjname⟩
      rw [hentry name hnone]
      exact (entry_of_growsBy h.good_build h.entry_build (hstep.before m hmB) hp.good).2 name hnone
  · have hmA := hm.resolve_right hmB
    rw [(hstep.kept m hmB).2, hp.same (hconverged hq) m hmA name hname]
    exact (hentry name (hapart m hmA hmB name hname)).symm

/-- What is looked up in a module of the same level is in a component with it. -/
theorem sameSCC_of_looksUp {m j : ℕ} {name : Name} (hm : m < N) (hname : name ∈ looksUp m)
    (hj : name ∈ exported j)
    (hlevel : moduleLevel filteredEdges m ≤ moduleLevel filteredEdges j) :
    j ∈ filteredEdges.targets m ∧ SameSCC filteredEdges.targets m j := by
  have htarget := h.mem_targets m hm name hname j hj
  exact ⟨htarget, (sameSCC_or_lt hm htarget).resolve_right hlevel.not_gt⟩

/-- **The modules outside cycles** of a level. -/
theorem Settled.processTrivial {level : ℕ} (hp : Settled laws looksUp A p)
    (hA : ∀ m ∈ A, m < N ∧ moduleLevel filteredEdges m < level) :
    let modules := trivialModules filteredEdges (computeTopologicalSCCOrder filteredEdges)
      (groupAt filteredEdges level)
    Settled laws looksUp (A ∪ {m | m ∈ modules})
      (CrossTU.processTrivial ops buildModuleSummary modules p) := by
  intro modules
  have hlevel : ∀ m ∈ modules, m < N ∧ moduleLevel filteredEdges m = level :=
    fun m hm => mem_level_iff.mp (Or.inl hm)
  refine hp.step h (passStep_processTrivial modules p) id
    (fun m hm _ name hname j hj hjname => ?_) fun _ m hm name hname j hj hjname => ?_
  · have hlt := (hA m hm).2.trans_eq (hlevel j hj).2.symm
    have hback := (sameSCC_of_looksUp h (hA m hm).1 hname hjname hlt.le).2
    exact hlt.ne (moduleLevel_eq_of_sameSCC (hA m hm).1 hback)
  · -- a module outside cycles is not its own dependency
    obtain ⟨htarget, hback⟩ := sameSCC_of_looksUp h (hlevel m hm).1 hname hjname
      ((hlevel m hm).2.trans (hlevel j hj).2.symm).le
    exact absurd htarget (not_mem_targets_of_trivial hm hback)

end Settled

section Pass

variable {I Name : Type*} [DecidableEq Name] {ops : SummaryOps I Name} {Value : Type*}
variable {laws : EntryLaws ops Value} {buildModuleSummary : I → ℕ → I}
variable {filteredCalleeNames : ℕ → List Name} {N : ℕ} {filteredEdges : ModuleEdges N}
variable {exported looksUp : ℕ → Set Name} {A : Set ℕ} {p : IndexPass I}
variable (h : SingleSources laws buildModuleSummary filteredCalleeNames filteredEdges exported
  looksUp)
include h

/-- **A cyclic component** of a level. -/
theorem Settled.processSCC {level : ℕ} (hp : Settled laws looksUp A p)
    (hA : ∀ m ∈ A, m < N ∧ moduleLevel filteredEdges m ≤ level) {scc : List ℕ}
    (hscc : scc ∈ cyclicSCCs filteredEdges (computeTopologicalSCCOrder filteredEdges)
      (groupAt filteredEdges level)) :
    Settled laws looksUp (A ∪ {m | m ∈ scc})
      (processSCC ops filteredCalleeNames buildModuleSummary p scc) := by
  have hlevel : ∀ m ∈ scc, m < N ∧ moduleLevel filteredEdges m = level :=
    fun m hm => mem_level_iff.mp (Or.inr ⟨scc, hscc, hm⟩)
  have hmem : scc ∈ computeTopologicalSCCOrder filteredEdges := by
    obtain ⟨s, hs, rfl⟩ := List.mem_map.mp hscc
    obtain ⟨⟨C, hC⟩, -⟩ :=
      mem_groupAt.mp (List.mem_filter.mp ((List.mem_insertionSort _).mp hs)).1
    rw [getD_eq_of_getElem? hC]
    exact List.mem_of_getElem? hC
  obtain ⟨-, hnodup, hsame⟩ := mem_component_iff filteredEdges hmem
  refine hp.step h (passStep_processSCC p scc) (fun hq => ((Bool.and_eq_true _ _).mp hq).1)
    (fun m hm hmscc name hname j hj hjname => hmscc ?_) fun hq m hm name hname j hj hjname => ?_
  · have hjm := (sameSCC_of_looksUp h (hA m hm).1 hname hjname
      ((hA m hm).2.trans (hlevel j hj).2.ge)).2
    exact ((hsame j hj).2 m).mpr hjm.symm
  · have hsource : IsSource exported scc j name :=
      ⟨hj, hjname, fun i _ hi => h.unique m (hlevel m hm).1 name hname i j hi hjname⟩
    exact sccRun_settles h (EntryRun.start hp.good _ _) hnodup (fun k hk => (hlevel k hk).1)
      ((Bool.and_eq_true _ _).mp hq).2 hm hname hsource

/-- **One level.** -/
theorem Settled.processIndexLevel {level : ℕ}
    (hp : Settled laws looksUp {m | m < N ∧ moduleLevel filteredEdges m < level} p) :
    Settled laws looksUp {m | m < N ∧ moduleLevel filteredEdges m < level + 1}
      (processIndexLevel ops filteredCalleeNames buildModuleSummary filteredEdges p level) := by
  have hfold : ∀ (sccs : List (List ℕ)) (A : Set ℕ) (p : IndexPass I),
      (∀ scc ∈ sccs, scc ∈ cyclicSCCs filteredEdges (computeTopologicalSCCOrder filteredEdges)
        (groupAt filteredEdges level)) →
      (∀ m ∈ A, m < N ∧ moduleLevel filteredEdges m ≤ level) → Settled laws looksUp A p →
      Settled laws looksUp (A ∪ {m | ∃ scc ∈ sccs, m ∈ scc})
        (sccs.foldl (CrossTU.processSCC ops filteredCalleeNames buildModuleSummary) p) := by
    intro sccs
    induction sccs with
    | nil =>
      intro A p _ _ hp
      have hset : A ∪ {m | ∃ scc ∈ ([] : List (List ℕ)), m ∈ scc} = A := by simp
      rw [hset]
      exact hp
    | cons scc sccs ih =>
      intro A p hsccs hA hp
      have hset : A ∪ {m | ∃ C ∈ scc :: sccs, m ∈ C} =
          A ∪ {m | m ∈ scc} ∪ {m | ∃ C ∈ sccs, m ∈ C} := by
        ext m
        simp [or_assoc]
      have hlevel : ∀ m ∈ scc, m < N ∧ moduleLevel filteredEdges m = level :=
        fun m hm => mem_level_iff.mp (Or.inr ⟨scc, hsccs scc List.mem_cons_self, hm⟩)
      rw [hset, List.foldl_cons]
      refine ih _ _ (fun C hC => hsccs C (List.mem_cons_of_mem scc hC)) (fun m hm => ?_)
        (hp.processSCC h hA (hsccs scc List.mem_cons_self))
      exact hm.elim (hA m) fun hm => ⟨(hlevel m hm).1, (hlevel m hm).2.le⟩
  have htrivial := hp.processTrivial h fun m hm => hm
  have hall := hfold _ _ _ (fun _ hscc => hscc) (fun m hm => ?_) htrivial
  · refine ⟨hall.good, fun hq m hm => hall.same hq m ?_⟩
    rcases Nat.lt_succ_iff_lt_or_eq.mp hm.2 with hold | hnew
    · exact Or.inl (Or.inl ⟨hm.1, hold⟩)
    · exact (mem_level_iff.mpr ⟨hm.1, hnew⟩).imp Or.inr id
  · rcases hm with hm | hm
    · exact ⟨hm.1, hm.2.le⟩
    · have hlevel := mem_level_iff.mp (Or.inl hm)
      exact ⟨hlevel.1, hlevel.2.le⟩

/-- **The pass loses nothing**: the final index contains the summaries of all modules. -/
theorem merge_globalIndex_eq {m : ℕ} (hm : m < N) (name : Name) :
    let p := processIndexLevels ops filteredCalleeNames buildModuleSummary filteredEdges
    laws.entry (ops.merge p.globalIndex (p.moduleSummaries m)) name =
      laws.entry p.globalIndex name := by
  intro p
  obtain ⟨levels, hlevels, hrun⟩ :=
    processIndexLevels_spec ops filteredCalleeNames buildModuleSummary filteredEdges
  have hlevel := hlevels m hm
  have hbuilt := (entry_of_growsBy h.good_build h.entry_build (hrun.start m hm hlevel)
    laws.good_empty).1
  refine entry_of_absorbedBy h.good_build h.entry_build (hrun.absorbed m hm hlevel) hbuilt ?_ name
  rw [hrun.built m hm hlevel]
  exact h.good_build _ m

/-- Behind the pass all modules see what they were summarised against. -/
theorem settled_processIndexLevels : Settled laws looksUp {m | m < N}
    (processIndexLevels ops filteredCalleeNames buildModuleSummary filteredEdges) := by
  have hlevels : ∀ levels, Settled laws looksUp {m | m < N ∧ moduleLevel filteredEdges m < levels}
      ((List.range levels).foldl
        (CrossTU.processIndexLevel ops filteredCalleeNames buildModuleSummary filteredEdges)
        ⟨ops.empty, fun _ => ops.empty, fun _ => ops.empty, true⟩) := by
    intro levels
    induction levels with
    | zero => exact ⟨laws.good_empty, fun _ m hm => absurd hm.2 (Nat.not_lt_zero _)⟩
    | succ levels ih =>
      rw [List.range_succ, List.foldl_append, List.foldl_cons, List.foldl_nil]
      exact ih.processIndexLevel h
  have hall := hlevels (maxLevel (computeTopologicalSCCOrder filteredEdges)
    (computeSCCLevels (computeTopologicalSCCOrder filteredEdges) filteredEdges) + 1)
  exact ⟨hall.good, fun hconverged m hm =>
    hall.same hconverged m ⟨hm, Nat.lt_succ_of_le (moduleLevel_le hm)⟩⟩

/-- **A pass in which all components converge is a fixpoint**: the final index summarises every
module as it has been. -/
theorem build_globalIndex_eq
    (hconverged : (processIndexLevels ops filteredCalleeNames buildModuleSummary
      filteredEdges).converged = true) {m : ℕ} (hm : m < N) :
    let p := processIndexLevels ops filteredCalleeNames buildModuleSummary filteredEdges
    laws.Good p.globalIndex ∧ buildModuleSummary p.globalIndex m = p.moduleSummaries m := by
  intro p
  obtain ⟨levels, hlevels, hrun⟩ :=
    processIndexLevels_spec ops filteredCalleeNames buildModuleSummary filteredEdges
  have hsettled := settled_processIndexLevels h
  have hbuilt := (entry_of_growsBy h.good_build h.entry_build (hrun.start m hm (hlevels m hm))
    laws.good_empty).1
  refine ⟨hsettled.good, ?_⟩
  rw [hrun.built m hm (hlevels m hm)]
  exact h.build_congr _ _ m hsettled.good hbuilt fun name hname =>
    (hsettled.same hconverged m hm name hname).symm

end Pass

end StackAnalyzer.CrossTU
