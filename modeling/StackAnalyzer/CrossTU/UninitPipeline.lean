import StackAnalyzer.CrossTU.LevelFixpoint
import StackAnalyzer.Names.CanonicalNames
import StackAnalyzer.Uninit.ModuleSummaries

set_option relaxedAutoImplicit false
set_option autoImplicit false

/-!
# The global index of uninitialized-variable summaries

`buildCrossTUUninitializedSummaryIndex` passes over the levels of the module graph once. A module is
summarised behind the modules that it depends on, or together with those that also depend on it.

## Main definitions

* `StackAnalyzer.CrossTU.summarizeModules` — the pass over the modules of a run.
* `StackAnalyzer.CrossTU.buildCrossTUUninitializedSummaryIndex` — its index.
* `StackAnalyzer.CrossTU.SingleDefinitions` — names that modules look up are defined once.

## Main results

* `StackAnalyzer.CrossTU.summarizeModules_order` — modules see the summaries of their dependencies.
* `StackAnalyzer.CrossTU.summarizeModules_fixpoint` — a converged index summarises all modules as
  they have been.
-/

namespace StackAnalyzer.CrossTU

open Maps Graph Uninit SummaryOps

/-- The operations on indexes of uninitialized-variable summaries. -/
def uninitializedOps : SummaryOps UninitializedSummaryIndex CppString where
  empty := EntryMap.empty
  merge dst src := (mergeUninitializedSummaryIndex dst src).1
  equals := uninitializedSummaryIndexEquals
  changedNames := computeChangedUninitializedFunctionNames

section Pipeline

variable (loadedModules : List SummarizedModule)

/-- The module with a number. -/
def preparedModule (m : ℕ) : SummarizedModule := loadedModules.getD m SummarizedModule.none

/-- The canonical names of the functions that a module defines. -/
def uninitializedDefinedNames (mod : SummarizedModule) : List CppString :=
  (mod.functions.filter fun F => !F.isDeclaration && !F.name.isEmpty).map fun F =>
    canonicalizeMangledName F.name

/-- The names that each module defines. -/
def runDefinedNames : List (List CppString) := loadedModules.map uninitializedDefinedNames

/-- `filteredModuleCalleeNames`: the callees with a single definition. -/
def filteredModuleCalleeNames (m : ℕ) : List CppString :=
  (getCanonicalCalleeNames (preparedModule loadedModules m)).filter
    (isSingleDef (runDefinedNames loadedModules))

/-- `filteredEdges`. -/
def uninitializedEdges : ModuleEdges (runDefinedNames loadedModules).length :=
  buildSingleDefFilteredEdges (runDefinedNames loadedModules) fun m =>
    getCanonicalCalleeNames (preparedModule loadedModules m)

/-- `buildModuleSummary`, against a global index. -/
def summarizeModule (globalIndex : UninitializedSummaryIndex) (m : ℕ) : UninitializedSummaryIndex :=
  buildUninitializedSummaryIndex (preparedModule loadedModules m) globalIndex

/-- The pass over the levels of the module graph. -/
def summarizeModules : IndexPass UninitializedSummaryIndex :=
  processIndexLevels uninitializedOps (filteredModuleCalleeNames loadedModules)
    (summarizeModule loadedModules) (uninitializedEdges loadedModules)

/-- `buildCrossTUUninitializedSummaryIndex`: none if there is nothing to do. -/
def buildCrossTUUninitializedSummaryIndex (uninitializedCrossTU : Bool) :
    Option UninitializedSummaryIndex :=
  if !uninitializedCrossTU || loadedModules.length < 2 then none
  else some (summarizeModules loadedModules).globalIndex

/-- A name that a module looks up and that some module exports has one definition, in another
module than the first one, and canonicalizing it again does not change it. -/
structure SingleDefinitions : Prop where
  stable : ∀ j < loadedModules.length, ∀ name ∈ (preparedModule loadedModules j).exportedNames,
    canonicalizeMangledName name = name
  single : ∀ m < loadedModules.length, ∀ name ∈ (preparedModule loadedModules m).externalNames,
    ∀ j < loadedModules.length, name ∈ (preparedModule loadedModules j).exportedNames →
      j ≠ m ∧ definedBy (runDefinedNames loadedModules) name = [j]

end Pipeline

/-! ## The entries of indexes -/

section Entries

variable {a b : ParamEffect} {fa fb : UninitializedSummaryFunction}
variable {x y z : Option UninitializedSummaryFunction}

/-- Merging an effect that has been merged before changes nothing. -/
theorem mergePublicParamEffect_regular (ha : a.Canonical) (hb : b.Canonical) :
    (mergePublicParamEffect (mergePublicParamEffect a b).1 a).1 =
      (mergePublicParamEffect a b).1 := by
  have hranges : ∀ {r s : List Ranges.Range}, Ranges.Canonical r → Ranges.Canonical s →
      (addPublicRanges (addPublicRanges r s).1 r).1 = (addPublicRanges r s).1 := by
    intro r s hr hs
    obtain ⟨hcan, hcar, -⟩ := addPublicRanges_spec hr s
    obtain ⟨hcan', hcar', -⟩ := addPublicRanges_spec hcan r
    refine hcan'.ext hcan (Set.ext fun n => (hcar' n).trans ⟨?_, Or.inl⟩)
    exact fun h => h.elim id fun hn => (hcar n).mpr (Or.inl hn)
  have hslots : (addSlotWrites (addSlotWrites a.pointerSlotWrites b.pointerSlotWrites).1
      a.pointerSlotWrites).1 = (addSlotWrites a.pointerSlotWrites b.pointerSlotWrites).1 := by
    rw [(addSlotWrites_spec _ ha.slots).1, (addSlotWrites_spec _ hb.slots).1]
    have hold : a.pointerSlotWrites.filter
        (· ∉ a.pointerSlotWrites ++ b.pointerSlotWrites.filter (· ∉ a.pointerSlotWrites)) = [] :=
      List.filter_eq_nil_iff.mpr fun s hs => by simp [hs]
    rw [hold, List.append_nil]
  have hflag : ∀ f g : Bool, (f || g || f) = (f || g) := by decide
  simp only [mergePublicParamEffect, hranges ha.reads hb.reads, hranges ha.writes hb.writes, hslots,
    hflag]

/-- Merging a function that has been merged before changes nothing. -/
theorem joinFunctions_regular (ha : CanonicalFunction fa) (hb : CanonicalFunction fb) :
    joinFunctions (joinFunctions fa fb) fa = joinFunctions fa fb := by
  refine ((ha.join hb).join ha).ext (ha.join hb) fun i => ?_
  rw [getD_join (ha.join hb) ha, getD_join ha hb,
    mergePublicParamEffect_regular (ha.getD i) (hb.getD i)]

/-- Merging an entry that has been merged before changes nothing. -/
theorem joinEntries_regular (hx : CanonicalEntry x) (hy : CanonicalEntry y) :
    joinEntries (joinEntries x y) x = joinEntries x y := by
  cases x with
  | none => rw [joinEntries_none]
  | some fa =>
    cases y with
    | none => rw [joinEntries_none, joinEntries_self hx]
    | some fb => exact congrArg some (joinFunctions_regular (hx fa rfl) (hy fb rfl))

/-- **An entry that has been merged** stays merged. -/
theorem joinEntries_after (hx : CanonicalEntry x) (hy : CanonicalEntry y) (hz : CanonicalEntry z)
    (h : joinEntries x z = x) : joinEntries (joinEntries x y) z = joinEntries x y := by
  calc joinEntries (joinEntries x y) z
      = joinEntries (joinEntries (joinEntries x z) y) z := by rw [h]
    _ = joinEntries x (joinEntries (joinEntries z y) z) := by
        rw [joinEntries_assoc hx hz hy, joinEntries_assoc hx (hz.join hy) hz]
    _ = joinEntries (joinEntries x z) y := by
        rw [joinEntries_regular hz hy, joinEntries_assoc hx hz hy]
    _ = joinEntries x y := by rw [h]

/-- **How the entries of uninitialized-variable indexes behave.** -/
def uninitializedLaws : EntryLaws uninitializedOps UninitializedSummaryFunction where
  Good := StableIndex
  entry index name := index.find name
  good_empty := StableIndex.empty
  good_merge _ _ := StableIndex.merge
  entry_empty _ := rfl
  merge_congr a a' b b' name ha ha' hb hb' h h' := by
    simp only [uninitializedOps, find_mergeUninitializedSummaryIndex ha.canonical hb.canonical,
      find_mergeUninitializedSummaryIndex ha'.canonical hb'.canonical, h, h']
  merge_none a b name ha hb h := by
    simp only [uninitializedOps, find_mergeUninitializedSummaryIndex ha.canonical hb.canonical, h,
      joinEntries_none]
  empty_merge b name hb := by
    have hmerge := find_mergeUninitializedSummaryIndex StableIndex.empty.canonical hb.canonical name
    refine hmerge.trans ?_
    rw [EntryMap.find_empty]
    cases h : b.find name with
    | none => rfl
    | some fn =>
      have hne : fn ≠ [] := fun hnil => hb.nonempty name (hnil ▸ h)
      rw [joinEntries, if_neg hne]
  merge_merge a b name ha hb := by
    have hmerged := ha.merge hb
    have hentry := canonicalIndex_iff.mp hb.canonical name
    simp only [uninitializedOps, find_mergeUninitializedSummaryIndex hmerged.canonical hb.canonical,
      find_mergeUninitializedSummaryIndex ha.canonical hb.canonical]
    rw [joinEntries_assoc (canonicalIndex_iff.mp ha.canonical name) hentry hentry,
      joinEntries_self hentry]
  merge_after a x b name ha hx hb h := by
    have hmerged := ha.merge hx
    simp only [uninitializedOps, find_mergeUninitializedSummaryIndex hmerged.canonical hb.canonical,
      find_mergeUninitializedSummaryIndex ha.canonical hx.canonical,
      find_mergeUninitializedSummaryIndex ha.canonical hb.canonical] at h ⊢
    exact joinEntries_after (canonicalIndex_iff.mp ha.canonical name)
      (canonicalIndex_iff.mp hx.canonical name) (canonicalIndex_iff.mp hb.canonical name) h
  eq_of_equals a b ha hb h :=
    (uninitializedSummaryIndexEquals_iff ha.canonical hb.canonical).mp h
  eq_of_unchanged a b name ha hb h := by
    simp only [uninitializedOps, computeChangedUninitializedFunctionNames,
      EntryMap.mem_changedKeys, not_not] at h
    exact (valueEq_iff (canonicalIndex_iff.mp hb.canonical name)
      (canonicalIndex_iff.mp ha.canonical name)).mp h

end Entries

/-! ## The pass -/

section Pass

variable {loadedModules : List SummarizedModule}

/-- Names do not become empty. -/
theorem dropVersion_ne_nil {version text : List Char} (hne : version ≠ []) (h : text ≠ []) :
    dropVersion version text ≠ [] := by
  obtain ⟨c, rest, rfl⟩ := List.exists_cons_of_ne_nil h
  by_cases hSt : ['S', 't'] <+: c :: rest
  · obtain ⟨rfl, tail, rfl⟩ := St_prefix_iff.mp hSt
    obtain ⟨text, htext⟩ := exists_dropVersion_St hne tail
    rw [htext]
    exact List.cons_ne_nil _ _
  · rw [dropVersion_cons hSt]
    exact List.cons_ne_nil _ _

/-- The name of an exported function is not empty. -/
theorem ne_nil_of_mem_exportedNames {mod : SummarizedModule} {name : CppString}
    (h : name ∈ mod.exportedNames) : name ≠ [] := by
  obtain ⟨F, hF, rfl⟩ := List.mem_map.mp h
  obtain ⟨-, hF⟩ := List.mem_filter.mp hF
  have hname : (mod.function F).name ≠ [] := by
    rintro hnil
    simp [shouldExportFunctionSummary, hnil] at hF
  rw [canonicalizeMangledName_eq]
  exact dropVersion_ne_nil libstdcxxVersion_ne_nil (dropVersion_ne_nil libcxxVersion_ne_nil hname)

/-- A name that a module looks up is that of a callee. -/
theorem mem_getCanonicalCalleeNames {mod : SummarizedModule} {name : CppString}
    (h : name ∈ mod.externalNames) (hne : name ≠ []) : name ∈ getCanonicalCalleeNames mod := by
  obtain ⟨c, hc, rfl⟩ := List.mem_map.mp h
  obtain ⟨F, hF, hcF⟩ := List.mem_flatMap.mp hc
  obtain ⟨hcallee, -⟩ := List.mem_filter.mp hcF
  have hname : (mod.function c).name ≠ [] := by
    intro hnil
    rw [hnil] at hne
    exact hne rfl
  refine List.mem_map.mpr ⟨(c, canonicalizeMangledName (mod.function c).name), ?_, rfl⟩
  refine List.mem_flatMap.mpr ⟨F, hF, List.mem_map.mpr ⟨c, ?_, rfl⟩⟩
  exact List.mem_filter.mpr ⟨hcallee, by simpa using hname⟩

/-- Modules have the summaries of no other ones than those of the run. -/
theorem length_runDefinedNames : (runDefinedNames loadedModules).length = loadedModules.length :=
  List.length_map _

theorem preparedModule_eq_none {j : ℕ} (hj : ¬ j < loadedModules.length) :
    preparedModule loadedModules j = SummarizedModule.none :=
  List.getD_eq_default _ _ (not_lt.mp hj)

/-- **Modules whose names are defined once** look up names with one source. -/
theorem singleSources (h : SingleDefinitions loadedModules) :
    SingleSources uninitializedLaws (summarizeModule loadedModules)
      (filteredModuleCalleeNames loadedModules) (uninitializedEdges loadedModules)
      (fun m => {name | name ∈ (preparedModule loadedModules m).exportedNames})
      fun m => {name | name ∈ (preparedModule loadedModules m).externalNames} := by
  have hlt : ∀ {j name}, name ∈ (preparedModule loadedModules j).exportedNames →
      j < loadedModules.length := by
    intro j name hname
    by_contra hj
    rw [preparedModule_eq_none hj] at hname
    exact absurd hname List.not_mem_nil
  have hstable : ∀ m, ∀ name ∈ (preparedModule loadedModules m).exportedNames,
      canonicalizeMangledName name = name := fun m name hname => h.stable m (hlt hname) name hname
  have hcallee : ∀ m j name, name ∈ (preparedModule loadedModules m).externalNames →
      name ∈ (preparedModule loadedModules j).exportedNames →
        name ∈ getCanonicalCalleeNames (preparedModule loadedModules m) := fun m j name hm hj =>
    mem_getCanonicalCalleeNames hm (ne_nil_of_mem_exportedNames hj)
  refine ⟨fun index m => stableIndex_build (hstable m), fun index m name hname => ?_,
    fun a b m ha hb heq => ?_, fun m hm name hname j hj => ?_, fun m hm name hname j hj => ?_,
    fun m hm name hname j k hj hk => ?_⟩
  · cases hfind : (summarizeModule loadedModules index m).find name with
    | none => exact hfind
    | some fn => exact absurd (mem_exportedNames_of_find hfind) hname
  · refine buildUninitializedSummaryIndex_congr fun name hname => ?_
    rw [find_importExternalSummaryMap ha, find_importExternalSummaryMap hb]
    exact heq name hname
  · rw [length_runDefinedNames] at hm
    obtain ⟨hne, hdef⟩ := h.single m hm name hname j (hlt hj) hj
    exact List.mem_dedup.mpr (List.mem_filterMap.mpr
      ⟨name, hcallee m j name hname hj, singleDefTarget_eq_some.mpr ⟨hdef, hne⟩⟩)
  · rw [length_runDefinedNames] at hm
    refine List.mem_filter.mpr ⟨hcallee m j name hname hj, ?_⟩
    rw [isSingleDef, (h.single m hm name hname j (hlt hj) hj).2]
    rfl
  · rw [length_runDefinedNames] at hm
    have hj := (h.single m hm name hname j (hlt hj) hj).2
    have hk := (h.single m hm name hname k (hlt hk) hk).2
    exact List.singleton_inj.mp (hj.symm.trans hk)

/-- **Modules see the summaries of their dependencies**: each module has been summarised against an
index that the final summaries of all modules that it depends on, but that do not depend on it, have
been merged into, and its own summary has been merged into the final index since.

**Proof sketch.** A module that another one depends on outside cycles has a smaller level. Levels
are processed in order, and summaries are merged in the level in which they are final. -/
theorem summarizeModules_order (loadedModules : List SummarizedModule) (m : ℕ)
    (hm : m < loadedModules.length) :
    let p := summarizeModules loadedModules
    let targets := (uninitializedEdges loadedModules).targets
    ∃ index, p.moduleSummaries m =
        buildUninitializedSummaryIndex (preparedModule loadedModules m) index ∧
      (∀ j, Reach targets m j → ¬ Reach targets j m →
        uninitializedOps.Absorbed EntryMap.empty (p.moduleSummaries j) index) ∧
      uninitializedOps.Absorbed index (p.moduleSummaries m) p.globalIndex := by
  intro p targets
  rw [← length_runDefinedNames] at hm
  obtain ⟨levels, hlevels, hrun⟩ := processIndexLevels_spec uninitializedOps
    (filteredModuleCalleeNames loadedModules) (summarizeModule loadedModules)
    (uninitializedEdges loadedModules)
  have hlevel := hlevels m hm
  refine ⟨p.builtAgainst m, hrun.built m hm hlevel, fun j hj hback => ?_,
    (hrun.absorbed m hm hlevel).absorbed⟩
  have hjN : j < (runDefinedNames loadedModules).length :=
    reach_lt (uninitializedEdges loadedModules) hj hm
  exact hrun.met m hm hlevel j hjN (moduleLevel_lt hm hj hback)

/-- **A converged index is a fixpoint**: if every name that a module looks up and another one
exports is defined once, and the summaries of all cyclic components have converged, then each module
is summarised against the final index as it has been, and the final index contains that summary.

**Proof sketch.** Under a name with one source the index has, once its module is done, what it has
in the end. What a module was summarised against has this as well: modules of lower levels are done,
and in a component that converges the last iterations have changed no summary that is looked up. -/
theorem summarizeModules_fixpoint (loadedModules : List SummarizedModule)
    (h : SingleDefinitions loadedModules)
    (hconverged : (summarizeModules loadedModules).converged = true) (m : ℕ)
    (hm : m < loadedModules.length) :
    let p := summarizeModules loadedModules
    let summary := buildUninitializedSummaryIndex (preparedModule loadedModules m) p.globalIndex
    summary = p.moduleSummaries m ∧ uninitializedSummaryIndexEquals
      (mergeUninitializedSummaryIndex p.globalIndex summary).1 p.globalIndex = true := by
  intro p summary
  rw [← length_runDefinedNames] at hm
  obtain ⟨hgood, hsame⟩ := build_globalIndex_eq (singleSources h) hconverged hm
  have hsummary : summary = p.moduleSummaries m := hsame
  have hstable : StableIndex summary := (singleSources h).good_build p.globalIndex m
  refine ⟨hsummary, (uninitializedSummaryIndexEquals_iff
    (hgood.canonical.merge hstable.canonical) hgood.canonical).mpr fun name => ?_⟩
  rw [hsummary]
  exact merge_globalIndex_eq (singleSources h) hm name

end Pass

/-! ## Two modules that call each other -/

/-- A module whose function writes the first bytes of its parameter, and passes it on to a function
of another module. -/
def mutualModule (name callee : Char) : SummarizedModule where
  functions :=
    [⟨[name], false, false, true, true, 1, [1]⟩, ⟨[callee], true, false, false, false, 1, []⟩]
  analyzeFunction F summaries :=
    if F = 0 then [⟨[], [⟨0, 4⟩], [], false, (summaries 1).isSome⟩] else []
  callees_lt F c h := by
    match F with
    | 0 => simp_all
    | 1 => simp at h
    | F + 2 => simp [ScopeFunction.none] at h
  reads F σ τ h := by
    split_ifs with hF
    · subst hF
      rw [h 1 (by simp)]
    · rfl
  canonical F σ effect h := by
    split_ifs at h
    · rw [List.mem_singleton.mp h]
      exact ⟨.nil, ⟨List.pairwise_singleton _ _, by simp⟩, List.nodup_nil⟩
    · exact absurd h List.not_mem_nil

theorem summarizeModules_order_mutual :
    let loadedModules := [mutualModule 'f' 'g', mutualModule 'g' 'f']
    let p := summarizeModules loadedModules
    let targets := (uninitializedEdges loadedModules).targets
    ∃ index, p.moduleSummaries 0 =
        buildUninitializedSummaryIndex (preparedModule loadedModules 0) index ∧
      (∀ j, Reach targets 0 j → ¬ Reach targets j 0 →
        uninitializedOps.Absorbed EntryMap.empty (p.moduleSummaries j) index) ∧
      uninitializedOps.Absorbed index (p.moduleSummaries 0) p.globalIndex :=
  summarizeModules_order _ 0 (by decide)

theorem summarizeModules_fixpoint_mutual :
    let loadedModules := [mutualModule 'f' 'g', mutualModule 'g' 'f']
    let p := summarizeModules loadedModules
    let summary := buildUninitializedSummaryIndex (preparedModule loadedModules 0) p.globalIndex
    summary = p.moduleSummaries 0 ∧ uninitializedSummaryIndexEquals
      (mergeUninitializedSummaryIndex p.globalIndex summary).1 p.globalIndex = true :=
  summarizeModules_fixpoint _ ⟨by decide, by decide⟩ (by decide) 0 (by decide)

end StackAnalyzer.CrossTU
