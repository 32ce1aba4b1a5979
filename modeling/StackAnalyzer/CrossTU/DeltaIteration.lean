import StackAnalyzer.CrossTU.ResourcePipeline
import StackAnalyzer.Resource.SummaryRounds

set_option relaxedAutoImplicit false
set_option autoImplicit false

/-!
# Skipping clean modules

From its second iteration on, the loop over a cyclic component builds only those modules again that
call a function whose summary has changed. The names that count are those of functions with a single
definition. A module looks up other names too, and the summaries under these may have changed when
it is skipped.

## Main definitions

* `StackAnalyzer.CrossTU.deltaTrace` — the states before each iteration.
* `StackAnalyzer.CrossTU.UnfilteredKept` — nothing has changed for skipped modules under the names
  that do not count.

## Main results

* `StackAnalyzer.CrossTU.deltaIteration_eq_full` — in runs where this is so, skipping modules changes
  nothing.
-/

namespace StackAnalyzer.CrossTU

open Maps SummaryOps

section Delta

variable (cfg : ResourceConfig) (loadedModules : List LoadedModule) (scc : List ℕ)

/-- `filteredResourceCalleeNames` of a run. -/
def runCalleeNames : ℕ → List CppString :=
  filteredResourceCalleeNames (loadedModules.map fun loaded => cfg.moduleOf loaded.ir)

/-- The states of the loop over a component. -/
def deltaTrace (r : ResourceSummaryIndex × (ℕ → ResourceSummaryIndex)) :
    ℕ → Option (SccState ResourceSummaryIndex CppString × (ℕ → ResourceSummaryIndex)) :=
  sccTrace resourceOps (runCalleeNames cfg loadedModules) (buildModuleSummary cfg loadedModules) scc
    (sccStart resourceOps r.1 r.2)

/-- The modules that an iteration builds. -/
def dirtyModules (sccIter : ℕ) (s : SccState ResourceSummaryIndex CppString) : List ℕ :=
  dirtyInSCC (runCalleeNames cfg loadedModules) scc sccIter s

/-- **What skipped modules look up without being marked for it**: under every name that a skipped
module looks up, and that is not among its names for dirty-marking, the global index has what it had
when the module was last built. -/
def UnfilteredKept (sccIter : ℕ) (s : SccState ResourceSummaryIndex CppString)
    (built : ℕ → ResourceSummaryIndex) : Prop :=
  ∀ m ∈ scc, m ∉ dirtyModules cfg loadedModules scc sccIter s →
    ∀ entry ∈ s.globalIndex.entries, entry.1 ∉ runCalleeNames cfg loadedModules m →
      canonicalizeMangledName entry.1 ∈
          Resource.consultedNames (cfg.moduleOf (loadedModule loadedModules m).ir) →
        (built m).find entry.1 = some entry.2

instance (sccIter : ℕ) (s : SccState ResourceSummaryIndex CppString)
    (built : ℕ → ResourceSummaryIndex) :
    Decidable (UnfilteredKept cfg loadedModules scc sccIter s built) :=
  inferInstanceAs (Decidable (∀ m ∈ scc, _))

end Delta

/-! ## Single names -/

section Names

variable {a b dst src : ResourceSummaryIndex} {name : CppString}

/-- Under a name, an index contains what another one does. -/
def ContainedAt (src dst : ResourceSummaryIndex) (name : CppString) : Prop :=
  (Defines src name → Defines dst name) ∧
    ∀ effect, HasEffect src name effect → HasEffect dst name effect

theorem Contained.at (h : Contained src dst) (name : CppString) : ContainedAt src dst name :=
  ⟨h.1 name, h.2 name⟩

/-- Merging what is contained changes nothing. -/
theorem find_merge_of_containedAt (h : ContainedAt src dst name) :
    (mergeResourceSummaryIndex dst src).1.find name = dst.find name := by
  rw [find_mergeResourceSummaryIndex]
  obtain ⟨hdef, heff⟩ := h
  cases hs : src.find name with
  | none => cases dst.find name <;> rfl
  | some s =>
    obtain ⟨d, hd⟩ := hdef ⟨s, hs⟩
    rw [hd]
    refine congrArg some ((mergeEffects_spec d s).2.2.2 fun effect he => ?_)
    obtain ⟨d', hd', he'⟩ := heff effect ⟨s, hs, he⟩
    rw [hd] at hd'
    exact Option.some.inj hd' ▸ he'

/-- Merging indexes that are contained changes nothing. -/
theorem find_mergeAll_of_containedAt {modules : List ℕ} {summaries : ℕ → ResourceSummaryIndex}
    (h : ∀ m ∈ modules, ContainedAt (summaries m) dst name) :
    (mergeAll resourceOps dst modules summaries).find name = dst.find name := by
  have hfold : ∀ index : ResourceSummaryIndex, index.find name = dst.find name →
      (mergeAll resourceOps index modules summaries).find name = dst.find name := by
    induction modules with
    | nil => exact fun index hindex => hindex
    | cons m modules ih =>
      intro index hindex
      refine ih (fun m' hm' => h m' (List.mem_cons_of_mem m hm')) _ ?_
      obtain ⟨hdef, heff⟩ := h m List.mem_cons_self
      have hat : ContainedAt (summaries m) index name := by
        unfold ContainedAt Defines HasEffect
        rw [hindex]
        exact ⟨hdef, heff⟩
      exact (find_merge_of_containedAt hat).trans hindex
  exact hfold dst rfl

/-- What indexes define and list together. -/
theorem mergeAll_spec (dst : ResourceSummaryIndex) (modules : List ℕ)
    (summaries : ℕ → ResourceSummaryIndex) (name : CppString) :
    (Defines (mergeAll resourceOps dst modules summaries) name ↔
        Defines dst name ∨ ∃ m ∈ modules, Defines (summaries m) name) ∧
      ∀ effect, HasEffect (mergeAll resourceOps dst modules summaries) name effect ↔
        HasEffect dst name effect ∨ ∃ m ∈ modules, HasEffect (summaries m) name effect := by
  induction modules generalizing dst with
  | nil => simp [mergeAll]
  | cons m modules ih =>
    obtain ⟨hdef, heff⟩ := ih (mergeResourceSummaryIndex dst (summaries m)).1
    refine ⟨hdef.trans ?_, fun effect => (heff effect).trans ?_⟩
    · rw [defines_merge, List.exists_mem_cons_iff, or_assoc]
    · rw [hasEffect_merge, List.exists_mem_cons_iff, or_assoc]

/-- Equal functions have the same effects. -/
theorem mem_of_functionEquals {lhs rhs : ResourceSummaryFunction}
    (h : resourceSummaryFunctionEquals lhs rhs = true) {effect : ResourceSummaryEffect} :
    effect ∈ lhs ↔ effect ∈ rhs := by
  have hsort : sortedKeys lhs = sortedKeys rhs := beq_iff_eq.mp h
  have hmem : ∀ fn : ResourceSummaryFunction, effect ∈ fn ↔ effect.key ∈ sortedKeys fn := by
    intro fn
    rw [sortedKeys, List.mem_insertionSort,
      List.mem_map_of_injective ResourceSummaryEffect.key_injective]
  rw [hmem, hmem, hsort]

/-- A name that has not changed has the same effects. -/
theorem containedAt_of_unchanged (h : name ∉ computeChangedResourceFunctionNames a b) :
    ContainedAt b a name := by
  rw [computeChangedResourceFunctionNames, EntryMap.mem_changedKeys, not_not] at h
  unfold ContainedAt Defines HasEffect
  cases hb : b.find name with
  | none => simp
  | some g =>
    cases ha : a.find name with
    | none => simp [ha, hb, EntryMap.ValueEq] at h
    | some f =>
      rw [ha, hb, EntryMap.ValueEq] at h
      simpa using fun effect => (mem_of_functionEquals h).mp

/-- An index that has grown lists the names that it had first, in the same order. -/
theorem keys_prefix_of_grows (h : resourceOps.Grows a b) :
    a.entries.map Prod.fst <+: b.entries.map Prod.fst := by
  induction h with
  | refl => exact List.prefix_rfl
  | tail _ hstep ih =>
    obtain ⟨src, rfl⟩ := hstep
    exact ih.trans (EntryMap.keys_prefix_merge _ src)

/-- The external summary of a name is that of the first function whose name stands for it. -/
theorem importExternalSummaryMap_eq (index : ResourceSummaryIndex) :
    Resource.importExternalSummaryMap index name =
      ((index.entries.map Prod.fst).find? fun key => canonicalizeMangledName key == name).bind
        fun key => (index.find key).map fun fn =>
          Resource.sortEffects (fn.map ResourceSummaryEffect.toParam) := by
  rw [Resource.importExternalSummaryMap, List.find?_map]
  have hcomp : ((fun key => canonicalizeMangledName key == name) ∘ Prod.fst :
      CppString × ResourceSummaryFunction → Bool) =
        fun entry => canonicalizeMangledName entry.1 == name := rfl
  rw [hcomp]
  cases hfind : index.entries.find? fun entry => canonicalizeMangledName entry.1 == name with
  | none => rfl
  | some entry =>
    have hentry : index.find entry.1 = some entry.2 :=
      EntryMap.find_eq_some_iff.mpr (List.mem_of_find?_eq_some hfind)
    simp [hentry]

/-- Indexes that list the names that stand for a name with the same effects, in the same order,
yield the same external summary of it. -/
theorem importExternalSummaryMap_congr
    (hkeys : a.entries.map Prod.fst <+: b.entries.map Prod.fst)
    (h : ∀ entry ∈ b.entries, canonicalizeMangledName entry.1 = name →
      a.find entry.1 = some entry.2) :
    Resource.importExternalSummaryMap b name = Resource.importExternalSummaryMap a name := by
  obtain ⟨newKeys, hnew⟩ := hkeys
  have hnone : (newKeys.find? fun key => canonicalizeMangledName key == name) = none := by
    rw [List.find?_eq_none]
    intro key hkey hname
    obtain ⟨entry, hentry, rfl⟩ := List.mem_map.mp
      (hnew ▸ List.mem_append_right _ hkey : key ∈ b.entries.map Prod.fst)
    have hold := EntryMap.mem_keys_iff.mpr ⟨_, h entry hentry (beq_iff_eq.mp hname)⟩
    have hnodup := b.nodup
    rw [← hnew] at hnodup
    exact (List.nodup_append'.mp hnodup).2.2 hold hkey
  rw [importExternalSummaryMap_eq, importExternalSummaryMap_eq, ← hnew, List.find?_append, hnone,
    Option.or_none]
  cases hfind : (a.entries.map Prod.fst).find? fun key => canonicalizeMangledName key == name with
  | none => rfl
  | some key =>
    obtain ⟨entry, hentry, rfl⟩ := List.mem_map.mp
      (hnew ▸ List.mem_append_left _ (List.mem_of_find?_eq_some hfind) :
        key ∈ b.entries.map Prod.fst)
    have hname : (canonicalizeMangledName entry.1 == name) = true :=
      List.find?_some (p := fun key => canonicalizeMangledName key == name) hfind
    rw [Option.bind_some, Option.bind_some, h entry hentry (beq_iff_eq.mp hname),
      EntryMap.find_eq_some_iff.mpr hentry]

end Names

/-! ## The states of the loop -/

section Loop

variable {cfg : ResourceConfig} {loadedModules : List LoadedModule} {scc : List ℕ}
variable {sccIter : ℕ} {s : SccState ResourceSummaryIndex CppString}
variable {built : ℕ → ResourceSummaryIndex}

/-- The invariant of the loop: the global index contains the previous summaries and, after the first
iteration, these have been built against the recorded indexes, the global index lists the names of
these first, and has what they had under names for dirty-marking that have not changed. -/
structure DeltaInv (cfg : ResourceConfig) (loadedModules : List LoadedModule) (scc : List ℕ)
    (sccIter : ℕ) (s : SccState ResourceSummaryIndex CppString)
    (built : ℕ → ResourceSummaryIndex) : Prop where
  contained : ∀ m ∈ scc, Contained (s.sccPrevSummaries m) s.globalIndex
  prev : 0 < sccIter → ∀ m ∈ scc,
    s.sccPrevSummaries m = buildModuleSummary cfg loadedModules (built m) m
  keys : 0 < sccIter → ∀ m ∈ scc,
    (built m).entries.map Prod.fst <+: s.globalIndex.entries.map Prod.fst
  unchanged : 0 < sccIter → ∀ m ∈ scc, ∀ name ∈ runCalleeNames cfg loadedModules m,
    name ∉ s.sccChangedNames → s.globalIndex.find name = (built m).find name

/-- A clean module is one of a later iteration, and none of its names has changed. -/
theorem not_dirty {m : ℕ} (hm : m ∈ scc) (h : m ∉ dirtyModules cfg loadedModules scc sccIter s) :
    0 < sccIter ∧ ∀ name ∈ runCalleeNames cfg loadedModules m, name ∉ s.sccChangedNames := by
  unfold dirtyModules dirtyInSCC at h
  split_ifs at h with hiter
  · exact absurd hm h
  · refine ⟨Nat.pos_of_ne_zero hiter, fun name hname hchanged => h (List.mem_filter.mpr ⟨hm, ?_⟩)⟩
    exact List.any_eq_true.mpr ⟨name, hname, by simpa using hchanged⟩

/-- **A clean module would be summarised as before**, if nothing has changed for it under other
names. -/
theorem DeltaInv.build_eq_prev (hinv : DeltaInv cfg loadedModules scc sccIter s built)
    (hkept : UnfilteredKept cfg loadedModules scc sccIter s built) {m : ℕ} (hm : m ∈ scc)
    (hclean : m ∉ dirtyModules cfg loadedModules scc sccIter s) :
    buildModuleSummary cfg loadedModules s.globalIndex m = s.sccPrevSummaries m := by
  obtain ⟨hiter, hnames⟩ := not_dirty hm hclean
  have himport : ∀ name ∈ Resource.consultedNames (cfg.moduleOf (loadedModule loadedModules m).ir),
      Resource.importExternalSummaryMap s.globalIndex name =
        Resource.importExternalSummaryMap (built m) name := by
    intro name hname
    refine importExternalSummaryMap_congr (hinv.keys hiter m hm) fun entry hentry hcanon => ?_
    by_cases hfiltered : entry.1 ∈ runCalleeNames cfg loadedModules m
    · rw [← hinv.unchanged hiter m hm entry.1 hfiltered (hnames entry.1 hfiltered)]
      exact EntryMap.find_eq_some_iff.mpr hentry
    · exact hkept m hm hclean entry hentry hfiltered (hcanon ▸ hname)
  rw [hinv.prev hiter m hm, buildModuleSummary, buildModuleSummary,
    Resource.buildResourceLifetimeSummaryIndex, Resource.buildResourceLifetimeSummaryIndex,
    Resource.computeFunctionLifetimeSummaries_congr himport]

/-- A name that has not changed in an iteration keeps its effects in the global index. -/
theorem find_mergeAll_of_unchanged {summaries : ℕ → ResourceSummaryIndex} {name : CppString}
    (hcontained : ∀ m ∈ scc, Contained (s.sccPrevSummaries m) s.globalIndex)
    (hname : name ∉ computeChangedResourceFunctionNames
      (mergeAll resourceOps EntryMap.empty scc s.sccPrevSummaries)
      (mergeAll resourceOps EntryMap.empty scc summaries)) :
    (mergeAll resourceOps s.globalIndex scc summaries).find name = s.globalIndex.find name := by
  obtain ⟨hdef, heff⟩ := containedAt_of_unchanged hname
  obtain ⟨hnewDef, hnewEff⟩ := mergeAll_spec EntryMap.empty scc summaries name
  obtain ⟨holdDef, holdEff⟩ :=
    mergeAll_spec EntryMap.empty scc s.sccPrevSummaries name
  refine find_mergeAll_of_containedAt fun m hm => ⟨fun h => ?_, fun effect h => ?_⟩
  · rcases holdDef.mp (hdef (hnewDef.mpr (Or.inr ⟨m, hm, h⟩))) with h | ⟨m', hm', h⟩
    · exact absurd h (not_defines_empty name)
    · exact (hcontained m' hm').1 name h
  · rcases (holdEff effect).mp (heff effect ((hnewEff effect).mpr (Or.inr ⟨m, hm, h⟩))) with
      h | ⟨m', hm', h⟩
    · exact absurd h (not_hasEffect_empty name effect)
    · exact (hcontained m' hm').2 name effect h

/-- **One iteration** preserves the invariant. -/
theorem DeltaInv.step (hinv : DeltaInv cfg loadedModules scc sccIter s built)
    (hgoes : (sccIteration resourceOps (runCalleeNames cfg loadedModules)
      (buildModuleSummary cfg loadedModules) scc sccIter s).2 = false) :
    DeltaInv cfg loadedModules scc (sccIter + 1)
      (sccIteration resourceOps (runCalleeNames cfg loadedModules)
        (buildModuleSummary cfg loadedModules) scc sccIter s).1
      fun m => if m ∈ dirtyModules cfg loadedModules scc sccIter s then s.globalIndex
        else built m := by
  set summaries := iterationSummaries (runCalleeNames cfg loadedModules)
    (buildModuleSummary cfg loadedModules) scc sccIter s with hsummaries
  set t := (sccIteration resourceOps (runCalleeNames cfg loadedModules)
    (buildModuleSummary cfg loadedModules) scc sccIter s).1 with ht
  have hglobal : t.globalIndex = mergeAll resourceOps s.globalIndex scc summaries :=
    if_neg (by rw [← Bool.not_eq_true] at hgoes; exact hgoes)
  have hprev : ∀ m ∈ scc, t.sccPrevSummaries m = summaries m := fun m hm => if_pos hm
  refine ⟨fun m hm => ?_, fun _ m hm => ?_, fun _ m hm => ?_, fun _ m hm name hname hch => ?_⟩
  · rw [hprev m hm, hglobal]
    exact contained_of_absorbed (absorbed_mergeAll hm s.globalIndex)
  · rw [hprev m hm]
    split_ifs with hdirty
    · exact if_pos hdirty
    · rw [← hinv.prev (not_dirty hm hdirty).1 m hm]
      exact (if_neg hdirty).trans (if_pos hm)
  · have hgrown : s.globalIndex.entries.map Prod.fst <+: t.globalIndex.entries.map Prod.fst := by
      rw [hglobal]
      exact keys_prefix_of_grows (grows_mergeAll scc summaries s.globalIndex)
    split_ifs with hdirty
    · exact hgrown
    · exact (hinv.keys (not_dirty hm hdirty).1 m hm).trans hgrown
  · rw [hglobal, find_mergeAll_of_unchanged hinv.contained hch]
    split_ifs with hdirty
    · rfl
    · obtain ⟨hiter, hclean⟩ := not_dirty hm hdirty
      exact hinv.unchanged hiter m hm name hname (hclean name hname)

variable {r : ResourceSummaryIndex × (ℕ → ResourceSummaryIndex)}

/-- **The invariant holds in every state of the loop.** -/
theorem deltaInv_of_trace (h : deltaTrace cfg loadedModules scc r sccIter = some (s, built)) :
    DeltaInv cfg loadedModules scc sccIter s built := by
  induction sccIter generalizing s built with
  | zero =>
    obtain ⟨rfl, rfl⟩ := Prod.mk.inj (Option.some.inj h)
    have hempty : ∀ m ∈ scc, Contained EntryMap.empty r.1 := fun m _ =>
      ⟨fun name hname => absurd hname (not_defines_empty name),
        fun name effect he => absurd he (not_hasEffect_empty name effect)⟩
    exact ⟨hempty, fun h => absurd h (lt_irrefl 0), fun h => absurd h (lt_irrefl 0),
      fun h => absurd h (lt_irrefl 0)⟩
  | succ k ih =>
    obtain ⟨⟨s', built'⟩, hk, hstep⟩ := Option.bind_eq_some_iff.mp h
    simp only at hstep
    split_ifs at hstep with hstop
    obtain ⟨rfl, rfl⟩ := Prod.mk.inj (Option.some.inj hstep)
    rw [Bool.or_eq_true, not_or, Bool.not_eq_true] at hstop
    exact (ih hk).step hstop.1

/-- The loop goes on while the summaries change. -/
theorem deltaTrace_succ (h : deltaTrace cfg loadedModules scc r sccIter = some (s, built))
    (hgoes : (sccIteration resourceOps (runCalleeNames cfg loadedModules)
      (buildModuleSummary cfg loadedModules) scc sccIter s).2 = false)
    (hlt : sccIter + 1 < kCrossTUMaxIterations) :
    deltaTrace cfg loadedModules scc r (sccIter + 1) =
      some ((sccIteration resourceOps (runCalleeNames cfg loadedModules)
        (buildModuleSummary cfg loadedModules) scc sccIter s).1,
        fun m => if m ∈ dirtyModules cfg loadedModules scc sccIter s then s.globalIndex
          else built m) := by
  have hnotLast : (sccIter + 1 == kCrossTUMaxIterations) = false := by
    rw [beq_eq_false_iff_ne]
    omega
  refine Option.bind_eq_some_iff.mpr ⟨(s, built), h, ?_⟩
  simp only [hgoes, hnotLast, Bool.or_self, Bool.false_eq_true, if_false]
  rfl

/-- An iteration that builds all modules yields the same, if clean modules would be summarised as
before. -/
theorem sccIteration_eq_full
    (h : ∀ m ∈ scc, m ∉ dirtyModules cfg loadedModules scc sccIter s →
      buildModuleSummary cfg loadedModules s.globalIndex m = s.sccPrevSummaries m) :
    sccIteration resourceOps (runCalleeNames cfg loadedModules)
        (buildModuleSummary cfg loadedModules) scc sccIter s =
      sccIteration resourceOps (runCalleeNames cfg loadedModules)
        (buildModuleSummary cfg loadedModules) scc 0 s := by
  have hsummaries : iterationSummaries (runCalleeNames cfg loadedModules)
      (buildModuleSummary cfg loadedModules) scc sccIter s =
        iterationSummaries (runCalleeNames cfg loadedModules)
          (buildModuleSummary cfg loadedModules) scc 0 s := by
    funext m
    by_cases hm : m ∈ scc
    · have hfull : iterationSummaries (runCalleeNames cfg loadedModules)
          (buildModuleSummary cfg loadedModules) scc 0 s m =
            buildModuleSummary cfg loadedModules s.globalIndex m := if_pos hm
      rw [hfull]
      by_cases hdirty : m ∈ dirtyModules cfg loadedModules scc sccIter s
      · exact if_pos hdirty
      · rw [h m hm hdirty]
        exact (if_neg hdirty).trans (if_pos hm)
    · have hnot : ∀ k, m ∉ dirtyInSCC (runCalleeNames cfg loadedModules) scc k s := by
        intro k hdirty
        unfold dirtyInSCC at hdirty
        split_ifs at hdirty
        · exact hm hdirty
        · exact hm (List.mem_filter.mp hdirty).1
      unfold iterationSummaries
      rw [if_neg (hnot sccIter), if_neg (hnot 0)]
  unfold sccIteration
  rw [hsummaries]

/-- From a state of the loop on, skipping clean modules changes nothing. -/
theorem sccLoop_eq_fullLoop
    (hkept : ∀ k s built, deltaTrace cfg loadedModules scc r k = some (s, built) →
      UnfilteredKept cfg loadedModules scc k s built) (n : ℕ)
    (hn : sccIter + n = kCrossTUMaxIterations)
    (h : deltaTrace cfg loadedModules scc r sccIter = some (s, built)) :
    sccLoop resourceOps (runCalleeNames cfg loadedModules)
        (buildModuleSummary cfg loadedModules) scc n sccIter s =
      fullLoop resourceOps (runCalleeNames cfg loadedModules)
        (buildModuleSummary cfg loadedModules) scc n s := by
  induction n generalizing sccIter s built with
  | zero => rfl
  | succ n ih =>
    have hfull := sccIteration_eq_full fun m hm hclean =>
      (deltaInv_of_trace h).build_eq_prev (hkept sccIter s built h) hm hclean
    rw [sccLoop, fullLoop, ← hfull]
    split_ifs with hconverged
    · rfl
    · cases n with
      | zero => rfl
      | succ n =>
        rw [Bool.not_eq_true] at hconverged
        exact ih (by omega) (deltaTrace_succ h hconverged (by omega))

end Loop

/-- **Skipping clean modules**: in every run of the loop over a component in which nothing has
changed for skipped modules under names that do not count, every module that an iteration skips would
have the summary that is used again, and the loop yields what it would if it skipped none.

**Proof sketch.** The global index contains the previous summaries of the component, so a name whose
merged summaries have not changed keeps its effects there. Under the names that count, a clean module
therefore finds what it found when it was built last, and its summary depends on what it finds
only. -/
theorem deltaIteration_eq_full (cfg : ResourceConfig) (loadedModules : List LoadedModule)
    (scc : List ℕ) (r : ResourceSummaryIndex × (ℕ → ResourceSummaryIndex))
    (hkept : ∀ k s built, deltaTrace cfg loadedModules scc r k = some (s, built) →
      UnfilteredKept cfg loadedModules scc k s built) :
    (∀ k s built, deltaTrace cfg loadedModules scc r k = some (s, built) →
      ∀ m ∈ scc, m ∉ dirtyModules cfg loadedModules scc k s →
        resourceSummaryIndexEquals (buildModuleSummary cfg loadedModules s.globalIndex m)
          (s.sccPrevSummaries m) = true) ∧
      processResourceSCC cfg loadedModules r scc =
        processCyclicSCCFull resourceOps (runCalleeNames cfg loadedModules)
          (buildModuleSummary cfg loadedModules) scc r := by
  refine ⟨fun k s built h m hm hclean => ?_, ?_⟩
  · rw [(deltaInv_of_trace h).build_eq_prev (hkept k s built h) hm hclean]
    exact resourceSummaryIndexEquals_refl _
  · have hloop := sccLoop_eq_fullLoop hkept kCrossTUMaxIterations (Nat.zero_add _)
      (show deltaTrace cfg loadedModules scc r 0 = some _ from rfl)
    unfold processResourceSCC processCyclicSCC processCyclicSCCFull
    rw [← hloop]
    rfl

/-! ## Two components -/

/-- The states end when the summaries have converged. -/
theorem sccTrace_eq_none {I Name : Type*} [DecidableEq Name] {ops : SummaryOps I Name}
    {filteredCalleeNames : ℕ → List Name} {buildModuleSummary : I → ℕ → I} {scc : List ℕ}
    {start : SccState I Name} {k n : ℕ}
    (h : sccTrace ops filteredCalleeNames buildModuleSummary scc start k = none) (hn : k ≤ n) :
    sccTrace ops filteredCalleeNames buildModuleSummary scc start n = none := by
  induction n, hn using Nat.le_induction with
  | base => exact h
  | succ n _ ih => exact Option.bind_eq_none_iff.mpr fun r hr => by simp [ih] at hr

/-- A call that passes on an argument of the caller. -/
def passingCall (callee : ℕ) (rules : List Resource.MatchedRule) : Resource.CallSite :=
  ⟨some callee, true, rules, true, false, [], fun e => some (⟨0, e.offset⟩, false)⟩

/-- A function that is defined in a module. -/
def definition (name : CppString) (calls : List Resource.CallSite) : Resource.Function :=
  ⟨name, false, false, false, false, true, calls⟩

/-- A function that is declared in a module. -/
def declaration (name : CppString) : Resource.Function :=
  ⟨name, true, false, false, false, true, []⟩

/-- The rule for a function that releases its argument. -/
def releaseRule : Resource.MatchedRule := ⟨.releaseArg, ['k'], true, some ⟨0, 0⟩, none, false⟩

/-- A run on modules with the texts `0`, `1` and so on. -/
def numberedConfig (mods : List Resource.Module) : ResourceConfig where
  resourceCrossTU := true
  resourceModelPath := ['m']
  modelContent := []
  hasRules := true
  filterText := []
  moduleOf text := mods.getD text.length []
  md5Hex := id

/-- The modules of the run. -/
def numberedModules (mods : List Resource.Module) : List LoadedModule :=
  (List.range mods.length).map fun i => ⟨List.replicate i 'i', []⟩

/-- Two functions that pass their argument to each other. The second one releases it. -/
def releasePair : List Resource.Module :=
  [[definition ['f'] [passingCall 1 []], declaration ['g']],
    [definition ['g'] [passingCall 1 [releaseRule], passingCall 2 []], declaration ['r'],
      declaration ['f']]]

theorem deltaIteration_eq_full_releasePair :
    processResourceSCC (numberedConfig releasePair) (numberedModules releasePair)
        (EntryMap.empty, fun _ => EntryMap.empty) [0, 1] =
      processCyclicSCCFull resourceOps
        (runCalleeNames (numberedConfig releasePair) (numberedModules releasePair))
        (buildModuleSummary (numberedConfig releasePair) (numberedModules releasePair)) [0, 1]
        (EntryMap.empty, fun _ => EntryMap.empty) := by
  refine (deltaIteration_eq_full _ _ _ _ fun k s built h => ?_).2
  have hend : deltaTrace (numberedConfig releasePair) (numberedModules releasePair) [0, 1]
      (EntryMap.empty, fun _ => EntryMap.empty) 3 = none := by
    rw [← Option.isNone_iff_eq_none]
    decide +kernel
  have hkept : ∀ k < 3, ∀ t ∈ deltaTrace (numberedConfig releasePair)
      (numberedModules releasePair) [0, 1] (EntryMap.empty, fun _ => EntryMap.empty) k,
      UnfilteredKept (numberedConfig releasePair) (numberedModules releasePair) [0, 1] k t.1 t.2 := by
    decide +kernel
  by_cases hk : k < 3
  · exact hkept k hk (s, built) h
  · rw [deltaTrace, sccTrace_eq_none hend (not_lt.mp hk)] at h
    simp at h

/-- A function `f` that releases its argument, and modules with weak definitions of a function `g`
that passes its argument to `f`. The module of `f` has a function `u` that passes its argument to
`g`. -/
def weakCallback : List Resource.Module :=
  [[definition ['f'] [passingCall 2 [releaseRule], passingCall 4 []],
      definition ['u'] [passingCall 3 []], declaration ['r'], declaration ['g'], declaration ['h']],
    [definition ['h'] [], definition ['g'] [passingCall 2 []], declaration ['f']],
    [definition ['g'] [passingCall 1 []], declaration ['f']]]

/-- **A skipped module that would be summarised otherwise**: the third iteration over the modules of
`f` and `h` skips the first one, although `g` has got an effect since it was built. -/
theorem not_deltaIteration_eq_full :
    [0, 1] ∈ computeTopologicalSCCOrder (resourceEdges weakCallback) ∧
      ∃ s built, deltaTrace (numberedConfig weakCallback) (numberedModules weakCallback) [0, 1]
          (EntryMap.empty, fun _ => EntryMap.empty) 2 = some (s, built) ∧
        0 ∉ dirtyModules (numberedConfig weakCallback) (numberedModules weakCallback) [0, 1] 2 s ∧
          resourceSummaryIndexEquals
            (buildModuleSummary (numberedConfig weakCallback) (numberedModules weakCallback)
              s.globalIndex 0) (s.sccPrevSummaries 0) = false := by
  have htrace : ∃ t ∈ deltaTrace (numberedConfig weakCallback) (numberedModules weakCallback) [0, 1]
      (EntryMap.empty, fun _ => EntryMap.empty) 2,
      0 ∉ dirtyModules (numberedConfig weakCallback) (numberedModules weakCallback) [0, 1] 2 t.1 ∧
        resourceSummaryIndexEquals
          (buildModuleSummary (numberedConfig weakCallback) (numberedModules weakCallback)
            t.1.globalIndex 0) (t.1.sccPrevSummaries 0) = false := by
    decide +kernel
  obtain ⟨⟨s, built⟩, ht, hclean, hdiffers⟩ := htrace
  exact ⟨by decide +kernel, s, built, ht, hclean, hdiffers⟩

end StackAnalyzer.CrossTU
