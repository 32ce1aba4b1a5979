import StackAnalyzer.CrossTU.ModuleGraph
import StackAnalyzer.CrossTU.ResourceMerge
import StackAnalyzer.CrossTU.SccLoop
import StackAnalyzer.Resource.FunctionSummaries

set_option relaxedAutoImplicit false
set_option autoImplicit false

/-!
# The global index of resource summaries

`buildCrossTUSummaryIndex` passes over the levels of the module graph until the hash of the global
index stays the same over a pass. In a level, modules outside cycles are taken from a cache or built
in parallel against the index at the start of the level, and cyclic components are iterated.

## Main definitions

* `StackAnalyzer.CrossTU.ResourceConfig`, `StackAnalyzer.CrossTU.LoadedModule` — the inputs.
* `StackAnalyzer.CrossTU.WorkerSchedule` — the order in which workers finish.
* `StackAnalyzer.CrossTU.processLevel`, `StackAnalyzer.CrossTU.buildCrossTUSummaryIndex` — a level,
  and all passes.
* `StackAnalyzer.CrossTU.CacheValid` — what the cache holds.

## Main results

* `StackAnalyzer.CrossTU.grows_eq_of_text` — an index that has grown and has the same text is the
  same.
* `StackAnalyzer.CrossTU.buildCrossTUSummaryIndex_postFixpoint` — a converged index contains what
  any module yields against it.
-/

namespace StackAnalyzer.CrossTU

open Maps SummaryOps

/-- The operations on resource indexes. -/
def resourceOps : SummaryOps ResourceSummaryIndex CppString where
  empty := EntryMap.empty
  merge dst src := (mergeResourceSummaryIndex dst src).1
  equals := resourceSummaryIndexEquals
  changedNames := computeChangedResourceFunctionNames

/-- A `LoadedInputModule`: the text of its module, and that of its compile arguments. -/
structure LoadedModule where
  ir : CppString
  compileArgs : CppString

/-- What a run depends on, apart from the modules: the options, the resource model and whether it
has rules, the text of the function filter, the module that a text stands for, with what the rules
and the analysis of pointers say about its calls, and the hash function. -/
structure ResourceConfig where
  resourceCrossTU : Bool
  resourceModelPath : CppString
  modelContent : CppString
  hasRules : Bool
  filterText : CppString
  moduleOf : CppString → Resource.Module
  md5Hex : CppString → CppString

/-- The order in which the workers of a level finish. -/
structure WorkerSchedule where
  order : ℕ → ℕ → List ℕ → List ℕ
  perm : ∀ pass level modules, (order pass level modules).Perm modules

/-- The variables of a pass. -/
structure PassState where
  globalIndex : ResourceSummaryIndex
  moduleSummaries : ℕ → ResourceSummaryIndex
  memoryCache : CppString → Option ResourceSummaryIndex

/-- `kCacheSchema`. -/
def kCacheSchema : CppString := "cross-tu-resource-summary-v2".toList

/-! ## Callees -/

/-- The canonical names of the functions that a module defines. -/
def moduleDefinedNames (mod : Resource.Module) : List CppString :=
  (mod.filter fun F => !F.isDeclaration && !F.name.isEmpty).map fun F =>
    canonicalizeMangledName F.name

/-- `resourceModuleCalleeNames`: the callees of the functions that are analysed. -/
def resourceModuleCalleeNames (mod : Resource.Module) : List CppString :=
  (mod.filter fun F => !F.isDeclaration && F.shouldAnalyze).flatMap fun F =>
    (F.calls.filter fun call => call.isCalledFunction).filterMap fun call =>
      (call.callee.bind (mod[·]?)).bind fun callee =>
        if callee.name.isEmpty then none else some (canonicalizeMangledName callee.name)

/-- `filteredResourceCalleeNames`: the callees with a single definition. -/
def filteredResourceCalleeNames (mods : List Resource.Module) (m : ℕ) : List CppString :=
  (resourceModuleCalleeNames (mods.getD m [])).filter
    (isSingleDef (mods.map moduleDefinedNames))

/-- `filteredEdges`. -/
def resourceEdges (mods : List Resource.Module) :
    ModuleEdges (mods.map moduleDefinedNames).length :=
  buildSingleDefFilteredEdges (mods.map moduleDefinedNames) fun m =>
    resourceModuleCalleeNames (mods.getD m [])

section Pipeline

variable (cfg : ResourceConfig) (loadedModules : List LoadedModule)

/-- The loaded module with a number. -/
def loadedModule (m : ℕ) : LoadedModule := loadedModules.getD m ⟨[], []⟩

/-- `buildModuleSummary`. -/
def buildModuleSummary (globalIndex : ResourceSummaryIndex) (m : ℕ) : ResourceSummaryIndex :=
  Resource.buildResourceLifetimeSummaryIndex cfg.hasRules
    (cfg.moduleOf (loadedModule loadedModules m).ir) globalIndex

/-- `hashSummaryIndex`. -/
def hashSummaryIndex (index : ResourceSummaryIndex) : CppString :=
  cfg.md5Hex (summaryIndexText index)

/-- The key under which the summary of a module is cached. -/
def cacheKey (loaded : LoadedModule) (externalHash : CppString) : CppString :=
  let modelHash :=
    cfg.md5Hex (if cfg.modelContent.isEmpty then cfg.resourceModelPath else cfg.modelContent)
  cfg.md5Hex (kCacheSchema ++ '|' :: (modelHash ++ '|' :: (externalHash ++ '|' ::
    (cfg.md5Hex cfg.filterText ++ '|' :: (cfg.md5Hex loaded.compileArgs ++ '|' ::
      cfg.md5Hex loaded.ir)))))

/-- Store the summaries that are found for modules. -/
def storeFound (found : ℕ → Option ResourceSummaryIndex) (modules : List ℕ)
    (summaries : ℕ → ResourceSummaryIndex) : ℕ → ResourceSummaryIndex :=
  modules.foldl (fun summaries m =>
    match found m with
    | some summary => Function.update summaries m summary
    | none => summaries) summaries

/-- The part of a level outside cycles: modules are taken from the cache, or built by the workers
against the index at the start of the level and cached. Their summaries are merged in order. -/
def processTrivialModules (order : List ℕ → List ℕ) (trivial : List ℕ) (s : PassState) :
    PassState :=
  let key := fun m => cacheKey cfg (loadedModule loadedModules m)
    (hashSummaryIndex cfg s.globalIndex)
  let cached := storeFound (fun m => s.memoryCache (key m)) trivial s.moduleSummaries
  let missing := trivial.filter fun m => (s.memoryCache (key m)).isNone
  let summaries := storeFound
    (fun m => some (buildModuleSummary cfg loadedModules s.globalIndex m)) (order missing) cached
  { globalIndex := mergeAll resourceOps s.globalIndex trivial summaries
    moduleSummaries := summaries
    memoryCache := missing.foldl (fun cache m => Function.update cache (key m) (some (summaries m)))
      s.memoryCache }

/-- Process a cyclic component. -/
def processResourceSCC (r : ResourceSummaryIndex × (ℕ → ResourceSummaryIndex)) (scc : List ℕ) :
    ResourceSummaryIndex × (ℕ → ResourceSummaryIndex) :=
  processCyclicSCC resourceOps
    (filteredResourceCalleeNames (loadedModules.map fun loaded => cfg.moduleOf loaded.ir))
    (buildModuleSummary cfg loadedModules) scc r

variable {N : ℕ} (filteredEdges : ModuleEdges N)

/-- Process the components of a level. -/
def processLevel (order : List ℕ → List ℕ) (s : PassState) (level : ℕ) : PassState :=
  let sccOrder := computeTopologicalSCCOrder filteredEdges
  let group := levelGroup sccOrder (computeSCCLevels sccOrder filteredEdges) level
  let t := processTrivialModules cfg loadedModules order
    (trivialModules filteredEdges sccOrder group) s
  let r := (cyclicSCCs filteredEdges sccOrder group).foldl (processResourceSCC cfg loadedModules)
    (t.globalIndex, t.moduleSummaries)
  { t with globalIndex := r.1, moduleSummaries := r.2 }

/-- A pass over all levels. -/
def globalPass (workers : WorkerSchedule) (pass : ℕ) (s : PassState) : PassState :=
  let sccOrder := computeTopologicalSCCOrder filteredEdges
  (List.range (maxLevel sccOrder (computeSCCLevels sccOrder filteredEdges) + 1)).foldl
    (fun s level => processLevel cfg loadedModules filteredEdges (workers.order pass level) s level)
    s

/-- The passes from `pass` on, at most a number of them, and `globalConverged`. -/
def globalPasses (workers : WorkerSchedule) : ℕ → ℕ → PassState → PassState × Bool
  | 0, _, s => (s, false)
  | n + 1, pass, s =>
    let t := globalPass cfg loadedModules filteredEdges workers pass s
    if hashSummaryIndex cfg t.globalIndex = hashSummaryIndex cfg s.globalIndex then (t, true)
    else globalPasses workers n (pass + 1) t

/-- `kCrossTUGlobalMaxIterations`. -/
def kCrossTUGlobalMaxIterations : ℕ := 12

/-- `buildCrossTUSummaryIndex`: the global index and whether the passes have converged, or none if
there is nothing to do. The edges are those of `buildSingleDefFilteredEdges` in any order. -/
def buildCrossTUSummaryIndex (workers : WorkerSchedule) : Option (ResourceSummaryIndex × Bool) :=
  if !cfg.resourceCrossTU || cfg.resourceModelPath.isEmpty || loadedModules.length < 2 then none
  else
    let r := globalPasses cfg loadedModules filteredEdges workers kCrossTUGlobalMaxIterations 0
      ⟨EntryMap.empty, fun _ => EntryMap.empty, fun _ => none⟩
    some (r.1.globalIndex, r.2)

end Pipeline

/-! ## Growing indexes -/

section Growth

variable {a b x : ResourceSummaryIndex}

/-- The length of the lines of an entry. -/
def linesLength (name : CppString) (fn : ResourceSummaryFunction) : ℕ :=
  name.length + 1 + (fn.map fun effect => effect.encodeSummaryEffectKey.length + 3).sum

/-- The length of the hashed text. -/
theorem length_summaryIndexText (index : ResourceSummaryIndex) :
    (summaryIndexText index).length = EntryMap.weight linesLength index := by
  have hentry : ∀ entry : CppString × ResourceSummaryFunction,
      (entry.1 ++ '\n' :: ((entry.2.map ResourceSummaryEffect.encodeSummaryEffectKey).insertionSort
        (· ≤ ·)).flatMap fun effectKey => ' ' :: ' ' :: effectKey ++ ['\n']).length =
        linesLength entry.1 entry.2 := by
    intro entry
    have hperm := (List.perm_insertionSort (· ≤ ·)
      (entry.2.map ResourceSummaryEffect.encodeSummaryEffectKey)).map fun k => k.length + 3
    have hline : (fun k : CppString => (' ' :: ' ' :: k ++ ['\n']).length) =
        fun k => k.length + 3 := by
      funext k
      simp
    rw [List.length_append, List.length_cons, List.length_flatMap, hline, hperm.sum_eq,
      List.map_map, linesLength]
    have hcomp : (fun k : CppString => k.length + 3) ∘ ResourceSummaryEffect.encodeSummaryEffectKey =
        fun effect => effect.encodeSummaryEffectKey.length + 3 := rfl
    rw [hcomp]
    omega
  have hperm := (List.perm_insertionSort (fun x y : CppString × List CppString => x.1 ≤ y.1)
    (index.entries.map fun entry => (entry.1,
      (entry.2.map ResourceSummaryEffect.encodeSummaryEffectKey).insertionSort (· ≤ ·)))).map
    fun entry => (entry.1 ++ '\n' :: entry.2.flatMap fun effectKey =>
      ' ' :: ' ' :: effectKey ++ ['\n']).length
  rw [summaryIndexText, List.length_flatMap, canonicalEntries, hperm.sum_eq, List.map_map,
    EntryMap.weight]
  congr 1
  exact List.map_congr_left fun entry _ => hentry entry

/-- A merge adds lines, if it changes something. -/
theorem length_merge (dst src : ResourceSummaryIndex) :
    (summaryIndexText dst).length ≤ (summaryIndexText (mergeResourceSummaryIndex dst src).1).length ∧
      ((mergeResourceSummaryIndex dst src).2 = true → (summaryIndexText dst).length <
        (summaryIndexText (mergeResourceSummaryIndex dst src).1).length) := by
  simp only [length_summaryIndexText]
  refine EntryMap.weight_merge (fun name fn => ?_) (fun name d s => ?_) dst src
  · unfold linesLength
    omega
  · have hstep : ∀ (r : ResourceSummaryFunction × List CppString × Bool)
        (effect : ResourceSummaryEffect), linesLength name r.1 ≤ linesLength name (pushEffect r effect).1 ∧
          ((pushEffect r effect).2.2 = true →
            r.2.2 = true ∨ linesLength name r.1 < linesLength name (pushEffect r effect).1) := by
      intro r effect
      unfold pushEffect
      split_ifs
      · exact ⟨le_rfl, Or.inl⟩
      · have hlt : linesLength name r.1 < linesLength name (r.1 ++ [effect]) := by
          simp only [linesLength, List.map_append, List.sum_append, List.map_cons, List.map_nil,
            List.sum_cons, List.sum_nil]
          omega
        exact ⟨hlt.le, fun _ => Or.inr hlt⟩
    have hfold : ∀ (src : ResourceSummaryFunction)
        (r : ResourceSummaryFunction × List CppString × Bool),
        linesLength name r.1 ≤ linesLength name (src.foldl pushEffect r).1 ∧
          ((src.foldl pushEffect r).2.2 = true →
            r.2.2 = true ∨ linesLength name r.1 < linesLength name (src.foldl pushEffect r).1) := by
      intro src
      induction src with
      | nil => exact fun r => ⟨le_rfl, Or.inl⟩
      | cons e src ih =>
        intro r
        rw [List.foldl_cons]
        obtain ⟨hle, hch⟩ := hstep r e
        obtain ⟨hle', hch'⟩ := ih (pushEffect r e)
        refine ⟨hle.trans hle', fun h => ?_⟩
        rcases hch' h with h | h
        · exact (hch h).imp_right fun h => lt_of_lt_of_le h hle'
        · exact Or.inr (lt_of_le_of_lt hle h)
    obtain ⟨hle, hch⟩ := hfold s (d, d.map ResourceSummaryEffect.key, false)
    exact ⟨hle, fun h => (hch h).resolve_left Bool.false_ne_true⟩

/-- A grown index has a longer text, or is the same. -/
theorem length_of_grows (h : resourceOps.Grows a b) :
    (summaryIndexText a).length ≤ (summaryIndexText b).length ∧
      ((summaryIndexText b).length ≤ (summaryIndexText a).length → a = b) := by
  induction h with
  | refl => exact ⟨le_rfl, fun _ => rfl⟩
  | @tail b c _ hstep ih =>
    obtain ⟨src, rfl⟩ := hstep
    obtain ⟨hle, hlt⟩ := length_merge b src
    refine ⟨ih.1.trans hle, fun hback => ?_⟩
    cases hch : (mergeResourceSummaryIndex b src).2 with
    | true =>
      have hlong := hlt hch
      have hback' : (summaryIndexText (mergeResourceSummaryIndex b src).1).length ≤
          (summaryIndexText a).length := hback
      have hshort := ih.1
      omega
    | false =>
      have hsame : resourceOps.merge b src = b := merge_unchanged_iff_eq.mp hch
      rw [hsame] at hback ⊢
      exact ih.2 hback

/-- **The same text means no growth**: every merge that changes an index lengthens its text. -/
theorem grows_eq_of_text (h : resourceOps.Grows a b)
    (htext : summaryIndexText a = summaryIndexText b) : a = b :=
  (length_of_grows h).2 (by rw [htext])

/-- Indexes that have grown from each other are the same. -/
theorem grows_antisymm (h : resourceOps.Grows a b) (h' : resourceOps.Grows b a) : a = b :=
  (length_of_grows h).2 (length_of_grows h').1

/-- An index contains what it has grown from. -/
theorem contained_of_grows (h : resourceOps.Grows a b) : Contained a b := by
  induction h with
  | refl => exact Contained.refl a
  | tail _ hstep ih =>
    obtain ⟨src, rfl⟩ := hstep
    exact ih.trans contained_merge_left

/-- An index contains what it has absorbed. -/
theorem contained_of_absorbed (h : resourceOps.Absorbed a x b) : Contained x b := by
  obtain ⟨c, -, hcb⟩ := h
  exact contained_merge_right.trans (contained_of_grows hcb)

end Growth

/-! ## The cache -/

section Cache

variable {cfg : ResourceConfig} {loadedModules : List LoadedModule}
variable (hinj : Function.Injective cfg.md5Hex) (hbar : ∀ text, '|' ∉ cfg.md5Hex text)
include hinj hbar

/-- A key determines the text of the module and the hash of the index. -/
theorem cacheKey_inj {l l' : LoadedModule} {e e' : CppString} (he : '|' ∉ e) (he' : '|' ∉ e')
    (h : cacheKey cfg l e = cacheKey cfg l' e') : e = e' ∧ l.ir = l'.ir := by
  have hpayload := List.append_cancel_left (hinj h)
  have hmodel := List.append_cancel_left (List.cons.inj hpayload).2
  obtain ⟨rfl, hrest⟩ := append_separator_inj he he' (List.cons.inj hmodel).2
  have hargs := List.append_cancel_left hrest
  obtain ⟨-, hir⟩ := append_separator_inj (hbar _) (hbar _) (List.cons.inj hargs).2
  exact ⟨rfl, hinj hir⟩

end Cache

/-- **What the cache holds**: summaries of modules against indexes from which the global index has
grown, under the keys of these. -/
def CacheValid (cfg : ResourceConfig) (loadedModules : List LoadedModule) (s : PassState) : Prop :=
  ∀ key summary, s.memoryCache key = some summary → ∃ m index,
    key = cacheKey cfg (loadedModule loadedModules m) (hashSummaryIndex cfg index) ∧
      summary = buildModuleSummary cfg loadedModules index m ∧
        resourceOps.Grows index s.globalIndex

/-- The summary of a module after others are stored. -/
theorem storeFound_apply (found : ℕ → Option ResourceSummaryIndex) (modules : List ℕ)
    (summaries : ℕ → ResourceSummaryIndex) (m : ℕ) :
    storeFound found modules summaries m =
      if m ∈ modules then (found m).getD (summaries m) else summaries m := by
  unfold storeFound
  induction modules generalizing summaries with
  | nil => simp
  | cons j modules ih =>
    rw [List.foldl_cons, ih]
    by_cases hm : m = j
    · subst hm
      cases hf : found m <;> by_cases hl : m ∈ modules <;> simp [hl]
    · cases hf : found j <;> by_cases hl : m ∈ modules <;> simp [hl, hm]

/-! ## Passes -/

section Passes

variable {cfg : ResourceConfig} {loadedModules : List LoadedModule} {s t : PassState}

/-- What a step of a pass does for a set of modules: the global index grows, the cache stays valid,
and each of the modules has been summarised against an index on the way, and merged. -/
structure StepSpec (cfg : ResourceConfig) (loadedModules : List LoadedModule) (s t : PassState)
    (covered : Set ℕ) : Prop where
  grows : resourceOps.Grows s.globalIndex t.globalIndex
  valid : CacheValid cfg loadedModules s → CacheValid cfg loadedModules t
  absorbed : CacheValid cfg loadedModules s → ∀ m ∈ covered, ∃ index,
    resourceOps.Grows s.globalIndex index ∧
      resourceOps.Absorbed index (buildModuleSummary cfg loadedModules index m) t.globalIndex

/-- Steps one after the other. -/
theorem StepSpec.trans {u : PassState} {A B : Set ℕ} (h : StepSpec cfg loadedModules s t A)
    (h' : StepSpec cfg loadedModules t u B) : StepSpec cfg loadedModules s u (A ∪ B) where
  grows := h.grows.trans h'.grows
  valid hs := h'.valid (h.valid hs)
  absorbed hs m hm := by
    rcases hm with hm | hm
    · obtain ⟨index, hindex, habs⟩ := h.absorbed hs m hm
      exact ⟨index, hindex, habs.mono (Grows.refl index) h'.grows⟩
    · obtain ⟨index, hindex, habs⟩ := h'.absorbed (h.valid hs) m hm
      exact ⟨index, h.grows.trans hindex, habs⟩

/-- A step for each element of a list. -/
theorem stepSpec_foldl {A : Type*} {step : PassState → A → PassState} {covered : A → Set ℕ}
    (h : ∀ s x, StepSpec cfg loadedModules s (step s x) (covered x)) (xs : List A) (s : PassState) :
    StepSpec cfg loadedModules s (xs.foldl step s) {m | ∃ x ∈ xs, m ∈ covered x} := by
  induction xs generalizing s with
  | nil => exact ⟨Grows.refl _, id, fun _ m ⟨x, hx, _⟩ => absurd hx List.not_mem_nil⟩
  | cons x xs ih =>
    have hstep := (h s x).trans (ih (step s x))
    refine ⟨hstep.grows, hstep.valid, fun hs m ⟨y, hy, hm⟩ => hstep.absorbed hs m ?_⟩
    rcases List.mem_cons.mp hy with rfl | hy
    · exact Or.inl hm
    · exact Or.inr ⟨y, hy, hm⟩

section Step

variable (hinj : Function.Injective cfg.md5Hex) (hbar : ∀ text, '|' ∉ cfg.md5Hex text)
include hinj hbar

/-- **A summary from the cache is the one that would be built**: its key is that of an index with
the same text, from which the global index has grown. -/
theorem cached_eq_build (hs : CacheValid cfg loadedModules s) {m : ℕ}
    {summary : ResourceSummaryIndex}
    (h : s.memoryCache (cacheKey cfg (loadedModule loadedModules m)
      (hashSummaryIndex cfg s.globalIndex)) = some summary) :
    summary = buildModuleSummary cfg loadedModules s.globalIndex m := by
  obtain ⟨m', index, hkey, rfl, hgrows⟩ := hs _ _ h
  obtain ⟨hhash, hir⟩ := cacheKey_inj hinj hbar (hbar _) (hbar _) hkey
  rw [grows_eq_of_text hgrows (hinj hhash).symm, buildModuleSummary, buildModuleSummary, hir]

/-- The modules outside cycles. -/
theorem processTrivialModules_spec {order : List ℕ → List ℕ} (horder : ∀ l, (order l).Perm l)
    (trivial : List ℕ) (s : PassState) :
    StepSpec cfg loadedModules s (processTrivialModules cfg loadedModules order trivial s)
      {m | m ∈ trivial} := by
  set key := fun m => cacheKey cfg (loadedModule loadedModules m)
    (hashSummaryIndex cfg s.globalIndex) with hkey
  set t := processTrivialModules cfg loadedModules order trivial s with ht
  have hsummary : CacheValid cfg loadedModules s → ∀ m ∈ trivial,
      t.moduleSummaries m = buildModuleSummary cfg loadedModules s.globalIndex m := by
    intro hs m hm
    change storeFound (fun m => some (buildModuleSummary cfg loadedModules s.globalIndex m))
      (order (trivial.filter fun m => (s.memoryCache (key m)).isNone))
      (storeFound (fun m => s.memoryCache (key m)) trivial s.moduleSummaries) m = _
    simp only [storeFound_apply, (horder _).mem_iff, List.mem_filter, hm, true_and]
    cases hcache : s.memoryCache (key m) with
    | none => simp
    | some summary => simpa using cached_eq_build hinj hbar hs hcache
  have hgrows : resourceOps.Grows s.globalIndex t.globalIndex := grows_mergeAll _ _ _
  refine ⟨hgrows, fun hs => ?_, fun hs m hm => ⟨s.globalIndex, Grows.refl _, ?_⟩⟩
  · have hfold : ∀ (missing : List ℕ) (cache : CppString → Option ResourceSummaryIndex),
        (∀ m ∈ missing, m ∈ trivial) → CacheValid cfg loadedModules { t with memoryCache := cache } →
          CacheValid cfg loadedModules { t with memoryCache := missing.foldl (fun cache m =>
            Function.update cache (key m) (some (t.moduleSummaries m))) cache } := by
      intro missing
      induction missing with
      | nil => exact fun _ _ h => h
      | cons m missing ih =>
        intro cache hmem hcache
        refine ih _ (fun m' hm' => hmem m' (List.mem_cons_of_mem m hm')) fun key' summary h => ?_
        change Function.update cache (key m) (some (t.moduleSummaries m)) key' = some summary at h
        by_cases hk : key' = key m
        · rw [hk, Function.update_self, Option.some.injEq] at h
          exact ⟨m, s.globalIndex, hk, h ▸ hsummary hs m (hmem m List.mem_cons_self), hgrows⟩
        · rw [Function.update_of_ne hk] at h
          exact hcache key' summary h
    refine hfold (trivial.filter fun m => (s.memoryCache (key m)).isNone) s.memoryCache
      (fun m hm => (List.mem_filter.mp hm).1) fun key' summary h => ?_
    obtain ⟨m, index, hkey', hsum, hindex⟩ := hs key' summary h
    exact ⟨m, index, hkey', hsum, hindex.trans hgrows⟩
  · rw [← hsummary hs m hm]
    exact absorbed_mergeAll hm _

variable {N : ℕ} (filteredEdges : ModuleEdges N)

omit hinj hbar in
/-- The components with cycles. -/
theorem processResourceSCC_spec (sccs : List (List ℕ)) (s : PassState) :
    StepSpec cfg loadedModules s
      { s with
        globalIndex := (sccs.foldl (processResourceSCC cfg loadedModules)
          (s.globalIndex, s.moduleSummaries)).1
        moduleSummaries := (sccs.foldl (processResourceSCC cfg loadedModules)
          (s.globalIndex, s.moduleSummaries)).2 } {m | ∃ scc ∈ sccs, m ∈ scc} := by
  have hfold : ∀ (sccs : List (List ℕ)) (r : ResourceSummaryIndex × (ℕ → ResourceSummaryIndex)),
      resourceOps.Grows r.1 (sccs.foldl (processResourceSCC cfg loadedModules) r).1 ∧
        ∀ scc ∈ sccs, ∀ m ∈ scc, ∃ index, resourceOps.Grows r.1 index ∧
          resourceOps.Absorbed index (buildModuleSummary cfg loadedModules index m)
            (sccs.foldl (processResourceSCC cfg loadedModules) r).1 := by
    intro sccs
    induction sccs with
    | nil => exact fun r => ⟨Grows.refl _, by simp⟩
    | cons scc sccs ih =>
      intro r
      have hgrows : resourceOps.Grows r.1 (processResourceSCC cfg loadedModules r scc).1 :=
        grows_processCyclicSCC r
      obtain ⟨hrest, habs⟩ := ih (processResourceSCC cfg loadedModules r scc)
      refine ⟨hgrows.trans hrest, fun scc' hscc' m hm => ?_⟩
      rcases List.mem_cons.mp hscc' with rfl | hscc'
      · exact ⟨r.1, Grows.refl _,
          (processCyclicSCC_absorbed hm r).mono (Grows.refl _) hrest⟩
      · obtain ⟨index, hindex, h⟩ := habs scc' hscc' m hm
        exact ⟨index, hgrows.trans hindex, h⟩
  obtain ⟨hgrows, habs⟩ := hfold sccs (s.globalIndex, s.moduleSummaries)
  refine ⟨hgrows, fun hs key summary h => ?_, fun _ m ⟨scc, hscc, hm⟩ => habs scc hscc m hm⟩
  obtain ⟨m, index, hkey, hsum, hindex⟩ := hs key summary h
  exact ⟨m, index, hkey, hsum, hindex.trans hgrows⟩

/-- **A pass** covers every module. -/
theorem globalPass_spec (workers : WorkerSchedule) (pass : ℕ) (s : PassState) :
    StepSpec cfg loadedModules s (globalPass cfg loadedModules filteredEdges workers pass s)
      {m | m < N} := by
  set sccOrder := computeTopologicalSCCOrder filteredEdges with hsccOrder
  set group := levelGroup sccOrder (computeSCCLevels sccOrder filteredEdges) with hgroup
  have hlevel : ∀ s level, StepSpec cfg loadedModules s
      (processLevel cfg loadedModules filteredEdges (workers.order pass level) s level)
      ({m | m ∈ trivialModules filteredEdges sccOrder (group level)} ∪
        {m | ∃ scc ∈ cyclicSCCs filteredEdges sccOrder (group level), m ∈ scc}) := fun s level =>
    (processTrivialModules_spec hinj hbar (workers.perm pass level) _ s).trans
      (processResourceSCC_spec _ _)
  have hpass := stepSpec_foldl hlevel
    (List.range (maxLevel sccOrder (computeSCCLevels sccOrder filteredEdges) + 1)) s
  refine ⟨hpass.grows, hpass.valid, fun hs m hm => hpass.absorbed hs m ?_⟩
  obtain ⟨level, hle, hcase⟩ := exists_level filteredEdges hm
  exact ⟨level, List.mem_range.mpr (Nat.lt_succ_of_le hle), hcase⟩

/-- Converged passes end in a post-fixpoint. -/
theorem globalPasses_postFixpoint (workers : WorkerSchedule) (n pass : ℕ)
    (hs : CacheValid cfg loadedModules s)
    (h : (globalPasses cfg loadedModules filteredEdges workers n pass s).2 = true) {m : ℕ}
    (hm : m < N) :
    Contained
      (buildModuleSummary cfg loadedModules
        (globalPasses cfg loadedModules filteredEdges workers n pass s).1.globalIndex m)
      (globalPasses cfg loadedModules filteredEdges workers n pass s).1.globalIndex := by
  induction n generalizing pass s with
  | zero => simp [globalPasses] at h
  | succ n ih =>
    have hpass : StepSpec cfg loadedModules s _ _ :=
      globalPass_spec hinj hbar filteredEdges workers pass s
    unfold globalPasses at h ⊢
    simp only at h ⊢
    split_ifs at h ⊢ with hhash
    · have hsame := grows_eq_of_text hpass.grows (hinj hhash).symm
      obtain ⟨index, hindex, habs⟩ := hpass.absorbed hs m hm
      -- the index did not change on the way either
      rw [← hsame] at habs ⊢
      rw [← grows_antisymm hindex habs.grows] at habs
      exact contained_of_absorbed habs
    · exact ih (pass + 1) (hpass.valid hs) h

end Step

end Passes

/-- **A converged index is a post-fixpoint**: if the passes end because the hash of the global index
stays the same, then every module, summarised again against the index, yields only what the index
contains. The hash function is assumed to be free of collisions, and its values to be free of the
separator of cache keys.

**Proof sketch.** In the last pass the index is the same from the start to the end: merges only add,
every merge that changes something lengthens the text of the index, and the texts have the same
hash. In this pass every module has been summarised against the index of that moment, or taken from
the cache under the hash of it, and merged. The index of that moment is the final one. -/
theorem buildCrossTUSummaryIndex_postFixpoint (cfg : ResourceConfig)
    (loadedModules : List LoadedModule) (filteredEdges : ModuleEdges loadedModules.length)
    (workers : WorkerSchedule) (hinj : Function.Injective cfg.md5Hex)
    (hbar : ∀ text, '|' ∉ cfg.md5Hex text) (index : ResourceSummaryIndex)
    (h : buildCrossTUSummaryIndex cfg loadedModules filteredEdges workers = some (index, true)) :
    ∀ m < loadedModules.length,
      Contained (buildModuleSummary cfg loadedModules index m) index := by
  intro m hm
  unfold buildCrossTUSummaryIndex at h
  split_ifs at h
  set s : PassState := ⟨EntryMap.empty, fun _ => EntryMap.empty, fun _ => none⟩
  have hvalid : CacheValid cfg loadedModules s := by
    intro key summary hcache
    exact absurd hcache (by simp [s])
  have hpair := Option.some.inj h
  have hindex : (globalPasses cfg loadedModules filteredEdges workers kCrossTUGlobalMaxIterations 0
      s).1.globalIndex = index := congrArg Prod.fst hpair
  have hconverged : (globalPasses cfg loadedModules filteredEdges workers
      kCrossTUGlobalMaxIterations 0 s).2 = true := congrArg Prod.snd hpair
  have hpost := globalPasses_postFixpoint hinj hbar filteredEdges workers _ 0 hvalid hconverged hm
  rwa [hindex] at hpost

/-! ## A run on two modules -/

/-- The text of a module whose function fills its argument with a handle. -/
def wrapIR : CppString :=
  ("define void @open_wrap(ptr %h) \x7b\n  call void @acquire_handle(ptr %h)\n  ret void\n\x7d\n" ++
    "\ndeclare void @acquire_handle(ptr)\n").toList

/-- The text of a module whose function calls that of the other module. -/
def twiceIR : CppString :=
  ("define void @open_twice(ptr %h) \x7b\n  call void @open_wrap(ptr %h)\n  ret void\n\x7d\n" ++
    "\ndeclare void @open_wrap(ptr)\n").toList

/-- The module of `wrapIR`, or that of `twiceIR`. -/
def handleModule (name callee : String) (rules : List Resource.MatchedRule) : Resource.Module :=
  [⟨name.toList, false, false, false, false, true,
      [⟨some 1, true, rules, true, false, [], fun e => some (⟨0, e.offset⟩, false)⟩]⟩,
    ⟨callee.toList, true, false, false, false, true, []⟩]

/-- The digits of a hash. -/
def hexDigest (n : ℕ) : CppString := Nat.toDigits 16 n

/-- The texts that are hashed in the run, with their hashes. -/
def handleDigests : List (CppString × CppString) :=
  let model := hexDigest 0xa4338d0739b7e44365af5a54a4774017
  let filter := hexDigest 0xea48adff372e53ee97d85844ad806622
  let args := hexDigest 0xd41d8cd98f00b204e9800998ecf8427e
  let key := fun external ir : ℕ => "cross-tu-resource-summary-v2|".toList ++ model ++ '|' ::
    hexDigest external ++ '|' :: filter ++ '|' :: args ++ '|' :: hexDigest ir
  [([], args), ("acquire_out acquire_handle 0 Handle\n".toList, model),
    ("include-stl=0\nonly-functions=0\nonly-files=0\nonly-dirs=0\nexclude-dirs=0\n".toList, filter),
    (wrapIR, hexDigest 0x72798a4980f0f0491a0689057f1012d0),
    (twiceIR, hexDigest 0x6043e6669c553a04fc2f2ad1e44826d5),
    ("open_wrap\n  0|0|0|0|Handle\n".toList, hexDigest 0x88b9a21c936352c5e40c3e3d1cef989e),
    ("open_twice\n  0|0|0|0|Handle\nopen_wrap\n  0|0|0|0|Handle\n".toList,
      hexDigest 0x8f2b63c86e962a31a59dcf62ef416da0),
    (key 0xd41d8cd98f00b204e9800998ecf8427e 0x72798a4980f0f0491a0689057f1012d0,
      hexDigest 0xb42cd3269ada73fd5c73990e79737f2a),
    (key 0x88b9a21c936352c5e40c3e3d1cef989e 0x6043e6669c553a04fc2f2ad1e44826d5,
      hexDigest 0xf934211d6029cc83e9d9fdb42282666c),
    (key 0x8f2b63c86e962a31a59dcf62ef416da0 0x72798a4980f0f0491a0689057f1012d0,
      hexDigest 0xc21085d2851fe221ebcc38e3c6734bc1),
    (key 0x8f2b63c86e962a31a59dcf62ef416da0 0x6043e6669c553a04fc2f2ad1e44826d5,
      hexDigest 0x6459335ebb127416335798d7aef90915)]

/-- A text without bars, two characters for each one. -/
def escapeBars : CppString → CppString
  | [] => []
  | c :: text => if c = '|' then '0' :: '0' :: escapeBars text else '1' :: c :: escapeBars text

/-- The hash function of the run. Other texts are kept apart from these hashes. -/
def handleMd5 (text : CppString) : CppString :=
  (handleDigests.lookup text).getD ('x' :: escapeBars text)

/-- The options of the run. -/
def handleConfig : ResourceConfig where
  resourceCrossTU := true
  resourceModelPath := "model.txt".toList
  modelContent := "acquire_out acquire_handle 0 Handle\n".toList
  hasRules := true
  filterText :=
    "include-stl=0\nonly-functions=0\nonly-files=0\nonly-dirs=0\nexclude-dirs=0\n".toList
  moduleOf text :=
    if text = wrapIR then
      handleModule "open_wrap" "acquire_handle"
        [⟨.acquireOut, "Handle".toList, true, some ⟨0, 0⟩, none, false⟩]
    else handleModule "open_twice" "open_wrap" []
  md5Hex := handleMd5

/-- The modules of the run, the caller first. -/
def handleModules : List LoadedModule := [⟨twiceIR, []⟩, ⟨wrapIR, []⟩]

/-- Workers that finish in order. -/
def inOrder : WorkerSchedule := ⟨fun _ _ modules => modules, fun _ _ modules => .refl modules⟩

theorem escapeBars_injective : Function.Injective escapeBars := by
  intro a
  induction a with
  | nil =>
    rintro (_ | ⟨d, b⟩) h
    · rfl
    · rw [escapeBars, escapeBars] at h
      split_ifs at h
  | cons c a ih =>
    rintro (_ | ⟨d, b⟩) h
    · rw [escapeBars, escapeBars] at h
      split_ifs at h
    · rw [escapeBars, escapeBars] at h
      split_ifs at h with hc hd hd
      · rw [hc, hd, ih (List.cons.inj (List.cons.inj h).2).2]
      · exact absurd (List.cons.inj h).1 (by decide)
      · exact absurd (List.cons.inj h).1 (by decide)
      · obtain ⟨rfl, htail⟩ := List.cons.inj (List.cons.inj h).2
        rw [ih htail]

theorem bar_notMem_escapeBars (text : CppString) : '|' ∉ escapeBars text := by
  induction text with
  | nil => exact List.not_mem_nil
  | cons c text ih =>
    rw [escapeBars]
    split_ifs with hc
    · simpa using ih
    · simpa using ⟨fun h => hc h.symm, ih⟩

/-- A text of the table has the hash of the table, and others start with another character. -/
theorem handleMd5_cases (text : CppString) :
    (∃ entry ∈ handleDigests, text = entry.1 ∧ handleMd5 text = entry.2) ∨
      handleMd5 text = 'x' :: escapeBars text := by
  unfold handleMd5
  cases hlookup : handleDigests.lookup text with
  | none => exact Or.inr rfl
  | some digest =>
    refine Or.inl ⟨(text, digest), ?_, rfl, rfl⟩
    obtain ⟨before, after, heq, -⟩ := List.lookup_eq_some_iff.mp hlookup
    exact heq ▸ List.mem_append_right before List.mem_cons_self

theorem handleMd5_injective : Function.Injective handleMd5 := by
  have htable : ∀ e ∈ handleDigests, ∀ e' ∈ handleDigests, e.2 = e'.2 → e.1 = e'.1 := by
    decide +kernel
  have hfirst : ∀ e ∈ handleDigests, e.2.head? ≠ some 'x' := by
    decide +kernel
  intro a b h
  rcases handleMd5_cases a with ⟨e, he, rfl, ha⟩ | ha <;>
    rcases handleMd5_cases b with ⟨e', he', rfl, hb⟩ | hb
  · exact htable e he e' he' (by rw [← ha, h, hb])
  · exact absurd (by rw [← ha, h, hb]; rfl) (hfirst e he)
  · exact absurd (by rw [← hb, ← h, ha]; rfl) (hfirst e' he')
  · exact escapeBars_injective (List.cons.inj (by rw [← ha, h, hb])).2

theorem bar_notMem_handleMd5 (text : CppString) : '|' ∉ handleMd5 text := by
  have htable : ∀ e ∈ handleDigests, '|' ∉ e.2 := by decide +kernel
  rcases handleMd5_cases text with ⟨e, he, -, h⟩ | h
  · exact h ▸ htable e he
  · rw [h, List.mem_cons, not_or]
    exact ⟨by decide, bar_notMem_escapeBars text⟩

/-- The index at the end of the run. -/
def handleIndex : ResourceSummaryIndex where
  entries := [("open_wrap".toList, [⟨.acquireOut, 0, 0, false, "Handle".toList⟩]),
    ("open_twice".toList, [⟨.acquireOut, 0, 0, false, "Handle".toList⟩])]
  nodup := by decide

theorem buildCrossTUSummaryIndex_postFixpoint_handles :
    Contained (buildModuleSummary handleConfig handleModules handleIndex 0) handleIndex ∧
      Contained (buildModuleSummary handleConfig handleModules handleIndex 1) handleIndex := by
  have hrun : (buildCrossTUSummaryIndex handleConfig handleModules
      (resourceEdges (handleModules.map fun loaded => handleConfig.moduleOf loaded.ir))
      inOrder).map (fun r => (r.1.entries, r.2)) = some (handleIndex.entries, true) := by
    decide +kernel
  obtain ⟨⟨index, converged⟩, hr, hpair⟩ := Option.map_eq_some_iff.mp hrun
  obtain ⟨hentries, rfl⟩ := Prod.mk.inj hpair
  have hall : ∀ m < 2,
      Contained (buildModuleSummary handleConfig handleModules handleIndex m) handleIndex := by
    refine buildCrossTUSummaryIndex_postFixpoint handleConfig handleModules
      (resourceEdges (handleModules.map fun loaded => handleConfig.moduleOf loaded.ir)) inOrder
      handleMd5_injective bar_notMem_handleMd5 handleIndex ?_
    exact hr.trans (congrArg (fun index => some (index, true)) (EntryMap.ext hentries))
  exact ⟨hall 0 Nat.zero_lt_two, hall 1 Nat.one_lt_two⟩

end StackAnalyzer.CrossTU
