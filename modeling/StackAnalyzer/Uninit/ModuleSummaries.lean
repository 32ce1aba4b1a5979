import StackAnalyzer.Names.Mangle
import StackAnalyzer.Uninit.FunctionSummaries
import StackAnalyzer.Uninit.InitAnalysis
import StackAnalyzer.Uninit.SummaryMerge

set_option relaxedAutoImplicit false
set_option autoImplicit false

/-!
# The summaries of a module, and what other modules see of them

A module is summarised against an index of the summaries of other modules. The functions that are
summarised are those that are analysed and those that they call. A callee that is not one of them is
looked up in the index, under its canonical name. The summaries of the functions that are visible
outside become the index of the module.

## Main definitions

* `StackAnalyzer.Uninit.SummarizedModule` — a module, and the analysis of its functions.
* `StackAnalyzer.Uninit.collectSummaryScope` — the functions that are summarised.
* `StackAnalyzer.Uninit.importExternalSummaryMap`,
  `StackAnalyzer.Uninit.exportSummaryIndexForModule` — from an index, and to an index.
* `StackAnalyzer.Uninit.buildUninitializedSummaryIndex` — the summaries of a module.
* `StackAnalyzer.Uninit.SummarizedModule.externalNames`,
  `StackAnalyzer.Uninit.SummarizedModule.exportedNames` — the names that a module looks up, and
  those that it may export.
* `StackAnalyzer.Uninit.StableIndex` — an index as pipelines build it.

## Main results

* `StackAnalyzer.Uninit.mem_collectSummaryScope_iff` — which functions are summarised.
* `StackAnalyzer.Uninit.buildUninitializedSummaryIndex_congr` — what the summaries depend on.
* `StackAnalyzer.Uninit.canonicalIndex_build` — the summaries are canonical.
* `StackAnalyzer.Uninit.find_importExternalSummaryMap` — what has been exported is imported
  unchanged.
-/

namespace StackAnalyzer.Uninit

open Maps CrossTU Graph

/-! ## Modules -/

/-- A function of a module: its name, empty if it has none, and the functions that its calls refer
to (`getCalledFunction`). Functions that are not analysed belong to the project if their source path
is not that of a system header or, without a path, if their name is not one of the runtime. -/
structure ScopeFunction where
  name : CppString
  isDeclaration : Bool
  hasLocalLinkage : Bool
  shouldAnalyze : Bool
  belongsToProject : Bool
  argCount : ℕ
  callees : List ℕ

/-- The function of a number outside a module. -/
def ScopeFunction.none : ScopeFunction := ⟨[], true, true, false, false, 0, []⟩

/-- **A module, with the analysis of its functions**: `analyzeFunction` on the summaries that its
calls find, which yields canonical effects on the parameters. -/
structure SummarizedModule where
  functions : List ScopeFunction
  analyzeFunction : ℕ → (ℕ → Option UninitializedSummaryFunction) → UninitializedSummaryFunction
  callees_lt : ∀ F c, c ∈ (functions.getD F .none).callees → c < functions.length
  reads : ∀ F σ τ, (∀ c ∈ (functions.getD F .none).callees, σ c = τ c) →
    analyzeFunction F σ = analyzeFunction F τ
  canonical : ∀ F σ, ∀ effect ∈ analyzeFunction F σ, effect.Canonical

namespace SummarizedModule

/-- The module of a number outside a run. -/
def none : SummarizedModule where
  functions := []
  analyzeFunction _ _ := []
  callees_lt F c h := absurd h (by simp [ScopeFunction.none])
  reads _ _ _ _ := rfl
  canonical _ _ _ h := absurd h List.not_mem_nil

variable (mod : SummarizedModule)

/-- The function with a number. -/
def function (F : ℕ) : ScopeFunction := mod.functions.getD F .none

/-- `shouldIncludeInSummaryScope`. -/
def shouldIncludeInSummaryScope (F : ℕ) : Bool :=
  if (mod.function F).shouldAnalyze then true else (mod.function F).belongsToProject

/-- The callees that are added to the scope. -/
def scopeCallees (F : ℕ) : List ℕ :=
  (mod.function F).callees.filter fun c =>
    !(mod.function c).isDeclaration && mod.shouldIncludeInSummaryScope c

/-- The functions that the scope starts from. -/
def scopeRoots : List ℕ :=
  (List.range mod.functions.length).filter fun F =>
    !(mod.function F).isDeclaration && (mod.function F).shouldAnalyze

end SummarizedModule

/-- `collectSummaryScope`. -/
def collectSummaryScope (mod : SummarizedModule) : ℕ → Bool :=
  let start := push mod.scopeRoots [] fun _ => false
  drain mod.scopeCallees mod.functions.length start.1 start.2

/-- `canonicalCalleeNames`: the callees of the functions in the scope that have a name. -/
def canonicalCalleeNames (mod : SummarizedModule) : List (ℕ × CppString) :=
  ((List.range mod.functions.length).filter (collectSummaryScope mod)).flatMap fun F =>
    ((mod.function F).callees.filter fun c => !(mod.function c).name.isEmpty).map fun c =>
      (c, canonicalizeMangledName (mod.function c).name)

/-- `getCanonicalCalleeNames`. -/
def getCanonicalCalleeNames (mod : SummarizedModule) : List CppString :=
  (canonicalCalleeNames mod).map Prod.snd

/-! ## Import and export -/

/-- The effects on a parameter, put together again. -/
def importParamEffect (src : ParamEffect) : ParamEffect where
  readBeforeWriteRanges :=
    src.readBeforeWriteRanges.foldl (fun ranges rr => addRange ranges rr.begin rr.stop) []
  writeRanges := src.writeRanges.foldl (fun ranges wr => addRange ranges wr.begin wr.stop) []
  pointerSlotWrites := (addSlotWrites [] src.pointerSlotWrites).1
  hasUnknownReadBeforeWrite := src.hasUnknownReadBeforeWrite
  hasUnknownWrite := src.hasUnknownWrite

/-- The summary that an entry of an index is imported as. -/
def importFunctionSummary (fn : UninitializedSummaryFunction) : UninitializedSummaryFunction :=
  trimTrailingEmptyPublicParamEffects (fn.map importParamEffect)

/-- `importExternalSummaryMap`: the first entry for a name stands. -/
def importExternalSummaryMap (externalSummaries : UninitializedSummaryIndex) (name : CppString) :
    Option UninitializedSummaryFunction :=
  externalSummaries.entries.findSome? fun entry =>
    let summary := importFunctionSummary entry.2
    if summary.isEmpty then none
    else if canonicalizeMangledName entry.1 = name then some summary else none

/-- `shouldExportFunctionSummary`. -/
def shouldExportFunctionSummary (F : ScopeFunction) : Bool :=
  !F.isDeclaration && !F.name.isEmpty && !F.hasLocalLinkage

/-- `exportSummaryIndexForModule`. -/
def exportSummaryIndexForModule (mod : SummarizedModule)
    (summaries : ℕ → Option UninitializedSummaryFunction) : UninitializedSummaryIndex :=
  (List.range mod.functions.length).foldl (fun out F =>
    if shouldExportFunctionSummary (mod.function F) then
      match summaries F with
      | none => out
      | some summary =>
        let normalized := trimTrailingEmptyPublicParamEffects summary
        if normalized.isEmpty then out
        else out.assign (canonicalizeMangledName (mod.function F).name) normalized
    else out) EntryMap.empty

/-! ## The summaries of a module -/

/-- The functions of a module with their calls, where the scope decides what is summarised. -/
def callModule (mod : SummarizedModule) : CallModule ℕ where
  functions := List.range mod.functions.length
  nodup := List.nodup_range
  isDeclaration F := (mod.function F).isDeclaration
  shouldAnalyze := collectSummaryScope mod
  callees F := (mod.function F).callees

/-- The summary of a callee that is not summarised in the module. -/
def externalSummary (mod : SummarizedModule)
    (externalSummariesByName : CppString → Option UninitializedSummaryFunction) (c : ℕ) :
    Option UninitializedSummaryFunction :=
  externalSummariesByName (canonicalizeMangledName (mod.function c).name)

/-- The analysis of a function, where the summaries of the module go before those of other ones. -/
def summaryAnalysis (mod : SummarizedModule)
    (externalSummariesByName : CppString → Option UninitializedSummaryFunction) :
    SummaryAnalysis ℕ UninitializedSummaryFunction where
  makeEmptySummary F := List.replicate (mod.function F).argCount .empty
  analyzeFunction F summaries := mod.analyzeFunction F fun c =>
    (summaries c).or (externalSummary mod externalSummariesByName c)

/-- `buildUninitializedSummaryIndex`. -/
def buildUninitializedSummaryIndex (mod : SummarizedModule)
    (externalSummaries : UninitializedSummaryIndex) : UninitializedSummaryIndex :=
  exportSummaryIndexForModule mod
    (computeFunctionSummaries (callModule mod)
      (summaryAnalysis mod (importExternalSummaryMap externalSummaries))
      (List.range mod.functions.length))

/-- The names that a module looks up in an index: those of the callees of its functions that are not
summarised themselves. -/
def SummarizedModule.externalNames (mod : SummarizedModule) : List CppString :=
  (((List.range mod.functions.length).filter (collectSummaryScope mod)).flatMap fun F =>
    (mod.function F).callees.filter fun c => !collectSummaryScope mod c).map fun c =>
      canonicalizeMangledName (mod.function c).name

/-- The names under which a module exports summaries, if they have effects. -/
def SummarizedModule.exportedNames (mod : SummarizedModule) : List CppString :=
  ((List.range mod.functions.length).filter fun F =>
    collectSummaryScope mod F && shouldExportFunctionSummary (mod.function F)).map fun F =>
      canonicalizeMangledName (mod.function F).name

/-- Canonical summaries with effects, under names that stay as they are when they are canonicalised
again. -/
structure StableIndex (index : UninitializedSummaryIndex) : Prop where
  canonical : CanonicalIndex index
  nonempty : ∀ name, index.find name ≠ some []
  stable : ∀ name fn, index.find name = some fn → canonicalizeMangledName name = name

/-! ## The scope -/

section Scope

variable {mod : SummarizedModule}

/-- A function that is not a declaration is one of the module. -/
theorem lt_of_not_isDeclaration {F : ℕ} (h : (mod.function F).isDeclaration = false) :
    F < mod.functions.length := by
  by_contra hge
  rw [SummarizedModule.function, List.getD_eq_default _ _ (not_lt.mp hge)] at h
  exact Bool.noConfusion h

theorem mem_scopeCallees {F c : ℕ} : c ∈ mod.scopeCallees F ↔ c ∈ (mod.function F).callees ∧
    (mod.function c).isDeclaration = false ∧ mod.shouldIncludeInSummaryScope c = true := by
  simp [SummarizedModule.scopeCallees]

theorem mem_scopeRoots {F : ℕ} : F ∈ mod.scopeRoots ↔
    (mod.function F).isDeclaration = false ∧ (mod.function F).shouldAnalyze = true := by
  simp only [SummarizedModule.scopeRoots, List.mem_filter, List.mem_range, Bool.and_eq_true,
    Bool.not_eq_true', and_iff_right_iff_imp]
  exact fun h => lt_of_not_isDeclaration h.1

/-- **Which functions are summarised**: those that are reached from an analysed function through
calls of functions that are defined and included. -/
theorem mem_collectSummaryScope_iff {F : ℕ} : collectSummaryScope mod F = true ↔
    ∃ root ∈ mod.scopeRoots, Reach mod.scopeCallees root F := by
  have hclosed : Closed mod.scopeCallees (List.range mod.functions.length) := fun v _ w hw =>
    List.mem_range.mpr (lt_of_not_isDeclaration (mem_scopeCallees.mp hw).2.1)
  obtain ⟨hseen, hwork, hlen⟩ := push_spec (U := List.range mod.functions.length) mod.scopeRoots []
    (fun _ => false) fun F hF =>
      List.mem_range.mpr (lt_of_not_isDeclaration (mem_scopeRoots.mp hF).1)
  simp only [List.not_mem_nil, false_or, and_true, Bool.false_eq_true] at hseen hwork
  obtain ⟨hmono, hsucc, hreach⟩ := drain_spec hclosed mod.functions.length
    (push mod.scopeRoots [] fun _ => false).1 (push mod.scopeRoots [] fun _ => false).2
    (fun v hv => List.mem_range.mpr
      (lt_of_not_isDeclaration (mem_scopeRoots.mp ((hwork v).mp hv)).1))
    (fun v hv => (hseen v).mpr ((hwork v).mp hv))
    (fun v hv => Or.inl ((hwork v).mpr ((hseen v).mp hv)))
    (by
      refine hlen.trans ?_
      simp [unseen])
  constructor
  · intro h
    obtain ⟨root, hroot, hpath⟩ := hreach F h
    exact ⟨root, (hseen root).mp hroot, hpath⟩
  · rintro ⟨root, hroot, hpath⟩
    have hstart := hmono root ((hseen root).mpr hroot)
    induction hpath with
    | refl => exact hstart
    | tail _ hstep ih => exact hsucc _ ih _ hstep

/-- The functions that are summarised are defined in the module. -/
theorem isDeclaration_of_scope {F : ℕ} (h : collectSummaryScope mod F = true) :
    (mod.function F).isDeclaration = false := by
  obtain ⟨root, hroot, hpath⟩ := mem_collectSummaryScope_iff.mp h
  cases hpath with
  | refl => exact (mem_scopeRoots.mp hroot).1
  | tail _ hstep => exact (mem_scopeCallees.mp hstep).2.1

/-- The functions that are summarised are those of the scope. -/
theorem mem_analysisFunctions_scope {F : ℕ} :
    F ∈ analysisFunctions (callModule mod) (List.range mod.functions.length) ↔
      collectSummaryScope mod F = true := by
  rw [mem_analysisFunctions, List.mem_range]
  refine ⟨fun h => h.2.2, fun h => ?_⟩
  have hdefined := isDeclaration_of_scope h
  exact ⟨lt_of_not_isDeclaration hdefined, hdefined, h⟩

end Scope

/-! ## What the summaries depend on -/

section Build

variable {mod : SummarizedModule} {a b : UninitializedSummaryIndex}

/-- Functions are analysed alike if the names that are looked up have the same summaries. -/
theorem eval_congr (h : ∀ name ∈ mod.externalNames,
    importExternalSummaryMap a name = importExternalSummaryMap b name) {F : ℕ}
    (hF : F ∈ analysisFunctions (callModule mod) (List.range mod.functions.length)) :
    (summarySystem (callModule mod) (summaryAnalysis mod (importExternalSummaryMap a))
      (analysisFunctions (callModule mod) (List.range mod.functions.length))).eval F =
    (summarySystem (callModule mod) (summaryAnalysis mod (importExternalSummaryMap b))
      (analysisFunctions (callModule mod) (List.range mod.functions.length))).eval F := by
  have hscope := mem_analysisFunctions_scope.mp hF
  funext values
  refine mod.reads F _ _ fun c hc => ?_
  by_cases hcallee : collectSummaryScope mod c = true
  · rw [summaryMap, if_pos (mem_analysisFunctions_scope.mpr hcallee), Option.some_or,
      Option.some_or]
  · have hname : canonicalizeMangledName (mod.function c).name ∈ mod.externalNames := by
      refine List.mem_map.mpr ⟨c, List.mem_flatMap.mpr ⟨F, ?_, ?_⟩, rfl⟩
      · exact List.mem_filter.mpr ⟨List.mem_range.mpr
          (lt_of_not_isDeclaration (isDeclaration_of_scope hscope)), hscope⟩
      · exact List.mem_filter.mpr ⟨hc, by simpa using hcallee⟩
    rw [externalSummary, externalSummary, h _ hname]

/-- **What the summaries of a module depend on**: the external summaries of the names that it looks
up. -/
theorem buildUninitializedSummaryIndex_congr (h : ∀ name ∈ mod.externalNames,
    importExternalSummaryMap a name = importExternalSummaryMap b name) :
    buildUninitializedSummaryIndex mod a = buildUninitializedSummaryIndex mod b := by
  have hsummaries : computeFunctionSummaries (callModule mod)
      (summaryAnalysis mod (importExternalSummaryMap a)) (List.range mod.functions.length) =
        computeFunctionSummaries (callModule mod) (summaryAnalysis mod (importExternalSummaryMap b))
          (List.range mod.functions.length) := by
    refine congrArg (summaryMap _) (DirtyRounds.run_congr (fun F hF => ?_) ?_ 64 _ _)
    · exact eval_congr h hF
    · rfl
  rw [buildUninitializedSummaryIndex, hsummaries, buildUninitializedSummaryIndex]

/-- Trimming leaves no trailing parameter without effects. -/
theorem canonicalFunction_trim {fn : UninitializedSummaryFunction}
    (h : ∀ effect ∈ fn, effect.Canonical) :
    CanonicalFunction (trimTrailingEmptyPublicParamEffects fn) := by
  have hdrop : ∀ n ≤ fn.length, dropEmptyTail fn n ≤ n ∧
      ∀ k, dropEmptyTail fn n = k + 1 → isEmptyPublicParamEffect (fn.getD k .empty) = false := by
    intro n
    induction n with
    | zero => exact fun _ => ⟨le_rfl, fun k hk => absurd hk (by simp [dropEmptyTail])⟩
    | succ n ih =>
      intro hn
      rw [dropEmptyTail]
      split_ifs with hempty
      · obtain ⟨hle, hlast⟩ := ih (by omega)
        exact ⟨by omega, hlast⟩
      · refine ⟨le_rfl, fun k hk => ?_⟩
        obtain rfl := Nat.succ.inj hk
        exact Bool.not_eq_true _ ▸ hempty
  obtain ⟨hle, hlast⟩ := hdrop fn.length le_rfl
  refine ⟨fun effect he => h effect (List.mem_of_mem_take he), fun effect he => ?_⟩
  rw [trimTrailingEmptyPublicParamEffects, effectivePublicParamEffectCount] at he
  rw [List.getLast?_eq_getElem?, List.length_take, min_eq_left hle] at he
  obtain ⟨hlt, hget⟩ := List.getElem?_eq_some_iff.mp he
  rw [List.length_take, min_eq_left hle] at hlt
  have hk := hlast (dropEmptyTail fn fn.length - 1) (by omega)
  rw [List.getElem_take] at hget
  rwa [List.getD_eq_getElem _ _ (by omega), hget] at hk

/-- The summaries of functions have canonical effects. -/
theorem canonical_of_summary {external : CppString → Option UninitializedSummaryFunction} {F : ℕ}
    {summary : UninitializedSummaryFunction}
    (h : computeFunctionSummaries (callModule mod) (summaryAnalysis mod external)
      (List.range mod.functions.length) F = some summary) :
    ∀ effect ∈ summary, effect.Canonical := by
  rw [computeFunctionSummaries, summaryMap] at h
  split_ifs at h
  rw [← Option.some.inj h]
  refine DirtyRounds.run_forall (p := fun (_ : ℕ)
    (summary : UninitializedSummaryFunction) => ∀ effect ∈ summary, effect.Canonical)
    (fun F _ values => ?_) 64 (fun F effect he => ?_) F
  · exact mod.canonical F _
  · exact List.eq_of_mem_replicate he ▸ canonical_empty

/-- What an exported index has under a name: the summary of a visible function of this name, which
has effects. -/
theorem find_export {summaries : ℕ → Option UninitializedSummaryFunction} {name : CppString}
    {fn : UninitializedSummaryFunction}
    (h : (exportSummaryIndexForModule mod summaries).find name = some fn) :
    ∃ F summary, F < mod.functions.length ∧ shouldExportFunctionSummary (mod.function F) = true ∧
      canonicalizeMangledName (mod.function F).name = name ∧ summaries F = some summary ∧
      fn = trimTrailingEmptyPublicParamEffects summary ∧ fn ≠ [] := by
  have hfold : ∀ (l : List ℕ) (out : UninitializedSummaryIndex),
      (∀ F ∈ l, F < mod.functions.length) →
      (l.foldl (fun out F =>
        if shouldExportFunctionSummary (mod.function F) then
          match summaries F with
          | none => out
          | some summary =>
            let normalized := trimTrailingEmptyPublicParamEffects summary
            if normalized.isEmpty then out
            else out.assign (canonicalizeMangledName (mod.function F).name) normalized
        else out) out).find name = some fn →
      out.find name = some fn ∨ ∃ F summary, F < mod.functions.length ∧
        shouldExportFunctionSummary (mod.function F) = true ∧
        canonicalizeMangledName (mod.function F).name = name ∧ summaries F = some summary ∧
        fn = trimTrailingEmptyPublicParamEffects summary ∧ fn ≠ [] := by
    intro l
    induction l with
    | nil => exact fun out _ h => Or.inl h
    | cons F l ih =>
      intro out hl h
      rw [List.foldl_cons] at h
      refine (ih _ (fun G hG => hl G (List.mem_cons_of_mem F hG)) h).elim (fun hfind => ?_) Or.inr
      split_ifs at hfind with hexport
      · split at hfind
        · exact Or.inl hfind
        · next summary hsummary =>
          dsimp only at hfind
          split_ifs at hfind with hempty
          · exact Or.inl hfind
          · rw [EntryMap.find_assign] at hfind
            split_ifs at hfind with hname
            · refine Or.inr ⟨F, summary, hl F List.mem_cons_self, hexport, hname, hsummary,
                (Option.some.inj hfind).symm, ?_⟩
              rw [← Option.some.inj hfind]
              simpa using hempty
            · exact Or.inl hfind
      · exact Or.inl hfind
  refine (hfold _ EntryMap.empty (fun F hF => List.mem_range.mp hF) h).elim (fun h => ?_) id
  exact absurd h (by simp)

/-- **The summaries of a module are canonical.** -/
theorem canonicalIndex_build : CanonicalIndex (buildUninitializedSummaryIndex mod a) := by
  intro entry hentry
  obtain ⟨F, summary, -, -, -, hsummary, hfn, -⟩ :=
    find_export (EntryMap.find_eq_some_iff.mpr hentry)
  rw [hfn]
  exact canonicalFunction_trim (canonical_of_summary hsummary)

/-- The summaries of a module are under the names that it exports. -/
theorem mem_exportedNames_of_find {name : CppString} {fn : UninitializedSummaryFunction}
    (h : (buildUninitializedSummaryIndex mod a).find name = some fn) :
    name ∈ mod.exportedNames := by
  obtain ⟨F, summary, hF, hexport, hname, hsummary, -⟩ := find_export h
  have hscope : collectSummaryScope mod F = true := by
    by_contra hscope
    rw [computeFunctionSummaries, summaryMap,
      if_neg fun hmem => hscope (mem_analysisFunctions_scope.mp hmem)] at hsummary
    exact absurd hsummary (by simp)
  refine List.mem_map.mpr ⟨F, List.mem_filter.mpr ⟨List.mem_range.mpr hF, ?_⟩, hname⟩
  rw [hscope, hexport, Bool.and_self]

/-- The summaries of a module with stable names. -/
theorem stableIndex_build
    (hstable : ∀ name ∈ mod.exportedNames, canonicalizeMangledName name = name) :
    StableIndex (buildUninitializedSummaryIndex mod a) := by
  refine ⟨canonicalIndex_build, fun name hfind => ?_,
    fun name fn hfind => hstable name (mem_exportedNames_of_find hfind)⟩
  obtain ⟨F, summary, -, -, -, -, -, hne⟩ := find_export hfind
  exact hne rfl

end Build

/-! ## Import -/

section Import

/-- Canonical ranges stay as they are when they are put together again. -/
theorem foldl_addRange {ranges : List Ranges.Range} (h : Ranges.Canonical ranges) :
    ranges.foldl (fun out r => addRange out r.begin r.stop) [] = ranges := by
  have hfold : ∀ (src out : List Ranges.Range), Ranges.Canonical out →
      Ranges.Canonical (src.foldl (fun out r => addRange out r.begin r.stop) out) ∧
        ∀ n, n ∈ Ranges.carrier (src.foldl (fun out r => addRange out r.begin r.stop) out) ↔
          n ∈ Ranges.carrier out ∨ n ∈ Ranges.carrier src := by
    intro src
    induction src with
    | nil => exact fun out hout => ⟨hout, by simp⟩
    | cons r src ih =>
      intro out hout
      obtain ⟨hcan, hcar⟩ := ih (addRange out r.begin r.stop) (hout.add _ _)
      refine ⟨hcan, fun n => ?_⟩
      rw [List.foldl_cons, hcar, addRange, Ranges.mem_carrier_add hout, Ranges.mem_carrier_cons,
        or_assoc, or_left_comm]
      rfl
  obtain ⟨hcan, hcar⟩ := hfold ranges [] .nil
  exact hcan.ext h (Set.ext fun n => by simpa using hcar n)

theorem importParamEffect_eq {effect : ParamEffect} (h : effect.Canonical) :
    importParamEffect effect = effect := by
  have hslots := (addSlotWrites_spec [] h.slots).1
  rw [importParamEffect, foldl_addRange h.reads, foldl_addRange h.writes, hslots]
  simp

/-- **A canonical summary is imported unchanged.** -/
theorem importFunctionSummary_eq {fn : UninitializedSummaryFunction} (h : CanonicalFunction fn) :
    importFunctionSummary fn = fn := by
  rw [importFunctionSummary, List.map_congr_left fun e he => importParamEffect_eq (h.effects e he),
    List.map_id', h.trim_eq]

variable {index : UninitializedSummaryIndex}

/-- **What has been exported is imported unchanged.** -/
theorem find_importExternalSummaryMap (h : StableIndex index) (name : CppString) :
    importExternalSummaryMap index name = index.find name := by
  have hentry : ∀ entry ∈ index.entries, importFunctionSummary entry.2 = entry.2 ∧
      entry.2.isEmpty = false ∧ canonicalizeMangledName entry.1 = entry.1 := by
    intro entry hentry
    have hfind : index.find entry.1 = some entry.2 := EntryMap.find_eq_some_iff.mpr hentry
    refine ⟨importFunctionSummary_eq (h.canonical entry hentry), ?_, h.stable _ _ hfind⟩
    rw [List.isEmpty_eq_false_iff]
    exact fun hnil => h.nonempty entry.1 (hnil ▸ hfind)
  rw [importExternalSummaryMap, EntryMap.find]
  generalize index.entries = entries at hentry
  induction entries with
  | nil => rfl
  | cons entry entries ih =>
    obtain ⟨himport, hne, hstable⟩ := hentry entry List.mem_cons_self
    rw [List.findSome?_cons, lookup, himport, hstable]
    simp only [hne, Bool.false_eq_true, if_false]
    split_ifs with hname
    · rfl
    · exact ih fun e he => hentry e (List.mem_cons_of_mem entry he)

theorem StableIndex.empty : StableIndex EntryMap.empty :=
  ⟨fun _ h => absurd h List.not_mem_nil, fun _ h => by simp at h, fun _ _ h => by simp at h⟩

/-- Stable indexes can be merged. -/
theorem StableIndex.merge {a b : UninitializedSummaryIndex} (ha : StableIndex a)
    (hb : StableIndex b) : StableIndex (mergeUninitializedSummaryIndex a b).1 := by
  have hfind := find_mergeUninitializedSummaryIndex ha.canonical hb.canonical
  refine ⟨ha.canonical.merge hb.canonical, fun name h => ?_, fun name fn h => ?_⟩
  · rw [hfind] at h
    cases hx : a.find name with
    | none =>
      cases hy : b.find name with
      | none => simp [hx, hy, joinEntries] at h
      | some fb =>
        have hne : fb ≠ [] := fun hnil => hb.nonempty name (hnil ▸ hy)
        rw [hx, hy, joinEntries, if_neg hne] at h
        exact hne (Option.some.inj h)
    | some fa =>
      have hcan := canonicalIndex_iff.mp ha.canonical name fa hx
      have hne : fa ≠ [] := fun hnil => ha.nonempty name (hnil ▸ hx)
      cases hy : b.find name with
      | none => exact hne (by simpa [hx, hy, joinEntries] using h)
      | some fb =>
        rw [hx, hy, joinEntries] at h
        exact hne (nil_of_joinFunctions hcan (canonicalIndex_iff.mp hb.canonical name fb hy)
          (Option.some.inj h))
  · rw [hfind] at h
    cases hx : a.find name with
    | some fa => exact ha.stable name fa hx
    | none =>
      cases hy : b.find name with
      | some fb => exact hb.stable name fb hy
      | none => simp [hx, hy, joinEntries] at h

end Import

end StackAnalyzer.Uninit
