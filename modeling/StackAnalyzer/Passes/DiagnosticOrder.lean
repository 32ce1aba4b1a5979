import StackAnalyzer.Globals.ReadBeforeWrite
import StackAnalyzer.Passes.CachedPasses

set_option relaxedAutoImplicit false
set_option autoImplicit false

/-!
# The order of the diagnostics

Five steps of the pipeline iterate over containers with pointers as keys: four over the instruction
cache, one over the tables of the reads that it selected. Nothing sorts what they append, so the
order of the diagnostics is the order of the container. This file says when it does not matter.

## Main definitions

* `StackAnalyzer.Passes.globalReadBeforeWriteDiagnostic` — the diagnostic of the fifth step.
* `StackAnalyzer.Passes.OrderIndependent` — all enumerations give the same sequences.
* `StackAnalyzer.Passes.AtMostOneFinding` — the modules of which this is true.

## Main results

* `StackAnalyzer.Passes.orderIndependent_iff` — the sequences are the same exactly for these
  modules.
-/

namespace StackAnalyzer.Passes

open Maps Enumerations Globals

/-! ## Diagnostics of global reads -/

/-- The diagnostic of `appendGlobalReadBeforeWriteDiagnostics`. -/
def globalReadBeforeWriteDiagnostic {I : Type*} (resolve : I → Bool → ResolvedLocation)
    (issue : GlobalReadBeforeWriteIssue I) : Diagnostic :=
  let firstWriteLoc := (issue.firstWriteInst.map fun inst => resolve inst true).getD
    ⟨false, 0, 0, 0, 0, 0, 0⟩
  let withoutLocalWrite := !firstWriteLoc.hasLocation && decide (issue.kind = .withoutLocalWrite)
  { funcName := issue.funcName
    location := (resolve issue.readInst true).build
    errCode := .globalReadBeforeWrite
    ruleId := "GlobalReadBeforeWrite"
    confidence := some (if withoutLocalWrite then if issue.hasNonLocalWrite then 50 else 55 else 60)
    cweId := "CWE-665"
    message := "\t[ !!Warn ] potential read of global buffer '" ++ issue.globalName ++
      "' before first write in this function\n" ++
      "\t\t ↳ this buffer has static zero initialization; read is defined but may " ++
      "indicate stale/default-state use\n" ++
      if firstWriteLoc.hasLocation then
        "\t\t ↳ first write appears later at line " ++ toString firstWriteLoc.line ++
          ", column " ++ toString firstWriteLoc.column ++ "\n"
      else if withoutLocalWrite then
        "\t\t ↳ no write to this buffer is observed in this function; value may " ++
        "come from static initialization or writes in other functions/TUs\n" ++
        if issue.hasNonLocalWrite then
          "\t\t ↳ at least one write to this buffer is observed in another " ++
          "analyzed function/TU\n"
        else ""
      else "" }

/-! ## Enumerating the cache -/

section Names

variable {V : Type*} {values : ValueTable V} {rules : List BufferWriteRule} {fn : Function V}

theorem funcName_of_dynamicAllocaIssue {AI : AllocaInst V} {issue : DynamicAllocaIssue V}
    (h : dynamicAllocaIssue values fn AI = some issue) : issue.funcName = fn.name := by
  unfold dynamicAllocaIssue at h
  split_ifs at h
  rw [← Option.some.inj h]

theorem funcName_of_commandInjectionIssue {CB : CallBase V} {issue : CommandInjectionIssue V}
    (h : commandInjectionIssue values fn CB = some issue) : issue.funcName = fn.name := by
  unfold commandInjectionIssue at h
  obtain ⟨callee, -, h⟩ := Option.bind_eq_some_iff.mp h
  obtain ⟨commandArg, -, h⟩ := Option.bind_eq_some_iff.mp h
  obtain ⟨commandValue, -, h⟩ := Option.bind_eq_some_iff.mp h
  split_ifs at h
  rw [← Option.some.inj h]

end Names

section Cache

variable {F V : Type*} [DecidableEq F] [DecidableEq V] (mod : Module F V)
  (shouldAnalyze : F → Bool) (rules : List BufferWriteRule)
  (resolve : V → Bool → ResolvedLocation)

/-- What a step finds in a function. -/
def findings (step : CachedStep) (f : F) : List Diagnostic :=
  step.cached mod.values rules resolve (mod.function f) (mod.function f).data

omit [DecidableEq F] in
/-- A diagnostic names the function in which it was found. -/
theorem funcName_of_mem_findings {step : CachedStep} {f : F} {d : Diagnostic}
    (h : d ∈ findings mod rules resolve step f) : d.funcName = (mod.function f).name := by
  cases step with
  | dynamicAllocas =>
    obtain ⟨issue, hissue, rfl⟩ := List.mem_map.mp h
    obtain ⟨AI, -, hAI⟩ := List.mem_filterMap.mp hissue
    exact funcName_of_dynamicAllocaIssue hAI
  | memIntrinsicOverflows =>
    obtain ⟨issue, hissue, rfl⟩ := List.mem_map.mp h
    rcases List.mem_append.mp hissue with hcall | hinvoke
    · obtain ⟨CB, -, hCB⟩ := List.mem_filterMap.mp hcall
      exact (memIntrinsicIssue_place hCB).1
    · obtain ⟨CB, -, hCB⟩ := List.mem_filterMap.mp hinvoke
      exact (memIntrinsicIssue_place hCB).1
  | commandInjection =>
    obtain ⟨issue, hissue, rfl⟩ := List.mem_map.mp h
    rcases List.mem_append.mp hissue with hcall | hinvoke
    · obtain ⟨CB, -, hCB⟩ := List.mem_filterMap.mp hcall
      exact funcName_of_commandInjectionIssue hCB
    · obtain ⟨CB, -, hCB⟩ := List.mem_filterMap.mp hinvoke
      exact funcName_of_commandInjectionIssue hCB
  | toctou =>
    obtain ⟨issue, hissue, rfl⟩ := List.mem_map.mp h
    obtain ⟨useEvent, -, huse⟩ := List.mem_filterMap.mp hissue
    obtain ⟨checkEvent, -, rfl⟩ := Option.map_eq_some_iff.mp huse
    rfl

/-- A step gives the same sequence for all enumerations of the cache. -/
def CacheOrderFree (step : CachedStep) : Prop :=
  ∀ entries entries' : List (F × PerFunctionData V),
    entries.Perm (collectIRFacts mod shouldAnalyze).data.entries →
    entries'.Perm (collectIRFacts mod shouldAnalyze).data.entries →
    runCached mod rules resolve step entries = runCached mod rules resolve step entries'

/-- **Enumerating the cache**: the order does not matter to a step exactly when, of any two
functions, it finds nothing in one of them, or both have the same name and commuting findings. -/
theorem cacheOrderFree_iff (step : CachedStep) :
    CacheOrderFree mod shouldAnalyze rules resolve step ↔
      (mod.selected shouldAnalyze).Pairwise fun f f' =>
        findings mod rules resolve step f = [] ∨ findings mod rules resolve step f' = [] ∨
          (mod.function f).name = (mod.function f').name ∧
            Swappable (findings mod rules resolve step f) (findings mod rules resolve step f') := by
  have hfree := orderFree_iff (fun entry : F × PerFunctionData V =>
    if (mod.function entry.1).isDeclaration then []
    else step.cached mod.values rules resolve (mod.function entry.1) entry.2)
    (collectIRFacts mod shouldAnalyze).data.entries
  refine Iff.trans hfree ?_
  rw [entries_collectIRFacts, List.pairwise_map]
  -- an analysed function is no declaration, so its block is what the step finds in it
  have hblock : ∀ f ∈ mod.selected shouldAnalyze,
      (if (mod.function f).isDeclaration then []
        else step.cached mod.values rules resolve (mod.function f) (mod.function f).data) =
      findings mod rules resolve step f := by
    intro f hf
    have hdef : (mod.function f).isDeclaration = false := by
      have hkept := (List.mem_filter.mp hf).2
      rw [Bool.and_eq_true, Bool.not_eq_true'] at hkept
      exact hkept.1
    rw [if_neg (by simp [hdef]), findings]
  have hnames : ∀ f f' : F,
      (Swappable (findings mod rules resolve step f) (findings mod rules resolve step f') ↔
        findings mod rules resolve step f = [] ∨ findings mod rules resolve step f' = [] ∨
          (mod.function f).name = (mod.function f').name ∧
            Swappable (findings mod rules resolve step f)
              (findings mod rules resolve step f')) := by
    intro f f'
    by_cases hname : (mod.function f).name = (mod.function f').name
    · refine ⟨fun h => Or.inr (Or.inr ⟨hname, h⟩), ?_⟩
      rintro (h | h | h)
      · simp [Swappable, h]
      · simp [Swappable, h]
      · exact h.2
    · rw [swappable_iff_of_owners (fun d hd => funcName_of_mem_findings mod rules resolve hd)
        (fun d hd => funcName_of_mem_findings mod rules resolve hd) hname]
      simp [hname]
  refine List.Pairwise.iff_of_mem fun {f f'} hf hf' => ?_
  rw [hblock f hf, hblock f' hf']
  exact hnames f f'

end Cache

/-! ## Enumerating the selected reads -/

section Reads

variable {F G V B I : Type*} [DecidableEq G] [DecidableEq I] (mod : Globals.Module F G V B I)
  (externalSummaries : Option SummaryIndex) (dominates : F → I → I → Bool)
  (resolve : I → Bool → ResolvedLocation)

/-- What the step for global reads appends. -/
def runGlobalReadBeforeWrites (enumerate : F → List (G × SelectedRead I)) : List Diagnostic :=
  (analyzeGlobalReadBeforeWrites mod externalSummaries enumerate).map
    (globalReadBeforeWriteDiagnostic resolve)

/-- The diagnostic of a selected read. -/
def readDiagnostic (f : F) (entry : G × SelectedRead I) : Diagnostic :=
  globalReadBeforeWriteDiagnostic resolve (toIssue mod (mod.function f)
    (recordFunction mod externalSummaries (mod.function f)) entry)

/-- The step for global reads gives the same sequence for all enumerations of its tables. -/
def ReadOrderFree : Prop :=
  ∀ enumerate enumerate', IsEnumeration mod externalSummaries dominates enumerate →
    IsEnumeration mod externalSummaries dominates enumerate' →
    runGlobalReadBeforeWrites mod externalSummaries resolve enumerate =
      runGlobalReadBeforeWrites mod externalSummaries resolve enumerate'

omit [DecidableEq I] in
theorem runGlobalReadBeforeWrites_eq (enumerate : F → List (G × SelectedRead I)) :
    runGlobalReadBeforeWrites mod externalSummaries resolve enumerate =
      mod.selected.flatMap fun f =>
        (enumerate f).map (readDiagnostic mod externalSummaries resolve f) := by
  unfold runGlobalReadBeforeWrites analyzeGlobalReadBeforeWrites
  rw [List.map_flatMap]
  refine List.flatMap_congr fun f _ => ?_
  rw [List.map_map]
  rfl

/-- Two enumerations that differ in one function only, with the same sequence of diagnostics, have
the same diagnostics in this function. -/
theorem map_eq_of_flatMap_update_eq {α β ι : Type*} [DecidableEq ι] {l : List ι} {i : ι}
    (hi : i ∈ l) (block : ι → α → β) (base : ι → List α) {es es' : List α}
    (hlength : es.length = es'.length)
    (h : (l.flatMap fun j => (Function.update base i es j).map (block j)) =
      l.flatMap fun j => (Function.update base i es' j).map (block j)) :
    es.map (block i) = es'.map (block i) := by
  obtain ⟨pre, post, rfl, hnot⟩ := List.eq_append_cons_of_mem hi
  have hpre : ∀ es : List α, (pre.flatMap fun j => (Function.update base i es j).map (block j)) =
      pre.flatMap fun j => (base j).map (block j) := by
    intro es
    refine List.flatMap_congr fun j hj => ?_
    have hne : j ≠ i := fun hji => hnot (hji ▸ hj)
    rw [Function.update_of_ne hne]
  rw [List.flatMap_append, List.flatMap_append, hpre, hpre, List.append_cancel_left_eq,
    List.flatMap_cons, List.flatMap_cons, Function.update_self, Function.update_self] at h
  exact (List.append_inj h (by rw [List.length_map, List.length_map, hlength])).1

/-- **Enumerating the selected reads**: the order does not matter exactly when no function has two
selected reads with different diagnostics. -/
theorem readOrderFree_iff :
    ReadOrderFree mod externalSummaries dominates resolve ↔
      ∀ f ∈ mod.selected,
        (mod.selectedReads (dominates f) externalSummaries f).entries.Pairwise fun x y =>
          readDiagnostic mod externalSummaries resolve f x =
            readDiagnostic mod externalSummaries resolve f y := by
  classical
  have hsingle : ∀ f : F,
      ((mod.selectedReads (dominates f) externalSummaries f).entries.Pairwise fun x y =>
        readDiagnostic mod externalSummaries resolve f x =
          readDiagnostic mod externalSummaries resolve f y) ↔
      OrderFree (fun entry => [readDiagnostic mod externalSummaries resolve f entry])
        (mod.selectedReads (dominates f) externalSummaries f).entries := by
    intro f
    rw [orderFree_iff]
    refine List.Pairwise.iff fun x y => ?_
    exact ⟨fun h => by rw [h]; rfl, fun h => (List.cons.inj h).1⟩
  simp only [hsingle]
  constructor
  · intro h f hf es es' hes hes'
    have hbase : IsEnumeration mod externalSummaries dominates fun f =>
        (mod.selectedReads (dominates f) externalSummaries f).entries :=
      fun _ _ => List.Perm.refl _
    have hupdate : ∀ es : List (G × SelectedRead I),
        es.Perm (mod.selectedReads (dominates f) externalSummaries f).entries →
        IsEnumeration mod externalSummaries dominates (Function.update (fun f =>
          (mod.selectedReads (dominates f) externalSummaries f).entries) f es) := by
      intro es hes f' hf'
      by_cases hff : f' = f
      · subst hff
        rwa [Function.update_self]
      · rw [Function.update_of_ne hff]
    have hrun := h _ _ (hupdate es hes) (hupdate es' hes')
    rw [runGlobalReadBeforeWrites_eq, runGlobalReadBeforeWrites_eq] at hrun
    have hmap := map_eq_of_flatMap_update_eq hf (readDiagnostic mod externalSummaries resolve) _
      (hes.trans hes'.symm).length_eq hrun
    rwa [List.map_eq_flatMap, List.map_eq_flatMap] at hmap
  · intro h enumerate enumerate' henum henum'
    rw [runGlobalReadBeforeWrites_eq, runGlobalReadBeforeWrites_eq]
    refine List.flatMap_congr fun f hf => ?_
    have hf' := h f hf (enumerate f) (enumerate' f) (henum f hf) (henum' f hf)
    rwa [← List.map_eq_flatMap, ← List.map_eq_flatMap] at hf'

end Reads

/-! ## All five steps -/

section Steps

variable {F V G B I : Type*} [DecidableEq F] [DecidableEq V] [DecidableEq G] [DecidableEq I]
  (mod : Module F V) (shouldAnalyze : F → Bool) (rules : List BufferWriteRule)
  (resolve : V → Bool → ResolvedLocation) (reads : Globals.Module F G V B I)
  (externalSummaries : Option SummaryIndex) (dominates : F → I → I → Bool)
  (resolveRead : I → Bool → ResolvedLocation)

/-- The sequences of diagnostics of the five steps are the same for all enumerations of the
containers with pointers as keys. A module is given by what the cached passes read of it and by what
the pass for global reads does. -/
def OrderIndependent : Prop :=
  (∀ step, CacheOrderFree mod shouldAnalyze rules resolve step) ∧
    ReadOrderFree reads externalSummaries dominates resolveRead

/-- The modules with at most one finding in each container: of any two analysed functions, each
cached step finds nothing in one of them, and any two selected reads of a function have the same
diagnostic. Functions without a name may both have findings, if these can be swapped. -/
structure AtMostOneFinding : Prop where
  cached : ∀ step, (mod.selected shouldAnalyze).Pairwise fun f f' =>
    findings mod rules resolve step f = [] ∨ findings mod rules resolve step f' = [] ∨
      (mod.function f).name = (mod.function f').name ∧
        Swappable (findings mod rules resolve step f) (findings mod rules resolve step f')
  reads : ∀ f ∈ reads.selected,
    (reads.selectedReads (dominates f) externalSummaries f).entries.Pairwise fun x y =>
      readDiagnostic reads externalSummaries resolveRead f x =
        readDiagnostic reads externalSummaries resolveRead f y

/-- **When the order of the diagnostics does not depend on addresses**: exactly when each container
has at most one finding.

**Proof sketch.** Concatenations are the same in all orders exactly when any two blocks can be
swapped. The diagnostics of a function carry its name, so those of two functions can be swapped only
if one of them has none. The functions of the pass for global reads are visited in order, so the
tables of one function can be varied alone, and every selected read has one diagnostic. -/
theorem orderIndependent_iff :
    OrderIndependent mod shouldAnalyze rules resolve reads externalSummaries dominates
        resolveRead ↔
      AtMostOneFinding mod shouldAnalyze rules resolve reads externalSummaries dominates
        resolveRead := by
  constructor
  · rintro ⟨hcache, hreads⟩
    exact ⟨fun step => (cacheOrderFree_iff mod shouldAnalyze rules resolve step).mp (hcache step),
      (readOrderFree_iff reads externalSummaries dominates resolveRead).mp hreads⟩
  · rintro ⟨hcache, hreads⟩
    exact ⟨fun step => (cacheOrderFree_iff mod shouldAnalyze rules resolve step).mpr (hcache step),
      (readOrderFree_iff reads externalSummaries dominates resolveRead).mpr hreads⟩

end Steps

/-! ## Two functions with a finding -/

/-- A module with two functions `f` and `g`, each with an array of variable length. -/
def twoDynamicAllocas : Module Bool ℕ where
  functions := [false, true]
  nodup := by decide
  function f :=
    { name := if f then "g" else "f"
      filePath := "f.c"
      isDeclaration := false
      instructions := [.alloca ⟨1, "a", "a", "int", 4, 0, true, false, false⟩]
      tryGetConstFromValue := fun _ => false }
  values := ⟨fun _ => .other, id, id, fun _ => []⟩
  distinct := by decide

/-- The two functions, as the pass for global reads sees them: they access no global. -/
def noGlobalReads : Globals.Module Bool Unit ℕ Unit ℕ where
  functions := [false, true]
  function f :=
    { name := if f then "g" else "f"
      isDeclaration := false
      blocks := [()]
      cfg := ⟨(), fun _ => [], fun _ => [0], fun _ => none⟩
      opcode := fun _ => .other
      nodup := List.nodup_singleton 0 }
  shouldAnalyze _ := true
  globals := []
  global _ := ⟨"unused", false, true, false, false, false, false⟩
  underlyingGlobal _ := none
  name_injective _ _ _ _ := rfl

/-- **The order can depend on addresses**: with the entry of `g` before the one of `f`, the
diagnostics are swapped. -/
theorem not_orderIndependent_twoDynamicAllocas :
    ¬ OrderIndependent twoDynamicAllocas (fun _ => true) [] noLocation noGlobalReads none
        (fun _ _ _ => false) noLocation := by
  intro h
  have hrun := h.1 .dynamicAllocas _ _ (List.Perm.refl _) (List.reverse_perm _)
  have hnames := congrArg (List.map Diagnostic.funcName) hrun
  exact absurd hnames (by decide)

end StackAnalyzer.Passes
