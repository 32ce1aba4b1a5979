import StackAnalyzer.Bounds.SmtRemoval

set_option relaxedAutoImplicit false
set_option autoImplicit false

/-!
# The profiles of the pass over buffers

What the profile `fast` reports, and which of it the profile `full` reports as well. Under `full` no
function and no `getelementptr` is skipped, but the values stored to pointer variables are looked
for, and they may show that a pointer has more than one origin; then nothing is reported for it.

## Main definitions

* `StackAnalyzer.Bounds.OutOfRange` — the index of a `getelementptr` may leave a buffer.
* `StackAnalyzer.Bounds.FastWithinFull` — what is reported under `fast` is reported under `full`.
* `StackAnalyzer.Bounds.OriginKept` — the stored values do not change the buffer of a pointer.

## Main results

* `StackAnalyzer.Bounds.outOfRange_of_mem_issues`, `StackAnalyzer.Bounds.exists_issue_of_outOfRange`
  — the issues for a buffer.
* `StackAnalyzer.Bounds.fast_issue_in_full_iff` — which issues of `fast` are issues of `full`.
-/

namespace StackAnalyzer.Bounds

open CrossTU Maps Llvm Smt Consulting

variable {F V B : Type*} [DecidableEq V] [DecidableEq B]

/-! ## Candidates -/

section Candidates

variable [Fintype V] (mod : Module F V B)

/-- The index of a `getelementptr` into a buffer may be too large or negative. -/
def OutOfRange (f : F) (site : GepSite V B) (base : BufferBase V) : Prop :=
  ∃ arraySize idxVal, accessTarget mod f base site = some (arraySize, idxVal) ∧
    match mod.value idxVal with
    | .constantInt _ c => c.toInt < 0 ∨ arraySize ≤ toUnsigned64 c.toInt
    | _ => ∃ range, indexRange mod f (computeIntRangesFromICmps mod f) site.block
          (mod.stripCasts idxVal) = some range ∧
        ((exceedingBound range arraySize).isSome = true ∨
          (range.hasLower && decide (range.lower < 0)) = true)

/-- An issue for an access through a `getelementptr` into a buffer. -/
def IssueAt (f : F) (site : GepSite V B) (base : BufferBase V) (inst : V)
    (issue : StackBufferOverflowIssue V) : Prop :=
  issue.funcName = mod.functionName f ∧ issue.base = base ∧ issue.gep = site.inst ∧
    issue.inst = inst

variable {mod} {evaluator : SmtConstraintEvaluator} {f : F} {site : GepSite V B}
  {base : BufferBase V} {path : List CppString}

omit [DecidableEq V] [Fintype V] in
/-- Only the candidate itself is reported. -/
theorem eq_of_mem_reportUnless {I : Type*} {check : Solving V Bool} {issue : I}
    {trace : List (SmtQuery V × SmtStatus)} {issues : List I}
    (hrun : (reportUnless check issue).Runs trace issues) {found : I} (hfound : found ∈ issues) :
    found = issue := by
  obtain ⟨refuted, -, rfl⟩ := Consult.runs_map_iff.mp hrun
  cases refuted with
  | true => exact absurd hfound List.not_mem_nil
  | false => exact List.mem_singleton.mp hfound

omit [DecidableEq V] [Fintype V] in
/-- Without the rule the candidate is reported. -/
theorem mem_reportUnless {I : Type*} {check : Solving V Bool} {issue : I}
    (hcheck : OnRefutation evaluator check) (hdisabled : evaluator.orchestrator = false)
    {trace : List (SmtQuery V × SmtStatus)} {issues : List I}
    (hrun : (reportUnless check issue).Runs trace issues) : issue ∈ issues := by
  obtain ⟨refuted, hrefuted, rfl⟩ := Consult.runs_map_iff.mp hrun
  have hfalse : refuted = false := hcheck _ _ hrefuted fun henabled =>
    absurd henabled (by rw [hdisabled]; exact Bool.false_ne_true)
  rw [hfalse]
  exact List.mem_singleton_self issue

/-- **What is reported for an index in a range** concerns an access, and one of the bounds is out of
range. -/
theorem outOfRange_of_mem_variableIndexIssues {report : Bool → V × Bool → StackBufferOverflowIssue V}
    {arraySize : ℕ} {baseIdxVal : V} {range : IntRange}
    (hreport : ∀ isConstant access, IssueAt mod f site base access.1 (report isConstant access))
    {trace : List (SmtQuery V × SmtStatus)} {issues : List (StackBufferOverflowIssue V)}
    (hrun : (variableIndexIssues mod evaluator report site arraySize baseIdxVal range).Runs trace
      issues) {issue : StackBufferOverflowIssue V} (hissue : issue ∈ issues) :
    ((exceedingBound range arraySize).isSome = true ∨
        (range.hasLower && decide (range.lower < 0)) = true) ∧
      ∃ access ∈ accesses mod site.inst, IssueAt mod f site base access.1 issue := by
  obtain ⟨upper, before, after, hupper, hrest, rfl⟩ := Consult.runs_bind_iff.mp hrun
  obtain ⟨lower, hlower, rfl⟩ := Consult.runs_map_iff.mp hrest
  rcases List.mem_append.mp hissue with hmem | hmem
  · cases hbound : exceedingBound range arraySize with
    | none =>
      rw [hbound] at hupper
      obtain ⟨-, rfl⟩ := Consult.runs_answer_iff.mp hupper
      exact absurd hmem List.not_mem_nil
    | some ub =>
      rw [hbound] at hupper
      obtain ⟨access, haccess, _, _, hfound, hmem'⟩ := Consult.exists_of_runs_collect hupper hmem
      have heq := eq_of_mem_reportUnless hfound hmem'
      refine ⟨Or.inl rfl, access, haccess, ?_⟩
      rw [heq]
      exact hreport false access
  · by_cases hneg : (range.hasLower && decide (range.lower < 0)) = true
    · rw [if_pos hneg] at hlower
      obtain ⟨access, haccess, _, _, hfound, hmem'⟩ := Consult.exists_of_runs_collect hlower hmem
      have heq := eq_of_mem_reportUnless hfound hmem'
      refine ⟨Or.inr hneg, access, haccess, ?_⟩
      rw [heq]
      exact hreport false access
    · rw [if_neg hneg] at hlower
      obtain ⟨-, rfl⟩ := Consult.runs_answer_iff.mp hlower
      exact absurd hmem List.not_mem_nil

/-- **Without SMT** all accesses are reported if one of the bounds is out of range. -/
theorem exists_issue_variableIndexIssues {report : Bool → V × Bool → StackBufferOverflowIssue V}
    {arraySize : ℕ} {baseIdxVal : V} {range : IntRange}
    (hreport : ∀ isConstant access, IssueAt mod f site base access.1 (report isConstant access))
    (hdisabled : evaluator.orchestrator = false)
    {trace : List (SmtQuery V × SmtStatus)} {issues : List (StackBufferOverflowIssue V)}
    (hrun : (variableIndexIssues mod evaluator report site arraySize baseIdxVal range).Runs trace
      issues)
    (hout : (exceedingBound range arraySize).isSome = true ∨
      (range.hasLower && decide (range.lower < 0)) = true)
    {access : V × Bool} (haccess : access ∈ accesses mod site.inst) :
    ∃ issue ∈ issues, IssueAt mod f site base access.1 issue := by
  obtain ⟨upper, before, after, hupper, hrest, rfl⟩ := Consult.runs_bind_iff.mp hrun
  obtain ⟨lower, hlower, rfl⟩ := Consult.runs_map_iff.mp hrest
  rcases hout with hbound | hneg
  · obtain ⟨ub, hub⟩ := Option.isSome_iff_exists.mp hbound
    rw [hub] at hupper
    obtain ⟨_, _, hfound, hsub⟩ := Consult.exists_runs_of_collect hupper haccess
    have hmem := mem_reportUnless
      (onRefutation_upper mod evaluator range baseIdxVal arraySize access.1) hdisabled hfound
    exact ⟨_, List.mem_append_left lower (hsub hmem), hreport false access⟩
  · rw [if_pos hneg] at hlower
    obtain ⟨_, _, hfound, hsub⟩ := Consult.exists_runs_of_collect hlower haccess
    have hmem := mem_reportUnless
      (onRefutation_lower mod evaluator range baseIdxVal access.1) hdisabled hfound
    exact ⟨_, List.mem_append_right upper (hsub hmem), hreport false access⟩

omit [DecidableEq V] [DecidableEq B] [Fintype V] in
/-- The fields of an issue that identify it. -/
theorem issueAt_baseReport (path : List CppString) (arraySize : ℕ) (isConstant : Bool) (access : V × Bool) :
    IssueAt mod f site base access.1
      (baseReport mod f base path site arraySize isConstant access) :=
  ⟨rfl, rfl, rfl, rfl⟩

variable {trace : List (SmtQuery V × SmtStatus)} {issues : List (StackBufferOverflowIssue V)}

/-- **What is reported for a buffer** concerns an access, and its index is out of range. -/
theorem outOfRange_of_mem_issues
    (hrun : (bufferIssues mod evaluator f (computeIntRangesFromICmps mod f) site base path).Runs
      trace issues) {issue : StackBufferOverflowIssue V} (hissue : issue ∈ issues) :
    OutOfRange mod f site base ∧
      ∃ access ∈ accesses mod site.inst, IssueAt mod f site base access.1 issue := by
  unfold bufferIssues at hrun
  cases htarget : accessTarget mod f base site with
  | none =>
    rw [htarget] at hrun
    obtain ⟨-, rfl⟩ := Consult.runs_answer_iff.mp hrun
    exact absurd hissue List.not_mem_nil
  | some target =>
    obtain ⟨arraySize, idxVal⟩ := target
    rw [htarget] at hrun
    dsimp only at hrun
    split at hrun
    · next width c hvalue =>
      obtain ⟨-, rfl⟩ := Consult.runs_answer_iff.mp hrun
      unfold constantIndexIssues at hissue
      split_ifs at hissue with hout
      · obtain ⟨access, haccess, rfl⟩ := List.mem_map.mp hissue
        refine ⟨⟨arraySize, idxVal, htarget, ?_⟩, access, haccess, issueAt_baseReport path arraySize true access⟩
        rw [hvalue]
        exact hout
      · exact absurd hissue List.not_mem_nil
    · next hvalue =>
      cases hrange : indexRange mod f (computeIntRangesFromICmps mod f) site.block
          (mod.stripCasts idxVal) with
      | none =>
        rw [hrange] at hrun
        obtain ⟨-, rfl⟩ := Consult.runs_answer_iff.mp hrun
        exact absurd hissue List.not_mem_nil
      | some range =>
        rw [hrange] at hrun
        obtain ⟨hout, haccess⟩ :=
          outOfRange_of_mem_variableIndexIssues (issueAt_baseReport path arraySize) hrun hissue
        refine ⟨⟨arraySize, idxVal, htarget, ?_⟩, haccess⟩
        split
        · next width c hconst => exact absurd hconst (hvalue width c)
        · exact ⟨range, hrange, hout⟩

/-- **Without SMT** all accesses with an index out of range are reported. -/
theorem exists_issue_of_outOfRange (hdisabled : evaluator.orchestrator = false)
    (hrun : (bufferIssues mod evaluator f (computeIntRangesFromICmps mod f) site base path).Runs
      trace issues) (hout : OutOfRange mod f site base) {access : V × Bool}
    (haccess : access ∈ accesses mod site.inst) :
    ∃ issue ∈ issues, IssueAt mod f site base access.1 issue := by
  obtain ⟨arraySize, idxVal, htarget, hout⟩ := hout
  unfold bufferIssues at hrun
  rw [htarget] at hrun
  dsimp only at hrun
  split at hout
  · next width c hvalue =>
    rw [hvalue] at hrun
    obtain ⟨-, rfl⟩ := Consult.runs_answer_iff.mp hrun
    unfold constantIndexIssues
    rw [if_pos hout]
    exact ⟨_, List.mem_map_of_mem haccess, issueAt_baseReport path arraySize true access⟩
  · next hvalue =>
    obtain ⟨range, hrange, hout⟩ := hout
    split at hrun
    · next width c hconst => exact absurd hconst (hvalue width c)
    · rw [hrange] at hrun
      exact exists_issue_variableIndexIssues (issueAt_baseReport path arraySize) hdisabled hrun hout
        haccess

end Candidates

/-! ## The profiles -/

section Profiles

variable [Fintype V] (mod : Module F V B) (shouldAnalyze : F → Bool)

/-- Two issues about the same access to the same buffer. -/
def SameAccess (issue issue' : StackBufferOverflowIssue V) : Prop :=
  issue'.funcName = issue.funcName ∧ issue'.base = issue.base ∧ issue'.gep = issue.gep ∧
    issue'.inst = issue.inst

/-- The profile `fast` reports nothing that the profile `full` does not report without SMT. -/
def FastWithinFull : Prop :=
  ∀ fast full : AnalysisConfig, fast.profile = .fast → full.profile = .full →
    full.smtEnabled = false →
    ∀ trace issues, (analyzeStackBufferOverflows mod shouldAnalyze fast).Runs trace issues →
    ∀ trace' issues', (analyzeStackBufferOverflows mod shouldAnalyze full).Runs trace' issues' →
      ∀ issue ∈ issues, ∃ issue' ∈ issues', SameAccess issue issue'

/-- The pointer of a `getelementptr` is in the same buffer if stored values are looked for. -/
def OriginKept (gep : V) (base : BufferBase V) : Prop :=
  ∃ f ∈ analyzedFunctions mod shouldAnalyze, gep ∈ mod.functionInstructions f ∧
    ∃ sourceElementType pointer indices path,
      mod.value gep = .getElementPtr sourceElementType pointer indices ∧
        resolveArrayBufferBase mod f true pointer = some (base, path)

/-- The pointer of a `getelementptr` is followed to its origin without a phi. -/
def StraightOrigin (gep : V) : Prop :=
  ∃ sourceElementType pointer indices cur path,
    mod.value gep = .getElementPtr sourceElementType pointer indices ∧
      walk mod (Fintype.card V + 1) pointer [] [] = some (cur, path) ∧
      ∀ incoming, mod.value cur ≠ .phi incoming

variable {mod} {shouldAnalyze}

omit [DecidableEq V] [DecidableEq B] [Fintype V] in
/-- A `getelementptr` of a function is one of its instructions. -/
theorem mem_gepSites {f : F} {site : GepSite V B} (hsite : site ∈ gepSites mod f) :
    site.inst ∈ mod.functionInstructions f ∧
      mod.value site.inst =
        .getElementPtr site.sourceElementType site.pointer site.indices := by
  obtain ⟨block, hblock, hfound⟩ := List.mem_flatMap.mp hsite
  obtain ⟨inst, hinst, hvalue⟩ := List.mem_filterMap.mp hfound
  split at hvalue
  · next sourceElementType pointer indices hgep =>
    obtain rfl := Option.some.inj hvalue
    exact ⟨List.mem_flatMap.mpr ⟨block, hblock, hinst⟩, hgep⟩
  · exact absurd hvalue (by simp)

omit [DecidableEq V] [DecidableEq B] [Fintype V] in
/-- The profile `fast` does not look for stored values in a function with a `getelementptr`. -/
theorem withinBudget_zero_of_mem_gepSites {f : F} {site : GepSite V B}
    (hsite : site ∈ gepSites mod f) :
    withinBudget (mod.functionInstructions f).length (some 0) = false := by
  have hpos := List.length_pos_of_mem (mem_gepSites hsite).1
  show decide ((mod.functionInstructions f).length ≤ 0) = false
  exact decide_eq_false (by omega)

omit [DecidableEq V] [DecidableEq B] [Fintype V] in
/-- A budget allows nothing that is not there. -/
theorem mem_of_mem_takeBudget {A : Type*} {budget : Option ℕ} {as : List A} {a : A}
    (ha : a ∈ takeBudget budget as) : a ∈ as := by
  cases budget with
  | none => exact ha
  | some limit => exact List.mem_of_mem_take ha

variable {config : AnalysisConfig} {trace : List (SmtQuery V × SmtStatus)}
  {issues : List (StackBufferOverflowIssue V)}

/-- **Whatever the profile**, an issue concerns an access to the buffer that is found for the
pointer, with an index out of range. -/
theorem exists_site_of_mem_issues
    (hrun : (analyzeStackBufferOverflows mod shouldAnalyze config).Runs trace issues)
    {issue : StackBufferOverflowIssue V} (hissue : issue ∈ issues) :
    ∃ f ∈ analyzedFunctions mod shouldAnalyze, ∃ site ∈ gepSites mod f, ∃ base path,
      resolveArrayBufferBase mod f
          (withinBudget (mod.functionInstructions f).length
            (buildAnalysisComplexityBudgets config).pointerStoreScanInstrThreshold)
          site.pointer = some (base, path) ∧
        OutOfRange mod f site base ∧
        ∃ access ∈ accesses mod site.inst, IssueAt mod f site base access.1 issue := by
  obtain ⟨f, hf, _, found, hfunction, hmem⟩ := Consult.exists_of_runs_collect hrun hissue
  unfold analyzeStackBufferOverflowsInFunction at hfunction
  dsimp only at hfunction
  split_ifs at hfunction
  · obtain ⟨site, hsite, _, reported, hgep, hreported⟩ :=
      Consult.exists_of_runs_collect hfunction hmem
    unfold gepIssues at hgep
    split at hgep
    · obtain ⟨-, rfl⟩ := Consult.runs_answer_iff.mp hgep
      exact absurd hreported List.not_mem_nil
    · next base path hbase =>
      obtain ⟨hout, haccess⟩ := outOfRange_of_mem_issues hgep hreported
      exact ⟨f, hf, site, mem_of_mem_takeBudget hsite, base, path, hbase, hout, haccess⟩
  · obtain ⟨-, rfl⟩ := Consult.runs_answer_iff.mp hfunction
    exact absurd hmem List.not_mem_nil

/-- **The profile `full`** reports all accesses with an index out of range without SMT. -/
theorem exists_issue_of_full (hfull : config.profile = .full) (hsmt : config.smtEnabled = false)
    (hrun : (analyzeStackBufferOverflows mod shouldAnalyze config).Runs trace issues)
    {f : F} (hf : f ∈ analyzedFunctions mod shouldAnalyze) {site : GepSite V B}
    (hsite : site ∈ gepSites mod f) {base : BufferBase V} {path : List CppString}
    (hbase : resolveArrayBufferBase mod f true site.pointer = some (base, path))
    (hout : OutOfRange mod f site base) {access : V × Bool}
    (haccess : access ∈ accesses mod site.inst) :
    ∃ issue ∈ issues, IssueAt mod f site base access.1 issue := by
  have hbudgets : buildAnalysisComplexityBudgets config = ⟨none, none, none⟩ := by
    unfold buildAnalysisComplexityBudgets
    rw [if_pos hfull]
  have hdisabled : (SmtConstraintEvaluator.make config "stack-buffer").orchestrator = false := by
    show smtRuleEnabled config "stack-buffer" = false
    unfold smtRuleEnabled
    rw [hsmt, Bool.false_and]
  unfold analyzeStackBufferOverflows at hrun
  rw [hbudgets] at hrun
  obtain ⟨_, found, hfunction, hfound⟩ := Consult.exists_runs_of_collect hrun hf
  obtain ⟨_, reported, hgep, hreported⟩ := Consult.exists_runs_of_collect hfunction hsite
  unfold gepIssues at hgep
  rw [show withinBudget (mod.functionInstructions f).length none = true from rfl, hbase] at hgep
  obtain ⟨issue, hissue, hat⟩ := exists_issue_of_outOfRange hdisabled hgep hout haccess
  exact ⟨issue, hfound (hreported hissue), hat⟩

omit [DecidableEq B] in
/-- A slot that is found without looking for stored values and without a phi is found anyway. -/
theorem resolveArrayBufferBase_scan {f : F} {pointer slot : V} {path : List CppString}
    (hbase : resolveArrayBufferBase mod f false pointer = some (.stack slot, path)) {cur : V}
    {path' : List CppString}
    (hwalk : walk mod (Fintype.card V + 1) pointer [] [] = some (cur, path'))
    (hphi : ∀ incoming, mod.value cur ≠ .phi incoming) :
    resolveArrayBufferBase mod f true pointer = some (.stack slot, path) := by
  unfold resolveArrayBufferBase at hbase ⊢
  cases hfound : resolveArrayAllocaFromPointer mod f false pointer with
  | none =>
    rw [hfound] at hbase
    obtain ⟨globalVar, -, heq⟩ := Option.map_eq_some_iff.mp hbase
    exact absurd (congrArg Prod.fst heq) (by simp)
  | some found =>
    rw [hfound] at hbase
    rw [resolve_scan_of_walk mod hwalk hphi hfound]
    exact hbase

section Comparison

variable {fast full : AnalysisConfig} {fastTrace fullTrace : List (SmtQuery V × SmtStatus)}
  {fastIssues fullIssues : List (StackBufferOverflowIssue V)}

/-- **Issues of a profile** are issues of the profile `full` if the origin is kept. -/
theorem exists_full_issue (hfull : full.profile = .full) (hsmt : full.smtEnabled = false)
    (hrun : (analyzeStackBufferOverflows mod shouldAnalyze fast).Runs fastTrace fastIssues)
    (hrun' : (analyzeStackBufferOverflows mod shouldAnalyze full).Runs fullTrace fullIssues)
    {issue : StackBufferOverflowIssue V} (hissue : issue ∈ fastIssues)
    (hkept : OriginKept mod shouldAnalyze issue.gep issue.base) :
    ∃ issue' ∈ fullIssues, SameAccess issue issue' := by
  obtain ⟨f, hf, site, hsite, base, path, -, hout, access, haccess, hname, hbase, hgep, hinst⟩ :=
    exists_site_of_mem_issues hrun hissue
  obtain ⟨f', hf', hmem, sourceElementType, pointer, indices, path', hvalue, hkept⟩ := hkept
  obtain ⟨hmemSite, hvalueSite⟩ := mem_gepSites hsite
  rw [hgep] at hmem hvalue
  have hf_eq : f' = f :=
    mod.function_unique (List.mem_of_mem_filter hf') (List.mem_of_mem_filter hf) hmem hmemSite
  rw [hvalueSite] at hvalue
  injection hvalue with _ hpointer _
  rw [hf_eq, ← hpointer, hbase] at hkept
  obtain ⟨issue', hissue', hname', hbase', hgep', hinst'⟩ :=
    exists_issue_of_full hfull hsmt hrun' hf hsite hkept hout haccess
  exact ⟨issue', hissue', hname'.trans hname.symm, hbase'.trans hbase.symm,
    hgep'.trans hgep.symm, hinst'.trans hinst.symm⟩

/-- **Which issues of the profile `fast` are issues of the profile `full`** without SMT: those for
which the values stored to pointer variables lead to the same buffer, and among them all issues for
a buffer in the stack frame that the pointer is followed to without a phi.

**Proof sketch.** Whether an index is out of range does not depend on the profile, nor do the
accesses. Without SMT all candidates of `full` are reported, and an instruction stands in one
function only. -/
theorem fast_issue_in_full_iff (hfast : fast.profile = .fast) (hfull : full.profile = .full)
    (hsmt : full.smtEnabled = false)
    (hrun : (analyzeStackBufferOverflows mod shouldAnalyze fast).Runs fastTrace fastIssues)
    (hrun' : (analyzeStackBufferOverflows mod shouldAnalyze full).Runs fullTrace fullIssues) :
    ∀ issue ∈ fastIssues,
      ((∃ issue' ∈ fullIssues, SameAccess issue issue') ↔
        OriginKept mod shouldAnalyze issue.gep issue.base) ∧
      ((∃ slot, issue.base = .stack slot) → StraightOrigin mod issue.gep →
        ∃ issue' ∈ fullIssues, SameAccess issue issue') := by
  intro issue hissue
  refine ⟨⟨?_, exists_full_issue hfull hsmt hrun hrun' hissue⟩, ?_⟩
  · rintro ⟨issue', hissue', -, hbase, hgep, -⟩
    obtain ⟨f, hf, site, hsite, base, path, hresolve, -, -, -, -, hbase', hgep', -⟩ :=
      exists_site_of_mem_issues hrun' hissue'
    rw [show buildAnalysisComplexityBudgets full = ⟨none, none, none⟩ from if_pos hfull] at hresolve
    obtain ⟨hmem, hvalue⟩ := mem_gepSites hsite
    rw [← hbase, ← hgep, hbase', hgep']
    exact ⟨f, hf, hmem, _, _, _, path, hvalue, hresolve⟩
  · rintro ⟨slot, hslot⟩ ⟨sourceElementType, pointer, indices, cur, path', hvalue, hwalk, hphi⟩
    apply exists_full_issue hfull hsmt hrun hrun' hissue
    obtain ⟨f, hf, site, hsite, base, path, hresolve, -, -, -, -, hbase, hgep, -⟩ :=
      exists_site_of_mem_issues hrun hissue
    obtain ⟨hmem, hvalueSite⟩ := mem_gepSites hsite
    rw [hgep, hvalueSite] at hvalue
    injection hvalue with _ hpointer _
    rw [← hpointer] at hwalk
    rw [show buildAnalysisComplexityBudgets fast = {} from
      if_neg (by rw [hfast]; decide), withinBudget_zero_of_mem_gepSites hsite,
      ← hbase, hslot] at hresolve
    rw [hgep, hslot]
    exact ⟨f, hf, hmem, _, _, _, path, hvalueSite, resolveArrayBufferBase_scan hresolve hwalk hphi⟩

end Comparison

end Profiles

/-! ## A pointer with two origins -/

section TwoOrigins

/-- The example has four blocks. -/
theorem neZero_four : NeZero 4 := ⟨four_ne_zero⟩

attribute [local instance] neZero_four

/-- The values of `char a[4], b[16], *s = b; (c ? a : s)[10] = 'x';`: two constants, the buffers and
the pointer variable, the condition, and in the last block the phi, the `getelementptr` and the
store. -/
def twoOriginsValue : Fin 16 → Value (Fin 16) (Fin 4) Unit
  | 0 => .constantInt 32 1
  | 1 => .constantInt 64 10
  | 2 => .constantInt 8 120
  | 3 => .argument 0 false
  | 4 => .alloca (.array 4 (.int ⟨8, isWidth_eight⟩)) 0 false
  | 5 => .alloca (.array 16 (.int ⟨8, isWidth_eight⟩)) 0 false
  | 6 => .alloca .ptr 0 false
  | 7 => .store 5 6
  | 8 => .br 3 1 2
  | 10 => .load 6
  | 12 => .phi [(1, 4), (2, 10)]
  | 13 => .getElementPtr (.int ⟨8, isWidth_eight⟩) 12 [1]
  | 14 => .store 2 13
  | 15 => .ret
  | _ => .instruction

/-- The module of this function. -/
def twoOrigins : Module Unit (Fin 16) (Fin 4) where
  functions := [()]
  functionName _ := "f".toList
  isDeclaration _ := false
  sourcePath _ := []
  blocks _ := [0, 1, 2, 3]
  instructions
    | 0 => [4, 5, 6, 7, 8]
    | 1 => [9]
    | 2 => [10, 11]
    | 3 => [12, 13, 14, 15]
  parent
    | 9 => 1
    | 10 | 11 => 2
    | 12 | 13 | 14 | 15 => 3
    | _ => 0
  successors
    | 0 => [1, 2]
    | 1 | 2 => [3]
    | 3 => []
  predecessors
    | 0 => []
    | 1 | 2 => [0]
    | 3 => [1, 2]
  value := twoOriginsValue
  type
    | 0 => .int ⟨32, isWidth_thirtyTwo⟩
    | 1 => .int ⟨64, by decide⟩
    | 2 => .int ⟨8, isWidth_eight⟩
    | 3 => .int ⟨1, isWidth_one⟩
    | 4 | 5 | 6 | 10 | 12 | 13 => .ptr
    | _ => .other
  name
    | 4 => "a".toList
    | 5 => "b".toList
    | 6 => "s".toList
    | _ => []
  users
    | 0 => [4, 5, 6]
    | 1 => [13]
    | 2 => [14]
    | 3 => [8]
    | 4 => [12]
    | 5 => [7]
    | 6 => [10, 7]
    | 10 => [12]
    | 12 => [13]
    | 13 => [14]
    | _ => []
  operands
    | 4 | 5 | 6 => [0]
    | 7 => [5, 6]
    | 8 => [3]
    | 10 => [6]
    | 12 => [4, 10]
    | 13 => [12, 1]
    | 14 => [2, 13]
    | _ => []
  underlyingObject v := v
  stripPointerCasts v := v
  nodup := by decide

/-- What the profile `fast` reports: it does not find the origin of `s`. -/
def twoOriginsIssue : StackBufferOverflowIssue (Fin 16) where
  funcName := "f".toList
  varName := "a".toList
  aliasPath := "a".toList
  aliasPathVec := ["a".toList]
  inst := 14
  arraySize := 4
  indexOrUpperBound := 10
  storageClass := .stack
  isWrite := true
  indexIsConstant := true
  gep := 13
  base := .stack 4

theorem twoOrigins_fast :
    (analyzeStackBufferOverflows twoOrigins (fun _ => true) { profile := .fast }).Runs []
      [twoOriginsIssue] := by
  rw [show analyzeStackBufferOverflows twoOrigins (fun _ => true) { profile := .fast } =
    .answer [twoOriginsIssue] from rfl]
  exact .answer _

theorem twoOrigins_full :
    (analyzeStackBufferOverflows twoOrigins (fun _ => true) {}).Runs [] [] := by
  rw [show analyzeStackBufferOverflows twoOrigins (fun _ => true) {} = .answer [] from rfl]
  exact .answer _

/-- **The profile `fast` adds an issue**: with the stored value, the phi has two origins. -/
theorem not_fastWithinFull_twoOrigins : ¬ FastWithinFull twoOrigins fun _ => true := by
  intro h
  obtain ⟨issue', hissue', -⟩ := h { profile := .fast } {} rfl rfl rfl _ _ twoOrigins_fast _ _
    twoOrigins_full twoOriginsIssue (List.mem_singleton_self _)
  exact List.not_mem_nil hissue'

/-- The theorem at this module: the issue is not reported, so the origin is not kept. -/
theorem fast_issue_in_full_iff_twoOrigins :
    ((∃ issue' ∈ ([] : List (StackBufferOverflowIssue (Fin 16))),
        SameAccess twoOriginsIssue issue') ↔
      OriginKept twoOrigins (fun _ => true) 13 (.stack 4)) ∧
    ((∃ slot : Fin 16, twoOriginsIssue.base = .stack slot) → StraightOrigin twoOrigins 13 →
      ∃ issue' ∈ ([] : List (StackBufferOverflowIssue (Fin 16))),
        SameAccess twoOriginsIssue issue') :=
  fast_issue_in_full_iff (by exact rfl) (by exact rfl) (by exact rfl) twoOrigins_fast
    twoOrigins_full twoOriginsIssue (List.mem_singleton_self _)

end TwoOrigins

end StackAnalyzer.Bounds
