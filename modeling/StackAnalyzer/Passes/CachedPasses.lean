import StackAnalyzer.Lists.Enumerations
import StackAnalyzer.Passes.PerFunctionPasses

set_option relaxedAutoImplicit false
set_option autoImplicit false

/-!
# Cached and plain passes

The steps of the pipeline that read the instruction cache, against the passes that walk the
functions. Three passes look at one instruction at a time, so sorting the calls from the invokes
only rearranges their findings. The fourth one remembers the checks that it has seen, and visiting
the calls before the invokes changes which checks come before a use.

## Main definitions

* `StackAnalyzer.Passes.CachedStep` — the four steps, with and without the cache.
* `StackAnalyzer.Passes.useIssue` — what a use reports when the calls are visited in an order.

## Main results

* `StackAnalyzer.Passes.analyzeTOCTOU_eq`, `StackAnalyzer.Passes.analyzeTOCTOUCached_eq` — the
  findings of both passes, use by use.
* `StackAnalyzer.Passes.cachedSteps_agree` — when the steps agree with the plain passes.
-/

namespace StackAnalyzer.Passes

open Maps Enumerations

variable {F V : Type*} [DecidableEq V]

/-! ## The steps -/

/-- The steps that read the cache. -/
inductive CachedStep
  | dynamicAllocas | memIntrinsicOverflows | commandInjection | toctou

/-- The diagnostics of a step for one function, from the lists of the cache. -/
def CachedStep.cached (values : ValueTable V) (rules : List BufferWriteRule)
    (resolve : V → Bool → ResolvedLocation) (step : CachedStep) (fn : Function V)
    (data : PerFunctionData V) : List Diagnostic :=
  match step with
  | .dynamicAllocas =>
    (analyzeDynamicAllocasCached values fn data.allocas).map (dynamicAllocaDiagnostic resolve)
  | .memIntrinsicOverflows =>
    (analyzeMemIntrinsicOverflowsCached values rules fn data.calls data.invokes).map
      (memIntrinsicDiagnostic resolve)
  | .commandInjection =>
    (analyzeCommandInjectionCached values fn data.calls data.invokes).map
      (commandInjectionDiagnostic resolve)
  | .toctou =>
    (analyzeTOCTOUCached values fn data.calls data.invokes).map (toctouDiagnostic resolve)

/-- The diagnostics of a step for one function, from its instructions. -/
def CachedStep.plain (values : ValueTable V) (rules : List BufferWriteRule)
    (resolve : V → Bool → ResolvedLocation) (step : CachedStep) (fn : Function V) :
    List Diagnostic :=
  match step with
  | .dynamicAllocas => (analyzeDynamicAllocas values fn).map (dynamicAllocaDiagnostic resolve)
  | .memIntrinsicOverflows =>
    (analyzeMemIntrinsicOverflows values rules fn).map (memIntrinsicDiagnostic resolve)
  | .commandInjection =>
    (analyzeCommandInjection values fn).map (commandInjectionDiagnostic resolve)
  | .toctou => (analyzeTOCTOU values fn).map (toctouDiagnostic resolve)

/-- What a step appends when it reads the cache, enumerated in the order of `entries`. -/
def runCached (mod : Module F V) (rules : List BufferWriteRule)
    (resolve : V → Bool → ResolvedLocation) (step : CachedStep)
    (entries : List (F × PerFunctionData V)) : List Diagnostic :=
  entries.flatMap fun entry =>
    if (mod.function entry.1).isDeclaration then []
    else step.cached mod.values rules resolve (mod.function entry.1) entry.2

/-- What a step appends when it walks the functions. -/
def runPlain (mod : Module F V) (shouldAnalyze : F → Bool) (rules : List BufferWriteRule)
    (resolve : V → Bool → ResolvedLocation) (step : CachedStep) : List Diagnostic :=
  (mod.selected shouldAnalyze).flatMap fun f =>
    step.plain mod.values rules resolve (mod.function f)

/-! ## Passes without memory -/

section Memoryless

variable (values : ValueTable V) (fn : Function V)

omit [DecidableEq V] in
/-- A pass that looks at one call at a time finds the same with the calls before the invokes. -/
theorem filterMap_calls_invokes_perm {β : Type*} (p : CallBase V → Option β)
    (instructions : List (Instruction V)) :
    ((instructions.filterMap Instruction.asCall).filterMap p ++
        (instructions.filterMap Instruction.asInvoke).filterMap p).Perm
      (instructions.filterMap fun I => I.asCallBase.bind p) := by
  rw [List.filterMap_filterMap, List.filterMap_filterMap]
  refine filterMap_perm_kinds (fun I => ?_) instructions
  cases I with
  | call CI => exact Or.inl ⟨rfl, rfl⟩
  | _ => exact Or.inr ⟨rfl, rfl⟩

omit [DecidableEq V] in
/-- The cached pass for dynamic allocas finds the same, in the same order. -/
theorem analyzeDynamicAllocasCached_eq :
    analyzeDynamicAllocasCached values fn fn.data.allocas = analyzeDynamicAllocas values fn := by
  rw [analyzeDynamicAllocasCached, analyzeDynamicAllocas, Function.data, List.filterMap_filterMap]

omit [DecidableEq V] in
/-- The cached pass for memory functions finds the same. -/
theorem analyzeMemIntrinsicOverflowsCached_perm (rules : List BufferWriteRule) :
    (analyzeMemIntrinsicOverflowsCached values rules fn fn.data.calls fn.data.invokes).Perm
      (analyzeMemIntrinsicOverflows values rules fn) :=
  filterMap_calls_invokes_perm _ _

omit [DecidableEq V] in
/-- The cached pass for shell commands finds the same. -/
theorem analyzeCommandInjectionCached_perm :
    (analyzeCommandInjectionCached values fn fn.data.calls fn.data.invokes).Perm
      (analyzeCommandInjection values fn) :=
  filterMap_calls_invokes_perm _ _

end Memoryless

/-! ## Checks before uses -/

section Events

variable (values : ValueTable V) (fn : Function V)

/-- The checks among some calls. -/
def checksOf (calls : List (CallBase V)) : List (PathEvent V) :=
  calls.filterMap fun call =>
    (pathEvent values 0 call).bind fun e => if e.1 then some e.2 else none

/-- The use that a call is. -/
def useOf (call : CallBase V) : Option (PathEvent V) :=
  (pathEvent values 0 call).bind fun e => if e.1 then none else some e.2

/-- What a use reports after the calls `before`: the first check of the same path. -/
def issueAfter (before : List (CallBase V)) (call : CallBase V) : Option (TOCTOUIssue V) :=
  (useOf values call).bind fun useEvent =>
    ((checksOf values before).find? fun checkEvent => likelySamePath checkEvent useEvent).map
      fun checkEvent => ⟨fn.name, fn.filePath, checkEvent.api, useEvent.api, useEvent.inst⟩

/-- The order of an event is the number of its instruction, and nothing else depends on it. -/
theorem pathEvent_order (order : ℕ) (call : CallBase V) : pathEvent values order call =
    (pathEvent values 0 call).map fun e => (e.1, { e.2 with order }) := by
  unfold pathEvent
  cases call.callee with
  | none => rfl
  | some callee =>
    simp only [Option.bind_some]
    cases (checkPathArgIndex (canonicalCalleeName callee.name)).or
        (usePathArgIndex (canonicalCalleeName callee.name)) with
    | none => rfl
    | some argIndex => simp only [Option.bind_some, Option.map_map]; rfl

/-- What is known of the events after some instructions: their orders are at most the number of
instructions, and up to their orders they are the events of the calls visited. -/
structure Visited (calls : List (CallBase V)) (events : PathEvents V) : Prop where
  checks_le : ∀ c ∈ events.checks, c.order ≤ events.order
  uses_le : ∀ u ∈ events.uses, u.order ≤ events.order
  checks_eq : (events.checks.map fun c => { c with order := 0 }) = checksOf values calls

/-- Finding a check does not depend on the orders. -/
theorem find_checks {checks : List (PathEvent V)} (useEvent : PathEvent V)
    (h : ∀ c ∈ checks, c.order < useEvent.order) :
    ((checks.find? fun c => !decide (c.order ≥ useEvent.order) && likelySamePath c useEvent).map
        PathEvent.api) =
      (((checks.map fun c => { c with order := 0 }).find? fun c =>
        likelySamePath c useEvent).map PathEvent.api) := by
  induction checks with
  | nil => rfl
  | cons c checks ih =>
    have hc : decide (c.order ≥ useEvent.order) = false := by
      have := h c List.mem_cons_self
      simp only [ge_iff_le, decide_eq_false_iff_not]
      omega
    have hpath : likelySamePath { c with order := 0 } useEvent = likelySamePath c useEvent := rfl
    rw [List.map_cons, List.find?_cons, List.find?_cons, hc, hpath, Bool.not_false, Bool.true_and]
    cases likelySamePath c useEvent with
    | true => rfl
    | false => exact ih fun d hd => h d (List.mem_cons_of_mem c hd)

/-- The issues of some calls, visited in order after the calls `before`. -/
def issuesFrom (before : List (CallBase V)) : List (CallBase V) → List (TOCTOUIssue V)
  | [] => []
  | call :: calls =>
    (issueAfter values fn before call).toList ++ issuesFrom (before ++ [call]) calls

/-- The last call reports what it reports after all others. -/
theorem issuesFrom_append_singleton (calls : List (CallBase V)) (call : CallBase V) :
    ∀ before, issuesFrom values fn before (calls ++ [call]) =
      issuesFrom values fn before calls ++
        (issueAfter values fn (before ++ calls) call).toList := by
  induction calls with
  | nil => intro before; simp [issuesFrom]
  | cons c calls ih =>
    intro before
    rw [List.cons_append, issuesFrom, issuesFrom, ih, List.append_assoc, List.append_assoc]
    rfl

/-- The report of one use. -/
def reportUse (checks : List (PathEvent V)) (useEvent : PathEvent V) : Option (TOCTOUIssue V) :=
  (checks.find? fun checkEvent =>
    !decide (checkEvent.order ≥ useEvent.order) && likelySamePath checkEvent useEvent).map
  fun checkEvent => ⟨fn.name, fn.filePath, checkEvent.api, useEvent.api, useEvent.inst⟩

/-- A check behind a use does not change its report. -/
theorem reportUse_append_later {checks : List (PathEvent V)} {useEvent checkEvent : PathEvent V}
    (h : useEvent.order ≤ checkEvent.order) :
    reportUse fn (checks ++ [checkEvent]) useEvent = reportUse fn checks useEvent := by
  have hlater : decide (checkEvent.order ≥ useEvent.order) = true := by simpa using h
  unfold reportUse
  rw [List.find?_append, List.find?_cons, hlater]
  simp

/-- An event with order zero, as the calls are looked at without their orders. -/
theorem order_of_pathEvent_zero {call : CallBase V} {e : Bool × PathEvent V}
    (h : pathEvent values 0 call = some e) : e.2.order = 0 := by
  have horder := pathEvent_order values 0 call
  rw [h, Option.map_some] at horder
  exact congrArg (fun e : Bool × PathEvent V => e.2.order) (Option.some.inj horder)

/-- Visiting an instruction that is no event. -/
theorem visit_of_none {events : PathEvents V} {x : Option (CallBase V)}
    (h : x.bind (pathEvent values 0) = none) :
    events.visit values x = { events with order := events.order + 1 } := by
  have hnone : x.bind (pathEvent values (events.order + 1)) = none := by
    cases x with
    | none => rfl
    | some call =>
      rw [Option.bind_some] at h ⊢
      rw [pathEvent_order, h, Option.map_none]
  simp only [PathEvents.visit, hnone]

/-- Visiting a check. -/
theorem visit_of_check {events : PathEvents V} {call : CallBase V} {e : PathEvent V}
    (h : pathEvent values 0 call = some (true, e)) :
    events.visit values (some call) =
      { events with
        checks := events.checks ++ [{ e with order := events.order + 1 }]
        order := events.order + 1 } := by
  have hevent : (some call).bind (pathEvent values (events.order + 1)) =
      some (true, { e with order := events.order + 1 }) := by
    rw [Option.bind_some, pathEvent_order, h, Option.map_some]
  simp only [PathEvents.visit, hevent]

/-- Visiting a use. -/
theorem visit_of_use {events : PathEvents V} {call : CallBase V} {e : PathEvent V}
    (h : pathEvent values 0 call = some (false, e)) :
    events.visit values (some call) =
      { events with
        uses := events.uses ++ [{ e with order := events.order + 1 }]
        order := events.order + 1 } := by
  have hevent : (some call).bind (pathEvent values (events.order + 1)) =
      some (false, { e with order := events.order + 1 }) := by
    rw [Option.bind_some, pathEvent_order, h, Option.map_some]
  simp only [PathEvents.visit, hevent]

/-- The new use is reported for the first check of the same path. -/
theorem reportUse_new {calls : List (CallBase V)} {events : PathEvents V}
    (hvisited : Visited values calls events) {call : CallBase V} {e : PathEvent V}
    (h : pathEvent values 0 call = some (false, e)) :
    reportUse fn events.checks { e with order := events.order + 1 } =
      issueAfter values fn calls call := by
  have hfind := find_checks { e with order := events.order + 1 }
    fun c hc => Nat.lt_succ_of_le (hvisited.checks_le c hc)
  rw [hvisited.checks_eq] at hfind
  have huse : useOf values call = some e := by simp [useOf, h]
  rw [issueAfter, huse, Option.bind_some]
  have hissue : ∀ o : Option (PathEvent V), o.map (fun checkEvent =>
      (⟨fn.name, fn.filePath, checkEvent.api, e.api, e.inst⟩ : TOCTOUIssue V)) =
      (o.map PathEvent.api).map fun api => ⟨fn.name, fn.filePath, api, e.api, e.inst⟩ :=
    fun o => by cases o <;> rfl
  rw [hissue, reportUse, hissue]
  exact congrArg _ hfind

/-- **A visit reports what the calls before it say.**

**Proof sketch.** Induction on the instructions visited. A check has a higher order than all uses
so far, so it changes no report. A use has a higher order than all checks so far, so it is
reported for the first one of the same path. -/
theorem reportUses_foldl (cs : List (Option (CallBase V))) :
    Visited values (cs.filterMap id) (cs.foldl (PathEvents.visit values) {}) ∧
      reportUses fn (cs.foldl (PathEvents.visit values) {}) =
        issuesFrom values fn [] (cs.filterMap id) := by
  induction cs using List.reverseRecOn with
  | nil => exact ⟨⟨by simp, by simp, rfl⟩, rfl⟩
  | append_singleton cs x ih =>
    obtain ⟨hvisited, hissues⟩ := ih
    rw [List.foldl_append, List.foldl_cons, List.foldl_nil, List.filterMap_append]
    generalize cs.foldl (PathEvents.visit values) {} = events at hvisited hissues ⊢
    have hchecks : ∀ c ∈ events.checks, c.order ≤ events.order + 1 := fun c hc =>
      Nat.le_succ_of_le (hvisited.checks_le c hc)
    have huses : ∀ u ∈ events.uses, u.order ≤ events.order + 1 := fun u hu =>
      Nat.le_succ_of_le (hvisited.uses_le u hu)
    cases x with
    | none =>
      rw [visit_of_none values rfl]
      simp only [List.filterMap_cons_none, List.filterMap_nil, List.append_nil, id_eq]
      exact ⟨⟨hchecks, huses, hvisited.checks_eq⟩, hissues⟩
    | some call =>
      rw [show [some call].filterMap id = [call] from rfl, issuesFrom_append_singleton,
        List.nil_append, ← hissues]
      cases hevent : pathEvent values 0 call with
      | none =>
        have hnone : (some call).bind (pathEvent values 0) = none := hevent
        rw [visit_of_none values hnone]
        have hcalls : checksOf values (cs.filterMap id ++ [call]) =
            checksOf values (cs.filterMap id) := by simp [checksOf, hevent]
        refine ⟨⟨hchecks, huses, hcalls ▸ hvisited.checks_eq⟩, ?_⟩
        simp [issueAfter, useOf, hevent, reportUses]
      | some e =>
        obtain ⟨isCheck, event⟩ := e
        have hzero : event.order = 0 := order_of_pathEvent_zero values hevent
        cases isCheck with
        | true =>
          rw [visit_of_check values hevent]
          have hcalls : checksOf values (cs.filterMap id ++ [call]) =
              checksOf values (cs.filterMap id) ++ [event] := by simp [checksOf, hevent]
          refine ⟨⟨fun c hc => ?_, huses, ?_⟩, ?_⟩
          · rcases List.mem_append.mp hc with hc | hc
            · exact hchecks c hc
            · rw [List.mem_singleton.mp hc]
          · rw [hcalls, List.map_append, hvisited.checks_eq]
            simp [← hzero]
          · have huse : issueAfter values fn (cs.filterMap id) call = none := by
              simp [issueAfter, useOf, hevent]
            rw [huse, Option.toList_none, List.append_nil]
            exact List.filterMap_congr fun u hu => reportUse_append_later fn (huses u hu)
        | false =>
          rw [visit_of_use values hevent]
          have hcalls : checksOf values (cs.filterMap id ++ [call]) =
              checksOf values (cs.filterMap id) := by simp [checksOf, hevent]
          refine ⟨⟨hchecks, fun u hu => ?_, hcalls ▸ hvisited.checks_eq⟩, ?_⟩
          · rcases List.mem_append.mp hu with hu | hu
            · exact huses u hu
            · rw [List.mem_singleton.mp hu]
          · show (events.uses ++ [_]).filterMap (reportUse fn events.checks) = _
            rw [List.filterMap_append, ← reportUse_new values fn hvisited hevent,
              List.filterMap_cons, List.filterMap_nil]
            cases reportUse fn events.checks { event with order := events.order + 1 } <;> rfl

/-- The calls visited before a call, in an order of the calls. -/
def earlier (calls : List (CallBase V)) (call : CallBase V) : List (CallBase V) :=
  calls.takeWhile fun c => decide (c.value ≠ call.value)

/-- What a call reports when the calls are visited in an order. -/
def useIssue (calls : List (CallBase V)) (call : CallBase V) : Option (TOCTOUIssue V) :=
  issueAfter values fn (earlier calls call) call

/-- An issue names the call that reports it. -/
theorem inst_of_issueAfter {before : List (CallBase V)} {call : CallBase V}
    {issue : TOCTOUIssue V} (h : issueAfter values fn before call = some issue) :
    issue.inst = call.value := by
  have hinst : ∀ e, pathEvent values 0 call = some e → e.2.inst = call.value := by
    intro e he
    unfold pathEvent at he
    cases hcallee : call.callee with
    | none => simp [hcallee] at he
    | some callee =>
      simp only [hcallee, Option.bind_some, Option.bind_eq_some_iff, Option.map_eq_some_iff] at he
      obtain ⟨_, -, _, -, rfl⟩ := he
      rfl
  unfold issueAfter useOf at h
  cases hevent : pathEvent values 0 call with
  | none => simp [hevent] at h
  | some e =>
    obtain ⟨isCheck, event⟩ := e
    cases isCheck with
    | true => simp [hevent] at h
    | false =>
      simp only [hevent, Option.bind_some, Bool.false_eq_true, if_false,
        Option.map_eq_some_iff] at h
      obtain ⟨_, -, rfl⟩ := h
      exact hinst _ hevent

/-- With distinct calls, the issues are those that the calls report in their order. -/
theorem issuesFrom_eq {calls : List (CallBase V)} (h : (calls.map CallBase.value).Nodup) :
    issuesFrom values fn [] calls = calls.filterMap (useIssue values fn calls) := by
  have hall : ∀ post pre : List (CallBase V), ((pre ++ post).map CallBase.value).Nodup →
      issuesFrom values fn pre post = post.filterMap (useIssue values fn (pre ++ post)) := by
    intro post
    induction post with
    | nil => intro pre _; rfl
    | cons call post ih =>
      intro pre hnd
      have hpre : earlier (pre ++ call :: post) call = pre := by
        have hne : ∀ c ∈ pre, decide (c.value ≠ call.value) = true := by
          intro c hc
          rw [List.map_append, List.nodup_append] at hnd
          exact decide_eq_true (hnd.2.2 c.value (List.mem_map_of_mem hc) call.value (by simp))
        rw [earlier, List.takeWhile_append_of_pos hne, List.takeWhile_cons]
        simp
      have hrest := ih (pre ++ [call]) (by simpa using hnd)
      rw [List.append_assoc, List.singleton_append] at hrest
      rw [issuesFrom, hrest, List.filterMap_cons, useIssue, hpre]
      cases issueAfter values fn pre call <;> rfl
  exact hall calls [] (by simpa using h)

/-- Visiting all calls, with other instructions in between. -/
theorem reportUses_eq (cs : List (Option (CallBase V)))
    (h : ((cs.filterMap id).map CallBase.value).Nodup) :
    reportUses fn (cs.foldl (PathEvents.visit values) {}) =
      (cs.filterMap id).filterMap (useIssue values fn (cs.filterMap id)) := by
  rw [(reportUses_foldl values fn cs).2, issuesFrom_eq values fn h]

end Events

/-! ### Both passes -/

section Toctou

variable (values : ValueTable V) (fn : Function V)

/-- The calls of a function before its invokes. -/
def Function.callsThenInvokes (fn : Function V) : List (CallBase V) :=
  fn.data.calls ++ fn.data.invokes

omit [DecidableEq V] in
/-- The calls before the invokes are a rearrangement. -/
theorem callsThenInvokes_perm : fn.callsThenInvokes.Perm fn.callBases := by
  have h := filterMap_calls_invokes_perm (fun c : CallBase V => some c) fn.instructions
  simpa [Function.callsThenInvokes, Function.callBases, Function.data] using h

variable {fn} (hnd : (fn.callBases.map CallBase.value).Nodup)
include hnd

/-- The plain pass reports what the uses say in instruction order. -/
theorem analyzeTOCTOU_eq : analyzeTOCTOU values fn =
    fn.callBases.filterMap (useIssue values fn fn.callBases) := by
  have hcalls : (fn.instructions.map Instruction.asCallBase).filterMap id = fn.callBases := by
    rw [List.filterMap_map]
    rfl
  have h := reportUses_eq values fn (fn.instructions.map Instruction.asCallBase)
    (by rwa [hcalls])
  rwa [hcalls] at h

/-- The cached pass reports what the uses say with the calls before the invokes. -/
theorem analyzeTOCTOUCached_perm :
    (analyzeTOCTOUCached values fn fn.data.calls fn.data.invokes).Perm
      (fn.callBases.filterMap (useIssue values fn fn.callsThenInvokes)) := by
  have hcalls : ((fn.data.calls ++ fn.data.invokes).map some).filterMap id =
      fn.callsThenInvokes := by
    rw [List.filterMap_map]
    exact List.filterMap_some
  have h := reportUses_eq values fn ((fn.data.calls ++ fn.data.invokes).map some)
    (by
      rw [hcalls]
      exact ((callsThenInvokes_perm fn).map CallBase.value).nodup_iff.mpr hnd)
  rw [hcalls, List.map_append, List.foldl_append] at h
  rw [analyzeTOCTOUCached, h]
  exact (callsThenInvokes_perm fn).filterMap _

end Toctou

/-- The function that the first check of the same path before a use calls, when the calls are
visited in an order. -/
def firstCheckApi (values : ValueTable V) (calls : List (CallBase V)) (call : CallBase V) :
    Option String :=
  (useOf values call).bind fun useEvent =>
    ((checksOf values (earlier calls call)).find? fun checkEvent =>
      likelySamePath checkEvent useEvent).map PathEvent.api

/-- An issue is determined by that function. -/
theorem useIssue_eq_iff (values : ValueTable V) (fn : Function V) (calls calls' : List (CallBase V))
    (call : CallBase V) :
    useIssue values fn calls call = useIssue values fn calls' call ↔
      firstCheckApi values calls call = firstCheckApi values calls' call := by
  unfold useIssue issueAfter firstCheckApi
  cases useOf values call with
  | none => simp
  | some useEvent =>
    simp only [Option.bind_some]
    cases (checksOf values (earlier calls call)).find? fun checkEvent =>
        likelySamePath checkEvent useEvent <;>
      cases (checksOf values (earlier calls' call)).find? fun checkEvent =>
        likelySamePath checkEvent useEvent <;> simp

/-! ## The steps over a module -/

section Steps

variable (mod : Module F V) (shouldAnalyze : F → Bool)

/-- The issues of the fourth step from the cache, enumerated in the order of `entries`. -/
def toctouIssuesCached (entries : List (F × PerFunctionData V)) : List (TOCTOUIssue V) :=
  entries.flatMap fun entry =>
    if (mod.function entry.1).isDeclaration then []
    else analyzeTOCTOUCached mod.values (mod.function entry.1) entry.2.calls entry.2.invokes

/-- The issues of the fourth step from the functions. -/
def toctouIssues : List (TOCTOUIssue V) :=
  (mod.selected shouldAnalyze).flatMap fun f => analyzeTOCTOU mod.values (mod.function f)

/-- The calls and invokes of the functions that are analysed, each with its function. -/
def selectedCalls : List (F × CallBase V) :=
  (mod.selected shouldAnalyze).flatMap fun f => (mod.function f).callBases.map fun c => (f, c)

omit [DecidableEq V] in
/-- Different calls of the module are different values. -/
theorem nodup_selectedCalls :
    ((selectedCalls mod shouldAnalyze).map fun x => x.2.value).Nodup := by
  have hsub : ((mod.selected shouldAnalyze).flatMap fun f => (mod.function f).callBases).Sublist
      (mod.functions.flatMap fun f => (mod.function f).callBases) :=
    List.Sublist.flatMap List.filter_sublist _
  have hnd := mod.distinct.sublist (hsub.map CallBase.value)
  simpa [selectedCalls, List.map_flatMap, Function.comp_def] using hnd

omit [DecidableEq V] in
/-- Different calls of one function are different values. -/
theorem nodup_callBases {f : F} (hf : f ∈ mod.selected shouldAnalyze) :
    ((mod.function f).callBases.map CallBase.value).Nodup := by
  have hsub : (mod.function f).callBases.Sublist
      (mod.functions.flatMap fun f => (mod.function f).callBases) := by
    rw [List.flatMap_def]
    exact List.sublist_flatten_of_mem (List.mem_map_of_mem (List.mem_of_mem_filter hf))
  exact mod.distinct.sublist (hsub.map CallBase.value)

/-- The plain step, call by call. -/
theorem toctouIssues_eq : toctouIssues mod shouldAnalyze =
    (selectedCalls mod shouldAnalyze).filterMap fun x =>
      useIssue mod.values (mod.function x.1) (mod.function x.1).callBases x.2 := by
  rw [toctouIssues, selectedCalls, List.filterMap_flatMap]
  refine List.flatMap_congr fun f hf => ?_
  rw [analyzeTOCTOU_eq mod.values (nodup_callBases mod shouldAnalyze hf), List.filterMap_map]
  rfl

variable [DecidableEq F] {entries : List (F × PerFunctionData V)}
  (hentries : entries.Perm (collectIRFacts mod shouldAnalyze).data.entries)
include hentries

omit [DecidableEq V] in
/-- What is computed for each entry of the cache, in any order, is computed for each function. -/
theorem flatMap_entries_perm {β : Type*} (g : F × PerFunctionData V → List β) :
    (entries.flatMap fun entry => if (mod.function entry.1).isDeclaration then [] else g entry).Perm
      ((mod.selected shouldAnalyze).flatMap fun f => g (f, (mod.function f).data)) := by
  refine (hentries.flatMap_right _).trans (List.Perm.of_eq ?_)
  rw [entries_collectIRFacts, List.flatMap_map]
  refine List.flatMap_congr fun f hf => ?_
  have hdefined : (mod.function f).isDeclaration = false := by
    have := (List.mem_filter.mp hf).2
    simp only [Bool.and_eq_true, Bool.not_eq_true'] at this
    exact this.1
  simp [hdefined]

/-- The cached step, call by call. -/
theorem toctouIssuesCached_perm : (toctouIssuesCached mod entries).Perm
    ((selectedCalls mod shouldAnalyze).filterMap fun x =>
      useIssue mod.values (mod.function x.1) (mod.function x.1).callsThenInvokes x.2) := by
  refine (flatMap_entries_perm mod shouldAnalyze hentries fun entry => analyzeTOCTOUCached
    mod.values (mod.function entry.1) entry.2.calls entry.2.invokes).trans ?_
  rw [selectedCalls, List.filterMap_flatMap]
  refine List.Perm.flatMap_left _ fun f hf => ?_
  rw [List.filterMap_map]
  exact analyzeTOCTOUCached_perm mod.values (nodup_callBases mod shouldAnalyze hf)

/-- The fourth step finds the same with and without the cache exactly when every use has a first
check of the same function in both orders. -/
theorem toctouIssues_perm_iff :
    (toctouIssuesCached mod entries).Perm (toctouIssues mod shouldAnalyze) ↔
      ∀ x ∈ selectedCalls mod shouldAnalyze,
        firstCheckApi mod.values (mod.function x.1).callsThenInvokes x.2 =
          firstCheckApi mod.values (mod.function x.1).callBases x.2 := by
  have hiff := filterMap_perm_iff TOCTOUIssue.inst (nodup_selectedCalls mod shouldAnalyze)
    (fun x => useIssue mod.values (mod.function x.1) (mod.function x.1).callsThenInvokes x.2)
    (fun x => useIssue mod.values (mod.function x.1) (mod.function x.1).callBases x.2)
    (fun _ _ h => inst_of_issueAfter _ _ h) fun _ _ h => inst_of_issueAfter _ _ h
  simp only [useIssue_eq_iff] at hiff
  rw [← hiff, toctouIssues_eq]
  have hcached := toctouIssuesCached_perm mod shouldAnalyze hentries
  exact ⟨hcached.symm.trans, hcached.trans⟩

/-- The steps without memory append the same diagnostics. -/
theorem runCached_perm (rules : List BufferWriteRule) (resolve : V → Bool → ResolvedLocation)
    {step : CachedStep} (hstep : step ≠ .toctou) :
    (runCached mod rules resolve step entries).Perm
      (runPlain mod shouldAnalyze rules resolve step) := by
  refine (flatMap_entries_perm mod shouldAnalyze hentries fun entry =>
    step.cached mod.values rules resolve (mod.function entry.1) entry.2).trans ?_
  refine List.Perm.flatMap_left _ fun f _ => ?_
  cases step with
  | dynamicAllocas =>
    rw [CachedStep.cached, CachedStep.plain, analyzeDynamicAllocasCached_eq]
  | memIntrinsicOverflows =>
    exact (analyzeMemIntrinsicOverflowsCached_perm mod.values (mod.function f) rules).map _
  | commandInjection =>
    exact (analyzeCommandInjectionCached_perm mod.values (mod.function f)).map _
  | toctou => exact absurd rfl hstep

/-- **When cached and plain steps agree.** For every module and every enumeration of the cache, the
steps for dynamic allocas, memory functions and shell commands append the same diagnostics, up to
their order. The step for checks and uses finds the same issues exactly when every use has a first
check of the same function in both orders, and it then appends the same diagnostics.

**Proof sketch.** The cache has the lists of every function that is analysed. A pass without
memory is rearranged with its instructions. A use reports the first check of its path among the
calls before it, so its two reports are equal exactly when these checks call the same function. -/
theorem cachedSteps_agree (rules : List BufferWriteRule)
    (resolve : V → Bool → ResolvedLocation) :
    (∀ step : CachedStep, step ≠ .toctou → (runCached mod rules resolve step entries).Perm
      (runPlain mod shouldAnalyze rules resolve step)) ∧
    ((toctouIssuesCached mod entries).Perm (toctouIssues mod shouldAnalyze) ↔
      ∀ x ∈ selectedCalls mod shouldAnalyze,
        firstCheckApi mod.values (mod.function x.1).callsThenInvokes x.2 =
          firstCheckApi mod.values (mod.function x.1).callBases x.2) ∧
    ((toctouIssuesCached mod entries).Perm (toctouIssues mod shouldAnalyze) →
      (runCached mod rules resolve .toctou entries).Perm
        (runPlain mod shouldAnalyze rules resolve .toctou)) := by
  refine ⟨fun step => runCached_perm mod shouldAnalyze hentries rules resolve,
    toctouIssues_perm_iff mod shouldAnalyze hentries, fun h => ?_⟩
  have hmap := h.map (toctouDiagnostic resolve)
  rw [toctouIssuesCached, toctouIssues, List.map_flatMap, List.map_flatMap] at hmap
  refine (List.Perm.of_eq ?_).trans hmap
  refine List.flatMap_congr fun entry _ => ?_
  split_ifs
  · rfl
  · rfl

end Steps

/-! ## A check before a use -/

/-- A call of a function with one path. -/
def pathCall (value : ℕ) (name : String) : CallBase ℕ := ⟨value, some ⟨name, name, none⟩, [0]⟩

/-- A function that checks a path and opens it; the check is an invoke if `invoked` says so. -/
def checkThenOpen (invoked : Bool) : Module (Fin 1) ℕ where
  functions := [0]
  nodup := List.nodup_singleton 0
  function _ :=
    { name := "f"
      filePath := "f.cpp"
      isDeclaration := false
      instructions :=
        [if invoked then .invoke (pathCall 1 "access") else .call (pathCall 1 "access"),
          .call (pathCall 2 "open")]
      tryGetConstFromValue := fun _ => false }
  values := ⟨fun _ => .other, id, id, fun _ => []⟩
  distinct := by cases invoked <;> decide

/-- No instruction has a location. -/
def noLocation : ℕ → Bool → ResolvedLocation := fun _ _ => ⟨false, 0, 0, 0, 0, 0, 0⟩

/-- The check and the use are both calls: both steps report the use. -/
theorem cachedSteps_agree_checkThenOpen :
    (runCached (checkThenOpen false) [] noLocation .toctou
        (collectIRFacts (checkThenOpen false) fun _ => true).data.entries).Perm
      (runPlain (checkThenOpen false) (fun _ => true) [] noLocation .toctou) := by
  obtain ⟨-, hiff, happend⟩ := cachedSteps_agree (checkThenOpen false) (fun _ => true)
    (List.Perm.refl _) [] noLocation
  refine happend (hiff.mpr fun x hx => ?_)
  have hf : x.1 = 0 := Subsingleton.elim _ _
  rw [hf]
  rfl

/-- **The check is invoked**: the cached step visits the use first and reports nothing. -/
theorem not_cachedSteps_agree :
    ¬ ∀ (mod : Module (Fin 1) ℕ) (shouldAnalyze : Fin 1 → Bool) (rules : List BufferWriteRule)
      (resolve : ℕ → Bool → ResolvedLocation) (step : CachedStep),
      (runCached mod rules resolve step (collectIRFacts mod shouldAnalyze).data.entries).Perm
        (runPlain mod shouldAnalyze rules resolve step) := by
  intro h
  have hperm := h (checkThenOpen true) (fun _ => true) [] noLocation .toctou
  exact absurd hperm.length_eq (by decide)

end StackAnalyzer.Passes
