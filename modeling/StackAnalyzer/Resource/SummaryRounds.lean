import StackAnalyzer.Resource.FunctionSummaries

set_option relaxedAutoImplicit false
set_option autoImplicit false

/-!
# How many rounds resource summaries need

`computeFunctionLifetimeSummaries` makes at most eight rounds. In a round the summary of a callee
that is defined before its caller arrives at once, that of a later one arrives in the next round. So
the rounds suffice for a call graph without cycles iff no chain of calls leads eight times to a
function that is defined after its caller.

## Main definitions

* `StackAnalyzer.Resource.Calls`, `StackAnalyzer.Resource.Propagates` — direct calls, and those
  through which the caller takes the summary of the callee.
* `StackAnalyzer.Resource.IsSummaryFixpoint` — every summary is built from the other summaries.
* `StackAnalyzer.Resource.Attributed` — the effects that reach a function through its callees.

## Main results

* `StackAnalyzer.Resource.computeFunctionLifetimeSummaries_congr` — what the summaries of a module
  depend on.
* `StackAnalyzer.Resource.computeFunctionLifetimeSummaries_iff` — when the summaries are final.
-/

namespace StackAnalyzer.Resource

open CrossTU RoundRobin

/-! ## Calls -/

/-- The summary of the module is taken for a definition outside the standard library that is neither
constructor nor destructor. -/
def summaryUsed (mod : Module) (w : ℕ) : Bool :=
  hasSummary mod w && (mod[w]?).all fun G => !G.isCtor && !G.isDtor

/-- A definition of the module calls a function of it directly. -/
def Calls (mod : Module) (v w : ℕ) : Prop :=
  w < mod.length ∧ ∃ F, mod[v]? = some F ∧ F.isDeclaration = false ∧
    some w ∈ F.calls.map CallSite.callee

/-- No function calls itself, directly or through others. -/
def Acyclic (mod : Module) : Prop := ∀ v, ¬ Relation.TransGen (Calls mod) v v

/-- The caller takes the summary of the callee. -/
def Propagates (mod : Module) (v w : ℕ) : Prop :=
  Calls mod v w ∧ hasSummary mod v = true ∧ summaryUsed mod w = true

/-- A function with a summary that calls some function. -/
def MakesCalls (mod : Module) (v : ℕ) : Prop := hasSummary mod v = true ∧ ∃ w, Calls mod v w

/-- What a function says about calls, apart from their effects. -/
def Function.shape (F : Function) : CppString × Bool × Bool × Bool × List (Option ℕ) :=
  (F.name, F.isDeclaration, F.isCtor, F.isDtor, F.calls.map CallSite.callee)

/-- Modules with the same functions and the same calls, in the same order. -/
def SameCalls (mod mod' : Module) : Prop := mod.map Function.shape = mod'.map Function.shape

/-- Every summary is the one that `buildFunctionLifetimeSummary` yields from all summaries. -/
def IsSummaryFixpoint (mod : Module) (external : CppString → Option FunctionLifetimeSummary)
    (summaries : ℕ → Option FunctionLifetimeSummary) : Prop :=
  ∀ v F, mod[v]? = some F → hasSummary mod v = true →
    summaries v = some (buildFunctionLifetimeSummary mod summaries external F)

/-- The effects that a function has by its own calls or takes over from its callees, through any
number of wrappers. -/
inductive Attributed (mod : Module) (external : CppString → Option FunctionLifetimeSummary) :
    ℕ → ParamLifetimeEffect → Prop
  | own {v : ℕ} {F : Function} {call : CallSite} {e : ParamLifetimeEffect} (hF : mod[v]? = some F)
      (hcall : call ∈ F.calls)
      (he : e ∈ call.effects mod (functionSummaries mod fun _ => []) external) :
      Attributed mod external v e
  | wrapper {v w : ℕ} {F : Function} {call : CallSite} {e e' : ParamLifetimeEffect}
      (hF : mod[v]? = some F) (hcall : call ∈ F.calls) (hrules : call.rules = [])
      (hw : call.callee = some w) (hused : summaryUsed mod w = true)
      (h : Attributed mod external w e') (he : e ∈ call.mapEffect e') :
      Attributed mod external v e

section Effects

variable {mod : Module} {values : ℕ → FunctionLifetimeSummary}
variable {external : CppString → Option FunctionLifetimeSummary}

theorem hasSummary_iff {v : ℕ} : hasSummary mod v = true ↔
    ∃ F, mod[v]? = some F ∧ F.isDeclaration = false ∧ isStdLibCalleeName F.name = false := by
  unfold hasSummary
  cases mod[v]? <;> simp

theorem mem_summaryOrder {v : ℕ} : v ∈ summaryOrder mod ↔ hasSummary mod v = true := by
  rw [summaryOrder, List.mem_filter, List.mem_range, and_iff_right_iff_imp]
  intro h
  obtain ⟨F, hF, -⟩ := hasSummary_iff.mp h
  exact (List.getElem?_eq_some_iff.mp hF).1

theorem summaryUsed_hasSummary {w : ℕ} (h : summaryUsed mod w = true) :
    hasSummary mod w = true := (Bool.and_eq_true_iff.mp h).1

/-- The effects that a call takes over from its callee. -/
def takenSummary (mod : Module) (values : ℕ → FunctionLifetimeSummary)
    (external : CppString → Option FunctionLifetimeSummary) (w : ℕ) (callee : Function) :
    FunctionLifetimeSummary :=
  if summaryUsed mod w then values w
  else if isStdLibCalleeName callee.name then []
  else (external (canonicalizeMangledName callee.name)).getD []

/-- What the summary of a callee is during the iteration. -/
theorem calleeSummary_getD {w : ℕ} {callee : Function} (h : mod[w]? = some callee) :
    (calleeSummary (functionSummaries mod values) external w callee).getD [] =
      takenSummary mod values external w callee := by
  unfold calleeSummary takenSummary summaryUsed functionSummaries hasSummary
  rw [h]
  cases hstd : isStdLibCalleeName callee.name <;> cases hdecl : callee.isDeclaration <;>
    cases hctor : callee.isCtor <;> cases hdtor : callee.isDtor <;> simp [hstd, hdecl, hctor, hdtor]

/-- **The effects of a call**, during the iteration. -/
theorem mem_effects {call : CallSite} {e : ParamLifetimeEffect} :
    e ∈ call.effects mod (functionSummaries mod values) external ↔
      ∃ w callee, call.callee = some w ∧ mod[w]? = some callee ∧
        ((call.rules = [] ∧ ∃ e' ∈ takenSummary mod values external w callee,
            e ∈ call.mapEffect e') ∨ ∃ rule ∈ call.rules, e ∈ rule.effects call) := by
  unfold CallSite.effects
  cases hcallee : call.callee with
  | none => simp
  | some w =>
    cases hw : mod[w]? with
    | none => simp [hw]
    | some callee =>
      simp only [Option.some.injEq, exists_and_left, exists_eq_left', hw]
      cases hrules : call.rules with
      | nil =>
        simp only [List.isEmpty_nil, if_true, calleeSummary_getD hw, List.mem_flatMap, true_and]
        simp
      | cons rule rules => simp [List.mem_flatMap]

/-- The new value of a function with a summary. -/
theorem mem_eval {v : ℕ} {F : Function} (hF : mod[v]? = some F) {e : ParamLifetimeEffect} :
    e ∈ (summarySystem mod external).eval v values ↔
      ∃ call ∈ F.calls, e ∈ call.effects mod (functionSummaries mod values) external := by
  simp only [summarySystem, hF, Option.map_some, Option.getD_some]
  exact mem_buildFunctionLifetimeSummary

/-- The new value depends on the summaries that are taken over only. -/
theorem eval_congr {v : ℕ} (hv : hasSummary mod v = true)
    {σ τ : ℕ → FunctionLifetimeSummary} (h : ∀ w, Propagates mod v w → σ w = τ w) :
    (summarySystem mod external).eval v σ = (summarySystem mod external).eval v τ := by
  obtain ⟨F, hF, hdef, -⟩ := hasSummary_iff.mp hv
  simp only [summarySystem, hF, Option.map_some, Option.getD_some]
  apply buildFunctionLifetimeSummary_congr
  intro e
  refine exists_congr fun call => and_congr_right fun hcall => ?_
  rw [mem_effects, mem_effects]
  refine exists_congr fun w => exists_congr fun callee => and_congr_right fun hw =>
    and_congr_right fun hcallee => ?_
  have htaken : takenSummary mod σ external w callee = takenSummary mod τ external w callee := by
    unfold takenSummary
    split_ifs with hused
    · have hcalls : Calls mod v w :=
        ⟨(List.getElem?_eq_some_iff.mp hcallee).1, F, hF, hdef, hw ▸ List.mem_map_of_mem hcall⟩
      exact h w ⟨hcalls, hv, hused⟩
    · rfl
    · rfl
  rw [htaken]

theorem summarySystem_lawful : (summarySystem mod external).Lawful :=
  functionLifetimeSummaryEquals_iff

/-- Callees that delay are those that are not defined before the caller. -/
theorem sorted_summaryOrder : Sorted (summaryOrder mod) fun v w => v ≤ w := by
  have hpair : (summaryOrder mod).Pairwise (· < ·) := List.pairwise_lt_range.filter _
  refine ⟨fun l₁ v l₂ hl w hw hlt => ?_, fun l₁ v l₂ hl w hle hw => ?_⟩
  · rw [hl] at hw hpair
    rcases List.mem_append.mp hw with hw | hw
    · exact hw
    · rcases List.mem_cons.mp hw with rfl | hw
      · exact absurd le_rfl hlt
      · exact absurd ((List.pairwise_cons.mp (List.pairwise_append.mp hpair).2.1).1 w hw).le hlt
  · rw [hl] at hpair
    have := (List.pairwise_append.mp hpair).2.2 w hw v List.mem_cons_self
    omega

/-- Direct calls without cycles are well-founded. -/
theorem wellFounded_calls (hacyclic : Acyclic mod) : WellFounded fun w v => Calls mod v w := by
  refine Graph.wellFounded_of_acyclic (Set.finite_lt_nat mod.length) ?_ fun v hv => ?_
  · rintro w v ⟨hw, F, hF, -⟩
    exact ⟨hw, (List.getElem?_eq_some_iff.mp hF).1⟩
  · exact hacyclic v (Relation.transGen_swap.mp hv)

end Effects

/-! ## External summaries -/

/-- The name under which a call looks up an external summary: that of a callee outside the standard
library whose summary in the module, if any, is not used. Calls that match rules look up nothing. -/
def consultedName (mod : Module) (call : CallSite) : Option CppString :=
  if call.rules.isEmpty then
    call.callee.bind fun w => (mod[w]?).bind fun callee =>
      if summaryUsed mod w || isStdLibCalleeName callee.name then none
      else some (canonicalizeMangledName callee.name)
  else none

/-- The names under which the functions with a summary look up external summaries. -/
def consultedNames (mod : Module) : List CppString :=
  (summaryOrder mod).flatMap fun v =>
    (((mod[v]?).map Function.calls).getD []).filterMap (consultedName mod)

/-- **The summaries of a module depend on the external summaries that it looks up only.** -/
theorem computeFunctionLifetimeSummaries_congr {mod : Module}
    {external external' : CppString → Option FunctionLifetimeSummary}
    (h : ∀ name ∈ consultedNames mod, external name = external' name) :
    computeFunctionLifetimeSummaries mod external =
      computeFunctionLifetimeSummaries mod external' := by
  have heval : ∀ v ∈ summaryOrder mod,
      (summarySystem mod external).eval v = (summarySystem mod external').eval v := by
    intro v hv
    obtain ⟨F, hF, -⟩ := hasSummary_iff.mp (mem_summaryOrder.mp hv)
    funext values
    simp only [summarySystem, hF, Option.map_some, Option.getD_some]
    apply buildFunctionLifetimeSummary_congr
    intro e
    refine exists_congr fun call => and_congr_right fun hcall => ?_
    rw [mem_effects, mem_effects]
    refine exists_congr fun w => exists_congr fun callee => and_congr_right fun hw =>
      and_congr_right fun hcallee => or_congr_left (and_congr_right fun hrules => ?_)
    have htaken : takenSummary mod values external w callee =
        takenSummary mod values external' w callee := by
      unfold takenSummary
      split_ifs with hused hstd
      · rfl
      · rfl
      · have hname : canonicalizeMangledName callee.name ∈ consultedNames mod := by
          refine List.mem_flatMap.mpr ⟨v, hv, List.mem_filterMap.mpr ⟨call, ?_, ?_⟩⟩
          · rwa [hF]
          · simp [consultedName, hrules, hw, hcallee, hused, hstd]
        rw [h _ hname]
    rw [htaken]
  unfold computeFunctionLifetimeSummaries
  have hsame : (summarySystem mod external).same = (summarySystem mod external').same := rfl
  rw [run_congr hsame heval]

/-! ## Modules with the same calls -/

section Shape

variable {mod mod' : Module}

theorem SameCalls.symm (h : SameCalls mod mod') : SameCalls mod' mod := Eq.symm h

theorem SameCalls.getElem? (h : SameCalls mod mod') {v : ℕ} {F : Function}
    (hF : mod[v]? = some F) : ∃ F', mod'[v]? = some F' ∧ F'.shape = F.shape := by
  have hv : (mod.map Function.shape)[v]? = (mod'.map Function.shape)[v]? := by rw [h]
  rw [List.getElem?_map, List.getElem?_map, hF, Option.map_some] at hv
  cases hF' : mod'[v]? with
  | none => simp [hF'] at hv
  | some F' => exact ⟨F', rfl, by simpa [hF'] using hv.symm⟩

theorem SameCalls.calls (h : SameCalls mod mod') {v w : ℕ} (hvw : Calls mod v w) :
    Calls mod' v w := by
  obtain ⟨hw, F, hF, hdef, hcall⟩ := hvw
  obtain ⟨F', hF', hshape⟩ := h.getElem? hF
  simp only [Function.shape, Prod.mk.injEq] at hshape
  obtain ⟨-, hdecl, -, -, hcalls⟩ := hshape
  refine ⟨?_, F', hF', hdecl.trans hdef, hcalls ▸ hcall⟩
  have hlen := congrArg List.length h
  simp only [List.length_map] at hlen
  omega

theorem SameCalls.hasSummary (h : SameCalls mod mod') {v : ℕ} (hv : hasSummary mod v = true) :
    hasSummary mod' v = true := by
  obtain ⟨F, hF, hdef, hstd⟩ := hasSummary_iff.mp hv
  obtain ⟨F', hF', hshape⟩ := h.getElem? hF
  simp only [Function.shape, Prod.mk.injEq] at hshape
  obtain ⟨hname, hdecl, -⟩ := hshape
  exact hasSummary_iff.mpr ⟨F', hF', hdecl.trans hdef, hname ▸ hstd⟩

theorem SameCalls.summaryUsed (h : SameCalls mod mod') {w : ℕ} (hw : summaryUsed mod w = true) :
    summaryUsed mod' w = true := by
  have hsum := h.hasSummary (summaryUsed_hasSummary hw)
  obtain ⟨F, hF, -⟩ := hasSummary_iff.mp (summaryUsed_hasSummary hw)
  obtain ⟨F', hF', hshape⟩ := h.getElem? hF
  simp only [Function.shape, Prod.mk.injEq] at hshape
  obtain ⟨-, -, hctor, hdtor, -⟩ := hshape
  have hused := (Bool.and_eq_true_iff.mp hw).2
  rw [hF, Option.all_some] at hused
  unfold Resource.summaryUsed
  rw [hsum, hF', Option.all_some, hctor, hdtor, hused, Bool.true_and]

theorem SameCalls.acyclic (h : SameCalls mod mod') (hacyclic : Acyclic mod) : Acyclic mod' :=
  fun v hv => hacyclic v (Relation.TransGen.mono (fun _ _ hvw => h.symm.calls hvw) v v hv)

theorem SameCalls.propagates (h : SameCalls mod mod') {v w : ℕ} (hvw : Propagates mod v w) :
    Propagates mod' v w := ⟨h.calls hvw.1, h.hasSummary hvw.2.1, h.summaryUsed hvw.2.2⟩

theorem SameCalls.makesCalls (h : SameCalls mod mod') {v : ℕ} (hv : MakesCalls mod v) :
    MakesCalls mod' v := ⟨h.hasSummary hv.1, hv.2.imp fun _ => h.calls⟩

/-- The chains of calls of a function, with the number of calls of a function that is not defined
before its caller. -/
abbrev CallChain (mod : Module) : ℕ → ℕ → Prop :=
  DelayChain (Propagates mod) (fun v w => v ≤ w) (MakesCalls mod)

theorem SameCalls.callChain (h : SameCalls mod mod') {n v : ℕ} (hchain : CallChain mod n v) :
    CallChain mod' n v := by
  induction hchain with
  | source hv => exact .source (h.makesCalls hv)
  | early hvw hearly _ ih => exact .early (h.propagates hvw) hearly ih
  | late hvw hlate _ ih => exact .late (h.propagates hvw) hlate ih

end Shape

/-! ## Enough rounds -/

section Enough

variable {mod : Module} {external : CppString → Option FunctionLifetimeSummary}
variable {values : ℕ → FunctionLifetimeSummary}

/-- Final values are a fixpoint of the summaries. -/
theorem isSummaryFixpoint_iff :
    IsSummaryFixpoint mod external (functionSummaries mod values) ↔
      IsFixpoint (summarySystem mod external) (summaryOrder mod) values := by
  constructor
  · intro h v hv
    have hsum := mem_summaryOrder.mp hv
    obtain ⟨F, hF, -⟩ := hasSummary_iff.mp hsum
    have hfix := h v F hF hsum
    rw [functionSummaries, if_pos hsum, Option.some.injEq] at hfix
    simp only [summarySystem, hF, Option.map_some, Option.getD_some]
    exact hfix.symm
  · intro h v F hF hsum
    have hfix := h v (mem_summaryOrder.mpr hsum)
    simp only [summarySystem, hF, Option.map_some, Option.getD_some] at hfix
    rw [functionSummaries, if_pos hsum, hfix]

/-- **Enough rounds**: if no chain has more than seven delays, the values are final. -/
theorem run_isFixpoint (hacyclic : Acyclic mod) (h : ∀ n v, CallChain mod n v → n ≤ 7) :
    IsFixpoint (summarySystem mod external) (summaryOrder mod)
      (RoundRobin.run (summarySystem mod external) (summaryOrder mod) 8 fun _ => []) := by
  have hreads : ∀ v ∈ summaryOrder mod, ∀ σ τ : ℕ → FunctionLifetimeSummary,
      (∀ w, Propagates mod v w → σ w = τ w) →
        (summarySystem mod external).eval v σ = (summarySystem mod external).eval v τ :=
    fun v hv σ τ => eval_congr (mem_summaryOrder.mp hv)
  have hwf : WellFounded fun w v => Propagates mod v w :=
    Subrelation.wf (fun {_ _} h => h.1) (wellFounded_calls hacyclic)
  obtain ⟨φ, hφ⟩ := Graph.exists_solution hwf hreads fun _ => []
  have hfinal : ∀ v ∈ summaryOrder mod,
      RoundRobin.run (summarySystem mod external) (summaryOrder mod) 8 (fun _ => []) v = φ v := by
    intro v hv
    rw [run_eq_iterate summarySystem_lawful]
    have hstart : ∀ v ∈ summaryOrder mod, (∀ n, ¬ CallChain mod n v) → [] = φ v := by
      intro v hv hnone
      -- a function without calls has no effects
      have hsum := mem_summaryOrder.mp hv
      obtain ⟨F, hF, hdef, -⟩ := hasSummary_iff.mp hsum
      rw [← hφ v hv]
      refine (List.eq_nil_iff_forall_not_mem.mpr fun e he => ?_).symm
      obtain ⟨call, hcall, hcalleff⟩ := (mem_eval hF).mp he
      obtain ⟨w, callee, hw, hcallee, -⟩ := mem_effects.mp hcalleff
      exact hnone 0 (.source ⟨hsum, w, (List.getElem?_eq_some_iff.mp hcallee).1, F, hF, hdef,
        hw ▸ List.mem_map_of_mem hcall⟩)
    exact iterate_settled summarySystem_lawful sorted_summaryOrder hφ hreads
      (fun v _ w hw => mem_summaryOrder.mpr (summaryUsed_hasSummary hw.2.2)) hstart 8 v hv
      fun k hk => Nat.lt_succ_of_le (h k v hk)
  intro v hv
  rw [hfinal v hv, ← hφ v hv]
  exact hreads v hv _ _ fun w hw =>
    hfinal w (mem_summaryOrder.mpr (summaryUsed_hasSummary hw.2.2))

/-- **Final values are the attributed effects.** -/
theorem mem_iff_attributed (hacyclic : Acyclic mod)
    (h : IsFixpoint (summarySystem mod external) (summaryOrder mod) values) {v : ℕ}
    (hv : hasSummary mod v = true) {e : ParamLifetimeEffect} :
    e ∈ values v ↔ Attributed mod external v e := by
  constructor
  · induction v using (wellFounded_calls hacyclic).induction generalizing e with
    | _ v ih =>
      intro he
      obtain ⟨F, hF, hdef, -⟩ := hasSummary_iff.mp hv
      rw [← h v (mem_summaryOrder.mpr hv), mem_eval hF] at he
      obtain ⟨call, hcall, heff⟩ := he
      obtain ⟨w, callee, hw, hcallee, ⟨hrules, e', he', hmap⟩ | hrule⟩ := mem_effects.mp heff
      · by_cases hused : summaryUsed mod w = true
        · rw [takenSummary, if_pos hused] at he'
          have hvw : Calls mod v w := ⟨(List.getElem?_eq_some_iff.mp hcallee).1, F, hF, hdef,
            hw ▸ List.mem_map_of_mem hcall⟩
          exact .wrapper hF hcall hrules hw hused (ih w hvw (summaryUsed_hasSummary hused) he') hmap
        · refine .own hF hcall (mem_effects.mpr ⟨w, callee, hw, hcallee, Or.inl ⟨hrules, e', ?_,
            hmap⟩⟩)
          rwa [takenSummary, if_neg hused] at he' ⊢
      · exact .own hF hcall (mem_effects.mpr ⟨w, callee, hw, hcallee, Or.inr hrule⟩)
  · intro hattr
    induction hattr with
    | @own v F call e hF hcall heff =>
      rw [← h v (mem_summaryOrder.mpr hv), mem_eval hF]
      refine ⟨call, hcall, ?_⟩
      obtain ⟨w, callee, hw, hcallee, ⟨hrules, e', he', hmap⟩ | hrule⟩ := mem_effects.mp heff
      · refine mem_effects.mpr ⟨w, callee, hw, hcallee, Or.inl ⟨hrules, e', ?_, hmap⟩⟩
        unfold takenSummary at he' ⊢
        split_ifs at he' ⊢
        · simp at he'
        · exact he'
        · exact he'
      · exact mem_effects.mpr ⟨w, callee, hw, hcallee, Or.inr hrule⟩
    | @wrapper v w F call e e' hF hcall hrules hw hused _ hmap ih =>
      obtain ⟨callee, hcallee, -⟩ := hasSummary_iff.mp (summaryUsed_hasSummary hused)
      rw [← h v (mem_summaryOrder.mpr hv), mem_eval hF]
      refine ⟨call, hcall, mem_effects.mpr ⟨w, callee, hw, hcallee, Or.inl ⟨hrules, e', ?_, hmap⟩⟩⟩
      rw [takenSummary, if_pos hused]
      exact ih (summaryUsed_hasSummary hused)

end Enough

/-! ## Too few rounds

A module with the same calls whose effects count how often they have been delayed. -/

section TooFew

/-- The function makes calls. -/
def makesCalls (mod : Module) (w : ℕ) : Bool :=
  hasSummary mod w &&
    (mod[w]?).any fun G => G.calls.any fun call => call.callee.any (· < mod.length)

/-- The callee has a summary that is taken over, and makes calls itself. -/
def passesOn (mod : Module) (call : CallSite) : Bool :=
  call.callee.any fun w => summaryUsed mod w && makesCalls mod w

/-- A call of `v` that takes over the effects of its callee, with a larger offset if the callee
delays them, or releases an argument if there is nothing to take over. -/
def countCall (mod : Module) (v : ℕ) (call : CallSite) : CallSite where
  callee := call.callee
  isCalledFunction := call.isCalledFunction
  rules := if passesOn mod call then [] else [⟨.releaseArg, [], true, some ⟨0, 0⟩, none, false⟩]
  isVoid := true
  reachesReturn := false
  storeDests := []
  mapStorage e := some (⟨0, e.offset + if call.callee.any (v ≤ ·) then 1 else 0⟩, false)

/-- The module in which effects count their delays. -/
def countModule (mod : Module) : Module :=
  mod.mapIdx fun v F => { F with calls := F.calls.map (countCall mod v) }

/-- Some release has been delayed `k` times. -/
def Delayed (k : ℕ) (effects : FunctionLifetimeSummary) : Prop :=
  ∃ e ∈ effects, e.action = .releaseArg ∧ e.offset = k

variable {mod : Module} {external : CppString → Option FunctionLifetimeSummary}
variable {values : ℕ → FunctionLifetimeSummary}

theorem getElem?_countModule (v : ℕ) : (countModule mod)[v]? =
    (mod[v]?).map fun F => { F with calls := F.calls.map (countCall mod v) } :=
  List.getElem?_mapIdx

theorem sameCalls_countModule : SameCalls mod (countModule mod) := by
  refine List.ext_getElem? fun v => ?_
  rw [List.getElem?_map, List.getElem?_map, getElem?_countModule, Option.map_map]
  cases mod[v]? with
  | none => rfl
  | some F => simp [Function.shape, countCall]

theorem makesCalls_iff {w : ℕ} : makesCalls mod w = true ↔ MakesCalls mod w := by
  rw [makesCalls, Bool.and_eq_true, MakesCalls]
  refine and_congr_right fun hw => ?_
  obtain ⟨F, hF, hdef, -⟩ := hasSummary_iff.mp hw
  rw [hF, Option.any_some, List.any_eq_true]
  constructor
  · rintro ⟨call, hcall, hany⟩
    cases hu : call.callee with
    | none => simp [hu] at hany
    | some u =>
      rw [hu, Option.any_some, decide_eq_true_eq] at hany
      exact ⟨u, hany, F, hF, hdef, hu ▸ List.mem_map_of_mem hcall⟩
  · rintro ⟨u, hlt, G, hG, -, hcall⟩
    obtain ⟨call, hcall, hu⟩ := List.mem_map.mp hcall
    rw [hF, Option.some.injEq] at hG
    exact ⟨call, hG ▸ hcall, by simp [hu, hlt]⟩

theorem CallChain.makesCalls {n v : ℕ} (h : CallChain mod n v) : MakesCalls mod v := by
  cases h with
  | source h => exact h
  | early h => exact ⟨h.2.1, _, h.1⟩
  | late h => exact ⟨h.2.1, _, h.1⟩

/-- A release that is passed on gains the delay of its call. -/
theorem mem_mapEffect_countCall {v : ℕ} {call : CallSite} {e e' : ParamLifetimeEffect}
    (haction : e.action = .releaseArg) (h : e ∈ (countCall mod v call).mapEffect e') :
    e'.action = .releaseArg ∧
      e.offset = e'.offset + if call.callee.any (v ≤ ·) then 1 else 0 := by
  obtain ⟨action, argIndex, offset, viaPointerSlot, resourceKind⟩ := e'
  cases action
  · simp only [CallSite.mapEffect, countCall, List.mem_singleton] at h
    simp [h] at haction
  · simp [CallSite.mapEffect, countCall] at h
  · simp only [CallSite.mapEffect, countCall, List.mem_singleton] at h
    exact ⟨rfl, by rw [h]⟩

/-- What is evaluated has a delay of zero, or one more or the same as the effect that it comes
from. -/
theorem delayed_eval {v k : ℕ} (hv : hasSummary (countModule mod) v = true)
    (h : Delayed k ((summarySystem (countModule mod) external).eval v values)) :
    k = 0 ∨ ∃ w, (¬ v ≤ w ∧ Delayed k (values w)) ∨
      (v ≤ w ∧ ∃ j, k = j + 1 ∧ Delayed j (values w)) := by
  obtain ⟨e, he, haction, rfl⟩ := h
  obtain ⟨F', hF', -⟩ := hasSummary_iff.mp hv
  obtain ⟨call', hcall', heff⟩ := (mem_eval hF').mp he
  rw [getElem?_countModule] at hF'
  obtain ⟨F, hF, rfl⟩ := Option.map_eq_some_iff.mp hF'
  obtain ⟨call, hcall, rfl⟩ := List.mem_map.mp hcall'
  obtain ⟨w, callee, hw, hcallee, ⟨hrules, e', he', hmap⟩ | ⟨rule, hrule, he⟩⟩ :=
    mem_effects.mp heff
  · have hpass : passesOn mod call = true := by
      by_contra hpass
      simp [countCall, hpass] at hrules
    have hw' : call.callee = some w := hw
    rw [passesOn, hw', Option.any_some, Bool.and_eq_true] at hpass
    rw [takenSummary, if_pos (sameCalls_countModule.summaryUsed hpass.1)] at he'
    obtain ⟨haction', hoff⟩ := mem_mapEffect_countCall haction hmap
    rw [hw', Option.any_some] at hoff
    refine Or.inr ⟨w, ?_⟩
    by_cases hle : v ≤ w
    · exact Or.inr ⟨hle, e'.offset, by simpa [hle] using hoff, e', he', haction', rfl⟩
    · exact Or.inl ⟨hle, e', he', haction', by simpa [hle] using hoff.symm⟩
  · left
    simp only [countCall] at hrule
    split_ifs at hrule
    · simp at hrule
    · rw [List.mem_singleton.mp hrule] at he
      simp only [MatchedRule.effects, List.mem_singleton] at he
      rw [he]

section Fixpoint

variable (h : IsFixpoint (summarySystem (countModule mod) external)
  (summaryOrder (countModule mod)) values)
include h

/-- What a call adds to the final value of its caller: the releases of the callee with its delay, or
one without a delay. -/
theorem delayed_of_call {v w : ℕ} {F : Function} (hF : mod[v]? = some F)
    (hv : hasSummary mod v = true) {call : CallSite} (hcall : call ∈ F.calls)
    (hw : call.callee = some w) (hlt : w < mod.length) :
    (passesOn mod call = true → ∀ k, Delayed k (values w) →
        Delayed (k + if v ≤ w then 1 else 0) (values v)) ∧
      (passesOn mod call = false → Delayed 0 (values v)) := by
  have hF' : (countModule mod)[v]? = some { F with calls := F.calls.map (countCall mod v) } := by
    rw [getElem?_countModule, hF, Option.map_some]
  obtain ⟨callee, hcallee⟩ : ∃ callee, (countModule mod)[w]? = some callee := by
    rw [getElem?_countModule, List.getElem?_eq_getElem hlt]
    exact ⟨_, rfl⟩
  have hadd : ∀ e, e ∈ (countCall mod v call).effects (countModule mod)
      (functionSummaries (countModule mod) values) external → e ∈ values v := by
    intro e he
    rw [← h v (mem_summaryOrder.mpr (sameCalls_countModule.hasSummary hv)), mem_eval hF']
    exact ⟨_, List.mem_map_of_mem hcall, he⟩
  refine ⟨fun hpass k ⟨e, he, haction, hoff⟩ => ?_, fun hpass => ?_⟩
  · have hused : summaryUsed mod w = true := by
      rw [passesOn, hw, Option.any_some, Bool.and_eq_true] at hpass
      exact hpass.1
    refine ⟨⟨.releaseArg, 0, k + if v ≤ w then 1 else 0, false, e.resourceKind⟩,
      hadd _ (mem_effects.mpr ⟨w, callee, hw, hcallee, Or.inl ⟨if_pos hpass, e, ?_, ?_⟩⟩), rfl, rfl⟩
    · rwa [takenSummary, if_pos (sameCalls_countModule.summaryUsed hused)]
    · obtain ⟨action, argIndex, offset, viaPointerSlot, resourceKind⟩ := e
      subst haction hoff
      simp [CallSite.mapEffect, countCall, hw]
  · refine ⟨⟨.releaseArg, 0, 0, false, []⟩, hadd _ (mem_effects.mpr ⟨w, callee, hw, hcallee,
      Or.inr ⟨⟨.releaseArg, [], true, some ⟨0, 0⟩, none, false⟩, ?_, ?_⟩⟩), rfl, rfl⟩
    · simp [countCall, hpass]
    · simp [MatchedRule.effects]

/-- A function that makes calls has some release in the end. -/
theorem exists_delayed (hacyclic : Acyclic mod) {v : ℕ} (hv : MakesCalls mod v) :
    ∃ k, Delayed k (values v) := by
  induction v using (wellFounded_calls hacyclic).induction with
  | _ v ih =>
    obtain ⟨hsum, w, hvw⟩ := hv
    obtain ⟨hlt, F, hF, hdef, hcall⟩ := id hvw
    obtain ⟨call, hcall, hw⟩ := List.mem_map.mp hcall
    obtain ⟨hpass, hrule⟩ := delayed_of_call h hF hsum hcall hw hlt
    cases hp : passesOn mod call with
    | false => exact ⟨0, hrule hp⟩
    | true =>
      have hmakes := hp
      rw [passesOn, hw, Option.any_some, Bool.and_eq_true] at hmakes
      obtain ⟨k, hk⟩ := ih w hvw (makesCalls_iff.mp hmakes.2)
      exact ⟨_, hpass hp k hk⟩

/-- In the end the delays of a chain arrive. -/
theorem delayed_of_callChain (hacyclic : Acyclic mod) {n v : ℕ} (hchain : CallChain mod n v) :
    ∃ k, n ≤ k ∧ Delayed k (values v) := by
  have hstep : ∀ {v w : ℕ}, Propagates mod v w → MakesCalls mod w → ∀ k, Delayed k (values w) →
      Delayed (k + if v ≤ w then 1 else 0) (values v) := by
    intro v w hvw hmakes
    obtain ⟨⟨hlt, F, hF, hdef, hcall⟩, hsum, hused⟩ := hvw
    obtain ⟨call, hcall, hw⟩ := List.mem_map.mp hcall
    refine (delayed_of_call h hF hsum hcall hw hlt).1 ?_
    rw [passesOn, hw, Option.any_some, hused, makesCalls_iff.mpr hmakes, Bool.and_true]
  induction hchain with
  | source hv =>
    obtain ⟨k, hk⟩ := exists_delayed h hacyclic hv
    exact ⟨k, Nat.zero_le k, hk⟩
  | @early n v w hvw hearly hchain ih =>
    obtain ⟨k, hle, hk⟩ := ih
    have hk' := hstep hvw (CallChain.makesCalls hchain) k hk
    rw [if_neg hearly] at hk'
    exact ⟨k, hle, hk'⟩
  | @late n v w hvw hlate hchain ih =>
    obtain ⟨k, hle, hk⟩ := ih
    have hk' := hstep hvw (CallChain.makesCalls hchain) k hk
    rw [if_pos hlate] at hk'
    exact ⟨k + 1, Nat.succ_le_succ hle, hk'⟩

end Fixpoint

/-- Eight rounds do not reach the final values if a chain has more than seven delays. -/
theorem le_of_run_isFixpoint (hacyclic : Acyclic mod)
    (h : IsFixpoint (summarySystem (countModule mod) external) (summaryOrder (countModule mod))
      (RoundRobin.run (summarySystem (countModule mod) external) (summaryOrder (countModule mod)) 8
        fun _ => [])) {n v : ℕ} (hchain : CallChain mod n v) : n ≤ 7 := by
  obtain ⟨k, hle, hk⟩ := delayed_of_callChain h hacyclic hchain
  rw [run_eq_iterate summarySystem_lawful] at hk
  have hlt := iterate_carries summarySystem_lawful sorted_summaryOrder (T := Delayed)
    (fun k v ⟨e, he, _⟩ => absurd he List.not_mem_nil)
    (fun v hv τ k => delayed_eval (mem_summaryOrder.mp hv)) 8 k v hk
  omega

end TooFew

/-- **When the summaries are final**: the summaries of every module with these calls are a fixpoint,
and consist of the effects that reach a function through any number of wrappers, iff no chain of
calls leads more than seven times to a function that is not defined before its caller.

**Proof sketch.** Eight rounds carry an effect over seven such calls. In the module with the same
calls whose effects count their delays, a chain with more of them is not finished. -/
theorem computeFunctionLifetimeSummaries_iff (mod : Module) (hacyclic : Acyclic mod) :
    (∀ (mod' : Module) (external : CppString → Option FunctionLifetimeSummary),
        SameCalls mod mod' →
          IsSummaryFixpoint mod' external (computeFunctionLifetimeSummaries mod' external) ∧
            ∀ v summary, computeFunctionLifetimeSummaries mod' external v = some summary →
              ∀ e, e ∈ summary ↔ Attributed mod' external v e) ↔
      ∀ n v, CallChain mod n v → n ≤ 7 := by
  constructor
  · intro h n v hchain
    have hfix := (h (countModule mod) (fun _ => none) sameCalls_countModule).1
    exact le_of_run_isFixpoint hacyclic (isSummaryFixpoint_iff.mp hfix) hchain
  · intro h mod' external hsame
    have hacyclic' := hsame.acyclic hacyclic
    have hfix : IsFixpoint (summarySystem mod' external) (summaryOrder mod') _ :=
      run_isFixpoint hacyclic' fun n v hchain => h n v (hsame.symm.callChain hchain)
    refine ⟨isSummaryFixpoint_iff.mpr hfix, fun v summary hsummary e => ?_⟩
    rw [computeFunctionLifetimeSummaries, functionSummaries] at hsummary
    split_ifs at hsummary with hv
    rw [← Option.some.inj hsummary]
    exact mem_iff_attributed hacyclic' hfix hv

/-! ## Chains of wrappers -/

/-- A function that releases its argument by calling another one. -/
def wrapper (i : ℕ) (rules : List MatchedRule) : Function where
  name := List.replicate (i + 1) 'f'
  isDeclaration := false
  hasLocalLinkage := false
  isCtor := false
  isDtor := false
  shouldAnalyze := true
  calls := [⟨some (i + 1), true, rules, true, false, [], fun e => some (⟨0, e.offset⟩, false)⟩]

/-- A chain of `n + 1` wrappers, callers first, around a function that releases its argument. -/
def wrapperChain (n : ℕ) : Module :=
  (List.range n).map (wrapper · []) ++
    [wrapper n [⟨.releaseArg, ['h'], true, some ⟨0, 0⟩, none, false⟩],
      ⟨['r'], true, false, false, false, true, []⟩]

/-- Every wrapper calls the next function. -/
theorem calls_wrapperChain {n v w : ℕ} (h : Calls (wrapperChain n) v w) :
    w = v + 1 ∧ v ≤ n := by
  obtain ⟨hlt, F, hF, hdef, hcall⟩ := h
  have hlen : (wrapperChain n).length = n + 2 := by simp [wrapperChain]
  have hv := (List.getElem?_eq_some_iff.mp hF).1
  have hcases : v < n ∨ v = n ∨ v = n + 1 := by omega
  rcases hcases with hv | rfl | rfl
  · rw [wrapperChain, List.getElem?_append_left (by simpa using hv), List.getElem?_map,
      List.getElem?_range hv, Option.map_some, Option.some.injEq] at hF
    subst hF
    simp only [wrapper, List.map_cons, List.map_nil, List.mem_singleton, Option.some.injEq] at hcall
    omega
  · rw [wrapperChain, List.getElem?_append_right (by simp)] at hF
    simp only [List.length_map, List.length_range, Nat.sub_self, List.getElem?_cons_zero,
      Option.some.injEq] at hF
    subst hF
    simp only [wrapper, List.map_cons, List.map_nil, List.mem_singleton, Option.some.injEq] at hcall
    omega
  · rw [wrapperChain, List.getElem?_append_right (by simp)] at hF
    simp only [List.length_map, List.length_range, Nat.add_sub_cancel_left,
      List.getElem?_cons_succ, List.getElem?_cons_zero, Option.some.injEq] at hF
    subst hF
    simp at hdef

theorem acyclic_wrapperChain (n : ℕ) : Acyclic (wrapperChain n) := by
  have hlt : ∀ {v w}, Relation.TransGen (Calls (wrapperChain n)) v w → v < w := by
    intro v w h
    induction h with
    | single h =>
      have := calls_wrapperChain h
      omega
    | tail _ h ih =>
      have := calls_wrapperChain h
      omega
  exact fun v hv => absurd (hlt hv) (lt_irrefl v)

/-- Eight wrappers are within the bound. -/
theorem callChain_wrapperChain_le {k v : ℕ} (h : CallChain (wrapperChain 7) k v) : k + v ≤ 7 := by
  induction h with
  | source h =>
    obtain ⟨-, w, hw⟩ := h
    have := calls_wrapperChain hw
    omega
  | early h hearly _ ih =>
    have := calls_wrapperChain h.1
    omega
  | late h _ _ ih =>
    have := calls_wrapperChain h.1
    omega

theorem computeFunctionLifetimeSummaries_iff_wrappers :
    IsSummaryFixpoint (wrapperChain 7) (fun _ => none)
      (computeFunctionLifetimeSummaries (wrapperChain 7) fun _ => none) :=
  ((computeFunctionLifetimeSummaries_iff (wrapperChain 7) (acyclic_wrapperChain 7)).mpr
    (fun _ _ h => (Nat.le_add_right _ _).trans (callChain_wrapperChain_le h)) _ _ rfl).1

/-- **Nine wrappers**: the outermost one has no effects, although its callee releases its
argument. -/
theorem not_isSummaryFixpoint_wrapperChain :
    Acyclic (wrapperChain 8) ∧ ¬ IsSummaryFixpoint (wrapperChain 8) (fun _ => none)
      (computeFunctionLifetimeSummaries (wrapperChain 8) fun _ => none) := by
  refine ⟨acyclic_wrapperChain 8, fun h => ?_⟩
  have hfix := h 0 (wrapper 0 []) rfl (by decide)
  revert hfix
  decide +kernel

end StackAnalyzer.Resource
