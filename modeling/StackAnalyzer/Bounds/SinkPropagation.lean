import StackAnalyzer.Bounds.SizeMinusK
import StackAnalyzer.Dataflow.FactRounds
import StackAnalyzer.Lists.Enumerations

set_option relaxedAutoImplicit false
set_option autoImplicit false

/-!
# Propagating sinks to wrappers

A function that passes two of its parameters on to a sink is a sink itself. The second pass of
`buildSizeMinusKSummaries` looks for such functions until nothing changes. It adds to the sinks of a
function while it goes through those of the callee. If the function calls itself, these are the same
vector, and adding to it makes the end of the loop invalid. Then nothing is known of the result.

As long as this does not happen, the summaries are the chains of calls that end in a known sink.

## Main definitions

* `StackAnalyzer.Bounds.SinkChain` — chains of calls that end in a known sink.
* `StackAnalyzer.Bounds.runRound` — a round of the second pass, which may be undefined.
* `StackAnalyzer.Bounds.AtCall` — the states in which the second pass comes to a call.

## Main results

* `StackAnalyzer.Bounds.mem_buildSizeMinusKSummaries_iff` — without the growth of vectors, the
  summaries are the chains.
* `StackAnalyzer.Bounds.summariesExact_iff` — when the pass ends with the chains.
* `StackAnalyzer.Bounds.neverGrows_iff` — when no vector and no map grows below the loop.
-/

namespace StackAnalyzer.Bounds

open CrossTU Maps Llvm FactRounds

variable {F V B : Type*} [DecidableEq F] [DecidableEq V] [Fintype V]
  (mod : Module F V B) (oracles : Oracles F V)

/-! ## Chains of calls -/

/-- **Chains of calls that end in a known sink**: a function passes two of its parameters on to a
known sink, or to a function that does. -/
inductive SinkChain : F → SizeMinusKSink → Prop
  | direct {f : F} {call : CallBase V F} {known : SizeMinusKSink × CppString}
      {passed : SizeMinusKSink} : f ∈ definedFunctions mod → call ∈ callsOf mod f →
      getKnownSinkCallInfo mod oracles call = some known →
      passedSink mod (argSlots mod f) call known.1 = some passed → SinkChain f passed
  | wrapper {f callee : F} {call : CallBase V F} {sink passed : SizeMinusKSink} :
      f ∈ definedFunctions mod → call ∈ callsOf mod f → call.calledFunction = some callee →
      SinkChain callee sink → passedSink mod (argSlots mod f) call sink = some passed →
      SinkChain f passed

/-! ## The second pass, with undefined behaviour -/

section Code

/-- The body of the loop over the sinks of a callee. Adding to the vector of the loop makes its end
invalid, and the loop compares with it next. -/
def propagateSink (f callee : F) (call : CallBase V F) (state : SizeMinusKSummaryMap F × Bool)
    (sink : SizeMinusKSink) : Option (SizeMinusKSummaryMap F × Bool) :=
  match passedSink mod (argSlots mod f) call sink with
  | none => some state
  | some passed =>
    if callee = f ∧ passed ∉ (state.1.find f).getD [] then none
    else some (addSummarySink f state passed)

/-- A call in the second pass. -/
def runCall (state : SizeMinusKSummaryMap F × Bool) (site : F × CallBase V F) :
    Option (SizeMinusKSummaryMap F × Bool) :=
  match site.2.calledFunction with
  | none => some state
  | some callee =>
    if mod.isDeclaration callee then some state
    else ((state.1.find callee).getD []).foldlM (propagateSink mod site.1 callee site.2) state

/-- The calls of all functions, in order. -/
def callSites : List (F × CallBase V F) :=
  (definedFunctions mod).flatMap fun f => (callsOf mod f).map (Prod.mk f)

/-- A round of the second pass. -/
def runRound (summaries : SizeMinusKSummaryMap F) : Option (SizeMinusKSummaryMap F × Bool) :=
  (callSites mod).foldlM (runCall mod) (summaries, false)

/-- The summaries at the beginning of a round. -/
inductive AtRound : SizeMinusKSummaryMap F → Prop
  | first : AtRound (directSinks mod oracles)
  | next {summaries summaries' : SizeMinusKSummaryMap F} : AtRound summaries →
      runRound mod summaries = some (summaries', true) → AtRound summaries'

/-- **The states in which the second pass comes to a call.** -/
def AtCall (f : F) (call : CallBase V F) (state : SizeMinusKSummaryMap F × Bool) : Prop :=
  ∃ summaries before after, AtRound mod oracles summaries ∧
    callSites mod = before ++ (f, call) :: after ∧
    before.foldlM (runCall mod) (summaries, false) = some state

/-- **The pass is exact**: it ends, and a function has the pairs of the chains. -/
def SummariesExact : Prop :=
  ∃ fuel summaries, rounds (runRound mod) fuel (directSinks mod oracles) = some summaries ∧
    ∀ f sink, sink ∈ (summaries.find f).getD [] ↔ SinkChain mod oracles f sink

/-- A function passes only pairs on to itself that it has. -/
def KeepsOwnPairs (f : F) (call : CallBase V F) (state : SizeMinusKSummaryMap F × Bool) : Prop :=
  call.calledFunction = some f → ∀ sink ∈ (state.1.find f).getD [], ∀ passed,
    passedSink mod (argSlots mod f) call sink = some passed → passed ∈ (state.1.find f).getD []

end Code

/-! ## Adding sinks -/

section Adding

/-- The pairs of a map. -/
def pairsOf (summaries : SizeMinusKSummaryMap F) : Set (F × SizeMinusKSink) :=
  {p | p.2 ∈ (summaries.find p.1).getD []}

variable {mod oracles} {f : F} {state : SizeMinusKSummaryMap F × Bool}

/-- A sink that is there is not added. -/
theorem addSummarySink_of_mem {sink : SizeMinusKSink} (h : sink ∈ (state.1.find f).getD []) :
    addSummarySink f state sink = state := if_pos h

/-- Sinks that are there are not added. -/
theorem foldl_addSummarySink_of_mem {sinks : List SizeMinusKSink}
    (h : ∀ sink ∈ sinks, sink ∈ (state.1.find f).getD []) :
    sinks.foldl (addSummarySink f) state = state := by
  induction sinks with
  | nil => rfl
  | cons sink sinks ih =>
    obtain ⟨hsink, h⟩ := List.forall_mem_cons.mp h
    rw [List.foldl_cons, addSummarySink_of_mem hsink, ih h]

/-- A sink that is not there is added at the end. -/
theorem addSummarySink_of_notMem {sink : SizeMinusKSink}
    (h : sink ∉ (state.1.find f).getD []) : addSummarySink f state sink =
      (state.1.assign f ((state.1.find f).getD [] ++ [sink]), true) := if_neg h

/-- A sink is added. -/
theorem pairsOf_addSummarySink (sink : SizeMinusKSink) :
    pairsOf (addSummarySink f state sink).1 = insert (f, sink) (pairsOf state.1) := by
  by_cases h : sink ∈ (state.1.find f).getD []
  · rw [addSummarySink_of_mem h, Set.insert_eq_of_mem]
    exact h
  · rw [addSummarySink_of_notMem h]
    ext ⟨g, x⟩
    by_cases hg : g = f
    · subst hg
      simp [pairsOf, EntryMap.find_assign, or_comm]
    · simp [pairsOf, EntryMap.find_assign, hg, Ne.symm hg]

/-- Whether a sink is new is recorded. -/
theorem addSummarySink_unchanged_iff (sink : SizeMinusKSink) :
    (addSummarySink f state sink).2 = false ↔
      state.2 = false ∧ (f, sink) ∈ pairsOf state.1 := by
  by_cases h : sink ∈ (state.1.find f).getD []
  · rw [addSummarySink_of_mem h]
    exact (and_iff_left h).symm
  · rw [addSummarySink_of_notMem h]
    exact iff_of_false (by simp) fun hmem => h hmem.2

/-- Sinks are added. -/
theorem pairsOf_foldl (sinks : List SizeMinusKSink) (state : SizeMinusKSummaryMap F × Bool) :
    pairsOf (sinks.foldl (addSummarySink f) state).1 =
      pairsOf state.1 ∪ {p | p.1 = f ∧ p.2 ∈ sinks} := by
  induction sinks generalizing state with
  | nil => simp
  | cons sink sinks ih =>
    rw [List.foldl_cons, ih, pairsOf_addSummarySink]
    ext ⟨g, x⟩
    simp only [Set.mem_union, Set.mem_insert_iff, Set.mem_ofPred_eq, Prod.mk.injEq, List.mem_cons]
    tauto

/-- Whether one of the sinks is new is recorded. -/
theorem foldl_unchanged_iff (sinks : List SizeMinusKSink)
    (state : SizeMinusKSummaryMap F × Bool) :
    (sinks.foldl (addSummarySink f) state).2 = false ↔
      state.2 = false ∧ ∀ sink ∈ sinks, (f, sink) ∈ pairsOf state.1 := by
  induction sinks generalizing state with
  | nil => simp
  | cons sink sinks ih =>
    rw [List.foldl_cons, ih, addSummarySink_unchanged_iff, pairsOf_addSummarySink,
      List.forall_mem_cons, and_assoc]
    refine and_congr_right fun _ => and_congr_right fun hmem => ?_
    rw [Set.insert_eq_of_mem hmem]

/-- The first pass finds the chains of one call. -/
theorem mem_directSinks_iff {p : F × SizeMinusKSink} : p ∈ pairsOf (directSinks mod oracles) ↔
    p.1 ∈ definedFunctions mod ∧ ∃ call ∈ callsOf mod p.1, ∃ known,
      getKnownSinkCallInfo mod oracles call = some known ∧
      passedSink mod (argSlots mod p.1) call known.1 = some p.2 := by
  have hfold : ∀ (fs : List F) (state : SizeMinusKSummaryMap F × Bool),
      p ∈ pairsOf (fs.foldl (fun state f =>
          ((callsOf mod f).filterMap fun call =>
            (getKnownSinkCallInfo mod oracles call).bind fun known =>
              passedSink mod (argSlots mod f) call known.1).foldl (addSummarySink f) state)
          state).1 ↔
        p ∈ pairsOf state.1 ∨ p.1 ∈ fs ∧ ∃ call ∈ callsOf mod p.1, ∃ known,
          getKnownSinkCallInfo mod oracles call = some known ∧
          passedSink mod (argSlots mod p.1) call known.1 = some p.2 := by
    intro fs
    induction fs with
    | nil => simp
    | cons f fs ih =>
      intro state
      rw [List.foldl_cons, ih, pairsOf_foldl]
      simp only [Set.mem_union, Set.mem_ofPred_eq, List.mem_filterMap, Option.bind_eq_some_iff,
        List.mem_cons]
      constructor
      · rintro ((h | ⟨rfl, h⟩) | ⟨hmem, h⟩)
        · exact Or.inl h
        · exact Or.inr ⟨Or.inl rfl, h⟩
        · exact Or.inr ⟨Or.inr hmem, h⟩
      · rintro (h | ⟨hmem | hmem, h⟩)
        · exact Or.inl (Or.inl h)
        · subst hmem
          exact Or.inl (Or.inr ⟨rfl, h⟩)
        · exact Or.inr ⟨hmem, h⟩
  rw [directSinks, hfold]
  exact or_iff_right (by simp [pairsOf])

end Adding

/-! ## The loop over the sinks of a callee -/

section Loop

variable {mod} {f callee : F} {call : CallBase V F} {state : SizeMinusKSummaryMap F × Bool}

/-- What the body of the loop does if the vector of the loop does not grow. -/
theorem propagateSink_eq {sink : SizeMinusKSink}
    (h : callee = f → ∀ passed, passedSink mod (argSlots mod f) call sink = some passed →
      passed ∈ (state.1.find f).getD []) :
    propagateSink mod f callee call state sink =
      some (((passedSink mod (argSlots mod f) call sink).toList).foldl (addSummarySink f) state) := by
  unfold propagateSink
  cases hpassed : passedSink mod (argSlots mod f) call sink with
  | none => rfl
  | some passed => exact if_neg fun hgrows => hgrows.2 (h hgrows.1 passed hpassed)

/-- The loop of a call of another function. -/
theorem foldlM_propagateSink_of_ne (hne : callee ≠ f) (sinks : List SizeMinusKSink)
    (state : SizeMinusKSummaryMap F × Bool) :
    sinks.foldlM (propagateSink mod f callee call) state =
      some ((sinks.filterMap (passedSink mod (argSlots mod f) call)).foldl (addSummarySink f)
        state) := by
  induction sinks generalizing state with
  | nil => rfl
  | cons sink sinks ih =>
    rw [List.foldlM_cons, propagateSink_eq fun heq => absurd heq hne, Option.bind_eq_bind,
      Option.bind_some, ih, List.filterMap_cons]
    cases passedSink mod (argSlots mod f) call sink <;> rfl

/-- The vector of the loop grows. -/
theorem propagateSink_eq_none {sink passed : SizeMinusKSink}
    (hpassed : passedSink mod (argSlots mod f) call sink = some passed)
    (hmem : passed ∉ (state.1.find f).getD []) : propagateSink mod f f call state sink = none := by
  rw [propagateSink, hpassed]
  exact if_pos ⟨rfl, hmem⟩

/-- The body of the loop of a call of the function itself: it changes nothing where it is defined. -/
theorem propagateSink_self_iff {sink : SizeMinusKSink} {state' : SizeMinusKSummaryMap F × Bool} :
    propagateSink mod f f call state sink = some state' ↔
      state' = state ∧ ∀ passed, passedSink mod (argSlots mod f) call sink = some passed →
        passed ∈ (state.1.find f).getD [] := by
  by_cases hkeeps : ∀ passed, passedSink mod (argSlots mod f) call sink = some passed →
      passed ∈ (state.1.find f).getD []
  · rw [propagateSink_eq fun _ => hkeeps, and_iff_left hkeeps, Option.some_inj]
    cases hpassed : passedSink mod (argSlots mod f) call sink with
    | none => exact eq_comm
    | some passed =>
      rw [show (some passed).toList.foldl (addSummarySink f) state = state from
        addSummarySink_of_mem (hkeeps passed hpassed)]
      exact eq_comm
  · refine iff_of_false (fun h => ?_) fun h => hkeeps h.2
    push Not at hkeeps
    obtain ⟨passed, hpassed, hmem⟩ := hkeeps
    rw [propagateSink_eq_none hpassed hmem] at h
    cases h

/-- The loop of a call of the function itself. -/
theorem foldlM_propagateSink_self_iff (sinks : List SizeMinusKSink)
    {state' : SizeMinusKSummaryMap F × Bool} :
    sinks.foldlM (propagateSink mod f f call) state = some state' ↔
      state' = state ∧ ∀ sink ∈ sinks, ∀ passed,
        passedSink mod (argSlots mod f) call sink = some passed →
          passed ∈ (state.1.find f).getD [] := by
  induction sinks with
  | nil => simp [eq_comm]
  | cons sink sinks ih =>
    rw [List.foldlM_cons, Option.bind_eq_bind, Option.bind_eq_some_iff, List.forall_mem_cons]
    simp only [propagateSink_self_iff]
    constructor
    · rintro ⟨_, ⟨rfl, hkeeps⟩, h⟩
      obtain ⟨rfl, hkeeps'⟩ := ih.mp h
      exact ⟨rfl, hkeeps, hkeeps'⟩
    · rintro ⟨rfl, hkeeps, hkeeps'⟩
      exact ⟨_, ⟨rfl, hkeeps⟩, ih.mpr ⟨rfl, hkeeps'⟩⟩

/-- **A call is defined** if a function passes only pairs on to itself that it has. Then it is what
it is without the growth of vectors. -/
theorem runCall_eq_some_iff {site : F × CallBase V F}
    (hdefined : mod.isDeclaration site.1 = false) {state' : SizeMinusKSummaryMap F × Bool} :
    runCall mod state site = some state' ↔
      state' = propagateCall mod site.1 state site.2 ∧ KeepsOwnPairs mod site.1 site.2 state := by
  unfold runCall propagateCall KeepsOwnPairs
  cases hcallee : site.2.calledFunction with
  | none => simp [eq_comm]
  | some callee =>
    by_cases hself : callee = site.1
    · subst hself
      simp only [hdefined, Bool.false_eq_true, if_false, true_imp_iff]
      rw [foldlM_propagateSink_self_iff]
      refine and_congr_left fun hkeeps => ?_
      rw [foldl_addSummarySink_of_mem]
      intro passed hpassed
      obtain ⟨sink, hsink, hpassed⟩ := List.mem_filterMap.mp hpassed
      exact hkeeps sink hsink passed hpassed
    · simp only [Option.some_inj, hself, false_imp_iff, and_true]
      split_ifs with hdeclaration
      · rw [Option.some_inj, eq_comm]
      · rw [foldlM_propagateSink_of_ne hself, Option.some_inj, eq_comm]

end Loop

/-! ## The rounds -/

section Rounds

/-- The pairs that a call passes on. -/
def passedBy (site : F × CallBase V F) (summaries : SizeMinusKSummaryMap F) :
    List SizeMinusKSink :=
  match site.2.calledFunction with
  | none => []
  | some callee =>
    if mod.isDeclaration callee then []
    else ((summaries.find callee).getD []).filterMap (passedSink mod (argSlots mod site.1) site.2)

/-- The number of an argument. -/
def argNoOf (v : V) : ℕ :=
  match mod.value v with
  | .argument argNo _ => argNo
  | _ => 0

/-- The pairs of arguments. -/
def argumentPairs : Finset (F × SizeMinusKSink) :=
  ((definedFunctions mod).toFinset ×ˢ (Finset.univ : Finset (V × V))).image fun t =>
    (t.1, ⟨argNoOf mod t.2.1, argNoOf mod t.2.2⟩)

/-- What a call derives from the pairs of its callee. -/
def derived (site : F × CallBase V F) (S : Set (F × SizeMinusKSink)) : Set (F × SizeMinusKSink) :=
  {p | p.1 = site.1 ∧ ∃ callee sink, site.2.calledFunction = some callee ∧
    mod.isDeclaration callee = false ∧ (callee, sink) ∈ S ∧
    passedSink mod (argSlots mod site.1) site.2 sink = some p.2}

variable {mod oracles} {site : F × CallBase V F} {state : SizeMinusKSummaryMap F × Bool}

/-- The two are the same. -/
theorem setOf_passedBy (site : F × CallBase V F) (summaries : SizeMinusKSummaryMap F) :
    {p : F × SizeMinusKSink | p.1 = site.1 ∧ p.2 ∈ passedBy mod site summaries} =
      derived mod site (pairsOf summaries) := by
  ext ⟨g, passed⟩
  refine and_congr_right fun _ => ?_
  unfold passedBy
  cases hcallee : site.2.calledFunction with
  | none => simp
  | some callee =>
    cases hdeclaration : mod.isDeclaration callee with
    | true => simp [hdeclaration]
    | false => simp [hdeclaration, pairsOf, List.mem_filterMap]

/-- A call adds what it passes on. -/
theorem propagateCall_eq (site : F × CallBase V F) (state : SizeMinusKSummaryMap F × Bool) :
    propagateCall mod site.1 state site.2 =
      (passedBy mod site state.1).foldl (addSummarySink site.1) state := by
  unfold propagateCall passedBy
  cases site.2.calledFunction with
  | none => rfl
  | some callee => cases hdeclaration : mod.isDeclaration callee <;> simp [hdeclaration]

/-- A call adds what it derives. -/
theorem adds_propagateCall (site : F × CallBase V F) :
    Adds pairsOf (derived mod site) fun state => propagateCall mod site.1 state site.2 where
  facts_eq state := by rw [propagateCall_eq, pairsOf_foldl, setOf_passedBy]
  unchanged_iff state := by
    rw [propagateCall_eq, foldl_unchanged_iff, ← setOf_passedBy]
    refine and_congr_right fun _ => ?_
    constructor
    · rintro h ⟨g, passed⟩ ⟨hg, hpassed⟩
      obtain rfl : g = site.1 := hg
      exact h passed hpassed
    · exact fun h passed hpassed => h ⟨rfl, hpassed⟩

/-- A round makes the calls of all functions. -/
theorem propagateOnce_eq (summaries : SizeMinusKSummaryMap F) : propagateOnce mod summaries =
    allSteps (fun site state => propagateCall mod site.1 state site.2) (callSites mod)
      (summaries, false) := by
  unfold propagateOnce allSteps callSites
  rw [List.foldl_flatMap]
  simp only [List.foldl_map]

omit [DecidableEq F] [DecidableEq V] [Fintype V] in
/-- The functions of the sites are defined. -/
theorem mem_callSites_iff : site ∈ callSites mod ↔
    site.1 ∈ definedFunctions mod ∧ site.2 ∈ callsOf mod site.1 := by
  obtain ⟨f, call⟩ := site
  simp only [callSites, List.mem_flatMap, List.mem_map, Prod.mk.injEq]
  constructor
  · rintro ⟨f, hf, call, hcall, rfl, rfl⟩
    exact ⟨hf, hcall⟩
  · rintro ⟨hf, hcall⟩
    exact ⟨f, hf, call, hcall, rfl, rfl⟩

omit [DecidableEq F] [DecidableEq V] [Fintype V] in
/-- A defined function is no declaration. -/
theorem isDeclaration_of_mem {f : F} (h : f ∈ definedFunctions mod) :
    mod.isDeclaration f = false := by
  simpa using (List.mem_filter.mp h).2

omit [DecidableEq F] in
/-- Functions of chains are defined. -/
theorem SinkChain.mem_definedFunctions {f : F} {sink : SizeMinusKSink}
    (h : SinkChain mod oracles f sink) : f ∈ definedFunctions mod := by
  cases h <;> assumption

omit [DecidableEq F] in
/-- The index of an argument. -/
theorem exists_argNoOf {slots : EntryMap V V} {v : V} {n : ℕ}
    (h : getArgIndex mod slots v = some n) : ∃ arg, argNoOf mod arg = n := by
  unfold getArgIndex at h
  split at h
  · rename_i argNo nonNull hvalue
    refine ⟨canonical mod slots v, ?_⟩
    rw [argNoOf, hvalue]
    exact Option.some.inj h
  · cases h

/-- A pair that is passed on is one of arguments. -/
theorem mem_argumentPairs {f : F} (hf : f ∈ definedFunctions mod) {slots : EntryMap V V}
    {call : CallBase V F} {sink passed : SizeMinusKSink}
    (h : passedSink mod slots call sink = some passed) : (f, passed) ∈ argumentPairs mod := by
  unfold passedSink at h
  split at h
  · rename_i dstArg lenArg hdst hlen
    obtain rfl := Option.some.inj h
    obtain ⟨_, -, hdst⟩ := Option.bind_eq_some_iff.mp hdst
    obtain ⟨_, -, hlen⟩ := Option.bind_eq_some_iff.mp hlen
    obtain ⟨dst, rfl⟩ := exists_argNoOf hdst
    obtain ⟨len, rfl⟩ := exists_argNoOf hlen
    refine Finset.mem_image.mpr ⟨(f, dst, len), ?_, rfl⟩
    exact Finset.mem_product.mpr ⟨List.mem_toFinset.mpr hf, Finset.mem_univ _⟩
  · cases h

omit [DecidableEq V] in
/-- There are not more pairs than rounds. -/
theorem card_argumentPairs_le (mod : Module F V B) :
    (argumentPairs mod).card ≤ mod.functions.length * Fintype.card V ^ 2 := by
  refine Finset.card_image_le.trans ?_
  rw [Finset.card_product, Finset.card_univ, Fintype.card_prod, ← pow_two]
  refine Nat.mul_le_mul_right _ ((List.toFinset_card_le _).trans ?_)
  exact List.length_filter_le _ _

/-- The first pass finds pairs of arguments. -/
theorem pairsOf_directSinks_subset :
    pairsOf (directSinks mod oracles) ⊆ (argumentPairs mod : Set (F × SizeMinusKSink)) := by
  rintro ⟨f, passed⟩ h
  obtain ⟨hf, call, -, known, -, hpassed⟩ := mem_directSinks_iff.mp h
  exact mem_argumentPairs hf hpassed

/-- **Chains are the least set** that contains what the first pass finds and is closed under the
calls. -/
theorem SinkChain.mem_of_leastClosed {S : Set (F × SizeMinusKSink)}
    (h : LeastClosed (derived mod) (callSites mod) (pairsOf (directSinks mod oracles)) S) {f : F}
    {sink : SizeMinusKSink} : (f, sink) ∈ S ↔ SinkChain mod oracles f sink := by
  constructor
  · have hsub : S ⊆ {p | SinkChain mod oracles p.1 p.2} := by
      refine h.least _ ?_ ?_
      · rintro ⟨f, passed⟩ hpassed
        obtain ⟨hf, call, hcall, known, hknown, hpassed⟩ := mem_directSinks_iff.mp hpassed
        exact .direct hf hcall hknown hpassed
      · rintro ⟨f, call⟩ hsite S' hS' ⟨g, passed⟩ ⟨hg, callee, sink, hcallee, -, hsink, hpassed⟩
        obtain rfl : g = f := hg
        obtain ⟨hf, hcall⟩ := mem_callSites_iff.mp hsite
        exact .wrapper hf hcall hcallee (hS' hsink) hpassed
    exact fun hmem => hsub hmem
  · intro hchain
    induction hchain with
    | direct hf hcall hknown hpassed =>
      exact h.start_subset (mem_directSinks_iff.mpr ⟨hf, _, hcall, _, hknown, hpassed⟩)
    | wrapper hf hcall hcallee hchain hpassed ih =>
      refine h.closed (_, _) (mem_callSites_iff.mpr ⟨hf, hcall⟩) ⟨rfl, _, _, hcallee, ?_, ih, hpassed⟩
      exact isDeclaration_of_mem hchain.mem_definedFunctions

/-- **The rounds end with the chains**, if they are the rounds without the growth of vectors. -/
theorem exists_rounds_chains (mod : Module F V B) (oracles : Oracles F V)
    (round : SizeMinusKSummaryMap F → Option (SizeMinusKSummaryMap F × Bool))
    (Reached : SizeMinusKSummaryMap F → Prop)
    (hround : ∀ s, Reached s → round s = some (propagateOnce mod s))
    (hnext : ∀ s s', Reached s → round s = some (s', true) → Reached s')
    (hstart : Reached (directSinks mod oracles)) :
    ∃ summaries,
      rounds round (mod.functions.length * Fintype.card V ^ 2 + 1) (directSinks mod oracles) =
        some summaries ∧
      ∀ f sink, sink ∈ (summaries.find f).getD [] ↔ SinkChain mod oracles f sink := by
  have hclosed : ∀ site ∈ callSites mod, ∀ S' ⊆ (argumentPairs mod : Set (F × SizeMinusKSink)),
      derived mod site S' ⊆ argumentPairs mod := by
    rintro ⟨f, call⟩ hsite S' - ⟨g, passed⟩ ⟨hg, callee, sink, -, -, -, hpassed⟩
    obtain rfl : g = f := hg
    exact mem_argumentPairs (mem_callSites_iff.mp hsite).1 hpassed
  have hfuel : ((argumentPairs mod : Set (F × SizeMinusKSink)) \
      pairsOf (directSinks mod oracles)).ncard <
        mod.functions.length * Fintype.card V ^ 2 + 1 := by
    refine Nat.lt_succ_of_le (le_trans ?_ (card_argumentPairs_le mod))
    rw [← Set.ncard_coe_finset]
    exact Set.ncard_le_ncard Set.sdiff_subset (Finset.finite_toSet _)
  obtain ⟨summaries, hsummaries, hleast⟩ := exists_rounds
    (fun site _ => adds_propagateCall site)
    (fun s hs => (hround s hs).trans (congrArg some (propagateOnce_eq s))) hnext
    (Finset.finite_toSet _) hclosed _ hstart pairsOf_directSinks_subset hfuel
  exact ⟨summaries, hsummaries, fun f sink => SinkChain.mem_of_leastClosed hleast⟩

/-- The rounds, as far as they are defined, are those of `propagate`. -/
theorem propagate_eq_of_rounds {fuel : ℕ} {summaries r : SizeMinusKSummaryMap F}
    (h : rounds (fun s => some (propagateOnce mod s)) fuel summaries = some r) :
    propagate mod fuel summaries = r := by
  induction fuel generalizing summaries with
  | zero => cases h
  | succ fuel ih =>
    unfold propagate
    rw [rounds] at h
    cases hround : propagateOnce mod summaries with
    | mk s changed =>
      rw [hround] at h
      cases changed with
      | true => exact ih h
      | false => exact Option.some.inj h

/-- **Without the growth of vectors, the summaries are the chains.** -/
theorem mem_buildSizeMinusKSummaries_iff {f : F} {sink : SizeMinusKSink} :
    sink ∈ ((buildSizeMinusKSummaries mod oracles).find f).getD [] ↔
      SinkChain mod oracles f sink := by
  obtain ⟨summaries, hrounds, hchains⟩ := exists_rounds_chains mod oracles
    (fun s => some (propagateOnce mod s)) (fun _ => True) (fun _ _ => rfl) (fun _ _ _ _ => trivial)
    trivial
  rw [buildSizeMinusKSummaries, propagate_eq_of_rounds hrounds]
  exact hchains f sink

end Rounds

/-! ## When the pass is exact -/

section Exact

variable {mod oracles}

/-- A round is defined if each function passes only pairs on to itself that it has. -/
theorem runRound_eq {summaries : SizeMinusKSummaryMap F} (hround : AtRound mod oracles summaries)
    (h : ∀ f call state, AtCall mod oracles f call state → KeepsOwnPairs mod f call state) :
    runRound mod summaries = some (propagateOnce mod summaries) := by
  rw [propagateOnce_eq]
  refine foldlM_eq_foldl fun before site after hsplit state hstate => ?_
  have hsite : site ∈ callSites mod := by
    rw [hsplit]
    exact List.mem_append_right _ List.mem_cons_self
  have hkeeps := h site.1 site.2 state ⟨summaries, before, after, hround, hsplit, hstate⟩
  have hdefined := isDeclaration_of_mem (mem_callSites_iff.mp hsite).1
  exact (runCall_eq_some_iff hdefined).mpr ⟨rfl, hkeeps⟩

/-- If the pass ends, then all its rounds are defined. -/
theorem AtRound.exists_rounds {summaries r : SizeMinusKSummaryMap F} {fuel : ℕ}
    (hround : AtRound mod oracles summaries)
    (h : rounds (runRound mod) fuel (directSinks mod oracles) = some r) :
    ∃ fuel', rounds (runRound mod) (fuel' + 1) summaries = some r := by
  induction hround with
  | first =>
    cases fuel with
    | zero => cases h
    | succ fuel => exact ⟨fuel, h⟩
  | next _ hchanged ih =>
    obtain ⟨fuel', hrounds⟩ := ih
    have hnext := (rounds_next hrounds).2 _ hchanged
    cases fuel' with
    | zero => cases hnext
    | succ fuel' => exact ⟨fuel', hnext⟩

/-- **The pass ends with the chains** if each function passes only pairs on to itself that it has. -/
theorem summariesExact_of_keepsOwnPairs
    (h : ∀ f call state, AtCall mod oracles f call state → KeepsOwnPairs mod f call state) :
    SummariesExact mod oracles := by
  obtain ⟨summaries, hrounds, hchains⟩ := exists_rounds_chains mod oracles (runRound mod)
    (AtRound mod oracles) (fun s hs => runRound_eq hs h) (fun s s' => AtRound.next) AtRound.first
  exact ⟨_, summaries, hrounds, hchains⟩

/-- So it does if no function calls itself directly. -/
theorem summariesExact_of_noSelfCall
    (h : ∀ f ∈ definedFunctions mod, ∀ call ∈ callsOf mod f, call.calledFunction ≠ some f) :
    SummariesExact mod oracles := by
  refine summariesExact_of_keepsOwnPairs ?_
  rintro f call state ⟨-, before, after, -, hsplit, -⟩ hself
  have hsite : (f, call) ∈ callSites mod := by
    rw [hsplit]
    exact List.mem_append_right _ List.mem_cons_self
  obtain ⟨hf, hcall⟩ := mem_callSites_iff.mp hsite
  exact absurd hself (h f hf call hcall)

/-- **When the pass ends with the chains**: in all states in which it comes to a call of a function
by itself, the function passes only pairs on to itself that it has.

**Proof sketch.** Then each call that is reached is defined, so that each round is the one without
the growth of vectors, and these rounds end with the least closed set of pairs. -/
theorem summariesExact_iff (mod : Module F V B) (oracles : Oracles F V) :
    SummariesExact mod oracles ↔
      ∀ f call state, AtCall mod oracles f call state → KeepsOwnPairs mod f call state := by
  constructor
  · rintro ⟨fuel, r, hrounds, -⟩ f call state ⟨summaries, before, after, hround, hsplit, hstate⟩
    obtain ⟨fuel', hrounds⟩ := hround.exists_rounds hrounds
    obtain ⟨st, hst⟩ := (rounds_next hrounds).1
    obtain ⟨state', hcall⟩ := isSome_of_foldlM hst hsplit hstate
    have hsite : (f, call) ∈ callSites mod := by
      rw [hsplit]
      exact List.mem_append_right _ List.mem_cons_self
    have hdefined := isDeclaration_of_mem (mem_callSites_iff.mp hsite).1
    exact ((runCall_eq_some_iff hdefined).mp hcall).2
  · exact summariesExact_of_keepsOwnPairs

end Exact

/-! ## What grows below the loop -/

section Growth

/-- What `addSummarySink(summaries[&F], ...)` makes grow below the loop over the sinks of a callee:
the map, or the vector of the loop. -/
def Grows (f callee : F) (state : SizeMinusKSummaryMap F × Bool) (passed : SizeMinusKSink) : Prop :=
  state.1.find f = none ∨ (callee = f ∧ passed ∉ (state.1.find f).getD [])

/-- **Something grows below the loop** over the sinks of a callee. -/
def GrowsInLoop (f : F) (call : CallBase V F) (state : SizeMinusKSummaryMap F × Bool) : Prop :=
  ∃ callee before sink after passed state', call.calledFunction = some callee ∧
    mod.isDeclaration callee = false ∧
    (state.1.find callee).getD [] = before ++ sink :: after ∧
    before.foldlM (propagateSink mod f callee call) state = some state' ∧
    passedSink mod (argSlots mod f) call sink = some passed ∧ Grows f callee state' passed

/-- A function that passes a sink on has sinks already, and these if it calls itself. -/
def PassesSettled (f : F) (call : CallBase V F) (state : SizeMinusKSummaryMap F × Bool) : Prop :=
  ∀ callee, call.calledFunction = some callee → mod.isDeclaration callee = false →
    ∀ sink ∈ (state.1.find callee).getD [], ∀ passed,
      passedSink mod (argSlots mod f) call sink = some passed →
        (state.1.find f).isSome ∧ (callee = f → passed ∈ (state.1.find f).getD [])

variable {mod oracles} {f callee : F} {call : CallBase V F}

/-- A function to which a sink has been added has sinks. -/
theorem find_addSummarySink_ne_none (state : SizeMinusKSummaryMap F × Bool)
    (sink : SizeMinusKSink) : (addSummarySink f state sink).1.find f ≠ none := by
  by_cases h : sink ∈ (state.1.find f).getD []
  · rw [addSummarySink_of_mem h]
    intro hnone
    rw [hnone] at h
    exact List.not_mem_nil h
  · rw [addSummarySink_of_notMem h, EntryMap.find_assign, if_pos rfl]
    exact Option.some_ne_none _

/-- The body of the loop makes nothing grow that has not grown before. -/
theorem Grows.of_addSummarySink {state : SizeMinusKSummaryMap F × Bool}
    {sink passed : SizeMinusKSink} (h : Grows f callee (addSummarySink f state sink) passed) :
    Grows f callee state passed := by
  rcases h with hnone | ⟨hself, hnew⟩
  · exact absurd hnone (find_addSummarySink_ne_none state sink)
  · refine Or.inr ⟨hself, fun hmem => hnew ?_⟩
    have hkeep : (f, passed) ∈ pairsOf (addSummarySink f state sink).1 := by
      rw [pairsOf_addSummarySink]
      exact Set.mem_insert_of_mem _ hmem
    exact hkeep

/-- So what grows later grows at the beginning. -/
theorem Grows.of_foldlM {sinks : List SizeMinusKSink} {state state' : SizeMinusKSummaryMap F × Bool}
    (h : sinks.foldlM (propagateSink mod f callee call) state = some state')
    {passed : SizeMinusKSink} (hgrows : Grows f callee state' passed) :
    Grows f callee state passed := by
  induction sinks generalizing state with
  | nil =>
    obtain rfl : state = state' := Option.some.inj h
    exact hgrows
  | cons sink sinks ih =>
    rw [List.foldlM_cons, Option.bind_eq_bind, Option.bind_eq_some_iff] at h
    obtain ⟨next, hnext, h⟩ := h
    have hgrows := ih h
    unfold propagateSink at hnext
    split at hnext
    · obtain rfl := Option.some.inj hnext
      exact hgrows
    · split_ifs at hnext
      obtain rfl := Option.some.inj hnext
      exact hgrows.of_addSummarySink

/-- Bodies that change nothing. -/
theorem foldlM_eq_self {sinks : List SizeMinusKSink} {state : SizeMinusKSummaryMap F × Bool}
    (h : ∀ sink ∈ sinks, propagateSink mod f callee call state sink = some state) :
    sinks.foldlM (propagateSink mod f callee call) state = some state := by
  induction sinks with
  | nil => rfl
  | cons sink sinks ih =>
    obtain ⟨hsink, h⟩ := List.forall_mem_cons.mp h
    rw [List.foldlM_cons, hsink, Option.bind_eq_bind, Option.bind_some, ih h]

/-- **When something grows below a loop.**

**Proof sketch.** Before the first sink for which something would grow, nothing changes: either the
function has no sinks, and nothing is passed on before, or it calls itself, and it has what is passed
on before. -/
theorem growsInLoop_iff {state : SizeMinusKSummaryMap F × Bool} :
    GrowsInLoop mod f call state ↔ ¬ PassesSettled mod f call state := by
  constructor
  · rintro ⟨callee, before, sink, after, passed, state', hcallee, hdeclaration, hsplit, hstate,
      hpassed, hgrows⟩ hsettled
    have hsink : sink ∈ (state.1.find callee).getD [] := by
      rw [hsplit]
      exact List.mem_append_right _ List.mem_cons_self
    obtain ⟨hsome, hmem⟩ := hsettled callee hcallee hdeclaration sink hsink passed hpassed
    rcases hgrows.of_foldlM hstate with hnone | ⟨hself, hnew⟩
    · rw [hnone] at hsome
      cases hsome
    · exact hnew (hmem hself)
  · intro hsettled
    unfold PassesSettled at hsettled
    push Not at hsettled
    obtain ⟨callee, hcallee, hdeclaration, sink, hsink, passed, hpassed, hnot⟩ := hsettled
    have hgrows : Grows f callee state passed := by
      by_cases hnone : state.1.find f = none
      · exact Or.inl hnone
      · exact Or.inr (hnot (Option.isSome_iff_ne_none.mpr hnone))
    obtain ⟨before, first, after, hsplit, ⟨passed', hpassed', hgrows'⟩, hbefore⟩ :=
      Enumerations.exists_first (P := fun sink => ∃ passed,
        passedSink mod (argSlots mod f) call sink = some passed ∧ Grows f callee state passed)
        ⟨sink, hsink, passed, hpassed, hgrows⟩
    refine ⟨callee, before, first, after, passed', state, hcallee, hdeclaration, hsplit, ?_,
      hpassed', hgrows'⟩
    refine foldlM_eq_self fun earlier hearlier => ?_
    have hgood := hbefore earlier hearlier
    cases hnothing : passedSink mod (argSlots mod f) call earlier with
    | none =>
      rw [propagateSink, hnothing]
    | some passed'' =>
      have hgood' : ¬ Grows f callee state passed'' := fun h => hgood ⟨passed'', hnothing, h⟩
      obtain ⟨hself, -⟩ := hgrows.resolve_left fun hnone => hgood' (Or.inl hnone)
      subst hself
      refine propagateSink_self_iff.mpr ⟨rfl, fun p hp => ?_⟩
      obtain rfl : passed'' = p := Option.some.inj (hnothing.symm.trans hp)
      by_contra hnew
      exact hgood' (Or.inr ⟨rfl, hnew⟩)

/-- **When nothing grows below a loop**: in all states in which the pass comes to a call, a function
that passes a sink on has sinks already, and has these if it calls itself. -/
theorem neverGrows_iff (mod : Module F V B) (oracles : Oracles F V) :
    (∀ f call state, AtCall mod oracles f call state → ¬ GrowsInLoop mod f call state) ↔
      ∀ f call state, AtCall mod oracles f call state → PassesSettled mod f call state := by
  refine forall_congr' fun f => forall_congr' fun call => forall_congr' fun state => ?_
  rw [growsInLoop_iff, not_not]

end Growth

/-! ## A function that calls itself -/

section Swap

/-- The values of `void swap(char *d, char *e, size_t n) { memcpy(d, e, n); swap(e, d, n); }`. -/
def swapValue : Fin 8 → Value (Fin 8) Unit Bool
  | 0 => .argument 0 false
  | 1 => .argument 1 false
  | 2 => .argument 2 false
  | 3 => .function false
  | 4 => .function true
  | 5 => .call ⟨some false, 3, [0, 1, 2], none, false⟩
  | 6 => .call ⟨some true, 4, [1, 0, 2], none, false⟩
  | 7 => .ret

/-- The module of this function, which is `true`, and `memcpy`. -/
def swap : Module Bool (Fin 8) Unit where
  functions := [true, false]
  functionName f := if f then "swap".toList else "memcpy".toList
  isDeclaration f := !f
  sourcePath _ := []
  blocks f := if f then [()] else []
  instructions _ := [5, 6, 7]
  parent _ := ()
  successors _ := []
  predecessors _ := []
  value := swapValue
  type
    | 0 | 1 | 3 | 4 => .ptr
    | 2 => .int ⟨64, isWidth_sixtyFour⟩
    | _ => .other
  name
    | 3 => "memcpy".toList
    | 4 => "swap".toList
    | _ => []
  users
    | 0 | 1 | 2 => [5, 6]
    | 3 => [5]
    | 4 => [6]
    | _ => []
  operands
    | 5 => [0, 1, 2, 3]
    | 6 => [1, 0, 2, 4]
    | _ => []
  underlyingObject v := v
  stripPointerCasts v := v
  nodup := by decide

/-- LLVM knows `memcpy`. -/
def swapOracles : Oracles Bool (Fin 8) where
  getLibFunc f := if f then none else some .memcpy
  isNonNull _ _ := false
  isGreaterThan _ _ _ := false

/-- The pass comes to the call of the function by itself with the pair of the first call. -/
theorem swap_atCall : AtCall swap swapOracles true ⟨some true, 4, [1, 0, 2], none, false⟩
    (EntryMap.empty.assign true [⟨0, 2⟩], false) :=
  ⟨_, [(true, ⟨some false, 3, [0, 1, 2], none, false⟩)], [], .first, rfl, rfl⟩

/-- **The pass is not exact**: the vector grows below the loop. -/
theorem not_summariesExact_swap : ¬ SummariesExact swap swapOracles := by
  rintro ⟨fuel, summaries, hrounds, -⟩
  have hround : runRound swap (directSinks swap swapOracles) = none := rfl
  cases fuel with
  | zero => cases hrounds
  | succ fuel =>
    rw [rounds, hround] at hrounds
    cases hrounds

/-- **Something grows below a loop.** -/
theorem not_neverGrows_swap :
    ¬ ∀ f call state, AtCall swap swapOracles f call state → ¬ GrowsInLoop swap f call state := by
  intro h
  exact h true _ _ swap_atCall ⟨true, [], ⟨0, 2⟩, [], ⟨1, 2⟩, _, rfl, rfl, rfl, rfl, rfl,
    Or.inr ⟨rfl, by decide⟩⟩

end Swap

end StackAnalyzer.Bounds
