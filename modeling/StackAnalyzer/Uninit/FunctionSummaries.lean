import StackAnalyzer.Dataflow.DirtyRounds

set_option relaxedAutoImplicit false
set_option autoImplicit false

/-!
# Rounds of uninitialised-read summaries

`computeFunctionSummaries` summarises the functions of a module that are analysed. A function is
analysed again when the summary of a function that it calls has changed, at most 64 rounds. What
`analyzeFunction` makes of a body and of the summaries of the direct callees is left open.

## Main definitions

* `StackAnalyzer.Uninit.CallModule`, `StackAnalyzer.Uninit.SummaryAnalysis` — the functions of a
  module with their direct callees, and the analysis of a function.
* `StackAnalyzer.Uninit.computeFunctionSummaries` — the summaries of a module.

## Main results

* `StackAnalyzer.Uninit.computeFunctionSummaries_iff` — for a module without recursion the summaries
  are a fixpoint for every order of its functions iff no chain of calls has more than 64 functions.
-/

namespace StackAnalyzer.Uninit

/-- The functions of a module, which of them are declarations or left out by `shouldAnalyze`, and
the callees of the calls of each (`getCalledFunction`). -/
structure CallModule (V : Type*) where
  functions : List V
  nodup : functions.Nodup
  isDeclaration : V → Bool
  shouldAnalyze : V → Bool
  callees : V → List V

/-- `makeEmptySummary`, and `analyzeFunction` on the summaries of other functions. -/
structure SummaryAnalysis (V S : Type*) where
  makeEmptySummary : V → S
  analyzeFunction : V → (V → Option S) → S

section Model

variable {V S : Type*} [DecidableEq V] [DecidableEq S]

/-- `analysisFunctions`, for the functions of a module in some order. -/
def analysisFunctions (M : CallModule V) (order : List V) : List V :=
  order.filter fun F => !M.isDeclaration F && M.shouldAnalyze F

/-- `callerOf`: one entry for each call. -/
def callerOf (M : CallModule V) (functions : List V) (callee : V) : List V :=
  functions.flatMap fun func =>
    ((M.callees func).filter fun c => c = callee ∧ c ∈ functions).map fun _ => func

/-- The map of summaries, from the values of the functions that have one. -/
def summaryMap (functions : List V) (values : V → S) (F : V) : Option S :=
  if F ∈ functions then some (values F) else none

/-- How the summaries are iterated. -/
def summarySystem (M : CallModule V) (A : SummaryAnalysis V S) (functions : List V) :
    DirtyRounds.System V S where
  eval func values := A.analyzeFunction func (summaryMap functions values)
  readers := callerOf M functions

/-- `computeFunctionSummaries`: all functions are dirty at first, and there are at most 64
rounds. -/
def computeFunctionSummaries (M : CallModule V) (A : SummaryAnalysis V S) (order : List V) :
    V → Option S :=
  let functions := analysisFunctions M order
  summaryMap functions (DirtyRounds.run (summarySystem M A functions) functions 64
    (fun F => decide (F ∈ functions)) A.makeEmptySummary)

end Model

section Spec

variable {V S : Type*}

/-- The analysis of a function looks at the summaries of its direct callees only. -/
def SummaryAnalysis.ReadsCallees (M : CallModule V) (A : SummaryAnalysis V S) : Prop :=
  ∀ F σ τ, (∀ c ∈ M.callees F, σ c = τ c) → A.analyzeFunction F σ = A.analyzeFunction F τ

/-- A function calls another one directly. -/
def CallModule.Calls (M : CallModule V) (F G : V) : Prop := G ∈ M.callees F

/-- No function calls itself, directly or through others. -/
def CallModule.Acyclic (M : CallModule V) : Prop := ∀ F, ¬ Relation.TransGen M.Calls F F

/-- A chain of calls between functions that are analysed. -/
structure CallModule.IsCallChain (M : CallModule V) (chain : List V) : Prop where
  mem : ∀ F ∈ chain, F ∈ analysisFunctions M M.functions
  isChain : chain.IsChain M.Calls

/-- The stored summary of every analysed function is the one that `analyzeFunction` computes from
the stored summaries. -/
def IsSummaryFixpoint (M : CallModule V) (A : SummaryAnalysis V S) (order : List V)
    (summaries : V → Option S) : Prop :=
  ∀ F ∈ analysisFunctions M order, summaries F = some (A.analyzeFunction F summaries)

end Spec

variable {V : Type*} {M : CallModule V}

theorem mem_analysisFunctions {order : List V} {F : V} : F ∈ analysisFunctions M order ↔
    F ∈ order ∧ M.isDeclaration F = false ∧ M.shouldAnalyze F = true := by
  simp [analysisFunctions]

/-- An order of the functions does not change which of them are analysed. -/
theorem mem_analysisFunctions_perm {order : List V} (h : order.Perm M.functions) {F : V} :
    F ∈ analysisFunctions M order ↔ F ∈ analysisFunctions M M.functions := by
  rw [mem_analysisFunctions, mem_analysisFunctions, h.mem_iff]

/-- A chain of calls without recursion has distinct functions. -/
theorem CallModule.Acyclic.nodup (hacyclic : M.Acyclic) {chain : List V}
    (h : chain.IsChain M.Calls) : chain.Nodup := by
  have hpair : chain.Pairwise (Relation.TransGen M.Calls) :=
    (h.imp fun _ _ => Relation.TransGen.single).pairwise
  refine hpair.imp ?_
  rintro F G hFG rfl
  exact hacyclic F hFG

variable [DecidableEq V]

theorem mem_callerOf {functions : List V} {F G : V} :
    F ∈ callerOf M functions G ↔ F ∈ functions ∧ M.Calls F G ∧ G ∈ functions := by
  simp only [callerOf, List.mem_flatMap, List.mem_map, List.mem_filter, decide_eq_true_eq,
    CallModule.Calls]
  constructor
  · rintro ⟨func, hfunc, c, ⟨hc, rfl, hmem⟩, rfl⟩
    exact ⟨hfunc, hc, hmem⟩
  · rintro ⟨hF, hcall, hG⟩
    exact ⟨F, hF, G, ⟨hcall, rfl, hG⟩, rfl⟩

/-! ## Enough rounds -/

section Enough

variable {S : Type*} [DecidableEq S] {A : SummaryAnalysis V S} {order : List V}

omit [DecidableEq S] in
/-- The summaries are a fixpoint iff the values of the iteration are. -/
theorem isSummaryFixpoint_iff {values : V → S} :
    IsSummaryFixpoint M A order (summaryMap (analysisFunctions M order) values) ↔
      DirtyRounds.IsFixpoint (summarySystem M A (analysisFunctions M order))
        (analysisFunctions M order) values := by
  refine forall₂_congr fun F hF => ?_
  rw [summaryMap, if_pos hF, Option.some.injEq]
  exact eq_comm

omit [DecidableEq S] in
/-- The readers of a function are its callers. -/
theorem reads_summarySystem (hreads : A.ReadsCallees M) :
    DirtyRounds.Reads (summarySystem M A (analysisFunctions M order)) (analysisFunctions M order)
      fun F G => M.Calls F G ∧ F ∈ analysisFunctions M order ∧ G ∈ analysisFunctions M order := by
  refine ⟨fun F hF σ τ h => hreads F _ _ fun c hc => ?_, fun F _ G hG => hG.2.2,
    fun F hF G hG => mem_callerOf.mpr ⟨hF, hG.1, hG.2.2⟩⟩
  unfold summaryMap
  split_ifs with hmem
  · rw [h c ⟨hc, hF, hmem⟩]
  · rfl

/-- **Enough rounds**: 64 rounds settle the chains of at most 64 functions. -/
theorem computeFunctionSummaries_isFixpoint (hacyclic : M.Acyclic)
    (hchain : ∀ chain, M.IsCallChain chain → chain.length ≤ 64) (hperm : order.Perm M.functions)
    (hreads : A.ReadsCallees M) :
    IsSummaryFixpoint M A order (computeFunctionSummaries M A order) := by
  classical
  let dep : V → V → Prop := fun F G =>
    M.Calls F G ∧ F ∈ analysisFunctions M order ∧ G ∈ analysisFunctions M order
  have hwf : WellFounded fun G F => dep F G := by
    refine Graph.wellFounded_of_acyclic (List.finite_toSet (analysisFunctions M order))
      (fun G F h => ⟨h.2.2, h.2.1⟩) fun F hF => hacyclic F ?_
    exact Relation.TransGen.mono (fun _ _ h => h.1) F F (Relation.transGen_swap.mp hF)
  -- the level of a function is the length of its longest chain
  let P : V → ℕ → Prop := fun F k => ∃ chain, M.IsCallChain (F :: chain) ∧ chain.length + 1 = k
  let level : V → ℕ := fun F => max 1 (Nat.findGreatest (P F) 64)
  have hlevel : ∀ F G, dep F G → level G < level F := by
    rintro F G ⟨hcall, hF, hG⟩
    rw [mem_analysisFunctions_perm hperm] at hF hG
    have hone : P G 1 :=
      ⟨[], ⟨fun H hH => List.mem_singleton.mp hH ▸ hG, List.isChain_singleton G⟩, rfl⟩
    obtain ⟨chain, hc, hlen⟩ := Nat.findGreatest_spec (P := P G) (m := 1) (n := 64) (by omega) hone
    have hlong : M.IsCallChain (F :: G :: chain) :=
      ⟨fun H hH => (List.mem_cons.mp hH).elim (fun h => h ▸ hF) (hc.mem H),
        List.isChain_cons_cons.mpr ⟨hcall, hc.isChain⟩⟩
    have hbound := hchain _ hlong
    have hle := Nat.le_findGreatest (P := P F) hbound ⟨G :: chain, hlong, rfl⟩
    simp only [List.length_cons] at hle
    show max 1 (Nat.findGreatest (P G) 64) < max 1 (Nat.findGreatest (P F) 64)
    omega
  refine isSummaryFixpoint_iff.mpr (DirtyRounds.run_isFixpoint hwf (reads_summarySystem hreads)
    hlevel (fun F => ?_) (fun F _ => ?_) (fun F hF => decide_eq_true hF) _)
  · exact lt_of_lt_of_le Nat.one_pos (le_max_left _ _)
  · exact max_le (by omega) (Nat.findGreatest_le 64)

end Enough

/-! ## Too few rounds -/

section TooFew

/-- The function behind a function in a chain. -/
def nextInChain (chain : List V) (F : V) : Option V := chain[chain.idxOf F + 1]?

/-- An analysis that counts the functions from a function of a chain to its end. -/
def chainAnalysis (chain : List V) : SummaryAnalysis V ℕ where
  makeEmptySummary _ := 0
  analyzeFunction F summaries :=
    if F ∈ chain then
      match nextInChain chain F with
      | some G => (summaries G).getD 0 + 1
      | none => 1
    else 0

/-- The functions with those of a chain in front. -/
def chainFirst (M : CallModule V) (chain : List V) : List V :=
  chain ++ M.functions.filter fun F => F ∉ chain

variable {chain : List V}

theorem readsCallees_chainAnalysis (h : M.IsCallChain chain) :
    (chainAnalysis chain).ReadsCallees M := by
  intro F σ τ hστ
  simp only [chainAnalysis]
  split_ifs with hF
  · cases hnext : nextInChain chain F with
    | none => rfl
    | some G =>
      obtain ⟨hlt, hG⟩ := List.getElem?_eq_some_iff.mp hnext
      have hcall := List.isChain_iff_getElem.mp h.isChain (chain.idxOf F) hlt
      rw [List.getElem_idxOf (by omega), hG] at hcall
      simp only
      rw [hστ G hcall]
  · rfl

theorem chainFirst_perm (hacyclic : M.Acyclic) (h : M.IsCallChain chain) :
    (chainFirst M chain).Perm M.functions := by
  have hnodup : (chainFirst M chain).Nodup := by
    refine (hacyclic.nodup h.isChain).append (M.nodup.filter _) ?_
    exact List.disjoint_left.mpr fun F hF hmem => by simpa [hF] using (List.mem_filter.mp hmem).2
  refine (List.perm_ext_iff_of_nodup hnodup M.nodup).mpr fun F => ?_
  rw [chainFirst, List.mem_append, List.mem_filter, decide_eq_true_eq]
  constructor
  · rintro (hF | hF)
    · exact (mem_analysisFunctions.mp (h.mem F hF)).1
    · exact hF.1
  · intro hF
    by_cases hmem : F ∈ chain
    · exact Or.inl hmem
    · exact Or.inr ⟨hF, hmem⟩

theorem analysisFunctions_chainFirst (h : M.IsCallChain chain) :
    ∃ rest, analysisFunctions M (chainFirst M chain) = chain ++ rest := by
  refine ⟨analysisFunctions M (M.functions.filter fun F => F ∉ chain), ?_⟩
  rw [chainFirst, analysisFunctions, List.filter_append, ← analysisFunctions]
  congr 1
  refine List.filter_eq_self.mpr fun F hF => ?_
  obtain ⟨-, hdecl, hanalyze⟩ := mem_analysisFunctions.mp (h.mem F hF)
  simp [hdecl, hanalyze]

/-- **Too few rounds**: with a chain of more than 64 functions in front, 64 rounds do not lead to a
fixpoint. -/
theorem not_isSummaryFixpoint_chainFirst (hacyclic : M.Acyclic) (h : M.IsCallChain chain)
    (hlong : 64 < chain.length) :
    ¬ IsSummaryFixpoint M (chainAnalysis chain) (chainFirst M chain)
      (computeFunctionSummaries M (chainAnalysis chain) (chainFirst M chain)) := by
  intro hfix
  obtain ⟨rest, horder⟩ := analysisFunctions_chainFirst h
  have hnodup := hacyclic.nodup h.isChain
  have hall : (chain ++ rest).Nodup := by
    rw [← horder]
    exact ((chainFirst_perm hacyclic h).nodup_iff.mpr M.nodup).filter _
  have hmem : ∀ i (hi : i < chain.length), chain[i] ∈ chain ++ rest := fun i hi =>
    List.mem_append_left rest (List.getElem_mem hi)
  rw [computeFunctionSummaries, isSummaryFixpoint_iff, horder] at hfix
  set values := DirtyRounds.run (summarySystem M (chainAnalysis chain) (chain ++ rest))
    (chain ++ rest) 64 (fun F => decide (F ∈ chain ++ rest)) (chainAnalysis chain).makeEmptySummary
    with hvalues
  -- a fixpoint counts the whole chain
  have hcount : ∀ k i (hi : i < chain.length), i + k + 1 = chain.length →
      values chain[i] = k + 1 := by
    intro k
    induction k with
    | zero =>
      intro i hi hlen
      rw [← hfix _ (hmem i hi)]
      have hnext : nextInChain chain chain[i] = none := by
        rw [nextInChain, hnodup.idxOf_getElem i hi, List.getElem?_eq_none (by omega)]
      simp [summarySystem, chainAnalysis, hnext]
    | succ k ih =>
      intro i hi hlen
      have hi' : i + 1 < chain.length := by omega
      rw [← hfix _ (hmem i hi)]
      have hnext : nextInChain chain chain[i] = some chain[i + 1] := by
        rw [nextInChain, hnodup.idxOf_getElem i hi, List.getElem?_eq_getElem hi']
      simp only [summarySystem, chainAnalysis, List.getElem_mem, if_true, hnext]
      rw [summaryMap, if_pos (hmem (i + 1) hi'), Option.getD_some, ih (i + 1) hi' (by omega)]
  -- but a round adds at most one
  have hle : values chain[0] ≤ 64 := by
    refine DirtyRounds.run_le (fun F G => F ∈ chain ∧ nextInChain chain F = some G)
      (fun l₁ F l₂ hl G ⟨hF, hG⟩ hmem => ?_) (fun F hF τ => ?_) 64 _ _
    · obtain ⟨hlt, hG⟩ := List.getElem?_eq_some_iff.mp hG
      have hGchain : G ∈ chain := hG ▸ List.getElem_mem hlt
      have hidxG : (chain ++ rest).idxOf G = chain.idxOf F + 1 := by
        rw [List.idxOf_append_of_mem hGchain, ← hG, hnodup.idxOf_getElem _ hlt]
      have hidxF : (chain ++ rest).idxOf F = l₁.length := by
        have hnot : F ∉ l₁ := fun hF' =>
          (List.nodup_append.mp (hl ▸ hall)).2.2 F hF' F List.mem_cons_self rfl
        rw [hl, List.idxOf_append_of_notMem hnot, List.idxOf_cons_self, Nat.add_zero]
      rw [List.idxOf_append_of_mem hF] at hidxF
      rw [hl, List.idxOf_append_of_mem hmem] at hidxG
      have := List.idxOf_lt_length_of_mem hmem
      omega
    · simp only [summarySystem, chainAnalysis]
      split_ifs with hFchain
      · cases hnext : nextInChain chain F with
        | none => exact Or.inl le_rfl
        | some G =>
          refine Or.inr ⟨G, ⟨hFchain, rfl⟩, ?_⟩
          simp only [summaryMap]
          split_ifs
          · exact le_rfl
          · exact Nat.add_le_add_right (Nat.zero_le _) 1
      · exact Or.inl (Nat.zero_le 1)
  have := hcount (chain.length - 1) 0 (by omega) (by omega)
  omega

end TooFew

/-- **When the summaries are a fixpoint**: for a module without recursion, whatever the analysis of
a function and whatever the order of the functions, iff no chain of calls has more than 64
functions.

**Proof sketch.** A function is settled one round after its callees. If a longer chain stands in
front, each round settles one more function of it, beginning with the last one. -/
theorem computeFunctionSummaries_iff (M : CallModule V) (hacyclic : M.Acyclic) :
    (∀ order, order.Perm M.functions → ∀ (S : Type) [DecidableEq S] (A : SummaryAnalysis V S),
        A.ReadsCallees M → IsSummaryFixpoint M A order (computeFunctionSummaries M A order)) ↔
      ∀ chain, M.IsCallChain chain → chain.length ≤ 64 := by
  constructor
  · intro h chain hchain
    by_contra hlong
    exact not_isSummaryFixpoint_chainFirst hacyclic hchain (by omega)
      (h (chainFirst M chain) (chainFirst_perm hacyclic hchain) ℕ (chainAnalysis chain)
        (readsCallees_chainAnalysis hchain))
  · exact fun h order hperm S _ A hreads =>
      computeFunctionSummaries_isFixpoint hacyclic h hperm hreads

/-! ## Chains of calls -/

/-- A module of `n` functions, each calling the next one. -/
def callChainModule (n : ℕ) : CallModule ℕ where
  functions := List.range n
  nodup := List.nodup_range
  isDeclaration _ := false
  shouldAnalyze _ := true
  callees F := [F + 1]

theorem mem_callChainModule {n F : ℕ} :
    F ∈ analysisFunctions (callChainModule n) (callChainModule n).functions ↔ F < n := by
  simp [mem_analysisFunctions, callChainModule]

theorem acyclic_callChainModule (n : ℕ) : (callChainModule n).Acyclic := by
  have hlt : ∀ {F G}, Relation.TransGen (callChainModule n).Calls F G → F < G := by
    intro F G h
    induction h with
    | single h =>
      rw [List.mem_singleton.mp h]
      omega
    | tail _ h ih =>
      rw [List.mem_singleton.mp h]
      omega
  exact fun F hF => absurd (hlt hF) (lt_irrefl F)

theorem isCallChain_range (n : ℕ) : (callChainModule n).IsCallChain (List.range n) where
  mem F hF := mem_callChainModule.mpr (List.mem_range.mp hF)
  isChain := by
    refine List.isChain_iff_getElem.mpr fun i hi => ?_
    rw [List.getElem_range, List.getElem_range]
    exact List.mem_singleton_self _

theorem computeFunctionSummaries_iff_callChain :
    IsSummaryFixpoint (callChainModule 64) (chainAnalysis (List.range 64)) (List.range 64)
      (computeFunctionSummaries (callChainModule 64) (chainAnalysis (List.range 64))
        (List.range 64)) := by
  refine (computeFunctionSummaries_iff (callChainModule 64) (acyclic_callChainModule 64)).mpr
    (fun chain hchain => ?_) (List.range 64) (List.Perm.refl _) _ _
    (readsCallees_chainAnalysis (isCallChain_range 64))
  have hnodup := (acyclic_callChainModule 64).nodup hchain.isChain
  have hsub : chain ⊆ List.range 64 := fun F hF =>
    List.mem_range.mpr (mem_callChainModule.mp (hchain.mem F hF))
  simpa using (hnodup.subperm hsub).length_le

/-- **A chain of 65 functions**, callers first: 64 rounds do not reach the first one. -/
theorem not_isSummaryFixpoint_callChain :
    (callChainModule 65).Acyclic ∧
      (chainAnalysis (List.range 65)).ReadsCallees (callChainModule 65) ∧
        ¬ IsSummaryFixpoint (callChainModule 65) (chainAnalysis (List.range 65)) (List.range 65)
          (computeFunctionSummaries (callChainModule 65) (chainAnalysis (List.range 65))
            (List.range 65)) := by
  have hfirst : chainFirst (callChainModule 65) (List.range 65) = List.range 65 := by
    have hnone : (callChainModule 65).functions.filter (fun F => F ∉ List.range 65) = [] :=
      List.filter_eq_nil_iff.mpr fun F hF => by simpa using List.mem_range.mp hF
    rw [chainFirst, hnone, List.append_nil]
  refine ⟨acyclic_callChainModule 65, readsCallees_chainAnalysis (isCallChain_range 65), ?_⟩
  have hnot := not_isSummaryFixpoint_chainFirst (acyclic_callChainModule 65) (isCallChain_range 65)
    (by simp)
  rwa [hfirst] at hnot

end StackAnalyzer.Uninit
