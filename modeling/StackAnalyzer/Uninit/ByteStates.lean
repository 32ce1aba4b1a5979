import StackAnalyzer.Dataflow.MustAnalysis
import StackAnalyzer.Uninit.InitAnalysis

set_option relaxedAutoImplicit false
set_option autoImplicit false

/-!
# The definite-initialisation analysis on sets of bytes

A state of the analysis stands for a set of bytes of the tracked objects, and the operations on
states are the operations on these sets. So a sweep of the analysis is a sweep of a must analysis
whose facts are the initialised bytes.

## Main definitions

* `StackAnalyzer.Uninit.stateSet`, `StackAnalyzer.Uninit.ValidState` — the bytes of a state, and the
  states that the analysis builds.
* `StackAnalyzer.Uninit.flowProblem` — the must analysis that a function poses.
* `StackAnalyzer.Uninit.FlowStates.abs` — the sets of bytes of all blocks.

## Main results

* `StackAnalyzer.Uninit.transferInstruction_spec`, `StackAnalyzer.Uninit.meetMustState_spec`.
* `StackAnalyzer.Uninit.sweep_abs` — a sweep of the analysis is a sweep over the sets of bytes.
-/

namespace StackAnalyzer.Uninit

open Dataflow Ranges

/-! ## States -/

/-- The initialised bytes: pairs of the index of an object and a byte of it. -/
def stateSet (state : InitRangeState) : Set (ℕ × ℕ) :=
  {x | ∃ ranges, state[x.1]? = some ranges ∧ x.2 ∈ carrier ranges}

/-- A state for a number of objects, with canonical range lists. -/
structure ValidState (trackedCount : ℕ) (state : InitRangeState) : Prop where
  length : state.length = trackedCount
  canonical : ∀ ranges ∈ state, Canonical ranges

/-- The bytes that an instruction initialises. -/
def storedBytes (objects : List TrackedMemoryObject) : Instruction → Set (ℕ × ℕ)
  | .load _ _ _ => ∅
  | .store object offset size undef =>
    {x | undef = false ∧ x.1 = object ∧ ∃ access,
      (objects[object]?.bind fun obj => resolveAccess obj offset size) = some access ∧
        access.Contains x.2}

variable {n : ℕ} {state accum incoming : InitRangeState} {objects : List TrackedMemoryObject}

/-- A valid state is determined by its bytes. -/
theorem ValidState.ext (h : ValidState n accum) (h' : ValidState n incoming)
    (hset : stateSet accum = stateSet incoming) : accum = incoming := by
  apply List.ext_getElem (h.length.trans h'.length.symm)
  intro i hi hi'
  refine (h.canonical _ (List.getElem_mem hi)).ext (h'.canonical _ (List.getElem_mem hi')) ?_
  apply Set.ext
  intro byte
  have hmem : (i, byte) ∈ stateSet accum ↔ (i, byte) ∈ stateSet incoming := by rw [hset]
  simpa [stateSet, List.getElem?_eq_getElem hi, List.getElem?_eq_getElem hi'] using hmem

/-- The state without initialised bytes. -/
theorem makeBottomState_spec (n : ℕ) :
    ValidState n (makeBottomState n) ∧ stateSet (makeBottomState n) = ∅ := by
  refine ⟨⟨List.length_replicate, fun rs hrs => ?_⟩, Set.eq_empty_of_forall_notMem ?_⟩
  · rw [List.eq_of_mem_replicate hrs]
    exact Canonical.nil
  · rintro x ⟨rs, hrs, hx⟩
    obtain rfl := List.eq_of_mem_replicate (List.mem_of_getElem? hrs)
    exact mem_carrier_nil _ hx

/-- The state in which all bytes are initialised. -/
theorem makeTopState_spec (objects : List TrackedMemoryObject) :
    ValidState objects.length (makeTopState objects) ∧
      ∀ x, x ∈ stateSet (makeTopState objects) ↔
        ∃ obj, objects[x.1]? = some obj ∧ x.2 < getObjectFullRangeEnd obj := by
  refine ⟨⟨List.length_map _, fun rs hrs => ?_⟩, fun x => ?_⟩
  · obtain ⟨obj, -, rfl⟩ := List.mem_map.mp hrs
    exact Canonical.nil.add 0 _
  · simp only [stateSet, Set.mem_ofPred_eq, makeTopState, List.getElem?_map]
    cases objects[x.1]? with
    | none => simp
    | some obj => simp [addRange, mem_carrier_add Canonical.nil]

/-- The meet of two states holds the common bytes. -/
theorem meetMustState_spec (h : ValidState n accum) (h' : ValidState n incoming) :
    ValidState n (meetMustState accum incoming) ∧
      stateSet (meetMustState accum incoming) = stateSet accum ∩ stateSet incoming := by
  have hlen : accum.length = incoming.length := h.length.trans h'.length.symm
  rw [meetMustState, if_neg (by simpa using hlen)]
  refine ⟨⟨by simp [h.length, h'.length], fun rs hrs => ?_⟩, Set.ext fun x => ?_⟩
  · obtain ⟨i, hi, rfl⟩ := List.mem_iff_getElem.mp hrs
    rw [List.getElem_zipWith]
    exact (h.canonical _ (List.getElem_mem _)).inter (h'.canonical _ (List.getElem_mem _))
  · simp only [stateSet, Set.mem_ofPred_eq, Set.mem_inter_iff, List.getElem?_zipWith]
    by_cases hi : x.1 < accum.length
    · have hi' : x.1 < incoming.length := hlen ▸ hi
      simp only [List.getElem?_eq_getElem hi, List.getElem?_eq_getElem hi', Option.some.injEq,
        exists_eq_left']
      exact mem_carrier_inter (h.canonical _ (List.getElem_mem hi))
        (h'.canonical _ (List.getElem_mem hi')) x.2
    · simp [List.getElem?_eq_none (not_lt.mp hi)]

/-- Adding a range of bytes of an object. -/
theorem modify_addRange_spec (h : ValidState n state) {object : ℕ} (hobject : object < n)
    (range : ByteRange) :
    ValidState n (state.modify object (addRange · range.begin range.stop)) ∧
      stateSet (state.modify object (addRange · range.begin range.stop)) =
        stateSet state ∪ {x | object = x.1 ∧ range.Contains x.2} := by
  rw [← h.length] at hobject
  refine ⟨⟨by simp [h.length], fun rs hrs => ?_⟩, Set.ext fun x => ?_⟩
  · obtain ⟨i, hi, rfl⟩ := List.mem_iff_getElem.mp hrs
    rw [List.getElem_modify]
    have hi' : i < state.length := by simpa using hi
    have hcan := h.canonical _ (List.getElem_mem hi')
    split_ifs
    · exact hcan.add _ _
    · exact hcan
  · simp only [stateSet, Set.mem_ofPred_eq, Set.mem_union, List.getElem?_modify]
    by_cases hx : object = x.1
    · subst hx
      have hcan := h.canonical _ (List.getElem_mem hobject)
      simp only [List.getElem?_eq_getElem hobject, if_true, Option.map_eq_map, Option.map_some,
        Option.some.injEq, exists_eq_left', true_and, addRange, mem_carrier_add hcan,
        Range.Contains, or_comm]
    · simp [hx]

/-- An instruction adds the bytes that it initialises. -/
theorem transferInstruction_spec (h : ValidState objects.length state) (i : Instruction) :
    ValidState objects.length (transferInstruction objects state i) ∧
      stateSet (transferInstruction objects state i) =
        stateSet state ∪ storedBytes objects i := by
  cases i with
  | load object offset size => simp [transferInstruction, storedBytes, h]
  | store object offset size undef =>
    unfold transferInstruction storedBytes
    cases undef with
    | true => simp [h]
    | false =>
      simp only [Bool.false_eq_true, if_false, true_and]
      cases haccess : objects[object]?.bind fun obj => resolveAccess obj offset size with
      | none => simp [h]
      | some access =>
        have hobject : object < objects.length := by
          by_contra hge
          simp [List.getElem?_eq_none (not_lt.mp hge)] at haccess
        obtain ⟨hvalid, hset⟩ := modify_addRange_spec h hobject access
        refine ⟨hvalid, hset.trans ?_⟩
        simp only [Option.some.injEq, exists_eq_left', eq_comm]

/-- A block adds the bytes that its instructions initialise. -/
theorem foldl_transferInstruction_spec (is : List Instruction)
    (h : ValidState objects.length state) :
    ValidState objects.length (is.foldl (transferInstruction objects) state) ∧
      stateSet (is.foldl (transferInstruction objects) state) =
        stateSet state ∪ {x | ∃ i ∈ is, x ∈ storedBytes objects i} := by
  induction is generalizing state with
  | nil => simp [h]
  | cons i is ih =>
    obtain ⟨hvalid, hset⟩ := transferInstruction_spec h i
    obtain ⟨hvalid', hset'⟩ := ih hvalid
    refine ⟨hvalid', ?_⟩
    rw [List.foldl_cons, hset', hset, Set.union_assoc]
    congr 1
    apply Set.ext
    intro x
    simp

/-! ## Functions -/

section Flow

variable {B : Type*} (F : TrackedFunction B) (reachable : B → Bool)

/-- The must analysis that the reachable part of a function poses. -/
def flowProblem : MustProblem B (ℕ × ℕ) where
  preds b := (F.predecessors b).filter reachable
  top := stateSet (makeTopState F.objects)
  gen b := {x | ∃ i ∈ F.instructions b, x ∈ storedBytes F.objects i}

/-- The sets of bytes of all blocks; a block without a state counts as one where nothing is known to
be uninitialised. -/
def FlowStates.abs (s : FlowStates B) : MustState B (ℕ × ℕ) where
  inSet b := (s.inState b).elim (flowProblem F reachable).top stateSet
  outSet b := (s.outState b).elim (flowProblem F reachable).top stateSet

/-- Reachable blocks have valid states. -/
structure ValidFlow (s : FlowStates B) : Prop where
  inState : ∀ b, reachable b = true →
    ∃ state, s.inState b = some state ∧ ValidState F.objects.length state
  outState : ∀ b, reachable b = true →
    ∃ state, s.outState b = some state ∧ ValidState F.objects.length state

variable {F reachable} {s : FlowStates B}

theorem abs_inSet {b : B} {state : InitRangeState} (h : s.inState b = some state) :
    (s.abs F reachable).inSet b = stateSet state :=
  congrArg (fun o => Option.elim o (flowProblem F reachable).top stateSet) h

theorem abs_outSet {b : B} {state : InitRangeState} (h : s.outState b = some state) :
    (s.abs F reachable).outSet b = stateSet state :=
  congrArg (fun o => Option.elim o (flowProblem F reachable).top stateSet) h

/-- The merge over the predecessors is the meet. -/
theorem mergePredecessors_spec (h : ValidFlow F reachable s) (preds : List B)
    {merged : InitRangeState} (hmerged : ValidState F.objects.length merged) :
    ValidState F.objects.length (mergePredecessors F reachable s.outState preds merged) ∧
      ∀ x, x ∈ stateSet (mergePredecessors F reachable s.outState preds merged) ↔
        x ∈ stateSet merged ∧
          ∀ p ∈ preds.filter reachable, x ∈ (s.abs F reachable).outSet p := by
  induction preds generalizing merged with
  | nil => simp [mergePredecessors, hmerged]
  | cons p preds ih =>
    unfold mergePredecessors
    cases hp : reachable p with
    | false => simpa [hp] using ih hmerged
    | true =>
      obtain ⟨out, hout, hvalid⟩ := h.outState p hp
      obtain ⟨hmeet, hset⟩ := meetMustState_spec hmerged hvalid
      obtain ⟨hvalid', hmem⟩ := ih hmeet
      simp only [hout, if_true]
      refine ⟨hvalid', fun x => ?_⟩
      rw [hmem, hset, Set.mem_inter_iff, List.filter_cons_of_pos hp, List.forall_mem_cons,
        abs_outSet hout, and_assoc]

variable [DecidableEq B]

/-- The state in which a block starts is the meet over its reachable predecessors. -/
theorem computeInState_spec (h : ValidFlow F reachable s) (b : B) :
    ValidState F.objects.length (computeInState F reachable s.outState b) ∧
      stateSet (computeInState F reachable s.outState b) =
        (flowProblem F reachable).meet (s.abs F reachable).outSet b := by
  have hbottom := makeBottomState_spec F.objects.length
  have hempty : ∀ c, (F.predecessors c).filter reachable = [] →
      (flowProblem F reachable).meet (s.abs F reachable).outSet c = ∅ := fun c hc =>
    Set.eq_empty_of_forall_notMem fun x hx => hx.1 hc
  unfold computeInState
  split_ifs with hentry hany
  · refine ⟨hbottom.1, hbottom.2.trans (hempty b ?_).symm⟩
    rw [hentry, F.predecessors_entry, List.filter_nil]
  · obtain ⟨hvalid, hmem⟩ :=
      mergePredecessors_spec h (F.predecessors b) (makeTopState_spec F.objects).1
    refine ⟨hvalid, Set.ext fun x => (hmem x).trans ⟨fun hx => ⟨?_, hx⟩, fun hx => hx.2⟩⟩
    obtain ⟨p, hp, hreach⟩ := List.any_eq_true.mp hany
    exact List.ne_nil_of_mem (List.mem_filter.mpr ⟨hp, hreach⟩)
  · refine ⟨hbottom.1, hbottom.2.trans (hempty b ?_).symm⟩
    rw [List.filter_eq_nil_iff]
    exact fun p hp hreach => hany (List.any_eq_true.mpr ⟨p, hp, hreach⟩)

/-- **Updating a reachable block** is a step of the must analysis. -/
theorem updateBlock_spec (h : ValidFlow F reachable s) (changed : Bool) {b : B}
    (hb : reachable b = true) :
    ValidFlow F reachable (updateBlock F reachable (s, changed) b).1 ∧
      (updateBlock F reachable (s, changed) b).1.abs F reachable =
        (flowProblem F reachable).step (s.abs F reachable) b := by
  obtain ⟨hvalid, hset⟩ := computeInState_spec h b
  obtain ⟨hvalid', hset'⟩ := foldl_transferInstruction_spec (F.instructions b) hvalid
  have hupdate : ∀ (f : B → Option InitRangeState) (state : InitRangeState),
      ValidState F.objects.length state →
      (∀ c, reachable c = true → ∃ st, f c = some st ∧ ValidState F.objects.length st) →
      ∀ c, reachable c = true → ∃ st, Function.update f b (some state) c = some st ∧
        ValidState F.objects.length st := by
    intro f state hstate hf c hc
    by_cases hcb : c = b
    · exact ⟨state, by rw [hcb, Function.update_self], hstate⟩
    · rw [Function.update_of_ne hcb]
      exact hf c hc
  have habs : ∀ (f : B → Option InitRangeState) (state : InitRangeState) (c : B),
      (Function.update f b (some state) c).elim (flowProblem F reachable).top stateSet =
        Function.update (fun d => (f d).elim (flowProblem F reachable).top stateSet) b
          (stateSet state) c := by
    intro f state c
    by_cases hcb : c = b
    · rw [hcb, Function.update_self, Function.update_self, Option.elim_some]
    · rw [Function.update_of_ne hcb, Function.update_of_ne hcb]
  simp only [updateBlock, hb, if_true]
  refine ⟨⟨hupdate _ _ hvalid h.inState, hupdate _ _ hvalid' h.outState⟩, ?_⟩
  unfold FlowStates.abs MustProblem.step
  simp only [habs, hset, hset']
  rfl

/-- An update that changes nothing. -/
theorem updateBlock_eq_self (h : ValidFlow F reachable s) {b : B} (hb : reachable b = true)
    (hstep : (flowProblem F reachable).step (s.abs F reachable) b = s.abs F reachable) :
    updateBlock F reachable (s, false) b = (s, false) := by
  obtain ⟨hvalid, hset⟩ := computeInState_spec h b
  obtain ⟨hvalid', hset'⟩ := foldl_transferInstruction_spec (F.instructions b) hvalid
  obtain ⟨inState, hin, hinValid⟩ := h.inState b hb
  obtain ⟨outState, hout, houtValid⟩ := h.outState b hb
  have hinEq : computeInState F reachable s.outState b = inState := by
    apply hvalid.ext hinValid
    rw [hset, ← abs_inSet hin, ← hstep, MustProblem.step_inSet_self, hstep]
  have houtEq : (F.instructions b).foldl (transferInstruction F.objects) inState = outState := by
    rw [← hinEq]
    apply hvalid'.ext houtValid
    rw [hset', hset, ← abs_outSet hout, ← hstep, MustProblem.step_outSet_self, hstep]
    rfl
  have hinUpdate : Function.update s.inState b (some inState) = s.inState := by
    rw [← hin, Function.update_eq_self]
  have houtUpdate : Function.update s.outState b (some outState) = s.outState := by
    rw [← hout, Function.update_eq_self]
  simp [updateBlock, hb, hinEq, houtEq, hin, hout, hinUpdate, houtUpdate]

/-- An update that is recorded as no change leaves the states alone. -/
theorem updateBlock_unchanged {r : FlowStates B × Bool} {b : B}
    (h : (updateBlock F reachable r b).2 = false) :
    r.2 = false ∧ (updateBlock F reachable r b).1 = r.1 := by
  unfold updateBlock at h ⊢
  split_ifs at h ⊢ with hb
  · simp only [Bool.or_eq_false_iff, decide_eq_false_iff_not, not_not] at h
    obtain ⟨⟨hr, hin⟩, hout⟩ := h
    refine ⟨hr, ?_⟩
    simp only [← hin, ← hout, Function.update_eq_self]
  · exact ⟨h, rfl⟩

/-- Updating the blocks of a list is a sweep over the reachable ones. -/
theorem foldl_updateBlock_spec (blocks : List B) {r : FlowStates B × Bool}
    (h : ValidFlow F reachable r.1) :
    ValidFlow F reachable (blocks.foldl (updateBlock F reachable) r).1 ∧
      (blocks.foldl (updateBlock F reachable) r).1.abs F reachable =
        (flowProblem F reachable).sweep (blocks.filter reachable) (r.1.abs F reachable) := by
  induction blocks generalizing r with
  | nil => exact ⟨h, rfl⟩
  | cons b blocks ih =>
    rw [List.foldl_cons]
    cases hb : reachable b with
    | false =>
      have hskip : updateBlock F reachable r b = r := by simp [updateBlock, hb]
      rw [hskip, List.filter_cons_of_neg (by simp [hb])]
      exact ih h
    | true =>
      obtain ⟨hvalid, habs⟩ := updateBlock_spec h r.2 hb
      rw [List.filter_cons_of_pos hb, MustProblem.sweep, List.foldl_cons, ← habs]
      exact ih hvalid

/-- **A sweep** of the analysis is a sweep of the must analysis. -/
theorem sweep_abs (h : ValidFlow F reachable s) :
    ValidFlow F reachable (sweep F reachable s).1 ∧
      (sweep F reachable s).1.abs F reachable =
        (flowProblem F reachable).sweep (F.blocks.filter reachable) (s.abs F reachable) :=
  foldl_updateBlock_spec F.blocks (r := (s, false)) h

/-- A sweep that records no change leaves the states alone. -/
theorem sweep_unchanged (h : (sweep F reachable s).2 = false) : (sweep F reachable s).1 = s := by
  have hfold : ∀ (blocks : List B) (r : FlowStates B × Bool),
      (blocks.foldl (updateBlock F reachable) r).2 = false →
      r.2 = false ∧ (blocks.foldl (updateBlock F reachable) r).1 = r.1 := by
    intro blocks
    induction blocks with
    | nil => exact fun r hr => ⟨hr, rfl⟩
    | cons b blocks ih =>
      intro r hr
      obtain ⟨hb, heq⟩ := ih _ hr
      obtain ⟨hr', heq'⟩ := updateBlock_unchanged hb
      exact ⟨hr', heq.trans heq'⟩
  exact (hfold F.blocks (s, false) h).2

/-- A sweep over states that no step of the must analysis changes records no change. -/
theorem sweep_eq_self (h : ValidFlow F reachable s)
    (hstep : ∀ b ∈ F.blocks.filter reachable,
      (flowProblem F reachable).step (s.abs F reachable) b = s.abs F reachable) :
    sweep F reachable s = (s, false) := by
  refine List.foldlRecOn (motive := fun r => r = (s, false)) F.blocks _ rfl fun r hr b hb => ?_
  subst hr
  cases hreach : reachable b with
  | false => simp [updateBlock, hreach]
  | true => exact updateBlock_eq_self h hreach (hstep b (List.mem_filter.mpr ⟨hb, hreach⟩))

/-- The states before the first iteration are the optimistic ones. -/
theorem initialStates_spec (hentry : reachable F.entry = true) :
    ValidFlow F reachable (initialStates F reachable) ∧
      (initialStates F reachable).abs F reachable = (flowProblem F reachable).init F.entry := by
  have hbottom := makeBottomState_spec F.objects.length
  have htop := (makeTopState_spec F.objects).1
  have hvalid : ∀ b, reachable b = true →
      ∃ state, (initialStates F reachable).inState b = some state ∧
        ValidState F.objects.length state := by
    intro b hb
    by_cases hentry : b = F.entry
    · exact ⟨makeBottomState F.objects.length, by simp [initialStates, ← hentry, hb], hbottom.1⟩
    · exact ⟨makeTopState F.objects, by simp [initialStates, hb, hentry], htop⟩
  have habs : ∀ b, ((initialStates F reachable).inState b).elim (flowProblem F reachable).top
      stateSet = if b = F.entry then ∅ else (flowProblem F reachable).top := by
    intro b
    by_cases hb : b = F.entry
    · simp [initialStates, hb, hentry, hbottom.2]
    · cases hreach : reachable b <;> simp [initialStates, hb, hreach, flowProblem]
  refine ⟨⟨hvalid, hvalid⟩, ?_⟩
  unfold FlowStates.abs MustProblem.init
  congr 1
  · exact funext habs
  · exact funext habs

end Flow

end StackAnalyzer.Uninit
