import StackAnalyzer.Uninit.ByteStates

set_option relaxedAutoImplicit false
set_option autoImplicit false

/-!
# What the definite-initialisation analysis computes

If the fixpoint loop comes to rest within its budget, then the bytes that the analysis takes for
initialised at the start of a block are those that are stored on every path to it. How many sweeps
the loop needs depends on the order of the blocks: a missing store is carried along any number of
edges to later blocks in one sweep, but along one edge to an earlier block only.

The budget is `16` sweeps for each reachable block, and at least `64`, in 32-bit arithmetic. That is
enough below `2 ^ 28` blocks, where the product does not wrap around.

## Main definitions

* `StackAnalyzer.Uninit.CfgPath`, `StackAnalyzer.Uninit.backEdges` — paths from the entry, and their
  edges that do not lead to a later block.
* `StackAnalyzer.Uninit.DefinitelyStored`, `StackAnalyzer.Uninit.Exact` — the bytes stored on every
  path, and states that hold exactly these.
* `StackAnalyzer.Uninit.WithinBudget` — no missing store needs more sweeps than the budget.

## Main results

* `StackAnalyzer.Uninit.analyzeFunction_exact_iff` — when the analysis converges to the exact states.
* `StackAnalyzer.Uninit.withinBudget_of_lt` — fewer than `2 ^ 28` reachable blocks are within the
  budget.
* `StackAnalyzer.Uninit.analyzeFunction_chain` — a function with `2 ^ 28` blocks that is not.
-/

namespace StackAnalyzer.Uninit

open Dataflow Graph Ranges

/-- The store of a value other than `undef` and `poison` to a byte of an object. -/
def Instruction.StoresTo (object byte : ℕ) : Instruction → Prop
  | .load _ _ _ => False
  | .store o offset size undef =>
    undef = false ∧ o = object ∧ offset ≤ byte ∧ byte < offset + size

section Paths

variable {B : Type*} [DecidableEq B] (F : TrackedFunction B)

/-- The block stores to the byte. -/
def BlockStores (b : B) (object byte : ℕ) : Prop :=
  ∃ i ∈ F.instructions b, i.StoresTo object byte

/-- The paths from the entry to a block, given by the blocks before it, the last one first. -/
inductive CfgPath : List B → B → Prop
  | entry : CfgPath [] F.entry
  | step {path : List B} {p b : B} (h : CfgPath path p) (hb : b ∈ F.successors p) :
      CfgPath (p :: path) b

/-- The order of the blocks in the function. -/
def Precedes (a b : B) : Prop := F.blocks.idxOf a < F.blocks.idxOf b

instance (a b : B) : Decidable (Precedes F a b) := inferInstanceAs (Decidable (_ < _))

/-- The number of edges on a path to a block that do not lead to a later block. -/
def backEdges : List B → B → ℕ
  | [], _ => 0
  | p :: path, b => backEdges path p + if Precedes F p b then 0 else 1

/-- No block of the path stores to the byte. -/
def Avoids (path : List B) (object byte : ℕ) : Prop := ∀ p ∈ path, ¬ BlockStores F p object byte

/-- Every path to the block stores to the byte. -/
def DefinitelyStored (b : B) (object byte : ℕ) : Prop :=
  ∀ path, CfgPath F path b → ¬ Avoids F path object byte

/-- The byte belongs to the tracked object of the index. -/
def TrackedByte (object byte : ℕ) : Prop :=
  ∃ obj, F.objects[object]? = some obj ∧ byte < getObjectFullRangeEnd obj

/-- The state in which a block starts contains the byte. -/
def InitializedAt (s : FlowStates B) (b : B) (object byte : ℕ) : Prop :=
  ∃ state ranges, s.inState b = some state ∧ state[object]? = some ranges ∧ byte ∈ carrier ranges

/-- The states contain exactly the bytes that are stored on every path. -/
def Exact (s : FlowStates B) : Prop :=
  ∀ b, (∃ path, CfgPath F path b) → ∀ object byte, TrackedByte F object byte →
    (InitializedAt s b object byte ↔ DefinitelyStored F b object byte)

/-- A byte that some path to a block leaves alone is left alone by a path on which at least two
fewer edges lead back than there are sweeps. -/
def SweepsSuffice (sweeps : ℕ) : Prop :=
  ∀ b object byte, TrackedByte F object byte →
    (∃ path, CfgPath F path b ∧ Avoids F path object byte) →
    ∃ path, CfgPath F path b ∧ Avoids F path object byte ∧ backEdges F path b + 2 ≤ sweeps

/-- The sweeps of the budget suffice. -/
def WithinBudget : Prop := SweepsSuffice F (max 64 (16 * reachableCount F % 2 ^ 32))

end Paths

section Correspondence

variable {B : Type*} [DecidableEq B] {F : TrackedFunction B}

omit [DecidableEq B] in
/-- The blocks are closed under successors. -/
theorem closed_blocks : Closed F.successors F.blocks := F.successors_mem

/-- The blocks that are found to be reachable are those that paths lead to. -/
theorem computeReachableBlocks_iff (b : B) :
    computeReachableBlocks F b = true ↔ ∃ path, CfgPath F path b := by
  rw [computeReachableBlocks, reachFrom_iff closed_blocks List.mem_cons_self (Nat.lt_succ_self _)]
  constructor
  · intro h
    induction h with
    | refl => exact ⟨[], .entry⟩
    | tail _ hbc ih =>
      obtain ⟨path, hpath⟩ := ih
      exact ⟨_, hpath.step hbc⟩
  · rintro ⟨path, h⟩
    induction h with
    | entry => exact Reach.refl _
    | step _ hb ih => exact ih.tail hb

omit [DecidableEq B] in
/-- A path stays inside of the function. -/
theorem CfgPath.mem_blocks {path : List B} {b : B} (h : CfgPath F path b) : b ∈ F.blocks := by
  induction h with
  | entry => exact List.mem_cons_self
  | step _ hb ih => exact F.successors_mem _ ih _ hb

variable (F) in
/-- The must analysis of the reachable part. -/
abbrev reachableProblem : MustProblem B (ℕ × ℕ) := flowProblem F (computeReachableBlocks F)

variable (F) in
/-- The reachable blocks in order. -/
def reachableBlocks : List B := F.blocks.filter (computeReachableBlocks F)

theorem mem_reachableBlocks_iff (b : B) :
    b ∈ reachableBlocks F ↔ ∃ path, CfgPath F path b := by
  rw [reachableBlocks, List.mem_filter, computeReachableBlocks_iff]
  exact ⟨fun h => h.2, fun ⟨path, h⟩ => ⟨h.mem_blocks, path, h⟩⟩

/-- The predecessors that the must analysis looks at. -/
theorem mem_preds_iff (b p : B) :
    p ∈ (reachableProblem F).preds b ↔ b ∈ F.successors p ∧ ∃ path, CfgPath F path p := by
  simp only [reachableProblem, flowProblem, List.mem_filter, F.mem_predecessors,
    computeReachableBlocks_iff]
  constructor
  · exact fun h => ⟨h.1.2, h.2⟩
  · rintro ⟨hb, path, h⟩
    exact ⟨⟨h.mem_blocks, hb⟩, path, h⟩

/-- The reachable part is closed under predecessors. -/
theorem preds_closed : ∀ b ∈ reachableBlocks F, ∀ p ∈ (reachableProblem F).preds b,
    p ∈ reachableBlocks F := fun b _ p hp =>
  (mem_reachableBlocks_iff p).mpr ((mem_preds_iff b p).mp hp).2

/-- The entry comes first. -/
theorem reachableBlocks_eq :
    reachableBlocks F = F.entry :: F.rest.filter (computeReachableBlocks F) :=
  List.filter_cons_of_pos ((computeReachableBlocks_iff F.entry).mpr ⟨[], .entry⟩)

/-- The reachable blocks are in order. -/
theorem pairwise_precedes : (reachableBlocks F).Pairwise (Precedes F) := by
  refine List.Pairwise.filter _ (List.pairwise_iff_getElem.mpr fun i j hi hj hij => ?_)
  have hnodup : F.blocks.Nodup := F.nodup
  rw [Precedes, hnodup.idxOf_getElem i hi, hnodup.idxOf_getElem j hj]
  exact hij

theorem precedes_asymm (a b : B) (h : Precedes F a b) : ¬ Precedes F b a := lt_asymm h

/-- Only the entry has no predecessors, among the reachable blocks. -/
theorem preds_eq_nil_iff {b : B} (hb : ∃ path, CfgPath F path b) :
    (reachableProblem F).preds b = [] ↔ b = F.entry := by
  constructor
  · intro h
    obtain ⟨path, hpath⟩ := hb
    cases hpath with
    | entry => rfl
    | step hp hb =>
      have hmem := (mem_preds_iff b _).mpr ⟨hb, _, hp⟩
      simp [h] at hmem
  · rintro rfl
    simp [reachableProblem, flowProblem, F.predecessors_entry]

/-- The bytes of the optimistic state. -/
theorem mem_top_iff (object byte : ℕ) :
    (object, byte) ∈ (reachableProblem F).top ↔ TrackedByte F object byte :=
  (makeTopState_spec F.objects).2 (object, byte)

/-- Clipping keeps the bytes of the object. -/
theorem clipRangeToObject_spec (obj : TrackedMemoryObject) (begin stop byte : ℕ)
    (hbyte : byte < getObjectFullRangeEnd obj) :
    (∃ access, clipRangeToObject obj begin stop = some access ∧ access.Contains byte) ↔
      begin ≤ byte ∧ byte < stop := by
  unfold clipRangeToObject getObjectFullRangeEnd at *
  split_ifs at * <;> simp [Range.Contains] <;> omega

omit [DecidableEq B] in
/-- A store initialises the bytes that it stores to. -/
theorem mem_storedBytes_iff {object byte : ℕ} (h : TrackedByte F object byte)
    (i : Instruction) :
    (object, byte) ∈ storedBytes F.objects i ↔ i.StoresTo object byte := by
  obtain ⟨obj, hobj, hbyte⟩ := h
  cases i with
  | load => rfl
  | store o offset size undef =>
    have hmax : getObjectFullRangeEnd obj ≤ maxVal := by
      have := obj.sizeBytes_le
      unfold getObjectFullRangeEnd kUnknownObjectFullRange
      split_ifs
      · omega
      · exact this
    have haccess : (∃ access, resolveAccess obj offset size = some access ∧
        access.Contains byte) ↔ offset ≤ byte ∧ byte < offset + size := by
      unfold resolveAccess
      split_ifs with hsize
      · simp only [false_and, exists_false, false_iff]
        omega
      · rw [clipRangeToObject_spec obj _ _ _ hbyte]
        unfold saturatingAdd
        split_ifs <;> omega
    simp only [storedBytes, Set.mem_ofPred_eq, Instruction.StoresTo]
    refine and_congr_right fun _ => ?_
    constructor
    · rintro ⟨rfl, access, hresolve, hin⟩
      rw [hobj, Option.bind_some] at hresolve
      exact ⟨rfl, haccess.mp ⟨access, hresolve, hin⟩⟩
    · rintro ⟨rfl, hin⟩
      obtain ⟨access, hresolve, hin⟩ := haccess.mpr hin
      exact ⟨rfl, access, by rw [hobj, Option.bind_some, hresolve], hin⟩

theorem mem_gen_iff {object byte : ℕ} (h : TrackedByte F object byte) (b : B) :
    (object, byte) ∈ (reachableProblem F).gen b ↔ BlockStores F b object byte :=
  exists_congr fun i => and_congr_right fun _ => mem_storedBytes_iff h i

/-- **Missing stores** are paths of the function that leave the byte alone. -/
theorem missing_iff_cfgPath {object byte : ℕ} (h : TrackedByte F object byte) {k : ℕ} {b : B}
    (hb : ∃ path, CfgPath F path b) :
    (reachableProblem F).Missing (Precedes F) (object, byte) k b ↔
      ∃ path, CfgPath F path b ∧ Avoids F path object byte ∧ backEdges F path b = k := by
  constructor
  · intro hmiss
    induction hmiss with
    | entry hnil =>
      obtain rfl := (preds_eq_nil_iff hb).mp hnil
      exact ⟨[], .entry, by simp [Avoids], rfl⟩
    | @forward k p b _ hgen hp hbefore ih | @back k p b _ hgen hp hbefore ih =>
      obtain ⟨hedge, hreach⟩ := (mem_preds_iff b p).mp hp
      obtain ⟨path, hpath, havoids, hback⟩ := ih hreach
      rw [mem_gen_iff h] at hgen
      exact ⟨p :: path, hpath.step hedge, List.forall_mem_cons.mpr ⟨hgen, havoids⟩,
        by simp [backEdges, hback, hbefore]⟩
  · rintro ⟨path, hpath, havoids, rfl⟩
    induction hpath with
    | entry => exact .entry ((preds_eq_nil_iff hb).mpr rfl)
    | @step path p b hpath hedge ih =>
      obtain ⟨hgen, havoids⟩ := List.forall_mem_cons.mp havoids
      rw [← mem_gen_iff h] at hgen
      have hp := (mem_preds_iff b p).mpr ⟨hedge, path, hpath⟩
      have hmiss := ih ⟨path, hpath⟩ havoids
      by_cases hbefore : Precedes F p b
      · simpa [backEdges, hbefore] using hmiss.forward hgen hp hbefore
      · simpa [backEdges, hbefore] using hmiss.back hgen hp hbefore

end Correspondence

/-! ## The fixpoint loop -/

section Loop

variable {B : Type*} [DecidableEq B] {F : TrackedFunction B}

variable (F) in
/-- The states after a number of sweeps. -/
def sweeps (n : ℕ) (s : FlowStates B) : FlowStates B :=
  (fun t => (sweep F (computeReachableBlocks F) t).1)^[n] s

variable (F) in
/-- The states before the first sweep. -/
def startStates : FlowStates B := initialStates F (computeReachableBlocks F)

/-- The loop ends without a change at the states after some sweep. -/
theorem fixpointLoop_false {n : ℕ} {s : FlowStates B}
    (h : (fixpointLoop F (computeReachableBlocks F) n s).2 = false) :
    ∃ m < n, (sweep F (computeReachableBlocks F) (sweeps F m s)).2 = false ∧
      (fixpointLoop F (computeReachableBlocks F) n s).1 = sweeps F m s := by
  induction n generalizing s with
  | zero => simp [fixpointLoop] at h
  | succ n ih =>
    simp only [fixpointLoop] at h ⊢
    split_ifs at h ⊢ with hchanged
    · obtain ⟨m, hm, hstop, heq⟩ := ih h
      exact ⟨m + 1, Nat.succ_lt_succ hm, hstop, heq⟩
    · have hstop := eq_false_of_ne_true hchanged
      exact ⟨0, Nat.succ_pos n, hstop, sweep_unchanged hstop⟩

/-- The loop ends when a sweep within its iterations changes nothing. -/
theorem fixpointLoop_of_stop {n m : ℕ} {s : FlowStates B} (hm : m < n)
    (hstop : (sweep F (computeReachableBlocks F) (sweeps F m s)).2 = false) :
    (fixpointLoop F (computeReachableBlocks F) n s).2 = false := by
  induction n generalizing m s with
  | zero => exact absurd hm (Nat.not_lt_zero m)
  | succ n ih =>
    simp only [fixpointLoop]
    split_ifs with hchanged
    · cases m with
      | zero => exact absurd hchanged (by simpa [sweeps] using hstop)
      | succ m => exact ih (Nat.lt_of_succ_lt_succ hm) hstop
    · rfl

variable (F) in
/-- The sets of bytes after a number of sweeps. -/
def setSweeps (n : ℕ) : MustState B (ℕ × ℕ) :=
  ((reachableProblem F).sweep (reachableBlocks F))^[n] ((reachableProblem F).init F.entry)

/-- Sweeps of the analysis are sweeps of the must analysis. -/
theorem sweeps_spec (n : ℕ) :
    ValidFlow F (computeReachableBlocks F) (sweeps F n (startStates F)) ∧
      (sweeps F n (startStates F)).abs F (computeReachableBlocks F) = setSweeps F n := by
  induction n with
  | zero => exact initialStates_spec ((computeReachableBlocks_iff F.entry).mpr ⟨[], .entry⟩)
  | succ n ih =>
    obtain ⟨hvalid, habs⟩ := sweep_abs ih.1
    rw [ih.2] at habs
    unfold sweeps setSweeps at *
    rw [Function.iterate_succ_apply', Function.iterate_succ_apply']
    exact ⟨hvalid, habs⟩

/-- What the sets hold after a number of sweeps. -/
theorem setSweeps_holds (n : ℕ) {b : B} (hb : b ∈ reachableBlocks F) :
    (reachableProblem F).Holds (Precedes F) (n + 1) (setSweeps F (n + 1)) b := by
  have hclosed := preds_closed (F := F)
  have hsorted := pairwise_precedes (F := F)
  unfold setSweeps
  rw [reachableBlocks_eq] at *
  exact MustProblem.sweep_iterate precedes_asymm hclosed hsorted
    ((preds_eq_nil_iff ⟨[], .entry⟩).mpr rfl) n b hb

/-- A sweep that records no change leaves the sets alone. -/
theorem setSweeps_of_stop {n : ℕ}
    (hstop : (sweep F (computeReachableBlocks F) (sweeps F n (startStates F))).2 = false) :
    setSweeps F (n + 1) = setSweeps F n := by
  rw [← (sweeps_spec n).2, ← (sweeps_spec (n + 1)).2]
  unfold sweeps
  rw [Function.iterate_succ_apply']
  exact congrArg _ (sweep_unchanged hstop)

/-- The sets that a sweep does not change are the meet over all paths. -/
theorem setSweeps_eq_mop {n : ℕ} (hfix : setSweeps F (n + 1) = setSweeps F n) {b : B}
    (hb : b ∈ reachableBlocks F) :
    (setSweeps F n).inSet b = (reachableProblem F).mop (Precedes F) b := by
  have hclosed := preds_closed (F := F)
  have hsorted := pairwise_precedes (F := F)
  unfold setSweeps at *
  rw [Function.iterate_succ_apply'] at hfix
  rw [reachableBlocks_eq] at *
  exact MustProblem.sweep_iterate_fixed precedes_asymm hclosed hsorted
    ((preds_eq_nil_iff ⟨[], .entry⟩).mpr rfl) hfix hb

/-- The meet over all paths are the bytes that are stored on every path. -/
theorem mem_mop_iff_definitelyStored {object byte : ℕ} (h : TrackedByte F object byte) {b : B}
    (hb : ∃ path, CfgPath F path b) :
    (object, byte) ∈ (reachableProblem F).mop (Precedes F) b ↔
      DefinitelyStored F b object byte := by
  constructor
  · rintro ⟨-, hall⟩ path hpath havoids
    exact hall _ ((missing_iff_cfgPath h hb).mpr ⟨path, hpath, havoids, rfl⟩)
  · intro hstored
    refine ⟨(mem_top_iff object byte).mpr h, fun k hmiss => ?_⟩
    obtain ⟨path, hpath, havoids, -⟩ := (missing_iff_cfgPath h hb).mp hmiss
    exact hstored path hpath havoids

/-- All paths are considered after some sweeps iff they suffice. -/
theorem within_eq_mop_iff_sweepsSuffice {n : ℕ} :
    (∀ b ∈ reachableBlocks F, (reachableProblem F).within (Precedes F) n b =
      (reachableProblem F).mop (Precedes F) b) ↔ SweepsSuffice F (n + 1) := by
  simp only [MustProblem.within_eq_mop_iff, mem_reachableBlocks_iff]
  constructor
  · rintro h b object byte htracked ⟨path, hpath, havoids⟩
    have hb : ∃ path, CfgPath F path b := ⟨path, hpath⟩
    obtain ⟨k, hk, hmiss⟩ := h b hb (object, byte) ((mem_top_iff object byte).mpr htracked)
      ⟨_, (missing_iff_cfgPath htracked hb).mpr ⟨path, hpath, havoids, rfl⟩⟩
    obtain ⟨path', hpath', havoids', rfl⟩ := (missing_iff_cfgPath htracked hb).mp hmiss
    exact ⟨path', hpath', havoids', by omega⟩
  · rintro h b hb ⟨object, byte⟩ htop ⟨k, hmiss⟩
    have htracked := (mem_top_iff object byte).mp htop
    obtain ⟨path, hpath, havoids, -⟩ := (missing_iff_cfgPath htracked hb).mp hmiss
    obtain ⟨path', hpath', havoids', hk⟩ := h b object byte htracked ⟨path, hpath, havoids⟩
    exact ⟨_, by omega, (missing_iff_cfgPath htracked hb).mpr ⟨path', hpath', havoids', rfl⟩⟩

/-- **The loop converges** within a number of sweeps iff these suffice. -/
theorem fixpointLoop_converges_iff {n : ℕ} (hn : 2 ≤ n) :
    (fixpointLoop F (computeReachableBlocks F) n (startStates F)).2 = false ↔
      SweepsSuffice F n := by
  obtain ⟨n, rfl⟩ := Nat.exists_eq_add_of_le' hn
  rw [← within_eq_mop_iff_sweepsSuffice]
  constructor
  · intro h b hb
    obtain ⟨m, hm, hstop, -⟩ := fixpointLoop_false h
    have hfix := setSweeps_of_stop hstop
    have hmop : (reachableProblem F).within (Precedes F) (m + 1) b =
        (reachableProblem F).mop (Precedes F) b := by
      rw [← (setSweeps_holds m hb).inSet, hfix, setSweeps_eq_mop hfix hb]
    have hshort : ∀ j, (reachableProblem F).within (Precedes F) j b =
        (reachableProblem F).mop (Precedes F) b → j ≤ n + 1 →
        (reachableProblem F).within (Precedes F) (n + 1) b =
          (reachableProblem F).mop (Precedes F) b := by
      intro j hj hle
      rw [MustProblem.within_eq_mop_iff] at hj ⊢
      intro x htop hmiss
      obtain ⟨k, hk, hk'⟩ := hj x htop hmiss
      exact ⟨k, by omega, hk'⟩
    cases m with
    | zero => exact hshort 1 hmop (by omega)
    | succ m =>
      refine hshort (m + 1) ?_ (by omega)
      rw [← (setSweeps_holds m hb).inSet, setSweeps_eq_mop hfix hb]
  · intro hmop
    obtain ⟨hvalid, habs⟩ := sweeps_spec (F := F) (n + 1)
    refine fixpointLoop_of_stop (Nat.lt_succ_self (n + 1)) (congrArg Prod.snd
      (sweep_eq_self hvalid fun b hb => ?_))
    rw [habs]
    exact MustProblem.step_eq_self preds_closed hmop (fun c hc => setSweeps_holds n hc) hb

/-- The states of a loop that converges are exact. -/
theorem fixpointLoop_exact {n : ℕ}
    (h : (fixpointLoop F (computeReachableBlocks F) n (startStates F)).2 = false) :
    Exact F (fixpointLoop F (computeReachableBlocks F) n (startStates F)).1 := by
  obtain ⟨m, -, hstop, heq⟩ := fixpointLoop_false h
  rw [heq]
  intro b hb object byte htracked
  obtain ⟨hvalid, habs⟩ := sweeps_spec (F := F) m
  obtain ⟨state, hstate, -⟩ := hvalid.inState b ((computeReachableBlocks_iff b).mpr hb)
  rw [← mem_mop_iff_definitelyStored htracked hb,
    ← setSweeps_eq_mop (setSweeps_of_stop hstop) ((mem_reachableBlocks_iff b).mpr hb), ← habs,
    abs_inSet hstate]
  simp only [InitializedAt, stateSet, Set.mem_ofPred_eq, hstate, Option.some.injEq,
    exists_and_left, exists_eq_left']

/-- The budget, computed in 32-bit arithmetic. -/
theorem maxIterations_eq (n : ℕ) : maxIterations n = max 64 (16 * n % 2 ^ 32) := by
  rw [maxIterations, Nat.mod_mul_mod, Nat.mul_comm]

/-- **Few blocks are within the budget**: fewer than `2 ^ 28` reachable blocks, whatever their
order.

**Proof sketch.** Some path that leaves the byte alone has fewer edges that lead back than there are
reachable blocks, and `16` times their number does not wrap around. -/
theorem withinBudget_of_lt (h : reachableCount F < 2 ^ 28) : WithinBudget F := by
  rintro b object byte htracked ⟨path, hpath, havoids⟩
  have hb : ∃ path, CfgPath F path b := ⟨path, hpath⟩
  obtain ⟨k, hk, hmiss⟩ := MustProblem.Missing.short preds_closed
    ((missing_iff_cfgPath htracked hb).mpr ⟨path, hpath, havoids, rfl⟩)
    ((mem_reachableBlocks_iff b).mpr hb)
  obtain ⟨path', hpath', havoids', rfl⟩ := (missing_iff_cfgPath htracked hb).mp hmiss
  refine ⟨path', hpath', havoids', ?_⟩
  change _ < reachableCount F at hk
  omega

/-- **What the analysis computes**: it converges to exactly the bytes that are stored on every path
iff the sweeps of the budget suffice.

**Proof sketch.** After `n` sweeps a byte is known to be uninitialised at the start of a block iff
some path that leaves it alone has fewer than `n` edges that lead back. So a sweep changes nothing
once the paths with at least two such edges less suffice, and from then on all paths have been
considered. -/
theorem analyzeFunction_exact_iff {B : Type*} [DecidableEq B] (F : TrackedFunction B) :
    (∀ r, analyzeFunction F = some r → r.2 = false ∧ Exact F r.1) ↔ WithinBudget F := by
  have hconverges := fixpointLoop_converges_iff (F := F)
    (n := max 64 (16 * reachableCount F % 2 ^ 32)) (by omega)
  unfold analyzeFunction
  split_ifs with hobjects
  · refine ⟨fun _ b object byte htracked => ?_, fun _ r hr => by simp at hr⟩
    obtain ⟨obj, hobj, -⟩ := htracked
    simp [hobjects] at hobj
  · simp only [Option.some.injEq, forall_eq', maxIterations_eq]
    exact ⟨fun h => hconverges.mp h.1, fun h =>
      ⟨hconverges.mpr h, fixpointLoop_exact (hconverges.mpr h)⟩⟩

/-- A loop that gives up leaves the states after its last sweep. -/
theorem fixpointLoop_true {n : ℕ} {s : FlowStates B}
    (h : (fixpointLoop F (computeReachableBlocks F) n s).2 = true) :
    (fixpointLoop F (computeReachableBlocks F) n s).1 = sweeps F n s := by
  induction n generalizing s with
  | zero => rfl
  | succ n ih =>
    simp only [fixpointLoop] at h ⊢
    split_ifs at h ⊢ with hchanged
    exact ih h

end Loop

/-! ## A function that is out of the budget -/

section Chain

/-- A function whose blocks follow each other without branches. Behind the entry they are in reverse
order, so that all edges but the first lead back. Nothing is stored to its only object, of one
byte. -/
def chain (n : ℕ) (hn : 0 < n) : TrackedFunction ℕ where
  entry := 0
  rest := (List.range' 1 (n - 1)).reverse
  successors b := if b + 1 < n then [b + 1] else []
  predecessors b := if 0 < b ∧ b < n then [b - 1] else []
  instructions _ := []
  objects := [⟨.alloca, 1, by decide, by decide⟩]
  nodup := by simp [List.nodup_range']
  successors_mem := by
    intro b _ s hs
    split_ifs at hs
    · simp only [List.mem_singleton] at hs
      simp only [List.mem_cons, List.mem_reverse, List.mem_range'_1]
      omega
    · simp at hs
  mem_predecessors := by
    intro b p
    simp only [List.mem_cons, List.mem_reverse, List.mem_range'_1]
    split_ifs <;> simp <;> omega
  predecessors_entry := by simp

variable {n : ℕ} {hn : 0 < n}

/-- The only path to a block, and the edges on it that lead back. -/
theorem CfgPath.of_chain {path : List ℕ} {b : ℕ} (h : CfgPath (chain n hn) path b) :
    b < n ∧ backEdges (chain n hn) path b = b - 1 := by
  have hindex : ∀ i, 0 < i → i < n → (chain n hn).blocks.idxOf i = n - i := by
    intro i hi hin
    have hnodup : (chain n hn).blocks.Nodup := (chain n hn).nodup
    have hlen : (chain n hn).blocks.length = n := by
      simp only [TrackedFunction.blocks, chain, List.length_cons, List.length_reverse,
        List.length_range']
      omega
    have hlt : n - i < (chain n hn).blocks.length := by omega
    have hget : (chain n hn).blocks[n - i] = i := by
      obtain ⟨j, hj⟩ : ∃ j, n - i = j + 1 := ⟨n - i - 1, by omega⟩
      simp only [TrackedFunction.blocks, chain, hj, List.getElem_cons_succ, List.getElem_reverse,
        List.getElem_range', List.length_range']
      omega
    rw [← hnodup.idxOf_getElem (n - i) hlt, hget]
  have hentry : (chain n hn).blocks.idxOf 0 = 0 := by
    simp [TrackedFunction.blocks, chain]
  induction h with
  | entry => exact ⟨hn, rfl⟩
  | @step path p b h hb ih =>
    obtain ⟨hp, hback⟩ := ih
    simp only [chain] at hb
    split_ifs at hb with hlt
    · obtain rfl := List.mem_singleton.mp hb
      refine ⟨hlt, ?_⟩
      simp only [backEdges, Precedes, hback, hindex (p + 1) p.succ_pos hlt]
      cases p with
      | zero => simp only [hentry]; split_ifs <;> omega
      | succ p => rw [hindex (p + 1) p.succ_pos hp]; split_ifs <;> omega
    · simp at hb

/-- Every block is reachable. -/
theorem exists_cfgPath_chain {b : ℕ} (hb : b < n) : ∃ path, CfgPath (chain n hn) path b := by
  induction b with
  | zero => exact ⟨[], .entry⟩
  | succ b ih =>
    obtain ⟨path, hpath⟩ := ih (by omega)
    exact ⟨_, hpath.step (by simp [chain, hb])⟩

theorem reachableCount_chain : reachableCount (chain n hn) = n := by
  have hall : ∀ b ∈ (chain n hn).blocks, computeReachableBlocks (chain n hn) b = true := by
    intro b hb
    refine (computeReachableBlocks_iff b).mpr (exists_cfgPath_chain ?_)
    simp only [TrackedFunction.blocks, chain, List.mem_cons, List.mem_reverse,
      List.mem_range'_1] at hb
    omega
  rw [reachableCount, List.filter_eq_self.mpr hall]
  simp only [TrackedFunction.blocks, chain, List.length_cons, List.length_reverse,
    List.length_range']
  omega

/-- After too few sweeps the loop gives up, with a byte taken for initialised that nothing stores
to. -/
theorem chain_diverges (sweeps : ℕ) (h : sweeps + 3 < n) :
    (fixpointLoop (chain n hn) (computeReachableBlocks (chain n hn)) (sweeps + 1)
        (startStates (chain n hn))).2 = true ∧
      ¬ Exact (chain n hn) (fixpointLoop (chain n hn) (computeReachableBlocks (chain n hn))
        (sweeps + 1) (startStates (chain n hn))).1 := by
  have htracked : TrackedByte (chain n hn) 0 0 :=
    ⟨⟨.alloca, 1, by decide, by decide⟩, rfl, by simp [getObjectFullRangeEnd]⟩
  have havoids : ∀ path, Avoids (chain n hn) path 0 0 := fun path p _ => by
    simp [BlockStores, chain]
  obtain ⟨path, hpath⟩ : ∃ path, CfgPath (chain n hn) path (sweeps + 3) :=
    exists_cfgPath_chain h
  have hb := (mem_reachableBlocks_iff (sweeps + 3)).mpr ⟨path, hpath⟩
  have hheld : ∀ m ≤ sweeps, (0, 0) ∈ (setSweeps (chain n hn) (m + 1)).inSet (sweeps + 3) := by
    intro m hm
    rw [(setSweeps_holds m hb).inSet]
    refine ⟨(mem_top_iff 0 0).mpr htracked, fun k hk hmiss => ?_⟩
    obtain ⟨path', hpath', -, hback⟩ := (missing_iff_cfgPath htracked ⟨path, hpath⟩).mp hmiss
    have := hpath'.of_chain.2
    omega
  have hgivesUp : (fixpointLoop (chain n hn) (computeReachableBlocks (chain n hn)) (sweeps + 1)
      (startStates (chain n hn))).2 = true := by
    by_contra hstop
    obtain ⟨m, hm, hstop, -⟩ := fixpointLoop_false (eq_false_of_ne_true hstop)
    have hfix := setSweeps_of_stop hstop
    have hmem := hheld m (Nat.lt_succ_iff.mp hm)
    rw [hfix, setSweeps_eq_mop hfix hb,
      mem_mop_iff_definitelyStored htracked ⟨path, hpath⟩] at hmem
    exact hmem path hpath (havoids path)
  refine ⟨hgivesUp, fun hexact => ?_⟩
  obtain ⟨hvalid, habs⟩ := sweeps_spec (F := chain n hn) (sweeps + 1)
  obtain ⟨state, hstate, -⟩ :=
    hvalid.inState (sweeps + 3) ((computeReachableBlocks_iff _).mpr ⟨path, hpath⟩)
  have hmem := hheld sweeps le_rfl
  rw [← habs, abs_inSet hstate] at hmem
  obtain ⟨ranges, hranges, hbyte⟩ := hmem
  rw [fixpointLoop_true hgivesUp] at hexact
  exact (hexact (sweeps + 3) ⟨path, hpath⟩ 0 0 htracked).mp ⟨state, ranges, hstate, hranges, hbyte⟩
    path hpath (havoids path)

/-- **The budget wraps around**: a chain of `2 ^ 28` blocks gets `64` sweeps only, and the analysis
gives up with states that hold a byte that nothing stores to. -/
theorem analyzeFunction_chain :
    ∃ r, analyzeFunction (chain (2 ^ 28) (Nat.two_pow_pos 28)) = some r ∧ r.2 = true ∧
      ¬ Exact (chain (2 ^ 28) (Nat.two_pow_pos 28)) r.1 := by
  have hbudget : maxIterations (reachableCount (chain (2 ^ 28) (Nat.two_pow_pos 28))) = 64 := by
    rw [reachableCount_chain]
    norm_num [maxIterations]
  refine ⟨_, by rw [analyzeFunction, if_neg (by simp [chain]), hbudget], ?_⟩
  exact chain_diverges 63 (by norm_num)

end Chain

end StackAnalyzer.Uninit
