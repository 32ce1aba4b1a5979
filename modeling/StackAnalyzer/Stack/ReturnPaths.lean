import StackAnalyzer.Bounds.CollectedRanges
import StackAnalyzer.Bounds.PredicateRanges
import StackAnalyzer.Graph.BoundedSearch
import StackAnalyzer.Smt.Refinement
import StackAnalyzer.Stack.DominatedReturns

set_option relaxedAutoImplicit false
set_option autoImplicit false

/-!
# The search for a return without a recursive call

A function that may return without a recursive call need not recurse forever. Such a return is
searched for along the paths of the function. A path carries the bounds that its branches give for
the values that they compare, and it ends where these contradict each other. The bounds of a value
stay on the path: a value that is loaded from a variable has one range for all loads, whatever is
stored between them, and unsigned comparisons bound the same number as signed ones.

## Main definitions

* `StackAnalyzer.Frames.deriveEdgeConstraint`, `StackAnalyzer.Frames.applyConstraintToState` — the
  bounds of a branch.
* `StackAnalyzer.Frames.hasFeasibleNonRecursiveReturnPath` — the search.
* `StackAnalyzer.Frames.Walk` — the paths of a function, with the bounds that they collect.
* `StackAnalyzer.Frames.Consistent` — one number for each value lies within all bounds.

## Main results

* `StackAnalyzer.Frames.returnPaths_sound` — what the answers say about the paths.
* `StackAnalyzer.Frames.returnPaths_exact` — functions with few paths are answered exactly.
-/

namespace StackAnalyzer.Frames

open Bounds Graph Llvm Maps Smt

/-! ## Constraints -/

/-- `ConstraintSat`. -/
inductive ConstraintSat
  | sat | unsat | unknown

/-- The bounds contradict each other. -/
def contradictory (range : IntRange) : Bool :=
  range.hasLower && range.hasUpper && decide (range.lower > range.upper)

section Constraints

variable {F V B : Type*} [DecidableEq V] (mod : Module F V B)

/-- `evaluateIntervalSatisfiability`. -/
def evaluateIntervalSatisfiability (ranges : EntryMap V IntRange) : ConstraintSat :=
  if ranges.entries.any fun entry => contradictory entry.2 then .unsat else .sat

/-- What the solver says about the ranges at an edge: its condition, whether it is the edge of the
true condition, its block and the block before. -/
abbrev EdgeSolver (V B : Type*) [DecidableEq V] :=
  EntryMap V IntRange → V → Bool → B → Option B → SmtFeasibility

/-- `isSatisfiable`, of the recursion checks. -/
def isSatisfiable (solver : EdgeSolver V B) (ranges : EntryMap V IntRange) (edgeCondition : V)
    (takesTrueEdge : Bool) (edgeBlock : B) (incomingBlock : Option B) : ConstraintSat :=
  match solver ranges edgeCondition takesTrueEdge edgeBlock incomingBlock with
  | .feasible => .sat
  | .infeasible => .unsat
  | .inconclusive => evaluateIntervalSatisfiability ranges

/-- `applyConstraintToState`: the ranges, and whether the one of the key is not contradictory. -/
def applyConstraintToState (ranges : EntryMap V IntRange) (key : V) (constraint : IntRange) :
    EntryMap V IntRange × Bool :=
  let cur := intersectRange ((ranges.find key).getD {}) constraint
  (ranges.assign key cur, !contradictory cur)

variable [Fintype V]

/-- `canonicalConstraintValue`. -/
def canonicalConstraintValue (value : V) : V :=
  let current := mod.stripPointerCasts (mod.stripCasts value)
  match mod.value current with
  | .load pointer => mod.stripPointerCasts pointer
  | _ => current

/-- `deriveEdgeConstraint`: the key and its bounds. -/
def deriveEdgeConstraint (pred : Predicate) (op0 op1 : V) (takesTrueEdge : Bool) :
    Option (V × IntRange) :=
  match mod.value op0, mod.value op1 with
  | .constantInt _ _, .constantInt _ _ => none
  | _, .constantInt _ c =>
    (deriveRangeConstraintFromPredicate (edgePredicate pred takesTrueEdge) true c).map fun range =>
      (canonicalConstraintValue mod op0, range)
  | .constantInt _ c, _ =>
    (deriveRangeConstraintFromPredicate (edgePredicate pred takesTrueEdge) false c).map fun range =>
      (canonicalConstraintValue mod op1, range)
  | _, _ => none

/-- The constraint of an edge of a branch, if its condition is a comparison. -/
def edgeConstraint (cond : V) (takesTrueEdge : Bool) : Option (V × IntRange) :=
  match mod.value (mod.stripPointerCasts cond) with
  | .icmp pred op0 op1 => deriveEdgeConstraint mod pred op0 op1 takesTrueEdge
  | _ => none

end Constraints

/-! ## The search -/

/-- `NonRecursiveReturnFeasibility`. -/
inductive NonRecursiveReturnFeasibility
  | pathExists | doesNotExist | inconclusive
  deriving DecidableEq

/-- `PathState`. -/
structure PathState (V B : Type*) where
  block : B
  predecessor : Option B
  ranges : EntryMap V IntRange
  depth : ℕ
  sawRecursiveCall : Bool

/-- `kMaxStates`. -/
def kMaxStates : ℕ := 4096

/-- `kMaxDepth`. -/
def kMaxDepth : ℕ := 1024

/-- `kMaxVisitsPerNode`. -/
def kMaxVisitsPerNode : ℕ := 128

section Search

variable {F V B : Type*} [DecidableEq V] [Fintype V] [DecidableEq B] (mod : Module F V B)
variable (solver : EdgeSolver V B) (isRecursiveCallee : F → Bool)

/-- The loop over the instructions of a block: whether there has been a recursive call, and whether
the block returns. -/
def scanInstructions : List V → Bool → Bool × Bool
  | [], sawRecursiveCall => (sawRecursiveCall, false)
  | inst :: rest, sawRecursiveCall =>
    let sawRecursiveCall := sawRecursiveCall || callsRecursive mod isRecursiveCallee inst
    if isReturn mod inst then (sawRecursiveCall, true) else scanInstructions rest sawRecursiveCall

/-- The body of the loop over the two edges of a conditional branch. -/
def branchEdge (current : PathState V B) (sawRecursiveCall : Bool) (cond : V)
    (takesTrueEdge : Bool) (succ : B) :
    Except NonRecursiveReturnFeasibility (List (PathState V B)) :=
  let constrained :=
    match edgeConstraint mod cond takesTrueEdge with
    | some (key, constraint) => applyConstraintToState current.ranges key constraint
    | none => (current.ranges, true)
  if constrained.2 then
    match isSatisfiable solver constrained.1 (mod.stripPointerCasts cond) takesTrueEdge
        current.block current.predecessor with
    | .unsat => .ok []
    | .unknown => .error .inconclusive
    | .sat => .ok [⟨succ, some current.block, constrained.1, current.depth + 1, sawRecursiveCall⟩]
  else .ok []

/-- The states behind a block that does not return. -/
def nextStates (current : PathState V B) (sawRecursiveCall : Bool) :
    Except NonRecursiveReturnFeasibility (List (PathState V B)) :=
  match (mod.instructions current.block).getLast?.map mod.value with
  | some (.br cond ifTrue ifFalse) => do
    let trueStates ← branchEdge mod solver current sawRecursiveCall cond true ifTrue
    let falseStates ← branchEdge mod solver current sawRecursiveCall cond false ifFalse
    return trueStates ++ falseStates
  | _ => .ok ((mod.successors current.block).map fun succ =>
      ⟨succ, some current.block, current.ranges, current.depth + 1, sawRecursiveCall⟩)

/-- The loop over the states of the queue, for at most a number of them. -/
def exploreReturns :
    ℕ → List (PathState V B) → (B × Bool → ℕ) → Bool → NonRecursiveReturnFeasibility
  | _, [], _, sawAnyRecursivePath => if sawAnyRecursivePath then .doesNotExist else .pathExists
  | 0, _ :: _, _, _ => .inconclusive
  | n + 1, current :: worklist, visits, sawAnyRecursivePath =>
    if kMaxDepth < current.depth then .inconclusive
    else
      let visitKey := (current.block, current.sawRecursiveCall)
      let visited := Function.update visits visitKey (visits visitKey + 1)
      if kMaxVisitsPerNode < visits visitKey then
        exploreReturns n worklist visited sawAnyRecursivePath
      else
        match scanInstructions mod isRecursiveCallee (mod.instructions current.block)
            current.sawRecursiveCall with
        | (false, true) => .pathExists
        | (true, true) => exploreReturns n worklist visited true
        | (sawRecursiveCall, false) =>
          match nextStates mod solver current sawRecursiveCall with
          | .error answer => answer
          | .ok next => exploreReturns n (worklist ++ next) visited sawAnyRecursivePath

/-- The state at the entry. -/
def entryState (entry : B) : PathState V B := ⟨entry, none, EntryMap.empty, 0, false⟩

/-- `hasFeasibleNonRecursiveReturnPath`. -/
def hasFeasibleNonRecursiveReturnPath (f : F) : NonRecursiveReturnFeasibility :=
  match (mod.blocks f).head? with
  | none => .inconclusive
  | some entry =>
    exploreReturns mod solver isRecursiveCallee kMaxStates [entryState entry] (fun _ => 0) false

end Search

/-! ## The search as one of the library -/

section Depths

variable {F V B : Type*} [DecidableEq V] [Fintype V] (mod : Module F V B)
variable (solver : EdgeSolver V B) (isRecursiveCallee : F → Bool)

/-- What happens in the block of a state. -/
def scanBlock (current : PathState V B) : Bool × Bool :=
  scanInstructions mod isRecursiveCallee (mod.instructions current.block) current.sawRecursiveCall

/-- The states behind a block; a return without a recursive call is an answer. -/
def expandState (current : PathState V B) :
    Except NonRecursiveReturnFeasibility (List (PathState V B)) :=
  match scanBlock mod isRecursiveCallee current with
  | (false, true) => .error .pathExists
  | (true, true) => .ok []
  | (sawRecursiveCall, false) => nextStates mod solver current sawRecursiveCall

variable {mod solver isRecursiveCallee}

/-- A branch leads to states one deeper. -/
theorem depth_branchEdge {current t : PathState V B} {saw takesTrueEdge : Bool} {cond : V}
    {succ : B} {next : List (PathState V B)}
    (h : branchEdge mod solver current saw cond takesTrueEdge succ = .ok next) (ht : t ∈ next) :
    t.depth = current.depth + 1 := by
  unfold branchEdge at h
  simp only at h
  split_ifs at h
  · split at h
    · cases h
      exact absurd ht List.not_mem_nil
    · cases h
    · cases h
      rw [List.mem_singleton.mp ht]
  · cases h
    exact absurd ht List.not_mem_nil

theorem depth_nextStates {current t : PathState V B} {saw : Bool} {next : List (PathState V B)}
    (h : nextStates mod solver current saw = .ok next) (ht : t ∈ next) :
    t.depth = current.depth + 1 := by
  unfold nextStates at h
  split at h
  · next cond ifTrue ifFalse _ =>
    cases htrue : branchEdge mod solver current saw cond true ifTrue with
    | error a => simp [htrue, bind, Except.bind] at h
    | ok trueStates =>
      cases hfalse : branchEdge mod solver current saw cond false ifFalse with
      | error a => simp [htrue, hfalse, bind, Except.bind] at h
      | ok falseStates =>
        simp only [htrue, hfalse, bind, Except.bind, pure, Except.pure, Except.ok.injEq] at h
        subst h
        rcases List.mem_append.mp ht with ht | ht
        · exact depth_branchEdge htrue ht
        · exact depth_branchEdge hfalse ht
  · cases h
    obtain ⟨succ, -, rfl⟩ := List.mem_map.mp ht
    rfl

theorem depth_expandState (current : PathState V B) (next : List (PathState V B))
    (h : expandState mod solver isRecursiveCallee current = .ok next) :
    ∀ t ∈ next, t.depth = current.depth + 1 := by
  intro t ht
  unfold expandState at h
  split at h
  · cases h
  · cases h
    exact absurd ht List.not_mem_nil
  · exact depth_nextStates h ht

end Depths

section Library

variable {F V B : Type*} [DecidableEq V] [Fintype V] {mod : Module F V B}
variable {solver : EdgeSolver V B} {isRecursiveCallee : F → Bool}

variable (mod solver isRecursiveCallee) in
/-- **The search.** -/
def returnSearch : BoundedSearch (PathState V B) (B × Bool) NonRecursiveReturnFeasibility where
  key s := (s.block, s.sawRecursiveCall)
  depth := PathState.depth
  expand := expandState mod solver isRecursiveCallee
  maxDepth := kMaxDepth
  maxVisits := kMaxVisitsPerNode
  depth_expand := depth_expandState

variable (mod isRecursiveCallee) in
/-- A state returns behind a recursive call. -/
def returnsRecursively (s : PathState V B) : Bool :=
  decide (scanBlock mod isRecursiveCallee s = (true, true))

variable (mod isRecursiveCallee) in
/-- The answer of the search. -/
def answerOf : BoundedSearch.Outcome (PathState V B) NonRecursiveReturnFeasibility →
    NonRecursiveReturnFeasibility
  | .answered answer => answer
  | .exceeded => .inconclusive
  | .finished expanded =>
    if expanded.any (returnsRecursively mod isRecursiveCallee) then .doesNotExist else .pathExists

/-- **The loop is the search.** -/
theorem exploreReturns_eq [DecidableEq B] (n : ℕ) (worklist expanded : List (PathState V B))
    (visits : B × Bool → ℕ) (sawAnyRecursivePath : Bool)
    (hsaw : sawAnyRecursivePath = expanded.any (returnsRecursively mod isRecursiveCallee)) :
    exploreReturns mod solver isRecursiveCallee n worklist visits sawAnyRecursivePath =
      answerOf mod isRecursiveCallee
        ((returnSearch mod solver isRecursiveCallee).run n worklist visits expanded) := by
  induction n generalizing worklist expanded visits sawAnyRecursivePath with
  | zero => cases worklist <;> simp [exploreReturns, BoundedSearch.run, answerOf, hsaw]
  | succ n ih =>
    cases worklist with
    | nil => simp [exploreReturns, BoundedSearch.run, answerOf, hsaw]
    | cons current worklist =>
      set S := returnSearch mod solver isRecursiveCallee
      rw [exploreReturns, BoundedSearch.run]
      by_cases hdepth : kMaxDepth < current.depth
      · rw [if_pos hdepth, if_pos (show S.maxDepth < S.depth current from hdepth)]
        rfl
      rw [if_neg hdepth, if_neg (show ¬ S.maxDepth < S.depth current from hdepth)]
      dsimp only
      by_cases hvisits : kMaxVisitsPerNode < visits (current.block, current.sawRecursiveCall)
      · rw [if_pos hvisits, if_pos (show S.maxVisits < visits (S.key current) from hvisits)]
        exact ih _ _ _ _ hsaw
      · rw [if_neg hvisits, if_neg (show ¬ S.maxVisits < visits (S.key current) from hvisits)]
        have hscan : scanInstructions mod isRecursiveCallee (mod.instructions current.block)
          current.sawRecursiveCall = scanBlock mod isRecursiveCallee current := rfl
        have hexpand : S.expand current = expandState mod solver isRecursiveCallee current := rfl
        rw [hscan, hexpand, expandState]
        cases hblock : scanBlock mod isRecursiveCallee current with
        | mk saw returns =>
          have hflag : returnsRecursively mod isRecursiveCallee current = (saw && returns) := by
            rw [returnsRecursively, hblock]
            cases saw <;> cases returns <;> rfl
          cases returns with
          | true =>
            cases saw with
            | false => rfl
            | true =>
              simp only [List.append_nil]
              refine ih worklist _ _ true ?_
              rw [List.any_cons, hflag]
              rfl
          | false =>
            simp only
            cases hnext : nextStates mod solver current saw with
            | error answer => rfl
            | ok next =>
              refine ih _ _ _ _ ?_
              rw [List.any_cons, hflag, Bool.and_false, Bool.false_or]
              exact hsaw

end Library

/-! ## Constraints of a path -/

/-- **One number for each value lies within all bounds** that have been collected. -/
def Consistent {V : Type*} (constraints : List (V × IntRange)) : Prop :=
  ∃ number : V → ℤ, ∀ c ∈ constraints, c.2.Contains (number c.1)

/-- Fewer constraints are consistent. -/
theorem Consistent.of_append {V : Type*} {constraints more : List (V × IntRange)}
    (h : Consistent (constraints ++ more)) : Consistent constraints := by
  obtain ⟨number, hnumber⟩ := h
  exact ⟨number, fun c hc => hnumber c (List.mem_append_left more hc)⟩

section Consistency

variable {V : Type*} [DecidableEq V]

/-- The ranges after some constraints. -/
def rangesOf (constraints : List (V × IntRange)) : EntryMap V IntRange :=
  constraints.foldl (fun ranges c => applyConstraint ranges c.1 c.2) EntryMap.empty

/-- Bounds do not contradict each other iff some number lies within them. -/
theorem contradictory_eq_false_iff {range : IntRange} :
    contradictory range = false ↔ ∃ number, range.Contains number := by
  obtain ⟨lower, upper, hasLower, hasUpper⟩ := range
  simp only [contradictory, IntRange.Contains]
  cases hasLower <;> cases hasUpper
  · simp
  · simpa using ⟨upper, le_refl upper⟩
  · simpa using ⟨lower, le_refl lower⟩
  · simp only [Bool.and_self, Bool.true_and, decide_eq_false_iff_not, not_lt, forall_true_left]
    refine ⟨fun h => ⟨lower, le_refl lower, h⟩, ?_⟩
    rintro ⟨_, h, h'⟩
    exact h.trans h'

/-- The numbers within tightened bounds. -/
theorem contains_intersectRange {target incoming : IntRange} {number : ℤ} :
    (intersectRange target incoming).Contains number ↔
      target.Contains number ∧ incoming.Contains number := by
  obtain ⟨lower, upper, hasLower, hasUpper⟩ := target
  obtain ⟨lower', upper', hasLower', hasUpper'⟩ := incoming
  unfold intersectRange IntRange.Contains
  cases hasLower <;> cases hasUpper <;> cases hasLower' <;> cases hasUpper' <;>
    by_cases hlower : lower' > lower <;> by_cases hupper : upper' < upper <;>
    simp [hlower, hupper] <;> omega

theorem contains_foldl_intersectRange (bounds : List IntRange) (target : IntRange) (number : ℤ) :
    (bounds.foldl intersectRange target).Contains number ↔
      target.Contains number ∧ ∀ b ∈ bounds, b.Contains number := by
  induction bounds generalizing target with
  | nil => simp
  | cons b bounds ih =>
    rw [List.foldl_cons, ih, contains_intersectRange, List.forall_mem_cons, and_assoc]

variable {constraints : List (V × IntRange)} {key : V}

/-- The numbers within the range of a value. -/
theorem contains_of_find {range : IntRange} (h : (rangesOf constraints).find key = some range)
    (number : ℤ) :
    range.Contains number ↔ ∀ b ∈ boundsFor key constraints, b.Contains number := by
  rw [rangesOf, find_foldl_applyConstraint, EntryMap.find_empty] at h
  split_ifs at h
  obtain rfl := Option.some.inj h
  rw [Option.getD_none, contains_foldl_intersectRange]
  exact and_iff_right ⟨fun h => Bool.noConfusion h, fun h => Bool.noConfusion h⟩

/-- **Constraints are consistent** iff no range is contradictory. -/
theorem consistent_iff : Consistent constraints ↔
    ∀ key range, (rangesOf constraints).find key = some range → contradictory range = false := by
  constructor
  · rintro ⟨number, hnumber⟩ key range hfind
    refine contradictory_eq_false_iff.mpr ⟨number key, ?_⟩
    refine (contains_of_find hfind _).mpr fun b hb => ?_
    exact hnumber (key, b) (mem_boundsFor.mp hb)
  · intro h
    have hkey : ∀ key, ∃ number : ℤ, ∀ b ∈ boundsFor key constraints, b.Contains number := by
      intro key
      cases hfind : (rangesOf constraints).find key with
      | some range =>
        obtain ⟨number, hnumber⟩ := contradictory_eq_false_iff.mp (h key range hfind)
        exact ⟨number, (contains_of_find hfind number).mp hnumber⟩
      | none =>
        rw [rangesOf, find_foldl_applyConstraint] at hfind
        split_ifs at hfind with hnil
        rw [hnil]
        exact ⟨0, fun b hb => absurd hb List.not_mem_nil⟩
    choose number hnumber using hkey
    exact ⟨number, fun c hc => hnumber c.1 c.2 (mem_boundsFor.mpr hc)⟩

/-- The baseline evaluation decides consistency. -/
theorem evaluateIntervalSatisfiability_eq (constraints : List (V × IntRange)) :
    (Consistent constraints → evaluateIntervalSatisfiability (rangesOf constraints) = .sat) ∧
      (¬ Consistent constraints →
        evaluateIntervalSatisfiability (rangesOf constraints) = .unsat) := by
  have hany : ((rangesOf constraints).entries.any fun entry => contradictory entry.2) = false ↔
      Consistent constraints := by
    rw [consistent_iff, List.any_eq_false]
    refine ⟨fun h key range hfind => ?_, fun h entry hentry => ?_⟩
    · exact Bool.not_eq_true _ ▸ h (key, range) (EntryMap.find_eq_some_iff.mp hfind)
    · rw [h entry.1 entry.2 (EntryMap.find_eq_some_iff.mpr hentry)]
      exact Bool.false_ne_true
  unfold evaluateIntervalSatisfiability
  refine ⟨fun h => ?_, fun h => ?_⟩
  · rw [hany.mpr h, if_neg Bool.false_ne_true]
  · rw [if_pos (Bool.not_eq_false _ ▸ fun hfalse => h (hany.mp hfalse))]

end Consistency

/-! ## Paths -/

section Paths

variable {F V B : Type*} [DecidableEq V] [Fintype V] (mod : Module F V B)
variable (isRecursiveCallee : F → Bool)

/-- The edges of a block, with the constraints that they add. -/
inductive EdgeTo (block : B) : B → List (V × IntRange) → Prop
  | branch {cond : V} {ifTrue ifFalse : B} (takesTrueEdge : Bool) :
      (mod.instructions block).getLast?.map mod.value = some (.br cond ifTrue ifFalse) →
      EdgeTo block (if takesTrueEdge then ifTrue else ifFalse)
        (edgeConstraint mod cond takesTrueEdge).toList
  | other {succ : B} : succ ∈ mod.successors block →
      (∀ cond ifTrue ifFalse,
        (mod.instructions block).getLast?.map mod.value ≠ some (.br cond ifTrue ifFalse)) →
      EdgeTo block succ []

/-- **The paths from the entry** to a block, through blocks that are allowed: whether there has been
a recursive call, and the constraints of the edges. -/
inductive Walk (allowed : B × Bool → Prop) (entry : B) : B → Bool → List (V × IntRange) → Prop
  | entry : Walk allowed entry entry false []
  | step {block succ : B} {saw saw' : Bool} {constraints added : List (V × IntRange)} :
      Walk allowed entry block saw constraints → allowed (block, saw) →
      scanInstructions mod isRecursiveCallee (mod.instructions block) saw = (saw', false) →
      EdgeTo mod block succ added → Walk allowed entry succ saw' (constraints ++ added)

/-- The baseline without a solver. -/
def noSolver : EdgeSolver V B := fun _ _ _ _ _ => .inconclusive

variable {mod isRecursiveCallee} {s t : PathState V B} {constraints : List (V × IntRange)}

/-- **What an edge of a branch does** without a solver. -/
theorem branchEdge_eq (mod : Module F V B) (hranges : s.ranges = rangesOf constraints)
    (hs : Consistent constraints) (saw takesTrueEdge : Bool) (cond : V) (succ : B) :
    (Consistent (constraints ++ (edgeConstraint mod cond takesTrueEdge).toList) →
      branchEdge mod noSolver s saw cond takesTrueEdge succ = .ok [⟨succ, some s.block,
        rangesOf (constraints ++ (edgeConstraint mod cond takesTrueEdge).toList), s.depth + 1,
        saw⟩]) ∧
    (¬ Consistent (constraints ++ (edgeConstraint mod cond takesTrueEdge).toList) →
      branchEdge mod noSolver s saw cond takesTrueEdge succ = .ok []) := by
  unfold branchEdge
  cases hedge : edgeConstraint mod cond takesTrueEdge with
  | none =>
    rw [Option.toList_none, List.append_nil, hranges]
    have heval := (evaluateIntervalSatisfiability_eq constraints).1 hs
    refine ⟨fun _ => ?_, fun hnot => absurd hs hnot⟩
    simp only [if_true, isSatisfiable, noSolver, heval]
  | some c =>
    obtain ⟨key, constraint⟩ := c
    have happlied : (applyConstraintToState s.ranges key constraint).1 =
        rangesOf (constraints ++ [(key, constraint)]) := by
      rw [rangesOf, List.foldl_concat, ← rangesOf, ← hranges]
      rfl
    have hfind : (rangesOf (constraints ++ [(key, constraint)])).find key =
        some (intersectRange ((s.ranges.find key).getD {}) constraint) := by
      rw [← happlied, applyConstraintToState, EntryMap.find_assign, if_pos rfl]
    obtain ⟨hsat, hunsat⟩ :=
      evaluateIntervalSatisfiability_eq (constraints ++ [(key, constraint)])
    rw [Option.toList_some]
    constructor
    · intro h
      have hkept : (applyConstraintToState s.ranges key constraint).2 = true := by
        rw [applyConstraintToState, consistent_iff.mp h key _ hfind, Bool.not_false]
      simp only [hkept, if_true, isSatisfiable, noSolver, happlied, hsat h]
    · intro h
      simp only [isSatisfiable, noSolver, happlied, hunsat h, ite_self]

/-- **The states behind a block** are those of its edges whose constraints are consistent with those
of the path. -/
theorem exists_nextStates (mod : Module F V B) (hranges : s.ranges = rangesOf constraints)
    (hs : Consistent constraints) (saw : Bool) :
    ∃ next, nextStates mod noSolver s saw = .ok next ∧ ∀ t, t ∈ next ↔ ∃ succ added,
      EdgeTo mod s.block succ added ∧ Consistent (constraints ++ added) ∧
        t = ⟨succ, some s.block, rangesOf (constraints ++ added), s.depth + 1, saw⟩ := by
  unfold nextStates
  split
  · next cond ifTrue ifFalse hbranch =>
    have hedge : ∀ takesTrueEdge succ, ∃ next,
        branchEdge mod noSolver s saw cond takesTrueEdge succ = .ok next ∧ ∀ t, t ∈ next ↔
          Consistent (constraints ++ (edgeConstraint mod cond takesTrueEdge).toList) ∧
            t = ⟨succ, some s.block,
              rangesOf (constraints ++ (edgeConstraint mod cond takesTrueEdge).toList),
              s.depth + 1, saw⟩ := by
      intro takesTrueEdge succ
      obtain ⟨hsat, hunsat⟩ := branchEdge_eq mod hranges hs saw takesTrueEdge cond succ
      by_cases h : Consistent (constraints ++ (edgeConstraint mod cond takesTrueEdge).toList)
      · exact ⟨_, hsat h, fun t => by simp [h]⟩
      · exact ⟨_, hunsat h, fun t => by simp [h]⟩
    obtain ⟨trueStates, htrue, htrue'⟩ := hedge true ifTrue
    obtain ⟨falseStates, hfalse, hfalse'⟩ := hedge false ifFalse
    have hok : nextStates mod noSolver s saw = .ok (trueStates ++ falseStates) := by
      simp [nextStates, hbranch, htrue, hfalse, bind, Except.bind, pure, Except.pure]
    rw [nextStates, hbranch] at hok
    refine ⟨trueStates ++ falseStates, hok, fun t => ?_⟩
    rw [List.mem_append, htrue', hfalse']
    constructor
    · rintro (⟨hconsistent, rfl⟩ | ⟨hconsistent, rfl⟩)
      · exact ⟨_, _, .branch true hbranch, hconsistent, rfl⟩
      · exact ⟨_, _, .branch false hbranch, hconsistent, rfl⟩
    · rintro ⟨succ, added, hedge, hconsistent, rfl⟩
      cases hedge with
      | branch takesTrueEdge hbranch' =>
        obtain ⟨rfl, rfl, rfl⟩ := Value.br.inj (Option.some.inj (hbranch.symm.trans hbranch'))
        cases takesTrueEdge with
        | true => exact Or.inl ⟨hconsistent, rfl⟩
        | false => exact Or.inr ⟨hconsistent, rfl⟩
      | other _ hnot => exact absurd hbranch (hnot _ _ _)
  · next hnot =>
    refine ⟨_, rfl, fun t => ?_⟩
    rw [List.mem_map]
    constructor
    · rintro ⟨succ, hsucc, rfl⟩
      refine ⟨succ, [], .other hsucc hnot, ?_, ?_⟩
      · rwa [List.append_nil]
      · rw [List.append_nil, hranges]
    · rintro ⟨succ, added, hedge, hconsistent, rfl⟩
      cases hedge with
      | branch _ hbranch => exact absurd hbranch (hnot _ _ _)
      | other hsucc _ => exact ⟨succ, hsucc, by rw [List.append_nil, hranges]⟩

end Paths

/-! ## What the search visits -/

section Visits

variable {F V B : Type*} [DecidableEq V] [Fintype V] {mod : Module F V B}
variable {isRecursiveCallee : F → Bool} {s t : PathState V B} {constraints : List (V × IntRange)}

/-- What follows a state. -/
theorem mem_children_iff (hranges : s.ranges = rangesOf constraints) (hs : Consistent constraints) :
    t ∈ (returnSearch mod noSolver isRecursiveCallee).children s ↔ ∃ saw succ added,
      scanBlock mod isRecursiveCallee s = (saw, false) ∧ EdgeTo mod s.block succ added ∧
        Consistent (constraints ++ added) ∧
        t = ⟨succ, some s.block, rangesOf (constraints ++ added), s.depth + 1, saw⟩ := by
  have hexpand : (returnSearch mod noSolver isRecursiveCallee).expand s =
      expandState mod noSolver isRecursiveCallee s := rfl
  rw [BoundedSearch.children, hexpand, expandState]
  cases scanBlock mod isRecursiveCallee s with
  | mk saw returns =>
    cases returns with
    | true => cases saw <;> simp
    | false =>
      obtain ⟨next, hnext, hmem⟩ := exists_nextStates mod hranges hs saw
      simp only [hnext, hmem, Prod.mk.injEq, and_true, exists_and_left, exists_eq_left']

/-- The states that the search reaches. -/
def Reached (mod : Module F V B) (isRecursiveCallee : F → Bool) :
    PathState V B → PathState V B → Prop :=
  Relation.ReflTransGen fun a b => b ∈ (returnSearch mod noSolver isRecursiveCallee).children a

/-- A state that is reached has been reached on a path, with consistent constraints. -/
theorem exists_walk {entry : B} (h : Reached mod isRecursiveCallee (entryState entry) s) :
    ∃ constraints, Walk mod isRecursiveCallee (fun _ => True) entry s.block s.sawRecursiveCall
      constraints ∧ Consistent constraints ∧ s.ranges = rangesOf constraints := by
  induction h with
  | refl => exact ⟨[], .entry, ⟨fun _ => 0, fun c hc => absurd hc List.not_mem_nil⟩, rfl⟩
  | tail _ hstep ih =>
    obtain ⟨constraints, hwalk, hconsistent, hranges⟩ := ih
    obtain ⟨saw, succ, added, hscan, hedge, hconsistent', rfl⟩ :=
      (mem_children_iff hranges hconsistent).mp hstep
    exact ⟨_, hwalk.step trivial hscan hedge, hconsistent', rfl⟩

variable (mod isRecursiveCallee)

/-- A path to a return without a recursive call, with consistent constraints. -/
def ReturnsEarly (allowed : B × Bool → Prop) (entry : B) : Prop :=
  ∃ block saw constraints, Walk mod isRecursiveCallee allowed entry block saw constraints ∧
    allowed (block, saw) ∧ Consistent constraints ∧
    scanInstructions mod isRecursiveCallee (mod.instructions block) saw = (false, true)

/-- A path to a return behind a recursive call, with consistent constraints. -/
def ReturnsLate (allowed : B × Bool → Prop) (entry : B) : Prop :=
  ∃ block saw constraints, Walk mod isRecursiveCallee allowed entry block saw constraints ∧
    allowed (block, saw) ∧ Consistent constraints ∧
    scanInstructions mod isRecursiveCallee (mod.instructions block) saw = (true, true)

variable {mod isRecursiveCallee} {entry : B}

/-- A state without an early return has states behind it. -/
theorem ReturnsEarly.of_error {a : NonRecursiveReturnFeasibility}
    (h : Reached mod isRecursiveCallee (entryState entry) s)
    (hs : expandState mod noSolver isRecursiveCallee s = .error a) :
    a = .pathExists ∧ ReturnsEarly mod isRecursiveCallee (fun _ => True) entry := by
  obtain ⟨constraints, hwalk, hconsistent, hranges⟩ := exists_walk h
  unfold expandState at hs
  split at hs
  · next hscan =>
    cases hs
    exact ⟨rfl, s.block, s.sawRecursiveCall, constraints, hwalk, trivial, hconsistent, hscan⟩
  · cases hs
  · next saw _ =>
    obtain ⟨next, hnext, -⟩ := exists_nextStates mod hranges hconsistent saw
    rw [hnext] at hs
    cases hs

end Visits

/-! ## What the answers say -/

section Answers

variable {F V B : Type*} [DecidableEq V] [Fintype V] [DecidableEq B]

/-- **More than 129 ways** lead to a block, with or without a recursive call before. -/
def CrowdedBlock (mod : Module F V B) (isRecursiveCallee : F → Bool) (entry : B)
    (key : B × Bool) : Prop :=
  (returnSearch mod noSolver isRecursiveCallee).Crowded (entryState entry) key

variable {mod : Module F V B} {isRecursiveCallee : F → Bool} {s : PathState V B}
variable {constraints : List (V × IntRange)} {entry block : B} {saw : Bool}

/-- **A path with consistent constraints is followed**, where the blocks are not crowded. -/
theorem exists_reached
    (h : Walk mod isRecursiveCallee (fun key => ¬ CrowdedBlock mod isRecursiveCallee entry key)
      entry block saw constraints) (hconsistent : Consistent constraints) :
    ∃ s, s.block = block ∧ s.sawRecursiveCall = saw ∧ s.ranges = rangesOf constraints ∧
      Relation.ReflTransGen (fun a b =>
        b ∈ (returnSearch mod noSolver isRecursiveCallee).children a ∧
          ¬ CrowdedBlock mod isRecursiveCallee entry (a.block, a.sawRecursiveCall))
        (entryState entry) s := by
  induction h with
  | entry => exact ⟨entryState entry, rfl, rfl, rfl, .refl⟩
  | step _ hfew hscan hedge ih =>
    obtain ⟨s, rfl, rfl, hranges, hreach⟩ := ih hconsistent.of_append
    refine ⟨⟨_, some s.block, rangesOf _, s.depth + 1, _⟩, rfl, rfl, rfl, hreach.tail ⟨?_, hfew⟩⟩
    exact (mem_children_iff hranges hconsistent.of_append).mpr
      ⟨_, _, _, hscan, hedge, hconsistent, rfl⟩

/-- How the search ends. -/
theorem hasFeasible_eq {f : F} (hentry : (mod.blocks f).head? = some entry) :
    hasFeasibleNonRecursiveReturnPath mod noSolver isRecursiveCallee f =
      answerOf mod isRecursiveCallee ((returnSearch mod noSolver isRecursiveCallee).run kMaxStates
        [entryState entry] (fun _ => 0) []) := by
  rw [hasFeasibleNonRecursiveReturnPath, hentry]
  exact exploreReturns_eq _ _ _ _ _ rfl

/-- A path to a block that is not crowded is expanded. -/
theorem mem_expanded_of_walk {n : ℕ} {expanded : List (PathState V B)}
    (h : (returnSearch mod noSolver isRecursiveCallee).run n [entryState entry] (fun _ => 0) [] =
      .finished expanded)
    (hwalk : Walk mod isRecursiveCallee (fun key => ¬ CrowdedBlock mod isRecursiveCallee entry key)
      entry block saw constraints)
    (hfew : ¬ CrowdedBlock mod isRecursiveCallee entry (block, saw))
    (hconsistent : Consistent constraints) :
    ∃ s ∈ expanded, scanBlock mod isRecursiveCallee s =
      scanInstructions mod isRecursiveCallee (mod.instructions block) saw := by
  obtain ⟨s, rfl, rfl, -, hreach⟩ := exists_reached hwalk hconsistent
  exact ⟨s, BoundedSearch.mem_expanded rfl h hreach hfew, rfl⟩

/-- A search that finishes has found no return without a recursive call. -/
theorem not_returnsEarly {n : ℕ} {expanded : List (PathState V B)}
    (h : (returnSearch mod noSolver isRecursiveCallee).run n [entryState entry] (fun _ => 0) [] =
      .finished expanded) :
    ¬ ReturnsEarly mod isRecursiveCallee
      (fun key => ¬ CrowdedBlock mod isRecursiveCallee entry key) entry := by
  rintro ⟨block, saw, constraints, hwalk, hfew, hconsistent, hscan⟩
  obtain ⟨s, hs, hscan'⟩ := mem_expanded_of_walk h hwalk hfew hconsistent
  obtain ⟨-, next, hnext⟩ := BoundedSearch.reach_of_mem_expanded rfl h hs
  have hexpand : expandState mod noSolver isRecursiveCallee s = .ok next := hnext
  rw [expandState, hscan', hscan] at hexpand
  cases hexpand

/-- If no early return is said to exist, then the search has finished. -/
theorem exists_finished {f : F} (hentry : (mod.blocks f).head? = some entry)
    (h : hasFeasibleNonRecursiveReturnPath mod noSolver isRecursiveCallee f = .doesNotExist) :
    ∃ expanded, (returnSearch mod noSolver isRecursiveCallee).run kMaxStates [entryState entry]
      (fun _ => 0) [] = .finished expanded := by
  rw [hasFeasible_eq hentry] at h
  cases hrun : (returnSearch mod noSolver isRecursiveCallee).run kMaxStates [entryState entry]
      (fun _ => 0) [] with
  | finished expanded => exact ⟨expanded, rfl⟩
  | exceeded =>
    rw [hrun] at h
    exact NonRecursiveReturnFeasibility.noConfusion h
  | answered a =>
    obtain ⟨s, hreach, hs⟩ := BoundedSearch.exists_of_answered rfl hrun
    obtain ⟨rfl, -⟩ := ReturnsEarly.of_error hreach hs
    rw [hrun] at h
    exact NonRecursiveReturnFeasibility.noConfusion h

/-- **What the answers say about the paths**, without a solver. If no early return is said to exist,
then every path with consistent constraints that returns without a recursive call leads through a
crowded block. If one is said to exist, then there is such a path, or every path that returns with
consistent constraints leads through a crowded block.

**Proof sketch.** The states of the search are the paths with consistent constraints, since a range
is contradictory iff no number lies within all bounds that have been collected for its value. States
are dropped only in crowded blocks. -/
theorem returnPaths_sound (mod : Module F V B) (isRecursiveCallee : F → Bool) (f : F) (entry : B)
    (hentry : (mod.blocks f).head? = some entry) :
    let few := fun key => ¬ CrowdedBlock mod isRecursiveCallee entry key
    let answer := hasFeasibleNonRecursiveReturnPath mod noSolver isRecursiveCallee f
    (answer = .doesNotExist → ¬ ReturnsEarly mod isRecursiveCallee few entry ∧
        ReturnsLate mod isRecursiveCallee (fun _ => True) entry) ∧
      (answer = .pathExists → ReturnsEarly mod isRecursiveCallee (fun _ => True) entry ∨
        ¬ ReturnsEarly mod isRecursiveCallee few entry ∧
          ¬ ReturnsLate mod isRecursiveCallee few entry) := by
  intro few answer
  have hanswer : answer = answerOf mod isRecursiveCallee
      ((returnSearch mod noSolver isRecursiveCallee).run kMaxStates [entryState entry]
        (fun _ => 0) []) := hasFeasible_eq hentry
  rw [hanswer]
  cases hrun : (returnSearch mod noSolver isRecursiveCallee).run kMaxStates [entryState entry]
      (fun _ => 0) [] with
  | exceeded =>
    exact ⟨fun h => NonRecursiveReturnFeasibility.noConfusion h,
      fun h => NonRecursiveReturnFeasibility.noConfusion h⟩
  | answered a =>
    obtain ⟨s, hreach, hs⟩ := BoundedSearch.exists_of_answered rfl hrun
    obtain ⟨rfl, hearly⟩ := ReturnsEarly.of_error hreach hs
    exact ⟨fun h => NonRecursiveReturnFeasibility.noConfusion h, fun _ => Or.inl hearly⟩
  | finished expanded =>
    rw [answerOf]
    have hnone : ¬ ReturnsEarly mod isRecursiveCallee few entry := not_returnsEarly hrun
    split_ifs with hany
    · refine ⟨fun _ => ⟨hnone, ?_⟩, fun h => h.elim⟩
      obtain ⟨s, hs, hlate⟩ := List.any_eq_true.mp hany
      obtain ⟨hreach, -⟩ := BoundedSearch.reach_of_mem_expanded rfl hrun hs
      obtain ⟨constraints, hwalk, hconsistent, -⟩ := exists_walk hreach
      exact ⟨s.block, s.sawRecursiveCall, constraints, hwalk, trivial, hconsistent,
        of_decide_eq_true hlate⟩
    · refine ⟨fun h => h.elim, fun _ => Or.inr ⟨hnone, ?_⟩⟩
      rintro ⟨block, saw, constraints, hwalk, hfew, hconsistent, hscan⟩
      obtain ⟨s, hs, hscan'⟩ := mem_expanded_of_walk hrun hwalk hfew hconsistent
      exact hany (List.any_eq_true.mpr ⟨s, hs, decide_eq_true (hscan'.trans hscan)⟩)

/-- The paths of a function stay within the budgets of the search. -/
structure FewPaths (mod : Module F V B) (isRecursiveCallee : F → Bool) (entry : B) : Prop where
  states : ∀ d, ((returnSearch mod noSolver isRecursiveCallee).tree (entryState entry) d).length ≤
    kMaxStates
  depth : ∀ d, ∀ s ∈ (returnSearch mod noSolver isRecursiveCallee).tree (entryState entry) d,
    s.depth ≤ kMaxDepth
  visits : ∀ key, ¬ CrowdedBlock mod isRecursiveCallee entry key

/-- A tree of at most 129 states that has stopped growing is within the budgets. -/
theorem fewPaths_of_stable {d : ℕ}
    (h : (returnSearch mod noSolver isRecursiveCallee).tree (entryState entry) (d + 1) =
      (returnSearch mod noSolver isRecursiveCallee).tree (entryState entry) d)
    (hlength : ((returnSearch mod noSolver isRecursiveCallee).tree (entryState entry) d).length ≤
      kMaxVisitsPerNode + 1)
    (hdepth : ∀ s ∈ (returnSearch mod noSolver isRecursiveCallee).tree (entryState entry) d,
      s.depth ≤ kMaxDepth) : FewPaths mod isRecursiveCallee entry where
  states e := by
    have hle := (BoundedSearch.subperm_tree_of_stable h e).length_le
    exact hle.trans (hlength.trans (by decide))
  depth e s hs := hdepth s ((BoundedSearch.subperm_tree_of_stable h e).subset hs)
  visits key := by
    rintro ⟨e, hcrowded⟩
    have hle := (BoundedSearch.subperm_tree_of_stable h e).length_le
    exact absurd hcrowded (not_lt.mpr (List.countP_le_length.trans (hle.trans hlength)))

/-- **Functions with few paths are answered exactly**, without a solver: no early return exists iff
no path with consistent constraints returns without a recursive call, but some path returns; and in
all other cases one is said to exist. -/
theorem returnPaths_exact (mod : Module F V B) (isRecursiveCallee : F → Bool) (f : F) (entry : B)
    (hentry : (mod.blocks f).head? = some entry) (hfew : FewPaths mod isRecursiveCallee entry) :
    let early := ReturnsEarly mod isRecursiveCallee (fun _ => True) entry
    let late := ReturnsLate mod isRecursiveCallee (fun _ => True) entry
    let answer := hasFeasibleNonRecursiveReturnPath mod noSolver isRecursiveCallee f
    (answer = .doesNotExist ↔ ¬ early ∧ late) ∧ (answer = .pathExists ↔ early ∨ ¬ late) := by
  intro early late answer
  have hall : (fun key => ¬ CrowdedBlock mod isRecursiveCallee entry key) = fun _ => True :=
    funext fun key => eq_true (hfew.visits key)
  obtain ⟨hnone, hexists⟩ := returnPaths_sound mod isRecursiveCallee f entry hentry
  rw [hall] at hnone hexists
  have hcases : answer = .pathExists ∨ answer = .doesNotExist := by
    have hanswer : answer = answerOf mod isRecursiveCallee
        ((returnSearch mod noSolver isRecursiveCallee).run kMaxStates [entryState entry]
          (fun _ => 0) []) := hasFeasible_eq hentry
    rw [hanswer]
    cases hrun : (returnSearch mod noSolver isRecursiveCallee).run kMaxStates [entryState entry]
        (fun _ => 0) [] with
    | exceeded => exact absurd hrun (BoundedSearch.ne_exceeded rfl hfew.states hfew.depth)
    | answered a =>
      obtain ⟨s, hreach, hs⟩ := BoundedSearch.exists_of_answered rfl hrun
      exact Or.inl (ReturnsEarly.of_error hreach hs).1
    | finished expanded =>
      rw [answerOf]
      split_ifs
      · exact Or.inr rfl
      · exact Or.inl rfl
  rcases hcases with hcase | hcase
  · have hfound : early ∨ ¬ late := (hexists hcase).imp id And.right
    refine ⟨⟨fun h => absurd (hcase.symm.trans h) (by decide), fun h => ?_⟩,
      fun _ => hfound, fun _ => hcase⟩
    exact absurd h.2 (hfound.resolve_left h.1)
  · have hmissing : ¬ early ∧ late := hnone hcase
    refine ⟨⟨fun _ => hmissing, fun _ => hcase⟩, fun h => absurd (hcase.symm.trans h) (by decide),
      fun h => ?_⟩
    exact absurd hmissing.2 (h.resolve_left hmissing.1)

end Answers

/-! ## A function whose branches exclude each other -/

/-- The example has twelve values. -/
theorem neZero_twelve : NeZero 12 := ⟨by decide⟩

/-- It has five blocks. -/
theorem neZero_fiveBlocks : NeZero 5 := ⟨Nat.succ_ne_zero 4⟩

attribute [local instance] neZero_twelve neZero_fiveBlocks

/-- The values of `void f(int n) { if (n > 0) f(n); if (n <= 0) f(n); }`: the function, its argument
and the constant, and the instructions in order. -/
def bothSignsValue : Fin 12 → Value (Fin 12) (Fin 5) Unit
  | 0 => .function ()
  | 1 => .argument 0 false
  | 2 => .constantInt 32 0
  | 3 => .icmp .sgt 1 2
  | 4 => .br 3 1 2
  | 5 => .call ⟨some (), 0, [1], none, false⟩
  | 6 => .instruction
  | 7 => .icmp .sle 1 2
  | 8 => .br 7 3 4
  | 9 => .call ⟨some (), 0, [1], none, false⟩
  | 10 => .instruction
  | 11 => .ret

/-- Where its blocks go on. -/
def bothSignsSuccessors : Fin 5 → List (Fin 5)
  | 0 => [1, 2]
  | 1 => [2]
  | 2 => [3, 4]
  | 3 => [4]
  | 4 => []

/-- The module of this function. -/
def bothSigns : Module Unit (Fin 12) (Fin 5) :=
  singleFunction bothSignsValue
    (fun
      | 1 | 2 => .int ⟨32, isWidth_thirtyTwo⟩
      | 3 | 7 => .int ⟨1, isWidth_one⟩
      | _ => .other)
    (fun
      | 0 => [3, 4]
      | 1 => [5, 6]
      | 2 => [7, 8]
      | 3 => [9, 10]
      | 4 => [11])
    bothSignsSuccessors (by decide)

/-- There are seven ways into its blocks. -/
theorem fewPaths_bothSigns : FewPaths bothSigns (fun _ => true) 0 :=
  fewPaths_of_stable (d := 4) rfl (by decide +kernel) (by decide +kernel)

/-- The theorem at this function: all its returns are behind calls. -/
theorem returnPaths_exact_bothSigns :
    ¬ ReturnsEarly bothSigns (fun _ => true) (fun _ => True) 0 ∧
      ReturnsLate bothSigns (fun _ => true) (fun _ => True) 0 :=
  (returnPaths_exact bothSigns (fun _ => true) () 0 rfl fewPaths_bothSigns).1.mp
    (by decide +kernel)

/-- The first theorem at this function. -/
theorem returnPaths_sound_bothSigns :
    ¬ ReturnsEarly bothSigns (fun _ => true)
      (fun key => ¬ CrowdedBlock bothSigns (fun _ => true) 0 key) 0 :=
  ((returnPaths_sound bothSigns (fun _ => true) () 0 rfl).1 (by decide +kernel)).1

end StackAnalyzer.Frames
