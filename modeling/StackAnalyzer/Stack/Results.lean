import StackAnalyzer.Stack.Soundness

set_option relaxedAutoImplicit false
set_option autoImplicit false

/-!
# The stack limit in the results

The function results of a module and the flag that a function exceeds the stack limit. A total that
is unknown is a lower bound only, and it is never compared with the limit. So one frame of unknown
size decides the flag of every function above it: this file says exactly how.

## Main definitions

* `StackAnalyzer.PreparedModule`, `StackAnalyzer.prepare`, `StackAnalyzer.buildResults`.
* `StackAnalyzer.markUnknown` — the frames with one more alloca of unknown size.
* `StackAnalyzer.PathsCounted` — the graphs and frames on which totals count all simple paths.

## Main results

* `StackAnalyzer.unknown_iff_of_pairCycles` — a total is unknown exactly when an unknown frame is
  reached.
* `StackAnalyzer.totalStack_markUnknown` — an unknown alloca keeps all numbers of bytes.
* `StackAnalyzer.buildResults_exceedsLimit` — when the flag is set, for the functions that have a
  path beyond the limit, and what an unknown alloca does to it.
-/

namespace StackAnalyzer

open Graph

variable {F : Type*} [DecidableEq F]

/-! ## The results of a module -/

/-- `PreparedModule`, as far as `buildResults` reads it. The functions that are analysed are among
those that have a frame. -/
structure PreparedModule (F : Type*) where
  functions : List F
  stackLimit : UInt64
  localStack : PtrMap F LocalStackInfo
  recursionState : InternalAnalysisState F
  InfiniteRecursionFuncs : Finset F
  defined : ∀ f ∈ functions, f ∈ localStack.keys

/-- `FunctionResult`, named by its function. -/
structure FunctionResult (F : Type*) where
  name : F
  localStack : UInt64
  maxStack : UInt64
  localStackUnknown : Bool
  maxStackUnknown : Bool
  isRecursive : Bool
  hasInfiniteSelfRecursion : Bool
  exceedsLimit : Bool

/-- The result of one function. -/
def functionResult (prepared : PreparedModule F) (fn : F) : FunctionResult F :=
  let localInfo := localEstimate prepared.localStack fn
  let totalInfo := (prepared.recursionState.TotalStack fn).getD {}
  { name := fn
    localStack := localInfo.bytes
    maxStack := totalInfo.bytes
    localStackUnknown := localInfo.unknown
    maxStackUnknown := totalInfo.unknown
    isRecursive := decide (fn ∈ prepared.recursionState.RecursiveFuncs)
    hasInfiniteSelfRecursion := decide (fn ∈ prepared.InfiniteRecursionFuncs)
    exceedsLimit := !totalInfo.unknown && decide (totalInfo.bytes > prepared.stackLimit) }

/-- `buildResults`: one result for each function that is analysed. -/
def buildResults (prepared : PreparedModule F) : List (FunctionResult F) :=
  prepared.functions.map (functionResult prepared)

/-- `prepare`, from the call graph and the frames of the module. -/
def prepare (hasNoRecurseContract : F → Bool) (CG : CallGraph F)
    (LocalStack : PtrMap F LocalStackInfo) (functions : List F) (stackLimit : UInt64)
    (InfiniteRecursionFuncs : Finset F) (defined : ∀ f ∈ functions, f ∈ LocalStack.keys) :
    PreparedModule F where
  functions := functions
  stackLimit := stackLimit
  localStack := LocalStack
  recursionState := computeGlobalStackUsage hasNoRecurseContract CG LocalStack
  InfiniteRecursionFuncs := InfiniteRecursionFuncs
  defined := defined

/-- The flag compares a total that is known. -/
theorem exceedsLimit_iff (prepared : PreparedModule F) (fn : F) :
    (functionResult prepared fn).exceedsLimit = true ↔
      ((prepared.recursionState.TotalStack fn).getD {}).unknown = false ∧
        prepared.stackLimit.toNat < totalBytes prepared.recursionState.TotalStack fn := by
  simp only [functionResult, totalBytes, Bool.and_eq_true, Bool.not_eq_true', decide_eq_true_eq,
    gt_iff_lt, UInt64.lt_iff_toNat_lt]

/-! ## Unknown totals -/

section Unknown

variable {CG : CallGraph F} {LocalStack : PtrMap F LocalStackInfo}

/-- A total is unknown only if an unknown frame is reached. -/
theorem reach_of_unknown {keys : List F} {S : MemoDfs.Schedule CG.callees keys}
    {T : F → Option StackEstimate} (hT : S.Solves estimates (localEstimate LocalStack) T) :
    ∀ g ∈ S.order, ((T g).getD {}).unknown = true →
      ∃ u, Reach CG.callees g u ∧ (localEstimate LocalStack u).unknown = true := by
  refine S.induction fun g hg ih hun => ?_
  rcases (total_unknown hT hg).mp hun with h | ⟨c, hc, h⟩
  · exact ⟨g, Reach.refl g, h⟩
  · unfold contribution at h
    cases hb : S.back g c with
    | true => exact ⟨c, Reach.edge hc, by simpa [hb] using h⟩
    | false =>
      obtain ⟨u, hcu, hu⟩ := ih c hc hb (by simpa [hb] using h)
      exact ⟨u, Reach.head hc hcu, hu⟩

/-- **Which totals are unknown**, on graphs with `PairCycles`: those of the functions that reach an
unknown frame. -/
theorem unknown_iff_of_pairCycles (hpair : PairCycles CG) {f : F} (hf : f ∈ LocalStack.keys) :
    ((totalStack CG LocalStack f).getD {}).unknown = true ↔
      ∃ u, Reach CG.callees f u ∧ (localEstimate LocalStack u).unknown = true := by
  obtain ⟨S, hS⟩ := exists_totals CG LocalStack.keys
  replace hS := hS LocalStack rfl
  have hfo : f ∈ S.order := (S.mem_iff f).mpr ⟨f, hf, Reach.refl f⟩
  exact ⟨reach_of_unknown hS f hfo, fun ⟨u, hfu, hu⟩ => unknown_of_reach hpair hS hu f hfo hfu⟩

end Unknown

/-! ## One more alloca of unknown size -/

/-- The frames with an alloca of unknown size added to the one of `u`. -/
def markUnknown (LocalStack : PtrMap F LocalStackInfo) (u : F) : PtrMap F LocalStackInfo where
  entries := LocalStack.entries.map fun p =>
    (p.1, if p.1 = u then { p.2 with unknown := true } else p.2)
  nodup := by
    rw [List.map_map]
    exact LocalStack.nodup

section MarkUnknown

variable {CG : CallGraph F} {LocalStack : PtrMap F LocalStackInfo} {u : F}

/-- The functions with a frame stay the same. -/
@[simp] theorem keys_markUnknown : (markUnknown LocalStack u).keys = LocalStack.keys := by
  simp [markUnknown, PtrMap.keys, Function.comp_def]

/-- The frame of each function. -/
theorem find_markUnknown (f : F) : (markUnknown LocalStack u).find f =
    (LocalStack.find f).map fun info => if f = u then { info with unknown := true } else info := by
  obtain ⟨es, hnd⟩ := LocalStack
  simp only [PtrMap.find, markUnknown]
  clear hnd
  induction es with
  | nil => rfl
  | cons e es ih =>
    by_cases hk : e.1 = f
    · subst hk; simp
    · simpa [hk] using ih

/-- The number of bytes of each frame stays the same. -/
@[simp] theorem localEstimate_markUnknown_bytes (f : F) :
    (localEstimate (markUnknown LocalStack u) f).bytes = (localEstimate LocalStack f).bytes := by
  rw [localEstimate, localEstimate, find_markUnknown]
  cases LocalStack.find f with
  | none => rfl
  | some info => simp only [Option.map_some]; split_ifs <;> rfl

/-- The frame of `u` becomes unknown, the others stay. -/
theorem localEstimate_markUnknown_unknown (hu : u ∈ LocalStack.keys) (f : F) :
    (localEstimate (markUnknown LocalStack u) f).unknown = true ↔
      (localEstimate LocalStack f).unknown = true ∨ f = u := by
  rw [localEstimate, localEstimate, find_markUnknown]
  cases hfind : LocalStack.find f with
  | none =>
    have hne : f ≠ u := fun h => (LocalStack.find_eq_none_iff f).mp hfind (h ▸ hu)
    simp [hne]
  | some info => by_cases hfu : f = u <;> simp [hfu]

/-- The operations of the search on numbers of bytes alone. -/
def byteTotals : MemoDfs.Algebra UInt64 := ⟨0, fun m c => if c > m then c else m, (· + ·)⟩

/-- The bytes of the totals are computed from the bytes of the frames. -/
theorem totalStack_bytes (f : F) : (totalStack CG LocalStack f).map StackEstimate.bytes =
    (MemoDfs.run byteTotals CG.callees (fun g => (localEstimate LocalStack g).bytes)
      (CG.searchFuel LocalStack.keys) LocalStack.keys MemoDfs.State.init).total f := by
  have h := MemoDfs.run_map (A := estimates) (B := byteTotals) (h := StackEstimate.bytes) rfl
    (fun _ _ => rfl) (fun _ _ => rfl) CG.callees (localEstimate LocalStack)
    (CG.searchFuel LocalStack.keys) LocalStack.keys MemoDfs.State.init
  exact (congrArg (fun s => s.total f) h).symm

/-- **An alloca of unknown size keeps all totals of bytes**, on every call graph. -/
theorem totalBytes_markUnknown (f : F) :
    totalBytes (totalStack CG (markUnknown LocalStack u)) f =
      totalBytes (totalStack CG LocalStack) f := by
  have h : (totalStack CG (markUnknown LocalStack u) f).map StackEstimate.bytes =
      (totalStack CG LocalStack f).map StackEstimate.bytes := by
    simp only [totalStack_bytes, localEstimate_markUnknown_bytes, keys_markUnknown]
  have hbytes : ∀ t : Option StackEstimate, (t.getD {}).bytes =
      (t.map StackEstimate.bytes).getD 0 := fun t => by cases t <;> rfl
  rw [totalBytes, totalBytes, hbytes, hbytes, h]

end MarkUnknown

/-! ## The flag -/

/-- The call graphs and frames on which a total counts every simple path: an acyclic graph with
frames that fit 64 bits together, or one with `PairCycles` where a frame may be repeated. -/
def PathsCounted (CG : CallGraph F) (LocalStack : PtrMap F LocalStackInfo) : Prop :=
  Acyclic CG ∧ SumsFit LocalStack ∨ PairCycles CG ∧ RepeatedSumsFit LocalStack

section Flag

variable {CG : CallGraph F} {LocalStack : PtrMap F LocalStackInfo}

/-- The cycles of such a graph are those of `PairCycles`. -/
theorem PathsCounted.pairCycles (h : PathsCounted CG LocalStack) : PairCycles CG :=
  h.elim (fun h => h.1.pairCycles) fun h => h.1

/-- The totals of such a graph are sound. -/
theorem PathsCounted.totalsSound (h : PathsCounted CG LocalStack)
    (hasNoRecurseContract : F → Bool) : TotalsSound hasNoRecurseContract CG LocalStack := by
  rcases h with ⟨hacyclic, hfit⟩ | ⟨hpair, hfit⟩
  · exact (totalsSound_iff hasNoRecurseContract CG).1.mpr hacyclic LocalStack hfit
  · exact (totalsSound_iff hasNoRecurseContract CG).2.mpr hpair LocalStack hfit

/-- The flag of a function with a frame: no unknown frame is reached, and the bytes exceed the
limit. -/
theorem exceedsLimit_iff_reach (h : PairCycles CG) (hasNoRecurseContract : F → Bool)
    {functions : List F} {stackLimit : UInt64} {inf : Finset F}
    {defined : ∀ f ∈ functions, f ∈ LocalStack.keys} {f : F} (hf : f ∈ LocalStack.keys) :
    (functionResult (prepare hasNoRecurseContract CG LocalStack functions stackLimit inf defined)
        f).exceedsLimit = true ↔
      (∀ u, Reach CG.callees f u → (localEstimate LocalStack u).unknown = false) ∧
        stackLimit.toNat < totalBytes (totalStack CG LocalStack) f := by
  rw [exceedsLimit_iff]
  refine and_congr_left fun _ => ?_
  rw [← Bool.not_eq_true, show (prepare hasNoRecurseContract CG LocalStack functions stackLimit inf
    defined).recursionState.TotalStack f = totalStack CG LocalStack f from rfl,
    unknown_iff_of_pairCycles h hf]
  push Not
  simp only [ne_eq, Bool.not_eq_true]

/-- **When the limit is reported.** A function with a simple call path beyond the limit is reported
exactly when no frame that it reaches is unknown. One more alloca of unknown size, in any
function, clears the report of the functions that reach it, and of no others.

**Proof sketch.** The total bounds the path, and it is unknown exactly when an unknown frame is
reached. The added alloca keeps the bytes of all totals. -/
theorem buildResults_exceedsLimit (hcount : PathsCounted CG LocalStack)
    (hasNoRecurseContract : F → Bool) (functions : List F) (stackLimit : UInt64) (inf : Finset F)
    (defined : ∀ f ∈ functions, f ∈ LocalStack.keys) :
    ∀ r ∈ buildResults
        (prepare hasNoRecurseContract CG LocalStack functions stackLimit inf defined),
      (∀ p, CallPath CG r.name p → p.Nodup → stackLimit.toNat < pathBytes LocalStack p →
        (r.exceedsLimit = true ↔
          ∀ u, Reach CG.callees r.name u → (localEstimate LocalStack u).unknown = false)) ∧
      ∀ u ∈ LocalStack.keys, ∀ r' ∈ buildResults (prepare hasNoRecurseContract CG
          (markUnknown LocalStack u) functions stackLimit inf (by simpa using defined)),
        r'.name = r.name →
          (r'.exceedsLimit = true ↔ r.exceedsLimit = true ∧ ¬ Reach CG.callees r.name u) := by
  have hpair := hcount.pairCycles
  have hsound := hcount.totalsSound hasNoRecurseContract
  intro r hr
  obtain ⟨f, hf, rfl⟩ := List.mem_map.mp hr
  have hkey := defined f hf
  refine ⟨fun p hp hnd hlt => ?_, fun u hu r' hr' hname => ?_⟩
  · have hle := hsound.pathBytes_le hkey hp hnd
    rw [exceedsLimit_iff_reach hpair hasNoRecurseContract hkey]
    exact and_iff_left (lt_of_lt_of_le hlt hle)
  · obtain ⟨g, -, rfl⟩ := List.mem_map.mp hr'
    obtain rfl : g = f := hname
    rw [exceedsLimit_iff_reach hpair hasNoRecurseContract (by simpa using hkey),
      exceedsLimit_iff_reach hpair hasNoRecurseContract hkey, totalBytes_markUnknown]
    have hun : (∀ v, Reach CG.callees g v →
        (localEstimate (markUnknown LocalStack u) v).unknown = false) ↔
        (∀ v, Reach CG.callees g v → (localEstimate LocalStack v).unknown = false) ∧
          ¬ Reach CG.callees g u := by
      simp only [← Bool.not_eq_true, localEstimate_markUnknown_unknown hu, not_or]
      refine ⟨fun h => ⟨fun v hv => (h v hv).1, fun hgu => (h u hgu).2 rfl⟩, fun h v hv => ?_⟩
      exact ⟨h.1 v hv, fun hvu => h.2 (hvu ▸ hv)⟩
    show _ ↔ _ ∧ ¬ Reach CG.callees g u
    rw [hun]
    tauto

end Flag

/-! ## A large frame beside one of unknown size -/

attribute [local instance] neZero_three

/-- `0` calls `1` and `2`. -/
def largeAndVla : CallGraph (Fin 3) := ⟨[(0, [1, 2]), (1, []), (2, [])], by decide⟩

/-- The frames of `largeAndVla`: the one of `1` has nine mebibytes, the one of `2` is unknown when
the flag is set. -/
def largeAndVlaFrames (unknown : Bool) : PtrMap (Fin 3) LocalStackInfo :=
  ⟨[(0, ⟨16, false⟩), (1, ⟨9437184, false⟩), (2, ⟨16, unknown⟩)], by
    simp only [List.map_cons, List.map_nil]; decide⟩

/-- The flags of the module with the functions of `Fin 3`. -/
def limitFlags (CG : CallGraph (Fin 3)) (LocalStack : PtrMap (Fin 3) LocalStackInfo)
    (stackLimit : UInt64) (defined : ∀ f ∈ [0, 1, 2], f ∈ LocalStack.keys) : List Bool :=
  (buildResults (prepare (fun _ => false) CG LocalStack [0, 1, 2] stackLimit ∅ defined)).map
    FunctionResult.exceedsLimit

/-- A path beyond the limit of eight mebibytes is not reported when another callee has an unknown
frame, and it is when that frame is known. The totals of a cycle and of frames that overflow 64
bits miss a path although every frame is known. -/
theorem limitFlags_largeAndVla :
    (∃ p, CallPath largeAndVla 0 p ∧ p.Nodup ∧
      8388608 < pathBytes (largeAndVlaFrames true) p) ∧
    limitFlags largeAndVla (largeAndVlaFrames true) 8388608 (by decide) = [false, true, false] ∧
    limitFlags largeAndVla (largeAndVlaFrames false) 8388608 (by decide) = [true, true, false] ∧
    (∃ p, CallPath callBack 1 p ∧ p.Nodup ∧ 512 < pathBytes callBackFrames p) ∧
    limitFlags callBack callBackFrames 512 (by decide) = [true, false, true] ∧
    (∃ p, CallPath largeAndVla 0 p ∧ p.Nodup ∧
      512 < pathBytes (frames [0, 1, 2] (fun _ => 9223372036854775808) (by decide)) p) ∧
    limitFlags largeAndVla (frames [0, 1, 2] (fun _ => 9223372036854775808) (by decide)) 512
      (by decide) = [false, true, true] := by
  refine ⟨⟨[0, 1], .cons (by decide) (.single 1), by decide, by decide⟩, rfl, rfl,
    ⟨[1, 0, 2], .cons (by decide) (.cons (by decide) (.single 2)), by decide, by decide⟩, rfl,
    ⟨[0, 1], .cons (by decide) (.single 1), by decide, by decide⟩, rfl⟩

/-- The paths of `largeAndVla` are counted. -/
theorem pathsCounted_largeAndVla (unknown : Bool) :
    PathsCounted largeAndVla (largeAndVlaFrames unknown) := by
  refine Or.inr ⟨fun f c hc _ _ d hd => ?_, ?_⟩
  · have hnil : ∀ f, ∀ c ∈ largeAndVla.callees f, largeAndVla.callees c = [] := by decide
    rw [hnil f c hc] at hd
    exact absurd hd List.not_mem_nil
  · cases unknown <;> exact fun f hf => by revert f; decide

/-- The nine mebibytes below `0` are reported when both frames are known, and no more when the
frame of `2` is unknown. -/
theorem buildResults_exceedsLimit_largeAndVla :
    (functionResult (prepare (fun _ => false) largeAndVla (largeAndVlaFrames false) [0, 1, 2]
      8388608 ∅ (by decide)) 0).exceedsLimit = true ∧
    (functionResult (prepare (fun _ => false) largeAndVla (markUnknown (largeAndVlaFrames false) 2)
      [0, 1, 2] 8388608 ∅ (by decide)) 0).exceedsLimit ≠ true := by
  have known : ∀ u, (localEstimate (largeAndVlaFrames false) u).unknown = false := by decide
  have h := buildResults_exceedsLimit (pathsCounted_largeAndVla false) (fun _ => false) [0, 1, 2]
    8388608 ∅ (by decide) _ (List.mem_map.mpr ⟨0, by decide, rfl⟩)
  have hset := (h.1 [0, 1] (.cons (by decide) (.single 1)) (by decide) (by decide)).mpr
    fun u _ => known u
  refine ⟨hset, fun hmark => ?_⟩
  have hclear := (h.2 2 (by decide) _ (List.mem_map.mpr ⟨0, by decide, rfl⟩) rfl).mp hmark
  exact hclear.2 (Reach.edge (by decide))

end StackAnalyzer
