import StackAnalyzer.Bounds.CollectedRanges
import StackAnalyzer.Stack.AllocaSizes

set_option relaxedAutoImplicit false
set_option autoImplicit false

/-!
# Bounds of dynamic allocas

What the pass over dynamic allocas says about the bytes that they allocate: the size, if their count
is a recovered constant, or a bound that comes from comparisons of the count with constants anywhere
in the function. The bound is right in each run where these comparisons hold for the count when the
alloca is executed, and where the bytes of one of their bounds fit 64 bits. On another path, or for
a count that is negative as a signed number, it may be too small.

## Main definitions

* `StackAnalyzer.Frames.AllocaUsageIssue` — what is recorded for an alloca.
* `StackAnalyzer.Frames.analyzeAllocaUsage` — the pass.
* `StackAnalyzer.Frames.IssueRight` — the recorded size and the recorded bound are right in a state.
* `StackAnalyzer.Frames.KeepsCount` — the comparisons, or the stores and casts, do what they say.

## Main results

* `StackAnalyzer.Frames.issueRight_of_run` — when what is recorded is right.
* `StackAnalyzer.Frames.not_soundIssues_unguarded` — a count that is compared, but not checked.
-/

namespace StackAnalyzer.Frames

open CrossTU Maps Llvm Machine Values Bounds
open Smt (IntRange)

variable {F V B : Type*} [DecidableEq V] [Fintype V] (mod : Module F V B) (layout : DataLayout)

/-! ## The pass -/

section Pass

/-- A loop over some values that ends as soon as one of them is controlled; what has been visited is
passed on. -/
def anyControlled (controlled : V → List V → Bool × List V) : List V → List V → Bool × List V
  | [], visited => (false, visited)
  | v :: vs, visited =>
    match controlled v visited with
    | (true, visited) => (true, visited)
    | (false, visited) => anyControlled controlled vs visited

/-- The values that are stored to a variable, through pointers that are cast from it. -/
def storedValues (slot : V) : List V :=
  (mod.users slot).filterMap fun user =>
    match mod.value user with
    | .store value pointer => if mod.stripPointerCasts pointer = slot then some value else none
    | _ => none

/-- `isValueUserControlledImpl`, with the number of levels that are left. -/
def isValueUserControlledImpl : ℕ → V → List V → Bool × List V
  | 0, _, visited => (false, visited)
  | levels + 1, v, visited =>
    if v ∈ visited then (false, visited)
    else
      let visited := v :: visited
      let operands := anyControlled (isValueUserControlledImpl levels) (mod.operands v)
      match mod.value v with
      | .load pointer =>
        let ptr := mod.stripPointerCasts pointer
        if (mod.value ptr).isArgument then (true, visited)
        else if (mod.value ptr).isAlloca then
          match anyControlled (isValueUserControlledImpl levels) (storedValues mod ptr) visited with
          | (true, visited) => (true, visited)
          | (false, visited) => operands visited
        else (true, visited)
      | .call _ => (true, visited)
      | value =>
        if value.isArgument then (true, visited)
        else if value.isInstruction then operands visited
        else (false, visited)

/-- `isValueUserControlled`: there are levels 0 to 20. -/
def isValueUserControlled (v : V) : Bool := (isValueUserControlledImpl mod 21 v []).1

/-- The value or the pointer whose range bounds a count. -/
def boundedKey (ranges : EntryMap V IntRange) (arraySize : V) : V :=
  match ranges.find arraySize, mod.value arraySize with
  | none, .load pointer => pointer
  | _, _ => arraySize

/-- `getAllocaUpperBoundBytes`. -/
def getAllocaUpperBoundBytes (ranges : EntryMap V IntRange) (ty : Ty) (arraySize : V) : Option ℕ :=
  match ranges.find (boundedKey mod ranges arraySize) with
  | some range =>
    if range.hasUpper = true ∧ 0 < range.upper then
      some (toUnsigned64 range.upper * layout.typeAllocSize ty % 2 ^ 64)
    else none
  | none => none

/-- `AllocaUsageIssue`. -/
structure AllocaUsageIssue (V : Type*) where
  funcName : CppString
  varName : CppString
  allocaInst : V
  sizeBytes : ℕ := 0
  upperBoundBytes : ℕ := 0
  userControlled : Bool := false
  sizeIsConst : Bool := false
  hasUpperBound : Bool := false
  isRecursive : Bool := false
  isInfiniteRecursive : Bool := false
  deriving DecidableEq

variable (deriveAllocaName : V → CppString)

/-- The body of the loop of `analyzeAllocaUsageInFunction`. -/
def allocaUsage (ranges : EntryMap V IntRange) (isRecursive isInfiniteRecursive : Bool) (f : F)
    (inst : V) : Option (AllocaUsageIssue V) :=
  match mod.value inst with
  | .alloca ty arraySize _ =>
    if mod.isArrayAllocation arraySize then
      let issue : AllocaUsageIssue V :=
        { funcName := mod.functionName f
          varName := deriveAllocaName inst
          allocaInst := inst
          userControlled := isValueUserControlled mod arraySize
          isRecursive := isRecursive
          isInfiniteRecursive := isInfiniteRecursive }
      match allocaSize mod layout f ty arraySize with
      | some size => some { issue with sizeIsConst := true, sizeBytes := size }
      | none =>
        match getAllocaUpperBoundBytes mod layout ranges ty arraySize with
        | some upper => some { issue with hasUpperBound := true, upperBoundBytes := upper }
        | none => some issue
    else none
  | _ => none

/-- `analyzeAllocaUsageInFunction`. -/
def analyzeAllocaUsageInFunction (isRecursive isInfiniteRecursive : Bool) (f : F) :
    List (AllocaUsageIssue V) :=
  if mod.isDeclaration f then []
  else
    (mod.functionInstructions f).filterMap
      (allocaUsage mod layout deriveAllocaName (computeIntRangesFromICmps mod f) isRecursive
        isInfiniteRecursive f)

/-- `analyzeAllocaUsage`. -/
def analyzeAllocaUsage [DecidableEq F] (recursiveFuncs infiniteRecursionFuncs : List F)
    (shouldAnalyze : F → Bool) : List (AllocaUsageIssue V) :=
  mod.functions.flatMap fun f =>
    if mod.isDeclaration f || !shouldAnalyze f then []
    else
      analyzeAllocaUsageInFunction mod layout deriveAllocaName (decide (f ∈ recursiveFuncs))
        (decide (f ∈ infiniteRecursionFuncs)) f

end Pass

/-! ## Right sizes and bounds -/

section Right

/-- **What is recorded for an alloca is right** in a state: the bytes that it allocates, without
wrap-around, are the size, and at most the bound. -/
def IssueRight (issue : AllocaUsageIssue V) (st : State V) : Prop :=
  ∀ ty arraySize used, mod.value issue.allocaInst = .alloca ty arraySize used →
    ∀ count, st.read mod arraySize = some count →
      (issue.hasUpperBound = true →
        layout.typeAllocSize ty * count.2.toNat ≤ issue.upperBoundBytes) ∧
      (issue.sizeIsConst = true →
        layout.typeAllocSize ty * count.2.toNat = issue.sizeBytes)

/-- It is right whenever the alloca is executed. -/
def SoundIssues [DecidableEq F] (deriveAllocaName : V → CppString)
    (recursiveFuncs infiniteRecursionFuncs : List F) (shouldAnalyze : F → Bool) : Prop :=
  ∀ issue ∈ analyzeAllocaUsage mod layout deriveAllocaName recursiveFuncs infiniteRecursionFuncs
      shouldAnalyze,
    ∀ f ∈ mod.functions, issue.allocaInst ∈ mod.functionInstructions f →
      ∀ block rest st trace, Run mod f block (issue.allocaInst :: rest) st trace →
        IssueRight mod layout issue st

/-- **The comparisons hold for a count**: all that give an upper bound say that it is at most their
constant, and the bytes of one of the bounds fit 64 bits. -/
structure ComparedBelow (f : F) (ty : Ty) (key : V) (count : Word) : Prop where
  atMost : ∀ c, ComparesKey mod f key c → c.bounds.hasUpper = true → AtMostBy c count
  fits : ∃ c, ComparesKey mod f key c ∧ c.bounds.hasUpper = true ∧
    c.bounds.upper * layout.typeAllocSize ty < 2 ^ 64

/-- **The count of an alloca is what it is taken for**: a constant, as far as stores and casts go,
or else a number that the comparisons hold for. -/
def KeepsCount (f : F) (inst : V) (st : State V) (trace : List (V × State V)) : Prop :=
  ∀ ty arraySize used, mod.value inst = .alloca ty arraySize used →
    if (allocaCount mod f arraySize).isSome = true then
      OnlyResizes mod arraySize ∧ LoadsConstants mod f arraySize trace ∧
        KeepsSize mod layout ty arraySize st
    else ∀ count, st.read mod arraySize = some count →
      ComparedBelow mod layout f ty
        (boundedKey mod (computeIntRangesFromICmps mod f) arraySize) count

variable {mod layout}

omit [Fintype V] in
/-- **The bytes of a bound** are at least those of a count that the comparisons hold for. -/
theorem le_getAllocaUpperBoundBytes {f : F} {ty : Ty} {arraySize : V} {bytes : ℕ} {count : Word}
    (hbytes : getAllocaUpperBoundBytes mod layout (computeIntRangesFromICmps mod f) ty arraySize =
      some bytes)
    (hcount : ComparedBelow mod layout f ty
      (boundedKey mod (computeIntRangesFromICmps mod f) arraySize) count) :
    layout.typeAllocSize ty * count.2.toNat ≤ bytes := by
  unfold getAllocaUpperBoundBytes at hbytes
  split at hbytes
  · next range hfind =>
    split_ifs at hbytes with hrange
    obtain ⟨hupper, hpos⟩ := hrange
    obtain rfl := Option.some.inj hbytes
    obtain ⟨⟨c, hc, hc', hsame⟩, hleast⟩ := upper_of_find hfind hupper
    obtain ⟨c', hkey, hupper', hfits⟩ := hcount.fits
    have hcountle : (count.2.toNat : ℤ) ≤ range.upper := by
      rw [← hsame] at hpos ⊢
      exact toNat_le_upper hc' hpos (hcount.atMost c hc hc')
    -- the least bound fits, too
    have hfit : range.upper * layout.typeAllocSize ty < 2 ^ 64 :=
      lt_of_le_of_lt
        (mul_le_mul_of_nonneg_right (hleast c' hkey hupper') (Int.natCast_nonneg _)) hfits
    obtain ⟨upper, hnat⟩ := Int.eq_ofNat_of_zero_le hpos.le
    rw [hnat] at hfit hcountle ⊢
    rcases Nat.eq_zero_or_pos (layout.typeAllocSize ty) with hzero | helem
    · simp [hzero]
    · have hfit' : upper * layout.typeAllocSize ty < 2 ^ 64 := by exact_mod_cast hfit
      have hsmall : upper < 2 ^ 64 := (Nat.le_mul_of_pos_right upper helem).trans_lt hfit'
      have hunsigned : toUnsigned64 (upper : ℤ) = upper := by
        unfold toUnsigned64
        omega
      rw [hunsigned, Nat.mod_eq_of_lt hfit', mul_comm]
      exact Nat.mul_le_mul_right _ (by exact_mod_cast hcountle)
  · cases hbytes

/-- What is recorded for an alloca. -/
theorem allocaUsage_spec {deriveAllocaName : V → CppString} {ranges : EntryMap V IntRange}
    {isRecursive isInfiniteRecursive : Bool} {f : F} {inst : V} {issue : AllocaUsageIssue V}
    (h : allocaUsage mod layout deriveAllocaName ranges isRecursive isInfiniteRecursive f inst =
      some issue) :
    issue.allocaInst = inst ∧ ∃ ty arraySize used, mod.value inst = .alloca ty arraySize used ∧
      (issue.sizeIsConst = true → allocaSize mod layout f ty arraySize = some issue.sizeBytes) ∧
      (issue.hasUpperBound = true → allocaSize mod layout f ty arraySize = none ∧
        getAllocaUpperBoundBytes mod layout ranges ty arraySize = some issue.upperBoundBytes) := by
  unfold allocaUsage at h
  split at h
  · next ty arraySize used hvalue =>
    split_ifs at h
    split at h
    · next size hsize =>
      obtain rfl := Option.some.inj h
      exact ⟨rfl, ty, arraySize, used, hvalue, fun _ => hsize, by simp⟩
    · next hsize =>
      split at h
      · next upper hupper =>
        obtain rfl := Option.some.inj h
        exact ⟨rfl, ty, arraySize, used, hvalue, by simp, fun _ => ⟨hsize, hupper⟩⟩
      · obtain rfl := Option.some.inj h
        exact ⟨rfl, ty, arraySize, used, hvalue, by simp, by simp⟩
  · cases h

/-- Each issue is one of an alloca of a function. -/
theorem exists_allocaUsage [DecidableEq F] {deriveAllocaName : V → CppString}
    {recursiveFuncs infiniteRecursionFuncs : List F} {shouldAnalyze : F → Bool}
    {issue : AllocaUsageIssue V}
    (h : issue ∈ analyzeAllocaUsage mod layout deriveAllocaName recursiveFuncs
      infiniteRecursionFuncs shouldAnalyze) :
    ∃ f ∈ mod.functions, ∃ inst ∈ mod.functionInstructions f, ∃ isRecursive isInfiniteRecursive,
      allocaUsage mod layout deriveAllocaName (computeIntRangesFromICmps mod f) isRecursive
        isInfiniteRecursive f inst = some issue := by
  obtain ⟨f, hf, hissue⟩ := List.mem_flatMap.mp h
  split_ifs at hissue
  · cases hissue
  · unfold analyzeAllocaUsageInFunction at hissue
    split_ifs at hissue
    · cases hissue
    · obtain ⟨inst, hinst, husage⟩ := List.mem_filterMap.mp hissue
      exact ⟨f, hf, inst, hinst, _, _, husage⟩

/-- **What is recorded for an alloca is right** whenever it is executed in a run where its count is
what it is taken for.

**Proof sketch.** A size is recorded for a recovered constant only, and then the count is this
constant in each run whose loads find constants. A bound is the least upper bound of all comparisons
of the count; it is positive, so it is a bound of the unsigned number, too. -/
theorem issueRight_of_run [DecidableEq F] (hmod : mod.Verified) {deriveAllocaName : V → CppString}
    {recursiveFuncs infiniteRecursionFuncs : List F} {shouldAnalyze : F → Bool}
    {issue : AllocaUsageIssue V}
    (hissue : issue ∈ analyzeAllocaUsage mod layout deriveAllocaName recursiveFuncs
      infiniteRecursionFuncs shouldAnalyze)
    {f : F} (hf : f ∈ mod.functions) (hinst : issue.allocaInst ∈ mod.functionInstructions f)
    {block : B} {rest : List V} {st : State V} {trace : List (V × State V)}
    (hrun : Run mod f block (issue.allocaInst :: rest) st trace)
    (hkeeps : KeepsCount mod layout f issue.allocaInst st trace) : IssueRight mod layout issue st := by
  obtain ⟨f', hf', inst, hinst', isRecursive, isInfiniteRecursive, husage⟩ :=
    exists_allocaUsage hissue
  obtain ⟨rfl, ty, arraySize, used, hvalue, hsize, hupper⟩ := allocaUsage_spec husage
  obtain rfl : f = f' := mod.function_unique hf hf' hinst hinst'
  intro ty' arraySize' used' hvalue' count hcount
  obtain ⟨rfl, rfl, rfl⟩ := Value.alloca.inj (hvalue.symm.trans hvalue')
  have hcond := hkeeps ty arraySize used hvalue
  have hlocal : mod.LocalTo f arraySize :=
    hmod.operand_local f hf _ hinst arraySize (by simp [hvalue, Value.operandValues])
  refine ⟨fun hbound => ?_, fun hconst => ?_⟩
  · obtain ⟨hnone, hbytes⟩ := hupper hbound
    have hnot : (allocaCount mod f arraySize).isSome ≠ true := by
      rw [allocaSize, Option.map_eq_none_iff] at hnone
      simp [hnone]
    rw [if_neg hnot] at hcond
    exact le_getAllocaUpperBoundBytes hbytes (hcond count hcount)
  · have hsome := hsize hconst
    have hcountsome : (allocaCount mod f arraySize).isSome = true := by
      obtain ⟨n, hn, -⟩ := Option.map_eq_some_iff.mp hsome
      simp [hn]
    rw [if_pos hcountsome] at hcond
    obtain ⟨hresizes, hloads, hkeepsSize⟩ := hcond
    exact (sizeRight_of_holdsConstant
      (fun c hc => holdsConstant_of_run hmod hf hlocal hc hresizes hrun hloads)
      hkeepsSize issue.sizeBytes hsome count hcount).symm

end Right

/-! ## A count that is compared, but not checked -/

section Unguarded

/-- The example has five values. -/
theorem neZero_five : NeZero 5 := ⟨Nat.succ_ne_zero 4⟩

attribute [local instance] neZero_five

/-- The values of `bool small = n < 16; char buf[n];`: the argument, the constant, the comparison,
and the array. -/
def unguardedValue : Fin 5 → Value (Fin 5) (Fin 1) Unit
  | 0 => .argument 0 false
  | 1 => .constantInt 64 16
  | 2 => .icmp .ult 0 1
  | 3 => .alloca (.int ⟨8, isWidth_eight⟩) 0 false
  | 4 => .ret

/-- The types of these values. -/
def unguardedType : Fin 5 → Ty
  | 0 | 1 => .int ⟨64, isWidth_sixtyFour⟩
  | 2 => .int ⟨1, isWidth_one⟩
  | 3 => .ptr
  | 4 => .other

/-- The module of this function. -/
def unguarded : Module Unit (Fin 5) (Fin 1) :=
  singleFunction unguardedValue unguardedType (fun _ => [2, 3, 4]) (fun _ => []) (by decide)

/-- At the beginning, the argument has a value. -/
def unguardedStart (arg : BitVec 64) : State (Fin 5) where
  values v := if v = 0 then some ⟨64, arg⟩ else none
  memory _ := ⟨0, 0⟩

/-- What the comparison gives. -/
def unguardedResults (arg : BitVec 64) : List (Fin 5 × Word) :=
  [(2, ⟨1, BitVec.ofBool (Predicate.ult.holds arg 16)⟩)]

/-- The run up to the array. -/
theorem unguarded_run (arg : BitVec 64) :
    Run unguarded () 0 [3, 4] ((unguardedStart arg).afterAll unguarded (unguardedResults arg))
      ((unguardedStart arg).traceOf unguarded (unguardedResults arg)) := by
  have hinitial : Initial unguarded () (unguardedStart arg) := initial_single (by decide +revert) rfl
  have hstart := Run.start unguarded () 0 rfl hinitial
  exact hstart.after ⟨1, BitVec.ofBool (Predicate.ult.holds arg 16)⟩
    ⟨⟨64, arg⟩, ⟨64, 16⟩, rfl, rfl, by simp⟩ rfl (by rintro value pointer ⟨⟩)

/-- What is recorded for the array. -/
def unguardedIssue : AllocaUsageIssue (Fin 5) where
  funcName := []
  varName := []
  allocaInst := 3
  upperBoundBytes := 15
  userControlled := true
  hasUpperBound := true

/-- It is recorded. -/
theorem unguardedIssue_mem :
    unguardedIssue ∈
      analyzeAllocaUsage unguarded byteLayout (fun _ => []) [] [] (fun _ => true) := by
  decide

/-- The module is a verified one. -/
theorem unguarded_verified : unguarded.Verified := singleFunction_verified (by decide)

/-- A count of five is less than sixteen. -/
theorem unguarded_keepsCount :
    KeepsCount unguarded byteLayout () 3
      ((unguardedStart 5).afterAll unguarded (unguardedResults 5))
      ((unguardedStart 5).traceOf unguarded (unguardedResults 5)) := by
  rintro ty arraySize used ⟨⟩
  rw [if_neg (by decide)]
  intro count hcount
  obtain rfl : (⟨64, 5⟩ : Word) = count := Option.some.inj hcount
  have hkey : boundedKey unguarded (computeIntRangesFromICmps unguarded ()) 0 = 0 := by decide
  have hcompares : ∀ c, ComparesKey unguarded () 0 c → c = ⟨.ult, true, 64, 16⟩ := by
    rintro c ⟨inst, hinst, v, hcomparison, -⟩
    fin_cases inst <;> cases hcomparison
    rfl
  rw [hkey]
  refine ⟨fun c hc _ => ?_, ⟨.ult, true, 64, 16⟩, ⟨2, by decide, 0, rfl, Or.inl rfl⟩, rfl, ?_⟩
  · rw [hcompares c hc]
    exact ⟨rfl, by decide, show (5 : BitVec 64).toNat < (16 : BitVec 64).toNat by decide⟩
  · decide

/-- The theorem at the array, for a count of five. -/
theorem issueRight_of_run_unguarded :
    IssueRight unguarded byteLayout unguardedIssue
      ((unguardedStart 5).afterAll unguarded (unguardedResults 5)) :=
  issueRight_of_run unguarded_verified unguardedIssue_mem (by decide) (by decide)
    (unguarded_run 5) unguarded_keepsCount

/-- **A bound is not always right**: the comparison is not checked, so a thousand bytes may be
allocated. -/
theorem not_soundIssues_unguarded :
    ¬ SoundIssues unguarded byteLayout (fun _ => []) [] [] fun _ => true := by
  intro h
  have hright := h unguardedIssue unguardedIssue_mem () (by decide) (by decide) _ _ _ _
    (unguarded_run 1000)
  have hbytes := (hright _ _ _ rfl ⟨64, 1000⟩ (by decide)).1 rfl
  exact absurd hbytes (by decide)

end Unguarded

end StackAnalyzer.Frames
