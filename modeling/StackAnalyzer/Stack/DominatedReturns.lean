import StackAnalyzer.Graph.Dominators
import StackAnalyzer.Llvm.Machine

set_option relaxedAutoImplicit false
set_option autoImplicit false

/-!
# Returns behind recursive calls

A function recurses on all paths to its returns if each block that returns is dominated by one with
a call of a recursive callee. A block that has such a call before its own return dominates itself,
so no path returns without one.

## Main definitions

* `StackAnalyzer.Frames.detectInfiniteRecursionByDominance` — the check.
* `StackAnalyzer.Frames.functionCfg` — the control-flow graph of a function.

## Main results

* `StackAnalyzer.Frames.recursesBeforeReturn` — a recursive callee has been called whenever a path
  arrives at a return.
-/

namespace StackAnalyzer.Frames

open Graph Llvm

variable {F V B : Type*} [DecidableEq B] (mod : Module F V B) (isRecursiveCallee : F → Bool) (f : F)

/-! ## The check -/

/-- A call or an invoke of a recursive callee. -/
def callsRecursive (inst : V) : Bool :=
  match mod.value inst with
  | .call call => call.calledFunction.any isRecursiveCallee
  | _ => false

/-- `isa<ReturnInst>`. -/
def isReturn (inst : V) : Bool :=
  match mod.value inst with
  | .ret => true
  | _ => false

/-- `recursiveCallBlocks`. -/
def recursiveCallBlocks : List B :=
  (mod.blocks f).filter fun block =>
    (mod.instructions block).any (callsRecursive mod isRecursiveCallee)

/-- `DT.dominates`, in the tree of the function with some entry. -/
def treeDominates (entry a b : B) : Bool :=
  dominates mod.successors ((mod.blocks f).length + 1) entry a b

/-- `detectInfiniteRecursionByDominance`. -/
def detectInfiniteRecursionByDominance : Bool :=
  match (mod.blocks f).head? with
  | none => false
  | some entry =>
    if (recursiveCallBlocks mod isRecursiveCallee f).isEmpty then false
    else
      (mod.blocks f).all fun block =>
        (mod.instructions block).all fun inst =>
          !isReturn mod inst ||
            (recursiveCallBlocks mod isRecursiveCallee f).any fun callBlock =>
              treeDominates mod f entry callBlock block

/-! ## Paths to returns -/

/-- The control-flow graph of a function. -/
def functionCfg (entry : B) : Cfg B V where
  entry := entry
  succ := mod.successors
  instructions := mod.instructions
  normalDest _ := none

/-- What the verifier of LLVM guarantees about the returns of a function: blocks go on in the
function, and a return is the last instruction of its block. -/
structure ReturnsLast : Prop where
  successors_mem : ∀ block ∈ mod.blocks f, ∀ next ∈ mod.successors block, next ∈ mod.blocks f
  return_last : ∀ block before inst after, mod.instructions block = before ++ inst :: after →
    isReturn mod inst = true → after = []

variable {mod isRecursiveCallee f}

omit [DecidableEq B] in
/-- A block with a recursive call. -/
theorem mem_recursiveCallBlocks {block : B} :
    block ∈ recursiveCallBlocks mod isRecursiveCallee f ↔
      block ∈ mod.blocks f ∧
        ∃ inst ∈ mod.instructions block, callsRecursive mod isRecursiveCallee inst = true := by
  rw [recursiveCallBlocks, List.mem_filter, List.any_eq_true]

/-- What the check says about a return. -/
theorem dominated_of_detect {entry block : B} {inst : V}
    (h : detectInfiniteRecursionByDominance mod isRecursiveCallee f = true)
    (hentry : (mod.blocks f).head? = some entry) (hblock : block ∈ mod.blocks f)
    (hinst : inst ∈ mod.instructions block) (hreturn : isReturn mod inst = true) :
    ∃ callBlock ∈ recursiveCallBlocks mod isRecursiveCallee f,
      treeDominates mod f entry callBlock block = true := by
  unfold detectInfiniteRecursionByDominance at h
  rw [hentry] at h
  simp only at h
  split_ifs at h
  have hall := List.all_eq_true.mp (List.all_eq_true.mp h block hblock) inst hinst
  rw [hreturn, Bool.not_true, Bool.false_or] at hall
  exact List.any_eq_true.mp hall

omit [DecidableEq B] in
/-- A return has no call behind it in its block. -/
theorem ReturnsLast.call_before (hmod : ReturnsLast mod f) {block : B} {before after : List V}
    {inst call : V} (hblock : mod.instructions block = before ++ inst :: after)
    (hreturn : isReturn mod inst = true) (hmem : call ∈ mod.instructions block)
    (hcall : callsRecursive mod isRecursiveCallee call = true) : call ∈ before := by
  obtain rfl := hmod.return_last block before inst after hblock hreturn
  rw [hblock] at hmem
  refine (List.mem_append.mp hmem).resolve_right fun hlast => ?_
  obtain rfl := List.mem_singleton.mp hlast
  -- a return is no call
  unfold isReturn at hreturn
  unfold callsRecursive at hcall
  split at hreturn
  · next hvalue =>
    rw [hvalue] at hcall
    cases hcall
  · cases hreturn

/-- **A recursive callee has been called before a return**, whenever the check succeeds: each path
from the entry to a return has executed a call or an invoke of a recursive callee.

**Proof sketch.** Some block with a recursive call dominates the block of the return. If it is
another one, the path has executed all of it; otherwise the call comes before the return, as that is
the last instruction of the block. -/
theorem recursesBeforeReturn (hmod : ReturnsLast mod f) {entry : B}
    (hentry : (mod.blocks f).head? = some entry)
    (h : detectInfiniteRecursionByDominance mod isRecursiveCallee f = true) :
    ∀ inst executed, isReturn mod inst = true →
      (functionCfg mod entry).ExecutedBefore inst executed →
        ∃ call ∈ executed, callsRecursive mod isRecursiveCallee call = true := by
  rintro inst _ hreturn ⟨block, visited, before, after, hpath, hblock, rfl⟩
  have hentrymem : entry ∈ mod.blocks f := List.mem_of_mem_head? (by rw [hentry]; rfl)
  have hblockmem : block ∈ mod.blocks f :=
    hpath.reach.mem_of_closed (P := (· ∈ mod.blocks f)) hmod.successors_mem hentrymem
  have hinst : inst ∈ mod.instructions block := by
    rw [show mod.instructions block = before ++ inst :: after from hblock]
    simp
  obtain ⟨callBlock, hcallBlock, hdominates⟩ :=
    dominated_of_detect h hentry hblockmem hinst hreturn
  obtain ⟨-, call, hcall, hrecursive⟩ := mem_recursiveCallBlocks.mp hcallBlock
  by_cases hne : callBlock = block
  · subst hne
    exact ⟨call, List.mem_append_right _ (hmod.call_before hblock hreturn hcall hrecursive),
      hrecursive⟩
  · obtain ⟨_, hpass⟩ := hpath.passes_dominator hmod.successors_mem hentrymem (Nat.lt_succ_self _)
      hdominates hne
    exact ⟨call, List.mem_append_left _ (hpass hcall), hrecursive⟩

/-! ## A function that calls itself -/

/-- The example has four values. -/
theorem neZero_four : NeZero 4 := ⟨four_ne_zero⟩

attribute [local instance] neZero_four

/-- The values of `void f() { f(); }`, with the return in a block of its own: the function, the call
and the jump, and the return. -/
def selfCallValue : Fin 4 → Value (Fin 4) (Fin 2) Unit
  | 0 => .function ()
  | 1 => .call ⟨some (), 0, [], none, false⟩
  | 2 => .instruction
  | 3 => .ret

/-- The module of this function. -/
def selfCall : Module Unit (Fin 4) (Fin 2) :=
  singleFunction selfCallValue (fun _ => .other)
    (fun
      | 0 => [1, 2]
      | 1 => [3])
    (fun
      | 0 => [1]
      | 1 => [])
    (by decide)

/-- The return is the last instruction of its block. -/
theorem selfCall_returnsLast : ReturnsLast selfCall () where
  successors_mem _ _ next _ := List.mem_finRange next
  return_last := by
    intro block before inst after hblock hreturn
    fin_cases inst <;> cases hreturn
    fin_cases block
    · obtain _ | ⟨_, _ | ⟨_, _ | _⟩⟩ := before <;> cases hblock
    · obtain _ | ⟨_, _ | _⟩ := before <;> cases hblock
      rfl

/-- The theorem at the path to the return. -/
theorem recursesBeforeReturn_selfCall :
    ∃ call ∈ ([1, 2] : List (Fin 4)), callsRecursive selfCall (fun _ => true) call = true :=
  recursesBeforeReturn selfCall_returnsLast (show (selfCall.blocks ()).head? = some 0 from rfl)
    (by decide) 3 [1, 2] rfl
    ⟨1, [1, 2], [], [], .step .entry (List.mem_singleton_self _), rfl, rfl⟩

end StackAnalyzer.Frames
