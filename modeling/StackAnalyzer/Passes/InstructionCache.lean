import StackAnalyzer.Maps.EntryMap

set_option relaxedAutoImplicit false
set_option autoImplicit false

/-!
# The instruction cache of a module

One traversal of the functions that are analysed notifies a subscriber, which collects the allocas,
the calls and the invokes of every function in lists of their own. Several passes read these lists
in place of the function.

## Main definitions

* `StackAnalyzer.Passes.Module`, `StackAnalyzer.Passes.Function`,
  `StackAnalyzer.Passes.Instruction` — what the passes read of a module.
* `StackAnalyzer.Passes.ValueTable` — the values that pointers are traced through.
* `StackAnalyzer.Passes.PerFunctionInstructionCache`, `StackAnalyzer.Passes.collectIRFacts`.

## Main results

* `StackAnalyzer.Passes.entries_collectIRFacts` — the cache has the lists of every function that is
  analysed, and of no other one.
-/

namespace StackAnalyzer.Passes

open Maps

/-! ## Values and instructions -/

/-- `AllocaInst`. The name is empty if it has none, `derivedName` is `deriveAllocaName`, and
`typeAllocSize` is the size that the data layout gives its type. -/
structure AllocaInst (V : Type*) where
  value : V
  name : String
  derivedName : String
  typeName : String
  typeAllocSize : UInt64
  arraySize : V
  isArrayAllocation : Bool
  isStaticAlloca : Bool
  allocatesPointer : Bool

/-- The memory intrinsics. -/
inductive MemIntrinsicID
  | memcpy | memset | memmove
  deriving DecidableEq

/-- A function that is called: its name, its demangled name, and the memory intrinsic it is. -/
structure Callee where
  name : String
  demangled : String
  intrinsicID : Option MemIntrinsicID

/-- `CallBase`. The callee is the function called directly, also through pointer casts. -/
structure CallBase (V : Type*) where
  value : V
  callee : Option Callee
  args : List V

/-- An instruction. A `callbr` calls inline assembly, so it has no callee. -/
inductive Instruction (V : Type*)
  | alloca (AI : AllocaInst V)
  | call (CI : CallBase V)
  | invoke (II : CallBase V)
  | callBr
  | other

namespace Instruction

variable {V : Type*}

/-- `dyn_cast<AllocaInst>`. -/
def asAlloca : Instruction V → Option (AllocaInst V)
  | alloca AI => some AI
  | _ => none

/-- `dyn_cast<CallInst>`. -/
def asCall : Instruction V → Option (CallBase V)
  | call CI => some CI
  | _ => none

/-- `dyn_cast<InvokeInst>`. -/
def asInvoke : Instruction V → Option (CallBase V)
  | invoke II => some II
  | _ => none

/-- `dyn_cast<CallBase>`, of the instructions that can have a callee. -/
def asCallBase : Instruction V → Option (CallBase V)
  | call CI => some CI
  | invoke II => some II
  | _ => none

end Instruction

/-- A user of an alloca. A store is identified by its own value. -/
inductive SlotUser (V : Type*)
  | store (inst pointerOperand valueOperand : V)
  | load (pointerOperand : V)
  | debugOrLifetime
  | other

/-- What a value is. The initializer of a global is the text of a C string, if it is one. -/
inductive ValueKind (V : Type*)
  | constantInt (zext : UInt64)
  | globalVariable (initializer : Option (Option String))
  | gepOperator (isInstruction : Bool) (pointerOperand : V)
  | castExpr (operand : V)
  | alloca (AI : AllocaInst V)
  | load (pointerOperand : V)
  | other

/-- The values of a module. -/
structure ValueTable (V : Type*) where
  kind : V → ValueKind V
  stripPointerCasts : V → V
  getUnderlyingObject : V → V
  users : V → List (SlotUser V)

/-- A function: the instructions of its blocks in order, and whether `tryGetConstFromValue` finds a
constant for a value through the stores of the function. -/
structure Function (V : Type*) where
  name : String
  filePath : String
  isDeclaration : Bool
  instructions : List (Instruction V)
  tryGetConstFromValue : V → Bool

/-- The calls and invokes of a function, in instruction order. -/
def Function.callBases {V : Type*} (fn : Function V) : List (CallBase V) :=
  fn.instructions.filterMap Instruction.asCallBase

/-- A module, with functions of type `F`. Different calls are different values. -/
structure Module (F V : Type*) where
  functions : List F
  nodup : functions.Nodup
  function : F → Function V
  values : ValueTable V
  distinct : ((functions.flatMap fun f => (function f).callBases).map CallBase.value).Nodup

variable {F V : Type*}

/-- The functions that are analysed, in the order of the module. -/
def Module.selected (mod : Module F V) (shouldAnalyze : F → Bool) : List F :=
  mod.functions.filter fun f => !(mod.function f).isDeclaration && shouldAnalyze f

/-! ## The cache -/

/-- `PerFunctionData`, the lists that the passes read. -/
structure PerFunctionData (V : Type*) where
  allocas : List (AllocaInst V) := []
  calls : List (CallBase V) := []
  invokes : List (CallBase V) := []

/-- `PerFunctionInstructionCache`. -/
structure PerFunctionInstructionCache (F V : Type*) where
  data : EntryMap F (PerFunctionData V)
  currentFunction : Option F
  currentData : PerFunctionData V

namespace PerFunctionInstructionCache

/-- `onFunctionBegin`. -/
def onFunctionBegin (cache : PerFunctionInstructionCache F V) (f : F) :
    PerFunctionInstructionCache F V :=
  { cache with currentFunction := some f, currentData := {} }

/-- `onAlloca`, `onCall` and `onInvoke`. -/
def onInstruction (cache : PerFunctionInstructionCache F V) :
    Instruction V → PerFunctionInstructionCache F V
  | .alloca AI => { cache with currentData :=
      { cache.currentData with allocas := cache.currentData.allocas ++ [AI] } }
  | .call CI => { cache with currentData :=
      { cache.currentData with calls := cache.currentData.calls ++ [CI] } }
  | .invoke II => { cache with currentData :=
      { cache.currentData with invokes := cache.currentData.invokes ++ [II] } }
  | .callBr | .other => cache

variable [DecidableEq F]

/-- `onFunctionEnd`. -/
def onFunctionEnd (cache : PerFunctionInstructionCache F V) (f : F) :
    PerFunctionInstructionCache F V where
  data :=
    if cache.currentFunction = some f then
      match h : cache.data.find f with
      | none => cache.data.add f cache.currentData h
      | some _ => cache.data
    else cache.data
  currentFunction := none
  currentData := {}

end PerFunctionInstructionCache

/-- The traversal of `collectIRFacts`, as the cache sees it. -/
def collectIRFacts [DecidableEq F] (mod : Module F V) (shouldAnalyze : F → Bool) :
    PerFunctionInstructionCache F V :=
  (mod.selected shouldAnalyze).foldl (fun cache f =>
    ((mod.function f).instructions.foldl PerFunctionInstructionCache.onInstruction
      (cache.onFunctionBegin f)).onFunctionEnd f) ⟨EntryMap.empty, none, {}⟩

/-! ## The collected lists -/

/-- The lists of a function. -/
def Function.data (fn : Function V) : PerFunctionData V where
  allocas := fn.instructions.filterMap Instruction.asAlloca
  calls := fn.instructions.filterMap Instruction.asCall
  invokes := fn.instructions.filterMap Instruction.asInvoke

/-- Notifying the instructions appends them to the lists. -/
theorem foldl_onInstruction (instructions : List (Instruction V))
    (cache : PerFunctionInstructionCache F V) :
    instructions.foldl PerFunctionInstructionCache.onInstruction cache = { cache with
      currentData :=
        { allocas := cache.currentData.allocas ++ instructions.filterMap Instruction.asAlloca
          calls := cache.currentData.calls ++ instructions.filterMap Instruction.asCall
          invokes := cache.currentData.invokes ++
            instructions.filterMap Instruction.asInvoke } } := by
  induction instructions generalizing cache with
  | nil => simp
  | cons inst instructions ih =>
    rw [List.foldl_cons, ih]
    cases inst <;> simp [PerFunctionInstructionCache.onInstruction, List.filterMap_cons,
      Instruction.asAlloca, Instruction.asCall, Instruction.asInvoke]

/-- The traversal of one function adds its lists, if it is new. -/
theorem entries_visitFunction [DecidableEq F] (mod : Module F V) (f : F)
    (cache : PerFunctionInstructionCache F V) (h : cache.data.find f = none) :
    (((mod.function f).instructions.foldl PerFunctionInstructionCache.onInstruction
        (cache.onFunctionBegin f)).onFunctionEnd f).data.entries =
      cache.data.entries ++ [(f, (mod.function f).data)] := by
  rw [foldl_onInstruction]
  unfold PerFunctionInstructionCache.onFunctionEnd PerFunctionInstructionCache.onFunctionBegin
  simp only [if_true]
  split
  · simp [EntryMap.add, Function.data]
  · rename_i heq
    exact absurd (h.symm.trans heq) (by simp)

/-- **The cache of a module** has one entry for each function that is analysed, with its lists. -/
theorem entries_collectIRFacts [DecidableEq F] (mod : Module F V) (shouldAnalyze : F → Bool) :
    (collectIRFacts mod shouldAnalyze).data.entries =
      (mod.selected shouldAnalyze).map fun f => (f, (mod.function f).data) := by
  have hnd : (mod.selected shouldAnalyze).Nodup := mod.nodup.filter _
  unfold collectIRFacts
  generalize mod.selected shouldAnalyze = fs at hnd ⊢
  induction fs using List.reverseRecOn with
  | nil => rfl
  | append_singleton fs f ih =>
    rw [List.nodup_append] at hnd
    have hbefore := ih hnd.1
    rw [List.foldl_append, List.foldl_cons, List.foldl_nil, entries_visitFunction, hbefore,
      List.map_append, List.map_singleton]
    rw [EntryMap.find, lookup_eq_none_iff, hbefore, List.map_map]
    intro hf
    have hmem : f ∈ fs := by simpa [Function.comp_def] using hf
    exact hnd.2.2 f hmem f (by simp) rfl

end StackAnalyzer.Passes
