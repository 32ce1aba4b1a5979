import StackAnalyzer.CrossTU.ResourceIndex
import StackAnalyzer.Smt.Encoder

set_option relaxedAutoImplicit false
set_option autoImplicit false

/-!
# Modules with memory and calls

The part of the LLVM IR that the passes over buffers and sizes read: types, instructions with their
operands and users, and the blocks of functions. The SMT encoder reads the same module through
`Module.smtFunction`.

## Main definitions

* `StackAnalyzer.Llvm.Ty`, `StackAnalyzer.Llvm.Value` — types and values.
* `StackAnalyzer.Llvm.Module` — a module, with what LLVM answers about its values.
* `StackAnalyzer.Llvm.Module.Verified` — operands and users of instructions stay in their function.
* `StackAnalyzer.Llvm.Module.smtFunction` — the values as the SMT encoder sees them.
* `StackAnalyzer.Llvm.wrap64` — numbers as 64-bit signed ones.
-/

namespace StackAnalyzer.Llvm

open CrossTU

/-- A number as a `long long`. -/
def wrap64 (x : ℤ) : ℤ := x.bmod (2 ^ 64)

/-- A number as a `StackSize`, or any other unsigned number of 64 bits. -/
def toUnsigned64 (x : ℤ) : ℕ := (x % 2 ^ 64).toNat

/-! ## Types and values -/

/-- Types. -/
inductive Ty
  | int (width : IntWidth)
  | ptr
  | array (numElements : ℕ) (elementType : Ty)
  | struct (elements : List Ty)
  | other

/-- The integer width of a type. -/
def Ty.integerWidth : Ty → Option IntWidth
  | .int width => some width
  | _ => none

/-- `isIntegerTy`. -/
def Ty.isIntegerTy (ty : Ty) : Bool := ty.integerWidth.isSome

/-- `isPointerTy`. -/
def Ty.isPointerTy : Ty → Bool
  | .ptr => true
  | _ => false

mutual

/-- `isArrayBackedType`: an array, or a struct with an array in it. -/
def Ty.isArrayBacked : Ty → Bool
  | .array _ _ => true
  | .struct elements => anyArrayBacked elements
  | _ => false

/-- Whether one of the types is. -/
def anyArrayBacked : List Ty → Bool
  | [] => false
  | ty :: tys => ty.isArrayBacked || anyArrayBacked tys

end

/-- The cast instructions; `other` stands for those between pointers, numbers and floats. -/
inductive CastInst
  | sext | zext | trunc | bitcast | other
  deriving DecidableEq

/-- The intrinsics that the passes know. For a debug variable, the first location operand is given,
and whether the type of the variable is an array; for an arithmetic operation with overflow its
name. -/
inductive Intrinsic (V : Type*)
  | memcpy | memmove | memset
  | dbgVariable (location : Option V) (isArray : Bool)
  | dbgInfo
  | lifetime
  | assume
  | withOverflow
  | other

/-- A `CallBase`: `getCalledFunction`, `getCalledOperand`, the arguments, the intrinsic if it is
one, and whether the returned value has the attribute `nonnull`. -/
structure CallBase (V F : Type*) where
  calledFunction : Option F
  calledOperand : V
  args : List V
  intrinsic : Option (Intrinsic V)
  retNonNull : Bool

/-- Values, of type `V`, with blocks of type `B` and functions of type `F`. -/
inductive Value (V B F : Type*)
  | constantInt (width : ℕ) (bits : BitVec width)
  | constantPointerNull
  | undef
  | globalVariable (valueType : Ty)
  | function (f : F)
  | constant
  | argument (argNo : ℕ) (nonNull : Bool)
  | alloca (allocatedType : Ty) (arraySize : V) (usedWithInAlloca : Bool)
  | load (pointer : V)
  | store (value pointer : V)
  | getElementPtr (sourceElementType : Ty) (pointer : V) (indices : List V)
  | cast (op : CastInst) (operand : V)
  | phi (incoming : List (B × V))
  | freeze (operand : V)
  | select (cond trueValue falseValue : V)
  | icmp (predicate : Predicate) (lhs rhs : V)
  | binary (op : BinaryOp) (nsw nuw : Bool) (lhs rhs : V)
  | br (cond : V) (ifTrue ifFalse : B)
  | ret
  | extractValue (aggregate : V)
  | call (call : CallBase V F)
  | instruction
  | other

namespace Value

variable {V B F : Type*}

/-- `isa<Argument>`. -/
def isArgument : Value V B F → Bool
  | .argument _ _ => true
  | _ => false

/-- `isa<ConstantInt>`. -/
def isConstantInt : Value V B F → Bool
  | .constantInt _ _ => true
  | _ => false

/-- `isa<Constant>`. -/
def isConstant : Value V B F → Bool
  | .constantInt _ _ | .constantPointerNull | .undef | .globalVariable _ | .function _
  | .constant => true
  | _ => false

/-- `isa<Instruction>`. -/
def isInstruction (v : Value V B F) : Bool :=
  match v with
  | .other => false
  | v => !v.isConstant && !v.isArgument

/-- `isa<AllocaInst>`. -/
def isAlloca : Value V B F → Bool
  | .alloca _ _ _ => true
  | _ => false

/-- The values that an instruction refers to, as far as they are known. -/
def operandValues : Value V B F → List V
  | .alloca _ arraySize _ => [arraySize]
  | .load pointer => [pointer]
  | .store value pointer => [value, pointer]
  | .getElementPtr _ pointer indices => pointer :: indices
  | .cast _ operand | .freeze operand => [operand]
  | .phi incoming => incoming.map Prod.snd
  | .select cond trueValue falseValue => [cond, trueValue, falseValue]
  | .icmp _ lhs rhs | .binary _ _ _ lhs rhs => [lhs, rhs]
  | .br cond _ _ => [cond]
  | .extractValue aggregate => [aggregate]
  | .call callBase => callBase.calledOperand :: callBase.args
  | _ => []

end Value

/-! ## Modules -/

/-- A module. A name is empty if there is none. `users` has a member for each use, in the order of
the list of uses. `underlyingObject` and `stripPointerCasts` are the functions of LLVM. No
instruction stands at two places. -/
structure Module (F V B : Type*) where
  functions : List F
  functionName : F → CppString
  isDeclaration : F → Bool
  sourcePath : F → CppString
  blocks : F → List B
  instructions : B → List V
  parent : V → B
  successors : B → List B
  predecessors : B → List B
  value : V → Value V B F
  type : V → Ty
  name : V → CppString
  users : V → List V
  operands : V → List V
  underlyingObject : V → V
  stripPointerCasts : V → V
  nodup : (functions.flatMap fun f => (blocks f).flatMap instructions).Nodup

namespace Module

variable {F V B : Type*} (mod : Module F V B)

/-- The instructions of a function, in order. -/
def functionInstructions (f : F) : List V := (mod.blocks f).flatMap mod.instructions

/-- An instruction stands in one function only. -/
theorem function_unique {f f' : F} (hf : f ∈ mod.functions) (hf' : f' ∈ mod.functions) {v : V}
    (hv : v ∈ mod.functionInstructions f) (hv' : v ∈ mod.functionInstructions f') : f = f' := by
  by_contra hne
  have hsymm : Std.Symm (Function.onFun List.Disjoint mod.functionInstructions) :=
    ⟨fun _ _ h => h.symm⟩
  have hdisjoint : mod.functions.Pairwise
      (Function.onFun List.Disjoint mod.functionInstructions) :=
    (List.nodup_flatMap.mp mod.nodup).2
  exact hdisjoint.forall hf hf' hne hv hv'

/-- A value that is no instruction of another function. -/
def LocalTo (f : F) (v : V) : Prop :=
  (mod.value v).isInstruction = true → v ∈ mod.functionInstructions f

/-- What the verifier of LLVM guarantees: instructions refer only to instructions of their own
function, and are used only by them. -/
structure Verified : Prop where
  operand_local : ∀ f ∈ mod.functions, ∀ v ∈ mod.functionInstructions f,
    ∀ w ∈ (mod.value v).operandValues, mod.LocalTo f w
  user_mem : ∀ f ∈ mod.functions, ∀ v ∈ mod.functionInstructions f, ∀ w ∈ mod.users v,
    w ∈ mod.functionInstructions f

/-- `isEntryBlock`, of the block of an instruction. -/
def inEntryBlock [DecidableEq B] (v : V) : Bool :=
  mod.functions.any fun f => decide ((mod.blocks f).head? = some (mod.parent v))

/-- `isStaticAlloca`. -/
def isStaticAlloca [DecidableEq B] (v : V) : Bool :=
  match mod.value v with
  | .alloca _ arraySize usedWithInAlloca =>
    (mod.value arraySize).isConstantInt && mod.inEntryBlock v && !usedWithInAlloca
  | _ => false

/-- `isArrayAllocation`, for the size of an alloca. -/
def isArrayAllocation (arraySize : V) : Bool :=
  match mod.value arraySize with
  | .constantInt _ bits => decide (bits.toNat ≠ 1)
  | _ => true

/-- Strip casts, at most as many as the fuel. -/
def stripCastsWithin : ℕ → V → V
  | 0, v => v
  | fuel + 1, v =>
    match mod.value v with
    | .cast _ operand => stripCastsWithin fuel operand
    | _ => v

/-- `stripCasts`: no chain of casts has more members than there are values. -/
def stripCasts [Fintype V] (v : V) : V := mod.stripCastsWithin (Fintype.card V) v

/-- The values as the SMT encoder sees them. -/
def smtFunction : Function V B where
  definition v :=
    match mod.value v with
    | .constantInt _ bits => .constantInt bits.toInt
    | .constantPointerNull => .constantPointerNull
    | .undef => .undef
    | .argument _ _ => .argument
    | .phi incoming => .phi incoming
    | .freeze operand => .freeze operand
    | .select cond trueValue falseValue => .select cond trueValue falseValue
    | .cast .sext operand => .cast .sext operand
    | .cast .zext operand => .cast .zext operand
    | .cast .trunc operand => .cast .trunc operand
    | .cast _ operand => .cast .other operand
    | .icmp predicate lhs rhs => .icmp predicate lhs rhs
    | .binary op nsw nuw lhs rhs => .binary op nsw nuw lhs rhs
    | .call call =>
      match call.intrinsic, call.args with
      | some .assume, cond :: _ => .assume cond
      | _, _ => .other
    | _ => .other
  integerWidth v := (mod.type v).integerWidth
  name v := String.ofList (mod.name v)
  parent := mod.parent
  instructions := mod.instructions

end Module

end StackAnalyzer.Llvm
