import StackAnalyzer.Graph.Reach

set_option relaxedAutoImplicit false
set_option autoImplicit false

/-!
# LLVM values

The part of the LLVM IR that the SMT encoder reads: how the values of a function are defined, and
what it means for concrete bit vectors to be the values of an execution. Poison is the absence of
a value, so a valuation of all values is poison-free.

## Main definitions

* `StackAnalyzer.Llvm.ValueDef`, `StackAnalyzer.Llvm.Function` — values and their definitions.
* `StackAnalyzer.Llvm.BinaryOp.exact` — the exact result of an arithmetic operation.
* `StackAnalyzer.Llvm.Function.Defines` — a valuation obeys the definition of a value.
-/

namespace StackAnalyzer.Llvm

/-- The cast instructions; `other` stands for those that are not integer resizes. -/
inductive CastOp
  | sext | zext | trunc | other
  deriving DecidableEq

/-- The predicates of `icmp`. -/
inductive Predicate
  | eq | ne | ult | ule | ugt | uge | slt | sle | sgt | sge
  deriving DecidableEq

/-- The binary operators; `other` stands for those that the encoder does not know. -/
inductive BinaryOp
  | add | sub | mul | shl | lshr | ashr | other
  deriving DecidableEq

/-- The definition of a value, with values of type `V` and blocks of type `B`. -/
inductive ValueDef (V B : Type*)
  | constantInt (value : ℤ)
  | constantPointerNull
  | undef
  | argument
  | phi (incoming : List (B × V))
  | freeze (operand : V)
  | select (cond trueValue falseValue : V)
  | cast (op : CastOp) (operand : V)
  | icmp (predicate : Predicate) (lhs rhs : V)
  | binary (op : BinaryOp) (nsw nuw : Bool) (lhs rhs : V)
  | assume (cond : V)
  | other

/-- The width of an integer type: LLVM allows 1 to `2 ^ 23` bits. -/
abbrev IntWidth := {w : ℕ // 1 ≤ w ∧ w ≤ 2 ^ 23}

/-- The width of a bit is one. -/
theorem isWidth_one : 1 ≤ 1 ∧ 1 ≤ 2 ^ 23 := by decide

/-- The width of a byte is one. -/
theorem isWidth_eight : 1 ≤ 8 ∧ 8 ≤ 2 ^ 23 := by decide

/-- The width of an `int` is one. -/
theorem isWidth_thirtyTwo : 1 ≤ 32 ∧ 32 ≤ 2 ^ 23 := by decide

/-- The width of a `long` is one. -/
theorem isWidth_sixtyFour : 1 ≤ 64 ∧ 64 ≤ 2 ^ 23 := by decide

/-- A function: the definition of each value, its integer width if its type has one, its name, and
the instructions of each block in order. -/
structure Function (V B : Type*) where
  definition : V → ValueDef V B
  integerWidth : V → Option IntWidth
  name : V → String
  parent : V → B
  instructions : B → List V

/-! ## Meaning -/

/-- The relation that a predicate tests. -/
def Predicate.holds (p : Predicate) {w : ℕ} (a b : BitVec w) : Bool :=
  match p with
  | .eq => decide (a = b)
  | .ne => decide (a ≠ b)
  | .ult => decide (a.toNat < b.toNat)
  | .ule => decide (a.toNat ≤ b.toNat)
  | .ugt => decide (b.toNat < a.toNat)
  | .uge => decide (b.toNat ≤ a.toNat)
  | .slt => decide (a.toInt < b.toInt)
  | .sle => decide (a.toInt ≤ b.toInt)
  | .sgt => decide (b.toInt < a.toInt)
  | .sge => decide (b.toInt ≤ a.toInt)

namespace BinaryOp

/-- `add`, `sub` and `mul` may carry wrap flags. -/
def isArithmetic : BinaryOp → Bool
  | add | sub | mul => true
  | _ => false

/-- The exact result of an arithmetic operation. -/
def exact : BinaryOp → ℤ → ℤ → ℤ
  | add, a, b => a + b
  | sub, a, b => a - b
  | mul, a, b => a * b
  | _, _, _ => 0

/-- `c` is the result of the operation on `a` and `b`, and not poison. -/
def Result (op : BinaryOp) (nsw nuw : Bool) {w : ℕ} (a b c : BitVec w) : Prop :=
  match op with
  | add => c = a + b ∧ (nsw = true → c.toInt = a.toInt + b.toInt) ∧
      (nuw = true → c.toNat = a.toNat + b.toNat)
  | sub => c = a - b ∧ (nsw = true → c.toInt = a.toInt - b.toInt) ∧
      (nuw = true → (c.toNat : ℤ) = a.toNat - b.toNat)
  | mul => c = a * b ∧ (nsw = true → c.toInt = a.toInt * b.toInt) ∧
      (nuw = true → c.toNat = a.toNat * b.toNat)
  | shl => c = a <<< b.toNat ∧ b.toNat < w
  | lshr => c = a >>> b.toNat ∧ b.toNat < w
  | ashr => c = a.sshiftRight b.toNat ∧ b.toNat < w
  | other => True

end BinaryOp

namespace Function

variable {V B : Type*} (fn : Function V B)

/-- `inferBitWidth`: the integer width, 64 for values of another type. -/
def inferBitWidth (v : V) : ℕ :=
  match fn.integerWidth v with
  | some w => max w.val 1
  | none => 64

/-- `isIntegerTy(w)`. -/
def isIntegerTy (v : V) (w : ℕ) : Bool := decide ((fn.integerWidth v).map Subtype.val = some w)

/-- A valuation gives every value a bit vector of its width. -/
abbrev Valuation := (v : V) → BitVec (fn.inferBitWidth v)

variable {fn}

/-- The valuation obeys the definition of `v`; the operands of an instruction have the widths that
its type asks for. The value of a phi is not constrained here: it is taken when its block is
entered. -/
def Defines (ρ : fn.Valuation) (v : V) : Prop :=
  match fn.definition v with
  | .constantInt c => ρ v = BitVec.ofInt _ c
  | .constantPointerNull => ρ v = 0
  | .undef | .argument | .assume _ | .other => True
  | .phi incoming => ∀ p ∈ incoming, fn.inferBitWidth p.2 = fn.inferBitWidth v
  | .freeze x => fn.inferBitWidth x = fn.inferBitWidth v ∧ ρ v = (ρ x).setWidth _
  | .select c t f => fn.inferBitWidth c = 1 ∧ fn.inferBitWidth t = fn.inferBitWidth v ∧
      fn.inferBitWidth f = fn.inferBitWidth v ∧
      ρ v = if ρ c ≠ 0 then (ρ t).setWidth _ else (ρ f).setWidth _
  | .cast .sext x => fn.inferBitWidth x ≤ fn.inferBitWidth v ∧ ρ v = (ρ x).signExtend _
  | .cast .zext x => fn.inferBitWidth x ≤ fn.inferBitWidth v ∧ ρ v = (ρ x).setWidth _
  | .cast .trunc x => fn.inferBitWidth v ≤ fn.inferBitWidth x ∧ ρ v = (ρ x).setWidth _
  | .cast .other _ => True
  | .icmp p a b => fn.inferBitWidth v = 1 ∧ fn.inferBitWidth b = fn.inferBitWidth a ∧
      ρ v = if p.holds (ρ a) ((ρ b).setWidth _) then 1 else 0
  | .binary op nsw nuw a b => fn.inferBitWidth a = fn.inferBitWidth v ∧
      fn.inferBitWidth b = fn.inferBitWidth v ∧
      op.Result nsw nuw ((ρ a).setWidth (fn.inferBitWidth v)) ((ρ b).setWidth _) (ρ v)

/-- Every value has at least one bit. -/
theorem one_le_inferBitWidth (v : V) : 1 ≤ fn.inferBitWidth v := by
  unfold inferBitWidth
  cases fn.integerWidth v with
  | none => simp
  | some w => exact le_max_right w.val 1

/-- No value has as many bits as the encoder's limit for wider arithmetic. -/
theorem inferBitWidth_lt (v : V) : fn.inferBitWidth v < 2 ^ 32 - 1 := by
  unfold inferBitWidth
  cases fn.integerWidth v with
  | none => simp
  | some w =>
    have := w.2.2
    simp only
    omega

/-- The width of a value of integer type. -/
theorem inferBitWidth_of_isIntegerTy {v : V} {w : ℕ} (h : fn.isIntegerTy v w = true) :
    fn.inferBitWidth v = w := by
  unfold isIntegerTy at h
  unfold inferBitWidth
  cases hv : fn.integerWidth v with
  | none => simp [hv] at h
  | some w' =>
    have := w'.2.1
    simp only [hv, Option.map_some, Option.some.injEq, decide_eq_true_eq] at h
    simp only
    omega

end Function

end StackAnalyzer.Llvm
