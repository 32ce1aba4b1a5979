import Mathlib

set_option relaxedAutoImplicit false
set_option autoImplicit false

/-!
# The constraint language of the SMT layer

A `ConstraintIR` is a list of expression nodes, each referring to earlier nodes by position, with
the positions of the asserted ones. Its meaning is that of fixed-width bit vectors with wrapping
arithmetic, as the Z3 backend builds it; a truth value is the bit vector `0` or `1` of the node's
width. (The backend keeps truth values and bit vectors in different sorts and gives up on an
expression that mixes them, in which case it answers neither way.)

## Main definitions

* `StackAnalyzer.Smt.ExprNode`, `StackAnalyzer.Smt.ConstraintIR` — the language.
* `StackAnalyzer.Smt.values` — the values of all nodes under an assignment of the symbols.
* `StackAnalyzer.Smt.ConstraintIR.Holds` — all assertions are true.
* `StackAnalyzer.Smt.ConstraintIrBuilder` — the builder, with the symbols it has handed out.

## Main results

* `StackAnalyzer.Smt.value_append` — appending nodes does not change the values of the others.
* `StackAnalyzer.Smt.value_last` — the value of an appended node.
-/

namespace StackAnalyzer.Smt

/-- `ExprKind`. -/
inductive ExprKind
  | symbol | constant | ite | add | sub | mul | shl | lshr | ashr
  | eq | ne | ult | ule | ugt | uge | slt | sle | sgt | sge
  | and | or | not | zext | sext | trunc
  deriving DecidableEq

/-- `SymbolId`. -/
abbrev SymbolId := ℕ

/-- `ExprId`: the position of a node. -/
abbrev ExprId := ℕ

/-- `ExprNode`. -/
structure ExprNode where
  kind : ExprKind := .constant
  symbol : SymbolId := 0
  constant : ℤ := 0
  bitWidth : ℕ := 1
  lhs : ExprId := 0
  rhs : ExprId := 0
  extra : ExprId := 0

/-- `SymbolInfo`; the token of the source is the value itself. -/
structure SymbolInfo (V : Type*) where
  id : SymbolId
  debugName : String
  source : V

/-- `IntervalConstraint`. -/
structure IntervalConstraint where
  symbol : SymbolId
  lower : ℤ
  upper : ℤ
  hasLower : Bool
  hasUpper : Bool

/-- `ConstraintIR`. -/
structure ConstraintIR (V : Type*) where
  symbols : List (SymbolInfo V) := []
  nodes : List ExprNode := []
  assertions : List ExprId := []
  entryCondition : Option ExprId := none
  intervals : List IntervalConstraint := []

/-! ## Evaluation -/

/-- A bit vector with its width. -/
structure Bits where
  width : ℕ
  val : BitVec width
  deriving DecidableEq

namespace Bits

/-- The bits at another width. -/
def atWidth (b : Bits) (w : ℕ) : BitVec w := b.val.setWidth w

/-- The bits at another width, as a signed number. -/
def signedAt (b : Bits) (w : ℕ) : BitVec w := b.val.signExtend w

/-- The truth value of a condition. -/
def isTrue (b : Bits) : Bool := decide (b.val ≠ 0)

/-- A truth value as bits. -/
def ofBool (w : ℕ) (b : Bool) : BitVec w := if b then 1 else 0

@[simp] theorem atWidth_self (b : Bits) : b.atWidth b.width = b.val := BitVec.setWidth_eq b.val

@[simp] theorem atWidth_mk {w : ℕ} (a : BitVec w) : (⟨w, a⟩ : Bits).atWidth w = a := BitVec.setWidth_eq a

/-- A truth value is read back. -/
theorem isTrue_ofBool {w : ℕ} (hw : 1 ≤ w) (b : Bool) : (⟨w, ofBool w b⟩ : Bits).isTrue = b := by
  cases b with
  | false => simp [isTrue, ofBool]
  | true =>
    have hne : (1 : BitVec w) ≠ 0 := fun h => by
      have h' := congrArg BitVec.toNat h
      have hlt : 1 < 2 ^ w := Nat.one_lt_two_pow (by omega)
      simp [BitVec.toNat_ofNat, Nat.mod_eq_of_lt hlt] at h'
    simpa [isTrue, ofBool] using hne

/-- A bit is its own truth value. -/
theorem ofBool_isTrue (a : BitVec 1) : ofBool 1 (⟨1, a⟩ : Bits).isTrue = a := by
  revert a
  decide

end Bits

/-- The value of the operand at a position; positions are always those of earlier nodes. -/
def operand (vals : List Bits) (id : ExprId) : Bits := vals.getD id ⟨1, 0⟩

/-- The kinds of comparisons, as relations on bit vectors. -/
def compare (k : ExprKind) {w : ℕ} (a b : BitVec w) : Bool :=
  match k with
  | .eq => decide (a = b)
  | .ne => decide (a ≠ b)
  | .ult => a.ult b
  | .ule => a.ule b
  | .ugt => b.ult a
  | .uge => b.ule a
  | .slt => a.slt b
  | .sle => a.sle b
  | .sgt => b.slt a
  | .sge => b.sle a
  | _ => false

/-- A comparison of operands, at the width of the left one. -/
def compareBits (k : ExprKind) (l r : Bits) : Bool := compare k l.val (r.atWidth l.width)

@[simp] theorem compareBits_mk (k : ExprKind) {w : ℕ} (a b : BitVec w) :
    compareBits k ⟨w, a⟩ ⟨w, b⟩ = compare k a b := by
  rw [compareBits, Bits.atWidth_mk]

/-- The kinds of arithmetic, as operations on bit vectors. -/
def arith (k : ExprKind) {w : ℕ} (a b : BitVec w) : BitVec w :=
  match k with
  | .add => a + b
  | .sub => a - b
  | .mul => a * b
  | .shl => a <<< b
  | .lshr => a >>> b
  | .ashr => a.sshiftRight b.toNat
  | _ => 0

/-- The value of a node of width `w`. A constant is its low 64 bits, extended by zeros. -/
def evalNode (assignment : SymbolId → ℕ) (vals : List Bits) (n : ExprNode) : BitVec n.bitWidth :=
  let lhs := operand vals n.lhs
  let rhs := operand vals n.rhs
  match n.kind with
  | .symbol => BitVec.ofNat _ (assignment n.symbol)
  | .constant => (BitVec.ofInt 64 n.constant).setWidth _
  | .ite => if lhs.isTrue then rhs.atWidth _ else (operand vals n.extra).atWidth _
  | .and => Bits.ofBool _ (lhs.isTrue && rhs.isTrue)
  | .or => Bits.ofBool _ (lhs.isTrue || rhs.isTrue)
  | .not => Bits.ofBool _ (!lhs.isTrue)
  | .zext => lhs.atWidth _
  | .sext => lhs.signedAt _
  | .trunc => lhs.atWidth _
  | .add | .sub | .mul | .shl | .lshr | .ashr => arith n.kind (lhs.atWidth _) (rhs.atWidth _)
  | _ => Bits.ofBool _ (compareBits n.kind lhs rhs)

/-- The values of all nodes, in order. -/
def values (assignment : SymbolId → ℕ) (nodes : List ExprNode) : List Bits :=
  nodes.foldl (fun vals n => vals ++ [⟨n.bitWidth, evalNode assignment vals n⟩]) []

/-- The value of the node at a position. -/
def value (assignment : SymbolId → ℕ) (nodes : List ExprNode) (id : ExprId) : Option Bits :=
  (values assignment nodes)[id]?

/-- All assertions are true under the assignment. -/
def ConstraintIR.Holds {V : Type*} (ir : ConstraintIR V) (assignment : SymbolId → ℕ) : Prop :=
  ∀ a ∈ ir.assertions, ∃ b, value assignment ir.nodes a = some b ∧ b.isTrue = true

section Values

variable (assignment : SymbolId → ℕ) (nodes : List ExprNode)

/-- One more node has one more value. -/
theorem values_concat (n : ExprNode) : values assignment (nodes ++ [n]) =
    values assignment nodes ++ [⟨n.bitWidth, evalNode assignment (values assignment nodes) n⟩] := by
  simp only [values, List.foldl_append, List.foldl_cons, List.foldl_nil]

@[simp] theorem length_values : (values assignment nodes).length = nodes.length := by
  induction nodes using List.reverseRecOn with
  | nil => rfl
  | append_singleton nodes n ih => rw [values_concat, List.length_append, ih]; simp

/-- A node that has a value exists. -/
theorem lt_of_value {id : ExprId} {b : Bits} (h : value assignment nodes id = some b) :
    id < nodes.length := by
  rw [value, List.getElem?_eq_some_iff] at h
  obtain ⟨h, -⟩ := h
  simpa using h

variable {assignment nodes}

/-- **Appending nodes** does not change the values of the others. -/
theorem value_append {id : ExprId} {b : Bits} (h : value assignment nodes id = some b)
    (more : List ExprNode) : value assignment (nodes ++ more) id = some b := by
  induction more using List.reverseRecOn with
  | nil => rwa [List.append_nil]
  | append_singleton more n ih =>
    have hlt := lt_of_value _ _ ih
    rw [value, ← List.append_assoc, values_concat, List.getElem?_append_left (by simpa using hlt)]
    exact ih

/-- The value of an appended node. -/
theorem value_last (n : ExprNode) : value assignment (nodes ++ [n]) nodes.length =
    some ⟨n.bitWidth, evalNode assignment (values assignment nodes) n⟩ := by
  rw [value, values_concat, List.getElem?_append_right (by simp)]
  simp

/-- An operand that has a value is read. -/
theorem operand_eq {id : ExprId} {b : Bits} (h : value assignment nodes id = some b) :
    operand (values assignment nodes) id = b := by
  rw [operand, List.getD_eq_getElem?_getD]
  simp only [value] at h
  rw [h, Option.getD_some]

/-- The width of a value is the width of its node. -/
theorem bitWidth_of_value {id : ExprId} {b : Bits} (h : value assignment nodes id = some b) :
    (nodes.getD id {}).bitWidth = b.width := by
  induction nodes using List.reverseRecOn with
  | nil => simp [value, values] at h
  | append_singleton nodes n ih =>
    have hlt := lt_of_value _ _ h
    rw [List.length_append, List.length_singleton] at hlt
    rcases Nat.lt_succ_iff_lt_or_eq.mp hlt with hlt | rfl
    · rw [value, values_concat, List.getElem?_append_left (by simpa using hlt)] at h
      rw [List.getD_eq_getElem?_getD, List.getElem?_append_left hlt, ← List.getD_eq_getElem?_getD]
      exact ih h
    · rw [value_last, Option.some.injEq] at h
      simp [List.getD_eq_getElem?_getD, ← h]

end Values

/-! ## The builder -/

/-- `normalizeBitWidth`. -/
def normalizeBitWidth (bitWidth : ℕ) : ℕ := if bitWidth = 0 then 1 else bitWidth

/-- `isBooleanExprKind`. -/
def isBooleanExprKind : ExprKind → Bool
  | .eq | .ne | .ult | .ule | .ugt | .uge | .slt | .sle | .sgt | .sge | .and | .or | .not => true
  | _ => false

/-- `ConstraintIrBuilder`, with the constraint built so far. -/
structure ConstraintIrBuilder (V : Type*) where
  ir : ConstraintIR V := {}
  nextSymbolId : SymbolId := 1
  symbolByValue : V → Option SymbolId := fun _ => none
  symbolExprById : SymbolId → Option ExprId := fun _ => none

namespace ConstraintIrBuilder

variable {V : Type*}

/-- `appendNode`. -/
def appendNode (b : ConstraintIrBuilder V) (node : ExprNode) : ExprId × ConstraintIrBuilder V :=
  (b.ir.nodes.length, { b with ir := { b.ir with nodes := b.ir.nodes ++ [node] } })

/-- `makeConstant`. -/
def makeConstant (value : ℤ) (bitWidth : ℕ) (b : ConstraintIrBuilder V) :
    ExprId × ConstraintIrBuilder V :=
  b.appendNode { kind := .constant, constant := value, bitWidth := normalizeBitWidth bitWidth }

/-- `buildSymbolName`: the name of the value, or a numbered name when it has none. -/
def buildSymbolName (name : V → String) (value : V) (id : SymbolId) : String :=
  if name value = "" then "sym_" ++ toString id else name value

/-- A new symbol for a value. -/
def newSymbol [DecidableEq V] (name : V → String) (value : V) (bitWidth : ℕ)
    (b : ConstraintIrBuilder V) : ConstraintIrBuilder V where
  ir := { b.ir with
    nodes := b.ir.nodes ++
      [{ kind := .symbol, symbol := b.nextSymbolId, bitWidth := normalizeBitWidth bitWidth }]
    symbols := b.ir.symbols ++
      [⟨b.nextSymbolId, buildSymbolName name value b.nextSymbolId, value⟩] }
  nextSymbolId := b.nextSymbolId + 1
  symbolByValue := Function.update b.symbolByValue value (some b.nextSymbolId)
  symbolExprById := Function.update b.symbolExprById b.nextSymbolId (some b.ir.nodes.length)

/-- `makeSymbol`: the symbol of the value, a new one the first time. -/
def makeSymbol [DecidableEq V] (name : V → String) (value : V) (bitWidth : ℕ)
    (b : ConstraintIrBuilder V) : ExprId × ConstraintIrBuilder V :=
  match b.symbolByValue value with
  | some id => ((b.symbolExprById id).getD 0, b)
  | none => (b.ir.nodes.length, b.newSymbol name value bitWidth)

/-- `makeBinary`. -/
def makeBinary (kind : ExprKind) (lhs rhs : ExprId) (bitWidth : ℕ) (b : ConstraintIrBuilder V) :
    ExprId × ConstraintIrBuilder V :=
  b.appendNode { kind := kind, bitWidth := normalizeBitWidth bitWidth, lhs := lhs, rhs := rhs }

/-- `makeUnary`. -/
def makeUnary (kind : ExprKind) (operand : ExprId) (bitWidth : ℕ) (b : ConstraintIrBuilder V) :
    ExprId × ConstraintIrBuilder V :=
  b.appendNode { kind := kind, bitWidth := normalizeBitWidth bitWidth, lhs := operand }

/-- `makeTernary`. -/
def makeTernary (kind : ExprKind) (lhs rhs extra : ExprId) (bitWidth : ℕ)
    (b : ConstraintIrBuilder V) : ExprId × ConstraintIrBuilder V :=
  b.appendNode
    { kind := kind, bitWidth := normalizeBitWidth bitWidth, lhs := lhs, rhs := rhs, extra := extra }

/-- `addAssertion`: the entry condition is the conjunction of all assertions. -/
def addAssertion (expr : ExprId) (b : ConstraintIrBuilder V) : ConstraintIrBuilder V :=
  let b' := { b with ir := { b.ir with assertions := b.ir.assertions ++ [expr] } }
  match b.ir.entryCondition with
  | none => { b' with ir := { b'.ir with entryCondition := some expr } }
  | some entry =>
    let (conj, b') := b'.makeBinary .and entry expr 1
    { b' with ir := { b'.ir with entryCondition := some conj } }

section AddAssertion

variable (b : ConstraintIrBuilder V) (expr : ExprId)

@[simp] theorem addAssertion_symbols : (b.addAssertion expr).ir.symbols = b.ir.symbols := by
  unfold addAssertion
  cases b.ir.entryCondition <;> rfl

@[simp] theorem addAssertion_nextSymbolId :
    (b.addAssertion expr).nextSymbolId = b.nextSymbolId := by
  unfold addAssertion
  cases b.ir.entryCondition <;> rfl

@[simp] theorem addAssertion_symbolByValue :
    (b.addAssertion expr).symbolByValue = b.symbolByValue := by
  unfold addAssertion
  cases b.ir.entryCondition <;> rfl

@[simp] theorem addAssertion_symbolExprById :
    (b.addAssertion expr).symbolExprById = b.symbolExprById := by
  unfold addAssertion
  cases b.ir.entryCondition <;> rfl

/-- An assertion is added behind the others. -/
@[simp] theorem addAssertion_assertions :
    (b.addAssertion expr).ir.assertions = b.ir.assertions ++ [expr] := by
  unfold addAssertion
  cases b.ir.entryCondition <;> rfl

/-- An assertion may append a node for the entry condition. -/
theorem nodes_prefix_addAssertion : b.ir.nodes <+: (b.addAssertion expr).ir.nodes := by
  unfold addAssertion
  cases b.ir.entryCondition with
  | none => exact List.prefix_rfl
  | some entry => exact List.prefix_append _ _

end AddAssertion

/-- `lookupSymbolId`: `0` when the value has no symbol. -/
def lookupSymbolId (b : ConstraintIrBuilder V) (value : V) : SymbolId :=
  (b.symbolByValue value).getD 0

/-- `node`. -/
def node (b : ConstraintIrBuilder V) (id : ExprId) : ExprNode := b.ir.nodes.getD id {}

end ConstraintIrBuilder

end StackAnalyzer.Smt
