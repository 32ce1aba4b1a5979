import StackAnalyzer.Smt.SolverOrchestrator
import StackAnalyzer.Smt.Z3Expr

set_option relaxedAutoImplicit false
set_option autoImplicit false

/-!
# The Z3 backend

A query is translated node by node into expressions of Z3, each node once. A symbol becomes a
constant with the debug name of the symbol. Only when there are no assertions are the intervals
translated.

## Main definitions

* `StackAnalyzer.Smt.Z3Backend.getOrCreateSymbol`, `StackAnalyzer.Smt.Z3Backend.makeBvConstant` —
  constants of Z3 and numerals.
* `StackAnalyzer.Smt.Z3Backend.buildExpr` — the translation of a node.
* `StackAnalyzer.Smt.Z3Backend.solve` — the answer of the backend.

## Main results

* `StackAnalyzer.Smt.Z3Backend.buildExpr_fuel` — the recursion ends on well-typed nodes.
-/

namespace StackAnalyzer.Smt.Z3Backend

open Z3

/-! ## Symbols and constants -/

/-- `SymbolEntry`. -/
structure SymbolEntry where
  name : String
  expr : Expr
  bitWidth : ℕ

/-- `makeBvConstant`: the numeral with the decimal digits of the value as an unsigned number of 64
bits. -/
def makeBvConstant (value : ℤ) (bitWidth : ℕ) : Bits :=
  let raw := (BitVec.ofInt 64 value).toNat
  ⟨normalizeBitWidth bitWidth, BitVec.ofNat _ raw⟩

section Tables

variable {V : Type*}

/-- `collectBitWidths`: the first node of a symbol counts. -/
def collectBitWidths (ir : ConstraintIR V) (id : SymbolId) : Option ℕ :=
  (ir.nodes.find? fun node => decide (node.kind = .symbol ∧ node.symbol ≠ 0 ∧ node.symbol = id)).map
    fun node => normalizeBitWidth node.bitWidth

/-- `collectNames`: the last debug name of a symbol counts. -/
def collectNames (symbols : List (SymbolInfo V)) : SymbolId → Option String :=
  symbols.foldl
    (fun names symbol =>
      if symbol.id = 0 ∨ symbol.debugName = "" then names
      else Function.update names symbol.id (some symbol.debugName))
    fun _ => none

/-- What `c_str` gives of a text: it ends before the first zero character. -/
def cStr (text : String) : String :=
  String.ofList (text.toList.takeWhile fun c => decide (c ≠ Char.ofNat 0))

/-- The name of the constant for a symbol. -/
def symbolName (names : SymbolId → Option String) (id : SymbolId) : String :=
  (names id).getD ("sym_" ++ toString id)

end Tables

/-! ## The translation -/

/-- What the translation keeps: expressions by node, constants by symbol, and the last error. -/
structure TranslationState where
  cache : ExprId → Option Expr := fun _ => none
  symbols : SymbolId → Option SymbolEntry := fun _ => none
  error : String := ""

/-- A step of the translation: it throws the exceptions of Z3, and may have no result. -/
abbrev Build := TranslationState → Except String (Option Expr × TranslationState)

/-- No result, with an error. -/
def fail (error : String) : Build := fun s => .ok (none, { s with error := error })

/-- One step after another one, which may have had no result. -/
def andThen (build : Build) (k : Option Expr → Build) : Build := fun s =>
  match build s with
  | .error exception => .error exception
  | .ok (result, s) => k result s

/-- An operand is translated; without it there is no result. -/
def withOperand (build : Build) (k : Expr → Build) : Build :=
  andThen build fun l s =>
    match l with
    | some l => k l s
    | none => .ok (none, s)

/-- Two operands are translated, also the second when the first has no result. -/
def withOperands (lhs rhs : Build) (k : Expr → Expr → Build) : Build :=
  andThen lhs fun l => andThen rhs fun r s =>
    match l, r with
    | some l, some r => k l r s
    | _, _ => .ok (none, s)

/-- Three operands are translated. -/
def withThreeOperands (cond lhs rhs : Build) (k : Expr → Expr → Expr → Build) : Build :=
  andThen cond fun c => andThen lhs fun l => andThen rhs fun r s =>
    match c, l, r with
    | some c, some l, some r => k c l r s
    | _, _, _ => .ok (none, s)

/-- `getOrCreateSymbol`. -/
def getOrCreateSymbol (names : SymbolId → Option String) (id : SymbolId) (bitWidth : ℕ) : Build :=
  fun s =>
    if id = 0 then fail "invalid symbol id 0" s
    else
      match s.symbols id with
      | some entry =>
        if entry.bitWidth ≠ normalizeBitWidth bitWidth then
          fail ("symbol width mismatch for symbol id " ++ toString id) s
        else .ok (some entry.expr, s)
      | none =>
        let name := symbolName names id
        let width := normalizeBitWidth bitWidth
        let entry : SymbolEntry := ⟨name, .const (cStr name) width, width⟩
        .ok (some entry.expr, { s with symbols := Function.update s.symbols id (some entry) })

section BuildExpr

variable {V : Type*} (z3 : Solver)

/-- `memoize`: the expression is built and kept, unless there is one already. -/
def memoize (id : ExprId) (value : Expr) : Build := fun s =>
  if value.sort = none then .error (z3.sortError value)
  else
    match s.cache id with
    | some cached => .ok (some cached, s)
    | none => .ok (some value, { s with cache := Function.update s.cache id (some value) })

/-- The width of a bit vector. -/
def bvSize (e : Expr) (k : ℕ → Build) : Build :=
  match e.sort with
  | some (.bits srcWidth) => k srcWidth
  | _ => fun _ => .error (z3.widthError e)

/-- The operation of Z3 for a kind. -/
def binaryOp : ExprKind → Option Op
  | .add => some .bvadd
  | .sub => some .bvsub
  | .mul => some .bvmul
  | .shl => some .bvshl
  | .lshr => some .bvlshr
  | .ashr => some .bvashr
  | .eq => some .eq
  | .ne => some .distinct
  | .ult => some .bvult
  | .ule => some .bvule
  | .ugt => some .bvugt
  | .uge => some .bvuge
  | .slt => some .bvslt
  | .sle => some .bvsle
  | .sgt => some .bvsgt
  | .sge => some .bvsge
  | .and => some .and
  | .or => some .or
  | _ => none

/-- The cases of `buildExpr`, with the translations of the operands. -/
def buildNode (names : SymbolId → Option String) (id : ExprId) (node : ExprNode)
    (lhs rhs extra : Build) : Build :=
  let bitWidth := normalizeBitWidth node.bitWidth
  match node.kind with
  | .symbol => withOperand (getOrCreateSymbol names node.symbol bitWidth) (memoize z3 id)
  | .constant => memoize z3 id (.numeral (makeBvConstant node.constant bitWidth))
  | .ite => withThreeOperands lhs rhs extra fun cond onTrue onFalse =>
    if cond.sort ≠ some .bool then fail "ite condition must be boolean"
    else memoize z3 id (.ite cond onTrue onFalse)
  | .not => withOperand lhs fun l => memoize z3 id (.not l)
  | .zext => withOperand lhs fun l => bvSize z3 l fun srcWidth =>
    if bitWidth < srcWidth then fail "invalid zext width"
    else memoize z3 id (.zext (bitWidth - srcWidth) l)
  | .sext => withOperand lhs fun l => bvSize z3 l fun srcWidth =>
    if bitWidth < srcWidth then fail "invalid sext width"
    else memoize z3 id (.sext (bitWidth - srcWidth) l)
  | .trunc => withOperand lhs fun l => bvSize z3 l fun srcWidth =>
    if srcWidth < bitWidth then fail "invalid trunc width"
    else if bitWidth = srcWidth then memoize z3 id l
    else memoize z3 id (.extract (bitWidth - 1) 0 l)
  | kind =>
    match binaryOp kind with
    | some op => withOperands lhs rhs fun l r => memoize z3 id (.app op l r)
    | none => fail "unsupported expression kind"

variable (ir : ConstraintIR V) (names : SymbolId → Option String)

/-- `buildExpr`. The fuel bounds the depth of the recursion. -/
def buildExpr : ℕ → ExprId → Build
  | 0, _ => fun s => .ok (none, s)
  | fuel + 1, id => fun s =>
    match s.cache id with
    | some e => .ok (some e, s)
    | none =>
      match ir.nodes[id]? with
      | none => fail "expression id out of bounds" s
      | some node =>
        buildNode z3 names id node (buildExpr fuel node.lhs) (buildExpr fuel node.rhs)
          (buildExpr fuel node.extra) s

/-! ## The answer -/

/-- Assertions collected one after the other. -/
abbrev Assertions := Except String (Option (List Expr) × TranslationState)

/-- The bounds of an interval. Both sides of a comparison have the width of the symbol. -/
def intervalBounds (symbol : Expr) (bitWidth : ℕ) (c : IntervalConstraint) : List Expr :=
  (if c.hasLower then [.app .bvsge symbol (.numeral (makeBvConstant c.lower bitWidth))] else []) ++
    if c.hasUpper then [.app .bvsle symbol (.numeral (makeBvConstant c.upper bitWidth))] else []

/-- The loop over the intervals. -/
def assertIntervals : List IntervalConstraint → TranslationState → Assertions
  | [], s => .ok (some [], s)
  | c :: rest, s => do
    let bitWidth := (collectBitWidths ir c.symbol).getD 64
    let (symbol, s) ← getOrCreateSymbol names c.symbol bitWidth { s with error := "" }
    match symbol with
    | none => pure (none, s)
    | some symbol =>
      let (asserted, s) ← assertIntervals rest s
      pure (asserted.map fun es => intervalBounds symbol bitWidth c ++ es, s)

/-- The loop over the assertions. -/
def assertAll : List ExprId → TranslationState → Assertions
  | [], s => .ok (some [], s)
  | id :: rest, s => do
    let (assertion, s) ← buildExpr z3 ir names (ir.nodes.length + 1) id { s with error := "" }
    match assertion with
    | none => pure (none, s)
    | some e =>
      if e.sort ≠ some .bool then pure (none, { s with error := "non-boolean assertion" })
      else
        let (asserted, s) ← assertAll rest s
        pure (asserted.map fun es => e :: es, s)

/-- All assertions of a query. -/
def translate : Assertions := do
  let names := collectNames ir.symbols
  let (bounds, s) ←
    if ir.assertions.isEmpty then assertIntervals ir names ir.intervals {} else pure (some [], {})
  match bounds with
  | none => pure (none, s)
  | some bounds =>
    let (asserted, s) ← assertAll z3 ir names ir.assertions s
    pure (asserted.map fun es => bounds ++ es, s)

/-- `Z3Backend::solve`. -/
def solve (query : SmtQuery V) : SmtAnswer :=
  if query.budgetNodes ≠ 0 ∧ query.budgetNodes < query.ir.nodes.length then
    ⟨"z3", some "query budget exceeded before solver invocation", .timeout⟩
  else
    match translate z3 query.ir with
    | .error exception => ⟨"z3", some exception, .error⟩
    | .ok (none, s) => ⟨"z3", some s.error, .unknown⟩
    | .ok (some asserted, _) =>
      match z3.check query.timeoutMs asserted with
      | .error exception => ⟨"z3", some exception, .error⟩
      | .ok .sat => ⟨"z3", none, .sat⟩
      | .ok .unsat => ⟨"z3", none, .unsat⟩
      | .ok (.unknown reason) =>
        ⟨"z3", some reason, if reason = "timeout" then .timeout else .unknown⟩

end BuildExpr

/-! ## The depth of the recursion -/

section Fuel

variable {V : Type*} {z3 : Solver} {ir : ConstraintIR V} {names : SymbolId → Option String}

/-- The translation of a node uses the translations of its operands only. -/
theorem buildNode_congr {id : ExprId} {node : ExprNode} {lhs lhs' rhs rhs' extra extra' : Build}
    (hlhs : node.lhs ∈ node.operands → lhs = lhs') (hrhs : node.rhs ∈ node.operands → rhs = rhs')
    (hextra : node.extra ∈ node.operands → extra = extra') :
    buildNode z3 names id node lhs rhs extra = buildNode z3 names id node lhs' rhs' extra' := by
  unfold ExprNode.operands at hlhs hrhs hextra
  unfold buildNode
  cases hkind : node.kind <;> simp only [hkind, ExprKind.form] at hlhs hrhs hextra <;>
    simp_all

/-- **The recursion ends on well-typed nodes**: more fuel than there are nodes changes nothing. -/
theorem buildExpr_fuel {id : ExprId} {s : ExprSort} (h : ir.HasSort id s) {fuel : ℕ}
    (hfuel : ir.nodes.length < fuel) :
    buildExpr z3 ir names fuel id = buildExpr z3 ir names (ir.nodes.length + 1) id := by
  have hall : ∀ fuel fuel', (ir.descendants id).card < fuel → (ir.descendants id).card < fuel' →
      buildExpr z3 ir names fuel id = buildExpr z3 ir names fuel' id := by
    refine h.operand_induction (p := fun id => ∀ fuel fuel', (ir.descendants id).card < fuel →
      (ir.descendants id).card < fuel' →
        buildExpr z3 ir names fuel id = buildExpr z3 ir names fuel' id) ?_
    intro id ih fuel fuel' hlt hlt'
    obtain ⟨fuel, rfl⟩ := Nat.exists_eq_succ_of_ne_zero (Nat.ne_of_gt (Nat.zero_lt_of_lt hlt))
    obtain ⟨fuel', rfl⟩ := Nat.exists_eq_succ_of_ne_zero (Nat.ne_of_gt (Nat.zero_lt_of_lt hlt'))
    funext st
    unfold buildExpr
    cases st.cache id with
    | some e => rfl
    | none =>
      cases hnode : ir.nodes[id]? with
      | none => rfl
      | some node =>
        -- an operand depends on fewer nodes, so the fuel that is left is enough for it
        have hoperand : ∀ operand ∈ node.operands,
            buildExpr z3 ir names fuel operand = buildExpr z3 ir names fuel' operand := by
          intro operand hmem
          obtain ⟨⟨s, hsort⟩, heq⟩ := ih operand ⟨node, hnode, hmem⟩
          have hcard := ConstraintIR.card_descendants_lt hsort ⟨node, hnode, hmem⟩
          exact heq fuel fuel' (by omega) (by omega)
        simp only
        rw [buildNode_congr (hoperand node.lhs) (hoperand node.rhs) (hoperand node.extra)]
  have hle := ir.card_descendants_le id
  exact hall fuel _ (by omega) (by omega)

end Fuel

end StackAnalyzer.Smt.Z3Backend
