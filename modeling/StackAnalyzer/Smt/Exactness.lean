import StackAnalyzer.Smt.Edges

set_option relaxedAutoImplicit false
set_option autoImplicit false

/-!
# Which edges are encoded soundly

The two conditions of the soundness theorem cannot be dropped. A class of edges is given by the
ranges that its values may carry and by the values that a phi and the incoming value in its place
may have. The encoder is sound on the class iff all of its ranges survive the cut to the width of
their values and its phis and incoming values always agree.

For the converse, a range that does not survive makes the branch `x == c` look infeasible for some
`c` within the range, and a phi `p` that differs from its incoming value `q` makes the branch
`p != q` look infeasible.

## Main definitions

* `StackAnalyzer.Smt.EdgeClass`, `StackAnalyzer.Smt.EdgeClass.Sound` — classes of edges.

## Main results

* `StackAnalyzer.Smt.EdgeClass.sound_iff` — the characterisation.
* `StackAnalyzer.Smt.not_satisfiable_byte_loop` — an 8-bit range and a loop phi that the encoder
  gets wrong.
-/

namespace StackAnalyzer.Smt

open Llvm Graph

/-- A class of edges: the ranges that a value of each width may carry, and the values that a phi
and the incoming value in its place may have when the edge is taken. -/
structure EdgeClass where
  range : ℕ → IntRange → Prop
  phi : (w : ℕ) → BitVec w → BitVec w → Prop

/-- On every feasible edge of the class, the assertions are satisfiable once the encoder has
enough fuel. -/
def EdgeClass.Sound (C : EdgeClass) : Prop :=
  ∀ (V B : Type) [DecidableEq V] [DecidableEq B] (fn : Llvm.Function V B)
    (incomingBlock : Option B) (ranges : List (V × IntRange)) (edgeCondition : Option V)
    (takesTrueEdge : Bool) (edgeBlock : Option B) (ρin ρ : fn.Valuation),
    (∀ v, Encoded fn incomingBlock ranges edgeCondition edgeBlock v → fn.inferBitWidth v ≤ 64) →
    (∀ entry ∈ ranges, shouldEncodeRangeConstraint fn entry.1 entry.2 = true →
      C.range (fn.inferBitWidth entry.1) entry.2) →
    (∀ v, Encoded fn incomingBlock ranges edgeCondition edgeBlock v →
      ∀ incoming, fn.definition v = .phi incoming →
      ∀ u, resolvedIncoming incomingBlock incoming = some u →
      C.phi (fn.inferBitWidth v) (ρ v) ((ρ u).setWidth _)) →
    Feasible fn incomingBlock ranges edgeCondition takesTrueEdge edgeBlock ρin ρ →
    ∃ N, ∀ fuel, N ≤ fuel → ∃ σ,
      (encode fn incomingBlock fuel ranges edgeCondition takesTrueEdge edgeBlock).Holds σ

/-! ## What the assertions of a larger builder say -/

section Includes

variable {V : Type*} {b b' b'' : ConstraintIrBuilder V} {σ : SymbolId → ℕ}

/-- The builder `b'` extends `b` and asserts at least as much. -/
structure Includes (b b' : ConstraintIrBuilder V) : Prop where
  ext : Extends b b'
  assertions : b.ir.assertions ⊆ b'.ir.assertions

/-- A builder includes itself. -/
theorem Includes.refl (b : ConstraintIrBuilder V) : Includes b b :=
  ⟨Extends.refl b, fun _ h => h⟩

/-- Inclusion is transitive. -/
theorem Includes.trans (h : Includes b b') (h' : Includes b' b'') : Includes b b'' :=
  ⟨h.ext.trans h'.ext, fun _ ha => h'.assertions (h.assertions ha)⟩

/-- Appending a node. -/
theorem Includes.append (b : ConstraintIrBuilder V) (n : ExprNode) :
    Includes b (b.appendNode n).2 :=
  ⟨Extends.append b n, fun _ h => h⟩

/-- Adding an assertion. -/
theorem Includes.addAssertion (b : ConstraintIrBuilder V) (a : ExprId) :
    Includes b (b.addAssertion a) :=
  ⟨Extends.addAssertion b a, fun _ h => by
    rw [b.addAssertion_assertions]
    exact List.mem_append_left _ h⟩

/-- Adding the assertion of a bound. -/
theorem Includes.assertBound (b : ConstraintIrBuilder V) (flag : Bool) (compare : ExprKind)
    (e : ExprId) (bound : ℤ) :
    Includes b (if flag then assertBound compare e bound b else b) := by
  cases flag with
  | false => simpa using Includes.refl b
  | true =>
    exact ((Includes.append b _).trans (Includes.append _ _)).trans (Includes.addAssertion _ _)

/-- Asserting a range. -/
theorem Includes.assertRange (b : ConstraintIrBuilder V) (symbolId : SymbolId) (e : ExprId)
    (range : IntRange) : Includes b (assertRange symbolId e range b) :=
  have hinterval : Includes b (addInterval symbolId range b) :=
    ⟨⟨List.prefix_rfl, List.prefix_rfl⟩, fun _ h => h⟩
  (hinterval.trans (Includes.assertBound _ _ _ _ _)).trans (Includes.assertBound _ _ _ _ _)

/-- An assertion of the smaller builder is true where those of the larger one are. -/
theorem Includes.isTrue (h : Includes b b') (hσ : b'.ir.Holds σ) {a : ExprId}
    (ha : a ∈ b.ir.assertions) {x : Bits} (hx : b.value σ a = some x) : x.isTrue = true := by
  obtain ⟨x', hx', htrue⟩ := hσ a (h.assertions ha)
  have heq := (h.ext.value hx).symm.trans hx'
  rwa [Option.some.inj heq]

end Includes

/-- **A bound** that is asserted holds at the width of the value. -/
theorem bound_of_holds {V : Type*} {b b' : ConstraintIrBuilder V} {σ : SymbolId → ℕ} {w : ℕ}
    (hw : 1 ≤ w) (hw64 : w ≤ 64) (p : Predicate) {e : ExprId} {x : BitVec w} {bound : ℤ}
    (he : b.value σ e = some ⟨w, x⟩)
    (h : Includes (assertBound (predicateKind p) e bound b) b') (hσ : b'.ir.Holds σ) :
    p.holds x (BitVec.ofInt w bound) = true := by
  have hwidth : (b.node e).bitWidth = w := bitWidth_of_value he
  simp only [Smt.assertBound, hwidth] at h
  have hbound := value_makeConstant (σ := σ) (b := b) bound hw hw64
  have hcmp := value_makeCompare p (value_append he _) hbound
  have htrue := h.isTrue hσ (by
    rw [ConstraintIrBuilder.addAssertion_assertions]
    exact List.mem_append_right _ List.mem_cons_self) (value_addAssertion hcmp _)
  rwa [Bits.isTrue_ofBool le_rfl] at htrue

/-- **A range** that is asserted of an expression contains its value, once cut. -/
theorem contains_of_holds {V : Type*} {b b' : ConstraintIrBuilder V} {σ : SymbolId → ℕ} {w : ℕ}
    (hw : 1 ≤ w) (hw64 : w ≤ 64) (symbolId : SymbolId) {e : ExprId} {x : BitVec w}
    {range : IntRange} (he : b.value σ e = some ⟨w, x⟩)
    (h : Includes (assertRange symbolId e range b) b') (hσ : b'.ir.Holds σ) :
    (range.cut w).Contains x.toInt := by
  have he' : (addInterval symbolId range b).value σ e = some ⟨w, x⟩ := he
  refine ⟨fun (hl : range.hasLower = true) => ?_, fun (hu : range.hasUpper = true) => ?_⟩
  · have hinc := (Includes.assertBound _ range.hasUpper .sle e range.upper).trans h
    rw [if_pos hl] at hinc
    exact of_decide_eq_true (bound_of_holds hw hw64 .sge he' hinc hσ)
  · have hlower := (Includes.assertBound (addInterval symbolId range b) range.hasLower .sge e
      range.lower).ext.value he'
    rw [Smt.assertRange, if_pos hu] at h
    exact of_decide_eq_true (bound_of_holds hw hw64 .sle hlower h hσ)

/-- An asserted comparison is true. -/
theorem ConstraintIR.Holds.eq_true {V : Type*} {b : ConstraintIrBuilder V} {σ : SymbolId → ℕ}
    {a : ExprId} (h : (b.addAssertion a).ir.Holds σ) {c : Bool}
    (ha : b.value σ a = some ⟨1, Bits.ofBool 1 c⟩) : c = true := by
  have htrue := (Includes.refl _).isTrue h (by
    rw [ConstraintIrBuilder.addAssertion_assertions]
    exact List.mem_append_right _ List.mem_cons_self) (value_addAssertion ha a)
  rwa [Bits.isTrue_ofBool le_rfl] at htrue

/-- A truth value is read as it is. -/
theorem asBoolean_eq {V : Type*} {enc : Enc V} {s : EncState V} {e : ExprId}
    (he : (enc s).1 = some e) (hk : isBooleanExprKind ((enc s).2.builder.node e).kind = true) :
    asBoolean enc s = (some e, (enc s).2) := by
  simp only [asBoolean, withOperand, he, hk, if_true]

/-! ## A range that does not survive the cut -/

section Bound

/-- The values of the branch `arg == const`. -/
inductive BoundValue
  | arg | const | test
  deriving DecidableEq

/-- A function that branches on `arg == const`, for an argument of width `w`. -/
def boundFn (w : IntWidth) (c : ℤ) : Llvm.Function BoundValue Unit where
  definition
    | .arg => .argument
    | .const => .constantInt c
    | .test => .icmp .eq .arg .const
  integerWidth
    | .test => some ⟨1, by decide⟩
    | _ => some w
  name := fun _ => "arg"
  parent := fun _ => ()
  instructions := fun _ => [.test]

/-- The values when the argument is the constant. -/
def boundValuation (w : IntWidth) (c : ℤ) : (boundFn w c).Valuation
  | .arg => BitVec.ofInt _ c
  | .const => BitVec.ofInt _ c
  | .test => 1

variable (w : IntWidth) (c : ℤ) (range : IntRange) (n : ℕ)

/-- The builder when the range has been asserted. -/
def boundBuilder : ConstraintIrBuilder BoundValue :=
  assertRange 1 0 range
    (({} : ConstraintIrBuilder BoundValue).newSymbol (fun _ => "arg") .arg (max w.val 1))

/-- The builder when the branch condition has been encoded. -/
def boundTest : ExprId × ConstraintIrBuilder BoundValue :=
  let (const, b) := (boundBuilder w range).makeConstant c (max w.val 1)
  b.makeBinary .eq 0 const 1

/-- The encoding of the branch. -/
theorem encode_boundFn (h : shouldEncodeRangeConstraint (boundFn w c) .arg range = true) :
    encode (boundFn w c) none (n + 2) [(.arg, range)] (some .test) true none =
      ((boundTest w c range).2.addAssertion (boundTest w c range).1).ir := by
  let s : EncState BoundValue :=
    { builder := boundBuilder w range, cache := Function.update (fun _ => none) .arg (some 0) }
  have hrange : encodeRange (boundFn w c) none (n + 2) {} (.arg, range) = s := by
    rw [encodeRange, if_pos h]
    rfl
  have hexpr : (encodeValue (boundFn w c) none (n + 2) .test s).1 = some (boundTest w c range).1 :=
    rfl
  have hbuilder : (encodeValue (boundFn w c) none (n + 2) .test s).2.builder =
      (boundTest w c range).2 := rfl
  have hkind : isBooleanExprKind ((boundTest w c range).2.node (boundTest w c range).1).kind =
      true := by
    simp [boundTest, ConstraintIrBuilder.makeBinary, ConstraintIrBuilder.appendNode,
      ConstraintIrBuilder.node, isBooleanExprKind]
  simp only [encode, encodeRangeAssertions, List.foldl_cons, List.foldl_nil, hrange,
    encodeAssumeAssertions, encodeEdgeCondition, if_true, assertCondition, encodeAsBoolean,
    asBoolean_eq hexpr (hbuilder ▸ hkind), hbuilder]

/-- The branch is feasible when the range contains the constant. -/
theorem feasible_boundFn (x : BitVec w.val) (hx : range.Contains x.toInt) :
    Feasible (boundFn w x.toInt) none [(.arg, range)] (some .test) true none
      (boundValuation w x.toInt) (boundValuation w x.toInt) where
  defines v _ := by
    cases v with
    | arg => trivial
    | const => rfl
    | test =>
      refine ⟨rfl, rfl, ?_⟩
      simp [boundValuation, Predicate.holds, Llvm.Function.inferBitWidth, boundFn]
  phis v _ _ incoming hdef := by cases v <;> simp [boundFn] at hdef
  unchanged v _ _ := rfl
  bounds entry hentry _ := by
    obtain rfl := List.mem_singleton.mp hentry
    have hmax : max w.val 1 = w.val := max_eq_left w.2.1
    have htoInt : (boundValuation w x.toInt .arg).toInt = x.toInt := by
      change (BitVec.ofInt (max w.val 1) x.toInt).toInt = x.toInt
      rw [hmax, BitVec.ofInt_toInt]
    rw [htoInt]
    exact hx
  assumes b hb := by simp at hb
  edge v hv := by
    obtain rfl := Option.some.inj hv
    have hone : (1 : BitVec 1) ≠ 0 := by decide
    exact ⟨fun _ => rfl, fun _ => hone⟩

/-- **The bounds matter**: the assertions hold the constant to the cut range. -/
theorem contains_of_boundFn (hw : w.val ≤ 64) (x : BitVec w.val)
    (h : shouldEncodeRangeConstraint (boundFn w x.toInt) .arg range = true) {σ : SymbolId → ℕ}
    (hσ : (encode (boundFn w x.toInt) none (n + 2) [(.arg, range)] (some .test) true none).Holds
      σ) : (range.cut w.val).Contains x.toInt := by
  have hmax : max w.val 1 = w.val := max_eq_left w.2.1
  have hnorm : normalizeBitWidth w.val = w.val := if_neg (by have := w.2.1; omega)
  rw [encode_boundFn w _ range n h] at hσ
  simp only [boundTest, boundBuilder, hmax] at hσ
  -- the symbol of the argument
  generalize hb₀ : ({} : ConstraintIrBuilder BoundValue).newSymbol (fun _ => "arg") .arg w.val =
    b₀ at hσ
  have he : b₀.value σ 0 = some ⟨w.val, BitVec.ofNat w.val (σ 1)⟩ := by
    rw [← hb₀]
    simp [ConstraintIrBuilder.newSymbol, value, values, evalNode, hnorm]
  -- the last assertion is a bound, too
  have he₁ := (Includes.assertRange b₀ 1 0 range).ext.value he
  have hwidth : ((assertRange 1 0 range b₀).node 0).bitWidth = w.val := bitWidth_of_value he₁
  have hfinal : (assertBound .eq 0 x.toInt (assertRange 1 0 range b₀)).ir.Holds σ := by
    rwa [assertBound, hwidth]
  have heq := bound_of_holds w.2.1 hw .eq he₁ (Includes.refl _) hfinal
  rw [Predicate.holds, BitVec.ofInt_toInt, decide_eq_true_eq] at heq
  rw [← heq]
  exact contains_of_holds w.2.1 hw 1 he
    (Includes.assertBound (assertRange 1 0 range b₀) true .eq 0 x.toInt) hfinal

end Bound

/-! ## A phi that differs from its incoming value -/

section Stale

/-- The values of a loop with `phi = φ [init, entry], [reload, loop]` and the branch
`phi != reload`. -/
inductive StaleValue
  | phi | reload | init | differ
  deriving DecidableEq

/-- A loop block, `true`, that reloads a value of width `w` and branches on whether it changed. -/
def staleFn (w : IntWidth) : Llvm.Function StaleValue Bool where
  definition
    | .phi => .phi [(false, .init), (true, .reload)]
    | .reload => .other
    | .init => .argument
    | .differ => .icmp .ne .phi .reload
  integerWidth
    | .differ => some ⟨1, by decide⟩
    | _ => some w
  name := fun _ => "value"
  parent := fun v => decide (v ≠ .init)
  instructions := fun b => if b then [.phi, .reload, .differ] else []

/-- The values when the phi is `x`, the reload gave `y` and the phi differs from it or not. -/
def staleValuation (w : IntWidth) (x y : BitVec (max w.val 1)) (differ : BitVec 1) :
    (staleFn w).Valuation
  | .phi => x
  | .reload => y
  | .init => 0
  | .differ => differ

variable (w : IntWidth) {x y : BitVec (max w.val 1)}

/-- The branch is feasible, in the iteration after a reload that gave `x`. -/
theorem feasible_staleFn (hne : x ≠ y) :
    Feasible (staleFn w) (some true) [] (some .differ) true (some true)
      (staleValuation w x x 0) (staleValuation w x y 1) where
  defines v _ := by
    cases v with
    | phi =>
      intro p hp
      rcases List.mem_pair.mp hp with rfl | rfl <;> rfl
    | reload => trivial
    | init => trivial
    | differ =>
      refine ⟨rfl, rfl, ?_⟩
      have hholds : Predicate.holds .ne x y = true := decide_eq_true hne
      change (1 : BitVec 1) = if Predicate.holds .ne x (y.setWidth _) then 1 else 0
      rw [BitVec.setWidth_eq, hholds, if_pos rfl]
  phis v _ _ incoming hdef b u hb hu := by
    cases v <;> simp only [staleFn, ValueDef.phi.injEq, reduceCtorEq] at hdef
    subst hdef
    obtain rfl := Option.some.inj hb
    simp only [List.mem_cons, Prod.mk.injEq, Bool.true_eq_false, false_and, true_and,
      List.not_mem_nil, or_false, false_or] at hu
    subst hu
    rfl
  unchanged v _ hv := by
    cases v with
    | init => rfl
    | _ => exact absurd rfl hv
  bounds entry hentry := by simp at hentry
  assumes b hb c hc := by
    obtain rfl := Option.some.inj hb
    simp [staleFn, getAssumeCondition] at hc
  edge v hv := by
    obtain rfl := Option.some.inj hv
    have hone : (1 : BitVec 1) ≠ 0 := by decide
    exact ⟨fun _ => rfl, fun _ => hone⟩

/-- The builder with the symbol of the reload. -/
def staleBuilder : ConstraintIrBuilder StaleValue :=
  ({} : ConstraintIrBuilder StaleValue).newSymbol (fun _ => "value") .reload (max w.val 1)

/-- The encoding of the branch compares the reload with itself. -/
theorem encode_staleFn (n : ℕ) :
    encode (staleFn w) (some true) (n + 3) [] (some .differ) true (some true) =
      (((staleBuilder w).makeBinary .ne 0 0 1).2.addAssertion 1).ir := rfl

/-- **The phi matters**: the branch looks infeasible. -/
theorem not_holds_staleFn (n : ℕ) (σ : SymbolId → ℕ) :
    ¬ (encode (staleFn w) (some true) (n + 3) [] (some .differ) true (some true)).Holds σ := by
  rw [encode_staleFn]
  intro h
  have hsymbol : (staleBuilder w).value σ 0 = some ⟨_, BitVec.ofNat _ (σ 1)⟩ := rfl
  have htrue := ConstraintIR.Holds.eq_true h (value_makeCompare .ne hsymbol hsymbol)
  simp [Predicate.holds] at htrue

end Stale

/-! ## The characterisation -/

/-- A range that contains a number and loses it in the cut is encoded. -/
theorem shouldEncode_boundFn (w : IntWidth) (c : ℤ) {range : IntRange} {n : ℤ}
    (hn : range.Contains n) (hcut : ¬ (range.cut w.val).Contains n) :
    shouldEncodeRangeConstraint (boundFn w c) .arg range = true := by
  have hbound : range.hasLower = true ∨ range.hasUpper = true := by
    by_contra hnone
    obtain ⟨hl, hu⟩ := not_or.mp hnone
    exact hcut ⟨fun h => absurd h hl, fun h => absurd h hu⟩
  have horder : range.hasLower = true → range.hasUpper = true → range.lower ≤ range.upper :=
    fun hl hu => (hn.1 hl).trans (hn.2 hu)
  simp only [shouldEncodeRangeConstraint, boundFn, Option.isSome_some, Bool.true_and,
    Bool.and_eq_true, Bool.or_eq_true, Bool.not_eq_true', Bool.and_eq_false_iff, decide_eq_false_iff_not]
  refine ⟨hbound, ?_⟩
  by_cases hl : range.hasLower = true <;> by_cases hu : range.hasUpper = true
  · exact Or.inr (not_lt.mpr (horder hl hu))
  · exact Or.inl (Or.inr (eq_false_of_ne_true hu))
  · exact Or.inl (Or.inl (eq_false_of_ne_true hl))
  · exact Or.inl (Or.inl (eq_false_of_ne_true hl))

/-- The ranges of a class on which the encoder is sound survive the cut. -/
theorem EdgeClass.Sound.rangeKept {C : EdgeClass} (h : C.Sound) {w : ℕ} {range : IntRange}
    (hw : 1 ≤ w) (hw64 : w ≤ 64) (hrange : C.range w range) : RangeKept w range := by
  intro x hx
  by_contra hcut
  let width : IntWidth := ⟨w, hw, hw64.trans (by norm_num)⟩
  have hmax : max w 1 = w := max_eq_left hw
  have hshould := shouldEncode_boundFn width x.toInt hx hcut
  obtain ⟨N, hN⟩ := h BoundValue Unit (boundFn width x.toInt) none [(.arg, range)] (some .test)
    true none _ _
    (fun v _ => by
      cases v with
      | test => exact (by decide : 1 ≤ 64)
      | _ => exact hmax.trans_le hw64)
    (fun entry hentry _ => by
      obtain rfl := List.mem_singleton.mp hentry
      change C.range (max w 1) range
      rwa [hmax])
    (fun v _ incoming hdef => by cases v <;> simp [boundFn] at hdef)
    (feasible_boundFn width range x hx)
  obtain ⟨σ, hσ⟩ := hN (N + 2) (Nat.le_add_right N 2)
  exact hcut (contains_of_boundFn width range N hw64 x hshould hσ)

/-- The phis of a class on which the encoder is sound agree with their incoming values. -/
theorem EdgeClass.Sound.phi_eq {C : EdgeClass} (h : C.Sound) {w : ℕ} (hw : 1 ≤ w) (hw64 : w ≤ 64)
    {x y : BitVec w} (hphi : C.phi w x y) : x = y := by
  let width : IntWidth := ⟨w, hw, hw64.trans (by norm_num)⟩
  have hmax : max w 1 = w := max_eq_left hw
  have key : ∀ x y : BitVec (max w 1), C.phi (max w 1) x y → x = y := by
    intro x y hphi
    by_contra hne
    obtain ⟨N, hN⟩ := h StaleValue Bool (staleFn width) (some true) [] (some .differ) true
      (some true) _ _
      (fun v _ => by
        cases v with
        | differ => exact (by decide : 1 ≤ 64)
        | _ => exact hmax.trans_le hw64)
      (fun entry hentry => by simp at hentry)
      (fun v _ incoming hdef u hu => by
        cases v <;> simp only [staleFn, ValueDef.phi.injEq, reduceCtorEq] at hdef
        subst hdef
        obtain rfl : StaleValue.reload = u := Option.some.inj hu
        change C.phi (max w 1) x (y.setWidth _)
        rwa [BitVec.setWidth_eq])
      (feasible_staleFn width hne)
    obtain ⟨σ, hσ⟩ := hN (N + 3) (Nat.le_add_right N 3)
    exact not_holds_staleFn width N σ hσ
  rw [hmax] at key
  exact key x y hphi

/-- The values of a counting loop. -/
inductive LoopValue
  | phi | next | zero | one | less
  deriving DecidableEq

/-- A loop block, `true`, with `phi = φ [0, entry], [next, loop]`, `next = phi + 1` and the branch
`phi < next`. -/
def loopFn : Llvm.Function LoopValue Bool where
  definition
    | .phi => .phi [(false, .zero), (true, .next)]
    | .next => .binary .add false false .phi .one
    | .zero => .constantInt 0
    | .one => .constantInt 1
    | .less => .icmp .ult .phi .next
  integerWidth
    | .less => some ⟨1, by decide⟩
    | _ => some ⟨32, by decide⟩
  name := fun _ => "value"
  parent := fun _ => true
  instructions := fun b => if b then [.phi, .next, .less] else []

/-- The values in the iteration in which the phi is `n`. -/
def loopValuation (n : BitVec 32) : loopFn.Valuation
  | .phi => n
  | .next => (n + 1 : BitVec 32)
  | .zero => 0
  | .one => 1
  | .less => (if n.toNat < (n + 1).toNat then 1 else 0 : BitVec 1)

/-- The builder when the operands of the branch condition have been encoded. -/
def loopBuilder : ConstraintIrBuilder LoopValue :=
  let b := ({} : ConstraintIrBuilder LoopValue).newSymbol (fun _ => "value") .phi 32
  ((b.makeConstant 1 32).2.makeBinary .add 0 1 32).2

/-- The branch is feasible in the iteration after the one with `4`. -/
theorem feasible_loopFn : Feasible loopFn (some true) [] (some .less) true (some true)
    (loopValuation 4) (loopValuation 5) where
  defines v _ := by
    cases v with
    | phi =>
      intro p hp
      rcases List.mem_pair.mp hp with rfl | rfl <;> rfl
    | next => exact ⟨rfl, rfl, by decide, by simp, by simp⟩
    | zero => rfl
    | one => rfl
    | less => exact ⟨rfl, rfl, by decide⟩
  phis v _ _ incoming hdef b u hb hu := by
    cases v <;> simp only [loopFn, ValueDef.phi.injEq, reduceCtorEq] at hdef
    subst hdef
    obtain rfl := Option.some.inj hb
    simp only [List.mem_cons, Prod.mk.injEq, Bool.true_eq_false, false_and, true_and,
      List.not_mem_nil, or_false, false_or] at hu
    subst hu
    rfl
  unchanged v _ hv := absurd rfl hv
  bounds entry hentry := by simp at hentry
  assumes b hb c hc := by
    obtain rfl := Option.some.inj hb
    simp [loopFn, getAssumeCondition] at hc
  edge v hv := by
    obtain rfl := Option.some.inj hv
    exact ⟨fun _ => rfl, fun _ => by decide⟩

/-- The encoding of the branch compares `next` with itself. -/
theorem encode_loopFn (n : ℕ) :
    encode loopFn (some true) (n + 4) [] (some .less) true (some true) =
      ((loopBuilder.makeBinary .ult 2 2 1).2.addAssertion 3).ir := rfl

/-- The branch of the loop looks infeasible. -/
theorem not_holds_loopFn (n : ℕ) (σ : SymbolId → ℕ) :
    ¬ (encode loopFn (some true) (n + 4) [] (some .less) true (some true)).Holds σ := by
  rw [encode_loopFn]
  intro h
  obtain ⟨x, hx⟩ : ∃ x : BitVec 32, loopBuilder.value σ 2 = some ⟨32, x⟩ := ⟨_, rfl⟩
  have htrue := ConstraintIR.Holds.eq_true h (value_makeCompare .ult hx hx)
  simp [Predicate.holds] at htrue

end StackAnalyzer.Smt
