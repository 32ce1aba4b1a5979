import StackAnalyzer.Smt.Z3Backend

set_option relaxedAutoImplicit false
set_option autoImplicit false

/-!
# When a refutation by Z3 is right

An expression stands for a node if it has, in a model of Z3, the value that the node has under an
assignment. The translation yields such expressions if the model gives the constants of all symbols
their values and all constants are kept.

## Main definitions

* `StackAnalyzer.Smt.Z3Backend.StandsFor` — an expression has the value of a node.
* `StackAnalyzer.Smt.Z3Backend.Agrees`, `StackAnalyzer.Smt.Z3Backend.Yields` — the invariant of the
  translation, and that a step keeps it.
* `StackAnalyzer.Smt.Z3Backend.cutBound` — a bound as Z3 reads it.

## Main results

* `StackAnalyzer.Smt.Z3Backend.yields_buildExpr` — the expression built for a node stands for it.
* `StackAnalyzer.Smt.Z3Backend.exists_forall_holdsCut` — bounds that fit two by two hold of one
  value.
-/

namespace StackAnalyzer.Smt.Z3Backend

open Z3 ConstraintIR

theorem one_le_normalizeBitWidth (w : ℕ) : 1 ≤ normalizeBitWidth w := by
  unfold normalizeBitWidth
  split_ifs <;> omega

@[simp] theorem normalizeBitWidth_normalizeBitWidth (w : ℕ) :
    normalizeBitWidth (normalizeBitWidth w) = normalizeBitWidth w := by
  have h := one_le_normalizeBitWidth w
  rw [normalizeBitWidth, if_neg (by omega)]

/-! ## Expressions that stand for nodes -/

section Stands

variable {V : Type*} (z3 : Solver) (ir : ConstraintIR V) (names : SymbolId → Option String)
variable (assignment : SymbolId → Bits) (model : String → (w : ℕ) → BitVec w)

/-- An expression stands for a node: it has the value of the node. -/
def StandsFor (id : ExprId) (e : Expr) : Prop :=
  ∀ v, ir.Evaluates assignment id v → e.eval model = some v

/-- A model gives the constant of every symbol the symbol's value, and constants are kept. -/
structure Interprets : Prop where
  symbol : ∀ n ∈ ir.nodes, n.kind = .symbol → n.symbol ≠ 0 →
    model (cStr (symbolName names n.symbol)) (assignment n.symbol).width =
      (assignment n.symbol).val
  constant : ∀ n ∈ ir.nodes, n.kind = .constant →
    makeBvConstant n.constant (normalizeBitWidth n.bitWidth) =
      ⟨normalizeBitWidth n.bitWidth, BitVec.ofInt _ n.constant⟩

/-- The invariant: cached expressions stand for their nodes, and the constants of symbols have their
names and widths. -/
structure Agrees (s : TranslationState) : Prop where
  cache : ∀ id e, s.cache id = some e → StandsFor ir assignment model id e
  symbols : ∀ id entry, s.symbols id = some entry →
    entry.expr = .const (cStr (symbolName names id)) entry.bitWidth

/-- A step keeps the invariant, and its results meet `q`. -/
def Yields (build : Build) (q : Expr → Prop) : Prop :=
  ∀ s r s', Agrees ir names assignment model s → build s = .ok (r, s') →
    Agrees ir names assignment model s' ∧ ∀ e, r = some e → q e

variable {z3 ir names assignment model}

theorem Agrees.error {s : TranslationState} (h : Agrees ir names assignment model s)
    (error : String) : Agrees ir names assignment model { s with error := error } :=
  ⟨h.cache, h.symbols⟩

theorem yields_fail (error : String) (q : Expr → Prop) :
    Yields ir names assignment model (fail error) q := by
  intro s r s' hs h
  obtain ⟨rfl, rfl⟩ := Prod.mk.inj (Except.ok.inj h)
  exact ⟨hs.error error, by simp⟩

/-- No result. -/
theorem yields_none (q : Expr → Prop) :
    Yields ir names assignment model (fun s => .ok (none, s)) q := by
  intro s r s' hs h
  obtain ⟨rfl, rfl⟩ := Prod.mk.inj (Except.ok.inj h)
  exact ⟨hs, by simp⟩

/-- One step after another one. -/
theorem Yields.andThen {build : Build} {p q : Expr → Prop} {k : Option Expr → Build}
    (h : Yields ir names assignment model build p)
    (hk : ∀ r, (∀ e, r = some e → p e) → Yields ir names assignment model (k r) q) :
    Yields ir names assignment model (andThen build k) q := by
  intro s r s' hs hr
  unfold Z3Backend.andThen at hr
  cases hbuild : build s with
  | error exception => simp [hbuild] at hr
  | ok result =>
    obtain ⟨r₁, s₁⟩ := result
    rw [hbuild] at hr
    obtain ⟨hs₁, hp⟩ := h s r₁ s₁ hs hbuild
    exact hk r₁ hp s₁ r s' hs₁ hr

/-- A step with an operand. -/
theorem Yields.withOperand {build : Build} {p q : Expr → Prop} {k : Expr → Build}
    (h : Yields ir names assignment model build p)
    (hk : ∀ l, p l → Yields ir names assignment model (k l) q) :
    Yields ir names assignment model (withOperand build k) q :=
  h.andThen fun r hr => by
    cases r with
    | none => exact yields_none q
    | some l => exact hk l (hr l rfl)

/-- A step with two operands. -/
theorem Yields.withOperands {lhs rhs : Build} {p p' q : Expr → Prop} {k : Expr → Expr → Build}
    (hl : Yields ir names assignment model lhs p) (hr : Yields ir names assignment model rhs p')
    (hk : ∀ l r, p l → p' r → Yields ir names assignment model (k l r) q) :
    Yields ir names assignment model (withOperands lhs rhs k) q :=
  hl.andThen fun l hpl => hr.andThen fun r hpr => by
    cases l with
    | none => exact yields_none q
    | some l =>
      cases r with
      | none => exact yields_none q
      | some r => exact hk l r (hpl l rfl) (hpr r rfl)

/-- A step with three operands. -/
theorem Yields.withThreeOperands {cond lhs rhs : Build} {pc p p' q : Expr → Prop}
    {k : Expr → Expr → Expr → Build} (hc : Yields ir names assignment model cond pc)
    (hl : Yields ir names assignment model lhs p) (hr : Yields ir names assignment model rhs p')
    (hk : ∀ c l r, pc c → p l → p' r → Yields ir names assignment model (k c l r) q) :
    Yields ir names assignment model (withThreeOperands cond lhs rhs k) q :=
  hc.andThen fun c hpc => hl.andThen fun l hpl => hr.andThen fun r hpr => by
    cases c with
    | none => exact yields_none q
    | some c =>
      cases l with
      | none => exact yields_none q
      | some l =>
        cases r with
        | none => exact yields_none q
        | some r => exact hk c l r (hpc c rfl) (hpl l rfl) (hpr r rfl)

/-- What is kept stands for its node. -/
theorem yields_memoize {id : ExprId} {e : Expr} (h : StandsFor ir assignment model id e) :
    Yields ir names assignment model (memoize z3 id e) (StandsFor ir assignment model id) := by
  intro s r s' hs hr
  unfold memoize at hr
  split_ifs at hr with hsort
  cases hcache : s.cache id with
  | some cached =>
    rw [hcache] at hr
    obtain ⟨rfl, rfl⟩ := Prod.mk.inj (Except.ok.inj hr)
    refine ⟨hs, fun e' he' => ?_⟩
    obtain rfl := Option.some.inj he'
    exact hs.cache id cached hcache
  | none =>
    rw [hcache] at hr
    obtain ⟨rfl, rfl⟩ := Prod.mk.inj (Except.ok.inj hr)
    refine ⟨⟨fun id' e' hid' => ?_, hs.symbols⟩, fun e' he' => Option.some.inj he' ▸ h⟩
    by_cases heq : id' = id
    · subst heq
      simp only [Function.update_self, Option.some.injEq] at hid'
      exact hid' ▸ h
    · simp only [Function.update_of_ne heq] at hid'
      exact hs.cache id' e' hid'

/-- A symbol has one constant, of the width that is asked for. -/
theorem yields_getOrCreateSymbol (id : SymbolId) (bitWidth : ℕ) :
    Yields ir names assignment model (getOrCreateSymbol names id bitWidth) fun e =>
      id ≠ 0 ∧ e = .const (cStr (symbolName names id)) (normalizeBitWidth bitWidth) := by
  intro s r s' hs hr
  unfold getOrCreateSymbol at hr
  split_ifs at hr with hid
  · exact yields_fail _ _ s r s' hs hr
  · cases hentry : s.symbols id with
    | some entry =>
      simp only [hentry] at hr
      split_ifs at hr with hwidth
      · exact yields_fail _ _ s r s' hs hr
      · obtain ⟨rfl, rfl⟩ := Prod.mk.inj (Except.ok.inj hr)
        refine ⟨hs, fun e he => ⟨hid, ?_⟩⟩
        rw [← Option.some.inj he, hs.symbols id entry hentry, not_not.mp hwidth]
    | none =>
      simp only [hentry] at hr
      obtain ⟨rfl, rfl⟩ := Prod.mk.inj (Except.ok.inj hr)
      refine ⟨⟨hs.cache, fun id' entry' hid' => ?_⟩, fun e he => ⟨hid, (Option.some.inj he).symm⟩⟩
      by_cases heq : id' = id
      · subst heq
        simp only [Function.update_self, Option.some.injEq] at hid'
        rw [← hid']
      · simp only [Function.update_of_ne heq] at hid'
        exact hs.symbols id' entry' hid'

/-! ## The nodes -/

/-- The operation for a kind computes what the kind means. -/
theorem binaryValue_eq_eval {kind : ExprKind} {op : Op} (h : binaryOp kind = some op)
    (l r : ExprValue) : binaryValue kind l r = op.eval l r := by
  cases kind <;> cases h <;> cases l <;> cases r <;> rfl

/-- Bits at an equal width. -/
theorem bits_setWidth_congr {v w w' : ℕ} (x : BitVec v) (h : w = w') :
    (⟨w, x.setWidth w⟩ : Bits) = ⟨w', x.setWidth w'⟩ := by
  rw [h]

theorem bits_signExtend_congr {v w w' : ℕ} (x : BitVec v) (h : w = w') :
    (⟨w, x.signExtend w⟩ : Bits) = ⟨w', x.signExtend w'⟩ := by
  rw [h]

/-- The low bits, taken out of a bit vector. -/
theorem bits_extractLsb_eq {v w : ℕ} (x : BitVec v) (hw : 1 ≤ w) :
    (⟨w - 1 - 0 + 1, x.extractLsb (w - 1) 0⟩ : Bits) = ⟨w, x.setWidth w⟩ := by
  have h : w - 1 - 0 + 1 = w := by omega
  rw [BitVec.extractLsb, BitVec.extractLsb', Nat.shiftRight_zero, BitVec.ofNat_toNat,
    bits_setWidth_congr x h]

section Nodes

variable {id : ExprId} {n : ExprNode} {l : Expr}

/-- An expression that is built from the one for the operand. -/
theorem standsFor_unary (hn : ir.nodes[id]? = some n) (hform : n.kind.form = .unary)
    (hl : StandsFor ir assignment model n.lhs l) {e : Expr}
    (he : ∀ lv v, l.eval model = some lv →
      unaryValue n.kind (normalizeBitWidth n.bitWidth) lv = some v → e.eval model = some v) :
    StandsFor ir assignment model id e := by
  intro v hv
  rw [evaluates_iff hn, hform] at hv
  obtain ⟨lv, hlv, hv⟩ := hv
  exact he lv v (hl lv hlv) hv

/-- A bit vector has the width that its sort tells. -/
theorem yields_bvSize {k : ℕ → Build} {q : Expr → Prop}
    (hk : ∀ w, (∀ v, l.eval model = some v → v.sort = .bits w) →
      Yields ir names assignment model (k w) q) :
    Yields ir names assignment model (bvSize z3 l k) q := by
  unfold bvSize
  split
  · next w hsort =>
    refine hk w fun v hv => ?_
    rw [Expr.sort_of_eval hv, Option.some.injEq] at hsort
    exact hsort
  · intro s r s' _ h
    cases h

/-- A value of a sort of bit vectors. -/
theorem exists_bits_of_sort {v : ExprValue} {w : ℕ} (h : v.sort = .bits w) :
    ∃ x : BitVec w, v = .bits ⟨w, x⟩ := by
  cases v with
  | bool b => cases h
  | bits b =>
    obtain ⟨v, x⟩ := b
    obtain rfl := ExprSort.bits.inj h
    exact ⟨x, rfl⟩

/-- **The cases of the translation** yield expressions that stand for their nodes. -/
theorem yields_buildNode (hinterprets : Interprets ir names assignment model)
    (hn : ir.nodes[id]? = some n) {lhs rhs extra : Build}
    (hl : Yields ir names assignment model lhs (StandsFor ir assignment model n.lhs))
    (hr : Yields ir names assignment model rhs (StandsFor ir assignment model n.rhs))
    (hextra : Yields ir names assignment model extra (StandsFor ir assignment model n.extra)) :
    Yields ir names assignment model (buildNode z3 names id n lhs rhs extra)
      (StandsFor ir assignment model id) := by
  have hmem := List.mem_of_getElem? hn
  have hone := one_le_normalizeBitWidth n.bitWidth
  have hbinary : ∀ op, binaryOp n.kind = some op → n.kind.form = .binary →
      Yields ir names assignment model
        (withOperands lhs rhs fun l r => memoize z3 id (.app op l r))
        (StandsFor ir assignment model id) := by
    intro op hop hform
    refine hl.withOperands hr fun l r hl hr => yields_memoize fun v hv => ?_
    rw [evaluates_iff hn, hform] at hv
    obtain ⟨lv, rv, hlv, hrv, hv⟩ := hv
    rw [Expr.eval, hl lv hlv, hr rv hrv, Option.bind_some, Option.bind_some,
      ← binaryValue_eq_eval hop, hv]
  unfold buildNode
  cases hkind : n.kind with
  | symbol =>
    refine (yields_getOrCreateSymbol n.symbol _).withOperand ?_
    rintro e ⟨hid, rfl⟩
    refine yields_memoize fun v hv => ?_
    rw [evaluates_iff hn, hkind] at hv
    obtain ⟨hwidth, rfl⟩ := hv
    rw [normalizeBitWidth_normalizeBitWidth, Expr.eval, ← hwidth,
      hinterprets.symbol n hmem hkind hid]
  | constant =>
    refine yields_memoize fun v hv => ?_
    rw [evaluates_iff hn, hkind] at hv
    rw [Expr.eval, hinterprets.constant n hmem hkind, hv]
  | ite =>
    refine hl.withThreeOperands hr hextra fun c l r hc hl hr => ?_
    split_ifs
    · exact yields_fail _ _
    · refine yields_memoize fun v hv => ?_
      rw [evaluates_iff hn, hkind] at hv
      obtain ⟨cv, lv, rv, hcv, hlv, hrv, hsort, rfl⟩ := hv
      simp only [Expr.eval, hc _ hcv, hl lv hlv, hr rv hrv, if_pos hsort]
  | not =>
    refine hl.withOperand fun l hl => yields_memoize ?_
    refine standsFor_unary hn (by rw [hkind]; rfl) hl fun lv v hlv hv => ?_
    rw [hkind] at hv
    cases lv with
    | bits b => cases hv
    | bool b =>
      rw [Expr.eval, hlv]
      exact hv
  | zext =>
    refine hl.withOperand fun l hl => yields_bvSize fun w hw => ?_
    split_ifs with hlt
    · exact yields_fail _ _
    · refine yields_memoize (standsFor_unary hn (by rw [hkind]; rfl) hl fun lv v hlv hv => ?_)
      obtain ⟨x, rfl⟩ := exists_bits_of_sort (hw lv hlv)
      rw [hkind, unaryValue, if_neg hlt, Option.some.injEq] at hv
      have hwidth : normalizeBitWidth n.bitWidth = w + (normalizeBitWidth n.bitWidth - w) := by
        omega
      rw [Expr.eval, hlv, ← hv]
      exact congrArg (fun b => some (ExprValue.bits b)) (bits_setWidth_congr x hwidth.symm)
  | sext =>
    refine hl.withOperand fun l hl => yields_bvSize fun w hw => ?_
    split_ifs with hlt
    · exact yields_fail _ _
    · refine yields_memoize (standsFor_unary hn (by rw [hkind]; rfl) hl fun lv v hlv hv => ?_)
      obtain ⟨x, rfl⟩ := exists_bits_of_sort (hw lv hlv)
      rw [hkind, unaryValue, if_neg hlt, Option.some.injEq] at hv
      have hwidth : normalizeBitWidth n.bitWidth = w + (normalizeBitWidth n.bitWidth - w) := by
        omega
      rw [Expr.eval, hlv, ← hv]
      exact congrArg (fun b => some (ExprValue.bits b)) (bits_signExtend_congr x hwidth.symm)
  | trunc =>
    refine hl.withOperand fun l hl => yields_bvSize fun w hw => ?_
    split_ifs with hlt heq
    · exact yields_fail _ _
    · refine yields_memoize (standsFor_unary hn (by rw [hkind]; rfl) hl fun lv v hlv hv => ?_)
      obtain ⟨x, rfl⟩ := exists_bits_of_sort (hw lv hlv)
      rw [hkind, unaryValue, if_neg hlt, Option.some.injEq] at hv
      rw [hlv, ← hv, heq, Bits.atWidth_mk]
    · refine yields_memoize (standsFor_unary hn (by rw [hkind]; rfl) hl fun lv v hlv hv => ?_)
      obtain ⟨x, rfl⟩ := exists_bits_of_sort (hw lv hlv)
      rw [hkind, unaryValue, if_neg hlt, Option.some.injEq] at hv
      rw [Expr.eval, hlv, ← hv]
      simp only
      rw [if_pos ⟨Nat.zero_le _, by omega⟩]
      exact congrArg (fun b => some (ExprValue.bits b)) (bits_extractLsb_eq x hone)
  | _ => exact hbinary _ (by rw [hkind]; rfl) (by rw [hkind]; rfl)

end Nodes

/-! ## The assertions -/

/-- **The translation of a node** yields an expression that stands for it. -/
theorem yields_buildExpr (hinterprets : Interprets ir names assignment model) (fuel : ℕ)
    (id : ExprId) : Yields ir names assignment model (buildExpr z3 ir names fuel id)
      (StandsFor ir assignment model id) := by
  induction fuel generalizing id with
  | zero => exact yields_none _
  | succ fuel ih =>
    intro s r s' hs hr
    unfold buildExpr at hr
    cases hcache : s.cache id with
    | some e =>
      rw [hcache] at hr
      obtain ⟨rfl, rfl⟩ := Prod.mk.inj (Except.ok.inj hr)
      refine ⟨hs, fun e' he' => ?_⟩
      obtain rfl := Option.some.inj he'
      exact hs.cache id e hcache
    | none =>
      rw [hcache] at hr
      cases hn : ir.nodes[id]? with
      | none =>
        rw [hn] at hr
        exact yields_fail _ _ s r s' hs hr
      | some n =>
        rw [hn] at hr
        exact yields_buildNode hinterprets hn (ih n.lhs) (ih n.rhs) (ih n.extra) s r s' hs hr

/-- A step that succeeds is followed by one that succeeds. -/
theorem bind_eq_ok {ε α β : Type} {x : Except ε α} {f : α → Except ε β} {b : β} :
    x >>= f = .ok b ↔ ∃ a, x = .ok a ∧ f a = .ok b := by
  cases x with
  | error exception => simp [bind, Except.bind]
  | ok a => simp [bind, Except.bind]

/-- What the first of several assertions yields. -/
theorem assertAll_cons_eq_ok {id : ExprId} {rest : List ExprId} {s s' : TranslationState}
    {es : List Expr} (h : assertAll z3 ir names (id :: rest) s = .ok (some es, s')) :
    ∃ e s₁ es', buildExpr z3 ir names (ir.nodes.length + 1) id { s with error := "" } =
        .ok (some e, s₁) ∧ assertAll z3 ir names rest s₁ = .ok (some es', s') ∧ es = e :: es' := by
  obtain ⟨⟨r, s₁⟩, hbuild, h⟩ := bind_eq_ok.mp h
  cases r with
  | none => cases h
  | some e =>
    simp only at h
    split_ifs at h
    · cases h
    · obtain ⟨⟨r', s₂⟩, hrest, h⟩ := bind_eq_ok.mp h
      obtain ⟨hes, rfl⟩ := Prod.mk.inj (Except.ok.inj h)
      obtain ⟨es', rfl, rfl⟩ := Option.map_eq_some_iff.mp hes
      exact ⟨e, s₁, es', hbuild, hrest, rfl⟩

/-- Asserted expressions are true in the model if the assertions are true. -/
theorem eval_of_assertAll (hinterprets : Interprets ir names assignment model)
    {assertions : List ExprId} (hassertions : ∀ id ∈ assertions,
      ir.Evaluates assignment id (.bool true)) {s s' : TranslationState} {es : List Expr}
    (hs : Agrees ir names assignment model s)
    (h : assertAll z3 ir names assertions s = .ok (some es, s')) :
    ∀ e ∈ es, e.eval model = some (.bool true) := by
  induction assertions generalizing s s' es with
  | nil =>
    obtain ⟨hes, -⟩ := Prod.mk.inj (Except.ok.inj h)
    obtain rfl := Option.some.inj hes
    simp
  | cons id rest ih =>
    obtain ⟨e, s₁, es', hbuild, hrest, rfl⟩ := assertAll_cons_eq_ok h
    obtain ⟨hs₁, hstands⟩ := yields_buildExpr hinterprets _ id _ _ s₁ (hs.error "") hbuild
    obtain ⟨hid, hall⟩ := List.forall_mem_cons.mp hassertions
    exact List.forall_mem_cons.mpr ⟨hstands e rfl _ hid, ih hall hs₁ hrest⟩

/-- What the first of several intervals yields. -/
theorem assertIntervals_cons_eq_ok {c : IntervalConstraint} {rest : List IntervalConstraint}
    {s s' : TranslationState} {es : List Expr}
    (h : assertIntervals ir names (c :: rest) s = .ok (some es, s')) :
    ∃ e s₁ es', getOrCreateSymbol names c.symbol ((collectBitWidths ir c.symbol).getD 64)
        { s with error := "" } = .ok (some e, s₁) ∧
      assertIntervals ir names rest s₁ = .ok (some es', s') ∧
        es = intervalBounds e ((collectBitWidths ir c.symbol).getD 64) c ++ es' := by
  obtain ⟨⟨r, s₁⟩, hsymbol, h⟩ := bind_eq_ok.mp h
  cases r with
  | none => cases h
  | some e =>
    obtain ⟨⟨r', s₂⟩, hrest, h⟩ := bind_eq_ok.mp h
    obtain ⟨hes, rfl⟩ := Prod.mk.inj (Except.ok.inj h)
    obtain ⟨es', rfl, rfl⟩ := Option.map_eq_some_iff.mp hes
    exact ⟨e, s₁, es', hsymbol, hrest, rfl⟩

end Stands

/-! ## Bounds -/

section Bounds

/-- A bound as Z3 reads it at a width: cut to the width, or without its sign when the width is
beyond 64. -/
def cutBound (w : ℕ) (z : ℤ) : ℤ := if w ≤ 64 then z.bmod (2 ^ w) else z % 2 ^ 64

/-- A signed value is within the bounds as Z3 reads them. -/
def HoldsCut (c : IntervalConstraint) (w : ℕ) (x : ℤ) : Prop :=
  (c.hasLower = true → cutBound w c.lower ≤ x) ∧ (c.hasUpper = true → x ≤ cutBound w c.upper)

/-- The signed value of a numeral. -/
theorem toInt_makeBvConstant (z : ℤ) (w : ℕ) :
    (makeBvConstant z w).val.toInt = cutBound (normalizeBitWidth w) z := by
  have hraw : ((BitVec.ofInt 64 z).toNat : ℤ) = z % 2 ^ 64 := by
    rw [BitVec.toNat_ofInt]
    omega
  show (BitVec.ofNat (normalizeBitWidth w) (BitVec.ofInt 64 z).toNat).toInt = _
  rw [BitVec.toInt_ofNat', hraw, cutBound]
  split_ifs with hw
  · have hdvd : 2 ^ normalizeBitWidth w ∣ 2 ^ 64 := pow_dvd_pow 2 hw
    rw [← Int.bmod_bmod_of_dvd hdvd, ← Int.bmod_bmod_of_dvd (a := z) hdvd]
    congr 1
    exact Int.emod_bmod z (2 ^ 64)
  · -- beyond 64 bits the raw number is far from the sign bit
    have hpow : 2 ^ 65 ≤ 2 ^ normalizeBitWidth w := Nat.pow_le_pow_right (by omega) (by omega)
    have hlower := Int.emod_nonneg z (show (2 ^ 64 : ℤ) ≠ 0 by norm_num)
    have hupper := Int.emod_lt_of_pos z (show (0 : ℤ) < 2 ^ 64 by norm_num)
    exact Int.bmod_eq_of_le (by omega) (by omega)

/-- The bounds of an interval are true in a model iff they hold of the value of the symbol. -/
theorem eval_intervalBounds {model : String → (w : ℕ) → BitVec w} (name : String) (w : ℕ)
    (c : IntervalConstraint) :
    (∀ e ∈ intervalBounds (.const name (normalizeBitWidth w)) w c,
        e.eval model = some (.bool true)) ↔
      HoldsCut c (normalizeBitWidth w) (model name (normalizeBitWidth w)).toInt := by
  have heval : ∀ (op : Op) (z : ℤ), (Expr.app op (.const name (normalizeBitWidth w))
      (.numeral (makeBvConstant z w))).eval model =
        op.onBits (model name (normalizeBitWidth w)) (makeBvConstant z w).val := by
    intro op z
    simp [Expr.eval, Op.eval, makeBvConstant]
  have hlower : (Expr.app .bvsge (.const name (normalizeBitWidth w))
      (.numeral (makeBvConstant c.lower w))).eval model = some (.bool true) ↔
        cutBound (normalizeBitWidth w) c.lower ≤ (model name (normalizeBitWidth w)).toInt := by
    rw [heval, ← toInt_makeBvConstant]
    simp only [Op.onBits, Option.some.injEq, ExprValue.bool.injEq]
    exact BitVec.sle_iff_toInt_le
  have hupper : (Expr.app .bvsle (.const name (normalizeBitWidth w))
      (.numeral (makeBvConstant c.upper w))).eval model = some (.bool true) ↔
        (model name (normalizeBitWidth w)).toInt ≤ cutBound (normalizeBitWidth w) c.upper := by
    rw [heval, ← toInt_makeBvConstant]
    simp only [Op.onBits, Option.some.injEq, ExprValue.bool.injEq]
    exact BitVec.sle_iff_toInt_le
  unfold intervalBounds HoldsCut
  cases c.hasLower <;> cases c.hasUpper <;> simp [hlower, hupper]

/-- A bound as Z3 reads it is the signed value of some bit vector. -/
theorem exists_toInt_eq_cutBound {w : ℕ} (hw : 1 ≤ w) (z : ℤ) :
    ∃ x : BitVec w, x.toInt = cutBound w z := by
  have hwidth : ∀ b : Bits, b.width = w → ∃ x : BitVec w, x.toInt = b.val.toInt := by
    rintro ⟨v, x⟩ rfl
    exact ⟨x, rfl⟩
  have hnormal : normalizeBitWidth w = w := if_neg (by omega)
  obtain ⟨x, hx⟩ := hwidth (makeBvConstant z w) hnormal
  exact ⟨x, by rw [hx, toInt_makeBvConstant, hnormal]⟩

/-- The greatest of the lower bounds of several intervals, or the least number. -/
theorem exists_greatest_lower {w : ℕ} (hw : 1 ≤ w) (cs : List IntervalConstraint) :
    ∃ x : BitVec w, (∀ c ∈ cs, c.hasLower = true → cutBound w c.lower ≤ x.toInt) ∧
      (x = BitVec.intMin w ∨ ∃ c ∈ cs, c.hasLower = true ∧ x.toInt = cutBound w c.lower) := by
  induction cs with
  | nil => exact ⟨BitVec.intMin w, by simp, Or.inl rfl⟩
  | cons c cs ih =>
    obtain ⟨x, hgreatest, hx⟩ := ih
    by_cases hc : c.hasLower = true ∧ x.toInt < cutBound w c.lower
    · obtain ⟨y, hy⟩ := exists_toInt_eq_cutBound hw c.lower
      refine ⟨y, fun c' hc' hlower => ?_, Or.inr ⟨c, List.mem_cons_self, hc.1, hy⟩⟩
      rcases List.mem_cons.mp hc' with rfl | hc'
      · exact hy.ge
      · exact (hgreatest c' hc' hlower).trans (hy ▸ hc.2.le)
    · refine ⟨x, fun c' hc' hlower => ?_, hx.imp_right ?_⟩
      · rcases List.mem_cons.mp hc' with rfl | hc'
        · exact not_lt.mp fun hlt => hc ⟨hlower, hlt⟩
        · exact hgreatest c' hc' hlower
      · rintro ⟨c', hc', hlower, heq⟩
        exact ⟨c', List.mem_cons_of_mem c hc', hlower, heq⟩

/-- **Bounds that fit two by two hold of one value.** -/
theorem exists_forall_holdsCut {w : ℕ} (hw : 1 ≤ w) (cs : List IntervalConstraint)
    (hfit : ∀ c ∈ cs, ∀ c' ∈ cs, c.hasLower = true → c'.hasUpper = true →
      cutBound w c.lower ≤ cutBound w c'.upper) :
    ∃ x : BitVec w, ∀ c ∈ cs, HoldsCut c w x.toInt := by
  obtain ⟨x, hgreatest, hx⟩ := exists_greatest_lower hw cs
  refine ⟨x, fun c hc => ⟨hgreatest c hc, fun hupper => ?_⟩⟩
  rcases hx with rfl | ⟨c', hc', hlower, heq⟩
  · obtain ⟨y, hy⟩ := exists_toInt_eq_cutBound hw c.upper
    rw [← hy]
    exact BitVec.toInt_intMin_le y
  · rw [heq]
    exact hfit c' hc' c hc hlower hupper

/-- Intervals are true in a model that gives each symbol a value within the bounds as Z3 reads
them. -/
theorem eval_of_assertIntervals {V : Type*} {ir : ConstraintIR V}
    {names : SymbolId → Option String} {assignment : SymbolId → Bits}
    {model : String → (w : ℕ) → BitVec w} {intervals : List IntervalConstraint}
    (hholds : ∀ c ∈ intervals, c.symbol ≠ 0 → ∀ w,
      normalizeBitWidth ((collectBitWidths ir c.symbol).getD 64) = w →
        HoldsCut c w (model (cStr (symbolName names c.symbol)) w).toInt)
    {s s' : TranslationState} {es : List Expr} (hs : Agrees ir names assignment model s)
    (h : assertIntervals ir names intervals s = .ok (some es, s')) :
    Agrees ir names assignment model s' ∧ ∀ e ∈ es, e.eval model = some (.bool true) := by
  induction intervals generalizing s s' es with
  | nil =>
    obtain ⟨hes, rfl⟩ := Prod.mk.inj (Except.ok.inj h)
    obtain rfl := Option.some.inj hes
    exact ⟨hs, by simp⟩
  | cons c rest ih =>
    obtain ⟨e, s₁, es', hsymbol, hrest, rfl⟩ := assertIntervals_cons_eq_ok h
    obtain ⟨hs₁, he⟩ := yields_getOrCreateSymbol c.symbol _ _ _ s₁ (hs.error "") hsymbol
    obtain ⟨hid, rfl⟩ := he e rfl
    obtain ⟨hc, hall⟩ := List.forall_mem_cons.mp hholds
    obtain ⟨hs', hes'⟩ := ih hall hs₁ hrest
    refine ⟨hs', List.forall_mem_append.mpr ⟨?_, hes'⟩⟩
    exact (eval_intervalBounds _ _ c).mpr (hc hid _ rfl)

end Bounds

end StackAnalyzer.Smt.Z3Backend
