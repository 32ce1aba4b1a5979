import StackAnalyzer.Smt.Denotation

set_option relaxedAutoImplicit false
set_option autoImplicit false

/-!
# Soundness of the value encoder

Every expression that the encoder makes denotes the value it was made for, whichever values are
memoised or in progress, as long as the valuation obeys the definitions of the values that the
encoder visits and gives a phi that it looks through the value of its incoming value.

## Main definitions

* `StackAnalyzer.Smt.Encodable` — what the valuation must obey.

## Main results

* `StackAnalyzer.Smt.encodeValueImpl_sound` — one step of the recursion.
* `StackAnalyzer.Smt.encodeValue_sound`, `StackAnalyzer.Smt.encodeAsBoolean_sound` — values and
  conditions.
-/

namespace StackAnalyzer.Smt

open Llvm

variable {V B : Type*} {fn : Llvm.Function V B} {ρ : fn.Valuation}

/-! ## Definitions of values, in terms of their bits -/

/-- Resizing to an equal width does nothing. -/
theorem Bits.setWidth_of_eq {w w' : ℕ} (h : w = w') (a : BitVec w) :
    (⟨w', a.setWidth w'⟩ : Bits) = ⟨w, a⟩ := by
  subst h
  rw [BitVec.setWidth_eq]

/-- A truth value of width 1. -/
theorem Bits.ite_eq_ofBool {w : ℕ} (h : w = 1) (c : Bool) :
    (⟨w, if c then 1 else 0⟩ : Bits) = ⟨1, Bits.ofBool 1 c⟩ := by
  subst h
  rfl

/-- Bits of width 1 are their truth value. -/
theorem Bits.eq_ofBool_isTrue {x : Bits} (h : x.width = 1) : x = ⟨1, Bits.ofBool 1 x.isTrue⟩ := by
  obtain ⟨w, a⟩ := x
  subst h
  rw [Bits.ofBool_isTrue]

/-- The value of a `freeze`. -/
theorem bitsOf_freeze {v x : V} (hdef : fn.definition v = .freeze x) (h : fn.Defines ρ v) :
    bitsOf ρ v = bitsOf ρ x := by
  simp only [Function.Defines, hdef] at h
  rw [bitsOf, h.2, Bits.setWidth_of_eq h.1]
  rfl

/-- The value of a `select`. -/
theorem bitsOf_select {v c t f : V} (hdef : fn.definition v = .select c t f)
    (h : fn.Defines ρ v) :
    bitsOf ρ v = if (bitsOf ρ c).isTrue then bitsOf ρ t else bitsOf ρ f := by
  simp only [Function.Defines, hdef] at h
  obtain ⟨-, ht, hf, hv⟩ := h
  have hcond : (bitsOf ρ c).isTrue = decide (ρ c ≠ 0) := rfl
  rw [hcond, bitsOf, hv]
  by_cases hc : ρ c ≠ 0
  · rw [if_pos hc, if_pos (decide_eq_true hc)]
    exact Bits.setWidth_of_eq ht (ρ t)
  · rw [if_neg hc, if_neg fun h => hc (of_decide_eq_true h)]
    exact Bits.setWidth_of_eq hf (ρ f)

/-- The value of a `select`, at its own width. -/
theorem bitsOf_select_eq {v c t f : V} (hdef : fn.definition v = .select c t f)
    (h : fn.Defines ρ v) :
    bitsOf ρ v = ⟨fn.inferBitWidth v, if (bitsOf ρ c).isTrue then
      (bitsOf ρ t).atWidth (fn.inferBitWidth v) else (bitsOf ρ f).atWidth (fn.inferBitWidth v)⟩ := by
  simp only [Function.Defines, hdef] at h
  obtain ⟨-, -, -, hv⟩ := h
  have hcond : (bitsOf ρ c).isTrue = decide (ρ c ≠ 0) := rfl
  rw [hcond, bitsOf, hv]
  by_cases hc : ρ c ≠ 0
  · rw [if_pos hc, if_pos (decide_eq_true hc)]
    rfl
  · rw [if_neg hc, if_neg fun h => hc (of_decide_eq_true h)]
    rfl

/-- The value of a `select` of truth values. -/
theorem bitsOf_select_one {v c t f : V} (hdef : fn.definition v = .select c t f)
    (h : fn.Defines ρ v) (hone : fn.inferBitWidth v = 1) :
    bitsOf ρ v = ⟨1, Bits.ofBool 1 (if (bitsOf ρ c).isTrue then (bitsOf ρ t).isTrue
      else (bitsOf ρ f).isTrue)⟩ := by
  have hsel := bitsOf_select hdef h
  rw [Bits.eq_ofBool_isTrue (x := bitsOf ρ v) hone, hsel]
  split_ifs <;> rfl

/-- An arithmetic node computes the result of its operator. -/
theorem arith_of_result {op : BinaryOp} {k : ExprKind} (hk : binaryKind op = some k)
    {nsw nuw : Bool} {w : ℕ} {x y z : BitVec w} (h : op.Result nsw nuw x y z) :
    arith k x y = z := by
  cases op <;> simp only [binaryKind, Option.some.injEq, reduceCtorEq] at hk <;> subst hk <;>
    simp only [BinaryOp.Result] at h <;> exact h.1.symm

/-- The signed reading of a result with `nsw` is exact. -/
theorem extendedInt_of_nsw {op : BinaryOp} (hop : op.isArithmetic = true) {nuw : Bool} {w : ℕ}
    {x y z : BitVec w} (h : op.Result true nuw x y z) :
    extendedInt .sext z = op.exact (extendedInt .sext x) (extendedInt .sext y) := by
  cases op <;> simp only [BinaryOp.isArithmetic, Bool.false_eq_true] at hop <;>
    simpa [extendedInt, BinaryOp.exact] using h.2.1 rfl

/-- The unsigned reading of a result with `nuw` is exact. -/
theorem extendedInt_of_nuw {op : BinaryOp} (hop : op.isArithmetic = true) {nsw : Bool} {w : ℕ}
    {x y z : BitVec w} (h : op.Result nsw true x y z) :
    extendedInt .zext z = op.exact (extendedInt .zext x) (extendedInt .zext y) := by
  cases op <;> simp only [BinaryOp.isArithmetic, Bool.false_eq_true] at hop
  · have := h.2.2 rfl
    simp only [extendedInt, BinaryOp.exact, reduceCtorEq, if_false]
    exact_mod_cast this
  · simpa [extendedInt, BinaryOp.exact] using h.2.2 rfl
  · have := h.2.2 rfl
    simp only [extendedInt, BinaryOp.exact, reduceCtorEq, if_false]
    exact_mod_cast this

/-! ## Operators -/

section Operators

variable {s : EncState V} {lhs rhs result : ExprId} {op : BinaryOp} {k : ExprKind} {w : ℕ}
  {x y z : BitVec w}

/-- Building the comparison at one more bit keeps the invariant of the builder. -/
theorem BuilderInv.compareExtended {b : ConstraintIrBuilder V} (h : BuilderInv ρ b)
    (cmp ext : ExprKind) (lhs rhs result : ExprId) (w : ℕ) :
    BuilderInv ρ (compareExtended cmp ext k lhs rhs result w b).2 ∧
      Extends b (compareExtended cmp ext k lhs rhs result w b).2 :=
  ⟨((((h.append _).append _).append _).append _).append _,
    ((((Extends.append _ _).trans (Extends.append _ _)).trans (Extends.append _ _)).trans
      (Extends.append _ _)).trans (Extends.append _ _)⟩

/-- **A wrap flag** may be asserted when the result is exact. -/
theorem BuilderInv.assertNoWrap {b : ConstraintIrBuilder V} (h : BuilderInv ρ b) (ext : ExprKind)
    (flag : Bool) (hext : ext = .sext ∨ ext = .zext) (hop : op.isArithmetic = true)
    (hk : binaryKind op = some k) (hl : Denotes ρ ⟨w, x⟩ b lhs) (hr : Denotes ρ ⟨w, y⟩ b rhs)
    (hz : Denotes ρ ⟨w, arith k x y⟩ b result)
    (hexact : flag = true →
      extendedInt ext (arith k x y) = op.exact (extendedInt ext x) (extendedInt ext y)) :
    BuilderInv ρ (if flag then assertNoWrap ext k lhs rhs result w b else b) ∧
      Extends b (if flag then assertNoWrap ext k lhs rhs result w b else b) := by
  cases flag with
  | false => simpa using ⟨h, Extends.refl b⟩
  | true => ?_
  simp only [if_true]
  obtain ⟨hinv, hext'⟩ := h.compareExtended (k := k) .eq ext lhs rhs result w
  refine ⟨hinv.addAssertion fun σ hσ => ?_, hext'.trans (Extends.addAssertion _ _)⟩
  have hσ' := hext'.agrees hσ
  refine ⟨_, value_compareExtended .eq hext hk (hl σ hσ') (hr σ hσ') (hz σ hσ'), ?_⟩
  have heq := (extend_arith_eq_iff hop hk ext x y).mpr (by
    rw [hexact rfl, sub_self]
    exact dvd_zero _)
  rw [Bits.isTrue_ofBool le_rfl]
  simpa [Predicate.holds] using heq

/-- The wrap flags of a result may be asserted. -/
theorem BuilderInv.assertFlags {b : ConstraintIrBuilder V} (h : BuilderInv ρ b) {nsw nuw : Bool}
    (hop : op.isArithmetic = true) (hk : binaryKind op = some k)
    (hl : Denotes ρ ⟨w, x⟩ b lhs) (hr : Denotes ρ ⟨w, y⟩ b rhs)
    (hz : Denotes ρ ⟨w, arith k x y⟩ b result) (hres : op.Result nsw nuw x y (arith k x y)) :
    BuilderInv ρ (assertFlags nsw nuw k lhs rhs result w b) ∧
      Extends b (assertFlags nsw nuw k lhs rhs result w b) := by
  obtain ⟨hb, hext⟩ := h.assertNoWrap .sext nsw (Or.inl rfl) hop hk hl hr hz
    fun hnsw => extendedInt_of_nsw hop (hnsw ▸ hres)
  obtain ⟨hb', hext'⟩ := hb.assertNoWrap .zext nuw (Or.inr rfl) hop hk
    (stable_denotes ρ _ _ _ _ hext hl) (stable_denotes ρ _ _ _ _ hext hr)
    (stable_denotes ρ _ _ _ _ hext hz) fun hnuw => extendedInt_of_nuw hop (hnuw ▸ hres)
  exact ⟨hb', hext.trans hext'⟩

/-- **Binary operators**: the expression denotes the result, and the asserted wrap flags hold. -/
theorem emitBinaryOperator_step {nsw nuw : Bool} (hw : 1 ≤ w) (hs : Inv ρ s)
    (hl : Denotes ρ ⟨w, x⟩ s.builder lhs) (hr : Denotes ρ ⟨w, y⟩ s.builder rhs)
    (hres : op.Result nsw nuw x y z) :
    StepPost ρ s (emitBinaryOperator op nsw nuw w lhs rhs s) (Denotes ρ ⟨w, z⟩) := by
  unfold emitBinaryOperator
  cases hk : binaryKind op with
  | none => exact StepPost.fail hs
  | some k =>
    obtain rfl := arith_of_result hk hres
    obtain ⟨hb, hext⟩ : BuilderInv ρ (s.builder.makeBinary k lhs rhs w).2 ∧
        Extends s.builder (s.builder.makeBinary k lhs rhs w).2 :=
      ⟨hs.builder.append _, Extends.append _ _⟩
    have hz : Denotes ρ ⟨w, arith k x y⟩ (s.builder.makeBinary k lhs rhs w).2
        (s.builder.makeBinary k lhs rhs w).1 := fun σ hσ =>
      value_makeArith hk hw (hl σ hσ) (hr σ hσ)
    simp only
    split_ifs with hplain
    · exact StepPost.emit hs hb hext hz
    · have hop : op.isArithmetic = true := by
        cases hop : op.isArithmetic
        · simp [hop] at hplain
        · rfl
      obtain ⟨hb', hext'⟩ := hb.assertFlags hop hk (stable_denotes ρ _ _ _ _ hext hl)
        (stable_denotes ρ _ _ _ _ hext hr) hz hres
      refine ⟨hs.withBuilder hb' (hext.trans hext'), hext.trans hext', fun e he => ?_⟩
      obtain rfl := Option.some.inj he
      exact stable_denotes ρ _ _ _ _ hext' hz

/-- **A `select` of truth values** is encoded as a disjunction. -/
theorem selectBoolean_step {cond t f : ExprId} {c a b : Bool} (hs : Inv ρ s)
    (hc : Means ρ c s.builder cond) (ht : Means ρ a s.builder t) (hf : Means ρ b s.builder f) :
    StepPost ρ s (emit (selectBoolean cond t f) s)
      (Denotes ρ ⟨1, Bits.ofBool 1 (if c then a else b)⟩) := by
  have hext : Extends s.builder (selectBoolean cond t f s.builder).2 :=
    (((Extends.append _ _).trans (Extends.append _ _)).trans (Extends.append _ _)).trans
      (Extends.append _ _)
  have hinv : BuilderInv ρ (selectBoolean cond t f s.builder).2 :=
    (((hs.builder.append _).append _).append _).append _
  refine StepPost.emit hs hinv hext fun σ hσ => ?_
  have hσ' := hext.agrees hσ
  obtain ⟨c', hc', rfl⟩ := hc σ hσ'
  obtain ⟨a', ha', rfl⟩ := ht σ hσ'
  obtain ⟨b', hb', rfl⟩ := hf σ hσ'
  have h₁ := value_makeAnd hc' ha'
  have h₂ := value_makeNot (value_makeBinary_of_value hc' .and cond t 1)
  have h₃ := value_makeAnd h₂ (value_makeUnary_of_value
    (value_makeBinary_of_value hb' .and cond t 1) .not cond 1)
  have h₄ := value_makeOr (value_makeBinary_of_value
    (value_makeUnary_of_value h₁ .not cond 1) .and _ _ 1) h₃
  refine h₄.trans ?_
  rw [Bits.isTrue_ofBool le_rfl, Bits.isTrue_ofBool le_rfl, Bits.isTrue_ofBool le_rfl]
  cases c'.isTrue <;> simp

end Operators

/-! ## Values -/

section Values

/-- The valuation obeys the definitions of the values in `P`, which are those that the encoder
visits from a value in `P`, and the incoming value of every phi that it looks through has the value
of the phi. -/
structure Encodable [DecidableEq B] (fn : Llvm.Function V B) (incomingBlock : Option B)
    (ρ : fn.Valuation) (P : V → Prop) : Prop where
  operands : ∀ v, P v → ∀ u ∈ encodedOperands fn incomingBlock v, P u
  width : ∀ v, P v → fn.inferBitWidth v ≤ 64
  defines : ∀ v, P v → fn.Defines ρ v
  phis : ∀ v, P v → ∀ incoming, fn.definition v = .phi incoming →
    ∀ u, resolvedIncoming incomingBlock incoming = some u → bitsOf ρ u = bitsOf ρ v

/-- The symbol of a value denotes it. -/
theorem emitSymbol_sound [DecidableEq V] (ρ : fn.Valuation) (v : V) :
    Sound ρ (emitSymbol fn v) (Denotes ρ (bitsOf ρ v)) := fun _ hs =>
  let ⟨hb, hext, hd⟩ := hs.builder.makeSymbol fn.name v
  StepPost.emit hs hb hext hd

/-- A constant denotes a value that is defined as it. -/
theorem emitConstant_sound {v : V} {c : ℤ} (hw : fn.inferBitWidth v ≤ 64)
    (hv : ρ v = BitVec.ofInt _ c) :
    Sound ρ (emit (·.makeConstant c (fn.inferBitWidth v))) (Denotes ρ (bitsOf ρ v)) :=
  fun s hs => StepPost.emit hs (hs.builder.append _) (Extends.append s.builder _) fun σ _ => by
    rw [value_makeConstant c (fn.one_le_inferBitWidth v) hw, bitsOf, hv]

/-- A resized operand denotes the value of the cast. -/
theorem emitResize_step {s : EncState V} {k : ExprKind} {e : ExprId} {v : V} {x : Bits}
    (hs : Inv ρ s) (hval : ∀ σ, s.builder.value σ e = some x →
      (s.builder.makeUnary k e (fn.inferBitWidth v)).2.value σ
        (s.builder.makeUnary k e (fn.inferBitWidth v)).1 = some (bitsOf ρ v))
    (he : Denotes ρ x s.builder e) :
    StepPost ρ s (emit (·.makeUnary k e (fn.inferBitWidth v)) s) (Denotes ρ (bitsOf ρ v)) :=
  StepPost.emit hs (hs.builder.append _) (Extends.append s.builder _) fun σ hσ => hval σ (he σ hσ)

/-- **Casts**: the node denotes the resized operand. -/
theorem emitCast_step [DecidableEq V] {s : EncState V} {op : CastOp} {v x : V} {e : ExprId}
    (hdef : fn.definition v = .cast op x) (h : fn.Defines ρ v) (hs : Inv ρ s)
    (he : Denotes ρ (bitsOf ρ x) s.builder e) :
    StepPost ρ s (emitCast fn v op e s) (Denotes ρ (bitsOf ρ v)) := by
  have hw := fn.one_le_inferBitWidth v
  cases op with
  | other => exact emitSymbol_sound ρ v s hs
  | sext =>
    simp only [Function.Defines, hdef] at h
    refine emitResize_step hs (fun σ hval => ?_) he
    rw [value_makeExtend (Or.inl rfl) hval hw, bitsOf, h.2]
    rfl
  | zext =>
    simp only [Function.Defines, hdef] at h
    refine emitResize_step hs (fun σ hval => ?_) he
    rw [value_makeExtend (Or.inr rfl) hval hw, bitsOf, h.2]
    rfl
  | trunc =>
    simp only [Function.Defines, hdef] at h
    refine emitResize_step hs (fun σ hval => ?_) he
    rw [value_makeTrunc hval hw, bitsOf, h.2]

variable [DecidableEq V] [DecidableEq B] {incomingBlock : Option B} {P : V → Prop}

/-- **One step of the recursion**: if the recursive calls are sound, so is the encoding of `v`.

**Proof sketch.** By cases on the definition of `v`; each builds the node that computes it from
the expressions of its operands. -/
theorem encodeValueImpl_sound (hP : Encodable fn incomingBlock ρ P) {rec : V → Enc V}
    (hrec : ∀ u, P u → Sound ρ (rec u) (Denotes ρ (bitsOf ρ u))) {v : V} (hv : P v) :
    Sound ρ (encodeValueImpl fn incomingBlock rec v) (Denotes ρ (bitsOf ρ v)) := by
  have hops := hP.operands v hv
  have hdefines := hP.defines v hv
  cases hdef : fn.definition v with
  | constantInt c =>
    simp only [encodeValueImpl, hdef]
    simp only [Function.Defines, hdef] at hdefines
    exact emitConstant_sound (hP.width v hv) hdefines
  | constantPointerNull =>
    simp only [encodeValueImpl, hdef]
    simp only [Function.Defines, hdef] at hdefines
    exact emitConstant_sound (hP.width v hv) (by rw [hdefines]; rfl)
  | undef => simpa only [encodeValueImpl, hdef] using emitSymbol_sound ρ v
  | argument => simpa only [encodeValueImpl, hdef] using emitSymbol_sound ρ v
  | assume c => simpa only [encodeValueImpl, hdef] using emitSymbol_sound ρ v
  | other => simpa only [encodeValueImpl, hdef] using emitSymbol_sound ρ v
  | phi incoming =>
    simp only [encodeValueImpl, hdef]
    cases hu : resolvedIncoming incomingBlock incoming with
    | none => exact emitSymbol_sound ρ v
    | some u =>
      simp only
      rw [← hP.phis v hv incoming hdef u hu]
      exact hrec u (hops u (by simp [encodedOperands, hdef, hu]))
  | freeze x =>
    simp only [encodeValueImpl, hdef]
    rw [bitsOf_freeze hdef hdefines]
    exact hrec x (hops x (by simp [encodedOperands, hdef]))
  | select c t f =>
    have hc := hops c (by simp [encodedOperands, hdef])
    have ht := hops t (by simp [encodedOperands, hdef])
    have hf := hops f (by simp [encodedOperands, hdef])
    have hbool : ∀ {u}, P u → Sound ρ (asBoolean (rec u)) (Means ρ (bitsOf ρ u).isTrue) :=
      fun {u} hu => (hrec u hu).asBoolean (fn.one_le_inferBitWidth u) (hP.width u hu)
    simp only [encodeValueImpl, hdef]
    refine (hbool hc).withOperand fun s cond hs hcond => ?_
    split_ifs with hone
    · refine StepPost.withOperands hs (stable_means ρ _) (hbool ht) (hbool hf)
        fun s' a b hs' hext ha hb => ?_
      rw [bitsOf_select_one hdef hdefines (Function.inferBitWidth_of_isIntegerTy hone)]
      exact selectBoolean_step hs' (stable_means ρ _ _ _ _ hext hcond) ha hb
    · refine StepPost.withOperands hs (stable_denotes ρ _) (hrec t ht) (hrec f hf)
        fun s' a b hs' hext ha hb => ?_
      refine StepPost.emit hs' (hs'.builder.append _) (Extends.append s'.builder _) fun σ hσ => ?_
      obtain ⟨c', hc', htrue⟩ := stable_means ρ _ _ _ _ hext hcond σ hσ
      rw [value_makeIte (fn.one_le_inferBitWidth v) hc' (ha σ hσ) (hb σ hσ), htrue,
        bitsOf_select_eq hdef hdefines]
  | cast op x =>
    simp only [encodeValueImpl, hdef]
    exact (hrec x (hops x (by simp [encodedOperands, hdef]))).withOperand
      fun s e hs he => emitCast_step hdef hdefines hs he
  | icmp p a b =>
    have ha := hops a (by simp [encodedOperands, hdef])
    have hb := hops b (by simp [encodedOperands, hdef])
    simp only [encodeValueImpl, hdef]
    simp only [Function.Defines, hdef] at hdefines
    obtain ⟨hv1, hwidth, hval⟩ := hdefines
    refine (hrec a ha).withOperands (stable_denotes ρ _) (hrec b hb) fun s lhs rhs hs hl hr => ?_
    refine StepPost.emit hs (hs.builder.append _) (Extends.append s.builder _) fun σ hσ => ?_
    have hr' := hr σ hσ
    rw [bitsOf, ← Bits.setWidth_of_eq hwidth] at hr'
    rw [value_makeCompare p (hl σ hσ) hr', bitsOf, hval, Bits.ite_eq_ofBool hv1]
  | binary op nsw nuw a b =>
    have ha := hops a (by simp [encodedOperands, hdef])
    have hb := hops b (by simp [encodedOperands, hdef])
    simp only [encodeValueImpl, hdef]
    simp only [Function.Defines, hdef] at hdefines
    obtain ⟨hwa, hwb, hres⟩ := hdefines
    refine (hrec a ha).withOperands (stable_denotes ρ _) (hrec b hb) fun s lhs rhs hs hl hr => ?_
    rw [bitsOf, ← Bits.setWidth_of_eq hwa] at hl
    rw [bitsOf, ← Bits.setWidth_of_eq hwb] at hr
    exact emitBinaryOperator_step (fn.one_le_inferBitWidth v) hs hl hr hres

omit [DecidableEq B] in
/-- Memoising the result of a step. -/
theorem StepPost.memoise {s : EncState V} {v : V} {r : Option ExprId × EncState V}
    (h : StepPost ρ s r (Denotes ρ (bitsOf ρ v))) :
    StepPost ρ s (memoise v r) (Denotes ρ (bitsOf ρ v)) := by
  have hleave : Inv ρ (r.2.leave v) := ⟨h.inv.builder, h.inv.cache⟩
  unfold Smt.memoise
  cases hr : r.1 with
  | none => exact ⟨hleave, h.ext, by simp⟩
  | some e =>
    have hd := h.result e hr
    refine ⟨hleave.emplace hd, ?_, fun e' he' => ?_⟩
    · rw [EncState.emplace_builder]
      exact h.ext
    · rw [EncState.emplace_builder, ← Option.some.inj he']
      exact hd

/-- **Values**: whatever is memoised or in progress, the expression of a value denotes it.

**Proof sketch.** Induction on the fuel. A memoised expression denotes its value by the invariant, a
value in progress gets its symbol, and the other values are one step of the recursion. -/
theorem encodeValue_sound (hP : Encodable fn incomingBlock ρ P) (fuel : ℕ) {v : V} (hv : P v) :
    Sound ρ (encodeValue fn incomingBlock fuel v) (Denotes ρ (bitsOf ρ v)) := by
  induction fuel generalizing v with
  | zero => exact fun s hs => StepPost.fail hs
  | succ fuel ih =>
    intro s hs
    cases hcache : s.cache v with
    | some e =>
      rw [encodeValue_of_cache hcache]
      exact StepPost.pure hs (hs.cache v e hcache)
    | none =>
      by_cases hmem : v ∈ s.inProgress
      · rw [encodeValue_of_mem hcache hmem]
        obtain ⟨hb, hext, hd⟩ := hs.builder.makeSymbol fn.name v
        refine ⟨(hs.withBuilder hb hext).emplace hd, ?_, fun e he => ?_⟩
        · rw [EncState.emplace_builder]
          exact hext
        · rw [EncState.emplace_builder, ← Option.some.inj he]
          exact hd
      · rw [encodeValue_of_new hcache hmem]
        have hs' : Inv ρ (s.enter v) := ⟨hs.builder, hs.cache⟩
        have hstep := encodeValueImpl_sound hP (fun u hu => ih hu) hv _ hs'
        exact StepPost.memoise ⟨hstep.inv, hstep.ext, hstep.result⟩

/-- The condition of a value has its truth value. -/
theorem encodeAsBoolean_sound (hP : Encodable fn incomingBlock ρ P) (fuel : ℕ) {v : V}
    (hv : P v) :
    Sound ρ (encodeAsBoolean fn incomingBlock fuel v) (Means ρ (bitsOf ρ v).isTrue) :=
  (encodeValue_sound hP fuel hv).asBoolean (fn.one_le_inferBitWidth v) (hP.width v hv)

end Values

end StackAnalyzer.Smt
