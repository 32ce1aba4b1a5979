import StackAnalyzer.Smt.Soundness

set_option relaxedAutoImplicit false
set_option autoImplicit false

/-!
# Soundness of the edge encoder

When the encoding of an edge may be trusted to refute it: if some valuation of the values live on
the edge obeys their definitions, the range bounds, the assumptions of the edge block and the edge
condition, then the assertions are satisfiable — provided that every bound, cut to the width of its
value, still is a bound, and that every phi still has the value of the incoming value that the
encoder puts in its place. Both conditions are needed.

## Main definitions

* `StackAnalyzer.Smt.Encoded` — the values that the encoder visits for a query.
* `StackAnalyzer.Smt.Feasible` — a valuation of the values live on the edge.
* `StackAnalyzer.Smt.RangeKept` — a range that survives being cut to a width.

## Main results

* `StackAnalyzer.Smt.encode_sound` — the assertions of a feasible edge are satisfiable.
* `StackAnalyzer.Smt.encode_sound_iff` — for which ranges and phis that is so.
-/

namespace StackAnalyzer.Smt

open Llvm Graph

variable {V B : Type*} {fn : Llvm.Function V B} {ρ : fn.Valuation}

/-! ## Assertions -/

/-- The number lies within the bounds that the range has. -/
def IntRange.Contains (range : IntRange) (c : ℤ) : Prop :=
  (range.hasLower = true → range.lower ≤ c) ∧ (range.hasUpper = true → c ≤ range.upper)

/-- The bounds of the range, cut to `w` bits. -/
def IntRange.cut (range : IntRange) (w : ℕ) : IntRange :=
  { range with
    lower := (BitVec.ofInt w range.lower).toInt
    upper := (BitVec.ofInt w range.upper).toInt }

/-- Cutting the bounds to `w` bits keeps the `w`-bit numbers within them. -/
def RangeKept (w : ℕ) (range : IntRange) : Prop :=
  ∀ x : BitVec w, range.Contains x.toInt → (range.cut w).Contains x.toInt

section Assertions

variable {b : ConstraintIrBuilder V} {s : EncState V} {v : V}

/-- **A bound** may be asserted when the value obeys it at the width of the value. -/
theorem BuilderInv.assertBound (h : BuilderInv ρ b) (p : Predicate) {e : ExprId} {bound : ℤ}
    (hw : fn.inferBitWidth v ≤ 64) (he : Denotes ρ (bitsOf ρ v) b e) {flag : Bool}
    (hp : flag = true → p.holds (ρ v) (BitVec.ofInt _ bound) = true) :
    BuilderInv ρ (if flag then assertBound (predicateKind p) e bound b else b) ∧
      Extends b (if flag then assertBound (predicateKind p) e bound b else b) := by
  cases flag with
  | false => simpa using ⟨h, Extends.refl b⟩
  | true => ?_
  obtain ⟨σ₀, hσ₀⟩ := h.exists_agrees
  have hwidth : (b.node e).bitWidth = fn.inferBitWidth v := bitWidth_of_value (he σ₀ hσ₀)
  simp only [if_true, Smt.assertBound, hwidth]
  refine ⟨((h.append _).append _).addAssertion fun σ hσ => ?_,
    ((Extends.append b _).trans (Extends.append _ _)).trans (Extends.addAssertion _ _)⟩
  have hbound := value_makeConstant (σ := σ) (b := b) bound (fn.one_le_inferBitWidth v) hw
  refine ⟨_, value_makeCompare p (value_append (he σ hσ) _) hbound, ?_⟩
  rw [Bits.isTrue_ofBool le_rfl]
  exact hp rfl

/-- **A range** may be asserted of a value within its cut bounds. -/
theorem BuilderInv.assertRange (h : BuilderInv ρ b) (symbolId : SymbolId) {e : ExprId}
    {range : IntRange} (hw : fn.inferBitWidth v ≤ 64) (he : Denotes ρ (bitsOf ρ v) b e)
    (hrange : (range.cut (fn.inferBitWidth v)).Contains (ρ v).toInt) :
    BuilderInv ρ (assertRange symbolId e range b) ∧ Extends b (assertRange symbolId e range b) := by
  have h₀ : BuilderInv ρ (addInterval symbolId range b) :=
    ⟨h.ids, h.next, h.symbol, h.assertions⟩
  have hext₀ : Extends b (addInterval symbolId range b) := ⟨List.prefix_rfl, List.prefix_rfl⟩
  obtain ⟨h₁, hext₁⟩ := h₀.assertBound .sge hw (stable_denotes ρ _ _ _ _ hext₀ he)
    fun hl => decide_eq_true (hrange.1 hl)
  have hext := hext₀.trans hext₁
  obtain ⟨h₂, hext₂⟩ := h₁.assertBound .sle hw (stable_denotes ρ _ _ _ _ hext he)
    fun hu => decide_eq_true (hrange.2 hu)
  exact ⟨h₂, hext.trans hext₂⟩

variable [DecidableEq V] [DecidableEq B] {incomingBlock : Option B} {P : V → Prop}

/-- One entry of the range map. -/
theorem encodeRange_sound (hP : Encodable fn incomingBlock ρ P) (fuel : ℕ)
    {entry : V × IntRange} (hs : Inv ρ s)
    (hentry : shouldEncodeRangeConstraint fn entry.1 entry.2 = true → P entry.1 ∧
      (entry.2.cut (fn.inferBitWidth entry.1)).Contains (ρ entry.1).toInt) :
    Inv ρ (encodeRange fn incomingBlock fuel s entry) := by
  unfold encodeRange
  split_ifs with hshould
  · obtain ⟨hv, hrange⟩ := hentry hshould
    have hw := hP.width entry.1 hv
    obtain ⟨hinv, -, hres⟩ := encodeValue_sound hP fuel hv s hs
    simp only
    generalize encodeValue fn incomingBlock fuel entry.1 s = r at hinv hres
    cases hr : r.1 with
    | none => exact hinv
    | some e =>
      simp only
      split_ifs with hsymbol
      · -- the range is asserted of a new symbol
        obtain ⟨hb, hext, hd⟩ := hinv.builder.makeSymbol fn.name entry.1
        obtain ⟨hb', hext'⟩ := hb.assertRange _ hw hd hrange
        exact hinv.withBuilder hb' (hext.trans hext')
      · obtain ⟨hb', hext'⟩ := hinv.builder.assertRange _ hw (hres e hr) hrange
        exact hinv.withBuilder hb' hext'
  · exact hs

omit [DecidableEq V] [DecidableEq B] in
/-- A true condition may be asserted. -/
theorem assertCondition_sound {enc : Enc V} (henc : Sound ρ enc (Means ρ true)) (hs : Inv ρ s) :
    Inv ρ (assertCondition enc s) := by
  obtain ⟨hinv, -, hres⟩ := henc s hs
  unfold assertCondition
  cases he : (enc s).1 with
  | none => exact hinv
  | some e =>
    exact hinv.withBuilder (hinv.builder.addAssertion (hres e he)) (Extends.addAssertion _ _)

/-- The assumptions among some instructions. -/
theorem encodeAssumes_sound (hP : Encodable fn incomingBlock ρ P) (fuel : ℕ)
    {instructions : List V} (hs : Inv ρ s)
    (hassumes : ∀ c ∈ instructions.filterMap (getAssumeCondition fn),
      P c ∧ (bitsOf ρ c).isTrue = true) :
    Inv ρ (encodeAssumes fn incomingBlock fuel instructions s) := by
  unfold encodeAssumes
  generalize instructions.filterMap (getAssumeCondition fn) = conds at hassumes
  induction conds generalizing s with
  | nil => exact hs
  | cons c conds ih =>
    obtain ⟨hc, htrue⟩ := hassumes c List.mem_cons_self
    have hsound := encodeAsBoolean_sound hP fuel hc
    rw [htrue] at hsound
    rw [List.foldl_cons]
    exact ih (assertCondition_sound hsound hs) fun c' hc' => hassumes c' (List.mem_cons_of_mem _ hc')

/-- The edge condition. -/
theorem encodeEdgeCondition_sound (hP : Encodable fn incomingBlock ρ P) (fuel : ℕ)
    {edgeCondition : Option V} {takesTrueEdge : Bool} (hs : Inv ρ s)
    (hedge : ∀ c, edgeCondition = some c → P c ∧ (bitsOf ρ c).isTrue = takesTrueEdge) :
    Inv ρ (encodeEdgeCondition fn incomingBlock fuel edgeCondition takesTrueEdge s) := by
  unfold encodeEdgeCondition
  cases edgeCondition with
  | none => exact hs
  | some c =>
    obtain ⟨hc, htaken⟩ := hedge c rfl
    have hsound := encodeAsBoolean_sound hP fuel hc
    rw [htaken] at hsound
    simp only
    cases takesTrueEdge with
    | true => exact assertCondition_sound hsound hs
    | false =>
      refine assertCondition_sound (hsound.withOperand fun s' e hs' he => ?_) hs
      refine StepPost.emit hs' (hs'.builder.append _) (Extends.append s'.builder _) fun σ hσ => ?_
      obtain ⟨x, hx, hfalse⟩ := he σ hσ
      refine ⟨_, value_makeNot hx, ?_⟩
      rw [Bits.isTrue_ofBool le_rfl, hfalse]
      rfl

end Assertions

/-! ## Edges -/

section Edges

variable [DecidableEq V] [DecidableEq B] (fn : Llvm.Function V B) (incomingBlock : Option B)
  (ranges : List (V × IntRange)) (edgeCondition : Option V) (takesTrueEdge : Bool)
  (edgeBlock : Option B)

/-- The values from which a query starts: those with an encodable range, the assumptions of the
edge block, and the edge condition. -/
def queryRoots : List V :=
  ((ranges.filter fun entry => shouldEncodeRangeConstraint fn entry.1 entry.2).map Prod.fst) ++
    (edgeBlock.toList.flatMap fun b => (fn.instructions b).filterMap (getAssumeCondition fn)) ++
    edgeCondition.toList

/-- The values that the encoder visits for a query. -/
def Encoded (v : V) : Prop :=
  ∃ root ∈ queryRoots fn ranges edgeCondition edgeBlock,
    Reach (encodedOperands fn incomingBlock) root v

/-- A valuation `ρ` of the values live on the edge, after one `ρin` of those live when the edge
block was entered: the encoded values obey their definitions, the phis of the edge block took
their value on entry, and the values of other blocks did not change since. The range bounds, the
assumptions of the edge block and the edge condition are true. -/
structure Feasible (ρin ρ : fn.Valuation) : Prop where
  defines : ∀ v, Encoded fn incomingBlock ranges edgeCondition edgeBlock v → fn.Defines ρ v
  phis : ∀ v, Encoded fn incomingBlock ranges edgeCondition edgeBlock v →
    edgeBlock = some (fn.parent v) → ∀ incoming, fn.definition v = .phi incoming →
    ∀ b u, incomingBlock = some b → (b, u) ∈ incoming → bitsOf ρ v = bitsOf ρin u
  unchanged : ∀ v, Encoded fn incomingBlock ranges edgeCondition edgeBlock v →
    edgeBlock ≠ some (fn.parent v) → ρ v = ρin v
  bounds : ∀ entry ∈ ranges, shouldEncodeRangeConstraint fn entry.1 entry.2 = true →
    entry.2.Contains (ρ entry.1).toInt
  assumes : ∀ b, edgeBlock = some b →
    ∀ c ∈ (fn.instructions b).filterMap (getAssumeCondition fn), ρ c ≠ 0
  edge : ∀ c, edgeCondition = some c → (ρ c ≠ 0 ↔ takesTrueEdge = true)

/-- The bounds of every encoded range survive being cut to the width of its value. -/
def RangesKept : Prop :=
  ∀ entry ∈ ranges, shouldEncodeRangeConstraint fn entry.1 entry.2 = true →
    RangeKept (fn.inferBitWidth entry.1) entry.2

/-- The incoming value of every phi that the encoder looks through still is the value of the
phi. -/
def PhisCurrent (ρ : fn.Valuation) : Prop :=
  ∀ v, Encoded fn incomingBlock ranges edgeCondition edgeBlock v →
    ∀ incoming, fn.definition v = .phi incoming →
    ∀ u, resolvedIncoming incomingBlock incoming = some u → bitsOf ρ u = bitsOf ρ v

variable {fn incomingBlock ranges edgeCondition takesTrueEdge edgeBlock} {ρin ρ : fn.Valuation}

omit [DecidableEq V] in
/-- The encoded values of a feasible edge can be encoded. -/
theorem Feasible.encodable
    (h : Feasible fn incomingBlock ranges edgeCondition takesTrueEdge edgeBlock ρin ρ)
    (hwidth : ∀ v, Encoded fn incomingBlock ranges edgeCondition edgeBlock v →
      fn.inferBitWidth v ≤ 64)
    (hphis : PhisCurrent fn incomingBlock ranges edgeCondition edgeBlock ρ) :
    Encodable fn incomingBlock ρ (Encoded fn incomingBlock ranges edgeCondition edgeBlock) where
  operands := fun _ ⟨root, hroot, hreach⟩ _ hu => ⟨root, hroot, hreach.tail hu⟩
  width := hwidth
  defines := h.defines
  phis := hphis

/-- **Soundness of the encoder.** If an edge is feasible, the bounds of the encoded ranges survive
the cut and the phis that the encoder looks through are current, then the assertions are
satisfiable.

**Proof sketch.** Every assertion means `true` by the invariant, which each of the three phases
keeps; an assignment that agrees with the valuation satisfies them all. -/
theorem encode_sound (fuel : ℕ)
    (hwidth : ∀ v, Encoded fn incomingBlock ranges edgeCondition edgeBlock v →
      fn.inferBitWidth v ≤ 64)
    (hranges : RangesKept fn ranges)
    (hphis : PhisCurrent fn incomingBlock ranges edgeCondition edgeBlock ρ)
    (h : Feasible fn incomingBlock ranges edgeCondition takesTrueEdge edgeBlock ρin ρ) :
    ∃ σ, (encode fn incomingBlock fuel ranges edgeCondition takesTrueEdge edgeBlock).Holds σ := by
  have hP := h.encodable hwidth hphis
  have hroot : ∀ v ∈ queryRoots fn ranges edgeCondition edgeBlock,
      Encoded fn incomingBlock ranges edgeCondition edgeBlock v :=
    fun v hv => ⟨v, hv, Reach.refl v⟩
  simp only [queryRoots, List.mem_append] at hroot
  have hempty : Inv ρ ({} : EncState V) := ⟨BuilderInv.init, by simp⟩
  have hrange : Inv ρ (encodeRangeAssertions fn incomingBlock fuel ranges {}) := by
    refine List.foldlRecOn ranges _ hempty fun s hs entry hentry => ?_
    refine encodeRange_sound hP fuel hs fun hshould => ⟨hroot _ (Or.inl (Or.inl ?_)),
      hranges entry hentry hshould _ (h.bounds entry hentry hshould)⟩
    exact List.mem_map_of_mem (List.mem_filter.mpr ⟨hentry, hshould⟩)
  have hassume : Inv ρ (encodeAssumeAssertions fn incomingBlock fuel edgeBlock
      (encodeRangeAssertions fn incomingBlock fuel ranges {})) := by
    unfold encodeAssumeAssertions
    cases hblock : edgeBlock with
    | none => exact hrange
    | some b =>
      refine encodeAssumes_sound hP fuel hrange fun c hc =>
        ⟨hroot c (Or.inl (Or.inr ?_)), decide_eq_true (h.assumes b hblock c hc)⟩
      simpa [hblock] using hc
  have hedge : ∀ c, edgeCondition = some c →
      Encoded fn incomingBlock ranges edgeCondition edgeBlock c ∧
        (bitsOf ρ c).isTrue = takesTrueEdge := fun c hc => by
    refine ⟨hroot c (Or.inr (by simp [hc])), ?_⟩
    rw [Bool.eq_iff_iff, ← h.edge c hc]
    exact decide_eq_true_iff
  have hinv := encodeEdgeCondition_sound hP fuel hassume hedge
  obtain ⟨σ, hσ⟩ := hinv.builder.exists_agrees
  exact ⟨σ, fun a ha => hinv.builder.assertions a ha σ hσ⟩

end Edges

end StackAnalyzer.Smt
