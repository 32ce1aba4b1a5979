import StackAnalyzer.Smt.Overflow

set_option relaxedAutoImplicit false
set_option autoImplicit false

/-!
# What encoded expressions denote

The invariant that the encoder keeps relative to a valuation of the LLVM values: under every
assignment that gives each symbol the value of its source, each memoised expression evaluates to
its LLVM value and each assertion is true. Building nodes only appends, so what an expression
denotes does not change.

## Main definitions

* `StackAnalyzer.Smt.Agrees` — an assignment gives each symbol the value of its source.
* `StackAnalyzer.Smt.Denotes`, `StackAnalyzer.Smt.Means` — the value and the truth value of an
  expression under all such assignments.
* `StackAnalyzer.Smt.BuilderInv`, `StackAnalyzer.Smt.Inv` — the invariant.
* `StackAnalyzer.Smt.Sound` — a step of the encoder keeps the invariant.

## Main results

* `StackAnalyzer.Smt.BuilderInv.exists_agrees` — there is such an assignment.
* `StackAnalyzer.Smt.Sound.withOperands`, `StackAnalyzer.Smt.Sound.asBoolean` — composition.
-/

namespace StackAnalyzer.Smt

open Llvm

variable {V B : Type*} {fn : Llvm.Function V B}

/-- The bits of a value under a valuation. -/
def bitsOf (ρ : fn.Valuation) (v : V) : Bits := ⟨fn.inferBitWidth v, ρ v⟩

/-- The assignment gives every symbol the value of its source. -/
def Agrees (ρ : fn.Valuation) (σ : SymbolId → ℕ) (b : ConstraintIrBuilder V) : Prop :=
  ∀ info ∈ b.ir.symbols, σ info.id = (ρ info.source).toNat

/-- A property of an expression of a builder. -/
abbrev ExprProp (V : Type*) := ConstraintIrBuilder V → ExprId → Prop

/-- The expression has the value `x` under every assignment that agrees. -/
def Denotes (ρ : fn.Valuation) (x : Bits) : ExprProp V := fun b e =>
  ∀ σ, Agrees ρ σ b → b.value σ e = some x

/-- The expression has the truth value `c` under every assignment that agrees. -/
def Means (ρ : fn.Valuation) (c : Bool) : ExprProp V := fun b e =>
  ∀ σ, Agrees ρ σ b → ∃ x, b.value σ e = some x ∧ x.isTrue = c

/-- The builder `b'` has the nodes and symbols of `b` and more. -/
structure Extends (b b' : ConstraintIrBuilder V) : Prop where
  nodes : b.ir.nodes <+: b'.ir.nodes
  symbols : b.ir.symbols <+: b'.ir.symbols

namespace Extends

variable {b b' b'' : ConstraintIrBuilder V}

/-- A builder extends itself. -/
theorem refl (b : ConstraintIrBuilder V) : Extends b b := ⟨List.prefix_rfl, List.prefix_rfl⟩

/-- Extending is transitive. -/
theorem trans (h : Extends b b') (h' : Extends b' b'') : Extends b b'' :=
  ⟨h.nodes.trans h'.nodes, h.symbols.trans h'.symbols⟩

/-- Appending a node extends. -/
theorem append (b : ConstraintIrBuilder V) (n : ExprNode) : Extends b (b.appendNode n).2 :=
  ⟨List.prefix_append _ _, List.prefix_rfl⟩

/-- An assertion extends. -/
theorem addAssertion (b : ConstraintIrBuilder V) (a : ExprId) : Extends b (b.addAssertion a) :=
  ⟨b.nodes_prefix_addAssertion a, by rw [b.addAssertion_symbols]⟩

/-- An assignment that agrees with the larger builder agrees with the smaller one. -/
theorem agrees (h : Extends b b') {ρ : fn.Valuation} {σ : SymbolId → ℕ} (hσ : Agrees ρ σ b') :
    Agrees ρ σ b := fun info hinfo => hσ info (h.symbols.subset hinfo)

/-- Values stay. -/
theorem value (h : Extends b b') {σ : SymbolId → ℕ} {e : ExprId} {x : Bits}
    (he : b.value σ e = some x) : b'.value σ e = some x := by
  obtain ⟨more, hmore⟩ := h.nodes
  rw [ConstraintIrBuilder.value, ← hmore]
  exact value_append he more

end Extends

/-- A property that extending the builder preserves. -/
def Stable (P : ExprProp V) : Prop := ∀ b b' e, Extends b b' → P b e → P b' e

/-- What an expression denotes stays. -/
theorem stable_denotes (ρ : fn.Valuation) (x : Bits) : Stable (Denotes ρ x) :=
  fun _ _ _ h he σ hσ => h.value (he σ (h.agrees hσ))

/-- What an expression means stays. -/
theorem stable_means (ρ : fn.Valuation) (c : Bool) : Stable (Means ρ c) :=
  fun _ _ _ h he σ hσ =>
    let ⟨x, hx, hc⟩ := he σ (h.agrees hσ)
    ⟨x, h.value hx, hc⟩

/-- What denotes `x` means its truth value. -/
theorem Denotes.means {ρ : fn.Valuation} {x : Bits} {b : ConstraintIrBuilder V} {e : ExprId}
    (h : Denotes ρ x b e) : Means ρ x.isTrue b e := fun σ hσ => ⟨x, h σ hσ, rfl⟩

/-! ## The invariant of the builder -/

/-- Symbols are numbered in order, each denotes its source, and all assertions are true. -/
structure BuilderInv (ρ : fn.Valuation) (b : ConstraintIrBuilder V) : Prop where
  ids : ∀ i info, b.ir.symbols[i]? = some info → info.id = i + 1
  next : b.nextSymbolId = b.ir.symbols.length + 1
  symbol : ∀ v id, b.symbolByValue v = some id → 0 < id ∧ id < b.nextSymbolId ∧
    ∃ e, b.symbolExprById id = some e ∧ Denotes ρ (bitsOf ρ v) b e
  assertions : ∀ a ∈ b.ir.assertions, Means ρ true b a

namespace BuilderInv

variable {ρ : fn.Valuation} {b : ConstraintIrBuilder V}

/-- The empty builder. -/
theorem init : BuilderInv ρ ({} : ConstraintIrBuilder V) where
  ids i info h := by simp at h
  next := rfl
  symbol v id h := by simp at h
  assertions a h := by simp at h

/-- **There is an assignment that agrees**: the symbols have distinct numbers. -/
theorem exists_agrees (h : BuilderInv ρ b) : ∃ σ, Agrees ρ σ b := by
  refine ⟨fun id => ((b.ir.symbols[id - 1]?).map fun info => (ρ info.source).toNat).getD 0,
    fun info hinfo => ?_⟩
  obtain ⟨i, hi⟩ := List.mem_iff_getElem?.mp hinfo
  simp only [h.ids i info hi, Nat.add_sub_cancel, hi, Option.map_some, Option.getD_some]

/-- Appending a node keeps the invariant. -/
theorem append (h : BuilderInv ρ b) (n : ExprNode) : BuilderInv ρ (b.appendNode n).2 where
  ids := h.ids
  next := h.next
  symbol v id hid := by
    obtain ⟨h0, hlt, e, he, hd⟩ := h.symbol v id hid
    exact ⟨h0, hlt, e, he, stable_denotes ρ _ _ _ _ (Extends.append b n) hd⟩
  assertions a ha := stable_means ρ _ _ _ _ (Extends.append b n) (h.assertions a ha)

/-- Adding a true assertion keeps the invariant. -/
theorem addAssertion (h : BuilderInv ρ b) {a : ExprId} (ha : Means ρ true b a) :
    BuilderInv ρ (b.addAssertion a) := by
  have hext := Extends.addAssertion b a
  refine ⟨?_, ?_, fun v id hid => ?_, fun a' ha' => ?_⟩
  · rw [b.addAssertion_symbols]
    exact h.ids
  · rw [b.addAssertion_symbols, b.addAssertion_nextSymbolId]
    exact h.next
  · rw [b.addAssertion_symbolByValue] at hid
    rw [b.addAssertion_nextSymbolId, b.addAssertion_symbolExprById]
    obtain ⟨h0, hlt, e, he, hd⟩ := h.symbol v id hid
    exact ⟨h0, hlt, e, he, stable_denotes ρ _ _ _ _ hext hd⟩
  · rw [b.addAssertion_assertions, List.mem_append, List.mem_singleton] at ha'
    rcases ha' with ha' | rfl
    · exact stable_means ρ _ _ _ _ hext (h.assertions a' ha')
    · exact stable_means ρ _ _ _ _ hext ha

/-- A new symbol keeps the invariant and denotes its source. -/
theorem newSymbol [DecidableEq V] (h : BuilderInv ρ b) (name : V → String) (v : V) :
    BuilderInv ρ (b.newSymbol name v (fn.inferBitWidth v)) ∧
      Extends b (b.newSymbol name v (fn.inferBitWidth v)) ∧
      Denotes ρ (bitsOf ρ v) (b.newSymbol name v (fn.inferBitWidth v)) b.ir.nodes.length := by
  have hext : Extends b (b.newSymbol name v (fn.inferBitWidth v)) :=
    ⟨List.prefix_append _ _, List.prefix_append _ _⟩
  have hnorm : normalizeBitWidth (fn.inferBitWidth v) = fn.inferBitWidth v :=
    if_neg (by have := fn.one_le_inferBitWidth v; omega)
  have hden : Denotes ρ (bitsOf ρ v) (b.newSymbol name v (fn.inferBitWidth v))
      b.ir.nodes.length := by
    intro σ hσ
    have hid := hσ ⟨b.nextSymbolId, ConstraintIrBuilder.buildSymbolName name v b.nextSymbolId, v⟩
      (List.mem_append_right _ List.mem_cons_self)
    rw [ConstraintIrBuilder.newSymbol, ConstraintIrBuilder.value, hnorm, value_last]
    simp only [evalNode, bitsOf, hid, BitVec.ofNat_toNat, BitVec.setWidth_eq]
  refine ⟨⟨fun i info hi => ?_, ?_, fun u id hid => ?_, fun a ha => ?_⟩, hext, hden⟩
  · rw [ConstraintIrBuilder.newSymbol, List.getElem?_append] at hi
    split_ifs at hi with hlt
    · exact h.ids i info hi
    · rw [List.getElem?_singleton] at hi
      split_ifs at hi with h0
      obtain rfl := Option.some.inj hi
      have hi' : b.ir.symbols.length = i := by omega
      exact h.next.trans (by rw [hi'])
  · simp [ConstraintIrBuilder.newSymbol, h.next]
  · simp only [ConstraintIrBuilder.newSymbol] at hid ⊢
    by_cases hu : u = v
    · subst hu
      rw [Function.update_self, Option.some.injEq] at hid
      subst hid
      exact ⟨by rw [h.next]; exact Nat.succ_pos _, Nat.lt_succ_self _, _, Function.update_self ..,
        hden⟩
    · rw [Function.update_of_ne hu] at hid
      obtain ⟨h0, hlt, e, he, hd⟩ := h.symbol u id hid
      refine ⟨h0, Nat.lt_succ_of_lt hlt, e, ?_, stable_denotes ρ _ _ _ _ hext hd⟩
      rw [Function.update_of_ne (Nat.ne_of_lt hlt)]
      exact he
  · exact stable_means ρ _ _ _ _ hext (h.assertions a ha)

/-- **Symbols**: the expression that `makeSymbol` returns denotes the value. -/
theorem makeSymbol [DecidableEq V] (h : BuilderInv ρ b) (name : V → String) (v : V) :
    BuilderInv ρ (b.makeSymbol name v (fn.inferBitWidth v)).2 ∧
      Extends b (b.makeSymbol name v (fn.inferBitWidth v)).2 ∧
      Denotes ρ (bitsOf ρ v) (b.makeSymbol name v (fn.inferBitWidth v)).2
        (b.makeSymbol name v (fn.inferBitWidth v)).1 := by
  unfold ConstraintIrBuilder.makeSymbol
  cases hid : b.symbolByValue v with
  | some id =>
    obtain ⟨h0, hlt, e, he, hd⟩ := h.symbol v id hid
    simp only [he, Option.getD_some]
    exact ⟨h, Extends.refl b, hd⟩
  | none => exact h.newSymbol name v

end BuilderInv

/-! ## Steps of the encoder -/

/-- The invariant of the encoder: every memoised expression denotes its value. -/
structure Inv (ρ : fn.Valuation) (s : EncState V) : Prop where
  builder : BuilderInv ρ s.builder
  cache : ∀ v e, s.cache v = some e → Denotes ρ (bitsOf ρ v) s.builder e

/-- What a step from `s` did: it kept the invariant, and its expression has the property `Q`. -/
structure StepPost (ρ : fn.Valuation) (s : EncState V) (r : Option ExprId × EncState V)
    (Q : ExprProp V) : Prop where
  inv : Inv ρ r.2
  ext : Extends s.builder r.2.builder
  result : ∀ e, r.1 = some e → Q r.2.builder e

/-- A step keeps the invariant from every state. -/
def Sound (ρ : fn.Valuation) (enc : Enc V) (Q : ExprProp V) : Prop :=
  ∀ s, Inv ρ s → StepPost ρ s (enc s) Q

section Steps

variable {ρ : fn.Valuation} {s : EncState V} {P Q R : ExprProp V} {enc enc₁ enc₂ : Enc V}

/-- A larger builder that keeps its invariant keeps that of the encoder. -/
theorem Inv.withBuilder (h : Inv ρ s) {b : ConstraintIrBuilder V} (hb : BuilderInv ρ b)
    (hext : Extends s.builder b) : Inv ρ { s with builder := b } :=
  ⟨hb, fun v e he => stable_denotes ρ _ _ _ _ hext (h.cache v e he)⟩

/-- Memoising an expression that denotes its value. -/
theorem Inv.emplace [DecidableEq V] (h : Inv ρ s) {v : V} {e : ExprId}
    (he : Denotes ρ (bitsOf ρ v) s.builder e) : Inv ρ (s.emplace v e) := by
  unfold EncState.emplace
  cases s.cache v with
  | some _ => exact h
  | none =>
    refine ⟨h.builder, fun u e' he' => ?_⟩
    by_cases hu : u = v
    · subst hu
      simp only [Function.update_self, Option.some.injEq] at he'
      exact he' ▸ he
    · simp only [Function.update_of_ne hu] at he'
      exact h.cache u e' he'

/-- Failing without doing anything. -/
theorem StepPost.fail (h : Inv ρ s) : StepPost ρ s (none, s) Q :=
  ⟨h, Extends.refl _, by simp⟩

/-- Returning an expression. -/
theorem StepPost.pure (h : Inv ρ s) {e : ExprId} (he : Q s.builder e) :
    StepPost ρ s (some e, s) Q :=
  ⟨h, Extends.refl _, fun _ h' => Option.some.inj h' ▸ he⟩

/-- A step after an extension. -/
theorem StepPost.after {s' : EncState V} (hext : Extends s.builder s'.builder)
    {r : Option ExprId × EncState V} (h : StepPost ρ s' r Q) : StepPost ρ s r Q :=
  ⟨h.inv, hext.trans h.ext, h.result⟩

/-- Emitting the expression of a builder operation. -/
theorem StepPost.emit (h : Inv ρ s) {f : ConstraintIrBuilder V → ExprId × ConstraintIrBuilder V}
    (hb : BuilderInv ρ (f s.builder).2) (hext : Extends s.builder (f s.builder).2)
    (hQ : Q (f s.builder).2 (f s.builder).1) : StepPost ρ s (emit f s) Q :=
  ⟨h.withBuilder hb hext, hext, fun _ he => Option.some.inj he ▸ hQ⟩

/-- One operand. -/
theorem Sound.withOperand {k : ExprId → Enc V} (henc : Sound ρ enc P)
    (hk : ∀ s e, Inv ρ s → P s.builder e → StepPost ρ s (k e s) R) :
    Sound ρ (withOperand enc k) R := fun s hs => by
  have h := henc s hs
  unfold Smt.withOperand
  cases he : (enc s).1 with
  | none => exact StepPost.after h.ext (StepPost.fail h.inv)
  | some e => exact StepPost.after h.ext (hk _ e h.inv (h.result e he))

/-- Two operands from a state: what the first one denotes is still known after the second, and so
is everything that was known before. -/
theorem StepPost.withOperands {k : ExprId → ExprId → Enc V} (hs : Inv ρ s) (hP : Stable P)
    (h₁ : Sound ρ enc₁ P) (h₂ : Sound ρ enc₂ Q)
    (hk : ∀ s' a b, Inv ρ s' → Extends s.builder s'.builder → P s'.builder a → Q s'.builder b →
      StepPost ρ s' (k a b s') R) : StepPost ρ s (withOperands enc₁ enc₂ k s) R := by
  have hpost₁ := h₁ s hs
  have hpost₂ := h₂ _ hpost₁.inv
  have hext := hpost₁.ext.trans hpost₂.ext
  unfold Smt.withOperands
  cases ha : (enc₁ s).1 with
  | none => exact StepPost.after hext (StepPost.fail hpost₂.inv)
  | some a =>
    cases hb : (enc₂ (enc₁ s).2).1 with
    | none => exact StepPost.after hext (StepPost.fail hpost₂.inv)
    | some b =>
      exact StepPost.after hext (hk _ a b hpost₂.inv hext
        (hP _ _ _ hpost₂.ext (hpost₁.result a ha)) (hpost₂.result b hb))

/-- Two operands. -/
theorem Sound.withOperands {k : ExprId → ExprId → Enc V} (hP : Stable P) (h₁ : Sound ρ enc₁ P)
    (h₂ : Sound ρ enc₂ Q)
    (hk : ∀ s a b, Inv ρ s → P s.builder a → Q s.builder b → StepPost ρ s (k a b s) R) :
    Sound ρ (withOperands enc₁ enc₂ k) R := fun _ hs =>
  StepPost.withOperands hs hP h₁ h₂ fun s' a b hs' _ => hk s' a b hs'

/-- **Conditions**: reading an expression as a condition gives its truth value. -/
theorem Sound.asBoolean {x : Bits} (hx : 1 ≤ x.width) (hx64 : x.width ≤ 64)
    (henc : Sound ρ enc (Denotes ρ x)) : Sound ρ (asBoolean enc) (Means ρ x.isTrue) := by
  refine henc.withOperand fun s e hs he => ?_
  cases hkind : isBooleanExprKind (s.builder.node e).kind with
  | true =>
    simp only [if_true]
    exact StepPost.pure hs he.means
  | false =>
    simp only [Bool.false_eq_true, if_false]
    obtain ⟨σ₀, hσ₀⟩ := hs.builder.exists_agrees
    have hwidth : (s.builder.node e).bitWidth = x.width := bitWidth_of_value (he σ₀ hσ₀)
    rw [hwidth]
    refine ⟨hs.withBuilder ((hs.builder.append _).append _)
      ((Extends.append _ _).trans (Extends.append _ _)),
      (Extends.append _ _).trans (Extends.append _ _), fun e' he' σ hσ => ?_⟩
    obtain rfl := Option.some.inj he'
    have hzero := value_makeConstant (σ := σ) (b := s.builder) 0 hx hx64
    have hval := value_makeCompare (σ := σ) .ne (value_append (he σ hσ) _) hzero
    refine ⟨_, hval, ?_⟩
    rw [Bits.isTrue_ofBool le_rfl]
    simp [Predicate.holds, Bits.isTrue]

end Steps

end StackAnalyzer.Smt
