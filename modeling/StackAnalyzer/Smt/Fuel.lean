import StackAnalyzer.Smt.Encoder

set_option relaxedAutoImplicit false
set_option autoImplicit false

/-!
# The fuel of the encoder

The recursion of `encodeValue` is bounded by the number of values that can be in progress at once.
With more fuel than there are such values the result does not depend on the fuel, so it is the
result of the unbounded recursion.

## Main definitions

* `StackAnalyzer.Smt.AgreeFrom` — two steps agree from the states with given values in progress.

## Main results

* `StackAnalyzer.Smt.encodeValue_fuel` — the fuel does not matter once there is enough.
-/

namespace StackAnalyzer.Smt

open Llvm Graph

variable {V B : Type*} {p : List V} {enc enc' enc₁ enc₁' enc₂ enc₂' : Enc V}

/-- Two steps agree from every state with the values `p` in progress, and leave those. -/
def AgreeFrom (p : List V) (enc enc' : Enc V) : Prop :=
  ∀ s, s.inProgress = p → enc s = enc' s ∧ (enc s).2.inProgress = p

/-- Emitting an expression leaves the values in progress. -/
theorem AgreeFrom.emit (f : ConstraintIrBuilder V → ExprId × ConstraintIrBuilder V) :
    AgreeFrom p (emit f) (emit f) := fun _ hs => ⟨rfl, hs⟩

/-- One operand. -/
theorem AgreeFrom.withOperand {k k' : ExprId → Enc V} (h : AgreeFrom p enc enc')
    (hk : ∀ e, AgreeFrom p (k e) (k' e)) :
    AgreeFrom p (withOperand enc k) (withOperand enc' k') := fun s hs => by
  obtain ⟨heq, hp⟩ := h s hs
  rw [Smt.withOperand, Smt.withOperand, ← heq]
  cases (enc s).1 with
  | none => exact ⟨rfl, hp⟩
  | some e => exact hk e _ hp

/-- Two operands. -/
theorem AgreeFrom.withOperands {k : ExprId → ExprId → Enc V} (h₁ : AgreeFrom p enc₁ enc₁')
    (h₂ : AgreeFrom p enc₂ enc₂') (hk : ∀ a b, AgreeFrom p (k a b) (k a b)) :
    AgreeFrom p (withOperands enc₁ enc₂ k) (withOperands enc₁' enc₂' k) := fun s hs => by
  obtain ⟨heq₁, hp₁⟩ := h₁ s hs
  obtain ⟨heq₂, hp₂⟩ := h₂ _ hp₁
  rw [Smt.withOperands, Smt.withOperands, ← heq₁, ← heq₂]
  cases (enc₁ s).1 with
  | none => exact ⟨rfl, hp₂⟩
  | some a =>
    cases (enc₂ (enc₁ s).2).1 with
    | none => exact ⟨rfl, hp₂⟩
    | some b => exact ⟨rfl, (hk a b _ hp₂).2⟩

/-- Conditions. -/
theorem AgreeFrom.asBoolean (h : AgreeFrom p enc enc') :
    AgreeFrom p (asBoolean enc) (asBoolean enc') :=
  h.withOperand fun e s hs => by
    cases isBooleanExprKind (s.builder.node e).kind with
    | true => simpa using hs
    | false => simpa [EncState.build, Smt.emit] using hs

/-- Binary operators leave the values in progress. -/
theorem AgreeFrom.emitBinaryOperator (op : BinaryOp) (nsw nuw : Bool) (w : ℕ) (lhs rhs : ExprId) :
    AgreeFrom p (emitBinaryOperator op nsw nuw w lhs rhs)
      (emitBinaryOperator op nsw nuw w lhs rhs) := fun s hs => by
  refine ⟨rfl, ?_⟩
  unfold Smt.emitBinaryOperator
  cases binaryKind op with
  | none => exact hs
  | some opKind =>
    simp only
    split_ifs <;> exact hs

variable [DecidableEq V] [DecidableEq B] {fn : Llvm.Function V B} {incomingBlock : Option B}

/-- One step of the recursion agrees if the recursive calls on the encoded operands do. -/
theorem encodeValueImpl_agree {rec rec' : V → Enc V} {v : V}
    (h : ∀ u ∈ encodedOperands fn incomingBlock v, AgreeFrom p (rec u) (rec' u)) :
    AgreeFrom p (encodeValueImpl fn incomingBlock rec v)
      (encodeValueImpl fn incomingBlock rec' v) := by
  unfold encodedOperands at h
  unfold encodeValueImpl
  cases hdef : fn.definition v with
  | phi incoming =>
    simp only [hdef] at h ⊢
    cases hu : resolvedIncoming incomingBlock incoming with
    | none => exact AgreeFrom.emit _
    | some u => exact h u (by simp [hu])
  | freeze x => exact h x (by simp [hdef])
  | select c t f =>
    have hc := (h c (by simp [hdef])).asBoolean
    have ht := h t (by simp [hdef])
    have hf := h f (by simp [hdef])
    refine hc.withOperand fun cond => ?_
    split_ifs
    · exact ht.asBoolean.withOperands hf.asBoolean fun _ _ => AgreeFrom.emit _
    · exact ht.withOperands hf fun _ _ => AgreeFrom.emit _
  | cast op x =>
    refine (h x (by simp [hdef])).withOperand fun e => ?_
    cases op <;> exact AgreeFrom.emit _
  | icmp q a b =>
    exact (h a (by simp [hdef])).withOperands (h b (by simp [hdef])) fun _ _ => AgreeFrom.emit _
  | binary op nsw nuw a b =>
    exact (h a (by simp [hdef])).withOperands (h b (by simp [hdef]))
      fun _ _ => AgreeFrom.emitBinaryOperator op nsw nuw _ _ _
  | _ => exact AgreeFrom.emit _

/-- **The fuel does not matter** once it exceeds the number of values that are not in progress.

**Proof sketch.** Induction on the fuel; a new value in progress lowers the number of the others. -/
theorem encodeValue_fuel {U : List V} (hU : Closed (encodedOperands fn incomingBlock) U) :
    ∀ (fuel fuel' : ℕ) (p : List V) (v : V), v ∈ U →
      unseen U (fun u => decide (u ∈ p)) < fuel → unseen U (fun u => decide (u ∈ p)) < fuel' →
      AgreeFrom p (encodeValue fn incomingBlock fuel v) (encodeValue fn incomingBlock fuel' v)
  | 0, _, _, _, _, hfuel, _ => absurd hfuel (Nat.not_lt_zero _)
  | _ + 1, 0, _, _, _, _, hfuel' => absurd hfuel' (Nat.not_lt_zero _)
  | fuel + 1, fuel' + 1, p, v, hv, hfuel, hfuel' => fun s hs => by
    cases hcache : s.cache v with
    | some e =>
      rw [encodeValue_of_cache hcache, encodeValue_of_cache hcache]
      exact ⟨rfl, hs⟩
    | none =>
      by_cases hmem : v ∈ s.inProgress
      · rw [encodeValue_of_mem hcache hmem, encodeValue_of_mem hcache hmem]
        exact ⟨rfl, by rw [EncState.emplace_inProgress]; exact hs⟩
      · have hlt : unseen U (fun u => decide (u ∈ v :: p)) < unseen U (fun u => decide (u ∈ p)) :=
          unseen_lt (fun u hu => decide_eq_true (List.mem_cons_of_mem _ (of_decide_eq_true hu))) hv
            (decide_eq_false (hs ▸ hmem)) (decide_eq_true List.mem_cons_self)
        have hrec : ∀ u ∈ encodedOperands fn incomingBlock v, AgreeFrom (v :: p)
            (encodeValue fn incomingBlock fuel u) (encodeValue fn incomingBlock fuel' u) :=
          fun u hu => encodeValue_fuel hU fuel fuel' (v :: p) u (hU v hv u hu) (by omega) (by omega)
        obtain ⟨heq, hp⟩ := encodeValueImpl_agree hrec (s.enter v) (congrArg (v :: ·) hs)
        rw [encodeValue_of_new hcache hmem, encodeValue_of_new hcache hmem, ← heq]
        refine ⟨rfl, ?_⟩
        unfold memoise
        split
        · rw [EncState.emplace_inProgress, EncState.leave, hp, List.erase_cons_head]
        · rw [EncState.leave, hp, List.erase_cons_head]

end StackAnalyzer.Smt
