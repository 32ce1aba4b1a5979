import StackAnalyzer.Conditions.ConditionValues

set_option relaxedAutoImplicit false
set_option autoImplicit false

/-!
# The truth of duplicate conditions

Conditions with equivalent keys compare the same values. Whether they come out the same depends on
what they ask of these values, which their keys leave out: a comparison with zero has the same key
as its opposite. So a condition that is reported comes out as the dominating one if both ask the
same, and the other way round if one asks the opposite of the other; in both cases it is known which
side of it is dead.

## Main definitions

* `StackAnalyzer.Conditions.ConditionFunction.View`,
  `StackAnalyzer.Conditions.ConditionFunction.view` — what a condition asks of which values.
* `StackAnalyzer.Conditions.ConditionFunction.AskRelated` — what two conditions ask of values that
  are taken for the same is related.

## Main results

* `StackAnalyzer.Conditions.ConditionFunction.views_of_conditionKeysEquivalent` — what equivalent
  keys say about the values that are compared.
* `StackAnalyzer.Conditions.ConditionFunction.truth_of_findDuplicate` — how the truth of a condition
  depends on that of the dominating one.
-/

namespace StackAnalyzer.Conditions

open CrossTU Graph Llvm Relation

namespace ConditionFunction

variable {F V B S : Type*} [DecidableEq F] [DecidableEq V] [DecidableEq B] [DecidableEq S]
  [Fintype F] [Fintype V] (mod : ConditionFunction F V B S) (f : F)

/-! ## What conditions ask -/

section Views

/-- What a chain of casts makes of a word. -/
def castChain : ℕ → V → Word → Word
  | 0, _, x => x
  | n + 1, v, x =>
    match mod.value v with
    | .cast _ operand => mod.castResult v (castChain n operand x)
    | _ => x

/-- The word of a value, in terms of the word of the value without casts. -/
def castsOf (v : V) (x : Word) : Word := mod.castChain (Fintype.card V) v x

/-- **What a condition asks**: of one value, or of two, without casts, in the order of the key. -/
inductive View (V : Type*)
  | value (raw : V) (asks : Word → Bool)
  | compare (lhs rhs : V) (asks : Word → Word → Bool)

/-- What a comparison of two values without casts asks. -/
def asksOf (pred : Predicate) (op0 op1 : V) (x y : Word) : Bool :=
  compareWords pred (mod.castsOf op0 x) (mod.castsOf op1 y)

/-- **What a condition asks of which values.** -/
def view (cond : V) : View V :=
  match mod.value cond with
  | .icmp pred op0 op1 =>
    let rawLhs := mod.stripCasts op0
    let rawRhs := mod.stripCasts op1
    if (mod.normalizeBoolComparison pred rawLhs rawRhs).isSome then
      if (mod.value rawRhs).isConstantInt then
        .value rawLhs fun x => mod.asksOf pred op0 op1 x (mod.constantWord rawRhs)
      else .value rawRhs (mod.asksOf pred op0 op1 (mod.constantWord rawLhs))
    else if mod.less (mod.canonicalOperand rawRhs) (mod.canonicalOperand rawLhs) then
      .compare rawRhs rawLhs fun y x => mod.asksOf pred op0 op1 x y
    else .compare rawLhs rawRhs (mod.asksOf pred op0 op1)
  | _ => .value (mod.stripCasts cond) fun x => decide ((mod.castsOf cond x).2 ≠ 0)

/-- Two operands have values in their keys that are taken for the same. -/
def SameKey (v w : V) : Prop :=
  mod.valuesEquivalent (mod.canonicalOperand v) (mod.canonicalOperand w) = true

/-- Both operands are loads, of as many bits, or neither is one. -/
def LoadedAlike (v w : V) : Prop :=
  ((∃ p, mod.value v = .load p) ↔ ∃ q, mod.value w = .load q) ∧
    ∀ p q, mod.value v = .load p → mod.value w = .load q → mod.bitWidth v = mod.bitWidth w

/-- **What two conditions ask is related**, of operands that have the same keys and are loaded
alike. -/
def AskRelated (related : Bool → Bool → Prop) : View V → View V → Prop
  | .value raw asks, .value raw' asks' =>
    mod.LoadedAlike raw raw' ∧ ∀ x, related (asks x) (asks' x)
  | .compare lhs rhs asks, .compare lhs' rhs' asks' =>
    (mod.SameKey lhs lhs' → mod.SameKey rhs rhs' →
      mod.LoadedAlike lhs lhs' ∧ mod.LoadedAlike rhs rhs' ∧
        ∀ x y, related (asks x y) (asks' x y)) ∧
    (mod.SameKey lhs rhs' → mod.SameKey rhs lhs' →
      mod.LoadedAlike lhs rhs' ∧ mod.LoadedAlike rhs lhs' ∧
        ∀ x y, related (asks x y) (asks' y x))
  | _, _ => True

end Views

/-! ## Keys and what conditions ask -/

section Keys

variable {mod f} {cond cond' : V}

omit [DecidableEq F] [DecidableEq B] [DecidableEq S] [Fintype F] in
/-- The key of a condition that asks of one value. -/
theorem key_of_view_value {raw : V} {asks : Word → Bool} (h : mod.view cond = .value raw asks) :
    mod.buildConditionKey cond = .invalid ∨
      ∃ mems, mod.buildConditionKey cond = .boolValue (mod.canonicalOperand raw) mems := by
  unfold view at h
  split at h
  · next pred op0 op1 hvalue =>
    unfold DuplicateModule.buildConditionKey
    dsimp only at h
    simp only [hvalue]
    split_ifs at h with hnormalized hconstant hless
    · obtain ⟨rfl, -⟩ := View.value.inj h
      obtain ⟨v, hv⟩ := Option.isSome_iff_exists.mp hnormalized
      rcases DuplicateModule.normalizeBoolComparison_cases hv with ⟨-, rfl⟩ | ⟨hnot, -, -⟩
      · rw [hv]
        exact Or.inr ⟨_, rfl⟩
      · rw [hnot] at hconstant
        cases hconstant
    · obtain ⟨rfl, -⟩ := View.value.inj h
      obtain ⟨v, hv⟩ := Option.isSome_iff_exists.mp hnormalized
      rcases DuplicateModule.normalizeBoolComparison_cases hv with ⟨hyes, -⟩ | ⟨-, -, rfl⟩
      · exact absurd hyes hconstant
      · rw [hv]
        exact Or.inr ⟨_, rfl⟩
  · next hother =>
    obtain ⟨rfl, -⟩ := View.value.inj h
    unfold DuplicateModule.buildConditionKey
    split
    · next pred op0 op1 hvalue => exact absurd hvalue (hother pred op0 op1)
    · dsimp only
      split_ifs
      · exact Or.inr ⟨_, rfl⟩
      · exact Or.inl rfl

omit [DecidableEq F] [DecidableEq B] [DecidableEq S] [Fintype F] in
/-- The key of a condition that compares two values. -/
theorem key_of_view_compare {lhs rhs : V} {asks : Word → Word → Bool}
    (h : mod.view cond = .compare lhs rhs asks) :
    ∃ pred mems, mod.buildConditionKey cond =
      .icmp pred (mod.canonicalOperand lhs) (mod.canonicalOperand rhs) mems := by
  unfold view at h
  split at h
  · next pred op0 op1 hvalue =>
    unfold DuplicateModule.buildConditionKey
    dsimp only at h
    simp only [hvalue]
    split_ifs at h with hnormalized hconstant hless
    · obtain ⟨rfl, rfl, -⟩ := View.compare.inj h
      rw [Option.not_isSome_iff_eq_none] at hnormalized
      simp only [hnormalized, if_pos hless]
      exact ⟨_, _, rfl⟩
    · obtain ⟨rfl, rfl, -⟩ := View.compare.inj h
      rw [Option.not_isSome_iff_eq_none] at hnormalized
      simp only [hnormalized, if_neg hless]
      exact ⟨_, _, rfl⟩
  · cases h

omit [DecidableEq B] [DecidableEq S] in
/-- **What equivalent keys say about the values that are compared.** -/
theorem views_of_conditionKeysEquivalent
    (h : mod.conditionKeysEquivalent (mod.buildConditionKey cond) (mod.buildConditionKey cond') =
      true) :
    (∃ raw asks raw' asks', mod.view cond = .value raw asks ∧ mod.view cond' = .value raw' asks' ∧
      mod.SameKey raw raw') ∨
    ∃ lhs rhs asks lhs' rhs' asks', mod.view cond = .compare lhs rhs asks ∧
      mod.view cond' = .compare lhs' rhs' asks' ∧
      (mod.SameKey lhs lhs' ∧ mod.SameKey rhs rhs' ∨
        mod.SameKey lhs rhs' ∧ mod.SameKey rhs lhs') := by
  cases hview : mod.view cond with
  | value raw asks =>
    rcases key_of_view_value hview with hkey | ⟨mems, hkey⟩
    · rw [hkey, DuplicateModule.conditionKeysEquivalent.eq_def] at h
      cases h
    · cases hview' : mod.view cond' with
      | value raw' asks' =>
        rcases key_of_view_value hview' with hkey' | ⟨mems', hkey'⟩
        · rw [hkey, hkey'] at h
          cases h
        · rw [hkey, hkey'] at h
          exact Or.inl ⟨raw, asks, raw', asks', rfl, rfl, h⟩
      | compare lhs' rhs' asks' =>
        obtain ⟨pred', mems', hkey'⟩ := key_of_view_compare hview'
        rw [hkey, hkey'] at h
        cases h
  | compare lhs rhs asks =>
    obtain ⟨pred, mems, hkey⟩ := key_of_view_compare hview
    cases hview' : mod.view cond' with
    | value raw' asks' =>
      rcases key_of_view_value hview' with hkey' | ⟨mems', hkey'⟩ <;>
      · rw [hkey, hkey'] at h
        cases h
    | compare lhs' rhs' asks' =>
      obtain ⟨pred', mems', hkey'⟩ := key_of_view_compare hview'
      rw [hkey, hkey'] at h
      refine Or.inr ⟨lhs, rhs, asks, lhs', rhs', asks', rfl, rfl, ?_⟩
      rcases Bool.or_eq_true_iff.mp h with hstraight | hcrossed
      · obtain ⟨hpred, hrhs⟩ := Bool.and_eq_true_iff.mp hstraight
        exact Or.inl ⟨(Bool.and_eq_true_iff.mp hpred).2, hrhs⟩
      · obtain ⟨hpred, hrhs⟩ := Bool.and_eq_true_iff.mp hcrossed
        exact Or.inr ⟨(Bool.and_eq_true_iff.mp hpred).2, hrhs⟩

end Keys

/-! ## What conditions come out as -/

section Truth

/-- A word that is not zero. -/
def truth (x : Word) : Bool := decide (x.2 ≠ 0)

variable {mod f} (hV : mod.Verified f) {u v cond : V} {st : RunState V} {trace : List (Event V)}
  {z : Word}

include hV

omit [DecidableEq F] [DecidableEq B] [DecidableEq S] [Fintype F] [Fintype V] in
/-- What a chain of casts makes of a value. -/
theorem Run.read_castChain (h : mod.Run f u st trace) (n : ℕ) (hv : mod.Needed u v)
    (hz : mod.read st v = some z) :
    ∃ x, mod.read st (mod.stripCastsWithin n v) = some x ∧ z = mod.castChain n v x := by
  induction n generalizing v z with
  | zero => exact ⟨z, hz, rfl⟩
  | succ n ih =>
    cases hvalue : mod.value v with
    | cast op operand =>
      have hinst : (mod.value v).isInstruction = true := by rw [hvalue]; rfl
      have hoperand : mod.OperandOf v operand :=
        ⟨by simp [hvalue, Value.operandValues], by simp [hvalue]⟩
      obtain ⟨y, hy, hresult⟩ := h.read_cast hV (hv.before hV hinst) hvalue
      obtain ⟨x, hx, hchain⟩ := ih (hv.operand hoperand) hy
      refine ⟨x, ?_, ?_⟩
      · rw [Module.stripCastsWithin, hvalue]
        exact hx
      · rw [hz, Option.some_inj] at hresult
        rw [castChain, hvalue, hresult, hchain]
    | _ =>
      refine ⟨z, ?_, ?_⟩
      · rw [Module.stripCastsWithin, hvalue]
        exact hz
      · rw [castChain, hvalue]

omit [DecidableEq F] [DecidableEq B] [DecidableEq S] [Fintype F] in
/-- The value of an operand, in terms of the value without casts. -/
theorem Run.read_castsOf (h : mod.Run f u st trace) (hv : mod.Needed u v)
    (hz : mod.read st v = some z) :
    ∃ x, mod.read st (mod.stripCasts v) = some x ∧ z = mod.castsOf v x :=
  h.read_castChain hV (Fintype.card V) hv hz

omit [DecidableEq F] [DecidableEq B] [DecidableEq S] [Fintype F] in
/-- **What a comparison comes out as.** -/
theorem Run.truth_icmp (h : mod.Run f u st trace) (hcond : mod.Needed u cond)
    {pred : Predicate} {op0 op1 : V} (hvalue : mod.value cond = .icmp pred op0 op1)
    (hz : mod.read st cond = some z) :
    ∃ x y, mod.read st (mod.stripCasts op0) = some x ∧ mod.read st (mod.stripCasts op1) = some y ∧
      truth z = mod.asksOf pred op0 op1 x y ∧ mod.Needed u (mod.stripCasts op0) ∧
        mod.Needed u (mod.stripCasts op1) := by
  have hinst : (mod.value cond).isInstruction = true := by rw [hvalue]; rfl
  have hop0 : mod.OperandOf cond op0 := ⟨by simp [hvalue, Value.operandValues], by simp [hvalue]⟩
  have hop1 : mod.OperandOf cond op1 := ⟨by simp [hvalue, Value.operandValues], by simp [hvalue]⟩
  obtain ⟨x, y, hx, hy, hresult⟩ := h.read_icmp hV (hcond.before hV hinst) hvalue
  obtain ⟨x', hx', rfl⟩ := h.read_castsOf hV (hcond.operand hop0) hx
  obtain ⟨y', hy', rfl⟩ := h.read_castsOf hV (hcond.operand hop1) hy
  rw [hz, Option.some_inj] at hresult
  refine ⟨x', y', hx', hy', ?_, (hcond.operand hop0).chain (operands_stripCasts op0),
    (hcond.operand hop1).chain (operands_stripCasts op1)⟩
  rw [hresult, asksOf]
  cases compareWords pred (mod.castsOf op0 x') (mod.castsOf op1 y') <;> decide

omit [DecidableEq F] [DecidableEq B] [DecidableEq S] [Fintype F] in
/-- **What a condition comes out as**, if it asks of one value. -/
theorem Run.truth_value (h : mod.Run f u st trace) (hcond : mod.Needed u cond) {raw : V}
    {asks : Word → Bool} (hview : mod.view cond = .value raw asks)
    (hz : mod.read st cond = some z) :
    ∃ x, mod.read st raw = some x ∧ truth z = asks x ∧ mod.Needed u raw := by
  unfold view at hview
  split at hview
  · next pred op0 op1 hvalue =>
    obtain ⟨x, y, hx, hy, htruth, hop0, hop1⟩ := h.truth_icmp hV hcond hvalue hz
    have hconstant : ∀ w, (mod.value w).isConstantInt = true →
        mod.read st w = some (mod.constantWord w) := by
      intro w hw
      rw [read, if_pos]
      cases hvalue : mod.value w <;> rw [hvalue] at hw <;> first | rfl | cases hw
    dsimp only at hview
    split_ifs at hview with hnormalized hrhs
    · obtain ⟨rfl, rfl⟩ := View.value.inj hview
      rw [hconstant _ hrhs, Option.some_inj] at hy
      exact ⟨x, hx, by rw [htruth, hy], hop0⟩
    · obtain ⟨rfl, rfl⟩ := View.value.inj hview
      obtain ⟨v, hv⟩ := Option.isSome_iff_exists.mp hnormalized
      have hlhs : (mod.value (mod.stripCasts op0)).isConstantInt = true := by
        rcases DuplicateModule.normalizeBoolComparison_cases hv with ⟨hyes, -⟩ | ⟨-, hyes, -⟩
        · exact absurd hyes hrhs
        · exact hyes
      rw [hconstant _ hlhs, Option.some_inj] at hx
      exact ⟨y, hy, by rw [htruth, hx], hop1⟩
  · obtain ⟨rfl, rfl⟩ := View.value.inj hview
    obtain ⟨x, hx, rfl⟩ := h.read_castsOf hV hcond hz
    exact ⟨x, hx, rfl, hcond.chain (operands_stripCasts cond)⟩

omit [DecidableEq F] [DecidableEq B] [DecidableEq S] [Fintype F] in
/-- **What a condition comes out as**, if it compares two values. -/
theorem Run.truth_compare (h : mod.Run f u st trace) (hcond : mod.Needed u cond) {lhs rhs : V}
    {asks : Word → Word → Bool} (hview : mod.view cond = .compare lhs rhs asks)
    (hz : mod.read st cond = some z) :
    ∃ x y, mod.read st lhs = some x ∧ mod.read st rhs = some y ∧ truth z = asks x y ∧
      mod.Needed u lhs ∧ mod.Needed u rhs := by
  unfold view at hview
  split at hview
  · next pred op0 op1 hvalue =>
    obtain ⟨x, y, hx, hy, htruth, hop0, hop1⟩ := h.truth_icmp hV hcond hvalue hz
    dsimp only at hview
    split_ifs at hview with hnormalized hconstant hless
    · obtain ⟨rfl, rfl, rfl⟩ := View.compare.inj hview
      exact ⟨y, x, hy, hx, htruth, hop1, hop0⟩
    · obtain ⟨rfl, rfl, rfl⟩ := View.compare.inj hview
      exact ⟨x, y, hx, hy, htruth, hop0, hop1⟩
  · cases hview

end Truth

/-! ## Conditions that are reported -/

section Reported

variable {mod f} {p : Passage V} {s : B}

omit [DecidableEq F] [DecidableEq V] [DecidableEq B] [DecidableEq S] [Fintype F] [Fintype V] in
/-- The condition of a branch is needed for it. -/
theorem needed_condition {branch cond : V} {ifTrue ifFalse : B}
    (h : mod.conditionalBranch branch = some (cond, ifTrue, ifFalse)) : mod.Needed branch cond := by
  intro _
  unfold DuplicateModule.conditionalBranch at h
  split at h
  · next cond' ifTrue' ifFalse' hvalue =>
    obtain ⟨rfl, -⟩ := Prod.mk.inj (Option.some.inj h)
    exact .single ⟨by simp [hvalue, Value.operandValues], by simp [hvalue]⟩
  · cases h

variable (hV : mod.Verified f) (h : mod.Executed f p)

include hV h

/-- **Operands with the same key** have the same value, each at its branch, if they are loaded
alike. -/
theorem Executed.operand_eq (hdb : mod.Before f p.d p.b)
    (hfound : ∀ e ∈ p.trace, ¬ mod.Found f p.b s e.inst) (hleft : mod.LeftAlone f s p)
    (htypes : mod.SameTypes p.d p.b) (hcalls : mod.CallsAgree p) {v w : V}
    (hkey : mod.SameKey v w) (halike : mod.LoadedAlike v w) (hv : mod.Needed p.d v)
    (hw : mod.Needed p.b w) : mod.read p.atD v = mod.read p.atB w := by
  unfold SameKey DuplicateModule.valuesEquivalent at hkey
  by_cases hload : ∃ pointer, mod.value v = .load pointer
  · obtain ⟨pointerV, hvalueV⟩ := id hload
    obtain ⟨pointerW, hvalueW⟩ := halike.1.mp hload
    have hoperandV : mod.OperandOf v pointerV :=
      ⟨by simp [hvalueV, Value.operandValues], by simp [hvalueV]⟩
    have hoperandW : mod.OperandOf w pointerW :=
      ⟨by simp [hvalueW, Value.operandValues], by simp [hvalueW]⟩
    simp only [DuplicateModule.canonicalOperand, hvalueV, hvalueW] at hkey
    have hpointers := read_eq_of_valuesEquivalent hV h hdb hfound hleft htypes hcalls hkey
      ((hv.operand hoperandV).strip hV) ((hw.operand hoperandW).strip hV)
    exact h.load_eq hV hdb hfound hleft hvalueV hvalueW hv hw (halike.2 _ _ hvalueV hvalueW)
      hpointers
  · have hcanonical : ∀ u, (¬ ∃ pointer, mod.value u = .load pointer) →
        mod.canonicalOperand u = u := by
      intro u hu
      unfold DuplicateModule.canonicalOperand
      split
      · next pointer hvalue => exact absurd ⟨pointer, hvalue⟩ hu
      · rfl
    rw [hcanonical v hload, hcanonical w fun hw => hload (halike.1.mpr hw)] at hkey
    exact read_eq_of_valuesEquivalent hV h hdb hfound hleft htypes hcalls hkey hv hw

/-- **Where a condition is reported**, it comes out as what the conditions ask says. -/
theorem related_of_findDuplicate (hfind : mod.findDuplicate f p.b = some (p.d, s))
    (hleft : mod.LeftAlone f s p) (htypes : mod.SameTypes p.d p.b) (hcalls : mod.CallsAgree p)
    {condD condB : V} {ifTrueD ifFalseD ifTrueB ifFalseB : B}
    (hd : mod.conditionalBranch p.d = some (condD, ifTrueD, ifFalseD))
    (hb : mod.conditionalBranch p.b = some (condB, ifTrueB, ifFalseB)) {x y : Word}
    (hx : mod.read p.atD condD = some x) (hy : mod.read p.atB condB = some y)
    {related : Bool → Bool → Prop}
    (hrelated : mod.AskRelated related (mod.view condD) (mod.view condB)) :
    related (truth x) (truth y) := by
  obtain ⟨domBlock, -, -, -, hne, hdominates, hterm, -, -, hnonempty, hsame, hwrites⟩ :=
    DuplicateModule.findDuplicate_cases hfind
  obtain ⟨hlast, -⟩ := DuplicateModule.branchOfBlock_eq_some hterm
  obtain rfl := hV.parent domBlock p.d (List.mem_of_getLast? hlast)
  have hdb : mod.Before f p.d p.b := before_of_treeDominates hV hlast hdominates hne
  have hfound := h.not_found hV (by rw [hb]; rfl) hwrites
  have hkeys : mod.conditionKeysEquivalent (mod.buildConditionKey condD)
      (mod.buildConditionKey condB) = true := by
    obtain ⟨atomD, restD, hsigD⟩ := List.exists_cons_of_ne_nil hnonempty
    rw [hsigD] at hsame
    cases hsigB : mod.buildConditionSignature p.b with
    | nil =>
      rw [hsigB] at hsame
      cases hsame
    | cons atomB restB =>
      rw [hsigB] at hsame
      obtain ⟨hfirst, -⟩ := Bool.and_eq_true_iff.mp hsame
      rw [← DuplicateModule.key_of_buildConditionSignature hd hsigD,
        ← DuplicateModule.key_of_buildConditionSignature hb hsigB]
      exact (Bool.and_eq_true_iff.mp hfirst).2
  have hoperand : ∀ {v w x y}, mod.SameKey v w → mod.LoadedAlike v w → mod.Needed p.d v →
      mod.Needed p.b w → mod.read p.atD v = some x → mod.read p.atB w = some y → x = y := by
    intro v w x y hkey halike hv hw hxv hyw
    have heq := h.operand_eq hV hdb hfound hleft htypes hcalls hkey halike hv hw
    rw [hxv, hyw] at heq
    exact Option.some.inj heq
  rcases views_of_conditionKeysEquivalent hkeys with
    ⟨rawD, asksD, rawB, asksB, hviewD, hviewB, hkey⟩ |
    ⟨lhsD, rhsD, asksD, lhsB, rhsB, asksB, hviewD, hviewB, hmatch⟩
  · obtain ⟨vx, hvx, htruthD, hneededD⟩ := h.runD.truth_value hV (needed_condition hd) hviewD hx
    obtain ⟨vy, hvy, htruthB, hneededB⟩ := h.1.truth_value hV (needed_condition hb) hviewB hy
    rw [hviewD, hviewB] at hrelated
    obtain ⟨halike, hasks⟩ := hrelated
    obtain rfl := hoperand hkey halike hneededD hneededB hvx hvy
    rw [htruthD, htruthB]
    exact hasks vx
  · obtain ⟨lx, rx, hlx, hrx, htruthD, hlhsD, hrhsD⟩ :=
      h.runD.truth_compare hV (needed_condition hd) hviewD hx
    obtain ⟨ly, ry, hly, hry, htruthB, hlhsB, hrhsB⟩ :=
      h.1.truth_compare hV (needed_condition hb) hviewB hy
    rw [hviewD, hviewB] at hrelated
    obtain ⟨hstraight, hcrossed⟩ := hrelated
    rw [htruthD, htruthB]
    rcases hmatch with ⟨hl, hr⟩ | ⟨hl, hr⟩
    · obtain ⟨halikeL, halikeR, hasks⟩ := hstraight hl hr
      obtain rfl := hoperand hl halikeL hlhsD hlhsB hlx hly
      obtain rfl := hoperand hr halikeR hrhsD hrhsB hrx hry
      exact hasks lx rx
    · obtain ⟨halikeL, halikeR, hasks⟩ := hcrossed hl hr
      obtain rfl := hoperand hl halikeL hlhsD hrhsB hlx hry
      obtain rfl := hoperand hr halikeR hrhsD hlhsB hrx hly
      exact hasks lx rx

/-- **The truth of a condition that is reported**: if it asks what the dominating one asks, it comes
out as that one has, and if it asks the opposite, the other way round. So the successor that has
been taken there says which side is dead. -/
theorem truth_of_findDuplicate (hfind : mod.findDuplicate f p.b = some (p.d, s))
    (hleft : mod.LeftAlone f s p) (htypes : mod.SameTypes p.d p.b) (hcalls : mod.CallsAgree p)
    {condD condB : V} {ifTrueD ifFalseD ifTrueB ifFalseB : B}
    (hd : mod.conditionalBranch p.d = some (condD, ifTrueD, ifFalseD))
    (hb : mod.conditionalBranch p.b = some (condB, ifTrueB, ifFalseB)) {x y : Word}
    (hx : mod.read p.atD condD = some x) (hy : mod.read p.atB condB = some y)
    (hs : (if x.2 = 0 then ifFalseD else ifTrueD) = s) :
    (mod.AskRelated (fun a b => b = a) (mod.view condD) (mod.view condB) →
      truth y = truth x ∧ truth y = decide (s = ifTrueD)) ∧
    (mod.AskRelated (fun a b => b = !a) (mod.view condD) (mod.view condB) →
      truth y = !truth x ∧ truth y = decide (s = ifFalseD)) := by
  obtain ⟨domBlock, cond, ifTrue, ifFalse, -, -, -, hbranch, hsucc, -⟩ :=
    DuplicateModule.findDuplicate_cases hfind
  rw [hd, Option.some_inj] at hbranch
  obtain ⟨-, hsides⟩ := Prod.mk.inj hbranch
  obtain ⟨rfl, rfl⟩ := Prod.mk.inj hsides
  have hne := DuplicateModule.ne_of_elsePathSuccessor hsucc
  have htrue : truth x = decide (s = ifTrueD) := by
    rw [truth, decide_eq_decide, ← hs]
    split_ifs with hzero
    · exact iff_of_false (not_not.mpr hzero) hne.symm
    · exact iff_of_true hzero rfl
  have hfalse : (!truth x) = decide (s = ifFalseD) := by
    rw [truth, ← decide_not, decide_eq_decide, not_not, ← hs]
    split_ifs with hzero
    · exact iff_of_true hzero rfl
    · exact iff_of_false hzero hne
  refine ⟨fun hsame => ?_, fun hopposite => ?_⟩
  · have htruth := related_of_findDuplicate hV h hfind hleft htypes hcalls hd hb hx hy hsame
    exact ⟨htruth, htruth.trans htrue⟩
  · have htruth := related_of_findDuplicate hV h hfind hleft htypes hcalls hd hb hx hy hopposite
    exact ⟨htruth, htruth.trans hfalse⟩

omit hV h

/-- **Duplicates agree**: whenever a condition is reported, it comes out as the dominating one has,
on every run that takes the recorded successor there. -/
def DuplicatesAgree (mod : ConditionFunction F V B S) (f : F) : Prop :=
  ∀ p s condD condB ifTrueD ifFalseD ifTrueB ifFalseB x y, mod.Executed f p →
    mod.findDuplicate f p.b = some (p.d, s) →
    mod.conditionalBranch p.d = some (condD, ifTrueD, ifFalseD) →
    mod.conditionalBranch p.b = some (condB, ifTrueB, ifFalseB) →
    mod.read p.atD condD = some x → mod.read p.atB condB = some y →
    (if x.2 = 0 then ifFalseD else ifTrueD) = s → truth y = truth x

end Reported

end ConditionFunction

/-! ## What is loaded and compared with zero -/

section Comparing

open ConditionFunction

/-- The values of a function: its parameters, constants, and the instructions. -/
inductive Line
  | pointer | flag | zero | one
  | load | compare | branch
  | sideBranch | store | jump
  | loadAgain | compareAgain | branchAgain
  | ret | otherRet | lastRet
  deriving DecidableEq

instance : Fintype Line :=
  ⟨{.pointer, .flag, .zero, .one, .load, .compare, .branch, .sideBranch, .store, .jump, .loadAgain,
    .compareAgain, .branchAgain, .ret, .otherRet, .lastRet}, fun v => by cases v <;> decide⟩

/-- The blocks of a function: in the `else` branch, there may be a write before the second
comparison. -/
inductive Place
  | entry | ifThen | otherwise | side | again | elseIf | last
  deriving DecidableEq

instance : Fintype Place :=
  ⟨{.entry, .ifThen, .otherwise, .side, .again, .elseIf, .last}, fun b => by cases b <;> decide⟩

/-- What is loaded is compared with zero, and once more in the same way, or in the opposite one. -/
def lineValue (same : Bool) : Line → Llvm.Value Line Place Unit
  | .pointer => .argument 0 false
  | .flag => .argument 1 false
  | .zero => .constantInt 32 0
  | .one => .constantInt 32 1
  | .load | .loadAgain => .load .pointer
  | .compare => .icmp .ne .load .zero
  | .branch => .br .compare .ifThen .otherwise
  | .sideBranch => .br .flag .side .again
  | .store => .store .one .pointer
  | .jump => .instruction
  | .compareAgain => .icmp (if same then .ne else .eq) .loadAgain .zero
  | .branchAgain => .br .compareAgain .elseIf .last
  | .ret | .otherRet | .lastRet => .ret

/-- Where the instructions stand. -/
def placeLines : Place → List Line
  | .entry => [.load, .compare, .branch]
  | .ifThen => [.ret]
  | .otherwise => [.sideBranch]
  | .side => [.store, .jump]
  | .again => [.loadAgain, .compareAgain, .branchAgain]
  | .elseIf => [.otherRet]
  | .last => [.lastRet]

/-- The edges. -/
def placeSuccessors : Place → List Place
  | .entry => [.ifThen, .otherwise]
  | .otherwise => [.side, .again]
  | .side => [.again]
  | .again => [.elseIf, .last]
  | _ => []

/-- All blocks. -/
def places : List Place := [.entry, .ifThen, .otherwise, .side, .again, .elseIf, .last]

/-- The source. -/
def sourceLines (same : Bool) : List CppString :=
  ["if (*p != 0) return 1;".toList, "else \x7b".toList, "  if (c) *p = 1;".toList,
    if same then "  if (*p != 0) return 2;".toList else "  if (*p == 0) return 2;".toList]

/-- A function that compares what it loads with zero, twice. -/
def comparing (same : Bool) : ConditionFunction Unit Line Place Unit where
  functions := [()]
  functionName _ := "f".toList
  isDeclaration _ := false
  sourcePath _ := "a.c".toList
  blocks _ := places
  instructions := placeLines
  parent v := (places.find? fun block => v ∈ placeLines block).getD .entry
  successors := placeSuccessors
  predecessors b := places.filter fun a => b ∈ placeSuccessors a
  value := lineValue same
  type v := match v with
    | .pointer => .ptr
    | .zero | .one | .load | .loadAgain => .int ⟨32, isWidth_thirtyTwo⟩
    | .flag | .compare | .compareAgain => .int ⟨1, isWidth_one⟩
    | _ => .other
  name _ := []
  users w := (places.flatMap placeLines).filter fun user =>
    w ∈ (lineValue same user).operandValues
  operands v := (lineValue same v).operandValues
  underlyingObject := id
  stripPointerCasts := id
  nodup := by decide
  determinism := {
    functionName _ := "f".toList
    isDeclaration _ := false
    intrinsicID _ := none
    doesNotReturn _ := false
    blocks _ := places
    instructions := placeLines
    value _ := .other
    isPointerTy v := decide (v = .pointer)
    users _ := []
    stripPointerCasts := id
    underlyingObject := id }
  isVarArg _ := false
  gepOperator _ := none
  castOperator _ := none
  atomicPointer _ := none
  mayWriteToMemory v := decide (v = .store)
  pointerMayBeCaptured _ := true
  less v w := decide (v.ctorIdx < w.ctorIdx)
  isPotentiallyReachable a b excluded :=
    reachFrom (fun c => if c ∈ excluded then [] else placeSuccessors c) 8 a b
  isInstructionReachable _ _ := true
  debugLoc v := match v with
    | .branch => some ⟨1, 5, [], "a.c".toList, none⟩
    | .sideBranch => some ⟨3, 7, [], "a.c".toList, none⟩
    | .branchAgain => some ⟨4, 7, [], "a.c".toList, none⟩
    | _ => none
  sourceFile _ := some (sourceLines same)
  constantWord v := ⟨32, if v = .one then 1 else 0⟩
  castResult _ x := x
  gepResult _ x := x

/-- The second condition is reported, because of the first one. -/
theorem findDuplicate_comparing (same : Bool) :
    (comparing same).findDuplicate () .branchAgain = some (.branch, .otherwise) := by
  cases same <;> decide

/-- Operands come before their instructions. -/
theorem comparing_before (same : Bool) {v w : Line} (hw : w ∈ (lineValue same v).operandValues)
    (hinst : (lineValue same w).isInstruction = true) : (comparing same).Before () w v := by
  have hunreached : ∀ v w, w ∈ (lineValue same v).operandValues →
      (lineValue same w).isInstruction = true →
        reachFrom (avoiding (comparing same).next w) 17 .load v = false := by
    cases same <;> decide
  have hclosed : Closed (avoiding (comparing same).next w) Finset.univ.toList :=
    fun _ _ _ _ => Finset.mem_toList.mpr (Finset.mem_univ _)
  have hlength : (Finset.univ : Finset Line).toList.length < 17 := by
    rw [Finset.length_toList]
    decide
  intro first hfirst hreach
  obtain rfl : Line.load = first := Option.some.inj hfirst
  have hreached := (reachFrom_iff hclosed (Finset.mem_toList.mpr (Finset.mem_univ _)) hlength
    v).mpr hreach
  rw [hunreached v w hw hinst] at hreached
  cases hreached

theorem comparing_verified (same : Bool) : (comparing same).Verified () where
  parent := by cases same <;> decide
  isInstruction := by cases same <;> decide
  nodup := by cases same <;> decide
  last := by cases same <;> decide
  closed := by
    unfold Closed
    cases same <;> decide
  ssa _ _ hoperand hw := comparing_before same hoperand.1 hw
  strip _ _ := .refl
  writes := by cases same <;> decide
  gep _ _ _ h := by cases h
  cast _ _ _ h := by cases h

/-- A value is computed. -/
def compute (st : RunState Line) (v : Line) (x : Word) : RunState Line :=
  ⟨Function.update st.values v (some x), st.memory⟩

/-- An instruction that computes a value. -/
def computing (st : RunState Line) (v : Line) (x : Word) : Event Line := ⟨v, st, compute st v x⟩

/-- The parameters, where all memory is zero. -/
def startState (flag : Bool) : RunState Line where
  values v := match v with
    | .pointer => some ⟨64, 0⟩
    | .flag => some ⟨1, BitVec.ofBool flag⟩
    | _ => none
  memory _ width := ⟨width, 0⟩

/-- The first branch: the condition is false. -/
def branchState (flag : Bool) : RunState Line :=
  compute (compute (startState flag) .load ⟨32, 0⟩) .compare ⟨1, 0⟩

/-- Behind the branch on the flag. -/
def sideBranchState (flag : Bool) : RunState Line :=
  compute (compute (branchState flag) .branch ⟨0, 0⟩) .sideBranch ⟨0, 0⟩

/-- All memory is one. -/
def storeState : RunState Line where
  values := Function.update (sideBranchState true).values .store (some ⟨0, 0⟩)
  memory _ width := ⟨width, 1⟩

/-- Before the second load. -/
def againState (flag : Bool) : RunState Line :=
  if flag then compute storeState .jump ⟨0, 0⟩ else sideBranchState false

/-- What is executed up to the first branch. -/
def eventsBefore (flag : Bool) : List (Event Line) :=
  [computing (compute (startState flag) .load ⟨32, 0⟩) .compare ⟨1, 0⟩,
    computing (startState flag) .load ⟨32, 0⟩]

/-- What is executed from there up to the second load. -/
def eventsBetween (flag : Bool) : List (Event Line) :=
  (if flag then [computing storeState .jump ⟨0, 0⟩, ⟨.store, sideBranchState true, storeState⟩]
    else []) ++ [computing (compute (branchState flag) .branch ⟨0, 0⟩) .sideBranch ⟨0, 0⟩]

/-- The run to the second branch, where something has been loaded, with some truth. -/
def comparingPassage (flag : Bool) (loaded : Word) (result : Bool) : Passage Line where
  d := .branch
  b := .branchAgain
  atD := branchState flag
  behindD := compute (branchState flag) .branch ⟨0, 0⟩
  atB := compute (compute (againState flag) .loadAgain loaded) .compareAgain
    ⟨1, BitVec.ofBool result⟩
  before := eventsBefore flag
  after := [computing (compute (againState flag) .loadAgain loaded) .compareAgain
      ⟨1, BitVec.ofBool result⟩, computing (againState flag) .loadAgain loaded] ++
    eventsBetween flag

/-- A value that an instruction may have is computed. -/
theorem executes_compute {same : Bool} {st : RunState Line} {v : Line} {x : Word}
    (h : (comparing same).Yields st v x) : (comparing same).Executes st v (compute st v x) :=
  ⟨⟨x, h, rfl⟩, fun _ => rfl⟩

/-- The run to the second load. -/
theorem comparing_segment (same flag : Bool) :
    (comparing same).Segment .load (startState flag)
      (eventsBetween flag ++ computing (branchState flag) .branch ⟨0, 0⟩ :: eventsBefore flag)
      .loadAgain (againState flag) := by
  have hload : (comparing same).Executes (startState flag) .load
      (compute (startState flag) .load ⟨32, 0⟩) :=
    executes_compute ⟨⟨64, 0⟩, rfl, rfl⟩
  have hcompare : (comparing same).Executes (compute (startState flag) .load ⟨32, 0⟩) .compare
      (branchState flag) :=
    executes_compute ⟨⟨32, 0⟩, ⟨32, 0⟩, rfl, rfl, rfl⟩
  have hbranch : (comparing same).Executes (branchState flag) .branch
      (compute (branchState flag) .branch ⟨0, 0⟩) := executes_compute trivial
  have hside : (comparing same).Executes (compute (branchState flag) .branch ⟨0, 0⟩) .sideBranch
      (sideBranchState flag) := executes_compute trivial
  have hother : (comparing same).Segment .load (startState flag)
      (computing (branchState flag) .branch ⟨0, 0⟩ :: eventsBefore flag) .sideBranch
      (compute (branchState flag) .branch ⟨0, 0⟩) := by
    refine .cons (.cons (.cons .nil hload ?_) hcompare ?_) hbranch ?_
    · exact ⟨by cases same <;> decide, trivial⟩
    · exact ⟨by cases same <;> decide, trivial⟩
    · exact ⟨by cases same <;> decide, ⟨1, 0⟩, rfl, rfl⟩
  cases flag with
  | false =>
    exact .cons hother hside ⟨by cases same <;> decide, ⟨1, 0⟩, rfl, rfl⟩
  | true =>
    have hstore : (comparing same).Executes (sideBranchState true) .store storeState :=
      ⟨⟨⟨0, 0⟩, trivial, rfl⟩, fun h => by cases h⟩
    have hjump : (comparing same).Executes storeState .jump (compute storeState .jump ⟨0, 0⟩) :=
      executes_compute trivial
    refine .cons (.cons (.cons hother hside ?_) hstore ?_) hjump ?_
    · exact ⟨by cases same <;> decide, ⟨1, 1⟩, rfl, rfl⟩
    · exact ⟨by cases same <;> decide, trivial⟩
    · exact ⟨by cases same <;> decide, trivial⟩

theorem comparing_executed (same flag : Bool) : (comparing same).Executed ()
    (comparingPassage flag ⟨32, if flag then 1 else 0⟩ (flag == same)) := by
  have hload : (comparing same).Executes (againState flag) .loadAgain
      (compute (againState flag) .loadAgain ⟨32, if flag then 1 else 0⟩) :=
    executes_compute ⟨⟨64, 0⟩, by cases flag <;> rfl, by cases flag <;> rfl⟩
  have hcompare : (comparing same).Executes
      (compute (againState flag) .loadAgain ⟨32, if flag then 1 else 0⟩) .compareAgain
      (compute (compute (againState flag) .loadAgain ⟨32, if flag then 1 else 0⟩) .compareAgain
        ⟨1, BitVec.ofBool (flag == same)⟩) :=
    executes_compute ⟨_, ⟨32, 0⟩, rfl, rfl, by cases flag <;> cases same <;> rfl⟩
  refine ⟨⟨.load, startState flag, rfl, ?_, ?_⟩, ?_⟩
  · intro v hv
    cases v <;> first | rfl | cases hv
  · refine .cons (.cons (comparing_segment same flag) hload ?_) hcompare ?_
    · exact ⟨by cases same <;> decide, trivial⟩
    · exact ⟨by cases flag <;> cases same <;> decide, trivial⟩
  · cases flag <;> cases same <;> decide

/-- The theorem, for two comparisons that ask the same, where nothing is written. -/
theorem truth_of_findDuplicate_comparing :
    ((comparing true).read (comparingPassage false ⟨32, 0⟩ false).atB .compareAgain).map truth =
      some (decide (Place.otherwise = Place.ifThen)) := by
  have hnoCall : ∀ v call, lineValue true v ≠ .call call := by
    intro v call hv
    cases v <;> cases hv
  have hwidth : ∀ v q, lineValue true v = .load q → (comparing true).bitWidth v = 32 := by
    intro v q hv
    cases v <;> first | rfl | cases hv
  have hmemory : ∀ e ∈ (comparingPassage false ⟨32, 0⟩ false).trace,
      e.stAfter.memory = e.stBefore.memory := by
    simp [Passage.trace, comparingPassage, eventsBetween, eventsBefore, computing, compute]
  have hleft : (comparing true).LeftAlone () .otherwise (comparingPassage false ⟨32, 0⟩ false) := by
    intro v q _ _ later s s' earlier htrace _ x _ e he _
    rw [hmemory e]
    rw [htrace, List.append_cons]
    exact List.mem_append_left _ he
  have htypes : (comparing true).SameTypes .branch .branchAgain := by
    intro v w _ _ _
    refine ⟨fun q r hv hw => (hwidth v q hv).trans (hwidth w r hw).symm, ?_, ?_⟩
    · intro hv _
      cases hv
    · intro hv _
      cases hv
  have hcalls : (comparing true).CallsAgree (comparingPassage false ⟨32, 0⟩ false) :=
    fun v w call _ hv => absurd hv (hnoCall v call)
  have hasks : (comparing true).AskRelated (fun a b => b = a) ((comparing true).view .compare)
      ((comparing true).view .compareAgain) := by
    show (comparing true).LoadedAlike .load .loadAgain ∧ ∀ x, _ = _
    exact ⟨⟨iff_of_true ⟨_, rfl⟩ ⟨_, rfl⟩, fun _ _ _ _ => rfl⟩, fun _ => rfl⟩
  exact congrArg some ((truth_of_findDuplicate (comparing_verified true)
    (comparing_executed true false) (findDuplicate_comparing true) hleft htypes hcalls rfl rfl rfl
    rfl rfl).1 hasks).2

/-- **Duplicates need not agree**: a comparison with zero has the key of the opposite one, and a
write that does not dominate the second condition is not looked at. -/
theorem not_duplicatesAgree_comparing :
    ¬ (comparing false).DuplicatesAgree () ∧ ¬ (comparing true).DuplicatesAgree () := by
  refine ⟨fun h => ?_, fun h => ?_⟩
  · have htruth := h (comparingPassage false ⟨32, 0⟩ true) .otherwise .compare .compareAgain .ifThen
      .otherwise .elseIf .last ⟨1, 0⟩ ⟨1, 1⟩ (comparing_executed false false)
      (findDuplicate_comparing false) rfl rfl rfl rfl rfl
    revert htruth
    decide
  · have htruth := h (comparingPassage true ⟨32, 1⟩ true) .otherwise .compare .compareAgain .ifThen
      .otherwise .elseIf .last ⟨1, 0⟩ ⟨1, 1⟩ (comparing_executed true true)
      (findDuplicate_comparing true) rfl rfl rfl rfl rfl
    revert htruth
    decide

end Comparing

end StackAnalyzer.Conditions
