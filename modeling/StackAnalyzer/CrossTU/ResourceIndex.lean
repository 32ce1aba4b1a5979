import StackAnalyzer.Maps.EntryMap

set_option relaxedAutoImplicit false
set_option autoImplicit false

/-!
# Indexes of resource summaries

What the functions of a program acquire and release, by name. The summaries of modules are merged
into a global index; indexes are compared, and hashed through a text that lists their entries in
order.

## Main definitions

* `StackAnalyzer.CrossTU.ResourceSummaryEffect`, `StackAnalyzer.CrossTU.ResourceSummaryIndex`.
* `StackAnalyzer.CrossTU.mergeResourceSummaryIndex`,
  `StackAnalyzer.CrossTU.resourceSummaryIndexEquals`,
  `StackAnalyzer.CrossTU.computeChangedResourceFunctionNames` — merging and comparing.
* `StackAnalyzer.CrossTU.summaryIndexText` — the text that is hashed.
-/

namespace StackAnalyzer.CrossTU

open Maps

/-- `std::string`. -/
abbrev CppString := List Char

instance lawfulBEq_cppString : LawfulBEq CppString := inferInstance

/-- A number written to a stream. -/
def decimal (n : ℕ) : CppString := Nat.toDigits 10 n

/-- `ResourceSummaryAction`. -/
inductive ResourceSummaryAction
  | acquireOut
  | acquireRet
  | releaseArg
  deriving DecidableEq

/-- `RuleAction`. -/
inductive RuleAction
  | acquireOut
  | acquireRet
  | releaseArg
  deriving DecidableEq

/-- The number of an enumerator. -/
def ResourceSummaryAction.toNat : ResourceSummaryAction → ℕ
  | .acquireOut => 0
  | .acquireRet => 1
  | .releaseArg => 2

/-- The number of an enumerator. -/
def RuleAction.toNat : RuleAction → ℕ
  | .acquireOut => 0
  | .acquireRet => 1
  | .releaseArg => 2

/-- `fromPublicSummaryAction`. -/
def fromPublicSummaryAction : ResourceSummaryAction → RuleAction
  | .acquireOut => .acquireOut
  | .acquireRet => .acquireRet
  | .releaseArg => .releaseArg

/-- `ResourceSummaryEffect`. -/
structure ResourceSummaryEffect where
  action : ResourceSummaryAction
  argIndex : ℕ
  offset : ℕ
  viaPointerSlot : Bool
  resourceKind : CppString
  deriving DecidableEq

/-- `ParamLifetimeEffect`. -/
structure ParamLifetimeEffect where
  action : RuleAction
  argIndex : ℕ
  offset : ℕ
  viaPointerSlot : Bool
  resourceKind : CppString

/-- The fields of an effect, separated by bars. -/
def effectKey (action argIndex offset : ℕ) (viaPointerSlot : Bool) (resourceKind : CppString) :
    CppString :=
  decimal action ++ '|' :: (decimal argIndex ++ '|' :: (decimal offset ++ '|' ::
    (decimal (if viaPointerSlot then 1 else 0) ++ '|' :: resourceKind)))

/-- `encodeSummaryEffectKey` of the analysis. -/
def ParamLifetimeEffect.encodeSummaryEffectKey (effect : ParamLifetimeEffect) : CppString :=
  effectKey effect.action.toNat effect.argIndex effect.offset effect.viaPointerSlot
    effect.resourceKind

/-- `encodeSummaryEffectKey` of the application. -/
def ResourceSummaryEffect.encodeSummaryEffectKey (effect : ResourceSummaryEffect) : CppString :=
  effectKey effect.action.toNat effect.argIndex effect.offset effect.viaPointerSlot
    effect.resourceKind

/-- The effect with the action of the analysis. -/
def ResourceSummaryEffect.toParam (effect : ResourceSummaryEffect) : ParamLifetimeEffect where
  action := fromPublicSummaryAction effect.action
  argIndex := effect.argIndex
  offset := effect.offset
  viaPointerSlot := effect.viaPointerSlot
  resourceKind := effect.resourceKind

/-- The key under which the analysis merges and compares an effect. -/
def ResourceSummaryEffect.key (effect : ResourceSummaryEffect) : CppString :=
  effect.toParam.encodeSummaryEffectKey

/-- `ResourceSummaryFunction`: its effects. -/
abbrev ResourceSummaryFunction := List ResourceSummaryEffect

/-- `ResourceSummaryIndex`. -/
abbrev ResourceSummaryIndex := EntryMap CppString ResourceSummaryFunction

/-! ## Merging -/

/-- Append an effect whose key does not exist: the effects, the existing keys, and `changed`. -/
def pushEffect (r : ResourceSummaryFunction × List CppString × Bool)
    (effect : ResourceSummaryEffect) : ResourceSummaryFunction × List CppString × Bool :=
  if effect.key ∈ r.2.1 then r else (r.1 ++ [effect], effect.key :: r.2.1, true)

/-- The body of `mergeResourceSummaryIndex` for a function that both indexes define. -/
def mergeEffects (dst src : ResourceSummaryFunction) : ResourceSummaryFunction × Bool :=
  let r := src.foldl pushEffect (dst, dst.map ResourceSummaryEffect.key, false)
  (r.1, r.2.2)

/-- Entries are copied, or joined effect by effect. -/
def resourceJoining : Joining ResourceSummaryFunction where
  skip _ := false
  normalize effects := effects
  join := mergeEffects

/-- `mergeResourceSummaryIndex`: the new `dst` and the result. -/
def mergeResourceSummaryIndex (dst src : ResourceSummaryIndex) : ResourceSummaryIndex × Bool :=
  EntryMap.merge resourceJoining dst src

/-! ## Comparing -/

/-- The keys of the effects, sorted. -/
def sortedKeys (fn : ResourceSummaryFunction) : List CppString :=
  (fn.map ResourceSummaryEffect.key).insertionSort (· ≤ ·)

/-- `resourceSummaryFunctionEquals`. -/
def resourceSummaryFunctionEquals (lhs rhs : ResourceSummaryFunction) : Bool :=
  sortedKeys lhs == sortedKeys rhs

/-- `resourceSummaryIndexEquals`. -/
def resourceSummaryIndexEquals (lhs rhs : ResourceSummaryIndex) : Bool :=
  EntryMap.equalsBy resourceSummaryFunctionEquals lhs rhs

/-- `computeChangedResourceFunctionNames`. -/
def computeChangedResourceFunctionNames (prev next : ResourceSummaryIndex) : List CppString :=
  EntryMap.changedKeys resourceSummaryFunctionEquals prev next

/-! ## Hashing -/

/-- `canonical`: the names in order, each with the sorted keys of its effects. -/
def canonicalEntries (index : ResourceSummaryIndex) : List (CppString × List CppString) :=
  (index.entries.map fun entry =>
      (entry.1, (entry.2.map ResourceSummaryEffect.encodeSummaryEffectKey).insertionSort
        (· ≤ ·))).insertionSort (fun a b => a.1 ≤ b.1)

/-- The text that `hashSummaryIndex` hashes. -/
def summaryIndexText (index : ResourceSummaryIndex) : CppString :=
  (canonicalEntries index).flatMap fun entry =>
    entry.1 ++ '\n' :: entry.2.flatMap fun effectKey => ' ' :: ' ' :: effectKey ++ ['\n']

/-! ## Keys -/

/-- Text up to a separator that it does not contain is determined. -/
theorem append_separator_inj {sep : Char} {a b x y : CppString} (ha : sep ∉ a) (hb : sep ∉ b)
    (h : a ++ sep :: x = b ++ sep :: y) : a = b ∧ x = y := by
  induction a generalizing b with
  | nil =>
    cases b with
    | nil => exact ⟨rfl, (List.cons.inj h).2⟩
    | cons c b => exact absurd ((List.cons.inj h).1 ▸ List.mem_cons_self) hb
  | cons c a ih =>
    cases b with
    | nil => exact absurd ((List.cons.inj h).1 ▸ List.mem_cons_self) ha
    | cons d b =>
      obtain ⟨rfl, htail⟩ := List.cons.inj h
      obtain ⟨rfl, hxy⟩ := ih (fun hm => ha (List.mem_cons_of_mem _ hm))
        (fun hm => hb (List.mem_cons_of_mem _ hm)) htail
      exact ⟨rfl, hxy⟩

/-- The digits of a number determine it. -/
theorem decimal_inj {m n : ℕ} (h : decimal m = decimal n) : m = n := by
  have hm : Nat.ofDigitChars 10 (decimal m) 0 = m := Nat.ofDigitChars_ten_toDigits
  have hn : Nat.ofDigitChars 10 (decimal n) 0 = n := Nat.ofDigitChars_ten_toDigits
  rw [← hm, h, hn]

/-- Numbers are written with digits only. -/
theorem not_mem_decimal {c : Char} (hc : c.isDigit = false) (n : ℕ) : c ∉ decimal n := fun h => by
  have hdigit := Nat.isDigit_of_mem_toDigits (b := 10) (by decide) le_rfl h
  simp [hc] at hdigit

/-- The key of an effect determines its fields. -/
theorem effectKey_inj {a a' i i' o o' : ℕ} {v v' : Bool} {k k' : CppString}
    (h : effectKey a i o v k = effectKey a' i' o' v' k') :
    a = a' ∧ i = i' ∧ o = o' ∧ v = v' ∧ k = k' := by
  have hbar : ∀ n, '|' ∉ decimal n := not_mem_decimal rfl
  obtain ⟨ha, h⟩ := append_separator_inj (hbar _) (hbar _) h
  obtain ⟨hi, h⟩ := append_separator_inj (hbar _) (hbar _) h
  obtain ⟨ho, h⟩ := append_separator_inj (hbar _) (hbar _) h
  obtain ⟨hv, h⟩ := append_separator_inj (hbar _) (hbar _) h
  refine ⟨decimal_inj ha, decimal_inj hi, decimal_inj ho, ?_, h⟩
  have := decimal_inj hv
  cases v <;> cases v' <;> simp_all

/-- Both encoders yield the same key. -/
theorem ResourceSummaryEffect.encodeSummaryEffectKey_eq (effect : ResourceSummaryEffect) :
    effect.encodeSummaryEffectKey = effect.key := by
  obtain ⟨action, argIndex, offset, viaPointerSlot, resourceKind⟩ := effect
  cases action <;> rfl

/-- An effect is determined by its key. -/
theorem ResourceSummaryEffect.key_injective :
    Function.Injective ResourceSummaryEffect.key := by
  rintro ⟨a, i, o, v, k⟩ ⟨a', i', o', v', k'⟩ h
  obtain ⟨ha, hi, ho, hv, hk⟩ := effectKey_inj h
  have haction : (fromPublicSummaryAction a).toNat = (fromPublicSummaryAction a').toNat → a = a' := by
    cases a <;> cases a' <;> decide
  rw [ResourceSummaryEffect.mk.injEq]
  exact ⟨haction ha, hi, ho, hv, hk⟩

/-! ## Merging effects -/

section Effects

/-- What merging effects does, with the set of existing keys. -/
theorem foldl_pushEffect_spec (src : ResourceSummaryFunction)
    (r : ResourceSummaryFunction × List CppString × Bool)
    (hkeys : ∀ e : ResourceSummaryEffect, e.key ∈ r.2.1 ↔ e ∈ r.1) :
    (∀ e, e ∈ (src.foldl pushEffect r).1 ↔ e ∈ r.1 ∨ e ∈ src) ∧
      (r.1.Nodup → (src.foldl pushEffect r).1.Nodup) ∧
      ((src.foldl pushEffect r).2.2 = true ↔ r.2.2 = true ∨ ∃ e ∈ src, e ∉ r.1) ∧
      ((∀ e ∈ src, e ∈ r.1) → (src.foldl pushEffect r).1 = r.1) := by
  induction src generalizing r with
  | nil => exact ⟨by simp, id, by simp, fun _ => rfl⟩
  | cons s src ih =>
    rw [List.foldl_cons]
    by_cases hs : s ∈ r.1
    · have hskip : pushEffect r s = r := if_pos ((hkeys s).mpr hs)
      rw [hskip]
      obtain ⟨hmem, hnd, hch, hsame⟩ := ih r hkeys
      refine ⟨fun e => ?_, hnd, ?_, fun h => hsame fun e he => h e (List.mem_cons_of_mem s he)⟩
      · rw [hmem, List.mem_cons]
        refine ⟨fun h => h.imp_right Or.inr, ?_⟩
        rintro (h | rfl | h)
        · exact Or.inl h
        · exact Or.inl hs
        · exact Or.inr h
      · rw [hch, List.exists_mem_cons_iff]
        simp [hs]
    · have hpush : pushEffect r s = (r.1 ++ [s], s.key :: r.2.1, true) :=
        if_neg fun h => hs ((hkeys s).mp h)
      rw [hpush]
      have hkeys' : ∀ e : ResourceSummaryEffect, e.key ∈ s.key :: r.2.1 ↔ e ∈ r.1 ++ [s] := by
        intro e
        rw [List.mem_cons, List.mem_append, List.mem_singleton, hkeys, or_comm,
          ResourceSummaryEffect.key_injective.eq_iff]
      obtain ⟨hmem, hnd, hch, -⟩ := ih (r.1 ++ [s], s.key :: r.2.1, true) hkeys'
      refine ⟨fun e => ?_, fun hnodup => hnd ?_, ?_, fun h => absurd (h s List.mem_cons_self) hs⟩
      · rw [hmem]
        simp only [List.mem_append, List.mem_cons, List.not_mem_nil, false_or, or_assoc]
      · exact hnodup.append (List.nodup_singleton s) (List.disjoint_singleton.mpr hs)
      · simp only [hch, true_or, true_iff]
        exact Or.inr ⟨s, List.mem_cons_self, hs⟩

variable (dst src : ResourceSummaryFunction)

/-- **Merging effects**: the union, without duplicates, and whether it is new. -/
theorem mergeEffects_spec :
    (∀ e, e ∈ (mergeEffects dst src).1 ↔ e ∈ dst ∨ e ∈ src) ∧
      (dst.Nodup → (mergeEffects dst src).1.Nodup) ∧
      ((mergeEffects dst src).2 = true ↔ ∃ e ∈ src, e ∉ dst) ∧
      ((∀ e ∈ src, e ∈ dst) → (mergeEffects dst src).1 = dst) := by
  have hspec := foldl_pushEffect_spec src (dst, dst.map ResourceSummaryEffect.key, false)
    (fun e => List.mem_map_of_injective ResourceSummaryEffect.key_injective)
  simpa [mergeEffects] using hspec

/-- Merging reports no change iff it makes none. -/
theorem mergeEffects_eq_self_iff :
    (mergeEffects dst src).2 = false ↔ (mergeEffects dst src).1 = dst := by
  obtain ⟨hmem, -, hch, hsame⟩ := mergeEffects_spec dst src
  rw [← Bool.not_eq_true, hch]
  constructor
  · exact fun h => hsame fun e he => by_contra fun hd => h ⟨e, he, hd⟩
  · rintro h ⟨e, hsrc, hd⟩
    exact hd (h ▸ (hmem e).mpr (Or.inr hsrc))

/-- Equality of functions without duplicate effects is equality of the effects. -/
theorem resourceSummaryFunctionEquals_iff {lhs rhs : ResourceSummaryFunction} (hl : lhs.Nodup)
    (hr : rhs.Nodup) :
    resourceSummaryFunctionEquals lhs rhs = true ↔ ∀ e, e ∈ lhs ↔ e ∈ rhs := by
  have hsort : sortedKeys lhs = sortedKeys rhs ↔
      (lhs.map ResourceSummaryEffect.key).Perm (rhs.map ResourceSummaryEffect.key) := by
    constructor
    · intro h
      have hperm := List.perm_insertionSort (· ≤ ·) (rhs.map ResourceSummaryEffect.key)
      rw [← sortedKeys, ← h] at hperm
      exact (List.perm_insertionSort (· ≤ ·) _).symm.trans hperm
    · intro h
      exact List.Perm.eq_of_pairwise' (List.pairwise_insertionSort (· ≤ ·) _)
        (List.pairwise_insertionSort (· ≤ ·) _)
        (((List.perm_insertionSort (· ≤ ·) _).trans h).trans
          (List.perm_insertionSort (· ≤ ·) _).symm)
  rw [resourceSummaryFunctionEquals, beq_iff_eq, hsort,
    List.map_perm_map_iff ResourceSummaryEffect.key_injective,
    List.perm_ext_iff_of_nodup hl hr]

end Effects

end StackAnalyzer.CrossTU
