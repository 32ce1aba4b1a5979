import StackAnalyzer.Maps.EntryMap

set_option relaxedAutoImplicit false
set_option autoImplicit false

/-!
# Keeping the best value of each key

A map is filled from a list of entries: a new key is added, and the value of a known one is replaced
by a value that is preferred to it. If the preference is a strict total order, then each key keeps
its best value, so the order of the entries does not matter.

## Main definitions

* `Maps.EntryMap.keep`, `Maps.EntryMap.keepAll` — an entry, and a list of entries.
* `Maps.IsBest` — no value of the key is preferred to this one.

## Main results

* `Maps.find_keepAll_iff` — each key has its best value.
* `Maps.find_keepAll_perm` — the order of the entries does not matter.
-/

namespace Maps

variable {K V : Type*} [DecidableEq K] (prefers : V → V → Bool)

/-- Add an entry with a new key, or replace the value by one that is preferred to it. -/
def EntryMap.keep (m : EntryMap K V) (e : K × V) : EntryMap K V :=
  match h : m.find e.1 with
  | none => m.add e.1 e.2 h
  | some v => if prefers v e.2 then m.set e.1 e.2 else m

/-- Keep the best values of the entries. -/
def EntryMap.keepAll (m : EntryMap K V) (es : List (K × V)) : EntryMap K V :=
  es.foldl (EntryMap.keep prefers) m

omit [DecidableEq K] in
/-- **The best value of a key**: an entry has it, and none has one that is preferred to it. -/
def IsBest (es : List (K × V)) (k : K) (v : V) : Prop :=
  (k, v) ∈ es ∧ ∀ v', (k, v') ∈ es → prefers v v' = false

/-- What a key is mapped to after an entry. -/
theorem find_keep (m : EntryMap K V) (e : K × V) (k : K) : (m.keep prefers e).find k =
    if e.1 = k then some (((m.find k).filter fun v => !prefers v e.2).getD e.2) else m.find k := by
  unfold EntryMap.keep
  by_cases hk : e.1 = k
  · subst hk
    rw [if_pos rfl]
    split
    · rename_i h
      rw [EntryMap.find_add, if_pos rfl, h]
      rfl
    · rename_i v h
      split_ifs with hprefers
      · rw [EntryMap.find_set, if_pos rfl, h, Option.filter_some, if_neg (by simp [hprefers])]
        rfl
      · rw [h, Option.filter_some, if_pos (by simp [hprefers])]
        rfl
  · rw [if_neg hk]
    split
    · rename_i h
      rw [EntryMap.find_add, if_neg hk]
    · split_ifs
      · rw [EntryMap.find_set, if_neg hk]
      · rfl

section Order

variable [hprefers : IsStrictTotalOrder V fun v v' => prefers v v' = true]

include hprefers

omit [DecidableEq K] in
/-- There is only one best value. -/
theorem IsBest.unique {es : List (K × V)} {k : K} {v v' : V} (h : IsBest prefers es k v)
    (h' : IsBest prefers es k v') : v = v' := by
  have hnot : ¬prefers v v' = true := by
    rw [h.2 v' h'.1]
    exact Bool.false_ne_true
  have hnot' : ¬prefers v' v = true := by
    rw [h'.2 v h.1]
    exact Bool.false_ne_true
  exact hprefers.trichotomous v v' hnot hnot'

/-- What a key is mapped to is its best value, and a key without a value has no entry.

**Proof sketch.** By induction on the entries from the last one on. A value that replaces the best
one so far is preferred to all that the best one is at least as good as, by transitivity. -/
theorem find_keepAll (es : List (K × V)) (k : K) :
    (∀ v, (EntryMap.empty.keepAll prefers es).find k = some v → IsBest prefers es k v) ∧
      ((EntryMap.empty.keepAll prefers es).find k = none → ∀ v, (k, v) ∉ es) := by
  induction es using List.reverseRecOn with
  | nil => exact ⟨fun v h => (Option.some_ne_none v h.symm).elim, fun _ v => List.not_mem_nil⟩
  | append_singleton es e ih =>
    have hstep : EntryMap.empty.keepAll prefers (es ++ [e]) =
        (EntryMap.empty.keepAll prefers es).keep prefers e := by
      unfold EntryMap.keepAll
      rw [List.foldl_append]
      rfl
    rw [hstep, find_keep]
    obtain ⟨hbest, hnone⟩ := ih
    have hirrefl : ∀ v, prefers v v = false := fun v =>
      Bool.eq_false_iff.mpr (hprefers.irrefl v)
    by_cases hk : e.1 = k
    · subst hk
      rw [if_pos rfl]
      refine ⟨fun v hv => ?_, fun h => by cases h⟩
      have hmem : ∀ v', (e.1, v') ∈ es ++ [e] ↔ (e.1, v') ∈ es ∨ v' = e.2 := by
        intro v'
        rw [List.mem_append, List.mem_singleton, Prod.ext_iff]
        simp
      cases hfind : (EntryMap.empty.keepAll prefers es).find e.1 with
      | none =>
        rw [hfind] at hv
        obtain rfl : e.2 = v := Option.some.inj hv
        refine ⟨(hmem e.2).mpr (Or.inr rfl), fun v' hv' => ?_⟩
        rcases (hmem v').mp hv' with hv' | rfl
        · exact absurd hv' (hnone hfind v')
        · exact hirrefl e.2
      | some best =>
        obtain ⟨hbestMem, hbestAll⟩ := hbest best hfind
        rw [hfind] at hv
        cases hcmp : prefers best e.2 with
        | true =>
          simp only [Option.filter_some, hcmp, Bool.not_true, Bool.false_eq_true, if_false,
            Option.getD_none, Option.some.injEq] at hv
          subst hv
          refine ⟨(hmem e.2).mpr (Or.inr rfl), fun v' hv' => ?_⟩
          rcases (hmem v').mp hv' with hv' | rfl
          · apply Bool.eq_false_iff.mpr
            intro hcmp'
            have htrans : prefers best v' = true := hprefers.trans best e.2 v' hcmp hcmp'
            rw [hbestAll v' hv'] at htrans
            cases htrans
          · exact hirrefl e.2
        | false =>
          simp only [Option.filter_some, hcmp, Bool.not_false, if_true, Option.getD_some,
            Option.some.injEq] at hv
          subst hv
          refine ⟨(hmem best).mpr (Or.inl hbestMem), fun v' hv' => ?_⟩
          rcases (hmem v').mp hv' with hv' | rfl
          · exact hbestAll v' hv'
          · exact hcmp
    · rw [if_neg hk]
      have hmem : ∀ v', (k, v') ∈ es ++ [e] ↔ (k, v') ∈ es := by
        intro v'
        rw [List.mem_append, List.mem_singleton, or_iff_left]
        rintro rfl
        exact hk rfl
      refine ⟨fun v hv => ?_, fun h v => ?_⟩
      · obtain ⟨hvMem, hvAll⟩ := hbest v hv
        exact ⟨(hmem v).mpr hvMem, fun v' hv' => hvAll v' ((hmem v').mp hv')⟩
      · rw [hmem]
        exact hnone h v

/-- **Each key has its best value.** -/
theorem find_keepAll_iff (es : List (K × V)) (k : K) (v : V) :
    (EntryMap.empty.keepAll prefers es).find k = some v ↔ IsBest prefers es k v := by
  obtain ⟨hbest, hnone⟩ := find_keepAll prefers es k
  refine ⟨hbest v, fun h => ?_⟩
  cases hfind : (EntryMap.empty.keepAll prefers es).find k with
  | none => exact absurd h.1 (hnone hfind v)
  | some v' => rw [(hbest v' hfind).unique prefers h]

/-- **The order of the entries does not matter.** -/
theorem find_keepAll_perm {es es' : List (K × V)} (h : es.Perm es') (k : K) :
    (EntryMap.empty.keepAll prefers es).find k = (EntryMap.empty.keepAll prefers es').find k := by
  apply Option.ext
  intro v
  simp only [find_keepAll_iff, IsBest, h.mem_iff]

end Order

end Maps
