import StackAnalyzer.Uninit.SummaryIndex

set_option relaxedAutoImplicit false
set_option autoImplicit false

/-!
# The laws of uninitialized-variable summaries

Merging canonical indexes is associative and idempotent, keeps them canonical, and reports a change
iff it makes one. It joins ranges and flags, but appends slots, and slots are compared in order; and
it passes over functions without effects, which are compared too. So two merges in different order
need not be equal.

## Main definitions

* `StackAnalyzer.Uninit.UninitializedMergeLaws` — what merging and comparing should satisfy.
* `StackAnalyzer.Uninit.OrderFree` — two indexes do not depend on the order of a merge.

## Main results

* `StackAnalyzer.Uninit.uninitializedMergeLaws_iff` — the laws hold iff indexes are of this kind.
-/

namespace StackAnalyzer.Uninit

open Maps CrossTU

/-- **The laws of merging and comparing**, for three indexes. -/
structure UninitializedMergeLaws (a b c : UninitializedSummaryIndex) : Prop where
  comm : uninitializedSummaryIndexEquals (mergeUninitializedSummaryIndex a b).1
    (mergeUninitializedSummaryIndex b a).1 = true
  assoc : uninitializedSummaryIndexEquals
    (mergeUninitializedSummaryIndex (mergeUninitializedSummaryIndex a b).1 c).1
    (mergeUninitializedSummaryIndex a (mergeUninitializedSummaryIndex b c).1).1 = true
  idem : uninitializedSummaryIndexEquals (mergeUninitializedSummaryIndex a a).1 a = true
  canonical : CanonicalIndex (mergeUninitializedSummaryIndex a b).1
  unchanged : (mergeUninitializedSummaryIndex a b).2 = false ↔
    uninitializedSummaryIndexEquals (mergeUninitializedSummaryIndex a b).1 a = true
  changedNames : computeChangedUninitializedFunctionNames a b = [] ↔
    uninitializedSummaryIndexEquals a b = true

/-- For each parameter of a function that both indexes define, one list of slots is a prefix of the
other, and a function without effects is defined by both indexes or by none. -/
structure OrderFree (a b : UninitializedSummaryIndex) : Prop where
  slots : ∀ name fa fb, a.find name = some fa → b.find name = some fb → ∀ i,
    (fa.getD i .empty).pointerSlotWrites <+: (fb.getD i .empty).pointerSlotWrites ∨
      (fb.getD i .empty).pointerSlotWrites <+: (fa.getD i .empty).pointerSlotWrites
  left : ∀ name, a.find name = some [] → b.find name ≠ none
  right : ∀ name, b.find name = some [] → a.find name ≠ none

/-! ## Functions -/

section Function

variable {fa fb fc : UninitializedSummaryFunction}

/-- The merge of two functions. -/
def joinFunctions (fa fb : UninitializedSummaryFunction) : UninitializedSummaryFunction :=
  (mergePublicFunctionSummary fa fb).1

theorem CanonicalFunction.join (ha : CanonicalFunction fa) (hb : CanonicalFunction fb) :
    CanonicalFunction (joinFunctions fa fb) := (mergePublicFunctionSummary_spec ha hb).1

theorem getD_join (ha : CanonicalFunction fa) (hb : CanonicalFunction fb) (i : ℕ) :
    (joinFunctions fa fb).getD i .empty =
      (mergePublicParamEffect (fa.getD i .empty) (fb.getD i .empty)).1 :=
  (mergePublicFunctionSummary_spec ha hb).2.1 i

theorem joinFunctions_self (ha : CanonicalFunction fa) : joinFunctions fa fa = fa := by
  apply (ha.join ha).ext ha
  intro i
  rw [getD_join ha ha, mergePublicParamEffect_self (ha.getD i)]

theorem joinFunctions_assoc (ha : CanonicalFunction fa) (hb : CanonicalFunction fb)
    (hc : CanonicalFunction fc) :
    joinFunctions (joinFunctions fa fb) fc = joinFunctions fa (joinFunctions fb fc) := by
  apply ((ha.join hb).join hc).ext (ha.join (hb.join hc))
  intro i
  rw [getD_join (ha.join hb) hc, getD_join ha hb, getD_join ha (hb.join hc), getD_join hb hc,
    mergePublicParamEffect_assoc (ha.getD i) (hb.getD i) (hc.getD i)]

/-- **Two functions can be merged in any order** iff one list of slots is a prefix of the other, for
each parameter. -/
theorem joinFunctions_comm_iff (ha : CanonicalFunction fa) (hb : CanonicalFunction fb) :
    joinFunctions fa fb = joinFunctions fb fa ↔ ∀ i,
      (fa.getD i .empty).pointerSlotWrites <+: (fb.getD i .empty).pointerSlotWrites ∨
        (fb.getD i .empty).pointerSlotWrites <+: (fa.getD i .empty).pointerSlotWrites := by
  constructor
  · intro h i
    rw [← mergePublicParamEffect_comm_iff (ha.getD i) (hb.getD i), ← getD_join ha hb, h,
      getD_join hb ha]
  · intro h
    apply (ha.join hb).ext (hb.join ha)
    intro i
    rw [getD_join ha hb, getD_join hb ha,
      (mergePublicParamEffect_comm_iff (ha.getD i) (hb.getD i)).mpr (h i)]

theorem canonicalFunction_nil : CanonicalFunction [] := ⟨by simp, by simp⟩

theorem joinFunctions_nil (ha : CanonicalFunction fa) : joinFunctions fa [] = fa := by
  apply (ha.join canonicalFunction_nil).ext ha
  intro i
  rw [getD_join ha canonicalFunction_nil, List.getD_nil, mergePublicParamEffect_empty]

theorem nil_of_joinFunctions (ha : CanonicalFunction fa) (hb : CanonicalFunction fb)
    (h : joinFunctions fa fb = []) : fa = [] := by
  have hassoc := joinFunctions_assoc ha ha hb
  rw [joinFunctions_self ha, h, joinFunctions_nil ha] at hassoc
  exact hassoc.symm

theorem nil_joinFunctions (hb : CanonicalFunction fb) : joinFunctions [] fb = fb := by
  rw [(joinFunctions_comm_iff canonicalFunction_nil hb).mpr fun i => Or.inl (by
    rw [List.getD_nil]
    exact List.nil_prefix), joinFunctions_nil hb]

end Function

/-! ## Entries -/

section Entry

variable {x y z : Option UninitializedSummaryFunction}

/-- The entries of canonical indexes. -/
def CanonicalEntry (x : Option UninitializedSummaryFunction) : Prop :=
  ∀ fn, x = some fn → CanonicalFunction fn

/-- The entry of a function after a merge. -/
def joinEntries : Option UninitializedSummaryFunction → Option UninitializedSummaryFunction →
    Option UninitializedSummaryFunction
  | x, none => x
  | none, some fb => if fb = [] then none else some fb
  | some fa, some fb => some (joinFunctions fa fb)

/-- What a merge makes of an entry, and whether it counts as a change. -/
theorem mergedValue_eq (hx : CanonicalEntry x) (hy : CanonicalEntry y) :
    EntryMap.mergedValue uninitializedJoining x y = joinEntries x y ∧
      (EntryMap.mergeChanges uninitializedJoining x y ↔ joinEntries x y ≠ x) := by
  cases y with
  | none => simp [EntryMap.mergedValue, EntryMap.mergeChanges, joinEntries]
  | some fb =>
    have hb := hy fb rfl
    have hcount := hb.effectiveCount
    have htrim := hb.trim_eq
    cases x with
    | none =>
      simp only [EntryMap.mergedValue, EntryMap.mergeChanges, joinEntries, uninitializedJoining,
        hcount, htrim, beq_iff_eq, List.length_eq_zero_iff]
      by_cases hnil : fb = []
      · subst hnil
        simp [hcount]
      · simp [hnil, hcount]
    | some fa =>
      have hch := (mergePublicFunctionSummary_spec (hx fa rfl) hb).2.2
      by_cases hnil : fb = []
      · have hsame := joinFunctions_nil (hx fa rfl)
        subst hnil
        simp [EntryMap.mergedValue, EntryMap.mergeChanges, joinEntries, uninitializedJoining, hcount,
          hsame]
      · simpa [EntryMap.mergedValue, EntryMap.mergeChanges, joinEntries, uninitializedJoining,
          hcount, hnil, joinFunctions] using hch

theorem CanonicalEntry.join (hx : CanonicalEntry x) (hy : CanonicalEntry y) :
    CanonicalEntry (joinEntries x y) := by
  intro fn hfn
  cases y with
  | none => exact hx fn (by cases x <;> exact hfn)
  | some fb =>
    cases x with
    | none =>
      by_cases hnil : fb = []
      · rw [joinEntries, if_pos hnil] at hfn
        exact absurd hfn (by simp)
      · rw [joinEntries, if_neg hnil] at hfn
        exact hy fn hfn
    | some fa => exact Option.some.inj hfn ▸ (hx fa rfl).join (hy fb rfl)

theorem joinEntries_none (x : Option UninitializedSummaryFunction) : joinEntries x none = x := by
  cases x <;> rfl

theorem joinEntries_self (hx : CanonicalEntry x) : joinEntries x x = x := by
  cases x with
  | none => rfl
  | some fa => exact congrArg some (joinFunctions_self (hx fa rfl))

theorem joinEntries_assoc (hx : CanonicalEntry x) (hy : CanonicalEntry y)
    (hz : CanonicalEntry z) :
    joinEntries (joinEntries x y) z = joinEntries x (joinEntries y z) := by
  cases z with
  | none => rw [joinEntries_none, joinEntries_none]
  | some fc =>
    have hc := hz fc rfl
    cases y with
    | none =>
      rw [joinEntries_none]
      by_cases hnil : fc = []
      · subst hnil
        cases x with
        | none => rfl
        | some fa => exact congrArg some (joinFunctions_nil (hx fa rfl))
      · rw [joinEntries, if_neg hnil]
    | some fb =>
      have hb := hy fb rfl
      cases x with
      | some fa => exact congrArg some (joinFunctions_assoc (hx fa rfl) hb hc)
      | none =>
        by_cases hnil : fb = []
        · subst hnil
          have hjoin := nil_joinFunctions hc
          simp only [joinEntries, if_true, hjoin]
        · have hjoin : joinFunctions fb fc ≠ [] := fun h => hnil (nil_of_joinFunctions hb hc h)
          simp only [joinEntries, if_neg hnil, if_neg hjoin]

/-- **Entries can be merged in any order** iff the functions can, and an entry without effects does
not stand alone. -/
theorem joinEntries_comm_iff (hx : CanonicalEntry x) (hy : CanonicalEntry y) :
    joinEntries x y = joinEntries y x ↔
      (∀ fa fb, x = some fa → y = some fb → joinFunctions fa fb = joinFunctions fb fa) ∧
        (x = some [] → y ≠ none) ∧ (y = some [] → x ≠ none) := by
  cases x with
  | none =>
    cases y with
    | none => simp
    | some fb => by_cases hnil : fb = [] <;> simp [joinEntries, hnil]
  | some fa =>
    cases y with
    | none => by_cases hnil : fa = [] <;> simp [joinEntries, hnil]
    | some fb => simp [joinEntries]

/-- The comparison of entries of canonical indexes decides equality. -/
theorem valueEq_iff (hx : CanonicalEntry x) (hy : CanonicalEntry y) :
    EntryMap.ValueEq publicFunctionSummaryEquals x y ↔ x = y := by
  cases x with
  | none => cases y <;> simp [EntryMap.ValueEq]
  | some fa =>
    cases y with
    | none => simp [EntryMap.ValueEq]
    | some fb =>
      rw [EntryMap.ValueEq, publicFunctionSummaryEquals_iff (hx fa rfl) (hy fb rfl),
        Option.some.injEq]

end Entry

/-! ## Indexes -/

section Index

variable {a b c : UninitializedSummaryIndex}

theorem canonicalIndex_iff : CanonicalIndex a ↔ ∀ name, CanonicalEntry (a.find name) :=
  ⟨fun h name fn hfn => h (name, fn) (EntryMap.find_eq_some_iff.mp hfn),
    fun h entry hentry => h entry.1 entry.2 (EntryMap.find_eq_some_iff.mpr hentry)⟩

/-- **A merge, function by function.** -/
theorem find_mergeUninitializedSummaryIndex (ha : CanonicalIndex a) (hb : CanonicalIndex b)
    (name : CppString) : (mergeUninitializedSummaryIndex a b).1.find name =
      joinEntries (a.find name) (b.find name) := by
  rw [mergeUninitializedSummaryIndex, EntryMap.find_merge]
  exact (mergedValue_eq (canonicalIndex_iff.mp ha name) (canonicalIndex_iff.mp hb name)).1

theorem CanonicalIndex.merge (ha : CanonicalIndex a) (hb : CanonicalIndex b) :
    CanonicalIndex (mergeUninitializedSummaryIndex a b).1 := by
  rw [canonicalIndex_iff]
  intro name
  rw [find_mergeUninitializedSummaryIndex ha hb]
  exact (canonicalIndex_iff.mp ha name).join (canonicalIndex_iff.mp hb name)

/-- Canonical indexes are equal iff they define the same functions with the same effects. -/
theorem uninitializedSummaryIndexEquals_iff (ha : CanonicalIndex a) (hb : CanonicalIndex b) :
    uninitializedSummaryIndexEquals a b = true ↔ ∀ name, a.find name = b.find name := by
  rw [uninitializedSummaryIndexEquals, EntryMap.equalsBy_iff]
  exact forall_congr' fun name =>
    valueEq_iff (canonicalIndex_iff.mp ha name) (canonicalIndex_iff.mp hb name)

/-- A merge reports no change iff it makes none. -/
theorem merge_unchanged_iff (ha : CanonicalIndex a) (hb : CanonicalIndex b) :
    (mergeUninitializedSummaryIndex a b).2 = false ↔
      uninitializedSummaryIndexEquals (mergeUninitializedSummaryIndex a b).1 a = true := by
  rw [uninitializedSummaryIndexEquals_iff (ha.merge hb) ha, ← Bool.not_eq_true]
  simp only [find_mergeUninitializedSummaryIndex ha hb]
  rw [mergeUninitializedSummaryIndex, EntryMap.merge_changed_iff, not_exists]
  refine forall_congr' fun name => ?_
  rw [(mergedValue_eq (canonicalIndex_iff.mp ha name) (canonicalIndex_iff.mp hb name)).2, not_not]

/-- No name has changed iff the indexes are equal. -/
theorem changedUninitializedNames_eq_nil_iff (ha : CanonicalIndex a) (hb : CanonicalIndex b) :
    computeChangedUninitializedFunctionNames a b = [] ↔
      uninitializedSummaryIndexEquals a b = true := by
  rw [uninitializedSummaryIndexEquals_iff ha hb, List.eq_nil_iff_forall_not_mem]
  refine forall_congr' fun name => ?_
  rw [computeChangedUninitializedFunctionNames, EntryMap.mem_changedKeys, not_not,
    valueEq_iff (canonicalIndex_iff.mp hb name) (canonicalIndex_iff.mp ha name), eq_comm]

/-- **Two indexes can be merged in any order** iff neither slots nor entries without effects depend
on it. -/
theorem merge_comm_iff (ha : CanonicalIndex a) (hb : CanonicalIndex b) :
    uninitializedSummaryIndexEquals (mergeUninitializedSummaryIndex a b).1
      (mergeUninitializedSummaryIndex b a).1 = true ↔ OrderFree a b := by
  rw [uninitializedSummaryIndexEquals_iff (ha.merge hb) (hb.merge ha)]
  have hentry := fun name =>
    joinEntries_comm_iff (canonicalIndex_iff.mp ha name) (canonicalIndex_iff.mp hb name)
  simp only [find_mergeUninitializedSummaryIndex ha hb, find_mergeUninitializedSummaryIndex hb ha,
    hentry]
  have hcomm : ∀ {name fa fb}, a.find name = some fa → b.find name = some fb →
      (joinFunctions fa fb = joinFunctions fb fa ↔ ∀ i,
        (fa.getD i .empty).pointerSlotWrites <+: (fb.getD i .empty).pointerSlotWrites ∨
          (fb.getD i .empty).pointerSlotWrites <+: (fa.getD i .empty).pointerSlotWrites) :=
    fun {name fa fb} hfa hfb =>
      joinFunctions_comm_iff (canonicalIndex_iff.mp ha name fa hfa)
        (canonicalIndex_iff.mp hb name fb hfb)
  constructor
  · intro h
    exact ⟨fun name fa fb hfa hfb => (hcomm hfa hfb).mp ((h name).1 fa fb hfa hfb),
      fun name => (h name).2.1, fun name => (h name).2.2⟩
  · intro h name
    exact ⟨fun fa fb hfa hfb => (hcomm hfa hfb).mpr (h.slots name fa fb hfa hfb),
      h.left name, h.right name⟩

end Index

/-- **The laws of uninitialized-variable summaries** hold of canonical indexes iff, for each
parameter of a function that both of the first two define, one list of slots is a prefix of the
other, and functions without effects are defined by both or by none.

**Proof sketch.** Canonical indexes are equal iff each function has the same effects, in the same
order. Ranges are joined as sets, and slots behind those that are there, so everything holds function
by function, and slots alone depend on the order of a merge. -/
theorem uninitializedMergeLaws_iff (a b c : UninitializedSummaryIndex) (ha : CanonicalIndex a)
    (hb : CanonicalIndex b) (hc : CanonicalIndex c) :
    UninitializedMergeLaws a b c ↔ OrderFree a b := by
  refine ⟨fun h => (merge_comm_iff ha hb).mp h.comm, fun h => ⟨(merge_comm_iff ha hb).mpr h, ?_, ?_,
    ha.merge hb, merge_unchanged_iff ha hb, changedUninitializedNames_eq_nil_iff ha hb⟩⟩
  · rw [uninitializedSummaryIndexEquals_iff ((ha.merge hb).merge hc) (ha.merge (hb.merge hc))]
    intro name
    rw [find_mergeUninitializedSummaryIndex (ha.merge hb) hc,
      find_mergeUninitializedSummaryIndex ha hb,
      find_mergeUninitializedSummaryIndex ha (hb.merge hc),
      find_mergeUninitializedSummaryIndex hb hc]
    exact joinEntries_assoc (canonicalIndex_iff.mp ha name) (canonicalIndex_iff.mp hb name)
      (canonicalIndex_iff.mp hc name)
  · rw [uninitializedSummaryIndexEquals_iff (ha.merge ha) ha]
    intro name
    rw [find_mergeUninitializedSummaryIndex ha ha]
    exact joinEntries_self (canonicalIndex_iff.mp ha name)

/-- An index with a function `f` that writes slots of its first parameter. -/
def slotIndex (offset : ℕ) (offsets : List ℕ) : UninitializedSummaryIndex where
  entries := [(['f'], [⟨[], [], (offset :: offsets).map fun o => ⟨o, 8⟩, false, false⟩])]
  nodup := List.nodup_singleton ['f']

theorem canonicalIndex_slotIndex {offset : ℕ} {offsets : List ℕ} (h : (offset :: offsets).Nodup) :
    CanonicalIndex (slotIndex offset offsets) := by
  intro entry hentry
  rw [List.mem_singleton.mp hentry]
  have hslots : ((offset :: offsets).map fun o => (⟨o, 8⟩ : PointerSlotWrite)).Nodup :=
    h.map fun o o' ho => congrArg PointerSlotWrite.slotOffset ho
  refine ⟨fun effect heffect => ?_, fun effect heffect => ?_⟩
  · rw [List.mem_singleton.mp heffect]
    exact ⟨.nil, .nil, hslots⟩
  · rw [← Option.some.inj heffect]
    rfl

theorem uninitializedMergeLaws_slotIndex :
    UninitializedMergeLaws (slotIndex 0 []) (slotIndex 0 [8]) (slotIndex 16 []) := by
  refine (uninitializedMergeLaws_iff _ _ _ (canonicalIndex_slotIndex (by decide))
    (canonicalIndex_slotIndex (by decide)) (canonicalIndex_slotIndex (by decide))).mpr ?_
  have hfind : ∀ offset offsets name fn, (slotIndex offset offsets).find name = some fn →
      name = ['f'] ∧ fn = [⟨[], [], (offset :: offsets).map fun o => ⟨o, 8⟩, false, false⟩] := by
    intro offset offsets name fn hfn
    exact Prod.mk.inj (List.mem_singleton.mp (EntryMap.find_eq_some_iff.mp hfn))
  refine ⟨fun name fa fb hfa hfb i => Or.inl ?_, fun name h => ?_, fun name h => ?_⟩
  · rw [(hfind _ _ _ _ hfa).2, (hfind _ _ _ _ hfb).2]
    cases i with
    | zero => exact ⟨[⟨8, 8⟩], rfl⟩
    | succ i => exact List.nil_prefix
  · exact absurd (hfind _ _ _ _ h).2 (by simp)
  · exact absurd (hfind _ _ _ _ h).2 (by simp)

/-- **The order of slots**: two modules that write different slots of the same parameter. -/
theorem not_uninitializedMergeLaws :
    CanonicalIndex (slotIndex 0 []) ∧ CanonicalIndex (slotIndex 8 []) ∧
      uninitializedSummaryIndexEquals
        (mergeUninitializedSummaryIndex (slotIndex 0 []) (slotIndex 8 [])).1
        (mergeUninitializedSummaryIndex (slotIndex 8 []) (slotIndex 0 [])).1 = false :=
  ⟨canonicalIndex_slotIndex (by decide), canonicalIndex_slotIndex (by decide), by decide⟩

end StackAnalyzer.Uninit
