import StackAnalyzer.CrossTU.ResourceIndex
import StackAnalyzer.Ranges.RangeList

set_option relaxedAutoImplicit false
set_option autoImplicit false

/-!
# Indexes of uninitialized-variable summaries

What the functions of a program read before they write it and what they write, for each pointer
parameter: byte ranges, and the slots of out pointers. The summaries of modules are merged into an
index, and indexes are compared.

## Main definitions

* `StackAnalyzer.Uninit.ParamEffect`, `StackAnalyzer.Uninit.UninitializedSummaryIndex`.
* `StackAnalyzer.Uninit.mergeUninitializedSummaryIndex`,
  `StackAnalyzer.Uninit.uninitializedSummaryIndexEquals`,
  `StackAnalyzer.Uninit.computeChangedUninitializedFunctionNames` — merging and comparing.
* `StackAnalyzer.Uninit.ParamEffect.Canonical`, `StackAnalyzer.Uninit.CanonicalFunction`,
  `StackAnalyzer.Uninit.CanonicalIndex` — ranges in canonical form, no slot twice, no trailing
  parameter without effects.

## Main results

* `StackAnalyzer.Uninit.mergePublicParamEffect_spec` — merging the effects on a parameter.
* `StackAnalyzer.Uninit.mergePublicFunctionSummary_spec` — merging functions, parameter by parameter.
-/

namespace StackAnalyzer.Uninit

open Ranges Maps CrossTU

/-- `UninitializedSummaryPointerSlotWrite`. -/
structure PointerSlotWrite where
  slotOffset : ℕ
  writeSizeBytes : ℕ
  deriving DecidableEq

/-- `UninitializedSummaryParamEffect`. -/
@[ext] structure ParamEffect where
  readBeforeWriteRanges : List Range
  writeRanges : List Range
  pointerSlotWrites : List PointerSlotWrite
  hasUnknownReadBeforeWrite : Bool
  hasUnknownWrite : Bool
  deriving DecidableEq

/-- The value that `resize` fills up with. -/
def ParamEffect.empty : ParamEffect := ⟨[], [], [], false, false⟩

/-- `UninitializedSummaryFunction`: its `paramEffects`. -/
abbrev UninitializedSummaryFunction := List ParamEffect

/-- `UninitializedSummaryIndex`. -/
abbrev UninitializedSummaryIndex := EntryMap CppString UninitializedSummaryFunction

/-! ## Merging -/

/-- The loop of `addPublicRange` that absorbs the ranges which a range meets: the range, the ranges
behind it, and whether there were any. -/
def absorbNext (it : Range) : List Range → Range × List Range × Bool
  | [] => (it, [], false)
  | next :: ranges =>
    if next.begin ≤ it.stop then
      let r := absorbNext ⟨it.begin, max it.stop next.stop⟩ ranges
      (r.1, r.2.1, true)
    else (it, next :: ranges, false)

/-- `addPublicRange` for a range that is not empty. -/
def insertPublicRange (begin stop : ℕ) : List Range → List Range × Bool
  | [] => ([⟨begin, stop⟩], true)
  | it :: ranges =>
    if it.stop < begin then
      let r := insertPublicRange begin stop ranges
      (it :: r.1, r.2)
    else if stop < it.begin then (⟨begin, stop⟩ :: it :: ranges, true)
    else
      let grown : Range := ⟨min it.begin begin, max it.stop stop⟩
      let r := absorbNext grown ranges
      (r.1 :: r.2.1, grown.begin != it.begin || grown.stop != it.stop || r.2.2)

/-- `addPublicRange`: the ranges, and whether they have changed. -/
def addPublicRange (ranges : List Range) (begin stop : ℕ) : List Range × Bool :=
  if begin ≥ stop then (ranges, false) else insertPublicRange begin stop ranges

/-- Add a range, and record whether that changed the ranges. -/
def pushPublicRange (r : List Range × Bool) (range : Range) : List Range × Bool :=
  ((addPublicRange r.1 range.begin range.stop).1,
    r.2 || (addPublicRange r.1 range.begin range.stop).2)

/-- Add ranges, in order. -/
def addPublicRanges (dst src : List Range) : List Range × Bool :=
  src.foldl pushPublicRange (dst, false)

/-- Append the writes that are not there, in order. -/
def addSlotWrites (dst src : List PointerSlotWrite) : List PointerSlotWrite × Bool :=
  src.foldl (fun r slotWrite => if slotWrite ∈ r.1 then r else (r.1 ++ [slotWrite], true))
    (dst, false)

/-- `mergePublicParamEffect`: the new `dst`, and `changed`. -/
def mergePublicParamEffect (dst src : ParamEffect) : ParamEffect × Bool :=
  let reads := addPublicRanges dst.readBeforeWriteRanges src.readBeforeWriteRanges
  let writes := addPublicRanges dst.writeRanges src.writeRanges
  let slots := addSlotWrites dst.pointerSlotWrites src.pointerSlotWrites
  ({  readBeforeWriteRanges := reads.1
      writeRanges := writes.1
      pointerSlotWrites := slots.1
      hasUnknownReadBeforeWrite := dst.hasUnknownReadBeforeWrite || src.hasUnknownReadBeforeWrite
      hasUnknownWrite := dst.hasUnknownWrite || src.hasUnknownWrite },
    reads.2 || writes.2 || slots.2 ||
      (src.hasUnknownReadBeforeWrite && !dst.hasUnknownReadBeforeWrite) ||
        (src.hasUnknownWrite && !dst.hasUnknownWrite))

/-- `isEmptyPublicParamEffect`. -/
def isEmptyPublicParamEffect (effect : ParamEffect) : Bool :=
  !effect.hasUnknownReadBeforeWrite && !effect.hasUnknownWrite &&
    effect.readBeforeWriteRanges.isEmpty && effect.writeRanges.isEmpty &&
      effect.pointerSlotWrites.isEmpty

/-- The loop of `effectivePublicParamEffectCount`, from a size down. -/
def dropEmptyTail (fn : UninitializedSummaryFunction) : ℕ → ℕ
  | 0 => 0
  | size + 1 => if isEmptyPublicParamEffect (fn.getD size .empty) then dropEmptyTail fn size else size + 1

/-- `effectivePublicParamEffectCount`. -/
def effectivePublicParamEffectCount (fn : UninitializedSummaryFunction) : ℕ :=
  dropEmptyTail fn fn.length

/-- `trimTrailingEmptyPublicParamEffects`. -/
def trimTrailingEmptyPublicParamEffects (fn : UninitializedSummaryFunction) :
    UninitializedSummaryFunction :=
  fn.take (effectivePublicParamEffectCount fn)

/-- Merge the effects on the parameters in order, while there are some. -/
def mergeParamEffects :
    UninitializedSummaryFunction → UninitializedSummaryFunction →
      UninitializedSummaryFunction × Bool
  | d :: dst, s :: src =>
    let m := mergePublicParamEffect d s
    let r := mergeParamEffects dst src
    (m.1 :: r.1, m.2 || r.2)
  | dst, _ => (dst, false)

/-- `mergePublicFunctionSummary`: resize `dst`, merge the effects on the parameters, and trim. -/
def mergePublicFunctionSummary (dst src : UninitializedSummaryFunction) :
    UninitializedSummaryFunction × Bool :=
  let srcSize := effectivePublicParamEffectCount src
  let resized := dst ++ List.replicate (srcSize - dst.length) .empty
  let merged := mergeParamEffects resized (src.take srcSize)
  let trimmed := trimTrailingEmptyPublicParamEffects merged.1
  (trimmed, decide (dst.length < srcSize) || merged.2 || trimmed.length != merged.1.length)

/-- Entries without effects are passed over. -/
def uninitializedJoining : Joining UninitializedSummaryFunction where
  skip fn := effectivePublicParamEffectCount fn == 0
  normalize := trimTrailingEmptyPublicParamEffects
  join := mergePublicFunctionSummary

/-- `mergeUninitializedSummaryIndex`: the new `dst`, and the result. -/
def mergeUninitializedSummaryIndex (dst src : UninitializedSummaryIndex) :
    UninitializedSummaryIndex × Bool :=
  EntryMap.merge uninitializedJoining dst src

/-! ## Comparing -/

/-- `publicParamEffectEquals`: ranges and slots are compared in order. -/
def publicParamEffectEquals (lhs rhs : ParamEffect) : Bool :=
  lhs.hasUnknownReadBeforeWrite == rhs.hasUnknownReadBeforeWrite &&
    lhs.hasUnknownWrite == rhs.hasUnknownWrite &&
      lhs.readBeforeWriteRanges == rhs.readBeforeWriteRanges &&
        lhs.writeRanges == rhs.writeRanges && lhs.pointerSlotWrites == rhs.pointerSlotWrites

/-- `publicFunctionSummaryEquals`. -/
def publicFunctionSummaryEquals (lhs rhs : UninitializedSummaryFunction) : Bool :=
  effectivePublicParamEffectCount lhs == effectivePublicParamEffectCount rhs &&
    (List.range (effectivePublicParamEffectCount lhs)).all fun i =>
      publicParamEffectEquals (lhs.getD i .empty) (rhs.getD i .empty)

/-- `uninitializedSummaryIndexEquals`. -/
def uninitializedSummaryIndexEquals (lhs rhs : UninitializedSummaryIndex) : Bool :=
  EntryMap.equalsBy publicFunctionSummaryEquals lhs rhs

/-- `computeChangedUninitializedFunctionNames`. -/
def computeChangedUninitializedFunctionNames (prev next : UninitializedSummaryIndex) :
    List CppString :=
  EntryMap.changedKeys publicFunctionSummaryEquals prev next

/-! ## Canonical form -/

/-- Canonical ranges, and no slot twice. -/
structure ParamEffect.Canonical (effect : ParamEffect) : Prop where
  reads : Ranges.Canonical effect.readBeforeWriteRanges
  writes : Ranges.Canonical effect.writeRanges
  slots : effect.pointerSlotWrites.Nodup

/-- Canonical effects, and no trailing parameter without effects. -/
structure CanonicalFunction (fn : UninitializedSummaryFunction) : Prop where
  effects : ∀ effect ∈ fn, effect.Canonical
  trimmed : ∀ effect, fn.getLast? = some effect → isEmptyPublicParamEffect effect = false

/-- Every function is canonical. -/
def CanonicalIndex (index : UninitializedSummaryIndex) : Prop :=
  ∀ entry ∈ index.entries, CanonicalFunction entry.2

/-! ## Effects on a parameter -/

section Ranges

variable {ranges : List Range}

/-- Absorbing the ranges that a range meets. -/
theorem absorbNext_spec (it : Range) (ranges : List Range) :
    (absorbNext it ranges).1 :: (absorbNext it ranges).2.1 = absorb it ranges ∧
      (absorbNext it ranges).1.begin = it.begin ∧ it.stop ≤ (absorbNext it ranges).1.stop := by
  induction ranges generalizing it with
  | nil => exact ⟨rfl, rfl, le_rfl⟩
  | cons next ranges ih =>
    unfold absorbNext absorb
    split_ifs with hmeet
    · obtain ⟨heq, hbegin, hstop⟩ := ih ⟨it.begin, max it.stop next.stop⟩
      exact ⟨heq, hbegin, (le_max_left _ _).trans hstop⟩
    · exact ⟨rfl, rfl, le_rfl⟩

/-- A range in front of others absorbs none. -/
theorem absorbNext_of_canonical {it : Range} (h : Canonical (it :: ranges)) :
    absorbNext it ranges = (it, ranges, false) := by
  cases ranges with
  | nil => rfl
  | cons next ranges => exact if_neg (not_le.mpr (h.stop_lt next List.mem_cons_self))

/-- **Adding a range** to a canonical list, and whether that changes it. -/
theorem addPublicRange_spec (h : Canonical ranges) (begin stop : ℕ) :
    (addPublicRange ranges begin stop).1 = add ranges begin stop ∧
      ((addPublicRange ranges begin stop).2 = true ↔ add ranges begin stop ≠ ranges) := by
  unfold addPublicRange add
  split_ifs with hle
  · simp
  · induction ranges with
    | nil => exact ⟨rfl, fun _ => List.cons_ne_nil _ _, fun _ => rfl⟩
    | cons it ranges ih =>
      obtain ⟨heq, hch⟩ := ih h.tail
      unfold insertPublicRange Ranges.insert
      split_ifs with hbefore hbehind
      · exact ⟨congrArg (it :: ·) heq, hch.trans (by simp)⟩
      · refine ⟨rfl, fun _ heq => ?_, fun _ => rfl⟩
        have hlen := congrArg List.length heq
        simp at hlen
      · obtain ⟨habs, hbegin, hstop⟩ :=
          absorbNext_spec ⟨min it.begin begin, max it.stop stop⟩ ranges
        refine ⟨habs, ?_⟩
        simp only
        rw [← habs]
        by_cases hsame : min it.begin begin = it.begin ∧ max it.stop stop = it.stop
        · rw [hsame.1, hsame.2, absorbNext_of_canonical h]
          simp
        · have hgrown : (min it.begin begin != it.begin || max it.stop stop != it.stop) = true := by
            simpa [imp_iff_not_or] using hsame
          rw [hgrown, Bool.true_or]
          refine ⟨fun _ heq => hsame ?_, fun _ => rfl⟩
          -- the first range has grown
          have hhead := (List.cons.inj heq).1
          rw [hhead] at hbegin hstop
          exact ⟨hbegin.symm, le_antisymm hstop (le_max_left _ _)⟩

/-- Adding ranges to those of a loop. -/
theorem foldl_pushPublicRange_spec (src : List Range) (r : List Range × Bool)
    (hr : Canonical r.1) :
    Canonical (src.foldl pushPublicRange r).1 ∧
      (∀ n, n ∈ carrier (src.foldl pushPublicRange r).1 ↔ n ∈ carrier r.1 ∨ n ∈ carrier src) ∧
        ((src.foldl pushPublicRange r).2 = true ↔
          r.2 = true ∨ (src.foldl pushPublicRange r).1 ≠ r.1) := by
  induction src generalizing r with
  | nil => exact ⟨hr, by simp, by simp⟩
  | cons s src ih =>
    obtain ⟨hadd, hch⟩ := addPublicRange_spec hr s.begin s.stop
    have hfst : (pushPublicRange r s).1 = add r.1 s.begin s.stop := hadd
    have hstep : Canonical (pushPublicRange r s).1 := hfst ▸ hr.add s.begin s.stop
    have hmem : ∀ n, n ∈ carrier (pushPublicRange r s).1 ↔ s.Contains n ∨ n ∈ carrier r.1 :=
      fun n => hfst ▸ mem_carrier_add hr s.begin s.stop n
    obtain ⟨hcan, hcar, hchanged⟩ := ih (pushPublicRange r s) hstep
    rw [List.foldl_cons]
    refine ⟨hcan, fun n => ?_, ?_⟩
    · rw [hcar, hmem, mem_carrier_cons, or_assoc, or_left_comm]
    · have hsnd : (pushPublicRange r s).2 = true ↔ r.2 = true ∨ (pushPublicRange r s).1 ≠ r.1 := by
        rw [pushPublicRange, Bool.or_eq_true, hch, hadd]
      rw [hchanged, hsnd, or_assoc]
      refine or_congr_right ⟨fun hne heq => ?_, fun hne => ?_⟩
      · -- what has been added is not lost
        have hsame : (pushPublicRange r s).1 = r.1 := by
          refine hstep.ext hr (Set.ext fun n => ⟨fun hn => ?_, fun hn => ?_⟩)
          · rw [← heq]
            exact (hcar n).mpr (Or.inl hn)
          · exact (hmem n).mpr (Or.inr hn)
        rcases hne with hne | hne
        · exact hne hsame
        · exact hne (heq.trans hsame.symm)
      · by_contra hnot
        rw [not_or, not_not, not_not] at hnot
        exact hne (hnot.2.trans hnot.1)

/-- **Adding ranges** joins the sets, and reports whether that is more. -/
theorem addPublicRanges_spec {dst : List Range} (hdst : Canonical dst) (src : List Range) :
    Canonical (addPublicRanges dst src).1 ∧
      (∀ n, n ∈ carrier (addPublicRanges dst src).1 ↔ n ∈ carrier dst ∨ n ∈ carrier src) ∧
        ((addPublicRanges dst src).2 = true ↔ (addPublicRanges dst src).1 ≠ dst) := by
  obtain ⟨hcan, hcar, hch⟩ := foldl_pushPublicRange_spec src (dst, false) hdst
  refine ⟨hcan, hcar, hch.trans ?_⟩
  simp only [Bool.false_eq_true, false_or]
  rfl

theorem addPublicRanges_self {a : List Range} (ha : Canonical a) :
    (addPublicRanges a a).1 = a := by
  obtain ⟨hcan, hcar, -⟩ := addPublicRanges_spec ha a
  exact hcan.ext ha (Set.ext fun n => (hcar n).trans or_self_iff)

theorem addPublicRanges_comm {a b : List Range} (ha : Canonical a) (hb : Canonical b) :
    (addPublicRanges a b).1 = (addPublicRanges b a).1 := by
  obtain ⟨hcan, hcar, -⟩ := addPublicRanges_spec ha b
  obtain ⟨hcan', hcar', -⟩ := addPublicRanges_spec hb a
  exact hcan.ext hcan' (Set.ext fun n => by rw [hcar, hcar', or_comm])

theorem addPublicRanges_assoc {a b : List Range} (ha : Canonical a) (hb : Canonical b)
    (c : List Range) : (addPublicRanges (addPublicRanges a b).1 c).1 =
      (addPublicRanges a (addPublicRanges b c).1).1 := by
  obtain ⟨hab, hcarab, -⟩ := addPublicRanges_spec ha b
  obtain ⟨habc, hcarabc, -⟩ := addPublicRanges_spec hab c
  obtain ⟨-, hcarbc, -⟩ := addPublicRanges_spec hb c
  obtain ⟨habc', hcarabc', -⟩ := addPublicRanges_spec ha (addPublicRanges b c).1
  exact habc.ext habc' (Set.ext fun n => by rw [hcarabc, hcarab, hcarabc', hcarbc, or_assoc])

end Ranges

section Slots

/-- **Appending slots**: those that are new, in order. -/
theorem addSlotWrites_spec (dst : List PointerSlotWrite) {src : List PointerSlotWrite}
    (hsrc : src.Nodup) :
    (addSlotWrites dst src).1 = dst ++ src.filter (· ∉ dst) ∧
      ((addSlotWrites dst src).2 = true ↔ (addSlotWrites dst src).1 ≠ dst) := by
  have hfold : ∀ (src : List PointerSlotWrite) (r : List PointerSlotWrite × Bool), src.Nodup →
      let t := src.foldl (fun r slotWrite =>
        if slotWrite ∈ r.1 then r else (r.1 ++ [slotWrite], true)) r
      t.1 = r.1 ++ src.filter (· ∉ r.1) ∧
        (t.2 = true ↔ r.2 = true ∨ src.filter (· ∉ r.1) ≠ []) := by
    intro src
    induction src with
    | nil => exact fun r _ => ⟨by simp, by simp⟩
    | cons s src ih =>
      intro r hsrc
      obtain ⟨hs, hsrc⟩ := List.nodup_cons.mp hsrc
      simp only [List.foldl_cons]
      by_cases hmem : s ∈ r.1
      · rw [if_pos hmem, List.filter_cons_of_neg (by simpa using hmem)]
        exact ih r hsrc
      · rw [if_neg hmem, List.filter_cons_of_pos (by simpa using hmem)]
        obtain ⟨hfst, hsnd⟩ := ih (r.1 ++ [s], true) hsrc
        have hfilter : src.filter (· ∉ r.1 ++ [s]) = src.filter (· ∉ r.1) := by
          refine List.filter_congr fun x hx => ?_
          have hne : x ≠ s := fun h => hs (h ▸ hx)
          simp [hne]
        refine ⟨?_, hsnd.trans (by simp)⟩
        rw [hfst, hfilter, List.append_assoc, List.singleton_append]
  obtain ⟨hfst, hsnd⟩ := hfold src (dst, false) hsrc
  refine ⟨hfst, hsnd.trans ?_⟩
  rw [addSlotWrites, hfst]
  simp

/-- **Two lists of slots can be appended in any order** iff one is a prefix of the other. -/
theorem append_filter_comm_iff {a b : List PointerSlotWrite} (ha : a.Nodup) (hb : b.Nodup) :
    a ++ b.filter (· ∉ a) = b ++ a.filter (· ∉ b) ↔ a <+: b ∨ b <+: a := by
  have hbegin : ∀ {a b : List PointerSlotWrite}, b.Nodup → a <+: b →
      a ++ b.filter (· ∉ a) = b ++ a.filter (· ∉ b) := by
    rintro a _ hb ⟨t, rfl⟩
    have hdisj := (List.nodup_append'.mp hb).2.2
    have hnew : (a ++ t).filter (· ∉ a) = t := by
      rw [List.filter_append, List.filter_eq_nil_iff.mpr (by simp), List.nil_append,
        List.filter_eq_self]
      intro x hx
      simpa using fun h => hdisj h hx
    have hold : a.filter (· ∉ a ++ t) = [] :=
      List.filter_eq_nil_iff.mpr fun x hx => by simp [hx]
    rw [hnew, hold, List.append_nil]
  constructor
  · intro h
    rcases le_total a.length b.length with hle | hle
    · exact Or.inl (List.prefix_of_prefix_length_le ⟨_, h⟩ ⟨_, rfl⟩ hle)
    · exact Or.inr (List.prefix_of_prefix_length_le ⟨_, h.symm⟩ ⟨_, rfl⟩ hle)
  · rintro (h | h)
    · exact hbegin hb h
    · exact (hbegin ha h).symm

/-- Appending slots is associative. -/
theorem append_filter_assoc (a b c : List PointerSlotWrite) :
    a ++ b.filter (· ∉ a) ++ c.filter (· ∉ a ++ b.filter (· ∉ a)) =
      a ++ (b ++ c.filter (· ∉ b)).filter (· ∉ a) := by
  have hnew : c.filter (· ∉ a ++ b.filter (· ∉ a)) = (c.filter (· ∉ b)).filter (· ∉ a) := by
    rw [List.filter_filter]
    refine List.filter_congr fun x _ => ?_
    by_cases ha : x ∈ a <;> by_cases hb : x ∈ b <;> simp [ha, hb]
  rw [hnew, List.filter_append, List.append_assoc]

end Slots

section Param

variable {a b c : ParamEffect}

/-- **The effects on a parameter**: the union of the ranges, the new slots behind the old ones, and
the flags of either, and whether that is more. -/
theorem mergePublicParamEffect_spec (ha : a.Canonical) (hb : b.Canonical) :
    (mergePublicParamEffect a b).1.Canonical ∧
      ((mergePublicParamEffect a b).2 = true ↔ (mergePublicParamEffect a b).1 ≠ a) := by
  obtain ⟨hreads, -, hreadsCh⟩ := addPublicRanges_spec ha.reads b.readBeforeWriteRanges
  obtain ⟨hwrites, -, hwritesCh⟩ := addPublicRanges_spec ha.writes b.writeRanges
  obtain ⟨hslots, hslotsCh⟩ := addSlotWrites_spec a.pointerSlotWrites hb.slots
  refine ⟨⟨hreads, hwrites, ?_⟩, ?_⟩
  · simp only [mergePublicParamEffect, hslots]
    refine ha.slots.append (hb.slots.filter _) fun x hx hx' => ?_
    simpa [hx] using (List.mem_filter.mp hx').2
  · have hflag : ∀ dst src : Bool, (src && !dst) = true ↔ ¬ (dst || src) = dst := by decide
    simp only [mergePublicParamEffect, Bool.or_eq_true, hreadsCh, hwritesCh, hslotsCh, hflag,
      ParamEffect.ext_iff, ne_eq, not_and_or, or_assoc]

/-- Merging is idempotent. -/
theorem mergePublicParamEffect_self (ha : a.Canonical) : (mergePublicParamEffect a a).1 = a := by
  have hslots : (addSlotWrites a.pointerSlotWrites a.pointerSlotWrites).1 =
      a.pointerSlotWrites := by
    rw [(addSlotWrites_spec _ ha.slots).1, List.filter_eq_nil_iff.mpr fun x hx => by simp [hx],
      List.append_nil]
  simp only [mergePublicParamEffect, addPublicRanges_self ha.reads, addPublicRanges_self ha.writes,
    hslots, Bool.or_self]

/-- Merging is associative. -/
theorem mergePublicParamEffect_assoc (ha : a.Canonical) (hb : b.Canonical) (hc : c.Canonical) :
    (mergePublicParamEffect (mergePublicParamEffect a b).1 c).1 =
      (mergePublicParamEffect a (mergePublicParamEffect b c).1).1 := by
  have hbc := (mergePublicParamEffect_spec hb hc).1.slots
  simp only [mergePublicParamEffect] at hbc ⊢
  rw [addPublicRanges_assoc ha.reads hb.reads, addPublicRanges_assoc ha.writes hb.writes,
    (addSlotWrites_spec _ hc.slots).1, (addSlotWrites_spec _ hb.slots).1,
    (addSlotWrites_spec _ hbc).1, (addSlotWrites_spec _ hc.slots).1, append_filter_assoc,
    Bool.or_assoc, Bool.or_assoc]

/-- **Merging is commutative** iff one list of slots is a prefix of the other. -/
theorem mergePublicParamEffect_comm_iff (ha : a.Canonical) (hb : b.Canonical) :
    (mergePublicParamEffect a b).1 = (mergePublicParamEffect b a).1 ↔
      a.pointerSlotWrites <+: b.pointerSlotWrites ∨
        b.pointerSlotWrites <+: a.pointerSlotWrites := by
  rw [← append_filter_comm_iff ha.slots hb.slots, ← (addSlotWrites_spec _ ha.slots).1,
    ← (addSlotWrites_spec _ hb.slots).1]
  simp only [mergePublicParamEffect, ParamEffect.mk.injEq, addPublicRanges_comm ha.reads hb.reads,
    addPublicRanges_comm ha.writes hb.writes, Bool.or_comm, true_and, and_true]

/-- An effect is empty iff it is the one that `resize` fills up with. -/
theorem isEmptyPublicParamEffect_iff : isEmptyPublicParamEffect a = true ↔ a = .empty := by
  obtain ⟨r, w, p, ur, uw⟩ := a
  cases ur <;> cases uw <;> simp [isEmptyPublicParamEffect, ParamEffect.empty, and_assoc]

theorem canonical_empty : ParamEffect.empty.Canonical := ⟨.nil, .nil, List.nodup_nil⟩

theorem mergePublicParamEffect_empty (a : ParamEffect) :
    mergePublicParamEffect a .empty = (a, false) := by
  simp [mergePublicParamEffect, ParamEffect.empty, addPublicRanges, addSlotWrites]

/-- A merge is empty iff both effects are. -/
theorem mergePublicParamEffect_eq_empty_iff (ha : a.Canonical) (hb : b.Canonical) :
    (mergePublicParamEffect a b).1 = .empty ↔ a = .empty ∧ b = .empty := by
  constructor
  · intro h
    have hleft := mergePublicParamEffect_assoc ha ha hb
    rw [mergePublicParamEffect_self ha, h, mergePublicParamEffect_empty] at hleft
    have hcomm := (mergePublicParamEffect_comm_iff canonical_empty hb).mpr
      (Or.inl (List.nil_prefix (l := b.pointerSlotWrites)))
    have hempty : a = .empty := hleft.symm
    rw [hempty] at h
    rw [h, mergePublicParamEffect_empty] at hcomm
    exact ⟨hempty, hcomm.symm⟩
  · rintro ⟨rfl, rfl⟩
    exact congrArg Prod.fst (mergePublicParamEffect_empty _)

/-- The comparison of effects decides equality. -/
theorem publicParamEffectEquals_iff : publicParamEffectEquals a b = true ↔ a = b := by
  obtain ⟨r, w, p, ur, uw⟩ := a
  obtain ⟨r', w', p', ur', uw'⟩ := b
  simp only [publicParamEffectEquals, Bool.and_eq_true, beq_iff_eq, ParamEffect.mk.injEq]
  tauto

end Param

/-! ## Functions -/

section Function

variable {fn fa fb fc : UninitializedSummaryFunction}

/-- A function without a trailing parameter without effects is not trimmed. -/
theorem CanonicalFunction.effectiveCount (h : CanonicalFunction fn) :
    effectivePublicParamEffectCount fn = fn.length := by
  unfold effectivePublicParamEffectCount
  cases hlen : fn.length with
  | zero => rfl
  | succ n =>
    have hlast : fn.getLast? = some (fn.getD n .empty) := by
      rw [List.getLast?_eq_getElem?, hlen, Nat.add_sub_cancel, List.getD_eq_getElem?_getD,
        List.getElem?_eq_getElem (by omega), Option.getD_some]
    unfold dropEmptyTail
    rw [h.trimmed _ hlast]
    simp

theorem CanonicalFunction.trim_eq (h : CanonicalFunction fn) :
    trimTrailingEmptyPublicParamEffects fn = fn := by
  rw [trimTrailingEmptyPublicParamEffects, h.effectiveCount, List.take_length]

/-- The effects on a parameter are canonical, also behind the last one. -/
theorem CanonicalFunction.getD (h : CanonicalFunction fn) (i : ℕ) :
    (fn.getD i .empty).Canonical := by
  rw [List.getD_eq_getElem?_getD]
  cases hi : fn[i]? with
  | none => exact canonical_empty
  | some effect => exact h.effects effect (List.mem_of_getElem? hi)

/-- The last parameter of a function has effects. -/
theorem CanonicalFunction.last_ne (h : CanonicalFunction fn) {n : ℕ} (hlen : fn.length = n + 1) :
    fn.getD n .empty ≠ .empty := by
  intro hempty
  have hlast : fn.getLast? = some (fn.getD n .empty) := by
    rw [List.getLast?_eq_getElem?, hlen, Nat.add_sub_cancel, List.getD_eq_getElem?_getD,
      List.getElem?_eq_getElem (by omega), Option.getD_some]
  have hfalse := h.trimmed _ hlast
  rw [isEmptyPublicParamEffect_iff.mpr hempty] at hfalse
  exact absurd hfalse (by simp)

/-- A function is canonical if its effects are, and its last parameter has effects. -/
theorem canonicalFunction_of_getD (heffects : ∀ i, (fn.getD i .empty).Canonical)
    (hlast : ∀ n, fn.length = n + 1 → fn.getD n .empty ≠ .empty) : CanonicalFunction fn := by
  refine ⟨fun effect heffect => ?_, fun effect heffect => ?_⟩
  · obtain ⟨i, hi, rfl⟩ := List.mem_iff_getElem.mp heffect
    have := heffects i
    rwa [List.getD_eq_getElem _ _ hi] at this
  · rw [List.getLast?_eq_getElem?] at heffect
    obtain ⟨hlt, rfl⟩ := List.getElem?_eq_some_iff.mp heffect
    have hne := hlast (fn.length - 1) (by omega)
    rw [List.getD_eq_getElem _ _ hlt] at hne
    rw [← Bool.not_eq_true]
    exact fun hempty => hne (isEmptyPublicParamEffect_iff.mp hempty)

/-- **A canonical function is determined by the effects on each parameter.** -/
theorem CanonicalFunction.ext (ha : CanonicalFunction fa) (hb : CanonicalFunction fb)
    (h : ∀ i, fa.getD i .empty = fb.getD i .empty) : fa = fb := by
  have hlen : ∀ {f g : UninitializedSummaryFunction}, CanonicalFunction g →
      (∀ i, f.getD i .empty = g.getD i .empty) → g.length ≤ f.length := by
    intro f g hg hfg
    by_contra hlt
    obtain ⟨n, hn⟩ : ∃ n, g.length = n + 1 := ⟨g.length - 1, by omega⟩
    have hne := hg.last_ne hn
    rw [← hfg n, List.getD_eq_default _ _ (by omega)] at hne
    exact hne rfl
  have heq : fa.length = fb.length :=
    le_antisymm (hlen ha fun i => (h i).symm) (hlen hb h)
  refine List.ext_getElem heq fun i hi hi' => ?_
  have := h i
  rwa [List.getD_eq_getElem _ _ hi, List.getD_eq_getElem _ _ hi'] at this

/-- The comparison of canonical functions decides equality. -/
theorem publicFunctionSummaryEquals_iff (ha : CanonicalFunction fa) (hb : CanonicalFunction fb) :
    publicFunctionSummaryEquals fa fb = true ↔ fa = fb := by
  rw [publicFunctionSummaryEquals, ha.effectiveCount, hb.effectiveCount, Bool.and_eq_true,
    beq_iff_eq, List.all_eq_true]
  refine ⟨fun ⟨hlen, hall⟩ => List.ext_getElem hlen fun i hi hi' => ?_, ?_⟩
  · have := publicParamEffectEquals_iff.mp (hall i (List.mem_range.mpr hi))
    rwa [List.getD_eq_getElem _ _ hi, List.getD_eq_getElem _ _ hi'] at this
  · rintro rfl
    exact ⟨rfl, fun i _ => publicParamEffectEquals_iff.mpr rfl⟩

/-- Merging the effects on the parameters of a list that is long enough. -/
theorem mergeParamEffects_spec {dst src : UninitializedSummaryFunction}
    (hlen : src.length ≤ dst.length) (hdst : ∀ effect ∈ dst, effect.Canonical)
    (hsrc : ∀ effect ∈ src, effect.Canonical) :
    (mergeParamEffects dst src).1.length = dst.length ∧
      (∀ i, (mergeParamEffects dst src).1.getD i .empty =
        (mergePublicParamEffect (dst.getD i .empty) (src.getD i .empty)).1) ∧
      ((mergeParamEffects dst src).2 = true ↔ (mergeParamEffects dst src).1 ≠ dst) := by
  induction dst generalizing src with
  | nil =>
    rw [List.length_eq_zero_iff.mp (Nat.le_zero.mp hlen)]
    simp [mergeParamEffects, mergePublicParamEffect_empty]
  | cons d dst ih =>
    cases src with
    | nil => simp [mergeParamEffects, mergePublicParamEffect_empty]
    | cons s src =>
      obtain ⟨hlen', hget, hch⟩ := ih (Nat.le_of_succ_le_succ hlen)
        (fun e he => hdst e (List.mem_cons_of_mem d he))
        (fun e he => hsrc e (List.mem_cons_of_mem s he))
      have hhead := (mergePublicParamEffect_spec (hdst d List.mem_cons_self)
        (hsrc s List.mem_cons_self)).2
      refine ⟨by simp [mergeParamEffects, hlen'], fun i => ?_, ?_⟩
      · cases i with
        | zero => simp [mergeParamEffects]
        | succ i => simpa [mergeParamEffects] using hget i
      · simp only [mergeParamEffects, Bool.or_eq_true, hhead, hch, ne_eq, List.cons.injEq,
          not_and_or]

/-- **Merging functions**, parameter by parameter. -/
theorem mergePublicFunctionSummary_spec (ha : CanonicalFunction fa) (hb : CanonicalFunction fb) :
    CanonicalFunction (mergePublicFunctionSummary fa fb).1 ∧
      (∀ i, (mergePublicFunctionSummary fa fb).1.getD i .empty =
        (mergePublicParamEffect (fa.getD i .empty) (fb.getD i .empty)).1) ∧
      ((mergePublicFunctionSummary fa fb).2 = true ↔
        (mergePublicFunctionSummary fa fb).1 ≠ fa) := by
  set resized := fa ++ List.replicate (fb.length - fa.length) ParamEffect.empty with hresized
  have hreslen : resized.length = max fa.length fb.length := by
    rw [hresized, List.length_append, List.length_replicate]
    omega
  have hgetD : ∀ i, resized.getD i .empty = fa.getD i .empty := by
    intro i
    rcases lt_or_ge i fa.length with hi | hi
    · exact List.getD_append _ _ _ _ hi
    · rw [hresized, List.getD_append_right _ _ _ _ hi, List.getD_eq_default _ _ hi,
        List.getD_eq_getElem?_getD, List.getElem?_replicate]
      split_ifs <;> rfl
  have heffects : ∀ effect ∈ resized, effect.Canonical := by
    intro effect he
    rcases List.mem_append.mp he with he | he
    · exact ha.effects effect he
    · exact List.eq_of_mem_replicate he ▸ canonical_empty
  obtain ⟨hmlen, hmget, hmch⟩ := mergeParamEffects_spec (by omega) heffects hb.effects
  have hget : ∀ i, (mergeParamEffects resized fb).1.getD i .empty =
      (mergePublicParamEffect (fa.getD i .empty) (fb.getD i .empty)).1 := by
    intro i
    rw [hmget, hgetD]
  have hcan : CanonicalFunction (mergeParamEffects resized fb).1 := by
    refine canonicalFunction_of_getD (fun i => ?_) fun n hn => ?_
    · rw [hget]
      exact (mergePublicParamEffect_spec (ha.getD i) (hb.getD i)).1
    · -- the last parameter is the last one of the longer function
      rw [hget, ne_eq, mergePublicParamEffect_eq_empty_iff (ha.getD n) (hb.getD n)]
      rintro ⟨hfa, hfb⟩
      rcases le_total fb.length fa.length with hle | hle
      · exact ha.last_ne (by omega) hfa
      · exact hb.last_ne (by omega) hfb
  have heq : mergePublicFunctionSummary fa fb = ((mergeParamEffects resized fb).1,
      decide (fa.length < fb.length) || (mergeParamEffects resized fb).2) := by
    simp only [mergePublicFunctionSummary, hb.effectiveCount, List.take_length, ← hresized,
      hcan.trim_eq, bne_self_eq_false, Bool.or_false]
  rw [heq]
  refine ⟨hcan, hget, ?_⟩
  rcases lt_or_ge fa.length fb.length with hlt | hge
  · simp only [hlt, decide_true, Bool.true_or, true_iff]
    intro hsame
    have := congrArg List.length hsame
    omega
  · have hsame : resized = fa := by
      rw [hresized, Nat.sub_eq_zero_of_le hge, List.replicate_zero, List.append_nil]
    rw [hsame] at hmch ⊢
    simpa [not_lt.mpr hge] using hmch

end Function

end StackAnalyzer.Uninit
