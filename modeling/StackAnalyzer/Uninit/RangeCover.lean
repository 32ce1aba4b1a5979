import StackAnalyzer.Ranges.Gaps
import StackAnalyzer.Uninit.InitAnalysis
import StackAnalyzer.Uninit.SummaryMerge

set_option relaxedAutoImplicit false
set_option autoImplicit false

/-!
# Covered ranges

Whether a read only sees initialised bytes. Without a layout of the object that is read, small gaps
between initialised bytes are taken for padding. The walk over the initialised ranges does not move
on behind a gap that it tolerates, so it measures everything from the first byte that is missing up
to the end of the read, and the end of the read may be missing as well.

## Main definitions

* `StackAnalyzer.Uninit.isRangeCovered` — all bytes are initialised.
* `StackAnalyzer.Uninit.isRangeCoveredAllowingSmallInteriorGaps` — some padding may be missing.
* `StackAnalyzer.Uninit.ForgetsTail`, `StackAnalyzer.Uninit.JoinsGaps` — where the padding is wrong.

## Main results

* `StackAnalyzer.Uninit.byteRangeAlgebra` — what the operations on byte ranges compute.
* `StackAnalyzer.Uninit.coveredAllowingGaps_iff` — what the walk decides.
* `StackAnalyzer.Uninit.paddingExact_iff` — when that is the tolerance of padding.
-/

namespace StackAnalyzer.Uninit

open Ranges

/-! ## The checks -/

/-- `isRangeCovered`, its loop for a range that is not empty. -/
def coveredLoop (begin stop : ℕ) : RangeSet → Bool
  | [] => false
  | r :: rs =>
    if r.begin ≤ begin ∧ stop ≤ r.stop then true
    else if begin < r.begin then false
    else coveredLoop begin stop rs

/-- `isRangeCovered`. -/
def isRangeCovered (initialized : RangeSet) (begin stop : ℕ) : Bool :=
  if begin ≥ stop then true else coveredLoop begin stop initialized

section Gaps

variable (begin stop maxInteriorGapBytes : ℕ)

/-- What follows the loop: the cursor has not reached the end. -/
def tailTolerated (cursor : ℕ) : Bool :=
  if cursor < stop then decide (begin < cursor) && decide (stop - cursor ≤ maxInteriorGapBytes)
  else true

/-- The loop, with the cursor. -/
def toleratedLoop : ℕ → RangeSet → Bool
  | cursor, [] => tailTolerated begin stop maxInteriorGapBytes cursor
  | cursor, r :: rs =>
    if r.stop ≤ cursor then toleratedLoop cursor rs
    else if stop ≤ r.begin then tailTolerated begin stop maxInteriorGapBytes cursor
    else
      let gapEnd := min r.begin stop
      if cursor < gapEnd ∧
          (¬ (begin < cursor ∧ gapEnd < stop) ∨ maxInteriorGapBytes < gapEnd - cursor) then false
      else
        -- the cursor stays where it is in front of a gap
        let cursor := if r.begin ≤ cursor then max cursor (min r.stop stop) else cursor
        if stop ≤ cursor then true else toleratedLoop cursor rs

end Gaps

/-- `isRangeCoveredAllowingSmallInteriorGaps`. -/
def isRangeCoveredAllowingSmallInteriorGaps (initialized : RangeSet)
    (begin stop maxInteriorGapBytes : ℕ) : Bool :=
  if begin ≥ stop then true else toleratedLoop begin stop maxInteriorGapBytes begin initialized

/-- `isRangeCoveredRespectingNonPaddingLayout`, with the ranges of the object that are no padding if
its layout is known. -/
def isRangeCoveredRespectingNonPaddingLayout (nonPaddingRanges : Option RangeSet)
    (initialized : RangeSet) (begin stop : ℕ) : Bool :=
  isRangeCovered initialized begin stop ||
    match nonPaddingRanges with
    | none => isRangeCoveredAllowingSmallInteriorGaps initialized begin stop 7
    | some ranges => ranges.all fun relevant =>
        isRangeCovered initialized (max begin relevant.begin) (min stop relevant.stop)

variable {initialized : RangeSet} {begin stop maxInteriorGapBytes : ℕ}

/-! ## Covered ranges -/

/-- The loop looks for one range around all bytes. -/
theorem coveredLoop_iff (h : Canonical initialized) (hlt : begin < stop) :
    coveredLoop begin stop initialized = true ↔
      ∀ n, begin ≤ n → n < stop → n ∈ carrier initialized := by
  induction initialized with
  | nil =>
    simp only [coveredLoop, Bool.false_eq_true, mem_carrier_nil, imp_false, false_iff]
    exact fun h => h begin le_rfl hlt
  | cons r rs ih =>
    unfold coveredLoop
    split_ifs with haround hbehind
    · refine iff_of_true rfl fun n hn hns => (mem_carrier_cons r rs n).mpr (Or.inl ?_)
      exact ⟨haround.1.trans hn, hns.trans_le haround.2⟩
    · refine iff_of_false not_false fun hall => ?_
      exact absurd (h.begin_le (hall begin le_rfl hlt)) (by omega)
    · rw [ih h.tail]
      refine ⟨fun hall n hn hns => (mem_carrier_cons r rs n).mpr (Or.inr (hall n hn hns)), ?_⟩
      intro hall n hn hns
      rw [h.mem_tail_iff]
      refine ⟨?_, hall n hn hns⟩
      -- the end of `r` is not covered, so it is not inside of the range
      by_contra hbefore
      have hend := hall r.stop (by omega) (by omega)
      rcases (mem_carrier_cons r rs r.stop).mp hend with hin | hin
      · exact lt_irrefl _ hin.2
      · exact lt_irrefl _ (h.stop_lt_of_mem hin)

/-- **Covered ranges**: every byte is initialised. -/
theorem isRangeCovered_iff (h : Canonical initialized) :
    isRangeCovered initialized begin stop = true ↔
      ∀ n, begin ≤ n → n < stop → n ∈ carrier initialized := by
  unfold isRangeCovered
  split_ifs with hempty
  · exact iff_of_true rfl fun n hn hns => by omega
  · exact coveredLoop_iff h (by omega)

/-- With a layout, exactly the bytes that are no padding are looked at. -/
theorem coveredRespectingLayout_iff (h : Canonical initialized) (ranges : RangeSet) :
    isRangeCoveredRespectingNonPaddingLayout (some ranges) initialized begin stop = true ↔
      ∀ n, begin ≤ n → n < stop → n ∈ carrier ranges → n ∈ carrier initialized := by
  unfold isRangeCoveredRespectingNonPaddingLayout
  simp only [Bool.or_eq_true, List.all_eq_true, isRangeCovered_iff h]
  constructor
  · rintro (hall | hall) n hn hns ⟨r, hr, hin⟩
    · exact hall n hn hns
    · exact hall r hr n (max_le hn hin.1) (lt_min hns hin.2)
  · intro hall
    refine Or.inr fun r hr n hn hns => ?_
    obtain ⟨hbegin, hbegin'⟩ := max_le_iff.mp hn
    obtain ⟨hstop, hstop'⟩ := lt_min_iff.mp hns
    exact hall n hbegin hstop ⟨r, hr, hbegin', hstop'⟩

/-! ## Operations on byte ranges -/

/-- A list of ranges is changed if and only if its set has grown. -/
theorem changed_iff_grown (h : Canonical initialized) (begin stop : ℕ) :
    add initialized begin stop ≠ initialized ↔
      carrier initialized ⊂ carrier (add initialized begin stop) := by
  have hle : carrier initialized ⊆ carrier (add initialized begin stop) := fun n hn =>
    (mem_carrier_add h begin stop n).mpr (Or.inr hn)
  rw [Set.ssubset_iff_subset_ne]
  refine ⟨fun hne => ⟨hle, fun heq => hne ?_⟩, fun hlt heq => hlt.2 (by rw [heq])⟩
  exact ((h.add begin stop).ext h heq.symm)

/-- **The algebra of byte ranges**: on canonical lists, both ways to add a range compute the union
with it, and the second one tells whether that is larger; the intersection and the test whether a
range is covered are those of sets. -/
theorem byteRangeAlgebra {lhs rhs : RangeSet} (hlhs : Canonical lhs) (hrhs : Canonical rhs)
    (begin stop : ℕ) :
    (Canonical (addRange lhs begin stop) ∧
        carrier (addRange lhs begin stop) = carrier lhs ∪ Set.Ico begin stop) ∧
      (Canonical (addPublicRange lhs begin stop).1 ∧
        carrier (addPublicRange lhs begin stop).1 = carrier lhs ∪ Set.Ico begin stop ∧
        ((addPublicRange lhs begin stop).2 = true ↔
          carrier lhs ⊂ carrier (addPublicRange lhs begin stop).1)) ∧
      (Canonical (intersectRanges lhs rhs) ∧
        carrier (intersectRanges lhs rhs) = carrier lhs ∩ carrier rhs) ∧
      (isRangeCovered lhs begin stop = true ↔ Set.Ico begin stop ⊆ carrier lhs) := by
  have hunion : carrier (add lhs begin stop) = carrier lhs ∪ Set.Ico begin stop := by
    ext n
    rw [mem_carrier_add hlhs, Set.mem_union, Set.mem_Ico, or_comm]
  obtain ⟨hpublic, hchanged⟩ := addPublicRange_spec hlhs begin stop
  refine ⟨⟨hlhs.add begin stop, hunion⟩, ⟨?_, ?_, ?_⟩, ⟨hlhs.inter hrhs, ?_⟩, ?_⟩
  · rw [hpublic]
    exact hlhs.add begin stop
  · rw [hpublic, hunion]
  · rw [hpublic, hchanged]
    exact changed_iff_grown hlhs begin stop
  · ext n
    exact mem_carrier_inter hlhs hrhs n
  · rw [isRangeCovered_iff hlhs]
    exact ⟨fun hall n hn => hall n hn.1 hn.2, fun hsub n hn hns => hsub ⟨hn, hns⟩⟩

/-- Two ranges, and a third one between them. -/
theorem byteRangeAlgebra_between :
    Canonical [⟨0, 4⟩, ⟨8, 12⟩] ∧
      carrier (addRange [⟨0, 4⟩, ⟨8, 12⟩] 2 9) =
        carrier [⟨0, 4⟩, ⟨8, 12⟩] ∪ Set.Ico 2 9 := by
  have h : Canonical [⟨0, 4⟩, ⟨8, 12⟩] := ⟨by simp, by simp⟩
  exact ⟨h, (byteRangeAlgebra h h 2 9).1.2⟩

/-! ## Padding -/

/-- **The loop behind a gap**: it compares all gaps with the same cursor, so it decides how much is
left. -/
theorem toleratedLoop_of_missing {cursor : ℕ} (h : Canonical initialized)
    (hcursor : ∀ r ∈ initialized, cursor < r.begin) (hbegin : begin < cursor)
    (hstop : cursor < stop) :
    toleratedLoop begin stop maxInteriorGapBytes cursor initialized =
      decide (stop - cursor ≤ maxInteriorGapBytes) := by
  have htail : tailTolerated begin stop maxInteriorGapBytes cursor =
      decide (stop - cursor ≤ maxInteriorGapBytes) := by
    simp [tailTolerated, hstop, hbegin]
  induction initialized with
  | nil => exact htail
  | cons r rs ih =>
    have hr := hcursor r List.mem_cons_self
    have hlt := h.head
    unfold toleratedLoop
    rw [if_neg (by omega)]
    dsimp only
    by_cases hbehind : stop ≤ r.begin
    · rw [if_pos hbehind]
      exact htail
    · rw [if_neg hbehind]
      by_cases hgap : maxInteriorGapBytes < min r.begin stop - cursor
      · -- the gap in front of `r` is too long, so all that is left is
        have hlong : ¬ stop - cursor ≤ maxInteriorGapBytes := by omega
        rw [if_pos ⟨by omega, Or.inr hgap⟩]
        simp [hlong]
      · rw [if_neg (by omega), if_neg (show ¬ r.begin ≤ cursor by omega), if_neg (by omega)]
        exact ih h.tail fun r' hr' => hcursor r' (List.mem_cons_of_mem r hr')

/-- The loop up to the first byte: it goes on if that one is initialised. -/
theorem toleratedLoop_iff (h : Canonical initialized) (hlt : begin < stop) :
    toleratedLoop begin stop maxInteriorGapBytes begin initialized = true ↔
      begin ∈ carrier initialized ∧
        ∀ c, FirstMissing (carrier initialized) begin c → stop - c ≤ maxInteriorGapBytes := by
  induction initialized with
  | nil => simp [toleratedLoop, tailTolerated, hlt]
  | cons r rs ih =>
    have hr := h.head
    unfold toleratedLoop
    dsimp only
    by_cases hbefore : r.stop ≤ begin
    · -- `r` ends before the range
      rw [if_pos hbefore]
      have hset : ∀ n, begin ≤ n → (n ∈ carrier rs ↔ n ∈ carrier (r :: rs)) := by
        intro n hn
        rw [h.mem_tail_iff, and_iff_right (hbefore.trans hn)]
      rw [ih h.tail, hset begin le_rfl]
      refine and_congr_right fun _ => forall_congr' fun c => imp_congr_left ?_
      constructor <;> rintro ⟨hle, hnot, hall⟩
      · exact ⟨hle, fun hc => hnot ((hset c hle).mpr hc), fun n hn hnc =>
          (hset n hn).mp (hall n hn hnc)⟩
      · exact ⟨hle, fun hc => hnot ((hset c hle).mp hc), fun n hn hnc =>
          (hset n hn).mpr (hall n hn hnc)⟩
    rw [if_neg hbefore]
    by_cases hin : r.begin ≤ begin
    · -- the first byte lies in `r`
      rw [if_neg (by omega), if_neg (by omega), if_pos hin]
      have hmem : begin ∈ carrier (r :: rs) :=
        (mem_carrier_cons r rs begin).mpr (Or.inl ⟨hin, by omega⟩)
      rw [and_iff_right hmem]
      have hbeforeStop : ∀ n, begin ≤ n → n < r.stop → n ∈ carrier (r :: rs) := fun n hn hns =>
        (mem_carrier_cons r rs n).mpr (Or.inl ⟨hin.trans hn, hns⟩)
      split_ifs with hall
      · refine iff_of_true rfl fun c hc => ?_
        have : r.stop ≤ c := by
          by_contra hcr
          exact hc.notMem (hbeforeStop c hc.begin_le (by omega))
        omega
      · have hfirst : FirstMissing (carrier (r :: rs)) begin r.stop := by
          refine ⟨by omega, fun hend => ?_, hbeforeStop⟩
          rcases (mem_carrier_cons r rs r.stop).mp hend with hend | hend
          · exact lt_irrefl _ hend.2
          · exact lt_irrefl _ (h.stop_lt_of_mem hend)
        have hcursor : max begin (min r.stop stop) = r.stop := by omega
        rw [hcursor, toleratedLoop_of_missing h.tail h.stop_lt (by omega) (by omega),
          decide_eq_true_iff]
        refine ⟨fun hle c hc => ?_, fun hle => hle r.stop hfirst⟩
        rwa [hc.unique hfirst]
    · -- the first byte is missing
      refine iff_of_false ?_ fun hall => hin (h.begin_le hall.1)
      by_cases hbehind : stop ≤ r.begin
      · simp [hbehind, tailTolerated, hlt]
      · rw [if_neg hbehind, if_pos ⟨by omega, Or.inl (by omega)⟩]
        simp

/-- **What the walk decides**: the first byte is initialised, and from the first byte on that is
not, there are no more bytes than the limit. -/
theorem coveredAllowingGaps_iff (h : Canonical initialized) (hlt : begin < stop) :
    isRangeCoveredAllowingSmallInteriorGaps initialized begin stop maxInteriorGapBytes = true ↔
      begin ∈ carrier initialized ∧
        ∀ c, FirstMissing (carrier initialized) begin c → stop - c ≤ maxInteriorGapBytes := by
  unfold isRangeCoveredAllowingSmallInteriorGaps
  rw [if_neg (by omega)]
  exact toleratedLoop_iff h hlt

section Kinds

variable (S : Set ℕ) (begin stop limit : ℕ)

/-- A range whose end is missing, though not more than the limit is left behind the first missing
number: the end is taken for padding. -/
def ForgetsTail : Prop :=
  begin ∈ S ∧ stop - 1 ∉ S ∧ ∃ c, FirstMissing S begin c ∧ stop - c ≤ limit

/-- A range with small gaps only, though more than the limit is left behind the first missing
number: the gaps are measured together with what lies between them and the end. -/
def JoinsGaps : Prop :=
  (begin ∈ S ∧ stop - 1 ∈ S ∧ ∃ c, FirstMissing S begin c ∧ limit < stop - c) ∧
    ∀ a b, IsGap S begin stop a b → b - a ≤ limit

end Kinds

/-- **The tolerance of padding is exact** unless the end is missing behind few bytes, or small gaps
are followed by many bytes.

**Proof sketch.** All gaps lie behind the first missing byte, so they are small if no more than the
limit is left behind it. Then only the last byte can be wrong. If more is left, the walk says no. -/
theorem paddingExact_iff (h : Canonical initialized) (hlt : begin < stop) :
    (isRangeCoveredAllowingSmallInteriorGaps initialized begin stop maxInteriorGapBytes = true ↔
        CoversUpToGaps (carrier initialized) begin stop maxInteriorGapBytes) ↔
      ¬ ForgetsTail (carrier initialized) begin stop maxInteriorGapBytes ∧
        ¬ JoinsGaps (carrier initialized) begin stop maxInteriorGapBytes := by
  rw [coveredAllowingGaps_iff h hlt]
  constructor
  · intro hexact
    refine ⟨?_, ?_⟩
    · rintro ⟨hbegin, hend, c, hc, hle⟩
      refine hend (hexact.mp ⟨hbegin, fun c' hc' => ?_⟩).2.1
      rwa [hc'.unique hc]
    · rintro ⟨⟨hbegin, hend, c, hc, hlong⟩, hgaps⟩
      exact absurd ((hexact.mpr ⟨hbegin, hend, hgaps⟩).2 c hc) (by omega)
  · rintro ⟨htail, hjoin⟩
    constructor
    · rintro ⟨hbegin, hshort⟩
      have hend : stop - 1 ∈ carrier initialized := by
        by_contra hend
        obtain ⟨c, hc⟩ := exists_firstMissing (show begin ≤ stop - 1 by omega) hend
        exact htail ⟨hbegin, hend, c, hc, hshort c hc⟩
      refine ⟨hbegin, hend, fun a b hgap => ?_⟩
      obtain ⟨c, hc⟩ := exists_firstMissing hgap.begin_le (hgap.outside a le_rfl hgap.lt)
      exact (hgap.length_le hc).trans (hshort c hc)
    · rintro ⟨hbegin, hend, hgaps⟩
      refine ⟨hbegin, fun c hc => ?_⟩
      by_contra hlong
      exact hjoin ⟨⟨hbegin, hend, c, hc, by omega⟩, hgaps⟩

/-- Two bytes of padding between two initialised ranges. -/
theorem paddingExact_iff_oneGap :
    isRangeCoveredAllowingSmallInteriorGaps [⟨0, 4⟩, ⟨6, 8⟩] 0 8 7 = true ∧
      CoversUpToGaps (carrier [⟨0, 4⟩, ⟨6, 8⟩]) 0 8 7 := by
  have hcanonical : Canonical [⟨0, 4⟩, ⟨6, 8⟩] := ⟨by simp, by simp⟩
  have htrue : isRangeCoveredAllowingSmallInteriorGaps [⟨0, 4⟩, ⟨6, 8⟩] 0 8 7 = true := by decide
  have hshort := ((coveredAllowingGaps_iff hcanonical (by omega)).mp htrue).2
  refine ⟨htrue, ((paddingExact_iff hcanonical (by omega)).mpr ⟨?_, ?_⟩).mp htrue⟩
  · rintro ⟨-, hend, -⟩
    exact hend ⟨⟨6, 8⟩, by simp, by simp [Range.Contains]⟩
  · rintro ⟨⟨-, -, c, hc, hlong⟩, -⟩
    exact absurd (hshort c hc) (by omega)

/-- **The tolerance of padding is not exact**: after three initialised bytes out of four, the last
one may be missing. -/
theorem not_paddingExact_tail :
    ¬ ∀ (initialized : RangeSet) (begin stop limit : ℕ), Canonical initialized → begin < stop →
      (isRangeCoveredAllowingSmallInteriorGaps initialized begin stop limit = true ↔
        CoversUpToGaps (carrier initialized) begin stop limit) := by
  intro h
  have htrue : isRangeCoveredAllowingSmallInteriorGaps [⟨0, 3⟩] 0 4 7 = true := by decide
  obtain ⟨-, hend, -⟩ := (h [⟨0, 3⟩] 0 4 7 ⟨by simp, by simp⟩ (by omega)).mp htrue
  simp [carrier, Range.Contains] at hend

end StackAnalyzer.Uninit
