import StackAnalyzer.Ranges.RangeList

set_option relaxedAutoImplicit false
set_option autoImplicit false

/-!
# Gaps of sets of numbers

The numbers of a range that a set leaves out stand in gaps: maximal runs without a member. The
first number that is missing comes before all of them.

## Main definitions

* `Ranges.IsGap` — the gaps of a set in a range.
* `Ranges.FirstMissing` — the first number that a set leaves out.
* `Ranges.CoversUpToGaps` — both ends are in the set, and no gap is longer than some limit.

## Main results

* `Ranges.exists_firstMissing`, `Ranges.FirstMissing.unique` — the first missing number.
* `Ranges.IsGap.length_le` — no gap is longer than what is left behind it.
-/

namespace Ranges

/-- The numbers from `a` up to and without `b` are a gap of the set in a range: none of them is in
the set, and the numbers next to them are, or are outside of the range. -/
structure IsGap (S : Set ℕ) (begin stop a b : ℕ) : Prop where
  begin_le : begin ≤ a
  lt : a < b
  le_stop : b ≤ stop
  outside : ∀ n, a ≤ n → n < b → n ∉ S
  starts : a = begin ∨ a - 1 ∈ S
  ends : b = stop ∨ b ∈ S

/-- The first number from `begin` on that a set leaves out. -/
structure FirstMissing (S : Set ℕ) (begin c : ℕ) : Prop where
  begin_le : begin ≤ c
  notMem : c ∉ S
  before : ∀ n, begin ≤ n → n < c → n ∈ S

/-- The first and the last number of a range are in the set, and no gap of the set in the range is
longer than the limit. -/
def CoversUpToGaps (S : Set ℕ) (begin stop limit : ℕ) : Prop :=
  begin ∈ S ∧ stop - 1 ∈ S ∧ ∀ a b, IsGap S begin stop a b → b - a ≤ limit

variable {S : Set ℕ} {begin stop c : ℕ}

/-- The first missing number is unique. -/
theorem FirstMissing.unique {c' : ℕ} (h : FirstMissing S begin c) (h' : FirstMissing S begin c') :
    c = c' := by
  rcases lt_trichotomy c c' with hlt | heq | hlt
  · exact absurd (h'.before c h.begin_le hlt) h.notMem
  · exact heq
  · exact absurd (h.before c' h'.begin_le hlt) h'.notMem

/-- There is a first missing number in front of each missing one. -/
theorem exists_firstMissing {n : ℕ} (hn : begin ≤ n) (hmissing : n ∉ S) :
    ∃ c, FirstMissing S begin c := by
  classical
  have hex : ∃ c, begin ≤ c ∧ c ∉ S := ⟨n, hn, hmissing⟩
  obtain ⟨hle, hnot⟩ := Nat.find_spec hex
  refine ⟨Nat.find hex, hle, hnot, fun m hm hmc => ?_⟩
  by_contra hm'
  exact Nat.find_min hex hmc ⟨hm, hm'⟩

/-- Gaps of a range are no longer than what is left of it behind the first missing number. -/
theorem IsGap.length_le {a b : ℕ} (h : IsGap S begin stop a b) (hc : FirstMissing S begin c) :
    b - a ≤ stop - c := by
  have hca : c ≤ a := by
    by_contra hlt
    exact h.outside a le_rfl h.lt (hc.before a h.begin_le (by omega))
  have := h.le_stop
  omega

end Ranges
