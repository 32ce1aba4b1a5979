import Mathlib

set_option relaxedAutoImplicit false
set_option autoImplicit false

/-!
# Sets of numbers as lists of ranges

A finite union of half-open ranges, stored as a list that is sorted and has gaps between its
members. Such a list is determined by the set it stands for, so two computations that reach the
same set reach the same list.

## Main definitions

* `Ranges.Range`, `Ranges.carrier` — half-open ranges, and the set that a list of them stands for.
* `Ranges.Canonical` — sorted, with gaps between non-empty ranges.
* `Ranges.add`, `Ranges.inter` — adding a range, and intersecting two lists in one pass.

## Main results

* `Ranges.Canonical.ext` — canonical lists with the same set are equal.
* `Ranges.mem_carrier_add`, `Ranges.mem_carrier_inter` — what the operations compute.
* `Ranges.Canonical.add`, `Ranges.Canonical.inter` — they keep lists canonical.
-/

namespace Ranges

/-- The numbers from `begin` up to and without `stop`. -/
structure Range where
  begin : ℕ
  stop : ℕ
  deriving DecidableEq, Repr

/-- Membership in a range. -/
def Range.Contains (r : Range) (n : ℕ) : Prop := r.begin ≤ n ∧ n < r.stop

/-- The set that a list of ranges stands for. -/
def carrier (rs : List Range) : Set ℕ := {n | ∃ r ∈ rs, r.Contains n}

/-- Sorted, with a gap between any two ranges, and no range empty. -/
structure Canonical (rs : List Range) : Prop where
  sorted : rs.Pairwise fun a b => a.stop < b.begin
  nonempty : ∀ r ∈ rs, r.begin < r.stop

@[simp] theorem mem_carrier_nil (n : ℕ) : n ∉ carrier [] := by simp [carrier]

@[simp] theorem mem_carrier_cons (r : Range) (rs : List Range) (n : ℕ) :
    n ∈ carrier (r :: rs) ↔ r.Contains n ∨ n ∈ carrier rs := by
  simp [carrier]

namespace Canonical

variable {r : Range} {rs rs' : List Range}

/-- The empty list. -/
theorem nil : Canonical [] := ⟨List.Pairwise.nil, by simp⟩

/-- A range in front of ranges that begin behind it. -/
theorem cons (h : Canonical rs) (hr : r.begin < r.stop) (hlt : ∀ x ∈ rs, r.stop < x.begin) :
    Canonical (r :: rs) :=
  ⟨List.pairwise_cons.mpr ⟨hlt, h.sorted⟩, List.forall_mem_cons.mpr ⟨hr, h.nonempty⟩⟩

/-- The tail. -/
theorem tail (h : Canonical (r :: rs)) : Canonical rs :=
  ⟨(List.pairwise_cons.mp h.sorted).2, fun x hx => h.nonempty x (List.mem_cons_of_mem _ hx)⟩

/-- The head is not empty. -/
theorem head (h : Canonical (r :: rs)) : r.begin < r.stop := h.nonempty r List.mem_cons_self

/-- The ranges of the tail begin behind the head. -/
theorem stop_lt (h : Canonical (r :: rs)) : ∀ x ∈ rs, r.stop < x.begin :=
  (List.pairwise_cons.mp h.sorted).1

/-- The numbers of the tail lie behind the head. -/
theorem stop_lt_of_mem (h : Canonical (r :: rs)) {n : ℕ} (hn : n ∈ carrier rs) : r.stop < n := by
  obtain ⟨x, hx, hxn⟩ := hn
  exact (h.stop_lt x hx).trans_le hxn.1

/-- The first number of a canonical list is the beginning of its head. -/
theorem begin_le (h : Canonical (r :: rs)) {n : ℕ} (hn : n ∈ carrier (r :: rs)) : r.begin ≤ n := by
  rcases (mem_carrier_cons r rs n).mp hn with hn | hn
  · exact hn.1
  · exact (h.head.trans (h.stop_lt_of_mem hn)).le

/-- The end of the head of one of two canonical lists with the same set is not before the end of
the other one. -/
private theorem stop_le {r' : Range} (h : Canonical (r :: rs))
    (hset : carrier (r :: rs) = carrier (r' :: rs')) (hbegin : r.begin = r'.begin) :
    r'.stop ≤ r.stop := by
  by_contra hlt
  have hmem : r.stop ∈ carrier (r' :: rs') :=
    (mem_carrier_cons _ _ _).mpr (Or.inl ⟨hbegin ▸ h.head.le, not_le.mp hlt⟩)
  rw [← hset, mem_carrier_cons] at hmem
  rcases hmem with hmem | hmem
  · exact lt_irrefl _ hmem.2
  · exact lt_irrefl _ (h.stop_lt_of_mem hmem)

/-- **A canonical list is determined by its set.** -/
theorem ext (h : Canonical rs) (h' : Canonical rs') (hset : carrier rs = carrier rs') :
    rs = rs' := by
  induction rs generalizing rs' with
  | nil =>
    cases rs' with
    | nil => rfl
    | cons r' rs' =>
      have hmem : r'.begin ∈ carrier (r' :: rs') :=
        (mem_carrier_cons _ _ _).mpr (Or.inl ⟨le_rfl, h'.head⟩)
      rw [← hset] at hmem
      exact absurd hmem (mem_carrier_nil _)
  | cons r rs ih =>
    cases rs' with
    | nil =>
      have hmem : r.begin ∈ carrier (r :: rs) :=
        (mem_carrier_cons _ _ _).mpr (Or.inl ⟨le_rfl, h.head⟩)
      rw [hset] at hmem
      exact absurd hmem (mem_carrier_nil _)
    | cons r' rs' =>
      have hle : r.begin ≤ r'.begin := h.begin_le
        (hset ▸ (mem_carrier_cons _ _ _).mpr (Or.inl ⟨le_rfl, h'.head⟩))
      have hle' : r'.begin ≤ r.begin := h'.begin_le
        (hset ▸ (mem_carrier_cons _ _ _).mpr (Or.inl ⟨le_rfl, h.head⟩))
      have hbegin := le_antisymm hle hle'
      have hstop := le_antisymm (stop_le h' hset.symm hbegin.symm) (stop_le h hset hbegin)
      have hr : r = r' := by
        cases r
        cases r'
        simp_all
      subst hr
      refine congrArg (r :: ·) (ih h.tail h'.tail (Set.ext fun n => ⟨fun hn => ?_, fun hn => ?_⟩))
      · have hmem : n ∈ carrier (r :: rs') := hset ▸ (mem_carrier_cons _ _ _).mpr (Or.inr hn)
        rcases (mem_carrier_cons _ _ _).mp hmem with hr | hn'
        · exact absurd (h.stop_lt_of_mem hn) (not_lt.mpr hr.2.le)
        · exact hn'
      · have hmem : n ∈ carrier (r :: rs) := hset ▸ (mem_carrier_cons _ _ _).mpr (Or.inr hn)
        rcases (mem_carrier_cons _ _ _).mp hmem with hr | hn'
        · exact absurd (h'.stop_lt_of_mem hn) (not_lt.mpr hr.2.le)
        · exact hn'

end Canonical

/-! ## Adding a range -/

/-- Extend a range by those of the following ones that it meets. -/
def absorb (current : Range) : List Range → List Range
  | [] => [current]
  | r :: rs =>
    if r.begin ≤ current.stop then absorb ⟨current.begin, max current.stop r.stop⟩ rs
    else current :: r :: rs

/-- Add a non-empty range: in front of the first range that begins behind it, or together with
those that it meets. -/
def insert (begin stop : ℕ) : List Range → List Range
  | [] => [⟨begin, stop⟩]
  | r :: rs =>
    if r.stop < begin then r :: insert begin stop rs
    else if stop < r.begin then ⟨begin, stop⟩ :: r :: rs
    else absorb ⟨min r.begin begin, max r.stop stop⟩ rs

/-- Add a range, if it is not empty. -/
def add (rs : List Range) (begin stop : ℕ) : List Range :=
  if begin ≥ stop then rs else insert begin stop rs

/-- Extending a range that begins before the others. -/
theorem absorb_spec (current : Range) {rs : List Range} (h : Canonical rs)
    (hcur : current.begin < current.stop) (hle : ∀ r ∈ rs, current.begin ≤ r.begin) :
    Canonical (absorb current rs) ∧ (∀ x ∈ absorb current rs, current.begin ≤ x.begin) ∧
      ∀ n, n ∈ carrier (absorb current rs) ↔ current.Contains n ∨ n ∈ carrier rs := by
  induction rs generalizing current with
  | nil =>
    exact ⟨Canonical.nil.cons hcur (by simp), by simp [absorb], fun n => mem_carrier_cons _ _ _⟩
  | cons r rs ih =>
    unfold absorb
    have hr := h.head
    have hler := hle r List.mem_cons_self
    split_ifs with hmeet
    · obtain ⟨hcan, hmin, hcar⟩ := ih ⟨current.begin, max current.stop r.stop⟩ h.tail
        (lt_max_of_lt_left hcur) fun x hx => hle x (List.mem_cons_of_mem _ hx)
      refine ⟨hcan, hmin, fun n => ?_⟩
      rw [hcar, mem_carrier_cons, ← or_assoc]
      refine or_congr_left ?_
      simp only [Range.Contains]
      omega
    · have hgap := not_le.mp hmeet
      refine ⟨h.cons hcur fun x hx => ?_, fun x hx => ?_, fun n => mem_carrier_cons _ _ _⟩
      · rcases List.mem_cons.mp hx with rfl | hx
        · exact hgap
        · exact hgap.trans (hr.trans (h.stop_lt x hx))
      · rcases List.mem_cons.mp hx with rfl | hx
        · exact le_rfl
        · exact hle x hx

/-- Adding a non-empty range. -/
theorem insert_spec {begin stop : ℕ} (hlt : begin < stop) {rs : List Range} (h : Canonical rs) :
    Canonical (insert begin stop rs) ∧
      (∀ m, m < begin → (∀ r ∈ rs, m < r.begin) → ∀ x ∈ insert begin stop rs, m < x.begin) ∧
      ∀ n, n ∈ carrier (insert begin stop rs) ↔ (begin ≤ n ∧ n < stop) ∨ n ∈ carrier rs := by
  induction rs with
  | nil =>
    exact ⟨Canonical.nil.cons hlt (by simp), fun m hm _ => by simpa [insert] using hm,
      fun n => mem_carrier_cons _ _ _⟩
  | cons r rs ih =>
    obtain ⟨hcan, hmin, hcar⟩ := ih h.tail
    have hr := h.head
    unfold insert
    split_ifs with hbefore hbehind
    · -- the range lies behind `r`
      refine ⟨hcan.cons hr (hmin r.stop hbefore h.stop_lt), fun m hm hmr x hx => ?_, fun n => ?_⟩
      · rcases List.mem_cons.mp hx with rfl | hx
        · exact hmr x List.mem_cons_self
        · exact hmin m hm (fun y hy => hmr y (List.mem_cons_of_mem _ hy)) x hx
      · rw [mem_carrier_cons, hcar, mem_carrier_cons, or_left_comm]
    · -- the range lies in front of `r`
      refine ⟨h.cons hlt fun x hx => ?_, fun m hm hmr x hx => ?_, fun n => mem_carrier_cons _ _ _⟩
      · rcases List.mem_cons.mp hx with rfl | hx
        · exact hbehind
        · exact hbehind.trans (hr.trans (h.stop_lt x hx))
      · rcases List.mem_cons.mp hx with rfl | hx
        · exact hm
        · exact hmr x hx
    · -- the range meets `r`
      obtain ⟨hcan', hmin', hcar'⟩ := absorb_spec
        ⟨min r.begin begin, max r.stop stop⟩ h.tail
        (lt_of_le_of_lt (min_le_right _ _) (lt_max_of_lt_right hlt)) fun x hx =>
          (min_le_left _ _).trans (hr.trans (h.stop_lt x hx)).le
      refine ⟨hcan', fun m hm hmr x hx => (lt_min (hmr r List.mem_cons_self) hm).trans_le
        (hmin' x hx), fun n => ?_⟩
      rw [hcar', mem_carrier_cons, ← or_assoc]
      refine or_congr_left ?_
      simp only [Range.Contains]
      omega

/-- Adding a range keeps a list canonical. -/
theorem Canonical.add {rs : List Range} (h : Canonical rs) (begin stop : ℕ) :
    Canonical (add rs begin stop) := by
  unfold Ranges.add
  split_ifs with hle
  · exact h
  · exact (insert_spec (not_le.mp hle) h).1

/-- **Adding a range** adds its numbers. -/
theorem mem_carrier_add {rs : List Range} (h : Canonical rs) (begin stop n : ℕ) :
    n ∈ carrier (add rs begin stop) ↔ (begin ≤ n ∧ n < stop) ∨ n ∈ carrier rs := by
  unfold Ranges.add
  split_ifs with hle
  · have hempty : ¬ (begin ≤ n ∧ n < stop) := by omega
    rw [or_iff_right hempty]
  · exact (insert_spec (not_le.mp hle) h).2.2 n

/-! ## Intersection -/

/-- The intersection: the overlap of the heads, then the rest behind the head that ends first. -/
def inter : List Range → List Range → List Range
  | [], _ => []
  | _ :: _, [] => []
  | l :: ls, r :: rs =>
    let rest := if l.stop < r.stop then inter ls (r :: rs) else inter (l :: ls) rs
    if max l.begin r.begin < min l.stop r.stop then
      ⟨max l.begin r.begin, min l.stop r.stop⟩ :: rest
    else rest
termination_by ls rs => ls.length + rs.length

/-- One step of the intersection, from the result behind the head that ends first: `rest` holds the
numbers of the tails and of the other head, and its ranges begin behind the end of the first. -/
private theorem inter_step {l r : Range} {ls rs rest : List Range} (hl : Canonical (l :: ls))
    (hr : Canonical (r :: rs)) (hrest : Canonical rest)
    (hmin : ∀ m, ((∀ x ∈ l :: ls, m < x.begin) ∨ ∀ x ∈ r :: rs, m < x.begin) →
      ∀ x ∈ rest, m < x.begin)
    (hbehind : ∀ x ∈ rest, min l.stop r.stop < x.begin)
    (hcar : ∀ n, n ∈ carrier rest ↔ min l.stop r.stop ≤ n ∧ n ∈ carrier (l :: ls) ∧
      n ∈ carrier (r :: rs)) {out : List Range}
    (hout : out = if max l.begin r.begin < min l.stop r.stop then
      ⟨max l.begin r.begin, min l.stop r.stop⟩ :: rest else rest) :
    Canonical out ∧
      (∀ m, ((∀ x ∈ l :: ls, m < x.begin) ∨ ∀ x ∈ r :: rs, m < x.begin) →
        ∀ x ∈ out, m < x.begin) ∧
      ∀ n, n ∈ carrier out ↔ n ∈ carrier (l :: ls) ∧ n ∈ carrier (r :: rs) := by
  have hheads : ∀ n, n < min l.stop r.stop → (n ∈ carrier (l :: ls) ∧ n ∈ carrier (r :: rs) ↔
      max l.begin r.begin ≤ n) := by
    intro n hn
    have hlt := lt_min_iff.mp hn
    refine ⟨fun ⟨h₁, h₂⟩ => max_le (hl.begin_le h₁) (hr.begin_le h₂), fun hmax => ?_⟩
    obtain ⟨h₁, h₂⟩ := max_le_iff.mp hmax
    exact ⟨(mem_carrier_cons _ _ _).mpr (Or.inl ⟨h₁, hlt.1⟩),
      (mem_carrier_cons _ _ _).mpr (Or.inl ⟨h₂, hlt.2⟩)⟩
  subst hout
  split_ifs with hoverlap
  · refine ⟨hrest.cons hoverlap hbehind, fun m hm x hx => ?_, fun n => ?_⟩
    · rcases List.mem_cons.mp hx with rfl | hx
      · rcases hm with hm | hm
        · exact lt_max_of_lt_left (hm l List.mem_cons_self)
        · exact lt_max_of_lt_right (hm r List.mem_cons_self)
      · exact hmin m hm x hx
    · rw [mem_carrier_cons, hcar]
      by_cases hn : n < min l.stop r.stop
      · rw [hheads n hn]
        simp only [Range.Contains, hn, and_true, not_le.mpr hn, false_and, or_false]
      · have hle := not_lt.mp hn
        simp only [Range.Contains, hn, and_false, hle, true_and, false_or]
  · refine ⟨hrest, hmin, fun n => ?_⟩
    rw [hcar]
    by_cases hn : n < min l.stop r.stop
    · rw [hheads n hn]
      omega
    · simp only [not_lt.mp hn, true_and]

/-- Behind the end of the head, a canonical list is its tail. -/
theorem Canonical.mem_tail_iff {r : Range} {rs : List Range} (h : Canonical (r :: rs)) (n : ℕ) :
    n ∈ carrier rs ↔ r.stop ≤ n ∧ n ∈ carrier (r :: rs) := by
  rw [mem_carrier_cons]
  refine ⟨fun hn => ⟨(h.stop_lt_of_mem hn).le, Or.inr hn⟩, fun ⟨hle, hn⟩ => ?_⟩
  rcases hn with hn | hn
  · exact absurd hn.2 (not_lt.mpr hle)
  · exact hn

/-- What the intersection computes.

**Proof sketch.** Induction along the two passes. The head that ends first is done with: what lies
before its end is the overlap of the heads, and the rest is the intersection without it. -/
theorem inter_spec {ls rs : List Range} (hl : Canonical ls) (hr : Canonical rs) :
    Canonical (inter ls rs) ∧
      (∀ m, ((∀ x ∈ ls, m < x.begin) ∨ ∀ x ∈ rs, m < x.begin) →
        ∀ x ∈ inter ls rs, m < x.begin) ∧
      ∀ n, n ∈ carrier (inter ls rs) ↔ n ∈ carrier ls ∧ n ∈ carrier rs := by
  induction ls, rs using inter.induct with
  | case1 rs => simp [inter, Canonical.nil]
  | case2 l ls => simp [inter, Canonical.nil]
  | case3 l ls r rs _ ih₁ ih₂ | case4 l ls r rs _ ih₁ ih₂ =>
    obtain ⟨hcan₁, hmin₁, hcar₁⟩ := ih₁ hl.tail hr
    obtain ⟨hcan₂, hmin₂, hcar₂⟩ := ih₂ hl hr.tail
    by_cases hlt : l.stop < r.stop
    · have hmin : min l.stop r.stop = l.stop := min_eq_left hlt.le
      refine inter_step hl hr hcan₁ (fun m hm => hmin₁ m (hm.imp_left fun h x hx =>
        h x (List.mem_cons_of_mem _ hx))) (hmin.symm ▸ hmin₁ l.stop (Or.inl hl.stop_lt)) (fun n => ?_)
        (by rw [inter, if_pos hlt])
      rw [hcar₁, hl.mem_tail_iff, hmin, and_assoc]
    · have hmin : min l.stop r.stop = r.stop := min_eq_right (not_lt.mp hlt)
      refine inter_step hl hr hcan₂ (fun m hm => hmin₂ m (hm.imp_right fun h x hx =>
        h x (List.mem_cons_of_mem _ hx))) (hmin.symm ▸ hmin₂ r.stop (Or.inr hr.stop_lt)) (fun n => ?_)
        (by rw [inter, if_neg hlt])
      rw [hcar₂, hr.mem_tail_iff, hmin, and_left_comm]

/-- The intersection is canonical. -/
theorem Canonical.inter {ls rs : List Range} (hl : Canonical ls) (hr : Canonical rs) :
    Canonical (inter ls rs) := (inter_spec hl hr).1

/-- **The intersection** holds the common numbers. -/
theorem mem_carrier_inter {ls rs : List Range} (hl : Canonical ls) (hr : Canonical rs) (n : ℕ) :
    n ∈ carrier (inter ls rs) ↔ n ∈ carrier ls ∧ n ∈ carrier rs := (inter_spec hl hr).2.2 n

end Ranges
