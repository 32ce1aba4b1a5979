import StackAnalyzer.Bounds.PredicateRanges
import StackAnalyzer.Llvm.Machine

set_option relaxedAutoImplicit false
set_option autoImplicit false

/-!
# Collected ranges

The range that is collected for a value is the intersection of the bounds of all comparisons of it
with constants, and of those of what is loaded from it. So its upper bound is the least one of
these, whatever the paths that the comparisons are on.

## Main definitions

* `StackAnalyzer.Bounds.comparison` — the comparison of a value with a constant.
* `StackAnalyzer.Bounds.ComparesKey` — a comparison that gives bounds for a value or a pointer.
* `StackAnalyzer.Bounds.AtMostBy` — what a comparison with an upper bound says about a number.

## Main results

* `StackAnalyzer.Bounds.upper_foldl` — the upper bound of some bounds.
* `StackAnalyzer.Bounds.upper_of_find` — **the collected upper bound** is the least one.
* `StackAnalyzer.Bounds.toNat_le_upper` — an upper bound as one of unsigned numbers.
-/

namespace StackAnalyzer.Bounds

open CrossTU Maps Llvm
open Smt (IntRange)

/-! ## Intersections -/

section Intersections

/-- The upper bound of an intersection. -/
theorem upper_intersectRange (target incoming : IntRange) :
    ((intersectRange target incoming).hasUpper = true ↔
        target.hasUpper = true ∨ incoming.hasUpper = true) ∧
      ((intersectRange target incoming).upper = incoming.upper ∧ incoming.hasUpper = true ∨
        (intersectRange target incoming).upper = target.upper ∧
          (incoming.hasUpper = true → target.hasUpper = true)) ∧
      (incoming.hasUpper = true → (intersectRange target incoming).upper ≤ incoming.upper) ∧
      (target.hasUpper = true → (intersectRange target incoming).upper ≤ target.upper) := by
  unfold intersectRange
  cases hincoming : incoming.hasUpper <;> cases htarget : target.hasUpper <;>
    by_cases hlt : incoming.upper < target.upper <;> simp only [Bool.false_and] <;>
    split_ifs <;> simp_all <;> omega

/-- **The upper bound of some bounds** is the least one. -/
theorem upper_foldl (bounds : List IntRange) :
    ((bounds.foldl intersectRange {}).hasUpper = true → ∃ b ∈ bounds, b.hasUpper = true ∧
        b.upper = (bounds.foldl intersectRange {}).upper) ∧
      ∀ b ∈ bounds, b.hasUpper = true → (bounds.foldl intersectRange {}).hasUpper = true ∧
        (bounds.foldl intersectRange {}).upper ≤ b.upper := by
  induction bounds using List.reverseRecOn with
  | nil => simp
  | append_singleton bounds last ih =>
    rw [List.foldl_concat]
    obtain ⟨hexists, hleast⟩ := ih
    obtain ⟨hhas, heq, hlast, hbefore⟩ :=
      upper_intersectRange (bounds.foldl intersectRange {}) last
    refine ⟨fun hupper => ?_, fun b hb hb' => ?_⟩
    · rcases heq with ⟨heq, hlast'⟩ | ⟨heq, himp⟩
      · exact ⟨last, by simp, hlast', heq.symm⟩
      · obtain ⟨b, hb, hb', hsame⟩ := hexists ((hhas.mp hupper).elim id himp)
        exact ⟨b, by simp [hb], hb', by rw [hsame, heq]⟩
    · rcases List.mem_append.mp hb with hb | hb
      · obtain ⟨hsome, hle⟩ := hleast b hb hb'
        exact ⟨hhas.mpr (Or.inl hsome), (hbefore hsome).trans hle⟩
      · obtain rfl := List.mem_singleton.mp hb
        exact ⟨hhas.mpr (Or.inr hb'), hlast hb'⟩

end Intersections

/-! ## What comparisons say -/

section Comparisons

/-- A comparison with a constant: the predicate, whether the other operand is the first one, and the
constant. -/
structure Comparison where
  predicate : Predicate
  valueIsOp0 : Bool
  constant : Word

/-- The bounds of a comparison. -/
def Comparison.bounds (c : Comparison) : IntRange :=
  boundsFromPredicate c.predicate c.valueIsOp0 c.constant.2

/-- **A number is at most the constant** of a comparison that gives an upper bound: it has the bits
of the constant, and it compares to it like this, a signed number being no negative one. For
equality, it may be less. -/
def AtMostBy (c : Comparison) (x : Word) : Prop :=
  x.1 = c.constant.1 ∧ x.1 ≤ 64 ∧
    match valuePredicate c.predicate c.valueIsOp0 with
    | .ult => x.2.toNat < c.constant.2.toNat
    | .ule => x.2.toNat ≤ c.constant.2.toNat
    | .slt => 0 ≤ x.2.toInt ∧ x.2.toInt < c.constant.2.toInt
    | .sle | .eq => 0 ≤ x.2.toInt ∧ x.2.toInt ≤ c.constant.2.toInt
    | _ => True

/-- A signed number that is not negative. -/
theorem toNat_eq_toInt {w : ℕ} {x : BitVec w} (h : 0 ≤ x.toInt) : (x.toNat : ℤ) = x.toInt := by
  rw [toInt_eq] at h ⊢
  split_ifs at h ⊢ with hmsb
  · have hlt := x.isLt
    have hcast : (x.toNat : ℤ) < 2 ^ w := by exact_mod_cast hlt
    omega
  · rfl

/-- **An upper bound that is positive** is one of the unsigned number, too, if the comparison says
that it is at most the constant. -/
theorem toNat_le_upper {c : Comparison} {x : Word} (hupper : c.bounds.hasUpper = true)
    (hpos : 0 < c.bounds.upper) (h : AtMostBy c x) : (x.2.toNat : ℤ) ≤ c.bounds.upper := by
  obtain ⟨predicate, valueIsOp0, width, bits⟩ := c
  obtain ⟨xwidth, x⟩ := x
  obtain ⟨rfl, hw, hcompare⟩ := h
  simp only [Comparison.bounds] at *
  obtain ⟨hlow, hhigh⟩ := toInt_mem hw bits
  have hlt := x.isLt
  rw [boundsFromPredicate_eq] at hupper hpos ⊢
  generalize valuePredicate predicate valueIsOp0 = p at *
  cases p with
  | eq =>
    rw [toNat_eq_toInt hcompare.1]
    exact hcompare.2
  | sle =>
    rw [toNat_eq_toInt hcompare.1]
    exact hcompare.2
  | slt =>
    rw [toNat_eq_toInt hcompare.1]
    simp only [atMost] at hcompare ⊢
    rw [wrap64_of_mem (by omega) (by omega)]
    omega
  | ule =>
    simp only [atMost] at hcompare hpos ⊢
    rcases large_or (c := bits) hw with hsmall | ⟨rfl, hlarge⟩
    · rw [(wrap64_toNat_eq hw hsmall).1]
      omega
    · have hneg := (wrap64_toNat_large hlarge).2.1
      omega
  | ult =>
    simp only [atMost] at hcompare hpos ⊢
    rcases large_or (c := bits) hw with hsmall | ⟨rfl, hlarge⟩
    · obtain ⟨heq, hsmall'⟩ := wrap64_toNat_eq hw hsmall
      rw [heq, wrap64_of_mem (by omega) (by omega)]
      omega
    · obtain ⟨heq, hneg, hge⟩ := wrap64_toNat_large hlarge
      -- only the least negative number becomes a positive one
      by_cases hleast : wrap64 bits.toNat = -2 ^ 63
      · have hmax : wrap64 (-2 ^ 63 - 1) = 2 ^ 63 - 1 := by decide
        rw [hleast, hmax]
        omega
      · rw [wrap64_of_mem (by omega) (by omega)] at hpos
        omega
  | ne | ugt | uge | sgt | sge => cases hupper

end Comparisons

/-! ## The range of a value -/

section Collected

variable {F V B : Type*} (mod : Module F V B)

/-- The operand that is compared with a constant, and the comparison. -/
def constantComparison (pred : Predicate) (op0 op1 : V) : Option (V × Comparison) :=
  match mod.value op0, mod.value op1 with
  | .constantInt _ _, .constantInt _ _ => none
  | _, .constantInt width c => some (op0, ⟨pred, true, width, c⟩)
  | .constantInt width c, _ => some (op1, ⟨pred, false, width, c⟩)
  | _, _ => none

/-- The value that an instruction compares with a constant, and the comparison. -/
def comparison (inst : V) : Option (V × Comparison) :=
  match mod.value inst with
  | .icmp pred op0 op1 => constantComparison mod pred op0 op1
  | _ => none

/-- **A comparison that gives bounds** for a value, or for the pointer that a value is loaded
from. -/
def ComparesKey (f : F) (key : V) (c : Comparison) : Prop :=
  ∃ inst ∈ mod.functionInstructions f, ∃ v, comparison mod inst = some (v, c) ∧
    (v = key ∨ mod.value v = .load key)

/-- What an instruction says about values and pointers. -/
def constraints (inst : V) : List (V × IntRange) :=
  match comparison mod inst with
  | none => []
  | some (v, c) =>
    if c.bounds.hasLower || c.bounds.hasUpper then
      match mod.value v with
      | .load pointer => [(v, c.bounds), (pointer, c.bounds)]
      | _ => [(v, c.bounds)]
    else []

variable {mod}

/-- What is said about a key. -/
theorem mem_constraints_iff {inst key : V} {bounds : IntRange} :
    (key, bounds) ∈ constraints mod inst ↔ ∃ v c, comparison mod inst = some (v, c) ∧
      (v = key ∨ mod.value v = .load key) ∧ bounds = c.bounds ∧
      (c.bounds.hasLower || c.bounds.hasUpper) = true := by
  unfold constraints
  cases hcomparison : comparison mod inst with
  | none => simp
  | some compared =>
    obtain ⟨v, c⟩ := compared
    simp only [Option.some.injEq, Prod.mk.injEq]
    by_cases hbounds : (c.bounds.hasLower || c.bounds.hasUpper) = true
    · rw [if_pos hbounds]
      constructor
      · intro h
        refine ⟨v, c, ⟨rfl, rfl⟩, ?_⟩
        cases hvalue : mod.value v
        case load pointer =>
          simp only [hvalue, List.mem_cons, Prod.mk.injEq, List.not_mem_nil, or_false] at h
          rcases h with ⟨rfl, rfl⟩ | ⟨rfl, rfl⟩
          · exact ⟨Or.inl rfl, rfl, hbounds⟩
          · exact ⟨Or.inr rfl, rfl, hbounds⟩
        all_goals
          simp only [hvalue, List.mem_cons, Prod.mk.injEq, List.not_mem_nil, or_false] at h
          obtain ⟨rfl, rfl⟩ := h
          exact ⟨Or.inl rfl, rfl, hbounds⟩
      · rintro ⟨v, c, ⟨rfl, rfl⟩, rfl | hload, rfl, -⟩
        · split <;> simp
        · simp [hload]
    · rw [if_neg hbounds]
      refine ⟨fun h => absurd h List.not_mem_nil, ?_⟩
      rintro ⟨v, c, ⟨rfl, rfl⟩, -, -, h⟩
      exact absurd h hbounds

variable [DecidableEq V]

omit [DecidableEq V] in
/-- The bounds of the operand that is compared with a constant. -/
theorem comparedWithConstant_eq (pred : Predicate) (op0 op1 : V) :
    comparedWithConstant mod pred op0 op1 =
      (constantComparison mod pred op0 op1).map fun compared => (compared.1, compared.2.bounds) := by
  unfold comparedWithConstant constantComparison
  cases mod.value op0 <;> cases mod.value op1 <;> rfl

/-- One step of the loop applies what an instruction says. -/
theorem collectICmp_eq (ranges : EntryMap V IntRange) (inst : V) :
    collectICmp mod ranges inst =
      (constraints mod inst).foldl (fun ranges e => applyConstraint ranges e.1 e.2) ranges := by
  unfold collectICmp constraints comparison
  cases mod.value inst
  case icmp pred op0 op1 =>
    simp only [comparedWithConstant_eq]
    cases constantComparison mod pred op0 op1 with
    | none => rfl
    | some compared =>
      simp only [Option.map_some]
      split_ifs
      · cases mod.value compared.1 <;> rfl
      · rfl
  all_goals rfl

/-- The bounds of a key in some constraints, in order. -/
def boundsFor (key : V) (constraints : List (V × IntRange)) : List IntRange :=
  constraints.filterMap fun e => if e.1 = key then some e.2 else none

theorem mem_boundsFor {key : V} {bounds : IntRange} {constraints : List (V × IntRange)} :
    bounds ∈ boundsFor key constraints ↔ (key, bounds) ∈ constraints := by
  simp only [boundsFor, List.mem_filterMap]
  constructor
  · rintro ⟨⟨v, b⟩, hmem, heq⟩
    split_ifs at heq with hkey
    obtain rfl := Option.some.inj heq
    obtain rfl : v = key := hkey
    exact hmem
  · exact fun hmem => ⟨_, hmem, if_pos rfl⟩

/-- The range of a key after some constraints. -/
theorem find_foldl_applyConstraint (key : V) (constraints : List (V × IntRange))
    (ranges : EntryMap V IntRange) :
    (constraints.foldl (fun ranges e => applyConstraint ranges e.1 e.2) ranges).find key =
      if boundsFor key constraints = [] then ranges.find key
      else some ((boundsFor key constraints).foldl intersectRange ((ranges.find key).getD {})) := by
  induction constraints generalizing ranges with
  | nil => rfl
  | cons e constraints ih =>
    rw [List.foldl_cons, ih]
    simp only [applyConstraint, EntryMap.find_assign]
    by_cases hkey : e.1 = key
    · subst hkey
      have hcons : boundsFor e.1 (e :: constraints) = e.2 :: boundsFor e.1 constraints := by
        simp [boundsFor]
      rw [hcons, if_neg (List.cons_ne_nil _ _), List.foldl_cons, if_pos rfl, Option.getD_some]
      by_cases hnil : boundsFor e.1 constraints = []
      · rw [if_pos hnil, hnil, List.foldl_nil]
      · rw [if_neg hnil]
    · have hcons : boundsFor key (e :: constraints) = boundsFor key constraints := by
        simp [boundsFor, hkey]
      rw [hcons, if_neg hkey]

/-- All constraints of a function. -/
def functionConstraints (mod : Module F V B) (f : F) : List (V × IntRange) :=
  (mod.functionInstructions f).flatMap (constraints mod)

/-- **The range that is collected** for a value or a pointer. -/
theorem find_computeIntRangesFromICmps (f : F) (key : V) :
    (computeIntRangesFromICmps mod f).find key =
      if boundsFor key (functionConstraints mod f) = [] then none
      else some ((boundsFor key (functionConstraints mod f)).foldl intersectRange {}) := by
  have hfold : computeIntRangesFromICmps mod f = (functionConstraints mod f).foldl
      (fun ranges e => applyConstraint ranges e.1 e.2) EntryMap.empty := by
    rw [computeIntRangesFromICmps, functionConstraints, List.foldl_flatMap]
    exact congrArg (fun step => List.foldl step _ _)
      (funext fun ranges => funext fun inst => collectICmp_eq ranges inst)
  rw [hfold, find_foldl_applyConstraint, EntryMap.find_empty, Option.getD_none]

/-- Its bounds are those of the comparisons. -/
theorem mem_boundsFor_function_iff {f : F} {key : V} {bounds : IntRange} :
    bounds ∈ boundsFor key (functionConstraints mod f) ↔ ∃ c, ComparesKey mod f key c ∧
      bounds = c.bounds ∧ (c.bounds.hasLower || c.bounds.hasUpper) = true := by
  rw [mem_boundsFor, functionConstraints, List.mem_flatMap]
  simp only [mem_constraints_iff]
  constructor
  · rintro ⟨inst, hinst, v, c, hcomparison, hkey, rfl, hsome⟩
    exact ⟨c, ⟨inst, hinst, v, hcomparison, hkey⟩, rfl, hsome⟩
  · rintro ⟨c, ⟨inst, hinst, v, hcomparison, hkey⟩, rfl, hsome⟩
    exact ⟨inst, hinst, v, c, hcomparison, hkey, rfl, hsome⟩

/-- **The collected upper bound** of a key is the least one of all comparisons. -/
theorem upper_of_find {f : F} {key : V} {range : IntRange}
    (hfind : (computeIntRangesFromICmps mod f).find key = some range)
    (hupper : range.hasUpper = true) :
    (∃ c, ComparesKey mod f key c ∧ c.bounds.hasUpper = true ∧ c.bounds.upper = range.upper) ∧
      ∀ c, ComparesKey mod f key c → c.bounds.hasUpper = true → range.upper ≤ c.bounds.upper := by
  rw [find_computeIntRangesFromICmps] at hfind
  split_ifs at hfind
  obtain rfl := Option.some.inj hfind
  obtain ⟨hexists, hleast⟩ := upper_foldl (boundsFor key (functionConstraints mod f))
  refine ⟨?_, fun c hc hc' => ?_⟩
  · obtain ⟨b, hb, hb', hsame⟩ := hexists hupper
    obtain ⟨c, hc, rfl, -⟩ := mem_boundsFor_function_iff.mp hb
    exact ⟨c, hc, hb', hsame⟩
  · refine (hleast c.bounds (mem_boundsFor_function_iff.mpr ⟨c, hc, rfl, ?_⟩) hc').2
    rw [hc', Bool.or_true]

end Collected

end StackAnalyzer.Bounds
