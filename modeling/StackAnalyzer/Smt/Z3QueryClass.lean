import StackAnalyzer.Smt.Z3Soundness

set_option relaxedAutoImplicit false
set_option autoImplicit false

/-!
# Which queries Z3 refutes rightly

A class of queries is given by a symbol table, the symbols that occur and their widths, and the
constants and intervals that may occur. If Z3 is correct, the refutations of all queries of a class
are right iff the symbols have different names at each width, negative constants have at most
64 bits, and bounds keep their order when they are cut to the width of their symbol.

## Main definitions

* `StackAnalyzer.Smt.Z3Backend.QueryClass` — a class of queries.
* `QueryClass.NamesApart`, `QueryClass.ConstantsKept`, `QueryClass.BoundsKept` — the three
  conditions.

## Main results

* `StackAnalyzer.Smt.Z3Backend.QueryClass.refutationSound_iff` — the conditions are exact.
-/

namespace StackAnalyzer.Smt.Z3Backend

open Z3 ConstraintIR

/-! ## Classes of queries -/

/-- The numbers of 64 bits. -/
def IsInt64 (z : ℤ) : Prop := -2 ^ 63 ≤ z ∧ z < 2 ^ 63

/-- **A class of queries**: the symbol table, the symbols that occur with their widths, the constants
with their widths and the intervals. -/
structure QueryClass (V : Type*) where
  table : List (SymbolInfo V)
  symbols : Set SymbolId
  width : SymbolId → ℕ
  constants : Set (ℤ × ℕ)
  intervals : Set IntervalConstraint
  one_le_width : ∀ s, 1 ≤ width s
  one_le_constant_width : ∀ p ∈ constants, 1 ≤ p.2
  isInt64_constant : ∀ p ∈ constants, IsInt64 p.1
  isInt64_bounds : ∀ c ∈ intervals, IsInt64 c.lower ∧ IsInt64 c.upper

namespace QueryClass

variable {V : Type*} (C : QueryClass V)

/-- A query of the class: its nodes are well typed, and all that occurs in it is of the class. -/
structure Contains (ir : ConstraintIR V) : Prop where
  wellTyped : ir.WellTyped
  symbols_eq : ir.symbols = C.table
  symbol : ∀ n ∈ ir.nodes, n.kind = .symbol →
    n.symbol ∈ C.symbols ∧ normalizeBitWidth n.bitWidth = C.width n.symbol
  constant : ∀ n ∈ ir.nodes, n.kind = .constant →
    (n.constant, normalizeBitWidth n.bitWidth) ∈ C.constants
  interval : ∀ c ∈ ir.intervals, c ∈ C.intervals ∧ c.symbol ∈ C.symbols ∧
    (collectBitWidths ir c.symbol).getD 64 = C.width c.symbol

/-- The name of the constant of Z3 for a symbol. -/
def z3Name (s : SymbolId) : String := cStr (symbolName (collectNames C.table) s)

/-- Symbols of one width have different names. -/
def NamesApart : Prop :=
  ∀ s ∈ C.symbols, ∀ t ∈ C.symbols, s ≠ 0 → t ≠ 0 → C.width s = C.width t →
    C.z3Name s = C.z3Name t → s = t

/-- Constants of more than 64 bits are not negative. -/
def ConstantsKept : Prop := ∀ p ∈ C.constants, 64 < p.2 → 0 ≤ p.1

/-- Bounds of a symbol keep their order when they are cut, if some value is within them. -/
def BoundsKept : Prop :=
  ∀ c ∈ C.intervals, ∀ c' ∈ C.intervals, c.symbol ∈ C.symbols → c.symbol ≠ 0 →
    c'.symbol = c.symbol →
    (∃ x : BitVec (C.width c.symbol), c.Holds ⟨_, x⟩ ∧ c'.Holds ⟨_, x⟩) →
      c.hasLower = true → c'.hasUpper = true →
        cutBound (C.width c.symbol) c.lower ≤ cutBound (C.width c.symbol) c'.upper

/-! ## Models from values -/

/-- The model that gives every symbol of the class a value. -/
noncomputable def modelOf (values : (s : SymbolId) → BitVec (C.width s)) (name : String) (w : ℕ) :
    BitVec w := by
  classical
  exact if h : ∃ s ∈ C.symbols, s ≠ 0 ∧ C.z3Name s = name ∧ C.width s = w then
    (values h.choose).setWidth w else 0

variable {C}

/-- If names are apart, the model gives the constant of a symbol the symbol's value. -/
theorem modelOf_z3Name (hapart : C.NamesApart) (values : (s : SymbolId) → BitVec (C.width s))
    {s : SymbolId} (hs : s ∈ C.symbols) (hne : s ≠ 0) :
    C.modelOf values (C.z3Name s) (C.width s) = values s := by
  classical
  have h : ∃ t ∈ C.symbols, t ≠ 0 ∧ C.z3Name t = C.z3Name s ∧ C.width t = C.width s :=
    ⟨s, hs, hne, rfl, rfl⟩
  obtain ⟨hmem, hne', hname, hwidth⟩ := h.choose_spec
  have hchoose : h.choose = s := hapart _ hmem s hs hne' hne hwidth hname
  have hvalue : ∀ t, t = s → (values t).setWidth (C.width s) = values s := by
    rintro t rfl
    exact BitVec.setWidth_eq _
  unfold modelOf
  rw [dif_pos h]
  exact hvalue _ hchoose

/-- The value of a symbol, at its width. -/
theorem eq_val_of_atWidth {b : Bits} {w : ℕ} (hwidth : b.width = w) {f : (w : ℕ) → BitVec w}
    (h : f w = b.atWidth w) : f b.width = b.val := by
  subst hwidth
  rw [h, Bits.atWidth_self]

/-! ## Constants -/

/-- A constant is kept if it is not negative or has at most 64 bits. -/
theorem makeBvConstant_eq {z : ℤ} (hz : IsInt64 z) {w : ℕ}
    (hkept : 64 < normalizeBitWidth w → 0 ≤ z) :
    makeBvConstant z w = ⟨normalizeBitWidth w, BitVec.ofInt _ z⟩ := by
  have hval : BitVec.ofNat (normalizeBitWidth w) (BitVec.ofInt 64 z).toNat = BitVec.ofInt _ z := by
    have hcut : (BitVec.ofNat (normalizeBitWidth w) (BitVec.ofInt 64 z).toNat).toInt =
        cutBound (normalizeBitWidth w) z := toInt_makeBvConstant z w
    apply BitVec.eq_of_toInt_eq
    rw [hcut, BitVec.toInt_ofInt, cutBound]
    split_ifs with hw
    · rfl
    · have hnonneg := hkept (by omega)
      have hlt : z < 2 ^ 64 := hz.2.trans (by norm_num)
      have hpow : 2 ^ 65 ≤ 2 ^ normalizeBitWidth w := Nat.pow_le_pow_right (by omega) (by omega)
      rw [Int.emod_eq_of_lt hnonneg hlt]
      exact (Int.bmod_eq_of_le (by omega) (by omega)).symm
  exact congrArg (Bits.mk (normalizeBitWidth w)) hval

/-! ## Refutations are right -/

section Sound

variable {z3 : Solver} {ir : ConstraintIR V} {assignment : SymbolId → Bits}

/-- The values of an assignment are a model of the expressions for its nodes. -/
theorem interprets_of_fits (hir : C.Contains ir) (hapart : C.NamesApart)
    (hkept : C.ConstantsKept) (hfits : ir.Fits assignment) :
    Interprets ir (collectNames ir.symbols) assignment
      (C.modelOf fun s => (assignment s).atWidth (C.width s)) := by
  refine ⟨fun n hn hkind hne => ?_, fun n hn hkind => ?_⟩
  · obtain ⟨hmem, hwidth⟩ := hir.symbol n hn hkind
    rw [hir.symbols_eq]
    have hvalue := modelOf_z3Name hapart (fun s => (assignment s).atWidth (C.width s)) hmem hne
    exact eq_val_of_atWidth ((hfits n hn hkind).trans hwidth) hvalue
  · have hmem := hir.constant n hn hkind
    have hconstant := makeBvConstant_eq (w := normalizeBitWidth n.bitWidth)
      (C.isInt64_constant _ hmem) fun hlt => hkept _ hmem (by
        rwa [normalizeBitWidth_normalizeBitWidth] at hlt)
    rw [hconstant]
    exact congrArg (fun w => (⟨w, BitVec.ofInt w n.constant⟩ : Bits))
      (normalizeBitWidth_normalizeBitWidth n.bitWidth)

/-- A number within bounds of 64 bits has a number of 64 bits beside it that is within them. -/
theorem exists_int64_within (z : ℤ) : ∃ x : BitVec 64, ∀ c : IntervalConstraint,
    IsInt64 c.lower → IsInt64 c.upper →
      (c.hasLower = true → c.lower ≤ z) ∧ (c.hasUpper = true → z ≤ c.upper) →
        c.Holds ⟨64, x⟩ := by
  have hint : ∀ y : ℤ, -2 ^ 63 ≤ y → y < 2 ^ 63 → (BitVec.ofInt 64 y).toInt = y := by
    intro y hlower hupper
    rw [BitVec.toInt_ofInt]
    exact Int.bmod_eq_of_le (by omega) (by omega)
  refine ⟨BitVec.ofInt 64 (max (-2 ^ 63) (min z (2 ^ 63 - 1))), fun c hlower hupper hz => ?_⟩
  have hx := hint (max (-2 ^ 63) (min z (2 ^ 63 - 1))) (by omega) (by omega)
  unfold IsInt64 at hlower hupper
  refine ⟨fun h => ?_, fun h => ?_⟩
  · have hle := hz.1 h
    simp only [hx]
    omega
  · have hle := hz.2 h
    simp only [hx]
    omega

/-- The width that the backend takes for a symbol is that of the symbol's value, or the symbol has
no node. -/
theorem width_eq_of_fits (hfits : ir.Fits assignment) (s : SymbolId) :
    (assignment s).width = (collectBitWidths ir s).getD 64 ∨
      (collectBitWidths ir s).getD 64 = 64 := by
  unfold collectBitWidths
  cases hfind : ir.nodes.find? fun node =>
      decide (node.kind = .symbol ∧ node.symbol ≠ 0 ∧ node.symbol = s) with
  | none => exact Or.inr rfl
  | some n =>
    have hn := List.find?_some hfind
    obtain ⟨hkind, -, rfl⟩ := of_decide_eq_true hn
    exact Or.inl (hfits n (List.mem_of_find?_eq_some hfind) hkind)

/-- If the intervals hold of an assignment, every symbol has a value within its intervals as Z3
reads them. -/
theorem exists_forall_holdsCut_of_holds (hir : C.Contains ir) (hbounds : C.BoundsKept)
    (hfits : ir.Fits assignment) (hholds : ∀ c ∈ ir.intervals, c.Holds (assignment c.symbol)) :
    ∀ s, ∃ x : BitVec (C.width s), ∀ c ∈ ir.intervals, c.symbol = s → s ≠ 0 →
      HoldsCut c (C.width s) x.toInt := by
  intro s
  have hfit : ∀ c ∈ ir.intervals.filter fun c => decide (c.symbol = s ∧ s ≠ 0),
      ∀ c' ∈ ir.intervals.filter fun c => decide (c.symbol = s ∧ s ≠ 0),
        c.hasLower = true → c'.hasUpper = true →
          cutBound (C.width s) c.lower ≤ cutBound (C.width s) c'.upper := by
    intro c hc c' hc' hlower hupper
    obtain ⟨hin, hs⟩ := List.mem_filter.mp hc
    obtain ⟨hin', hs'⟩ := List.mem_filter.mp hc'
    obtain ⟨rfl, hne⟩ := of_decide_eq_true hs
    obtain ⟨hs', -⟩ := of_decide_eq_true hs'
    obtain ⟨hmem, hsymbol, hwidth⟩ := hir.interval c hin
    obtain ⟨hmem', -, -⟩ := hir.interval c' hin'
    refine hbounds c hmem c' hmem' hsymbol hne hs' ?_ hlower hupper
    have hcx := hholds c hin
    have hcx' := hholds c' hin'
    rw [hs'] at hcx'
    rw [← hwidth]
    rcases width_eq_of_fits hfits c.symbol with heq | heq
    · rw [← heq]
      exact ⟨(assignment c.symbol).val, hcx, hcx'⟩
    · rw [heq]
      obtain ⟨x, hx⟩ := exists_int64_within (assignment c.symbol).val.toInt
      obtain ⟨hl, hu⟩ := C.isInt64_bounds c hmem
      obtain ⟨hl', hu'⟩ := C.isInt64_bounds c' hmem'
      exact ⟨x, hx c hl hu hcx, hx c' hl' hu' hcx'⟩
  obtain ⟨x, hx⟩ := exists_forall_holdsCut (C.one_le_width s) _ hfit
  exact ⟨x, fun c hc hs hne => hx c (List.mem_filter.mpr ⟨hc, decide_eq_true ⟨hs, hne⟩⟩)⟩

/-- What a translation of a query consists of. -/
theorem translate_eq_ok {es : List Expr} {s' : TranslationState}
    (h : translate z3 ir = .ok (some es, s')) :
    (ir.assertions = [] ∧
        assertIntervals ir (collectNames ir.symbols) ir.intervals {} = .ok (some es, s')) ∨
      (ir.assertions ≠ [] ∧
        assertAll z3 ir (collectNames ir.symbols) ir.assertions {} = .ok (some es, s')) := by
  unfold translate at h
  by_cases hempty : ir.assertions = []
  · simp only [hempty, List.isEmpty_nil, if_true] at h
    obtain ⟨⟨bounds, s₁⟩, hbounds, h⟩ := bind_eq_ok.mp h
    cases bounds with
    | none => cases h
    | some bounds =>
      obtain ⟨⟨asserted, s₂⟩, hasserted, h⟩ := bind_eq_ok.mp h
      obtain ⟨rfl, rfl⟩ := Prod.mk.inj (Except.ok.inj hasserted)
      obtain ⟨hes, rfl⟩ := Prod.mk.inj (Except.ok.inj h)
      obtain rfl := Option.some.inj hes
      exact Or.inl ⟨hempty, by simpa using hbounds⟩
  · simp only [List.isEmpty_iff, hempty, if_false] at h
    obtain ⟨⟨bounds, s₁⟩, hbounds, h⟩ := bind_eq_ok.mp h
    obtain ⟨rfl, rfl⟩ := Prod.mk.inj (Except.ok.inj hbounds)
    obtain ⟨⟨asserted, s₂⟩, hasserted, h⟩ := bind_eq_ok.mp h
    obtain ⟨hes, rfl⟩ := Prod.mk.inj (Except.ok.inj h)
    obtain ⟨es', rfl, rfl⟩ := Option.map_eq_some_iff.mp hes
    exact Or.inr ⟨hempty, hasserted⟩

/-- **A query that can be satisfied is translated to expressions with a model.** -/
theorem hasModel_of_translate (hir : C.Contains ir) (hapart : C.NamesApart)
    (hkept : C.ConstantsKept) (hbounds : C.BoundsKept) (hsat : ir.Satisfiable) {es : List Expr}
    {s' : TranslationState} (h : translate z3 ir = .ok (some es, s')) : HasModel es := by
  obtain ⟨assignment, hfits, hassertions, hintervals⟩ := hsat
  have hempty : ∀ model, Agrees ir (collectNames ir.symbols) assignment model {} := fun model =>
    ⟨fun _ _ h => (by cases h), fun _ _ h => (by cases h)⟩
  rcases translate_eq_ok h with ⟨hnone, h⟩ | ⟨-, h⟩
  · have hcut := exists_forall_holdsCut_of_holds hir hbounds hfits (hintervals hnone)
    refine ⟨C.modelOf fun s => (hcut s).choose, ?_⟩
    refine (eval_of_assertIntervals (fun c hc hne w hw => ?_) (hempty _) h).2
    obtain ⟨-, hsymbol, hwidth⟩ := hir.interval c hc
    have hone := C.one_le_width c.symbol
    rw [hwidth, normalizeBitWidth, if_neg (by omega)] at hw
    subst hw
    rw [hir.symbols_eq, show cStr (symbolName (collectNames C.table) c.symbol) =
      C.z3Name c.symbol from rfl, modelOf_z3Name hapart _ hsymbol hne]
    exact (hcut c.symbol).choose_spec c hc rfl hne
  · exact ⟨_, eval_of_assertAll (interprets_of_fits hir hapart hkept hfits) hassertions
      (hempty _) h⟩

end Sound

end QueryClass

/-! ## Queries that are refuted wrongly -/

section Refuted

variable {V : Type*}

/-- The solver that decides all queries. -/
noncomputable def exactSolver : Solver where
  check _ assertions := by
    classical
    exact if HasModel assertions then .ok .sat else .ok .unsat
  sortError _ := ""
  widthError _ := ""

theorem exactSolver_check {timeoutMs : ℕ} {assertions : List Expr} (h : ¬ HasModel assertions) :
    exactSolver.check timeoutMs assertions = .ok .unsat := by
  classical
  exact if_neg h

theorem exactSolver_correct : exactSolver.Correct := by
  classical
  refine ⟨fun timeoutMs assertions h hmodel => ?_, fun timeoutMs assertions h => ?_⟩
  · have hsat : exactSolver.check timeoutMs assertions = .ok .sat := if_pos hmodel
    rw [hsat] at h
    cases h
  · by_contra hnot
    rw [exactSolver_check hnot] at h
    cases h

/-- When the backend refutes a query, its translation has been refuted. -/
theorem translate_of_solve_unsat {z3 : Solver} {query : SmtQuery V}
    (h : (solve z3 query).status = .unsat) : ∃ es s, translate z3 query.ir = .ok (some es, s) ∧
      z3.check query.timeoutMs es = .ok .unsat := by
  unfold solve at h
  split_ifs at h
  split at h
  · cases h
  · cases h
  · next es s htranslate =>
    refine ⟨es, s, htranslate, ?_⟩
    split at h
    · cases h
    · cases h
    · next hcheck => exact hcheck
    · simp only at h
      split_ifs at h

/-- A query whose translation has no model is refuted by the exact solver. -/
theorem solve_exactSolver {ir : ConstraintIR V} {es : List Expr}
    (h : (translate exactSolver ir).map Prod.fst = .ok (some es)) (hes : ¬ HasModel es) :
    (solve exactSolver { ir := ir, budgetNodes := 0 }).status = .unsat := by
  unfold solve
  rw [if_neg (by simp)]
  cases htranslate : translate exactSolver ir with
  | error exception =>
    rw [htranslate] at h
    cases h
  | ok result =>
    obtain ⟨r, s⟩ := result
    rw [htranslate] at h
    obtain rfl : r = some es := Except.ok.inj h
    simp only [exactSolver_check hes]

/-- The query that two symbols differ. -/
def twoSymbols (table : List (SymbolInfo V)) (s t : SymbolId) (w : ℕ) : ConstraintIR V where
  symbols := table
  nodes :=
    [{ kind := .symbol, symbol := s, bitWidth := w },
      { kind := .symbol, symbol := t, bitWidth := w }, { kind := .ne, lhs := 0, rhs := 1 }]
  assertions := [2]

theorem translate_twoSymbols (z3 : Solver) (table : List (SymbolInfo V)) {s t : SymbolId} {w : ℕ}
    (hs : s ≠ 0) (ht : t ≠ 0) (hst : s ≠ t) (hw : 1 ≤ w) :
    (translate z3 (twoSymbols table s t w)).map Prod.fst =
      .ok (some [.app .distinct (.const (cStr (symbolName (collectNames table) s)) w)
        (.const (cStr (symbolName (collectNames table) t)) w)]) := by
  have hnormal : normalizeBitWidth w = w := if_neg (by omega)
  simp [translate, twoSymbols, assertAll, buildExpr, buildNode, withOperands, withOperand, andThen,
    getOrCreateSymbol, memoize, binaryOp, hs, ht, hst.symm, hnormal, Expr.sort, Op.sort,
    bind, Except.bind, pure, Except.pure, Except.map]

/-- The query that a constant is less than zero, written as the constant less itself. -/
def negativeConstant (table : List (SymbolInfo V)) (z : ℤ) (w : ℕ) : ConstraintIR V where
  symbols := table
  nodes :=
    [{ kind := .constant, constant := z, bitWidth := w }, { kind := .sub, lhs := 0, rhs := 0 },
      { kind := .slt, lhs := 0, rhs := 1 }]
  assertions := [2]

theorem translate_negativeConstant (z3 : Solver) (table : List (SymbolInfo V)) (z : ℤ) {w : ℕ}
    (hw : 1 ≤ w) :
    (translate z3 (negativeConstant table z w)).map Prod.fst =
      .ok (some [.app .bvslt (.numeral (makeBvConstant z w))
        (.app .bvsub (.numeral (makeBvConstant z w)) (.numeral (makeBvConstant z w)))]) := by
  have hnormal : normalizeBitWidth w = w := if_neg (by omega)
  simp [translate, negativeConstant, assertAll, buildExpr, buildNode, withOperands, andThen,
    memoize, binaryOp, hnormal, Expr.sort, Op.sort,
    bind, Except.bind, pure, Except.pure, Except.map]

/-- The query of two intervals of a symbol. -/
def twoIntervals (table : List (SymbolInfo V)) (c c' : IntervalConstraint) (w : ℕ) :
    ConstraintIR V where
  symbols := table
  nodes := [{ kind := .symbol, symbol := c.symbol, bitWidth := w }]
  intervals := [c, c']

theorem translate_twoIntervals (z3 : Solver) (table : List (SymbolInfo V))
    {c c' : IntervalConstraint} {w : ℕ} (hne : c.symbol ≠ 0) (hsymbol : c'.symbol = c.symbol)
    (hw : 1 ≤ w) :
    (translate z3 (twoIntervals table c c' w)).map Prod.fst =
      .ok (some (intervalBounds
          (.const (cStr (symbolName (collectNames table) c.symbol)) (normalizeBitWidth w)) w c ++
        intervalBounds
          (.const (cStr (symbolName (collectNames table) c.symbol)) (normalizeBitWidth w)) w c')) := by
  have hnormal : normalizeBitWidth w = w := if_neg (by omega)
  simp [translate, twoIntervals, assertAll, assertIntervals, collectBitWidths, getOrCreateSymbol,
    hne, hsymbol, hnormal, bind, Except.bind, pure, Except.pure, Except.map]

/-- The query that two symbols of one width differ is well typed and can be satisfied. -/
theorem twoSymbols_wellTyped (table : List (SymbolInfo V)) (s t : SymbolId) (w : ℕ) :
    (twoSymbols table s t w).WellTyped := by
  have hs : (twoSymbols table s t w).HasSort 0 (.bits (normalizeBitWidth w)) :=
    .leaf (n := { kind := .symbol, symbol := s, bitWidth := w }) rfl (Or.inl rfl)
  have ht : (twoSymbols table s t w).HasSort 1 (.bits (normalizeBitWidth w)) :=
    .leaf (n := { kind := .symbol, symbol := t, bitWidth := w }) rfl (Or.inl rfl)
  have hne : (twoSymbols table s t w).HasSort 2 .bool :=
    .binary rfl hs ht (by simp [binarySort, isArithmetic, isComparison])
  refine ⟨fun id hid => ?_, fun id hid => ?_⟩
  · have hlt : id < 3 := hid
    interval_cases id
    · exact ⟨_, hs⟩
    · exact ⟨_, ht⟩
    · exact ⟨_, hne⟩
  · rw [List.mem_singleton.mp hid]
    exact hne

theorem twoSymbols_satisfiable (table : List (SymbolInfo V)) {s t : SymbolId} (hst : s ≠ t)
    {w : ℕ} (hw : 1 ≤ w) : (twoSymbols table s t w).Satisfiable := by
  have hnormal : normalizeBitWidth w = w := if_neg (by omega)
  refine ⟨fun i => if i = t then ⟨w, 1⟩ else ⟨w, 0⟩, ?_, ?_, fun h => by cases h⟩
  · intro n hn hkind
    simp only [twoSymbols, List.mem_cons, List.not_mem_nil, or_false] at hn
    rcases hn with rfl | rfl | rfl
    · simp only [if_neg hst, hnormal]
    · simp only [if_true, hnormal]
    · cases hkind
  · intro id hid
    rw [List.mem_singleton.mp hid]
    have hne : w ≠ 0 := by omega
    refine .binary rfl (.symbol rfl rfl ?_) (.symbol rfl rfl ?_) ?_
    · simp only [if_neg hst, hnormal]
    · simp only [if_true, hnormal]
    · simp [binaryValue, isArithmetic, isComparison, hst, compare, hne]

/-- Two constants with one name and one width are one constant. -/
theorem not_hasModel_distinct (name : String) (w : ℕ) :
    ¬ HasModel [.app .distinct (.const name w) (.const name w)] := by
  rintro ⟨model, hmodel⟩
  have h := hmodel _ List.mem_cons_self
  simp [Expr.eval, Op.eval, Op.onBits] at h

/-- The query that a constant is negative is well typed. -/
theorem negativeConstant_wellTyped (table : List (SymbolInfo V)) (z : ℤ) (w : ℕ) :
    (negativeConstant table z w).WellTyped := by
  have hz : (negativeConstant table z w).HasSort 0 (.bits (normalizeBitWidth w)) :=
    .leaf (n := { kind := .constant, constant := z, bitWidth := w }) rfl (Or.inr rfl)
  have hsub : (negativeConstant table z w).HasSort 1 (.bits (normalizeBitWidth w)) :=
    .binary rfl hz hz (by simp [binarySort, isArithmetic])
  have hslt : (negativeConstant table z w).HasSort 2 .bool :=
    .binary rfl hz hsub (by simp [binarySort, isArithmetic, isComparison])
  refine ⟨fun id hid => ?_, fun id hid => ?_⟩
  · have hlt : id < 3 := hid
    interval_cases id
    · exact ⟨_, hz⟩
    · exact ⟨_, hsub⟩
    · exact ⟨_, hslt⟩
  · rw [List.mem_singleton.mp hid]
    exact hslt

theorem negativeConstant_satisfiable (table : List (SymbolInfo V)) {z : ℤ} (hz : IsInt64 z)
    (hneg : z < 0) {w : ℕ} (hw : 64 < w) : (negativeConstant table z w).Satisfiable := by
  have hnormal : normalizeBitWidth w = w := if_neg (by omega)
  refine ⟨fun _ => ⟨1, 0⟩, fun n hn hkind => ?_, ?_, fun h => by cases h⟩
  · simp only [negativeConstant, List.mem_cons, List.not_mem_nil, or_false] at hn
    rcases hn with rfl | rfl | rfl <;> cases hkind
  · intro id hid
    rw [List.mem_singleton.mp hid]
    have hint : (BitVec.ofInt (normalizeBitWidth w) z).toInt = z := by
      have hpow : 2 ^ 65 ≤ 2 ^ normalizeBitWidth w :=
        Nat.pow_le_pow_right (by omega) (by omega)
      obtain ⟨hlower, -⟩ := hz
      rw [BitVec.toInt_ofInt]
      exact Int.bmod_eq_of_le (by omega) (by omega)
    have hslt : (BitVec.ofInt (normalizeBitWidth w) z).slt 0 = true := by
      rw [BitVec.slt_iff_toInt_lt, hint]
      simpa using hneg
    refine .binary rfl (.constant rfl rfl) (.binary rfl (.constant rfl rfl) (.constant rfl rfl)
      (by simp [binaryValue, isArithmetic]; rfl)) ?_
    simpa [binaryValue, isArithmetic, isComparison, arith, compare] using hslt

/-- Beyond 64 bits a numeral is not negative. -/
theorem not_hasModel_negative (z : ℤ) {w : ℕ} (hw : 64 < w) :
    ¬ HasModel [.app .bvslt (.numeral (makeBvConstant z w))
      (.app .bvsub (.numeral (makeBvConstant z w)) (.numeral (makeBvConstant z w)))] := by
  rintro ⟨model, hmodel⟩
  have h := hmodel _ List.mem_cons_self
  have hnormal : normalizeBitWidth w = w := if_neg (by omega)
  have hint := toInt_makeBvConstant z w
  rw [hnormal, cutBound, if_neg (by omega)] at hint
  have hnonneg := Int.emod_nonneg z (show (2 ^ 64 : ℤ) ≠ 0 by norm_num)
  simp only [Expr.eval, Op.eval, Op.onBits, Option.bind_some, ne_eq, not_true_eq_false, if_false,
    Bits.atWidth_self, BitVec.sub_self, Option.some.injEq, ExprValue.bool.injEq] at h
  rw [BitVec.slt_iff_toInt_lt, hint] at h
  simp at h
  omega

theorem twoIntervals_wellTyped (table : List (SymbolInfo V)) (c c' : IntervalConstraint) (w : ℕ) :
    (twoIntervals table c c' w).WellTyped := by
  refine ⟨fun id hid => ?_, fun id hid => absurd hid List.not_mem_nil⟩
  match id, hid with
  | 0, _ => exact ⟨_, .leaf rfl (Or.inl rfl)⟩

theorem twoIntervals_satisfiable (table : List (SymbolInfo V)) {c c' : IntervalConstraint} {w : ℕ}
    (hw : 1 ≤ w) (hsymbol : c'.symbol = c.symbol)
    (hholds : ∃ x : BitVec w, c.Holds ⟨w, x⟩ ∧ c'.Holds ⟨w, x⟩) :
    (twoIntervals table c c' w).Satisfiable := by
  obtain ⟨x, hc, hc'⟩ := hholds
  refine ⟨fun _ => ⟨w, x⟩, fun n hn _ => ?_, fun id hid => absurd hid List.not_mem_nil, fun _ => ?_⟩
  · rw [List.mem_singleton.mp hn]
    exact (if_neg (by omega : w ≠ 0)).symm
  · intro d hd
    rcases List.mem_pair.mp hd with rfl | rfl
    · exact hc
    · exact hc'

/-- Bounds in the wrong order have no model. -/
theorem not_hasModel_bounds (name : String) {c c' : IntervalConstraint} {w : ℕ} (hw : 1 ≤ w)
    (hlower : c.hasLower = true) (hupper : c'.hasUpper = true)
    (hlt : cutBound w c'.upper < cutBound w c.lower) :
    ¬ HasModel (intervalBounds (.const name (normalizeBitWidth w)) w c ++
      intervalBounds (.const name (normalizeBitWidth w)) w c') := by
  rintro ⟨model, hmodel⟩
  have hnormal : normalizeBitWidth w = w := if_neg (by omega)
  have hc := (eval_intervalBounds name w c).mp fun e he =>
    hmodel e (List.mem_append_left _ he)
  have hc' := (eval_intervalBounds name w c').mp fun e he =>
    hmodel e (List.mem_append_right _ he)
  rw [hnormal] at hc hc'
  have hle := (hc.1 hlower).trans (hc'.2 hupper)
  omega

end Refuted

/-! ## The conditions are exact -/

/-- **Refutations of a class are right iff three conditions hold.** For every correct Z3 and every
query of the class that the backend refutes the query cannot be satisfied, iff symbols of one width
have different names, constants of more than 64 bits are not negative, and bounds keep their order
when they are cut.

**Proof sketch.** Under the conditions the values of an assignment are a model of the translation, by
induction over the translation; for intervals, values within the bounds as Z3 reads them exist
because bounds that fit two by two hold of one value. Conversely two symbols with one name are said
to differ, a negative constant is said to be negative, and two intervals are asked for. -/
theorem QueryClass.refutationSound_iff {V : Type*} (C : QueryClass V) :
    (∀ z3 : Solver, z3.Correct → ∀ query : SmtQuery V, C.Contains query.ir →
        (solve z3 query).status = .unsat → ¬ query.ir.Satisfiable) ↔
      C.NamesApart ∧ C.ConstantsKept ∧ C.BoundsKept := by
  constructor
  · intro hsound
    -- a query of the class that can be satisfied has a translation with a model
    have hmodel : ∀ {ir : ConstraintIR V} {es : List Expr}, C.Contains ir → ir.Satisfiable →
        (translate exactSolver ir).map Prod.fst = .ok (some es) → HasModel es := by
      intro ir es hir hsat htranslate
      by_contra hnot
      exact hsound exactSolver exactSolver_correct _ hir (solve_exactSolver htranslate hnot) hsat
    refine ⟨fun s hs t ht hsne htne hwidth hname => ?_, fun p hp hw => ?_, ?_⟩
    · by_contra hst
      have hone := C.one_le_width s
      have hnormal : normalizeBitWidth (C.width s) = C.width s := if_neg (by omega)
      refine absurd (hmodel ?_ (twoSymbols_satisfiable C.table hst hone)
        (translate_twoSymbols exactSolver C.table hsne htne hst hone)) ?_
      · refine ⟨twoSymbols_wellTyped _ _ _ _, rfl, fun n hn hkind => ?_, fun n hn hkind => ?_,
          fun c hc => absurd hc List.not_mem_nil⟩
        · simp only [twoSymbols, List.mem_cons, List.not_mem_nil, or_false] at hn
          rcases hn with rfl | rfl | rfl
          · exact ⟨hs, hnormal⟩
          · exact ⟨ht, hnormal.trans hwidth⟩
          · cases hkind
        · simp only [twoSymbols, List.mem_cons, List.not_mem_nil, or_false] at hn
          rcases hn with rfl | rfl | rfl <;> cases hkind
      · have hname' : cStr (symbolName (collectNames C.table) t) =
            cStr (symbolName (collectNames C.table) s) := hname.symm
        rw [hname']
        exact not_hasModel_distinct _ _
    · by_contra hneg
      have hone := C.one_le_constant_width p hp
      have hnormal : normalizeBitWidth p.2 = p.2 := if_neg (by omega)
      refine absurd (hmodel ?_ (negativeConstant_satisfiable C.table (C.isInt64_constant p hp)
        (not_le.mp hneg) hw) (translate_negativeConstant exactSolver C.table p.1 hone))
          (not_hasModel_negative p.1 hw)
      refine ⟨negativeConstant_wellTyped _ _ _, rfl, fun n hn hkind => ?_, fun n hn hkind => ?_,
        fun c hc => absurd hc List.not_mem_nil⟩
      · simp only [negativeConstant, List.mem_cons, List.not_mem_nil, or_false] at hn
        rcases hn with rfl | rfl | rfl <;> cases hkind
      · simp only [negativeConstant, List.mem_cons, List.not_mem_nil, or_false] at hn
        rcases hn with rfl | rfl | rfl
        · simp only [hnormal]
          exact hp
        · cases hkind
        · cases hkind
    · intro c hc c' hc' hs hne hsymbol hholds hlower hupper
      by_contra hlt
      have hone := C.one_le_width c.symbol
      have hnormal : normalizeBitWidth (C.width c.symbol) = C.width c.symbol := if_neg (by omega)
      refine absurd (hmodel ?_ (twoIntervals_satisfiable C.table hone hsymbol hholds)
        (translate_twoIntervals exactSolver C.table hne hsymbol hone))
          (not_hasModel_bounds _ hone hlower hupper (not_le.mp hlt))
      have hwidths : (collectBitWidths (twoIntervals C.table c c' (C.width c.symbol))
          c.symbol).getD 64 = C.width c.symbol := by
        simp [collectBitWidths, twoIntervals, hne, hnormal]
      refine ⟨twoIntervals_wellTyped _ _ _ _, rfl, fun n hn _ => ?_, fun n hn hkind => ?_,
        fun d hd => ?_⟩
      · rw [List.mem_singleton.mp hn]
        exact ⟨hs, hnormal⟩
      · rw [List.mem_singleton.mp hn] at hkind
        cases hkind
      · rcases List.mem_pair.mp hd with rfl | rfl
        · exact ⟨hc, hs, hwidths⟩
        · rw [hsymbol]
          exact ⟨hc', hs, hwidths⟩
  · rintro ⟨hapart, hkept, hbounds⟩ z3 hcorrect query hir hunsat hsat
    obtain ⟨es, s, htranslate, hcheck⟩ := translate_of_solve_unsat hunsat
    exact hcorrect.unsat _ _ hcheck
      (QueryClass.hasModel_of_translate hir hapart hkept hbounds hsat htranslate)

/-- Two symbols of eight bits with the debug name `x`, said to differ. -/
def sharedDebugName : ConstraintIR ℕ := twoSymbols [⟨1, "x", 1⟩, ⟨2, "x", 2⟩] 1 2 8

/-- A refutation that is wrong: two variables with one name may differ, and Z3 sees one. -/
theorem not_refutationSound : ¬ ∀ z3 : Solver, z3.Correct → ∀ query : SmtQuery ℕ,
    query.ir.WellTyped → (solve z3 query).status = .unsat → ¬ query.ir.Satisfiable := by
  intro hsound
  have hname : cStr (symbolName (collectNames [⟨1, "x", 1⟩, ⟨2, "x", 2⟩]) 2) =
      cStr (symbolName (collectNames [⟨1, "x", 1⟩, (⟨2, "x", 2⟩ : SymbolInfo ℕ)]) 1) := by decide
  have htranslate := translate_twoSymbols exactSolver [⟨1, "x", 1⟩, (⟨2, "x", 2⟩ : SymbolInfo ℕ)]
    (s := 1) (t := 2) (w := 8) (by decide) (by decide) (by decide) (by decide)
  rw [hname] at htranslate
  exact hsound exactSolver exactSolver_correct { ir := sharedDebugName, budgetNodes := 0 }
    (twoSymbols_wellTyped _ _ _ _) (solve_exactSolver htranslate (not_hasModel_distinct _ _))
      (twoSymbols_satisfiable _ (by decide) (by decide))

end StackAnalyzer.Smt.Z3Backend
