import StackAnalyzer.Smt.ConstraintIR

set_option relaxedAutoImplicit false
set_option autoImplicit false

/-!
# What a query means

The nodes of a `ConstraintIR` form a directed acyclic graph. Here truth values and bit vectors are
kept apart, as solvers do: a node has a value only if its operands have values of the right sorts,
and a symbol stands for one bit vector of its width. A constant is its value cut to the width of its
node or sign-extended to it.

## Main definitions

* `StackAnalyzer.Smt.ConstraintIR.Evaluates` — the value of a node under an assignment.
* `StackAnalyzer.Smt.ConstraintIR.HasSort`, `StackAnalyzer.Smt.ConstraintIR.WellTyped` — the sort of
  a node, and that all nodes have one.
* `StackAnalyzer.Smt.ConstraintIR.Satisfiable` — all assertions can be true.

## Main results

* `StackAnalyzer.Smt.ConstraintIR.Evaluates.unique` — a node has at most one value.
* `StackAnalyzer.Smt.ConstraintIR.HasSort.evaluates` — a well-typed node has a value of its sort.
-/

namespace StackAnalyzer.Smt

/-! ## Sorts and values -/

/-- The sort of an expression. -/
inductive ExprSort
  | bool
  | bits (width : ℕ)
  deriving DecidableEq

/-- The value of an expression. -/
inductive ExprValue
  | bool (b : Bool)
  | bits (b : Bits)
  deriving DecidableEq

/-- The sort of a value. -/
def ExprValue.sort : ExprValue → ExprSort
  | .bool _ => .bool
  | .bits b => .bits b.width

/-- The kinds of arithmetic. -/
def isArithmetic : ExprKind → Bool
  | .add | .sub | .mul | .shl | .lshr | .ashr => true
  | _ => false

/-- The kinds of comparisons of bit vectors. -/
def isComparison : ExprKind → Bool
  | .eq | .ne | .ult | .ule | .ugt | .uge | .slt | .sle | .sgt | .sge => true
  | _ => false

/-- How a node gets its value. -/
inductive NodeForm
  | symbol
  | constant
  | ite
  | unary
  | binary
  deriving DecidableEq

/-- The form of the nodes of a kind. -/
def ExprKind.form : ExprKind → NodeForm
  | .symbol => .symbol
  | .constant => .constant
  | .ite => .ite
  | .not | .zext | .sext | .trunc => .unary
  | _ => .binary

/-- The kinds with two truth values as operands. -/
def connective : ExprKind → Option (Bool → Bool → Bool)
  | .and => some (· && ·)
  | .or => some (· || ·)
  | .eq => some (· == ·)
  | .ne => some (· != ·)
  | _ => none

/-- The sort of a node with two operands. -/
def binarySort (kind : ExprKind) : ExprSort → ExprSort → Option ExprSort
  | .bits l, .bits r =>
    if l ≠ r then none
    else if isArithmetic kind then some (.bits l)
    else if isComparison kind then some .bool else none
  | .bool, .bool => (connective kind).map fun _ => .bool
  | _, _ => none

/-- The value of a node with two operands. -/
def binaryValue (kind : ExprKind) : ExprValue → ExprValue → Option ExprValue
  | .bits l, .bits r =>
    if l.width ≠ r.width then none
    else if isArithmetic kind then some (.bits ⟨l.width, arith kind l.val (r.atWidth l.width)⟩)
    else if isComparison kind then some (.bool (compareBits kind l r)) else none
  | .bool l, .bool r => (connective kind).map fun f => .bool (f l r)
  | _, _ => none

/-- The sort of a node of width `w` with one operand. -/
def unarySort (kind : ExprKind) (w : ℕ) : ExprSort → Option ExprSort
  | .bool => if kind = .not then some .bool else none
  | .bits v =>
    match kind with
    | .zext | .sext => if w < v then none else some (.bits w)
    | .trunc => if v < w then none else some (.bits w)
    | _ => none

/-- The value of a node of width `w` with one operand. -/
def unaryValue (kind : ExprKind) (w : ℕ) : ExprValue → Option ExprValue
  | .bool b => if kind = .not then some (.bool !b) else none
  | .bits b =>
    match kind with
    | .zext => if w < b.width then none else some (.bits ⟨w, b.atWidth w⟩)
    | .sext => if w < b.width then none else some (.bits ⟨w, b.signedAt w⟩)
    | .trunc => if b.width < w then none else some (.bits ⟨w, b.atWidth w⟩)
    | _ => none

theorem form_eq_symbol {kind : ExprKind} : kind.form = .symbol ↔ kind = .symbol := by
  cases kind <;> simp [ExprKind.form]

theorem form_eq_constant {kind : ExprKind} : kind.form = .constant ↔ kind = .constant := by
  cases kind <;> simp [ExprKind.form]

theorem form_eq_ite {kind : ExprKind} : kind.form = .ite ↔ kind = .ite := by
  cases kind <;> simp [ExprKind.form]

/-- A node has a sort only if its kind is one with one operand. -/
theorem form_of_unarySort {kind : ExprKind} {w : ℕ} {l s : ExprSort}
    (h : unarySort kind w l = some s) : kind.form = .unary := by
  cases l <;> cases kind <;> first | rfl | cases h

/-- A node has a sort only if its kind is one with two operands. -/
theorem form_of_binarySort {kind : ExprKind} {l r s : ExprSort}
    (h : binarySort kind l r = some s) : kind.form = .binary := by
  cases l <;> cases r <;> cases kind <;> first | rfl | (simp [binarySort, isArithmetic,
    isComparison, connective] at h)

/-- Only nodes with one operand have a value of that kind. -/
theorem form_of_unaryValue {kind : ExprKind} {w : ℕ} {l v : ExprValue}
    (h : unaryValue kind w l = some v) : kind.form = .unary := by
  cases l <;> cases kind <;> first | rfl | cases h

/-- Only nodes with two operands have a value of that kind. -/
theorem form_of_binaryValue {kind : ExprKind} {l r v : ExprValue}
    (h : binaryValue kind l r = some v) : kind.form = .binary := by
  cases l <;> cases r <;> cases kind <;> first | rfl | (simp [binaryValue, isArithmetic,
    isComparison, connective] at h)

/-- A node with two operands has a value iff it has a sort. -/
theorem sort_binaryValue (kind : ExprKind) (l r : ExprValue) :
    (binaryValue kind l r).map ExprValue.sort = binarySort kind l.sort r.sort := by
  cases l with
  | bool l =>
    cases r with
    | bool r =>
      unfold binaryValue binarySort
      cases connective kind <;> rfl
    | bits r => rfl
  | bits l =>
    cases r with
    | bool r => rfl
    | bits r =>
      simp only [binaryValue, binarySort, ExprValue.sort]
      split_ifs <;> rfl

/-- A node with one operand has a value iff it has a sort. -/
theorem sort_unaryValue (kind : ExprKind) (w : ℕ) (v : ExprValue) :
    (unaryValue kind w v).map ExprValue.sort = unarySort kind w v.sort := by
  cases v with
  | bool b =>
    simp only [unaryValue, unarySort, ExprValue.sort]
    split_ifs <;> rfl
  | bits b =>
    cases kind <;> simp only [unaryValue, unarySort, ExprValue.sort] <;> try rfl
    all_goals split_ifs <;> rfl

/-- The operands that the value of a node comes from. -/
def ExprNode.operands (n : ExprNode) : List ExprId :=
  match n.kind.form with
  | .symbol | .constant => []
  | .unary => [n.lhs]
  | .binary => [n.lhs, n.rhs]
  | .ite => [n.lhs, n.rhs, n.extra]

namespace ConstraintIR

variable {V : Type*} (ir : ConstraintIR V)

/-! ## Evaluation -/

/-- **The value of a node** under an assignment of bit vectors to symbols. -/
inductive Evaluates (assignment : SymbolId → Bits) : ExprId → ExprValue → Prop
  | symbol {id : ExprId} {n : ExprNode} (hn : ir.nodes[id]? = some n) (hkind : n.kind = .symbol)
      (hwidth : (assignment n.symbol).width = normalizeBitWidth n.bitWidth) :
      Evaluates assignment id (.bits (assignment n.symbol))
  | constant {id : ExprId} {n : ExprNode} (hn : ir.nodes[id]? = some n)
      (hkind : n.kind = .constant) :
      Evaluates assignment id (.bits ⟨normalizeBitWidth n.bitWidth, BitVec.ofInt _ n.constant⟩)
  | unary {id : ExprId} {n : ExprNode} {l v : ExprValue} (hn : ir.nodes[id]? = some n)
      (hl : Evaluates assignment n.lhs l)
      (hv : unaryValue n.kind (normalizeBitWidth n.bitWidth) l = some v) :
      Evaluates assignment id v
  | binary {id : ExprId} {n : ExprNode} {l r v : ExprValue} (hn : ir.nodes[id]? = some n)
      (hl : Evaluates assignment n.lhs l) (hr : Evaluates assignment n.rhs r)
      (hv : binaryValue n.kind l r = some v) : Evaluates assignment id v
  | ite {id : ExprId} {n : ExprNode} {c : Bool} {l r : ExprValue} (hn : ir.nodes[id]? = some n)
      (hkind : n.kind = .ite) (hc : Evaluates assignment n.lhs (.bool c))
      (hl : Evaluates assignment n.rhs l) (hr : Evaluates assignment n.extra r)
      (hsort : l.sort = r.sort) : Evaluates assignment id (if c then l else r)

/-- **The sort of a node.** Derivations are finite, so a node with a sort does not depend on
itself. -/
inductive HasSort : ExprId → ExprSort → Prop
  | leaf {id : ExprId} {n : ExprNode} (hn : ir.nodes[id]? = some n)
      (hkind : n.kind = .symbol ∨ n.kind = .constant) :
      HasSort id (.bits (normalizeBitWidth n.bitWidth))
  | unary {id : ExprId} {n : ExprNode} {l s : ExprSort} (hn : ir.nodes[id]? = some n)
      (hl : HasSort n.lhs l) (hs : unarySort n.kind (normalizeBitWidth n.bitWidth) l = some s) :
      HasSort id s
  | binary {id : ExprId} {n : ExprNode} {l r s : ExprSort} (hn : ir.nodes[id]? = some n)
      (hl : HasSort n.lhs l) (hr : HasSort n.rhs r) (hs : binarySort n.kind l r = some s) :
      HasSort id s
  | ite {id : ExprId} {n : ExprNode} {s : ExprSort} (hn : ir.nodes[id]? = some n)
      (hkind : n.kind = .ite) (hc : HasSort n.lhs .bool) (hl : HasSort n.rhs s)
      (hr : HasSort n.extra s) : HasSort id s

/-- Every node has a sort, and assertions are truth values. -/
structure WellTyped : Prop where
  hasSort : ∀ id < ir.nodes.length, ∃ s, ir.HasSort id s
  assertions : ∀ id ∈ ir.assertions, ir.HasSort id .bool

/-- An assignment gives every symbol that has a node a bit vector of the node's width. -/
def Fits (assignment : SymbolId → Bits) : Prop :=
  ∀ n ∈ ir.nodes, n.kind = .symbol →
    (assignment n.symbol).width = normalizeBitWidth n.bitWidth

/-- All assertions are true. -/
def AssertionsHold (assignment : SymbolId → Bits) : Prop :=
  ∀ id ∈ ir.assertions, ir.Evaluates assignment id (.bool true)

/-- A node is an operand of another one. -/
def IsOperand (operand id : ExprId) : Prop :=
  ∃ n, ir.nodes[id]? = some n ∧ operand ∈ n.operands

variable {ir} {assignment : SymbolId → Bits}

/-- What the value of a node comes from, by the form of the node. -/
theorem evaluates_iff {id : ExprId} {n : ExprNode} {v : ExprValue} (hn : ir.nodes[id]? = some n) :
    ir.Evaluates assignment id v ↔ match n.kind.form with
      | .symbol => (assignment n.symbol).width = normalizeBitWidth n.bitWidth ∧
          v = .bits (assignment n.symbol)
      | .constant => v = .bits ⟨normalizeBitWidth n.bitWidth, BitVec.ofInt _ n.constant⟩
      | .unary => ∃ l, ir.Evaluates assignment n.lhs l ∧
          unaryValue n.kind (normalizeBitWidth n.bitWidth) l = some v
      | .binary => ∃ l r, ir.Evaluates assignment n.lhs l ∧ ir.Evaluates assignment n.rhs r ∧
          binaryValue n.kind l r = some v
      | .ite => ∃ c l r, ir.Evaluates assignment n.lhs (.bool c) ∧
          ir.Evaluates assignment n.rhs l ∧ ir.Evaluates assignment n.extra r ∧
          l.sort = r.sort ∧ v = if c then l else r := by
  constructor
  · intro h
    cases h with
    | symbol hn' hkind hwidth =>
      obtain rfl := Option.some.inj (hn.symm.trans hn')
      rw [hkind]
      exact ⟨hwidth, rfl⟩
    | constant hn' hkind =>
      obtain rfl := Option.some.inj (hn.symm.trans hn')
      rw [hkind]
      rfl
    | unary hn' hl hv =>
      obtain rfl := Option.some.inj (hn.symm.trans hn')
      rw [form_of_unaryValue hv]
      exact ⟨_, hl, hv⟩
    | binary hn' hl hr hv =>
      obtain rfl := Option.some.inj (hn.symm.trans hn')
      rw [form_of_binaryValue hv]
      exact ⟨_, _, hl, hr, hv⟩
    | ite hn' hkind hc hl hr hsort =>
      obtain rfl := Option.some.inj (hn.symm.trans hn')
      rw [hkind]
      exact ⟨_, _, _, hc, hl, hr, hsort, rfl⟩
  · intro h
    cases hform : n.kind.form with
    | symbol =>
      rw [hform] at h
      obtain ⟨hwidth, rfl⟩ := h
      exact .symbol hn (form_eq_symbol.mp hform) hwidth
    | constant =>
      rw [hform] at h
      obtain rfl := h
      exact .constant hn (form_eq_constant.mp hform)
    | unary =>
      rw [hform] at h
      obtain ⟨l, hl, hv⟩ := h
      exact .unary hn hl hv
    | binary =>
      rw [hform] at h
      obtain ⟨l, r, hl, hr, hv⟩ := h
      exact .binary hn hl hr hv
    | ite =>
      rw [hform] at h
      obtain ⟨c, l, r, hc, hl, hr, hsort, rfl⟩ := h
      exact .ite hn (form_eq_ite.mp hform) hc hl hr hsort

/-- **A node has at most one value.** -/
theorem Evaluates.unique {id : ExprId} {v v' : ExprValue} (h : ir.Evaluates assignment id v)
    (h' : ir.Evaluates assignment id v') : v = v' := by
  induction h generalizing v' with
  | symbol hn hkind _ =>
    rw [evaluates_iff hn, hkind] at h'
    exact h'.2.symm
  | constant hn hkind =>
    rw [evaluates_iff hn, hkind] at h'
    exact h'.symm
  | unary hn _ hv ih =>
    rw [evaluates_iff hn, form_of_unaryValue hv] at h'
    obtain ⟨l', hl', hv'⟩ := h'
    rw [← ih hl', hv, Option.some.injEq] at hv'
    exact hv'
  | binary hn _ _ hv ihl ihr =>
    rw [evaluates_iff hn, form_of_binaryValue hv] at h'
    obtain ⟨l', r', hl', hr', hv'⟩ := h'
    rw [← ihl hl', ← ihr hr', hv, Option.some.injEq] at hv'
    exact hv'
  | ite hn hkind _ _ _ _ ihc ihl ihr =>
    rw [evaluates_iff hn, hkind] at h'
    obtain ⟨c', l', r', hc', hl', hr', -, rfl⟩ := h'
    obtain rfl := ExprValue.bool.inj (ihc hc')
    rw [ihl hl', ihr hr']

/-- **A well-typed node has a value of its sort.** -/
theorem HasSort.evaluates (hfits : ir.Fits assignment) {id : ExprId} {s : ExprSort}
    (h : ir.HasSort id s) : ∃ v, ir.Evaluates assignment id v ∧ v.sort = s := by
  induction h with
  | @leaf id n hn hkind =>
    rcases hkind with hkind | hkind
    · have hwidth := hfits n (List.mem_of_getElem? hn) hkind
      exact ⟨_, .symbol hn hkind hwidth, by rw [ExprValue.sort, hwidth]⟩
    · exact ⟨_, .constant hn hkind, rfl⟩
  | @unary id n l s hn _ hs ih =>
    obtain ⟨lv, hlv, rfl⟩ := ih
    rw [← sort_unaryValue, Option.map_eq_some_iff] at hs
    obtain ⟨v, hv, rfl⟩ := hs
    exact ⟨v, .unary hn hlv hv, rfl⟩
  | @binary id n l r s hn _ _ hs ihl ihr =>
    obtain ⟨lv, hlv, rfl⟩ := ihl
    obtain ⟨rv, hrv, rfl⟩ := ihr
    rw [← sort_binaryValue, Option.map_eq_some_iff] at hs
    obtain ⟨v, hv, rfl⟩ := hs
    exact ⟨v, .binary hn hlv hrv hv, rfl⟩
  | @ite id n s hn hkind _ _ _ ihc ihl ihr =>
    obtain ⟨cv, hcv, hc⟩ := ihc
    obtain ⟨lv, hlv, rfl⟩ := ihl
    obtain ⟨rv, hrv, hr⟩ := ihr
    cases cv with
    | bits b => cases hc
    | bool c =>
      refine ⟨_, .ite hn hkind hcv hlv hrv hr.symm, ?_⟩
      cases c with
      | true => rfl
      | false => exact hr

/-! ## The depth of a node -/

section Depth

variable {id : ExprId} {s : ExprSort}

/-- The operands of the node at a position. -/
theorem isOperand_iff {n : ExprNode} (hn : ir.nodes[id]? = some n) {operand : ExprId} :
    ir.IsOperand operand id ↔ operand ∈ n.operands := by
  constructor
  · rintro ⟨n', hn', hmem⟩
    obtain rfl := Option.some.inj (hn.symm.trans hn')
    exact hmem
  · exact fun hmem => ⟨n, hn, hmem⟩

/-- **Induction over operands.** The operands of a node with a sort have sorts, and what holds of a
node when it holds of its operands holds of every node with a sort. -/
theorem HasSort.operand_induction {p : ExprId → Prop}
    (hp : ∀ id, (∀ operand, ir.IsOperand operand id →
      (∃ s, ir.HasSort operand s) ∧ p operand) → p id)
    (h : ir.HasSort id s) : p id := by
  induction h with
  | @leaf id n hn hkind =>
    refine hp id fun operand hoperand => ?_
    rw [isOperand_iff hn] at hoperand
    rcases hkind with hkind | hkind <;> simp [ExprNode.operands, hkind, ExprKind.form] at hoperand
  | @unary id n l s hn hl hs ih =>
    refine hp id fun operand hoperand => ?_
    rw [isOperand_iff hn, ExprNode.operands, form_of_unarySort hs, List.mem_singleton] at hoperand
    rw [hoperand]
    exact ⟨⟨l, hl⟩, ih⟩
  | @binary id n l r s hn hl hr hs ihl ihr =>
    refine hp id fun operand hoperand => ?_
    rw [isOperand_iff hn, ExprNode.operands, form_of_binarySort hs, List.mem_pair] at hoperand
    rcases hoperand with rfl | rfl
    · exact ⟨⟨l, hl⟩, ihl⟩
    · exact ⟨⟨r, hr⟩, ihr⟩
  | @ite id n s hn hkind hc hl hr ihc ihl ihr =>
    refine hp id fun operand hoperand => ?_
    rw [isOperand_iff hn] at hoperand
    simp only [ExprNode.operands, hkind, ExprKind.form, List.mem_cons, List.not_mem_nil,
      or_false] at hoperand
    rcases hoperand with rfl | rfl | rfl
    · exact ⟨⟨_, hc⟩, ihc⟩
    · exact ⟨⟨s, hl⟩, ihl⟩
    · exact ⟨⟨s, hr⟩, ihr⟩

/-- A node with a sort exists. -/
theorem HasSort.lt_length (h : ir.HasSort id s) : id < ir.nodes.length := by
  cases h with
  | leaf hn | unary hn | binary hn | ite hn => exact (List.getElem?_eq_some_iff.mp hn).1

/-- A node with a sort does not depend on itself. -/
theorem HasSort.not_transGen_self (h : ir.HasSort id s) :
    ¬ Relation.TransGen ir.IsOperand id id := by
  have hacc : Acc (Relation.TransGen ir.IsOperand) id :=
    Acc.transGen (h.operand_induction fun id hid => Acc.intro id fun j hj => (hid j hj).2)
  induction hacc with
  | intro id _ ih => exact fun hself => ih id hself h hself

/-- The nodes that a node depends on. -/
noncomputable def descendants (ir : ConstraintIR V) (id : ExprId) : Finset ExprId := by
  classical
  exact (Finset.range ir.nodes.length).filter fun j => Relation.TransGen ir.IsOperand j id

theorem mem_descendants {j : ExprId} :
    j ∈ ir.descendants id ↔ j < ir.nodes.length ∧ Relation.TransGen ir.IsOperand j id := by
  classical
  rw [descendants, Finset.mem_filter, Finset.mem_range]

theorem card_descendants_le (ir : ConstraintIR V) (id : ExprId) :
    (ir.descendants id).card ≤ ir.nodes.length := by
  have hsub : ir.descendants id ⊆ Finset.range ir.nodes.length := fun j hj =>
    Finset.mem_range.mpr (mem_descendants.mp hj).1
  simpa using Finset.card_le_card hsub

/-- An operand depends on fewer nodes. -/
theorem card_descendants_lt {operand : ExprId} (h : ir.HasSort operand s)
    (hoperand : ir.IsOperand operand id) :
    (ir.descendants operand).card < (ir.descendants id).card := by
  apply Finset.card_lt_card
  refine Finset.ssubset_iff_subset_ne.mpr ⟨fun j hj => ?_, fun heq => ?_⟩
  · obtain ⟨hlt, hj⟩ := mem_descendants.mp hj
    exact mem_descendants.mpr ⟨hlt, hj.tail hoperand⟩
  · have hmem : operand ∈ ir.descendants id :=
      mem_descendants.mpr ⟨h.lt_length, .single hoperand⟩
    rw [← heq] at hmem
    exact h.not_transGen_self (mem_descendants.mp hmem).2

end Depth

end ConstraintIR

/-! ## Queries -/

/-- The signed value of a bit vector is within the bounds. -/
def IntervalConstraint.Holds (c : IntervalConstraint) (x : Bits) : Prop :=
  (c.hasLower = true → c.lower ≤ x.val.toInt) ∧ (c.hasUpper = true → x.val.toInt ≤ c.upper)

/-- Bounds that hold of some value do not contradict each other. -/
theorem IntervalConstraint.Holds.lower_le_upper {c : IntervalConstraint} {x : Bits} (h : c.Holds x)
    (hlower : c.hasLower = true) (hupper : c.hasUpper = true) : c.lower ≤ c.upper :=
  (h.1 hlower).trans (h.2 hupper)

namespace ConstraintIR

variable {V : Type*} (ir : ConstraintIR V)

/-- **The query can be satisfied**: under some assignment all assertions are true and, when there
are none, all intervals hold. -/
def Satisfiable : Prop :=
  ∃ assignment, ir.Fits assignment ∧ ir.AssertionsHold assignment ∧
    (ir.assertions = [] → ∀ c ∈ ir.intervals, c.Holds (assignment c.symbol))

/-- Whenever the assertions are true, the intervals hold. -/
def IntervalsImplied : Prop :=
  ∀ assignment, ir.Fits assignment → ir.AssertionsHold assignment →
    ∀ c ∈ ir.intervals, c.Holds (assignment c.symbol)

end ConstraintIR

end StackAnalyzer.Smt
