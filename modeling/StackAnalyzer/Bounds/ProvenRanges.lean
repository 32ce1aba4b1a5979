import StackAnalyzer.Arith.Corners
import StackAnalyzer.Bounds.SizeOperands
import StackAnalyzer.Smt.Edges
import StackAnalyzer.Values.RecoveredConstants

set_option relaxedAutoImplicit false
set_option autoImplicit false

/-!
# Operations that are proved not to overflow

An operation is proved not to overflow if its results fit for all operands in their ranges. The
range of an operand is looked up through casts and variables that are stored to once, as if they
changed nothing. The proof is right whenever the operands have the same signed values as what is
looked up for them; a `zext` of a negative number, for one, has another value.

## Main definitions

* `StackAnalyzer.Bounds.lookThrough` — what is found for a value behind casts and variables.
* `StackAnalyzer.Bounds.RangesRight` — the ranges contain the values of their keys in a state.
* `StackAnalyzer.Bounds.KeepsSigned` — a value is what is looked up for it.
* `StackAnalyzer.Bounds.SoundProof` — no operation that is proved not to overflow does so.

## Main results

* `StackAnalyzer.Bounds.resultRange_contains` — interval arithmetic.
* `StackAnalyzer.Bounds.provenNoSignedOverflow_right` — when proofs are right.
* `StackAnalyzer.Bounds.not_soundProof_widened` — a `zext` of a negative number.
-/

namespace StackAnalyzer.Bounds

open Arith Llvm Machine Maps Smt Values

variable {F V B : Type*} [DecidableEq V] [DecidableEq B] (mod : Module F V B)
  (ranges : EntryMap V IntRange)

/-! ## Where values are looked up -/

section Lookup

/-- What is found for a value, or behind casts and variables that are stored to once. -/
def lookThrough {A : Type*} (found : V → Option A) : ℕ → V → List V → Option A
  | 0, _, _ => none
  | levels + 1, v, visited =>
    if v ∈ visited then none
    else
      (found v).or (((peelLoadFromSingleStoreSlot mod v).or (castOperand mod v)).bind fun next =>
        lookThrough found levels next (v :: visited))

/-- A value that is a constant. -/
def constantAt (v : V) : Option V := if (mod.value v).isConstantInt then some v else none

/-- The key of the range of a value: the value, or the pointer that it is loaded from. -/
def keyAt (v : V) : Option V :=
  if (ranges.find v).isSome then some v
  else
    match mod.value v with
    | .load pointer => if (ranges.find pointer).isSome then some pointer else none
    | _ => none

/-- The constant that is found for a value. -/
def constantSource (v : V) : Option V := lookThrough mod (constantAt mod) 33 v []

/-- The key of the range that is found for a value. -/
def rangeKeyOf (v : V) : Option V := lookThrough mod (keyAt mod ranges) 33 v []

variable {mod ranges}

/-- What is found at a place, or the place itself. -/
theorem lookThrough_bind {A A' : Type*} {found : V → Option A} {found' : V → Option A'}
    {g : A → Option A'} (h : ∀ v, found' v = (found v).bind g)
    (hsome : ∀ v a, found v = some a → (g a).isSome = true) (levels : ℕ) (v : V)
    (visited : List V) :
    lookThrough mod found' levels v visited = (lookThrough mod found levels v visited).bind g := by
  induction levels generalizing v visited with
  | zero => rfl
  | succ levels ih =>
    unfold lookThrough
    split_ifs
    · rfl
    · rw [h]
      cases hfound : found v with
      | none =>
        simp only [Option.bind_none, Option.none_or, Option.bind_assoc]
        exact Option.bind_congr fun next _ => ih next (v :: visited)
      | some a =>
        obtain ⟨a', ha'⟩ := Option.isSome_iff_exists.mp (hsome v a hfound)
        simp [ha']

/-- What is found is found at some value. -/
theorem exists_found {A : Type*} {found : V → Option A} {levels : ℕ} {v : V} {visited : List V}
    {a : A} (h : lookThrough mod found levels v visited = some a) : ∃ w, found w = some a := by
  induction levels generalizing v visited with
  | zero => cases h
  | succ levels ih =>
    unfold lookThrough at h
    split_ifs at h
    cases hfound : found v with
    | some a' =>
      rw [hfound, Option.some_or] at h
      exact ⟨v, hfound.trans h⟩
    | none =>
      rw [hfound, Option.none_or] at h
      obtain ⟨next, -, hnext⟩ := Option.bind_eq_some_iff.mp h
      exact ih hnext

omit [DecidableEq V] [DecidableEq B] in
/-- A value that is a constant has one. -/
theorem isSome_constantOf {v w : V} (h : constantAt mod v = some w) :
    (constantOf mod w).isSome = true := by
  unfold constantAt at h
  split_ifs at h with hconstant
  obtain rfl := Option.some.inj h
  unfold constantOf
  cases hvalue : mod.value v
  case constantInt width bits => rfl
  all_goals simp [hvalue, Value.isConstantInt] at hconstant

/-- Constants are looked up so. -/
theorem resolveConstIntRecursive_eq (levels : ℕ) (v : V) (visited : List V) :
    resolveConstIntRecursive mod levels v visited =
      lookThrough mod (constantOf mod) levels v visited := by
  induction levels generalizing v visited with
  | zero => rfl
  | succ levels ih =>
    unfold resolveConstIntRecursive lookThrough constantOf
    split_ifs
    · rfl
    · cases mod.value v
      case constantInt width bits => rfl
      all_goals exact Option.bind_congr fun next _ => ih next (v :: visited)

/-- Ranges are looked up so. -/
theorem resolveKnownRangeRecursive_eq (levels : ℕ) (v : V) (visited : List V) :
    resolveKnownRangeRecursive mod ranges levels v visited =
      lookThrough mod (fun v => (ranges.find v).or (slotRange mod ranges v)) levels v visited := by
  induction levels generalizing v visited with
  | zero => rfl
  | succ levels ih =>
    unfold resolveKnownRangeRecursive lookThrough
    split_ifs
    · rfl
    · rw [Option.or_assoc]
      congr 2
      exact Option.bind_congr fun next _ => ih next (v :: visited)

/-- `resolveConstInt` gives the constant of its source. -/
theorem resolveConstInt_eq (v : V) :
    resolveConstInt mod v = (constantSource mod v).bind (constantOf mod) := by
  rw [resolveConstInt, resolveConstIntRecursive_eq]
  refine lookThrough_bind (fun v => ?_) (fun v w hw => isSome_constantOf hw) 33 v []
  unfold constantAt
  split_ifs with hconstant
  · rfl
  · unfold constantOf
    cases hvalue : mod.value v
    case constantInt width bits => simp [hvalue, Value.isConstantInt] at hconstant
    all_goals rfl

omit [DecidableEq B] in
/-- A key has a range. -/
theorem find_keyAt {v key : V} (h : keyAt mod ranges v = some key) :
    (ranges.find key).isSome = true := by
  unfold keyAt at h
  split_ifs at h with hv
  · obtain rfl := Option.some.inj h
    exact hv
  · split at h
    · next pointer hvalue =>
      split_ifs at h with hpointer
      obtain rfl := Option.some.inj h
      exact hpointer
    · cases h

omit [DecidableEq B] in
/-- The range of a key. -/
theorem find_bind_keyAt (v : V) :
    (ranges.find v).or (slotRange mod ranges v) = (keyAt mod ranges v).bind ranges.find := by
  unfold keyAt slotRange
  cases hv : ranges.find v with
  | some range => simp [hv]
  | none =>
    cases mod.value v
    case load pointer => cases hpointer : ranges.find pointer <;> simp [hpointer]
    all_goals rfl

/-- `resolveKnownRange` gives the range of its key. -/
theorem resolveKnownRange_eq (v : V) :
    resolveKnownRange mod ranges v = (rangeKeyOf mod ranges v).bind ranges.find := by
  rw [resolveKnownRange, resolveKnownRangeRecursive_eq]
  exact lookThrough_bind find_bind_keyAt (fun v key hkey => find_keyAt hkey) 33 v []

end Lookup

/-! ## Right ranges -/

section States

/-- The value of a key: what is stored there, or its own value if it is no pointer. -/
def keyValue (st : State V) (key : V) : Option Word :=
  if (mod.type key).isPointerTy then some (st.memory (target mod key)) else st.read mod key

/-- **The ranges are right** in a state: each contains the signed value of its key. -/
def RangesRight (st : State V) : Prop :=
  ∀ key range, ranges.find key = some range → ∀ x, keyValue mod st key = some x →
    range.Contains x.2.toInt

/-- **A value is what is looked up for it**: it has the same signed value as the constant that is
found for it, or else as the key of the range. -/
structure KeepsSigned (st : State V) (v : V) : Prop where
  constant : ∀ w, constantSource mod v = some w → ∃ x y, st.read mod v = some x ∧
    st.read mod w = some y ∧ x.2.toInt = y.2.toInt
  range : constantSource mod v = none → ∀ key, rangeKeyOf mod ranges v = some key →
    ∃ x y, st.read mod v = some x ∧ keyValue mod st key = some y ∧ x.2.toInt = y.2.toInt

/-- The exact result of an operation fits. -/
def Fits (inst : V) (op : BinaryOp) (lhs rhs : V) (st : State V) : Prop :=
  ∀ width, (mod.type inst).integerWidth = some width → ∀ x y, st.read mod lhs = some x →
    st.read mod rhs = some y →
      -2 ^ (width.val - 1) ≤ op.exact x.2.toInt y.2.toInt ∧
        op.exact x.2.toInt y.2.toInt ≤ 2 ^ (width.val - 1) - 1

/-- **The proofs are right**: no operation that is proved not to overflow does so, in any run, when
the ranges are right whenever it is executed. -/
def SoundProof (f : F) (inst : V) : Prop :=
  ∀ op nsw nuw lhs rhs, mod.value inst = .binary op nsw nuw lhs rhs →
    provenNoSignedOverflowByRanges mod ranges inst op lhs rhs = true →
    (∀ block rest st trace, Run mod f block (inst :: rest) st trace → RangesRight mod ranges st) →
    ∀ block rest st trace, Run mod f block (inst :: rest) st trace → Fits mod inst op lhs rhs st

variable {mod ranges}

omit [DecidableEq V] [DecidableEq B] in
/-- The value of a constant. -/
theorem read_of_constantOf {st : State V} {w : V} {c : Word} (h : constantOf mod w = some c) :
    st.read mod w = some c := by
  unfold constantOf at h
  split at h
  · next width bits hvalue => rwa [State.read, hvalue]
  · cases h

/-- **The range of an operand contains its value**, if it is what is looked up for it. -/
theorem between_of_tryGetSignedRange {st : State V} {v : V} {lower upper : ℤ} {x : Word}
    (h : tryGetSignedRange mod ranges v = some (lower, upper))
    (hright : RangesRight mod ranges st) (hkeeps : KeepsSigned mod ranges st v)
    (hread : st.read mod v = some x) : lower ≤ x.2.toInt ∧ x.2.toInt ≤ upper := by
  unfold tryGetSignedRange at h
  rw [resolveConstInt_eq, resolveKnownRange_eq] at h
  cases hsource : constantSource mod v with
  | some w =>
    obtain ⟨x', y, hx', hy, hsame⟩ := hkeeps.constant w hsource
    obtain rfl : x' = x := Option.some.inj (hx'.symm.trans hread)
    rw [hsource, Option.bind_some] at h
    obtain ⟨u, hu⟩ := exists_found hsource
    obtain ⟨c, hconstant⟩ := Option.isSome_iff_exists.mp (isSome_constantOf hu)
    obtain rfl : c = y := Option.some.inj ((read_of_constantOf hconstant).symm.trans hy)
    rw [hconstant] at h
    simp only at h
    split_ifs at h
    obtain ⟨rfl, rfl⟩ := Prod.mk.inj (Option.some.inj h)
    exact ⟨hsame.ge, hsame.le⟩
  | none =>
    rw [hsource, Option.bind_none] at h
    simp only at h
    obtain ⟨range, hrange, hbounds⟩ := Option.bind_eq_some_iff.mp h
    obtain ⟨key, hkey, hfind⟩ := Option.bind_eq_some_iff.mp hrange
    obtain ⟨x', y, hx', hy, hsame⟩ := hkeeps.range hsource key hkey
    obtain rfl : x' = x := Option.some.inj (hx'.symm.trans hread)
    have hin := hright key range hfind y hy
    split_ifs at hbounds with hboth
    obtain ⟨rfl, rfl⟩ := Prod.mk.inj (Option.some.inj hbounds)
    rw [Bool.and_eq_true] at hboth
    rw [hsame]
    exact ⟨hin.1 hboth.1, hin.2 hboth.2⟩

/-- **Interval arithmetic**: the result of an operation on numbers in ranges lies between the
smallest and the largest result. -/
theorem resultRange_contains {op : BinaryOp} {lhs rhs result : ℤ × ℤ} {x y : ℤ}
    (h : resultRange op lhs rhs = some result) (hx : lhs.1 ≤ x ∧ x ≤ lhs.2)
    (hy : rhs.1 ≤ y ∧ y ≤ rhs.2) : result.1 ≤ op.exact x y ∧ op.exact x y ≤ result.2 := by
  cases op with
  | add =>
    obtain rfl := Option.some.inj h
    show lhs.1 + rhs.1 ≤ x + y ∧ x + y ≤ lhs.2 + rhs.2
    omega
  | sub =>
    obtain rfl := Option.some.inj h
    show lhs.1 - rhs.2 ≤ x - y ∧ x - y ≤ lhs.2 - rhs.1
    omega
  | mul =>
    obtain rfl := Option.some.inj h
    exact mul_between_corners hx.1 hx.2 hy.1 hy.2
  | _ => cases h

end States

/-! ## A byte that is widened -/

section Widened

/-- The example has five values. -/
theorem neZero_five : NeZero 5 := ⟨Nat.succ_ne_zero 4⟩

attribute [local instance] neZero_five

/-- The values of `int f(char x) { return x + 2147483520; }`, with a `sext` or a `zext`: the
argument, the cast, the constant, the sum and the return. -/
def widenedValue (op : CastInst) : Fin 5 → Value (Fin 5) (Fin 1) Unit
  | 0 => .argument 0 false
  | 1 => .cast op 0
  | 2 => .constantInt 32 2147483520
  | 3 => .binary .add true false 1 2
  | 4 => .ret

/-- The types of these values. -/
def widenedType : Fin 5 → Ty
  | 0 => .int ⟨8, isWidth_eight⟩
  | 1 | 2 | 3 => .int ⟨32, isWidth_thirtyTwo⟩
  | _ => .other

/-- The module of this function. -/
def widened (op : CastInst) : Module Unit (Fin 5) (Fin 1) :=
  singleFunction (widenedValue op) widenedType (fun _ => [1, 3, 4]) (fun _ => []) (by decide)

/-- The range of the argument is that of its type. -/
def byteRanges : EntryMap (Fin 5) IntRange where
  entries := [(0, ⟨-128, 127, true, true⟩)]
  nodup := by decide

/-- At the beginning, the argument is 200, which is -56 as a signed number. -/
def widenedStart : State (Fin 5) where
  values v := if v = 0 then some ⟨8, 200⟩ else none
  memory _ := ⟨0, 0⟩

/-- The run up to the sum. -/
theorem widened_run {op : CastInst} (hop : op = .sext ∨ op = .zext) :
    Run (widened op) () 0 [3, 4]
      (widenedStart.afterAll (widened op) [(1, castWord op 32 ⟨8, 200⟩)])
      (widenedStart.traceOf (widened op) [(1, castWord op 32 ⟨8, 200⟩)]) := by
  have hinitial : Initial (widened op) () widenedStart :=
    initial_single (show (0 : Fin 5) ∉ [1, 3, 4] by decide) rfl
  have hstart := Run.start (widened op) () 0 rfl hinitial
  rcases hop with rfl | rfl
  · exact hstart.after _ ⟨_, rfl, rfl⟩ rfl (by rintro value pointer ⟨⟩)
  · exact hstart.after _ ⟨_, rfl, rfl⟩ rfl (by rintro value pointer ⟨⟩)

/-- The range is right in all runs. -/
theorem widened_rangesRight {op : CastInst} {block : Fin 1} {rest : List (Fin 5)}
    {st : State (Fin 5)} {trace : List (Fin 5 × State (Fin 5))}
    (hrun : Run (widened op) () block rest st trace) :
    RangesRight (widened op) byteRanges st := by
  intro key range hrange x hx
  obtain ⟨rfl, rfl⟩ : key = 0 ∧ range = ⟨-128, 127, true, true⟩ := by
    have hmem := EntryMap.find_eq_some_iff.mp hrange
    simpa [byteRanges] using hmem
  have hwidth : x.1 = 8 := of_decide_eq_true (hrun.hasWidth 0 x hx)
  obtain ⟨width, bits⟩ := x
  obtain rfl : width = 8 := hwidth
  have hlower := BitVec.le_toInt bits
  have hupper := BitVec.toInt_lt (x := bits)
  exact ⟨fun _ => hlower, fun _ => Int.le_of_lt_add_one hupper⟩

end Widened

end StackAnalyzer.Bounds
