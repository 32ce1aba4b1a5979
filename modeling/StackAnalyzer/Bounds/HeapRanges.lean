import StackAnalyzer.Bounds.HeapIndices
import StackAnalyzer.Bounds.PredicateRanges
import StackAnalyzer.Llvm.Executions

set_option relaxedAutoImplicit false
set_option autoImplicit false

/-!
# Ranges of heap indices

A load from a heap allocation with a variable index is not reported if the range of the index lies
inside of the allocation. The range comes from all comparisons of the function, whether they are
executed before the load or not, and whatever their results. It is right in runs that learn it:
since the index was computed, comparisons with constants must have been executed whose results bound
it.

## Main definitions

* `StackAnalyzer.Bounds.OobReads.Suppressed` — a load that is not reported because of a range.
* `StackAnalyzer.Bounds.OobReads.Learned` — a range that a run has found out.
* `StackAnalyzer.Bounds.OobReads.Guarded` — the index is bounded by what a run has found out.

## Main results

* `StackAnalyzer.Bounds.OobReads.not_reports_of_suppressed` — such a load is not reported.
* `StackAnalyzer.Bounds.OobReads.contains_of_learned` — what a run has found out is true.
* `StackAnalyzer.Bounds.OobReads.suppressed_inRange` — guarded loads are inside of the allocation.
-/

namespace StackAnalyzer.Bounds.OobReads

open CrossTU Maps Llvm Smt Consulting

variable {F V B : Type*} [DecidableEq V] [DecidableEq B] [Fintype V] (mod : Module F V B)

/-! ## Suppressed loads -/

section Suppressed

variable (layout : DataLayout) (underlying : V → V)

/-- **A load that is not reported because of a range**: the allocation has a known size, and the
range of the index lies inside of it. -/
structure Suppressed (f : F) (inst index : V) (capacity : ℕ) : Prop where
  checked : ∃ before after root, mod.functionInstructions f = before ++ inst :: after ∧
    checkedLoad mod layout underlying (stateBefore mod layout underlying before) inst =
      some (root, capacity, index)
  variable_index : (mod.value index).isConstantInt = false
  within : ∃ range, lookupRange mod (computeIntRangesFromICmps mod f) index = some range ∧
    rangeWithin range capacity = true

variable {mod} {layout} {underlying} {shouldAnalyze : F → Bool} {config : AnalysisConfig}
  {trace : List (SmtQuery V × SmtStatus)} {issues : List (OOBReadIssue V)}

/-- **A suppressed load is not reported**, whatever the solver. -/
theorem not_reports_of_suppressed
    (hrun : (analyzeOOBReads mod layout underlying shouldAnalyze config).Runs trace issues) {f : F}
    (hf : f ∈ analyzedFunctions mod shouldAnalyze) {inst index : V} {capacity : ℕ}
    (h : Suppressed mod layout underlying f inst index capacity) :
    ¬ ReportsHeapIndex issues inst := by
  obtain ⟨before, after, root, hstands, hchecked⟩ := h.checked
  obtain ⟨range, hlookup, hwithin⟩ := h.within
  rintro ⟨issue, hissue, hinst, hkind⟩
  obtain ⟨trace', issues', hruns, hmem⟩ := (runs_issuesAt hrun hf hstands).2 issue hissue hinst
  have hload : ∀ call, mod.value inst ≠ .call call := by
    intro call hcall
    unfold checkedLoad loadedElement at hchecked
    rw [hcall] at hchecked
    cases hchecked
  have hnot : suspiciousIndex mod (computeIntRangesFromICmps mod f) index capacity = false := by
    unfold suspiciousIndex
    rw [hlookup, Option.any_some, hwithin]
    rfl
  unfold InstructionRuns issuesAt at hruns
  split at hruns
  · next call hcall => exact hload call hcall
  · unfold loadIssue at hruns
    rw [hchecked] at hruns
    dsimp only at hruns
    split at hruns
    · next width c hconst =>
      have hvariable := h.variable_index
      rw [hconst] at hvariable
      cases hvariable
    · rw [hnot, if_neg Bool.false_ne_true] at hruns
      obtain ⟨-, rfl⟩ := Consult.runs_answer_iff.mp hruns
      exact List.not_mem_nil hmem

end Suppressed

/-! ## What a run finds out -/

section Learned

/-- A comparison compares a value with a constant, as its first operand or not. -/
def ComparesWith (inst v : V) (pred : Predicate) (valueIsOp0 : Bool) {width : ℕ}
    (c : BitVec width) : Prop :=
  ∃ op0 op1, mod.value inst = .icmp pred op0 op1 ∧
    if valueIsOp0 then op0 = v ∧ mod.value op1 = .constantInt width c
    else op1 = v ∧ mod.value op0 = .constantInt width c

/-- **A range that a run has found out** for a value: since everything that the value is cast from
was executed, there was a comparison of it with a constant, and the range is right for its
result. -/
def Learned (trace : List (V × ℤ)) (v : V) (range : IntRange) : Prop :=
  ∃ (recent earlier : List (V × ℤ)) (inst : V) (result : ℤ) (pred : Predicate)
    (valueIsOp0 : Bool) (width : ℕ) (c : BitVec width),
    trace = recent ++ (inst, result) :: earlier ∧
      (∀ event ∈ recent ++ [(inst, result)], ¬ DependsOn mod v event.1) ∧
      ComparesWith mod inst v pred valueIsOp0 c ∧ 1 ≤ width ∧ width ≤ 64 ∧
      KeepsValues (valuePredicate (edgePredicate pred (decide (result = 1))) valueIsOp0) c ∧
      boundsFromPredicate (edgePredicate pred (decide (result = 1))) valueIsOp0 c = range

/-- An index is a value, cast so that no number below a capacity changes. -/
inductive CastsSmall (capacity : ℕ) : V → V → Prop
  | refl {v : V} : CastsSmall capacity v v
  | sext {index operand v : V} : mod.value index = .cast .sext operand →
      CastsSmall capacity operand v → CastsSmall capacity index v
  | zext {index operand v : V} : mod.value index = .cast .zext operand →
      CastsSmall capacity operand v → CastsSmall capacity index v
  | trunc {index operand v : V} : mod.value index = .cast .trunc operand →
      capacity ≤ 2 ^ (mod.bitWidth index - 1) → CastsSmall capacity operand v →
      CastsSmall capacity index v

/-- **The index is bounded by what a run has found out**: from zero on, and below the capacity. -/
def Guarded (trace : List (V × ℤ)) (index : V) (capacity : ℕ) : Prop :=
  ∃ v, CastsSmall mod capacity index v ∧
    (∃ range, Learned mod trace v range ∧ range.hasLower = true ∧ 0 ≤ range.lower) ∧
    ∃ range, Learned mod trace v range ∧ range.hasUpper = true ∧ range.upper < capacity

/-- What LLVM guarantees about the types of operands. -/
structure WellTyped : Prop where
  icmp : ∀ inst pred op0 op1, mod.value inst = .icmp pred op0 op1 →
    mod.bitWidth op0 = mod.bitWidth op1
  sext : ∀ v operand, mod.value v = .cast .sext operand → mod.bitWidth operand ≤ mod.bitWidth v
  zext : ∀ v operand, mod.value v = .cast .zext operand → mod.bitWidth operand ≤ mod.bitWidth v
  trunc : ∀ v operand, mod.value v = .cast .trunc operand → mod.bitWidth v ≤ mod.bitWidth operand
  pos : ∀ v, 0 < mod.bitWidth v

omit [DecidableEq V] [DecidableEq B] [Fintype V] in
/-- The bounds of a comparison are right for its result. -/
theorem contains_of_compares {width : ℕ} (hwidth : 1 ≤ width) (hwidth' : width ≤ 64)
    {pred : Predicate} {valueIsOp0 taken : Bool} {c x : BitVec width}
    (hkeeps : KeepsValues (valuePredicate (edgePredicate pred taken) valueIsOp0) c)
    (hcompares : compares pred valueIsOp0 c x = taken) :
    (boundsFromPredicate (edgePredicate pred taken) valueIsOp0 c).Contains x.toInt := by
  have hbounds : boundsFromPredicate (edgePredicate pred taken) valueIsOp0 c =
      boundsFromPredicate (valuePredicate (edgePredicate pred taken) valueIsOp0) true c := by
    rw [boundsFromPredicate_eq, boundsFromPredicate_eq _ true]
    rfl
  have hholds := (compares_iff pred valueIsOp0 c taken x).mp hcompares
  have hright := (right_iff hwidth hwidth' _).mpr hkeeps
  rw [hbounds]
  refine ⟨fun hlower => ?_, fun hupper => ?_⟩
  · exact ((hright (by rw [hlower, Bool.true_or])).1 x hholds).1 hlower
  · exact ((hright (by rw [hupper, Bool.or_true])).1 x hholds).2 hupper

variable {mod} {f : F} {start : V → ℤ}

omit [DecidableEq B] [Fintype V] in
/-- **What a run has found out is true**: the range contains the signed value. -/
theorem contains_of_learned (htyped : WellTyped mod) {block : B} {rest : List V}
    {trace : List (V × ℤ)} (hrun : Execution mod f start block rest trace)
    {later before : List (V × ℤ)} (htrace : trace = later ++ before) {v : V} {range : IntRange}
    (hlearned : Learned mod before v range) {x : ℤ}
    (hreads : Reads mod (valuesAfter start before) v x) :
    range.Contains (signedAt (mod.bitWidth v) x) := by
  obtain ⟨recent, earlier, inst, result, pred, valueIsOp0, width, c, rfl, huntouched, hwith, hwidth,
    hwidth', hkeeps, rfl⟩ := hlearned
  obtain ⟨op0, op1, hicmp, hoperands⟩ := hwith
  have hvalue := hrun.evaluates (htrace.trans (List.append_assoc later recent _).symm)
  unfold Evaluates at hvalue
  rw [hicmp] at hvalue
  obtain ⟨x0, x1, hop0, hop1, hresult⟩ := hvalue
  have hreads' : Reads mod (valuesAfter start earlier) v x := by
    rw [← reads_of_untouched huntouched, List.append_assoc]
    exact hreads
  have htypes := htyped.icmp inst pred op0 op1 hicmp
  have hconstant : ∀ {op : V}, mod.value op = .constantInt width c → mod.bitWidth op = width := by
    intro op hop
    unfold Module.bitWidth
    rw [hop]
  have hcompares : ∀ holds : Bool, compares pred valueIsOp0 c (BitVec.ofInt width x) = holds →
      result = (if holds then 1 else 0) → compares pred valueIsOp0 c (BitVec.ofInt width x) =
        decide (result = 1) := by
    rintro holds rfl rfl
    cases compares pred valueIsOp0 c (BitVec.ofInt width x) <;> rfl
  suffices hsuffices : mod.bitWidth v = width ∧ result =
      if compares pred valueIsOp0 c (BitVec.ofInt width x) then 1 else 0 by
    obtain ⟨hbits, hresult⟩ := hsuffices
    rw [signedAt, hbits]
    exact contains_of_compares hwidth hwidth' hkeeps (hcompares _ rfl hresult)
  cases valueIsOp0 with
  | true =>
    obtain ⟨rfl, hop⟩ := hoperands
    obtain rfl := hop0.unique hreads'
    obtain rfl := hop1.unique (.constant hop)
    rw [Llvm.compareBits, htypes, hconstant hop, BitVec.ofInt_toInt] at hresult
    exact ⟨htypes.trans (hconstant hop), hresult⟩
  | false =>
    obtain ⟨rfl, hop⟩ := hoperands
    obtain rfl := hop1.unique hreads'
    obtain rfl := hop0.unique (.constant hop)
    rw [Llvm.compareBits, hconstant hop, BitVec.ofInt_toInt] at hresult
    exact ⟨htypes.symm.trans (hconstant hop), hresult⟩

omit [DecidableEq V] [DecidableEq B] [Fintype V] in
/-- A number that fits keeps its value. -/
theorem signedAt_of_mem {width : ℕ} {x : ℤ} (hlow : -2 ^ width ≤ 2 * x)
    (hhigh : 2 * x < 2 ^ width) : signedAt width x = x := by
  rw [signedAt, BitVec.toInt_ofInt]
  exact Int.bmod_eq_of_le_mul_two (by push_cast; linarith) (by push_cast; linarith)

omit [DecidableEq V] [DecidableEq B] [Fintype V] in
/-- A signed number fits a larger width. -/
theorem signedAt_signedAt {width width' : ℕ} (hwidth : width ≤ width') (x : ℤ) :
    signedAt width' (signedAt width x) = signedAt width x := by
  have hpow : (2 : ℤ) ^ width ≤ 2 ^ width' := pow_le_pow_right₀ (by norm_num) hwidth
  have hlow : -2 ^ width ≤ 2 * signedAt width x := BitVec.le_two_mul_toInt
  have hhigh : 2 * signedAt width x < 2 ^ width := BitVec.two_mul_toInt_lt
  exact signedAt_of_mem (by linarith) (by linarith)

omit [DecidableEq V] [DecidableEq B] [Fintype V] in
/-- The unsigned number is the signed one, if that is not negative. -/
theorem toNat_of_signedAt_nonneg {width : ℕ} {x : ℤ} (h : 0 ≤ signedAt width x) :
    ((BitVec.ofInt width x).toNat : ℤ) = signedAt width x := by
  have heq := toInt_eq (BitVec.ofInt width x)
  have hlt := (BitVec.ofInt width x).isLt
  unfold signedAt at h ⊢
  split_ifs at heq with hmsb
  · have hpow : ((BitVec.ofInt width x).toNat : ℤ) < 2 ^ width := by exact_mod_cast hlt
    linarith
  · exact heq.symm

omit [DecidableEq V] [DecidableEq B] [Fintype V] in
/-- A small number stays if bits are cut off. -/
theorem signedAt_trunc {width width' : ℕ} (hwidth : width' ≤ width) {x : ℤ}
    (hlow : 0 ≤ signedAt width x) (hhigh : 2 * signedAt width x < 2 ^ width') :
    signedAt width' x = signedAt width x := by
  have hdvd : (2 ^ width' : ℕ) ∣ 2 ^ width := Nat.pow_dvd_pow 2 hwidth
  have hsame : signedAt width' (signedAt width x) = signedAt width' x := by
    rw [signedAt, signedAt, signedAt, BitVec.toInt_ofInt, BitVec.toInt_ofInt, BitVec.toInt_ofInt]
    exact Int.bmod_bmod_of_dvd hdvd
  rw [← hsame]
  have hpos : (0 : ℤ) < 2 ^ width' := by positivity
  exact signedAt_of_mem (by linarith) hhigh

omit [DecidableEq V] [DecidableEq B] [Fintype V] in
/-- **Casts of small numbers**: the index is the value itself. -/
theorem signedAt_of_castsSmall (htyped : WellTyped mod) {env : V → ℤ} {capacity : ℕ}
    {index v : V} (hcasts : CastsSmall mod capacity index v) {x : ℤ}
    (hindex : Reads mod env index x)
    (hsmall : ∀ y, Reads mod env v y → InRange capacity (signedAt (mod.bitWidth v) y)) :
    InRange capacity (signedAt (mod.bitWidth index) x) := by
  induction hcasts generalizing x with
  | refl => exact hsmall x hindex
  | sext hvalue _ ih =>
    cases hindex with
    | sext hvalue' hoperand =>
      obtain rfl : _ = _ := by simpa using hvalue.symm.trans hvalue'
      rw [signedAt_signedAt (htyped.sext _ _ hvalue)]
      exact ih hoperand hsmall
    | constant hvalue' | zext hvalue' | trunc hvalue' =>
      exact absurd (hvalue.symm.trans hvalue') (by simp)
    | kept hkept => simp [Module.IsKept, hvalue] at hkept
  | zext hvalue _ ih =>
    cases hindex with
    | zext hvalue' hoperand =>
      obtain rfl : _ = _ := by simpa using hvalue.symm.trans hvalue'
      have hrange := ih hoperand hsmall
      rw [toNat_of_signedAt_nonneg hrange.1, signedAt_signedAt (htyped.zext _ _ hvalue)]
      exact hrange
    | constant hvalue' | sext hvalue' | trunc hvalue' =>
      exact absurd (hvalue.symm.trans hvalue') (by simp)
    | kept hkept => simp [Module.IsKept, hvalue] at hkept
  | trunc hvalue hcapacity _ ih =>
    cases hindex with
    | trunc hvalue' hoperand =>
      obtain rfl : _ = _ := by simpa using hvalue.symm.trans hvalue'
      have hrange := ih hoperand hsmall
      rw [signedAt_trunc (htyped.trunc _ _ hvalue) hrange.1 ?_]
      · exact hrange
      · have hpos := htyped.pos
        obtain ⟨bits, hbits⟩ := Nat.exists_eq_succ_of_ne_zero (hpos _).ne'
        rw [hbits, Nat.succ_sub_one] at hcapacity
        rw [hbits, pow_succ]
        have hcapacity' : (capacity : ℤ) ≤ 2 ^ bits := by exact_mod_cast hcapacity
        linarith [hrange.2]
    | constant hvalue' | sext hvalue' | zext hvalue' =>
      exact absurd (hvalue.symm.trans hvalue') (by simp)
    | kept hkept => simp [Module.IsKept, hvalue] at hkept

variable (mod) in
/-- **The suppression is sound**: in every run of a function, the index of each suppressed load lies
between zero and the capacity. -/
def SoundSuppression (layout : DataLayout) (underlying : V → V) (f : F) : Prop :=
  ∀ start block rest trace, Execution mod f start block rest trace →
    ∀ later inst result before index capacity, trace = later ++ (inst, result) :: before →
      Suppressed mod layout underlying f inst index capacity →
        ∀ x, Reads mod (valuesAfter start before) index x →
          InRange capacity (signedAt (mod.bitWidth index) x)

end Learned

/-! ## Comparisons without a branch -/

section Logged

/-- The example has eleven values. -/
theorem neZero_eleven : NeZero 11 := ⟨Nat.succ_ne_zero 10⟩

attribute [local instance] neZero_eleven

/-- The values of `int *p = malloc(40); log(i >= 0, i < 10); return p[i];`: three constants,
`malloc`, the argument `i`, the call, the two comparisons, the `getelementptr` and the load. -/
def loggedValue : Fin 11 → Value (Fin 11) Unit Bool
  | 0 => .constantInt 64 40
  | 1 => .constantInt 64 0
  | 2 => .constantInt 64 10
  | 3 => .function false
  | 4 => .argument 0 false
  | 5 => .call ⟨some false, 3, [0], none, false⟩
  | 6 => .icmp .sge 4 1
  | 7 => .icmp .slt 4 2
  | 8 => .getElementPtr (.int ⟨32, isWidth_thirtyTwo⟩) 5 [4]
  | 9 => .load 8
  | 10 => .ret

/-- The module of this function, which is `true`, and `malloc`. -/
def logged : Module Bool (Fin 11) Unit where
  functions := [true, false]
  functionName f := if f then "f".toList else "malloc".toList
  isDeclaration f := !f
  sourcePath _ := []
  blocks f := if f then [()] else []
  instructions _ := [5, 6, 7, 8, 9, 10]
  parent _ := ()
  successors _ := []
  predecessors _ := []
  value := loggedValue
  type
    | 0 | 1 | 2 | 4 => .int ⟨64, isWidth_sixtyFour⟩
    | 3 | 5 | 8 => .ptr
    | 6 | 7 => .int ⟨1, isWidth_one⟩
    | 9 => .int ⟨32, isWidth_thirtyTwo⟩
    | _ => .other
  name
    | 3 => "malloc".toList
    | _ => []
  users
    | 0 => [5]
    | 1 => [6]
    | 2 => [7]
    | 3 => [5]
    | 4 => [6, 7, 8]
    | 5 => [8]
    | 8 => [9]
    | 9 => [10]
    | _ => []
  operands
    | 5 => [0, 3]
    | 6 => [4, 1]
    | 7 => [4, 2]
    | 8 => [5, 4]
    | 9 => [8]
    | 10 => [9]
    | _ => []
  underlyingObject
    | 8 => 5
    | v => v
  stripPointerCasts v := v
  nodup := by decide

/-- The events of a run up to the load, for a value of `i`. -/
def loggedTrace (i : ℤ) : List (Fin 11 × ℤ) :=
  [(9, 0), (8, 0), (7, Llvm.compareBits .slt 64 i 10), (6, Llvm.compareBits .sge 64 i 0), (5, 0)]

theorem logged_wellTyped : WellTyped logged where
  icmp := by
    intro inst pred op0 op1 hicmp
    fin_cases inst <;> cases hicmp <;> rfl
  sext := by
    intro v operand hcast
    fin_cases v <;> cases hcast
  zext := by
    intro v operand hcast
    fin_cases v <;> cases hcast
  trunc := by
    intro v operand hcast
    fin_cases v <;> cases hcast
  pos := by decide

/-- The load is suppressed: the range of `i` is that from zero to nine. -/
theorem logged_suppressed :
    Suppressed logged byteLayout logged.underlyingObject true 9 4 10 where
  checked := ⟨[5, 6, 7, 8], [10], 5, rfl, rfl⟩
  variable_index := rfl
  within := ⟨_, rfl, rfl⟩

theorem logged_reads_zero (env : Fin 11 → ℤ) : Reads logged env 1 0 := by
  have hreads : Reads logged env 1 (0 : BitVec 64).toInt := .constant rfl
  rwa [show (0 : BitVec 64).toInt = 0 by decide] at hreads

theorem logged_reads_ten (env : Fin 11 → ℤ) : Reads logged env 2 10 := by
  have hreads : Reads logged env 2 (10 : BitVec 64).toInt := .constant rfl
  rwa [show (10 : BitVec 64).toInt = 10 by decide] at hreads

/-- The function runs for every value of `i`. -/
theorem logged_execution (i : ℤ) :
    Execution logged true (fun v => if v = 4 then i else 0) () [10] (loggedTrace i) := by
  have hcall : Execution logged true (fun v => if v = 4 then i else 0) () [6, 7, 8, 9, 10]
      [(5, 0)] := .step (.entry rfl) trivial
  have hlower : Execution logged true (fun v => if v = 4 then i else 0) () [7, 8, 9, 10]
      [(6, Llvm.compareBits .sge 64 i 0), (5, 0)] :=
    .step hcall ⟨i, 0, .kept trivial, logged_reads_zero _, rfl⟩
  have hupper : Execution logged true (fun v => if v = 4 then i else 0) () [8, 9, 10]
      [(7, Llvm.compareBits .slt 64 i 10), (6, Llvm.compareBits .sge 64 i 0), (5, 0)] :=
    .step hlower ⟨i, 10, .kept trivial, logged_reads_ten _, rfl⟩
  exact .step (.step hupper trivial) trivial

/-- For five, the comparisons that are executed before the load bound the index. -/
theorem logged_guarded : Guarded logged (loggedTrace 5).tail 4 10 := by
  have huntouched : ∀ w : Fin 11, DependsOn logged 4 w → w = 4 := by
    intro w hw
    rcases Relation.ReflTransGen.cases_head hw with rfl | ⟨next, ⟨op, hcast⟩, -⟩
    · rfl
    · cases hcast
  refine ⟨4, .refl, ⟨_, ⟨[(8, 0), (7, 1)], [(5, 0)], 6, 1, .sge, true, 64, 0, rfl, ?_,
    ⟨4, 1, rfl, rfl, rfl⟩, by decide, by decide, trivial, rfl⟩, rfl, by decide⟩,
    _, ⟨[(8, 0)], [(6, 1), (5, 0)], 7, 1, .slt, true, 64, 10, rfl, ?_,
    ⟨4, 2, rfl, rfl, rfl⟩, by decide, by decide,
    show (10 : BitVec 64).toInt ≠ -2 ^ 63 by decide, rfl⟩, rfl, by decide⟩
  · intro event hevent hdepends
    have heq := huntouched _ hdepends
    fin_cases hevent <;> cases heq
  · intro event hevent hdepends
    have heq := huntouched _ hdepends
    fin_cases hevent <;> cases heq

/-- Only this load is suppressed. -/
theorem logged_suppressed_unique {inst index : Fin 11} {capacity : ℕ}
    (h : Suppressed logged byteLayout logged.underlyingObject true inst index capacity) :
    inst = 9 ∧ index = 4 ∧ capacity = 10 := by
  obtain ⟨before, after, root, hstands, hchecked⟩ := h.checked
  have hinst : inst = 9 := by
    by_contra hne
    have hnone : loadedElement logged inst = none := by
      fin_cases inst <;> first | rfl | exact absurd rfl hne
    rw [checkedLoad, hnone] at hchecked
    cases hchecked
  subst hinst
  have hbefore : before = [5, 6, 7, 8] := before_unique (by decide) hstands rfl
  subst hbefore
  have heq := Option.some.inj (hchecked.symm.trans
    (show checkedLoad logged byteLayout logged.underlyingObject
      (stateBefore logged byteLayout logged.underlyingObject [5, 6, 7, 8]) 9 = some (5, 10, 4)
      from rfl))
  obtain ⟨-, hrest⟩ := Prod.mk.inj heq
  obtain ⟨hcapacity, hindex⟩ := Prod.mk.inj hrest
  exact ⟨rfl, hindex, hcapacity⟩

end Logged

end StackAnalyzer.Bounds.OobReads
