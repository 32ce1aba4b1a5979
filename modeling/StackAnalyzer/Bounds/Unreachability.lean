import StackAnalyzer.Bounds.ConstantIndices
import StackAnalyzer.Values.RecoveredConstants

set_option relaxedAutoImplicit false
set_option autoImplicit false

/-!
# Accesses that are taken for unreachable

An access is taken for unreachable if a predecessor of its block compares two recovered constants
and branches away from the block. That is right for runs in which this holds for all predecessors,
whose loads find constants and whose casts do not matter for the comparisons; with another way into
the block, it may be wrong.

## Main definitions

* `StackAnalyzer.Bounds.isStaticallyUnreachableStackAccess` — the check.
* `StackAnalyzer.Bounds.AllRefuted` — all edges into a block are refuted in a run.
* `StackAnalyzer.Bounds.SoundUnreachability` — the check is right.

## Main results

* `StackAnalyzer.Bounds.staticallyUnreachable_right` — when the check is right.
* `StackAnalyzer.Bounds.not_soundUnreachability_either` — a block with two predecessors.
-/

namespace StackAnalyzer.Bounds

open Llvm Machine Values

variable {F V B : Type*} [DecidableEq V] [DecidableEq B] [Fintype V] (mod : Module F V B) (f : F)

/-! ## The check -/

/-- The comparison of two constants. Numbers are compared as they are, and signed ones as if the
second had the width of the first. -/
def compareConstants (pred : Predicate) (lhs rhs : Word) : Bool :=
  match pred with
  | .eq => decide (lhs.2.toNat = rhs.2.toNat)
  | .ne => decide (lhs.2.toNat ≠ rhs.2.toNat)
  | .ult => decide (lhs.2.toNat < rhs.2.toNat)
  | .ule => decide (lhs.2.toNat ≤ rhs.2.toNat)
  | .ugt => decide (rhs.2.toNat < lhs.2.toNat)
  | .uge => decide (rhs.2.toNat ≤ lhs.2.toNat)
  | .slt => decide (lhs.2.toInt < (rhs.2.setWidth lhs.1).toInt)
  | .sle => decide (lhs.2.toInt ≤ (rhs.2.setWidth lhs.1).toInt)
  | .sgt => decide ((rhs.2.setWidth lhs.1).toInt < lhs.2.toInt)
  | .sge => decide ((rhs.2.setWidth lhs.1).toInt ≤ lhs.2.toInt)

/-- A predecessor ends with a conditional branch on a comparison. -/
structure Branches (predecessor : B) (pred : Predicate) (compare op0 op1 : V)
    (ifTrue ifFalse : B) : Prop where
  terminator : ∃ last, (mod.instructions predecessor).getLast? = some last ∧
    mod.value last = .br compare ifTrue ifFalse
  compare : mod.value compare = .icmp pred op0 op1

/-- One step of the loop over the predecessors: the branch does not lead to the block. -/
def edgeRefuted (block predecessor : B) : Bool :=
  match (mod.instructions predecessor).getLast?.map mod.value with
  | some (.br compare ifTrue ifFalse) =>
    match mod.value compare with
    | .icmp pred op0 op1 =>
      match tryGetConstFromValue mod f op0, tryGetConstFromValue mod f op1 with
      | some lhs, some rhs =>
        let condTrue := compareConstants pred lhs rhs
        (decide (block = ifTrue) && !condTrue) || (decide (block = ifFalse) && condTrue)
      | _, _ => false
    | _ => false
  | _ => false

/-- `isStaticallyUnreachableStackAccess`, for the instruction of an issue in a function. -/
def isStaticallyUnreachableStackAccess (inst : V) : Bool :=
  (mod.predecessors (mod.parent inst)).any (edgeRefuted mod f (mod.parent inst))

/-! ## Right decisions -/

/-- The constants that two values start from compare like the values. -/
def KeepsOutcome (pred : Predicate) (op0 op1 : V) (st : State V) : Prop :=
  ∃ x y lhs rhs, st.read mod op0 = some x ∧ st.read mod op1 = some y ∧
    st.read mod (mod.stripCasts op0) = some lhs ∧ st.read mod (mod.stripCasts op1) = some rhs ∧
    compareConstants pred lhs rhs = pred.holds x.2 (y.2.setWidth x.1)

/-- **A comparison is decided by its constants** in a run: the loads of both operands find
constants, and whenever the operands are compared, their casts do not matter for the outcome. -/
structure DecidesRight (trace : List (V × State V)) (pred : Predicate) (compare op0 op1 : V) :
    Prop where
  resizes0 : OnlyResizes mod op0
  resizes1 : OnlyResizes mod op1
  loads0 : LoadsConstants mod f op0 trace
  loads1 : LoadsConstants mod f op1 trace
  outcome : ∀ after st before, trace = after ++ (compare, st) :: before →
    KeepsOutcome mod pred op0 op1 st

/-- **All edges into a block are refuted** in a run: each predecessor ends with a branch with two
different successors, on a comparison that is decided by its constants and leads away. -/
def AllRefuted (trace : List (V × State V)) (block : B) : Prop :=
  ∀ predecessor ∈ mod.predecessors block, edgeRefuted mod f block predecessor = true ∧
    ∀ pred compare op0 op1 ifTrue ifFalse,
      Branches mod predecessor pred compare op0 op1 ifTrue ifFalse →
        ifTrue ≠ ifFalse ∧ DecidesRight mod f trace pred compare op0 op1

/-- The width of the constant of a value is known: it is that of what is left without casts, and of
all constants that are stored to the pointer if this is a load. -/
def HasConstantWidth (v : V) (width : ℕ) : Prop :=
  mod.bitWidth (mod.stripCasts v) = width ∧
    ∀ ptr, mod.value (mod.stripCasts v) = .load ptr →
      ∀ c ∈ storedConstants mod (mod.functionInstructions f) ptr, c.1 = width

/-- The constants of a comparison have the same number of bits. -/
def SameWidth (op0 op1 : V) : Prop :=
  ∀ lhs rhs, tryGetConstFromValue mod f op0 = some lhs → tryGetConstFromValue mod f op1 = some rhs →
    lhs.1 = rhs.1

/-- **The check is right**: no run enters the block, and all constants that are compared have the
same number of bits. -/
def SoundUnreachability (inst : V) : Prop :=
  isStaticallyUnreachableStackAccess mod f inst = true →
    (∀ block rest st trace, Run mod f block rest st trace → block ≠ mod.parent inst) ∧
      ∀ predecessor ∈ mod.predecessors (mod.parent inst), ∀ pred compare op0 op1 ifTrue ifFalse,
        Branches mod predecessor pred compare op0 op1 ifTrue ifFalse → SameWidth mod f op0 op1

variable {mod f}

/-- **What a refuted edge is.** -/
theorem edgeRefuted_iff {block predecessor : B} :
    edgeRefuted mod f block predecessor = true ↔
      ∃ pred compare op0 op1 ifTrue ifFalse lhs rhs,
        Branches mod predecessor pred compare op0 op1 ifTrue ifFalse ∧
          tryGetConstFromValue mod f op0 = some lhs ∧ tryGetConstFromValue mod f op1 = some rhs ∧
          (block = ifTrue ∧ compareConstants pred lhs rhs = false ∨
            block = ifFalse ∧ compareConstants pred lhs rhs = true) := by
  constructor
  · intro h
    unfold edgeRefuted at h
    split at h
    · next compare ifTrue ifFalse hlast =>
      obtain ⟨last, hlast, hvalue⟩ := Option.map_eq_some_iff.mp hlast
      split at h
      · next pred op0 op1 hcompare =>
        split at h
        · next lhs rhs hlhs hrhs =>
          refine ⟨pred, compare, op0, op1, ifTrue, ifFalse, lhs, rhs,
            ⟨⟨last, hlast, hvalue⟩, hcompare⟩, hlhs, hrhs, ?_⟩
          simpa using h
        · cases h
      · cases h
    · cases h
  · rintro ⟨pred, compare, op0, op1, ifTrue, ifFalse, lhs, rhs, ⟨⟨last, hlast, hvalue⟩, hcompare⟩,
      hlhs, hrhs, houtcome⟩
    simp only [edgeRefuted, hlast, Option.map_some, hvalue, hcompare, hlhs, hrhs]
    simpa using houtcome

omit [DecidableEq B] in
/-- So it was decided before. -/
theorem DecidesRight.earlier {recent earlier : List (V × State V)} {pred : Predicate}
    {compare op0 op1 : V} (h : DecidesRight mod f (recent ++ earlier) pred compare op0 op1) :
    DecidesRight mod f earlier pred compare op0 op1 where
  resizes0 := h.resizes0
  resizes1 := h.resizes1
  loads0 := h.loads0.earlier
  loads1 := h.loads1.earlier
  outcome after st before htrace :=
    h.outcome (recent ++ after) st before (by rw [htrace, List.append_assoc])

/-! ## The outcome of a comparison -/

omit [DecidableEq B] in
/-- A comparison has no constant. -/
theorem ne_of_icmp {v w op0 op1 : V} {c : Word} {pred : Predicate}
    (hc : tryGetConstFromValue mod f v = some c) (hicmp : mod.value w = .icmp pred op0 op1) :
    v ≠ w := by
  rintro rfl
  have hcast : ¬ IsCast mod v := by
    rintro ⟨op, operand, hop⟩
    exact absurd (hicmp.symm.trans hop) (by simp)
  have hbase := (stripCasts_of_not_cast hcast c).1
  obtain hvalue | ⟨ptr, hvalue, -⟩ := constant_of_base hc
  · rw [hbase, hicmp] at hvalue
    cases hvalue
  · rw [hbase, hicmp] at hvalue
    cases hvalue

omit [DecidableEq B] in
/-- **The outcome of a comparison** that is decided by its constants is that of the constants.

**Proof sketch.** The result comes from the last execution of the comparison, whose operands are
the constants, cast again; the casts do not matter for the outcome. -/
theorem read_compare (hmod : mod.Verified) (hf : f ∈ mod.functions) {block : B} {rest : List V}
    {trace : List (V × State V)} {st : State V} (hrun : Run mod f block rest st trace)
    {pred : Predicate} {compare op0 op1 : V} (hcompare : mod.value compare = .icmp pred op0 op1)
    (hmem : compare ∈ mod.functionInstructions f) (h : DecidesRight mod f trace pred compare op0 op1)
    {lhs rhs x : Word} (hlhs : tryGetConstFromValue mod f op0 = some lhs)
    (hrhs : tryGetConstFromValue mod f op1 = some rhs) (hread : st.read mod compare = some x) :
    x = ⟨1, BitVec.ofBool (compareConstants pred lhs rhs)⟩ := by
  obtain ⟨st₀, hinitial, hsteps⟩ := hrun.steps
  have hvalue : st.values compare = some x := by simpa [State.read, hcompare] using hread
  obtain ⟨after, s, s', before, rfl, -, hexecutes, hafter, hne⟩ :=
    hsteps.exists_last hvalue (hinitial.none compare hmem)
  obtain ⟨block', rest', s₁, hrun', hexecutes', -⟩ := hrun.executed rfl
  have hhere : Run mod f block' rest' s' ((compare, s') :: before) := .step hrun' hexecutes'
  -- the operands have been compared in the state before, and are the same after
  obtain ⟨result, hyields, hresult⟩ := hexecutes'.exists_value
  obtain rfl : result = x := by
    rw [hafter.values_eq hne, hresult] at hvalue
    exact Option.some.inj hvalue
  unfold Yields at hyields
  rw [hcompare] at hyields
  obtain ⟨x₀, y₀, hx₀, hy₀, rfl⟩ := hyields
  have hsame : ∀ v, v ≠ compare → s'.read mod v = s₁.read mod v := by
    intro v hv
    unfold State.read
    rw [hexecutes'.values_eq hv]
  obtain ⟨x₁, y₁, lhs', rhs', hx₁, hy₁, hlhs', hrhs', hkeeps⟩ := h.outcome after s' before rfl
  rw [hsame op0 (ne_of_icmp hlhs hcompare), hx₀] at hx₁
  rw [hsame op1 (ne_of_icmp hrhs hcompare), hy₀] at hy₁
  obtain rfl := Option.some.inj hx₁
  obtain rfl := Option.some.inj hy₁
  -- what the casts start from are the constants
  have hlocal := hmod.operand_local f hf compare hmem
  rw [hcompare] at hlocal
  have hlhs'' := holdsConstant_of_run hmod hf (hlocal op0 (by simp [Value.operandValues])) hlhs
    h.resizes0 hhere h.loads0.earlier
  have hrhs'' := holdsConstant_of_run hmod hf (hlocal op1 (by simp [Value.operandValues])) hrhs
    h.resizes1 hhere h.loads1.earlier
  obtain rfl : lhs' = lhs := hlhs''.read_base hlhs hlhs'
  obtain rfl : rhs' = rhs := hrhs''.read_base hrhs hrhs'
  rw [hkeeps]

/-- A run does not take an edge that is refuted by a comparison that is decided by its constants. -/
theorem not_goesTo_of_refuted (hmod : mod.Verified) (hf : f ∈ mod.functions)
    (hedges : HasEdges mod f) {block predecessor : B} {last : V} {trace : List (V × State V)}
    {st : State V} (hrun : Run mod f predecessor [] st trace)
    (hlast : (mod.instructions predecessor).getLast? = some last)
    (hrefuted : edgeRefuted mod f block predecessor = true)
    (h : ∀ pred compare op0 op1 ifTrue ifFalse,
      Branches mod predecessor pred compare op0 op1 ifTrue ifFalse →
        ifTrue ≠ ifFalse ∧ DecidesRight mod f trace pred compare op0 op1) :
    ¬ Machine.GoesTo mod st predecessor last block := by
  intro hgoes
  obtain ⟨pred, compare, op0, op1, ifTrue, ifFalse, lhs, rhs, hbranches, hlhs, hrhs, haway⟩ :=
    edgeRefuted_iff.mp hrefuted
  obtain ⟨hne, hdecides⟩ := h pred compare op0 op1 ifTrue ifFalse hbranches
  obtain ⟨last', hlast', hbr⟩ := hbranches.terminator
  obtain rfl : last' = last := Option.some.inj (hlast'.symm.trans hlast)
  have hlastmem : last' ∈ mod.functionInstructions f :=
    List.mem_flatMap.mpr ⟨predecessor, hrun.block_mem hedges, List.mem_of_getLast? hlast⟩
  have hlocal := hmod.operand_local f hf last' hlastmem compare (by
    rw [hbr]
    exact List.mem_singleton_self compare)
  have hmem := hlocal (by
    rw [hbranches.compare]
    rfl)
  unfold Machine.GoesTo at hgoes
  rw [hbr] at hgoes
  obtain ⟨x, hread, hnext⟩ := hgoes
  obtain rfl := read_compare hmod hf hrun hbranches.compare hmem hdecides hlhs hrhs hread
  cases hcond : compareConstants pred lhs rhs with
  | true =>
    obtain ⟨-, hfalse⟩ | ⟨rfl, -⟩ := haway
    · rw [hcond] at hfalse
      cases hfalse
    · rw [hcond] at hnext
      exact hne hnext.symm
  | false =>
    obtain ⟨rfl, -⟩ | ⟨-, htrue⟩ := haway
    · rw [hcond] at hnext
      exact hne hnext
    · rw [hcond] at htrue
      cases htrue

/-! ## When the check is right -/

omit [DecidableEq B] in
/-- The width of the constant of a value. -/
theorem width_eq {v : V} {c : Word} {width : ℕ} (hc : tryGetConstFromValue mod f v = some c)
    (h : HasConstantWidth mod f v width) : c.1 = width := by
  obtain ⟨hwidth, hstored⟩ := h
  obtain hvalue | ⟨ptr, hvalue, hlast⟩ := constant_of_base hc
  · rw [← hwidth, Module.bitWidth, hvalue]
  · exact hstored ptr hvalue c (List.mem_of_getLast? hlast)

/-- **An access that is taken for unreachable is unreachable** in runs in which all edges into its
block are refuted, and constants of one width are compared as such. -/
theorem staticallyUnreachable_right (hmod : mod.Verified) (hf : f ∈ mod.functions)
    (hedges : HasEdges mod f) {inst : V}
    (h : isStaticallyUnreachableStackAccess mod f inst = true) :
    (∀ block rest st trace, Run mod f block rest st trace →
      AllRefuted mod f trace (mod.parent inst) → block ≠ mod.parent inst) ∧
      ∀ predecessor ∈ mod.predecessors (mod.parent inst), ∀ pred compare op0 op1 ifTrue ifFalse,
        Branches mod predecessor pred compare op0 op1 ifTrue ifFalse →
          (∃ width, HasConstantWidth mod f op0 width ∧ HasConstantWidth mod f op1 width) →
            SameWidth mod f op0 op1 := by
  constructor
  · rintro _ rest st trace hrun hrefuted rfl
    rcases hrun.predecessor hedges with hhead | ⟨predecessor, hpred, last, st₀, recent, earlier,
      rfl, hbefore, hlast, hgoes⟩
    · rw [isStaticallyUnreachableStackAccess, hedges.entry _ hhead] at h
      cases h
    · obtain ⟨hedge, hdecides⟩ := hrefuted predecessor hpred
      refine not_goesTo_of_refuted hmod hf hedges hbefore hlast hedge ?_ hgoes
      intro pred compare op0 op1 ifTrue ifFalse hbranches
      obtain ⟨hne, hright⟩ := hdecides pred compare op0 op1 ifTrue ifFalse hbranches
      exact ⟨hne, hright.earlier⟩
  · rintro predecessor - pred compare op0 op1 ifTrue ifFalse - ⟨width, hwidth0, hwidth1⟩ lhs rhs
      hlhs hrhs
    rw [width_eq hlhs hwidth0, width_eq hrhs hwidth1]

/-! ## A block with two predecessors -/

section Either

/-- The example has four blocks. -/
theorem neZero_blocks : NeZero 4 := ⟨four_ne_zero⟩

attribute [local instance] neZero_blocks

/-- The values of `int zero = 0; char test[10]; if (zero || x > 0) test[11] = 'a';`, or without the
second condition: three constants and the argument, the instructions of the block that tests `zero`,
those that test `x`, the address and the access with its constants. -/
def eitherValue (second : Bool) : Fin 18 → Value (Fin 18) (Fin 4) Unit
  | 0 => .constantInt 32 0
  | 1 => .argument 0 false
  | 2 => .constantInt 32 1
  | 3 => .alloca (.int ⟨32, isWidth_thirtyTwo⟩) 2 false
  | 4 => .store 0 3
  | 5 => .load 3
  | 6 => .icmp .ne 5 0
  | 7 => .br 6 2 1
  | 8 => .icmp .sgt 1 0
  | 9 => .br 8 (if second then 2 else 3) 3
  | 10 => .constantInt 8 97
  | 11 => .constantInt 64 11
  | 12 => .constantInt 64 0
  | 13 => .alloca (.array 10 (.int ⟨8, isWidth_eight⟩)) 2 false
  | 14 => .getElementPtr (.array 10 (.int ⟨8, isWidth_eight⟩)) 13 [12, 11]
  | 15 => .store 10 14
  | _ => .ret

/-- The types of these values. -/
def eitherType : Fin 18 → Ty
  | 0 | 1 | 2 | 5 => .int ⟨32, isWidth_thirtyTwo⟩
  | 3 | 13 | 14 => .ptr
  | 6 | 8 => .int ⟨1, isWidth_one⟩
  | 10 => .int ⟨8, isWidth_eight⟩
  | 11 | 12 => .int ⟨64, isWidth_sixtyFour⟩
  | _ => .other

/-- Where its blocks go on. -/
def eitherSuccessors (second : Bool) : Fin 4 → List (Fin 4)
  | 0 => [2, 1]
  | 1 => [if second then 2 else 3, 3]
  | _ => []

/-- The module of this function, whose blocks are the test of `zero`, the test of `x`, the access
and the return. -/
def either (second : Bool) : Module Unit (Fin 18) (Fin 4) :=
  singleFunction (eitherValue second) eitherType
    (fun
      | 0 => [3, 13, 4, 5, 6, 7]
      | 1 => [8, 9]
      | 2 => [14, 15, 16]
      | 3 => [17])
    (eitherSuccessors second) (by decide)

/-- The module is a verified one. -/
theorem either_verified (second : Bool) : (either second).Verified :=
  singleFunction_verified (by decide +revert)

/-- Its blocks are connected. -/
theorem either_hasEdges (second : Bool) : HasEdges (either second) () := by
  refine singleFunction_hasEdges (by decide) ?_ (by decide +revert)
  intro block last cond ifTrue ifFalse hlast hvalue
  fin_cases block <;> cases hlast <;> cases hvalue <;> rfl

/-- At the beginning, the argument has a value. -/
def eitherStart : State (Fin 18) where
  values v := if v = 1 then some ⟨32, 5⟩ else none
  memory _ := ⟨0, 0⟩

/-- What the first block gives, the last instruction first. -/
def eitherResults : List (Fin 18 × Word) :=
  [(7, ⟨0, 0⟩), (6, ⟨1, 0⟩), (5, ⟨32, 0⟩), (4, ⟨0, 0⟩), (13, ⟨64, 1⟩), (3, ⟨64, 0⟩)]

/-- The run goes on with the test of `x`. -/
theorem either_run (second : Bool) :
    Run (either second) () 1 [8, 9] (eitherStart.afterAll (either second) eitherResults)
      (eitherStart.traceOf (either second) eitherResults) := by
  have hinitial : Initial (either second) () eitherStart :=
    initial_single (by decide +revert) rfl
  have hstart := Run.start (either second) () 0 rfl hinitial
  have hzero := hstart.after ⟨64, 0⟩ trivial rfl (by rintro value pointer ⟨⟩)
  have htest := hzero.after ⟨64, 1⟩ trivial rfl (by rintro value pointer ⟨⟩)
  have hstore := htest.after ⟨0, 0⟩ trivial rfl (by rintro value pointer ⟨⟩; rfl)
  have hload := hstore.after ⟨32, 0⟩ (fun _ => rfl) rfl (by rintro value pointer ⟨⟩)
  have hcompare := hload.after ⟨1, 0⟩ ⟨_, _, rfl, rfl, rfl⟩ rfl (by rintro value pointer ⟨⟩)
  have hbranch := hcompare.after ⟨0, 0⟩ trivial rfl (by rintro value pointer ⟨⟩)
  exact hbranch.jumpTo ⟨_, rfl, rfl⟩

/-- With the second condition, it goes on with the access. -/
theorem either_run_access :
    ∃ st trace, Run (either true) () 2 [14, 15, 16] st trace := by
  have hcompare := (either_run true).after ⟨1, 1⟩ ⟨_, _, rfl, rfl, rfl⟩ rfl
    (by rintro value pointer ⟨⟩)
  have hbranch := hcompare.after ⟨0, 0⟩ trivial rfl (by rintro value pointer ⟨⟩)
  exact ⟨_, _, hbranch.jumpTo ⟨_, rfl, rfl⟩⟩

/-- Without it, all edges into the block of the access are refuted in the run. -/
theorem either_allRefuted :
    AllRefuted (either false) () (eitherStart.traceOf (either false) eitherResults) 2 := by
  intro predecessor hpred
  obtain rfl : predecessor = 0 := List.mem_singleton.mp hpred
  refine ⟨by decide, ?_⟩
  rintro pred compare op0 op1 ifTrue ifFalse ⟨⟨last, ⟨⟩, ⟨⟩⟩, ⟨⟩⟩
  have hresizes : ∀ v : Fin 18, OnlyResizes (either false) v := by
    intro v w op operand _ hvalue
    fin_cases w <;> cases hvalue
  refine ⟨by decide, hresizes 5, hresizes 0, ?_, by rintro ptr ⟨⟩, ?_⟩
  · rintro ptr ⟨⟩ after st before htrace
    obtain rfl : before = eitherStart.traceOf (either false) [(4, ⟨0, 0⟩), (13, ⟨64, 1⟩),
        (3, ⟨64, 0⟩)] := by
      obtain _ | ⟨_, _ | ⟨_, _ | ⟨_, _ | ⟨_, _ | ⟨_, _ | ⟨_, _ | _⟩⟩⟩⟩⟩⟩ := after <;> cases htrace
      rfl
    exact ⟨4, 0, ⟨32, 0⟩, _, [], _, [3, 13], [5, 6, 7, 8, 9, 14, 15, 16, 17], rfl,
      fun _ h => absurd h List.not_mem_nil, rfl, rfl, rfl, rfl,
      fun _ h => absurd h List.not_mem_nil⟩
  · rintro after st before htrace
    obtain rfl : st = eitherStart.afterAll (either false) eitherResults.tail := by
      obtain _ | ⟨_, _ | ⟨_, _ | ⟨_, _ | ⟨_, _ | ⟨_, _ | ⟨_, _ | _⟩⟩⟩⟩⟩⟩ := after <;> cases htrace
      rfl
    exact ⟨_, _, _, _, rfl, rfl, rfl, rfl, rfl⟩

/-- The theorem at the run without the second condition. -/
theorem staticallyUnreachable_right_single : (1 : Fin 4) ≠ (either false).parent 15 := by
  have haccess : isStaticallyUnreachableStackAccess (either false) () 15 = true := by decide
  exact (staticallyUnreachable_right (either_verified false) (by decide) (either_hasEdges false)
    haccess).1 _ _ _ _ (either_run false) either_allRefuted

/-- **The check is not right**: one predecessor does not lead to the block, and the other does. -/
theorem not_soundUnreachability_either : ¬ SoundUnreachability (either true) () 15 := by
  intro h
  obtain ⟨st, trace, hrun⟩ := either_run_access
  exact (h (by decide)).1 _ _ _ _ hrun rfl

end Either

end StackAnalyzer.Bounds
