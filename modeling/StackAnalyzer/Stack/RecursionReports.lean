import StackAnalyzer.Stack.ReturnPaths

set_option relaxedAutoImplicit false
set_option autoImplicit false

/-!
# Reports of infinite recursion

A function is reported if each of its returns is dominated by a recursive call, or if no return
without one is found along its paths. The runs of a function take such paths. So a run that returns
has made a recursive call, as long as the comparisons that its branches test say the same about
their values all the time, and the bounds that are derived from them are right.

## Main definitions

* `StackAnalyzer.Frames.detectInfiniteSelfRecursion`,
  `StackAnalyzer.Frames.detectInfiniteRecursionComponent` — the reports.
* `StackAnalyzer.Frames.Steady` — values that are compared again have not changed.
* `StackAnalyzer.Frames.RightBounds` — the derived bounds contain all values.
* `StackAnalyzer.Frames.Terminates` — functions that return.

## Main results

* `StackAnalyzer.Frames.exists_walk_of_run` — the path of a run, with consistent constraints.
* `StackAnalyzer.Frames.recursionComponent_sound`, `StackAnalyzer.Frames.selfRecursion_sound` — what
  is reported never returns.
-/

namespace StackAnalyzer.Frames

open Bounds Graph Llvm Llvm.Machine Maps Smt

/-! ## Reports -/

section Reports

variable {F V B : Type*} [DecidableEq F] [DecidableEq V] [Fintype V] [DecidableEq B]
variable (mod : Module F V B) (solver : EdgeSolver V B) (hasNoRecurseContract : F → Bool)

/-- `detectInfiniteSelfRecursion`. -/
def detectInfiniteSelfRecursion (f : F) : Bool :=
  let isSelf := fun callee => decide (callee = f)
  if mod.isDeclaration f then false
  else if hasNoRecurseContract f then false
  else if detectInfiniteRecursionByDominance mod isSelf f then true
  else decide (hasFeasibleNonRecursiveReturnPath mod solver isSelf f = .doesNotExist)

/-- `detectInfiniteRecursionComponent`. -/
def detectInfiniteRecursionComponent (component : List F) : Bool :=
  if component.isEmpty then false
  else
    let inComponent := fun callee => decide (callee ∈ component)
    component.all fun CF =>
      if mod.isDeclaration CF then false
      else if hasNoRecurseContract CF then false
      else if detectInfiniteRecursionByDominance mod inComponent CF then true
      else decide (hasFeasibleNonRecursiveReturnPath mod solver inComponent CF = .doesNotExist)

end Reports

/-! ## Comparisons with constants -/

section Constants

variable {F V B : Type*} (mod : Module F V B)

/-- A comparison of an operand with a constant: the operand, whether it is the first one, and the
constant. -/
inductive ComparesConstant (inst : V) : V → Bool → Predicate → (w : ℕ) → BitVec w → Prop
  | left {pred : Predicate} {op0 op1 : V} {w : ℕ} {c : BitVec w} :
      mod.value inst = .icmp pred op0 op1 → mod.value op1 = .constantInt w c →
      (mod.value op0).isConstantInt = false → ComparesConstant inst op0 true pred w c
  | right {pred : Predicate} {op0 op1 : V} {w : ℕ} {c : BitVec w} :
      mod.value inst = .icmp pred op0 op1 → mod.value op0 = .constantInt w c →
      (mod.value op1).isConstantInt = false → ComparesConstant inst op1 false pred w c

variable {mod} [Fintype V] {key : V}

/-- The comparison behind the constraint of an edge. -/
theorem exists_of_edgeConstraint {cond : V} {takesTrueEdge : Bool} {range : IntRange}
    (hstrip : mod.stripPointerCasts cond = cond)
    (h : edgeConstraint mod cond takesTrueEdge = some (key, range)) :
    ∃ operand valueIsOp0 pred w, ∃ c : BitVec w,
      ComparesConstant mod cond operand valueIsOp0 pred w c ∧
        canonicalConstraintValue mod operand = key ∧
        deriveRangeConstraintFromPredicate (edgePredicate pred takesTrueEdge) valueIsOp0 c =
          some range := by
  rw [edgeConstraint, hstrip] at h
  split at h
  · next pred op0 op1 hcond =>
    unfold deriveEdgeConstraint at h
    split at h
    · cases h
    · next w c hop1 hnot =>
      obtain ⟨range', hrange, heq⟩ := Option.map_eq_some_iff.mp h
      obtain ⟨rfl, rfl⟩ := Prod.mk.inj heq
      refine ⟨op0, true, pred, w, c, .left hcond hop1 ?_, rfl, hrange⟩
      cases hop0 : mod.value op0 with
      | constantInt w' c' => exact (hnot w' c' hop0).elim
      | _ => rfl
    · next w c hop0 hnot =>
      obtain ⟨range', hrange, heq⟩ := Option.map_eq_some_iff.mp h
      obtain ⟨rfl, rfl⟩ := Prod.mk.inj heq
      refine ⟨op1, false, pred, w, c, .right hcond hop0 ?_, rfl, hrange⟩
      cases hop1 : mod.value op1 with
      | constantInt w' c' => exact (hnot w' c' hop1).elim
      | _ => rfl
    · cases h
  · cases h

end Constants

/-! ## Verified functions -/

section Verified

variable {F V B : Type*} (mod : Module F V B) (f : F)

/-- **The derived bounds are right**: the comparisons with constants that branches test are of at
most 64 bits, and the bounds of both edges keep all values. -/
def RightBounds : Prop :=
  ∀ block ∈ mod.blocks f, ∀ cond ifTrue ifFalse,
    (mod.instructions block).getLast?.map mod.value = some (.br cond ifTrue ifFalse) →
      ∀ operand valueIsOp0 pred w, ∀ c : BitVec w,
        ComparesConstant mod cond operand valueIsOp0 pred w c → 1 ≤ w ∧ w ≤ 64 ∧
          ∀ takesTrueEdge,
            KeepsValues (valuePredicate (edgePredicate pred takesTrueEdge) valueIsOp0) c

/-- What the verifier of LLVM guarantees: blocks have edges, a return is the last instruction of its
block and has no successors, the conditions of branches are no pointers and are computed in the
function, and what is compared with a constant is of its type. -/
structure ReturnsVerified : Prop where
  edges : HasEdges mod f
  return_last : ∀ block before inst after, mod.instructions block = before ++ inst :: after →
    isReturn mod inst = true → after = []
  return_leaves : ∀ block, ∀ inst ∈ mod.instructions block, isReturn mod inst = true →
    mod.successors block = []
  strip_condition : ∀ block ∈ mod.blocks f, ∀ cond ifTrue ifFalse,
    (mod.instructions block).getLast?.map mod.value = some (.br cond ifTrue ifFalse) →
      mod.stripPointerCasts cond = cond ∧
        ∀ pred op0 op1, mod.value cond = .icmp pred op0 op1 → cond ∈ mod.functionInstructions f
  compared : ∀ inst operand valueIsOp0 pred w, ∀ c : BitVec w,
    ComparesConstant mod inst operand valueIsOp0 pred w c →
      mod.value operand ≠ .constantPointerNull ∧ wordWidth mod operand = some w

variable {mod f}

/-- Returns are the last instructions of their blocks. -/
theorem ReturnsVerified.returnsLast (hmod : ReturnsVerified mod f) : ReturnsLast mod f :=
  ⟨hmod.edges.successors_mem, hmod.return_last⟩

/-- There is no return before an instruction of its block. -/
theorem ReturnsVerified.no_return_before (hmod : ReturnsVerified mod f) {block : B}
    {before after : List V} {inst : V}
    (hblock : mod.instructions block = before ++ inst :: after) :
    ∀ other ∈ before, isReturn mod other = false := by
  intro other hother
  by_contra hreturn
  obtain ⟨before, between, rfl⟩ := List.append_of_mem hother
  rw [List.append_assoc, List.cons_append] at hblock
  have hlast := hmod.return_last block before other _ hblock (Bool.not_eq_false _ ▸ hreturn)
  exact List.append_ne_nil_of_right_ne_nil _ (List.cons_ne_nil _ _) hlast

/-- A block that is left has no return. -/
theorem ReturnsVerified.no_return_of_successor (hmod : ReturnsVerified mod f) {block next : B}
    (hnext : next ∈ mod.successors block) :
    ∀ inst ∈ mod.instructions block, isReturn mod inst = false := by
  intro inst hinst
  by_contra hreturn
  rw [hmod.return_leaves block inst hinst (Bool.not_eq_false _ ▸ hreturn)] at hnext
  exact List.not_mem_nil hnext

end Verified

/-! ## Comparisons of runs -/

section Runs

variable {F V B : Type*} [DecidableEq V] {mod : Module F V B} {f : F}
variable {trace : List (V × State V)}

/-- A value of the type of a constant. -/
theorem exists_of_read {block : B} {rest : List V} {st : State V} {v : V} {x : Word} {w : ℕ}
    (hrun : Run mod f block rest st trace) (hconstant : (mod.value v).isConstantInt = false)
    (hnull : mod.value v ≠ .constantPointerNull) (hwidth : wordWidth mod v = some w)
    (hx : st.read mod v = some x) : ∃ bits : BitVec w, x = ⟨w, bits⟩ := by
  have hvalues : st.values v = some x := by
    rw [← hx, State.read]
    split
    · next hvalue =>
      rw [hvalue] at hconstant
      cases hconstant
    · next hvalue => exact absurd hvalue hnull
    · rfl
  obtain ⟨width, bits⟩ := x
  have hword := hrun.hasWidth v _ hvalues
  rw [HasWidth, hwidth, Option.all_some] at hword
  obtain rfl : width = w := of_decide_eq_true hword
  exact ⟨bits, rfl⟩

/-- **The number that a comparison has compared** takes the edge that its result says. -/
theorem exists_compared (hmod : ReturnsVerified mod f) {block : B} {rest : List V}
    {st₁ : State V} {before : List (V × State V)} {inst operand : V} {valueIsOp0 : Bool}
    {pred : Predicate} {w : ℕ} {c : BitVec w} {result : Word}
    (hrun : Run mod f block rest st₁ before)
    (hcompares : ComparesConstant mod inst operand valueIsOp0 pred w c)
    (hresult : Yields mod st₁ inst result) :
    ∃ bits : BitVec w, st₁.read mod operand = some ⟨w, bits⟩ ∧
      decide (result.2 ≠ 0) = compares pred valueIsOp0 c bits := by
  obtain ⟨hnull, hwidth⟩ := hmod.compared inst operand valueIsOp0 pred w c hcompares
  have hbit : ∀ b : Bool, decide (BitVec.ofBool b ≠ 0) = b := by decide
  cases hcompares with
  | @left pred op0 op1 w c hinst hop1 hconstant =>
    rw [Yields, hinst] at hresult
    obtain ⟨x, y, hx, hy, rfl⟩ := hresult
    obtain ⟨bits, rfl⟩ := exists_of_read hrun hconstant hnull hwidth hx
    rw [State.read, hop1] at hy
    obtain rfl := Option.some.inj hy
    refine ⟨bits, hx, (hbit _).trans ?_⟩
    rw [BitVec.setWidth_eq]
    rfl
  | @right pred op0 op1 w c hinst hop0 hconstant =>
    rw [Yields, hinst] at hresult
    obtain ⟨x, y, hx, hy, rfl⟩ := hresult
    obtain ⟨bits, rfl⟩ := exists_of_read hrun hconstant hnull hwidth hy
    rw [State.read, hop0] at hx
    obtain rfl := Option.some.inj hx
    refine ⟨bits, hy, (hbit _).trans ?_⟩
    rw [BitVec.setWidth_eq]
    rfl

variable [Fintype V]

variable (mod f) in
/-- **A number that is compared** in a run, under a key. -/
def ComparedAs (trace : List (V × State V)) (key : V) (number : ℤ) : Prop :=
  ∃ after inst st₂ before block rest st₁ operand valueIsOp0 pred w, ∃ c : BitVec w, ∃ x,
    trace = after ++ (inst, st₂) :: before ∧ Run mod f block (inst :: rest) st₁ before ∧
      Executes mod st₁ inst st₂ ∧ ComparesConstant mod inst operand valueIsOp0 pred w c ∧
      canonicalConstraintValue mod operand = key ∧ st₁.read mod operand = some x ∧
      x.2.toInt = number

variable (mod f) in
/-- **Values that are compared again have not changed**: all comparisons of a run that are recorded
under one key compare one number. -/
def Steady (trace : List (V × State V)) : Prop :=
  ∀ key number number', ComparedAs mod f trace key number → ComparedAs mod f trace key number' →
    number = number'

variable {key : V} {number : ℤ}

/-- What has been compared stays so when the run goes on. -/
theorem ComparedAs.cons (h : ComparedAs mod f trace key number) (event : V × State V) :
    ComparedAs mod f (event :: trace) key number := by
  obtain ⟨after, inst, st₂, before, block, rest, st₁, operand, valueIsOp0, pred, w, c, x, rfl,
    hrest⟩ := h
  exact ⟨event :: after, inst, st₂, before, block, rest, st₁, operand, valueIsOp0, pred, w, c, x,
    rfl, hrest⟩

/-- The bounds of an edge contain the numbers that take it. -/
theorem contains_of_keepsValues {w : ℕ} (hw : 1 ≤ w) (hw' : w ≤ 64) {pred : Predicate}
    {valueIsOp0 takesTrueEdge : Bool} {c bits : BitVec w} {range : IntRange}
    (h : KeepsValues (valuePredicate (edgePredicate pred takesTrueEdge) valueIsOp0) c)
    (hrange : deriveRangeConstraintFromPredicate (edgePredicate pred takesTrueEdge) valueIsOp0 c =
      some range)
    (hbits : compares pred valueIsOp0 c bits = takesTrueEdge) : range.Contains bits.toInt := by
  have hderive : boundsFromPredicate (edgePredicate pred takesTrueEdge) valueIsOp0 c =
      boundsFromPredicate (valuePredicate (edgePredicate pred takesTrueEdge) valueIsOp0) true
        c := by
    rw [boundsFromPredicate_eq, boundsFromPredicate_eq _ true]
    rfl
  rw [deriveRangeConstraintFromPredicate, rangeOfBounds, hderive] at hrange
  split_ifs at hrange with hsome
  obtain rfl := Option.some.inj hrange
  exact ((right_iff hw hw' _).mpr h hsome).1 bits ((compares_iff pred valueIsOp0 c _ bits).mp hbits)

/-- **The constraint of the edge that a run takes** contains a number that has been compared. -/
theorem exists_of_edge (hmod : ReturnsVerified mod f) (hright : RightBounds mod f) {block : B}
    {st : State V} {cond : V} {ifTrue ifFalse : B} {x : Word} {range : IntRange}
    (hrun : Run mod f block [] st trace)
    (hbranch : (mod.instructions block).getLast?.map mod.value = some (.br cond ifTrue ifFalse))
    (hx : st.read mod cond = some x)
    (hedge : edgeConstraint mod cond (decide (x.2 ≠ 0)) = some (key, range)) :
    ∃ number, ComparedAs mod f trace key number ∧ range.Contains number := by
  have hblock := hrun.block_mem hmod.edges
  obtain ⟨hstrip, hmem⟩ := hmod.strip_condition block hblock cond ifTrue ifFalse hbranch
  obtain ⟨operand, valueIsOp0, pred, w, c, hcompares, hkey, hrange⟩ :=
    exists_of_edgeConstraint hstrip hedge
  obtain ⟨op0, op1, hcond⟩ : ∃ op0 op1, mod.value cond = .icmp pred op0 op1 := by
    cases hcompares with
    | left hinst _ _ => exact ⟨_, _, hinst⟩
    | right hinst _ _ => exact ⟨_, _, hinst⟩
  -- the condition has the value of its last execution
  obtain ⟨st₀, hinitial, hsteps⟩ := hrun.steps
  rw [State.read, hcond] at hx
  obtain ⟨after, s, s', before, htrace, -, -, hafter, hne⟩ :=
    hsteps.exists_last hx (hinitial.none cond (hmem pred op0 op1 hcond))
  obtain ⟨block', rest', st₁, hrun', hinst, -⟩ := hrun.executed htrace
  obtain ⟨result, hyields, -, hvalues⟩ := hinst.result
  have hresult : result = x := by
    rw [hafter.values_eq hne, hvalues, Function.update_self] at hx
    exact Option.some.inj hx
  subst hresult
  obtain ⟨bits, hread, hdecide⟩ := exists_compared hmod hrun' hcompares hyields
  refine ⟨bits.toInt, ⟨after, cond, s', before, block', rest', st₁, operand, valueIsOp0, pred, w, c,
    ⟨w, bits⟩, htrace, hrun', hinst, hcompares, hkey, hread, rfl⟩, ?_⟩
  obtain ⟨hw, hw', hkeeps⟩ :=
    hright block hblock cond ifTrue ifFalse hbranch operand valueIsOp0 pred w c hcompares
  exact contains_of_keepsValues hw hw' (hkeeps _) hrange hdecide.symm

end Runs

/-! ## The path of a run -/

section Scans

variable {F V B : Type*} {mod : Module F V B} {isRecursiveCallee : F → Bool}

/-- Instructions without a return are passed. -/
theorem scanInstructions_append {before : List V} (h : ∀ inst ∈ before, isReturn mod inst = false)
    (rest : List V) (saw : Bool) :
    scanInstructions mod isRecursiveCallee (before ++ rest) saw =
      scanInstructions mod isRecursiveCallee rest
        (saw || before.any (callsRecursive mod isRecursiveCallee)) := by
  induction before generalizing saw with
  | nil => simp
  | cons inst before ih =>
    rw [List.forall_mem_cons] at h
    rw [List.cons_append, scanInstructions, h.1, if_neg Bool.false_ne_true, ih h.2, List.any_cons,
      Bool.or_assoc]

/-- A return ends its block. -/
theorem scanInstructions_return {inst : V} (h : isReturn mod inst = true) (rest : List V)
    (saw : Bool) : scanInstructions mod isRecursiveCallee (inst :: rest) saw = (saw, true) := by
  have hcall : callsRecursive mod isRecursiveCallee inst = false := by
    unfold isReturn at h
    unfold callsRecursive
    split at h
    · next hvalue => rw [hvalue]
    · cases h
  rw [scanInstructions, h, if_pos rfl, hcall, Bool.or_false]

variable (mod) in
/-- A trace has a recursive call. -/
def calledIn (isRecursiveCallee : F → Bool) (trace : List (V × State V)) : Bool :=
  trace.any fun event => callsRecursive mod isRecursiveCallee event.1

/-- The calls of a block that has been executed. -/
theorem calledIn_append {isRecursiveCallee : F → Bool} {done : List V}
    {recent earlier : List (V × State V)} (hdone : recent.map Prod.fst = done.reverse) :
    calledIn mod isRecursiveCallee (recent ++ earlier) =
      (calledIn mod isRecursiveCallee earlier ||
        done.any (callsRecursive mod isRecursiveCallee)) := by
  have hrecent : calledIn mod isRecursiveCallee recent =
      (recent.map Prod.fst).any (callsRecursive mod isRecursiveCallee) := by
    rw [List.any_map]
    rfl
  rw [calledIn, List.any_append, ← calledIn, ← calledIn, hrecent, hdone, List.any_reverse,
    Bool.or_comm]

/-- A recursive call in a trace. -/
theorem exists_of_calledIn {trace : List (V × State V)}
    (h : calledIn mod isRecursiveCallee trace = true) :
    ∃ event ∈ trace, ∃ call callee, mod.value event.1 = .call call ∧
      call.calledFunction = some callee ∧ isRecursiveCallee callee = true := by
  obtain ⟨event, hevent, hcalls⟩ := List.any_eq_true.mp h
  unfold callsRecursive at hcalls
  split at hcalls
  · next call hvalue =>
    cases hcallee : call.calledFunction with
    | none =>
      rw [hcallee] at hcalls
      cases hcalls
    | some callee =>
      rw [hcallee, Option.any_some] at hcalls
      exact ⟨event, hevent, call, callee, hvalue, hcallee, hcalls⟩
  · cases hcalls

end Scans

section Traces

variable {F V B : Type*} [DecidableEq V] {mod : Module F V B} {f : F} {block : B} {rest : List V}
variable {st : State V} {trace : List (V × State V)}

/-- A run has begun at the first block. -/
theorem exists_entry (hrun : Run mod f block rest st trace) :
    ∃ entry, (mod.blocks f).head? = some entry := by
  induction hrun with
  | entry hhead _ => exact ⟨_, hhead⟩
  | step _ _ ih => exact ih
  | jump _ _ ih => exact ih

/-- The path of a run in the control-flow graph. -/
theorem exists_traceTo (hmod : ReturnsVerified mod f) {entry : B}
    (hentry : (mod.blocks f).head? = some entry)
    (hrun : Run mod f block rest st trace) :
    ∃ done recent earlier, mod.instructions block = done ++ rest ∧ trace = recent ++ earlier ∧
      recent.map Prod.fst = done.reverse ∧
      (functionCfg mod entry).TraceTo (fun b _ => mod.instructions b) block
        (earlier.map Prod.fst).reverse := by
  induction hrun with
  | @entry block st hhead _ =>
    obtain rfl : entry = block := Option.some.inj (hentry.symm.trans hhead)
    exact ⟨[], [], [], rfl, rfl, rfl, .entry⟩
  | @step block inst rest trace st st' _ _ ih =>
    obtain ⟨done, recent, earlier, hblock, rfl, hdone, hpath⟩ := ih
    exact ⟨done ++ [inst], (inst, st') :: recent, earlier, by simp [hblock], rfl,
      by simp [hdone], hpath⟩
  | @jump block next last trace st st' hrun hgoes ih =>
    obtain ⟨done, recent, earlier, hblock, htrace, hdone, hpath⟩ := ih
    rw [List.append_nil] at hblock
    have hnext := hgoes.mem_successors hmod.edges
      (hrun.getLast?_of_nil (hmod.edges.nonempty block))
    refine ⟨[], [], (last, st') :: trace, rfl, rfl, rfl, ?_⟩
    rw [htrace, List.map_append, List.reverse_append, hdone, List.reverse_reverse, ← hblock]
    exact hpath.step hnext

/-- Returns that are dominated by recursive calls. -/
theorem calledIn_of_dominance [DecidableEq B] {isRecursiveCallee : F → Bool} {inst : V}
    (hmod : ReturnsVerified mod f)
    (h : detectInfiniteRecursionByDominance mod isRecursiveCallee f = true)
    (hrun : Run mod f block (inst :: rest) st trace) (hreturn : isReturn mod inst = true) :
    calledIn mod isRecursiveCallee trace = true := by
  obtain ⟨entry, hentry⟩ := exists_entry hrun
  obtain ⟨done, recent, earlier, hblock, rfl, hdone, hpath⟩ := exists_traceTo hmod hentry hrun
  have hinst : inst ∈ mod.instructions block := by simp [hblock]
  obtain ⟨callBlock, hcallBlock, hdominates⟩ :=
    dominated_of_detect h hentry (hrun.block_mem hmod.edges) hinst hreturn
  obtain ⟨-, call, hcall, hrecursive⟩ := mem_recursiveCallBlocks.mp hcallBlock
  rw [calledIn_append hdone, Bool.or_eq_true, List.any_eq_true]
  by_cases hne : callBlock = block
  · subst hne
    exact Or.inr ⟨call, hmod.returnsLast.call_before hblock hreturn hcall hrecursive, hrecursive⟩
  · have hentrymem : entry ∈ mod.blocks f := List.mem_of_mem_head? (by rw [hentry]; rfl)
    obtain ⟨_, hpass⟩ := hpath.passes_dominator hmod.edges.successors_mem hentrymem
      (Nat.lt_succ_self _) hdominates hne
    have hmem := hpass hcall
    rw [List.mem_reverse] at hmem
    obtain ⟨event, hevent, rfl⟩ := List.mem_map.mp hmem
    exact Or.inl (List.any_eq_true.mpr ⟨event, hevent, hrecursive⟩)

end Traces

section Paths

variable {F V B : Type*} [DecidableEq V] [Fintype V] {mod : Module F V B} {f : F}

/-- **The path of a run**: the constraints of its edges contain the numbers that the run has
compared.

**Proof sketch.** By induction on the run. A block that is left has no return, so its calls are
those of the path. If it ends in a branch on a comparison with a constant, then the last execution
of the comparison has given the condition its value, and the number that it has compared takes the
edge. -/
theorem exists_walk_of_run (hmod : ReturnsVerified mod f) (hright : RightBounds mod f) {entry : B}
    (isRecursiveCallee : F → Bool) (hentry : (mod.blocks f).head? = some entry) {block : B}
    {rest : List V} {st : State V} {trace : List (V × State V)}
    (hrun : Run mod f block rest st trace) :
    ∃ done recent earlier constraints, mod.instructions block = done ++ rest ∧
      trace = recent ++ earlier ∧ recent.map Prod.fst = done.reverse ∧
      Walk mod isRecursiveCallee (fun _ => True) entry block
        (calledIn mod isRecursiveCallee earlier) constraints ∧
      ∀ c ∈ constraints, ∃ number, ComparedAs mod f trace c.1 number ∧ c.2.Contains number := by
  induction hrun with
  | @entry block st hhead _ =>
    obtain rfl : entry = block := Option.some.inj (hentry.symm.trans hhead)
    exact ⟨[], [], [], [], rfl, rfl, rfl, .entry, fun c hc => absurd hc List.not_mem_nil⟩
  | @step block inst rest trace st st' _ _ ih =>
    obtain ⟨done, recent, earlier, constraints, hblock, rfl, hdone, hwalk, hnumbers⟩ := ih
    refine ⟨done ++ [inst], (inst, st') :: recent, earlier, constraints, by simp [hblock], rfl,
      by simp [hdone], hwalk, fun c hc => ?_⟩
    obtain ⟨number, hcompared, hcontains⟩ := hnumbers c hc
    exact ⟨number, hcompared.cons (inst, st'), hcontains⟩
  | @jump block next last trace st st' hrun hgoes ih =>
    obtain ⟨done, recent, earlier, constraints, hblock, htrace, hdone, hwalk, hnumbers⟩ := ih
    rw [List.append_nil] at hblock
    have hlast := hrun.getLast?_of_nil (hmod.edges.nonempty block)
    have hnext := hgoes.mem_successors hmod.edges hlast
    have hgoeson := hblock ▸ hmod.no_return_of_successor hnext
    have hscan : scanInstructions mod isRecursiveCallee (mod.instructions block)
        (calledIn mod isRecursiveCallee earlier) =
          (calledIn mod isRecursiveCallee ((last, st') :: trace), false) := by
      rw [hblock, ← List.append_nil done, scanInstructions_append hgoeson, htrace,
        calledIn_append hdone, scanInstructions]
    obtain ⟨added, hedge, hadded⟩ : ∃ added, EdgeTo mod block next added ∧ ∀ c ∈ added,
        ∃ number, ComparedAs mod f ((last, st') :: trace) c.1 number ∧ c.2.Contains number := by
      unfold Machine.GoesTo at hgoes
      split at hgoes
      · next cond ifTrue ifFalse hvalue =>
        obtain ⟨x, hx, rfl⟩ := hgoes
        have hbranch : (mod.instructions block).getLast?.map mod.value =
            some (.br cond ifTrue ifFalse) := by
          rw [hlast, Option.map_some, hvalue]
        have hedge : EdgeTo mod block _ _ := .branch (decide (x.2 ≠ 0)) hbranch
        refine ⟨(edgeConstraint mod cond (decide (x.2 ≠ 0))).toList, ?_, fun c hc => ?_⟩
        · convert hedge using 1
          by_cases h : x.2 = 0 <;> simp [h]
        · obtain ⟨key, range⟩ := c
          exact exists_of_edge hmod hright hrun hbranch hx (Option.mem_toList.mp hc)
      · next hnot =>
        refine ⟨[], .other hnext fun cond ifTrue ifFalse hbranch => ?_,
          fun c hc => absurd hc List.not_mem_nil⟩
        rw [hlast, Option.map_some] at hbranch
        exact hnot cond ifTrue ifFalse (Option.some.inj hbranch)
    refine ⟨[], [], (last, st') :: trace, constraints ++ added, rfl, rfl, rfl,
      hwalk.step trivial hscan hedge, fun c hc => ?_⟩
    exact (List.mem_append.mp hc).elim (hnumbers c) (hadded c)

/-- **The constraints of a steady run are consistent.** -/
theorem Steady.consistent {trace : List (V × State V)} (h : Steady mod f trace)
    {constraints : List (V × IntRange)}
    (hnumbers : ∀ c ∈ constraints, ∃ number, ComparedAs mod f trace c.1 number ∧
      c.2.Contains number) : Consistent constraints := by
  classical
  refine ⟨fun key => if h : ∃ number, ComparedAs mod f trace key number then h.choose else 0,
    fun c hc => ?_⟩
  obtain ⟨number, hcompared, hcontains⟩ := hnumbers c hc
  have hsome : ∃ number, ComparedAs mod f trace c.1 number := ⟨number, hcompared⟩
  simp only
  rw [dif_pos hsome, h c.1 _ number hsome.choose_spec hcompared]
  exact hcontains

end Paths

/-! ## What the reports say -/

section Sound

variable {F V B : Type*} [DecidableEq V] [Fintype V] [DecidableEq B] {mod : Module F V B} {f : F}
variable {isRecursiveCallee : F → Bool} {block : B} {inst : V} {rest : List V} {st : State V}
variable {trace : List (V × State V)}

/-- Returns that the search finds behind recursive calls only. -/
theorem calledIn_of_search (hmod : ReturnsVerified mod f) (hright : RightBounds mod f)
    (hfew : ∀ entry, (mod.blocks f).head? = some entry →
      ∀ key, ¬ CrowdedBlock mod isRecursiveCallee entry key)
    (h : hasFeasibleNonRecursiveReturnPath mod noSolver isRecursiveCallee f = .doesNotExist)
    (hrun : Run mod f block (inst :: rest) st trace) (hreturn : isReturn mod inst = true)
    (hsteady : Steady mod f trace) : calledIn mod isRecursiveCallee trace = true := by
  obtain ⟨entry, hentry⟩ := exists_entry hrun
  obtain ⟨expanded, hfinished⟩ := exists_finished hentry h
  have hnone := not_returnsEarly hfinished
  rw [show (fun key => ¬ CrowdedBlock mod isRecursiveCallee entry key) = fun _ => True from
    funext fun key => eq_true (hfew entry hentry key)] at hnone
  obtain ⟨done, recent, earlier, constraints, hblock, rfl, hdone, hwalk, hnumbers⟩ :=
    exists_walk_of_run hmod hright isRecursiveCallee hentry hrun
  by_contra hcalled
  rw [calledIn_append hdone, Bool.not_eq_true, Bool.or_eq_false_iff] at hcalled
  refine hnone ⟨block, _, constraints, hwalk, trivial, hsteady.consistent hnumbers, ?_⟩
  rw [hblock, scanInstructions_append (hmod.no_return_before hblock),
    scanInstructions_return hreturn, hcalled.1, hcalled.2, Bool.or_false]

variable (mod) in
/-- **Functions that return**: some run arrives at a return, where all members of a component that
it has called have returned. Values that it compares again have not changed. -/
inductive Terminates (component : List F) : F → Prop
  | returns {f : F} {block : B} {inst : V} {rest : List V} {st : State V}
      {trace : List (V × State V)} :
      Run mod f block (inst :: rest) st trace → isReturn mod inst = true → Steady mod f trace →
      (∀ event ∈ trace, ∀ call callee, mod.value event.1 = .call call →
        call.calledFunction = some callee → callee ∈ component → Terminates component callee) →
      Terminates component f

end Sound

section Components

variable {F V B : Type*} [DecidableEq F] [DecidableEq V] [Fintype V] [DecidableEq B]

/-- The members of a component of which each return is behind a call of a member. -/
structure Reported (mod : Module F V B) (component : List F) (f : F) : Prop where
  verified : ReturnsVerified mod f
  bounds : RightBounds mod f
  few : ∀ entry, (mod.blocks f).head? = some entry →
    ∀ key, ¬ CrowdedBlock mod (fun callee => decide (callee ∈ component)) entry key
  answer :
    detectInfiniteRecursionByDominance mod (fun callee => decide (callee ∈ component)) f = true ∨
      hasFeasibleNonRecursiveReturnPath mod noSolver (fun callee => decide (callee ∈ component)) f =
        .doesNotExist

variable {mod : Module F V B} {component : List F} {f : F}

/-- Each member of a component that is reported is answered for. -/
theorem answer_of_detect {hasNoRecurseContract : F → Bool}
    (h : detectInfiniteRecursionComponent mod noSolver hasNoRecurseContract component = true)
    (hf : f ∈ component) :
    detectInfiniteRecursionByDominance mod (fun callee => decide (callee ∈ component)) f = true ∨
      hasFeasibleNonRecursiveReturnPath mod noSolver (fun callee => decide (callee ∈ component)) f =
        .doesNotExist := by
  unfold detectInfiniteRecursionComponent at h
  split_ifs at h
  have hf' := List.all_eq_true.mp h f hf
  split_ifs at hf' with _ _ hdominance
  · exact Or.inl hdominance
  · exact Or.inr (of_decide_eq_true hf')

/-- **No member returns** if each return of each member is behind a call of a member: the run that
returns first would have to call another one that has returned. -/
theorem Reported.not_terminates (h : ∀ f ∈ component, Reported mod component f)
    (hf : f ∈ component) : ¬ Terminates mod component f := by
  intro hterminates
  induction hterminates with
  | returns hrun hreturn hsteady _ ih =>
    have hf' := h _ hf
    have hcalled := hf'.answer.elim
      (fun hdominance => calledIn_of_dominance hf'.verified hdominance hrun hreturn)
      (fun hsearch => calledIn_of_search hf'.verified hf'.bounds hf'.few hsearch hrun hreturn
        hsteady)
    obtain ⟨event, hevent, call, callee, hvalue, hcallee, hmember⟩ := exists_of_calledIn hcalled
    exact ih event hevent call callee hvalue hcallee (of_decide_eq_true hmember)
      (of_decide_eq_true hmember)

/-- **A component that is reported never returns**: no run of a member arrives at a return in which
the members that it has called have returned.

**Proof sketch.** A run takes a path of its function, whose constraints contain the numbers that the
run compares. If these do not change, then the constraints are consistent, so the path to a return
leads through a recursive call, by dominance or since the search would have found it. Hence no call
of a member can be the first one that returns. -/
theorem recursionComponent_sound (mod : Module F V B) (hasNoRecurseContract : F → Bool)
    (component : List F) (hmod : ∀ f ∈ component, ReturnsVerified mod f)
    (hright : ∀ f ∈ component, RightBounds mod f)
    (hfew : ∀ f ∈ component, ∀ entry, (mod.blocks f).head? = some entry →
      ∀ key, ¬ CrowdedBlock mod (fun callee => decide (callee ∈ component)) entry key)
    (h : detectInfiniteRecursionComponent mod noSolver hasNoRecurseContract component = true) :
    ∀ f ∈ component, ¬ Terminates mod component f := by
  intro f hf
  exact Reported.not_terminates
    (fun g hg => ⟨hmod g hg, hright g hg, hfew g hg, answer_of_detect h hg⟩) hf

/-- **A function that is reported to recurse forever never returns**. -/
theorem selfRecursion_sound (mod : Module F V B) (hasNoRecurseContract : F → Bool) (f : F)
    (hmod : ReturnsVerified mod f) (hright : RightBounds mod f)
    (hfew : ∀ entry, (mod.blocks f).head? = some entry →
      ∀ key, ¬ CrowdedBlock mod (fun callee => decide (callee = f)) entry key)
    (h : detectInfiniteSelfRecursion mod noSolver hasNoRecurseContract f = true) :
    ¬ Terminates mod [f] f := by
  have hself : (fun callee => decide (callee ∈ [f])) = fun callee => decide (callee = f) := by
    funext callee
    rw [decide_eq_decide, List.mem_singleton]
  refine Reported.not_terminates (fun g hg => ?_) (List.mem_singleton_self f)
  obtain rfl := List.mem_singleton.mp hg
  refine ⟨hmod, hright, hself ▸ hfew, ?_⟩
  unfold detectInfiniteSelfRecursion at h
  rw [← hself] at h
  dsimp only at h
  split_ifs at h with _ _ hdominance
  · exact Or.inl hdominance
  · exact Or.inr (of_decide_eq_true h)

end Components

/-! ## The function whose branches exclude each other -/

section BothSigns

attribute [local instance] neZero_twelve neZero_fiveBlocks

/-- Its comparisons are those of the argument with zero. -/
theorem comparesConstant_bothSigns {inst operand : Fin 12} {valueIsOp0 : Bool} {pred : Predicate}
    {w : ℕ} {c : BitVec w} (h : ComparesConstant bothSigns inst operand valueIsOp0 pred w c) :
    operand = 1 ∧ valueIsOp0 = true ∧ (pred = .sgt ∨ pred = .sle) ∧
      (⟨w, c⟩ : Word) = ⟨32, 0⟩ := by
  cases h with
  | left hinst hop1 _ =>
    fin_cases inst <;> cases hinst <;> cases hop1
    · exact ⟨rfl, rfl, Or.inl rfl, rfl⟩
    · exact ⟨rfl, rfl, Or.inr rfl, rfl⟩
  | right hinst hop0 _ => fin_cases inst <;> cases hinst <;> cases hop0

/-- It is a verified function. -/
theorem returnsVerified_bothSigns : ReturnsVerified bothSigns () where
  edges := singleFunction_hasEdges (by decide)
    (by
      intro block last cond ifTrue ifFalse hlast hvalue
      fin_cases block <;> cases hlast <;> cases hvalue <;> rfl)
    (by decide)
  return_last := by
    intro block before inst after hblock hreturn
    fin_cases inst <;> cases hreturn
    fin_cases block
    all_goals obtain _ | ⟨_, _ | ⟨_, _ | _⟩⟩ := before <;> cases hblock
    rfl
  return_leaves := by
    intro block inst hinst hreturn
    fin_cases inst <;> cases hreturn
    revert block
    decide
  strip_condition := by
    intro block _ cond ifTrue ifFalse hbranch
    refine ⟨rfl, fun pred op0 op1 hcond => ?_⟩
    fin_cases cond <;> cases hcond <;> decide
  compared := by
    intro inst operand valueIsOp0 pred w c h
    obtain ⟨rfl, -, -, hword⟩ := comparesConstant_bothSigns h
    cases hword
    refine ⟨fun hnull => ?_, rfl⟩
    cases hnull

/-- Its bounds are right. -/
theorem rightBounds_bothSigns : RightBounds bothSigns () := by
  intro block _ cond ifTrue ifFalse _ operand valueIsOp0 pred w c h
  obtain ⟨-, rfl, hpred, hword⟩ := comparesConstant_bothSigns h
  cases hword
  refine ⟨by decide, by decide, fun takesTrueEdge => ?_⟩
  rcases hpred with rfl | rfl <;> cases takesTrueEdge
  · trivial
  · show (0 : BitVec 32).toInt ≠ 2 ^ 63 - 1
    decide
  · show (0 : BitVec 32).toInt ≠ 2 ^ 63 - 1
    decide
  · trivial

/-- The theorem at this function: it never returns. -/
theorem recursionComponent_sound_bothSigns : ¬ Terminates bothSigns [()] () :=
  recursionComponent_sound bothSigns (fun _ => false) [()] (fun _ _ => returnsVerified_bothSigns)
    (fun _ _ => rightBounds_bothSigns)
    (fun _ _ entry hentry key => by
      obtain rfl : 0 = entry := Option.some.inj hentry
      exact fewPaths_bothSigns.visits key)
    (by decide +kernel) () List.mem_cons_self

end BothSigns

end StackAnalyzer.Frames
