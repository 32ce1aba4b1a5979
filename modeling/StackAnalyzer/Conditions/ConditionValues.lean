import StackAnalyzer.Conditions.ConditionRuns

set_option relaxedAutoImplicit false
set_option autoImplicit false

/-!
# Values on the way between two branches

On the way from a dominating branch to another one, what the first has read stays, and so do the
contents of memory, unless an instruction that the search for writes does not find writes there. So
values that are taken for the same are the same, each at its branch.

## Main definitions

* `StackAnalyzer.Conditions.ConditionFunction.Passage` — a run from a branch to another one.
* `StackAnalyzer.Conditions.ConditionFunction.LeftAlone` — what is read from memory stays.
* `StackAnalyzer.Conditions.ConditionFunction.SameTypes`,
  `StackAnalyzer.Conditions.ConditionFunction.CallsAgree` — what is taken for the same is of one
  type, and calls with the same arguments return the same.
* `StackAnalyzer.Conditions.ConditionFunction.Found` — the writes that the search for writes finds.

## Main results

* `StackAnalyzer.Conditions.ConditionFunction.Executed.not_found` — where a condition is reported,
  no such write is executed.
* `StackAnalyzer.Conditions.ConditionFunction.read_eq_of_valuesEquivalent` — values that are taken
  for the same are the same.
-/

namespace StackAnalyzer.Conditions

open CrossTU Graph Llvm Relation

namespace ConditionFunction

variable {F V B S : Type*} [DecidableEq F] [DecidableEq V] [DecidableEq B] [DecidableEq S]
  [Fintype F] [Fintype V] (mod : ConditionFunction F V B S) (f : F)

/-! ## Passages -/

section Passages

omit [DecidableEq V] [Fintype V] in
/-- **A run from a branch to another one**: the events before the first, itself, and the events from
there to the second. -/
structure Passage (V : Type*) where
  d : V
  b : V
  atD : RunState V
  behindD : RunState V
  atB : RunState V
  before : List (Event V)
  after : List (Event V)

/-- All events. -/
def Passage.trace {V : Type*} (p : Passage V) : List (Event V) :=
  p.after ++ ⟨p.d, p.atD, p.behindD⟩ :: p.before

/-- The passage is executed, and the first branch is not passed again. -/
def Executed (p : Passage V) : Prop :=
  mod.Run f p.b p.atB p.trace ∧ ∀ e ∈ p.after, e.inst ≠ p.d

/-- A value is needed for a branch, if it is computed at all. -/
def Needed (branch v : V) : Prop :=
  (mod.value v).isInstruction = true → TransGen mod.OperandOf branch v

/-- The writes that the search for writes finds, if they are there. -/
def Found (branch : V) (succ : B) (inst : V) : Prop :=
  mod.looksAt f succ (mod.parent branch) (mod.parent inst) = true ∧
    mod.isFoundWrite branch (DuplicateModule.collectSignatureMemoryOperands
      (mod.buildConditionSignature branch)) inst = true

/-- **What the conditions read from memory is left alone**, by all instructions that the search for
writes does not find, from the last time that it has been read to the second branch. -/
def LeftAlone (succ : B) (p : Passage V) : Prop :=
  ∀ load pointer, mod.value load = .load pointer →
    TransGen mod.OperandOf p.d load ∨ TransGen mod.OperandOf p.b load →
    ∀ later s s' earlier, p.trace = later ++ ⟨load, s, s'⟩ :: earlier →
      (∀ e ∈ later, e.inst ≠ load) →
      ∀ x, mod.read s (mod.stripPointerCasts pointer) = some x →
      ∀ e ∈ later ++ [⟨load, s, s'⟩], ¬ mod.Found f p.b succ e.inst →
        e.stAfter.memory x (mod.bitWidth load) = e.stBefore.memory x (mod.bitWidth load)

/-- Values that are taken for the same. -/
def TakenForSame (v w : V) : Prop := ∃ n depth, mod.valuesEquivalentFrom n depth v w = true

/-- **Values that are taken for the same are of one type**, if both are needed: loads load as many
bits, `getelementptr`s have the same offset, and casts do the same. -/
def SameTypes (d b : V) : Prop :=
  ∀ v w, mod.Needed d v → mod.Needed b w → mod.TakenForSame v w →
    (∀ p q, mod.value v = .load p → mod.value w = .load q → mod.bitWidth v = mod.bitWidth w) ∧
    ((mod.gepOperator v).isSome = true → (mod.gepOperator w).isSome = true →
      mod.gepResult v = mod.gepResult w) ∧
    ((mod.castOperator v).isSome = true → (mod.castOperator w).isSome = true →
      mod.castResult v = mod.castResult w)

/-- **Calls that are taken for the same agree**: with the same arguments they have returned the
same. -/
def CallsAgree (p : Passage V) : Prop :=
  ∀ v w callV callW, mod.value v = .call callV → mod.value w = .call callW →
    TransGen mod.OperandOf p.d v → TransGen mod.OperandOf p.b w → mod.TakenForSame v w →
    ∀ laterV s s' earlierV laterW t t' earlierW,
      p.before = laterV ++ ⟨v, s, s'⟩ :: earlierV → (∀ e ∈ laterV, e.inst ≠ v) →
      p.trace = laterW ++ ⟨w, t, t'⟩ :: earlierW → (∀ e ∈ laterW, e.inst ≠ w) →
      List.Forall₂ (fun x y => mod.read s (mod.stripCasts x) = mod.read t (mod.stripCasts y))
        callV.args callW.args →
      s'.values v = t'.values w

end Passages

/-! ## Values that are taken for the same -/

section Values

variable {mod f} {p : Passage V} (hV : mod.Verified f)

omit [DecidableEq F] [DecidableEq V] [DecidableEq B] [DecidableEq S] [Fintype F] in
/-- The chain of casts is needed. -/
theorem operands_stripCasts (v : V) :
    ReflTransGen mod.OperandOf v (mod.stripCasts v) := by
  have hwithin : ∀ n v, ReflTransGen mod.OperandOf v (mod.stripCastsWithin n v) := by
    intro n
    induction n with
    | zero => exact fun v => .refl
    | succ n ih =>
      intro v
      unfold Module.stripCastsWithin
      split
      · next op operand hvalue =>
        exact (ih operand).head ⟨by simp [hvalue, Value.operandValues], by simp [hvalue]⟩
      · exact .refl
  exact hwithin _ v

omit [DecidableEq F] [DecidableEq V] [DecidableEq B] [DecidableEq S] [Fintype F] [Fintype V] in
/-- What a chain of operands leads to is needed where its beginning is. -/
theorem Needed.chain {branch v w : V} (h : mod.Needed branch v)
    (hchain : ReflTransGen mod.OperandOf v w) : mod.Needed branch w := by
  intro hw
  rcases hchain.cases_head with rfl | ⟨x, hoperand, hrest⟩
  · exact h hw
  · exact (h (isInstruction_of_operandOf hoperand)).trans_left (hrest.head hoperand)

omit [DecidableEq F] [DecidableEq V] [DecidableEq B] [DecidableEq S] [Fintype F] [Fintype V] in
/-- An operand is needed where its instruction is. -/
theorem Needed.operand {branch v w : V} (h : mod.Needed branch v) (hoperand : mod.OperandOf v w) :
    mod.Needed branch w :=
  h.chain (.single hoperand)

include hV

omit [DecidableEq F] [DecidableEq B] [DecidableEq S] [Fintype F] [Fintype V] in
/-- A stripped pointer is needed where the pointer is. -/
theorem Needed.strip {branch pointer : V} (h : mod.Needed branch pointer) :
    mod.Needed branch (mod.stripPointerCasts pointer) :=
  fun hw => h.chain (hV.strip pointer hw) hw

omit [DecidableEq F] [DecidableEq B] [DecidableEq S] [Fintype F] [Fintype V] in
/-- The stripped pointer of a `getelementptr` is needed where that is. -/
theorem Needed.gepPointer {branch v pointer : V} {indices : List V} (h : mod.Needed branch v)
    (hgep : mod.gepOperator v = some (pointer, indices)) :
    mod.Needed branch (mod.stripPointerCasts pointer) := by
  rcases hV.gep v pointer indices hgep with ⟨type, hvalue⟩ | ⟨-, hconstant, -⟩
  · have hoperand : mod.OperandOf v pointer :=
      ⟨by simp [hvalue, Value.operandValues], by simp [hvalue]⟩
    exact (h.operand hoperand).strip hV
  · intro hinst
    exact absurd hconstant (Bool.eq_false_iff.mp (isConstant_of_isInstruction hinst))

omit [DecidableEq F] [DecidableEq B] [DecidableEq S] [Fintype F] [Fintype V] in
/-- The operand of a cast between pointers is needed where that is. -/
theorem Needed.castOperand {branch v operand : V} {op : PointerCast} (h : mod.Needed branch v)
    (hcast : mod.castOperator v = some (op, operand)) : mod.Needed branch operand := by
  rcases hV.cast v op operand hcast with ⟨castOp, hvalue⟩ | ⟨-, hconstant, -⟩
  · exact h.operand ⟨by simp [hvalue, Value.operandValues], by simp [hvalue]⟩
  · intro hinst
    exact absurd hconstant (Bool.eq_false_iff.mp (isConstant_of_isInstruction hinst))

omit [DecidableEq F] [DecidableEq B] [DecidableEq S] [Fintype F] [Fintype V] in
/-- What is needed comes before. -/
theorem Needed.before {branch v : V} (h : mod.Needed branch v)
    (hv : (mod.value v).isInstruction = true) : mod.Before f v branch :=
  before_of_operands hV (h hv) hv

omit [DecidableEq F] [DecidableEq B] [DecidableEq S] [Fintype F] [Fintype V] hV in
/-- The run to the first branch. -/
theorem Executed.runD (h : mod.Executed f p) : mod.Run f p.d p.atD p.before := by
  obtain ⟨⟨first, start, hfirst, hstart, hsegment⟩, -⟩ := h
  exact ⟨first, start, hfirst, hstart, hsegment.split.1⟩

variable (h : mod.Executed f p) (hdb : mod.Before f p.d p.b)

include h hdb

omit [DecidableEq F] [DecidableEq B] [DecidableEq S] [Fintype F] [Fintype V] hV in
/-- What is needed for the first branch is not executed on the way to the second one. -/
theorem Executed.not_executed {v : V} (hv : mod.Before f v p.d) :
    p.d ≠ v ∧ ∀ e ∈ p.after, e.inst ≠ v := by
  obtain ⟨⟨first, start, hfirst, -, hsegment⟩, hnot⟩ := h
  obtain ⟨hbefore, -, w, hgoes, hafter⟩ := hsegment.split
  have hvd := hv first hfirst
  refine ⟨?_, fun e he heq => ?_⟩
  · rintro rfl
    exact not_precedes_self hbefore.reach hvd
  · have hreach : Reach mod.next first e.inst := by
      obtain ⟨later, earlier, heq'⟩ := List.append_of_mem he
      rw [heq'] at hafter
      exact (hbefore.reach.tail hgoes.1).trans hafter.split.1.reach
    have hback := hafter.reach_end hnot he
    rw [heq] at hreach hback
    exact hvd.not_reach (hdb first hfirst) hreach hback

omit [DecidableEq F] [DecidableEq B] [DecidableEq S] [Fintype F] [Fintype V] in
/-- **What the first branch needs stays** on the way to the second one. -/
theorem Executed.read_eq {v : V} (hv : mod.Needed p.d v) :
    mod.read p.atD v = mod.read p.atB v := by
  obtain ⟨⟨first, start, hfirst, -, hsegment⟩, -⟩ := id h
  obtain ⟨hbefore, hexec, w, hgoes, hafter⟩ := hsegment.split
  by_cases hinst : (mod.value v).isInstruction = true
  · obtain ⟨hne, hnot⟩ := h.not_executed hdb (hv.before hV hinst)
    rw [read_of_isInstruction hinst, read_of_isInstruction hinst, hafter.values_eq hnot,
      hexec.values_eq hne.symm]
  · rw [Bool.not_eq_true] at hinst
    have hentry := mem_instructions_entry hV hfirst
    have hnow := hsegment.values_eq_of_notInstruction hV hentry hinst
    have hthen := hbefore.values_eq_of_notInstruction hV hentry hinst
    unfold read
    rw [hnow, hthen]

omit hdb

/-- **No write that the search for writes finds is executed**, where a condition is reported. -/
theorem Executed.not_found {succ : B} (hbranch : (mod.conditionalBranch p.b).isSome = true)
    (hwrites : mod.hasInterveningWrites f succ p.b (DuplicateModule.collectSignatureMemoryOperands
      (mod.buildConditionSignature p.b)) = false) :
    ∀ e ∈ p.trace, ¬ mod.Found f p.b succ e.inst := by
  obtain ⟨⟨first, start, hfirst, -, hsegment⟩, -⟩ := h
  rintro e he ⟨hlooks, hfound⟩
  have hmem := hsegment.mem_instructions hV (mem_instructions_entry hV hfirst) e he
  have hblock : mod.parent e.inst ∈ mod.blocks f := by
    obtain ⟨later, earlier, heq⟩ := List.append_of_mem he
    rw [heq] at hsegment
    exact mem_blocks_reach hV hfirst hsegment.split.1.reach
  have hne : e.inst ≠ p.b := by
    intro heq
    have hwrite := hV.writes p.b hbranch
    rw [← heq] at hwrite
    simp [DuplicateModule.isFoundWrite, hwrite] at hfound
  have hany : (DuplicateModule.collectSignatureMemoryOperands
      (mod.buildConditionSignature p.b)).isEmpty = false := by
    unfold DuplicateModule.isFoundWrite at hfound
    obtain ⟨mem, hmem', -⟩ := List.any_eq_true.mp (Bool.and_eq_true_iff.mp hfound).2
    exact List.isEmpty_eq_false_iff_exists_mem.mpr ⟨mem, hmem'⟩
  rw [DuplicateModule.hasInterveningWrites, hany, if_neg Bool.false_ne_true,
    List.any_eq_false] at hwrites
  have hin := mem_takeWhile hV hbranch hmem hne
  refine hwrites _ hblock (Bool.and_eq_true_iff.mpr ⟨hlooks, ?_⟩)
  exact List.any_eq_true.mpr ⟨e.inst, hin, hfound⟩

omit hV in
/-- **What a load has read is still there**, when the second branch is reached. -/
theorem Executed.memory_eq {succ : B} (hfound : ∀ e ∈ p.trace, ¬ mod.Found f p.b succ e.inst)
    (hleft : mod.LeftAlone f succ p) {load pointer : V} (hload : mod.value load = .load pointer)
    (hneeded : TransGen mod.OperandOf p.d load ∨ TransGen mod.OperandOf p.b load)
    {later earlier : List (Event V)} {s s' : RunState V} {x : Word}
    (htrace : p.trace = later ++ ⟨load, s, s'⟩ :: earlier) (hlater : ∀ e ∈ later, e.inst ≠ load)
    (hx : mod.read s (mod.stripPointerCasts pointer) = some x) :
    p.atB.memory x (mod.bitWidth load) = s.memory x (mod.bitWidth load) := by
  obtain ⟨⟨first, start, hfirst, -, hsegment⟩, -⟩ := h
  have halone : ∀ e ∈ later ++ [⟨load, s, s'⟩],
      e.stAfter.memory x (mod.bitWidth load) = e.stBefore.memory x (mod.bitWidth load) := by
    intro e he
    refine hleft load pointer hload hneeded later s s' earlier htrace hlater x hx e he ?_
    apply hfound
    rw [htrace, List.append_cons]
    exact List.mem_append_left _ he
  rw [htrace] at hsegment
  obtain ⟨-, -, w, -, hafter⟩ := hsegment.split
  rw [hafter.memory_eq fun e he => halone e (List.mem_append_left _ he)]
  exact halone ⟨load, s, s'⟩ (List.mem_append_right _ List.mem_cons_self)

include hdb

/-- **Loads from the same pointer** are the same, each at its branch. -/
theorem Executed.load_eq {succ : B} (hfound : ∀ e ∈ p.trace, ¬ mod.Found f p.b succ e.inst)
    (hleft : mod.LeftAlone f succ p) {v w pointerV pointerW : V}
    (hv : mod.value v = .load pointerV) (hw : mod.value w = .load pointerW)
    (hneededV : mod.Needed p.d v) (hneededW : mod.Needed p.b w)
    (hwidth : mod.bitWidth v = mod.bitWidth w)
    (hpointers : mod.read p.atD (mod.stripPointerCasts pointerV) =
      mod.read p.atB (mod.stripPointerCasts pointerW)) :
    mod.read p.atD v = mod.read p.atB w := by
  have hinstV : (mod.value v).isInstruction = true := by rw [hv]; rfl
  have hinstW : (mod.value w).isInstruction = true := by rw [hw]; rfl
  have hbeforeV := hneededV.before hV hinstV
  have hbeforeW := hneededW.before hV hinstW
  obtain ⟨laterV, s, s', earlierV, x, hbefore, hlaterV, hx, hxd, hreadV⟩ :=
    h.runD.read_load hV hbeforeV hv
  obtain ⟨laterW, t, t', earlierW, y, htrace, hlaterW, hy, hyb, hreadW⟩ :=
    h.1.read_load hV hbeforeW hw
  obtain rfl : x = y := by
    rw [hxd, hyb] at hpointers
    exact Option.some.inj hpointers
  obtain ⟨hne, hafter⟩ := h.not_executed hdb hbeforeV
  have htraceV : p.trace =
      (p.after ++ ⟨p.d, p.atD, p.behindD⟩ :: laterV) ++ ⟨v, s, s'⟩ :: earlierV := by
    rw [Passage.trace, hbefore, List.append_assoc, List.cons_append]
  have hnotV : ∀ e ∈ p.after ++ ⟨p.d, p.atD, p.behindD⟩ :: laterV, e.inst ≠ v := by
    intro e he
    rcases List.mem_append.mp he with he | he
    · exact hafter e he
    · rcases List.mem_cons.mp he with rfl | he
      · exact hne
      · exact hlaterV e he
  have hmemV := h.memory_eq hfound hleft hv (Or.inl (hneededV hinstV)) htraceV hnotV hx
  have hmemW := h.memory_eq hfound hleft hw (Or.inr (hneededW hinstW)) htrace hlaterW hy
  rw [hreadV, hreadW, ← hmemV, ← hmemW, hwidth]

omit [DecidableEq B] [DecidableEq S] hdb in
/-- **Calls with the same arguments** are the same, each at its branch. -/
theorem Executed.call_eq (hcalls : mod.CallsAgree p) {v w : V} {callV callW : Llvm.CallBase V F}
    (hv : mod.value v = .call callV) (hw : mod.value w = .call callW)
    (hneededV : mod.Needed p.d v) (hneededW : mod.Needed p.b w) (hsame : mod.TakenForSame v w)
    (hlength : callV.args.length = callW.args.length)
    (hargs : ∀ args ∈ callV.args.zip callW.args,
      mod.read p.atD (mod.stripCasts args.1) = mod.read p.atB (mod.stripCasts args.2)) :
    mod.read p.atD v = mod.read p.atB w := by
  have hinstV : (mod.value v).isInstruction = true := by rw [hv]; rfl
  have hinstW : (mod.value w).isInstruction = true := by rw [hw]; rfl
  obtain ⟨laterV, s, s', earlierV, hbefore, hlaterV, -, hreadV, hsameV⟩ :=
    h.runD.lastRead hV (hneededV.before hV hinstV) hinstV
  obtain ⟨laterW, t, t', earlierW, htrace, hlaterW, -, hreadW, hsameW⟩ :=
    h.1.lastRead hV (hneededW.before hV hinstW) hinstW
  rw [hreadV, hreadW]
  refine hcalls v w callV callW hv hw (hneededV hinstV) (hneededW hinstW) hsame laterV s s'
    earlierV laterW t t' earlierW hbefore hlaterV htrace hlaterW ?_
  refine List.forall₂_iff_zip.mpr ⟨hlength, ?_⟩
  intro x y hxy
  have hoperandV : mod.OperandOf v x :=
    ⟨by simp [hv, Value.operandValues, (List.of_mem_zip hxy).1], by simp [hv]⟩
  have hoperandW : mod.OperandOf w y :=
    ⟨by simp [hw, Value.operandValues, (List.of_mem_zip hxy).2], by simp [hw]⟩
  calc mod.read s (mod.stripCasts x) = mod.read p.atD (mod.stripCasts x) :=
        (hsameV _ (before_of_operands hV (TransGen.head' hoperandV (operands_stripCasts x)))).symm
    _ = mod.read p.atB (mod.stripCasts y) := hargs (x, y) hxy
    _ = mod.read t (mod.stripCasts y) :=
        hsameW _ (before_of_operands hV (TransGen.head' hoperandW (operands_stripCasts y)))

/-- **Values that are taken for the same are the same**, each at its branch.

**Proof sketch.** By induction on the depth, along what the comparison has looked at. Loads from the
same pointer agree since the contents of memory stay, calls since they agree with the same
arguments; everything else is computed from its operands in the same way. -/
theorem read_eq_of_valuesEquivalent {succ : B}
    (hfound : ∀ e ∈ p.trace, ¬ mod.Found f p.b succ e.inst) (hleft : mod.LeftAlone f succ p)
    (htypes : mod.SameTypes p.d p.b) (hcalls : mod.CallsAgree p) {n depth : ℕ} {v w : V}
    (hequiv : mod.valuesEquivalentFrom n depth v w = true) (hv : mod.Needed p.d v)
    (hw : mod.Needed p.b w) : mod.read p.atD v = mod.read p.atB w := by
  induction n generalizing depth v w with
  | zero =>
    obtain rfl : v = w := of_decide_eq_true hequiv
    exact h.read_eq hV hdb hv
  | succ n ih =>
    by_cases hne : v = w
    · rw [← hne]
      exact h.read_eq hV hdb hv
    have hsame : mod.TakenForSame v w := ⟨n + 1, depth, hequiv⟩
    obtain ⟨hwidth, hgeps, hcasts⟩ := htypes v w hv hw hsame
    rcases DuplicateModule.valuesEquivalentFrom_cases hequiv hne with
      ⟨callV, callW, hcallV, hcallW, hlength, hargs⟩ |
      ⟨pointerV, pointerW, hloadV, hloadW, hpointers⟩ |
      ⟨pointerV, indicesV, pointerW, indicesW, hgepV, hgepW, hpointers, hindices⟩ |
      ⟨op, operandV, operandW, hcastV, hcastW, hoperands⟩
    · refine h.call_eq hV hcalls hcallV hcallW hv hw hsame hlength fun args hmem => ?_
      have hoperandV : mod.OperandOf v args.1 :=
        ⟨by simp [hcallV, Value.operandValues, (List.of_mem_zip hmem).1], by simp [hcallV]⟩
      have hoperandW : mod.OperandOf w args.2 :=
        ⟨by simp [hcallW, Value.operandValues, (List.of_mem_zip hmem).2], by simp [hcallW]⟩
      exact ih (hargs args hmem) ((hv.operand hoperandV).chain (operands_stripCasts _))
        ((hw.operand hoperandW).chain (operands_stripCasts _))
    · have hoperandV : mod.OperandOf v pointerV :=
        ⟨by simp [hloadV, Value.operandValues], by simp [hloadV]⟩
      have hoperandW : mod.OperandOf w pointerW :=
        ⟨by simp [hloadW, Value.operandValues], by simp [hloadW]⟩
      exact h.load_eq hV hdb hfound hleft hloadV hloadW hv hw (hwidth _ _ hloadV hloadW)
        (ih hpointers ((hv.operand hoperandV).strip hV) ((hw.operand hoperandW).strip hV))
    · have hconstants := DuplicateModule.isConstantInt_of_sameIndices hindices
      obtain ⟨x, hx, hreadV⟩ := h.runD.read_gep hV (hv.before hV) hgepV hconstants.1
      obtain ⟨y, hy, hreadW⟩ := h.1.read_gep hV (hw.before hV) hgepW hconstants.2
      have hwords := ih hpointers (hv.gepPointer hV hgepV) (hw.gepPointer hV hgepW)
      rw [hx, hy, Option.some_inj] at hwords
      rw [hreadV, hreadW, hwords, hgeps (by simp [hgepV]) (by simp [hgepW])]
    · obtain ⟨x, hx, hreadV⟩ := h.runD.read_castOperator hV (hv.before hV) hcastV
      obtain ⟨y, hy, hreadW⟩ := h.1.read_castOperator hV (hw.before hV) hcastW
      have hwords := ih hoperands (hv.castOperand hV hcastV) (hw.castOperand hV hcastW)
      rw [hx, hy, Option.some_inj] at hwords
      rw [hreadV, hreadW, hwords, hcasts (by simp [hcastV]) (by simp [hcastW])]

end Values

end ConditionFunction

end StackAnalyzer.Conditions
