import StackAnalyzer.Llvm.Machine
import StackAnalyzer.NullDeref.NullDereferences

set_option relaxedAutoImplicit false
set_option autoImplicit false

/-!
# Definite null dereferences

What a reported null dereference says about the runs of a function. The null constant is null. A
pointer that is loaded from a slot is null if it has been loaded after the store that has been
found, and the slot has not been changed in between. On a branch, the pointer that has been compared
was null then; the one that is accessed is null if it is still the same. The pass does not look at
any of this, so a pointer may get another value first.

## Main definitions

* `StackAnalyzer.NullDeref.BaseOf` — the base of a pointer.
* `StackAnalyzer.NullDeref.SamePointer` — a pointer still is the one that has been compared.
* `StackAnalyzer.NullDeref.Definite` — what is needed for each kind of report.

## Main results

* `StackAnalyzer.NullDeref.compared_null` — the pointer that has been compared was null.
* `StackAnalyzer.NullDeref.null_of_definite` — the base of the accessed pointer is null.
* `StackAnalyzer.NullDeref.not_definiteReports_reassigned` — without this it need not be.
-/

namespace StackAnalyzer.NullDeref

open CrossTU Llvm Llvm.Machine

variable {F V B : Type*} (mod : Module F V B) (answers : Answers F V)

/-- The null pointer. -/
def nullWord : Word := ⟨64, 0⟩

/-! ## Bases -/

/-- The base of a pointer, after all casts and `getelementptr`s have been stripped. -/
inductive BaseOf : V → V → Prop
  | base {v : V} : gepPointerOperand mod answers (mod.stripPointerCasts v) = none →
      BaseOf v (mod.stripPointerCasts v)
  | gep {v pointer base : V} :
      gepPointerOperand mod answers (mod.stripPointerCasts v) = some pointer →
      BaseOf pointer base → BaseOf v base

/-- Values that are no pointers, among those that are read here. -/
def noPointer (v : V) : Bool :=
  match mod.value v with
  | .constantInt _ _ | .store _ _ | .icmp _ _ _ => true
  | _ => false

/-- What LLVM guarantees: casts are stripped at once, and only from pointers; `getelementptr`s add
to pointers; integer constants, comparisons and stores are no pointers; and there is an edge back
for each edge. -/
structure PointerLaws [DecidableEq B] : Prop where
  strip_strip : ∀ v, mod.stripPointerCasts (mod.stripPointerCasts v) = mod.stripPointerCasts v
  strip_other : ∀ v, (mod.type v).isPointerTy = false → mod.stripPointerCasts v = v
  strip_pointer : ∀ v, (mod.type v).isPointerTy = true →
    (mod.type (mod.stripPointerCasts v)).isPointerTy = true
  gep_pointer : ∀ v pointer, gepPointerOperand mod answers v = some pointer →
    (mod.type v).isPointerTy = true → (mod.type pointer).isPointerTy = true
  isPointerTy_of_noPointer : ∀ v, noPointer mod v = true → (mod.type v).isPointerTy = false
  predecessors_count : ∀ block pred,
    (mod.predecessors block).count pred = (mod.successors pred).count block

variable {mod answers}

/-- The base of a null pointer is the null constant. -/
theorem BaseOf.read_of_isNullValue {pointer base : V} (h : BaseOf mod answers pointer base)
    (hnull : isNullValue mod pointer = true) (st : State V) : st.read mod base = some nullWord := by
  unfold isNullValue at hnull
  split at hnull
  · next hvalue =>
    cases h with
    | base => simp [State.read, hvalue, nullWord]
    | gep hgep _ => simp [gepPointerOperand, hvalue] at hgep
  · cases hnull

/-- A load is no `getelementptr`. -/
theorem gepPointerOperand_of_loadedSlot {v slot : V} (h : loadedSlot mod v = some slot) :
    gepPointerOperand mod answers v = none := by
  unfold loadedSlot at h
  split at h
  · next hvalue => simp [gepPointerOperand, hvalue]
  · cases h

section Laws

variable [DecidableEq B]

/-- Some rounds get to the base if they get to no `getelementptr`. -/
theorem BaseOf.eq_within (hlaws : PointerLaws mod answers) {depth : ℕ} {pointer base : V}
    (h : BaseOf mod answers pointer base)
    (hstop : gepPointerOperand mod answers
      (mod.stripPointerCasts (stripAddressOpsWithin mod answers depth pointer)) = none) :
    base = mod.stripPointerCasts (stripAddressOpsWithin mod answers depth pointer) := by
  induction depth generalizing pointer with
  | zero =>
    cases h with
    | base => rfl
    | gep hgep _ => exact absurd (hstop.symm.trans hgep) (by simp)
  | succ depth ih =>
    unfold stripAddressOpsWithin at hstop ⊢
    cases h with
    | base hbase =>
      simp only [hbase]
      exact (hlaws.strip_strip pointer).symm
    | gep hgep hpointer =>
      simp only [hgep] at hstop ⊢
      exact ih hpointer hstop

/-- **The base is the stripped pointer**, if that is loaded. -/
theorem BaseOf.eq_of_loadedSlot (hlaws : PointerLaws mod answers) {pointer base slot : V}
    (h : BaseOf mod answers pointer base)
    (hslot : loadedSlot mod (stripPointerAddressOps mod answers pointer) = some slot) :
    base = stripPointerAddressOps mod answers pointer :=
  h.eq_within hlaws (gepPointerOperand_of_loadedSlot hslot)

/-- The base of a pointer is a pointer. -/
theorem BaseOf.isPointerTy (hlaws : PointerLaws mod answers) {pointer base : V}
    (h : BaseOf mod answers pointer base) (hpointer : (mod.type pointer).isPointerTy = true) :
    (mod.type base).isPointerTy = true := by
  induction h with
  | base _ => exact hlaws.strip_pointer _ hpointer
  | gep hgep _ ih => exact ih (hlaws.gep_pointer _ _ hgep (hlaws.strip_pointer _ hpointer))

/-- A stripped pointer is a pointer. -/
theorem isPointerTy_stripPointerAddressOps (hlaws : PointerLaws mod answers) {pointer : V}
    (hpointer : (mod.type pointer).isPointerTy = true) :
    (mod.type (stripPointerAddressOps mod answers pointer)).isPointerTy = true := by
  suffices hwithin : ∀ depth v, (mod.type v).isPointerTy = true →
      (mod.type (stripAddressOpsWithin mod answers depth v)).isPointerTy = true from
    hlaws.strip_pointer _ (hwithin 8 pointer hpointer)
  intro depth
  induction depth with
  | zero => exact fun v hv => hv
  | succ depth ih =>
    intro v hv
    have hstrip := hlaws.strip_pointer v hv
    unfold stripAddressOpsWithin
    split
    · next gep hgep => exact ih gep (hlaws.gep_pointer _ _ hgep hstrip)
    · exact hstrip

end Laws

/-! ## Widths -/

/-- Pointers have 64 bits. -/
theorem wordWidth_of_isPointerTy {v : V} (h : (mod.type v).isPointerTy = true) :
    wordWidth mod v = some 64 := by
  unfold Ty.isPointerTy at h
  unfold wordWidth
  split at h
  · next htype => rw [htype]
  · cases h

/-- A word of 64 bits that is zero is the null pointer. -/
theorem eq_nullWord {x : Word} (hwidth : x.1 = 64) (hzero : x.2 = 0) : x = nullWord := by
  obtain ⟨width, bits⟩ := x
  obtain rfl : width = 64 := hwidth
  obtain rfl : bits = 0 := hzero
  rfl

/-! ## Loads -/

variable [DecidableEq V]

omit [DecidableEq V] in
/-- A loaded value is read as it is. -/
theorem read_of_loadedSlot {v slot : V} (h : loadedSlot mod v = some slot) (st : State V) :
    st.read mod v = st.values v := by
  unfold loadedSlot at h
  split at h
  · next hvalue => simp [State.read, hvalue]
  · cases h

/-- **A load of a pointer** gives what is stored in its slot, if that is a pointer. -/
theorem values_of_load {st st' : State V} {load slot : V} (h : Executes mod st load st')
    (hslot : loadedSlot mod load = some slot) (htype : (mod.type load).isPointerTy = true)
    (hwidth : (st.memory slot).1 = 64) : st'.values load = some (st.memory slot) := by
  obtain ⟨result, hyields, hvalue⟩ := h.exists_value
  unfold loadedSlot at hslot
  split at hslot
  · next pointer hload =>
    obtain rfl := Option.some.inj hslot
    simp only [Yields, hload] at hyields
    rw [hvalue, hyields (by rw [wordWidth_of_isPointerTy htype]; exact congrArg some hwidth.symm)]
    rfl
  · cases hslot

/-- A load changes no local variable. -/
theorem memory_of_load {st st' : State V} {load slot : V} (h : Executes mod st load st')
    (hload : ∃ slot', loadedSlot mod load = some slot')
    (hslot : (mod.value slot).isAlloca = true ∨ (mod.value slot).isArgument = true) :
    st'.memory slot = st.memory slot := by
  obtain ⟨slot', hload⟩ := hload
  unfold loadedSlot at hload
  split at hload
  · next pointer hvalue =>
    refine h.memory_eq ?_
    have hne : load ≠ slot := by
      rintro rfl
      simp [hvalue, Value.isAlloca, Value.isArgument] at hslot
    simp [mayWrite, hvalue, hne]
  · cases hload

/-! ## Conditions -/

variable (mod answers)

/-- The casts of a pointer keep its value. -/
def CastsKeep (st : State V) (v : V) : Prop :=
  st.read mod v = st.read mod (mod.stripPointerCasts v)

/-- **A pointer still is the one that has been compared**: both have the value of the object that
they share, which is still the same; or both have been loaded from the same slot, which has held the
same pointer both times. -/
inductive SamePointer (trace : List (V × State V)) (st : State V) (base : V)
    (earlier : List (V × State V)) (compared : State V) (pointer : V) : Prop
  | object {object : V} :
      answers.underlyingObject (stripPointerAddressOps mod answers pointer) = object →
      compared.read mod pointer = compared.read mod object →
      st.read mod base = st.read mod object →
      st.read mod object = compared.read mod object →
      SamePointer trace st base earlier compared pointer
  | slot {slot v : V} {loaded loaded' : State V} {before before' : List (V × State V)} :
      stripPointerAddressOps mod answers pointer = v →
      loadedSlot mod v = some slot → loadedSlot mod base = some slot →
      (mod.value slot).isAlloca = true ∨ (mod.value slot).isArgument = true →
      compared.read mod pointer = compared.read mod v →
      upTo v earlier = (v, loaded) :: before → upTo base trace = (base, loaded') :: before' →
      loaded'.memory slot = loaded.memory slot → (loaded.memory slot).1 = 64 →
      SamePointer trace st base earlier compared pointer

/-- The comparison that decides about the only edge to a block. -/
def entryComparison (block : B) : Option V :=
  match mod.predecessors block with
  | [pred] => (mod.instructions pred).getLast?.bind fun branch =>
      match mod.value branch with
      | .br cond _ _ => some (mod.stripPointerCasts cond)
      | _ => none
  | _ => none

variable [DecidableEq B]

/-- **What is needed for a report**, when the instruction is about to be executed. The null constant
needs nothing. A stored null must have been loaded after the store, and the slot must not have been
changed in between. After a comparison, the pointer must be the same. -/
inductive Definite (block : B) (trace : List (V × State V)) (st : State V) (inst base : V) :
    NullDerefIssueKind → Prop
  | direct : Definite block trace st inst base .directNullPointer
  | stored {slot store value : V} {loaded stored : State V}
      {between before : List (V × State V)} :
      loadedSlot mod base = some slot →
      findNearestPrecedingStoreToSlot mod inst slot = some store →
      storedIn mod slot store = some value →
      upTo base trace = (base, loaded) :: (between ++ (store, stored) :: before) →
      Unchanged slot stored between → CastsKeep mod stored value →
      Definite block trace st inst base .nullStoredInLocalSlot
  | branch {pointer comparison : V} {compared : State V} {earlier : List (V × State V)} :
      nullOnEntry mod block = some pointer → entryComparison mod block = some comparison →
      upTo comparison trace = (comparison, compared) :: earlier →
      (∀ operand ∈ (mod.value comparison).operandValues, isNullValue mod operand = true →
        CastsKeep mod compared operand) →
      SamePointer mod answers trace st base earlier compared pointer →
      Definite block trace st inst base .nullBranchDereference

/-- **Definite reports**: whenever the instruction of a report that is no allocator's is about to be
executed, the base of the accessed pointer is null. -/
def DefiniteReports (shouldAnalyze : F → Bool) : Prop :=
  ∀ issue ∈ analyzeNullDereferences mod answers shouldAnalyze,
    issue.kind ≠ .uncheckedAllocatorResult → ∀ f ∈ mod.functions, ∀ block rest st trace,
      Run mod f block (issue.inst :: rest) st trace → ∀ pointer base,
        dereferencedPointer mod answers issue.inst = some pointer →
          BaseOf mod answers pointer base → st.read mod base = some nullWord

variable {mod answers}

/-! ## Stored nulls -/

omit [DecidableEq V] in
/-- The operand of a store or a comparison that is null is another value. -/
theorem ne_of_isNullValue (hlaws : PointerLaws mod answers) {inst v : V}
    (hnull : isNullValue mod v = true)
    (hinst : noPointer mod inst = true) : v ≠ inst := by
  rintro rfl
  unfold isNullValue at hnull
  rw [hlaws.strip_other v (hlaws.isPointerTy_of_noPointer v hinst)] at hnull
  split at hnull
  · next hvalue => simp [noPointer, hvalue] at hinst
  · cases hnull

omit [DecidableEq V] [DecidableEq B] in
/-- A null value is read as the null pointer, if its casts keep it. -/
theorem CastsKeep.read_null {st : State V} {v : V} (h : CastsKeep mod st v)
    (hnull : isNullValue mod v = true) : st.read mod v = some nullWord := by
  unfold isNullValue at hnull
  unfold CastsKeep at h
  split at hnull
  · next hvalue =>
    rw [h]
    simp [State.read, hvalue, nullWord]
  · cases hnull

omit [DecidableEq B] in
/-- An instruction changes how no other value is read. -/
theorem read_of_executes {st st' : State V} {inst v : V} (h : Executes mod st inst st')
    (hv : v ≠ inst) : st'.read mod v = st.read mod v := by
  unfold State.read
  rw [h.values_eq hv]

/-- **A stored null is loaded**, if the slot is not changed in between. -/
theorem null_of_stored (hlaws : PointerLaws mod answers) {f : F} {block : B} {rest : List V}
    {trace : List (V × State V)} {st : State V} (hrun : Run mod f block rest st trace)
    {base slot store value : V} {loaded stored : State V} {between before : List (V × State V)}
    (hbase : (mod.type base).isPointerTy = true) (hslot : loadedSlot mod base = some slot)
    (hstore : storedIn mod slot store = some value) (hnull : isNullValue mod value = true)
    (htrace : upTo base trace = (base, loaded) :: (between ++ (store, stored) :: before))
    (hunchanged : Unchanged slot stored between) (hkeep : CastsKeep mod stored value) :
    st.read mod base = some nullWord := by
  obtain ⟨block₁, rest₁, st₁, hrun₁, hload, hvalues⟩ := hrun.lastExecuted htrace
  obtain ⟨block₂, rest₂, st₂, -, hstored, hsteps⟩ := hrun₁.executed rfl
  have hne : value ≠ store := by
    refine ne_of_isNullValue hlaws hnull ?_
    unfold storedIn at hstore
    split at hstore
    · next hvalue => simp [noPointer, hvalue]
    · cases hstore
  have hmemory : stored.memory slot = nullWord := by
    have hread := hstored.memory_of_directStore (show directStore mod slot store = some value from
      hstore)
    rw [← read_of_executes hstored hne, hkeep.read_null hnull] at hread
    exact (Option.some.inj hread).symm
  have hmemory₁ : st₁.memory slot = nullWord := by
    rw [hsteps.memory_of_unchanged hunchanged, hmemory]
  have hresult := values_of_load hload hslot hbase (by rw [hmemory₁]; rfl)
  rw [read_of_loadedSlot hslot, hvalues, hresult, hmemory₁]

/-! ## Branches -/

/-- Only `eq` and `ne` say something about null. -/
theorem nullOnTrue_eq_some {predicate : Predicate} {nullIfTrue : Bool} :
    nullOnTrue predicate = some nullIfTrue ↔
      predicate = .eq ∧ nullIfTrue = true ∨ predicate = .ne ∧ nullIfTrue = false := by
  cases predicate <;> cases nullIfTrue <;> simp [nullOnTrue]

omit [DecidableEq V] in
/-- The only edge to a block, if it says that a pointer is null: the branch tests the comparison,
and it goes to the block if that holds for `eq`, or if it does not for `ne`. -/
theorem branch_of_nullOnEntry (hlaws : PointerLaws mod answers) {block : B} {pointer comparison : V}
    (h : nullOnEntry mod block = some pointer)
    (hcomparison : entryComparison mod block = some comparison) :
    ∃ pred branch ifTrue ifFalse predicate lhs rhs, mod.predecessors block = [pred] ∧
      (mod.instructions pred).getLast? = some branch ∧
      mod.value branch = .br comparison ifTrue ifFalse ∧
      mod.value comparison = .icmp predicate lhs rhs ∧
      pointerComparedWithNull mod lhs rhs = some pointer ∧
      (predicate = .eq ∧ ifTrue = block ∨ predicate = .ne ∧ ifTrue ≠ block) := by
  unfold nullOnEntry at h
  unfold entryComparison at hcomparison
  split at h
  · next pred hpred =>
    simp only [hpred] at hcomparison
    obtain ⟨branch, hbranch, himplies⟩ := Option.bind_eq_some_iff.mp h
    rw [hbranch, Option.bind_some] at hcomparison
    unfold conditionImpliesNullForSuccessor at himplies
    split at himplies
    · next cond ifTrue ifFalse hvalue =>
      simp only [hvalue] at hcomparison
      obtain rfl := Option.some.inj hcomparison
      split at himplies
      · next predicate lhs rhs hicmp =>
        have hcond : mod.stripPointerCasts cond = cond := by
          by_cases htype : (mod.type cond).isPointerTy = true
          · have hstrip := hlaws.strip_pointer cond htype
            rw [hlaws.isPointerTy_of_noPointer _ (by simp [noPointer, hicmp])] at hstrip
            cases hstrip
          · exact hlaws.strip_other cond (by simpa using htype)
        split at himplies
        · next pointer' nullIfTrue hpointer hnull =>
          obtain ⟨htaken, rfl⟩ : (if ifTrue = block then nullIfTrue else !nullIfTrue) = true ∧
              pointer' = pointer := by simpa using himplies
          refine ⟨pred, branch, ifTrue, ifFalse, predicate, lhs, rhs, hpred, hbranch,
            by rw [hcond]; exact hvalue, hicmp, hpointer, ?_⟩
          rcases nullOnTrue_eq_some.mp hnull with ⟨heq, rfl⟩ | ⟨hne, rfl⟩
          · exact Or.inl ⟨heq, by simpa using htaken⟩
          · exact Or.inr ⟨hne, by simpa using htaken⟩
        · cases himplies
      · cases himplies
    · cases himplies
  · cases h

omit [DecidableEq B] in
/-- **A block does not compute the condition of its only edge**, if a run gets there.

**Proof sketch.** Before the block has been entered, the condition has no value, so the branch does
not go there. -/
theorem not_mem_of_condition {f : F} (hf : f ∈ mod.functions) (hedges : HasEdges mod f)
    {block pred : B} {branch comparison lhs rhs : V} {ifTrue ifFalse : B} {predicate : Predicate}
    (hpred : mod.predecessors block = [pred])
    (hbranch : (mod.instructions pred).getLast? = some branch)
    (hbr : mod.value branch = .br comparison ifTrue ifFalse)
    (hicmp : mod.value comparison = .icmp predicate lhs rhs) {rest : List V}
    {trace : List (V × State V)} {st : State V} (hrun : Run mod f block rest st trace) :
    comparison ∉ mod.instructions block := by
  intro hmem
  have hblock := hrun.block_mem hedges
  suffices hnever : ∀ {block' rest st trace}, Run mod f block' rest st trace →
      block' ≠ block ∧ st.values comparison = none from (hnever hrun).1 rfl
  intro block' rest st trace hrun'
  induction hrun' with
  | entry hhead hinitial =>
    refine ⟨?_, hinitial.none _ (List.mem_flatMap.mpr ⟨block, hblock, hmem⟩)⟩
    rintro rfl
    rw [hedges.entry _ hhead] at hpred
    cases hpred
  | @step block' inst rest trace st st' hrun' hinst ih =>
    refine ⟨ih.1, ?_⟩
    have hne : comparison ≠ inst := by
      rintro rfl
      obtain ⟨done, -, -, -, hinstructions, -⟩ := hrun'.entered
      exact ih.1 (block_unique hf (hrun'.block_mem hedges) hblock (by simp [hinstructions]) hmem)
    rw [hinst.values_eq hne, ih.2]
  | @jump block' next last trace st st' hrun' hgoes ih =>
    refine ⟨?_, ih.2⟩
    rintro rfl
    have hlast := hrun'.getLast?_of_nil (hedges.nonempty block')
    have hmember := hedges.mem_predecessors _ _ (hgoes.mem_successors hedges hlast)
    rw [hpred, List.mem_singleton] at hmember
    subst hmember
    obtain rfl : branch = last := Option.some.inj (hbranch.symm.trans hlast)
    simp only [Machine.GoesTo, hbr] at hgoes
    obtain ⟨x, hx, -⟩ := hgoes
    simp [State.read, hicmp, ih.2] at hx

omit [DecidableEq B] in
/-- If a comparison has sent a run to the block where it says so, its operands are equal. -/
theorem eq_of_taken {block ifTrue ifFalse : B} {predicate : Predicate} {width : ℕ}
    {a b : BitVec width}
    (h : predicate = .eq ∧ ifTrue = block ∨ predicate = .ne ∧ ifTrue ≠ block)
    (hsingle : ¬ (ifTrue = block ∧ ifFalse = block))
    (htaken : block = if BitVec.ofBool (predicate.holds a b) = 0 then ifFalse else ifTrue) :
    a = b := by
  rcases h with ⟨rfl, htrue⟩ | ⟨rfl, htrue⟩
  · by_contra hne
    rw [if_pos (by simp [Predicate.holds, hne])] at htaken
    exact hsingle ⟨htrue, htaken.symm⟩
  · by_contra hne
    rw [if_neg (by simp [Predicate.holds, hne])] at htaken
    exact htrue htaken.symm

/-- In a run, pointers have 64 bits. -/
theorem width_of_read (hlaws : PointerLaws mod answers) {f : F} {block : B} {rest : List V}
    {trace : List (V × State V)} {st : State V} (hrun : Run mod f block rest st trace) {v : V}
    {x : Word} (hv : (mod.type v).isPointerTy = true) (hx : st.read mod v = some x) :
    x.1 = 64 := by
  unfold State.read at hx
  split at hx
  · next hvalue =>
    rw [hlaws.isPointerTy_of_noPointer v (by simp [noPointer, hvalue])] at hv
    cases hv
  · obtain rfl := Option.some.inj hx
    rfl
  · have hwidth := hrun.hasWidth v x hx
    rw [HasWidth, wordWidth_of_isPointerTy hv] at hwidth
    exact of_decide_eq_true hwidth

/-- **A comparison has decided about the only edge to its block**: when it was executed, its
operands had the same bits.

**Proof sketch.** The block does not compute the comparison itself, so the last execution of it is
the one that the branch has tested; and only one of the two edges of the branch goes to the
block. -/
theorem equal_on_entry (hlaws : PointerLaws mod answers) {f : F} (hf : f ∈ mod.functions)
    (hedges : HasEdges mod f) {block pred : B} {rest : List V} {trace : List (V × State V)}
    {st : State V} (hrun : Run mod f block rest st trace) {branch comparison lhs rhs : V}
    {ifTrue ifFalse : B} {predicate : Predicate} (hpred : mod.predecessors block = [pred])
    (hbranch : (mod.instructions pred).getLast? = some branch)
    (hbr : mod.value branch = .br comparison ifTrue ifFalse)
    (hicmp : mod.value comparison = .icmp predicate lhs rhs)
    (htests : predicate = .eq ∧ ifTrue = block ∨ predicate = .ne ∧ ifTrue ≠ block)
    {compared : State V} {earlier : List (V × State V)}
    (htrace : upTo comparison trace = (comparison, compared) :: earlier) :
    ∃ block₁ rest₁ st₁, Run mod f block₁ (comparison :: rest₁) st₁ earlier ∧
      Executes mod st₁ comparison compared ∧ ∃ a b, st₁.read mod lhs = some a ∧
        st₁.read mod rhs = some b ∧ a.2 = b.2.setWidth a.1 := by
  have hnot := not_mem_of_condition hf hedges hpred hbranch hbr hicmp hrun
  obtain ⟨done, st₀, recent, before, hinstructions, rfl, hdone, -, hentry⟩ := hrun.entered
  have hrecent : ∀ event ∈ recent, event.1 ≠ comparison := by
    rintro event hevent rfl
    refine hnot (hinstructions ▸ List.mem_append_left _ (List.mem_reverse.mp ?_))
    exact hdone ▸ List.mem_map_of_mem hevent
  rw [upTo_append hrecent] at htrace
  -- the block has been entered by the branch
  rcases hentry with ⟨hhead, -⟩ | ⟨pred', last, st₁, before', rfl, hrun₀, hgoes⟩
  · rw [hedges.entry _ hhead] at hpred
    cases hpred
  have hlast := hrun₀.getLast?_of_nil (hedges.nonempty pred')
  have hmember := hedges.mem_predecessors _ _ (hgoes.mem_successors hedges hlast)
  rw [hpred, List.mem_singleton] at hmember
  subst hmember
  obtain rfl : branch = last := Option.some.inj (hbranch.symm.trans hlast)
  simp only [Machine.GoesTo, hbr] at hgoes
  obtain ⟨x, hx, hblock⟩ := hgoes
  -- the branch has tested the result of the last comparison
  obtain ⟨block₁, rest₁, st₁, hrun₁, hexecuted, hvalues⟩ := hrun₀.lastExecuted htrace
  obtain ⟨result, hyields, hresult⟩ := hexecuted.exists_value
  simp only [Yields, hicmp] at hyields
  obtain ⟨a, b, ha, hb, rfl⟩ := hyields
  have hread : st₀.read mod comparison = st₀.values comparison := by simp [State.read, hicmp]
  obtain rfl := Option.some.inj ((hx.symm.trans hread).trans (hvalues.trans hresult))
  have hsingle : ¬ (ifTrue = block ∧ ifFalse = block) := by
    rintro ⟨htrue, hfalse⟩
    have hcount := hlaws.predecessors_count block pred'
    rw [hpred, hedges.successors_br _ _ _ _ _ hlast hbr, htrue, hfalse] at hcount
    simp at hcount
  exact ⟨block₁, rest₁, st₁, hrun₁, hexecuted, a, b, ha, hb, eq_of_taken htests hsingle hblock⟩

omit [DecidableEq V] [DecidableEq B] in
/-- A pointer that is compared with null is a pointer, and an operand; so is the null. -/
theorem operands_of_pointerComparedWithNull {lhs rhs pointer : V}
    (h : pointerComparedWithNull mod lhs rhs = some pointer) :
    (mod.type pointer).isPointerTy = true ∧
      (isNullValue mod lhs = true ∧ pointer = rhs ∨
        isNullValue mod rhs = true ∧ pointer = lhs) := by
  unfold pointerComparedWithNull at h
  split_ifs at h with hlhs hrhs
  · obtain rfl := Option.some.inj h
    rw [Bool.and_eq_true] at hlhs
    exact ⟨hlhs.2, Or.inl ⟨hlhs.1, rfl⟩⟩
  · obtain rfl := Option.some.inj h
    rw [Bool.and_eq_true] at hrhs
    exact ⟨hrhs.2, Or.inr ⟨hrhs.1, rfl⟩⟩

/-- **The compared pointer was null**, when the comparison that has sent a run to its block was
executed. -/
theorem compared_null (hlaws : PointerLaws mod answers) {f : F} (hf : f ∈ mod.functions)
    (hedges : HasEdges mod f) {block : B} {rest : List V} {trace : List (V × State V)}
    {st : State V} (hrun : Run mod f block rest st trace) {pointer comparison : V}
    (h : nullOnEntry mod block = some pointer)
    (hcomparison : entryComparison mod block = some comparison) {compared : State V}
    {earlier : List (V × State V)}
    (htrace : upTo comparison trace = (comparison, compared) :: earlier)
    (hkeep : ∀ operand ∈ (mod.value comparison).operandValues, isNullValue mod operand = true →
      CastsKeep mod compared operand) :
    (mod.type pointer).isPointerTy = true ∧ compared.read mod pointer = some nullWord ∧
      ∃ block₁ rest₁ st₁, Run mod f block₁ (comparison :: rest₁) st₁ earlier ∧
        ∀ v, (mod.type v).isPointerTy = true → compared.read mod v = st₁.read mod v := by
  obtain ⟨pred, branch, ifTrue, ifFalse, predicate, lhs, rhs, hpred, hbranch, hbr, hicmp, hpointer,
    htests⟩ := branch_of_nullOnEntry hlaws h hcomparison
  obtain ⟨block₁, rest₁, st₁, hrun₁, hexecuted, a, b, ha, hb, heq⟩ :=
    equal_on_entry hlaws hf hedges hrun hpred hbranch hbr hicmp htests htrace
  obtain ⟨htype, hoperands⟩ := operands_of_pointerComparedWithNull hpointer
  have hnoPointer : noPointer mod comparison = true := by simp [noPointer, hicmp]
  have hsame : ∀ v, (mod.type v).isPointerTy = true → compared.read mod v = st₁.read mod v := by
    intro v hv
    refine read_of_executes hexecuted ?_
    rintro rfl
    rw [hlaws.isPointerTy_of_noPointer _ hnoPointer] at hv
    cases hv
  have hnull : ∀ v ∈ [lhs, rhs], isNullValue mod v = true → st₁.read mod v = some nullWord := by
    intro v hv hnull
    rw [← read_of_executes hexecuted (ne_of_isNullValue hlaws hnull hnoPointer)]
    exact (hkeep v (by rw [hicmp]; exact hv) hnull).read_null hnull
  refine ⟨htype, ?_, block₁, rest₁, st₁, hrun₁, hsame⟩
  rw [hsame pointer htype]
  rcases hoperands with ⟨hlhs, rfl⟩ | ⟨hrhs, rfl⟩
  · obtain rfl := Option.some.inj (ha.symm.trans (hnull lhs (by simp) hlhs))
    have hwidth := width_of_read hlaws hrun₁ htype hb
    obtain ⟨width, bits⟩ := b
    obtain rfl : width = 64 := hwidth
    rw [hb]
    exact congrArg some (eq_nullWord rfl (by simpa [nullWord] using heq.symm))
  · obtain rfl := Option.some.inj (hb.symm.trans (hnull rhs (by simp) hrhs))
    rw [ha]
    exact congrArg some (eq_nullWord (width_of_read hlaws hrun₁ htype ha)
      (heq.trans (by simp [nullWord])))

omit [DecidableEq B] in
/-- **A pointer that has been loaded** is what its slot held then. -/
theorem read_of_lastLoad {f : F} {block : B} {rest : List V} {trace before : List (V × State V)}
    {st loaded : State V} (hrun : Run mod f block rest st trace) {v slot : V}
    (hv : (mod.type v).isPointerTy = true) (hslot : loadedSlot mod v = some slot)
    (hkind : (mod.value slot).isAlloca = true ∨ (mod.value slot).isArgument = true)
    (htrace : upTo v trace = (v, loaded) :: before) (hwidth : (loaded.memory slot).1 = 64) :
    st.read mod v = some (loaded.memory slot) := by
  obtain ⟨block₁, rest₁, st₁, -, hload, hvalues⟩ := hrun.lastExecuted htrace
  have hmemory := memory_of_load hload ⟨slot, hslot⟩ hkind
  rw [read_of_loadedSlot hslot, hvalues, hmemory,
    values_of_load hload hslot hv (by rw [← hmemory]; exact hwidth)]

/-- **The same pointer is null as well**. -/
theorem SamePointer.read_null (hlaws : PointerLaws mod answers) {f : F} {block block₁ : B}
    {rest rest₁ : List V} {trace earlier : List (V × State V)} {st st₁ compared : State V}
    {base pointer : V} (h : SamePointer mod answers trace st base earlier compared pointer)
    (hrun : Run mod f block rest st trace) (hrun₁ : Run mod f block₁ rest₁ st₁ earlier)
    (hsame : ∀ v, (mod.type v).isPointerTy = true → compared.read mod v = st₁.read mod v)
    (hbase : (mod.type base).isPointerTy = true) (hpointer : (mod.type pointer).isPointerTy = true)
    (hnull : compared.read mod pointer = some nullWord) : st.read mod base = some nullWord := by
  cases h with
  | object _ hcompared hread hkept => rw [hread, hkept, ← hcompared, hnull]
  | @slot slot v loaded loaded' _ _ hv hslot hslot' hkind hread htrace htrace' hmemory hwidth =>
    have hvtype : (mod.type v).isPointerTy = true :=
      hv ▸ isPointerTy_stripPointerAddressOps hlaws hpointer
    have hfirst := read_of_lastLoad hrun₁ hvtype hslot hkind htrace hwidth
    have hlast := read_of_lastLoad hrun hbase hslot' hkind htrace' (by rw [hmemory]; exact hwidth)
    rw [hlast, hmemory, ← hfirst, ← hsame v hvtype, ← hread, hnull]

/-! ## Reports -/

/-- Only pointers are reported. -/
theorem isPointerTy_of_kindOf {block : B} {inst pointer : V} {kind : NullDerefIssueKind}
    (h : kindOf mod answers block inst pointer = some kind) :
    (mod.type pointer).isPointerTy = true := by
  unfold kindOf at h
  split_ifs at h with htype <;> simpa using htype

/-- What is reported as null is the null constant. -/
theorem isNullValue_of_kindOf {block : B} {inst pointer : V}
    (h : kindOf mod answers block inst pointer = some .directNullPointer) :
    isNullValue mod pointer = true := by
  unfold kindOf at h
  split_ifs at h with _ hnull <;> first | exact hnull | cases h

/-- What is reported after a store has been loaded from the slot, and the store is the nearest
one. -/
theorem stored_of_kindOf {block : B} {inst pointer : V}
    (h : kindOf mod answers block inst pointer = some .nullStoredInLocalSlot) :
    ∃ slot, loadedSlot mod (stripPointerAddressOps mod answers pointer) = some slot ∧
      ∃ store, findNearestPrecedingStoreToSlot mod inst slot = some store ∧
        (storedIn mod slot store).any (isNullValue mod) = true := by
  have hstored : precedingStoreSetsNull mod answers inst pointer = true := by
    unfold kindOf at h
    split_ifs at h with _ _ hstored <;> first | exact hstored | cases h
  unfold precedingStoreSetsNull at hstored
  split at hstored
  · next slot hslot =>
    rw [Bool.and_eq_true] at hstored
    obtain ⟨-, hstored⟩ := hstored
    split at hstored
    · next store hstore => exact ⟨slot, hslot, store, hstore, hstored⟩
    · cases hstored
  · cases hstored

/-- **Definite dereferences are definite**, if the accessed pointer is what the pass takes it for:
whenever the instruction of a report is about to be executed, and what its kind needs holds, the
base of the accessed pointer is null. -/
theorem null_of_definite (hlaws : PointerLaws mod answers)
    (hedges : ∀ f ∈ mod.functions, HasEdges mod f) {shouldAnalyze : F → Bool}
    {issue : NullDerefIssue V}
    (hissue : issue ∈ analyzeNullDereferences mod answers shouldAnalyze) :
    ∀ f ∈ mod.functions, ∀ block rest st trace, Run mod f block (issue.inst :: rest) st trace →
      ∀ pointer base, dereferencedPointer mod answers issue.inst = some pointer →
        BaseOf mod answers pointer base →
        Definite mod answers block trace st issue.inst base issue.kind →
          st.read mod base = some nullWord := by
  intro f hf block rest st trace hrun pointer base hpointer hbase hdefinite
  obtain ⟨f', block', pointer', hf', hblock', hinst, hpointer', hkind⟩ := reported_of_mem hissue
  obtain rfl : pointer = pointer' := Option.some.inj (hpointer.symm.trans hpointer')
  have hptype := isPointerTy_of_kindOf hkind
  have hbtype := hbase.isPointerTy hlaws hptype
  generalize issue.kind = kind at hkind hdefinite
  cases hdefinite with
  | direct => exact hbase.read_of_isNullValue (isNullValue_of_kindOf hkind) st
  | stored hslot hstore hvalue htrace hunchanged hkeep =>
    obtain ⟨slot', hslot', store', hstore', hnull⟩ := stored_of_kindOf hkind
    rw [← hbase.eq_of_loadedSlot hlaws hslot'] at hslot'
    obtain rfl := Option.some.inj (hslot.symm.trans hslot')
    obtain rfl := Option.some.inj (hstore.symm.trans hstore')
    rw [hvalue] at hnull
    exact null_of_stored hlaws hrun hbtype hslot hvalue hnull htrace hunchanged hkeep
  | branch hentry hcomparison htrace hkeep hsame =>
    obtain ⟨hctype, hnull, block₁, rest₁, st₁, hrun₁, hread⟩ :=
      compared_null hlaws hf (hedges f hf) hrun hentry hcomparison htrace hkeep
    exact hsame.read_null hlaws hrun hrun₁ hread hbtype hctype hnull

/-! ## A pointer that gets another value on the branch -/

section Checked

/-- The example has three blocks. -/
theorem neZero_three : NeZero 3 := ⟨three_ne_zero⟩

attribute [local instance] neZero_three

/-- The values of `int x; int *p = NULL; if (p == NULL) { s; *p = 1; }`, where `s` is `p = &x;` or
`x = 1;`: the number one, the variables, null, the store to `p`, the comparison of it and the
branch, the statement, the access and the return. -/
def checkedValue (reassigned : Bool) : Fin 13 → Value (Fin 13) (Fin 3) Unit
  | 0 => .constantInt 32 1
  | 1 => .alloca (.int ⟨32, isWidth_thirtyTwo⟩) 0 false
  | 2 => .alloca .ptr 0 false
  | 3 => .constantPointerNull
  | 4 => .store 3 2
  | 5 => .load 2
  | 6 => .icmp .eq 5 3
  | 7 => .br 6 1 2
  | 8 => if reassigned then .store 1 2 else .store 0 1
  | 9 => .load 2
  | 10 => .store 0 9
  | 11 => .instruction
  | 12 => .ret

/-- The types of these values. -/
def checkedType : Fin 13 → Ty
  | 0 => .int ⟨32, isWidth_thirtyTwo⟩
  | 1 | 2 | 3 | 5 | 9 => .ptr
  | 6 => .int ⟨1, isWidth_one⟩
  | _ => .other

/-- Where its blocks go on. -/
def checkedSuccessors : Fin 3 → List (Fin 3)
  | 0 => [1, 2]
  | 1 => [2]
  | 2 => []

/-- The module of this function. -/
def checked (reassigned : Bool) : Module Unit (Fin 13) (Fin 3) :=
  singleFunction (checkedValue reassigned) checkedType
    (fun
      | 0 => [1, 2, 4, 5, 6, 7]
      | 1 => [8, 9, 10, 11]
      | 2 => [12])
    checkedSuccessors (by decide)

/-- LLVM has nothing to add. -/
def checkedAnswers : Answers Unit (Fin 13) where
  atomicPointerOperand _ := none
  constantGepPointer _ := none
  underlyingObject v := v
  callDereferenceable _ := false
  functionNonNull _ := false
  functionDereferenceable _ := false

/-- Its pointers are typed. -/
theorem checked_laws (reassigned : Bool) : PointerLaws (checked reassigned) checkedAnswers where
  strip_strip _ := rfl
  strip_other _ _ := rfl
  strip_pointer _ h := h
  gep_pointer v _ h := by
    cases reassigned <;> fin_cases v <;> cases h
  isPointerTy_of_noPointer v h := by
    cases reassigned <;> fin_cases v <;> first | rfl | cases h
  predecessors_count := by decide +revert

/-- Its blocks are connected. -/
theorem checked_hasEdges (reassigned : Bool) : HasEdges (checked reassigned) () := by
  refine singleFunction_hasEdges (by decide) ?_ (by decide)
  intro block last cond ifTrue ifFalse hlast hvalue
  fin_cases block <;> cases hlast <;> cases hvalue
  rfl

/-- The access is reported. -/
theorem checked_reported (reassigned : Bool) :
    ∃ issue ∈ analyzeNullDereferences (checked reassigned) checkedAnswers fun _ => true,
      issue.inst = 10 ∧ issue.kind = .nullBranchDereference := by
  cases reassigned
  all_goals exact ⟨⟨[], [], "<pointer>".toList, 10, .nullBranchDereference⟩,
    List.mem_singleton.mpr rfl, rfl, rfl⟩

/-- At the beginning, nothing has a value. -/
def checkedStart : State (Fin 13) where
  values _ := none
  memory _ := ⟨64, 0⟩

/-- What the instructions before the access give, the last one first. -/
def checkedResults (pointer : Word) : List (Fin 13 × Word) :=
  [(9, pointer), (8, ⟨0, 0⟩), (7, ⟨0, 0⟩), (6, ⟨1, 1⟩), (5, ⟨64, 0⟩), (4, ⟨0, 0⟩), (2, ⟨64, 32⟩),
    (1, ⟨64, 16⟩)]

/-- The run up to the access: with the first statement, the pointer is the address of `x`. -/
theorem checked_run (reassigned : Bool) :
    Run (checked reassigned) () 1 [10, 11]
      (checkedStart.afterAll (checked reassigned)
        (checkedResults (if reassigned then ⟨64, 16⟩ else ⟨64, 0⟩)))
      (checkedStart.traceOf (checked reassigned)
        (checkedResults (if reassigned then ⟨64, 16⟩ else ⟨64, 0⟩))) := by
  have hinitial : Initial (checked reassigned) () checkedStart :=
    ⟨fun _ _ => rfl, fun _ _ h => by cases h⟩
  have hstart := Run.start (checked reassigned) () 0 rfl hinitial
  have hx := hstart.after ⟨64, 16⟩ trivial rfl (by rintro value pointer ⟨⟩)
  have hp := hx.after ⟨64, 32⟩ trivial rfl (by rintro value pointer ⟨⟩)
  have hnull := hp.after ⟨0, 0⟩ trivial rfl (by rintro value pointer ⟨⟩; rfl)
  have hload := hnull.after ⟨64, 0⟩ (fun _ => rfl) rfl (by rintro value pointer ⟨⟩)
  have hcompare := hload.after ⟨1, 1⟩ ⟨_, _, rfl, rfl, rfl⟩ rfl (by rintro value pointer ⟨⟩)
  have hbranch := hcompare.after ⟨0, 0⟩ trivial rfl (by rintro value pointer ⟨⟩)
  have hbody : Run (checked reassigned) () 1 _ _ _ := hbranch.jumpTo ⟨_, rfl, rfl⟩
  cases reassigned
  · have hstatement := hbody.after ⟨0, 0⟩ trivial rfl (by rintro value pointer ⟨⟩; rfl)
    exact hstatement.after ⟨64, 0⟩ (fun _ => rfl) rfl (by rintro value pointer ⟨⟩)
  · have hstatement := hbody.after ⟨0, 0⟩ trivial rfl (by rintro value pointer ⟨⟩; rfl)
    exact hstatement.after ⟨64, 16⟩ (fun _ => rfl) rfl (by rintro value pointer ⟨⟩)

/-- The theorem at the access, when the statement does not change the pointer. -/
theorem null_of_definite_kept :
    (checkedStart.afterAll (checked false) (checkedResults ⟨64, 0⟩)).read (checked false) 9 =
      some nullWord := by
  obtain ⟨issue, hissue, hinst, hkind⟩ := checked_reported false
  have hrun := checked_run false
  have hbase : BaseOf (checked false) checkedAnswers 9 9 := .base rfl
  refine null_of_definite (checked_laws false) (fun _ _ => checked_hasEdges false) hissue ()
    (List.mem_singleton_self _) 1 [11] _ _ (hinst ▸ hrun) 9 9 (hinst ▸ rfl) hbase ?_
  rw [hkind]
  -- both loads of the pointer read the same slot
  refine .branch (show nullOnEntry (checked false) 1 = some 5 from rfl)
    (show entryComparison (checked false) 1 = some 6 from rfl) rfl (fun _ _ _ => rfl) ?_
  exact .slot rfl (show loadedSlot (checked false) 5 = some 2 from rfl) rfl (Or.inl rfl) rfl rfl rfl
    rfl rfl

/-- **Reports are not definite**: with the other statement, the accessed pointer is the address of a
variable. -/
theorem not_definiteReports_reassigned :
    ¬ DefiniteReports (checked true) checkedAnswers fun _ => true := by
  intro h
  obtain ⟨issue, hissue, hinst, hkind⟩ := checked_reported true
  have hread := h issue hissue (by rw [hkind]; exact nofun) () (List.mem_singleton_self _) 1 [11]
    _ _ (hinst ▸ checked_run true) 9 9 (hinst ▸ rfl) (.base rfl)
  exact absurd hread (by decide)

end Checked

end StackAnalyzer.NullDeref
