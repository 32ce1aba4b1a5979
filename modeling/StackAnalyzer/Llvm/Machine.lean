import StackAnalyzer.Llvm.Executions

set_option relaxedAutoImplicit false
set_option autoImplicit false

/-!
# Runs with memory

Runs of functions that remember what is stored. The contents of memory are those of the pointers of
the function, as far as loads and stores through them go: a store through a pointer sets what is
stored there, and leaves alone what is stored in another variable; anything else that may write may
leave any contents. Results that do not matter here, like those of calls and phis, may be any word,
so each real run is one of these. Poison is left out.

## Main definitions

* `StackAnalyzer.Llvm.Word` — values of integers and pointers.
* `StackAnalyzer.Llvm.Machine.State` — the values of instructions, and the contents of memory.
* `StackAnalyzer.Llvm.Machine.mayWrite` — which instructions may change what is stored at a pointer.
* `StackAnalyzer.Llvm.Machine.Executes` — the steps of a run.
* `StackAnalyzer.Llvm.Machine.Run` — the runs of a function.

## Main results

* `StackAnalyzer.Llvm.Machine.Steps.values_eq`, `StackAnalyzer.Llvm.Machine.Steps.memory_eq` — what
  steps leave alone.
* `StackAnalyzer.Llvm.Machine.Steps.memory_of_store` — the last store decides what is stored.
* `StackAnalyzer.Llvm.Machine.Run.hasWidth` — values are of their types.
* `StackAnalyzer.Llvm.Machine.Run.executed` — each member of a trace has been executed.
* `StackAnalyzer.Llvm.Machine.Run.lastExecuted` — the last execution of an instruction.
* `StackAnalyzer.Llvm.Machine.Run.predecessor` — how a block has been entered.
* `StackAnalyzer.Llvm.Machine.Run.holdsAt` — what holds whenever a block is entered.
-/

namespace StackAnalyzer.Llvm

/-- The bits of an integer or a pointer, with their number. -/
abbrev Word := (width : ℕ) × BitVec width

namespace Machine

variable {F V B : Type*} (mod : Module F V B)

/-! ## States -/

/-- What a run knows: the value that each instruction and argument has, and what is stored at each
pointer. -/
structure State (V : Type*) where
  values : V → Option Word
  memory : V → Word

/-- The value of an operand. -/
def State.read (st : State V) (v : V) : Option Word :=
  match mod.value v with
  | .constantInt width bits => some ⟨width, bits⟩
  | .constantPointerNull => some ⟨64, 0⟩
  | _ => st.values v

/-- The number of bits of integers and pointers. -/
def wordWidth (v : V) : Option ℕ :=
  match mod.type v with
  | .int width => some width.val
  | .ptr => some 64
  | _ => none

/-- A word has as many bits as a value of its type. -/
def HasWidth (v : V) (x : Word) : Prop :=
  (wordWidth mod v).all (fun width => decide (x.1 = width)) = true

/-- The pointer through which a load or a store goes: casts change nothing. -/
def target (pointer : V) : V := mod.stripPointerCasts pointer

/-- A pointer to an object of its own. -/
def isObject (v : V) : Bool :=
  match mod.value v with
  | .alloca _ _ _ | .globalVariable _ => true
  | _ => false

/-- The last instruction of its block. Among these, only calls write. -/
def isTerminator [DecidableEq V] (inst : V) : Bool :=
  decide ((mod.instructions (mod.parent inst)).getLast? = some inst)

variable [DecidableEq V]

/-- What an instruction stores at a pointer, if it is a store through that pointer. -/
def directStore (key inst : V) : Option V :=
  match mod.value inst with
  | .store value pointer => if target mod pointer = key then some value else none
  | _ => none

/-- An instruction may change what is stored at a pointer: it computes the pointer anew, or it
stores there, or somewhere that is no other object, or it is unknown what it does. -/
def mayWrite (key inst : V) : Bool :=
  decide (inst = key) ||
    match mod.value inst with
    | .store _ pointer =>
      decide (target mod pointer = key) || !(isObject mod (target mod pointer) && isObject mod key)
    | .call call =>
      match call.intrinsic with
      | some (.dbgVariable _ _) | some .dbgInfo | some .assume => false
      | _ => true
    | .instruction | .other => !isTerminator mod inst
    | _ => false

/-! ## Steps -/

/-- The result of a cast. -/
def castWord (op : CastInst) (width : ℕ) (x : Word) : Word :=
  match op with
  | .sext => ⟨width, x.2.signExtend width⟩
  | .zext | .trunc => ⟨width, x.2.setWidth width⟩
  | .bitcast | .other => x

/-- The results that an instruction may have. -/
def Yields (st : State V) (inst : V) (result : Word) : Prop :=
  match mod.value inst with
  | .cast op operand => ∃ x, st.read mod operand = some x ∧
      match op with
      | .sext | .zext | .trunc => result = castWord op (mod.bitWidth inst) x
      | .bitcast => wordWidth mod inst = wordWidth mod operand →
          (wordWidth mod inst).isSome = true → result = x
      | .other => True
  | .icmp pred lhs rhs => ∃ x y, st.read mod lhs = some x ∧ st.read mod rhs = some y ∧
      result = ⟨1, BitVec.ofBool (pred.holds x.2 (y.2.setWidth x.1))⟩
  | .binary op nsw nuw lhs rhs => ∃ x y, st.read mod lhs = some x ∧ st.read mod rhs = some y ∧
      (op ≠ .other → ∀ c, op.Result nsw nuw x.2 (y.2.setWidth x.1) c → result = ⟨x.1, c⟩)
  | .freeze operand => st.read mod operand = some result
  | .select cond ifTrue ifFalse => ∃ x, st.read mod cond = some x ∧
      st.read mod (if x.2 = 0 then ifFalse else ifTrue) = some result
  | .load pointer =>
      wordWidth mod inst = some (st.memory (target mod pointer)).1 →
        result = st.memory (target mod pointer)
  | _ => True

/-- What may be stored after an instruction. -/
def Stores (st : State V) (inst : V) (memory : V → Word) : Prop :=
  ∀ key, match directStore mod key inst with
    | some value => st.read mod value = some (memory key)
    | none => mayWrite mod key inst = false → memory key = st.memory key

/-- **A step**: an instruction is executed. -/
structure Executes (st : State V) (inst : V) (st' : State V) : Prop where
  result : ∃ result, Yields mod st inst result ∧ HasWidth mod inst result ∧
    st'.values = Function.update st.values inst (some result)
  memory : Stores mod st inst st'.memory

/-- Some steps; the last one comes first in the list, which has each instruction with the state
after it. -/
inductive Steps (st : State V) : List (V × State V) → State V → Prop
  | nil : Steps st [] st
  | cons {trace : List (V × State V)} {st' st'' : State V} {inst : V} :
      Steps st trace st' → Executes mod st' inst st'' → Steps st ((inst, st'') :: trace) st''

/-- Where a run goes on after the last instruction of a block. -/
def GoesTo (st : State V) (block : B) (last : V) (next : B) : Prop :=
  match mod.value last with
  | .br cond ifTrue ifFalse =>
    ∃ x, st.read mod cond = some x ∧ next = if x.2 = 0 then ifFalse else ifTrue
  | _ => next ∈ mod.successors block

/-- At the beginning, no instruction has a value, and all other values are of their types. -/
structure Initial (f : F) (st : State V) : Prop where
  none : ∀ v ∈ mod.functionInstructions f, st.values v = none
  hasWidth : ∀ v x, st.values v = some x → HasWidth mod v x

/-- **The runs of a function**: the block, the instructions of it that are left, the state, and all
steps so far, the last one first. -/
inductive Run (f : F) : B → List V → State V → List (V × State V) → Prop
  | entry {block : B} {st : State V} :
      (mod.blocks f).head? = some block → Initial mod f st →
      Run f block (mod.instructions block) st []
  | step {block : B} {inst : V} {rest : List V} {trace : List (V × State V)} {st st' : State V} :
      Run f block (inst :: rest) st trace → Executes mod st inst st' →
      Run f block rest st' ((inst, st') :: trace)
  | jump {block next : B} {last : V} {trace : List (V × State V)} {st st' : State V} :
      Run f block [] st ((last, st') :: trace) → GoesTo mod st block last next →
      Run f next (mod.instructions next) st ((last, st') :: trace)

variable {mod}

/-! ## What a step leaves alone -/

/-- A store through a pointer may change what is stored there. -/
theorem mayWrite_of_directStore {key inst value : V} (h : directStore mod key inst = some value) :
    mayWrite mod key inst = true := by
  unfold directStore at h
  split at h
  · next pointer hvalue =>
    split_ifs at h with htarget
    simp [mayWrite, hvalue, htarget]
  · cases h

/-- An instruction that may not write leaves alone what is stored. -/
theorem Executes.memory_eq {st st' : State V} {inst key : V} (h : Executes mod st inst st')
    (hkey : mayWrite mod key inst = false) : st'.memory key = st.memory key := by
  have hmemory := h.memory key
  cases hstore : directStore mod key inst with
  | some value => simp [mayWrite_of_directStore hstore] at hkey
  | none =>
    rw [hstore] at hmemory
    exact hmemory hkey

/-- A store through a pointer sets what is stored there. -/
theorem Executes.memory_of_directStore {st st' : State V} {inst key value : V}
    (h : Executes mod st inst st') (hstore : directStore mod key inst = some value) :
    st.read mod value = some (st'.memory key) := by
  have hmemory := h.memory key
  rwa [hstore] at hmemory

/-- Other values stay. -/
theorem Executes.values_eq {st st' : State V} {inst v : V} (h : Executes mod st inst st')
    (hv : v ≠ inst) : st'.values v = st.values v := by
  obtain ⟨result, -, -, hvalues⟩ := h.result
  rw [hvalues, Function.update_of_ne hv]

/-- The instruction has one of its results. -/
theorem Executes.exists_value {st st' : State V} {inst : V} (h : Executes mod st inst st') :
    ∃ result, Yields mod st inst result ∧ st'.values inst = some result := by
  obtain ⟨result, hyields, -, hvalues⟩ := h.result
  exact ⟨result, hyields, by rw [hvalues, Function.update_self]⟩

/-- A load gives what is stored, if it is of the type. -/
theorem Executes.loads {st st' : State V} {load pointer key : V} {x : Word}
    (h : Executes mod st load st') (hload : mod.value load = .load pointer)
    (hpointer : target mod pointer = key) (hmemory : st.memory key = x)
    (hwidth : wordWidth mod load = some x.1) : st'.values load = some x := by
  obtain ⟨result, hyields, hresult⟩ := h.exists_value
  unfold Yields at hyields
  rw [hload] at hyields
  simp only [hpointer, hmemory] at hyields
  rw [hresult, hyields hwidth]

/-- Values stay of their types. -/
theorem Executes.hasWidth {st st' : State V} {inst : V} (h : Executes mod st inst st')
    (hst : ∀ v x, st.values v = some x → HasWidth mod v x) {v : V} {x : Word}
    (hx : st'.values v = some x) : HasWidth mod v x := by
  obtain ⟨result, -, hwidth, hvalues⟩ := h.result
  rw [hvalues] at hx
  by_cases hv : v = inst
  · subst hv
    rw [Function.update_self] at hx
    rwa [← Option.some.inj hx]
  · rw [Function.update_of_ne hv] at hx
    exact hst v x hx

/-! ## Sequences of steps -/

/-- One list of steps after another. -/
theorem Steps.append_iff {st st'' : State V} {after before : List (V × State V)} :
    Steps mod st (after ++ before) st'' ↔
      ∃ st', Steps mod st before st' ∧ Steps mod st' after st'' := by
  induction after generalizing st'' with
  | nil =>
    refine ⟨fun h => ⟨st'', h, .nil⟩, ?_⟩
    rintro ⟨st', h, h'⟩
    cases h'
    exact h
  | cons event after ih =>
    constructor
    · rintro (_ | ⟨h, hinst⟩)
      obtain ⟨st', hbefore, hafter⟩ := ih.mp h
      exact ⟨st', hbefore, .cons hafter hinst⟩
    · rintro ⟨st', hbefore, _ | ⟨hafter, hinst⟩⟩
      exact .cons (ih.mpr ⟨st', hbefore, hafter⟩) hinst

/-- The step of one instruction of a list that has been executed in order. -/
theorem Steps.at_inst {st st' : State V} {trace : List (V × State V)} {done rest : List V}
    {inst : V} (h : Steps mod st trace st')
    (htrace : trace.map Prod.fst = (done ++ inst :: rest).reverse) :
    ∃ s s' after before, Steps mod st before s ∧ before.map Prod.fst = done.reverse ∧
      Executes mod s inst s' ∧ Steps mod s' after st' ∧ after.map Prod.fst = rest.reverse := by
  rw [List.reverse_append, List.reverse_cons, List.append_assoc] at htrace
  obtain ⟨after, here, rfl, hafter, hhere⟩ := List.map_eq_append_iff.mp htrace
  obtain ⟨event, before, rfl, rfl, hbefore⟩ := List.map_eq_cons_iff.mp hhere
  obtain ⟨s', hsteps, hrest⟩ := Steps.append_iff.mp h
  obtain _ | ⟨hsteps, hinst⟩ := hsteps
  exact ⟨_, _, after, before, hsteps, hbefore, hinst, hrest, hafter⟩

/-- **Values stay** until their instruction is executed again. -/
theorem Steps.values_eq {st st' : State V} {trace : List (V × State V)} {v : V}
    (h : Steps mod st trace st') (hv : ∀ event ∈ trace, event.1 ≠ v) :
    st'.values v = st.values v := by
  induction h with
  | nil => rfl
  | cons _ hinst ih =>
    rw [hinst.values_eq (hv _ List.mem_cons_self).symm,
      ih fun event hmem => hv event (List.mem_cons_of_mem _ hmem)]

/-- A value has been given by the last execution of its instruction. -/
theorem Steps.exists_last {st st' : State V} {trace : List (V × State V)} {v : V} {x : Word}
    (h : Steps mod st trace st') (hx : st'.values v = some x) (hnone : st.values v = none) :
    ∃ after s s' before, trace = after ++ (v, s') :: before ∧ Steps mod st before s ∧
      Executes mod s v s' ∧ Steps mod s' after st' ∧ ∀ event ∈ after, event.1 ≠ v := by
  induction h with
  | nil =>
    rw [hnone] at hx
    cases hx
  | @cons trace s s' inst hsteps hinst ih =>
    by_cases hv : inst = v
    · subst hv
      exact ⟨[], s, s', trace, rfl, hsteps, hinst, .nil, fun _ h => absurd h List.not_mem_nil⟩
    · rw [hinst.values_eq (Ne.symm hv)] at hx
      obtain ⟨after, s₁, s₂, before, rfl, hbefore, hlast, hafter, hne⟩ := ih hx
      refine ⟨(inst, s') :: after, s₁, s₂, before, rfl, hbefore, hlast, hafter.cons hinst, ?_⟩
      intro event hevent
      rcases List.mem_cons.mp hevent with rfl | hevent
      · exact hv
      · exact hne event hevent

/-- **What is stored stays** until some instruction may write there. -/
theorem Steps.memory_eq {st st' : State V} {trace : List (V × State V)} {key : V}
    (h : Steps mod st trace st') (hkey : ∀ event ∈ trace, mayWrite mod key event.1 = false) :
    st'.memory key = st.memory key := by
  induction h with
  | nil => rfl
  | cons _ hinst ih =>
    rw [hinst.memory_eq (hkey _ List.mem_cons_self),
      ih fun event hmem => hkey event (List.mem_cons_of_mem _ hmem)]

/-- Values that are not those of some instructions stay when these are executed. -/
theorem Steps.values_of_insts {st st' : State V} {trace : List (V × State V)} {insts : List V}
    {v : V} (h : Steps mod st trace st') (hinsts : trace.map Prod.fst = insts.reverse)
    (hv : v ∉ insts) : st'.values v = st.values v := by
  refine h.values_eq fun event hevent heq => hv ?_
  rw [← heq, ← List.mem_reverse, ← hinsts]
  exact List.mem_map_of_mem hevent

/-- What is stored stays when some instructions are executed that may not write there. -/
theorem Steps.memory_of_insts {st st' : State V} {trace : List (V × State V)} {insts : List V}
    {key : V} (h : Steps mod st trace st') (hinsts : trace.map Prod.fst = insts.reverse)
    (hkey : ∀ inst ∈ insts, mayWrite mod key inst = false) : st'.memory key = st.memory key := by
  refine h.memory_eq fun event hevent => hkey event.1 ?_
  rw [← List.mem_reverse, ← hinsts]
  exact List.mem_map_of_mem hevent

/-- What is stored at a pointer has been the same since some state. -/
def Unchanged (key : V) (st : State V) (after : List (V × State V)) : Prop :=
  ∀ event ∈ after, event.2.memory key = st.memory key

/-- So it still is what it was then. -/
theorem Steps.memory_of_unchanged {st st' : State V} {trace : List (V × State V)} {key : V}
    (h : Steps mod st trace st') (hkey : Unchanged key st trace) :
    st'.memory key = st.memory key := by
  cases h with
  | nil => rfl
  | cons _ _ => exact hkey _ List.mem_cons_self

/-- **The last store decides** what is stored, if it has not changed since. -/
theorem Steps.memory_of_store {st st' st₁ : State V} {after before : List (V × State V)}
    {key store value : V} (h : Steps mod st (after ++ (store, st₁) :: before) st')
    (hkey : Unchanged key st₁ after) (hstore : directStore mod key store = some value) :
    ∃ st₀, Steps mod st before st₀ ∧ st₀.read mod value = some (st'.memory key) := by
  obtain ⟨st₂, hsteps, hrest⟩ := Steps.append_iff.mp h
  obtain _ | ⟨hbefore, hinst⟩ := hsteps
  refine ⟨_, hbefore, ?_⟩
  rw [hinst.memory_of_directStore hstore, hrest.memory_of_unchanged hkey]

/-! ## Runs -/

variable {f : F}

/-- A run is a sequence of steps from an initial state. -/
theorem Run.steps {block : B} {rest : List V} {trace : List (V × State V)} {st : State V}
    (h : Run mod f block rest st trace) : ∃ st₀, Initial mod f st₀ ∧ Steps mod st₀ trace st := by
  induction h with
  | entry _ hinitial => exact ⟨_, hinitial, .nil⟩
  | step _ hinst ih =>
    obtain ⟨st₀, hinitial, hsteps⟩ := ih
    exact ⟨st₀, hinitial, .cons hsteps hinst⟩
  | jump _ _ ih => exact ih

/-- **Values are of their types** in all runs. -/
theorem Run.hasWidth {block : B} {rest : List V} {trace : List (V × State V)} {st : State V}
    (h : Run mod f block rest st trace) : ∀ v x, st.values v = some x → HasWidth mod v x := by
  induction h with
  | entry _ hinitial => exact hinitial.hasWidth
  | step _ hinst ih => exact fun v x hx => hinst.hasWidth ih hx
  | jump _ _ ih => exact ih

/-- **Each member of a trace has been executed**, in a run that has been there before. -/
theorem Run.executed {block : B} {rest : List V} {trace : List (V × State V)} {st : State V}
    (h : Run mod f block rest st trace) {after before : List (V × State V)} {inst : V}
    {st₂ : State V} (htrace : trace = after ++ (inst, st₂) :: before) :
    ∃ block' rest' st₁, Run mod f block' (inst :: rest') st₁ before ∧
      Executes mod st₁ inst st₂ ∧ Steps mod st₂ after st := by
  induction h generalizing after with
  | entry => simp at htrace
  | step hrun hinst ih =>
    cases after with
    | nil =>
      obtain ⟨heq, rfl⟩ := List.cons.inj htrace
      obtain ⟨rfl, rfl⟩ := Prod.mk.inj heq
      exact ⟨_, _, _, hrun, hinst, .nil⟩
    | cons last after =>
      obtain ⟨rfl, htrace'⟩ := List.cons.inj htrace
      obtain ⟨block', rest', st₁, hrun', hinst', hsteps⟩ := ih htrace'
      exact ⟨block', rest', st₁, hrun', hinst', .cons hsteps hinst⟩
  | jump _ _ ih => exact ih htrace

/-- **How a block has been entered**: at the beginning, or by a jump; what has been executed of it
since is the first part of its instructions. -/
theorem Run.entered {block : B} {rest : List V} {trace : List (V × State V)} {st : State V}
    (h : Run mod f block rest st trace) :
    ∃ done st₀ recent earlier, mod.instructions block = done ++ rest ∧
      trace = recent ++ earlier ∧ recent.map Prod.fst = done.reverse ∧
      Steps mod st₀ recent st ∧
      ((mod.blocks f).head? = some block ∧ earlier = [] ∨
        ∃ pred last st₁ before, earlier = (last, st₁) :: before ∧ Run mod f pred [] st₀ earlier ∧
          GoesTo mod st₀ pred last block) := by
  induction h with
  | entry hhead _ => exact ⟨[], _, [], [], rfl, rfl, rfl, .nil, Or.inl ⟨hhead, rfl⟩⟩
  | @step block inst rest trace st st' _ hinst ih =>
    obtain ⟨done, st₀, recent, earlier, hblock, rfl, hdone, hsteps, hentry⟩ := ih
    refine ⟨done ++ [inst], st₀, (inst, st') :: recent, earlier, by simp [hblock], rfl,
      by simp [hdone], .cons hsteps hinst, hentry⟩
  | @jump block next last trace st st' hrun hgoes _ =>
    exact ⟨[], st, [], (last, st') :: trace, rfl, rfl, rfl, .nil,
      Or.inr ⟨block, last, st', trace, rfl, hrun, hgoes⟩⟩

/-! ## Last executions -/

/-- The trace up to the last execution of an instruction. -/
def upTo (v : V) (trace : List (V × State V)) : List (V × State V) :=
  trace.dropWhile fun event => decide (event.1 ≠ v)

/-- What comes after it does not execute the instruction. -/
theorem exists_of_upTo {v : V} {trace before : List (V × State V)} {event : V × State V}
    (h : upTo v trace = event :: before) :
    ∃ after, trace = after ++ event :: before ∧ ∀ event' ∈ after, event'.1 ≠ v := by
  refine ⟨trace.takeWhile fun event => decide (event.1 ≠ v), ?_, ?_⟩
  · rw [← h]
    exact List.takeWhile_append_dropWhile.symm
  · intro event' hevent'
    have hne := List.mem_takeWhile_imp
      (p := fun event : V × State V => decide (event.1 ≠ v)) hevent'
    exact of_decide_eq_true hne

/-- Other instructions do not matter. -/
theorem upTo_append {v : V} {after before : List (V × State V)}
    (h : ∀ event ∈ after, event.1 ≠ v) : upTo v (after ++ before) = upTo v before :=
  List.dropWhile_append_of_pos fun event hevent => decide_eq_true (h event hevent)

/-- **The last execution** of an instruction has given it the value that it has. -/
theorem Run.lastExecuted {block : B} {rest : List V} {trace before : List (V × State V)}
    {st st₂ : State V} {v : V} (h : Run mod f block rest st trace)
    (htrace : upTo v trace = (v, st₂) :: before) :
    ∃ block' rest' st₁, Run mod f block' (v :: rest') st₁ before ∧ Executes mod st₁ v st₂ ∧
      st.values v = st₂.values v := by
  obtain ⟨after, hafter, hne⟩ := exists_of_upTo htrace
  obtain ⟨block', rest', st₁, hrun, hinst, hsteps⟩ := h.executed hafter
  exact ⟨block', rest', st₁, hrun, hinst, hsteps.values_eq hne⟩

/-! ## Edges -/

omit [DecidableEq V] in
/-- An instruction stands in one block only. -/
theorem block_unique (hf : f ∈ mod.functions) {block block' : B} (hblock : block ∈ mod.blocks f)
    (hblock' : block' ∈ mod.blocks f) {v : V} (hv : v ∈ mod.instructions block)
    (hv' : v ∈ mod.instructions block') : block = block' := by
  by_contra hne
  have hsymm : Std.Symm (Function.onFun List.Disjoint mod.instructions) := ⟨fun _ _ h => h.symm⟩
  have hdisjoint : (mod.blocks f).Pairwise (Function.onFun List.Disjoint mod.instructions) :=
    (List.nodup_flatMap.mp ((List.nodup_flatMap.mp mod.nodup).1 f hf)).2
  exact hdisjoint.forall hblock hblock' hne hv hv'

variable (mod f) in
/-- What the verifier of LLVM guarantees about the blocks of a function. -/
structure HasEdges : Prop where
  nonempty : ∀ block, mod.instructions block ≠ []
  successors_mem : ∀ block ∈ mod.blocks f, ∀ next ∈ mod.successors block, next ∈ mod.blocks f
  successors_br : ∀ block last cond ifTrue ifFalse,
    (mod.instructions block).getLast? = some last → mod.value last = .br cond ifTrue ifFalse →
      mod.successors block = [ifTrue, ifFalse]
  mem_predecessors : ∀ block, ∀ next ∈ mod.successors block, block ∈ mod.predecessors next
  entry : ∀ block, (mod.blocks f).head? = some block → mod.predecessors block = []

/-- The last instruction of a block has been executed when it is left. -/
theorem Run.getLast?_of_nil {block : B} {last : V} {trace : List (V × State V)} {st st' : State V}
    (h : Run mod f block [] st ((last, st') :: trace)) (hne : mod.instructions block ≠ []) :
    (mod.instructions block).getLast? = some last := by
  obtain ⟨done, st₀, recent, earlier, hblock, htrace, hdone, -, -⟩ := h.entered
  rw [List.append_nil] at hblock
  rw [hblock] at hne ⊢
  obtain ⟨body, final, rfl⟩ := List.eq_nil_or_concat' done |>.resolve_left hne
  cases recent with
  | nil => simp at hdone
  | cons event recent =>
    obtain ⟨rfl, -⟩ := List.cons.inj htrace
    simp only [List.map_cons, List.reverse_append, List.reverse_cons, List.reverse_nil,
      List.nil_append, List.singleton_append, List.cons.injEq] at hdone
    simp [hdone.1]

omit [DecidableEq V] in
/-- A run goes on with a successor. -/
theorem GoesTo.mem_successors {block next : B} {last : V} {st : State V}
    (h : GoesTo mod st block last next) (hedges : HasEdges mod f)
    (hlast : (mod.instructions block).getLast? = some last) : next ∈ mod.successors block := by
  unfold GoesTo at h
  split at h
  · next cond ifTrue ifFalse hvalue =>
    obtain ⟨x, -, rfl⟩ := h
    rw [hedges.successors_br block last cond ifTrue ifFalse hlast hvalue]
    split_ifs <;> simp
  · exact h

/-- A run stays in its function. -/
theorem Run.block_mem {block : B} {rest : List V} {trace : List (V × State V)} {st : State V}
    (h : Run mod f block rest st trace) (hedges : HasEdges mod f) : block ∈ mod.blocks f := by
  induction h with
  | entry hhead _ => exact List.mem_of_mem_head? (by rw [hhead]; rfl)
  | step _ _ ih => exact ih
  | jump hrun hgoes ih =>
    exact hedges.successors_mem _ ih _
      (hgoes.mem_successors hedges (hrun.getLast?_of_nil (hedges.nonempty _)))

/-- **A block is entered at the beginning or from a predecessor**, after its last instruction. -/
theorem Run.predecessor {block : B} {rest : List V} {trace : List (V × State V)} {st : State V}
    (h : Run mod f block rest st trace) (hedges : HasEdges mod f) :
    (mod.blocks f).head? = some block ∨
      ∃ predecessor ∈ mod.predecessors block, ∃ last st₀ recent earlier,
        trace = recent ++ earlier ∧ Run mod f predecessor [] st₀ earlier ∧
          (mod.instructions predecessor).getLast? = some last ∧
          GoesTo mod st₀ predecessor last block := by
  obtain ⟨done, st₀, recent, earlier, -, htrace, -, -, hentry⟩ := h.entered
  rcases hentry with ⟨hhead, -⟩ | ⟨predecessor, last, st₁, before, rfl, hrun, hgoes⟩
  · exact Or.inl hhead
  · have hlast := hrun.getLast?_of_nil (hedges.nonempty predecessor)
    exact Or.inr ⟨predecessor, hedges.mem_predecessors _ _ (hgoes.mem_successors hedges hlast),
      last, st₀, recent, _, htrace, hrun, hlast, hgoes⟩

/-- **A block is entered** in the state in which a predecessor is left. -/
theorem Run.arrival {block : B} {trace : List (V × State V)} {st : State V}
    (h : Run mod f block (mod.instructions block) st trace) (hedges : HasEdges mod f) :
    (mod.blocks f).head? = some block ∨
      ∃ predecessor ∈ mod.predecessors block, ∃ last, Run mod f predecessor [] st trace ∧
        (mod.instructions predecessor).getLast? = some last ∧
        GoesTo mod st predecessor last block := by
  obtain ⟨done, st₀, recent, earlier, hblock, rfl, hdone, hsteps, hentry⟩ := h.entered
  obtain rfl : done = [] := by simpa using hblock
  obtain rfl : recent = [] := by simpa using hdone
  cases hsteps
  rcases hentry with ⟨hhead, -⟩ | ⟨predecessor, last, st₁, before, rfl, hrun, hgoes⟩
  · exact Or.inl hhead
  · have hlast := hrun.getLast?_of_nil (hedges.nonempty predecessor)
    exact Or.inr ⟨predecessor, hedges.mem_predecessors _ _ (hgoes.mem_successors hedges hlast),
      last, hrun, hlast, hgoes⟩

/-- **A block has been executed** when it is left. -/
theorem Run.whole {block : B} {trace : List (V × State V)} {st : State V}
    (h : Run mod f block [] st trace) :
    ∃ st₀ recent earlier, trace = recent ++ earlier ∧
      recent.map Prod.fst = (mod.instructions block).reverse ∧ Steps mod st₀ recent st := by
  obtain ⟨done, st₀, recent, earlier, hblock, htrace, hdone, hsteps, -⟩ := h.entered
  rw [List.append_nil] at hblock
  exact ⟨st₀, recent, earlier, htrace, by rw [hblock, hdone], hsteps⟩

/-- **What holds whenever a block is entered**: it holds at the beginning, and each block hands it
on to the next one. -/
theorem Run.holdsAt {block : B} {rest : List V} {trace : List (V × State V)} {st : State V}
    (h : Run mod f block rest st trace) (hedges : HasEdges mod f) (holdsAt : B → State V → Prop)
    (hentry : ∀ block st, (mod.blocks f).head? = some block → holdsAt block st)
    (hnext : ∀ block last next st recent st', holdsAt block st → Steps mod st recent st' →
      recent.map Prod.fst = (mod.instructions block).reverse →
      (mod.instructions block).getLast? = some last → GoesTo mod st' block last next →
      holdsAt next st') :
    ∃ done st₀ recent, mod.instructions block = done ++ rest ∧
      recent.map Prod.fst = done.reverse ∧ Steps mod st₀ recent st ∧ holdsAt block st₀ := by
  induction h with
  | entry hhead _ => exact ⟨[], _, [], rfl, rfl, .nil, hentry _ _ hhead⟩
  | @step block inst rest trace st st' _ hinst ih =>
    obtain ⟨done, st₀, recent, hblock, hdone, hsteps, hholds⟩ := ih
    exact ⟨done ++ [inst], st₀, (inst, st') :: recent, by simp [hblock], by simp [hdone],
      .cons hsteps hinst, hholds⟩
  | @jump block next last trace st st' hrun hgoes ih =>
    obtain ⟨done, st₀, recent, hblock, hdone, hsteps, hholds⟩ := ih
    rw [List.append_nil] at hblock
    have hlast := hrun.getLast?_of_nil (hedges.nonempty block)
    exact ⟨[], st, [], rfl, rfl, .nil,
      hnext block last next st₀ recent st hholds hsteps (by rw [hdone, hblock]) hlast hgoes⟩

/-! ## Runs of small modules -/

variable (mod) in
/-- The state after an instruction, when only direct stores write. -/
def State.after (st : State V) (inst : V) (result : Word) : State V where
  values := Function.update st.values inst (some result)
  memory key :=
    match directStore mod key inst with
    | some value => (st.read mod value).getD (st.memory key)
    | none => st.memory key

/-- This is a step. -/
theorem executes_after {st : State V} {inst : V} {result : Word} (h : Yields mod st inst result)
    (hwidth : HasWidth mod inst result)
    (hstore : ∀ value pointer, mod.value inst = .store value pointer →
      (st.read mod value).isSome = true) :
    Executes mod st inst (st.after mod inst result) where
  result := ⟨result, h, hwidth, rfl⟩
  memory := by
    intro key
    cases hdirect : directStore mod key inst with
    | none => simp [State.after, hdirect]
    | some value =>
      have hvalue := hdirect
      unfold directStore at hvalue
      split at hvalue
      · next stored pointer hinst =>
        split_ifs at hvalue
        obtain rfl := Option.some.inj hvalue
        obtain ⟨word, hword⟩ := Option.isSome_iff_exists.mp (hstore _ _ hinst)
        simp [State.after, hdirect, hword]
      · cases hvalue

variable (mod) in
/-- The state after some instructions with their results, the last one first. -/
def State.afterAll (st : State V) : List (V × Word) → State V
  | [] => st
  | (inst, result) :: earlier => (st.afterAll earlier).after mod inst result

variable (mod) in
/-- The steps of these instructions. -/
def State.traceOf (st : State V) : List (V × Word) → List (V × State V)
  | [] => []
  | (inst, result) :: earlier =>
    (inst, st.afterAll mod ((inst, result) :: earlier)) :: st.traceOf earlier

/-- At the beginning, one argument has a value. -/
theorem initial_single {argument : V} {x : Word} {memory : V → Word}
    (hargument : argument ∉ mod.functionInstructions f) (hwidth : HasWidth mod argument x) :
    Initial mod f ⟨fun v => if v = argument then some x else none, memory⟩ := by
  refine ⟨fun v hv => if_neg ?_, fun v y hy => ?_⟩
  · rintro rfl
    exact hargument hv
  · by_cases hv : v = argument
    · subst hv
      obtain rfl : x = y := by simpa using hy
      exact hwidth
    · simp [hv] at hy

variable (mod f) in
/-- The beginning of the first block. -/
theorem Run.start (block : B) {st : State V} (hhead : (mod.blocks f).head? = some block)
    (hinitial : Initial mod f st) :
    Run mod f block (mod.instructions block) (st.afterAll mod []) (st.traceOf mod []) :=
  .entry hhead hinitial

/-- One more instruction of a block. -/
theorem Run.after {block : B} {inst : V} {rest : List V} {st : State V} {results : List (V × Word)}
    (hrun : Run mod f block (inst :: rest) (st.afterAll mod results) (st.traceOf mod results))
    (result : Word) (h : Yields mod (st.afterAll mod results) inst result)
    (hwidth : HasWidth mod inst result)
    (hstore : ∀ value pointer, mod.value inst = .store value pointer →
      ((st.afterAll mod results).read mod value).isSome = true) :
    Run mod f block rest (st.afterAll mod ((inst, result) :: results))
      (st.traceOf mod ((inst, result) :: results)) :=
  .step hrun (executes_after h hwidth hstore)

/-- The jump at the end of a block. -/
theorem Run.jumpTo {block next : B} {last : V} {result : Word} {st : State V}
    {results : List (V × Word)}
    (hrun : Run mod f block [] (st.afterAll mod ((last, result) :: results))
      (st.traceOf mod ((last, result) :: results)))
    (hgoes : GoesTo mod (st.afterAll mod ((last, result) :: results)) block last next) :
    Run mod f next (mod.instructions next) (st.afterAll mod ((last, result) :: results))
      (st.traceOf mod ((last, result) :: results)) :=
  .jump hrun hgoes

end Machine

/-- A module of one function. Each value that has a place in a block is an instruction, and its
users are those that refer to it. -/
def singleFunction {n m : ℕ} (value : Fin n → Value (Fin n) (Fin (m + 1)) Unit)
    (type : Fin n → Ty) (instructions : Fin (m + 1) → List (Fin n))
    (successors : Fin (m + 1) → List (Fin (m + 1)))
    (nodup : ((List.finRange (m + 1)).flatMap instructions).Nodup) :
    Module Unit (Fin n) (Fin (m + 1)) where
  functions := [()]
  functionName _ := []
  isDeclaration _ := false
  sourcePath _ := []
  blocks _ := List.finRange (m + 1)
  instructions := instructions
  parent v := ((List.finRange (m + 1)).find? fun block => decide (v ∈ instructions block)).getD 0
  successors := successors
  predecessors block := (List.finRange (m + 1)).filter fun pred => decide (block ∈ successors pred)
  value := value
  type := type
  name _ := []
  users v := ((List.finRange (m + 1)).flatMap instructions).filter fun inst =>
    decide (v ∈ (value inst).operandValues)
  operands v := (value v).operandValues
  underlyingObject v := v
  stripPointerCasts v := v
  nodup := by simpa using nodup

/-- Such a module is a verified one, if all instructions have a place. -/
theorem singleFunction_verified {n m : ℕ} {value : Fin n → Value (Fin n) (Fin (m + 1)) Unit}
    {type : Fin n → Ty} {instructions : Fin (m + 1) → List (Fin n)}
    {successors : Fin (m + 1) → List (Fin (m + 1))}
    {nodup : ((List.finRange (m + 1)).flatMap instructions).Nodup}
    (h : ∀ v, (value v).isInstruction = true →
      v ∈ (List.finRange (m + 1)).flatMap instructions) :
    (singleFunction value type instructions successors nodup).Verified where
  operand_local _ _ _ _ _ _ := h _
  user_mem _ _ _ _ _ hw := List.mem_of_mem_filter hw

/-- Its blocks are connected, if there is an instruction in each, the branches go to their
successors, and nothing goes back to the first one. -/
theorem singleFunction_hasEdges {n m : ℕ} {value : Fin n → Value (Fin n) (Fin (m + 1)) Unit}
    {type : Fin n → Ty} {instructions : Fin (m + 1) → List (Fin n)}
    {successors : Fin (m + 1) → List (Fin (m + 1))}
    {nodup : ((List.finRange (m + 1)).flatMap instructions).Nodup}
    (hne : ∀ block, instructions block ≠ [])
    (hbr : ∀ block last cond ifTrue ifFalse, (instructions block).getLast? = some last →
      value last = .br cond ifTrue ifFalse → successors block = [ifTrue, ifFalse])
    (hentry : ∀ block, 0 ∉ successors block) :
    Machine.HasEdges (singleFunction value type instructions successors nodup) () where
  nonempty := hne
  successors_mem _ _ next _ := List.mem_finRange next
  successors_br := hbr
  mem_predecessors block _ hnext :=
    List.mem_filter.mpr ⟨List.mem_finRange block, decide_eq_true hnext⟩
  entry block hhead := by
    obtain rfl : 0 = block := by simpa [singleFunction, List.finRange_succ] using hhead
    exact List.filter_eq_nil_iff.mpr fun pred _ => by simpa using hentry pred

end StackAnalyzer.Llvm
