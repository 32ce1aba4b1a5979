import StackAnalyzer.Conditions.DuplicateConditions

set_option relaxedAutoImplicit false
set_option autoImplicit false

/-!
# Runs past conditions

Runs of a function, instruction by instruction, with the values of its instructions and the contents
of memory. Casts, `getelementptr`s with constant indices, comparisons and loads have the results
that their operands determine; everything else may have any result, and an instruction that may
write may leave any contents. In SSA form an operand comes before its instruction on every path, so the last
execution of an instruction has read its operands as they still are.

## Main definitions

* `StackAnalyzer.Conditions.ConditionFunction` — what the meaning of a function depends on.
* `StackAnalyzer.Conditions.ConditionFunction.Segment`,
  `StackAnalyzer.Conditions.ConditionFunction.Run` — runs.
* `StackAnalyzer.Conditions.ConditionFunction.Verified` — what LLVM guarantees.
* `StackAnalyzer.Conditions.ConditionFunction.Before` — an instruction comes before another one.

## Main results

* `StackAnalyzer.Conditions.ConditionFunction.Run.lastExecution` — the last execution of an
  instruction.
* `StackAnalyzer.Conditions.ConditionFunction.before_of_treeDominates` — dominators in terms of
  instructions.
-/

namespace StackAnalyzer.Conditions

open CrossTU Graph Llvm Relation

/-! ## Runs -/

section Runs

/-- The values that are computed, and what a load of some number of bits finds at an address. -/
structure RunState (V : Type*) where
  values : V → Option Word
  memory : Word → ℕ → Word

/-- An instruction that is executed, with the states before and after. -/
structure Event (V : Type*) where
  inst : V
  stBefore : RunState V
  stAfter : RunState V

/-- A module with the words that constants are, and what casts and `getelementptr`s with constant
indices make of words. -/
structure ConditionFunction (F V B S : Type*) extends DuplicateModule F V B S where
  constantWord : V → Word
  castResult : V → Word → Word
  gepResult : V → Word → Word

namespace ConditionFunction

variable {F V B S : Type*} (mod : ConditionFunction F V B S) (f : F)

/-- The value of an operand. -/
def read (st : RunState V) (v : V) : Option Word :=
  if (mod.value v).isConstant then some (mod.constantWord v) else st.values v

/-- The result of a comparison. -/
def compareWords (pred : Predicate) (x y : Word) : Bool := pred.holds x.2 (y.2.setWidth x.1)

/-- The results that an instruction may have. -/
def Yields (st : RunState V) (inst : V) (result : Word) : Prop :=
  match mod.value inst with
  | .cast _ operand => ∃ x, mod.read st operand = some x ∧ result = mod.castResult inst x
  | .getElementPtr _ pointer indices =>
    (∀ i ∈ indices, (mod.value i).isConstantInt = true) →
      ∃ x, mod.read st (mod.stripPointerCasts pointer) = some x ∧ result = mod.gepResult inst x
  | .icmp pred lhs rhs => ∃ x y, mod.read st lhs = some x ∧ mod.read st rhs = some y ∧
      result = ⟨1, BitVec.ofBool (compareWords pred x y)⟩
  | .load pointer => ∃ x, mod.read st (mod.stripPointerCasts pointer) = some x ∧
      result = st.memory x (mod.bitWidth inst)
  | _ => True

variable [DecidableEq V]

/-- **A step**: an instruction is executed. -/
structure Executes (st : RunState V) (inst : V) (st' : RunState V) : Prop where
  result : ∃ result, mod.Yields st inst result ∧
    st'.values = Function.update st.values inst (some result)
  memory : mod.mayWriteToMemory inst = false → st'.memory = st.memory

/-- The instructions that may come next. -/
def next (v : V) : List V :=
  match ((mod.instructions (mod.parent v)).dropWhile fun w => decide (w ≠ v)).tail with
  | w :: _ => [w]
  | [] => (mod.successors (mod.parent v)).filterMap fun block => (mod.instructions block).head?

/-- Where a run goes on after an instruction. -/
def GoesTo (st : RunState V) (inst w : V) : Prop :=
  w ∈ mod.next inst ∧
    match mod.value inst with
    | .br cond ifTrue ifFalse => ∃ x, mod.read st cond = some x ∧
        (mod.instructions (if x.2 = 0 then ifFalse else ifTrue)).head? = some w
    | _ => True

/-- **A part of a run**, from an instruction that is about to be executed to another one; the last
event comes first. -/
inductive Segment (u : V) (st : RunState V) : List (Event V) → V → RunState V → Prop
  | nil : Segment u st [] u st
  | cons {trace : List (Event V)} {v w : V} {s s' : RunState V} :
      Segment u st trace v s → mod.Executes s v s' → mod.GoesTo s' v w →
      Segment u st (⟨v, s, s'⟩ :: trace) w s'

/-- The first instruction of a function. -/
def entryInst : Option V := (mod.blocks f).head?.bind fun block => (mod.instructions block).head?

/-- **A run of a function** to an instruction that is about to be executed. -/
def Run (u : V) (st : RunState V) (trace : List (Event V)) : Prop :=
  ∃ first start, mod.entryInst f = some first ∧
    (∀ v, (mod.value v).isInstruction = true → start.values v = none) ∧
    mod.Segment first start trace u st

/-- An instruction comes before another one on every path. -/
def Before (v u : V) : Prop :=
  ∀ first, mod.entryInst f = some first → Precedes mod.next first v u

omit [DecidableEq V] in
/-- An operand of an instruction that is no phi. -/
def OperandOf (v w : V) : Prop :=
  w ∈ (mod.value v).operandValues ∧ ∀ incoming, mod.value v ≠ .phi incoming

/-- **What LLVM guarantees**: instructions stand in their blocks, branches at the end; operands come
before the instructions on every path; casts of pointers are looked through by way of operands; and
constant expressions are computed like instructions. -/
structure Verified : Prop where
  parent : ∀ block, ∀ v ∈ mod.instructions block, mod.parent v = block
  isInstruction : ∀ block, ∀ v ∈ mod.instructions block, (mod.value v).isInstruction = true
  nodup : ∀ block, (mod.instructions block).Nodup
  last : ∀ block, ∀ v ∈ mod.instructions block, (mod.conditionalBranch v).isSome = true →
    (mod.instructions block).getLast? = some v
  closed : Closed mod.successors (mod.blocks f)
  ssa : ∀ v w, mod.OperandOf v w → (mod.value w).isInstruction = true → mod.Before f w v
  strip : ∀ v, (mod.value (mod.stripPointerCasts v)).isInstruction = true →
    ReflTransGen mod.OperandOf v (mod.stripPointerCasts v)
  writes : ∀ v, (mod.conditionalBranch v).isSome = true → mod.mayWriteToMemory v = false
  gep : ∀ v pointer indices, mod.gepOperator v = some (pointer, indices) →
    (∃ type, mod.value v = .getElementPtr type pointer indices) ∨
      (mod.value v).isConstant = true ∧
        (mod.value (mod.stripPointerCasts pointer)).isConstant = true ∧
          mod.constantWord v = mod.gepResult v (mod.constantWord (mod.stripPointerCasts pointer))
  cast : ∀ v op operand, mod.castOperator v = some (op, operand) →
    (∃ castOp, mod.value v = .cast castOp operand) ∨
      (mod.value v).isConstant = true ∧ (mod.value operand).isConstant = true ∧
        mod.constantWord v = mod.castResult v (mod.constantWord operand)

end ConditionFunction

end Runs

/-! ## Parts of runs -/

namespace ConditionFunction

variable {F V B S : Type*} [DecidableEq V] {mod : ConditionFunction F V B S} {f : F}

section Segments

variable {u v w : V} {st s s' : RunState V} {trace : List (Event V)}

/-- Other values stay. -/
theorem Executes.values_eq (h : mod.Executes s v s') (hw : w ≠ v) : s'.values w = s.values w := by
  obtain ⟨result, -, hvalues⟩ := h.result
  rw [hvalues, Function.update_of_ne hw]

/-- A part of a run can be cut at an event. -/
theorem Segment.split {later earlier : List (Event V)} {e : Event V}
    (h : mod.Segment u st (later ++ e :: earlier) w s) :
    mod.Segment u st earlier e.inst e.stBefore ∧ mod.Executes e.stBefore e.inst e.stAfter ∧
      ∃ v, mod.GoesTo e.stAfter e.inst v ∧ mod.Segment v e.stAfter later w s := by
  induction later generalizing w s with
  | nil =>
    obtain _ | ⟨hearlier, hexec, hgoes⟩ := h
    exact ⟨hearlier, hexec, w, hgoes, .nil⟩
  | cons event later ih =>
    obtain _ | ⟨hrest, hexec, hgoes⟩ := h
    obtain ⟨hearlier, hevent, v, hv, hlater⟩ := ih hrest
    exact ⟨hearlier, hevent, v, hv, .cons hlater hexec hgoes⟩

/-- **Values stay** until their instruction is executed again. -/
theorem Segment.values_eq (h : mod.Segment u st trace w s) (hv : ∀ e ∈ trace, e.inst ≠ v) :
    s.values v = st.values v := by
  induction h with
  | nil => rfl
  | cons _ hexec _ ih =>
    rw [hexec.values_eq (hv _ List.mem_cons_self).symm,
      ih fun e he => hv e (List.mem_cons_of_mem _ he)]

/-- **Contents of memory stay** if each instruction leaves them alone. -/
theorem Segment.memory_eq {x : Word} {width : ℕ} (h : mod.Segment u st trace w s)
    (hmemory : ∀ e ∈ trace, e.stAfter.memory x width = e.stBefore.memory x width) :
    s.memory x width = st.memory x width := by
  induction h with
  | nil => rfl
  | cons _ _ _ ih =>
    have hlast := hmemory _ List.mem_cons_self
    rw [hlast, ih fun e he => hmemory e (List.mem_cons_of_mem _ he)]

/-- A part of a run is a path. -/
theorem Segment.reach (h : mod.Segment u st trace w s) : Reach mod.next u w := by
  induction h with
  | nil => exact Reach.refl _
  | cons _ _ hgoes ih => exact ih.tail hgoes.1

/-- A part of a run that does not execute an instruction is a path that avoids it. -/
theorem Segment.reach_avoiding (h : mod.Segment u st trace w s) (hv : ∀ e ∈ trace, e.inst ≠ v) :
    Reach (avoiding mod.next v) u w := by
  induction h with
  | nil => exact Reach.refl _
  | cons _ _ hgoes ih =>
    exact (ih fun e he => hv e (List.mem_cons_of_mem _ he)).tail
      (edge_avoiding hgoes.1 (hv _ List.mem_cons_self))

/-- What is executed leads to the end. -/
theorem Segment.reach_end (h : mod.Segment u st trace w s) (hv : ∀ e ∈ trace, e.inst ≠ v)
    {e : Event V} (he : e ∈ trace) : Reach (avoiding mod.next v) e.inst w := by
  obtain ⟨later, earlier, rfl⟩ := List.append_of_mem he
  obtain ⟨-, -, v', hgoes, hlater⟩ := h.split
  have hne : ∀ e' ∈ later, e'.inst ≠ v := fun e' he' => hv e' (List.mem_append_left _ he')
  exact (hlater.reach_avoiding hne).head (edge_avoiding hgoes.1 (hv e he))

end Segments

/-! ## What LLVM guarantees -/

section Guarantees

variable (hV : mod.Verified f) {u v w : V}

include hV

/-- What comes next is the first instruction of a successor, or stands behind in the block. -/
theorem mem_next (h : w ∈ mod.next v) :
    (mod.parent w = mod.parent v ∧ w ∈ mod.instructions (mod.parent v)) ∨
      ((mod.instructions (mod.parent v)).dropWhile fun x => decide (x ≠ v)).tail = [] ∧
        mod.parent w ∈ mod.successors (mod.parent v) ∧
          w ∈ mod.instructions (mod.parent w) := by
  unfold next at h
  split at h
  · next x rest hrest =>
    obtain rfl : w = x := List.mem_singleton.mp h
    have htail : w ∈ ((mod.instructions (mod.parent v)).dropWhile
        fun x => decide (x ≠ v)).tail := by
      rw [hrest]
      exact List.mem_cons_self
    have hmem : w ∈ mod.instructions (mod.parent v) :=
      (List.dropWhile_sublist _).subset (List.mem_of_mem_tail htail)
    exact Or.inl ⟨hV.parent _ w hmem, hmem⟩
  · next hnil =>
    obtain ⟨block, hblock, hhead⟩ := List.mem_filterMap.mp h
    have hmem := List.mem_of_mem_head? hhead
    have hparent := hV.parent block w hmem
    exact Or.inr ⟨hnil, hparent ▸ hblock, hparent ▸ hmem⟩

/-- What comes next is an instruction of its block. -/
theorem mem_instructions_next (h : w ∈ mod.next v) : w ∈ mod.instructions (mod.parent w) := by
  rcases mem_next hV h with ⟨hparent, hmem⟩ | ⟨-, -, hmem⟩
  · rw [hparent]
    exact hmem
  · exact hmem

/-- The first instruction is an instruction of its block. -/
theorem mem_instructions_entry (h : mod.entryInst f = some v) :
    v ∈ mod.instructions (mod.parent v) := by
  obtain ⟨block, -, hhead⟩ := Option.bind_eq_some_iff.mp h
  have hmem := List.mem_of_mem_head? hhead
  rw [hV.parent block v hmem]
  exact hmem

/-- Instructions that can be reached stand in their blocks. -/
theorem mem_instructions_reach (hu : u ∈ mod.instructions (mod.parent u))
    (h : Reach mod.next u w) : w ∈ mod.instructions (mod.parent w) := by
  induction h with
  | refl => exact hu
  | tail _ hedge _ => exact mem_instructions_next hV hedge

/-- Instructions that can be reached stand in blocks of the function. -/
theorem mem_blocks_reach {first : V} (hfirst : mod.entryInst f = some first)
    (h : Reach mod.next first w) : mod.parent w ∈ mod.blocks f := by
  induction h with
  | refl =>
    obtain ⟨entry, hentry, hhead⟩ := Option.bind_eq_some_iff.mp hfirst
    rw [hV.parent entry first (List.mem_of_mem_head? hhead)]
    exact List.mem_of_mem_head? hentry
  | tail _ hedge ih =>
    rcases mem_next hV hedge with ⟨hparent, -⟩ | ⟨-, hsucc, -⟩
    · rw [hparent]
      exact ih
    · exact hV.closed _ ih _ hsucc

/-- What stands in a block with a branch stands before it. -/
theorem mem_takeWhile {block : B} {b : V} (hbranch : (mod.conditionalBranch b).isSome = true)
    (hw : w ∈ mod.instructions block) (hne : w ≠ b) :
    w ∈ (mod.instructions block).takeWhile fun x => decide (x ≠ b) := by
  by_cases hb : b ∈ mod.instructions block
  · obtain ⟨init, hinit⟩ := List.getLast?_eq_some_iff.mp (hV.last block b hb hbranch)
    have hnodup := hV.nodup block
    rw [hinit, List.nodup_append] at hnodup
    have hall : ∀ x ∈ init, decide (x ≠ b) = true := fun x hx =>
      decide_eq_true (hnodup.2.2 x hx b List.mem_cons_self)
    rw [hinit, List.takeWhile_append_of_pos hall]
    rw [hinit, List.mem_append, List.mem_singleton] at hw
    exact List.mem_append_left _ (hw.resolve_right hne)
  · rw [List.takeWhile_eq_self_iff.mpr]
    · exact hw
    · intro x hx
      refine decide_eq_true ?_
      rintro rfl
      exact hb hx

/-- All events of a run are about instructions of their blocks. -/
theorem Segment.mem_instructions {st s : RunState V} {trace : List (Event V)}
    (h : mod.Segment u st trace w s) (hu : u ∈ mod.instructions (mod.parent u)) :
    ∀ e ∈ trace, e.inst ∈ mod.instructions (mod.parent e.inst) := by
  intro e he
  obtain ⟨later, earlier, rfl⟩ := List.append_of_mem he
  exact mem_instructions_reach hV hu h.split.1.reach

omit hV in
/-- The last instruction of a block has nothing behind it. -/
theorem eq_of_last (hv : v ∈ mod.instructions (mod.parent v))
    (hlast : ((mod.instructions (mod.parent v)).dropWhile fun x => decide (x ≠ v)).tail = []) :
    (mod.instructions (mod.parent v)).getLast? = some v := by
  obtain ⟨before, after, heq, hnot⟩ := List.eq_append_cons_of_mem hv
  have hdrop : (mod.instructions (mod.parent v)).dropWhile (fun x => decide (x ≠ v)) =
      v :: after := by
    rw [heq, List.dropWhile_append_of_pos]
    · simp
    · intro x hx
      simp only [ne_eq, decide_not, Bool.not_eq_eq_eq_not, Bool.not_true, decide_eq_false_iff_not]
      rintro rfl
      exact hnot hx
  rw [hdrop, List.tail_cons] at hlast
  rw [heq, hlast]
  simp

/-- A path of instructions that avoids a branch is a path of blocks that avoids its block. -/
theorem reach_blocks {d : V} (hd : (mod.instructions (mod.parent d)).getLast? = some d)
    (hu : u ∈ mod.instructions (mod.parent u)) (h : Reach (avoiding mod.next d) u w)
    [DecidableEq B] :
    Reach (avoiding mod.successors (mod.parent d)) (mod.parent u) (mod.parent w) := by
  induction h with
  | refl => exact Reach.refl _
  | @tail x y hpath hedge ih =>
    obtain ⟨hne, hedge⟩ := edge_of_avoiding hedge
    have hx : x ∈ mod.instructions (mod.parent x) :=
      mem_instructions_reach hV hu (hpath.lift id fun _ _ h => (edge_of_avoiding h).2)
    rcases mem_next hV hedge with ⟨hparent, -⟩ | ⟨hlast, hsucc, -⟩
    · rw [hparent]
      exact ih
    · refine ih.tail (edge_avoiding hsucc fun hblock => hne ?_)
      have hx' := eq_of_last hx hlast
      rw [hblock, hd] at hx'
      exact (Option.some.inj hx').symm

/-- **Dominators in terms of instructions**: the branch of a block that strictly dominates another
one comes before what stands there. -/
theorem before_of_treeDominates [DecidableEq B] {d : V}
    (hd : (mod.instructions (mod.parent d)).getLast? = some d)
    (hdom : mod.treeDominates f (mod.parent d) (mod.parent w) = true)
    (hne : mod.parent d ≠ mod.parent w) : mod.Before f d w := by
  intro first hfirst hpath
  have hmem := mem_instructions_entry hV hfirst
  have havoids := reach_blocks hV hd hmem hpath
  obtain ⟨entry, hentry, hhead⟩ := Option.bind_eq_some_iff.mp hfirst
  have hparent : mod.parent first = entry := hV.parent entry first (List.mem_of_mem_head? hhead)
  rw [hparent] at havoids
  unfold DuplicateModule.treeDominates at hdom
  rw [hentry] at hdom
  rcases (dominates_iff hV.closed (List.mem_of_mem_head? hentry) (by omega) _ _).mp hdom with
    heq | hunreached | ⟨-, hnot⟩
  · exact hne heq
  · exact hunreached (havoids.lift id fun _ _ h => (edge_of_avoiding h).2)
  · exact hnot havoids

end Guarantees

/-! ## Last executions -/

section Last

variable {u v w : V} {st : RunState V} {trace : List (Event V)}

/-- What is about to be executed can be reached. -/
theorem Run.reach {first : V} (h : mod.Run f u st trace) (hfirst : mod.entryInst f = some first) :
    Reach mod.next first u := by
  obtain ⟨first', start, hfirst', -, hsegment⟩ := h
  obtain rfl := Option.some.inj (hfirst.symm.trans hfirst')
  exact hsegment.reach

/-- **The last execution** of an instruction that comes before: it has given the value, and what
comes before it has not been executed since.

**Proof sketch.** By induction on the run. An instruction that is executed after the last execution
of another one does not come before that one, since no path leads from it to the end of the run
without that one. -/
theorem Run.lastExecution (h : mod.Run f u st trace) (hv : mod.Before f v u) :
    ∃ later s s' earlier, trace = later ++ ⟨v, s, s'⟩ :: earlier ∧
      (∀ e ∈ later, e.inst ≠ v) ∧ mod.Executes s v s' ∧ st.values v = s'.values v ∧
      ∀ w, mod.Before f w v → st.values w = s.values w := by
  obtain ⟨first, start, hfirst, -, hsegment⟩ := h
  have hvu := hv first hfirst
  clear hv
  induction hsegment with
  | nil => exact absurd (Reach.refl _) hvu
  | @cons trace x u s s' hsegment hexec hgoes ih =>
    by_cases hx : x = v
    · subst hx
      refine ⟨[], s, s', trace, rfl, by simp, hexec, rfl, fun w hw => hexec.values_eq ?_⟩
      rintro rfl
      exact not_precedes_self hsegment.reach (hw first hfirst)
    · have hvx := hvu.of_edge hgoes.1 hx
      obtain ⟨later, s₁, s₂, earlier, rfl, hlater, hlast, hvalue, hothers⟩ := ih hvx
      refine ⟨⟨x, s, s'⟩ :: later, s₁, s₂, earlier, rfl, ?_, hlast, ?_, fun w hw => ?_⟩
      · rintro e (_ | ⟨_, he⟩)
        · exact hx
        · exact hlater e he
      · rw [hexec.values_eq (Ne.symm hx), hvalue]
      · rw [hexec.values_eq, hothers w hw]
        rintro rfl
        exact (hw first hfirst).asymm hsegment.reach hvx

/-- Values that no instruction computes stay. -/
theorem Segment.values_eq_of_notInstruction {s : RunState V} (hV : mod.Verified f)
    (h : mod.Segment u st trace w s) (hu : u ∈ mod.instructions (mod.parent u))
    (hv : (mod.value v).isInstruction = false) : s.values v = st.values v := by
  refine h.values_eq fun e he heq => ?_
  have hinst := hV.isInstruction _ _ (h.mem_instructions hV hu e he)
  rw [heq, hv] at hinst
  cases hinst

end Last

/-! ## Values in terms of operands -/

section Reads

variable (hV : mod.Verified f) {u v w : V} {st : RunState V} {trace : List (Event V)}

omit [DecidableEq V] in
/-- Only instructions have operands. -/
theorem isInstruction_of_operandOf (h : mod.OperandOf v w) :
    (mod.value v).isInstruction = true := by
  have hmem := h.1
  cases hvalue : mod.value v <;> rw [hvalue] at hmem <;> first | rfl | cases hmem

/-- What some instruction needs, and all that is needed for it, comes before. -/
theorem before_of_operands (hV : mod.Verified f) (h : TransGen mod.OperandOf v w)
    (hw : (mod.value w).isInstruction = true) : mod.Before f w v := by
  induction h with
  | single hoperand => exact hV.ssa _ _ hoperand hw
  | tail _ hoperand ih =>
    intro first hfirst
    have hx := ih (isInstruction_of_operandOf hoperand) first hfirst
    exact (hV.ssa _ _ hoperand hw first hfirst).trans hx

omit [DecidableEq V] in
/-- An instruction is no constant. -/
theorem isConstant_of_isInstruction (hv : (mod.value v).isInstruction = true) :
    (mod.value v).isConstant = false := by
  cases hvalue : mod.value v <;> rw [hvalue] at hv <;> first | rfl | cases hv

omit [DecidableEq V] in
/-- The value of an instruction is what it has computed. -/
theorem read_of_isInstruction (hv : (mod.value v).isInstruction = true) (st : RunState V) :
    mod.read st v = st.values v := by
  rw [read, isConstant_of_isInstruction hv]
  rfl

include hV

/-- **The last execution** of an instruction: all that comes before it reads as it did. -/
theorem Run.lastRead (h : mod.Run f u st trace) (hv : mod.Before f v u)
    (hinst : (mod.value v).isInstruction = true) :
    ∃ later s s' earlier, trace = later ++ ⟨v, s, s'⟩ :: earlier ∧
      (∀ e ∈ later, e.inst ≠ v) ∧ mod.Executes s v s' ∧ mod.read st v = s'.values v ∧
      ∀ w, ((mod.value w).isInstruction = true → mod.Before f w v) →
        mod.read st w = mod.read s w := by
  obtain ⟨later, s, s', earlier, htrace, hlater, hexec, hvalue, hothers⟩ := h.lastExecution hv
  refine ⟨later, s, s', earlier, htrace, hlater, hexec, ?_, fun w hw => ?_⟩
  · rw [read_of_isInstruction hinst, hvalue]
  by_cases hwinst : (mod.value w).isInstruction = true
  · rw [read_of_isInstruction hwinst, read_of_isInstruction hwinst, hothers w (hw hwinst)]
  · obtain ⟨first, start, hfirst, -, hsegment⟩ := h
    rw [htrace] at hsegment
    have hentry := mem_instructions_entry hV hfirst
    obtain ⟨hearlier, -, -⟩ := hsegment.split
    rw [Bool.not_eq_true] at hwinst
    have hnow := hsegment.values_eq_of_notInstruction hV hentry hwinst
    have hthen := hearlier.values_eq_of_notInstruction hV hentry hwinst
    unfold read
    rw [hnow, hthen]

/-- The value of a cast. -/
theorem Run.read_cast (h : mod.Run f u st trace) (hv : mod.Before f v u) {op : CastInst}
    (hvalue : mod.value v = .cast op w) :
    ∃ x, mod.read st w = some x ∧ mod.read st v = some (mod.castResult v x) := by
  have hinst : (mod.value v).isInstruction = true := by rw [hvalue]; rfl
  obtain ⟨later, s, s', earlier, -, -, hexec, hread, hothers⟩ := h.lastRead hV hv hinst
  obtain ⟨result, hyields, hvalues⟩ := hexec.result
  simp only [Yields, hvalue] at hyields
  obtain ⟨x, hx, rfl⟩ := hyields
  have hoperand : mod.OperandOf v w := ⟨by simp [hvalue, Value.operandValues], by simp [hvalue]⟩
  refine ⟨x, ?_, ?_⟩
  · rw [hothers w (hV.ssa v w hoperand), hx]
  · rw [hread, hvalues, Function.update_self]

/-- The value of a comparison. -/
theorem Run.read_icmp (h : mod.Run f u st trace) (hv : mod.Before f v u) {pred : Predicate}
    {lhs rhs : V} (hvalue : mod.value v = .icmp pred lhs rhs) :
    ∃ x y, mod.read st lhs = some x ∧ mod.read st rhs = some y ∧
      mod.read st v = some ⟨1, BitVec.ofBool (compareWords pred x y)⟩ := by
  have hinst : (mod.value v).isInstruction = true := by rw [hvalue]; rfl
  obtain ⟨later, s, s', earlier, -, -, hexec, hread, hothers⟩ := h.lastRead hV hv hinst
  obtain ⟨result, hyields, hvalues⟩ := hexec.result
  simp only [Yields, hvalue] at hyields
  obtain ⟨x, y, hx, hy, rfl⟩ := hyields
  have hlhs : mod.OperandOf v lhs := ⟨by simp [hvalue, Value.operandValues], by simp [hvalue]⟩
  have hrhs : mod.OperandOf v rhs := ⟨by simp [hvalue, Value.operandValues], by simp [hvalue]⟩
  refine ⟨x, y, ?_, ?_, ?_⟩
  · rw [hothers lhs (hV.ssa v lhs hlhs), hx]
  · rw [hothers rhs (hV.ssa v rhs hrhs), hy]
  · rw [hread, hvalues, Function.update_self]

/-- A stripped pointer is needed where the pointer is. -/
theorem needs_strip {pointer : V} (hoperand : mod.OperandOf v pointer)
    (hw : (mod.value (mod.stripPointerCasts pointer)).isInstruction = true) :
    TransGen mod.OperandOf v (mod.stripPointerCasts pointer) :=
  TransGen.head' hoperand (hV.strip pointer hw)

/-- The value of a load is what the memory has had at the pointer, when it was executed last. -/
theorem Run.read_load (h : mod.Run f u st trace) (hv : mod.Before f v u) {pointer : V}
    (hvalue : mod.value v = .load pointer) :
    ∃ later s s' earlier x, trace = later ++ ⟨v, s, s'⟩ :: earlier ∧
      (∀ e ∈ later, e.inst ≠ v) ∧ mod.read s (mod.stripPointerCasts pointer) = some x ∧
      mod.read st (mod.stripPointerCasts pointer) = some x ∧
      mod.read st v = some (s.memory x (mod.bitWidth v)) := by
  have hinst : (mod.value v).isInstruction = true := by rw [hvalue]; rfl
  obtain ⟨later, s, s', earlier, htrace, hlater, hexec, hread, hothers⟩ := h.lastRead hV hv hinst
  obtain ⟨result, hyields, hvalues⟩ := hexec.result
  simp only [Yields, hvalue] at hyields
  obtain ⟨x, hx, rfl⟩ := hyields
  have hoperand : mod.OperandOf v pointer :=
    ⟨by simp [hvalue, Value.operandValues], by simp [hvalue]⟩
  refine ⟨later, s, s', earlier, x, htrace, hlater, hx, ?_, ?_⟩
  · rw [hothers _ fun hw => before_of_operands hV (needs_strip hV hoperand hw) hw, hx]
  · rw [hread, hvalues, Function.update_self]

/-- The value of a `getelementptr` with constant indices. -/
theorem Run.read_gep (h : mod.Run f u st trace)
    (hv : (mod.value v).isInstruction = true → mod.Before f v u) {pointer : V} {indices : List V}
    (hgep : mod.gepOperator v = some (pointer, indices))
    (hindices : ∀ i ∈ indices, (mod.value i).isConstantInt = true) :
    ∃ x, mod.read st (mod.stripPointerCasts pointer) = some x ∧
      mod.read st v = some (mod.gepResult v x) := by
  rcases hV.gep v pointer indices hgep with ⟨type, hvalue⟩ | ⟨hconstant, hbase, hword⟩
  · have hinst : (mod.value v).isInstruction = true := by rw [hvalue]; rfl
    obtain ⟨later, s, s', earlier, -, -, hexec, hread, hothers⟩ := h.lastRead hV (hv hinst) hinst
    obtain ⟨result, hyields, hvalues⟩ := hexec.result
    simp only [Yields, hvalue] at hyields
    obtain ⟨x, hx, rfl⟩ := hyields hindices
    have hoperand : mod.OperandOf v pointer :=
      ⟨by simp [hvalue, Value.operandValues], by simp [hvalue]⟩
    refine ⟨x, ?_, ?_⟩
    · rw [hothers _ fun hw => before_of_operands hV (needs_strip hV hoperand hw) hw, hx]
    · rw [hread, hvalues, Function.update_self]
  · refine ⟨mod.constantWord (mod.stripPointerCasts pointer), ?_, ?_⟩
    · rw [read, if_pos hbase]
    · rw [read, if_pos hconstant, hword]

/-- The value of a cast between pointers. -/
theorem Run.read_castOperator (h : mod.Run f u st trace)
    (hv : (mod.value v).isInstruction = true → mod.Before f v u) {op : PointerCast}
    (hcast : mod.castOperator v = some (op, w)) :
    ∃ x, mod.read st w = some x ∧ mod.read st v = some (mod.castResult v x) := by
  rcases hV.cast v op w hcast with ⟨castOp, hvalue⟩ | ⟨hconstant, hoperand, hword⟩
  · have hinst : (mod.value v).isInstruction = true := by rw [hvalue]; rfl
    exact h.read_cast hV (hv hinst) hvalue
  · refine ⟨mod.constantWord w, ?_, ?_⟩
    · rw [read, if_pos hoperand]
    · rw [read, if_pos hconstant, hword]

end Reads

end ConditionFunction

end StackAnalyzer.Conditions
