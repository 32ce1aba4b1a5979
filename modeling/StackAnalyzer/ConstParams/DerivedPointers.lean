import StackAnalyzer.ConstParams.WriteStates

set_option relaxedAutoImplicit false
set_option autoImplicit false

/-!
# Pointers that are derived from a parameter

Executions of a function, in which it is known of each value and of each byte of memory whether it is
derived from a parameter, and when such an execution does not write through the parameter. The
analysis follows a pointer through the instructions that it lists, and through slots; a conversion to
an integer is meant to be unknown, but it is harmless in fact, like all other instructions.

## Main definitions

* `StackAnalyzer.ConstParams.FunctionBody` — what the meaning of a function depends on.
* `StackAnalyzer.ConstParams.FunctionBody.Step`, `StackAnalyzer.ConstParams.FunctionBody.Run` — the
  executions.
* `StackAnalyzer.ConstParams.FunctionBody.WritesDerived` — an instruction may write through a derived
  pointer.
* `StackAnalyzer.ConstParams.FunctionBody.SafeAdvice` — advice is only given if no execution writes.
* `StackAnalyzer.ConstParams.FunctionBody.Followed` — derived pointers only go where they are
  followed.

## Main results

* `StackAnalyzer.ConstParams.FunctionBody.Tracked.step` — a step keeps derived pointers tracked.
* `StackAnalyzer.ConstParams.FunctionBody.safeAdvice_of_followed` — when advice is safe.
-/

namespace StackAnalyzer.ConstParams

open Relation

/-! ## Executions -/

section Executions

/-- An object in memory: a local variable, which an `alloca` creates each time it is executed, or
another one. -/
inductive Object (V : Type*)
  | variable (alloca : V) (round : ℕ)
  | outside (id : ℕ)

/-- What a value is when a function is executed: an address, and whether it is derived from the
parameter. The address of an integer is the one that it has been converted from, if there is any. -/
structure Datum (V : Type*) where
  object : Object V
  offset : ℤ
  isDerived : Bool

/-- The values that are computed, and the bytes that hold derived pointers. -/
structure State (V : Type*) where
  values : V → Option (Datum V)
  derivedBytes : Set (Object V × ℤ)

/-- The bytes at an address. -/
def bytesAt {V : Type*} (datum : Datum V) (size : ℕ) : Set (Object V × ℤ) :=
  {x | x.1 = datum.object ∧ datum.offset ≤ x.2 ∧ x.2 < datum.offset + size}

/-- A value is derived from the parameter. -/
def State.IsDerived {V : Type*} (st : State V) (v : V) : Prop :=
  ∃ datum, st.values v = some datum ∧ datum.isDerived = true

/-- A function: its instructions, how many bytes they access, and whether the callee of a call may
return an argument or store it. -/
structure FunctionBody (V F : Type*) extends ParamModule V F where
  instructions : List V
  accessSize : V → ℕ
  mayRetain : V → ℕ → Bool

namespace FunctionBody

variable {V F : Type*} (M : FunctionBody V F)

/-- A call only marks something. -/
def isMarker (site : CallSite V F) : Bool :=
  site.callee.elim false fun callee => (M.function callee).isMarkerIntrinsic

/-- **A private variable**: its address is used only by loads, by stores of other values, and by
intrinsics that mark something. -/
def Private (slot : V) : Prop :=
  M.kind slot = .alloca ∧ ∀ user ∈ M.uses slot,
    match M.kind user with
    | .load _ => True
    | .store value _ => value ≠ slot
    | .call site => M.isMarker site = true
    | _ => False

/-- An object that is a private variable. -/
def PrivateObject (object : Object V) : Prop :=
  ∃ slot round, object = .variable slot round ∧ M.Private slot

/-- An instruction accesses memory at an address. That of a private variable is known to those
instructions only that use it. -/
def Accesses (st : State V) (pointer : V) (datum : Datum V) : Prop :=
  st.values pointer = some datum ∧
    ∀ slot round, datum.object = .variable slot round → M.Private slot → pointer = slot

/-- A callee may get hold of a derived pointer that it keeps: in an argument, or in memory that it
can reach. -/
def CanKeep (st : State V) (inst : V) (site : CallSite V F) : Prop :=
  (∃ i arg, site.args[i]? = some arg ∧ st.IsDerived arg ∧ M.mayRetain inst i = true) ∨
    ∃ x ∈ st.derivedBytes, ¬ M.PrivateObject x.1

/-- The results that an instruction may have. -/
def Yields (st : State V) (inst : V) (result : Datum V) : Prop :=
  match M.kind inst with
  | .argument _ => False
  | .alloca => ∃ round, result = ⟨.variable inst round, 0, false⟩
  | .load pointer | .atomicRMW pointer _ | .cmpXchg pointer _ _ =>
    ∃ datum, M.Accesses st pointer datum ∧
      (result.isDerived = true ↔ ∃ x ∈ bytesAt datum (M.accessSize inst), x ∈ st.derivedBytes)
  | .call site => result.isDerived = true → M.CanKeep st inst site
  | .gep pointer indices => result.isDerived = true ↔ ∃ w ∈ pointer :: indices, st.IsDerived w
  | .cast _ operand => result.isDerived = true ↔ st.IsDerived operand
  | .phi incoming => ∃ w ∈ incoming, st.values w = some result
  | .select _ trueValue falseValue =>
    st.values trueValue = some result ∨ st.values falseValue = some result
  | .derives operands => result.isDerived = true → ∃ w ∈ operands, st.IsDerived w
  | .store _ _ | .plain => result.isDerived = false

/-- The bytes that hold derived pointers after an instruction. -/
def Leaves (st : State V) (inst : V) (after : Set (Object V × ℤ)) : Prop :=
  match M.kind inst with
  | .store value pointer =>
    ∃ datum, M.Accesses st pointer datum ∧
      ∀ x, x ∈ after ↔ x ∈ bytesAt datum (M.accessSize inst) ∧ st.IsDerived value ∨
        x ∉ bytesAt datum (M.accessSize inst) ∧ x ∈ st.derivedBytes
  | .atomicRMW pointer value | .cmpXchg pointer _ value =>
    ∃ datum, M.Accesses st pointer datum ∧
      ∀ x ∈ after, x ∈ st.derivedBytes ∨
        x ∈ bytesAt datum (M.accessSize inst) ∧ st.IsDerived value
  | .call site =>
    ∀ x ∈ after, x ∈ st.derivedBytes ∨ M.CanKeep st inst site ∧ ¬ M.PrivateObject x.1
  | _ => after = st.derivedBytes

/-- The function begins: only the parameter is derived from the parameter, nothing has been computed,
and there are no local variables. -/
structure Start (root : V) (st : State V) : Prop where
  derived : ∀ v, st.IsDerived v ↔ v = root
  instructions : ∀ inst ∈ M.instructions, st.values inst = none
  locals : ∀ slot, M.kind slot = .alloca → st.values slot = none
  derivedBytes : st.derivedBytes = ∅

variable [DecidableEq V]

/-- **A step** of the function: an instruction is executed, whichever comes next. -/
def Step (st : State V) (inst : V) (st' : State V) : Prop :=
  inst ∈ M.instructions ∧ ∃ result, M.Yields st inst result ∧
    st'.values = Function.update st.values inst (some result) ∧
      M.Leaves st inst st'.derivedBytes

/-- **The executions** whose steps are all of some kind. -/
inductive Run (ok : State V → V → Prop) (root : V) : State V → Prop
  | start {st : State V} : M.Start root st → Run ok root st
  | step {st st' : State V} {inst : V} :
      Run ok root st → ok st inst → M.Step st inst st' → Run ok root st'

/-- **An instruction may write through a derived pointer**: itself, or the callee of a call, if it is
passed for a parameter that may be written through, or can be reached in memory. -/
def WritesDerived (st : State V) (inst : V) : Prop :=
  match M.kind inst with
  | .store _ pointer | .atomicRMW pointer _ | .cmpXchg pointer _ _ => st.IsDerived pointer
  | .call site =>
    (∃ i arg, site.args[i]? = some arg ∧ st.IsDerived arg ∧
      M.callArgWriteState site i ≠ .noWrite) ∨ ∃ x ∈ st.derivedBytes, ¬ M.PrivateObject x.1
  | _ => False

/-- **Advice is safe**: if the analysis says that a parameter is not written through, no execution
writes through a pointer that is derived from it. -/
def SafeAdvice [Fintype V] (ok : State V → V → Prop) (root : V) : Prop :=
  M.valueWriteState root = .noWrite → ∀ st, M.Run ok root st → ∀ inst ∈ M.instructions,
    ¬ M.WritesDerived st inst

/-- **Derived pointers only go where they are followed**: into private variables, to parameters that
are not kept, and through instructions with a pointer as their result. -/
def Followed (st : State V) (inst : V) : Prop :=
  match M.kind inst with
  | .store value pointer => st.IsDerived value → M.Private (M.stripPointerCasts pointer)
  | .atomicRMW _ value | .cmpXchg _ _ value => ¬ st.IsDerived value
  | .call site =>
    ∀ i arg, site.args[i]? = some arg → st.IsDerived arg → M.mayRetain inst i = false
  | .cast _ operand => st.IsDerived operand → M.isPointer inst = true
  | .phi incoming => ∀ w ∈ incoming, st.IsDerived w → M.isPointer inst = true
  | .select _ trueValue falseValue =>
    st.IsDerived trueValue ∨ st.IsDerived falseValue → M.isPointer inst = true
  | .derives operands => ∀ w ∈ operands, ¬ st.IsDerived w
  | _ => True

end FunctionBody

end Executions

/-! ## What LLVM guarantees -/

section Verified

/-- The operands of a value. -/
def ValueKind.operands {V F : Type*} : ValueKind V F → List V
  | .argument _ | .alloca | .plain => []
  | .load pointer => [pointer]
  | .store value pointer => [value, pointer]
  | .atomicRMW pointer value => [pointer, value]
  | .cmpXchg pointer compare newValue => [pointer, compare, newValue]
  | .call site => site.args
  | .gep pointer indices => pointer :: indices
  | .cast _ operand => [operand]
  | .phi incoming => incoming
  | .select condition trueValue falseValue => [condition, trueValue, falseValue]
  | .derives operands => operands

namespace FunctionBody

variable {V F : Type*} (M : FunctionBody V F)

/-- A value that casts are looked through to: the operand of a cast or of a `getelementptr`, or the
argument that a call returns. -/
def LooksThrough (v w : V) : Prop :=
  w ∈ (M.kind v).operands ∧
    match M.kind v with
    | .gep _ _ | .cast _ _ => True
    | .call site => M.isMarker site = false
    | _ => False

/-- **What LLVM guarantees**: the users of a value are those whose operand it is, and casts are looked
through as far as they go. -/
structure Verified : Prop where
  uses : ∀ inst, ∀ w ∈ (M.kind inst).operands, inst ∈ M.uses w
  strip : ∀ v, ReflTransGen M.LooksThrough v (M.stripPointerCasts v)

variable {M} (hM : M.Verified)

include hM

/-- Nothing is looked through to reach a private variable. -/
theorem eq_of_strip_private {pointer slot : V} (hprivate : M.Private slot)
    (hstrip : M.stripPointerCasts pointer = slot) : pointer = slot := by
  have hchain := hM.strip pointer
  rw [hstrip] at hchain
  rcases hchain.cases_tail with heq | ⟨v, -, hmem, hlooks⟩
  · exact heq.symm
  · have huser := hprivate.2 v (hM.uses v slot hmem)
    cases hkind : M.kind v <;> simp [hkind] at huser hlooks
    simp [huser] at hlooks

/-- An `alloca` is left as it is. -/
theorem strip_alloca {slot : V} (hkind : M.kind slot = .alloca) :
    M.stripPointerCasts slot = slot := by
  rcases (hM.strip slot).cases_head with heq | ⟨v, ⟨hmem, -⟩, -⟩
  · exact heq.symm
  · rw [hkind] at hmem
    cases hmem

end FunctionBody

end Verified

/-! ## Derived pointers are tracked -/

namespace FunctionBody

variable {V F : Type*} [DecidableEq V] (M : FunctionBody V F)

section Tracked

/-- The analysis follows the parameter to a value. -/
def Reached (root v : V) : Prop := ReflTransGen M.FollowedTo root v

/-- No use of a value that is reached writes or is unknown. -/
def NoUseWrites (root : V) : Prop :=
  ∀ v, M.Reached root v → ∀ user ∈ M.uses v, ∃ pushed,
    M.useState v user = some (.noWrite, pushed)

/-- A value that is reached is stored in a variable. -/
def Holds (root slot : V) : Prop :=
  ∃ inst value pointer, M.kind inst = .store value pointer ∧ M.Reached root value ∧
    M.stripPointerCasts pointer = slot

/-- **Derived pointers are tracked**: they are reached, or held by private variables. -/
structure Tracked (root : V) (st : State V) : Prop where
  values : ∀ v, st.IsDerived v → M.Reached root v
  locals : ∀ slot datum, M.kind slot = .alloca → st.values slot = some datum →
    ∃ round, datum.object = .variable slot round
  bytes : ∀ x ∈ st.derivedBytes, ∃ slot round,
    x.1 = .variable slot round ∧ M.Private slot ∧ M.Holds root slot

variable {M} {root : V} {st : State V} {inst : V}

/-- At the beginning there is only the parameter. -/
theorem Start.tracked (h : M.Start root st) : M.Tracked root st where
  values v hv := by
    obtain rfl := (h.derived v).mp hv
    exact .refl
  locals slot datum hkind hdatum := by
    rw [h.locals slot hkind] at hdatum
    cases hdatum
  bytes x hx := by
    rw [h.derivedBytes] at hx
    cases hx

/-- A value is reached that the use of a reached one pushes. -/
theorem Reached.push {v w user : V} {state : ParamWriteState} {pushed : List V}
    (hv : M.Reached root v) (huser : user ∈ M.uses v)
    (hstate : M.useState v user = some (state, pushed)) (hw : w ∈ pushed) : M.Reached root w :=
  ReflTransGen.tail hv ⟨user, huser, state, pushed, hstate, hw⟩

variable (hM : M.Verified) (hno : M.NoUseWrites root) (h : M.Tracked root st)

include h in
omit hM hno in
/-- All derived bytes are in private variables. -/
theorem Tracked.privateObject {x : Object V × ℤ} (hx : x ∈ st.derivedBytes) :
    M.PrivateObject x.1 := by
  obtain ⟨slot, round, hobject, hprivate, -⟩ := h.bytes x hx
  exact ⟨slot, round, hobject, hprivate⟩

include h in
/-- A derived pointer that is accessed in memory is that of a private variable. -/
theorem Tracked.accessed {pointer : V} {datum : Datum V} {size : ℕ} {x : Object V × ℤ}
    (haccess : M.Accesses st pointer datum) (hx : x ∈ bytesAt datum size)
    (hderived : x ∈ st.derivedBytes) : M.Private pointer ∧ M.Holds root pointer := by
  obtain ⟨slot, round, hobject, hprivate, hholds⟩ := h.bytes x hderived
  obtain rfl : pointer = slot := haccess.2 slot round (hx.1.symm.trans hobject) hprivate
  exact ⟨hprivate, hholds⟩

include h in
/-- A callee cannot keep a derived pointer. -/
theorem Tracked.not_canKeep {site : CallSite V F}
    (hretain : ∀ i arg, site.args[i]? = some arg → st.IsDerived arg → M.mayRetain inst i = false) :
    ¬ M.CanKeep st inst site := by
  rintro (⟨i, arg, harg, hderived, hkeep⟩ | ⟨x, hx, hpublic⟩)
  · rw [hretain i arg harg hderived] at hkeep
    cases hkeep
  · exact hpublic (h.privateObject hx)

include hM hno in
/-- What is loaded from a variable that holds reached values is reached. -/
theorem reached_load {slot : V} (hprivate : M.Private slot) (hholds : M.Holds root slot)
    (hkind : M.kind inst = .load slot) : M.Reached root inst := by
  obtain ⟨store, value, pointer, hstore, hvalue, hstrip⟩ := hholds
  have huser : store ∈ M.uses value := hM.uses store value (by simp [hstore, ValueKind.operands])
  obtain ⟨pushed, hstate⟩ := hno value hvalue store huser
  have hload : inst ∈ M.uses slot := hM.uses inst slot (by simp [hkind, ValueKind.operands])
  have hpushed : (M.uses slot).filter (M.loadsFrom slot) = pushed := by
    simp only [ParamModule.useState, hstore, hstrip, hprivate.1] at hstate
    split_ifs at hstate
    exact (Prod.mk.inj (Option.some.inj hstate)).2
  refine hvalue.push huser hstate ?_
  rw [← hpushed, List.mem_filter]
  exact ⟨hload, by simp [ParamModule.loadsFrom, hkind, strip_alloca hM hprivate.1]⟩

include hM hno h in
/-- **A derived result is reached.**

**Proof sketch.** A pointer that is loaded is held by a private variable, and the load is a use of
this variable, so it is pushed where the pointer has been stored. All other instructions have a
derived operand, whose use pushes them. -/
theorem Tracked.result (hfollowed : M.Followed st inst) {result : Datum V}
    (hyields : M.Yields st inst result) (hderived : result.isDerived = true) :
    M.Reached root inst := by
  -- an operand is derived, and its use pushes the instruction
  have hpush : ∀ w ∈ (M.kind inst).operands, st.IsDerived w →
      M.useState w inst = some (.noWrite, [inst]) → M.Reached root inst := by
    intro w hw hder hstate
    exact (h.values w hder).push (hM.uses inst w hw) hstate (List.mem_singleton_self inst)
  cases hkind : M.kind inst with
  | argument argNo => simp [Yields, hkind] at hyields
  | alloca =>
    simp only [Yields, hkind] at hyields
    obtain ⟨round, rfl⟩ := hyields
    cases hderived
  | load pointer =>
    simp only [Yields, hkind] at hyields
    obtain ⟨datum, haccess, hiff⟩ := hyields
    obtain ⟨x, hx, hbytes⟩ := hiff.mp hderived
    obtain ⟨hprivate, hholds⟩ := h.accessed haccess hx hbytes
    exact reached_load hM hno hprivate hholds hkind
  | store value pointer =>
    simp only [Yields, hkind] at hyields
    rw [hyields] at hderived
    cases hderived
  | atomicRMW pointer value =>
    simp only [Yields, hkind] at hyields
    obtain ⟨datum, haccess, hiff⟩ := hyields
    obtain ⟨x, hx, hbytes⟩ := hiff.mp hderived
    obtain ⟨hprivate, -⟩ := h.accessed haccess hx hbytes
    have huser := hprivate.2 inst (hM.uses inst pointer (by simp [hkind, ValueKind.operands]))
    simp [hkind] at huser
  | cmpXchg pointer compare newValue =>
    simp only [Yields, hkind] at hyields
    obtain ⟨datum, haccess, hiff⟩ := hyields
    obtain ⟨x, hx, hbytes⟩ := hiff.mp hderived
    obtain ⟨hprivate, -⟩ := h.accessed haccess hx hbytes
    have huser := hprivate.2 inst (hM.uses inst pointer (by simp [hkind, ValueKind.operands]))
    simp [hkind] at huser
  | call site =>
    simp only [Yields, hkind] at hyields
    simp only [Followed, hkind] at hfollowed
    exact absurd (hyields hderived) (h.not_canKeep hfollowed)
  | gep pointer indices =>
    simp only [Yields, hkind] at hyields
    obtain ⟨w, hw, hder⟩ := hyields.mp hderived
    exact hpush w (by simpa [hkind, ValueKind.operands] using hw) hder
      (by simp [ParamModule.useState, hkind])
  | cast opcode operand =>
    simp only [Yields, hkind] at hyields
    have hder := hyields.mp hderived
    simp only [Followed, hkind] at hfollowed
    refine hpush operand (by simp [hkind, ValueKind.operands]) hder ?_
    cases opcode <;> simp [ParamModule.useState, hkind, hfollowed hder]
  | phi incoming =>
    simp only [Yields, hkind] at hyields
    obtain ⟨w, hw, hvalue⟩ := hyields
    have hder : st.IsDerived w := ⟨result, hvalue, hderived⟩
    simp only [Followed, hkind] at hfollowed
    exact hpush w (by simpa [hkind, ValueKind.operands] using hw) hder
      (by simp [ParamModule.useState, hkind, hfollowed w hw hder])
  | select condition trueValue falseValue =>
    simp only [Yields, hkind] at hyields
    simp only [Followed, hkind] at hfollowed
    rcases hyields with hvalue | hvalue
    · have hder : st.IsDerived trueValue := ⟨result, hvalue, hderived⟩
      exact hpush trueValue (by simp [hkind, ValueKind.operands]) hder
        (by simp [ParamModule.useState, hkind, hfollowed (Or.inl hder)])
    · have hder : st.IsDerived falseValue := ⟨result, hvalue, hderived⟩
      exact hpush falseValue (by simp [hkind, ValueKind.operands]) hder
        (by simp [ParamModule.useState, hkind, hfollowed (Or.inr hder)])
  | derives operands =>
    simp only [Yields, hkind] at hyields
    obtain ⟨w, hw, hder⟩ := hyields hderived
    simp only [Followed, hkind] at hfollowed
    exact absurd hder (hfollowed w hw)
  | plain =>
    simp only [Yields, hkind] at hyields
    rw [hyields] at hderived
    cases hderived

include hM h in
/-- **Derived bytes are in private variables** after an instruction. -/
theorem Tracked.bytes_after (hfollowed : M.Followed st inst) {after : Set (Object V × ℤ)}
    (hleaves : M.Leaves st inst after) : ∀ x ∈ after, ∃ slot round,
      x.1 = .variable slot round ∧ M.Private slot ∧ M.Holds root slot := by
  intro x hx
  cases hkind : M.kind inst with
  | store value pointer =>
    simp only [Leaves, hkind] at hleaves
    obtain ⟨datum, haccess, hafter⟩ := hleaves
    rcases (hafter x).mp hx with ⟨hat, hder⟩ | ⟨-, hbefore⟩
    swap
    · exact h.bytes x hbefore
    simp only [Followed, hkind] at hfollowed
    have hprivate := hfollowed hder
    have heq := eq_of_strip_private hM hprivate rfl
    rw [← heq] at hprivate
    obtain ⟨round, hobject⟩ := h.locals pointer datum hprivate.1 haccess.1
    exact ⟨pointer, round, hat.1.trans hobject, hprivate,
      inst, value, pointer, hkind, h.values value hder, heq.symm⟩
  | atomicRMW pointer value =>
    simp only [Leaves, hkind] at hleaves
    simp only [Followed, hkind] at hfollowed
    obtain ⟨datum, -, hafter⟩ := hleaves
    exact h.bytes x ((hafter x hx).resolve_right fun hnew => hfollowed hnew.2)
  | cmpXchg pointer compare newValue =>
    simp only [Leaves, hkind] at hleaves
    simp only [Followed, hkind] at hfollowed
    obtain ⟨datum, -, hafter⟩ := hleaves
    exact h.bytes x ((hafter x hx).resolve_right fun hnew => hfollowed hnew.2)
  | call site =>
    simp only [Leaves, hkind] at hleaves
    simp only [Followed, hkind] at hfollowed
    exact h.bytes x ((hleaves x hx).resolve_right fun hnew => h.not_canKeep hfollowed hnew.1)
  | _ =>
    simp only [Leaves, hkind] at hleaves
    exact h.bytes x (hleaves ▸ hx)

include hM hno in
/-- **A step keeps derived pointers tracked**, if they only go where they are followed. -/
theorem Tracked.step {st' : State V} (hfollowed : M.Followed st inst)
    (hstep : M.Step st inst st') (h : M.Tracked root st) : M.Tracked root st' := by
  obtain ⟨-, result, hyields, hvalues, hleaves⟩ := hstep
  refine ⟨?_, ?_, h.bytes_after hM hfollowed hleaves⟩
  · rintro v ⟨datum, hdatum, hderived⟩
    rw [hvalues] at hdatum
    by_cases hv : v = inst
    · subst hv
      rw [Function.update_self] at hdatum
      obtain rfl := Option.some.inj hdatum
      exact h.result hM hno hfollowed hyields hderived
    · rw [Function.update_of_ne hv] at hdatum
      exact h.values v ⟨datum, hdatum, hderived⟩
  · intro slot datum hkind hdatum
    rw [hvalues] at hdatum
    by_cases hslot : slot = inst
    · subst hslot
      rw [Function.update_self] at hdatum
      obtain rfl := Option.some.inj hdatum
      simp only [Yields, hkind] at hyields
      obtain ⟨round, rfl⟩ := hyields
      exact ⟨round, rfl⟩
    · rw [Function.update_of_ne hslot] at hdatum
      exact h.locals slot datum hkind hdatum

include hM hno h in
/-- Where derived pointers are tracked, no instruction writes through one. -/
theorem Tracked.not_writesDerived : ¬ M.WritesDerived st inst := by
  intro hwrites
  -- the use of a derived operand does not write
  have huse : ∀ w ∈ (M.kind inst).operands, st.IsDerived w →
      ∃ pushed, M.useState w inst = some (.noWrite, pushed) := by
    intro w hw hder
    exact hno w (h.values w hder) inst (hM.uses inst w hw)
  cases hkind : M.kind inst with
  | store value pointer =>
    simp only [WritesDerived, hkind] at hwrites
    obtain ⟨pushed, hstate⟩ := huse pointer (by simp [hkind, ValueKind.operands]) hwrites
    simp [ParamModule.useState, hkind] at hstate
  | atomicRMW pointer value =>
    simp only [WritesDerived, hkind] at hwrites
    obtain ⟨pushed, hstate⟩ := huse pointer (by simp [hkind, ValueKind.operands]) hwrites
    simp [ParamModule.useState, hkind] at hstate
  | cmpXchg pointer compare newValue =>
    simp only [WritesDerived, hkind] at hwrites
    obtain ⟨pushed, hstate⟩ := huse pointer (by simp [hkind, ValueKind.operands]) hwrites
    simp [ParamModule.useState, hkind] at hstate
  | call site =>
    simp only [WritesDerived, hkind] at hwrites
    rcases hwrites with ⟨i, arg, harg, hder, hmay⟩ | ⟨x, hx, hpublic⟩
    · have hmem : arg ∈ (M.kind inst).operands := by
        rw [hkind]
        exact List.mem_of_getElem? harg
      obtain ⟨pushed, hstate⟩ := huse arg hmem hder
      simp only [ParamModule.useState, hkind, Option.map_eq_some_iff] at hstate
      obtain ⟨state, hcall, heq⟩ := hstate
      obtain ⟨rfl, -⟩ := Prod.mk.inj heq
      refine hmay ((M.callArg_of_callState hcall).2 i ?_)
      rw [List.mem_zipIdx_iff_getElem?]
      exact harg
    · exact hpublic (h.privateObject hx)
  | _ => simp [WritesDerived, hkind] at hwrites

end Tracked

/-! ## When advice is safe -/

section Advice

variable {M} (hM : M.Verified)

include hM

/-- Derived pointers are tracked in all executions in which they only go where they are followed. -/
theorem Run.tracked {root : V} (hno : M.NoUseWrites root) {st : State V}
    (hrun : M.Run M.Followed root st) : M.Tracked root st := by
  induction hrun with
  | start hstart => exact hstart.tracked
  | step _ hfollowed hstep ih => exact ih.step hM hno hfollowed hstep

/-- **When advice is safe**: in all executions in which derived pointers only go where they are
followed, a parameter that is not written through, as the analysis says, is not written through. -/
theorem safeAdvice_of_followed [Fintype V] (root : V) : M.SafeAdvice M.Followed root := by
  intro hadvice st hrun inst _
  have hno : M.NoUseWrites root := (M.valueWriteState_eq_noWrite_iff root).mp hadvice
  exact (hrun.tracked hM hno).not_writesDerived hM hno

end Advice

end FunctionBody

/-! ## A pointer that is converted -/

section Converted

/-- The values of a function: its parameter, three instructions, and a constant. -/
inductive Line
  | parameter | first | second | last | constant
  deriving DecidableEq

instance : Fintype Line :=
  ⟨{.parameter, .first, .second, .last, .constant}, fun v => by cases v <;> decide⟩

/-- The instructions: the parameter is converted to an integer and back, and then written through; or
it is offset, loaded from, and returned. -/
def lineKind (converts : Bool) : Line → ValueKind Line Empty
  | .parameter => .argument 0
  | .first => if converts then .cast .ptrToInt .parameter else .gep .parameter []
  | .second => if converts then .cast .other .first else .load .first
  | .last => if converts then .store .constant .second else .plain
  | .constant => .plain

/-- A function with these instructions. -/
def converting (converts : Bool) : FunctionBody Line Empty where
  kind := lineKind converts
  isPointer v := match v with
    | .parameter => true
    | .first => !converts
    | .second => converts
    | _ => false
  stripPointerCasts := id
  uses w := [.first, .second, .last].filter fun user => w ∈ (lineKind converts user).operands
  function := Empty.elim
  instructions := [.first, .second, .last]
  accessSize _ := 4
  mayRetain _ _ := false

theorem converting_verified (converts : Bool) : (converting converts).Verified where
  uses inst w hw := by
    revert hw
    revert w inst
    cases converts <;> decide
  strip v := .refl

/-- The parameter points to some object. -/
def parameterState : State Line where
  values v := match v with
    | .parameter => some ⟨.outside 0, 0, true⟩
    | .constant => some ⟨.outside 1, 0, false⟩
    | _ => none
  derivedBytes := ∅

/-- The first instruction has the address, and the second one has it too, or what is loaded. -/
def secondState (converts : Bool) : State Line where
  values := Function.update
    (Function.update parameterState.values .first (some ⟨.outside 0, 0, true⟩)) .second
    (some ⟨.outside 0, 0, converts⟩)
  derivedBytes := ∅

/-- The state between them. -/
def firstState : State Line where
  values := Function.update parameterState.values .first (some ⟨.outside 0, 0, true⟩)
  derivedBytes := ∅

theorem parameterState_isDerived (v : Line) : parameterState.IsDerived v ↔ v = .parameter := by
  cases v <;> simp [State.IsDerived, parameterState]

theorem firstState_first : firstState.IsDerived .first :=
  ⟨⟨.outside 0, 0, true⟩, rfl, rfl⟩

/-- Both instructions are executed. -/
theorem converting_run (converts : Bool) (ok : State Line → Line → Prop)
    (hfirst : ok parameterState .first) (hsecond : ok firstState .second) :
    (converting converts).Run ok .parameter (secondState converts) := by
  have hstart : (converting converts).Start .parameter parameterState := by
    refine ⟨parameterState_isDerived, ?_, ?_, rfl⟩
    · intro inst hinst
      cases inst <;> first | rfl | simp [converting] at hinst
    · intro slot hslot
      cases converts <;> cases slot <;> cases hslot
  have hparameter := (parameterState_isDerived .parameter).mpr rfl
  have hone : (converting converts).Step parameterState .first firstState := by
    refine ⟨List.mem_cons_self, ⟨.outside 0, 0, true⟩, ?_, rfl, ?_⟩
    · cases converts
      · exact iff_of_true rfl ⟨.parameter, List.mem_singleton_self _, hparameter⟩
      · exact iff_of_true rfl hparameter
    · cases converts <;> rfl
  have htwo : (converting converts).Step firstState .second (secondState converts) := by
    refine ⟨by simp [converting], ⟨.outside 0, 0, converts⟩, ?_, rfl, ?_⟩
    · cases converts
      · exact ⟨⟨.outside 0, 0, true⟩, ⟨rfl, fun _ _ h => by cases h⟩, by simp [firstState]⟩
      · exact iff_of_true rfl firstState_first
    · cases converts <;> rfl
  exact .step (.step (.start hstart) hfirst hone) hsecond htwo

/-- The theorem, for a parameter that is offset and loaded from. -/
theorem safeAdvice_of_followed_loaded :
    ¬ (converting false).WritesDerived (secondState false) .last :=
  FunctionBody.safeAdvice_of_followed (converting_verified false) .parameter (by decide)
    (secondState false) (converting_run false _ trivial trivial) .last (by simp [converting])

/-- **Advice is not always safe**: a conversion to an integer is taken to be harmless. -/
theorem not_safeAdvice_converted :
    ¬ (converting true).SafeAdvice (fun _ _ => True) .parameter := by
  intro h
  have hno := h (by decide) (secondState true) (converting_run true _ trivial trivial) .last
    (by simp [converting])
  exact hno ⟨⟨.outside 0, 0, true⟩, rfl, rfl⟩

end Converted

end StackAnalyzer.ConstParams
