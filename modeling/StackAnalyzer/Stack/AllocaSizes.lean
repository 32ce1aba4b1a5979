import StackAnalyzer.Bounds.ConstantIndices
import StackAnalyzer.Stack.LocalStack

set_option relaxedAutoImplicit false
set_option autoImplicit false

/-!
# Constants in frames

Where a frame takes a value for a constant, the value is that constant in each run whose loads find
constants; and the size of an alloca is the one that is allocated, if the casts of its count keep
the number, too. The last constant that is stored may not be the one that a load finds, so otherwise
a constant may be wrong.

## Main definitions

* `StackAnalyzer.Frames.ConstantRight`, `StackAnalyzer.Frames.SizeRight` — the constant, or the size
  that is taken for the one of a value, is right in a state.
* `StackAnalyzer.Frames.SoundConstants` — all constants and sizes are right in all runs.
* `StackAnalyzer.Frames.KeepsSize` — casts of a count keep the size.

## Main results

* `StackAnalyzer.Frames.recoveredConstants_right` — when they are right.
* `StackAnalyzer.Frames.not_soundConstants_reassigned` — a variable that is assigned twice.
-/

namespace StackAnalyzer.Frames

open CrossTU Llvm Machine Values

variable {F V B : Type*} [DecidableEq V] [Fintype V] (mod : Module F V B) (layout : DataLayout)
  (f : F)

/-! ## Right constants -/

/-- **The constant of a value is right**: the value is the constant, cast again. -/
def ConstantRight (v : V) (st : State V) : Prop :=
  ∀ c, tryGetConstFromValue mod f v = some c → ∀ x, st.read mod v = some x → x = recast mod v c

/-- **The size of an alloca is right**: it is the one of an element times the count. -/
def SizeRight (ty : Ty) (arraySize : V) (st : State V) : Prop :=
  ∀ size, allocaSize mod layout f ty arraySize = some size → ∀ x, st.read mod arraySize = some x →
    size = layout.typeAllocSize ty * x.2.toNat

/-- All constants and all sizes are right, in all runs. -/
def SoundConstants : Prop :=
  ∀ block rest st trace, Run mod f block rest st trace → ∀ v, mod.LocalTo f v →
    ConstantRight mod f v st ∧ ∀ ty, SizeRight mod layout f ty v st

/-- The casts of a count keep the size, and it has 64 bits. -/
def KeepsSize (ty : Ty) (arraySize : V) (st : State V) : Prop :=
  ∀ x, st.read mod arraySize = some x → ∃ base, st.read mod (mod.stripCasts arraySize) = some base ∧
    layout.typeAllocSize ty * base.2.toNat = layout.typeAllocSize ty * x.2.toNat ∧
    layout.typeAllocSize ty * x.2.toNat < 2 ^ 64

variable {mod layout f}

/-- The count of an alloca is its constant, in 64 bits. -/
theorem allocaCount_eq {arraySize : V} {count : ℕ}
    (h : allocaCount mod f arraySize = some count) :
    ∃ c, tryGetConstFromValue mod f arraySize = some c ∧ count = c.2.toNat % 2 ^ 64 := by
  unfold allocaCount at h
  split at h
  · next width bits hvalue =>
    have hcast : ¬ IsCast mod arraySize := by
      rintro ⟨op, operand, hop⟩
      exact absurd (hvalue.symm.trans hop) (by simp)
    have hbase := (stripCasts_of_not_cast hcast ⟨width, bits⟩).1
    refine ⟨⟨width, bits⟩, ?_, (Option.some.inj h).symm⟩
    rw [tryGetConstFromValue, hbase, hvalue]
  · obtain ⟨c, hc, rfl⟩ := Option.map_eq_some_iff.mp h
    exact ⟨c, hc, rfl⟩

/-- A size is right when the value is the constant, cast again, and the casts keep the size. -/
theorem sizeRight_of_holdsConstant {ty : Ty} {arraySize : V} {st : State V}
    (h : ∀ c, tryGetConstFromValue mod f arraySize = some c → HoldsConstant mod arraySize c st)
    (hkeeps : KeepsSize mod layout ty arraySize st) :
    SizeRight mod layout f ty arraySize st := by
  intro size hsize x hread
  obtain ⟨count, hcount, rfl⟩ := Option.map_eq_some_iff.mp hsize
  obtain ⟨c, hc, rfl⟩ := allocaCount_eq hcount
  obtain ⟨base, hbase, hsame, hlt⟩ := hkeeps x hread
  obtain rfl : base = c := (h c hc).read_base hc hbase
  rw [Nat.mul_mod_mod, hsame, Nat.mod_eq_of_lt hlt]

/-- **Recovered constants are right** in each state of each run whose loads find constants: a value
with casts between integers only is the constant that it is taken for, cast again, and the size of
an alloca is the one that is allocated if these casts keep it. -/
theorem recoveredConstants_right (hmod : mod.Verified) (hf : f ∈ mod.functions) {block : B}
    {rest : List V} {trace : List (V × State V)} {st : State V}
    (hrun : Run mod f block rest st trace) {v : V} (hv : mod.LocalTo f v)
    (hresizes : OnlyResizes mod v) (hloads : LoadsConstants mod f v trace) :
    ConstantRight mod f v st ∧
      ∀ ty, KeepsSize mod layout ty v st → SizeRight mod layout f ty v st := by
  have hholds : ∀ c, tryGetConstFromValue mod f v = some c → HoldsConstant mod v c st :=
    fun c hc => holdsConstant_of_run hmod hf hv hc hresizes hrun hloads
  refine ⟨fun c hc x hread => (hholds c hc).read hc .refl hread, fun ty hkeeps => ?_⟩
  exact sizeRight_of_holdsConstant hholds hkeeps

/-! ## A variable that is assigned twice -/

/-- The values of `int n = 4; if (reassigned) n = arg; char buf[n];`: the constants, the argument,
the variable, the stores, the count and the array. -/
def vlaValue (reassigned : Bool) : Fin 10 → Value (Fin 10) (Fin 1) Unit
  | 0 => .constantInt 32 4
  | 1 => .argument 0 false
  | 2 => .constantInt 32 1
  | 3 => .alloca (.int ⟨32, isWidth_thirtyTwo⟩) 2 false
  | 4 => .store 0 3
  | 5 => .store (if reassigned then 1 else 0) 3
  | 6 => .load 3
  | 7 => .cast .zext 6
  | 8 => .alloca (.int ⟨8, isWidth_eight⟩) 7 false
  | 9 => .ret

/-- The types of these values. -/
def vlaType : Fin 10 → Ty
  | 0 | 1 | 2 | 6 => .int ⟨32, isWidth_thirtyTwo⟩
  | 3 | 8 => .ptr
  | 7 => .int ⟨64, isWidth_sixtyFour⟩
  | _ => .other

/-- The module of this function. -/
def vla (reassigned : Bool) : Module Unit (Fin 10) (Fin 1) :=
  singleFunction (vlaValue reassigned) vlaType (fun _ => [3, 4, 5, 6, 7, 8, 9]) (fun _ => [])
    (by decide)

/-- At the beginning, the argument has a value. -/
def vlaStart (arg : BitVec 32) : State (Fin 10) where
  values v := if v = 1 then some ⟨32, arg⟩ else none
  memory _ := ⟨0, 0⟩

/-- What the instructions up to the count give, the last one first. -/
def vlaResults (reassigned : Bool) (arg : BitVec 32) : List (Fin 10 × Word) :=
  [(7, ⟨64, (if reassigned then arg else 4).setWidth 64⟩), (6, ⟨32, if reassigned then arg else 4⟩),
    (5, ⟨0, 0⟩), (4, ⟨0, 0⟩), (3, ⟨64, 0⟩)]

/-- The run up to the count. -/
theorem vla_run (reassigned : Bool) (arg : BitVec 32) :
    Run (vla reassigned) () 0 [8, 9]
      ((vlaStart arg).afterAll (vla reassigned) (vlaResults reassigned arg))
      ((vlaStart arg).traceOf (vla reassigned) (vlaResults reassigned arg)) := by
  have hinitial : Initial (vla reassigned) () (vlaStart arg) :=
    initial_single (by decide +revert) rfl
  have hstart := Run.start (vla reassigned) () 0 rfl hinitial
  have hvariable := hstart.after ⟨64, 0⟩ trivial rfl (by rintro value pointer ⟨⟩)
  have hfirst := hvariable.after ⟨0, 0⟩ trivial rfl (by rintro value pointer ⟨⟩; rfl)
  have hsecond := hfirst.after ⟨0, 0⟩ trivial rfl (by
    rintro value pointer ⟨⟩
    cases reassigned <;> rfl)
  have hload := hsecond.after ⟨32, if reassigned then arg else 4⟩
    (by cases reassigned <;> exact fun _ => rfl) rfl
    (by rintro value pointer ⟨⟩)
  exact hload.after ⟨64, (if reassigned then arg else 4).setWidth 64⟩ ⟨_, rfl, rfl⟩ rfl
    (by rintro value pointer ⟨⟩)

/-- The module is a verified one. -/
theorem vla_verified (reassigned : Bool) : (vla reassigned).Verified :=
  singleFunction_verified (by decide +revert)

/-- The theorem at the count of an array whose size is assigned once. -/
theorem recoveredConstants_right_once :
    ConstantRight (vla false) () 7 ((vlaStart 1000).afterAll (vla false) (vlaResults false 1000)) ∧
      ∀ ty, KeepsSize (vla false) Bounds.byteLayout ty 7
          ((vlaStart 1000).afterAll (vla false) (vlaResults false 1000)) →
        SizeRight (vla false) Bounds.byteLayout () ty 7
          ((vlaStart 1000).afterAll (vla false) (vlaResults false 1000)) := by
  refine recoveredConstants_right (vla_verified false) (by decide) (vla_run false 1000)
    (fun _ => by decide) ?_ ?_
  · intro w op operand hw hvalue
    fin_cases w <;> cases hvalue
    exact trivial
  · rintro ptr ⟨⟩ after st before htrace
    obtain rfl : before = (vlaStart 1000).traceOf (vla false) [(5, ⟨0, 0⟩), (4, ⟨0, 0⟩),
        (3, ⟨64, 0⟩)] := by
      obtain _ | ⟨_, _ | ⟨_, _ | ⟨_, _ | ⟨_, _ | ⟨_, _ | _⟩⟩⟩⟩⟩ := after <;> cases htrace
      rfl
    exact ⟨5, 0, ⟨32, 4⟩, _, [], _, [3, 4], [6, 7, 8, 9], rfl, fun _ h => absurd h List.not_mem_nil,
      rfl, rfl, rfl, rfl, fun _ h => absurd h List.not_mem_nil⟩

/-- **Recovered constants are not always right**: the variable has the value of the argument, but
the constant is four, and so is the size of the array. -/
theorem not_soundConstants_reassigned :
    ¬ SoundConstants (vla true) Bounds.byteLayout () := by
  intro h
  have hright := (h _ _ _ _ (vla_run true 1000) 7 (fun _ => by decide)).1 ⟨32, 4⟩ (by decide)
    ⟨64, 1000⟩ (by decide)
  exact absurd hright (by decide)

end StackAnalyzer.Frames
