import StackAnalyzer.Llvm.Ir

set_option relaxedAutoImplicit false
set_option autoImplicit false

/-!
# Constant offsets of pointers

The bytes that constant `getelementptr`s add to a pointer. Each index is a step of its own: the
first one counts objects of the source element type, and the others go into an array or to a field
of a struct. A pointer derives from a slot by a chain of constant `getelementptr`s and casts, and
its offset is the sum of all steps.

## Main definitions

* `StackAnalyzer.Llvm.DataLayout` — the sizes of types, and the offsets of fields.
* `StackAnalyzer.Llvm.IndexStep`, `StackAnalyzer.Llvm.DataLayout.gepSteps` — the steps of a
  `getelementptr`.
* `StackAnalyzer.Llvm.Derives` — the pointers that derive from a slot, with their steps.
* `StackAnalyzer.Llvm.totalOffset`, `StackAnalyzer.Llvm.InBytes` — the offset, and whether it is one
  of an object.

## Main results

* `StackAnalyzer.Llvm.totalOffset_eraseIdx` — the offset without one of the steps.
-/

namespace StackAnalyzer.Llvm

open CrossTU

/-! ## Sizes -/

/-- What `DataLayout` answers: `getTypeAllocSize`, and the offset of a field in a struct with some
elements. -/
structure DataLayout where
  typeAllocSize : Ty → ℕ
  elementOffset : List Ty → ℕ → ℕ
  typeAllocSize_array : ∀ numElements elementType,
    typeAllocSize (.array numElements elementType) = numElements * typeAllocSize elementType

/-! ## Steps -/

/-- A constant index; `getSExtValue` is defined for it. -/
structure IndexConstant where
  width : ℕ
  bits : BitVec width
  significant : -2 ^ 63 ≤ bits.toInt ∧ bits.toInt < 2 ^ 63

/-- `getSExtValue`. -/
def IndexConstant.sext (index : IndexConstant) : ℤ := index.bits.toInt

/-- `getZExtValue` as an `unsigned`, for the number of a field. -/
def IndexConstant.field (index : IndexConstant) : ℕ := index.bits.toNat % 2 ^ 32

/-- What one index does: it counts elements of some size, or it goes to a field. -/
inductive IndexStep
  | element (index : ℤ) (stride : ℕ)
  | field (number : ℤ) (offset : ℕ)

/-- The bytes that an index adds. -/
def IndexStep.offset : IndexStep → ℤ
  | .element index stride => index * stride
  | .field _ offset => offset

/-- The index itself. -/
def IndexStep.index : IndexStep → ℤ
  | .element index _ => index
  | .field number _ => number

/-- The bytes that all steps add. -/
def totalOffset (steps : List IndexStep) : ℤ := (steps.map IndexStep.offset).sum

/-- An offset is one of a byte of an object. -/
def InBytes (size : ℕ) (offset : ℤ) : Prop := 0 ≤ offset ∧ offset < size

instance (size : ℕ) (offset : ℤ) : Decidable (InBytes size offset) :=
  inferInstanceAs (Decidable (0 ≤ offset ∧ offset < size))

@[simp]
theorem totalOffset_nil : totalOffset [] = 0 := rfl

@[simp]
theorem totalOffset_cons (step : IndexStep) (steps : List IndexStep) :
    totalOffset (step :: steps) = step.offset + totalOffset steps := by
  simp [totalOffset]

/-- **One step** apart from the others. -/
theorem totalOffset_eraseIdx {steps : List IndexStep} {position : ℕ} {step : IndexStep}
    (h : steps[position]? = some step) :
    totalOffset steps = totalOffset (steps.eraseIdx position) + step.offset := by
  induction steps generalizing position with
  | nil => simp at h
  | cons first steps ih =>
    cases position with
    | zero =>
      obtain rfl : first = step := by simpa using h
      rw [List.eraseIdx_cons_zero, totalOffset_cons, add_comm]
    | succ position =>
      rw [List.eraseIdx_cons_succ, totalOffset_cons, totalOffset_cons, ih (by simpa using h),
        add_assoc]

namespace DataLayout

variable (layout : DataLayout)

/-- The steps of the indices that go into a type. -/
def innerSteps : Ty → List IndexConstant → Option (List IndexStep)
  | _, [] => some []
  | .array _ elementType, index :: indices =>
    (innerSteps elementType indices).map fun steps =>
      .element index.sext (layout.typeAllocSize elementType) :: steps
  | .struct elements, index :: indices =>
    match elements[index.field]? with
    | none => none
    | some ty =>
      (innerSteps ty indices).map fun steps =>
        .field index.sext (layout.elementOffset elements index.field) :: steps
  | _, _ :: _ => none

/-- The steps of a `getelementptr`. -/
def gepSteps (sourceElementType : Ty) : List IndexConstant → Option (List IndexStep)
  | [] => some []
  | index :: indices =>
    (layout.innerSteps sourceElementType indices).map fun steps =>
      .element index.sext (layout.typeAllocSize sourceElementType) :: steps

/-- There is a step for each index, and it keeps the index. -/
theorem innerSteps_index {ty : Ty} {indices : List IndexConstant} {steps : List IndexStep}
    (h : layout.innerSteps ty indices = some steps) :
    steps.map IndexStep.index = indices.map IndexConstant.sext := by
  induction indices generalizing ty steps with
  | nil =>
    cases ty <;> (obtain rfl : [] = steps := by simpa [innerSteps] using h) <;> rfl
  | cons index indices ih =>
    cases ty with
    | array numElements elementType =>
      obtain ⟨steps, hsteps, rfl⟩ := Option.map_eq_some_iff.mp h
      rw [List.map_cons, List.map_cons, ih hsteps]
      rfl
    | struct elements =>
      unfold innerSteps at h
      split at h
      · cases h
      · obtain ⟨steps, hsteps, rfl⟩ := Option.map_eq_some_iff.mp h
        rw [List.map_cons, List.map_cons, ih hsteps]
        rfl
    | _ => cases h

theorem gepSteps_index {ty : Ty} {indices : List IndexConstant} {steps : List IndexStep}
    (h : layout.gepSteps ty indices = some steps) :
    steps.map IndexStep.index = indices.map IndexConstant.sext := by
  cases indices with
  | nil =>
    obtain rfl : [] = steps := by simpa [gepSteps] using h
    rfl
  | cons index indices =>
    obtain ⟨steps, hsteps, rfl⟩ := Option.map_eq_some_iff.mp h
    rw [List.map_cons, List.map_cons, layout.innerSteps_index hsteps]
    rfl

theorem gepSteps_length {ty : Ty} {indices : List IndexConstant} {steps : List IndexStep}
    (h : layout.gepSteps ty indices = some steps) : steps.length = indices.length := by
  simpa using congrArg List.length (layout.gepSteps_index h)

end DataLayout

/-! ## Pointers that derive from a slot -/

section Derives

variable {F V B : Type*} (mod : Module F V B)

/-- A constant as an index. -/
def Module.indexConstant (v : V) : Option IndexConstant :=
  match mod.value v with
  | .constantInt width bits =>
    if significant : -2 ^ 63 ≤ bits.toInt ∧ bits.toInt < 2 ^ 63 then
      some ⟨width, bits, significant⟩
    else none
  | _ => none

/-- All indices of a `getelementptr`, if they are constants. -/
def Module.indexConstants (indices : List V) : Option (List IndexConstant) :=
  indices.mapM mod.indexConstant

/-- A cast from a pointer to a pointer. -/
def Module.IsPointerCast (v operand : V) : Prop :=
  (mod.type v).isPointerTy = true ∧ (mod.type operand).isPointerTy = true

/-- A pointer derives from a slot by a chain of constant `getelementptr`s and casts, with all steps
of the chain, and whether all casts are bitcasts. -/
inductive Derives (layout : DataLayout) (slot : V) : V → List IndexStep → Bool → Prop
  | slot : Derives layout slot slot [] true
  | gep {v pointer : V} {sourceElementType : Ty} {indices : List V}
      {constants : List IndexConstant} {own steps : List IndexStep} {plain : Bool} :
      mod.value v = .getElementPtr sourceElementType pointer indices →
      mod.indexConstants indices = some constants →
      layout.gepSteps sourceElementType constants = some own →
      Derives layout slot pointer steps plain → Derives layout slot v (steps ++ own) plain
  | bitcast {v operand : V} {steps : List IndexStep} {plain : Bool} :
      mod.value v = .cast .bitcast operand → mod.IsPointerCast v operand →
      Derives layout slot operand steps plain → Derives layout slot v steps plain
  | otherCast {v operand : V} {steps : List IndexStep} {plain : Bool} :
      mod.value v = .cast .other operand → mod.IsPointerCast v operand →
      Derives layout slot operand steps plain → Derives layout slot v steps false

variable {mod}

/-- The value of a constant index. -/
theorem value_of_indexConstant {v : V} {index : IndexConstant}
    (h : mod.indexConstant v = some index) :
    mod.value v = .constantInt index.width index.bits := by
  unfold Module.indexConstant at h
  split at h
  · next width bits hvalue =>
    split_ifs at h
    obtain rfl := Option.some.inj h
    exact hvalue
  · cases h

/-- The constants of the indices, one by one. -/
theorem indexConstants_forall₂ {indices : List V} {constants : List IndexConstant}
    (h : mod.indexConstants indices = some constants) :
    List.Forall₂ (fun v index => mod.indexConstant v = some index) indices constants := by
  induction indices generalizing constants with
  | nil =>
    obtain rfl : [] = constants := by simpa [Module.indexConstants] using h
    exact .nil
  | cons v indices ih =>
    unfold Module.indexConstants at h ih
    rw [List.mapM_cons] at h
    cases hindex : mod.indexConstant v with
    | none => simp [hindex] at h
    | some index =>
      cases hrest : indices.mapM mod.indexConstant with
      | none => simp [hindex, hrest] at h
      | some rest =>
        obtain rfl : index :: rest = constants := by simpa [hindex, hrest] using h
        exact .cons hindex (ih hrest)

/-- A pointer that derives from a slot is the slot, or an instruction. -/
theorem Derives.value_ne {layout : DataLayout} {slot v : V} {steps : List IndexStep} {plain : Bool}
    (h : Derives mod layout slot v steps plain) (hslot : (mod.value slot).isAlloca = true)
    (ty : Ty) : mod.value v ≠ .globalVariable ty := by
  intro hvalue
  cases h with
  | slot =>
    rw [hvalue] at hslot
    cases hslot
  | gep hgep => exact absurd (hvalue.symm.trans hgep) (by simp)
  | bitcast hcast => exact absurd (hvalue.symm.trans hcast) (by simp)
  | otherCast hcast => exact absurd (hvalue.symm.trans hcast) (by simp)

end Derives

end StackAnalyzer.Llvm
