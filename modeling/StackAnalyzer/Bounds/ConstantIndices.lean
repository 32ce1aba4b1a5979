import StackAnalyzer.Bounds.Profiles
import StackAnalyzer.Llvm.ConstantOffsets

set_option relaxedAutoImplicit false
set_option autoImplicit false

/-!
# Constant indices into arrays of the stack frame

Which accesses at a constant offset from an array are reported, against those that start outside of
the array. The pass looks at the last `getelementptr` before the access only. It compares one of the
indices with the number of elements of the type that the `getelementptr` goes through, or of the
array, whatever the offset of the pointer that it starts from and the other indices.

## Main definitions

* `StackAnalyzer.Bounds.testedIndex` — the index that is compared, and with what.
* `StackAnalyzer.Bounds.AgreesAt` — when one comparison tells the offset.
* `StackAnalyzer.Bounds.ReportsAccess` — an access is reported.

## Main results

* `StackAnalyzer.Bounds.agrees_forall_iff` — for which other steps all comparisons are right.
* `StackAnalyzer.Bounds.reportsAccess_iff_outside_iff` — when the report is right.
-/

namespace StackAnalyzer.Bounds

open CrossTU Maps Llvm Smt Consulting

/-! ## The compared index -/

section Tested

/-- The first index, and the number of elements of the buffer. -/
def firstIndex (fallback : Option ℕ) (indices : List IndexConstant) : Option (ℕ × ℕ) :=
  match fallback, indices with
  | some (count + 1), _ :: _ => some (0, count + 1)
  | _, _ => none

/-- The position of the index that is compared and the number of elements that it is compared with,
from the type that a `getelementptr` goes through, or else from the number of elements of the
buffer. -/
def testedIndex (fallback : Option ℕ) (sourceElementType : Ty) (indices : List IndexConstant) :
    Option (ℕ × ℕ) :=
  match sourceElementType, indices with
  | .array (count + 1) _, _ :: _ :: _ => some (1, count + 1)
  | .array 0 _, _ :: _ :: _ => firstIndex fallback indices
  | .array _ _, _ => none
  | .struct elements, _ :: number :: _ :: _ =>
    match elements[number.field]? with
    | some (.array (count + 1) _) => some (2, count + 1)
    | _ => firstIndex fallback indices
  | _, _ => firstIndex fallback indices

/-- An index is inside of its array. -/
def InRange (count : ℕ) (index : ℤ) : Prop := 0 ≤ index ∧ index < count

/-- **One comparison tells the offset**: the index of a step is in range if and only if the offset,
which is that of the step and of the others, is one of a byte of the object. Without a comparison
the offset is one anyway. -/
def AgreesAt (size : ℕ) (steps : List IndexStep) : Option (ℕ × ℕ) → Prop
  | none => InBytes size (totalOffset steps)
  | some (position, count) => ∀ step, steps[position]? = some step →
    (InRange count step.index ↔
      InBytes size (totalOffset (steps.eraseIdx position) + step.offset))

/-- The condition for a step that is there. -/
theorem agreesAt_iff {size position count : ℕ} {steps : List IndexStep} {step : IndexStep}
    (hstep : steps[position]? = some step) :
    AgreesAt size steps (some (position, count)) ↔
      (InRange count step.index ↔ InBytes size (totalOffset steps)) := by
  rw [totalOffset_eraseIdx hstep]
  constructor
  · exact fun hagrees => hagrees step hstep
  · intro hagrees step' hstep'
    obtain rfl : step = step' := Option.some.inj (hstep.symm.trans hstep')
    exact hagrees

/-- **When all comparisons are right**, whatever the index: the other steps stay in the first
element, the last element starts before the end of the object, and one more does not. -/
theorem agrees_forall_iff {size count stride : ℕ} {rest : ℤ} (hcount : 0 < count)
    (hstride : 0 < stride) :
    (∀ index : ℤ, InRange count index ↔ InBytes size (rest + index * stride)) ↔
      0 ≤ rest ∧ rest < stride ∧ rest + (count - 1) * stride < size ∧
        (size : ℤ) ≤ rest + count * stride := by
  have hstride' : (0 : ℤ) < stride := by exact_mod_cast hstride
  have hcount' : (0 : ℤ) < count := by exact_mod_cast hcount
  unfold InRange InBytes
  constructor
  · intro h
    have hzero := (h 0).mp ⟨le_refl 0, hcount'⟩
    have hlast := (h (count - 1)).mp ⟨by omega, by omega⟩
    have hbefore := mt (h (-1)).mpr (by omega)
    have hafter := mt (h count).mpr (by omega)
    rw [zero_mul, add_zero] at hzero
    rw [neg_one_mul] at hbefore
    have hpos : (0 : ℤ) ≤ count * stride := by positivity
    refine ⟨hzero.1, ?_, hlast.2, ?_⟩ <;> omega
  · rintro ⟨hrest, hfirst, hlast, hend⟩ index
    constructor
    · rintro ⟨hlower, hupper⟩
      have hle : index * stride ≤ (count - 1) * stride :=
        mul_le_mul_of_nonneg_right (by omega) hstride'.le
      have hnonneg : 0 ≤ index * (stride : ℤ) := mul_nonneg hlower hstride'.le
      refine ⟨by omega, by omega⟩
    · rintro ⟨hlower, hupper⟩
      refine ⟨?_, ?_⟩
      · by_contra hneg
        have hle : index * stride ≤ -1 * stride :=
          mul_le_mul_of_nonneg_right (by omega) hstride'.le
        omega
      · by_contra hlarge
        have hle : count * stride ≤ index * (stride : ℤ) :=
          mul_le_mul_of_nonneg_right (by omega) hstride'.le
        omega

end Tested

variable {F V B : Type*} [DecidableEq V] [DecidableEq B] (mod : Module F V B)

/-! ## The target of an access -/

section Target

omit [DecidableEq V] [DecidableEq B] in
/-- The first index, with the number of elements of the buffer. -/
theorem firstIndex_eq (fallback : Option ℕ) (indices : List V) (constants : List IndexConstant) :
    List.Forall₂ (fun v index => mod.indexConstant v = some index) indices constants →
    (match fallback, indices with
      | some (arraySize + 1), idxVal :: _ => some (arraySize + 1, idxVal)
      | _, _ => none) =
      (firstIndex fallback constants).bind fun tested =>
        (indices[tested.1]?).map fun idxVal => (tested.2, idxVal) := by
  intro hall
  cases hall <;> rcases fallback with _ | _ | count <;> rfl

omit [DecidableEq B] in
/-- The target of an access with constant indices. -/
theorem accessTarget_eq {f : F} {base : BufferBase V} {site : GepSite V B}
    {constants : List IndexConstant}
    (hconstants : mod.indexConstants site.indices = some constants) :
    accessTarget mod f base site =
      (testedIndex (fallbackCount mod f base) site.sourceElementType constants).bind fun tested =>
        (site.indices[tested.1]?).map fun idxVal => (tested.2, idxVal) := by
  have hall := indexConstants_forall₂ hconstants
  have hfirst := firstIndex_eq mod (fallbackCount mod f base) _ _ hall
  obtain ⟨block, inst, sourceElementType, pointer, indices⟩ := site
  unfold accessTarget testedIndex inferFromType
  dsimp only at hall hfirst ⊢
  cases sourceElementType with
  | array numElements elementType =>
    cases numElements <;> rcases hall with _ | ⟨_, _ | ⟨_, _⟩⟩
    case zero.cons.cons => exact hfirst
    all_goals rfl
  | struct elements =>
    rcases hall with _ | ⟨h0, _ | ⟨h1, _ | ⟨_, _⟩⟩⟩
    case cons.cons.cons number _ _ _ _ _ _ =>
      dsimp only
      rw [value_of_indexConstant h0, value_of_indexConstant h1]
      dsimp only
      rw [← IndexConstant.field]
      rcases elements[number.field]? with _ | ⟨_ | _ | ⟨_ | count, _⟩ | _ | _⟩
      case some.array.succ => rfl
      all_goals exact hfirst
    all_goals exact hfirst
  | _ => exact hfirst

end Target

section Compared

variable {mod} {layout : DataLayout}

/-- The index that is compared counts elements; it never is the number of a field. -/
theorem exists_element_of_testedIndex {fallback : Option ℕ} {ty : Ty}
    {constants : List IndexConstant} {own : List IndexStep}
    (hown : layout.gepSteps ty constants = some own) {position count : ℕ}
    (htested : testedIndex fallback ty constants = some (position, count)) :
    ∃ index stride, own[position]? = some (.element index stride) := by
  have hfirst : firstIndex fallback constants = some (position, count) →
      ∃ index stride, own[position]? = some (.element index stride) := by
    intro hfirst
    unfold firstIndex at hfirst
    split at hfirst
    · obtain ⟨rfl, -⟩ := Prod.mk.inj (Option.some.inj hfirst)
      obtain ⟨steps, -, rfl⟩ := Option.map_eq_some_iff.mp hown
      exact ⟨_, _, rfl⟩
    · cases hfirst
  unfold testedIndex at htested
  split at htested
  · obtain ⟨rfl, -⟩ := Prod.mk.inj (Option.some.inj htested)
    obtain ⟨steps, hsteps, rfl⟩ := Option.map_eq_some_iff.mp hown
    obtain ⟨steps, -, rfl⟩ := Option.map_eq_some_iff.mp hsteps
    exact ⟨_, _, rfl⟩
  · exact hfirst htested
  · cases htested
  · next elements _ number _ _ _ =>
    split at htested
    · next helement =>
      obtain ⟨rfl, -⟩ := Prod.mk.inj (Option.some.inj htested)
      obtain ⟨steps, hsteps, rfl⟩ := Option.map_eq_some_iff.mp hown
      unfold DataLayout.innerSteps at hsteps
      rw [helement] at hsteps
      obtain ⟨steps, hinner, rfl⟩ := Option.map_eq_some_iff.mp hsteps
      obtain ⟨steps, -, rfl⟩ := Option.map_eq_some_iff.mp hinner
      exact ⟨_, _, rfl⟩
    · exact hfirst htested
  · exact hfirst htested

/-- The check of an index that has 64 significant bits. -/
theorem not_inRange_iff {count : ℕ} {index : ℤ} (hindex : index < 2 ^ 63) :
    ¬ InRange count index ↔ index < 0 ∨ count ≤ toUnsigned64 index := by
  unfold InRange toUnsigned64
  omega

/-- **Which constant indices are out of range**: the one that is compared decides. -/
theorem outOfRange_iff [Fintype V] {f : F} {site : GepSite V B}
    {base : BufferBase V} {constants : List IndexConstant} {own : List IndexStep}
    (hconstants : mod.indexConstants site.indices = some constants)
    (hown : layout.gepSteps site.sourceElementType constants = some own) :
    OutOfRange mod f site base ↔
      ∃ position count index stride,
        testedIndex (fallbackCount mod f base) site.sourceElementType constants =
            some (position, count) ∧
          own[position]? = some (.element index stride) ∧ ¬ InRange count index := by
  have hindex : ∀ (position : ℕ) (idxVal : V), site.indices[position]? = some idxVal →
      ∃ constant : IndexConstant, mod.indexConstant idxVal = some constant ∧
        (own[position]?).map IndexStep.index = some constant.sext := by
    intro position idxVal hidx
    obtain ⟨hlt, rfl⟩ := List.getElem?_eq_some_iff.mp hidx
    have hall := indexConstants_forall₂ hconstants
    have hlt' : position < constants.length := hall.length_eq ▸ hlt
    refine ⟨constants[position], hall.get hlt hlt', ?_⟩
    have hmap := congrArg (fun indices => indices[position]?) (layout.gepSteps_index hown)
    simpa [hlt'] using hmap
  unfold OutOfRange
  rw [accessTarget_eq mod hconstants]
  constructor
  · rintro ⟨arraySize, idxVal, htarget, hout⟩
    obtain ⟨⟨position, count⟩, htested, hfound⟩ := Option.bind_eq_some_iff.mp htarget
    obtain ⟨idxVal', hidx, heq⟩ := Option.map_eq_some_iff.mp hfound
    obtain ⟨rfl, rfl⟩ := Prod.mk.inj heq
    obtain ⟨constant, hconstant, hsext⟩ := hindex position idxVal' hidx
    obtain ⟨index, stride, helement⟩ := exists_element_of_testedIndex hown htested
    refine ⟨position, _, index, stride, htested, helement, ?_⟩
    rw [helement] at hsext
    obtain rfl : index = constant.sext := Option.some.inj hsext
    rw [value_of_indexConstant hconstant] at hout
    exact (not_inRange_iff constant.significant.2).mpr hout
  · rintro ⟨position, count, index, stride, htested, helement, hrange⟩
    obtain ⟨hlt, -⟩ := List.getElem?_eq_some_iff.mp helement
    have hlength : own.length = site.indices.length :=
      (layout.gepSteps_length hown).trans (indexConstants_forall₂ hconstants).length_eq.symm
    have hidx : site.indices[position]? = some site.indices[position] :=
      List.getElem?_eq_getElem (hlength ▸ hlt)
    obtain ⟨constant, hconstant, hsext⟩ := hindex position _ hidx
    rw [helement] at hsext
    obtain rfl : index = constant.sext := Option.some.inj hsext
    refine ⟨count, site.indices[position], ?_, ?_⟩
    · rw [htested, Option.bind_some, hidx]
      rfl
    · rw [value_of_indexConstant hconstant]
      exact (not_inRange_iff constant.significant.2).mp hrange

end Compared

/-! ## The buffer of a pointer -/

section Slots

/-- A slot for one array in the stack frame. -/
structure IsArraySlot (slot : V) (numElements : ℕ) (elementType : Ty) : Prop where
  value : ∃ arraySize used,
    mod.value slot = .alloca (.array numElements elementType) arraySize used ∧
      mod.isArrayAllocation arraySize = false

/-- A pointer leads to a slot by some `getelementptr`s and bitcasts. -/
inductive Follows (slot : V) : ℕ → V → Prop
  | slot : Follows slot 0 slot
  | gep {n : ℕ} {v pointer : V} {sourceElementType : Ty} {indices : List V} :
      mod.value v = .getElementPtr sourceElementType pointer indices → Follows slot n pointer →
      Follows slot (n + 1) v
  | bitcast {n : ℕ} {v operand : V} :
      mod.value v = .cast .bitcast operand → Follows slot n operand → Follows slot (n + 1) v

variable {mod} {layout : DataLayout} {slot : V} {numElements : ℕ} {elementType : Ty}

omit [DecidableEq V] [DecidableEq B] in
/-- The number of steps to a slot is unique: each step is determined by the pointer. -/
theorem Follows.unique (hslot : IsArraySlot mod slot numElements elementType) {n m : ℕ} {v : V}
    (h : Follows mod slot n v) (h' : Follows mod slot m v) : n = m := by
  obtain ⟨arraySize, used, hvalue, -⟩ := hslot.value
  induction h generalizing m with
  | slot =>
    cases h' with
    | slot => rfl
    | gep hgep => exact absurd (hvalue.symm.trans hgep) (by simp)
    | bitcast hcast => exact absurd (hvalue.symm.trans hcast) (by simp)
  | gep hgep _ ih =>
    cases h' with
    | slot => exact absurd (hvalue.symm.trans hgep) (by simp)
    | gep hgep' h' =>
      obtain ⟨-, rfl, -⟩ : _ ∧ _ ∧ _ := by simpa using hgep.symm.trans hgep'
      rw [ih h']
    | bitcast hcast => exact absurd (hgep.symm.trans hcast) (by simp)
  | bitcast hcast _ ih =>
    cases h' with
    | slot => exact absurd (hvalue.symm.trans hcast) (by simp)
    | gep hgep => exact absurd (hcast.symm.trans hgep) (by simp)
    | bitcast hcast' h' =>
      obtain rfl : _ = _ := by simpa using hcast.symm.trans hcast'
      rw [ih h']

omit [DecidableEq B] in
/-- The loop goes on to the slot: it has only visited pointers that are farther away from it. -/
theorem walk_of_follows (hslot : IsArraySlot mod slot numElements elementType) {n : ℕ} {v : V}
    (h : Follows mod slot n v) {fuel : ℕ} (hfuel : n < fuel) {visited : List V}
    (hvisited : ∀ w ∈ visited, ∃ m > n, Follows mod slot m w) (path : List CppString) :
    ∃ path', walk mod fuel v visited path = some (slot, path') := by
  have hfresh : ∀ {n : ℕ} {v : V} {visited : List V}, Follows mod slot n v →
      (∀ w ∈ visited, ∃ m > n, Follows mod slot m w) → v ∉ visited := by
    intro n v visited h hvisited hmem
    obtain ⟨m, hm, h'⟩ := hvisited v hmem
    have hunique := h.unique hslot h'
    omega
  have hvisited' : ∀ {n : ℕ} {v : V} {visited : List V}, Follows mod slot (n + 1) v →
      (∀ w ∈ visited, ∃ m > n + 1, Follows mod slot m w) →
      ∀ w ∈ v :: visited, ∃ m > n, Follows mod slot m w := by
    intro n v visited h hvisited w hw
    rcases List.mem_cons.mp hw with rfl | hw
    · exact ⟨n + 1, by omega, h⟩
    · obtain ⟨m, hm, h'⟩ := hvisited w hw
      exact ⟨m, by omega, h'⟩
  induction h generalizing fuel visited path with
  | slot =>
    obtain ⟨arraySize, used, hvalue, -⟩ := hslot.value
    obtain ⟨fuel, rfl⟩ : ∃ k, fuel = k + 1 := ⟨fuel - 1, by omega⟩
    unfold walk
    rw [if_neg (hfresh .slot hvisited), hvalue]
    exact ⟨_, rfl⟩
  | gep hgep h ih =>
    obtain ⟨fuel, rfl⟩ : ∃ k, fuel = k + 1 := ⟨fuel - 1, by omega⟩
    unfold walk
    rw [if_neg (hfresh (.gep hgep h) hvisited), hgep]
    exact ih (by omega) (hvisited' (.gep hgep h) hvisited) _
  | bitcast hcast h ih =>
    obtain ⟨fuel, rfl⟩ : ∃ k, fuel = k + 1 := ⟨fuel - 1, by omega⟩
    unfold walk
    rw [if_neg (hfresh (.bitcast hcast h) hvisited), hcast]
    exact ih (by omega) (hvisited' (.bitcast hcast h) hvisited) _

omit [DecidableEq B] in
/-- More fuel than there are values changes nothing. -/
theorem walk_add [Fintype V] (v : V) (path : List CppString) (extra : ℕ) :
    walk mod (Fintype.card V + 1 + extra) v [] path = walk mod (Fintype.card V + 1) v [] path := by
  induction extra with
  | zero => rfl
  | succ extra ih =>
    rw [← ih, ← add_assoc]
    exact walk_succ mod List.nodup_nil (by rw [List.length_nil]; omega)

omit [DecidableEq V] [DecidableEq B] in
/-- A pointer that derives from a slot with bitcasts only leads to it. -/
theorem exists_follows {v : V} {steps : List IndexStep} {plain : Bool}
    (h : Derives mod layout slot v steps plain) (hplain : plain = true) :
    ∃ n, Follows mod slot n v := by
  induction h with
  | slot => exact ⟨0, .slot⟩
  | gep hgep _ _ _ ih =>
    obtain ⟨n, hn⟩ := ih hplain
    exact ⟨n + 1, .gep hgep hn⟩
  | bitcast hcast _ _ ih =>
    obtain ⟨n, hn⟩ := ih hplain
    exact ⟨n + 1, .bitcast hcast hn⟩
  | otherCast => cases hplain

omit [DecidableEq B] in
/-- A round of the loop that ends. -/
theorem exists_of_walk {fuel : ℕ} {cur : V} {visited : List V} {path : List CppString}
    {found : V × List CppString} (h : walk mod fuel cur visited path = some found) :
    ∃ fuel' path',
      (match mod.value cur with
        | .cast .bitcast operand => walk mod fuel' operand (cur :: visited) path'
        | .getElementPtr _ pointer _ => walk mod fuel' pointer (cur :: visited) path'
        | .load pointer => walk mod fuel' pointer (cur :: visited) path'
        | _ => some (cur, path')) = some found := by
  cases fuel with
  | zero => cases h
  | succ fuel =>
    unfold walk at h
    by_cases hmem : cur ∈ visited
    · rw [if_pos hmem] at h
      cases h
    · rw [if_neg hmem] at h
      exact ⟨fuel, _, h⟩

omit [DecidableEq B] in
/-- With another cast in the chain, the loop ends at such a cast. -/
theorem walk_of_not_plain {v : V} {steps : List IndexStep} {plain : Bool}
    (h : Derives mod layout slot v steps plain) (hplain : plain = false) {fuel : ℕ}
    {visited : List V} {path path' : List CppString} {cur : V}
    (hwalk : walk mod fuel v visited path = some (cur, path')) :
    ∃ operand, mod.value cur = .cast .other operand := by
  obtain ⟨fuel', path'', hround⟩ := exists_of_walk hwalk
  clear hwalk
  induction h generalizing visited fuel' path'' with
  | slot => cases hplain
  | gep hgep _ _ _ ih =>
    rw [hgep] at hround
    obtain ⟨fuel', path'', hround⟩ := exists_of_walk hround
    exact ih hplain _ _ hround
  | bitcast hcast _ _ ih =>
    rw [hcast] at hround
    obtain ⟨fuel', path'', hround⟩ := exists_of_walk hround
    exact ih hplain _ _ hround
  | otherCast hcast _ _ _ =>
    rw [hcast] at hround
    obtain ⟨rfl, -⟩ := Prod.mk.inj (Option.some.inj hround)
    exact ⟨_, hcast⟩

variable [Fintype V]

omit [DecidableEq B] in
/-- A pointer that derives from a slot with bitcasts only points into it. -/
theorem resolveArrayBufferBase_of_plain (hslot : IsArraySlot mod slot numElements elementType)
    {v : V} {steps : List IndexStep} (h : Derives mod layout slot v steps true) (f : F)
    (scan : Bool) :
    ∃ path, resolveArrayBufferBase mod f scan v = some (.stack slot, path) := by
  obtain ⟨n, hn⟩ := exists_follows h rfl
  obtain ⟨path, hwalk⟩ := walk_of_follows hslot hn
    (show n < Fintype.card V + 1 + n by omega) (fun w hw => absurd hw List.not_mem_nil) []
  rw [walk_add] at hwalk
  obtain ⟨arraySize, used, hvalue, hnot⟩ := hslot.value
  refine ⟨path, ?_⟩
  unfold resolveArrayBufferBase resolveArrayAllocaFromPointer resolveArrayAllocaFromPointerInternal
  rw [if_neg List.not_mem_nil, hwalk]
  dsimp only
  rw [hvalue]
  dsimp only
  rw [if_pos (show isArrayAlloca mod (.array numElements elementType) arraySize = true by
    rw [isArrayAlloca, hnot]; rfl)]

omit [DecidableEq B] in
/-- With another cast in the chain, no buffer is found, if the underlying object is no global
variable. -/
theorem resolveArrayBufferBase_of_not_plain {v : V} {steps : List IndexStep}
    (h : Derives mod layout slot v steps false) (f : F) (scan : Bool)
    (hobject : ∀ ty, mod.value (mod.underlyingObject v) ≠ .globalVariable ty) :
    resolveArrayBufferBase mod f scan v = none := by
  have hglobal : resolveArrayGlobalFromPointer mod v = none := by
    unfold resolveArrayGlobalFromPointer
    split
    · next ty hvalue => exact absurd hvalue (hobject ty)
    · rfl
  have hslot : resolveArrayAllocaFromPointer mod f scan v = none := by
    unfold resolveArrayAllocaFromPointer resolveArrayAllocaFromPointerInternal
    rw [if_neg List.not_mem_nil]
    cases hwalk : walk mod (Fintype.card V + 1) v [] [] with
    | none => rfl
    | some found =>
      obtain ⟨operand, hvalue⟩ := walk_of_not_plain h rfl hwalk
      dsimp only
      rw [hvalue]
  unfold resolveArrayBufferBase
  rw [hslot, hglobal]
  rfl

end Slots

/-! ## Reported accesses -/

section Reports

/-- An instruction loads from an address or stores to it. -/
def AccessesAt (inst address : V) : Prop :=
  mod.value inst = .load address ∨ ∃ value, mod.value inst = .store value address

/-- What LLVM guarantees: accesses are users of their addresses, the `getelementptr` of an access
stands in the same function, and the underlying object of a pointer that derives from a slot is
found on the way to the slot. -/
structure Verified (layout : DataLayout) : Prop where
  mem_users : ∀ inst address, AccessesAt mod inst address → inst ∈ mod.users address
  address_stands : ∀ f inst address sourceElementType pointer indices,
    inst ∈ mod.functionInstructions f → AccessesAt mod inst address →
      mod.value address = .getElementPtr sourceElementType pointer indices →
      address ∈ mod.functionInstructions f
  underlyingObject : ∀ slot v steps plain, (mod.value slot).isAlloca = true →
    Derives mod layout slot v steps plain →
      ∃ steps' plain', Derives mod layout slot (mod.underlyingObject v) steps' plain'

/-- An access is reported, through its address. A store may also use a `getelementptr` as the value
that it stores; what is reported for that is not about its address. -/
def ReportsAccess (issues : List (StackBufferOverflowIssue V)) (access address : V) : Prop :=
  ∃ issue ∈ issues, issue.inst = access ∧ issue.gep = address

/-- The step of a chain that is compared for an access through its last link: the link has to be a
`getelementptr`, and all casts have to be bitcasts. -/
def testedStep (f : F) (slot address : V) (steps : List IndexStep) (plain : Bool) :
    Option (ℕ × ℕ) :=
  match mod.value address with
  | .getElementPtr sourceElementType _ indices =>
    if plain then
      ((mod.indexConstants indices).bind
        (testedIndex (fallbackCount mod f (.stack slot)) sourceElementType)).map fun tested =>
          (steps.length - indices.length + tested.1, tested.2)
    else none
  | _ => none

variable {mod} [Fintype V] {layout : DataLayout} {shouldAnalyze : F → Bool}
  {config : AnalysisConfig} {trace : List (SmtQuery V × SmtStatus)}
  {issues : List (StackBufferOverflowIssue V)} {access address : V}

/-- What is reported comes from a `getelementptr` with an index out of range. -/
theorem exists_site_of_reportsAccess
    (hrun : (analyzeStackBufferOverflows mod shouldAnalyze config).Runs trace issues)
    (hreports : ReportsAccess issues access address) :
    ∃ f ∈ analyzedFunctions mod shouldAnalyze, ∃ site : GepSite V B,
      site.inst = address ∧ address ∈ mod.functionInstructions f ∧
        mod.value address = .getElementPtr site.sourceElementType site.pointer site.indices ∧
        ∃ scan base path, resolveArrayBufferBase mod f scan site.pointer = some (base, path) ∧
          OutOfRange mod f site base := by
  obtain ⟨issue, hissue, -, hgep⟩ := hreports
  obtain ⟨f, hf, site, hsite, base, path, hbase, hout, _, -, -, -, hat, -⟩ :=
    exists_site_of_mem_issues hrun hissue
  obtain rfl : site.inst = address := hat.symm.trans hgep
  obtain ⟨hmem, hvalue⟩ := mem_gepSites hsite
  exact ⟨f, hf, site, rfl, hmem, hvalue, _, base, path, hbase, hout⟩

/-- **Constant indices out of range** are reported for all accesses, whatever the solver. -/
theorem reportsAccess_of_outOfRange (hfull : config.profile = .full)
    (hrun : (analyzeStackBufferOverflows mod shouldAnalyze config).Runs trace issues) {f : F}
    (hf : f ∈ analyzedFunctions mod shouldAnalyze) {site : GepSite V B}
    (hsite : site ∈ gepSites mod f) {constants : List IndexConstant}
    (hconstants : mod.indexConstants site.indices = some constants) {base : BufferBase V}
    {path : List CppString}
    (hbase : resolveArrayBufferBase mod f true site.pointer = some (base, path))
    (hout : OutOfRange mod f site base) {isWrite : Bool}
    (haccess : (access, isWrite) ∈ accesses mod site.inst) :
    ReportsAccess issues access site.inst := by
  have hbudgets : buildAnalysisComplexityBudgets config = ⟨none, none, none⟩ := by
    unfold buildAnalysisComplexityBudgets
    rw [if_pos hfull]
  unfold analyzeStackBufferOverflows at hrun
  rw [hbudgets] at hrun
  obtain ⟨_, found, hfunction, hfound⟩ := Consult.exists_runs_of_collect hrun hf
  obtain ⟨_, reported, hgep, hreported⟩ := Consult.exists_runs_of_collect hfunction hsite
  unfold gepIssues at hgep
  rw [show withinBudget (mod.functionInstructions f).length none = true from rfl, hbase] at hgep
  obtain ⟨arraySize, idxVal, htarget, hout⟩ := hout
  have hconstant : ∃ constant, mod.indexConstant idxVal = some constant := by
    rw [accessTarget_eq mod hconstants] at htarget
    obtain ⟨tested, -, htarget⟩ := Option.bind_eq_some_iff.mp htarget
    obtain ⟨idxVal', hidx, heq⟩ := Option.map_eq_some_iff.mp htarget
    obtain ⟨-, rfl⟩ := Prod.mk.inj heq
    obtain ⟨hlt, rfl⟩ := List.getElem?_eq_some_iff.mp hidx
    have hall := indexConstants_forall₂ hconstants
    exact ⟨_, hall.get hlt (hall.length_eq ▸ hlt)⟩
  obtain ⟨constant, hconstant⟩ := hconstant
  dsimp only at hgep
  unfold bufferIssues at hgep
  rw [htarget] at hgep
  dsimp only at hgep
  rw [value_of_indexConstant hconstant] at hgep hout
  obtain ⟨-, rfl⟩ := Consult.runs_answer_iff.mp hgep
  unfold constantIndexIssues at hreported
  rw [if_pos hout] at hreported
  exact ⟨_, hfound (hreported (List.mem_map_of_mem haccess)), rfl, rfl⟩

omit [DecidableEq V] [DecidableEq B] [Fintype V] in
/-- An access is one of the users that the pass looks at. -/
theorem mem_accesses (hverified : Verified mod layout) (haddress : AccessesAt mod access address) :
    ∃ isWrite, (access, isWrite) ∈ accesses mod address := by
  have hmem := hverified.mem_users access address haddress
  rcases haddress with hload | ⟨value, hstore⟩
  · exact ⟨false, List.mem_filterMap.mpr ⟨access, hmem, by rw [hload]⟩⟩
  · exact ⟨true, List.mem_filterMap.mpr ⟨access, hmem, by rw [hstore]⟩⟩

variable {f : F} {slot : V} {numElements : ℕ} {elementType : Ty} {steps : List IndexStep}
  {plain : Bool}

omit [DecidableEq B] [Fintype V] in
/-- The compared step of a chain that ends with a `getelementptr` is one of its own steps. -/
theorem testedStep_gep {sourceElementType : Ty} {pointer : V} {indices : List V}
    {constants : List IndexConstant} {own : List IndexStep}
    (hgep : mod.value address = .getElementPtr sourceElementType pointer indices)
    (hconstants : mod.indexConstants indices = some constants)
    (hown : layout.gepSteps sourceElementType constants = some own) :
    testedStep mod f slot address (steps ++ own) true =
      (testedIndex (fallbackCount mod f (.stack slot)) sourceElementType constants).map
        fun tested => (steps.length + tested.1, tested.2) := by
  have hlength : own.length = indices.length :=
    (layout.gepSteps_length hown).trans (indexConstants_forall₂ hconstants).length_eq.symm
  unfold testedStep
  rw [hgep]
  dsimp only
  rw [if_pos rfl, hconstants, Option.bind_some, List.length_append, hlength,
    Nat.add_sub_cancel]

omit [DecidableEq B] [Fintype V] in
/-- The compared step counts elements. -/
theorem exists_element_of_testedStep (hslot : IsArraySlot mod slot numElements elementType)
    (hderives : Derives mod layout slot address steps plain) {position count : ℕ}
    (htested : testedStep mod f slot address steps plain = some (position, count)) :
    ∃ index stride, steps[position]? = some (.element index stride) := by
  obtain ⟨arraySize, used, hvalue, -⟩ := hslot.value
  cases hderives with
  | gep hgep hconstants hown =>
    cases plain with
    | false =>
      unfold testedStep at htested
      rw [hgep] at htested
      cases htested
    | true =>
      rw [testedStep_gep hgep hconstants hown] at htested
      obtain ⟨⟨position', count'⟩, htested', heq⟩ := Option.map_eq_some_iff.mp htested
      obtain ⟨rfl, rfl⟩ := Prod.mk.inj heq
      rw [List.getElem?_append_right (Nat.le_add_right _ _), Nat.add_sub_cancel_left]
      exact exists_element_of_testedIndex hown htested'
  | slot =>
    unfold testedStep at htested
    rw [hvalue] at htested
    cases htested
  | bitcast hcast =>
    unfold testedStep at htested
    rw [hcast] at htested
    cases htested
  | otherCast hcast =>
    unfold testedStep at htested
    rw [hcast] at htested
    cases htested

/-- The case of a `getelementptr`, with bitcasts only before it. -/
theorem reportsAccess_iff_of_gep (hverified : Verified mod layout)
    (hslot : IsArraySlot mod slot numElements elementType) (hfull : config.profile = .full)
    (hrun : (analyzeStackBufferOverflows mod shouldAnalyze config).Runs trace issues)
    (hf : f ∈ analyzedFunctions mod shouldAnalyze) (haccess : access ∈ mod.functionInstructions f)
    (haddress : AccessesAt mod access address) {sourceElementType : Ty} {pointer : V}
    {indices : List V} {constants : List IndexConstant} {own : List IndexStep}
    (hgep : mod.value address = .getElementPtr sourceElementType pointer indices)
    (hconstants : mod.indexConstants indices = some constants)
    (hown : layout.gepSteps sourceElementType constants = some own)
    (hpointer : Derives mod layout slot pointer steps true) :
    ReportsAccess issues access address ↔
      ∃ position count index stride,
        testedIndex (fallbackCount mod f (.stack slot)) sourceElementType constants =
            some (position, count) ∧
          own[position]? = some (.element index stride) ∧ ¬ InRange count index := by
  have hstands := hverified.address_stands f access address _ _ _ haccess haddress hgep
  constructor
  · intro hreports
    obtain ⟨f', hf', site, hinst, hmem, hvalue, scan, base, path, hbase, hout⟩ :=
      exists_site_of_reportsAccess hrun hreports
    obtain rfl : f' = f := mod.function_unique (List.mem_of_mem_filter hf')
      (List.mem_of_mem_filter hf) hmem hstands
    obtain ⟨block, inst, ty, pointer', indices'⟩ := site
    rw [hvalue] at hgep
    obtain ⟨rfl, rfl, rfl⟩ : ty = sourceElementType ∧ pointer' = pointer ∧ indices' = indices := by
      simpa using hgep
    obtain ⟨path', hresolve⟩ := resolveArrayBufferBase_of_plain hslot hpointer f' scan
    rw [hresolve] at hbase
    obtain ⟨rfl, -⟩ := Prod.mk.inj (Option.some.inj hbase)
    exact (outOfRange_iff hconstants hown).mp hout
  · intro hout
    obtain ⟨block, hblock, hinst⟩ := List.mem_flatMap.mp hstands
    obtain ⟨path, hresolve⟩ := resolveArrayBufferBase_of_plain hslot hpointer f true
    obtain ⟨isWrite, hwrite⟩ := mem_accesses hverified haddress
    have hsite : (⟨block, address, sourceElementType, pointer, indices⟩ : GepSite V B) ∈
        gepSites mod f :=
      List.mem_flatMap.mpr
        ⟨block, hblock, List.mem_filterMap.mpr ⟨address, hinst, by rw [hgep]⟩⟩
    exact reportsAccess_of_outOfRange hfull hrun hf hsite hconstants hresolve
      ((outOfRange_iff hconstants hown).mpr hout) hwrite

/-- **Which accesses are reported**: those with a compared index that is out of range. -/
theorem reportsAccess_iff (hverified : Verified mod layout)
    (hslot : IsArraySlot mod slot numElements elementType) (hfull : config.profile = .full)
    (hrun : (analyzeStackBufferOverflows mod shouldAnalyze config).Runs trace issues)
    (hf : f ∈ analyzedFunctions mod shouldAnalyze) (haccess : access ∈ mod.functionInstructions f)
    (haddress : AccessesAt mod access address)
    (hderives : Derives mod layout slot address steps plain) :
    ReportsAccess issues access address ↔
      ∃ position count index stride,
        testedStep mod f slot address steps plain = some (position, count) ∧
          steps[position]? = some (.element index stride) ∧ ¬ InRange count index := by
  have hnone : (∀ ty pointer indices, mod.value address ≠ .getElementPtr ty pointer indices) →
      (ReportsAccess issues access address ↔
        ∃ position count index stride,
          testedStep mod f slot address steps plain = some (position, count) ∧
            steps[position]? = some (.element index stride) ∧ ¬ InRange count index) := by
    intro hgep
    refine iff_of_false (fun hreports => ?_) ?_
    · obtain ⟨f', -, site, -, -, hvalue, -⟩ := exists_site_of_reportsAccess hrun hreports
      exact hgep _ _ _ hvalue
    · rintro ⟨position, count, index, stride, htested, -⟩
      unfold testedStep at htested
      split at htested
      · next hvalue => exact hgep _ _ _ hvalue
      · cases htested
  obtain ⟨arraySize, used, hvalue, hnot⟩ := hslot.value
  cases hderives with
  | slot => exact hnone fun ty pointer indices hgep => by simp [hvalue] at hgep
  | bitcast hcast => exact hnone fun ty pointer indices hgep => by simp [hcast] at hgep
  | otherCast hcast => exact hnone fun ty pointer indices hgep => by simp [hcast] at hgep
  | gep hgep hconstants hown hpointer =>
    cases plain with
    | false =>
      refine iff_of_false (fun hreports => ?_) ?_
      · obtain ⟨f', -, site, -, -, hsite, scan, base, path, hbase, -⟩ :=
          exists_site_of_reportsAccess hrun hreports
        obtain ⟨-, rfl, -⟩ : _ ∧ _ ∧ _ := by simpa using hgep.symm.trans hsite
        obtain ⟨steps', plain', hobject⟩ := hverified.underlyingObject slot _ _ _
          (by rw [hvalue]; rfl) hpointer
        have hglobal := hobject.value_ne (by rw [hvalue]; rfl)
        rw [resolveArrayBufferBase_of_not_plain hpointer f' scan hglobal] at hbase
        cases hbase
      · rintro ⟨position, count, index, stride, htested, -⟩
        unfold testedStep at htested
        rw [hgep] at htested
        cases htested
    | true =>
      rw [reportsAccess_iff_of_gep hverified hslot hfull hrun hf haccess haddress hgep hconstants
        hown hpointer, testedStep_gep hgep hconstants hown]
      constructor
      · rintro ⟨position, count, index, stride, htested, helement, hrange⟩
        refine ⟨_, count, index, stride, by rw [htested]; rfl, ?_, hrange⟩
        rw [List.getElem?_append_right (Nat.le_add_right _ _), Nat.add_sub_cancel_left]
        exact helement
      · rintro ⟨position, count, index, stride, htested, helement, hrange⟩
        obtain ⟨⟨position', count'⟩, htested', heq⟩ := Option.map_eq_some_iff.mp htested
        obtain ⟨rfl, rfl⟩ := Prod.mk.inj heq
        rw [List.getElem?_append_right (Nat.le_add_right _ _), Nat.add_sub_cancel_left] at helement
        exact ⟨position', count', index, stride, htested', helement, hrange⟩

variable (mod) (layout) (shouldAnalyze)

/-- **The check is exact** under the profile `full`: an access at a constant offset from an array is
reported if and only if it starts outside of the array. -/
def ExactCheck : Prop :=
  ∀ config : AnalysisConfig, config.profile = .full →
    ∀ trace issues, (analyzeStackBufferOverflows mod shouldAnalyze config).Runs trace issues →
    ∀ f ∈ analyzedFunctions mod shouldAnalyze, ∀ access ∈ mod.functionInstructions f,
    ∀ address, AccessesAt mod access address →
    ∀ slot numElements elementType, IsArraySlot mod slot numElements elementType →
    ∀ steps plain, Derives mod layout slot address steps plain →
      (ReportsAccess issues access address ↔
        ¬ InBytes (numElements * layout.typeAllocSize elementType) (totalOffset steps))

end Reports

/-! ## A pointer into an array -/

section Interior

/-- The sizes of the types in the example, on a machine with bytes. -/
def byteSize : Ty → ℕ
  | .int width => (width.1 + 7) / 8
  | .ptr => 8
  | .array numElements elementType => numElements * byteSize elementType
  | _ => 0

/-- The layout for the example, which has no struct. -/
def byteLayout : DataLayout where
  typeAllocSize := byteSize
  elementOffset _ _ := 0
  typeAllocSize_array _ _ := by rw [byteSize]

/-- The values of `char buf[10], *p = buf + 5; p[6] = 'x';`: four constants, the array, the two
`getelementptr`s and the store. -/
def interiorValue : Fin 9 → Value (Fin 9) Unit Unit
  | 0 => .constantInt 32 1
  | 1 => .constantInt 64 5
  | 2 => .constantInt 64 6
  | 3 => .constantInt 8 120
  | 4 => .alloca (.array 10 (.int ⟨8, isWidth_eight⟩)) 0 false
  | 5 => .getElementPtr (.int ⟨8, isWidth_eight⟩) 4 [1]
  | 6 => .getElementPtr (.int ⟨8, isWidth_eight⟩) 5 [2]
  | 7 => .store 3 6
  | 8 => .ret

/-- The module of this function. -/
def interior : Module Unit (Fin 9) Unit where
  functions := [()]
  functionName _ := "f".toList
  isDeclaration _ := false
  sourcePath _ := []
  blocks _ := [()]
  instructions _ := [4, 5, 6, 7, 8]
  parent _ := ()
  successors _ := []
  predecessors _ := []
  value := interiorValue
  type
    | 0 => .int ⟨32, isWidth_thirtyTwo⟩
    | 3 => .int ⟨8, isWidth_eight⟩
    | 4 | 5 | 6 => .ptr
    | _ => .other
  name
    | 4 => "buf".toList
    | _ => []
  users
    | 0 => [4]
    | 1 => [5]
    | 2 => [6]
    | 3 => [7]
    | 4 => [5]
    | 5 => [6]
    | 6 => [7]
    | _ => []
  operands
    | 4 => [0]
    | 5 => [4, 1]
    | 6 => [5, 2]
    | 7 => [3, 6]
    | _ => []
  underlyingObject
    | 5 | 6 => 4
    | v => v
  stripPointerCasts v := v
  nodup := by decide

/-- The offset of the store is eleven. -/
theorem interior_derives :
    Derives interior byteLayout 4 6 [.element 5 1, .element 6 1] true := by
  have hpointer : Derives interior byteLayout 4 5 ([] ++ [.element 5 1]) true :=
    .gep rfl rfl rfl .slot
  have haddress : Derives interior byteLayout 4 6 ([.element 5 1] ++ [.element 6 1]) true :=
    .gep rfl rfl rfl hpointer
  exact haddress

theorem interior_isArraySlot : IsArraySlot interior 4 10 (.int ⟨8, isWidth_eight⟩) :=
  ⟨⟨0, false, rfl, rfl⟩⟩

/-- Nothing is reported. -/
theorem interior_runs :
    (analyzeStackBufferOverflows interior (fun _ => true) {}).Runs [] [] := by
  rw [show analyzeStackBufferOverflows interior (fun _ => true) {} = .answer [] from rfl]
  exact .answer _

theorem interior_verified : Verified interior byteLayout where
  mem_users := by
    rintro inst address (hload | ⟨value, hstore⟩)
    · fin_cases inst <;> cases hload
    · fin_cases inst <;> cases hstore
      decide
  address_stands := by
    rintro ⟨⟩ inst address ty pointer indices - - hgep
    fin_cases address <;> cases hgep <;> decide
  underlyingObject := by
    intro slot v steps plain hslot hderives
    obtain rfl : slot = 4 := by
      fin_cases slot <;> first | rfl | cases hslot
    have hobject : interior.underlyingObject v = 4 := by
      cases hderives with
      | slot => rfl
      | gep hgep => fin_cases v <;> cases hgep <;> rfl
      | bitcast hcast => fin_cases v <;> cases hcast
      | otherCast hcast => fin_cases v <;> cases hcast
    rw [hobject]
    exact ⟨[], true, .slot⟩

end Interior

end StackAnalyzer.Bounds
