import Mathlib.Order.Interval.Set.UnorderedInterval
import StackAnalyzer.Llvm.Machine
import StackAnalyzer.Passes.PerFunctionPasses
import StackAnalyzer.Stack.FrameSizes

set_option relaxedAutoImplicit false
set_option autoImplicit false

/-!
# Bounded writes to local variables

A call that writes a constant number of bytes to a local variable, through a pointer with a constant
offset, writes past the end if the offset and the number of bytes are more than the size of the
variable. The pass compares the number of bytes with the size in 64 bits and forgets the offset, and
it looks through one `getelementptr` only. So it is right if the number of bytes is not between the
size that is compared and the bytes that are left; and behind more than one `getelementptr`, if the
write fits.

## Main definitions

* `StackAnalyzer.Passes.Views` — the values of a module, as the pass reads them.
* `StackAnalyzer.Passes.ConstantWrite` — a write of constant length at a constant offset.
* `StackAnalyzer.Passes.Direct` — the pass finds the variable behind a pointer.
* `StackAnalyzer.Passes.ExactBoundedWrites` — writes past the end are reported, and no others.

## Main results

* `StackAnalyzer.Passes.reports_iff` — which writes are reported.
* `StackAnalyzer.Passes.exactReport_iff` — which reports are right.
* `StackAnalyzer.Passes.not_exactBoundedWrites_interior` — a write from the middle of an array.
-/

namespace StackAnalyzer.Passes

open Frames

variable {F V B : Type*}

/-! ## Values -/

section Values

variable (mod : Llvm.Module F V B) (layout : Llvm.DataLayout) (values : ValueTable V)

/-- The values of a module, as the pass reads them. Sizes and constants have 64 bits. -/
structure Views : Prop where
  stripPointerCasts : ∀ v, values.stripPointerCasts v = mod.stripPointerCasts v
  constantInt : ∀ v width (bits : BitVec width), mod.value v = .constantInt width bits →
    values.kind v = .constantInt (UInt64.ofNat bits.toNat)
  alloca : ∀ v ty arraySize used, mod.value v = .alloca ty arraySize used →
    ∃ AI, values.kind v = .alloca AI ∧
      AI.typeAllocSize = UInt64.ofNat (layout.typeAllocSize ty) ∧ AI.arraySize = arraySize ∧
      AI.isArrayAllocation = mod.isArrayAllocation arraySize
  getElementPtr : ∀ v ty pointer indices, mod.value v = .getElementPtr ty pointer indices →
    values.kind v = .gepOperator true pointer
  cast : ∀ v op operand, mod.value v = .cast op operand → values.kind v = .other

/-- All indices are zero. -/
def HasAllZeroIndices (indices : List V) : Prop :=
  ∀ index ∈ indices, ∃ width, mod.value index = .constantInt width 0

/-- What `stripPointerCasts` does: it goes through the casts of pointers, and through each
`getelementptr` whose indices are all zero. -/
structure StripsCasts : Prop where
  alloca : ∀ v, (mod.value v).isAlloca = true → mod.stripPointerCasts v = v
  cast : ∀ v op operand, mod.value v = .cast op operand → op = .bitcast ∨ op = .other →
    mod.IsPointerCast v operand → mod.stripPointerCasts v = mod.stripPointerCasts operand
  zero : ∀ v ty pointer indices, mod.value v = .getElementPtr ty pointer indices →
    HasAllZeroIndices mod indices → mod.stripPointerCasts v = mod.stripPointerCasts pointer
  getElementPtr : ∀ v ty pointer indices, mod.value v = .getElementPtr ty pointer indices →
    ¬ HasAllZeroIndices mod indices → mod.stripPointerCasts v = v

/-- **The pass finds the variable**: behind casts and zero indices, the pointer is the variable, or
one `getelementptr` of it. -/
def Direct (slot dest : V) : Prop :=
  mod.stripPointerCasts dest = slot ∨
    ∃ ty indices, mod.value (mod.stripPointerCasts dest) = .getElementPtr ty slot indices

/-! ## Writes -/

/-- A call of a function that writes some bytes to where a pointer points. -/
def WritesTo (rules : List BufferWriteRule) (CB : CallBase V) (dest length : V) : Prop :=
  ∃ sink, (resolveModelSink rules CB).or (resolveBuiltInSink CB) = some sink ∧
    sink.hasExplicitLength = true ∧ CB.args[sink.destArgIndex]? = some dest ∧
      CB.args[sink.sizeArgIndex]? = some length

/-- **A write of constant length at a constant offset** to a local variable of constant size. -/
structure ConstantWrite (rules : List BufferWriteRule) (fn : Function V) (CB : CallBase V)
    (dest slot : V) (steps : List Llvm.IndexStep) (size len : ℕ) : Prop where
  call_mem : CB ∈ fn.callBases
  writes : ∃ length width, ∃ bits : BitVec width, WritesTo rules CB dest length ∧
    mod.value length = .constantInt width bits ∧ bits.toNat = len ∧ len < 2 ^ 64
  derives : ∃ plain, Llvm.Derives mod layout slot dest steps plain
  size_eq : exactSize mod layout slot = some size

/-- The pass reports a call. -/
def Reports (rules : List BufferWriteRule) (fn : Function V) (CB : CallBase V) : Prop :=
  ∃ issue ∈ analyzeMemIntrinsicOverflows values rules fn, issue.inst = CB.value

/-- **Bounded writes are checked exactly**: a call is reported if and only if it writes past the end
of the variable. -/
def ExactBoundedWrites (rules : List BufferWriteRule) (fn : Function V) : Prop :=
  ∀ CB dest slot steps size len, ConstantWrite mod layout rules fn CB dest slot steps size len →
    (Reports values rules fn CB ↔ (size : ℤ) < Llvm.totalOffset steps + len)

end Values

variable {mod : Llvm.Module F V B} {layout : Llvm.DataLayout} {values : ValueTable V}

/-! ## Destinations -/

/-- A variable of known size is an alloca. -/
theorem isAlloca_of_exactSize {slot : V} {size : ℕ} (h : exactSize mod layout slot = some size) :
    (mod.value slot).isAlloca = true := by
  unfold exactSize at h
  split at h
  · next hvalue => rw [hvalue]; rfl
  · cases h

/-- **What is left of a pointer** behind casts and zero indices: the variable, or a `getelementptr`
of a pointer to it. -/
theorem strip_of_derives (hstrips : StripsCasts mod) {slot dest : V} {steps : List Llvm.IndexStep}
    {plain : Bool} (hslot : (mod.value slot).isAlloca = true)
    (h : Llvm.Derives mod layout slot dest steps plain) :
    mod.stripPointerCasts dest = slot ∨
      ∃ ty pointer indices steps' plain',
        mod.value (mod.stripPointerCasts dest) = .getElementPtr ty pointer indices ∧
          Llvm.Derives mod layout slot pointer steps' plain' := by
  induction h with
  | slot => exact Or.inl (hstrips.alloca slot hslot)
  | @gep v pointer ty indices _ _ steps plain hvalue _ _ hpointer ih =>
    by_cases hzero : HasAllZeroIndices mod indices
    · rw [hstrips.zero v ty pointer indices hvalue hzero]
      exact ih
    · rw [hstrips.getElementPtr v ty pointer indices hvalue hzero]
      exact Or.inr ⟨ty, pointer, indices, steps, plain, hvalue, hpointer⟩
  | bitcast hvalue hcast _ ih =>
    rw [hstrips.cast _ _ _ hvalue (Or.inl rfl) hcast]
    exact ih
  | otherCast hvalue hcast _ ih =>
    rw [hstrips.cast _ _ _ hvalue (Or.inr rfl) hcast]
    exact ih

/-- A pointer to a variable is the variable, or no alloca. -/
theorem eq_or_not_alloca_of_derives (hviews : Views mod layout values) {slot v : V}
    {steps : List Llvm.IndexStep} {plain : Bool}
    (h : Llvm.Derives mod layout slot v steps plain) :
    v = slot ∨ ∀ AI, values.kind v ≠ .alloca AI := by
  cases h with
  | slot => exact Or.inl rfl
  | gep hvalue =>
    refine Or.inr fun AI => ?_
    rw [hviews.getElementPtr _ _ _ _ hvalue]
    exact nofun
  | bitcast hvalue | otherCast hvalue =>
    refine Or.inr fun AI => ?_
    rw [hviews.cast _ _ _ hvalue]
    exact nofun

/-- A variable that is found. -/
theorem resolve_of_direct (hviews : Views mod layout values) {slot dest : V} {AI : AllocaInst V}
    (hkind : values.kind slot = .alloca AI) (h : Direct mod slot dest) :
    resolveStackDestinationAlloca values dest = some AI := by
  unfold resolveStackDestinationAlloca
  rw [hviews.stripPointerCasts]
  rcases h with hslot | ⟨ty, indices, hvalue⟩
  · simp [hslot, hkind]
  · simp [hviews.getElementPtr _ _ _ _ hvalue, hkind]

/-- Behind more than one `getelementptr`, no variable is found. -/
theorem resolve_of_not_direct (hviews : Views mod layout values) (hstrips : StripsCasts mod)
    {slot dest : V} {steps : List Llvm.IndexStep} {plain : Bool}
    (hslot : (mod.value slot).isAlloca = true)
    (h : Llvm.Derives mod layout slot dest steps plain) (hdirect : ¬ Direct mod slot dest) :
    resolveStackDestinationAlloca values dest = none := by
  rcases strip_of_derives hstrips hslot h with
    heq | ⟨ty, pointer, indices, steps', plain', hvalue, hpointer⟩
  · exact absurd (Or.inl heq) hdirect
  · unfold resolveStackDestinationAlloca
    rw [hviews.stripPointerCasts]
    simp only [hviews.getElementPtr _ _ _ _ hvalue]
    rcases eq_or_not_alloca_of_derives hviews hpointer with rfl | hother
    · exact absurd (Or.inr ⟨ty, indices, hvalue⟩) hdirect
    · split
      · next AI hkind => exact absurd hkind (hother AI)
      · rfl

/-! ## Sizes -/

/-- **The size that is compared** is the size of the variable in 64 bits. -/
theorem getAllocaTotalSizeBytes_of_exactSize (hviews : Views mod layout values) {slot : V}
    {size : ℕ} (h : exactSize mod layout slot = some size) :
    ∃ AI bytes, values.kind slot = .alloca AI ∧
      getAllocaTotalSizeBytes values AI = some bytes ∧ bytes.toNat = size % 2 ^ 64 := by
  unfold exactSize at h
  split at h
  · next ty arraySize used hvalue =>
    obtain ⟨AI, hkind, htype, hcount, harray⟩ := hviews.alloca slot ty arraySize used hvalue
    split at h
    · next width bits hconstant =>
      obtain rfl := Option.some.inj h
      by_cases hone : bits.toNat = 1
      · refine ⟨AI, _, hkind, if_neg ?_, ?_⟩
        · simp [harray, Llvm.Module.isArrayAllocation, hconstant, hone]
        · simp [htype, hone]
      · refine ⟨AI, UInt64.ofNat bits.toNat * AI.typeAllocSize, hkind, ?_, ?_⟩
        · simp [getAllocaTotalSizeBytes, harray, hcount, Llvm.Module.isArrayAllocation, hconstant,
            hone, hviews.constantInt _ _ _ hconstant]
        · simp [htype, Nat.mul_comm]
    · cases h
  · cases h

/-! ## Reports -/

/-- A call is reported if there is an issue of it. -/
theorem reports_iff_isSome {rules : List BufferWriteRule} {fn : Function V}
    (hdistinct : (fn.callBases.map CallBase.value).Nodup) {CB : CallBase V}
    (hCB : CB ∈ fn.callBases) :
    Reports values rules fn CB ↔ (memIntrinsicIssue values rules fn CB).isSome = true := by
  have hissues : analyzeMemIntrinsicOverflows values rules fn =
      fn.callBases.filterMap (memIntrinsicIssue values rules fn) := by
    rw [Function.callBases, List.filterMap_filterMap]
    rfl
  unfold Reports
  rw [hissues, Option.isSome_iff_exists]
  constructor
  · rintro ⟨issue, hissue, heq⟩
    obtain ⟨CB', hCB', hsome⟩ := List.mem_filterMap.mp hissue
    have hvalue : CB'.value = CB.value := (memIntrinsicIssue_place hsome).2.symm.trans heq
    obtain rfl := List.inj_on_of_nodup_map hdistinct hCB' hCB hvalue
    exact ⟨issue, hsome⟩
  · rintro ⟨issue, hsome⟩
    exact ⟨issue, List.mem_filterMap.mpr ⟨CB, hCB, hsome⟩, (memIntrinsicIssue_place hsome).2⟩

/-- There is an issue if a variable is found, and its size is smaller than the length. -/
theorem isSome_memIntrinsicIssue_iff {rules : List BufferWriteRule} {fn : Function V}
    {CB : CallBase V} {dest length : V} {len : UInt64} (hwrites : WritesTo rules CB dest length)
    (hlength : values.kind length = .constantInt len) :
    (memIntrinsicIssue values rules fn CB).isSome = true ↔
      ∃ AI bytes, resolveStackDestinationAlloca values dest = some AI ∧
        getAllocaTotalSizeBytes values AI = some bytes ∧ bytes < len := by
  obtain ⟨sink, hsink, hexplicit, hdest, hsize⟩ := hwrites
  unfold memIntrinsicIssue
  rw [hsink, Option.bind_some, hdest, Option.bind_some]
  cases hresolve : resolveStackDestinationAlloca values dest with
  | none => simp
  | some AI =>
    cases hbytes : getAllocaTotalSizeBytes values AI with
    | none => simp [hbytes]
    | some bytes =>
      simp only [Option.bind_some, hexplicit, if_true, hsize, hlength, Option.some.injEq,
        exists_and_left, exists_eq_left', hbytes]
      by_cases hle : len ≤ bytes
      · simp [hle]
      · simp [hle, UInt64.not_le.mp hle]

/-- **Which writes are reported**: those to a variable that is found, whose size in 64 bits is
smaller than the length. -/
theorem reports_iff (hviews : Views mod layout values) (hstrips : StripsCasts mod)
    {rules : List BufferWriteRule} {fn : Function V}
    (hdistinct : (fn.callBases.map CallBase.value).Nodup) {CB : CallBase V} {dest slot : V}
    {steps : List Llvm.IndexStep} {size len : ℕ}
    (h : ConstantWrite mod layout rules fn CB dest slot steps size len) :
    Reports values rules fn CB ↔ Direct mod slot dest ∧ size % 2 ^ 64 < len := by
  obtain ⟨length, width, bits, hwrites, hlength, rfl, hlen⟩ := h.writes
  obtain ⟨plain, hderives⟩ := h.derives
  obtain ⟨AI, bytes, hkind, hbytes, hsize⟩ := getAllocaTotalSizeBytes_of_exactSize hviews h.size_eq
  rw [reports_iff_isSome hdistinct h.call_mem,
    isSome_memIntrinsicIssue_iff hwrites (hviews.constantInt _ _ _ hlength)]
  by_cases hdirect : Direct mod slot dest
  · have hresolve := resolve_of_direct hviews hkind hdirect
    have hlt : bytes < UInt64.ofNat bits.toNat ↔ size % 2 ^ 64 < bits.toNat := by
      rw [UInt64.lt_iff_toNat_lt, hsize, UInt64.toNat_ofNat', Nat.mod_eq_of_lt hlen]
    simp [hresolve, hbytes, hdirect, hlt]
  · have hslot := isAlloca_of_exactSize h.size_eq
    have hresolve := resolve_of_not_direct hviews hstrips hslot hderives hdirect
    simp [hresolve, hdirect]

/-- Two numbers of bytes are compared with the same result unless the length is between them. -/
theorem lt_iff_lt_iff_not_mem_uIoc {a b x : ℤ} : (a < x ↔ b < x) ↔ x ∉ Set.uIoc a b := by
  rw [Set.mem_uIoc]
  omega

/-- **Which reports are right.** Whether a write of constant length at a constant offset is reported
says whether it goes past the end if and only if the length is not between the size in 64 bits and
the bytes that are left behind the offset, as long as the variable is found, and the write fits, if
it is not found. -/
theorem exactReport_iff (hviews : Views mod layout values) (hstrips : StripsCasts mod)
    {rules : List BufferWriteRule} {fn : Function V}
    (hdistinct : (fn.callBases.map CallBase.value).Nodup) {CB : CallBase V} {dest slot : V}
    {steps : List Llvm.IndexStep} {size len : ℕ}
    (h : ConstantWrite mod layout rules fn CB dest slot steps size len) :
    (Reports values rules fn CB ↔ (size : ℤ) < Llvm.totalOffset steps + len) ↔
      (Direct mod slot dest →
        (len : ℤ) ∉ Set.uIoc ((size % 2 ^ 64 : ℕ) : ℤ) (size - Llvm.totalOffset steps)) ∧
      (¬ Direct mod slot dest → Llvm.totalOffset steps + len ≤ size) := by
  rw [reports_iff hviews hstrips hdistinct h]
  by_cases hdirect : Direct mod slot dest
  · have hleft : (size : ℤ) < Llvm.totalOffset steps + len ↔
        (size : ℤ) - Llvm.totalOffset steps < len := by omega
    rw [hleft, ← lt_iff_lt_iff_not_mem_uIoc, Nat.cast_lt]
    simp only [hdirect, true_and, true_imp_iff, not_true_eq_false, false_imp_iff, and_true]
  · simp [hdirect, not_lt]

/-! ## A write from the middle of an array -/

section Interior

/-- The example has eight values. -/
theorem neZero_eight : NeZero 8 := ⟨Nat.succ_ne_zero 7⟩

attribute [local instance] neZero_eight

open Llvm in
/-- The values of `char buf[10]; memset(buf + 5, 0, 8);`: four constants, the array, the
`getelementptr`, the call and the return. -/
def interiorValue : Fin 8 → Value (Fin 8) (Fin 1) Unit
  | 0 => .constantInt 32 1
  | 1 => .constantInt 64 5
  | 2 => .constantInt 64 8
  | 3 => .constantInt 8 0
  | 4 => .alloca (.array 10 (.int ⟨8, isWidth_eight⟩)) 0 false
  | 5 => .getElementPtr (.int ⟨8, isWidth_eight⟩) 4 [1]
  | 6 => .call ⟨none, 3, [5, 3, 2], some .memset, false⟩
  | 7 => .ret

/-- The module of this function. -/
def interior : Llvm.Module Unit (Fin 8) (Fin 1) :=
  Llvm.singleFunction interiorValue (fun _ => .other) (fun _ => [4, 5, 6, 7]) (fun _ => [])
    (by decide)

/-- The array. -/
def interiorArray : AllocaInst (Fin 8) where
  value := 4
  name := "buf"
  derivedName := "buf"
  typeName := "[10 x i8]"
  typeAllocSize := 10
  arraySize := 0
  isArrayAllocation := false
  isStaticAlloca := true
  allocatesPointer := false

/-- The call. -/
def interiorCall : CallBase (Fin 8) where
  value := 6
  callee := some ⟨"llvm.memset.p0.i64", "llvm.memset.p0.i64", some .memset⟩
  args := [5, 3, 2]

/-- The values, as the pass reads them. -/
def interiorTable : ValueTable (Fin 8) where
  kind
    | 0 => .constantInt 1
    | 1 => .constantInt 5
    | 2 => .constantInt 8
    | 3 => .constantInt 0
    | 4 => .alloca interiorArray
    | 5 => .gepOperator true 4
    | _ => .other
  stripPointerCasts v := v
  getUnderlyingObject v := v
  users _ := []

/-- The function. -/
def interiorFunction : Function (Fin 8) where
  name := "f"
  filePath := "f.c"
  isDeclaration := false
  instructions := [.alloca interiorArray, .other, .call interiorCall, .other]
  tryGetConstFromValue _ := false

/-- The pass reads these values. -/
theorem interior_views : Views interior Bounds.byteLayout interiorTable where
  stripPointerCasts _ := rfl
  constantInt v width bits h := by
    fin_cases v <;> cases h <;> rfl
  alloca v ty arraySize used h := by
    fin_cases v <;> cases h
    exact ⟨interiorArray, rfl, by simp [interiorArray, Bounds.byteLayout, Bounds.byteSize], rfl,
      by decide⟩
  getElementPtr v ty pointer indices h := by
    fin_cases v <;> cases h
    rfl
  cast v op operand h := by
    fin_cases v <;> cases h

/-- There is nothing to strip. -/
theorem interior_stripsCasts : StripsCasts interior where
  alloca _ _ := rfl
  cast v op operand h := by
    fin_cases v <;> cases h
  zero v ty pointer indices h hzero := by
    fin_cases v <;> cases h
    obtain ⟨width, hindex⟩ := hzero 1 (List.mem_singleton_self _)
    cases hindex
  getElementPtr _ _ _ _ _ _ := rfl

/-- The call writes eight bytes at the offset five of the array of ten bytes. -/
theorem interior_constantWrite :
    ConstantWrite interior Bounds.byteLayout [] interiorFunction interiorCall 5 4
      [.element 5 1] 10 8 where
  call_mem := List.mem_singleton_self _
  writes := ⟨2, 64, 8, ⟨⟨"memset", 0, 2, true⟩, rfl, rfl, rfl, rfl⟩, rfl, rfl, by norm_num⟩
  derives := by
    have hderives : Llvm.Derives interior Bounds.byteLayout 4 5 ([] ++ [.element 5 1]) true :=
      .gep rfl rfl rfl .slot
    exact ⟨true, hderives⟩
  size_eq := rfl

/-- The theorem at this call, whose length is between the five bytes that are left and the ten bytes
of the array. -/
theorem exactReport_iff_interior :
    (Reports interiorTable [] interiorFunction interiorCall ↔
        ((10 : ℕ) : ℤ) < Llvm.totalOffset [.element 5 1] + (8 : ℕ)) ↔
      (Direct interior 4 5 →
        ((8 : ℕ) : ℤ) ∉ Set.uIoc ((10 % 2 ^ 64 : ℕ) : ℤ)
          ((10 : ℕ) - Llvm.totalOffset [.element 5 1])) ∧
      (¬ Direct interior 4 5 → Llvm.totalOffset [.element 5 1] + (8 : ℕ) ≤ (10 : ℕ)) :=
  exactReport_iff interior_views interior_stripsCasts (by decide) interior_constantWrite

/-- **Bounded writes are not checked exactly**: the call goes three bytes past the end of the array,
and it is not reported, as eight is less than ten. -/
theorem not_exactBoundedWrites_interior :
    ¬ ExactBoundedWrites interior Bounds.byteLayout interiorTable [] interiorFunction := by
  intro h
  obtain ⟨issue, hissue, -⟩ := (h _ _ _ _ _ _ interior_constantWrite).mpr (by decide)
  exact List.not_mem_nil (show issue ∈ [] from hissue)

end Interior

end StackAnalyzer.Passes
