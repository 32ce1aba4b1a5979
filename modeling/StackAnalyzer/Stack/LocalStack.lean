import StackAnalyzer.Arith.RoundUp
import StackAnalyzer.Llvm.ConstantOffsets
import StackAnalyzer.Values.RecoveredConstants

set_option relaxedAutoImplicit false
set_option autoImplicit false

/-!
# Local stack frames

The bytes of stack that a function uses by itself. The sizes of all `alloca`s whose number of
elements is known are added up, in 64 bits, and the sum is rounded up to the alignment of the stack;
for the ABI, the frame has the size of the alignment at least, and calls take room of their own.

## Main definitions

* `StackAnalyzer.Frames.LocalStackInfo` — the frame of a function.
* `StackAnalyzer.Frames.computeLocalStackBase` — the sum.
* `StackAnalyzer.Frames.computeLocalStackIR`, `StackAnalyzer.Frames.computeLocalStackABI` — the
  rounded sums.

## Main results

* `StackAnalyzer.Frames.computeLocalStackBase_bytes` — what the loop over the instructions adds up.
* `StackAnalyzer.Frames.mem_localAllocas_iff` — the local variables that it records.
-/

namespace StackAnalyzer.Frames

open CrossTU Llvm Values

variable {F V B : Type*}

/-! ## Definitions -/

/-- `LocalStackInfo`. -/
structure LocalStackInfo where
  bytes : ℕ := 0
  localAllocas : List (CppString × ℕ) := []
  unknown : Bool := false
  hasDynamicAlloca : Bool := false

/-- The alignment of the stack, `2 ^ shift`. A data layout has alignments of 16 bits only, so it is
a number as `unsigned`, too. -/
structure StackAlignment where
  shift : ℕ
  fits : shift < 32

/-- `MA ? MA->value() : 1u`. -/
def stackAlign (alignment : Option StackAlignment) : ℕ :=
  match alignment with
  | some alignment => 2 ^ alignment.shift
  | none => 1

/-- `alignTo`: the quotient, rounded up, times the alignment, in 64 bits. -/
def alignTo (value align : ℕ) : ℕ := Arith.roundUp value align % 2 ^ 64

/-- Two ways to count: what the IR allocates, or what a frame takes. -/
inductive AnalysisMode
  | IR | ABI
  deriving DecidableEq

section Loop

variable [DecidableEq V] [Fintype V] (mod : Module F V B) (layout : DataLayout)
  (deriveAllocaName : V → CppString)

/-- The number of elements of an alloca, if it is known. -/
def allocaCount (f : F) (arraySize : V) : Option ℕ :=
  match mod.value arraySize with
  | .constantInt _ bits => some (bits.toNat % 2 ^ 64)
  | _ => (tryGetConstFromValue mod f arraySize).map fun c => c.2.toNat % 2 ^ 64

/-- The size of an alloca, if the number of its elements is known. -/
def allocaSize (f : F) (ty : Ty) (arraySize : V) : Option ℕ :=
  (allocaCount mod f arraySize).map fun count => layout.typeAllocSize ty * count % 2 ^ 64

/-- One step of the loop of `computeLocalStackBase`. -/
def addAlloca (f : F) (info : LocalStackInfo) (inst : V) : LocalStackInfo :=
  match mod.value inst with
  | .alloca ty arraySize _ =>
    match allocaSize mod layout f ty arraySize with
    | none => { info with hasDynamicAlloca := true, unknown := true }
    | some size =>
      { info with
        bytes := (info.bytes + size) % 2 ^ 64
        localAllocas := info.localAllocas ++ [(deriveAllocaName inst, size)] }
  | _ => info

/-- `computeLocalStackBase`. -/
def computeLocalStackBase (f : F) : LocalStackInfo :=
  (mod.functionInstructions f).foldl (addAlloca mod layout deriveAllocaName f) {}

/-- `hasNonSelfCall`. -/
def hasNonSelfCall [DecidableEq F] (f : F) : Bool :=
  (mod.functionInstructions f).any fun inst =>
    match mod.value inst with
    | .call call =>
      match call.calledFunction with
      | some callee => !mod.isDeclaration callee && decide (callee ≠ f)
      | none => false
    | _ => false

/-- `computeLocalStackIR`. -/
def computeLocalStackIR (alignment : Option StackAlignment) (f : F) : LocalStackInfo :=
  let info := computeLocalStackBase mod layout deriveAllocaName f
  if info.bytes = 0 then info
  else if 1 < stackAlign alignment then
    { info with bytes := alignTo info.bytes (stackAlign alignment) }
  else info

/-- `computeLocalStackABI`. -/
def computeLocalStackABI [DecidableEq F] (alignment : Option StackAlignment) (f : F) :
    LocalStackInfo :=
  let info := computeLocalStackBase mod layout deriveAllocaName f
  let align := stackAlign alignment
  let frameSize := if 1 < align then alignTo info.bytes align else info.bytes
  let frameSize :=
    if mod.isDeclaration f = false ∧ 1 < align ∧ frameSize < align then align else frameSize
  let frameSize :=
    if 1 < align ∧ hasNonSelfCall mod f = true then alignTo ((frameSize + align) % 2 ^ 64) align
    else frameSize
  { info with bytes := frameSize }

/-- The frame in one of the modes. -/
def computeLocalStack [DecidableEq F] (mode : AnalysisMode) (alignment : Option StackAlignment)
    (f : F) : LocalStackInfo :=
  match mode with
  | .IR => computeLocalStackIR mod layout deriveAllocaName alignment f
  | .ABI => computeLocalStackABI mod layout deriveAllocaName alignment f

end Loop

/-! ## What the loop adds up -/

section Sums

variable [DecidableEq V] [Fintype V] (mod : Module F V B) (layout : DataLayout)
  (deriveAllocaName : V → CppString) (f : F)

/-- The size of an instruction, if it is an alloca whose size is known. -/
def knownSize (inst : V) : Option ℕ :=
  match mod.value inst with
  | .alloca ty arraySize _ => allocaSize mod layout f ty arraySize
  | _ => none

variable {mod layout deriveAllocaName f}

/-- A step adds a size that is known. -/
theorem addAlloca_of_knownSize (deriveAllocaName : V → CppString) {inst : V} {size : ℕ} (info : LocalStackInfo)
    (h : knownSize mod layout f inst = some size) :
    (addAlloca mod layout deriveAllocaName f info inst).bytes = (info.bytes + size) % 2 ^ 64 ∧
      (addAlloca mod layout deriveAllocaName f info inst).localAllocas =
        info.localAllocas ++ [(deriveAllocaName inst, size)] := by
  unfold knownSize at h
  unfold addAlloca
  cases hvalue : mod.value inst
  case alloca ty arraySize used =>
    simp only [hvalue] at h
    simp [h]
  all_goals simp [hvalue] at h

/-- Otherwise it adds nothing. -/
theorem addAlloca_of_not_known {inst : V} (info : LocalStackInfo)
    (h : knownSize mod layout f inst = none) :
    (addAlloca mod layout deriveAllocaName f info inst).bytes = info.bytes ∧
      (addAlloca mod layout deriveAllocaName f info inst).localAllocas = info.localAllocas := by
  unfold knownSize at h
  unfold addAlloca
  cases hvalue : mod.value inst
  case alloca ty arraySize used =>
    simp only [hvalue] at h
    simp [h]
  all_goals exact ⟨rfl, rfl⟩

/-- The loop over some instructions. -/
theorem foldl_addAlloca (instructions : List V) (info : LocalStackInfo)
    (hinfo : info.bytes < 2 ^ 64) :
    (instructions.foldl (addAlloca mod layout deriveAllocaName f) info).bytes =
        (info.bytes + (instructions.filterMap (knownSize mod layout f)).sum) % 2 ^ 64 ∧
      (instructions.foldl (addAlloca mod layout deriveAllocaName f) info).localAllocas =
        info.localAllocas ++ instructions.filterMap fun inst =>
          (knownSize mod layout f inst).map fun size => (deriveAllocaName inst, size) := by
  induction instructions generalizing info with
  | nil => exact ⟨by simpa using (Nat.mod_eq_of_lt hinfo).symm, by simp⟩
  | cons inst instructions ih =>
    rw [List.foldl_cons]
    cases hsize : knownSize mod layout f inst with
    | none =>
      obtain ⟨hbytes, hallocas⟩ := addAlloca_of_not_known info hsize
      obtain ⟨ihbytes, ihallocas⟩ :=
        ih (addAlloca mod layout deriveAllocaName f info inst) (by rwa [hbytes])
      rw [ihbytes, ihallocas, hbytes, hallocas]
      simp [hsize]
    | some size =>
      obtain ⟨hbytes, hallocas⟩ := addAlloca_of_knownSize deriveAllocaName info hsize
      obtain ⟨ihbytes, ihallocas⟩ := ih (addAlloca mod layout deriveAllocaName f info inst) (by
        rw [hbytes]
        exact Nat.mod_lt _ (by norm_num))
      rw [ihbytes, ihallocas, hbytes, hallocas]
      simp [hsize, Nat.mod_add_mod, add_assoc]

/-- **The bytes of a frame** are the sum of all known sizes, in 64 bits. -/
theorem computeLocalStackBase_bytes :
    (computeLocalStackBase mod layout deriveAllocaName f).bytes =
      ((mod.functionInstructions f).filterMap (knownSize mod layout f)).sum % 2 ^ 64 := by
  rw [computeLocalStackBase, (foldl_addAlloca _ _ (by norm_num)).1, zero_add]

/-- **The local variables** are the allocas with a known size. -/
theorem computeLocalStackBase_localAllocas :
    (computeLocalStackBase mod layout deriveAllocaName f).localAllocas =
      (mod.functionInstructions f).filterMap fun inst =>
        (knownSize mod layout f inst).map fun size => (deriveAllocaName inst, size) := by
  rw [computeLocalStackBase, (foldl_addAlloca _ _ (by norm_num)).2, List.nil_append]

/-- The modes change the bytes only. -/
theorem computeLocalStack_localAllocas [DecidableEq F] (mode : AnalysisMode)
    (alignment : Option StackAlignment) :
    (computeLocalStack mod layout deriveAllocaName mode alignment f).localAllocas =
      (computeLocalStackBase mod layout deriveAllocaName f).localAllocas := by
  cases mode with
  | IR =>
    show (computeLocalStackIR mod layout deriveAllocaName alignment f).localAllocas = _
    unfold computeLocalStackIR
    simp only
    split_ifs <;> rfl
  | ABI => rfl

/-- **A local variable** is an alloca of the function, with its name and its size. -/
theorem mem_localAllocas_iff [DecidableEq F] (mode : AnalysisMode)
    (alignment : Option StackAlignment) (name : CppString) (size : ℕ) :
    (name, size) ∈ (computeLocalStack mod layout deriveAllocaName mode alignment f).localAllocas ↔
      ∃ inst ∈ mod.functionInstructions f, ∃ ty arraySize used,
        mod.value inst = .alloca ty arraySize used ∧
          allocaSize mod layout f ty arraySize = some size ∧ deriveAllocaName inst = name := by
  rw [computeLocalStack_localAllocas, computeLocalStackBase_localAllocas, List.mem_filterMap]
  refine exists_congr fun inst => and_congr_right fun _ => ?_
  unfold knownSize
  cases hvalue : mod.value inst
  case alloca ty arraySize used =>
    simp only [Option.map_eq_some_iff, Prod.mk.injEq, Value.alloca.injEq]
    constructor
    · rintro ⟨size, hsize, hname, rfl⟩
      exact ⟨ty, arraySize, used, ⟨rfl, rfl, rfl⟩, hsize, hname⟩
    · rintro ⟨_, _, _, ⟨rfl, rfl, rfl⟩, hsize, hname⟩
      exact ⟨size, hsize, hname, rfl⟩
  all_goals simp

end Sums

end StackAnalyzer.Frames
