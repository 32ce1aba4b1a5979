import StackAnalyzer.Bounds.ConstantIndices
import StackAnalyzer.Stack.LocalStack

set_option relaxedAutoImplicit false
set_option autoImplicit false

/-!
# Frame sizes

The frame of a function whose allocas all have constant counts has room for all of them as long as
the sum of their sizes, and what is added for the alignment, fit in 64 bits. It is always a multiple
of the alignment, and as long as nothing wraps around, it grows with the allocas. A sum that does
not fit wraps around, and the frame is too small.

## Main definitions

* `StackAnalyzer.Frames.exactSizes` — the sizes of all allocas.
* `StackAnalyzer.Frames.Enlarges` — allocas are added or enlarged.
* `StackAnalyzer.Frames.NeverUnderestimates` — frames have room for all allocas, are aligned, and
  grow with them.
* `StackAnalyzer.Frames.LeavesRoom` — nothing wraps around.

## Main results

* `StackAnalyzer.Frames.neverUnderestimates_iff` — frames are right if and only if nothing wraps
  around.
* `StackAnalyzer.Frames.not_neverUnderestimates_huge` — an alloca of `2 ^ 64` bytes takes none.
-/

namespace StackAnalyzer.Frames

open Arith CrossTU Llvm Values

/-! ## Exact sizes -/

section Exact

variable {F V B : Type*} (mod : Module F V B) (layout : DataLayout)

/-- All allocas of a function have constant counts. -/
def ConstantCounts (f : F) : Prop :=
  ∀ inst ∈ mod.functionInstructions f, ∀ ty arraySize used,
    mod.value inst = .alloca ty arraySize used → (mod.value arraySize).isConstantInt = true

/-- The size of an alloca with a constant count: that of an element times the count. -/
def exactSize (inst : V) : Option ℕ :=
  match mod.value inst with
  | .alloca ty arraySize _ =>
    match mod.value arraySize with
    | .constantInt _ bits => some (layout.typeAllocSize ty * bits.toNat)
    | _ => none
  | _ => none

/-- The sizes of all allocas. -/
def exactSizes (f : F) : List ℕ :=
  (mod.functionInstructions f).filterMap (exactSize mod layout)

variable {mod layout}

/-- What is known of the size of an alloca is its size, in 64 bits. -/
theorem knownSize_eq [DecidableEq V] [Fintype V] {f : F} (hf : ConstantCounts mod f) {inst : V}
    (hinst : inst ∈ mod.functionInstructions f) :
    knownSize mod layout f inst = (exactSize mod layout inst).map (· % 2 ^ 64) := by
  unfold knownSize exactSize
  cases hvalue : mod.value inst
  case alloca ty arraySize used =>
    have hconstant := hf inst hinst ty arraySize used hvalue
    simp only [allocaSize, allocaCount]
    cases hcount : mod.value arraySize
    case constantInt width bits => simp [Nat.mul_mod]
    all_goals simp [hcount, Value.isConstantInt] at hconstant
  all_goals rfl

variable (layout) in
/-- **The bytes before rounding** are the exact sum, in 64 bits. -/
theorem base_bytes [DecidableEq V] [Fintype V] {f : F} (hf : ConstantCounts mod f)
    (deriveAllocaName : V → CppString) :
    (computeLocalStackBase mod layout deriveAllocaName f).bytes =
      (exactSizes mod layout f).sum % 2 ^ 64 := by
  have hsizes : (mod.functionInstructions f).filterMap (knownSize mod layout f) =
      (exactSizes mod layout f).map (· % 2 ^ 64) := by
    rw [exactSizes, List.map_filterMap]
    exact List.filterMap_congr fun inst hinst => knownSize_eq hf hinst
  rw [computeLocalStackBase_bytes, hsizes, ← List.sum_nat_mod]

end Exact

/-! ## Rounding -/

section Rounding

variable {align n : ℕ}

/-- An alignment that is a number as `unsigned`. -/
structure Alignment (align : ℕ) : Prop where
  pos : 0 < align
  dvd : align ∣ 2 ^ 64
  lt : align < 2 ^ 32

/-- Alignments are powers of two. -/
theorem alignment_stackAlign (alignment : Option StackAlignment) :
    Alignment (stackAlign alignment) := by
  cases alignment with
  | none => exact ⟨Nat.one_pos, one_dvd _, by norm_num [stackAlign]⟩
  | some alignment =>
    have hfits := alignment.fits
    exact ⟨Nat.two_pow_pos _, pow_dvd_pow 2 (by omega), Nat.pow_lt_pow_right (by norm_num) hfits⟩

/-- `alignTo` rounds up, unless it wraps around. -/
theorem alignTo_eq (h : Alignment align) (hn : n < 2 ^ 64) :
    alignTo n align = if n + align ≤ 2 ^ 64 then roundUp n align else 0 :=
  roundUp_mod h.pos h.dvd hn.le

/-- `alignTo` of a multiple. -/
theorem alignTo_of_dvd (h : Alignment align) (hn : n < 2 ^ 64) (hdvd : align ∣ n) :
    alignTo n align = n := by
  rw [alignTo, roundUp_of_dvd h.pos hdvd, Nat.mod_eq_of_lt hn]

/-- What `alignTo` gives is a multiple. -/
theorem dvd_alignTo (h : Alignment align) (n : ℕ) : align ∣ alignTo n align :=
  (Nat.dvd_mod_iff h.dvd).mpr (dvd_roundUp n align)

/-- A sum of multiples in 64 bits. -/
theorem dvd_add_mod (h : Alignment align) (hn : align ∣ n) : align ∣ (n + align) % 2 ^ 64 :=
  (Nat.dvd_mod_iff h.dvd).mpr (Nat.dvd_add_self_right.mpr hn)

/-- **The rounding of a mode**, of some bytes in 64 bits. -/
def roundedBytes (mode : AnalysisMode) (align : ℕ) (declaration calls : Bool) (bytes : ℕ) : ℕ :=
  match mode with
  | .IR => alignTo bytes align
  | .ABI =>
    let frameSize := alignTo bytes align
    let frameSize :=
      if declaration = false ∧ 1 < align ∧ frameSize < align then align else frameSize
    if 1 < align ∧ calls = true then (frameSize + align) % 2 ^ 64 else frameSize

/-- The same without a bound. -/
def exactFrame (mode : AnalysisMode) (align : ℕ) (declaration calls : Bool) (bytes : ℕ) : ℕ :=
  match mode with
  | .IR => roundUp bytes align
  | .ABI =>
    let frameSize := roundUp bytes align
    let frameSize :=
      if declaration = false ∧ 1 < align ∧ frameSize < align then align else frameSize
    if 1 < align ∧ calls = true then frameSize + align else frameSize

/-- What is added to the bytes at most, and one more. -/
def reserve (mode : AnalysisMode) (align : ℕ) (calls : Bool) : ℕ :=
  if mode = .ABI ∧ 1 < align ∧ calls = true then 2 * align else align

variable {mode : AnalysisMode} {declaration calls : Bool}

/-- The rounded bytes have 64 bits. -/
theorem roundedBytes_lt (h : Alignment align) :
    roundedBytes mode align declaration calls n < 2 ^ 64 := by
  have halign : alignTo n align < 2 ^ 64 := Nat.mod_lt _ (by norm_num)
  have hlt := h.lt
  cases mode with
  | IR => exact halign
  | ABI =>
    simp only [roundedBytes]
    split_ifs <;> omega

/-- **The rounded bytes are a multiple** of the alignment. -/
theorem dvd_roundedBytes (h : Alignment align) :
    align ∣ roundedBytes mode align declaration calls n := by
  have halign := dvd_alignTo h n
  cases mode with
  | IR => exact halign
  | ABI =>
    simp only [roundedBytes]
    split_ifs
    · exact dvd_add_mod h (dvd_refl align)
    · exact dvd_add_mod h halign
    · exact dvd_refl align
    · exact halign

/-- The frame has room for the bytes. -/
theorem le_exactFrame (h : Alignment align) : n ≤ exactFrame mode align declaration calls n := by
  have hround := le_roundUp (n := n) h.pos
  cases mode with
  | IR => exact hround
  | ABI =>
    simp only [exactFrame]
    split_ifs <;> omega

/-- The frame grows with the bytes. -/
theorem exactFrame_mono (h : Alignment align) {m : ℕ} (hnm : n ≤ m) :
    exactFrame mode align declaration calls n ≤ exactFrame mode align declaration calls m := by
  have hround := roundUp_mono h.pos hnm
  cases mode with
  | IR => exact hround
  | ABI =>
    have hfloor : (if declaration = false ∧ 1 < align ∧ roundUp n align < align then align
        else roundUp n align) ≤ (if declaration = false ∧ 1 < align ∧ roundUp m align < align
        then align else roundUp m align) := by
      cases declaration with
      | false =>
        simp only [true_and]
        split_ifs <;> omega
      | true => simpa using hround
    by_cases hcalls : 1 < align ∧ calls = true
    · simpa only [exactFrame, if_pos hcalls] using Nat.add_le_add_right hfloor align
    · simpa only [exactFrame, if_neg hcalls] using hfloor

variable (align mode calls) in
/-- The reserve is the alignment at least. -/
theorem align_le_reserve : align ≤ reserve mode align calls := by
  unfold reserve
  split_ifs <;> omega

/-- **Without wrap-around** the rounded bytes are the frame. -/
theorem roundedBytes_of_fits (h : Alignment align) (hfits : n + reserve mode align calls ≤ 2 ^ 64) :
    roundedBytes mode align declaration calls n = exactFrame mode align declaration calls n := by
  have hreserve := align_le_reserve align mode calls
  have hpos := h.pos
  have hlt := h.lt
  have hround : alignTo n align = roundUp n align := by
    rw [alignTo_eq h (by omega), if_pos (by omega)]
  cases mode with
  | IR => exact hround
  | ABI =>
    simp only [roundedBytes, exactFrame, hround]
    by_cases hcalls : 1 < align ∧ calls = true
    · -- two alignments are left, so the sum is a multiple below the last one
      have htwice : n + align ≤ 2 ^ 64 - align := by
        simp only [reserve, hcalls, and_self, if_true] at hfits
        omega
      have hbelow := (roundUp_lt_iff h.pos (Nat.dvd_sub h.dvd (dvd_refl align))).mpr htwice
      rw [if_pos hcalls, if_pos hcalls]
      apply Nat.mod_eq_of_lt
      split_ifs <;> omega
    · rw [if_neg hcalls, if_neg hcalls]

/-- **With wrap-around** they are too few, though below `2 ^ 64`. -/
theorem roundedBytes_of_not_fits (h : Alignment align) (hn : n < 2 ^ 64)
    (hfits : 2 ^ 64 < n + reserve mode align calls) :
    roundedBytes mode align declaration calls n < n := by
  have hpos := h.pos
  have hlt := h.lt
  by_cases hround : n + align ≤ 2 ^ 64
  · -- the call does not fit: the sum wraps around to zero
    obtain ⟨rfl, halign, rfl⟩ : mode = .ABI ∧ 1 < align ∧ calls = true := by
      by_contra hne
      rw [reserve, if_neg hne] at hfits
      omega
    have htwice : 2 ^ 64 < n + 2 * align := by simpa [reserve, halign] using hfits
    have hdvd : align ∣ 2 ^ 64 - align := Nat.dvd_sub h.dvd (dvd_refl align)
    have heq : roundUp n align = 2 ^ 64 - align := by
      refine le_antisymm ((roundUp_le_iff h.pos hdvd).mpr (by omega)) ?_
      rw [← not_lt, roundUp_lt_iff h.pos hdvd]
      omega
    have hzero : roundedBytes .ABI align declaration true n = 0 := by
      simp only [roundedBytes, alignTo_eq h hn, if_pos hround, heq, halign, and_self, if_true]
      rw [if_neg (by omega), Nat.sub_add_cancel (by omega), Nat.mod_self]
    omega
  · have hzero : alignTo n align = 0 := by rw [alignTo_eq h hn, if_neg hround]
    cases mode with
    | IR =>
      show alignTo n align < n
      omega
    | ABI =>
      simp only [roundedBytes, hzero]
      split_ifs <;> omega

end Rounding

/-! ## Frames -/

section Frames

variable {F V B : Type*} [DecidableEq F] [DecidableEq V] [Fintype V] {mod : Module F V B}
  {layout : DataLayout} {deriveAllocaName : V → CppString} {f : F}

/-- **The bytes of a frame** are the exact sum, rounded in 64 bits. -/
theorem computeLocalStack_bytes (hf : ConstantCounts mod f) (mode : AnalysisMode)
    (alignment : Option StackAlignment) :
    (computeLocalStack mod layout deriveAllocaName mode alignment f).bytes =
      roundedBytes mode (stackAlign alignment) (mod.isDeclaration f) (hasNonSelfCall mod f)
        ((exactSizes mod layout f).sum % 2 ^ 64) := by
  have halign := alignment_stackAlign alignment
  set bytes := (exactSizes mod layout f).sum % 2 ^ 64 with hbytes
  have hlt : bytes < 2 ^ 64 := Nat.mod_lt _ (by norm_num)
  have hbase := base_bytes layout hf deriveAllocaName
  rw [← hbytes] at hbase
  -- an alignment of one changes nothing
  have hone : ¬ 1 < stackAlign alignment → alignTo bytes (stackAlign alignment) = bytes := by
    intro hle
    have hpos := halign.pos
    have heq : stackAlign alignment = 1 := by omega
    rw [alignTo_of_dvd halign hlt (by rw [heq]; exact one_dvd _)]
  cases mode with
  | IR =>
    simp only [computeLocalStack, computeLocalStackIR, roundedBytes, hbase]
    split_ifs with hzero hgt
    · rw [hbase, hzero, alignTo_of_dvd halign (by norm_num) (dvd_zero _)]
    · rfl
    · rw [hbase, hone hgt]
  | ABI =>
    have hround : (if 1 < stackAlign alignment then alignTo bytes (stackAlign alignment)
        else bytes) = alignTo bytes (stackAlign alignment) := by
      split_ifs with hgt
      · rfl
      · rw [hone hgt]
    simp only [computeLocalStack, computeLocalStackABI, roundedBytes, hbase, hround]
    split_ifs with hcalls
    · exact alignTo_of_dvd halign (Nat.mod_lt _ (by norm_num)) (dvd_add_mod halign (dvd_refl _))
    · exact alignTo_of_dvd halign (Nat.mod_lt _ (by norm_num))
        (dvd_add_mod halign (dvd_alignTo halign _))
    all_goals rfl

variable {F' V' B' : Type*} [DecidableEq F'] [DecidableEq V'] [Fintype V'] {mod' : Module F' V' B'}
  {deriveAllocaName' : V' → CppString} {f' : F'}

variable (mod layout f mod' f') in
/-- Allocas are added to a function, or enlarged; the calls stay. -/
structure Enlarges : Prop where
  sizes : List.SublistForall₂ (· ≤ ·) (exactSizes mod layout f) (exactSizes mod' layout f')
  declaration : mod'.isDeclaration f' = mod.isDeclaration f
  calls : hasNonSelfCall mod' f' = hasNonSelfCall mod f

variable (mod layout deriveAllocaName f) in
/-- The frame of a function has room for all allocas, and is aligned. -/
def HasRoom (mode : AnalysisMode) (alignment : Option StackAlignment) : Prop :=
  (exactSizes mod layout f).sum ≤
      (computeLocalStack mod layout deriveAllocaName mode alignment f).bytes ∧
    stackAlign alignment ∣ (computeLocalStack mod layout deriveAllocaName mode alignment f).bytes

variable (mod layout deriveAllocaName f mod' deriveAllocaName' f') in
/-- **Frames are right**: those of a function and of one with more or larger allocas have room for
all of them and are aligned, and the frame does not get smaller. -/
def NeverUnderestimates (mode : AnalysisMode) (alignment : Option StackAlignment) : Prop :=
  HasRoom mod layout deriveAllocaName f mode alignment ∧
    HasRoom mod' layout deriveAllocaName' f' mode alignment ∧
    (computeLocalStack mod layout deriveAllocaName mode alignment f).bytes ≤
      (computeLocalStack mod' layout deriveAllocaName' mode alignment f').bytes

variable (mod layout f) in
/-- **Nothing wraps around**: the sum of the sizes leaves room for the alignment below `2 ^ 64`, and
for another one if calls take room. -/
def LeavesRoom (mode : AnalysisMode) (alignment : Option StackAlignment) : Prop :=
  (exactSizes mod layout f).sum + reserve mode (stackAlign alignment) (hasNonSelfCall mod f) ≤
    2 ^ 64

omit [DecidableEq V] [Fintype V] [DecidableEq V'] [Fintype V'] in
/-- A larger function needs more. -/
theorem Enlarges.sum_le (h : Enlarges mod layout f mod' f') :
    (exactSizes mod layout f).sum ≤ (exactSizes mod' layout f').sum :=
  h.sizes.sum_le_sum fun _ _ => Nat.zero_le _

/-- Without wrap-around, the bytes are those of the frame without a bound. -/
theorem bytes_eq_exactFrame (hf : ConstantCounts mod f) {mode : AnalysisMode}
    {alignment : Option StackAlignment} (hroom : LeavesRoom mod layout f mode alignment) :
    (computeLocalStack mod layout deriveAllocaName mode alignment f).bytes =
      exactFrame mode (stackAlign alignment) (mod.isDeclaration f) (hasNonSelfCall mod f)
        (exactSizes mod layout f).sum := by
  have halign := alignment_stackAlign alignment
  have hpos := halign.pos
  have hreserve := align_le_reserve (stackAlign alignment) mode (hasNonSelfCall mod f)
  have hlt : (exactSizes mod layout f).sum < 2 ^ 64 := by
    unfold LeavesRoom at hroom
    omega
  rw [computeLocalStack_bytes hf, Nat.mod_eq_of_lt hlt, roundedBytes_of_fits halign hroom]

/-- Without wrap-around, the frame has room for all allocas; otherwise it has not. -/
theorem sum_le_bytes_iff (hf : ConstantCounts mod f) (mode : AnalysisMode)
    (alignment : Option StackAlignment) :
    (exactSizes mod layout f).sum ≤
        (computeLocalStack mod layout deriveAllocaName mode alignment f).bytes ↔
      LeavesRoom mod layout f mode alignment := by
  have halign := alignment_stackAlign alignment
  constructor
  · intro hle
    by_contra hroom
    rw [computeLocalStack_bytes hf] at hle
    by_cases hlt : (exactSizes mod layout f).sum < 2 ^ 64
    · rw [Nat.mod_eq_of_lt hlt] at hle
      exact absurd (roundedBytes_of_not_fits halign hlt (not_le.mp hroom)) (not_lt.mpr hle)
    · exact absurd ((not_lt.mp hlt).trans hle) (not_le.mpr (roundedBytes_lt halign))
  · intro hroom
    rw [bytes_eq_exactFrame hf hroom]
    exact le_exactFrame halign

/-- **Frames are right if and only if nothing wraps around.** The bytes are always a multiple of the
alignment, but a sum that leaves too little room wraps around, and the frame is smaller than the
sum. -/
theorem neverUnderestimates_iff (hf : ConstantCounts mod f) (hf' : ConstantCounts mod' f')
    (h : Enlarges mod layout f mod' f') (mode : AnalysisMode)
    (alignment : Option StackAlignment) :
    NeverUnderestimates mod layout deriveAllocaName f mod' deriveAllocaName' f' mode alignment ↔
      LeavesRoom mod' layout f' mode alignment := by
  have halign := alignment_stackAlign alignment
  refine ⟨fun hright => (sum_le_bytes_iff hf' mode alignment).mp hright.2.1.1, fun hroom' => ?_⟩
  have hroom : LeavesRoom mod layout f mode alignment := by
    have hsum := h.sum_le
    unfold LeavesRoom at hroom' ⊢
    rw [h.calls] at hroom'
    omega
  have hdvd : stackAlign alignment ∣
      (computeLocalStack mod layout deriveAllocaName mode alignment f).bytes := by
    rw [computeLocalStack_bytes hf]
    exact dvd_roundedBytes halign
  have hdvd' : stackAlign alignment ∣
      (computeLocalStack mod' layout deriveAllocaName' mode alignment f').bytes := by
    rw [computeLocalStack_bytes hf']
    exact dvd_roundedBytes halign
  refine ⟨⟨(sum_le_bytes_iff hf mode alignment).mpr hroom, hdvd⟩,
    ⟨(sum_le_bytes_iff hf' mode alignment).mpr hroom', hdvd'⟩, ?_⟩
  rw [bytes_eq_exactFrame hf hroom, bytes_eq_exactFrame hf' hroom', h.declaration, h.calls]
  exact exactFrame_mono halign h.sum_le

/-! ## One large array -/

/-- The example has three values. -/
theorem neZero_three : NeZero 3 := ⟨three_ne_zero⟩

attribute [local instance] neZero_three

/-- The values of `long a[count];`: the count, the array and the return. -/
def longArrayValue (count : BitVec 64) : Fin 3 → Value (Fin 3) (Fin 1) Unit
  | 0 => .constantInt 64 count
  | 1 => .alloca (.int ⟨64, isWidth_sixtyFour⟩) 0 false
  | 2 => .ret

/-- The module of this function. -/
def longArray (count : BitVec 64) : Module Unit (Fin 3) (Fin 1) :=
  singleFunction (longArrayValue count) (fun _ => .other) (fun _ => [1, 2]) (fun _ => [])
    (by decide)

/-- The count is a constant. -/
theorem longArray_constantCounts (count : BitVec 64) : ConstantCounts (longArray count) () := by
  intro inst hinst ty arraySize used hvalue
  fin_cases inst <;> cases hvalue
  rfl

/-- The size is eight bytes for each element. -/
theorem longArray_exactSizes (count : BitVec 64) :
    exactSizes (longArray count) Bounds.byteLayout () = [8 * count.toNat] := rfl

/-- The theorem at an array of four numbers, and one of five. -/
theorem neverUnderestimates_iff_longArray :
    NeverUnderestimates (longArray 4) Bounds.byteLayout (fun _ => []) () (longArray 5)
        (fun _ => []) () .ABI (some ⟨4, by decide⟩) ↔
      LeavesRoom (longArray 5) Bounds.byteLayout () .ABI (some ⟨4, by decide⟩) :=
  neverUnderestimates_iff (longArray_constantCounts 4) (longArray_constantCounts 5)
    ⟨.cons (by decide) .nil, rfl, rfl⟩ .ABI _

/-- **Frames are not always right**: `2 ^ 61` numbers of eight bytes each take no bytes at all. -/
theorem not_neverUnderestimates_huge :
    ¬ NeverUnderestimates (longArray 0x2000000000000000) Bounds.byteLayout (fun _ => []) ()
      (longArray 0x2000000000000000) (fun _ => []) () .IR (some ⟨4, by decide⟩) := by
  intro h
  have hroom := (sum_le_bytes_iff (longArray_constantCounts 0x2000000000000000) .IR _).mp h.1.1
  rw [LeavesRoom, longArray_exactSizes] at hroom
  exact absurd hroom (by decide)

end Frames

end StackAnalyzer.Frames
