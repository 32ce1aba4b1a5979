import StackAnalyzer.Layouts.Subobjects
import StackAnalyzer.Lists.Searching

set_option relaxedAutoImplicit false
set_option autoImplicit false

/-!
# Bounds of projections

A pointer that is computed from the address of a subobject may point to any element of the array
that the subobject is an element of. The bounds are those of the outermost subobject around the
address that is of the given type and starts there, or that is an array of this type with an
element that starts there. They are searched for from the outside, thirteen levels deep.

## Main definitions

* `StackAnalyzer.InvalidBase.DataLayout.Reports` — what is known of the sizes and the offsets.
* `StackAnalyzer.InvalidBase.findProjectionBoundsAtOffset` — the search.
* `StackAnalyzer.InvalidBase.isProjectionWithinSourceSubobjectBounds` — what it is used for.
* `StackAnalyzer.InvalidBase.Qualifies` — the subobjects that are searched for.

## Main results

* `StackAnalyzer.InvalidBase.findProjectionBounds_spec` — what is found, and what there is not if
  nothing is found.
* `StackAnalyzer.InvalidBase.exists_subobject_of_projection` — what is accepted.
-/

namespace StackAnalyzer.InvalidBase

open Layouts Lists

variable {T : Type*}

/-! ## The data layout -/

/-- `TypeSize`. -/
inductive TypeSize
  | fixed (value : ℕ)
  | scalable (minimum : ℕ)

/-- `DataLayout`: the sizes of the types and the offsets of the members, in 64 bits. -/
structure DataLayout (T : Type*) where
  getTypeAllocSize : T → TypeSize
  getElementOffset : T → ℕ → ℕ

/-- **The sizes and offsets are those of a layout**, for the types with a size that fits in 64 bits,
counted in bits. -/
structure DataLayout.Reports (DL : DataLayout T) (L : Layout T) : Prop where
  size : ∀ t, 8 * L.size t < 2 ^ 64 → DL.getTypeAllocSize t = .fixed (L.size t)
  offset : ∀ t members, L.shape t = .struct members → 8 * L.size t < 2 ^ 64 →
    ∀ i < members.length, DL.getElementOffset t i = L.offset t i

/-! ## The search -/

section Search

variable [DecidableEq T] (shape : T → Shape T) (DL : DataLayout T) (sourceElementType : T)
  (queryOffset : ℕ)

/-- `ProjectionBounds`. -/
structure ProjectionBounds where
  beginOffset : ℕ
  endOffset : ℕ
  deriving DecidableEq

/-- The part of `findProjectionBoundsAtOffset` for arrays, with the function for the elements. -/
def arrayBounds (find : T → ℕ → Option ProjectionBounds) (elemTy : T) (elemCount baseOffset : ℕ) :
    Option ProjectionBounds :=
  match DL.getTypeAllocSize elemTy with
  | .scalable _ => none
  | .fixed elemSize =>
    if elemSize = 0 then none
    else if (2 ^ 64 - 1) / elemSize < elemCount then none
    else
      let arrayEnd := (baseOffset + elemSize * elemCount) % 2 ^ 64
      if queryOffset < baseOffset ∨ arrayEnd ≤ queryOffset then none
      else
        let rel := queryOffset - baseOffset
        if elemTy = sourceElementType ∧ rel % elemSize = 0 then some ⟨baseOffset, arrayEnd⟩
        else
          let elemIdx := rel / elemSize
          if elemCount ≤ elemIdx then none
          else find elemTy ((baseOffset + elemIdx * elemSize) % 2 ^ 64)

/-- The test for a member that is an array of the given type. -/
def isArrayOfSource (memberTy : T) (memberBase memberSize : ℕ) : Bool :=
  match shape memberTy with
  | .array _ elemTy =>
    match DL.getTypeAllocSize elemTy with
    | .scalable _ => false
    | .fixed elemSize =>
      let rel := queryOffset - memberBase
      decide (elemTy = sourceElementType) && decide (0 < elemSize) && decide (rel < memberSize) &&
        decide (rel % elemSize = 0)
  | _ => false

/-- The body of the loop over the members of a structure. -/
def memberBounds (find : T → ℕ → Option ProjectionBounds) (structTy : T) (baseOffset : ℕ)
    (memberTy : T) (i : ℕ) : Option ProjectionBounds :=
  match DL.getTypeAllocSize memberTy with
  | .scalable _ => none
  | .fixed memberSize =>
    let memberOffset := DL.getElementOffset structTy i
    if 2 ^ 64 - 1 - memberOffset < baseOffset then none
    else
      let memberBase := baseOffset + memberOffset
      if 2 ^ 64 - 1 - memberSize < memberBase then none
      else
        let memberEnd := memberBase + memberSize
        if queryOffset < memberBase ∨ memberEnd ≤ queryOffset then none
        else if memberTy = sourceElementType ∧ queryOffset = memberBase then
          some ⟨memberBase, memberEnd⟩
        else if isArrayOfSource shape DL sourceElementType queryOffset memberTy memberBase
            memberSize then
          some ⟨memberBase, memberEnd⟩
        else find memberTy memberBase

/-- **`findProjectionBoundsAtOffset`**, with the number of levels that are left. -/
def findProjectionBoundsAtOffset : ℕ → T → ℕ → Option ProjectionBounds
  | 0, _, _ => none
  | levels + 1, currentType, baseOffset =>
    match DL.getTypeAllocSize currentType with
    | .scalable _ => none
    | .fixed currentSize =>
      if 2 ^ 64 - 1 - currentSize < baseOffset then none
      else
        let currentEnd := baseOffset + currentSize
        if queryOffset < baseOffset ∨ currentEnd ≤ queryOffset then none
        else if currentType = sourceElementType ∧ queryOffset = baseOffset then
          some ⟨baseOffset, currentEnd⟩
        else
          match shape currentType with
          | .scalar => none
          | .array elemCount elemTy =>
            arrayBounds DL sourceElementType queryOffset (findProjectionBoundsAtOffset levels)
              elemTy elemCount baseOffset
          | .struct members =>
            members.zipIdx.findSome? fun member =>
              memberBounds shape DL sourceElementType queryOffset
                (findProjectionBoundsAtOffset levels) currentType baseOffset member.1 member.2

/-- The search in an object, from level `0` to level `12`. -/
def findProjectionBounds (currentType : T) : Option ProjectionBounds :=
  findProjectionBoundsAtOffset shape DL sourceElementType queryOffset 13 currentType 0

end Search

/-- `isProjectionWithinSourceSubobjectBounds`. -/
def isProjectionWithinSourceSubobjectBounds [DecidableEq T] (shape : T → Shape T)
    (originOffset resultOffset : ℤ) (allocatedType : Option T) (allocaSize : ℕ) (DL : DataLayout T)
    (sourceElementType : Option T) : Bool :=
  match allocatedType, sourceElementType with
  | some allocatedType, some sourceElementType =>
    if originOffset < 0 ∨ resultOffset < 0 then false
    else
      let uOrigin := originOffset.toNat
      let uResult := resultOffset.toNat
      if allocaSize ≤ uOrigin ∨ allocaSize ≤ uResult then false
      else
        match findProjectionBounds shape DL sourceElementType uOrigin allocatedType with
        | none => false
        | some bounds =>
          if bounds.endOffset < bounds.beginOffset ∨ allocaSize < bounds.endOffset then false
          else decide (bounds.beginOffset ≤ uResult) && decide (uResult < bounds.endOffset)
  | _, _ => false

/-! ## What is searched for -/

section Answers

variable (L : Layout T) (source : T) (query : ℕ)

/-- **The subobjects that are searched for**: of the given type and at the given address, or an
array of this type with an element at this address. -/
def Qualifies (t : T) (b : ℕ) : Prop :=
  (t = source ∧ b = query) ∨
    ∃ count, L.shape t = .array count source ∧ ∃ k < count, b + k * L.size source = query

/-- **The answers of a search** in an object: the bounds of the outermost such subobject around the
address, or none if there is no such subobject on the first levels. -/
def Answers (levels : ℕ) (t : T) (b : ℕ) : Option ProjectionBounds → Prop
  | some bounds => ∃ level t' b', OnPath L query level t b t' b' ∧ Qualifies L source query t' b' ∧
      bounds = ⟨b', b' + L.size t'⟩ ∧
      ∀ outer < level, ∀ t'' b'', OnPath L query outer t b t'' b'' →
        ¬ Qualifies L source query t'' b''
  | none => ∀ level < levels, ∀ t' b', OnPath L query level t b t' b' →
      ¬ Qualifies L source query t' b'

variable {L source query} {levels : ℕ} {t t' : T} {b b' : ℕ} {answer : Option ProjectionBounds}

/-- An address outside the object. -/
theorem answers_of_not_covers (h : ¬ Covers L query t b) : Answers L source query levels t b none :=
  fun _ _ _ _ hpath => absurd hpath.covers_root h

/-- The object itself. -/
theorem answers_of_qualifies (hcovers : Covers L query t b) (h : Qualifies L source query t b) :
    Answers L source query levels t b (some ⟨b, b + L.size t⟩) :=
  ⟨0, t, b, .here hcovers, h, rfl, fun _ hlt => absurd hlt (Nat.not_lt_zero _)⟩

/-- **The answer for a part** is the answer for the object. -/
theorem answers_of_part (hcovers : Covers L query t b) (hnot : ¬ Qualifies L source query t b)
    (hpart : Part L t b t' b') (hcovers' : Covers L query t' b')
    (h : Answers L source query levels t' b' answer) :
    Answers L source query (levels + 1) t b answer := by
  -- a path into the object goes on in this part
  have hpaths : ∀ level t'' b'', OnPath L query level t b t'' b'' →
      Qualifies L source query t'' b'' →
      ∃ inner, level = inner + 1 ∧ OnPath L query inner t' b' t'' b'' := by
    intro level t'' b'' hpath hqualifies
    cases hpath with
    | here _ => exact absurd hqualifies hnot
    | inside _ hother hpath =>
      obtain ⟨rfl, rfl⟩ := hother.unique hpath.covers_root hpart hcovers'
      exact ⟨_, rfl, hpath⟩
  cases answer with
  | none =>
    intro level hlevel t'' b'' hpath hqualifies
    obtain ⟨inner, rfl, hinner⟩ := hpaths level t'' b'' hpath hqualifies
    exact h inner (Nat.lt_of_succ_lt_succ hlevel) t'' b'' hinner hqualifies
  | some bounds =>
    obtain ⟨level, t'', b'', hpath, hqualifies, hbounds, houter⟩ := h
    refine ⟨level + 1, t'', b'', .inside hcovers hpart hpath, hqualifies, hbounds, ?_⟩
    intro outer hlt t''' b''' hpath' hqualifies'
    obtain ⟨inner, rfl, hinner⟩ := hpaths outer t''' b''' hpath' hqualifies'
    exact houter inner (Nat.lt_of_succ_lt_succ hlt) t''' b''' hinner hqualifies'

/-- The address lies in no part of the object. -/
theorem answers_of_no_part (hnot : ¬ Qualifies L source query t b)
    (h : ∀ t' b', Part L t b t' b' → ¬ Covers L query t' b') :
    Answers L source query levels t b none := by
  intro level _ t' b' hpath hqualifies
  cases hpath with
  | here _ => exact hnot hqualifies
  | inside _ hpart hpath => exact h _ _ hpart hpath.covers_root

/-- An array of the given type, of which an element starts at the address. -/
theorem qualifies_array_iff {count : ℕ} {elemTy : T} (hshape : L.shape t = .array count elemTy)
    (hcovers : Covers L query t b) (hnot : ¬ (t = source ∧ query = b)) :
    Qualifies L source query t b ↔ elemTy = source ∧ (query - b) % L.size elemTy = 0 := by
  obtain ⟨hle, hlt⟩ := hcovers
  rw [L.size_array hshape] at hlt
  constructor
  · rintro (⟨hsource, hb⟩ | ⟨count', hshape', k, -, hk⟩)
    · exact absurd ⟨hsource, hb.symm⟩ hnot
    · obtain ⟨-, rfl⟩ := Shape.array.inj (hshape.symm.trans hshape')
      refine ⟨rfl, ?_⟩
      rw [← hk, Nat.add_sub_cancel_left]
      exact Nat.mul_mod_left _ _
  · rintro ⟨rfl, hmod⟩
    have hmul := Nat.div_mul_cancel (Nat.dvd_of_mod_eq_zero hmod)
    refine Or.inr ⟨count, hshape, (query - b) / L.size elemTy, ?_, ?_⟩
    · exact Nat.div_lt_of_lt_mul (by rw [Nat.mul_comm]; omega)
    · omega

/-- A scalar or a structure of another type, or at another address. -/
theorem not_qualifies_of_shape (hnot : ¬ (t = source ∧ query = b))
    (h : ∀ count elemTy, L.shape t ≠ .array count elemTy) : ¬ Qualifies L source query t b := by
  rintro (⟨hsource, hb⟩ | ⟨count, hshape, -⟩)
  · exact hnot ⟨hsource, hb.symm⟩
  · exact h count source hshape

end Answers

/-! ## Layouts in 64 bits -/

section Reported

variable (L : Layout T)

/-- The sizes of a layout, counted in bits and in 64 bits. -/
def DataLayout.ofLayout : DataLayout T where
  getTypeAllocSize t := .fixed (8 * L.size t % 2 ^ 64 / 8)
  getElementOffset t i := L.offset t i

/-- The size that is reported. -/
@[simp] theorem DataLayout.getTypeAllocSize_ofLayout (t : T) :
    (DataLayout.ofLayout L).getTypeAllocSize t = .fixed (8 * L.size t % 2 ^ 64 / 8) := rfl

/-- They are the sizes of the types that fit. -/
theorem DataLayout.reports_ofLayout : (DataLayout.ofLayout L).Reports L where
  size t hbits := by
    rw [DataLayout.getTypeAllocSize_ofLayout, Nat.mod_eq_of_lt hbits,
      Nat.mul_div_cancel_left _ (by omega)]
  offset _ _ _ _ _ _ := rfl

/-- The types of a record of a number and four smaller ones. -/
inductive RecordType
  | i32
  | i64
  | smaller
  | record
  deriving DecidableEq

/-- The layout of the record. -/
def recordLayout : Layout RecordType where
  shape
    | .i32 | .i64 => .scalar
    | .smaller => .array 4 .i32
    | .record => .struct [.i64, .smaller]
  size
    | .i32 => 4
    | .i64 => 8
    | .smaller => 16
    | .record => 24
  offset
    | .record, 1 => 8
    | _, _ => 0
  size_array {t count element} hshape := by
    cases t <;> cases hshape
    rfl
  order {t members i j m m'} hshape hij hi hj := by
    cases t <;> cases hshape
    match i, j with
    | 0, 1 =>
      cases hi
      exact le_rfl
    | 0, j + 2 => cases hj
    | 1, j + 2 => cases hj
    | i + 2, _ => cases hi
  inside {t members i m} hshape hi := by
    cases t <;> cases hshape
    match i with
    | 0 =>
      cases hi
      decide
    | 1 =>
      cases hi
      decide
    | i + 2 => cases hi

/-- The types of a number and of an array with a size that does not fit in 64 bits. -/
inductive HugeType
  | i64
  | huge
  deriving DecidableEq

/-- The layout of the array. -/
def hugeLayout : Layout HugeType where
  shape
    | .i64 => .scalar
    | .huge => .array (2 ^ 61 + 1) .i64
  size
    | .i64 => 8
    | .huge => (2 ^ 61 + 1) * 8
  offset _ _ := 0
  size_array {t count element} hshape := by
    cases t <;> cases hshape
    rfl
  order {t} _ _ _ _ _ hshape := by
    cases t <;> cases hshape
  inside {t} _ _ _ hshape := by
    cases t <;> cases hshape

end Reported

/-! ## What is found -/

section Spec

variable (L : Layout T)

/-- The end of the object fits in 64 bits, and so does its size, counted in bits. -/
def Fits (t : T) (b : ℕ) : Prop := 8 * L.size t < 2 ^ 64 ∧ b + L.size t < 2 ^ 64

variable {L} {DL : DataLayout T} {source : T} {query levels b b' : ℕ} {t t' : T}

/-- The parts of an object fit if the object does. -/
theorem Fits.part (h : Fits L t b) (hpart : Part L t b t' b') : Fits L t' b' := by
  obtain ⟨hbits, hend⟩ := h
  have hinside := hpart.inside
  exact ⟨by omega, by omega⟩

variable [DecidableEq T] {find : T → ℕ → Option ProjectionBounds}

/-- The search in an array. -/
theorem arrayBounds_answers (hDL : DL.Reports L) {count : ℕ} {elemTy : T}
    (hshape : L.shape t = .array count elemTy) (hfits : Fits L t b) (hcovers : Covers L query t b)
    (hnot : ¬ (t = source ∧ query = b))
    (hfind : ∀ t' b', Fits L t' b' → Answers L source query levels t' b' (find t' b')) :
    Answers L source query (levels + 1) t b (arrayBounds DL source query find elemTy count b) := by
  have hsize := L.size_array hshape
  have hqualifies := qualifies_array_iff hshape hcovers hnot
  obtain ⟨hle, hlt⟩ := id hcovers
  obtain ⟨hbits, hend⟩ := id hfits
  have helem := size_pos_of_covers hshape hcovers
  have hpart := part_of_covers hshape hcovers
  have hcovers' := covers_element hshape hcovers
  have hindex := index_lt_of_covers hshape hcovers
  have hfits' := hfits.part hpart
  have hguard : ¬ (2 ^ 64 - 1) / L.size elemTy < count := by
    rw [Nat.not_lt, Nat.le_div_iff_mul_le helem]
    omega
  have harrayEnd : (b + L.size elemTy * count) % 2 ^ 64 = b + L.size t := by
    rw [Nat.mul_comm, ← hsize]
    exact Nat.mod_eq_of_lt hend
  have helemBase := Nat.mod_eq_of_lt (lt_of_le_of_lt (Nat.le_add_right _ _) hfits'.2)
  simp only [arrayBounds, hDL.size elemTy hfits'.1, harrayEnd, helemBase]
  rw [if_neg helem.ne', if_neg hguard, if_neg (by omega)]
  split_ifs with hfound hout
  · exact answers_of_qualifies hcovers (hqualifies.mpr hfound)
  · exact absurd hout (Nat.not_le.mpr hindex)
  · exact answers_of_part hcovers (fun h => hfound (hqualifies.mp h)) hpart hcovers'
      (hfind _ _ hfits')

/-- The test for an array of the given type. -/
theorem isArrayOfSource_iff (hDL : DL.Reports L) (hfits : Fits L t b) (hcovers : Covers L query t b)
    (hnot : ¬ (t = source ∧ query = b)) :
    isArrayOfSource L.shape DL source query t b (L.size t) = true ↔
      Qualifies L source query t b := by
  obtain ⟨hle, hlt⟩ := id hcovers
  cases hshape : L.shape t with
  | scalar =>
    simp only [isArrayOfSource, hshape, Bool.false_eq_true, false_iff]
    exact not_qualifies_of_shape hnot (by rw [hshape]; nofun)
  | struct members =>
    simp only [isArrayOfSource, hshape, Bool.false_eq_true, false_iff]
    exact not_qualifies_of_shape hnot (by rw [hshape]; nofun)
  | array count elemTy =>
    have hsize := L.size_array hshape
    have helem := size_pos_of_covers hshape hcovers
    have hpart := part_of_covers hshape hcovers
    rw [qualifies_array_iff hshape hcovers hnot]
    simp only [isArrayOfSource, hshape, hDL.size elemTy (hfits.part hpart).1, Bool.and_eq_true,
      decide_eq_true_eq]
    constructor
    · rintro ⟨⟨⟨hsource, -⟩, -⟩, hmod⟩
      exact ⟨hsource, hmod⟩
    · rintro ⟨hsource, hmod⟩
      exact ⟨⟨⟨hsource, helem⟩, by omega⟩, hmod⟩

/-- The loop goes over a member that the address is not in. -/
theorem memberBounds_eq_none (hDL : DL.Reports L) {members : List T} {i : ℕ} {m : T}
    (hshape : L.shape t = .struct members) (hm : members[i]? = some m) (hfits : Fits L t b)
    (hcovers : ¬ Covers L query m (b + L.offset t i)) :
    memberBounds L.shape DL source query find t b m i = none := by
  have hfits' := hfits.part (.member hshape hm)
  have hlength := (List.getElem?_eq_some_iff.mp hm).1
  simp only [memberBounds, hDL.size m hfits'.1, hDL.offset t members hshape hfits.1 i hlength]
  rw [Covers, not_and_or, Nat.not_le, Nat.not_lt] at hcovers
  split_ifs <;> rfl

/-- The search in the member that the address is in. -/
theorem memberBounds_answers (hDL : DL.Reports L) {members : List T} {i : ℕ} {m : T}
    (hshape : L.shape t = .struct members) (hm : members[i]? = some m) (hfits : Fits L t b)
    (hcovers : Covers L query m (b + L.offset t i))
    (hfind : ∀ t' b', Fits L t' b' → Answers L source query levels t' b' (find t' b')) :
    Answers L source query levels m (b + L.offset t i)
      (memberBounds L.shape DL source query find t b m i) := by
  have hfits' := hfits.part (.member hshape hm)
  have hlength := (List.getElem?_eq_some_iff.mp hm).1
  obtain ⟨hle, hlt⟩ := id hcovers
  obtain ⟨hbits, hend⟩ := id hfits'
  simp only [memberBounds, hDL.size m hbits, hDL.offset t members hshape hfits.1 i hlength]
  rw [if_neg (by omega), if_neg (by omega), if_neg (by omega)]
  split_ifs with hhere harray
  · exact answers_of_qualifies hcovers (.inl ⟨hhere.1, hhere.2.symm⟩)
  · exact answers_of_qualifies hcovers ((isArrayOfSource_iff hDL hfits' hcovers hhere).mp harray)
  · exact hfind _ _ hfits'

/-- The search in a structure. -/
theorem structBounds_answers (hDL : DL.Reports L) {members : List T}
    (hshape : L.shape t = .struct members) (hfits : Fits L t b) (hcovers : Covers L query t b)
    (hnot : ¬ (t = source ∧ query = b))
    (hfind : ∀ t' b', Fits L t' b' → Answers L source query levels t' b' (find t' b')) :
    Answers L source query (levels + 1) t b (members.zipIdx.findSome? fun member =>
      memberBounds L.shape DL source query find t b member.1 member.2) := by
  have hnot' := not_qualifies_of_shape hnot (by rw [hshape]; nofun)
  by_cases hmember : ∃ i m, members[i]? = some m ∧ Covers L query m (b + L.offset t i)
  · obtain ⟨i, m, hm, hcovers'⟩ := hmember
    -- the other members do not have the address
    have hmem : (m, i) ∈ members.zipIdx := List.mem_zipIdx_iff_getElem?.mpr hm
    rw [findSome?_eq_of_forall_ne hmem]
    · exact answers_of_part hcovers hnot' (.member hshape hm) hcovers'
        (memberBounds_answers hDL hshape hm hfits hcovers' hfind)
    · rintro ⟨m', j⟩ hm' hne
      rw [List.mem_zipIdx_iff_getElem?] at hm'
      refine memberBounds_eq_none hDL hshape hm' hfits fun hother => hne ?_
      obtain rfl := member_unique hshape hm hcovers' hm' hother
      rw [Option.some.inj (hm.symm.trans hm')]
  · -- the address is in the padding
    rw [List.findSome?_eq_none_iff.mpr]
    · refine answers_of_no_part hnot' fun t' b' hpart hcovers' => ?_
      cases hpart with
      | element hshape' _ => exact absurd (hshape.symm.trans hshape') nofun
      | member hshape' hm =>
        obtain rfl := Shape.struct.inj (hshape.symm.trans hshape')
        exact hmember ⟨_, _, hm, hcovers'⟩
    · rintro ⟨m, i⟩ hm
      rw [List.mem_zipIdx_iff_getElem?] at hm
      exact memberBounds_eq_none hDL hshape hm hfits fun hcovers' => hmember ⟨i, m, hm, hcovers'⟩

/-- **The search answers.** By induction on the number of levels. -/
theorem findProjectionBoundsAtOffset_answers (hDL : DL.Reports L) (hfits : Fits L t b) :
    Answers L source query levels t b
      (findProjectionBoundsAtOffset L.shape DL source query levels t b) := by
  induction levels generalizing t b with
  | zero => exact fun _ hlevel => absurd hlevel (Nat.not_lt_zero _)
  | succ levels ih =>
    obtain ⟨hbits, hend⟩ := id hfits
    simp only [findProjectionBoundsAtOffset, hDL.size t hbits]
    rw [if_neg (by omega)]
    split_ifs with hout hhere
    · refine answers_of_not_covers fun hcovers => ?_
      obtain ⟨hle, hlt⟩ := hcovers
      omega
    · exact answers_of_qualifies ⟨by omega, by omega⟩ (.inl ⟨hhere.1, hhere.2.symm⟩)
    · have hcovers : Covers L query t b := ⟨by omega, by omega⟩
      have hfind : ∀ t' b', Fits L t' b' → Answers L source query levels t' b'
          (findProjectionBoundsAtOffset L.shape DL source query levels t' b') :=
        fun _ _ hfits' => ih hfits'
      cases hshape : L.shape t with
      | scalar =>
        refine answers_of_no_part (not_qualifies_of_shape hhere (by rw [hshape]; nofun)) ?_
        intro t' b' hpart
        cases hpart with
        | element hshape' _ => exact absurd (hshape.symm.trans hshape') nofun
        | member hshape' _ => exact absurd (hshape.symm.trans hshape') nofun
      | array count elemTy => exact arrayBounds_answers hDL hshape hfits hcovers hhere hfind
      | struct members => exact structBounds_answers hDL hshape hfits hcovers hhere hfind

/-- **What is found** is the outermost subobject that is searched for, and if nothing is found, then
there is none on the levels up to `12`. -/
theorem findProjectionBounds_spec (hDL : DL.Reports L) (hbits : 8 * L.size t < 2 ^ 64) :
    (∀ bounds, findProjectionBounds L.shape DL source query t = some bounds →
      bounds.beginOffset ≤ query ∧ query < bounds.endOffset ∧ bounds.endOffset ≤ L.size t ∧
      ∃ level t' b', OnPath L query level t 0 t' b' ∧ Qualifies L source query t' b' ∧
        bounds = ⟨b', b' + L.size t'⟩ ∧
        ∀ outer < level, ∀ t'' b'', OnPath L query outer t 0 t'' b'' →
          ¬ Qualifies L source query t'' b'') ∧
    (findProjectionBounds L.shape DL source query t = none →
      ∀ level ≤ 12, ∀ t' b', OnPath L query level t 0 t' b' →
        ¬ Qualifies L source query t' b') := by
  have hanswers : Answers L source query 13 t 0 (findProjectionBounds L.shape DL source query t) :=
    findProjectionBoundsAtOffset_answers hDL ⟨hbits, by omega⟩
  constructor
  · intro bounds hbounds
    rw [hbounds] at hanswers
    obtain ⟨level, t', b', hpath, hqualifies, rfl, houter⟩ := hanswers
    obtain ⟨hle, hlt⟩ := hpath.covers
    have hinside := hpath.inside_root.2
    rw [Nat.zero_add] at hinside
    exact ⟨hle, hlt, hinside, level, t', b', hpath, hqualifies, rfl, houter⟩
  · intro hnone level hlevel
    rw [hnone] at hanswers
    exact hanswers level (by omega)

/-- The second smaller number of the record. -/
theorem findProjectionBounds_spec_record :
    ∃ level t' b', OnPath recordLayout 12 level .record 0 t' b' ∧
      Qualifies recordLayout .i32 12 t' b' ∧
      (⟨8, 24⟩ : ProjectionBounds) = ⟨b', b' + recordLayout.size t'⟩ ∧
      ∀ outer < level, ∀ t'' b'', OnPath recordLayout 12 outer .record 0 t'' b'' →
        ¬ Qualifies recordLayout .i32 12 t'' b'' :=
  have hspec := findProjectionBounds_spec (DataLayout.reports_ofLayout recordLayout) (by decide)
  (hspec.1 ⟨8, 24⟩ (by decide)).2.2.2

/-- Nothing is found in an array of numbers with `2 ^ 61 + 1` elements, although the first number is
an element of this array. -/
theorem not_findProjectionBounds_complete :
    (DataLayout.ofLayout hugeLayout).Reports hugeLayout ∧
      findProjectionBounds hugeLayout.shape (DataLayout.ofLayout hugeLayout) .i64 0 .huge = none ∧
      OnPath hugeLayout 0 0 .huge 0 .huge 0 ∧ Qualifies hugeLayout .i64 0 .huge 0 := by
  refine ⟨DataLayout.reports_ofLayout hugeLayout, by decide, .here (by decide), .inr ?_⟩
  exact ⟨2 ^ 61 + 1, rfl, 0, by decide, rfl⟩

/-- **What is accepted.** The projection stays in a subobject that is searched for. -/
theorem exists_subobject_of_projection {originOffset resultOffset : ℤ} {allocaSize : ℕ}
    (hDL : DL.Reports L) (hbits : 8 * L.size t < 2 ^ 64)
    (h : isProjectionWithinSourceSubobjectBounds L.shape originOffset resultOffset (some t)
      allocaSize DL (some source) = true) :
    ∃ level t' b', OnPath L originOffset.toNat level t 0 t' b' ∧
      Qualifies L source originOffset.toNat t' b' ∧ Covers L resultOffset.toNat t' b' := by
  have hanswers : Answers L source originOffset.toNat 13 t 0
      (findProjectionBounds L.shape DL source originOffset.toNat t) :=
    findProjectionBoundsAtOffset_answers hDL ⟨hbits, by omega⟩
  simp only [isProjectionWithinSourceSubobjectBounds] at h
  cases hbounds : findProjectionBounds L.shape DL source originOffset.toNat t with
  | none =>
    simp only [hbounds] at h
    split_ifs at h
  | some bounds =>
    rw [hbounds] at hanswers
    obtain ⟨level, t', b', hpath, hqualifies, rfl, -⟩ := hanswers
    simp only [hbounds] at h
    split_ifs at h
    rw [Bool.and_eq_true, decide_eq_true_eq, decide_eq_true_eq] at h
    exact ⟨level, t', b', hpath, hqualifies, h⟩

end Spec

end StackAnalyzer.InvalidBase
