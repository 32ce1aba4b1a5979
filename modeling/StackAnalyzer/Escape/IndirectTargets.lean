import StackAnalyzer.Lists.Enumerations
import StackAnalyzer.Maps.EntryMap

set_option relaxedAutoImplicit false
set_option autoImplicit false

/-!
# Targets of indirect calls

The candidates of an indirect call are the functions of its type whose address is taken, or, if the
call looks like a virtual dispatch, those that stand in its slot of some vtable. A vtable global is
flattened first, and its first two pointers are skipped.

## Main definitions

* `StackAnalyzer.Escape.Constant` — initializers, with the arrays of a vtable group.
* `StackAnalyzer.Escape.extractVirtualDispatchSlotIndex` — the slot of a virtual dispatch.
* `StackAnalyzer.Escape.TargetModule.candidatesForCall` — the candidates of a call.
* `StackAnalyzer.Escape.TargetModule.StandsAt` — a function stands in a slot of a vtable array.
* `StackAnalyzer.Escape.TargetModule.StandsFlattened` — it stands there after flattening.

## Main results

* `StackAnalyzer.Escape.mem_candidatesForCall_iff` — which functions are candidates.
* `StackAnalyzer.Escape.candidatesForCall_complete_iff` — when all targets of a virtual call are candidates.
-/

namespace StackAnalyzer.Escape

open Maps Enumerations

variable {F T : Type*}

/-! ## Constants -/

/-- An initializer. A cast stands for everything that `stripPointerCasts` looks through. -/
inductive Constant (F : Type*)
  | array (elements : List (Constant F))
  | struct (elements : List (Constant F))
  | function (f : F)
  | global (name : List Char)
  | null
  | intToPtr (n : ℤ)
  | cast (c : Constant F)
  | other

namespace Constant

/-- A constant of pointer type. -/
def isPointer : Constant F → Bool
  | .function _ | .global _ | .null | .intToPtr _ | .cast _ => true
  | .array _ | .struct _ | .other => false

mutual

/-- `collectVTableEntries`: the pointers of a constant, from left to right. -/
def collectVTableEntries : Constant F → List (Constant F)
  | .array elements => collectElements elements
  | .struct elements => collectElements elements
  | .function f => [.function f]
  | .global name => [.global name]
  | .null => [.null]
  | .intToPtr n => [.intToPtr n]
  | .cast c => [.cast c]
  | .other => []

/-- The loop over operands. -/
def collectElements : List (Constant F) → List (Constant F)
  | [] => []
  | c :: cs => collectVTableEntries c ++ collectElements cs

end

/-- `stripPointerCasts`. -/
def stripPointerCasts : Constant F → Constant F
  | .cast c => c.stripPointerCasts
  | c => c

/-- `functionFromVTableEntry`. -/
def functionFromVTableEntry (entry : Constant F) : Option F :=
  match entry.stripPointerCasts with
  | .function f => some f
  | _ => none

/-- An array of a constant, at any depth. -/
inductive HasArray : Constant F → List (Constant F) → Prop
  | here (elements : List (Constant F)) : HasArray (.array elements) elements
  | inArray {c : Constant F} {cs elements : List (Constant F)} (hc : c ∈ cs)
      (h : HasArray c elements) : HasArray (.array cs) elements
  | inStruct {c : Constant F} {cs elements : List (Constant F)} (hc : c ∈ cs)
      (h : HasArray c elements) : HasArray (.struct cs) elements

/-- The pointers of an operand are among those of the operands. -/
theorem mem_collectElements {c e : Constant F} {cs : List (Constant F)} (hc : c ∈ cs)
    (he : e ∈ c.collectVTableEntries) : e ∈ collectElements cs := by
  induction cs with
  | nil => exact absurd hc List.not_mem_nil
  | cons d cs ih =>
    rw [collectElements, List.mem_append]
    rcases List.mem_cons.mp hc with rfl | hc
    · exact Or.inl he
    · exact Or.inr (ih hc)

/-- A pointer is its own entry. -/
theorem collectVTableEntries_of_isPointer {c : Constant F} (hc : c.isPointer = true) :
    c.collectVTableEntries = [c] := by
  cases c <;> simp_all [isPointer, collectVTableEntries]

/-- The pointers of an array of a constant are among its entries. -/
theorem HasArray.mem_entries {c e : Constant F} {elements : List (Constant F)}
    (h : c.HasArray elements) (he : e ∈ elements) (hpointer : e.isPointer = true) :
    e ∈ c.collectVTableEntries := by
  have hentry : e ∈ e.collectVTableEntries := by
    rw [collectVTableEntries_of_isPointer hpointer]
    exact List.mem_singleton_self e
  induction h with
  | here elements =>
    rw [collectVTableEntries]
    exact mem_collectElements he hentry
  | inArray hc _ ih =>
    rw [collectVTableEntries]
    exact mem_collectElements hc (ih he)
  | inStruct hc _ ih =>
    rw [collectVTableEntries]
    exact mem_collectElements hc (ih he)

/-- An entry that is a function is a pointer. -/
theorem isPointer_of_function {c : Constant F} {f : F}
    (h : c.functionFromVTableEntry = some f) : c.isPointer = true := by
  cases c <;> first | rfl | simp [functionFromVTableEntry, stripPointerCasts] at h

end Constant

/-! ## Calls -/

/-- The value that is called, as far as a dispatch looks into it. The indices of a `gep` are known
where they are constant; a cast stands for the other values that `stripPointerCasts` looks
through. -/
inductive CalledValue
  | load (pointer : CalledValue)
  | gep (pointer : CalledValue) (indices : List (Option ℤ))
  | cast (v : CalledValue)
  | other

/-- `stripPointerCasts`, which also looks through a `gep` with zero indices only. -/
def CalledValue.stripPointerCasts : CalledValue → CalledValue
  | .cast v => v.stripPointerCasts
  | .gep pointer indices =>
    if indices.all fun idx => decide (idx = some 0) then pointer.stripPointerCasts
    else .gep pointer indices
  | v => v

/-- `isLikelyVPtrLoadFromObjectRoot`, of the pointer of the load. -/
def isLikelyVPtrLoadFromObjectRoot (pointer : CalledValue) : Bool :=
  match pointer.stripPointerCasts with
  | .gep _ indices => indices.all fun idx => decide (idx = some 0)
  | _ => true

/-- `extractVirtualDispatchSlotIndex`: the function is loaded from a constant place in a table that
is loaded from the root of an object. -/
def extractVirtualDispatchSlotIndex (calledOperand : CalledValue) : Option UInt32 :=
  match calledOperand.stripPointerCasts with
  | .load slot =>
    match slot.stripPointerCasts with
    | .gep table indices =>
      match table.stripPointerCasts with
      | .load tablePointer =>
        if !isLikelyVPtrLoadFromObjectRoot tablePointer then none
        else
          match indices.getLast? with
          | some (some index) => if index < 0 then none else some (UInt32.ofNat index.toNat)
          | _ => none
      | _ => none
    | _ => none
  | _ => none

/-- A call: the type that it is made at, and the value that is called. -/
structure IndirectCall (T : Type*) where
  functionType : T
  calledOperand : CalledValue

/-! ## Modules -/

/-- What the resolver reads of a function. -/
structure TargetFunction (T : Type*) where
  functionType : T
  isDeclaration : Bool
  hasAddressTaken : Bool

/-- What the resolver reads of a global variable. -/
structure VTableGlobal (F : Type*) where
  name : List Char
  initializer : Option (Constant F)

/-- A name without the mark that keeps it from being mangled, which is the character 1. -/
def unmarked (name : List Char) : List Char :=
  if name.head? = some (Char.ofNat 1) then name.drop 1 else name

/-- The entries of a vtable global, none for other globals. -/
def VTableGlobal.entries (global : VTableGlobal F) : List (Constant F) :=
  match global.initializer with
  | some initializer =>
    if ['_', 'Z', 'T', 'V'].isPrefixOf (unmarked global.name) then
      initializer.collectVTableEntries
    else []
  | none => []

/-- A module, with its functions and globals. A function that stands in an initializer has its
address taken. -/
structure TargetModule (F T : Type*) where
  functions : List F
  function : F → TargetFunction T
  globals : List (VTableGlobal F)
  addressTaken : ∀ global ∈ globals, ∀ entry ∈ global.entries, ∀ f,
    entry.functionFromVTableEntry = some f → (function f).hasAddressTaken = true

/-- A function of the module that is defined there. -/
def TargetModule.Defines (mod : TargetModule F T) (f : F) : Prop :=
  f ∈ mod.functions ∧ (mod.function f).isDeclaration = false

section Resolver

variable [DecidableEq F] [DecidableEq T]

/-- `candidatesByFunctionType`: one function more. -/
def addCandidate (mod : TargetModule F T) (out : EntryMap T (List F)) (f : F) :
    EntryMap T (List F) :=
  if (mod.function f).isDeclaration || !(mod.function f).hasAddressTaken then out
  else
    let functionType := (mod.function f).functionType
    out.assign functionType ((out.find functionType).getD [] ++ [f])

/-- `appendUniqueFunction`. -/
def appendUniqueFunction (out : List F) (f : F) : List F := if f ∈ out then out else out ++ [f]

/-- `virtualCandidatesByFunctionTypeAndSlot`: one entry more, with its place after the first two. -/
def addVirtualCandidate (mod : TargetModule F T) (out : EntryMap (T × UInt32) (List F))
    (place : Constant F × ℕ) : EntryMap (T × UInt32) (List F) :=
  match place.1.functionFromVTableEntry with
  | some target =>
    if (mod.function target).isDeclaration then out
    else
      let key := ((mod.function target).functionType, UInt32.ofNat place.2)
      out.assign key (appendUniqueFunction ((out.find key).getD []) target)
  | none => out

namespace TargetModule

/-- The functions of each type whose address is taken. -/
def candidatesByFunctionType (mod : TargetModule F T) : EntryMap T (List F) :=
  mod.functions.foldl (addCandidate mod) EntryMap.empty

/-- The entries of all vtables with their places after the first two. -/
def slots (mod : TargetModule F T) : List (Constant F × ℕ) :=
  mod.globals.flatMap fun global => (global.entries.drop 2).zipIdx

/-- The functions of each type in each slot. -/
def virtualCandidates (mod : TargetModule F T) : EntryMap (T × UInt32) (List F) :=
  mod.slots.foldl (addVirtualCandidate mod) EntryMap.empty

/-- `candidatesForCall`. -/
def candidatesForCall (mod : TargetModule F T) (call : IndirectCall T) : List F :=
  let byType := (mod.candidatesByFunctionType.find call.functionType).getD []
  match extractVirtualDispatchSlotIndex call.calledOperand with
  | some slotIndex =>
    let perSlot := (mod.virtualCandidates.find (call.functionType, slotIndex)).getD []
    if perSlot.isEmpty then byType else perSlot
  | none => byType

end TargetModule

end Resolver

/-! ## Slots of vtables -/

/-- An offset to the top of an object. -/
def Constant.IsOffsetToTop : Constant F → Prop
  | .null | .intToPtr _ => True
  | _ => False

/-- A pointer to type information. -/
def Constant.IsTypeInfo (c : Constant F) : Prop :=
  ∃ name, c.stripPointerCasts = .global name ∧
    ['_', 'Z', 'T', 'I'].isPrefixOf (unmarked name) = true

/-- **An address point** of a vtable array: it follows an offset to the top and a type
information. -/
def AddressPoint (elements : List (Constant F)) (i : ℕ) : Prop :=
  ∃ offset info, elements[i]? = some offset ∧ offset.IsOffsetToTop ∧
    elements[i + 1]? = some info ∧ info.IsTypeInfo

namespace TargetModule

/-- **A function stands in a slot** after an address point of a vtable array, of a primary or a
secondary vtable. -/
def StandsAt (mod : TargetModule F T) (f : F) (slotIndex : UInt32) : Prop :=
  ∃ global ∈ mod.globals, ∃ initializer, global.initializer = some initializer ∧
    ['_', 'Z', 'T', 'V'].isPrefixOf (unmarked global.name) = true ∧
    ∃ elements i entry, initializer.HasArray elements ∧ AddressPoint elements i ∧
      elements[i + 2 + slotIndex.toNat]? = some entry ∧ entry.functionFromVTableEntry = some f

/-- A function stands in a slot after the first two pointers of a flattened vtable global. -/
def StandsFlattened (mod : TargetModule F T) (f : F) (slotIndex : UInt32) : Prop :=
  ∃ global ∈ mod.globals, ∃ i entry, global.entries[i + 2]? = some entry ∧
    entry.functionFromVTableEntry = some f ∧ UInt32.ofNat i = slotIndex

/-- **All targets of a virtual call are candidates.** -/
def Complete [DecidableEq F] [DecidableEq T] (mod : TargetModule F T) (call : IndirectCall T) :
    Prop :=
  ∀ slotIndex, extractVirtualDispatchSlotIndex call.calledOperand = some slotIndex →
    ∀ f, mod.Defines f → (mod.function f).functionType = call.functionType →
      mod.StandsAt f slotIndex → f ∈ mod.candidatesForCall call

end TargetModule

/-! ## Candidates -/

section Candidates

variable [DecidableEq F] [DecidableEq T] (mod : TargetModule F T)

omit [DecidableEq F] in
/-- The functions of a type whose address is taken. -/
theorem mem_candidatesByFunctionType (functionType : T) (f : F) :
    f ∈ (mod.candidatesByFunctionType.find functionType).getD [] ↔
      mod.Defines f ∧ (mod.function f).hasAddressTaken = true ∧
        (mod.function f).functionType = functionType := by
  have hrun := foldl_iff
    (Q := fun out : EntryMap T (List F) => f ∈ (out.find functionType).getD [])
    (P := fun g => g = f ∧ (mod.function f).isDeclaration = false ∧
      (mod.function f).hasAddressTaken = true ∧ (mod.function f).functionType = functionType)
    (f := addCandidate mod)
    (fun out g => by
      unfold addCandidate
      split_ifs with hskip
      · refine ⟨Or.inl, fun h => h.elim id ?_⟩
        rintro ⟨rfl, hdeclaration, haddress, -⟩
        simp [hdeclaration, haddress] at hskip
      · dsimp only
        rw [EntryMap.find_assign]
        simp only [Bool.or_eq_true, Bool.not_eq_true', not_or, Bool.not_eq_true,
          Bool.not_eq_false] at hskip
        by_cases htype : (mod.function g).functionType = functionType
        · subst htype
          rw [if_pos rfl, Option.getD_some, List.mem_append, List.mem_singleton]
          refine or_congr_right ⟨?_, fun h => h.1.symm⟩
          rintro rfl
          exact ⟨rfl, hskip.1, hskip.2, rfl⟩
        · rw [if_neg htype]
          refine (or_iff_left ?_).symm
          rintro ⟨rfl, -, -, htype'⟩
          exact htype htype') mod.functions EntryMap.empty
  unfold TargetModule.candidatesByFunctionType TargetModule.Defines
  rw [hrun]
  simp [and_assoc]

omit [DecidableEq F] [DecidableEq T] in
/-- The places after the first two entries. -/
theorem exists_mem_slots_iff (f : F) (slotIndex : UInt32) :
    (∃ place ∈ mod.slots, place.1.functionFromVTableEntry = some f ∧
      UInt32.ofNat place.2 = slotIndex) ↔ mod.StandsFlattened f slotIndex := by
  unfold TargetModule.slots TargetModule.StandsFlattened
  constructor
  · rintro ⟨⟨entry, i⟩, hplace, hf, hi⟩
    obtain ⟨global, hglobal, hplace⟩ := List.mem_flatMap.mp hplace
    rw [List.mem_zipIdx_iff_getElem?, List.getElem?_drop, Nat.add_comm] at hplace
    exact ⟨global, hglobal, i, entry, hplace, hf, hi⟩
  · rintro ⟨global, hglobal, i, entry, hentry, hf, hi⟩
    refine ⟨(entry, i), List.mem_flatMap.mpr ⟨global, hglobal, ?_⟩, hf, hi⟩
    rw [List.mem_zipIdx_iff_getElem?, List.getElem?_drop, Nat.add_comm]
    exact hentry

omit [DecidableEq T] in
theorem mem_appendUniqueFunction {out : List F} {f g : F} :
    f ∈ appendUniqueFunction out g ↔ f ∈ out ∨ g = f := by
  unfold appendUniqueFunction
  split_ifs with hg
  · refine ⟨Or.inl, fun h => h.elim id ?_⟩
    rintro rfl
    exact hg
  · rw [List.mem_append, List.mem_singleton, eq_comm (a := f)]

/-- The functions of a type in a slot. -/
theorem mem_virtualCandidates (functionType : T) (slotIndex : UInt32) (f : F) :
    f ∈ (mod.virtualCandidates.find (functionType, slotIndex)).getD [] ↔
      (mod.function f).isDeclaration = false ∧ (mod.function f).functionType = functionType ∧
        mod.StandsFlattened f slotIndex := by
  have hrun := foldl_iff
    (Q := fun out : EntryMap (T × UInt32) (List F) =>
      f ∈ (out.find (functionType, slotIndex)).getD [])
    (P := fun place => (mod.function f).isDeclaration = false ∧
      (mod.function f).functionType = functionType ∧
        place.1.functionFromVTableEntry = some f ∧ UInt32.ofNat place.2 = slotIndex)
    (f := addVirtualCandidate mod)
    (fun out place => by
      unfold addVirtualCandidate
      cases htarget : place.1.functionFromVTableEntry with
      | none => simp
      | some g =>
        dsimp only
        split_ifs with hdeclaration
        · refine ⟨Or.inl, fun h => h.elim id ?_⟩
          rintro ⟨hdefined, -, hgf, -⟩
          obtain rfl := Option.some.inj hgf
          simp [hdeclaration] at hdefined
        · rw [EntryMap.find_assign]
          by_cases hkey : ((mod.function g).functionType, UInt32.ofNat place.2) =
              (functionType, slotIndex)
          · rw [if_pos hkey, Option.getD_some, mem_appendUniqueFunction, hkey]
            obtain ⟨rfl, rfl⟩ := Prod.mk.inj hkey
            refine or_congr_right ⟨?_, fun h => Option.some.inj h.2.2.1⟩
            rintro rfl
            exact ⟨eq_false_of_ne_true hdeclaration, rfl, rfl, rfl⟩
          · rw [if_neg hkey]
            refine (or_iff_left ?_).symm
            rintro ⟨-, htype, hgf, hslot⟩
            obtain rfl := Option.some.inj hgf
            exact hkey (Prod.ext htype hslot)) mod.slots EntryMap.empty
  unfold TargetModule.virtualCandidates
  rw [hrun, ← exists_mem_slots_iff]
  simp only [EntryMap.find_empty, Option.getD_none, List.not_mem_nil, false_or]
  constructor
  · rintro ⟨place, hplace, hdeclaration, htype, hf⟩
    exact ⟨hdeclaration, htype, place, hplace, hf⟩
  · rintro ⟨hdeclaration, htype, place, hplace, hf⟩
    exact ⟨place, hplace, hdeclaration, htype, hf⟩

/-- **Which functions are candidates** of a virtual dispatch: those in its slot after flattening,
or, if there is none, all of the type whose address is taken. -/
theorem mem_candidatesForCall_iff {call : IndirectCall T} {slotIndex : UInt32}
    (hslot : extractVirtualDispatchSlotIndex call.calledOperand = some slotIndex) (f : F) :
    f ∈ mod.candidatesForCall call ↔ (mod.function f).functionType = call.functionType ∧
      ((mod.function f).isDeclaration = false ∧ mod.StandsFlattened f slotIndex ∨
        (∀ g, (mod.function g).isDeclaration = false →
          (mod.function g).functionType = call.functionType → ¬ mod.StandsFlattened g slotIndex) ∧
          mod.Defines f ∧ (mod.function f).hasAddressTaken = true) := by
  unfold TargetModule.candidatesForCall
  rw [hslot]
  dsimp only
  have hmem := mem_virtualCandidates mod call.functionType slotIndex
  split_ifs with hempty
  · have hnone : ∀ g, (mod.function g).isDeclaration = false →
        (mod.function g).functionType = call.functionType → ¬ mod.StandsFlattened g slotIndex := by
      intro g hdeclaration htype hstands
      have hg := (hmem g).mpr ⟨hdeclaration, htype, hstands⟩
      rw [List.isEmpty_iff.mp hempty] at hg
      exact absurd hg List.not_mem_nil
    rw [mem_candidatesByFunctionType]
    constructor
    · rintro ⟨hdefines, haddress, htype⟩
      exact ⟨htype, Or.inr ⟨hnone, hdefines, haddress⟩⟩
    · rintro ⟨htype, ⟨hdeclaration, hstands⟩ | ⟨-, hdefines, haddress⟩⟩
      · exact absurd hstands (hnone f hdeclaration htype)
      · exact ⟨hdefines, haddress, htype⟩
  · obtain ⟨g, hg⟩ := List.exists_mem_of_ne_nil _ fun h => hempty (List.isEmpty_iff.mpr h)
    obtain ⟨hdeclaration, htype, hstands⟩ := (hmem g).mp hg
    rw [hmem]
    constructor
    · rintro ⟨hdeclaration, htype, hstands⟩
      exact ⟨htype, Or.inl ⟨hdeclaration, hstands⟩⟩
    · rintro ⟨htype', ⟨hdeclaration', hstands'⟩ | ⟨hnone, -⟩⟩
      · exact ⟨hdeclaration', htype', hstands'⟩
      · exact absurd hstands (hnone g hdeclaration htype)

/-! ## Complete sets of candidates -/

omit [DecidableEq F] [DecidableEq T] in
/-- A function in a slot of a vtable has its address taken. -/
theorem TargetModule.StandsAt.hasAddressTaken {f : F} {slotIndex : UInt32}
    (h : mod.StandsAt f slotIndex) : (mod.function f).hasAddressTaken = true := by
  obtain ⟨global, hglobal, initializer, hinitializer, hname, elements, i, entry, harray, -, hentry,
    hf⟩ := h
  refine mod.addressTaken global hglobal entry ?_ f hf
  unfold VTableGlobal.entries
  rw [hinitializer]
  dsimp only
  rw [if_pos hname]
  exact harray.mem_entries (List.mem_of_getElem? hentry) (Constant.isPointer_of_function hf)

/-- **When all targets of a virtual call are candidates**: exactly if every target also stands in
the slot after flattening, or no defined function of the type does.

**Proof sketch.** In the second case the candidates are all functions of the type whose address is
taken, and a function in a vtable is one of them. Otherwise only the functions that stand in the slot
after flattening are candidates. -/
theorem candidatesForCall_complete_iff (call : IndirectCall T) :
    mod.Complete call ↔
      ∀ slotIndex, extractVirtualDispatchSlotIndex call.calledOperand = some slotIndex →
        (∀ f, mod.Defines f → (mod.function f).functionType = call.functionType →
          mod.StandsAt f slotIndex → mod.StandsFlattened f slotIndex) ∨
        ∀ f, (mod.function f).isDeclaration = false →
          (mod.function f).functionType = call.functionType →
            ¬ mod.StandsFlattened f slotIndex := by
  unfold TargetModule.Complete
  refine forall_congr' fun slotIndex => imp_congr_right fun hslot => ?_
  constructor
  · intro h
    refine or_iff_not_imp_right.mpr fun hsome f hdefines htype hstands => ?_
    obtain ⟨-, ⟨-, hflattened⟩ | ⟨hnone, -⟩⟩ :=
      (mem_candidatesForCall_iff mod hslot f).mp (h f hdefines htype hstands)
    · exact hflattened
    · exact absurd hnone hsome
  · intro h f hdefines htype hstands
    rw [mem_candidatesForCall_iff mod hslot]
    refine ⟨htype, ?_⟩
    rcases h with hall | hnone
    · exact Or.inl ⟨hdefines.2, hall f hdefines htype hstands⟩
    · exact Or.inr ⟨hnone, hdefines, hstands.hasAddressTaken⟩

end Candidates

/-! ## A class with two bases -/

/-- The methods of a class with two bases, and the thunks that call them through the second one. -/
inductive TwoBasesFunction
  | first | second | thunkFirst | thunkSecond
  deriving DecidableEq

/-- The vtable group of the class: a primary and a secondary vtable. -/
def twoBasesVTable : VTableGlobal TwoBasesFunction where
  name := ['_', 'Z', 'T', 'V', '1', 'C']
  initializer := some (.struct
    [.array [.null, .global ['_', 'Z', 'T', 'I', '1', 'C'], .function .first, .function .second],
      .array [.intToPtr (-8), .global ['_', 'Z', 'T', 'I', '1', 'C'], .function .thunkFirst,
        .function .thunkSecond]])

/-- The module with the class. All of its functions have the same type. -/
def twoBasesModule : TargetModule TwoBasesFunction Unit where
  functions := [.first, .second, .thunkFirst, .thunkSecond]
  function _ := ⟨(), false, true⟩
  globals := [twoBasesVTable]
  addressTaken _ _ _ _ _ _ := rfl

/-- A call through the second slot of the vtable of an object. -/
def secondSlotCall : IndirectCall Unit := ⟨(), .load (.gep (.load .other) [some 1])⟩

/-- The thunk in the second slot of the secondary vtable is no candidate. -/
theorem not_complete_twoBases : ¬ twoBasesModule.Complete secondSlotCall := by
  intro h
  have hslot : extractVirtualDispatchSlotIndex secondSlotCall.calledOperand = some 1 := rfl
  have hstands : twoBasesModule.StandsAt .thunkSecond 1 := by
    refine ⟨twoBasesVTable, List.mem_singleton_self _, _, rfl, rfl, _, 0, _,
      .inStruct (List.mem_cons_of_mem _ (List.mem_singleton_self _)) (.here _), ?_, rfl, rfl⟩
    exact ⟨_, _, rfl, trivial, rfl, _, rfl, rfl⟩
  have hmem := h 1 hslot .thunkSecond ⟨by decide, rfl⟩ rfl hstands
  exact absurd hmem (by decide)

end StackAnalyzer.Escape
