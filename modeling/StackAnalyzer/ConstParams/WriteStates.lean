import StackAnalyzer.Graph.Gathering

set_option relaxedAutoImplicit false
set_option autoImplicit false

/-!
# Whether a parameter is written through

For the advice to make a parameter a pointer to constant data, the analysis follows the parameter
through its uses, and through local slots that it is stored in. A use may write, may be unknown, or
is harmless, like each use that is not listed.

## Main definitions

* `StackAnalyzer.ConstParams.buildParamTypeInfo` — what is read of the type of a parameter.
* `StackAnalyzer.ConstParams.ParamModule` — what is read of a module.
* `StackAnalyzer.ConstParams.ParamModule.callArgWriteState` — whether a callee writes.
* `StackAnalyzer.ConstParams.ParamModule.useState` — what a use tells, and where it leads.
* `StackAnalyzer.ConstParams.ParamModule.valueWriteState` — whether a value is written through.

## Main results

* `StackAnalyzer.ConstParams.ParamModule.valueWriteState_eq_noWrite_iff` — in terms of the uses that
  can be reached.
-/

namespace StackAnalyzer.ConstParams

open Relation

/-! ## Types of parameters -/

section Types

/-- The tags of derived types that are told apart. -/
inductive DITag
  | typedef | constType | volatileType | restrictType
  | pointerType | referenceType | rvalueReferenceType | other
  deriving DecidableEq

/-- `llvm::DIType`, as far as it is read. There may be no type, as behind a `void *`. -/
inductive DIType
  | null
  | basic (name : List Char)
  | derived (tag : DITag) (baseType : DIType)
  | subroutine
  | composite
  deriving DecidableEq

/-- `TypeQualifiers`. -/
structure TypeQualifiers where
  isConst : Bool
  isVolatile : Bool
  isRestrict : Bool

/-- `ParamTypeInfo`. -/
structure ParamTypeInfo where
  originalType : DIType
  pointeeType : DIType
  pointeeDisplayType : DIType
  isPointer : Bool
  isReference : Bool
  isRvalueReference : Bool
  pointerQuals : TypeQualifiers
  pointeeQuals : TypeQualifiers
  isDoublePointer : Bool
  isVoid : Bool
  isFunctionPointer : Bool

/-- `stripTypedefs`. -/
def stripTypedefs : DIType → DIType
  | .derived .typedef baseType => stripTypedefs baseType
  | type => type

/-- `stripQualifiers`. -/
def stripQualifiers : DIType → TypeQualifiers → DIType × TypeQualifiers
  | .derived .constType baseType, quals => stripQualifiers baseType { quals with isConst := true }
  | .derived .volatileType baseType, quals =>
    stripQualifiers baseType { quals with isVolatile := true }
  | .derived .restrictType baseType, quals =>
    stripQualifiers baseType { quals with isRestrict := true }
  | type, quals => (type, quals)

/-- `buildParamTypeInfo`. -/
def buildParamTypeInfo (type : DIType) : Option ParamTypeInfo :=
  let (top, pointerQuals) := stripQualifiers type ⟨false, false, false⟩
  match stripTypedefs top with
  | .derived tag baseType =>
    if tag = .pointerType ∨ tag = .referenceType ∨ tag = .rvalueReferenceType then
      let (base, pointeeQuals) := stripQualifiers baseType ⟨false, false, false⟩
      let baseNoTypedef := stripTypedefs base
      some
        { originalType := type
          pointeeType := baseNoTypedef
          pointeeDisplayType := if base = .null then baseType else base
          isPointer := decide (tag = .pointerType)
          isReference := decide (tag ≠ .pointerType)
          isRvalueReference := decide (tag = .rvalueReferenceType)
          pointerQuals := pointerQuals
          pointeeQuals := pointeeQuals
          isDoublePointer := match baseNoTypedef with
            | .derived baseTag _ => decide (baseTag = .pointerType ∨ baseTag = .referenceType ∨
                baseTag = .rvalueReferenceType)
            | _ => false
          isVoid := decide (baseNoTypedef = .basic "void".toList)
          isFunctionPointer := decide (baseNoTypedef = .subroutine) }
    else none
  | _ => none

end Types

/-! ## What is read -/

/-- `ParamWriteState`. -/
inductive ParamWriteState
  | noWrite | unknown | mayWrite
  deriving DecidableEq

/-- `mergeParamWriteState`. -/
def mergeParamWriteState (lhs rhs : ParamWriteState) : ParamWriteState :=
  if lhs = .mayWrite ∨ rhs = .mayWrite then .mayWrite
  else if lhs = .unknown ∨ rhs = .unknown then .unknown
  else .noWrite

/-- Only harmless uses merge to harmless ones. -/
theorem merge_eq_noWrite_iff (lhs rhs : ParamWriteState) :
    mergeParamWriteState lhs rhs = .noWrite ↔ lhs = .noWrite ∧ rhs = .noWrite := by
  cases lhs <;> cases rhs <;> decide

/-- What is read of a function: whether it is an intrinsic, and one of those that only mark
something; its attributes and those of its parameters; and the types that
`resolveParameterDebugBinding` finds for its parameters. -/
structure ParamFunction where
  isMarkerIntrinsic : Bool
  doesNotAccessMemory : Bool
  onlyReadsMemory : Bool
  argSize : ℕ
  isReadOnly : ℕ → Bool
  isReadNone : ℕ → Bool
  isWriteOnly : ℕ → Bool
  debugType : ℕ → Option DIType

/-- `MemIntrinsic`. -/
inductive MemIntrinsic
  | memSet | memTransfer

/-- What is read of a call: the function that is called, directly or through casts. -/
structure CallSite (V F : Type*) where
  args : List V
  callee : Option F
  memIntrinsic : Option MemIntrinsic

/-- The opcodes of casts that are told apart. -/
inductive CastOpcode
  | bitCast | addrSpaceCast | ptrToInt | other
  deriving DecidableEq

/-- The kinds of values. The result of an instruction that is not listed by the analysis may be
derived from its operands, as that of `freeze`, `insertvalue` or an arithmetic operation; that of
any other value, as a comparison, a `ret` or a constant, is not. -/
inductive ValueKind (V F : Type*)
  | argument (argNo : ℕ)
  | alloca
  | load (pointer : V)
  | store (value pointer : V)
  | atomicRMW (pointer value : V)
  | cmpXchg (pointer compare newValue : V)
  | call (site : CallSite V F)
  | gep (pointer : V) (indices : List V)
  | cast (opcode : CastOpcode) (operand : V)
  | phi (incoming : List V)
  | select (condition trueValue falseValue : V)
  | derives (operands : List V)
  | plain

/-- What is read of a module: the kinds of its values, whether they are pointers, what is left of
them without casts, and their users. -/
structure ParamModule (V F : Type*) where
  kind : V → ValueKind V F
  isPointer : V → Bool
  stripPointerCasts : V → V
  uses : V → List V
  function : F → ParamFunction

namespace ParamModule

variable {V F : Type*} (M : ParamModule V F)

/-! ## Calls -/

section Calls

/-- `calleeParamIsReadOnly`. -/
def calleeParamIsReadOnly (callee : F) (argIndex : ℕ) : Bool :=
  if (M.function callee).argSize ≤ argIndex then false
  else
    match ((M.function callee).debugType argIndex).bind buildParamTypeInfo with
    | none => false
    | some typeInfo =>
      if typeInfo.isDoublePointer || typeInfo.isVoid || typeInfo.isFunctionPointer then false
      else if !typeInfo.isPointer && !typeInfo.isReference then false
      else typeInfo.pointeeQuals.isConst

/-- `callArgWriteState`. That an argument only reads memory means that it has one of the attributes
that are looked at before. -/
def callArgWriteState (site : CallSite V F) (argIndex : ℕ) : ParamWriteState :=
  match site.callee with
  | none => .unknown
  | some callee =>
    let fn := M.function callee
    if site.memIntrinsic.isSome then if argIndex = 0 then .mayWrite else .noWrite
    else if fn.isMarkerIntrinsic then .noWrite
    else if fn.doesNotAccessMemory then .noWrite
    else if fn.onlyReadsMemory then .noWrite
    else if fn.argSize ≤ argIndex then .unknown
    else if fn.isReadOnly argIndex || fn.isReadNone argIndex then .noWrite
    else if fn.isWriteOnly argIndex then .mayWrite
    else if M.calleeParamIsReadOnly callee argIndex then .noWrite
    else .unknown

variable [DecidableEq V]

/-- The loop over the arguments of a call: what they tell, or `none` if one of them may be written
through. -/
def callState (v : V) (site : CallSite V F) : List (V × ℕ) → ParamWriteState →
    Option ParamWriteState
  | [], aggregate => some aggregate
  | (arg, i) :: args, aggregate =>
    if arg = v then
      if M.callArgWriteState site i = .mayWrite then none
      else callState v site args (mergeParamWriteState aggregate (M.callArgWriteState site i))
    else callState v site args aggregate

end Calls

/-! ## Uses -/

section Uses

variable [DecidableEq V]

/-- A user of a slot loads from it. -/
def loadsFrom (slot user : V) : Bool :=
  match M.kind user with
  | .load pointer => decide (M.stripPointerCasts pointer = slot)
  | _ => false

/-- The body of the loop over the uses: what a use tells and the values that it pushes, or `none` if
it may write. -/
def useState (v user : V) : Option (ParamWriteState × List V) :=
  match M.kind user with
  | .store value pointer =>
    if pointer = v then none
    else if value = v then
      let dst := M.stripPointerCasts pointer
      match M.kind dst with
      | .alloca => some (.noWrite, (M.uses dst).filter (M.loadsFrom dst))
      | _ => some (.unknown, [])
    else some (.noWrite, [])
  | .atomicRMW pointer _ => if pointer = v then none else some (.noWrite, [])
  | .cmpXchg pointer _ _ => if pointer = v then none else some (.noWrite, [])
  | .call site => (M.callState v site site.args.zipIdx .noWrite).map fun state => (state, [])
  | .gep _ _ => some (.noWrite, [user])
  | .cast .bitCast _ => some (.noWrite, [user])
  | .cast .addrSpaceCast _ => some (.noWrite, [user])
  | .phi _ => some (.noWrite, if M.isPointer user then [user] else [])
  | .select _ _ _ => some (.noWrite, if M.isPointer user then [user] else [])
  -- the branch for `ptrtoint`, which is unknown, is behind this one and is never taken
  | .cast _ _ => some (.noWrite, if M.isPointer user then [user] else [])
  | _ => some (.noWrite, [])

/-- The search through the uses. -/
def useSearch : Gathering V V ParamWriteState := ⟨M.useState, mergeParamWriteState⟩

/-- `valueWriteState`. -/
def valueWriteState [Fintype V] (root : V) : ParamWriteState :=
  (M.useSearch.gather M.uses root .noWrite).getD .mayWrite

/-- A value is followed to another one: a use of it pushes the other one. -/
def FollowedTo (v w : V) : Prop :=
  ∃ user ∈ M.uses v, ∃ state pushed, M.useState v user = some (state, pushed) ∧ w ∈ pushed

/-- **No use writes or is unknown**, of all values that are followed. -/
theorem valueWriteState_eq_noWrite_iff [Fintype V] (root : V) :
    M.valueWriteState root = .noWrite ↔ ∀ v, ReflTransGen M.FollowedTo root v →
      ∀ user ∈ M.uses v, ∃ pushed, M.useState v user = some (.noWrite, pushed) := by
  have hgather :
      (∃ b, M.useSearch.gather M.uses root .noWrite = some b ∧ b = .noWrite) ↔
        ParamWriteState.noWrite = .noWrite ∧ ∀ v, ReflTransGen (M.useSearch.Leads M.uses) root v →
          M.useSearch.Quiet M.uses (· = .noWrite) v :=
    Gathering.gather_iff merge_eq_noWrite_iff
  have hresult : M.valueWriteState root = .noWrite ↔
      ∃ b, M.useSearch.gather M.uses root .noWrite = some b ∧ b = .noWrite := by
    unfold valueWriteState
    cases M.useSearch.gather M.uses root .noWrite <;> simp
  rw [hresult, hgather]
  constructor
  · rintro ⟨-, hquiet⟩ v hv user huser
    obtain ⟨state, pushed, htells, rfl⟩ := hquiet v hv user huser
    exact ⟨pushed, htells⟩
  · intro hquiet
    refine ⟨rfl, fun v hv user huser => ?_⟩
    obtain ⟨pushed, htells⟩ := hquiet v hv user huser
    exact ⟨.noWrite, pushed, htells, rfl⟩

/-- Each argument of a harmless call is harmless. -/
theorem callArg_of_callState {v : V} {site : CallSite V F} {args : List (V × ℕ)}
    {aggregate : ParamWriteState} (h : M.callState v site args aggregate = some .noWrite) :
    aggregate = .noWrite ∧ ∀ i, (v, i) ∈ args → M.callArgWriteState site i = .noWrite := by
  induction args generalizing aggregate with
  | nil => exact ⟨Option.some.inj h, by simp⟩
  | cons arg args ih =>
    obtain ⟨arg, i⟩ := arg
    rw [callState] at h
    split_ifs at h with harg hmay
    · obtain ⟨haggregate, hrest⟩ := ih h
      obtain ⟨hleft, hright⟩ := (merge_eq_noWrite_iff _ _).mp haggregate
      refine ⟨hleft, fun j hj => ?_⟩
      rcases List.mem_cons.mp hj with heq | hj
      · obtain ⟨-, rfl⟩ := Prod.mk.inj heq
        exact hright
      · exact hrest j hj
    · obtain ⟨haggregate, hrest⟩ := ih h
      refine ⟨haggregate, fun j hj => ?_⟩
      rcases List.mem_cons.mp hj with heq | hj
      · exact absurd (Prod.mk.inj heq).1.symm harg
      · exact hrest j hj

end Uses

end ParamModule

end StackAnalyzer.ConstParams
