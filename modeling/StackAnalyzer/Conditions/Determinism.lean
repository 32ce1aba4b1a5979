import StackAnalyzer.Graph.EarlyDfs
import StackAnalyzer.CrossTU.ResourceIndex

set_option relaxedAutoImplicit false
set_option autoImplicit false

/-!
# Deterministic functions

Conditions that call a function are compared only if the function is deterministic: it writes to its
own local variables only, reads nothing that others may write, and calls functions that are
deterministic. The answers are remembered for all later questions.

## Main definitions

* `StackAnalyzer.Conditions.Module` — the part of a module that is read.
* `StackAnalyzer.Conditions.check` — what an instruction means for its function.
* `StackAnalyzer.Conditions.isFunctionDeterministic` — the search, with its cache.
* `StackAnalyzer.Conditions.Deterministic` — what it looks for.

## Main results

* `StackAnalyzer.Conditions.good_iff_deterministic` — what the search decides of a definition.
* `StackAnalyzer.Conditions.answersTo_right` — **all answers are right**, in any order.
* `StackAnalyzer.Conditions.not_answersDeterministic_getpid` — an unknown declaration.
-/

namespace StackAnalyzer.Conditions

open CrossTU Graph Graph.EarlyDfs

/-! ## The module -/

/-- The intrinsics that the pass knows. -/
inductive IntrinsicID
  | dbgDeclare | dbgValue | dbgLabel
  | lifetimeStart | lifetimeEnd
  | assume
  | other
  deriving DecidableEq

/-- A `CallBase`: `isInlineAsm`, `getCalledFunction` and `mayWriteToMemory`. -/
structure CallBase (F : Type*) where
  isInlineAsm : Bool
  calledFunction : Option F
  mayWriteToMemory : Bool

/-- Values. The intrinsics that transfer and set memory, and those for debuggers, have their own
classes. -/
inductive Value (V F : Type*)
  | globalVariable (isConstant : Bool)
  | constant
  | argument (parent : F)
  | alloca (function : F)
  | dbgInfo
  | load (isVolatile : Bool) (pointer : V)
  | store (isVolatile : Bool) (value pointer : V)
  | atomicRMW (pointer : V)
  | atomicCmpXchg (pointer : V)
  | memTransfer (rawDest rawSource : V)
  | memSet (rawDest : V)
  | call (call : CallBase F)
  | instruction (mayWriteToMemory : Bool)
  | other

/-- A module. `users` has a member for each use. `stripPointerCasts` and `underlyingObject` are the
functions of LLVM. -/
structure Module (F V B : Type*) where
  functionName : F → CppString
  isDeclaration : F → Bool
  intrinsicID : F → Option IntrinsicID
  doesNotReturn : F → Bool
  blocks : F → List B
  instructions : B → List V
  value : V → Value V F
  isPointerTy : V → Bool
  users : V → List V
  stripPointerCasts : V → V
  underlyingObject : V → V

variable {F V B : Type*} [DecidableEq F] [DecidableEq V] (mod : Module F V B)

/-! ## Objects -/

section Objects

/-- Whether a call is one of an intrinsic for the lifetime of a variable. -/
def isLifetime (call : CallBase F) : Bool :=
  match call.calledFunction.bind mod.intrinsicID with
  | some .lifetimeStart | some .lifetimeEnd => true
  | _ => false

/-- The loop over the uses of a slot: the pointer that is stored to it, if it is used for nothing
else than loads and stores of this one. -/
def uniqueStoredPtr (slot : V) : List V → Option V → Option V
  | [], unique => unique
  | inst :: rest, unique =>
    match mod.value inst with
    | .globalVariable _ | .constant | .argument _ | .other | .load _ _ | .dbgInfo =>
      uniqueStoredPtr slot rest unique
    | .call call => if isLifetime mod call then uniqueStoredPtr slot rest unique else none
    | .store _ value pointer =>
      let stored := mod.stripPointerCasts value
      if mod.stripPointerCasts pointer ≠ slot then none
      else if !mod.isPointerTy stored then none
      else
        match unique with
        | none => uniqueStoredPtr slot rest (some stored)
        | some u => if u = stored then uniqueStoredPtr slot rest unique else none
    | _ => none

/-- `resolvePointerSource`, with the number of levels that are left. -/
def resolvePointerSource : ℕ → V → V
  | 0, ptr => ptr
  | levels + 1, ptr =>
    let ptr := mod.stripPointerCasts ptr
    match mod.value ptr with
    | .load _ pointer =>
      let slot := mod.stripPointerCasts pointer
      match mod.value slot, uniqueStoredPtr mod slot (mod.users slot) none with
      | .alloca _, some stored => resolvePointerSource levels stored
      | _, _ => ptr
    | _ => ptr

/-- `getUnderlyingTrackedObject`. -/
def getUnderlyingTrackedObject (ptr : V) : V :=
  let base := mod.underlyingObject (mod.stripPointerCasts (resolvePointerSource mod 7 ptr))
  mod.underlyingObject (mod.stripPointerCasts (resolvePointerSource mod 7 base))

/-- `isLocalWritableObject`. -/
def isLocalWritableObject (ptr : V) (f : F) : Bool :=
  match mod.value (getUnderlyingTrackedObject mod ptr) with
  | .alloca function => decide (function = f)
  | _ => false

/-- `isAllowedReadObject`. -/
def isAllowedReadObject (ptr : V) (f : F) : Bool :=
  match mod.value (getUnderlyingTrackedObject mod ptr) with
  | .alloca function => decide (function = f)
  | .argument parent => decide (parent = f)
  | .globalVariable isConstant => isConstant
  | .constant => true
  | _ => false

end Objects

/-! ## The search -/

section Search

/-- The names of `isKnownDeterministicDeclaration`. -/
def knownDeterministicNames : List CppString :=
  ["strcmp".toList, "strncmp".toList, "memcmp".toList, "strlen".toList, "strnlen".toList,
    "memchr".toList, "wcslen".toList, "wcscmp".toList, "wcsncmp".toList]

/-- `isKnownDeterministicDeclaration`. -/
def isKnownDeterministicDeclaration (f : F) : Bool :=
  decide (mod.functionName f ∈ knownDeterministicNames)

/-- The definition that a call calls directly. -/
def calledDefinition (call : CallBase F) : Option F :=
  if call.isInlineAsm then none
  else
    match call.calledFunction with
    | none => none
    | some callee =>
      if (mod.intrinsicID callee).isSome || mod.isDeclaration callee then none else some callee

/-- Whether a call of something else than a definition is harmless. -/
def isHarmlessCall (call : CallBase F) : Bool :=
  if call.isInlineAsm then false
  else
    match call.calledFunction with
    | none => false
    | some callee =>
      match mod.intrinsicID callee with
      | some .other => !call.mayWriteToMemory
      | some _ => true
      | none => mod.doesNotReturn callee || isKnownDeterministicDeclaration mod callee

/-- What an item passes. -/
def passIf (passes : Bool) : Check F := if passes then .pass else .fail

/-- **What an instruction means** for the function that it belongs to. -/
def check (f : F) (inst : V) : Check F :=
  match mod.value inst with
  | .dbgInfo => .pass
  | .load isVolatile pointer => passIf (!isVolatile && isAllowedReadObject mod pointer f)
  | .store isVolatile _ pointer => passIf (!isVolatile && isLocalWritableObject mod pointer f)
  | .atomicRMW pointer | .atomicCmpXchg pointer =>
    passIf (isLocalWritableObject mod pointer f)
  | .memTransfer rawDest rawSource =>
    passIf (isLocalWritableObject mod rawDest f && isAllowedReadObject mod rawSource f)
  | .memSet rawDest => passIf (isLocalWritableObject mod rawDest f)
  | .call call =>
    match calledDefinition mod call with
    | some callee => .ask callee
    | none => passIf (isHarmlessCall mod call)
  | .instruction mayWriteToMemory => passIf (!mayWriteToMemory)
  | .globalVariable _ | .constant | .argument _ | .alloca _ | .other => .pass

/-- The instructions of a function, in order. -/
def functionInstructions (f : F) : List V := (mod.blocks f).flatMap mod.instructions

/-- The items of a function: a declaration is known or not. -/
def checks (f : F) : List (Check F) :=
  if mod.isDeclaration f then [passIf (isKnownDeterministicDeclaration mod f)]
  else (functionInstructions mod f).map (check mod f)

/-- `isFunctionDeterministic`: a search visits each function at most once at a time. -/
def isFunctionDeterministic [Fintype F] (f : F) (cache : Cache F) : Bool × Cache F :=
  visit (checks mod) (Fintype.card F + 1) f cache

/-- The answers to some questions, one after the other, since the cache has been cleared. -/
def answersTo [Fintype F] (queries : List F) : List Bool :=
  answers (checks mod) (Fintype.card F + 1) queries Cache.cleared

end Search

/-! ## What the search looks for -/

section Meaning

/-- A definition calls another one directly. -/
def Calls (f g : F) : Prop :=
  mod.isDeclaration f = false ∧ ∃ inst ∈ functionInstructions mod f, ∃ call,
    mod.value inst = .call call ∧ calledDefinition mod call = some g

/-- A function can call another one, by any number of direct calls. -/
def CanCall : F → F → Prop := Relation.ReflTransGen (Calls mod)

/-- An instruction that makes its function not deterministic. -/
def Disqualifies (f : F) (inst : V) : Prop := check mod f inst = .fail

/-- **Deterministic definitions**: no function that can be called has an instruction that
disqualifies it, and none can call itself. -/
def Deterministic (f : F) : Prop :=
  (∀ g, CanCall mod f g → ∀ inst ∈ functionInstructions mod g, ¬ Disqualifies mod g inst) ∧
    ∀ g, CanCall mod f g → ¬ Relation.TransGen (Calls mod) g g

/-- **An answer is right**: it says whether a definition is deterministic, and whether a declaration
is known. -/
def AnswerRight (f : F) (answer : Bool) : Prop :=
  if mod.isDeclaration f then answer = isKnownDeterministicDeclaration mod f
  else (answer = true ↔ Deterministic mod f)

variable {mod}

omit [DecidableEq F] in
theorem passIf_ne_ask {passes : Bool} {g : F} : (passIf passes : Check F) ≠ .ask g := by
  cases passes <;> simp [passIf]

/-- An instruction asks for the definition that it calls. -/
theorem check_eq_ask_iff {f g : F} {inst : V} : check mod f inst = .ask g ↔
    ∃ call, mod.value inst = .call call ∧ calledDefinition mod call = some g := by
  unfold check
  cases hvalue : mod.value inst with
  | call call =>
    simp only [Value.call.injEq, exists_eq_left']
    cases calledDefinition mod call <;> simp [passIf_ne_ask]
  | _ => simp [passIf_ne_ask]

/-- The edges of the search are the direct calls. -/
theorem edge_iff_calls {f g : F} : Edge (asked (checks mod)) f g ↔ Calls mod f g := by
  unfold Edge Calls
  rw [mem_asked_iff, checks]
  cases mod.isDeclaration f with
  | true =>
    cases isKnownDeterministicDeclaration mod f <;> simp [passIf]
  | false =>
    simp only [Bool.false_eq_true, if_false, true_and, List.mem_map]
    exact exists_congr fun inst => and_congr_right fun _ => check_eq_ask_iff

/-- So what can be reached is what can be called. -/
theorem edge_eq_calls : Edge (asked (checks mod)) = Calls mod :=
  funext fun _ => funext fun _ => propext edge_iff_calls

omit [DecidableEq F] [DecidableEq V] in
/-- What a call calls is a definition. -/
theorem isDeclaration_of_calledDefinition {call : CallBase F} {g : F}
    (h : calledDefinition mod call = some g) : mod.isDeclaration g = false := by
  unfold calledDefinition at h
  split_ifs at h
  split at h
  · cases h
  · split_ifs at h with hdefinition
    obtain rfl := Option.some.inj h
    simp only [Bool.or_eq_true, not_or, Bool.not_eq_true] at hdefinition
    exact hdefinition.2

omit [DecidableEq F] [DecidableEq V] in
/-- What a definition can call is a definition. -/
theorem CanCall.isDeclaration {f g : F} (h : CanCall mod f g) (hf : mod.isDeclaration f = false) :
    mod.isDeclaration g = false := by
  rcases Relation.ReflTransGen.cases_tail h with rfl | ⟨_, -, -, _, -, _, -, hcalled⟩
  · exact hf
  · exact isDeclaration_of_calledDefinition hcalled

/-- **What the search decides of a definition**: whether it is deterministic. -/
theorem good_iff_deterministic {f : F} (hf : mod.isDeclaration f = false) :
    Good (checks mod) f ↔ Deterministic mod f := by
  unfold Good Deterministic OnCycle Reach CanCall
  rw [edge_eq_calls]
  refine and_congr_left fun _ => forall_congr' fun g => imp_congr_right fun hg => ?_
  rw [checks, CanCall.isDeclaration hg hf]
  simp [Disqualifies]

/-- What the search decides of a declaration: whether it is known. -/
theorem good_iff_known {f : F} (hf : mod.isDeclaration f = true) :
    Good (checks mod) f ↔ isKnownDeterministicDeclaration mod f = true := by
  have hasked : asked (checks mod) f = [] := by
    rw [asked, checks, hf]
    cases isKnownDeterministicDeclaration mod f <;> simp [passIf]
  rw [good_iff, hasked, checks, hf]
  cases isKnownDeterministicDeclaration mod f <;> simp [passIf]

end Meaning

/-- **All answers are right**, in whichever order the questions are asked.

**Proof sketch.** A function that is still being checked can call itself. So neither this function
nor one that asks for it is deterministic, and the answers that are remembered are final. -/
theorem answersTo_right [Fintype F] (mod : Module F V B) (queries : List F) :
    List.Forall₂ (AnswerRight mod) queries (answersTo mod queries) := by
  have hfuel : (Finset.univ : Finset F).toList.length < Fintype.card F + 1 := by simp
  have hanswers : List.Forall₂ (fun f answer => answer = true ↔ Good (checks mod) f) queries
      (answersTo mod queries) :=
    answers_iff (fun f => Finset.mem_toList.mpr (Finset.mem_univ f)) hfuel queries inv_cleared
      fun _ => rfl
  refine hanswers.imp fun f answer hanswer => ?_
  unfold AnswerRight
  split_ifs with hdeclaration
  · rw [Bool.eq_iff_iff, hanswer, good_iff_known hdeclaration]
  · rw [hanswer, good_iff_deterministic (by simpa using hdeclaration)]

/-! ## An unknown declaration -/

/-- The module with the declaration of `getpid`. -/
def getpid : Module Unit Unit Unit where
  functionName _ := "getpid".toList
  isDeclaration _ := true
  intrinsicID _ := none
  doesNotReturn _ := false
  blocks _ := []
  instructions _ := []
  value _ := .other
  isPointerTy _ := false
  users _ := []
  stripPointerCasts v := v
  underlyingObject v := v

/-- **A declaration that is not known** is not deterministic, although it has no instructions. -/
theorem not_answersDeterministic_getpid :
    ¬ List.Forall₂ (fun f answer => answer = true ↔ Deterministic getpid f) [()]
      (answersTo getpid [()]) := by
  intro h
  obtain _ | ⟨hanswer, -⟩ := h
  have hnone : ∀ f g, ¬ Calls getpid f g := fun f g hcalls => by cases hcalls.1
  refine Bool.false_ne_true (hanswer.mpr ⟨fun g _ inst hinst => ?_, fun g _ hcycle => ?_⟩)
  · cases hinst
  · obtain ⟨f, hcalls, -⟩ := Relation.TransGen.head'_iff.mp hcycle
    exact hnone _ _ hcalls

end StackAnalyzer.Conditions
