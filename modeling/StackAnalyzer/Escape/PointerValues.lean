import StackAnalyzer.Escape.EscapeSummaries

set_option relaxedAutoImplicit false
set_option autoImplicit false

/-!
# Pointer values

The escape analysis walks over values and their uses. To find the object that a pointer points into
it looks through pointer slots that are stored once, for which it scans the uses of the slot. The
order in which uses are listed makes no difference for that.

## Main definitions

* `StackAnalyzer.Escape.EscapeModule` — what the analysis reads of values and functions.
* `StackAnalyzer.Escape.EscapeModule.peelPointerFromSingleStoreSlot`,
  `StackAnalyzer.Escape.EscapeModule.getUnderlyingPointerObject` — what a pointer points into.
* `StackAnalyzer.Escape.EscapeModule.localSlot` — the local variable that is stored to.

## Main results

* `StackAnalyzer.Escape.EscapeModule.scanSlotUses_eq_some_iff` — which store is found.
* `StackAnalyzer.Escape.EscapeModule.localSlot_of_perm` — the order of the uses does not matter.
-/

namespace StackAnalyzer.Escape

/-! ## Values -/

/-- What is read of a function. -/
structure EscapeFunction where
  name : List Char
  isDeclaration : Bool
  argSize : ℕ
  hasReturnedAttr : ℕ → Bool

/-- What is read of an `alloca`: among it whether each variable of its `dbg.declare`s is
artificial. -/
structure AllocaSite (F : Type*) where
  function : F
  isStaticAlloca : Bool
  allocatesPointer : Bool
  debugVariables : List Bool

/-- What is read of a call. A debug value names a variable; only debug values do. -/
structure CallSite (V F : Type*) where
  args : List V
  directCallee : Option F
  hasReturnedAttr : ℕ → Bool
  hasNonCaptureLikeAttr : ℕ → Bool
  isLikelyVirtualDispatch : Bool
  candidates : List F
  isDebugOrLifetime : Bool
  debugVariable : List Char

/-- The kinds of values that are told apart. -/
inductive ValueKind (V F : Type*)
  | argument (function : F) (argNo : ℕ)
  | alloca (site : AllocaSite F)
  | load (pointer : V)
  | store (value pointer : V)
  | gep (pointer : V)
  | bitcast
  | phi
  | select
  | ret
  | call (site : CallSite V F)
  | globalVariable
  | other

/-- What the analysis reads of a module: the values, with an empty name for a value without one, the
functions, and its own tables. -/
structure EscapeModule (V F : Type*) where
  kind : V → ValueKind V F
  name : V → List Char
  isPointer : V → Bool
  stripPointerCasts : V → V
  getUnderlyingObject : V → V
  function : F → EscapeFunction
  instructions : F → List V
  shouldAnalyze : F → Bool
  modelSaysNoEscapeArg : F → ℕ → Bool
  returnedArgAliases : F → Option ℕ

/-- Some text stands in a name. -/
def containsText (text name : List Char) : Bool := name.tails.any fun rest => text.isPrefixOf rest

/-- `isStdLibCallee`. -/
def isStdLibCallee (name : List Char) : Bool :=
  ["_ZNSt3__1", "_ZSt", "_ZNSt", "__cxx"].any fun text => text.toList.isPrefixOf name

/-- `isLikelyCompilerTemporaryName`. -/
def isLikelyCompilerTemporaryName (name : List Char) : Bool :=
  name.isEmpty || name == "<unnamed>".toList ||
    (["ref.tmp", "agg.tmp", "coerce", "__range", "__begin", "__end", "retval", "exn.slot",
      "ehselector.slot"].any fun text => text.toList.isPrefixOf name) ||
    ".addr".toList.isSuffixOf name || containsText ".tmp".toList name

namespace EscapeModule

variable {V F : Type*} [DecidableEq V] (M : EscapeModule V F)

/-! ## Slots that are stored once -/

/-- A use of a pointer slot: `none` if it is unsafe, and otherwise whether it is a store. -/
def slotUse (slot user : V) : Option Bool :=
  match M.kind user with
  | .store _ pointer => if M.stripPointerCasts pointer ≠ slot then none else some true
  | .load pointer => if M.stripPointerCasts pointer ≠ slot then none else some false
  | .call site => if site.isDebugOrLifetime then some false else none
  | _ => none

/-- The loop over the uses of a slot, which ends at an unsafe use and at a second store: the only
store, if there is one. -/
def scanSlotUses (slot : V) : List V → Option V → Option V
  | [], uniqueStore => uniqueStore
  | user :: users, uniqueStore =>
    match M.slotUse slot user with
    | none => none
    | some false => scanSlotUses slot users uniqueStore
    | some true =>
      match uniqueStore with
      | some other => if other ≠ user then none else scanSlotUses slot users (some user)
      | none => scanSlotUses slot users (some user)

variable (order : V → List V)

/-- A round of `peelPointerFromSingleStoreSlot`: the pointer that is stored in the slot from which
the pointer is loaded. -/
def peelOnce (current : V) : Option V :=
  match M.kind (M.stripPointerCasts current) with
  | .load pointer =>
    let slot := M.stripPointerCasts pointer
    match M.kind slot with
    | .alloca site =>
      if !site.isStaticAlloca then none
      else if !site.allocatesPointer then none
      else
        match M.scanSlotUses slot (order slot) none with
        | none => none
        | some uniqueStore =>
          match M.kind uniqueStore with
          | .store value _ =>
            let storedPtr := M.stripPointerCasts value
            if M.isPointer storedPtr then some storedPtr else none
          | _ => none
    | _ => none
  | _ => none

/-- The rounds of `peelPointerFromSingleStoreSlot`. -/
def peelRounds : ℕ → V → V
  | 0, current => current
  | n + 1, current =>
    match M.peelOnce order current with
    | none => current
    | some storedPtr => peelRounds n storedPtr

/-- `peelPointerFromSingleStoreSlot`. -/
def peelPointerFromSingleStoreSlot (ptr : V) : V := M.peelRounds order 4 ptr

/-! ## Underlying objects -/

omit [DecidableEq V] in
/-- `getReturnedArgIndexFromCall`. -/
def getReturnedArgIndexFromCall (site : CallSite V F) : Option ℕ :=
  match (List.range site.args.length).find? site.hasReturnedAttr with
  | some i => some i
  | none =>
    match site.directCallee with
    | none => none
    | some callee =>
      let maxArgs := min (M.function callee).argSize site.args.length
      match (List.range maxArgs).find? (M.function callee).hasReturnedAttr with
      | some i => some i
      | none => M.returnedArgAliases callee

/-- `resolveUnderlyingPointerObject`, with the number of levels that are left. -/
def resolveUnderlyingPointerObject : ℕ → V → V
  | 0, ptr => M.getUnderlyingObject (M.stripPointerCasts ptr)
  | n + 1, ptr =>
    let stripped := M.peelPointerFromSingleStoreSlot order (M.stripPointerCasts ptr)
    match M.kind stripped with
    | .gep pointer => resolveUnderlyingPointerObject n pointer
    | .call site =>
      match M.getReturnedArgIndexFromCall site with
      | none => M.getUnderlyingObject stripped
      | some returnedArg =>
        match site.args[returnedArg]? with
        | none => M.getUnderlyingObject stripped
        | some arg => resolveUnderlyingPointerObject n arg
    | _ => M.getUnderlyingObject stripped

/-- `getUnderlyingPointerObject`: at most 13 levels. -/
def getUnderlyingPointerObject (ptr : V) : V := M.resolveUnderlyingPointerObject order 13 ptr

/-- `getUnderlyingAlloca`, where it belongs to the function. -/
def localSlot [DecidableEq F] (fn : F) (ptr : V) : Option V :=
  let obj := M.getUnderlyingPointerObject order ptr
  match M.kind obj with
  | .alloca site => if site.function = fn then some obj else none
  | _ => none

/-! ## The order of the uses does not matter -/

/-- **The only store of a slot**: all uses are safe, and all stores are this one. -/
theorem scanSlotUses_eq_some_iff (slot : V) (users : List V) (uniqueStore : Option V) (s : V) :
    M.scanSlotUses slot users uniqueStore = some s ↔
      (∀ user ∈ users, M.slotUse slot user ≠ none) ∧
      (∀ user ∈ users, M.slotUse slot user = some true → user = s) ∧
      (uniqueStore = some s ∨
        uniqueStore = none ∧ ∃ user ∈ users, M.slotUse slot user = some true) := by
  induction users generalizing uniqueStore with
  | nil => simp [scanSlotUses]
  | cons user users ih =>
    cases huse : M.slotUse slot user with
    | none => simp [scanSlotUses, huse]
    | some isStore =>
      cases isStore with
      | false => simp [scanSlotUses, huse, ih]
      | true =>
        cases uniqueStore with
        | none =>
          simp only [scanSlotUses, ih, List.forall_mem_cons, huse, Option.some.injEq]
          constructor
          · rintro ⟨hsafe, hall, rfl | ⟨h, -⟩⟩
            · exact ⟨⟨by simp, hsafe⟩, ⟨fun _ => rfl, hall⟩,
                Or.inr ⟨trivial, user, List.mem_cons_self, huse⟩⟩
            · cases h
          · rintro ⟨⟨-, hsafe⟩, ⟨heq, hall⟩, -⟩
            exact ⟨hsafe, hall, Or.inl (heq trivial)⟩
        | some other =>
          simp only [scanSlotUses, huse]
          split_ifs with hne
          · simp only [List.forall_mem_cons, huse, Option.some.injEq, false_iff]
            rintro ⟨-, ⟨heq, -⟩, rfl | ⟨h, -⟩⟩
            · exact hne (heq trivial).symm
            · cases h
          · have heq : other = user := not_not.mp hne
            subst heq
            simp [ih, huse]
            tauto

variable {order} {order' : V → List V} (hperm : ∀ v, (order v).Perm (order' v))

theorem scanSlotUses_of_perm {users users' : List V} (h : users.Perm users') (slot : V) :
    M.scanSlotUses slot users none = M.scanSlotUses slot users' none := by
  apply Option.ext
  intro s
  simp only [scanSlotUses_eq_some_iff, h.mem_iff]

include hperm

theorem peelOnce_of_perm : M.peelOnce order = M.peelOnce order' := by
  funext current
  simp only [peelOnce, M.scanSlotUses_of_perm (hperm _)]

theorem peelRounds_of_perm (n : ℕ) (ptr : V) :
    M.peelRounds order n ptr = M.peelRounds order' n ptr := by
  induction n generalizing ptr with
  | zero => rfl
  | succ n ih => simp only [peelRounds, M.peelOnce_of_perm hperm, ih]

theorem resolveUnderlyingPointerObject_of_perm (n : ℕ) (ptr : V) :
    M.resolveUnderlyingPointerObject order n ptr =
      M.resolveUnderlyingPointerObject order' n ptr := by
  induction n generalizing ptr with
  | zero => rfl
  | succ n ih =>
    simp only [resolveUnderlyingPointerObject, peelPointerFromSingleStoreSlot,
      M.peelRounds_of_perm hperm, ih]

/-- The object that a pointer points into does not depend on the order of the uses. -/
theorem getUnderlyingPointerObject_of_perm (ptr : V) :
    M.getUnderlyingPointerObject order ptr = M.getUnderlyingPointerObject order' ptr :=
  M.resolveUnderlyingPointerObject_of_perm hperm 13 ptr

/-- The local variable does not depend on the order of the uses. -/
theorem localSlot_of_perm [DecidableEq F] (fn : F) (ptr : V) :
    M.localSlot order fn ptr = M.localSlot order' fn ptr := by
  simp only [localSlot, M.getUnderlyingPointerObject_of_perm hperm]

end EscapeModule

end StackAnalyzer.Escape
