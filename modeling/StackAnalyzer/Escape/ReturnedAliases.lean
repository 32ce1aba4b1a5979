import StackAnalyzer.Escape.PointerValues

set_option relaxedAutoImplicit false
set_option autoImplicit false

/-!
# Functions that return an argument

Which functions return a pointer that is derived from one of their arguments. The aliases are found
in sweeps over all functions, at most 32. An alias is added only if each returned pointer resolves
to the argument, through the aliases that are known by then; so each alias is right at any time,
whatever the order of the functions. But a call may pass a copy of what its argument points to, and
then the parameter is no alias of the argument.

## Main definitions

* `StackAnalyzer.Escape.ReturnModule` — what is read of a module, and what its meaning depends on.
* `StackAnalyzer.Escape.ReturnModule.buildReturnedPointerArgAliases` — the aliases.
* `StackAnalyzer.Escape.ReturnModule.Exec` — executions of functions.
* `StackAnalyzer.Escape.ReturnModule.SoundAliases` — all aliases are right.
* `StackAnalyzer.Escape.ReturnModule.NotCopied` — what a call returns is derived from no copy.

## Main results

* `StackAnalyzer.Escape.ReturnModule.originates_resolve` — what a pointer resolves to.
* `StackAnalyzer.Escape.ReturnModule.Invariant.step` — a step keeps pointers derived.
* `StackAnalyzer.Escape.ReturnModule.derived_of_returned` — when an alias is right.
-/

namespace StackAnalyzer.Escape

open Relation

/-! ## The aliases -/

/-- A module whose functions return pointers: the uses of values, whether a function returns a
pointer, and the values of its `ret` instructions in the order of the blocks, if they have one. The
operand of a cast is also that of a phi with one incoming value, and of an intrinsic that passes its
argument on. An argument with the attribute `byval` is copied. -/
structure ReturnModule (V F : Type*) extends EscapeModule V F where
  functions : List F
  users : V → List V
  returnsPointer : F → Bool
  returnValues : F → List (Option V)
  castOperand : V → Option V
  isByVal : V → ℕ → Bool

namespace ReturnModule

variable {V F : Type*} [DecidableEq V] [DecidableEq F] (M : ReturnModule V F)

section Aliases

/-- The module, with some aliases. -/
def withAliases (aliases : F → Option ℕ) : EscapeModule V F :=
  { M.toEscapeModule with returnedArgAliases := aliases }

/-- The base of a returned pointer, as far as some aliases go. -/
def base (aliases : F → Option ℕ) (ptr : V) : V :=
  (M.withAliases aliases).getUnderlyingPointerObject M.users ptr

/-- The loop of `inferReturnedPointerArgAlias` over the returned values. -/
def commonArgument (aliases : F → Option ℕ) : List (Option V) → Option ℕ → Option ℕ
  | [], candidate => candidate
  | none :: _, _ => none
  | some retVal :: rest, candidate =>
    if M.isPointer retVal = false then none
    else
      match M.kind (M.base aliases retVal) with
      | .argument _ argNo =>
        if M.isPointer (M.base aliases retVal) = false then none
        else
          match candidate with
          | none => commonArgument aliases rest (some argNo)
          | some other => if other ≠ argNo then none else commonArgument aliases rest candidate
      | _ => none

/-- `inferReturnedPointerArgAlias`. -/
def inferReturnedPointerArgAlias (aliases : F → Option ℕ) (f : F) : Option ℕ :=
  if M.returnsPointer f = false then none
  else M.commonArgument aliases (M.returnValues f) none

/-- The body of the loop over the functions: the aliases, and whether they have changed. -/
def updateAlias (state : (F → Option ℕ) × Bool) (f : F) : (F → Option ℕ) × Bool :=
  if (M.function f).isDeclaration then state
  else
    match M.inferReturnedPointerArgAlias state.1 f, state.1 f with
    | none, none => state
    | none, some _ => (Function.update state.1 f none, true)
    | some inferred, none => (Function.update state.1 f (some inferred), true)
    | some inferred, some other =>
      if other ≠ inferred then (Function.update state.1 f (some inferred), true) else state

/-- A sweep over all functions. -/
def sweep (aliases : F → Option ℕ) : (F → Option ℕ) × Bool :=
  M.functions.foldl M.updateAlias (aliases, false)

/-- Sweeps until nothing changes, at most as many as the guard allows. -/
def sweeps : ℕ → (F → Option ℕ) → F → Option ℕ
  | 0, aliases => aliases
  | guard + 1, aliases =>
    if (M.sweep aliases).2 then sweeps guard (M.sweep aliases).1 else (M.sweep aliases).1

/-- `buildReturnedPointerArgAliases`. -/
def buildReturnedPointerArgAliases : F → Option ℕ := M.sweeps 32 fun _ => none

end Aliases

/-! ## Executions -/

section Executions

/-- A call returns one of its arguments, as attributes say. -/
def ReturnsArg (site : CallSite V F) (i : ℕ) : Prop :=
  site.hasReturnedAttr i = true ∨
    ∃ g, site.directCallee = some g ∧ (M.function g).hasReturnedAttr i = true

/-- A pointer is derived from an operand: by a `getelementptr`, by a cast, or because it is the
argument that a call returns. -/
inductive LooksThrough : V → V → Prop
  | gep {v w : V} : M.kind v = .gep w → LooksThrough v w
  | cast {v w : V} : M.castOperand v = some w → LooksThrough v w
  | returned {v w : V} {site : CallSite V F} {i : ℕ} :
      M.kind v = .call site → site.args[i]? = some w → M.ReturnsArg site i → LooksThrough v w

/-- A value that is computed by some function. -/
def IsInstruction (v : V) : Prop := ∃ f, v ∈ M.instructions f

/-- **A private variable**: its address is used only by loads, by stores of other values, and by
intrinsics for debuggers and lifetimes. -/
def Private (slot : V) : Prop :=
  (∃ site, M.kind slot = .alloca site) ∧ ∀ user ∈ M.users slot,
    match M.kind user with
    | .load _ => True
    | .store value _ => value ≠ slot
    | .call site => site.isDebugOrLifetime = true
    | _ => False

/-- An instruction stores a value to a variable. -/
def Stores (inst slot value : V) : Prop :=
  ∃ pointer, M.kind inst = .store value pointer ∧ M.stripPointerCasts pointer = slot

/-- What an activation of a function knows: the pointers that its instructions have computed, and
what is stored in its private variables; nothing before they are initialised. -/
structure Activation (V P : Type*) where
  values : V → Option P
  slots : V → Option P

/-- An activation goes on, or it has returned a pointer. -/
inductive Outcome (V P : Type*)
  | running (st : Activation V P)
  | returned (result : P)

variable {P : Type*} (adjusts : P → P → Prop)

/-- The pointer that a value is. -/
def read (f : F) (params : ℕ → P) (st : Activation V P) (v : V) : Option P :=
  match M.kind v with
  | .argument g i => if g = f then some (params i) else none
  | _ => st.values v

/-- The results that an instruction may have. A private variable must have been initialised when it
is loaded, and has what is stored there; casts, `getelementptr`s and calls that return an argument
derive their result from pointers; everything else may be any pointer. -/
structure Yields (f : F) (params : ℕ → P) (st : Activation V P) (inst : V) (result : P) : Prop where
  operand : ∀ w, M.LooksThrough inst w → M.isPointer inst = true →
    M.isPointer w = true ∧ ∃ p, M.read f params st w = some p ∧ ReflTransGen adjusts p result
  load : ∀ pointer, M.kind inst = .load pointer → M.isPointer inst = true →
    M.Private (M.stripPointerCasts pointer) →
    st.slots (M.stripPointerCasts pointer) = some result

/-- **A step** of an activation with some result. Private variables are changed by stores to them
only; their lifetime may end. Anything may happen to other variables. -/
structure Steps (f : F) (params : ℕ → P) (st : Activation V P) (inst : V) (result : P)
    (st' : Activation V P) : Prop where
  mem : inst ∈ M.instructions f
  yields : M.Yields adjusts f params st inst result
  values : st'.values = Function.update st.values inst (some result)
  stored : ∀ slot value, M.Private slot → M.Stores inst slot value → M.isPointer value = true →
    st'.slots slot = M.read f params st value
  kept : ∀ slot, M.Private slot → (∀ value, ¬ M.Stores inst slot value) →
    st'.slots slot = st.slots slot ∨ st'.slots slot = none

/-- The parameters that a call passes: pointers for pointers, as they are unless they are copied. -/
def Passes (f : F) (params : ℕ → P) (st : Activation V P) (inst : V) (site : CallSite V F) (g : F)
    (passed : ℕ → P) : Prop :=
  ∀ i arg, site.args[i]? = some arg →
    (M.isByVal inst i = false → M.read f params st arg = some (passed i)) ∧
      ∀ a, M.kind a = .argument g i → M.isPointer a = true → M.isPointer arg = true

/-- **The executions** of a function with some parameters, whose calls are all of some kind. A call
of a function of the module executes it, and the result is the pointer that it returns. -/
inductive Exec (ok : V → (ℕ → P) → P → Prop) : F → (ℕ → P) → Outcome V P → Prop
  | entry {f : F} {params : ℕ → P} {st : Activation V P} :
      (∀ v, M.IsInstruction v → st.values v = none) → (∀ slot, st.slots slot = none) →
      Exec ok f params (.running st)
  | step {f : F} {params : ℕ → P} {st st' : Activation V P} {inst : V} {result : P} :
      Exec ok f params (.running st) →
      (∀ site g, M.kind inst = .call site → site.directCallee = some g →
        (M.function g).isDeclaration = true) →
      M.Steps adjusts f params st inst result st' → Exec ok f params (.running st')
  | call {f g : F} {params passed : ℕ → P} {st st' : Activation V P} {inst : V}
      {site : CallSite V F} {result : P} :
      Exec ok f params (.running st) → M.kind inst = .call site → site.directCallee = some g →
      (M.function g).isDeclaration = false → M.Passes f params st inst site g passed →
      Exec ok g passed (.returned result) → ok inst passed result →
      M.Steps adjusts f params st inst result st' → Exec ok f params (.running st')
  | ret {f : F} {params : ℕ → P} {st : Activation V P} {v : V} {result : P} :
      Exec ok f params (.running st) → some v ∈ M.returnValues f →
      M.read f params st v = some result → Exec ok f params (.returned result)

/-- **The aliases are right**: whatever a function returns is derived from the parameter. -/
def SoundAliases : Prop :=
  ∀ f i, M.buildReturnedPointerArgAliases f = some i → ∀ params result,
    M.Exec adjusts (fun _ _ _ => True) f params (.returned result) →
      ReflTransGen adjusts (params i) result

/-- **What a call returns is derived from no copy**: from none of the parameters that are copied. -/
def NotCopied (inst : V) (passed : ℕ → P) (result : P) : Prop :=
  ∀ i, M.isByVal inst i = true → ¬ ReflTransGen adjusts (passed i) result

/-- **What LLVM guarantees.** Its functions look through casts, `getelementptr`s and calls that
return an argument; only pointers are looked through, lists of uses are complete, and constants have
constants as operands. -/
structure Verified : Prop where
  strip : ∀ v, ReflTransGen M.LooksThrough v (M.stripPointerCasts v)
  underlying : ∀ v, ReflTransGen M.LooksThrough v (M.getUnderlyingObject v)
  strip_pointer : ∀ v, M.isPointer (M.stripPointerCasts v) = true → M.isPointer v = true
  looks_kind : ∀ v w, M.LooksThrough v w →
    match M.kind v with
    | .argument _ _ | .alloca _ | .load _ | .store _ _ => False
    | .call site => site.isDebugOrLifetime = false
    | _ => True
  looks_user : ∀ v w, M.LooksThrough v w → v ∈ M.users w
  store_user : ∀ inst value pointer, M.kind inst = .store value pointer → inst ∈ M.users pointer
  constant : ∀ v w, ¬ M.IsInstruction v → M.LooksThrough v w →
    ¬ M.IsInstruction w ∧ ∀ g i, M.kind w ≠ .argument g i
  instruction : ∀ v, match M.kind v with
    | .load _ | .call _ => M.IsInstruction v
    | _ => True

end Executions

/-! ## What a pointer resolves to -/

section Origins

/-- A private variable is stored to once, as far as its uses go, and this is the stored pointer. -/
def StoredOnce (slot value : V) : Prop :=
  ∃ site store pointer, M.kind slot = .alloca site ∧
    M.scanSlotUses slot (M.users slot) none = some store ∧ M.kind store = .store value pointer ∧
      M.isPointer (M.stripPointerCasts value) = true

variable (aliases : F → Option ℕ)

/-- One step on the way to the base of a pointer. -/
inductive BasedOn : V → V → Prop
  | looks {v w : V} : M.LooksThrough v w → BasedOn v w
  | call {v w : V} {site : CallSite V F} {g : F} {i : ℕ} :
      M.kind v = .call site → site.directCallee = some g → aliases g = some i →
      site.args[i]? = some w → BasedOn v w
  | load {v w pointer : V} : M.kind v = .load pointer →
      M.StoredOnce (M.stripPointerCasts pointer) w → BasedOn v w

/-- **A pointer originates** from a parameter of a function. -/
def Originates (v : V) (g : F) (i : ℕ) : Prop :=
  ∃ a, ReflTransGen (M.BasedOn aliases) v a ∧ M.kind a = .argument g i

variable {M aliases}

omit [DecidableEq F] in
theorem based_strip (hM : M.Verified) (v : V) :
    ReflTransGen (M.BasedOn aliases) v (M.stripPointerCasts v) :=
  (hM.strip v).lift id fun _ _ => .looks

omit [DecidableEq F] in
theorem based_underlying (hM : M.Verified) (v : V) :
    ReflTransGen (M.BasedOn aliases) v (M.getUnderlyingObject v) :=
  (hM.underlying v).lift id fun _ _ => .looks

omit [DecidableEq F] in
/-- The scan of a slot does not depend on aliases. -/
theorem scanSlotUses_withAliases (slot : V) (users : List V) (uniqueStore : Option V) :
    (M.withAliases aliases).scanSlotUses slot users uniqueStore =
      M.scanSlotUses slot users uniqueStore := by
  apply Option.ext
  intro store
  rw [EscapeModule.scanSlotUses_eq_some_iff, EscapeModule.scanSlotUses_eq_some_iff]
  rfl

omit [DecidableEq F] in
/-- A round of the loop through slots that are stored once. -/
theorem based_peelOnce (hM : M.Verified) {current next : V}
    (h : (M.withAliases aliases).peelOnce M.users current = some next) :
    ReflTransGen (M.BasedOn aliases) current next := by
  simp only [EscapeModule.peelOnce] at h
  split at h
  · next pointer hload =>
    split at h
    · next site halloca =>
      split_ifs at h
      split at h
      · cases h
      · next store hscan =>
        split at h
        · next value pointer' hstore =>
          split_ifs at h with hpointer
          obtain rfl := Option.some.inj h
          have honce : M.StoredOnce (M.stripPointerCasts pointer) value :=
            ⟨site, store, pointer', halloca, (scanSlotUses_withAliases _ _ _).symm.trans hscan,
              hstore, hpointer⟩
          exact ((based_strip hM current).tail (.load hload honce)).trans (based_strip hM value)
        · cases h
    · cases h
  · cases h

omit [DecidableEq F] in
theorem based_peelRounds (hM : M.Verified) (n : ℕ) (ptr : V) :
    ReflTransGen (M.BasedOn aliases) ptr ((M.withAliases aliases).peelRounds M.users n ptr) := by
  induction n generalizing ptr with
  | zero => exact .refl
  | succ n ih =>
    unfold EscapeModule.peelRounds
    split
    · exact .refl
    · next storedPtr hpeel => exact (based_peelOnce hM hpeel).trans (ih storedPtr)

omit [DecidableEq F] in
/-- The argument that a call returns. -/
theorem based_returnedArg {v arg : V} {site : CallSite V F} {i : ℕ} (hkind : M.kind v = .call site)
    (hi : (M.withAliases aliases).getReturnedArgIndexFromCall site = some i)
    (harg : site.args[i]? = some arg) : M.BasedOn aliases v arg := by
  unfold EscapeModule.getReturnedArgIndexFromCall at hi
  split at hi
  · next j hj =>
    obtain rfl := Option.some.inj hi
    exact .looks (.returned hkind harg (Or.inl (List.find?_some hj)))
  · split at hi
    · cases hi
    · next callee hcallee =>
      simp only at hi
      split at hi
      · next j hj =>
        obtain rfl := Option.some.inj hi
        exact .looks (.returned hkind harg (Or.inr ⟨callee, hcallee, List.find?_some hj⟩))
      · exact .call hkind hcallee hi harg

omit [DecidableEq F] in
/-- **What a pointer resolves to** is what it is based on. -/
theorem based_resolve (hM : M.Verified) (levels : ℕ) (ptr : V) :
    ReflTransGen (M.BasedOn aliases) ptr
      ((M.withAliases aliases).resolveUnderlyingPointerObject M.users levels ptr) := by
  induction levels generalizing ptr with
  | zero => exact (based_strip hM ptr).trans (based_underlying hM _)
  | succ levels ih =>
    have hstripped : ReflTransGen (M.BasedOn aliases) ptr
        ((M.withAliases aliases).peelPointerFromSingleStoreSlot M.users (M.stripPointerCasts ptr)) :=
      (based_strip hM ptr).trans (based_peelRounds hM 4 (M.stripPointerCasts ptr))
    simp only [EscapeModule.resolveUnderlyingPointerObject]
    split
    · next pointer hgep =>
      exact (hstripped.tail (.looks (.gep hgep))).trans (ih pointer)
    · next site hcall =>
      split
      · exact hstripped.trans (based_underlying hM _)
      · next i hi =>
        split
        · exact hstripped.trans (based_underlying hM _)
        · next arg harg => exact (hstripped.tail (based_returnedArg hcall hi harg)).trans (ih arg)
    · exact hstripped.trans (based_underlying hM _)

omit [DecidableEq F] in
/-- A pointer that resolves to an argument originates from it. -/
theorem originates_resolve (hM : M.Verified) {ptr : V} {g : F} {i : ℕ}
    (h : M.kind (M.base aliases ptr) = .argument g i) : M.Originates aliases ptr g i :=
  ⟨_, based_resolve hM 13 ptr, h⟩

omit [DecidableEq F] in
/-- A pointer is the argument, or it is based on one that originates from it. -/
theorem Originates.cases {v : V} {g : F} {i : ℕ} (h : M.Originates aliases v g i) :
    M.kind v = .argument g i ∨ ∃ w, M.BasedOn aliases v w ∧ M.Originates aliases w g i := by
  obtain ⟨a, hchain, ha⟩ := h
  rcases hchain.cases_head with rfl | ⟨w, hstep, hrest⟩
  · exact Or.inl ha
  · exact Or.inr ⟨w, hstep, a, hrest, ha⟩

omit [DecidableEq F] in
/-- The address of a variable originates from no argument. -/
theorem not_originates_alloca (hM : M.Verified) {slot : V} {site : AllocaSite F}
    (hslot : M.kind slot = .alloca site) (g : F) (i : ℕ) : ¬ M.Originates aliases slot g i := by
  intro h
  rcases h.cases with hkind | ⟨w, hbased, -⟩
  · simp [hslot] at hkind
  · cases hbased with
    | looks hlooks => simpa [hslot] using hM.looks_kind _ _ hlooks
    | call hkind => simp [hslot] at hkind
    | load hkind => simp [hslot] at hkind

omit [DecidableEq F] in
/-- A constant originates from no argument. -/
theorem not_originates_constant (hM : M.Verified) {v : V} (hv : ¬ M.IsInstruction v)
    (hkind : ∀ g i, M.kind v ≠ .argument g i) (g : F) (i : ℕ) :
    ¬ M.Originates aliases v g i := by
  rintro ⟨a, hchain, ha⟩
  have hinv : ¬ M.IsInstruction a ∧ ∀ g i, M.kind a ≠ .argument g i := by
    clear ha
    induction hchain with
    | refl => exact ⟨hv, hkind⟩
    | @tail b c _ hstep ih =>
      have hinst := hM.instruction b
      cases hstep with
      | looks hlooks => exact hM.constant b c ih.1 hlooks
      | call hcall =>
        rw [hcall] at hinst
        exact absurd hinst ih.1
      | load hload =>
        rw [hload] at hinst
        exact absurd hinst ih.1
  exact hinv.2 g i ha

end Origins

/-! ## Private variables -/

section Variables

variable {M}

omit [DecidableEq F] in
/-- A variable that is stored to once is private, unless its own address is stored. -/
theorem private_of_storedOnce {slot value : V} (h : M.StoredOnce slot value) (hne : value ≠ slot) :
    M.Private slot := by
  obtain ⟨site, store, pointer, halloca, hscan, hstore, -⟩ := h
  obtain ⟨hsafe, hunique, -⟩ := (M.scanSlotUses_eq_some_iff _ _ _ _).mp hscan
  refine ⟨⟨site, halloca⟩, fun user huser => ?_⟩
  have hsafe := hsafe user huser
  have hunique := hunique user huser
  unfold EscapeModule.slotUse at hsafe hunique
  cases hkind : M.kind user with
  | load _ => trivial
  | store value' pointer' =>
    simp only [hkind] at hsafe hunique
    split_ifs at hsafe hunique with hother
    · exact absurd rfl hsafe
    · obtain rfl := hunique rfl
      obtain ⟨rfl, -⟩ := ValueKind.store.inj (hkind.symm.trans hstore)
      exact hne
  | call site => simpa [hkind] using hsafe
  | _ => simp [hkind] at hsafe

omit [DecidableEq V] [DecidableEq F] in
/-- A store to a private variable goes through its address. -/
theorem mem_users_of_stores (hM : M.Verified) {inst slot value : V} (hslot : M.Private slot)
    (h : M.Stores inst slot value) : inst ∈ M.users slot := by
  obtain ⟨pointer, hstore, hpointer⟩ := h
  have hstrip := hM.strip pointer
  rw [hpointer] at hstrip
  rcases hstrip.cases_tail with rfl | ⟨w, -, hlooks⟩
  · exact hM.store_user inst value _ hstore
  · -- no other pointer is derived from the address
    have huser := hslot.2 w (hM.looks_user w slot hlooks)
    have hkind := hM.looks_kind w slot hlooks
    cases hw : M.kind w <;> simp_all

omit [DecidableEq F] in
/-- Only the one value is stored. -/
theorem eq_of_stores (hM : M.Verified) {inst slot value value' : V}
    (honce : M.StoredOnce slot value) (hslot : M.Private slot) (h : M.Stores inst slot value') :
    value' = value := by
  have huser := mem_users_of_stores hM hslot h
  obtain ⟨-, store, pointer, -, hscan, hstore, -⟩ := honce
  obtain ⟨-, hunique, -⟩ := (M.scanSlotUses_eq_some_iff _ _ _ _).mp hscan
  obtain ⟨pointer', hstore', hpointer'⟩ := h
  have huse : M.slotUse slot inst = some true := by
    simp [EscapeModule.slotUse, hstore', hpointer']
  obtain rfl := hunique inst huser huse
  exact (ValueKind.store.inj (hstore'.symm.trans hstore)).1

end Variables

/-! ## Derived pointers -/

section Derived

variable {P : Type*} (adjusts : P → P → Prop) (aliases : F → Option ℕ)

/-- The aliases of some map are right, in executions of some kind. -/
structure RightAlias (ok : V → (ℕ → P) → P → Prop) (f : F) (i : ℕ) : Prop where
  defined : (M.function f).isDeclaration = false
  pointer : ∀ params result, M.Exec adjusts ok f params (.returned result) →
    ∃ a, M.kind a = .argument f i ∧ M.isPointer a = true
  derived : ∀ params result, M.Exec adjusts ok f params (.returned result) →
    ReflTransGen adjusts (params i) result

/-- A pointer is derived from the parameter that it originates from. -/
def DerivedAs (f : F) (params : ℕ → P) (v : V) (p : P) : Prop :=
  ∀ g i, M.Originates aliases v g i → g = f ∧ ReflTransGen adjusts (params i) p

/-- **What holds in an activation**: all pointers, and those that are stored in variables that are
stored to once, are derived from the parameters that they originate from. -/
structure Invariant (f : F) (params : ℕ → P) (st : Activation V P) : Prop where
  values : ∀ v p, M.isPointer v = true → M.read f params st v = some p →
    M.DerivedAs adjusts aliases f params v p
  slots : ∀ slot value p, M.StoredOnce slot value → st.slots slot = some p →
    M.DerivedAs adjusts aliases f params value p

variable {M adjusts aliases} {ok : V → (ℕ → P) → P → Prop} {f : F} {params : ℕ → P}

omit [DecidableEq V] in
theorem read_of_not_argument {st : Activation V P} {v : V}
    (h : ∀ g i, M.kind v ≠ .argument g i) : M.read f params st v = st.values v := by
  unfold read
  split
  · next g i hkind => exact absurd hkind (h g i)
  · rfl

omit [DecidableEq V] in
theorem read_argument {st : Activation V P} {v : V} {g : F} {i : ℕ} (h : M.kind v = .argument g i) :
    M.read f params st v = if g = f then some (params i) else none := by
  simp [read, h]

/-- It holds at the beginning. -/
theorem Invariant.entry (hM : M.Verified) {st : Activation V P}
    (hvalues : ∀ v, M.IsInstruction v → st.values v = none) (hslots : ∀ slot, st.slots slot = none) :
    M.Invariant adjusts aliases f params st := by
  refine ⟨fun v p _ hread => ?_, fun slot value p _ hslot => ?_⟩
  · by_cases harg : ∃ g i, M.kind v = .argument g i
    · obtain ⟨g, i, hkind⟩ := harg
      rw [read_argument hkind] at hread
      split_ifs at hread with hg
      subst hg
      rintro g' i' horigin
      rcases horigin.cases with hkind' | ⟨w, hbased, -⟩
      · obtain ⟨rfl, rfl⟩ := ValueKind.argument.inj (hkind.symm.trans hkind')
        obtain rfl := Option.some.inj hread
        exact ⟨rfl, .refl⟩
      · cases hbased with
        | looks hlooks => simpa [hkind] using hM.looks_kind _ _ hlooks
        | call hcall => simp [hkind] at hcall
        | load hload => simp [hkind] at hload
    · push Not at harg
      rw [read_of_not_argument harg] at hread
      have hv : ¬ M.IsInstruction v := fun hv => by simp [hvalues v hv] at hread
      exact fun g i horigin => absurd horigin (not_originates_constant hM hv harg g i)
  · simp [hslots] at hslot

/-- **A step keeps it**, if the result is derived from what the call returns. -/
theorem Invariant.step (hM : M.Verified) {st st' : Activation V P} {inst : V} {result : P}
    (h : M.Invariant adjusts aliases f params st)
    (hstep : M.Steps adjusts f params st inst result st')
    (hcall : ∀ site g i arg, M.kind inst = .call site → site.directCallee = some g →
      aliases g = some i → site.args[i]? = some arg → M.isPointer arg = true ∧
        ∃ p, M.read f params st arg = some p ∧ ReflTransGen adjusts p result) :
    M.Invariant adjusts aliases f params st' := by
  have hresult : M.isPointer inst = true → (∀ g i, M.kind inst ≠ .argument g i) →
      M.DerivedAs adjusts aliases f params inst result := by
    intro hpointer harg g i horigin
    have hfrom : ∀ w, M.Originates aliases w g i → M.isPointer w = true →
        (∃ p, M.read f params st w = some p ∧ ReflTransGen adjusts p result) →
        g = f ∧ ReflTransGen adjusts (params i) result := by
      rintro w hw hwpointer ⟨p, hread, hderived⟩
      obtain ⟨rfl, hp⟩ := h.values w p hwpointer hread g i hw
      exact ⟨rfl, hp.trans hderived⟩
    rcases horigin.cases with hkind | ⟨w, hbased, hw⟩
    · exact absurd hkind (harg g i)
    · cases hbased with
      | looks hlooks =>
        obtain ⟨hwpointer, hread⟩ := hstep.yields.operand w hlooks hpointer
        exact hfrom w hw hwpointer hread
      | call hkind hcallee halias hargs =>
        obtain ⟨hwpointer, hread⟩ := hcall _ _ _ w hkind hcallee halias hargs
        exact hfrom w hw hwpointer hread
      | @load pointer hload honce =>
        by_cases hself : w = M.stripPointerCasts pointer
        · obtain ⟨site, -, -, halloca, -⟩ := honce
          rw [hself] at hw
          exact absurd hw (not_originates_alloca hM halloca g i)
        · have hslot := hstep.yields.load pointer hload hpointer (private_of_storedOnce honce hself)
          exact h.slots _ w result honce hslot g i hw
  refine ⟨fun v p hpointer hread => ?_, fun slot value p honce hslot => ?_⟩
  · by_cases harg : ∃ g i, M.kind v = .argument g i
    · obtain ⟨g, i, hkind⟩ := harg
      refine h.values v p hpointer ?_
      rw [read_argument hkind] at hread ⊢
      exact hread
    · push Not at harg
      rw [read_of_not_argument harg, hstep.values] at hread
      by_cases hv : v = inst
      · subst hv
        rw [Function.update_self] at hread
        rw [← Option.some.inj hread]
        exact hresult hpointer harg
      · rw [Function.update_of_ne hv, ← read_of_not_argument harg] at hread
        exact h.values v p hpointer hread
  · by_cases hself : value = slot
    · obtain ⟨site, -, -, halloca, -⟩ := honce
      rw [hself]
      exact fun g i horigin => absurd horigin (not_originates_alloca hM halloca g i)
    · have hprivate := private_of_storedOnce honce hself
      by_cases hstores : ∃ value', M.Stores inst slot value'
      · obtain ⟨value', hstores⟩ := hstores
        obtain rfl := eq_of_stores hM honce hprivate hstores
        have hpointer : M.isPointer value' = true := by
          obtain ⟨-, -, -, -, -, -, hstrip⟩ := honce
          exact hM.strip_pointer value' hstrip
        rw [hstep.stored slot value' hprivate hstores hpointer] at hslot
        exact h.values value' p hpointer hslot
      · push Not at hstores
        rcases hstep.kept slot hprivate hstores with hsame | hnone
        · exact h.slots slot value p honce (hsame.symm.trans hslot)
        · rw [hnone] at hslot
          cases hslot

/-- **Executions keep it**, if the aliases are right and no call returns a copy. -/
theorem Invariant.of_exec (hM : M.Verified)
    (hok : ∀ inst passed result, ok inst passed result → M.NotCopied adjusts inst passed result)
    (haliases : ∀ g i, aliases g = some i → M.RightAlias adjusts ok g i) {st : Activation V P}
    (h : M.Exec adjusts ok f params (.running st)) : M.Invariant adjusts aliases f params st := by
  generalize hout : Outcome.running st = out at h
  induction h generalizing st with
  | entry hvalues hslots =>
    cases hout
    exact .entry hM hvalues hslots
  | step hrun hdeclared hstep ih =>
    cases hout
    refine (ih rfl).step hM hstep fun site g i arg hkind hcallee halias _ => ?_
    have hdefined := (haliases g i halias).defined
    simp [hdeclared site g hkind hcallee] at hdefined
  | @call _ g _ passed _ _ inst site result hrun hkind hcallee hdefined hpasses hreturns hresult hstep
      ih _ =>
    cases hout
    refine (ih rfl).step hM hstep fun site' g' i arg hkind' hcallee' halias harg => ?_
    obtain rfl := ValueKind.call.inj (hkind.symm.trans hkind')
    obtain rfl := Option.some.inj (hcallee.symm.trans hcallee')
    obtain ⟨-, hpointer, hderived⟩ := haliases g i halias
    obtain ⟨a, ha, hapointer⟩ := hpointer passed result hreturns
    obtain ⟨hsame, htype⟩ := hpasses i arg harg
    refine ⟨htype a ha hapointer, passed i, hsame ?_, hderived passed result hreturns⟩
    by_contra hcopied
    exact hok inst passed result hresult i (by simpa using hcopied) (hderived passed result hreturns)
  | ret => cases hout

omit [DecidableEq F] in
/-- What the loop over the returned values finds is the argument that each of them originates
from. -/
theorem originates_of_commonArgument (hM : M.Verified) {values : List (Option V)}
    {candidate : Option ℕ} {i : ℕ} (h : M.commonArgument aliases values candidate = some i) :
    (∀ j, candidate = some j → j = i) ∧ ∀ v, some v ∈ values →
      M.isPointer v = true ∧ ∃ g, M.Originates aliases v g i ∧
        ∃ a, M.kind a = .argument g i ∧ M.isPointer a = true := by
  induction values generalizing candidate with
  | nil => exact ⟨fun j hj => Option.some.inj (hj.symm.trans h), by simp⟩
  | cons value rest ih =>
    cases value with
    | none => simp [commonArgument] at h
    | some retVal =>
      rw [commonArgument] at h
      have hpointer : M.isPointer retVal = true := by
        by_contra hnot
        simp [hnot] at h
      rw [if_neg (by simp [hpointer])] at h
      split at h
      · next g argNo hbase =>
        have hbasePointer : M.isPointer (M.base aliases retVal) = true := by
          by_contra hnot
          simp [hnot] at h
        rw [if_neg (by simp [hbasePointer])] at h
        have hhere : ∀ j, j = argNo → j = i → M.isPointer retVal = true ∧
            ∃ g, M.Originates aliases retVal g i ∧
              ∃ a, M.kind a = .argument g i ∧ M.isPointer a = true := by
          rintro j rfl rfl
          exact ⟨hpointer, g, originates_resolve hM hbase, _, hbase, hbasePointer⟩
        cases candidate with
        | none =>
          obtain ⟨hsame, hrest⟩ := ih h
          refine ⟨by simp, fun v hv => ?_⟩
          rcases List.mem_cons.mp hv with heq | hv
          · obtain rfl := Option.some.inj heq
            exact hhere argNo rfl (hsame argNo rfl)
          · exact hrest v hv
        | some other =>
          simp only at h
          split_ifs at h with hother
          obtain ⟨hsame, hrest⟩ := ih h
          refine ⟨hsame, fun v hv => ?_⟩
          rcases List.mem_cons.mp hv with heq | hv
          · obtain rfl := Option.some.inj heq
            exact hhere other (not_not.mp hother) (hsame other rfl)
          · exact hrest v hv
      · cases h

/-- **An alias that is inferred** from right ones is right. -/
theorem rightAlias_of_infer (hM : M.Verified)
    (hok : ∀ inst passed result, ok inst passed result → M.NotCopied adjusts inst passed result)
    (haliases : ∀ g i, aliases g = some i → M.RightAlias adjusts ok g i) {f : F} {i : ℕ}
    (hdefined : (M.function f).isDeclaration = false)
    (h : M.inferReturnedPointerArgAlias aliases f = some i) : M.RightAlias adjusts ok f i := by
  unfold inferReturnedPointerArgAlias at h
  split_ifs at h
  obtain ⟨-, hvalues⟩ := originates_of_commonArgument hM h
  have hreturned : ∀ params result, M.Exec adjusts ok f params (.returned result) →
      (∃ a, M.kind a = .argument f i ∧ M.isPointer a = true) ∧
        ReflTransGen adjusts (params i) result := by
    intro params result hexec
    cases hexec with
    | @ret _ _ st v _ hrun hmem hread =>
      obtain ⟨hpointer, g, horigin, hargument⟩ := hvalues v hmem
      have hinv := Invariant.of_exec hM hok haliases hrun
      obtain ⟨rfl, hderived⟩ := hinv.values v result hpointer hread g i horigin
      exact ⟨hargument, hderived⟩
  exact ⟨hdefined, fun params result h => (hreturned params result h).1,
    fun params result h => (hreturned params result h).2⟩

/-! ## Sweeps -/

/-- One function of a sweep keeps all aliases right. -/
theorem rightAlias_updateAlias (hM : M.Verified)
    (hok : ∀ inst passed result, ok inst passed result → M.NotCopied adjusts inst passed result)
    {state : (F → Option ℕ) × Bool}
    (h : ∀ g i, state.1 g = some i → M.RightAlias adjusts ok g i) (f : F) :
    ∀ g i, (M.updateAlias state f).1 g = some i → M.RightAlias adjusts ok g i := by
  unfold updateAlias
  split_ifs with hdeclared
  · exact h
  · have hset : ∀ inferred, M.inferReturnedPointerArgAlias state.1 f = inferred →
        ∀ g i, Function.update state.1 f inferred g = some i → M.RightAlias adjusts ok g i := by
      rintro inferred hinferred g i hg
      by_cases hf : g = f
      · subst hf
        rw [Function.update_self] at hg
        exact rightAlias_of_infer hM hok h (by simpa using hdeclared) (hinferred.trans hg)
      · rw [Function.update_of_ne hf] at hg
        exact h g i hg
    split
    · exact h
    · next hinferred _ => exact hset none hinferred
    · next inferred hinferred _ => exact hset (some inferred) hinferred
    · next inferred _ hinferred _ =>
      split_ifs
      · exact hset (some inferred) hinferred
      · exact h

/-- A sweep keeps them right. -/
theorem rightAlias_sweep (hM : M.Verified)
    (hok : ∀ inst passed result, ok inst passed result → M.NotCopied adjusts inst passed result)
    {aliases : F → Option ℕ} (h : ∀ g i, aliases g = some i → M.RightAlias adjusts ok g i) :
    ∀ g i, (M.sweep aliases).1 g = some i → M.RightAlias adjusts ok g i := by
  unfold sweep
  have hstart : ∀ g i, (aliases, false).1 g = some i → M.RightAlias adjusts ok g i := h
  generalize (aliases, false) = state at hstart ⊢
  induction M.functions generalizing state with
  | nil => exact hstart
  | cons f functions ih =>
    exact ih (M.updateAlias state f) (rightAlias_updateAlias hM hok hstart f)

/-- All aliases are right after any number of sweeps. -/
theorem rightAlias_sweeps (hM : M.Verified)
    (hok : ∀ inst passed result, ok inst passed result → M.NotCopied adjusts inst passed result)
    (guard : ℕ) {aliases : F → Option ℕ}
    (h : ∀ g i, aliases g = some i → M.RightAlias adjusts ok g i) :
    ∀ g i, M.sweeps guard aliases g = some i → M.RightAlias adjusts ok g i := by
  induction guard generalizing aliases with
  | zero => exact h
  | succ guard ih =>
    have hsweep := rightAlias_sweep hM hok h
    intro g i hg
    rw [sweeps] at hg
    split_ifs at hg
    · exact ih hsweep g i hg
    · exact hsweep g i hg

/-- **An alias is right** for each execution in which no call returns a pointer that is derived from
a copied argument: the pointer that the function returns is derived from the parameter.

**Proof sketch.** At any time, each alias is right: it has been inferred from right ones. By
induction on an execution, each pointer that resolves to a parameter is derived from it: a variable
that is stored to once holds the one pointer that is stored, since its address goes nowhere, and a
call returns what is derived from the argument. -/
theorem derived_of_returned (hM : M.Verified) {f : F} {i : ℕ}
    (halias : M.buildReturnedPointerArgAliases f = some i) {params : ℕ → P} {result : P}
    (h : M.Exec adjusts (M.NotCopied adjusts) f params (.returned result)) :
    ReflTransGen adjusts (params i) result :=
  (rightAlias_sweeps hM (fun _ _ _ => id) 32 (by simp) f i halias).derived params result h

end Derived

/-! ## A copied argument -/

section Copied

/-- The example has three values. -/
theorem neZero_three : NeZero 3 := ⟨three_ne_zero⟩

attribute [local instance] neZero_three

/-- The call of `own`, without attributes. -/
def passedCall : CallSite (Fin 3) Bool :=
  ⟨[1], some false, fun _ => false, fun _ => false, false, [], false, []⟩

/-- The values of `S *own(S s) { return &s; }` and `S *other(S *p) { return own(*p); }`: the two
arguments, and the call. -/
def passedKind : Fin 3 → ValueKind (Fin 3) Bool
  | 0 => .argument false 0
  | 1 => .argument true 0
  | 2 => .call passedCall

/-- The module of these functions, with the argument of the call passed as it is, or copied. -/
def passing (copies : Bool) : ReturnModule (Fin 3) Bool where
  kind := passedKind
  name _ := []
  isPointer _ := true
  stripPointerCasts v := v
  getUnderlyingObject v := v
  function _ := ⟨[], false, 1, fun _ => false⟩
  instructions f := if f then [2] else []
  shouldAnalyze _ := true
  modelSaysNoEscapeArg _ _ := false
  returnedArgAliases _ := none
  functions := [false, true]
  users v := if v = 1 then [2] else []
  returnsPointer _ := true
  returnValues f := if f then [some 2] else [some 0]
  castOperand _ := none
  isByVal _ _ := copies

/-- A pointer into the same object. -/
def SameObject (p q : ℕ × ℤ) : Prop := p.1 = q.1

theorem sameObject_of_derived {p q : ℕ × ℤ} (h : ReflTransGen SameObject p q) : p.1 = q.1 := by
  induction h with
  | refl => rfl
  | tail _ hstep ih => exact ih.trans hstep

/-- Nothing is looked through. -/
theorem not_looksThrough (copies : Bool) (v w : Fin 3) : ¬ (passing copies).LooksThrough v w := by
  intro h
  cases h with
  | gep hkind => fin_cases v <;> cases hkind
  | cast hcast => cases hcast
  | returned hkind _ hattr =>
    fin_cases v <;> cases hkind
    simp [ReturnsArg, passing, passedCall] at hattr

/-- LLVM guarantees what is asked for. -/
theorem passing_verified (copies : Bool) : (passing copies).Verified where
  strip _ := .refl
  underlying _ := .refl
  strip_pointer _ h := h
  looks_kind v w h := absurd h (not_looksThrough copies v w)
  looks_user v w h := absurd h (not_looksThrough copies v w)
  store_user inst value pointer h := by fin_cases inst <;> cases h
  constant v w _ h := absurd h (not_looksThrough copies v w)
  instruction v := by
    fin_cases v
    · trivial
    · trivial
    · exact ⟨true, List.mem_singleton_self _⟩

/-- The aliases: both functions return their argument. -/
theorem passing_aliases (copies : Bool) :
    (passing copies).buildReturnedPointerArgAliases true = some 0 := by
  cases copies <;> decide

/-- At the beginning, nothing is known. -/
def unknownPointers : Activation (Fin 3) (ℕ × ℤ) := ⟨fun _ => none, fun _ => none⟩

theorem passing_start (copies : Bool) (ok : Fin 3 → (ℕ → ℕ × ℤ) → ℕ × ℤ → Prop) (f : Bool)
    (params : ℕ → ℕ × ℤ) :
    (passing copies).Exec SameObject ok f params (.running unknownPointers) :=
  .entry (fun _ _ => rfl) fun _ => rfl

/-- The first function returns its parameter. -/
theorem passing_own (copies : Bool) (ok : Fin 3 → (ℕ → ℕ × ℤ) → ℕ × ℤ → Prop)
    (params : ℕ → ℕ × ℤ) :
    (passing copies).Exec SameObject ok false params (.returned (params 0)) :=
  .ret (v := 0) (passing_start copies ok false params) (List.mem_singleton_self _) rfl

/-- So the other one returns what it passes. -/
theorem passing_other (copies : Bool) (ok : Fin 3 → (ℕ → ℕ × ℤ) → ℕ × ℤ → Prop)
    (params passed : ℕ → ℕ × ℤ) (hpassed : copies = false → passed = params)
    (hok : ok 2 passed (passed 0)) :
    (passing copies).Exec SameObject ok true params (.returned (passed 0)) := by
  have hprivate : ∀ slot, ¬ (passing copies).Private slot := by
    rintro slot ⟨⟨site, hkind⟩, -⟩
    fin_cases slot <;> cases hkind
  have hpasses : (passing copies).Passes true params unknownPointers 2 passedCall false passed := by
    rintro (_ | i) arg harg
    · obtain rfl : (1 : Fin 3) = arg := Option.some.inj harg
      refine ⟨fun hcopies => ?_, fun _ _ _ => rfl⟩
      rw [hpassed hcopies]
      rfl
    · cases harg
  have hstep : (passing copies).Steps SameObject true params unknownPointers 2 (passed 0)
      ⟨Function.update (fun _ => none) 2 (some (passed 0)), fun _ => none⟩ := by
    refine ⟨List.mem_singleton_self _, ⟨?_, ?_⟩, rfl, ?_, ?_⟩
    · exact fun w h => absurd h (not_looksThrough copies 2 w)
    · rintro pointer ⟨⟩
    · exact fun slot _ h => absurd h (hprivate slot)
    · exact fun slot h => absurd h (hprivate slot)
  have hcall := Exec.call (passing_start copies ok true params) rfl rfl rfl hpasses
    (passing_own copies ok passed) hok hstep
  exact .ret (v := 2) hcall (List.mem_singleton_self _) rfl

/-- The theorem, for an argument that is passed as it is. -/
theorem derived_of_returned_passed :
    ReflTransGen SameObject ((fun _ => (0, 0) : ℕ → ℕ × ℤ) 0) (0, 0) :=
  derived_of_returned (passing_verified false) (passing_aliases false)
    (passing_other false _ (fun _ => (0, 0)) (fun _ => (0, 0)) (fun _ => rfl)
      (fun _ h => by cases h))

/-- **An alias is not always right**: what is returned is the address of the copy. -/
theorem not_soundAliases_copied : ¬ (passing true).SoundAliases SameObject := by
  intro h
  have hreturned := passing_other true (fun _ _ _ => True) (fun _ => (0, 0)) (fun _ => (1, 0))
    (by simp) trivial
  have hsame := sameObject_of_derived (h true 0 (passing_aliases true) _ _ hreturned)
  exact absurd hsame (by decide)

end Copied

end ReturnModule

end StackAnalyzer.Escape
