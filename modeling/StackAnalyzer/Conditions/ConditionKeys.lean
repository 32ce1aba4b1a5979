import StackAnalyzer.Conditions.Determinism
import StackAnalyzer.Graph.Dominators
import StackAnalyzer.Llvm.Machine
import StackAnalyzer.Bounds.PredicateRanges

set_option relaxedAutoImplicit false
set_option autoImplicit false

/-!
# Keys of conditions

Conditions are compared by their keys: what is compared, without casts, where a load stands for the
pointer that it loads from. A comparison with zero has the key of the value that is compared,
whether it asks for zero or for anything else. Conditions that are evaluated one after the other have keys
one after the other.

## Main definitions

* `StackAnalyzer.Conditions.DuplicateModule` — what is read of a module.
* `StackAnalyzer.Conditions.DuplicateModule.valuesEquivalent` — values that are taken for the same.
* `StackAnalyzer.Conditions.DuplicateModule.buildConditionKey` — the key of a condition.
* `StackAnalyzer.Conditions.DuplicateModule.buildConditionSignature` — the keys of a chain of
  branches.
* `StackAnalyzer.Conditions.DuplicateModule.conditionSignaturesEquivalent` — conditions that are
  taken for the same.

## Main results

* `StackAnalyzer.Conditions.DuplicateModule.valuesEquivalentFrom_cases` — why two values are taken
  for the same.
* `StackAnalyzer.Conditions.DuplicateModule.key_of_buildConditionSignature` — the first key of a
  chain of branches.
-/

namespace StackAnalyzer.Conditions

open CrossTU Graph Llvm

/-! ## What is read -/

/-- The casts between pointers that `Operator` tells apart. -/
inductive PointerCast
  | bitCast | addrSpaceCast
  deriving DecidableEq

/-- `DebugLoc`. -/
structure DebugLoc (S : Type*) where
  line : ℕ
  column : ℕ
  directory : CppString
  filename : CppString
  scope : Option S

/-- What is read of a module: the module as the search for deterministic functions reads it, and
what the comparison of conditions asks besides. `gepOperator` and `castOperator` are those of
instructions and of constant expressions; `atomicPointer` is the pointer operand of an `atomicrmw`
or a `cmpxchg`; `less` is the order of addresses; `sourceFile` are the lines of a file that can be
opened. -/
structure DuplicateModule (F V B S : Type*) extends Llvm.Module F V B where
  determinism : Conditions.Module F V B
  isVarArg : F → Bool
  gepOperator : V → Option (V × List V)
  castOperator : V → Option (PointerCast × V)
  atomicPointer : V → Option V
  mayWriteToMemory : V → Bool
  pointerMayBeCaptured : V → Bool
  less : V → V → Bool
  isPotentiallyReachable : B → B → List B → Bool
  isInstructionReachable : V → V → Bool
  debugLoc : V → Option (DebugLoc S)
  sourceFile : CppString → Option (List CppString)

namespace DuplicateModule

variable {F V B S : Type*} [DecidableEq F] [DecidableEq V] [Fintype F] [Fintype V]
  (mod : DuplicateModule F V B S)

/-! ## Values that are taken for the same -/

section Values

/-- `isLikelyConstObserverCall`. -/
def isLikelyConstObserverCall (call : Llvm.CallBase V F) (callee : F) : Bool :=
  if mod.isVarArg callee then false
  else if !"_ZNK".toList.isPrefixOf (mod.functionName callee) then false
  else
    match call.args with
    | [] => false
    | this :: rest =>
      (mod.type this).isPointerTy && rest.all fun arg => !(mod.type arg).isPointerTy

/-- `isDeterministicConditionCall`. The answers for functions do not depend on what has been asked
before. -/
def isDeterministicConditionCall (call : Llvm.CallBase V F) : Bool :=
  match call.calledFunction with
  | none => false
  | some callee =>
    if mod.isDeclaration callee && isKnownDeterministicDeclaration mod.determinism callee then true
    else if (isFunctionDeterministic mod.determinism callee EarlyDfs.Cache.cleared).1 then true
    else mod.isLikelyConstObserverCall call callee

/-- `isa<ConstantInt>` of all indices, with the same values. -/
def sameIndices : List V → List V → Bool
  | [], [] => true
  | i :: is, j :: js =>
    match mod.value i, mod.value j with
    | .constantInt width bits, .constantInt width' bits' =>
      decide (width = width' ∧ bits.toNat = bits'.toNat) && sameIndices is js
    | _, _ => false
  | _, _ => false

/-- `valuesEquivalent` and `callsEquivalent`, at some depth, and with a bound that is never reached
before the depth is. -/
def valuesEquivalentFrom : ℕ → ℕ → V → V → Bool
  | 0, _, a, b => decide (a = b)
  | n + 1, depth, a, b =>
    if a = b then true
    else if 6 < depth then false
    else
      match mod.value a with
      | .call callA =>
        match mod.value b with
        | .call callB =>
          if callA.args.length ≠ callB.args.length then false
          else if callA.calledFunction = none ∨ callB.calledFunction = none ∨
              callA.calledFunction ≠ callB.calledFunction then false
          else if !mod.isDeterministicConditionCall callA ||
              !mod.isDeterministicConditionCall callB then false
          else
            (callA.args.zip callB.args).all fun args =>
              valuesEquivalentFrom n (depth + 2) (mod.stripCasts args.1) (mod.stripCasts args.2)
        | _ => false
      | .load pointerA =>
        match mod.value b with
        | .load pointerB =>
          valuesEquivalentFrom n (depth + 1) (mod.stripPointerCasts pointerA)
            (mod.stripPointerCasts pointerB)
        | _ => false
      | _ =>
        match mod.gepOperator a with
        | some (pointerA, indicesA) =>
          match mod.gepOperator b with
          | some (pointerB, indicesB) =>
            valuesEquivalentFrom n (depth + 1) (mod.stripPointerCasts pointerA)
              (mod.stripPointerCasts pointerB) && mod.sameIndices indicesA indicesB
          | none => false
        | none =>
          match mod.castOperator a, mod.castOperator b with
          | some (opA, operandA), some (opB, operandB) =>
            decide (opA = opB) && valuesEquivalentFrom n (depth + 1) operandA operandB
          | _, _ => false

/-- `valuesEquivalent`. -/
def valuesEquivalent (a b : V) : Bool := mod.valuesEquivalentFrom 8 0 a b

variable {mod}

omit [DecidableEq F] [DecidableEq V] [Fintype F] [Fintype V] in
/-- The same indices are constants. -/
theorem isConstantInt_of_sameIndices {is js : List V} (h : mod.sameIndices is js = true) :
    (∀ i ∈ is, (mod.value i).isConstantInt = true) ∧
      ∀ j ∈ js, (mod.value j).isConstantInt = true := by
  induction is generalizing js with
  | nil =>
    cases js with
    | nil => simp
    | cons j js => simp [sameIndices] at h
  | cons i is ih =>
    cases js with
    | nil => simp [sameIndices] at h
    | cons j js =>
      rw [sameIndices] at h
      split at h
      · next width bits width' bits' hi hj =>
        obtain ⟨his, hjs⟩ := ih (Bool.and_eq_true_iff.mp h).2
        exact ⟨List.forall_mem_cons.mpr ⟨by simp [hi, Value.isConstantInt], his⟩,
          List.forall_mem_cons.mpr ⟨by simp [hj, Value.isConstantInt], hjs⟩⟩
      · cases h

/-- **Why two values are taken for the same.** -/
theorem valuesEquivalentFrom_cases {n depth : ℕ} {a b : V}
    (h : mod.valuesEquivalentFrom (n + 1) depth a b = true) (hne : a ≠ b) :
    (∃ callA callB, mod.value a = .call callA ∧ mod.value b = .call callB ∧
      callA.args.length = callB.args.length ∧ ∀ args ∈ callA.args.zip callB.args,
        mod.valuesEquivalentFrom n (depth + 2) (mod.stripCasts args.1)
          (mod.stripCasts args.2) = true) ∨
    (∃ pointerA pointerB, mod.value a = .load pointerA ∧ mod.value b = .load pointerB ∧
      mod.valuesEquivalentFrom n (depth + 1) (mod.stripPointerCasts pointerA)
        (mod.stripPointerCasts pointerB) = true) ∨
    (∃ pointerA indicesA pointerB indicesB, mod.gepOperator a = some (pointerA, indicesA) ∧
      mod.gepOperator b = some (pointerB, indicesB) ∧
      mod.valuesEquivalentFrom n (depth + 1) (mod.stripPointerCasts pointerA)
        (mod.stripPointerCasts pointerB) = true ∧ mod.sameIndices indicesA indicesB = true) ∨
    ∃ op operandA operandB, mod.castOperator a = some (op, operandA) ∧
      mod.castOperator b = some (op, operandB) ∧
        mod.valuesEquivalentFrom n (depth + 1) operandA operandB = true := by
  rw [valuesEquivalentFrom, if_neg hne] at h
  split_ifs at h
  split at h
  · next callA hcallA =>
    split at h
    · next callB hcallB =>
      split_ifs at h with hlength hcallee hdeterministic
      exact Or.inl ⟨callA, callB, hcallA, hcallB, by simpa using hlength, List.all_eq_true.mp h⟩
    · cases h
  · next pointerA hloadA =>
    split at h
    · next pointerB hloadB => exact Or.inr (Or.inl ⟨pointerA, pointerB, hloadA, hloadB, h⟩)
    · cases h
  · split at h
    · next pointerA indicesA hgepA =>
      split at h
      · next pointerB indicesB hgepB =>
        obtain ⟨hpointers, hindices⟩ := Bool.and_eq_true_iff.mp h
        exact Or.inr (Or.inr (Or.inl
          ⟨pointerA, indicesA, pointerB, indicesB, hgepA, hgepB, hpointers, hindices⟩))
      · cases h
    · split at h
      · next opA operandA opB operandB hcastA hcastB =>
        obtain ⟨hop, hoperands⟩ := Bool.and_eq_true_iff.mp h
        obtain rfl : opA = opB := of_decide_eq_true hop
        exact Or.inr (Or.inr (Or.inr ⟨opA, operandA, operandB, hcastA, hcastB, hoperands⟩))
      · cases h

end Values

/-! ## Keys -/

section Keys

/-- `MemoryOperand`. -/
structure MemoryOperand (V : Type*) where
  ptr : V
  precise : Bool

/-- `ConditionKey`, with its kind. -/
inductive ConditionKey (V : Type*)
  | invalid
  | icmp (pred : Predicate) (lhs rhs : V) (memoryOperands : List (MemoryOperand V))
  | boolValue (value : V) (memoryOperands : List (MemoryOperand V))

/-- The memory operands of a key. -/
def ConditionKey.memoryOperands {V : Type*} : ConditionKey V → List (MemoryOperand V)
  | .invalid => []
  | .icmp _ _ _ memoryOperands | .boolValue _ memoryOperands => memoryOperands

/-- `isPrecisePointer`. -/
def isPrecisePointer (ptr : V) : Bool :=
  let base := mod.stripPointerCasts ptr
  (mod.value base).isAlloca && !mod.pointerMayBeCaptured base

/-- A memory operand. -/
def memoryOperand (pointer : V) : MemoryOperand V :=
  let ptr := mod.stripPointerCasts pointer
  ⟨ptr, mod.isPrecisePointer ptr⟩

/-- `canonicalizeOperand`, of a value without casts: what stands for it. -/
def canonicalOperand (v : V) : V :=
  match mod.value v with
  | .load pointer => mod.stripPointerCasts pointer
  | _ => v

/-- `canonicalizeOperand`: the memory operands. -/
def operandMemory (v : V) : List (MemoryOperand V) :=
  match mod.value v with
  | .load pointer => [mod.memoryOperand pointer]
  | .call call =>
    ((call.args.map mod.stripCasts).filter fun arg => (mod.type arg).isPointerTy).map
      mod.memoryOperand
  | _ => []

omit [DecidableEq F] [Fintype F] [Fintype V] in
/-- `dedupeMemoryOperands`: the first one for each pointer. -/
def dedupeMemoryOperands : List (MemoryOperand V) → List V → List (MemoryOperand V)
  | [], _ => []
  | mem :: mems, seen =>
    if mem.ptr ∈ seen then dedupeMemoryOperands mems seen
    else mem :: dedupeMemoryOperands mems (mem.ptr :: seen)

/-- A constant that the comparison of an integer with it leaves out. -/
def isTruthConstant (lhs : V) {width : ℕ} (constant : BitVec width) : Bool :=
  decide (constant.toNat = 0) ||
    (decide (constant.toNat = 1) && decide ((mod.type lhs).integerWidth.map (·.val) = some 1))

/-- `normalizeBoolComparison`: the value that is compared with zero. -/
def normalizeBoolComparison (pred : Predicate) (lhs rhs : V) : Option V :=
  if pred ≠ .eq ∧ pred ≠ .ne then none
  else
    match mod.value rhs with
    | .constantInt _ constant =>
      if (mod.type lhs).isIntegerTy && mod.isTruthConstant lhs constant then some lhs else none
    | _ =>
      match mod.value lhs with
      | .constantInt _ constant =>
        if (mod.type rhs).isIntegerTy && mod.isTruthConstant rhs constant then some rhs else none
      | _ => none

/-- `buildConditionKey`. -/
def buildConditionKey (cond : V) : ConditionKey V :=
  match mod.value cond with
  | .icmp pred op0 op1 =>
    let rawLhs := mod.stripCasts op0
    let rawRhs := mod.stripCasts op1
    match mod.normalizeBoolComparison pred rawLhs rawRhs with
    | some value =>
      .boolValue (mod.canonicalOperand value) (dedupeMemoryOperands (mod.operandMemory value) [])
    | none =>
      let lhs := mod.canonicalOperand rawLhs
      let rhs := mod.canonicalOperand rawRhs
      let memoryOperands :=
        dedupeMemoryOperands (mod.operandMemory rawLhs ++ mod.operandMemory rawRhs) []
      if mod.less rhs lhs then .icmp (Bounds.swappedPredicate pred) rhs lhs memoryOperands
      else .icmp pred lhs rhs memoryOperands
  | _ =>
    let raw := mod.stripCasts cond
    if (mod.type raw).isIntegerTy then
      .boolValue (mod.canonicalOperand raw) (dedupeMemoryOperands (mod.operandMemory raw) [])
    else .invalid

omit [DecidableEq F] [DecidableEq V] [Fintype F] [Fintype V] in
variable {mod} in
/-- What is compared with zero is compared with a constant. -/
theorem normalizeBoolComparison_cases {pred : Predicate} {lhs rhs v : V}
    (h : mod.normalizeBoolComparison pred lhs rhs = some v) :
    ((mod.value rhs).isConstantInt = true ∧ v = lhs) ∨
      (mod.value rhs).isConstantInt = false ∧ (mod.value lhs).isConstantInt = true ∧ v = rhs := by
  unfold normalizeBoolComparison at h
  split_ifs at h
  split at h
  · next width constant hrhs =>
    split_ifs at h
    exact Or.inl ⟨by simp [hrhs, Value.isConstantInt], (Option.some.inj h).symm⟩
  · next hrhs =>
    split at h
    · next width constant hlhs =>
      split_ifs at h
      refine Or.inr ⟨?_, by simp [hlhs, Value.isConstantInt], (Option.some.inj h).symm⟩
      cases hvalue : mod.value rhs with
      | constantInt width' bits => exact absurd hvalue (hrhs width' bits)
      | _ => rfl
    · cases h

/-- Both comparisons compare the same in the same order. -/
def sameOrder (predA predB : Predicate) (lhsA rhsA lhsB rhsB : V) : Bool :=
  decide (predA = predB) && mod.valuesEquivalent lhsA lhsB && mod.valuesEquivalent rhsA rhsB

/-- `conditionKeysEquivalent`. -/
def conditionKeysEquivalent : ConditionKey V → ConditionKey V → Bool
  | .icmp predA lhsA rhsA _, .icmp predB lhsB rhsB _ =>
    mod.sameOrder predA predB lhsA rhsA lhsB rhsB ||
      mod.sameOrder (Bounds.swappedPredicate predA) predB lhsA rhsA rhsB lhsB
  | .boolValue valueA _, .boolValue valueB _ => mod.valuesEquivalent valueA valueB
  | _, _ => false

end Keys

/-! ## Chains of branches -/

section Signatures

variable [DecidableEq B] [DecidableEq S]

/-- `ConditionAtom`. -/
structure ConditionAtom (V : Type*) where
  key : ConditionKey V
  polarity : Bool

/-- A conditional branch: its condition and its successors. -/
def conditionalBranch (branch : V) : Option (V × B × B) :=
  match mod.value branch with
  | .br cond ifTrue ifFalse => some (cond, ifTrue, ifFalse)
  | _ => none

/-- `getTerminator`, if it is a conditional branch. -/
def branchOfBlock (block : B) : Option V :=
  (mod.instructions block).getLast?.filter fun last => (mod.conditionalBranch last).isSome

/-- `haveCompatibleConditionScope`. -/
def haveCompatibleConditionScope (first second : V) : Bool :=
  match (mod.debugLoc first).bind DebugLoc.scope, (mod.debugLoc second).bind DebugLoc.scope with
  | some a, some b => decide (a = b)
  | _, _ => false

/-- `isShortCircuitContinuation`, for one of the successors: the next branch. -/
def shortCircuitContinuation (branch : V) (succ : B) : Option V :=
  if mod.predecessors succ ≠ [mod.parent branch] then none
  else (mod.branchOfBlock succ).filter (mod.haveCompatibleConditionScope branch)

/-- The loop of `buildConditionSignature`; empty if a key is invalid. -/
def signatureFrom : ℕ → List B → List (ConditionAtom V) → V → List (ConditionAtom V)
  | 0, _, sig, _ => sig
  | n + 1, seen, sig, cur =>
    if mod.parent cur ∈ seen then sig
    else
      match mod.conditionalBranch cur with
      | none => sig
      | some (cond, ifTrue, ifFalse) =>
        match mod.buildConditionKey cond with
        | .invalid => []
        | key =>
          match mod.shortCircuitContinuation cur ifTrue,
              mod.shortCircuitContinuation cur ifFalse with
          | some next, none =>
            signatureFrom n (mod.parent cur :: seen) (sig ++ [⟨key, true⟩]) next
          | none, some next =>
            signatureFrom n (mod.parent cur :: seen) (sig ++ [⟨key, false⟩]) next
          | _, _ => sig ++ [⟨key, true⟩]

/-- `buildConditionSignature`. -/
def buildConditionSignature (branch : V) : List (ConditionAtom V) :=
  mod.signatureFrom 16 [] [] branch

omit [DecidableEq B] [DecidableEq S] in
/-- `conditionSignaturesEquivalent`. -/
def conditionSignaturesEquivalent : List (ConditionAtom V) → List (ConditionAtom V) → Bool
  | [], [] => true
  | a :: as, b :: bs =>
    decide (a.polarity = b.polarity) && mod.conditionKeysEquivalent a.key b.key &&
      conditionSignaturesEquivalent as bs
  | _, _ => false

omit [DecidableEq F] [Fintype F] [Fintype V] [DecidableEq B] [DecidableEq S] in
/-- `collectSignatureMemoryOperands`. -/
def collectSignatureMemoryOperands (sig : List (ConditionAtom V)) : List (MemoryOperand V) :=
  dedupeMemoryOperands (sig.flatMap fun atom => atom.key.memoryOperands) []

variable {mod}

omit [DecidableEq F] [Fintype F] in
/-- The loop adds keys at the end, if no key is invalid. -/
theorem prefix_signatureFrom (n : ℕ) (seen : List B) (sig : List (ConditionAtom V)) (cur : V) :
    mod.signatureFrom n seen sig cur = [] ∨ sig <+: mod.signatureFrom n seen sig cur := by
  induction n generalizing seen sig cur with
  | zero => exact Or.inr (List.prefix_refl sig)
  | succ n ih =>
    have hmore : ∀ atom next,
        mod.signatureFrom n (mod.parent cur :: seen) (sig ++ [atom]) next = [] ∨
          sig <+: mod.signatureFrom n (mod.parent cur :: seen) (sig ++ [atom]) next :=
      fun atom next => (ih _ _ next).imp_right (List.prefix_append sig [atom]).trans
    unfold signatureFrom
    split_ifs
    · exact Or.inr (List.prefix_refl sig)
    · split
      · exact Or.inr (List.prefix_refl sig)
      · split
        · exact Or.inl rfl
        · split
          · exact hmore _ _
          · exact hmore _ _
          · exact Or.inr (List.prefix_append sig _)

omit [DecidableEq F] [Fintype F] in
/-- The first key of a chain of branches is that of the condition. -/
theorem key_of_buildConditionSignature {branch cond : V} {ifTrue ifFalse : B}
    {atom : ConditionAtom V} {rest : List (ConditionAtom V)}
    (hbranch : mod.conditionalBranch branch = some (cond, ifTrue, ifFalse))
    (hsig : mod.buildConditionSignature branch = atom :: rest) :
    atom.key = mod.buildConditionKey cond := by
  have hfirst : ∀ n seen a next, mod.signatureFrom n seen [a] next = atom :: rest → a = atom := by
    intro n seen a next heq
    have hgrows : mod.signatureFrom n seen [a] next = [] ∨
        [a] <+: mod.signatureFrom n seen [a] next := prefix_signatureFrom n seen [a] next
    rcases hgrows with hnil | hprefix
    · rw [hnil] at heq
      cases heq
    · rw [heq] at hprefix
      exact (List.cons_prefix_cons.mp hprefix).1
  unfold buildConditionSignature signatureFrom at hsig
  simp only [List.not_mem_nil, if_false, hbranch] at hsig
  split at hsig
  · cases hsig
  · split at hsig
    · rw [← hfirst _ _ _ _ hsig]
    · rw [← hfirst _ _ _ _ hsig]
    · rw [← (List.cons.inj hsig).1]

end Signatures

end DuplicateModule

end StackAnalyzer.Conditions
