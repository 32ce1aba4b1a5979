import StackAnalyzer.Conditions.ConditionKeys
import StackAnalyzer.CompileCommands.CommandLine

set_option relaxedAutoImplicit false
set_option autoImplicit false

/-!
# Duplicate conditions

A condition in an `else` branch is a duplicate if a dominating branch has an equivalent condition,
with one successor that the branch is behind, if the source has an `else` between the two, and if
nothing in between writes what the condition reads. Only blocks behind the successor and on every
path to the branch are searched for such writes.

## Main definitions

* `StackAnalyzer.Conditions.hasElseBetween`, `StackAnalyzer.Conditions.detectIfConditionNegation` —
  what is read of the source text.
* `StackAnalyzer.Conditions.DuplicateModule.isInterferingWrite`,
  `StackAnalyzer.Conditions.DuplicateModule.hasInterveningWrites` — writes in between.
* `StackAnalyzer.Conditions.DuplicateModule.findDuplicate` — the dominating branch, and the
  successor.
* `StackAnalyzer.Conditions.DuplicateModule.analyzeDuplicateIfConditions` — the issues.

## Main results

* `StackAnalyzer.Conditions.DuplicateModule.findDuplicate_cases` — why a condition is reported.
-/

namespace StackAnalyzer.Conditions

open CrossTU Graph Llvm

/-! ## Source text -/

section Text

/-- `isWordChar`. -/
def isWordChar (c : Char) : Bool := c.isAlphanum || decide (c = '_')

/-- The loop of `stripLineComment`. -/
def stripCommentFrom (inString escape : Bool) : CppString → CppString
  | [] => []
  | [c] => [c]
  | c :: next :: rest =>
    if escape then c :: stripCommentFrom inString false (next :: rest)
    else if c = '\\' ∧ inString = true then c :: stripCommentFrom inString true (next :: rest)
    else if c = '"' then c :: stripCommentFrom (!inString) false (next :: rest)
    else if inString = false ∧ c = '/' ∧ next = '/' then []
    else c :: stripCommentFrom inString false (next :: rest)

/-- `stripLineComment`. -/
def stripLineComment (line : CppString) : CppString := stripCommentFrom false false line

/-- The loop of `lineHasElseToken`, with the character in front. -/
def hasElseFrom : Option Char → CppString → Bool
  | _, [] => false
  | before, 'e' :: 'l' :: 's' :: 'e' :: rest =>
    if before.all (fun c => !isWordChar c) && rest.head?.all (fun c => !isWordChar c) then true
    else hasElseFrom (some 'e') rest
  | _, c :: rest => hasElseFrom (some c) rest

/-- `lineHasElseToken`. -/
def lineHasElseToken (line : CppString) : Bool := hasElseFrom none line

/-- `hasElseBetween`. -/
def hasElseBetween (lines : List CppString) (startLine endLine endColumn : ℕ) : Bool :=
  if lines.isEmpty ∨ startLine = 0 ∨ endLine = 0 then false
  else
    let last := min (max startLine endLine) lines.length
    let first := min (min startLine endLine) last
    (List.range' first (last + 1 - first)).any fun lineNo =>
      let view := stripLineComment (lines.getD (lineNo - 1) [])
      lineHasElseToken
        (if lineNo = last ∧ 0 < endColumn ∧ endColumn - 1 < view.length then
          view.take (endColumn - 1) else view)

/-- The text up to the parenthesis that closes, or all of it, at some depth. -/
def untilClosed : ℕ → CppString → CppString
  | _, [] => []
  | depth, c :: rest =>
    if c = '(' then c :: untilClosed (depth + 1) rest
    else if c = ')' then if depth = 1 then [] else c :: untilClosed (depth - 1) rest
    else c :: untilClosed depth rest

/-- Some text stands in another one. -/
def hasText (text whole : CppString) : Bool := whole.tails.any fun rest => text.isPrefixOf rest

/-- `detectIfConditionNegation`: whether the condition is negated, if that is known. -/
def detectIfConditionNegation (lines : List CppString) (line column : ℕ) : Option Bool :=
  if line = 0 ∨ lines.length < line then none
  else
    let view := stripLineComment (lines.getD (line - 1) [])
    let probe := if 0 < column then min (column - 1) (view.length - 1) else view.length - 1
    -- `rfind`: what is left up to the last opening parenthesis
    let opened := (view.take (probe + 1)).reverse.dropWhile fun c => decide (c ≠ '(')
    if opened.isEmpty then none
    else
      let normalized := (untilClosed 1 (view.drop opened.length)).filter fun c =>
        !CompileCommands.isSpace c
      match normalized with
      | [] => none
      | '!' :: _ => some true
      | _ => if hasText "==".toList normalized || hasText "!=".toList normalized then none
        else some false

end Text

namespace DuplicateModule

variable {F V B S : Type*} [DecidableEq F] [DecidableEq V] [DecidableEq B] [DecidableEq S]
  [Fintype F] [Fintype V] (mod : DuplicateModule F V B S) (f : F)

/-! ## Locations -/

section Locations

/-- `SourceLocation`. -/
structure SourceLocation where
  path : CppString
  line : ℕ
  column : ℕ

/-- `getSourceLocation`. -/
def getSourceLocation (inst : V) : SourceLocation :=
  match mod.debugLoc inst with
  | none => ⟨mod.sourcePath f, 0, 0⟩
  | some loc =>
    ⟨if loc.filename.isEmpty then mod.sourcePath f
      else if loc.directory.isEmpty then loc.filename
      else loc.directory ++ '/' :: loc.filename, loc.line, loc.column⟩

/-- `getSourceLines`. -/
def getSourceLines (path : CppString) : Option (List CppString) :=
  if path.isEmpty then none else mod.sourceFile path

/-- The source has an `else` between the branches, and does not negate just one of the
conditions. -/
def sourceAllows (domLoc currentLoc : SourceLocation) : Bool :=
  if domLoc.path.isEmpty ∨ domLoc.line = 0 then false
  else if currentLoc.path.isEmpty ∨ currentLoc.path ≠ domLoc.path then false
  else
    match mod.getSourceLines currentLoc.path with
    | none => false
    | some lines =>
      hasElseBetween lines domLoc.line currentLoc.line currentLoc.column &&
        match detectIfConditionNegation lines domLoc.line domLoc.column,
          detectIfConditionNegation lines currentLoc.line currentLoc.column with
        | some domNegated, some currentNegated => decide (domNegated = currentNegated)
        | _, _ => true

end Locations

/-! ## Writes in between -/

section Writes

/-- `DT.dominates`. -/
def treeDominates (a b : B) : Bool :=
  match (mod.blocks f).head? with
  | none => false
  | some entry => dominates mod.successors ((mod.blocks f).length + 1) entry a b

/-- `isa<DbgInfoIntrinsic>`. -/
def isDbgInfo (inst : V) : Bool :=
  match mod.value inst with
  | .call call =>
    match call.intrinsic with
    | some (.dbgVariable _ _) | some .dbgInfo => true
    | _ => false
  | _ => false

/-- `isa<MemIntrinsic>`: the destination. -/
def memIntrinsicDest (call : Llvm.CallBase V F) : Option V :=
  match call.intrinsic with
  | some .memcpy | some .memmove | some .memset => call.args.head?
  | _ => none

/-- `isInterferingWrite`. -/
def isInterferingWrite (inst : V) (mem : MemoryOperand V) : Bool :=
  if !mod.mayWriteToMemory inst then false
  else
    match mod.value inst with
    | .store _ pointer => mod.valuesEquivalent (mod.stripPointerCasts pointer) mem.ptr
    | .call call =>
      match memIntrinsicDest call with
      | some dest => mod.valuesEquivalent (mod.stripPointerCasts dest) mem.ptr
      | none =>
        if !mem.precise then true
        else call.args.any fun arg => (mod.type arg).isPointerTy &&
          mod.valuesEquivalent (mod.stripPointerCasts arg) mem.ptr
    | _ =>
      match mod.atomicPointer inst with
      | some pointer => mod.valuesEquivalent (mod.stripPointerCasts pointer) mem.ptr
      | none => !mem.precise

/-- The operands that `collectConditionInstructions` goes on with. -/
def conditionOperands (branch v : V) : List V :=
  if (mod.value v).isInstruction && decide (mod.parent v = mod.parent branch) then mod.operands v
  else []

/-- `collectConditionInstructions`: whether an instruction is one of them. -/
def isConditionInstruction (branch inst : V) : Bool :=
  match mod.conditionalBranch branch with
  | none => false
  | some (cond, _, _) =>
    (mod.value inst).isInstruction && decide (mod.parent inst = mod.parent branch) &&
      reachFrom (mod.conditionOperands branch) (Fintype.card V + 1) cond inst

/-- An instruction is one that the search for writes would find in a block that it looks at. -/
def isFoundWrite (branch : V) (memoryOps : List (MemoryOperand V)) (inst : V) : Bool :=
  !mod.isConditionInstruction branch inst && !mod.isDbgInfo inst && mod.mayWriteToMemory inst &&
    mod.isInstructionReachable inst branch && memoryOps.any (mod.isInterferingWrite inst)

/-- The blocks that the search for writes looks at. -/
def looksAt (pathBlock atBlock block : B) : Bool :=
  mod.treeDominates f pathBlock block &&
    (decide (block = atBlock) || mod.treeDominates f block atBlock)

/-- `hasInterveningWrites`. -/
def hasInterveningWrites (pathBlock : B) (branch : V) (memoryOps : List (MemoryOperand V)) :
    Bool :=
  if memoryOps.isEmpty then false
  else
    (mod.blocks f).any fun block => mod.looksAt f pathBlock (mod.parent branch) block &&
      ((mod.instructions block).takeWhile fun inst => decide (inst ≠ branch)).any
        (mod.isFoundWrite branch memoryOps)

end Writes

/-! ## The search -/

section Search

/-- The dominators of a block besides itself, the nearest one first. -/
def dominators (block : B) : List B :=
  ((mod.blocks f).filter fun a => decide (a ≠ block) && mod.treeDominates f a block).insertionSort
    fun a a' => mod.treeDominates f a' a = true

/-- The successor of a dominating branch that a block is behind: exactly one of them. -/
def elsePathSuccessor (ifTrue ifFalse curBlock : B) : Option B :=
  match [ifTrue, ifFalse].filter fun succ => mod.treeDominates f succ curBlock with
  | [succ] => some succ
  | _ => none

/-- The body of the loop over the dominators: the branch and the successor, if the condition is a
duplicate because of it. -/
def duplicateBecauseOf (branch : V) (domBlock : B) : Option (V × B) :=
  let curBlock := mod.parent branch
  let curSig := mod.buildConditionSignature branch
  match mod.branchOfBlock domBlock with
  | none => none
  | some domTerm =>
    match mod.conditionalBranch domTerm with
    | none => none
    | some (_, ifTrue, ifFalse) =>
      match mod.elsePathSuccessor f ifTrue ifFalse curBlock with
      | none => none
      | some elsePathSucc =>
        let domSig := mod.buildConditionSignature domTerm
        if [ifTrue, ifFalse].any fun succ => decide (succ ≠ elsePathSucc) &&
            mod.isPotentiallyReachable succ curBlock [domBlock] then none
        else if domSig.isEmpty || !mod.conditionSignaturesEquivalent domSig curSig then none
        else if !mod.sourceAllows (mod.getSourceLocation f domTerm)
            (mod.getSourceLocation f branch) then none
        else if mod.hasInterveningWrites f elsePathSucc branch
            (collectSignatureMemoryOperands curSig) then none
        else some (domTerm, elsePathSucc)

/-- `findDuplicateElseCondition`: the dominating branch and the successor because of which a
condition is reported. -/
def findDuplicate (branch : V) : Option (V × B) :=
  match mod.conditionalBranch branch, (mod.blocks f).head? with
  | some _, some entry =>
    if !reachFrom mod.successors ((mod.blocks f).length + 1) entry (mod.parent branch) then none
    else if (mod.buildConditionSignature branch).isEmpty then none
    else (mod.dominators f (mod.parent branch)).findSome? (mod.duplicateBecauseOf f branch)
  | _, _ => none

variable {mod f}

omit [DecidableEq F] [DecidableEq V] [DecidableEq B] [DecidableEq S] [Fintype F] [Fintype V] in
/-- The branch of a block is its last instruction. -/
theorem branchOfBlock_eq_some {block : B} {d : V} (h : mod.branchOfBlock block = some d) :
    (mod.instructions block).getLast? = some d ∧ (mod.conditionalBranch d).isSome = true := by
  obtain ⟨hlast, hbranch⟩ := Option.filter_eq_some_iff.mp h
  exact ⟨hlast, hbranch⟩

omit [DecidableEq F] [DecidableEq V] [DecidableEq S] [Fintype F] [Fintype V] in
/-- The successor that is found is one of two. -/
theorem ne_of_elsePathSuccessor {ifTrue ifFalse curBlock s : B}
    (h : mod.elsePathSuccessor f ifTrue ifFalse curBlock = some s) : ifTrue ≠ ifFalse := by
  rintro rfl
  unfold elsePathSuccessor at h
  by_cases hdom : mod.treeDominates f ifTrue curBlock = true <;> simp [hdom] at h

/-- **Why a condition is reported**, because of a branch of another block that dominates it. -/
theorem findDuplicate_cases {branch d : V} {s : B} (h : mod.findDuplicate f branch = some (d, s)) :
    ∃ domBlock cond ifTrue ifFalse, domBlock ≠ mod.parent branch ∧
      mod.treeDominates f domBlock (mod.parent branch) = true ∧
      mod.branchOfBlock domBlock = some d ∧
      mod.conditionalBranch d = some (cond, ifTrue, ifFalse) ∧
      mod.elsePathSuccessor f ifTrue ifFalse (mod.parent branch) = some s ∧
      mod.buildConditionSignature d ≠ [] ∧
      mod.conditionSignaturesEquivalent (mod.buildConditionSignature d)
        (mod.buildConditionSignature branch) = true ∧
      mod.hasInterveningWrites f s branch
        (collectSignatureMemoryOperands (mod.buildConditionSignature branch)) = false := by
  unfold findDuplicate at h
  split at h
  · split_ifs at h
    obtain ⟨domBlock, hdominator, hbecause⟩ := List.exists_of_findSome?_eq_some h
    obtain ⟨-, hmem⟩ := List.mem_filter.mp ((List.perm_insertionSort _ _).mem_iff.mp hdominator)
    obtain ⟨hne, hdominates⟩ := Bool.and_eq_true_iff.mp hmem
    unfold duplicateBecauseOf at hbecause
    simp only at hbecause
    split at hbecause
    · cases hbecause
    · next domTerm hterm =>
      split at hbecause
      · cases hbecause
      · next cond ifTrue ifFalse hbranch =>
        split at hbecause
        · cases hbecause
        · next succ hsucc =>
          split_ifs at hbecause with hbypass hsig hsource hwrites
          obtain ⟨rfl, rfl⟩ := Prod.mk.inj (Option.some.inj hbecause)
          rw [Bool.not_eq_true, Bool.or_eq_false_iff, List.isEmpty_eq_false_iff,
            Bool.not_eq_false'] at hsig
          exact ⟨domBlock, cond, ifTrue, ifFalse, of_decide_eq_true hne, hdominates, hterm,
            hbranch, hsucc, hsig.1, hsig.2, Bool.eq_false_iff.mpr hwrites⟩
  · cases h

variable (mod f)

/-- `DuplicateIfConditionIssue`. -/
structure DuplicateIfConditionIssue (V : Type*) where
  funcName : CppString
  conditionInst : V

/-- `analyzeDuplicateIfConditions`, for the functions that should be analysed. -/
def analyzeDuplicateIfConditions (shouldAnalyze : F → Bool) : List (DuplicateIfConditionIssue V) :=
  (mod.functions.filter fun f => !mod.isDeclaration f && shouldAnalyze f).flatMap fun f =>
    (mod.blocks f).filterMap fun block =>
      ((mod.branchOfBlock block).filter fun branch => (mod.findDuplicate f branch).isSome).map
        fun branch => ⟨mod.functionName f, branch⟩

end Search

end DuplicateModule

end StackAnalyzer.Conditions
