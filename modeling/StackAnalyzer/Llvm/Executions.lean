import StackAnalyzer.Llvm.Ir

set_option relaxedAutoImplicit false
set_option autoImplicit false

/-!
# Executions of functions

What happens when a function runs, as far as the comparisons and casts of its integers go: a run
executes the instructions of a block in order and goes on with a successor, and it remembers the
value that every instruction had. Instructions other than comparisons may have any value, so each
real run is one of these. A cast is not executed by itself: in SSA form it is never older than its
operand, so it has the value of its operand, cast.

## Main definitions

* `StackAnalyzer.Llvm.Reads` — the value of an operand.
* `StackAnalyzer.Llvm.Execution` — the runs of a function.
* `StackAnalyzer.Llvm.DependsOn` — what a value is cast from.

## Main results

* `StackAnalyzer.Llvm.Execution.evaluates` — every event of a run has the value of its instruction.
* `StackAnalyzer.Llvm.reads_of_untouched` — a value stays until something it is cast from is
  executed again.
-/

namespace StackAnalyzer.Llvm

variable {F V B : Type*} (mod : Module F V B)

/-! ## Operands -/

/-- The number of bits of a value. -/
def Module.bitWidth (v : V) : ℕ :=
  match mod.value v with
  | .constantInt width _ => width
  | _ =>
    match mod.type v with
    | .int width => width.val
    | _ => 64

/-- The signed number that the low bits of a number are. -/
def signedAt (width : ℕ) (x : ℤ) : ℤ := (BitVec.ofInt width x).toInt

/-- A value that is kept: no constant, and no cast between integers. -/
def Module.IsKept (v : V) : Prop :=
  match mod.value v with
  | .constantInt _ _ | .cast .sext _ | .cast .zext _ | .cast .trunc _ => False
  | _ => True

/-- The value of an operand, with the values that are kept. -/
inductive Reads (env : V → ℤ) : V → ℤ → Prop
  | constant {v : V} {width : ℕ} {c : BitVec width} :
      mod.value v = .constantInt width c → Reads env v c.toInt
  | sext {v operand : V} {x : ℤ} :
      mod.value v = .cast .sext operand → Reads env operand x →
      Reads env v (signedAt (mod.bitWidth operand) x)
  | zext {v operand : V} {x : ℤ} :
      mod.value v = .cast .zext operand → Reads env operand x →
      Reads env v (BitVec.ofInt (mod.bitWidth operand) x).toNat
  | trunc {v operand : V} {x : ℤ} :
      mod.value v = .cast .trunc operand → Reads env operand x → Reads env v x
  | kept {v : V} : mod.IsKept v → Reads env v (env v)

/-- What a value is cast from. -/
def DependsOn (v w : V) : Prop :=
  Relation.ReflTransGen
    (fun v operand => ∃ op, mod.value v = .cast op operand) v w

variable {mod}

/-- A value depends only on what it is cast from. -/
theorem Reads.congr {env env' : V → ℤ} {v : V} {x : ℤ} (h : Reads mod env v x)
    (henv : ∀ w, DependsOn mod v w → env w = env' w) : Reads mod env' v x := by
  induction h with
  | constant hvalue => exact .constant hvalue
  | sext hvalue _ ih => exact .sext hvalue (ih fun w hw => henv w (.head ⟨_, hvalue⟩ hw))
  | zext hvalue _ ih => exact .zext hvalue (ih fun w hw => henv w (.head ⟨_, hvalue⟩ hw))
  | trunc hvalue _ ih => exact .trunc hvalue (ih fun w hw => henv w (.head ⟨_, hvalue⟩ hw))
  | kept hkept =>
    rw [henv _ .refl]
    exact .kept hkept

/-- The value of an operand is unique. -/
theorem Reads.unique {env : V → ℤ} {v : V} {x y : ℤ} (h : Reads mod env v x)
    (h' : Reads mod env v y) : x = y := by
  induction h generalizing y with
  | constant hvalue =>
    cases h' with
    | constant hvalue' =>
      have heq := hvalue.symm.trans hvalue'
      injection heq with hwidth hbits
      subst hwidth
      rw [eq_of_heq hbits]
    | sext hvalue' | zext hvalue' | trunc hvalue' =>
      exact absurd (hvalue.symm.trans hvalue') (by simp)
    | kept hkept => simp [Module.IsKept, hvalue] at hkept
  | sext hvalue _ ih =>
    cases h' with
    | sext hvalue' h' =>
      obtain rfl : _ = _ := by simpa using hvalue.symm.trans hvalue'
      rw [ih h']
    | constant hvalue' | zext hvalue' | trunc hvalue' =>
      exact absurd (hvalue.symm.trans hvalue') (by simp)
    | kept hkept => simp [Module.IsKept, hvalue] at hkept
  | zext hvalue _ ih =>
    cases h' with
    | zext hvalue' h' =>
      obtain rfl : _ = _ := by simpa using hvalue.symm.trans hvalue'
      rw [ih h']
    | constant hvalue' | sext hvalue' | trunc hvalue' =>
      exact absurd (hvalue.symm.trans hvalue') (by simp)
    | kept hkept => simp [Module.IsKept, hvalue] at hkept
  | trunc hvalue _ ih =>
    cases h' with
    | trunc hvalue' h' =>
      obtain rfl : _ = _ := by simpa using hvalue.symm.trans hvalue'
      exact ih h'
    | constant hvalue' | sext hvalue' | zext hvalue' =>
      exact absurd (hvalue.symm.trans hvalue') (by simp)
    | kept hkept => simp [Module.IsKept, hvalue] at hkept
  | kept hkept =>
    cases h' with
    | kept _ => rfl
    | constant hvalue' | sext hvalue' | zext hvalue' | trunc hvalue' =>
      simp [Module.IsKept, hvalue'] at hkept

/-! ## Runs -/

section Runs

variable [DecidableEq V]

/-- The values after some events, the last one first. -/
def valuesAfter (start : V → ℤ) : List (V × ℤ) → V → ℤ
  | [] => start
  | event :: earlier => Function.update (valuesAfter start earlier) event.1 event.2

/-- The result of a comparison. -/
def compareBits (pred : Predicate) (width : ℕ) (x y : ℤ) : ℤ :=
  if pred.holds (BitVec.ofInt width x) (BitVec.ofInt width y) then 1 else 0

variable (mod) in
/-- An instruction may have some value; a comparison has its result. -/
def Evaluates (env : V → ℤ) (inst : V) (result : ℤ) : Prop :=
  match mod.value inst with
  | .icmp pred op0 op1 =>
    ∃ x y, Reads mod env op0 x ∧ Reads mod env op1 y ∧
      result = compareBits pred (mod.bitWidth op0) x y
  | _ => True

variable (mod) in
/-- Where a run goes on after the last instruction of a block. -/
def GoesTo (env : V → ℤ) (block : B) (last : V) (next : B) : Prop :=
  match mod.value last with
  | .br cond ifTrue ifFalse =>
    ∃ x, Reads mod env cond x ∧
      next = if signedAt (mod.bitWidth cond) x = 0 then ifFalse else ifTrue
  | _ => next ∈ mod.successors block

variable (mod) in
/-- **The runs of a function**: the block, the instructions of it that are left, and all events, the
last one first. -/
inductive Execution (f : F) (start : V → ℤ) : B → List V → List (V × ℤ) → Prop
  | entry {block : B} : (mod.blocks f).head? = some block →
      Execution f start block (mod.instructions block) []
  | step {block : B} {inst : V} {rest : List V} {trace : List (V × ℤ)} {result : ℤ} :
      Execution f start block (inst :: rest) trace →
      Evaluates mod (valuesAfter start trace) inst result →
      Execution f start block rest ((inst, result) :: trace)
  | jump {block next : B} {last : V} {result : ℤ} {trace : List (V × ℤ)} :
      Execution f start block [] ((last, result) :: trace) →
      GoesTo mod (valuesAfter start ((last, result) :: trace)) block last next →
      Execution f start next (mod.instructions next) ((last, result) :: trace)

variable {f : F} {start : V → ℤ}

/-- **The events of a run**: each has a value that its instruction may have after the events before
it. -/
theorem Execution.evaluates {block : B} {rest : List V} {trace : List (V × ℤ)}
    (h : Execution mod f start block rest trace) {recent earlier : List (V × ℤ)} {inst : V}
    {result : ℤ} (htrace : trace = recent ++ (inst, result) :: earlier) :
    Evaluates mod (valuesAfter start earlier) inst result := by
  induction h generalizing recent with
  | entry => simp at htrace
  | step hrun hvalue ih =>
    cases recent with
    | nil =>
      obtain ⟨heq, rfl⟩ := List.cons.inj htrace
      obtain ⟨rfl, rfl⟩ := Prod.mk.inj heq
      exact hvalue
    | cons event recent =>
      obtain ⟨-, htrace⟩ := List.cons.inj htrace
      exact ih htrace
  | jump _ _ ih => exact ih htrace

/-- What no event is about keeps its value. -/
theorem valuesAfter_append {recent earlier : List (V × ℤ)} {v : V}
    (h : ∀ event ∈ recent, event.1 ≠ v) :
    valuesAfter start (recent ++ earlier) v = valuesAfter start earlier v := by
  induction recent with
  | nil => rfl
  | cons event recent ih =>
    rw [List.cons_append, valuesAfter,
      Function.update_of_ne (h event List.mem_cons_self).symm]
    exact ih fun event' hevent' => h event' (List.mem_cons_of_mem event hevent')

/-- **A value stays** until something that it is cast from is executed again. -/
theorem reads_of_untouched {recent earlier : List (V × ℤ)} {v : V} {x : ℤ}
    (h : ∀ event ∈ recent, ¬ DependsOn mod v event.1) :
    Reads mod (valuesAfter start (recent ++ earlier)) v x ↔
      Reads mod (valuesAfter start earlier) v x := by
  have hkeep : ∀ w, DependsOn mod v w →
      valuesAfter start (recent ++ earlier) w = valuesAfter start earlier w := by
    intro w hw
    refine valuesAfter_append fun event hevent heq => h event hevent ?_
    rw [heq]
    exact hw
  exact ⟨fun hreads => hreads.congr hkeep, fun hreads => hreads.congr fun w hw => (hkeep w hw).symm⟩

end Runs

end StackAnalyzer.Llvm
