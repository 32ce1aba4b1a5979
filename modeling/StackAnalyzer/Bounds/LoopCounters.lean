import StackAnalyzer.Bounds.StackBuffers
import StackAnalyzer.Llvm.Machine

set_option relaxedAutoImplicit false
set_option autoImplicit false

/-!
# Ranges of loop counters

The range of a loop counter behind the guard `counter != bound` goes from the initial value to the
bound, or from the bound to the initial value. Behind the guard, the counter never has the value of
the bound, so the range is always too large by this value.

## Main definitions

* `StackAnalyzer.Bounds.counterValues` — the values of a counter when a block is entered.
* `StackAnalyzer.Bounds.ExactRange` — a range is the smallest one around these values.
* `StackAnalyzer.Bounds.GuardedBy` — a block is entered only if the counter is not the bound.
* `StackAnalyzer.Bounds.FreshGuard` — a branch that ensures this.

## Main results

* `StackAnalyzer.Bounds.FreshGuard.guardedBy` — a block behind such a branch is guarded.
* `StackAnalyzer.Bounds.not_exactRange` — no range behind a guard is exact.
* `StackAnalyzer.Bounds.not_exactRange_loop` — the counter of a loop from zero to nine.
-/

namespace StackAnalyzer.Bounds

open Llvm Machine Smt

variable {F V B : Type*} [DecidableEq V] [DecidableEq B] (mod : Module F V B) (f : F)

/-! ## Exact ranges -/

section Values

variable (target : B) (key : V) (width : ℕ)

/-- The values of a counter with some number of bits whenever a block is entered, in all runs. -/
def counterValues : Set ℤ :=
  {x | ∃ st trace, ∃ bits : BitVec width, Run mod f target (mod.instructions target) st trace ∧
    st.memory key = ⟨width, bits⟩ ∧ bits.toInt = x}

/-- A block is entered only if the counter is not the bound. -/
def GuardedBy (boundValue : ℤ) : Prop :=
  ∀ x ∈ counterValues mod f target key width, x ≠ boundValue

/-- The smallest interval around some numbers. -/
structure IsSmallest (range : IntRange) (values : Set ℤ) : Prop where
  around : ∀ x ∈ values, range.lower ≤ x ∧ x ≤ range.upper
  smallest : ∀ lower upper, (∀ x ∈ values, lower ≤ x ∧ x ≤ upper) →
    lower ≤ range.lower ∧ range.upper ≤ upper

/-- **A range is exact**: it is the smallest one around all values of the counter, and the numbers
that it is computed from do not overflow. -/
structure ExactRange (condBlock : B) (boundValue : ℤ) (range : IntRange) : Prop where
  isSmallest : IsSmallest range (counterValues mod f target key width)
  no_overflow : ∀ initBlock initValue updateBlock stepValue,
    (mod.predecessors condBlock).foldl (collectGuardStore mod key) (some {}) =
        some ⟨some (initBlock, initValue), some (updateBlock, stepValue)⟩ →
      wrap64 (boundValue - initValue) = boundValue - initValue ∧
        wrap64 (initValue - boundValue) = initValue - boundValue ∧
        wrap64 (-stepValue) = -stepValue

end Values

/-! ## Guards -/

/-- **A branch that ensures that a counter is not the bound**: the only predecessor of the block
loads the counter, compares it with the bound and goes on with the block if it is another value.
Nothing may write the counter after it has been loaded. -/
structure FreshGuard (target condBlock : B) (key : V) {width : ℕ} (bound : BitVec width) :
    Prop where
  predecessors : mod.predecessors target = [condBlock]
  guard : ∃ before load between compare rest constant last ifFalse,
    mod.instructions condBlock = before ++ load :: (between ++ compare :: rest) ∧
      mod.value load = .load key ∧ mod.stripPointerCasts key = key ∧
      (mod.value key).isAlloca = true ∧ wordWidth mod load = some width ∧
      load ∉ between ∧ compare ∉ rest ∧
      (∀ inst ∈ between ++ compare :: rest, mayWrite mod key inst = false) ∧
      mod.value compare = .icmp .ne load constant ∧ mod.value constant = .constantInt width bound ∧
      (mod.instructions condBlock).getLast? = some last ∧
      mod.value last = .br compare target ifFalse ∧ target ≠ ifFalse

variable {mod f}

omit [DecidableEq B] in
/-- **Such a branch goes to the block** only if the counter is not the bound.

**Proof sketch.** Since the counter was loaded, it has not changed, so it is what was compared with
the bound. -/
theorem FreshGuard.ne_of_goesTo {target condBlock : B} {key last : V} {width : ℕ}
    {bits bound : BitVec width} {st₀ st : State V} {recent : List (V × State V)}
    (h : FreshGuard mod target condBlock key bound) (hwhole : Steps mod st₀ recent st)
    (hsteps : recent.map Prod.fst = (mod.instructions condBlock).reverse)
    (hlast : (mod.instructions condBlock).getLast? = some last)
    (hgoes : GoesTo mod st condBlock last target) (hmemory : st.memory key = ⟨width, bits⟩) :
    bits ≠ bound := by
  rintro rfl
  obtain ⟨before, load, between, compare, rest, constant, last', ifFalse, hblock, hload, hkey,
    halloca, hwidth, hfresh, honce, hwrites, hcompare, hconstant, hlast', hbr, hne⟩ := h.guard
  obtain rfl : last = last' := Option.some.inj (hlast.symm.trans hlast')
  rw [hblock] at hsteps
  -- the counter has not changed since it was loaded
  obtain ⟨s, s', after, -, -, -, hexecutes, hafter, hinsts⟩ := hwhole.at_inst hsteps
  have hsame : s.memory key = ⟨width, bits⟩ := by
    have hne' : load ≠ key := by
      rintro rfl
      rw [hload] at halloca
      cases halloca
    rw [← hexecutes.memory_eq (by simp [mayWrite, hload, hne']),
      ← hafter.memory_of_insts hinsts hwrites, hmemory]
  have hloads := hexecutes.loads hload hkey hsame hwidth
  -- so the comparison is false
  obtain ⟨s₁, s₂, last₂, first₂, hfirst, hbetween, hcompares, hlast₂, hrest⟩ :=
    hafter.at_inst hinsts
  have hloaded : s₁.read mod load = some ⟨width, bits⟩ := by
    rw [State.read, hload, ← hloads]
    exact hfirst.values_of_insts hbetween hfresh
  obtain ⟨outcome, hyields, houtcome⟩ := hcompares.exists_value
  unfold Yields at hyields
  rw [hcompare] at hyields
  obtain ⟨x, y, hx, hy, rfl⟩ := hyields
  obtain rfl : (⟨width, bits⟩ : Word) = x := Option.some.inj (hloaded.symm.trans hx)
  obtain rfl : (⟨width, bits⟩ : Word) = y := by
    rw [State.read, hconstant] at hy
    exact Option.some.inj hy
  have hfalse : st.read mod compare = some ⟨1, 0⟩ := by
    rw [State.read, hcompare, hlast₂.values_of_insts hrest honce, houtcome]
    simp [Predicate.holds]
  unfold Machine.GoesTo at hgoes
  rw [hbr] at hgoes
  obtain ⟨z, hz, hnext⟩ := hgoes
  obtain rfl : (⟨1, 0⟩ : Word) = z := Option.some.inj (hfalse.symm.trans hz)
  exact hne hnext

omit [DecidableEq B] in
/-- **A block behind such a branch is guarded**: its predecessor has been executed as a whole when
it is entered. -/
theorem FreshGuard.guardedBy {target condBlock : B} {key : V} {width : ℕ} {bound : BitVec width}
    (h : FreshGuard mod target condBlock key bound) (hedges : HasEdges mod f) :
    GuardedBy mod f target key width bound.toInt := by
  rintro _ ⟨st, trace, bits, hrun, hmemory, rfl⟩ heq
  rcases hrun.arrival hedges with hhead | ⟨predecessor, hpred, last, hleft, hlast, hgoes⟩
  · have hnone := hedges.entry target hhead
    rw [h.predecessors] at hnone
    cases hnone
  obtain rfl : predecessor = condBlock := by
    rw [h.predecessors] at hpred
    exact List.mem_singleton.mp hpred
  obtain ⟨st₀, recent, earlier, -, hsteps, hwhole⟩ := hleft.whole
  exact h.ne_of_goesTo hwhole hsteps hlast hgoes hmemory (BitVec.eq_of_toInt_eq heq)

/-! ## No range is exact -/

/-- The bound is an end of the range of a counter. -/
theorem bound_of_counterRange {initValue boundValue stepValue : ℤ} {range : IntRange}
    (h : counterRange initValue boundValue stepValue = some range) :
    range.lower = boundValue ∨ range.upper = boundValue := by
  unfold counterRange at h
  split_ifs at h
  · obtain rfl := Option.some.inj h
    exact Or.inr rfl
  · obtain rfl := Option.some.inj h
    exact Or.inl rfl

/-- **The bound is an end of the range.** -/
theorem bound_of_derived {target condBlock : B} {key : V} {boundValue : ℤ} {takesTrueEdge : Bool}
    {range : IntRange}
    (h : deriveBoundedRangeFromNeLoopGuard mod f target condBlock key boundValue takesTrueEdge =
      some range) :
    range.lower = boundValue ∨ range.upper = boundValue := by
  unfold deriveBoundedRangeFromNeLoopGuard at h
  split_ifs at h
  split at h
  · split_ifs at h
    exact bound_of_counterRange h
  · cases h

/-- The smallest interval around some numbers does not end with another one. -/
theorem IsSmallest.mem_ends {range : IntRange} {values : Set ℤ} (h : IsSmallest range values) :
    range.lower ∈ values ∧ range.upper ∈ values := by
  constructor
  · by_contra hlower
    have hle := h.smallest (range.lower + 1) range.upper fun x hx =>
      ⟨lt_of_le_of_ne (h.around x hx).1 fun heq => hlower (heq ▸ hx), (h.around x hx).2⟩
    omega
  · by_contra hupper
    have hle := h.smallest range.lower (range.upper - 1) fun x hx =>
      ⟨(h.around x hx).1, Int.le_sub_one_of_lt
        (lt_of_le_of_ne (h.around x hx).2 fun heq => hupper (heq ▸ hx))⟩
    omega

/-- **No range behind a guard is exact**: one of its ends is the bound, which the counter never has
when the block is entered. -/
theorem not_exactRange {target condBlock : B} {key : V} {width : ℕ} {boundValue : ℤ}
    {takesTrueEdge : Bool} {range : IntRange}
    (h : deriveBoundedRangeFromNeLoopGuard mod f target condBlock key boundValue takesTrueEdge =
      some range)
    (hguard : GuardedBy mod f target key width boundValue) :
    ¬ ExactRange mod f target key width condBlock boundValue range := by
  intro hexact
  obtain ⟨hlower, hupper⟩ := hexact.isSmallest.mem_ends
  obtain hbound | hbound := bound_of_derived h
  · exact hguard _ hlower hbound
  · exact hguard _ hupper hbound

/-! ## A loop from zero to nine -/

section Loop

/-- The values of `for (int i = 0; i != 10; i++) {}`: the constants, the counter, its first store
and the jump, the guard, the body, the update, and the return. -/
def loopValue : Fin 15 → Value (Fin 15) (Fin 5) Unit
  | 0 => .constantInt 32 0
  | 1 => .constantInt 32 10
  | 2 => .constantInt 32 1
  | 3 => .alloca (.int ⟨32, isWidth_thirtyTwo⟩) 2 false
  | 4 => .store 0 3
  | 5 => .instruction
  | 6 => .load 3
  | 7 => .icmp .ne 6 1
  | 8 => .br 7 2 4
  | 9 => .instruction
  | 10 => .load 3
  | 11 => .binary .add true false 10 2
  | 12 => .store 11 3
  | 13 => .instruction
  | _ => .ret

/-- The types of these values. -/
def loopType : Fin 15 → Ty
  | 0 | 1 | 2 | 6 | 10 | 11 => .int ⟨32, isWidth_thirtyTwo⟩
  | 3 => .ptr
  | 7 => .int ⟨1, isWidth_one⟩
  | _ => .other

/-- The module of this function, whose blocks are the entry, the guard, the body, the update and the
return. -/
def loop : Module Unit (Fin 15) (Fin 5) :=
  singleFunction loopValue loopType
    (fun
      | 0 => [3, 4, 5]
      | 1 => [6, 7, 8]
      | 2 => [9]
      | 3 => [10, 11, 12, 13]
      | 4 => [14])
    (fun
      | 0 => [1]
      | 1 => [2, 4]
      | 2 => [3]
      | 3 => [1]
      | 4 => [])
    (by decide)

/-- Its blocks are connected. -/
theorem loop_hasEdges : HasEdges loop () := by
  refine singleFunction_hasEdges (by decide) ?_ (by decide)
  intro block last cond ifTrue ifFalse hlast hvalue
  fin_cases block <;> cases hlast <;> cases hvalue
  rfl

/-- The body is behind `i != 10`. -/
theorem loop_freshGuard : FreshGuard loop 2 1 3 (10 : BitVec 32) := by
  refine ⟨rfl, ?_⟩
  exact ⟨[], 6, [], 7, [8], 1, 8, 4, rfl, rfl, rfl, rfl, rfl, List.not_mem_nil, by decide,
    by decide, rfl, rfl, rfl, rfl, by decide⟩

/-- So it is guarded. -/
theorem loop_guardedBy : GuardedBy loop () 2 3 32 10 := loop_freshGuard.guardedBy loop_hasEdges

/-- The range goes from zero to ten. -/
theorem loop_derived :
    deriveBoundedRangeFromNeLoopGuard loop () 2 1 3 10 true = some ⟨0, 10, true, true⟩ :=
  rfl

/-- The theorem at this loop. -/
theorem not_exactRange_body : ¬ ExactRange loop () 2 3 32 1 10 ⟨0, 10, true, true⟩ :=
  not_exactRange loop_derived loop_guardedBy

/-- **Ranges behind guards are not exact**: the counter of the loop is ten in no run of the body. -/
theorem not_exactRange_loop :
    ¬ ∀ range, deriveBoundedRangeFromNeLoopGuard loop () 2 1 3 10 true = some range →
      GuardedBy loop () 2 3 32 10 → ExactRange loop () 2 3 32 1 10 range := by
  intro h
  have hsmallest := (h _ loop_derived loop_guardedBy).isSmallest
  exact loop_guardedBy 10 hsmallest.mem_ends.2 rfl

end Loop

end StackAnalyzer.Bounds
