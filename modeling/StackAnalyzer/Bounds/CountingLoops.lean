import StackAnalyzer.Bounds.LoopCounters
import StackAnalyzer.Bounds.PredicateRanges

set_option relaxedAutoImplicit false
set_option autoImplicit false

/-!
# Loops that count

What the range of a loop counter is worth if the loop is a simple one: the counter is set to its
initial value before the loop, each round ends with one step, and nothing else writes it. Then it is
between the initial value and one step before the bound whenever the target is entered, so the range
is around all its values, and would be without the bound.

## Main definitions

* `StackAnalyzer.Bounds.CountingLoop` — these loops.
* `StackAnalyzer.Bounds.Counted` — a counter after a number of steps.
* `StackAnalyzer.Bounds.LoopInvariant` — what holds whenever a block is entered.

## Main results

* `StackAnalyzer.Bounds.CountingLoop.invariant_next` — each block hands the invariant on.
* `StackAnalyzer.Bounds.CountingLoop.counted` — the counter in all runs.
* `StackAnalyzer.Bounds.CountingLoop.no_overflow` — nothing overflows below 64 bits.
* `StackAnalyzer.Bounds.CountingLoop.counterRange_around` — the counter and its range.
-/

namespace StackAnalyzer.Bounds

open Llvm Machine Smt

variable {F V B : Type*} [DecidableEq V] {mod : Module F V B} {f : F}

/-! ## The blocks of a loop -/

variable (mod) in
/-- The last that a block does with a counter is to store a value; the first list is what it does
before. -/
def StoresLast (block : B) (key stored : V) (before : List V) : Prop :=
  ∃ store rest, mod.instructions block = before ++ store :: rest ∧
    directStore mod key store = some stored ∧ ∀ inst ∈ rest, mayWrite mod key inst = false

variable (mod) in
/-- A constant is added to a counter that has been loaded, or subtracted from it. -/
def AddsStep (sum load : V) (width : ℕ) (stepValue : ℤ) : Prop :=
  ∃ nsw constant, ∃ c : BitVec width, mod.value constant = .constantInt width c ∧
    ((mod.value sum = .binary .add nsw false load constant ∧ stepValue = c.toInt) ∨
      (mod.value sum = .binary .add nsw false constant load ∧ stepValue = c.toInt) ∨
      (mod.value sum = .binary .sub nsw false load constant ∧ stepValue = -c.toInt))

variable (mod) in
/-- A block loads a counter, makes a step, and stores the result. -/
def FreshUpdate (block : B) (key : V) (width : ℕ) (stepValue : ℤ) : Prop :=
  ∃ before load between sum middle,
    StoresLast mod block key sum (before ++ load :: (between ++ sum :: middle)) ∧
      mod.value load = .load key ∧ wordWidth mod load = some width ∧
      AddsStep mod sum load width stepValue ∧ load ∉ between ∧ sum ∉ middle ∧
      ∀ inst ∈ before, mayWrite mod key inst = false

variable (mod f) in
/-- **A loop that counts**: the counter has its initial value when the loop is entered, and each
round ends with one step. The blocks of a round are the target and others, which are entered from
one another only. -/
structure CountingLoop (target condBlock initBlock updateBlock : B) (body : Set B) (key : V)
    {width : ℕ} (init bound : BitVec width) (stepValue : ℤ) : Prop where
  guard : FreshGuard mod target condBlock key bound
  stores : (mod.predecessors condBlock).foldl (collectGuardStore mod key) (some {}) =
    some ⟨some (initBlock, init.toInt), some (updateBlock, stepValue)⟩
  predecessors : ∀ block ∈ mod.predecessors condBlock, block = initBlock ∨ block = updateBlock
  successors : mod.successors updateBlock = [condBlock]
  initializes : ∃ before stored, StoresLast mod initBlock key stored before ∧
    mod.value stored = .constantInt width init
  updates : FreshUpdate mod updateBlock key width stepValue
  keeps : ∀ block, block = condBlock ∨ block ∈ body → block ≠ updateBlock →
    ∀ inst ∈ mod.instructions block, mayWrite mod key inst = false
  target_mem : target ∈ body
  updateBlock_mem : updateBlock ∈ body
  condBlock_notMem : condBlock ∉ body
  entry_notMem : ∀ block, (mod.blocks f).head? = some block → block ∉ body
  closed : ∀ block ∈ body, block ≠ target → ∀ pred ∈ mod.predecessors block, pred ∈ body

/-- A counter has made fewer steps than a number. -/
def Counted (st : State V) (key : V) (width : ℕ) (initValue stepValue : ℤ) (rounds : ℕ) : Prop :=
  ∃ bits : BitVec width, ∃ steps < rounds, st.memory key = ⟨width, bits⟩ ∧
    bits.toInt = initValue + steps * stepValue

/-- **The invariant of the loop** when a block is entered: the counter has made at most as many
steps as it takes to the bound if it is the guard, and fewer if the block belongs to a round. -/
structure LoopInvariant (condBlock : B) (body : Set B) (key : V) (width : ℕ)
    (initValue stepValue : ℤ) (rounds : ℕ) (block : B) (st : State V) : Prop where
  guard : block = condBlock → Counted st key width initValue stepValue (rounds + 1)
  round : block ∈ body → Counted st key width initValue stepValue rounds

/-! ## What a block does -/

/-- What is stored last is what the counter is when the block is left. -/
theorem StoresLast.read {block : B} {key stored : V} {before : List V} {st₀ st : State V}
    {recent : List (V × State V)} (h : StoresLast mod block key stored before)
    (hwhole : Steps mod st₀ recent st)
    (hsteps : recent.map Prod.fst = (mod.instructions block).reverse) :
    ∃ s first, Steps mod st₀ first s ∧ first.map Prod.fst = before.reverse ∧
      s.read mod stored = some (st.memory key) := by
  obtain ⟨store, rest, hblock, hstore, hrest⟩ := h
  rw [hblock] at hsteps
  obtain ⟨s, s', after, first, hfirst, hbefore, hexecutes, hafter, hinsts⟩ := hwhole.at_inst hsteps
  refine ⟨s, first, hfirst, hbefore, ?_⟩
  rw [hexecutes.memory_of_directStore hstore, hafter.memory_of_insts hinsts hrest]

/-- A sum that does not overflow. -/
theorem result_add {width : ℕ} {x y z : BitVec width} (h : z.toInt = x.toInt + y.toInt)
    (nsw : Bool) : BinaryOp.Result .add nsw false x y z := by
  refine ⟨BitVec.eq_of_toInt_eq ?_, fun _ => h, fun hnuw => Bool.noConfusion hnuw⟩
  rw [BitVec.toInt_add, ← h, BitVec.toInt_bmod_cancel]

/-- A difference that does not overflow. -/
theorem result_sub {width : ℕ} {x y z : BitVec width} (h : z.toInt = x.toInt - y.toInt)
    (nsw : Bool) : BinaryOp.Result .sub nsw false x y z := by
  refine ⟨BitVec.eq_of_toInt_eq ?_, fun _ => h, fun hnuw => Bool.noConfusion hnuw⟩
  rw [BitVec.toInt_sub, ← h, BitVec.toInt_bmod_cancel]

/-- **One step**, if the sum is a number of the width. -/
theorem AddsStep.value {sum load : V} {width : ℕ} {stepValue : ℤ} {s s' : State V}
    {bits next : BitVec width} (h : AddsStep mod sum load width stepValue)
    (hexecutes : Executes mod s sum s') (hload : s.read mod load = some ⟨width, bits⟩)
    (hnext : next.toInt = bits.toInt + stepValue) : s'.values sum = some ⟨width, next⟩ := by
  obtain ⟨nsw, constant, c, hconstant, hsum⟩ := h
  have hc : s.read mod constant = some ⟨width, c⟩ := by rw [State.read, hconstant]
  obtain ⟨result, hyields, hresult⟩ := hexecutes.exists_value
  unfold Yields at hyields
  rcases hsum with ⟨hsum, rfl⟩ | ⟨hsum, rfl⟩ | ⟨hsum, rfl⟩ <;> rw [hsum] at hyields <;>
    obtain ⟨x, y, hx, hy, hexact⟩ := hyields
  · obtain rfl := Option.some.inj (hload.symm.trans hx)
    obtain rfl := Option.some.inj (hc.symm.trans hy)
    rw [hresult, hexact (by decide) next]
    exact result_add (by simpa using hnext) nsw
  · obtain rfl := Option.some.inj (hc.symm.trans hx)
    obtain rfl := Option.some.inj (hload.symm.trans hy)
    rw [hresult, hexact (by decide) next]
    exact result_add (by simpa [add_comm] using hnext) nsw
  · obtain rfl := Option.some.inj (hload.symm.trans hx)
    obtain rfl := Option.some.inj (hc.symm.trans hy)
    rw [hresult, hexact (by decide) next]
    exact result_sub (by simpa [sub_eq_add_neg] using hnext) nsw

/-- A number between two numbers of a width is one. -/
theorem exists_toInt_of_between {width : ℕ} (x y : BitVec width) {z : ℤ} (hx : x.toInt ≤ z)
    (hy : z ≤ y.toInt) : ∃ bits : BitVec width, bits.toInt = z := by
  refine ⟨BitVec.ofInt width z, ?_⟩
  have hlow := x.le_two_mul_toInt
  have hhigh := y.two_mul_toInt_lt
  rw [BitVec.toInt_ofInt, Int.bmod_eq_of_le_mul_two] <;> push_cast <;> omega

section Blocks

variable {target condBlock initBlock updateBlock : B} {body : Set B} {key : V} {width rounds : ℕ}
  {init bound : BitVec width} {stepValue : ℤ} {block : B} {st₀ st : State V}
  {recent : List (V × State V)}

/-- A block that does not write leaves a counter alone. -/
theorem Counted.kept {initValue : ℤ} (h : Counted st₀ key width initValue stepValue rounds)
    (hwhole : Steps mod st₀ recent st)
    (hsteps : recent.map Prod.fst = (mod.instructions block).reverse)
    (hkeeps : ∀ inst ∈ mod.instructions block, mayWrite mod key inst = false) :
    Counted st key width initValue stepValue rounds := by
  unfold Counted
  rwa [hwhole.memory_of_insts hsteps hkeeps]

/-- A block that makes a step adds one to their number, if the counter is not past the bound. -/
theorem FreshUpdate.counted (h : FreshUpdate mod block key width stepValue)
    (hkey : mod.stripPointerCasts key = key)
    (hrounds : bound.toInt = init.toInt + rounds * stepValue)
    (hcounted : Counted st₀ key width init.toInt stepValue rounds)
    (hwhole : Steps mod st₀ recent st)
    (hsteps : recent.map Prod.fst = (mod.instructions block).reverse) :
    Counted st key width init.toInt stepValue (rounds + 1) := by
  obtain ⟨before, load, between, sum, middle, hstores, hload, hwidth, hadds, hfresh, honce,
    hbefore⟩ := h
  obtain ⟨bits, steps, hlt, hmemory, hbits⟩ := hcounted
  obtain ⟨s, first, hfirst, hfirstInsts, hread⟩ := hstores.read hwhole hsteps
  obtain ⟨s₁, s₂, after, earlier, hearlier, hearlierInsts, hexecutes, hafter, hafterInsts⟩ :=
    hfirst.at_inst hfirstInsts
  -- the load gives the counter, as it was when the block was entered
  have hloads : s₂.values load = some ⟨width, bits⟩ :=
    hexecutes.loads hload hkey
      ((hearlier.memory_of_insts hearlierInsts hbefore).trans hmemory) hwidth
  obtain ⟨s₃, s₄, after', earlier', hearlier', hbetween, hsum, hafter', hmiddle⟩ :=
    hafter.at_inst hafterInsts
  have hloaded : s₃.read mod load = some ⟨width, bits⟩ := by
    rw [State.read, hload, ← hloads]
    exact hearlier'.values_of_insts hbetween hfresh
  -- the sum is between the initial value and the bound
  obtain ⟨next, hnext⟩ : ∃ next : BitVec width, next.toInt = bits.toInt + stepValue := by
    rcases le_total 0 stepValue with hstep | hstep
    · refine exists_toInt_of_between init bound ?_ ?_ <;> nlinarith
    · refine exists_toInt_of_between bound init ?_ ?_ <;> nlinarith
  have hvalue := hadds.value hsum hloaded hnext
  obtain ⟨op, nsw, lhs, rhs, hbinary⟩ : ∃ op nsw lhs rhs,
      mod.value sum = .binary op nsw false lhs rhs := by
    obtain ⟨nsw, constant, c, -, ⟨h, -⟩ | ⟨h, -⟩ | ⟨h, -⟩⟩ := hadds <;> exact ⟨_, _, _, _, h⟩
  have hmemory' : some (st.memory key) = some ⟨width, next⟩ := by
    rw [← hread, State.read, hbinary, ← hvalue]
    exact hafter'.values_of_insts hmiddle honce
  refine ⟨next, steps + 1, by omega, Option.some.inj hmemory', ?_⟩
  rw [hnext, hbits]
  push_cast
  ring

/-- The counter is a variable. -/
theorem FreshGuard.key_eq (h : FreshGuard mod target condBlock key bound) :
    mod.stripPointerCasts key = key := by
  obtain ⟨-, -, -, -, -, -, -, -, -, -, hkey, -⟩ := h.guard
  exact hkey

/-! ## The invariant -/

/-- The guard is entered with the initial value, or after one more step. -/
theorem CountingLoop.counted_condBlock
    (h : CountingLoop mod f target condBlock initBlock updateBlock body key init bound stepValue)
    (hrounds : bound.toInt = init.toInt + rounds * stepValue)
    (hpred : block ∈ mod.predecessors condBlock)
    (hinvariant : LoopInvariant condBlock body key width init.toInt stepValue rounds block st₀)
    (hwhole : Steps mod st₀ recent st)
    (hsteps : recent.map Prod.fst = (mod.instructions block).reverse) :
    Counted st key width init.toInt stepValue (rounds + 1) := by
  rcases h.predecessors block hpred with rfl | rfl
  · obtain ⟨before, stored, hstores, hvalue⟩ := h.initializes
    obtain ⟨s, first, -, -, hread⟩ := hstores.read hwhole hsteps
    rw [State.read, hvalue] at hread
    exact ⟨init, 0, Nat.succ_pos rounds, (Option.some.inj hread).symm, by simp⟩
  · exact h.updates.counted h.guard.key_eq hrounds (hinvariant.round h.updateBlock_mem) hwhole
      hsteps

/-- A block of a round is entered with the same number of steps as the one before, which is too
small for the bound. -/
theorem CountingLoop.counted_body {next : B} {last : V}
    (h : CountingLoop mod f target condBlock initBlock updateBlock body key init bound stepValue)
    (hrounds : bound.toInt = init.toInt + rounds * stepValue) (hmem : next ∈ body)
    (hpred : block ∈ mod.predecessors next) (hsucc : next ∈ mod.successors block)
    (hinvariant : LoopInvariant condBlock body key width init.toInt stepValue rounds block st₀)
    (hwhole : Steps mod st₀ recent st)
    (hsteps : recent.map Prod.fst = (mod.instructions block).reverse)
    (hlast : (mod.instructions block).getLast? = some last)
    (hgoes : GoesTo mod st block last next) :
    Counted st key width init.toInt stepValue rounds := by
  by_cases htarget : next = target
  · subst htarget
    obtain rfl : block = condBlock := by
      rw [h.guard.predecessors] at hpred
      exact List.mem_singleton.mp hpred
    have hne : block ≠ updateBlock := by
      rintro rfl
      exact h.condBlock_notMem h.updateBlock_mem
    obtain ⟨bits, steps, hlt, hmemory, hbits⟩ :=
      (hinvariant.guard rfl).kept hwhole hsteps (h.keeps block (Or.inl rfl) hne)
    -- the guard has let the run through, so the counter has not reached the bound
    have hbound := h.guard.ne_of_goesTo hwhole hsteps hlast hgoes hmemory
    refine ⟨bits, steps, lt_of_le_of_ne (Nat.le_of_lt_succ hlt) ?_, hmemory, hbits⟩
    rintro rfl
    exact hbound (BitVec.eq_of_toInt_eq (hbits.trans hrounds.symm))
  · have hblock := h.closed next hmem htarget block hpred
    have hne : block ≠ updateBlock := by
      rintro rfl
      rw [h.successors] at hsucc
      exact h.condBlock_notMem (List.mem_singleton.mp hsucc ▸ hmem)
    exact (hinvariant.round hblock).kept hwhole hsteps (h.keeps block (Or.inr hblock) hne)

/-- The invariant holds at the beginning: neither the guard nor a round is entered there. -/
theorem CountingLoop.invariant_entry
    (h : CountingLoop mod f target condBlock initBlock updateBlock body key init bound stepValue)
    (hedges : HasEdges mod f) (hhead : (mod.blocks f).head? = some block) :
    LoopInvariant condBlock body key width init.toInt stepValue rounds block st where
  guard := by
    rintro rfl
    have hstores := h.stores
    rw [hedges.entry block hhead] at hstores
    cases hstores
  round hmem := (h.entry_notMem block hhead hmem).elim

/-- **Each block hands the invariant on** to the next one. -/
theorem CountingLoop.invariant_next {next : B} {last : V}
    (h : CountingLoop mod f target condBlock initBlock updateBlock body key init bound stepValue)
    (hedges : HasEdges mod f) (hrounds : bound.toInt = init.toInt + rounds * stepValue)
    (hinvariant : LoopInvariant condBlock body key width init.toInt stepValue rounds block st₀)
    (hwhole : Steps mod st₀ recent st)
    (hsteps : recent.map Prod.fst = (mod.instructions block).reverse)
    (hlast : (mod.instructions block).getLast? = some last)
    (hgoes : GoesTo mod st block last next) :
    LoopInvariant condBlock body key width init.toInt stepValue rounds next st := by
  have hsucc := hgoes.mem_successors hedges hlast
  have hpred := hedges.mem_predecessors block next hsucc
  refine ⟨fun heq => ?_, fun hmem => ?_⟩
  · exact h.counted_condBlock hrounds (heq ▸ hpred) hinvariant hwhole hsteps
  · exact h.counted_body hrounds hmem hpred hsucc hinvariant hwhole hsteps hlast hgoes

/-- **The counter has made fewer steps than it takes to the bound** whenever the target is
entered. -/
theorem CountingLoop.counted {trace : List (V × State V)}
    (h : CountingLoop mod f target condBlock initBlock updateBlock body key init bound stepValue)
    (hedges : HasEdges mod f) (hrounds : bound.toInt = init.toInt + rounds * stepValue)
    (hrun : Run mod f target (mod.instructions target) st trace) :
    Counted st key width init.toInt stepValue rounds := by
  obtain ⟨done, st₀, recent, hblock, hdone, hsteps, hinvariant⟩ := hrun.holdsAt hedges
    (LoopInvariant condBlock body key width init.toInt stepValue rounds)
    (fun _ _ => h.invariant_entry hedges) (fun _ _ _ _ _ _ => h.invariant_next hedges hrounds)
  obtain rfl : done = [] := by simpa using hblock
  obtain rfl : recent = [] := by simpa using hdone
  cases hsteps
  exact hinvariant.round h.target_mem

/-- **The counter is between the initial value and one step before the bound** when the target is
entered. -/
theorem CountingLoop.counterValues_subset
    (h : CountingLoop mod f target condBlock initBlock updateBlock body key init bound stepValue)
    (hedges : HasEdges mod f) (hrounds : bound.toInt = init.toInt + rounds * stepValue) :
    counterValues mod f target key width ⊆ Set.uIcc init.toInt (bound.toInt - stepValue) := by
  rintro _ ⟨st, trace, bits, hrun, hmemory, rfl⟩
  obtain ⟨bits', steps, hlt, hmemory', hbits⟩ := h.counted hedges hrounds hrun
  obtain rfl : bits = bits' := eq_of_heq (Sigma.mk.inj (hmemory.symm.trans hmemory')).2
  rw [Set.mem_uIcc, hbits, hrounds]
  rcases le_total 0 stepValue with hstep | hstep
  · exact Or.inl ⟨by nlinarith, by nlinarith⟩
  · exact Or.inr ⟨by nlinarith, by nlinarith⟩

/-! ## The range -/

/-- The signed value of a number of less than 64 bits has room for a difference. -/
theorem toInt_mem_of_lt (hwidth : width < 64) (c : BitVec width) :
    -2 ^ 62 ≤ c.toInt ∧ c.toInt < 2 ^ 62 := by
  have hpow : (2 : ℤ) ^ width ≤ 2 ^ 63 := pow_le_pow_right₀ (by norm_num) (by omega)
  have hlow : -2 ^ width ≤ 2 * c.toInt := BitVec.le_two_mul_toInt
  have hhigh : 2 * c.toInt < 2 ^ width := BitVec.two_mul_toInt_lt
  omega

/-- **Nothing overflows** on the way to the range of a counter of less than 64 bits. -/
theorem CountingLoop.no_overflow
    (h : CountingLoop mod f target condBlock initBlock updateBlock body key init bound stepValue)
    (hwidth : width < 64) :
    wrap64 (bound.toInt - init.toInt) = bound.toInt - init.toInt ∧
      wrap64 (init.toInt - bound.toInt) = init.toInt - bound.toInt ∧
      wrap64 (-stepValue) = -stepValue := by
  have hinit := toInt_mem_of_lt hwidth init
  have hbound := toInt_mem_of_lt hwidth bound
  have hstep : -2 ^ 62 ≤ stepValue ∧ stepValue ≤ 2 ^ 62 := by
    obtain ⟨_, _, _, _, _, -, -, -, ⟨_, _, c, -, hsum⟩, -⟩ := h.updates
    have hc := toInt_mem_of_lt hwidth c
    rcases hsum with ⟨-, rfl⟩ | ⟨-, rfl⟩ | ⟨-, rfl⟩ <;> omega
  refine ⟨wrap64_of_mem ?_ ?_, wrap64_of_mem ?_ ?_, wrap64_of_mem ?_ ?_⟩ <;> omega

/-- A range is only returned if the bound is some steps from the initial value. -/
theorem exists_rounds {initValue boundValue : ℤ} {range : IntRange}
    (h : counterRange initValue boundValue stepValue = some range)
    (hup : wrap64 (boundValue - initValue) = boundValue - initValue)
    (hdown : wrap64 (initValue - boundValue) = initValue - boundValue)
    (hneg : wrap64 (-stepValue) = -stepValue) :
    ∃ rounds : ℕ, boundValue = initValue + rounds * stepValue := by
  unfold counterRange at h
  split_ifs at h with hpos hout hout
  all_goals
    obtain ⟨hlt, hmod⟩ := not_or.mp hout
    rw [not_not] at hmod
  · rw [hup] at hmod
    obtain ⟨k, hk⟩ := Int.dvd_of_tmod_eq_zero hmod
    have hkpos : 0 < k := by nlinarith
    exact ⟨k.toNat, by rw [Int.toNat_of_nonneg hkpos.le]; linarith⟩
  · rw [hdown, hneg] at hmod
    obtain ⟨k, hk⟩ := Int.dvd_of_tmod_eq_zero hmod
    have hkpos : 0 < k := by nlinarith
    exact ⟨k.toNat, by rw [Int.toNat_of_nonneg hkpos.le]; linarith⟩

/-- The range goes from the initial value to the bound. -/
theorem mem_of_counterRange {initValue boundValue : ℤ} {range : IntRange}
    (h : counterRange initValue boundValue stepValue = some range) :
    Set.uIcc initValue boundValue = Set.Icc range.lower range.upper := by
  unfold counterRange at h
  split_ifs at h with hpos hout hout <;> obtain rfl := Option.some.inj h
  · exact Set.uIcc_of_le (by omega)
  · exact Set.uIcc_of_ge (by omega)

/-- **The range of a loop that counts**: the counter is between the initial value and one step
before the bound whenever the target is entered, and the range goes on to the bound. -/
theorem CountingLoop.counterRange_around [DecidableEq B]
    (h : CountingLoop mod f target condBlock initBlock updateBlock body key init bound stepValue)
    (hedges : HasEdges mod f) (hwidth : width < 64) {takesTrueEdge : Bool} {range : IntRange}
    (hderived : deriveBoundedRangeFromNeLoopGuard mod f target condBlock key bound.toInt
      takesTrueEdge = some range) :
    counterValues mod f target key width ⊆ Set.uIcc init.toInt (bound.toInt - stepValue) ∧
      Set.Icc range.lower range.upper = Set.uIcc init.toInt bound.toInt := by
  have hrange : counterRange init.toInt bound.toInt stepValue = some range := by
    unfold deriveBoundedRangeFromNeLoopGuard at hderived
    split_ifs at hderived
    simp only [h.stores] at hderived
    split_ifs at hderived
    exact hderived
  obtain ⟨hup, hdown, hneg⟩ := h.no_overflow hwidth
  obtain ⟨rounds, hrounds⟩ := exists_rounds hrange hup hdown hneg
  exact ⟨h.counterValues_subset hedges hrounds, (mem_of_counterRange hrange).symm⟩

end Blocks

/-! ## The loop from zero to nine -/

/-- The loop `for (int i = 0; i != 10; i++) {}` counts. -/
theorem loop_countingLoop :
    CountingLoop loop () 2 1 0 3 {2, 3} 3 (0 : BitVec 32) (10 : BitVec 32) 1 where
  guard := loop_freshGuard
  stores := rfl
  predecessors := by decide
  successors := rfl
  initializes := ⟨[3], 0, ⟨4, [5], rfl, rfl, by decide⟩, rfl⟩
  updates := ⟨[], 10, [], 11, [], ⟨12, [13], rfl, rfl, by decide⟩, rfl, rfl,
    ⟨true, 2, 1, rfl, Or.inl ⟨rfl, rfl⟩⟩, List.not_mem_nil, List.not_mem_nil, by decide⟩
  keeps := by
    rintro block (rfl | rfl | rfl) hne
    · decide
    · decide
    · exact absurd rfl hne
  target_mem := Or.inl rfl
  updateBlock_mem := Or.inr rfl
  condBlock_notMem := by rintro (h | h) <;> cases h
  entry_notMem := by
    rintro block hhead (rfl | rfl) <;> cases hhead
  closed := by
    rintro block (rfl | rfl) hne
    · exact absurd rfl hne
    · decide

/-- The counter is from zero to nine whenever the body is entered. -/
theorem loop_counterValues : counterValues loop () 2 3 32 ⊆ Set.Icc 0 9 := by
  have h := (loop_countingLoop.counterRange_around loop_hasEdges (by decide) loop_derived).1
  exact h.trans_eq (Set.uIcc_of_le (by decide))

end StackAnalyzer.Bounds
