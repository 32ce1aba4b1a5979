import StackAnalyzer.Llvm.Machine

set_option relaxedAutoImplicit false
set_option autoImplicit false

/-!
# Recovered constants

The constant that a value is taken for: the one it is cast from, or the last constant in the order
of the blocks that the function stores to the pointer that the value is loaded from. In a run, the
value is this constant, cast again, if each load finds what the last of these stores, or an earlier
one of the same constant, has written.

## Main definitions

* `StackAnalyzer.Values.tryGetConstFromValue` — the constant.
* `StackAnalyzer.Values.recast` — what the casts of a value make of it.
* `StackAnalyzer.Values.LoadsConstants` — the loads of a run find constants.

## Main results

* `StackAnalyzer.Values.holdsConstant_of_run` — the values in a run whose loads find constants.
-/

namespace StackAnalyzer.Values

open Llvm Machine

variable {F V B : Type*} [DecidableEq V] (mod : Module F V B)

/-! ## The constant -/

section Constants

/-- A constant integer. -/
def constantOf (v : V) : Option Word :=
  match mod.value v with
  | .constantInt width bits => some ⟨width, bits⟩
  | _ => none

/-- The constants that some instructions store to a pointer, in order. -/
def storedConstants (instructions : List V) (ptr : V) : List Word :=
  instructions.filterMap fun inst =>
    match mod.value inst with
    | .store value pointer => if pointer = ptr then constantOf mod value else none
    | _ => none

variable [Fintype V]

/-- `tryGetConstFromValue`. -/
def tryGetConstFromValue (f : F) (v : V) : Option Word :=
  match mod.value (mod.stripCasts v) with
  | .constantInt width bits => some ⟨width, bits⟩
  | .load ptr => (storedConstants mod (mod.functionInstructions f) ptr).getLast?
  | _ => none

/-- What casts make of a word, at most as many as the fuel. -/
def recastWithin : ℕ → V → Word → Word
  | 0, _, c => c
  | fuel + 1, v, c =>
    match mod.value v with
    | .cast op operand => castWord op (mod.bitWidth v) (recastWithin fuel operand c)
    | _ => c

/-- **What the casts of a value make** of the word that they start from. -/
def recast (v : V) (c : Word) : Word := recastWithin mod (Fintype.card V) v c

end Constants

/-! ## Chains of casts -/

section Casts

/-- A cast. -/
def IsCast (v : V) : Prop := ∃ op operand, mod.value v = .cast op operand

/-- A cast between integers: it changes the number of bits, or nothing. -/
def Resizes (v operand : V) : CastInst → Prop
  | .sext | .zext | .trunc => True
  | .bitcast => wordWidth mod v = wordWidth mod operand ∧ (wordWidth mod v).isSome = true
  | .other => False

/-- All casts on the way to a value are casts between integers. -/
def OnlyResizes (v : V) : Prop :=
  ∀ w op operand, DependsOn mod v w → mod.value w = .cast op operand → Resizes mod w operand op

variable {mod}

omit [DecidableEq V] in
/-- No more fuel is needed when there is no cast left. -/
theorem withinCasts_succ {fuel : ℕ} {v : V} (h : ¬ IsCast mod (mod.stripCastsWithin fuel v))
    (c : Word) :
    mod.stripCastsWithin (fuel + 1) v = mod.stripCastsWithin fuel v ∧
      recastWithin mod (fuel + 1) v c = recastWithin mod fuel v c := by
  induction fuel generalizing v with
  | zero =>
    cases hvalue : mod.value v
    case cast op operand => exact absurd ⟨op, operand, hvalue⟩ h
    all_goals simp [Module.stripCastsWithin, recastWithin, hvalue]
  | succ fuel ih =>
    cases hvalue : mod.value v
    case cast op operand =>
      have hstrip : ∀ n, mod.stripCastsWithin (n + 1) v = mod.stripCastsWithin n operand := by
        intro n
        simp [Module.stripCastsWithin, hvalue]
      rw [hstrip] at h
      obtain ⟨hsame, hrecast⟩ := ih h
      refine ⟨by rw [hstrip, hstrip, hsame], ?_⟩
      rw [recastWithin, recastWithin, hvalue]
      simp only
      rw [hrecast]
    all_goals simp [Module.stripCastsWithin, recastWithin, hvalue]

omit [DecidableEq V] in
/-- **A cast apart from the others.** -/
theorem stripCasts_of_cast [Fintype V] {v operand : V} {op : CastInst}
    (hvalue : mod.value v = .cast op operand) (h : ¬ IsCast mod (mod.stripCasts v)) (c : Word) :
    mod.stripCasts operand = mod.stripCasts v ∧
      recast mod v c = castWord op (mod.bitWidth v) (recast mod operand c) := by
  obtain ⟨n, hn⟩ : ∃ n, Fintype.card V = n + 1 :=
    ⟨Fintype.card V - 1, (Nat.succ_pred_eq_of_pos (Fintype.card_pos_iff.mpr ⟨v⟩)).symm⟩
  unfold Module.stripCasts recast at *
  rw [hn] at h ⊢
  have hstrip : mod.stripCastsWithin (n + 1) v = mod.stripCastsWithin n operand := by
    simp [Module.stripCastsWithin, hvalue]
  rw [hstrip] at h ⊢
  obtain ⟨hsame, hrecast⟩ := withinCasts_succ h c
  refine ⟨hsame, ?_⟩
  rw [hrecast, recastWithin, hvalue]

omit [DecidableEq V] in
/-- A value that is no cast. -/
theorem stripCasts_of_not_cast [Fintype V] {v : V} (h : ¬ IsCast mod v) (c : Word) :
    mod.stripCasts v = v ∧ recast mod v c = c := by
  obtain ⟨n, hn⟩ : ∃ n, Fintype.card V = n + 1 :=
    ⟨Fintype.card V - 1, (Nat.succ_pred_eq_of_pos (Fintype.card_pos_iff.mpr ⟨v⟩)).symm⟩
  unfold Module.stripCasts recast
  rw [hn]
  cases hvalue : mod.value v
  case cast op operand => exact absurd ⟨op, operand, hvalue⟩ h
  all_goals simp [Module.stripCastsWithin, recastWithin, hvalue]

omit [DecidableEq V] in
/-- A value is cast from what is left without casts. -/
theorem dependsOn_stripCasts [Fintype V] (v : V) : DependsOn mod v (mod.stripCasts v) := by
  unfold Module.stripCasts
  generalize Fintype.card V = fuel
  induction fuel generalizing v with
  | zero => exact .refl
  | succ fuel ih =>
    cases hvalue : mod.value v
    case cast op operand =>
      rw [Module.stripCastsWithin, hvalue]
      exact .head ⟨op, hvalue⟩ (ih operand)
    all_goals
      rw [Module.stripCastsWithin, hvalue]
      exact .refl

end Casts

/-! ## Constants in runs -/

section Runs

/-- **A load finds a constant**: some store of a constant to the pointer has been executed, what is
stored there has not changed since and has the width of the load, and no store of another constant
to the pointer comes later in the order of the blocks. -/
def FindsConstant (f : F) (load ptr : V) (before : List (V × State V)) : Prop :=
  ∃ store value c st₁ since earlier first rest, before = since ++ (store, st₁) :: earlier ∧
    Unchanged (target mod ptr) st₁ since ∧ mod.value store = .store value ptr ∧
    constantOf mod value = some c ∧ wordWidth mod load = some c.1 ∧
    mod.functionInstructions f = first ++ store :: rest ∧
    ∀ c' ∈ storedConstants mod rest ptr, c' = c

/-- **The loads of a run find constants**, as far as a value is cast from them. -/
def LoadsConstants [Fintype V] (f : F) (v : V) (trace : List (V × State V)) : Prop :=
  ∀ ptr, mod.value (mod.stripCasts v) = .load ptr → ∀ after st before,
    trace = after ++ (mod.stripCasts v, st) :: before →
      FindsConstant mod f (mod.stripCasts v) ptr before

variable {mod} {f : F}

/-- So they did before. -/
theorem LoadsConstants.earlier [Fintype V] {v : V} {recent earlier : List (V × State V)}
    (h : LoadsConstants mod f v (recent ++ earlier)) : LoadsConstants mod f v earlier := by
  intro ptr hptr after st before htrace
  exact h ptr hptr (recent ++ after) st before (by rw [htrace, List.append_assoc])

/-- The constant that a load finds is the one that is recovered. -/
theorem getLast?_of_findsConstant {load ptr : V} {before : List (V × State V)} {st st' : State V}
    (h : FindsConstant mod f load ptr before) (hsteps : Steps mod st before st') :
    wordWidth mod load = some (st'.memory (target mod ptr)).1 ∧
      (storedConstants mod (mod.functionInstructions f) ptr).getLast? =
        some (st'.memory (target mod ptr)) := by
  obtain ⟨store, value, c, st₁, since, earlier, first, remaining, rfl, hsince, hstore, hconstant,
    hwidth, hf, hremaining⟩ := h
  have hdirect : directStore mod (target mod ptr) store = some value := by
    simp [directStore, hstore]
  obtain ⟨st₀, -, hread⟩ := hsteps.memory_of_store hsince hdirect
  have hmemory : st'.memory (target mod ptr) = c := by
    unfold constantOf at hconstant
    split at hconstant
    · next hvalue =>
      rw [State.read, hvalue] at hread
      exact (Option.some.inj hread).symm.trans (Option.some.inj hconstant)
    · cases hconstant
  rw [hmemory]
  refine ⟨hwidth, ?_⟩
  have hstored : storedConstants mod (mod.functionInstructions f) ptr =
      storedConstants mod first ptr ++ c :: storedConstants mod remaining ptr := by
    simp [storedConstants, hf, hstore, hconstant]
  rw [hstored, List.getLast?_append_of_ne_nil _ (List.cons_ne_nil _ _)]
  cases hrest : storedConstants mod remaining ptr using List.reverseRecOn with
  | nil => rfl
  | append_singleton rest last _ =>
    rw [← List.cons_append, List.getLast?_append_of_ne_nil _ (List.cons_ne_nil _ _)]
    simp [hremaining last (by simp [hrest])]

omit [DecidableEq V] in
/-- Whatever a value is cast from starts from the same value. -/
theorem stripCasts_of_dependsOn [Fintype V] {v w : V} (h : DependsOn mod v w)
    (hbase : ¬ IsCast mod (mod.stripCasts v)) : mod.stripCasts w = mod.stripCasts v := by
  induction h with
  | refl => rfl
  | tail _ hcast ih =>
    obtain ⟨op, hvalue⟩ := hcast
    rw [← ih] at hbase ⊢
    exact (stripCasts_of_cast hvalue hbase ⟨0, 0⟩).1

omit [DecidableEq V] in
/-- A cast between integers gives what it makes of its operand. -/
theorem eq_castWord {st : State V} {inst operand : V} {op : CastInst} {result x : Word}
    (h : Yields mod st inst result) (hvalue : mod.value inst = .cast op operand)
    (hresizes : Resizes mod inst operand op) (hread : st.read mod operand = some x) :
    result = castWord op (mod.bitWidth inst) x := by
  unfold Yields at h
  rw [hvalue] at h
  obtain ⟨y, hy, hresult⟩ := h
  obtain rfl : y = x := Option.some.inj (hy.symm.trans hread)
  cases op with
  | sext | zext | trunc => exact hresult
  | bitcast => exact hresult hresizes.1 hresizes.2
  | other => cases hresizes

variable (mod) in
/-- What a value is cast from is the constant that the value is taken for, cast again. -/
def HoldsConstant [Fintype V] (v : V) (c : Word) (st : State V) : Prop :=
  ∀ w, DependsOn mod v w → ∀ x, (mod.value w).isInstruction = true → st.values w = some x →
    x = recast mod w c

/-- The constant is that of the base, if the base is one. -/
theorem constant_of_base [Fintype V] {v : V} {c : Word}
    (hc : tryGetConstFromValue mod f v = some c) :
    mod.value (mod.stripCasts v) = .constantInt c.1 c.2 ∨
      ∃ ptr, mod.value (mod.stripCasts v) = .load ptr ∧
        (storedConstants mod (mod.functionInstructions f) ptr).getLast? = some c := by
  unfold tryGetConstFromValue at hc
  split at hc
  · next width bits hvalue =>
    obtain rfl := Option.some.inj hc
    exact Or.inl hvalue
  · next ptr hvalue => exact Or.inr ⟨ptr, hvalue, hc⟩
  · cases hc

/-- The base is no cast. -/
theorem base_not_cast [Fintype V] {v : V} {c : Word}
    (hc : tryGetConstFromValue mod f v = some c) : ¬ IsCast mod (mod.stripCasts v) := by
  rintro ⟨op, operand, hcast⟩
  obtain hvalue | ⟨ptr, hvalue, -⟩ := constant_of_base hc
  · exact absurd (hvalue.symm.trans hcast) (by simp)
  · exact absurd (hvalue.symm.trans hcast) (by simp)

omit [DecidableEq V] in
/-- A value that is no cast is the base. -/
theorem eq_base [Fintype V] {v w : V} (hw : DependsOn mod v w)
    (hbase : ¬ IsCast mod (mod.stripCasts v)) (hcast : ¬ IsCast mod w) :
    w = mod.stripCasts v :=
  (stripCasts_of_not_cast hcast ⟨0, 0⟩).1.symm.trans (stripCasts_of_dependsOn hw hbase)

/-- As an operand, it has this value, too. -/
theorem HoldsConstant.read [Fintype V] {v w : V} {c x : Word} {st : State V}
    (h : HoldsConstant mod v c st) (hc : tryGetConstFromValue mod f v = some c)
    (hw : DependsOn mod v w) (hread : st.read mod w = some x) : x = recast mod w c := by
  by_cases hcast : IsCast mod w
  · obtain ⟨op, operand, hvalue⟩ := hcast
    refine h w hw x (by rw [hvalue]; rfl) ?_
    simpa [State.read, hvalue] using hread
  · have hbase := eq_base hw (base_not_cast hc) hcast
    obtain hvalue | ⟨ptr, hvalue, -⟩ := constant_of_base hc
    · rw [← hbase] at hvalue
      simp only [State.read, hvalue, Option.some.injEq] at hread
      rw [(stripCasts_of_not_cast hcast c).2, ← hread]
    · rw [← hbase] at hvalue
      refine h w hw x (by rw [hvalue]; rfl) ?_
      simpa [State.read, hvalue] using hread

/-- **A step keeps it**, if the base finds a constant whenever it is loaded. -/
theorem HoldsConstant.step [Fintype V] {v inst : V} {c : Word} {st₀ st st' : State V}
    {trace : List (V × State V)} (h : HoldsConstant mod v c st)
    (hc : tryGetConstFromValue mod f v = some c) (hresizes : OnlyResizes mod v)
    (hsteps : Steps mod st₀ trace st) (hinst : Executes mod st inst st')
    (hloads : LoadsConstants mod f v ((inst, st') :: trace)) : HoldsConstant mod v c st' := by
  intro w hw x hinstruction hvalue
  by_cases hne : w = inst
  · subst hne
    obtain ⟨result, hyields, hresult⟩ := hinst.exists_value
    obtain rfl : result = x := Option.some.inj (hresult.symm.trans hvalue)
    by_cases hcast : IsCast mod w
    · obtain ⟨op, operand, hop⟩ := hcast
      have hread : ∃ y, st.read mod operand = some y := by
        unfold Yields at hyields
        rw [hop] at hyields
        obtain ⟨y, hy, -⟩ := hyields
        exact ⟨y, hy⟩
      obtain ⟨y, hy⟩ := hread
      have hoperand : DependsOn mod v operand := hw.tail ⟨op, hop⟩
      have hbase : ¬ IsCast mod (mod.stripCasts w) := by
        rw [stripCasts_of_dependsOn hw (base_not_cast hc)]
        exact base_not_cast hc
      calc result = castWord op (mod.bitWidth w) y :=
            eq_castWord hyields hop (hresizes w op operand hw hop) hy
        _ = castWord op (mod.bitWidth w) (recast mod operand c) := by
            rw [h.read hc hoperand hy]
        _ = recast mod w c := (stripCasts_of_cast hop hbase c).2.symm
    · have hbase := eq_base hw (base_not_cast hc) hcast
      obtain hconstant | ⟨ptr, hload, hlast⟩ := constant_of_base hc
      · rw [← hbase] at hconstant
        rw [hconstant] at hinstruction
        cases hinstruction
      · have hfinds := hloads ptr hload [] st' trace (by rw [← hbase]; rfl)
        rw [← hbase] at hload hfinds
        obtain ⟨hwidth, hmemory⟩ := getLast?_of_findsConstant hfinds hsteps
        rw [(stripCasts_of_not_cast hcast c).2]
        have hresult' : result = st.memory (target mod ptr) := by
          unfold Yields at hyields
          rw [hload] at hyields
          exact hyields hwidth
        exact hresult'.trans (Option.some.inj (hmemory.symm.trans hlast))
  · rw [hinst.values_eq hne] at hvalue
    exact h w hw x hinstruction hvalue

omit [DecidableEq V] in
/-- What a value is cast from belongs to the same function. -/
theorem localTo_of_dependsOn {v w : V} (hmod : mod.Verified) (hf : f ∈ mod.functions)
    (hv : mod.LocalTo f v) (h : DependsOn mod v w) : mod.LocalTo f w := by
  induction h with
  | refl => exact hv
  | tail _ hcast ih =>
    obtain ⟨op, hvalue⟩ := hcast
    refine hmod.operand_local f hf _ (ih (by rw [hvalue]; rfl)) _ ?_
    rw [hvalue]
    exact List.mem_singleton_self _

/-- **The casts of a recovered constant**: in runs whose loads find constants, whatever a value is
cast from is the constant that the value is taken for, cast again.

**Proof sketch.** Induction on the steps of the run. A load that finds a constant has the last one
that is stored to its pointer as its value, and each cast is applied to what its operand is by
then. -/
theorem holdsConstant_of_run [Fintype V] {v : V} {c : Word} (hmod : mod.Verified)
    (hf : f ∈ mod.functions) (hv : mod.LocalTo f v)
    (hc : tryGetConstFromValue mod f v = some c) (hresizes : OnlyResizes mod v)
    {block : B} {rest : List V} {trace : List (V × State V)} {st : State V}
    (hrun : Run mod f block rest st trace) (hloads : LoadsConstants mod f v trace) :
    HoldsConstant mod v c st := by
  obtain ⟨st₀, hinitial, hsteps⟩ := hrun.steps
  clear hrun
  induction hsteps with
  | nil =>
    intro w hw x hinstruction hvalue
    rw [hinitial.none w (localTo_of_dependsOn hmod hf hv hw hinstruction)] at hvalue
    cases hvalue
  | cons hsteps hinst ih =>
    have hearlier := LoadsConstants.earlier (show LoadsConstants mod f v ([_] ++ _) from hloads)
    exact HoldsConstant.step (ih hearlier) hc hresizes hsteps hinst hloads

/-- The base is the constant itself. -/
theorem HoldsConstant.read_base [Fintype V] {v : V} {c x : Word} {st : State V}
    (h : HoldsConstant mod v c st) (hc : tryGetConstFromValue mod f v = some c)
    (hread : st.read mod (mod.stripCasts v) = some x) : x = c := by
  rw [h.read hc (dependsOn_stripCasts v) hread, (stripCasts_of_not_cast (base_not_cast hc) c).2]

end Runs

end StackAnalyzer.Values
