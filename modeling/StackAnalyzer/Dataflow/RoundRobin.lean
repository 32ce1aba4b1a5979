import StackAnalyzer.Graph.Levels

set_option relaxedAutoImplicit false
set_option autoImplicit false

/-!
# Round-robin iteration in place

Values of vertices are computed from each other. A sweep evaluates the vertices of a list in order
and stores each new value at once, so that later evaluations of the same sweep read it. Sweeps are
repeated until one changes nothing, or a number of them has been made.

A sweep carries a value along all dependencies on earlier vertices of the list, and along one
dependency on a later one. So it depends on the number of dependencies on later vertices in a chain
how many sweeps a value needs to arrive.

## Main definitions

* `RoundRobin.System` — how vertices are evaluated, and how values are compared.
* `RoundRobin.sweep`, `RoundRobin.run` — a sweep, and the repeated sweeps.
* `RoundRobin.DelayChain` — chains of dependencies, with the number of those that delay.

## Main results

* `RoundRobin.run_eq_iterate` — stopping at a sweep without changes makes no difference.
* `RoundRobin.iterate_settled` — after enough sweeps a value is final.
* `RoundRobin.iterate_carries` — before that, what has to travel further has not arrived.
-/

namespace RoundRobin

/-- How a vertex is evaluated from the values of all, and how a value is compared to the next. -/
structure System (V S : Type*) where
  eval : V → (V → S) → S
  same : S → S → Bool

/-- The comparison decides equality. -/
def System.Lawful {V S : Type*} (P : System V S) : Prop := ∀ a b, P.same a b = true ↔ a = b

section Sweeps

variable {V S : Type*} [DecidableEq V] (P : System V S)

/-- Evaluate a vertex. A value that differs is stored, and the change is recorded. -/
def visit (r : (V → S) × Bool) (v : V) : (V → S) × Bool :=
  if P.same (r.1 v) (P.eval v r.1) then r else (Function.update r.1 v (P.eval v r.1), true)

/-- Evaluate the vertices in order. -/
def sweep (order : List V) (σ : V → S) : (V → S) × Bool := order.foldl (visit P) (σ, false)

/-- Repeat the sweeps while they change something, at most a number of times. -/
def run (order : List V) : ℕ → (V → S) → V → S
  | 0, σ => σ
  | n + 1, σ =>
    if (sweep P order σ).2 then run order n (sweep P order σ).1 else (sweep P order σ).1

/-- The values after `run`, and whether the last sweep has changed something. -/
def runChanged (order : List V) : ℕ → (V → S) → (V → S) × Bool
  | 0, σ => (σ, true)
  | n + 1, σ =>
    if (sweep P order σ).2 then runChanged order n (sweep P order σ).1
    else ((sweep P order σ).1, false)

/-- Every vertex has the value that it evaluates to. -/
def IsFixpoint (order : List V) (σ : V → S) : Prop := ∀ v ∈ order, P.eval v σ = σ v

variable {P} {order : List V}

/-- The value of the vertex that is visited becomes what it evaluates to. -/
theorem visit_fst (hlaw : P.Lawful) (r : (V → S) × Bool) (v : V) :
    (visit P r v).1 = Function.update r.1 v (P.eval v r.1) := by
  unfold visit
  split_ifs with h
  · rw [← (hlaw _ _).mp h, Function.update_eq_self]
  · rfl

/-- A change that has been recorded is not forgotten. -/
theorem foldl_visit_changed {r : (V → S) × Bool} (h : r.2 = true) :
    (order.foldl (visit P) r).2 = true := by
  induction order generalizing r with
  | nil => exact h
  | cons v order ih =>
    apply ih
    unfold visit
    split_ifs
    · exact h
    · rfl

/-- Systems that evaluate the vertices of the order alike run alike. -/
theorem run_congr {Q : System V S} (hsame : P.same = Q.same)
    (heval : ∀ v ∈ order, P.eval v = Q.eval v) (n : ℕ) (σ : V → S) :
    run P order n σ = run Q order n σ := by
  have hsweep : ∀ τ, sweep P order τ = sweep Q order τ := by
    intro τ
    unfold sweep
    apply List.foldl_ext
    intro r v hv
    unfold visit
    rw [hsame, heval v hv]
  induction n generalizing σ with
  | zero => rfl
  | succ n ih => rw [run, run, hsweep, ih]

/-- A sweep without changes has met a fixpoint. -/
theorem sweep_unchanged (hlaw : P.Lawful) {σ : V → S} (h : (sweep P order σ).2 = false) :
    (sweep P order σ).1 = σ ∧ IsFixpoint P order σ := by
  unfold sweep at h ⊢
  induction order with
  | nil => exact ⟨rfl, fun v hv => absurd hv List.not_mem_nil⟩
  | cons v order ih =>
    rw [List.foldl_cons] at h ⊢
    by_cases hsame : P.same (σ v) (P.eval v σ) = true
    · have hvisit : visit P (σ, false) v = (σ, false) := if_pos hsame
      rw [hvisit] at h ⊢
      obtain ⟨hσ, hfix⟩ := ih h
      refine ⟨hσ, fun w hw => ?_⟩
      rcases List.mem_cons.mp hw with rfl | hw
      · exact ((hlaw _ _).mp hsame).symm
      · exact hfix w hw
    · have hvisit : (visit P (σ, false) v).2 = true := by
        unfold visit
        rw [if_neg hsame]
      rw [foldl_visit_changed hvisit] at h
      exact absurd h (by simp)

/-- A run whose last sweep has not changed anything ends in a fixpoint. -/
theorem isFixpoint_of_runChanged (hlaw : P.Lawful) {n : ℕ} {σ : V → S}
    (h : (runChanged P order n σ).2 = false) : IsFixpoint P order (runChanged P order n σ).1 := by
  induction n generalizing σ with
  | zero => simp [runChanged] at h
  | succ n ih =>
    unfold runChanged at h ⊢
    split_ifs at h ⊢ with hsweep
    · exact ih h
    · obtain ⟨heq, hfix⟩ := sweep_unchanged hlaw (eq_false_of_ne_true hsweep)
      rwa [heq]

/-- What every update preserves holds after a run. -/
theorem runChanged_induction (hlaw : P.Lawful) {I : (V → S) → Prop}
    (hstep : ∀ v ∈ order, ∀ τ, I τ → I (Function.update τ v (P.eval v τ))) (n : ℕ) {σ : V → S}
    (h : I σ) : I (runChanged P order n σ).1 := by
  have hsweep : ∀ τ, I τ → I (sweep P order τ).1 := by
    have hrest : ∀ (l : List V), (∀ v ∈ l, v ∈ order) → ∀ r : (V → S) × Bool, I r.1 →
        I (l.foldl (visit P) r).1 := by
      intro l
      induction l with
      | nil => exact fun _ _ hr => hr
      | cons v l ih =>
        intro hmem r hr
        refine ih (fun w hw => hmem w (List.mem_cons_of_mem v hw)) _ ?_
        rw [visit_fst hlaw]
        exact hstep v (hmem v List.mem_cons_self) r.1 hr
    exact fun τ hτ => hrest order (fun _ hv => hv) (τ, false) hτ
  induction n generalizing σ with
  | zero => exact h
  | succ n ih =>
    unfold runChanged
    split_ifs
    · exact ih (hsweep σ h)
    · exact hsweep σ h

/-- A vertex that always evaluates to one value has it after a sweep over it. -/
theorem foldl_visit_const (hlaw : P.Lawful) {v : V} {c : S} (heval : ∀ τ, P.eval v τ = c)
    (r : (V → S) × Bool) (h : v ∈ order ∨ r.1 v = c) : (order.foldl (visit P) r).1 v = c := by
  induction order generalizing r with
  | nil => exact h.resolve_left List.not_mem_nil
  | cons w order ih =>
    apply ih
    rw [visit_fst hlaw]
    by_cases hw : v = w
    · subst hw
      rw [Function.update_self, heval]
      exact Or.inr rfl
    · rw [Function.update_of_ne hw, List.mem_cons, or_iff_right hw] at *
      exact h

/-- **A vertex that always evaluates to one value** has it after a run. -/
theorem runChanged_const (hlaw : P.Lawful) {v : V} {c : S} (hv : v ∈ order)
    (heval : ∀ τ, P.eval v τ = c) (n : ℕ) (σ : V → S) :
    (runChanged P order (n + 1) σ).1 v = c := by
  have hsweep : (sweep P order σ).1 v = c := foldl_visit_const hlaw heval (σ, false) (Or.inl hv)
  unfold runChanged
  split_ifs
  · refine runChanged_induction hlaw (I := fun τ => τ v = c) ?_ n hsweep
    intro w _ τ hτ
    by_cases hw : v = w
    · subst hw
      rw [Function.update_self, heval]
    · rwa [Function.update_of_ne hw]
  · exact hsweep

/-- **Stopping early makes no difference**: the result is that of the number of sweeps. -/
theorem run_eq_iterate (hlaw : P.Lawful) (n : ℕ) (σ : V → S) :
    run P order n σ = (fun τ => (sweep P order τ).1)^[n] σ := by
  induction n generalizing σ with
  | zero => rfl
  | succ n ih =>
    rw [run, Function.iterate_succ_apply]
    split_ifs with h
    · exact ih _
    · obtain ⟨hσ, hfix⟩ := sweep_unchanged hlaw (Bool.eq_false_iff.mpr h)
      have hstay : ∀ m, (fun τ => (sweep P order τ).1)^[m] σ = σ := by
        intro m
        induction m with
        | zero => rfl
        | succ m ihm => rw [Function.iterate_succ_apply, hσ, ihm]
      rw [hσ, hstay]

end Sweeps

/-! ## Chains of dependencies -/

/-- A chain of dependencies from a vertex to one at which something arises, with `n` dependencies
that delay. -/
inductive DelayChain {V : Type*} (dep late : V → V → Prop) (source : V → Prop) : ℕ → V → Prop
  | source {v : V} (h : source v) : DelayChain dep late source 0 v
  | early {n : ℕ} {v w : V} (h : dep v w) (hearly : ¬ late v w)
      (chain : DelayChain dep late source n w) : DelayChain dep late source n v
  | late {n : ℕ} {v w : V} (h : dep v w) (hlate : late v w)
      (chain : DelayChain dep late source n w) : DelayChain dep late source (n + 1) v

/-- Vertices that do not delay come earlier in the order, and those that delay do not. -/
structure Sorted {V : Type*} (order : List V) (late : V → V → Prop) : Prop where
  before : ∀ l₁ v l₂, order = l₁ ++ v :: l₂ → ∀ w ∈ order, ¬ late v w → w ∈ l₁
  after : ∀ l₁ v l₂, order = l₁ ++ v :: l₂ → ∀ w, late v w → w ∉ l₁

section Chains

variable {V S : Type*} [DecidableEq V] {P : System V S} {order : List V}
variable {dep late : V → V → Prop} {source : V → Prop}

variable {φ : V → S} (hlaw : P.Lawful) (hsorted : Sorted order late)
include hlaw hsorted

/-- What one sweep settles: a vertex whose late dependencies are settled before it, and whose other
dependencies it settles too. -/
theorem sweep_settled (hφ : IsFixpoint P order φ)
    (hreads : ∀ v ∈ order, ∀ σ τ, (∀ w, dep v w → σ w = τ w) → P.eval v σ = P.eval v τ)
    (hdep : ∀ v ∈ order, ∀ w, dep v w → w ∈ order) {A B : V → Prop} (hAB : ∀ v, A v → B v)
    (hB : ∀ v, B v → ∀ w, dep v w → (late v w → A w) ∧ (¬ late v w → B w)) {σ : V → S}
    (hσ : ∀ v ∈ order, A v → σ v = φ v) : ∀ v ∈ order, B v → (sweep P order σ).1 v = φ v := by
  have hrest : ∀ (l₂ l₁ : List V) (r : (V → S) × Bool), order = l₁ ++ l₂ →
      (∀ v ∈ order, A v → r.1 v = φ v) → (∀ v ∈ l₁, B v → r.1 v = φ v) →
      ∀ v ∈ order, B v → (l₂.foldl (visit P) r).1 v = φ v := by
    intro l₂
    induction l₂ with
    | nil =>
      intro l₁ r hl _ hdone v hv hBv
      rw [List.append_nil] at hl
      exact hdone v (hl ▸ hv) hBv
    | cons v l₂ ih =>
      intro l₁ r hl hA hdone
      have hv : v ∈ order := hl ▸ List.mem_append_right l₁ List.mem_cons_self
      have heval : B v → P.eval v r.1 = φ v := by
        intro hBv
        rw [← hφ v hv]
        refine hreads v hv _ _ fun w hw => ?_
        by_cases hlate : late v w
        · exact hA w (hdep v hv w hw) ((hB v hBv w hw).1 hlate)
        · exact hdone w (hsorted.before l₁ v l₂ hl w (hdep v hv w hw) hlate)
            ((hB v hBv w hw).2 hlate)
      have hvisit : ∀ w, (B w → r.1 w = φ w) → B w → (visit P r v).1 w = φ w := by
        intro w hw hBw
        rw [visit_fst hlaw]
        by_cases hwv : w = v
        · rw [hwv, Function.update_self]
          exact heval (hwv ▸ hBw)
        · rw [Function.update_of_ne hwv]
          exact hw hBw
      rw [List.foldl_cons]
      refine ih (l₁ ++ [v]) (visit P r v) (by rw [hl, List.append_assoc, List.singleton_append])
        (fun w hw hAw => hvisit w (fun _ => hA w hw hAw) (hAB w hAw)) fun w hw hBw => ?_
      rcases List.mem_append.mp hw with hw | hw
      · exact hvisit w (hdone w hw) hBw
      · rw [visit_fst hlaw, List.mem_singleton.mp hw, Function.update_self]
        exact heval (List.mem_singleton.mp hw ▸ hBw)
  exact hrest order [] (σ, false) rfl hσ fun v hv => absurd hv List.not_mem_nil

/-- **Settled values**: after `n` sweeps a vertex has its final value, if all of its chains have less
than `n` dependencies that delay. Vertices without chains have it from the start.

**Proof sketch.** The next sweep settles a vertex if its late dependencies are settled already,
which have chains with one delay less, and its early ones are settled in the sweep itself. -/
theorem iterate_settled (hφ : IsFixpoint P order φ)
    (hreads : ∀ v ∈ order, ∀ σ τ, (∀ w, dep v w → σ w = τ w) → P.eval v σ = P.eval v τ)
    (hdep : ∀ v ∈ order, ∀ w, dep v w → w ∈ order) {σ : V → S}
    (hσ : ∀ v ∈ order, (∀ n, ¬ DelayChain dep late source n v) → σ v = φ v) (n : ℕ) :
    ∀ v ∈ order, (∀ k, DelayChain dep late source k v → k < n) →
      (fun τ => (sweep P order τ).1)^[n] σ v = φ v := by
  induction n with
  | zero => exact fun v hv h => hσ v hv fun k hk => absurd (h k hk) (Nat.not_lt_zero k)
  | succ n ih =>
    rw [Function.iterate_succ_apply']
    refine sweep_settled hlaw hsorted hφ hreads hdep
      (A := fun v => ∀ k, DelayChain dep late source k v → k < n) (fun v h k hk => ?_)
      (fun v h w hw => ⟨fun hlate k hk => ?_, fun hearly k hk => ?_⟩) ih
    · exact Nat.lt_succ_of_lt (h k hk)
    · exact Nat.lt_of_succ_lt_succ (h _ (.late hw hlate hk))
    · exact h k (.early hw hearly hk)

/-- **What has not arrived**: suppose that values carry numbers, and that a vertex takes a number
other than zero only from another vertex, where it is one less if that vertex is a late one. Then
after `n` sweeps only numbers below `n` have arrived.

**Proof sketch.** Within a sweep the vertices visited so far may have one number more than the
others. A late vertex has not been visited yet. -/
theorem iterate_carries {T : ℕ → S → Prop} {σ : V → S} (hσ : ∀ k v, ¬ T k (σ v))
    (heval : ∀ v ∈ order, ∀ τ k, T k (P.eval v τ) →
      k = 0 ∨ ∃ w, (¬ late v w ∧ T k (τ w)) ∨ (late v w ∧ ∃ j, k = j + 1 ∧ T j (τ w))) (n : ℕ) :
    ∀ k v, T k ((fun τ => (sweep P order τ).1)^[n] σ v) → k < n := by
  induction n with
  | zero => exact fun k v h => absurd h (hσ k v)
  | succ n ih =>
    rw [Function.iterate_succ_apply']
    have hrest : ∀ (l₂ l₁ : List V) (r : (V → S) × Bool), order = l₁ ++ l₂ →
        (∀ k w, T k (r.1 w) → k < n + 1) → (∀ k, ∀ w ∉ l₁, T k (r.1 w) → k < n) →
        ∀ k w, T k ((l₂.foldl (visit P) r).1 w) → k < n + 1 := by
      intro l₂
      induction l₂ with
      | nil => exact fun l₁ r _ hall _ => hall
      | cons v l₂ ihl =>
        intro l₁ r hl hall hnew
        have hv : v ∈ order := hl ▸ List.mem_append_right l₁ List.mem_cons_self
        rw [List.foldl_cons]
        apply ihl (l₁ ++ [v]) _ (by rw [hl, List.append_assoc, List.singleton_append])
        · intro k w hw
          rw [visit_fst hlaw] at hw
          by_cases hwv : w = v
          · rw [hwv, Function.update_self] at hw
            rcases heval v hv r.1 k hw with rfl | ⟨u, ⟨-, hu⟩ | ⟨hlate, j, rfl, hu⟩⟩
            · exact Nat.succ_pos n
            · exact hall k u hu
            · exact Nat.succ_lt_succ (hnew j u (hsorted.after l₁ v l₂ hl u hlate) hu)
          · rw [Function.update_of_ne hwv] at hw
            exact hall k w hw
        · intro k w hw hT
          rw [List.mem_append, List.mem_singleton, not_or] at hw
          rw [visit_fst hlaw, Function.update_of_ne hw.2] at hT
          exact hnew k w hw.1 hT
    exact hrest order [] (_, false) rfl (fun k w hw => Nat.lt_succ_of_lt (ih k w hw))
      fun k w _ hw => ih k w hw

end Chains

end RoundRobin
