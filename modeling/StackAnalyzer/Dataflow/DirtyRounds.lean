import StackAnalyzer.Graph.Levels

set_option relaxedAutoImplicit false
set_option autoImplicit false

/-!
# Rounds over dirty vertices

Values of vertices are computed from each other. A round evaluates the dirty vertices of a list in
order and stores each new value at once. The readers of a vertex whose value changes are dirty in
the next round. Rounds are repeated until one changes nothing, or a number of them has been made.

A vertex that is not dirty has the value that it evaluates to. So a vertex is settled in the round
after those that it reads.

## Main definitions

* `DirtyRounds.System` — how vertices are evaluated, and which vertices read a vertex.
* `DirtyRounds.round`, `DirtyRounds.run` — a round, and the repeated rounds.
* `DirtyRounds.Consistent` — vertices that are not dirty have the value that they evaluate to.

## Main results

* `DirtyRounds.round_consistent`, `DirtyRounds.round_unchanged` — what a round keeps.
* `DirtyRounds.run_isFixpoint` — enough rounds lead to a fixpoint.
* `DirtyRounds.run_le` — a number that grows by one from vertex to vertex is bounded by the rounds.
-/

namespace DirtyRounds

/-- How a vertex is evaluated from the values of all, and the vertices that read it. -/
structure System (V S : Type*) where
  eval : V → (V → S) → S
  readers : V → List V

/-- The values, whether one has changed in this round, and who is dirty in the next one. -/
structure State (V S : Type*) where
  value : V → S
  changed : Bool
  nextDirty : V → Bool

section Rounds

variable {V S : Type*} [DecidableEq V] [DecidableEq S] (P : System V S)

/-- Evaluate a vertex if it is dirty. -/
def visit (dirty : V → Bool) (s : State V S) (v : V) : State V S :=
  if dirty v then
    if s.value v = P.eval v s.value then s
    else
      { value := Function.update s.value v (P.eval v s.value)
        changed := true
        nextDirty := fun w => s.nextDirty w || decide (w ∈ P.readers v) }
  else s

/-- Evaluate the dirty vertices in order. -/
def round (order : List V) (dirty : V → Bool) (σ : V → S) : State V S :=
  order.foldl (visit P dirty) ⟨σ, false, fun _ => false⟩

/-- Repeat the rounds while they change something, at most a number of times. -/
def run (order : List V) : ℕ → (V → Bool) → (V → S) → V → S
  | 0, _, σ => σ
  | n + 1, dirty, σ =>
    let s := round P order dirty σ
    if s.changed then run order n s.nextDirty s.value else s.value

end Rounds

section Spec

variable {V S : Type*} (P : System V S) (order : List V)

/-- Every vertex has the value that it evaluates to. -/
def IsFixpoint (σ : V → S) : Prop := ∀ v ∈ order, P.eval v σ = σ v

/-- A vertex that is not dirty has the value that it evaluates to. -/
def Consistent (dirty : V → Bool) (σ : V → S) : Prop :=
  ∀ v ∈ order, dirty v = false → P.eval v σ = σ v

/-- Vertices are evaluated from those that they depend on, whose readers they are. -/
structure Reads (dep : V → V → Prop) : Prop where
  eval_congr : ∀ v ∈ order, ∀ σ τ : V → S, (∀ w, dep v w → σ w = τ w) → P.eval v σ = P.eval v τ
  mem_order : ∀ v ∈ order, ∀ w, dep v w → w ∈ order
  mem_readers : ∀ v ∈ order, ∀ w, dep v w → v ∈ P.readers w

end Spec

variable {V S : Type*} [DecidableEq V] [DecidableEq S] {P : System V S} {order : List V}
variable {dep : V → V → Prop}

/-! ## One round -/

section Round

variable {dirty : V → Bool}

/-- What a visit does: nothing, or a new value that the vertex evaluates to. -/
theorem visit_cases (dirty : V → Bool) (s : State V S) (v : V) :
    (visit P dirty s v = s ∧ (dirty v = true → P.eval v s.value = s.value v)) ∨
      (dirty v = true ∧ visit P dirty s v =
        { value := Function.update s.value v (P.eval v s.value), changed := true,
          nextDirty := fun w => s.nextDirty w || decide (w ∈ P.readers v) }) := by
  unfold visit
  split_ifs with hd hsame
  · exact Or.inl ⟨rfl, fun _ => hsame.symm⟩
  · exact Or.inr ⟨hd, rfl⟩
  · exact Or.inl ⟨rfl, fun h => absurd h hd⟩

/-- A change that has been recorded is not forgotten. -/
theorem foldl_visit_changed {s : State V S} (h : s.changed = true) :
    (order.foldl (visit P dirty) s).changed = true := by
  induction order generalizing s with
  | nil => exact h
  | cons v order ih =>
    apply ih
    rcases visit_cases (P := P) dirty s v with ⟨heq, -⟩ | ⟨-, heq⟩
    · rw [heq]
      exact h
    · rw [heq]

/-- **A round without changes** leaves the values alone. -/
theorem round_unchanged {σ : V → S} (h : (round P order dirty σ).changed = false) :
    round P order dirty σ = ⟨σ, false, fun _ => false⟩ := by
  unfold round at h ⊢
  induction order with
  | nil => rfl
  | cons v order ih =>
    rw [List.foldl_cons] at h ⊢
    rcases visit_cases (P := P) dirty ⟨σ, false, fun _ => false⟩ v with
      ⟨heq, -⟩ | ⟨-, heq⟩
    · rw [heq] at h ⊢
      exact ih h
    · rw [foldl_visit_changed (by rw [heq])] at h
      exact absurd h (by simp)

variable (hreads : Reads P order dep)
include hreads

/-- **A round keeps the values consistent.**

**Proof sketch.** A vertex that has been visited, or need not be, keeps its value and what it
evaluates to, unless a vertex that it reads changes. Then it is dirty in the next round. -/
theorem round_consistent {σ : V → S} (h : Consistent P order dirty σ) :
    Consistent P order (round P order dirty σ).nextDirty (round P order dirty σ).value := by
  have hrest : ∀ (l₂ l₁ : List V) (s : State V S), order = l₁ ++ l₂ →
      (∀ v ∈ order, (v ∈ l₁ ∨ dirty v = false) → s.nextDirty v = false →
        P.eval v s.value = s.value v) →
      Consistent P order (l₂.foldl (visit P dirty) s).nextDirty
        (l₂.foldl (visit P dirty) s).value := by
    intro l₂
    induction l₂ with
    | nil =>
      intro l₁ s hl hs v hv hclean
      exact hs v hv (Or.inl (by rwa [hl, List.append_nil] at hv)) hclean
    | cons v l₂ ih =>
      intro l₁ s hl hs
      rw [List.foldl_cons]
      refine ih (l₁ ++ [v]) _ (by rw [hl, List.append_assoc, List.singleton_append]) ?_
      intro u hu hdone hclean
      rw [List.mem_append, List.mem_singleton, or_right_comm] at hdone
      rcases visit_cases (P := P) dirty s v with ⟨heq, hval⟩ | ⟨-, heq⟩
      · rw [heq] at hclean ⊢
        rcases hdone with hdone | rfl
        · exact hs u hu hdone hclean
        · by_cases hd : dirty u = true
          · exact hval hd
          · exact hs u hu (Or.inr (Bool.eq_false_iff.mpr hd)) hclean
      · rw [heq] at hclean ⊢
        simp only [Bool.or_eq_false_iff, decide_eq_false_iff_not] at hclean
        obtain ⟨hold, hreader⟩ := hclean
        have heval : P.eval u (Function.update s.value v (P.eval v s.value)) =
            P.eval u s.value := by
          refine hreads.eval_congr u hu _ _ fun w hw => Function.update_of_ne ?_ _ _
          rintro rfl
          exact hreader (hreads.mem_readers u hu w hw)
        simp only
        rw [heval]
        by_cases huv : u = v
        · rw [huv, Function.update_self]
        · rw [Function.update_of_ne huv]
          exact hs u hu (hdone.resolve_right huv) hold
  exact hrest order [] _ rfl fun v hv hdone _ => h v hv (hdone.resolve_left List.not_mem_nil)

/-- **What a round settles**: the vertices that read settled vertices only. -/
theorem round_settled {φ σ : V → S} (hφ : IsFixpoint P order φ)
    (hcons : Consistent P order dirty σ) {A B : V → Prop} (hAB : ∀ v, A v → B v)
    (hB : ∀ v, B v → ∀ w, dep v w → A w) (hσ : ∀ v ∈ order, A v → σ v = φ v) :
    ∀ v ∈ order, B v → (round P order dirty σ).value v = φ v := by
  have hrest : ∀ (l₂ l₁ : List V) (s : State V S), order = l₁ ++ l₂ →
      (∀ v ∈ order, A v → s.value v = φ v) →
      (∀ v ∈ order, B v → (v ∈ l₁ ∨ dirty v = false) → s.value v = φ v) →
      ∀ v ∈ order, B v → (l₂.foldl (visit P dirty) s).value v = φ v := by
    intro l₂
    induction l₂ with
    | nil =>
      intro l₁ s hl _ hdone v hv hBv
      exact hdone v hv hBv (Or.inl (by rwa [hl, List.append_nil] at hv))
    | cons v l₂ ih =>
      intro l₁ s hl hA hdone
      have hv : v ∈ order := hl ▸ List.mem_append_right l₁ List.mem_cons_self
      have heval : ∀ u ∈ order, B u → P.eval u s.value = φ u := by
        intro u hu hBu
        rw [← hφ u hu]
        exact hreads.eval_congr u hu _ _ fun w hw =>
          hA w (hreads.mem_order u hu w hw) (hB u hBu w hw)
      rw [List.foldl_cons]
      refine ih (l₁ ++ [v]) _ (by rw [hl, List.append_assoc, List.singleton_append]) ?_ ?_
      · intro u hu hAu
        rcases visit_cases (P := P) dirty s v with ⟨heq, -⟩ | ⟨-, heq⟩
        · rw [heq]
          exact hA u hu hAu
        · rw [heq]
          by_cases huv : u = v
          · simp only [huv, Function.update_self]
            exact heval v hv (huv ▸ hAB u hAu)
          · simp only [Function.update_of_ne huv]
            exact hA u hu hAu
      · intro u hu hBu hcase
        rw [List.mem_append, List.mem_singleton, or_right_comm] at hcase
        rcases visit_cases (P := P) dirty s v with ⟨heq, hval⟩ | ⟨-, heq⟩
        · rw [heq]
          rcases hcase with hcase | rfl
          · exact hdone u hu hBu hcase
          · by_cases hd : dirty u = true
            · rw [← hval hd]
              exact heval u hu hBu
            · exact hdone u hu hBu (Or.inr (Bool.eq_false_iff.mpr hd))
        · rw [heq]
          by_cases huv : u = v
          · simp only [huv, Function.update_self]
            exact heval v hv (huv ▸ hBu)
          · simp only [Function.update_of_ne huv]
            exact hdone u hu hBu (hcase.resolve_right huv)
  refine hrest order [] _ rfl hσ fun v hv hBv hcase => ?_
  show σ v = φ v
  rw [← hcons v hv (hcase.resolve_left List.not_mem_nil), ← hφ v hv]
  exact hreads.eval_congr v hv _ _ fun w hw => hσ w (hreads.mem_order v hv w hw) (hB v hBv w hw)

end Round

/-! ## All rounds -/

section Run

/-- What holds of the first values and of all that vertices evaluate to holds in the end. -/
theorem run_forall {p : V → S → Prop} (heval : ∀ v ∈ order, ∀ τ, p v (P.eval v τ)) (n : ℕ)
    {dirty : V → Bool} {σ : V → S} (hσ : ∀ v, p v (σ v)) (v : V) :
    p v (run P order n dirty σ v) := by
  have hround : ∀ (dirty : V → Bool) (l : List V) (s : State V S), (∀ v ∈ l, v ∈ order) →
      (∀ v, p v (s.value v)) → ∀ v, p v ((l.foldl (visit P dirty) s).value v) := by
    intro dirty l
    induction l with
    | nil => exact fun s _ hs => hs
    | cons u l ih =>
      intro s hl hs
      refine ih _ (fun v hv => hl v (List.mem_cons_of_mem u hv)) fun v => ?_
      rcases visit_cases (P := P) dirty s u with ⟨heq, -⟩ | ⟨-, heq⟩
      · rw [heq]
        exact hs v
      · rw [heq]
        by_cases hvu : v = u
        · simp only [hvu, Function.update_self]
          exact heval u (hl u List.mem_cons_self) s.value
        · simpa only [Function.update_of_ne hvu] using hs v
  induction n generalizing dirty σ with
  | zero => exact hσ v
  | succ n ih =>
    have hnext : ∀ v, p v ((round P order dirty σ).value v) :=
      hround dirty order ⟨σ, false, fun _ => false⟩ (fun v hv => hv) hσ
    rw [run]
    split_ifs
    · exact ih hnext
    · exact hnext v

/-- Vertices that evaluate alike have the same values in the end. -/
theorem run_congr {P' : System V S} (heval : ∀ v ∈ order, P.eval v = P'.eval v)
    (hreaders : P.readers = P'.readers) (n : ℕ) (dirty : V → Bool) (σ : V → S) :
    run P order n dirty σ = run P' order n dirty σ := by
  have hround : ∀ (dirty : V → Bool) (σ : V → S),
      round P order dirty σ = round P' order dirty σ := by
    intro dirty σ
    have hfold : ∀ (l : List V) (s : State V S), (∀ v ∈ l, v ∈ order) →
        l.foldl (visit P dirty) s = l.foldl (visit P' dirty) s := by
      intro l
      induction l with
      | nil => exact fun s _ => rfl
      | cons u l ih =>
        intro s hl
        have hvisit : visit P dirty s u = visit P' dirty s u := by
          rw [visit, visit, heval u (hl u List.mem_cons_self), hreaders]
        rw [List.foldl_cons, List.foldl_cons, hvisit]
        exact ih _ fun v hv => hl v (List.mem_cons_of_mem u hv)
    exact hfold order _ fun v hv => hv
  induction n generalizing dirty σ with
  | zero => rfl
  | succ n ih =>
    rw [run, run, hround]
    split_ifs
    · exact ih _ _
    · rfl

/-- **Enough rounds lead to a fixpoint**: `level` is larger than that of every vertex read, and at
most the number of rounds.

**Proof sketch.** After `k` rounds the vertices with a level of at most `k` are settled. A round
without changes has met a fixpoint, because no vertex is dirty behind it. -/
theorem run_isFixpoint (hwf : WellFounded fun w v => dep v w) (hreads : Reads P order dep)
    {level : V → ℕ} (hlevel : ∀ v w, dep v w → level w < level v) (hpos : ∀ v, 0 < level v) {n : ℕ}
    (hle : ∀ v ∈ order, level v ≤ n) {dirty : V → Bool} (hdirty : ∀ v ∈ order, dirty v = true)
    (σ : V → S) : IsFixpoint P order (run P order n dirty σ) := by
  obtain ⟨φ, hφ⟩ := Graph.exists_solution hwf hreads.eval_congr σ
  have hrun : ∀ (m k : ℕ) (dirty : V → Bool) (τ : V → S), k + m = n →
      Consistent P order dirty τ → (∀ v ∈ order, level v ≤ k → τ v = φ v) →
      IsFixpoint P order (run P order m dirty τ) := by
    intro m
    induction m with
    | zero =>
      intro k dirty τ hk _ hsettled v hv
      have hall : ∀ w ∈ order, τ w = φ w := fun w hw => hsettled w hw (by
        have := hle w hw
        omega)
      rw [run, hall v hv, ← hφ v hv]
      exact hreads.eval_congr v hv _ _ fun w hw => hall w (hreads.mem_order v hv w hw)
    | succ m ih =>
      intro k dirty τ hk hcons hsettled
      rw [run]
      have hnext := round_consistent hreads hcons
      split_ifs with hchanged
      · refine ih (k + 1) _ _ (by omega) hnext ?_
        refine round_settled hreads hφ hcons (A := fun v => level v ≤ k) (fun v h => by omega)
          (fun v h w hw => ?_) hsettled
        have := hlevel v w hw
        omega
      · have hround := round_unchanged (Bool.eq_false_iff.mpr hchanged)
        rw [hround] at hnext
        simp only [hround]
        exact fun v hv => hnext v hv rfl
  refine hrun n 0 _ σ (Nat.zero_add n) (fun v hv h => by simp [hdirty v hv] at h) fun v _ h => ?_
  have := hpos v
  omega

/-- **A bound by rounds**: a number that is at most one, or at most one more than that of a vertex
that comes later in the order, is at most the number of rounds. -/
theorem run_le {P : System V ℕ} (late : V → V → Prop)
    (hafter : ∀ l₁ v l₂, order = l₁ ++ v :: l₂ → ∀ w, late v w → w ∉ l₁)
    (heval : ∀ v ∈ order, ∀ τ, P.eval v τ ≤ 1 ∨ ∃ w, late v w ∧ P.eval v τ ≤ τ w + 1) (n : ℕ)
    (dirty : V → Bool) (v : V) : run P order n dirty (fun _ => 0) v ≤ n := by
  have hround : ∀ (k : ℕ) (dirty : V → Bool) (σ : V → ℕ), (∀ v, σ v ≤ k) →
      ∀ v, (round P order dirty σ).value v ≤ k + 1 := by
    intro k dirty σ hσ
    have hrest : ∀ (l₂ l₁ : List V) (s : State V ℕ), order = l₁ ++ l₂ →
        (∀ v, s.value v ≤ k + 1) → (∀ v ∉ l₁, s.value v ≤ k) →
        ∀ v, (l₂.foldl (visit P dirty) s).value v ≤ k + 1 := by
      intro l₂
      induction l₂ with
      | nil => exact fun _ s _ hall _ => hall
      | cons v l₂ ih =>
        intro l₁ s hl hall hnew
        have hv : v ∈ order := hl ▸ List.mem_append_right l₁ List.mem_cons_self
        have hval : P.eval v s.value ≤ k + 1 := by
          rcases heval v hv s.value with h | ⟨w, hlate, h⟩
          · omega
          · have := hnew w (hafter l₁ v l₂ hl w hlate)
            omega
        rw [List.foldl_cons]
        refine ih (l₁ ++ [v]) _ (by rw [hl, List.append_assoc, List.singleton_append])
          (fun u => ?_) fun u hu => ?_
        · rcases visit_cases (P := P) dirty s v with ⟨heq, -⟩ | ⟨-, heq⟩
          · rw [heq]
            exact hall u
          · rw [heq]
            by_cases huv : u = v
            · simpa only [huv, Function.update_self] using hval
            · simpa only [Function.update_of_ne huv] using hall u
        · rw [List.mem_append, List.mem_singleton, not_or] at hu
          rcases visit_cases (P := P) dirty s v with ⟨heq, -⟩ | ⟨-, heq⟩
          · rw [heq]
            exact hnew u hu.1
          · rw [heq]
            simpa only [Function.update_of_ne hu.2] using hnew u hu.1
    exact hrest order [] _ rfl (fun v => (hσ v).trans (Nat.le_succ k)) fun v _ => hσ v
  have hrun : ∀ (m k : ℕ) (dirty : V → Bool) (σ : V → ℕ), (∀ v, σ v ≤ k) →
      ∀ v, run P order m dirty σ v ≤ k + m := by
    intro m
    induction m with
    | zero => exact fun k dirty σ hσ => hσ
    | succ m ih =>
      intro k dirty σ hσ v
      rw [run]
      split_ifs with hchanged
      · have := ih (k + 1) (round P order dirty σ).nextDirty _ (hround k dirty σ hσ) v
        omega
      · have hle := hround k dirty σ hσ v
        omega
  simpa using hrun n 0 dirty (fun _ => 0) (fun _ => le_rfl) v

end Run

end DirtyRounds
