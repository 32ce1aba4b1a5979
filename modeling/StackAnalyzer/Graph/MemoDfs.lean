import StackAnalyzer.Graph.Reach

set_option relaxedAutoImplicit false
set_option autoImplicit false

/-!
# Memoised accumulation by depth-first search

A depth-first search that computes a value for every vertex from the values of its successors
and memoises it: `total v = plus (loc v) (join of the successors' values)`. A successor that is
still being visited contributes only its local value `loc`, and the value memoised for a vertex
is final even if such a shortcut was taken below it.

What the search computes is described by a *schedule*: the order in which vertices finish, and
for every vertex the vertices that were being visited when it was. The schedule depends on the
graph and on the order of the roots alone, not on the values, and the computed totals are the
unique solution of the equations that it prescribes.

## Main definitions

* `Graph.MemoDfs.Algebra` — the operations `bot`, `join`, `plus` on values.
* `Graph.MemoDfs.visit`, `Graph.MemoDfs.run` — the search and its loop over the roots.
* `Graph.MemoDfs.Schedule`, `Graph.MemoDfs.Schedule.Solves` — schedules and their equations.

## Main results

* `Graph.MemoDfs.visit_grow` — what one call does to a state with the invariant.
* `Graph.MemoDfs.exists_schedule` — there is one schedule whose equations the totals of every
  run, with any local values, solve.
-/

namespace Graph.MemoDfs

variable {V E ι : Type*}

/-- The state of a vertex in the search. -/
inductive VisitState
  | notVisited
  | visiting
  | visited
  deriving DecidableEq

/-- The operations on values. -/
structure Algebra (E : Type*) where
  bot : E
  join : E → E → E
  plus : E → E → E

/-- The join of the values of a list of vertices, from the left. -/
def Algebra.joinAll (A : Algebra E) (f : V → E) (cs : List V) : E :=
  cs.foldl (fun m c => A.join m (f c)) A.bot

/-- The join depends only on the values of the listed vertices. -/
theorem Algebra.joinAll_congr (A : Algebra E) {f g : V → E} {cs : List V}
    (h : ∀ c ∈ cs, f c = g c) : A.joinAll f cs = A.joinAll g cs := by
  unfold Algebra.joinAll
  generalize A.bot = e
  induction cs generalizing e with
  | nil => rfl
  | cons c cs ih =>
    rw [List.foldl_cons, List.foldl_cons, h c List.mem_cons_self]
    exact ih (fun d hd => h d (List.mem_cons_of_mem _ hd)) _

/-- The search state: the mark and the memoised total of every vertex. -/
structure State (V E : Type*) where
  mark : V → VisitState
  total : V → Option E

namespace State

/-- The state before the search. -/
def init : State V E := ⟨fun _ => .notVisited, fun _ => none⟩

variable [DecidableEq V]

/-- `State[v] = Visiting`. -/
def enter (s : State V E) (v : V) : State V E :=
  { s with mark := Function.update s.mark v .visiting }

/-- Memoise the total of `v` and set `State[v] = Visited`. -/
def leave (s : State V E) (v : V) (e : E) : State V E :=
  ⟨Function.update s.mark v .visited, Function.update s.total v (some e)⟩

/-- `v` has been entered. -/
def seen (s : State V E) (v : V) : Bool := decide (s.mark v ≠ .notVisited)

end State

/-- The loop over the successors: visit each one and join its value to the accumulator. -/
def calleeLoop (A : Algebra E) (visit : V → State V E → E × State V E) :
    List V → E → State V E → E × State V E
  | [], m, s => (m, s)
  | c :: cs, m, s => calleeLoop A visit cs (A.join m (visit c s).1) (visit c s).2

/-- The recursive search. -/
def visit [DecidableEq V] (A : Algebra E) (succ : V → List V) (loc : V → E) :
    ℕ → V → State V E → E × State V E
  | 0, _, s => (A.bot, s)
  | fuel + 1, v, s =>
    match s.mark v with
    | .visiting => (loc v, s)
    | .visited => ((s.total v).getD A.bot, s)
    | .notVisited =>
      let r := calleeLoop A (visit A succ loc fuel) (succ v) A.bot (s.enter v)
      (A.plus (loc v) r.1, r.2.leave v (A.plus (loc v) r.1))

/-- The loop over the roots: visit those that are not visited yet. -/
def run [DecidableEq V] (A : Algebra E) (succ : V → List V) (loc : V → E) (fuel : ℕ) :
    List V → State V E → State V E
  | [], s => s
  | v :: vs, s =>
    run A succ loc fuel vs
      (if s.mark v = .notVisited then (visit A succ loc fuel v s).2 else s)

/-- What a call on a vertex that has been entered returns. -/
def State.value (A : Algebra E) (loc : V → E) (s : State V E) (v : V) : E :=
  match s.mark v with
  | .visiting => loc v
  | _ => (s.total v).getD A.bot

/-! ## The invariant -/

/-- The equation of a vertex `g`: successors in `back` contribute their local value, the others
their total. -/
def Equation (A : Algebra E) (succ : V → List V) (loc : V → E) (back : V → Bool)
    (T : V → Option E) (g : V) : Prop :=
  T g = some (A.plus (loc g)
    (A.joinAll (fun c => if back c then loc c else (T c).getD A.bot) (succ g)))

/-- The invariant, with the finishing order so far and, for each finished vertex, the vertices
that were being visited when it was. -/
structure Inv (A : Algebra E) (succ : V → List V) (loc : V → E) (order : List V)
    (back : V → V → Bool) (s : State V E) : Prop where
  mem_iff : ∀ g, s.mark g = .visited ↔ g ∈ order
  nodup : order.Nodup
  back_self : ∀ g ∈ order, back g g = true
  back_reach : ∀ g ∈ order, ∀ c, back g c = true → Reach succ c g
  back_seen : ∀ g ∈ order, ∀ c, back g c = true → s.mark c ≠ .notVisited
  earlier : ∀ g ∈ order, ∃ pre post, order = pre ++ g :: post ∧
    ∀ c ∈ succ g, back g c = true ∨ c ∈ pre
  solved : ∀ g ∈ order, Equation A succ loc (back g) s.total g
  untouched : ∀ g, g ∉ order → s.total g = none

/-- The later state `s'` has finished the vertices `new`, all of them with the vertices visited
in `s` below them on the stack. -/
structure Grow (A : Algebra E) (succ : V → List V) (loc : V → E) (order new : List V)
    (back back' : V → V → Bool) (s s' : State V E) : Prop where
  inv : Inv A succ loc (order ++ new) back' s'
  back_old : ∀ g ∈ order, back' g = back g
  visiting : ∀ g, s'.mark g = .visiting ↔ s.mark g = .visiting
  total_old : ∀ g ∈ order, s'.total g = s.total g
  back_new : ∀ g ∈ new, ∀ c, s.mark c = .visiting → back' g c = true

variable {A : Algebra E} {succ : V → List V} {loc : V → E} {order new new' : List V}
  {back back' back'' : V → V → Bool} {s s' s'' : State V E}

namespace Grow

/-- Nothing happened. -/
theorem refl (h : Inv A succ loc order back s) : Grow A succ loc order [] back back s s where
  inv := by simpa using h
  back_old _ _ := rfl
  visiting _ := Iff.rfl
  total_old _ _ := rfl
  back_new g hg := by simp at hg

/-- Growth is transitive. -/
theorem trans (h : Grow A succ loc order new back back' s s')
    (h' : Grow A succ loc (order ++ new) new' back' back'' s' s'') :
    Grow A succ loc order (new ++ new') back back'' s s'' where
  inv := by simpa only [List.append_assoc] using h'.inv
  back_old g hg := (h'.back_old g (List.mem_append_left _ hg)).trans (h.back_old g hg)
  visiting g := (h'.visiting g).trans (h.visiting g)
  total_old g hg := (h'.total_old g (List.mem_append_left _ hg)).trans (h.total_old g hg)
  back_new g hg c hc := by
    rcases List.mem_append.mp hg with hg | hg
    · rw [h'.back_old g (List.mem_append_right _ hg)]
      exact h.back_new g hg c hc
    · exact h'.back_new g hg c ((h.visiting c).mpr hc)

/-- Vertices that were entered stay entered. -/
theorem seen (h : Grow A succ loc order new back back' s s')
    (hinv : Inv A succ loc order back s) {v : V} (hv : s.mark v ≠ .notVisited) :
    s'.mark v ≠ .notVisited := by
  cases hm : s.mark v with
  | notVisited => exact absurd hm hv
  | visiting => rw [(h.visiting v).mpr hm]; decide
  | visited =>
    rw [(h.inv.mem_iff v).mpr (List.mem_append_left _ ((hinv.mem_iff v).mp hm))]
    decide

/-- The value of a vertex that was entered stays. -/
theorem value (h : Grow A succ loc order new back back' s s')
    (hinv : Inv A succ loc order back s) {v : V} (hv : s.mark v ≠ .notVisited) :
    s'.value A loc v = s.value A loc v := by
  cases hm : s.mark v with
  | notVisited => exact absurd hm hv
  | visiting => simp only [State.value, hm, (h.visiting v).mpr hm]
  | visited =>
    have hmem := (hinv.mem_iff v).mp hm
    have hm' := (h.inv.mem_iff v).mpr (List.mem_append_left new hmem)
    simp only [State.value, hm, hm', h.total_old v hmem]

end Grow

/-- What a call on `v` does: it returns the value that `v` has afterwards, finishes only vertices
that `v` reaches, and, if `v` was new, finishes it with exactly the vertices visited before and
`v` itself on the stack. -/
structure CallPost (A : Algebra E) (succ : V → List V) (loc : V → E) (v : V) (order new : List V)
    (back back' : V → V → Bool) (s : State V E) (r : E × State V E) : Prop where
  grow : Grow A succ loc order new back back' s r.2
  seen : r.2.mark v ≠ .notVisited
  value : r.1 = r.2.value A loc v
  reach : ∀ g ∈ new, Reach succ v g
  isNew : s.mark v = .notVisited →
    v ∈ new ∧ (∀ u, back' v u = true ↔ u = v ∨ s.mark u = .visiting) ∧
      ∀ g ∈ new, back' g v = true

/-- The loop visits every successor and joins the values they have at its end. -/
theorem calleeLoop_grow {visit : V → State V E → E × State V E} {U : List V} {fuel : ℕ}
    {P : V → Prop}
    (hvisit : ∀ c, P c → ∀ order back s, Inv A succ loc order back s →
      (∀ u, s.mark u = .visiting → Reach succ u c) → unseen U s.seen < fuel →
      ∃ new back', CallPost A succ loc c order new back back' s (visit c s)) :
    ∀ (cs : List V) (m : E) (order : List V) (back : V → V → Bool) (s : State V E),
      (∀ c ∈ cs, P c) → Inv A succ loc order back s →
      (∀ c ∈ cs, ∀ u, s.mark u = .visiting → Reach succ u c) → unseen U s.seen < fuel →
      ∃ new back', Grow A succ loc order new back back' s (calleeLoop A visit cs m s).2 ∧
        (∀ c ∈ cs, (calleeLoop A visit cs m s).2.mark c ≠ .notVisited) ∧
        (calleeLoop A visit cs m s).1 =
          cs.foldl (fun e c => A.join e ((calleeLoop A visit cs m s).2.value A loc c)) m ∧
        ∀ g ∈ new, ∃ c ∈ cs, Reach succ c g
  | [], m, order, back, s, _, hinv, _, _ =>
    ⟨[], back, Grow.refl hinv, by simp, rfl, by simp⟩
  | c :: cs, m, order, back, s, hP, hinv, hreach, hfuel => by
    obtain ⟨new, back₁, h⟩ :=
      hvisit c (hP c List.mem_cons_self) order back s hinv (hreach c List.mem_cons_self) hfuel
    have hfuel' : unseen U (visit c s).2.seen < fuel := by
      refine lt_of_le_of_lt (unseen_mono fun u hu => ?_) hfuel
      simpa [State.seen] using h.grow.seen hinv (by simpa [State.seen] using hu)
    obtain ⟨new', back₂, hg, hseen, hval, hr⟩ := calleeLoop_grow hvisit cs
      (A.join m (visit c s).1) _ _ (visit c s).2 (fun d hd => hP d (List.mem_cons_of_mem _ hd))
      h.grow.inv (fun d hd u hu => hreach d (List.mem_cons_of_mem _ hd) u ((h.grow.visiting u).mp hu))
      hfuel'
    refine ⟨new ++ new', back₂, h.grow.trans hg, ?_, ?_, ?_⟩
    · intro d hd
      rcases List.mem_cons.mp hd with rfl | hd
      · exact hg.seen h.grow.inv h.seen
      · exact hseen d hd
    · -- the value returned for `c` is the one it still has at the end
      have hc : (calleeLoop A visit cs (A.join m (visit c s).1) (visit c s).2).2.value A loc c =
          (visit c s).1 := (hg.value h.grow.inv h.seen).trans h.value.symm
      simp only [calleeLoop, List.foldl_cons, hc]
      exact hval
    · intro g hgm
      rcases List.mem_append.mp hgm with hgm | hgm
      · exact ⟨c, List.mem_cons_self, h.reach g hgm⟩
      · obtain ⟨d, hd, hdg⟩ := hr g hgm
        exact ⟨d, List.mem_cons_of_mem _ hd, hdg⟩

variable [DecidableEq V]

/-- Entering a new vertex keeps the invariant. -/
theorem Inv.enter (h : Inv A succ loc order back s) {v : V} (hv : s.mark v = .notVisited) :
    Inv A succ loc order back (s.enter v) := by
  refine ⟨fun g => ?_, h.nodup, h.back_self, h.back_reach, fun g hg c hc => ?_, h.earlier,
    h.solved, h.untouched⟩
  · rw [← h.mem_iff g]
    by_cases hg : g = v
    · subst hg
      simp [State.enter, hv]
    · simp [State.enter, hg]
  · have hcs := h.back_seen g hg c hc
    by_cases hcv : c = v
    · simp [State.enter, hcv]
    · simpa [State.enter, hcv] using hcs

/-- Leaving `v` with the join of its successors' values keeps the invariant. -/
theorem Inv.leave (h : Inv A succ loc order back s) {v : V} (hv : s.mark v = .visiting)
    (hstack : ∀ u, s.mark u = .visiting → Reach succ u v)
    (hseen : ∀ c ∈ succ v, s.mark c ≠ .notVisited) :
    Inv A succ loc (order ++ [v])
      (Function.update back v fun u => decide (s.mark u = .visiting))
      (s.leave v (A.plus (loc v) (A.joinAll (s.value A loc) (succ v)))) := by
  have hvo : v ∉ order := fun hvo => by
    rw [← h.mem_iff v, hv] at hvo
    exact absurd hvo (by decide)
  have hne : ∀ {g}, g ∈ order → g ≠ v := fun hg he => hvo (he ▸ hg)
  have hmark : ∀ {c}, s.mark c ≠ .notVisited →
      (s.leave v (A.plus (loc v) (A.joinAll (s.value A loc) (succ v)))).mark c ≠ .notVisited :=
    fun {c} hc => by
      by_cases hcv : c = v
      · simp [State.leave, hcv]
      · simpa [State.leave, hcv] using hc
  refine ⟨fun g => ?_, ?_, fun g hg => ?_, fun g hg c hc => ?_, fun g hg c hc => hmark ?_,
    fun g hg => ?_, fun g hg => ?_, fun g hg => ?_⟩
  · rw [List.mem_append, List.mem_singleton, ← h.mem_iff g]
    by_cases hg : g = v
    · simp [State.leave, hg]
    · simp [State.leave, hg]
  · rw [List.nodup_append]
    exact ⟨h.nodup, List.nodup_singleton v, fun a ha b hb => by
      rw [List.mem_singleton.mp hb]; exact hne ha⟩
  · rcases List.mem_append.mp hg with hg | hg
    · rw [Function.update_of_ne (hne hg)]
      exact h.back_self g hg
    · rw [List.mem_singleton.mp hg, Function.update_self]
      simp [hv]
  · rcases List.mem_append.mp hg with hg | hg
    · rw [Function.update_of_ne (hne hg)] at hc
      exact h.back_reach g hg c hc
    · rw [List.mem_singleton.mp hg, Function.update_self, decide_eq_true_eq] at hc
      rw [List.mem_singleton.mp hg]
      exact hstack c hc
  · rcases List.mem_append.mp hg with hg | hg
    · rw [Function.update_of_ne (hne hg)] at hc
      exact h.back_seen g hg c hc
    · rw [List.mem_singleton.mp hg, Function.update_self, decide_eq_true_eq] at hc
      rw [hc]
      decide
  · rcases List.mem_append.mp hg with hg | hg
    · obtain ⟨pre, post, heq, hpre⟩ := h.earlier g hg
      refine ⟨pre, post ++ [v], by rw [heq]; simp, ?_⟩
      rw [Function.update_of_ne (hne hg)]
      exact hpre
    · obtain rfl := List.mem_singleton.mp hg
      refine ⟨order, [], rfl, fun c hc => ?_⟩
      rw [Function.update_self]
      cases hm : s.mark c with
      | notVisited => exact absurd hm (hseen c hc)
      | visiting => exact Or.inl (by simp)
      | visited => exact Or.inr ((h.mem_iff c).mp hm)
  · unfold Equation
    rcases List.mem_append.mp hg with hg | hg
    · obtain ⟨pre, post, heq, hpre⟩ := h.earlier g hg
      rw [Function.update_of_ne (hne hg)]
      simp only [State.leave, Function.update_of_ne (hne hg)]
      rw [h.solved g hg]
      -- the successors that contribute their total finished before `g`, so they are not `v`
      refine congrArg (fun e => some (A.plus (loc g) e)) (A.joinAll_congr fun c hc => ?_)
      rcases hpre c hc with hb | hb
      · simp [hb]
      · rw [Function.update_of_ne (hne (by rw [heq]; exact List.mem_append_left _ hb))]
    · obtain rfl := List.mem_singleton.mp hg
      simp only [State.leave, Function.update_self]
      refine congrArg (fun e => some (A.plus (loc g) e)) (A.joinAll_congr fun c hc => ?_)
      cases hm : s.mark c with
      | notVisited => exact absurd hm (hseen c hc)
      | visiting => simp [State.value, hm]
      | visited =>
        have hcg : c ≠ g := hne ((h.mem_iff c).mp hm)
        simp [State.value, hm, hcg]
  · simp only [List.mem_append, List.mem_singleton, not_or] at hg
    simp only [State.leave, Function.update_of_ne hg.2]
    exact h.untouched g hg.1

/-- **What one call does**: on a vertex that all vertices being visited reach, with more fuel than
there are vertices to enter.

**Proof sketch.** Induction on the fuel. A vertex already entered returns its value. A new vertex
is entered, its successors are visited by the loop, and leaving it adds its equation: the stack
at that time is the stack of the call and the vertex itself. -/
theorem visit_grow {U : List V} (hU : Closed succ U) :
    ∀ (fuel : ℕ) (v : V) (order : List V) (back : V → V → Bool) (s : State V E), v ∈ U →
      Inv A succ loc order back s → (∀ u, s.mark u = .visiting → Reach succ u v) →
      unseen U s.seen < fuel →
      ∃ new back', CallPost A succ loc v order new back back' s (visit A succ loc fuel v s)
  | 0, _, _, _, _, _, _, _, hfuel => absurd hfuel (Nat.not_lt_zero _)
  | fuel + 1, v, order, back, s, hvU, hinv, hstack, hfuel => by
    cases hm : s.mark v with
    | visiting =>
      refine ⟨[], back, ?_⟩
      simp only [visit, hm]
      exact ⟨Grow.refl hinv, by simp [hm], by simp [State.value, hm], by simp, by simp [hm]⟩
    | visited =>
      refine ⟨[], back, ?_⟩
      simp only [visit, hm]
      exact ⟨Grow.refl hinv, by simp [hm], by simp [State.value, hm], by simp, by simp [hm]⟩
    | notVisited =>
      have hmark : ∀ u, (s.enter v).mark u = .visiting ↔ u = v ∨ s.mark u = .visiting := fun u => by
        by_cases hu : u = v
        · subst hu; simp [State.enter]
        · simp [State.enter, hu]
      have hlt : unseen U (s.enter v).seen < unseen U s.seen := by
        refine unseen_lt (fun u hu => ?_) hvU (by simp [State.seen, hm])
          (by simp [State.seen, State.enter])
        by_cases huv : u = v
        · subst huv; simp [State.seen, State.enter]
        · simpa [State.seen, State.enter, huv] using hu
      have hvisit : ∀ c, c ∈ succ v → ∀ order back s, Inv A succ loc order back s →
          (∀ u, s.mark u = .visiting → Reach succ u c) → unseen U s.seen < fuel →
          ∃ new back', CallPost A succ loc c order new back back' s (visit A succ loc fuel c s) :=
        fun c hc order back s hinv hst hf =>
          visit_grow hU fuel c order back s (hU v hvU c hc) hinv hst hf
      obtain ⟨new, back', hg, hseen, hval, hr⟩ := calleeLoop_grow hvisit (succ v) A.bot order back
        (s.enter v) (fun c hc => hc) (hinv.enter hm)
        (fun c hc u hu => by
          rcases (hmark u).mp hu with rfl | hu
          · exact Reach.edge hc
          · exact (hstack u hu).tail hc) (by omega)
      set r := calleeLoop A (visit A succ loc fuel) (succ v) A.bot (s.enter v) with hrdef
      have hvis : ∀ u, r.2.mark u = .visiting ↔ u = v ∨ s.mark u = .visiting := fun u =>
        (hg.visiting u).trans (hmark u)
      have hleave := hg.inv.leave ((hvis v).mpr (Or.inl rfl)) (fun u hu => by
        rcases (hvis u).mp hu with rfl | hu
        · exact Reach.refl _
        · exact hstack u hu) hseen
      have hvo : v ∉ order := fun hvo => by
        rw [← hinv.mem_iff v, hm] at hvo
        exact absurd hvo (by decide)
      have hvn : v ∉ order ++ new := fun hvn => by
        rw [← hg.inv.mem_iff v, (hvis v).mpr (Or.inl rfl)] at hvn
        exact absurd hvn (by decide)
      have hne : ∀ {g}, g ∈ order ++ new → g ≠ v := fun hgm he => hvn (he ▸ hgm)
      refine ⟨new ++ [v], Function.update back' v fun u => decide (r.2.mark u = .visiting), ?_⟩
      have hvisit : visit A succ loc (fuel + 1) v s =
          (A.plus (loc v) r.1, r.2.leave v (A.plus (loc v) r.1)) := by
        simp only [visit, hm, hrdef]
      rw [hvisit, show r.1 = A.joinAll (r.2.value A loc) (succ v) from hval]
      refine ⟨⟨by rw [← List.append_assoc]; exact hleave, fun g hgo => ?_, fun g => ?_,
        fun g hgo => ?_, fun g hgn c hc => ?_⟩, by simp [State.leave], by
          simp [State.value, State.leave], fun g hgn => ?_,
        fun _ => ⟨by simp, fun u => ?_, fun g hgn => ?_⟩⟩
      · rw [Function.update_of_ne (hne (List.mem_append_left _ hgo))]
        exact hg.back_old g hgo
      · by_cases hgv : g = v
        · subst hgv; simp [State.leave, hm]
        · simp only [State.leave, Function.update_of_ne hgv]
          rw [hvis g]
          simp [hgv]
      · simp only [State.leave, Function.update_of_ne (hne (List.mem_append_left _ hgo))]
        exact hg.total_old g hgo
      · rcases List.mem_append.mp hgn with hgn | hgn
        · rw [Function.update_of_ne (hne (List.mem_append_right _ hgn))]
          exact hg.back_new g hgn c ((hmark c).mpr (Or.inr hc))
        · rw [List.mem_singleton.mp hgn, Function.update_self, decide_eq_true_eq, hvis c]
          exact Or.inr hc
      · rcases List.mem_append.mp hgn with hgn | hgn
        · obtain ⟨c, hc, hcg⟩ := hr g hgn
          exact hcg.head hc
        · rw [List.mem_singleton.mp hgn]
          exact Reach.refl v
      · rw [Function.update_self, decide_eq_true_eq, hvis u]
      · rcases List.mem_append.mp hgn with hgn | hgn
        · rw [Function.update_of_ne (hne (List.mem_append_right _ hgn))]
          exact hg.back_new g hgn v ((hmark v).mpr (Or.inl rfl))
        · rw [List.mem_singleton.mp hgn, Function.update_self, decide_eq_true_eq, hvis v]
          exact Or.inl rfl

/-! ## The whole search -/

omit [DecidableEq V] in
/-- The invariant of the state before the search. -/
theorem Inv.init : Inv A succ loc [] back (State.init : State V E) where
  mem_iff g := by simp [State.init]
  nodup := List.nodup_nil
  back_self g hg := by simp at hg
  back_reach g hg := by simp at hg
  back_seen g hg := by simp at hg
  earlier g hg := by simp at hg
  solved g hg := by simp at hg
  untouched g _ := rfl

omit [DecidableEq V] in
/-- When no vertex is being visited, the finished vertices are closed under reachability. -/
theorem Inv.closed (h : Inv A succ loc order back s) (hs : ∀ u, s.mark u ≠ .visiting) {u v : V}
    (hu : u ∈ order) (huv : Reach succ u v) : v ∈ order := by
  refine huv.mem_of_closed (P := (· ∈ order)) (fun g hg c hc => ?_) hu
  obtain ⟨pre, post, heq, hpre⟩ := h.earlier g hg
  rcases hpre c hc with hb | hb
  · rw [← h.mem_iff c]
    cases hm : s.mark c with
    | notVisited => exact absurd hm (h.back_seen g hg c hb)
    | visiting => exact absurd hm (hs c)
    | visited => rfl
  · rw [heq]
    exact List.mem_append_left _ hb

section Run

variable {U : List V} (hU : Closed succ U) {fuel : ℕ} (hfuel : U.length < fuel)
include hU hfuel

/-- One step of the loop over the roots. -/
theorem rootStep_grow {v : V} (hv : v ∈ U) (hinv : Inv A succ loc order back s)
    (hs : ∀ u, s.mark u ≠ .visiting) :
    ∃ new back', Grow A succ loc order new back back' s
        (if s.mark v = .notVisited then (visit A succ loc fuel v s).2 else s) ∧
      v ∈ order ++ new ∧ ∀ g ∈ new, Reach succ v g := by
  cases hm : s.mark v with
  | notVisited =>
    obtain ⟨new, back', h⟩ := visit_grow hU fuel v order back s hv hinv
      (fun u hu => absurd hu (hs u)) (lt_of_le_of_lt (List.length_filter_le _ _) hfuel)
    exact ⟨new, back', by simpa using h.grow, List.mem_append_right _ (h.isNew hm).1, h.reach⟩
  | visiting => exact absurd hm (hs v)
  | visited =>
    exact ⟨[], back, by simpa using Grow.refl hinv, by simpa using (hinv.mem_iff v).mp hm, by simp⟩

/-- **The loop over the roots** finishes the roots, and otherwise only what they reach. -/
theorem run_grow : ∀ (vs order : List V) (back : V → V → Bool) (s : State V E),
    (∀ v ∈ vs, v ∈ U) → Inv A succ loc order back s → (∀ u, s.mark u ≠ .visiting) →
    ∃ new back', Grow A succ loc order new back back' s (run A succ loc fuel vs s) ∧
      (∀ v ∈ vs, v ∈ order ++ new) ∧ ∀ g ∈ new, ∃ v ∈ vs, Reach succ v g
  | [], order, back, s, _, hinv, _ => ⟨[], back, Grow.refl hinv, by simp, by simp⟩
  | v :: vs, order, back, s, hvs, hinv, hs => by
    obtain ⟨new, back₁, h₁, hv, hr₁⟩ :=
      rootStep_grow hU hfuel (hvs v List.mem_cons_self) hinv hs
    obtain ⟨new', back₂, h₂, hvs', hr₂⟩ := run_grow vs _ back₁ _
      (fun w hw => hvs w (List.mem_cons_of_mem _ hw)) h₁.inv
      (fun u hu => hs u ((h₁.visiting u).mp hu))
    refine ⟨new ++ new', back₂, h₁.trans h₂, fun w hw => ?_, fun g hg => ?_⟩
    · rw [← List.append_assoc]
      rcases List.mem_cons.mp hw with rfl | hw
      · exact List.mem_append_left _ hv
      · exact hvs' w hw
    · rcases List.mem_append.mp hg with hg | hg
      · exact ⟨v, List.mem_cons_self, hr₁ g hg⟩
      · obtain ⟨w, hw, hwg⟩ := hr₂ g hg
        exact ⟨w, List.mem_cons_of_mem _ hw, hwg⟩

end Run

/-! ## Schedules -/

/-- How a search from `roots` proceeds: the finishing order, and for each vertex the vertices on
the stack when it finished. Every successor of a vertex was on that stack or finished earlier.
Everything the first root reaches finishes above it. -/
structure Schedule (succ : V → List V) (roots : List V) where
  order : List V
  back : V → V → Bool
  nodup : order.Nodup
  mem_iff : ∀ g, g ∈ order ↔ ∃ r ∈ roots, Reach succ r g
  back_self : ∀ g ∈ order, back g g = true
  back_reach : ∀ g ∈ order, ∀ c, back g c = true → Reach succ c g
  earlier : ∀ g ∈ order, ∃ pre post, order = pre ++ g :: post ∧
    ∀ c ∈ succ g, back g c = true ∨ c ∈ pre
  first : ∀ r ∈ roots.head?, (∀ c, back r c = true ↔ c = r) ∧
    ∀ g, Reach succ r g → back g r = true

/-- The totals `T` solve the equations of the schedule, and nothing else has a total. -/
def Schedule.Solves {succ : V → List V} {roots : List V} (S : Schedule succ roots)
    (A : Algebra E) (loc : V → E) (T : V → Option E) : Prop :=
  (∀ g ∈ S.order, Equation A succ loc (S.back g) T g) ∧ ∀ g ∉ S.order, T g = none

namespace Schedule

variable {roots : List V} (S : Schedule succ roots)

omit [DecidableEq V] in
/-- The finished vertices are closed under successors. -/
theorem mem_succ {g c : V} (hg : g ∈ S.order) (hc : c ∈ succ g) : c ∈ S.order := by
  obtain ⟨r, hr, hrg⟩ := (S.mem_iff g).mp hg
  exact (S.mem_iff c).mpr ⟨r, hr, hrg.tail hc⟩

omit [DecidableEq V] in
/-- At its place in the order, each successor of a vertex was on the stack or has finished. -/
theorem back_or_mem {pre post : List V} {g : V} (h : S.order = pre ++ g :: post) {c : V}
    (hc : c ∈ succ g) : S.back g c = true ∨ c ∈ pre := by
  obtain ⟨pre', post', h', hpre⟩ := S.earlier g (by rw [h]; simp)
  have hnd := S.nodup
  rw [h'] at h
  -- `g` occurs once in the order, so both splits are the same
  obtain ⟨rfl, -⟩ : pre' = pre ∧ post' = post := by
    have hnd' := hnd
    rw [h'] at hnd
    rw [h', h] at hnd'
    have h₁ : g ∉ pre' := fun hm => (List.nodup_append.mp hnd).2.2 g hm g List.mem_cons_self rfl
    have h₂ : g ∉ pre := fun hm => (List.nodup_append.mp hnd').2.2 g hm g List.mem_cons_self rfl
    rcases List.append_eq_append_iff.mp h with ⟨l, hl, hr⟩ | ⟨l, hl, hr⟩
    · cases l with
      | nil => simp_all
      | cons a l => simp only [List.cons_append, List.cons.injEq] at hr; simp_all
    · cases l with
      | nil => simp_all
      | cons a l => simp only [List.cons_append, List.cons.injEq] at hr; simp_all
  exact hpre c hc

omit [DecidableEq V] in
/-- Induction along the finishing order: a property of the successors that had finished, for all
vertices, passes to every vertex. -/
theorem induction {P : V → Prop}
    (h : ∀ g ∈ S.order, (∀ c ∈ succ g, S.back g c = false → P c) → P g) : ∀ g ∈ S.order, P g := by
  have hpre : ∀ (pre post : List V), S.order = pre ++ post → ∀ g ∈ pre, P g := by
    intro pre
    induction pre using List.reverseRecOn with
    | nil => simp
    | append_singleton pre g ih =>
      intro post heq d hd
      rw [List.append_assoc, List.singleton_append] at heq
      rcases List.mem_append.mp hd with hd | hd
      · exact ih _ heq d hd
      · obtain rfl := List.mem_singleton.mp hd
        refine h d (by rw [heq]; simp) fun c hc hb => ?_
        rcases S.back_or_mem heq hc with hb' | hb'
        · rw [hb] at hb'; exact absurd hb' (by decide)
        · exact ih _ heq c hb'
  exact hpre S.order [] (List.append_nil _).symm

end Schedule

/-- A single run follows a schedule. -/
theorem exists_schedule_of_run {U : List V} (hU : Closed succ U) {fuel : ℕ}
    (hfuel : U.length < fuel) {roots : List V} (hroots : ∀ v ∈ roots, v ∈ U) :
    ∃ S : Schedule succ roots, S.Solves A loc (run A succ loc fuel roots State.init).total := by
  have hinit : ∀ u, (State.init : State V E).mark u ≠ .visiting := by simp [State.init]
  cases roots with
  | nil =>
    exact ⟨⟨[], fun _ _ => false, List.nodup_nil, by simp, by simp, by simp, by simp, by simp⟩,
      by simp [Schedule.Solves, run, State.init]⟩
  | cons r rs =>
    -- the first root, on the empty stack
    have hstart : Inv A succ loc [] (fun _ _ => false) State.init := Inv.init
    obtain ⟨new₁, back₁, h₁⟩ := visit_grow hU fuel r [] (fun _ _ => false) State.init
      (hroots r List.mem_cons_self) hstart (fun u hu => absurd hu (hinit u))
      (lt_of_le_of_lt (List.length_filter_le _ _) hfuel)
    obtain ⟨hr, hback, hbelow⟩ := h₁.isNew rfl
    have hs₁ : ∀ u, (visit A succ loc fuel r State.init).2.mark u ≠ .visiting := fun u hu =>
      hinit u ((h₁.grow.visiting u).mp hu)
    -- the other roots
    obtain ⟨new₂, back₂, h₂, hrs, hreach⟩ := run_grow hU hfuel rs _ back₁ _
      (fun v hv => hroots v (List.mem_cons_of_mem _ hv)) h₁.grow.inv hs₁
    have hrun : run A succ loc fuel (r :: rs) State.init =
        run A succ loc fuel rs (visit A succ loc fuel r State.init).2 := by
      simp [run, State.init]
    have hinv := h₂.inv
    have hs₂ : ∀ u, (run A succ loc fuel rs (visit A succ loc fuel r State.init).2).mark u ≠
        .visiting := fun u hu => hs₁ u ((h₂.visiting u).mp hu)
    rw [List.nil_append] at hinv hrs
    refine ⟨⟨new₁ ++ new₂, back₂, hinv.nodup, fun g => ⟨fun hg => ?_, ?_⟩, hinv.back_self,
      hinv.back_reach, hinv.earlier, fun q hq => ?_⟩, ?_⟩
    · rcases List.mem_append.mp hg with hg | hg
      · exact ⟨r, List.mem_cons_self, h₁.reach g hg⟩
      · obtain ⟨v, hv, hvg⟩ := hreach g hg
        exact ⟨v, List.mem_cons_of_mem _ hv, hvg⟩
    · rintro ⟨v, hv, hvg⟩
      refine hinv.closed hs₂ ?_ hvg
      rcases List.mem_cons.mp hv with rfl | hv
      · exact List.mem_append_left _ hr
      · exact hrs v hv
    · obtain rfl : r = q := by simpa using hq
      refine ⟨fun c => ?_, fun g hg => ?_⟩
      · rw [h₂.back_old r hr, hback c]
        simp [State.init]
      · have hg₁ : g ∈ new₁ := h₁.grow.inv.closed hs₁ hr hg
        rw [h₂.back_old g hg₁]
        exact hbelow g hg₁
    · rw [hrun]
      exact ⟨hinv.solved, hinv.untouched⟩

/-! ## One schedule for all local values -/

section Homomorphism

variable {E' : Type*} {B : Algebra E'} {h : E → E'}

/-- The state with the map `h` applied to its totals. -/
def State.map (h : E → E') (s : State V E) : State V E' :=
  ⟨s.mark, fun v => (s.total v).map h⟩

variable (hbot : h A.bot = B.bot) (hjoin : ∀ x y, h (A.join x y) = B.join (h x) (h y))
  (hplus : ∀ x y, h (A.plus x y) = B.plus (h x) (h y))

omit [DecidableEq V] in
include hjoin in
/-- The successor loop commutes with a homomorphism, if the visits do. -/
theorem calleeLoop_map {visit : V → State V E → E × State V E}
    {visit' : V → State V E' → E' × State V E'}
    (hv : ∀ c s, visit' c (s.map h) = (h (visit c s).1, (visit c s).2.map h)) :
    ∀ (cs : List V) (m : E) (s : State V E),
      calleeLoop B visit' cs (h m) (s.map h) =
        (h (calleeLoop A visit cs m s).1, (calleeLoop A visit cs m s).2.map h)
  | [], _, _ => rfl
  | c :: cs, m, s => by
    simp only [calleeLoop, hv, ← hjoin]
    exact calleeLoop_map hv cs _ _

include hbot hjoin hplus

/-- The search commutes with a homomorphism. -/
theorem visit_map : ∀ (fuel : ℕ) (v : V) (s : State V E),
    visit B succ (fun u => h (loc u)) fuel v (s.map h) =
      (h (visit A succ loc fuel v s).1, (visit A succ loc fuel v s).2.map h)
  | 0, v, s => by simp only [visit, hbot]
  | fuel + 1, v, s => by
    have hmark : (s.map h).mark v = s.mark v := rfl
    cases hm : s.mark v with
    | visiting => simp only [visit, hmark, hm]
    | visited =>
      simp only [visit, hm, State.map]
      cases s.total v with
      | none => simp [hbot]
      | some e => simp
    | notVisited =>
      have hloop := calleeLoop_map hjoin (visit_map fuel) (succ v) A.bot (s.enter v)
      rw [hbot, show (s.enter v).map h = (s.map h).enter v from rfl] at hloop
      simp only [visit, hmark, hm, hloop, ← hplus]
      refine Prod.ext rfl ?_
      simp only [State.leave, State.map, State.mk.injEq, true_and]
      funext u
      by_cases hu : u = v
      · subst hu; simp
      · simp [hu]

/-- The loop over the roots commutes with a homomorphism. -/
theorem run_map (succ : V → List V) (loc : V → E) (fuel : ℕ) : ∀ (vs : List V) (s : State V E),
    run B succ (fun u => h (loc u)) fuel vs (s.map h) = (run A succ loc fuel vs s).map h
  | [], _ => rfl
  | v :: vs, s => by
    simp only [run, visit_map hbot hjoin hplus]
    rw [show (s.map h).mark v = s.mark v from rfl, ← run_map succ loc fuel vs]
    split_ifs <;> rfl

end Homomorphism

/-- The operations on functions into `E`, pointwise. -/
def Algebra.pointwise (ι : Type*) (A : Algebra E) : Algebra (ι → E) where
  bot := fun _ => A.bot
  join f g := fun i => A.join (f i) (g i)
  plus f g := fun i => A.plus (f i) (g i)

omit [DecidableEq V] in
/-- The join of functions, at a point. -/
theorem Algebra.joinAll_pointwise (A : Algebra E) (f : V → ι → E) (cs : List V) (i : ι) :
    (A.pointwise ι).joinAll f cs i = A.joinAll (fun c => f c i) cs := by
  unfold Algebra.joinAll
  have h : ∀ (cs : List V) (m : ι → E),
      (cs.foldl (fun m c => (A.pointwise ι).join m (f c)) m) i =
        cs.foldl (fun m c => A.join m (f c i)) (m i) := by
    intro cs
    induction cs with
    | nil => intro m; rfl
    | cons c cs ih => intro m; exact ih _
  exact h cs _

/-- **One schedule describes the runs with all local values.**

**Proof sketch.** Search once with the values "functions of the local values", where the local
value of `v` is evaluation at `v`. Evaluating that run at `loc` is a homomorphism onto the run
with `loc`, and it maps the equations of the one schedule to those for `loc`. -/
theorem exists_schedule (A : Algebra E) {U : List V} (hU : Closed succ U) {fuel : ℕ}
    (hfuel : U.length < fuel) {roots : List V} (hroots : ∀ v ∈ roots, v ∈ U) :
    ∃ S : Schedule succ roots,
      ∀ loc : V → E, S.Solves A loc (run A succ loc fuel roots State.init).total := by
  have hrun : ∃ S : Schedule succ roots, S.Solves (A.pointwise (V → E)) (fun v ρ => ρ v)
      (run (A.pointwise (V → E)) succ (fun v ρ => ρ v) fuel roots State.init).total :=
    exists_schedule_of_run hU hfuel hroots
  obtain ⟨S, hsol, hnone⟩ := hrun
  refine ⟨S, fun loc => ?_⟩
  have hmap : run A succ loc fuel roots ((State.init : State V ((V → E) → E)).map fun x => x loc) =
      (run (A.pointwise (V → E)) succ (fun v ρ => ρ v) fuel roots State.init).map
        fun x => x loc :=
    run_map (A := A.pointwise (V → E)) (h := fun x => x loc) rfl (fun _ _ => rfl)
      (fun _ _ => rfl) succ (fun v ρ => ρ v) fuel roots State.init
  rw [show (State.init : State V ((V → E) → E)).map (fun x => x loc) = State.init from rfl] at hmap
  rw [hmap]
  refine ⟨fun g hg => ?_, fun g hg => ?_⟩
  · unfold Equation
    simp only [State.map]
    rw [hsol g hg, Option.map_some]
    refine congrArg some (congrArg (A.plus (loc g)) ?_)
    rw [Algebra.joinAll_pointwise]
    refine A.joinAll_congr fun c _ => ?_
    cases S.back g c with
    | true => rfl
    | false => cases (run (A.pointwise (V → E)) succ (fun v ρ => ρ v) fuel roots
        State.init).total c <;> rfl
  · simp only [State.map]
    rw [hnone g hg]
    rfl

end Graph.MemoDfs
