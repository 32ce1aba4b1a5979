import Mathlib

set_option relaxedAutoImplicit false
set_option autoImplicit false

/-!
# A search with slots

A search with a stack of vertices, in which looking at a use of a vertex may push another vertex,
mark a slot (and push it), or push a vertex only if a slot is marked. A use whose slot is not marked
yet is not looked at again, so what is visited may depend on the order of the uses. This file says
when it does not.

## Main definitions

* `SlotSearch.Effect`, `SlotSearch.Search` — what a use does, and what it adds to the output.
* `SlotSearch.run` — the search in an order of the uses.
* `SlotSearch.Tracked` — what is visited if uses are looked at again.
* `SlotSearch.Trail` — the vertices that a search can visit one after the other.
* `SlotSearch.LateMark` — a slot can be marked after a use of it has been looked at.
* `SlotSearch.LoadsFollowed` — a use is followed exactly if its slot is marked at some time.

## Main results

* `SlotSearch.worklist_run` — the search ends.
* `SlotSearch.mem_visited_run_iff` — without late marks exactly the tracked vertices are visited.
* `SlotSearch.loadsFollowed_iff` — every order follows its uses iff there is no late mark.
-/

namespace SlotSearch

/-- What a use of a vertex does. -/
inductive Effect (V : Type*)
  | none
  | push (w : V)
  | mark (slot : V)
  | load (w : V) (slot : Option V)
  deriving DecidableEq

variable {V U A : Type*} [DecidableEq V]

namespace Effect

/-- The vertex that is pushed, with some slots marked. -/
def target (slots : List V) : Effect V → Option V
  | .none => Option.none
  | .push w => some w
  | .mark slot => some slot
  | .load w Option.none => some w
  | .load w (some slot) => if slot ∈ slots then some w else Option.none

/-- The vertex that may be pushed. -/
def mayPush : Effect V → Option V
  | .none => Option.none
  | .push w => some w
  | .mark slot => some slot
  | .load w _ => some w

/-- The slots after the effect. -/
def slotsAfter (slots : List V) : Effect V → List V
  | .mark slot => slot :: slots
  | _ => slots

theorem mayPush_of_target {slots : List V} {e : Effect V} {w : V} (h : e.target slots = some w) :
    e.mayPush = some w := by
  cases e with
  | none => exact h
  | push => exact h
  | mark => exact h
  | load x slot =>
    cases slot with
    | none => exact h
    | some slot =>
      change (if slot ∈ slots then some x else Option.none) = some w at h
      split_ifs at h
      exact h

/-- What is pushed with some slots marked is pushed with more of them. -/
theorem target_mono {slots slots' : List V} (hsub : ∀ s ∈ slots, s ∈ slots') {e : Effect V} {w : V}
    (h : e.target slots = some w) : e.target slots' = some w := by
  cases e with
  | none => exact h
  | push => exact h
  | mark => exact h
  | load x slot =>
    cases slot with
    | none => exact h
    | some slot =>
      change (if slot ∈ slots then some x else Option.none) = some w at h
      split_ifs at h with hslot
      exact (if_pos (hsub slot hslot)).trans h

omit [DecidableEq V] in
theorem mem_slotsAfter {slots : List V} {e : Effect V} {s : V} :
    s ∈ e.slotsAfter slots ↔ s ∈ slots ∨ e = .mark s := by
  cases e <;> simp [slotsAfter, or_comm, eq_comm]

end Effect

/-! ## The search -/

/-- What the uses of vertices do, and what they add to the output. -/
structure Search (V U A : Type*) where
  effect : V → U → Effect V
  emit : V → U → A → A

/-- The state of a search: the stack, the visited vertices with the last one in front, the marked
slots, and the output. -/
structure State (V A : Type*) where
  worklist : List V
  visited : List V
  slots : List V
  out : A

/-- Look at a use of a vertex. -/
def applyUse (S : Search V U A) (v : V) (st : State V A) (u : U) : State V A where
  worklist := ((S.effect v u).target st.slots).toList ++ st.worklist
  visited := st.visited
  slots := (S.effect v u).slotsAfter st.slots
  out := S.emit v u st.out

/-- Pop a vertex, and look at its uses if it has not been visited. -/
def step (S : Search V U A) (order : V → List U) (st : State V A) : State V A :=
  match st.worklist with
  | [] => st
  | v :: rest =>
    if v ∈ st.visited then { st with worklist := rest }
    else
      (order v).foldl (applyUse S v) { st with worklist := rest, visited := v :: st.visited }

/-- The state at the start. -/
def init (start : V) (a : A) : State V A := ⟨[start], [], [], a⟩

/-- Enough rounds: each pop but the first one is for a use. -/
def rounds [Fintype V] (uses : V → List U) : ℕ := 1 + ∑ v, (uses v).length

/-- The search. -/
def run [Fintype V] (S : Search V U A) (order : V → List U) (start : V) (a : A) : State V A :=
  (step S order)^[rounds order] (init start a)

/-! ## Looking at the uses of a vertex -/

section Uses

variable (S : Search V U A) (v : V)

theorem foldl_visited (us : List U) (st : State V A) :
    (us.foldl (applyUse S v) st).visited = st.visited := by
  induction us generalizing st with
  | nil => rfl
  | cons u us ih => rw [List.foldl_cons, ih, applyUse]

theorem foldl_out (us : List U) (st : State V A) :
    (us.foldl (applyUse S v) st).out = us.foldl (fun a u => S.emit v u a) st.out := by
  induction us generalizing st with
  | nil => rfl
  | cons u us ih => rw [List.foldl_cons, ih, List.foldl_cons, applyUse]

omit [DecidableEq V] in
theorem mem_pairs {vs : List V} {order : V → List U} {p : V × U} :
    p ∈ (vs.flatMap fun v => (order v).map fun u => (v, u)) ↔ p.1 ∈ vs ∧ p.2 ∈ order p.1 := by
  obtain ⟨v, u⟩ := p
  simp only [List.mem_flatMap, List.mem_map, Prod.mk.injEq]
  constructor
  · rintro ⟨v', hv', u', hu', rfl, rfl⟩
    exact ⟨hv', hu'⟩
  · rintro ⟨hv, hu⟩
    exact ⟨v, hv, u, hu, rfl, rfl⟩

omit [DecidableEq V] in
/-- What a fold adds, if each element adds something. -/
theorem mem_foldl {B X : Type*} {g : A → B → A} {M : A → X → Prop} {adds : B → X → Prop}
    (hadds : ∀ u a x, M (g a u) x ↔ M a x ∨ adds u x) (us : List B) (a : A) (x : X) :
    M (us.foldl g a) x ↔ M a x ∨ ∃ u ∈ us, adds u x := by
  induction us generalizing a with
  | nil => simp
  | cons u us ih => rw [List.foldl_cons, ih, hadds, or_assoc, List.exists_mem_cons_iff]

omit [DecidableEq V] in
theorem mem_foldl_emit {X : Type*} {M : A → X → Prop} {adds : V → U → X → Prop}
    (hemit : ∀ v u a x, M (S.emit v u a) x ↔ M a x ∨ adds v u x) (ps : List (V × U)) (a : A)
    (x : X) : M (ps.foldl (fun a p => S.emit p.1 p.2 a) a) x ↔
      M a x ∨ ∃ p ∈ ps, adds p.1 p.2 x :=
  mem_foldl (fun p => hemit p.1 p.2) ps a x

theorem mem_foldl_slots (us : List U) (st : State V A) (s : V) :
    s ∈ (us.foldl (applyUse S v) st).slots ↔
      s ∈ st.slots ∨ ∃ u ∈ us, S.effect v u = .mark s := by
  induction us generalizing st with
  | nil => simp
  | cons u us ih =>
    rw [List.foldl_cons, ih, applyUse, Effect.mem_slotsAfter, or_assoc, List.exists_mem_cons_iff]

theorem foldl_worklist_suffix (us : List U) (st : State V A) :
    st.worklist <:+ (us.foldl (applyUse S v) st).worklist := by
  induction us generalizing st with
  | nil => exact List.suffix_refl _
  | cons u us ih => exact (List.suffix_append _ _).trans (ih (applyUse S v st u))

theorem length_foldl_worklist (us : List U) (st : State V A) :
    (us.foldl (applyUse S v) st).worklist.length ≤ st.worklist.length + us.length := by
  induction us generalizing st with
  | nil => simp
  | cons u us ih =>
    have hone : ((S.effect v u).target st.slots).toList.length ≤ 1 := by
      cases (S.effect v u).target st.slots <;> simp
    refine (ih (applyUse S v st u)).trans ?_
    rw [applyUse, List.length_append, List.length_cons]
    omega

/-- What is on the stack was there, or is pushed for a use with the slots of the end. -/
theorem mem_foldl_worklist {us : List U} {st : State V A} {x : V}
    (h : x ∈ (us.foldl (applyUse S v) st).worklist) :
    x ∈ st.worklist ∨ ∃ u ∈ us, (S.effect v u).target
      (us.foldl (applyUse S v) st).slots = some x := by
  induction us generalizing st with
  | nil => exact Or.inl h
  | cons u us ih =>
    rw [List.foldl_cons] at h ⊢
    rcases ih h with hx | ⟨u', hu', hx⟩
    · rcases List.mem_append.mp hx with hx | hx
      · refine Or.inr ⟨u, List.mem_cons_self, Effect.target_mono ?_ (Option.mem_toList.mp hx)⟩
        intro s hs
        rw [mem_foldl_slots]
        exact Or.inl (Effect.mem_slotsAfter.mpr (Or.inl hs))
      · exact Or.inl hx
    · exact Or.inr ⟨u', List.mem_cons_of_mem u hu', hx⟩

/-- What is pushed for a use with the slots of the beginning is on the stack. -/
theorem mem_foldl_worklist_of_target {us : List U} {st : State V A} {u : U} (hu : u ∈ us) {x : V}
    (h : (S.effect v u).target st.slots = some x) :
    x ∈ (us.foldl (applyUse S v) st).worklist := by
  induction us generalizing st with
  | nil => exact absurd hu List.not_mem_nil
  | cons u' us ih =>
    rw [List.foldl_cons]
    rcases List.mem_cons.mp hu with rfl | hu
    · refine (foldl_worklist_suffix S v us _).subset ?_
      exact List.mem_append_left _ (Option.mem_toList.mpr h)
    · refine ih hu (Effect.target_mono ?_ h)
      intro s hs
      exact Effect.mem_slotsAfter.mpr (Or.inl hs)

end Uses

/-! ## The end of the search -/

section Termination

variable [Fintype V] (S : Search V U A) (order : V → List U)

/-- The uses of the vertices that are not visited. -/
def unvisitedUses (visited : List V) : ℕ :=
  ∑ v, if v ∈ visited then 0 else (order v).length

theorem unvisitedUses_cons {visited : List V} {v : V} (hv : v ∉ visited) :
    unvisitedUses order (v :: visited) + (order v).length = unvisitedUses order visited := by
  unfold unvisitedUses
  rw [← Finset.add_sum_erase _ _ (Finset.mem_univ v),
    ← Finset.add_sum_erase (a := v) Finset.univ (fun x => if x ∈ visited then 0 else _)
      (Finset.mem_univ v), if_pos List.mem_cons_self, if_neg hv, zero_add, add_comm]
  congr 1
  apply Finset.sum_congr rfl
  intro x hx
  have hne : x ≠ v := Finset.ne_of_mem_erase hx
  simp only [List.mem_cons, hne, false_or]

/-- A step makes the bound smaller while the stack is not empty. -/
theorem step_measure (st : State V A) (h : st.worklist ≠ []) :
    (step S order st).worklist.length + unvisitedUses order (step S order st).visited + 1 ≤
      st.worklist.length + unvisitedUses order st.visited := by
  obtain ⟨worklist, visited, slots, out⟩ := st
  cases worklist with
  | nil => exact absurd rfl h
  | cons v rest =>
    by_cases hv : v ∈ visited
    · simp only [step, if_pos hv, List.length_cons]
      omega
    · simp only [step, if_neg hv, foldl_visited]
      have hlen := length_foldl_worklist S v (order v) ⟨rest, v :: visited, slots, out⟩
      have hsum := unvisitedUses_cons order hv
      simp only [List.length_cons] at hlen ⊢
      omega

theorem iterate_step_measure (n : ℕ) (st : State V A) :
    ((step S order)^[n] st).worklist = [] ∨
      ((step S order)^[n] st).worklist.length +
        unvisitedUses order ((step S order)^[n] st).visited + n ≤
      st.worklist.length + unvisitedUses order st.visited := by
  induction n with
  | zero => exact Or.inr le_rfl
  | succ n ih =>
    rw [Function.iterate_succ_apply']
    by_cases hnil : ((step S order)^[n] st).worklist = []
    · refine Or.inl ?_
      simp only [step, hnil]
    · refine Or.inr ?_
      have hle := ih.resolve_left hnil
      have hstep := step_measure S order _ hnil
      omega

/-- The search ends. -/
theorem worklist_run (start : V) (a : A) : (run S order start a).worklist = [] := by
  rcases iterate_step_measure S order (rounds order) (init start a) with h | h
  · exact h
  · have hall : unvisitedUses order (init start a).visited = ∑ v, (order v).length := by
      simp [unvisitedUses, init]
    have hone : (init start a).worklist.length = 1 := rfl
    rw [hall, hone] at h
    unfold rounds at h
    apply List.eq_nil_of_length_eq_zero
    unfold run rounds
    omega

end Termination

/-! ## What is visited if uses are looked at again -/

namespace Effect

/-- A vertex is pushed if exactly the slots with a property are marked. -/
def Pushes (P : V → Prop) : Effect V → V → Prop
  | .none, _ => False
  | .push w, x => w = x
  | .mark slot, x => slot = x
  | .load w Option.none, x => w = x
  | .load w (some slot), x => P slot ∧ w = x

theorem target_eq_some_iff {slots : List V} {e : Effect V} {w : V} :
    e.target slots = some w ↔ e.Pushes (fun s => s ∈ slots) w := by
  cases e with
  | none => simp [target, Pushes]
  | push => simp [target, Pushes]
  | mark => simp [target, Pushes]
  | load x slot => cases slot <;> simp [target, Pushes]

omit [DecidableEq V] in
theorem Pushes.mono {P Q : V → Prop} (h : ∀ s, P s → Q s) {e : Effect V} {w : V}
    (hp : e.Pushes P w) : e.Pushes Q w := by
  cases e with
  | none => exact hp
  | push => exact hp
  | mark => exact hp
  | load x slot =>
    cases slot with
    | none => exact hp
    | some slot => exact ⟨h slot hp.1, hp.2⟩

omit [DecidableEq V] in
theorem Pushes.mayPush {P : V → Prop} {e : Effect V} {w : V} (hp : e.Pushes P w) :
    e.mayPush = some w := by
  cases e with
  | none => exact hp.elim
  | push => exact congrArg some hp
  | mark => exact congrArg some hp
  | load x slot =>
    cases slot with
    | none => exact congrArg some hp
    | some slot => exact congrArg some hp.2

omit [DecidableEq V] in
/-- What is pushed without any marks, or is a load of a marked slot. -/
theorem Pushes.cases {P : V → Prop} {e : Effect V} {w : V} (hp : e.Pushes P w) :
    e.Pushes (fun _ => False) w ∨ ∃ s, e = .load w (some s) ∧ P s := by
  cases e with
  | none => exact hp.elim
  | push => exact Or.inl hp
  | mark => exact Or.inl hp
  | load x slot =>
    cases slot with
    | none => exact Or.inl hp
    | some slot => exact Or.inr ⟨slot, by rw [hp.2], hp.1⟩

end Effect

section Tracking

variable (effect : V → U → Effect V) (uses : V → List U) (start : V)

/-- A use of one of the vertices marks a slot. -/
def MarkedBy (vs : List V) (s : V) : Prop := ∃ v ∈ vs, ∃ u ∈ uses v, effect v u = .mark s

/-- A vertex is visited if the uses of slots are looked at again. -/
inductive Tracked : V → Prop
  | start : Tracked start
  | follow {v w : V} {u : U} (hv : Tracked v) (hu : u ∈ uses v)
      (h : (effect v u).Pushes (fun _ => False) w) : Tracked w
  | load {v w s v' : V} {u u' : U} (hv : Tracked v) (hu : u ∈ uses v)
      (h : effect v u = .load w (some s)) (hv' : Tracked v') (hu' : u' ∈ uses v')
      (h' : effect v' u' = .mark s) : Tracked w

/-- The vertices `b`, with the last one in front, can be visited one after the other, and then `v`:
each next vertex is pushed for a use of the one before it, with the slots that are marked by now. -/
inductive Trail : List V → V → Prop
  | start : Trail [] start
  | step {b : List V} {v w : V} {u : U} (h : Trail b v) (hw : w ∉ v :: b) (hu : u ∈ uses v)
      (hpush : (effect v u).Pushes (MarkedBy effect uses (v :: b)) w) : Trail (v :: b) w

/-- **A late mark**: a use of a slot can be looked at, when the slot is not marked, that is marked
at some other time. -/
def LateMark : Prop :=
  ∃ (b : List V) (v w s v' : V) (u u' : U), Trail effect uses start b v ∧ u ∈ uses v ∧
    effect v u = .load w (some s) ∧ ¬MarkedBy effect uses b s ∧
    Tracked effect uses start v' ∧ u' ∈ uses v' ∧ effect v' u' = .mark s

/-- What is loaded from a slot is the start of nothing else. -/
def LoadsUnique : Prop :=
  ∀ (v w s : V) (u : U), u ∈ uses v → effect v u = .load w (some s) →
    w ≠ start ∧ ∀ v' u', u' ∈ uses v' → (effect v' u').mayPush = some w →
      v' = v ∧ effect v' u' = .load w (some s)

/-- **Uses are followed**: what is loaded from a slot is visited iff a use of a visited vertex marks
the slot. -/
def LoadsFollowed (visited : List V) : Prop :=
  ∀ (v w s : V) (u : U), v ∈ visited → u ∈ uses v → effect v u = .load w (some s) →
    (w ∈ visited ↔ MarkedBy effect uses visited s)

variable {effect uses start}

omit [DecidableEq V] in
theorem MarkedBy.mono {vs vs' : List V} (hsub : vs ⊆ vs') {s : V} (h : MarkedBy effect uses vs s) :
    MarkedBy effect uses vs' s := by
  obtain ⟨v, hv, hmark⟩ := h
  exact ⟨v, hsub hv, hmark⟩

omit [DecidableEq V] in
theorem markedBy_cons {v : V} {vs : List V} {s : V} : MarkedBy effect uses (v :: vs) s ↔
    (∃ u ∈ uses v, effect v u = .mark s) ∨ MarkedBy effect uses vs s := by
  simp [MarkedBy]

omit [DecidableEq V] in
/-- The vertex at the end of a trail is new. -/
theorem Trail.notMem {b : List V} {v : V} (h : Trail effect uses start b v) : v ∉ b := by
  cases h with
  | start => exact List.not_mem_nil
  | step _ hw => exact hw

omit [DecidableEq V] in
/-- All vertices of a trail are tracked. -/
theorem Trail.tracked {b : List V} {v : V} (h : Trail effect uses start b v) :
    Tracked effect uses start v ∧ ∀ x ∈ b, Tracked effect uses start x := by
  induction h with
  | start => exact ⟨.start, fun x hx => absurd hx List.not_mem_nil⟩
  | @step b v w u h hw hu hpush ih =>
    have hall : ∀ x ∈ v :: b, Tracked effect uses start x := by
      intro x hx
      rcases List.mem_cons.mp hx with rfl | hx
      · exact ih.1
      · exact ih.2 x hx
    refine ⟨?_, hall⟩
    rcases hpush.cases with hp | ⟨s, heffect, v', hv', u', hu', hmark⟩
    · exact .follow ih.1 hu hp
    · exact .load ih.1 hu heffect (hall v' hv') hu' hmark

omit [DecidableEq V] in
/-- If what has been visited is closed, then everything that is tracked has been visited. -/
theorem mem_of_closed {visited : List V} (hstart : start ∈ visited)
    (hclosed : ∀ v ∈ visited, ∀ u ∈ uses v, ∀ w,
      (effect v u).Pushes (MarkedBy effect uses visited) w → w ∈ visited)
    {v : V} (h : Tracked effect uses start v) : v ∈ visited := by
  induction h with
  | start => exact hstart
  | @follow v w u _ hu h ih =>
    exact hclosed v ih u hu w (h.mono fun s hs => hs.elim)
  | @load v w s v' u u' _ hu h _ hu' h' ih ih' =>
    refine hclosed v ih u hu w ?_
    rw [h]
    exact ⟨⟨v', ih', u', hu', h'⟩, rfl⟩

end Tracking

/-! ## What a step keeps -/

section Steps

variable (S : Search V U A) (uses order : V → List U) (start : V)

/-- A vertex has been pushed or visited. -/
def State.Seen (st : State V A) (x : V) : Prop := x ∈ st.visited ∨ x ∈ st.worklist

/-- The invariant of the search in any order of the uses. -/
structure Invariant (a : A) (st : State V A) : Prop where
  slots : ∀ s, s ∈ st.slots ↔ MarkedBy S.effect uses st.visited s
  seenStart : st.Seen start
  tracked : ∀ x, st.Seen x → Tracked S.effect uses start x
  follow : ∀ v ∈ st.visited, ∀ u ∈ uses v, ∀ w,
    (S.effect v u).Pushes (fun _ => False) w → st.Seen w
  out : st.out = (st.visited.reverse.flatMap fun v => (order v).map fun u => (v, u)).foldl
    (fun a p => S.emit p.1 p.2 a) a

/-- The invariant of the search if there is no late mark. -/
structure OnTime (st : State V A) : Prop where
  trail : ∀ x ∈ st.worklist, x ∈ st.visited ∨ ∃ b, b ⊆ st.visited ∧ Trail S.effect uses start b x
  closed : ∀ v ∈ st.visited, ∀ u ∈ uses v, ∀ w,
    (S.effect v u).Pushes (fun s => ∃ v' u', Tracked S.effect uses start v' ∧ u' ∈ uses v' ∧
      S.effect v' u' = .mark s) w → st.Seen w

/-- A step that visits a new vertex. -/
theorem step_of_notMem {v : V} {visited : List V} (hv : v ∉ visited) (rest slots : List V)
    (out : A) : step S order ⟨v :: rest, visited, slots, out⟩ =
      (order v).foldl (applyUse S v) ⟨rest, v :: visited, slots, out⟩ :=
  if_neg hv

/-- What a step is: the end, a vertex that has been visited, or a new one. -/
theorem step_cases (st : State V A) :
    (st.worklist = [] ∧ step S order st = st) ∨
    (∃ v rest, st.worklist = v :: rest ∧ v ∈ st.visited ∧
      step S order st = { st with worklist := rest }) ∨
    ∃ v rest, st.worklist = v :: rest ∧ v ∉ st.visited ∧ step S order st =
      (order v).foldl (applyUse S v) { st with worklist := rest, visited := v :: st.visited } := by
  obtain ⟨worklist, visited, slots, out⟩ := st
  cases worklist with
  | nil => exact Or.inl ⟨rfl, rfl⟩
  | cons v rest =>
    by_cases hv : v ∈ visited
    · exact Or.inr (Or.inl ⟨v, rest, rfl, hv, if_pos hv⟩)
    · exact Or.inr (Or.inr ⟨v, rest, rfl, hv, if_neg hv⟩)

variable {S uses order start}

/-- A vertex that has been seen stays so when a vertex is popped that is visited then. -/
theorem State.Seen.foldl {st : State V A} {v : V} {rest : List V} (hwork : st.worklist = v :: rest)
    (us : List U) {x : V} (h : st.Seen x) :
    (us.foldl (applyUse S v) { st with worklist := rest, visited := v :: st.visited }).Seen x := by
  unfold State.Seen at h ⊢
  rw [foldl_visited]
  rcases h with h | h
  · exact Or.inl (List.mem_cons_of_mem v h)
  · rw [hwork] at h
    rcases List.mem_cons.mp h with rfl | h
    · exact Or.inl List.mem_cons_self
    · exact Or.inr ((foldl_worklist_suffix S v us _).subset h)

omit [DecidableEq V] in
theorem State.Seen.pop {st : State V A} {v : V} {rest : List V} (hwork : st.worklist = v :: rest)
    (hv : v ∈ st.visited) {x : V} (h : st.Seen x) :
    State.Seen { st with worklist := rest } x := by
  rcases h with h | h
  · exact Or.inl h
  · rw [hwork] at h
    rcases List.mem_cons.mp h with rfl | h
    · exact Or.inl hv
    · exact Or.inr h

variable (hperm : ∀ v, (order v).Perm (uses v))

include hperm

/-- The slots after a vertex has been visited. -/
theorem mem_foldl_slots_iff {a : A} {st : State V A} (hinv : Invariant S uses order start a st)
    (v : V) (rest : List V) (s : V) :
    s ∈ ((order v).foldl (applyUse S v)
      { st with worklist := rest, visited := v :: st.visited }).slots ↔
        MarkedBy S.effect uses (v :: st.visited) s := by
  rw [mem_foldl_slots, hinv.slots, markedBy_cons, or_comm]
  simp only [(hperm v).mem_iff]

theorem Invariant.step {a : A} {st : State V A} (hinv : Invariant S uses order start a st) :
    Invariant S uses order start a (step S order st) := by
  rcases step_cases S order st with ⟨-, heq⟩ | ⟨v, rest, hwork, hv, heq⟩ | ⟨v, rest, hwork, hv, heq⟩
  · rw [heq]
    exact hinv
  · rw [heq]
    refine ⟨hinv.slots, hinv.seenStart.pop hwork hv, ?_, ?_, hinv.out⟩
    · intro x hx
      refine hinv.tracked x (hx.imp_right fun hmem => ?_)
      rw [hwork]
      exact List.mem_cons_of_mem v hmem
    · intro v' hv' u hu w hpush
      exact (hinv.follow v' hv' u hu w hpush).pop hwork hv
  · rw [heq]
    have hslots := mem_foldl_slots_iff hperm hinv v rest
    have hvt : Tracked S.effect uses start v :=
      hinv.tracked v (Or.inr (hwork ▸ List.mem_cons_self))
    have hvisited : ∀ x ∈ v :: st.visited, Tracked S.effect uses start x := by
      intro x hx
      rcases List.mem_cons.mp hx with rfl | hx
      · exact hvt
      · exact hinv.tracked x (Or.inl hx)
    refine ⟨?_, hinv.seenStart.foldl hwork _, ?_, ?_, ?_⟩
    · intro s
      rw [foldl_visited]
      exact hslots s
    · intro x hx
      rcases hx with hx | hx
      · rw [foldl_visited] at hx
        exact hvisited x hx
      · rcases mem_foldl_worklist S v hx with hx | ⟨u, hu, htarget⟩
        · exact hinv.tracked x (Or.inr (hwork ▸ List.mem_cons_of_mem v hx))
        · rw [Effect.target_eq_some_iff] at htarget
          have huses := (hperm v).mem_iff.mp hu
          rcases htarget.cases with hp | ⟨s, heffect, hs⟩
          · exact .follow hvt huses hp
          · obtain ⟨v', hv', u', hu', hmark⟩ := (hslots s).mp hs
            exact .load hvt huses heffect (hvisited v' hv') hu' hmark
    · intro v' hv' u hu w hpush
      rw [foldl_visited] at hv'
      rcases List.mem_cons.mp hv' with rfl | hv'
      · refine Or.inr (mem_foldl_worklist_of_target S v' ((hperm v').mem_iff.mpr hu) ?_)
        exact Effect.target_eq_some_iff.mpr (hpush.mono fun s hs => hs.elim)
      · exact (hinv.follow v' hv' u hu w hpush).foldl hwork _
    · rw [foldl_visited, foldl_out]
      simp only [List.reverse_cons, List.flatMap_append, List.foldl_append, ← hinv.out,
        List.flatMap_singleton, List.foldl_map]

/-- Without late marks, what is looked at too early is never marked. -/
theorem OnTime.step (hlate : ¬LateMark S.effect uses start) {a : A} {st : State V A}
    (hinv : Invariant S uses order start a st) (hon : OnTime S uses start st) :
    OnTime S uses start (step S order st) := by
  rcases step_cases S order st with ⟨-, heq⟩ | ⟨v, rest, hwork, hv, heq⟩ | ⟨v, rest, hwork, hv, heq⟩
  · rw [heq]
    exact hon
  · rw [heq]
    refine ⟨fun x hx => hon.trail x (hwork ▸ List.mem_cons_of_mem v hx), ?_⟩
    intro v' hv' u hu w hpush
    exact (hon.closed v' hv' u hu w hpush).pop hwork hv
  · rw [heq]
    obtain ⟨b, hsub, htrail⟩ :=
      (hon.trail v (hwork ▸ List.mem_cons_self)).resolve_left hv
    -- a slot that is marked at any time is marked before the vertex is visited
    have hmarked : ∀ u ∈ uses v, ∀ w s, S.effect v u = .load w (some s) →
        (∃ v' u', Tracked S.effect uses start v' ∧ u' ∈ uses v' ∧ S.effect v' u' = .mark s) →
        MarkedBy S.effect uses b s := by
      intro u hu w s heffect ⟨v', u', hv', hu', hmark⟩
      by_contra hnot
      exact hlate ⟨b, v, w, s, v', u, u', htrail, hu, heffect, hnot, hv', hu', hmark⟩
    constructor
    · intro x hx
      rw [foldl_visited]
      rcases mem_foldl_worklist S v hx with hx | ⟨u, hu, htarget⟩
      · refine (hon.trail x (hwork ▸ List.mem_cons_of_mem v hx)).imp
          (fun h => List.mem_cons_of_mem v h) fun ⟨b', hb', ht⟩ => ?_
        exact ⟨b', List.subset_cons_of_subset v hb', ht⟩
      · by_cases hmem : x ∈ v :: b
        · exact Or.inl (List.cons_subset_cons v hsub hmem)
        · have huses := (hperm v).mem_iff.mp hu
          refine Or.inr ⟨v :: b, List.cons_subset_cons v hsub, .step htrail hmem huses ?_⟩
          rw [Effect.target_eq_some_iff] at htarget
          rcases htarget.cases with hp | ⟨s, heffect, hs⟩
          · exact hp.mono fun s hs => hs.elim
          · rw [heffect]
            obtain ⟨v', hv', u', hu', hmark⟩ := (mem_foldl_slots_iff hperm hinv v rest s).mp hs
            have hv't : Tracked S.effect uses start v' := by
              rcases List.mem_cons.mp hv' with rfl | hv'
              · exact htrail.tracked.1
              · exact hinv.tracked v' (Or.inl hv')
            refine ⟨(hmarked u huses x s heffect ⟨v', u', hv't, hu', hmark⟩).mono ?_, rfl⟩
            exact List.subset_cons_self v b
    · intro v' hv' u hu w hpush
      rw [foldl_visited] at hv'
      rcases List.mem_cons.mp hv' with rfl | hv'
      · refine Or.inr (mem_foldl_worklist_of_target S v' ((hperm v').mem_iff.mpr hu) ?_)
        rw [Effect.target_eq_some_iff]
        rcases hpush.cases with hp | ⟨s, heffect, hs⟩
        · exact hp.mono fun s hs => hs.elim
        · rw [heffect]
          exact ⟨(hinv.slots s).mpr ((hmarked u hu w s heffect hs).mono hsub), rfl⟩
      · exact (hon.closed v' hv' u hu w hpush).foldl hwork _

end Steps

/-! ## What a run visits -/

section Runs

variable (S : Search V U A) {uses order : V → List U} (hperm : ∀ v, (order v).Perm (uses v))
variable (start : V) (a : A)

omit [DecidableEq V] in
theorem invariant_init : Invariant S uses order start a (init start a) where
  slots s := by simp [init, MarkedBy]
  seenStart := Or.inr List.mem_cons_self
  tracked x hx := by
    rcases hx with hx | hx
    · exact absurd hx List.not_mem_nil
    · rw [List.mem_singleton.mp hx]
      exact .start
  follow v hv := absurd hv List.not_mem_nil
  out := rfl

omit [DecidableEq V] in
theorem onTime_init : OnTime S uses start (init start a) where
  trail x hx := by
    rw [List.mem_singleton.mp hx]
    exact Or.inr ⟨[], List.nil_subset _, .start⟩
  closed v hv := absurd hv List.not_mem_nil

/-- At the end what has been seen has been visited. -/
theorem seen_run_iff [Fintype V] {x : V} :
    (run S order start a).Seen x ↔ x ∈ (run S order start a).visited := by
  unfold State.Seen
  rw [worklist_run]
  simp

include hperm

theorem invariant_iterate (n : ℕ) :
    Invariant S uses order start a ((step S order)^[n] (init start a)) := by
  induction n with
  | zero => exact invariant_init S start a
  | succ n ih =>
    rw [Function.iterate_succ_apply']
    exact ih.step hperm

theorem onTime_iterate (hlate : ¬LateMark S.effect uses start) (n : ℕ) :
    OnTime S uses start ((step S order)^[n] (init start a)) := by
  induction n with
  | zero => exact onTime_init S start a
  | succ n ih =>
    rw [Function.iterate_succ_apply']
    exact ih.step hperm hlate (invariant_iterate S hperm start a n)

variable [Fintype V]

/-- If the loads of a run are followed, then it visits what is tracked. -/
theorem mem_visited_of_followed
    (hfollow : LoadsFollowed S.effect uses (run S order start a).visited) {v : V} :
    v ∈ (run S order start a).visited ↔ Tracked S.effect uses start v := by
  have hinv : Invariant S uses order start a (run S order start a) :=
    invariant_iterate S hperm start a _
  refine ⟨fun hv => hinv.tracked v (Or.inl hv), fun hv => ?_⟩
  refine mem_of_closed ((seen_run_iff S start a).mp hinv.seenStart) ?_ hv
  intro x hx u hu w hpush
  rcases hpush.cases with hp | ⟨s, heffect, hs⟩
  · exact (seen_run_iff S start a).mp (hinv.follow x hx u hu w hp)
  · exact (hfollow x w s u hx hu heffect).mpr hs

/-- Without late marks every order of the uses visits what is tracked. -/
theorem mem_visited_run_iff (hlate : ¬LateMark S.effect uses start) {v : V} :
    v ∈ (run S order start a).visited ↔ Tracked S.effect uses start v := by
  have hinv : Invariant S uses order start a (run S order start a) :=
    invariant_iterate S hperm start a _
  have hon : OnTime S uses start (run S order start a) := onTime_iterate S hperm start a hlate _
  refine ⟨fun hv => hinv.tracked v (Or.inl hv), fun hv => ?_⟩
  refine mem_of_closed ((seen_run_iff S start a).mp hinv.seenStart) ?_ hv
  intro x hx u hu w hpush
  refine (seen_run_iff S start a).mp (hon.closed x hx u hu w (hpush.mono ?_))
  rintro s ⟨v', hv', u', hu', hmark⟩
  exact ⟨v', u', hinv.tracked v' (Or.inl hv'), hu', hmark⟩

/-- Without late marks every order of the uses follows the loads. -/
theorem loadsFollowed_run (hunique : LoadsUnique S.effect uses start) (hlate : ¬LateMark S.effect uses start) :
    LoadsFollowed S.effect uses (run S order start a).visited := by
  intro v w s u hv hu heffect
  simp only [MarkedBy, mem_visited_run_iff S hperm start a hlate] at hv ⊢
  obtain ⟨hne, honly⟩ := hunique v w s u hu heffect
  constructor
  · intro hw
    cases hw with
    | start => exact absurd rfl hne
    | @follow v' w u' hv' hu' hpush =>
      obtain ⟨rfl, heffect'⟩ := honly v' u' hu' hpush.mayPush
      rw [heffect'] at hpush
      exact hpush.1.elim
    | @load v' w s' v'' u' u'' hv' hu' heffect' hv'' hu'' hmark =>
      obtain ⟨rfl, heq⟩ := honly v' u' hu' (by rw [heffect', Effect.mayPush])
      rw [heffect'] at heq
      cases heq
      exact ⟨v'', hv'', u'', hu'', hmark⟩
  · rintro ⟨v', hv', u', hu', hmark⟩
    exact .load hv hu heffect hv' hu' hmark

/-- The output of a run, from what it visits. -/
theorem out_run : (run S order start a).out =
    ((run S order start a).visited.reverse.flatMap fun v => (order v).map fun u => (v, u)).foldl
      (fun a p => S.emit p.1 p.2 a) a :=
  (invariant_iterate S hperm start a _).out

/-- **What a run adds to the output**: if each use adds something to it, then the run adds what the
uses of the visited vertices add. -/
theorem mem_out_run {X : Type*} {M : A → X → Prop} {adds : V → U → X → Prop}
    (hemit : ∀ v u a x, M (S.emit v u a) x ↔ M a x ∨ adds v u x) (x : X) :
    M (run S order start a).out x ↔
      M a x ∨ ∃ v ∈ (run S order start a).visited, ∃ u ∈ uses v, adds v u x := by
  rw [out_run S hperm, mem_foldl_emit S hemit]
  refine or_congr_right ?_
  constructor
  · rintro ⟨⟨v, u⟩, hp, hadds⟩
    obtain ⟨hv, hu⟩ := mem_pairs.mp hp
    exact ⟨v, List.mem_reverse.mp hv, u, (hperm v).mem_iff.mp hu, hadds⟩
  · rintro ⟨v, hv, u, hu, hadds⟩
    exact ⟨(v, u), mem_pairs.mpr ⟨List.mem_reverse.mpr hv, (hperm v).mem_iff.mpr hu⟩, hadds⟩

end Runs

/-! ## The output does not matter for what is visited -/

section Trace

variable {B : Type*} {S : Search V U A} {S' : Search V U B}

/-- Two states agree up to the output. -/
def SameTrace (st : State V A) (st' : State V B) : Prop :=
  st.worklist = st'.worklist ∧ st.visited = st'.visited ∧ st.slots = st'.slots

variable (heffect : S.effect = S'.effect)

include heffect

theorem SameTrace.foldl (v : V) (us : List U) {st : State V A} {st' : State V B}
    (h : SameTrace st st') :
    SameTrace (us.foldl (applyUse S v) st) (us.foldl (applyUse S' v) st') := by
  induction us generalizing st st' with
  | nil => exact h
  | cons u us ih =>
    obtain ⟨hworklist, hvisited, hslots⟩ := h
    apply ih
    simp only [SameTrace, applyUse, heffect, hworklist, hvisited, hslots, and_self]

theorem SameTrace.step (order : V → List U) {st : State V A} {st' : State V B}
    (h : SameTrace st st') : SameTrace (step S order st) (step S' order st') := by
  obtain ⟨worklist, visited, slots, out⟩ := st
  obtain ⟨worklist', visited', slots', out'⟩ := st'
  obtain ⟨rfl, rfl, rfl⟩ := h
  cases worklist with
  | nil => exact ⟨rfl, rfl, rfl⟩
  | cons v rest =>
    by_cases hv : v ∈ visited
    · simp only [SlotSearch.step, if_pos hv]
      exact ⟨rfl, rfl, rfl⟩
    · rw [step_of_notMem S order hv, step_of_notMem S' order hv]
      exact SameTrace.foldl heffect v _ ⟨rfl, rfl, rfl⟩

/-- Searches with the same effects visit the same. -/
theorem visited_run_congr [Fintype V] (order : V → List U) (start : V) (a : A) (b : B) :
    (run S order start a).visited = (run S' order start b).visited := by
  have hiterate : ∀ n, SameTrace ((step S order)^[n] (init start a))
      ((SlotSearch.step S' order)^[n] (init start b)) := by
    intro n
    induction n with
    | zero => exact ⟨rfl, rfl, rfl⟩
    | succ n ih =>
      rw [Function.iterate_succ_apply', Function.iterate_succ_apply']
      exact ih.step heffect order
  exact (hiterate _).2.1

end Trace

/-! ## A run with a late mark -/

section Late

variable (S : Search V U A) {uses order : V → List U} (start : V) (a : A)

theorem visited_subset_step (st : State V A) : st.visited ⊆ (step S order st).visited := by
  rcases step_cases S order st with ⟨-, heq⟩ | ⟨v, rest, -, -, heq⟩ | ⟨v, rest, -, -, heq⟩
  · rw [heq]
    exact List.Subset.refl _
  · rw [heq]
    exact List.Subset.refl _
  · rw [heq, foldl_visited]
    exact List.subset_cons_self v _

theorem visited_subset_iterate {k n : ℕ} (h : k ≤ n) (st : State V A) :
    ((step S order)^[k] st).visited ⊆ ((step S order)^[n] st).visited := by
  induction n, h using Nat.le_induction with
  | base => exact List.Subset.refl _
  | succ n _ ih =>
    rw [Function.iterate_succ_apply']
    exact List.Subset.trans ih (visited_subset_step S _)

/-- **A trail is the beginning of a run**: of the uses of each vertex, the one that pushes the next
vertex is looked at last.

**Proof sketch.** By induction on the trail. Only the order of the last vertex changes, and it does
not matter before this vertex is visited. -/
theorem exists_order_of_trail {b : List V} {v : V} (h : Trail S.effect uses start b v) :
    ∃ order : V → List U, (∀ x, (order x).Perm (uses x)) ∧ ∃ n, ∀ order' : V → List U,
      (∀ x, (order' x).Perm (uses x)) → (∀ x ∈ b, order' x = order x) →
      ∃ rest slots out, (step S order')^[n] (init start a) = ⟨v :: rest, b, slots, out⟩ := by
  induction h with
  | start => exact ⟨uses, fun x => .refl _, 0, fun order' _ _ => ⟨[], [], a, rfl⟩⟩
  | @step b v w u htrail hw hu hpush ih =>
    obtain ⟨order, hperm, n, hrun⟩ := ih
    obtain ⟨us₁, us₂, huses⟩ := List.append_of_mem hu
    have hmove : (us₁ ++ us₂ ++ [u]).Perm (uses v) := by
      rw [huses]
      exact (List.perm_append_singleton u _).trans List.perm_middle.symm
    refine ⟨Function.update order v (us₁ ++ us₂ ++ [u]), ?_, n + 1, ?_⟩
    · intro x
      by_cases hx : x = v
      · subst hx
        rw [Function.update_self]
        exact hmove
      · rw [Function.update_of_ne hx]
        exact hperm x
    · intro order' hperm' hagree
      have hb : ∀ x ∈ b, order' x = order x := by
        intro x hx
        have hne : x ≠ v := fun heq => htrail.notMem (heq ▸ hx)
        rw [hagree x (List.mem_cons_of_mem v hx), Function.update_of_ne hne]
      have hv : order' v = us₁ ++ us₂ ++ [u] := by
        rw [hagree v List.mem_cons_self, Function.update_self]
      obtain ⟨rest, slots, out, heq⟩ := hrun order' hperm' hb
      have hslots := (invariant_iterate S hperm' start a n).slots
      rw [heq] at hslots
      rw [Function.iterate_succ_apply', heq, step_of_notMem S order' htrail.notMem, hv, List.foldl_append,
        List.foldl_cons, List.foldl_nil]
      -- the slots that the last use needs are marked by the uses before it
      have htarget : (S.effect v u).target
          ((us₁ ++ us₂).foldl (applyUse S v) ⟨rest, v :: b, slots, out⟩).slots = some w := by
        rw [Effect.target_eq_some_iff]
        rcases hpush.cases with hp | ⟨s, heffect, hs⟩
        · exact hp.mono fun s hs => hs.elim
        · rw [heffect]
          refine ⟨(mem_foldl_slots S v _ _ s).mpr ?_, rfl⟩
          rcases markedBy_cons.mp hs with ⟨u', hu', hmark⟩ | hs
          · have hne : u' ≠ u := by
              rintro rfl
              rw [heffect] at hmark
              cases hmark
            rw [huses] at hu'
            refine Or.inr ⟨u', ?_, hmark⟩
            simpa [hne] using hu'
          · exact Or.inl ((hslots s).mpr hs)
      simp only [applyUse, htarget, foldl_visited]
      exact ⟨_, _, _, rfl⟩

/-- What is loaded first, from a slot that is not marked, is not pushed. -/
theorem notMem_foldl_worklist {us₁ us₂ : List U} {st : State V A} {v w s : V}
    (hfirst : ∀ u ∈ us₁, S.effect v u = .load w (some s))
    (hthen : ∀ u ∈ us₂, (S.effect v u).mayPush ≠ some w) (hs : s ∉ st.slots)
    (hw : w ∉ st.worklist) : w ∉ ((us₁ ++ us₂).foldl (applyUse S v) st).worklist := by
  rw [List.foldl_append]
  intro hmem
  rcases mem_foldl_worklist S v hmem with hmem | ⟨u, hu, htarget⟩
  · rcases mem_foldl_worklist S v hmem with hmem | ⟨u, hu, htarget⟩
    · exact hw hmem
    · rw [Effect.target_eq_some_iff, hfirst u hu] at htarget
      rcases (mem_foldl_slots S v us₁ st s).mp htarget.1 with hmark | ⟨u', hu', hmark⟩
      · exact hs hmark
      · rw [hfirst u' hu'] at hmark
        cases hmark
  · exact hthen u hu (Effect.mayPush_of_target htarget)

variable [Fintype V]

/-- **With a late mark some order of the uses does not follow a load.**

**Proof sketch.** The trail is the beginning of a run, and at its end the loads are looked at first.
Nothing else pushes what they load, and the vertex is visited only once, so it is never pushed. If
all loads were followed, then everything that is tracked would be visited, also what marks the
slot. -/
theorem exists_not_loadsFollowed (hunique : LoadsUnique S.effect uses start)
    (hlate : LateMark S.effect uses start) :
    ∃ order : V → List U, (∀ x, (order x).Perm (uses x)) ∧
      ¬LoadsFollowed S.effect uses (run S order start a).visited := by
  obtain ⟨b, v, w, s, v', u, u', htrail, hu, heffect, hnot, hv', hu', hmark⟩ := hlate
  obtain ⟨hne, honly⟩ := hunique v w s u hu heffect
  obtain ⟨order, hperm, n, hrun⟩ := exists_order_of_trail S start a htrail
  let first : U → Bool := fun u => (S.effect v u).mayPush = some w
  let order' : V → List U := Function.update order v
    ((uses v).filter first ++ (uses v).filter fun u => !first u)
  have hperm' : ∀ x, (order' x).Perm (uses x) := by
    intro x
    by_cases hx : x = v
    · subst hx
      simp only [order', Function.update_self]
      exact List.filter_append_perm first (uses x)
    · simp only [order', Function.update_of_ne hx]
      exact hperm x
  obtain ⟨rest, slots, out, heq⟩ := hrun order' hperm' fun x hx => by
    have hxv : x ≠ v := fun h => htrail.notMem (h ▸ hx)
    exact Function.update_of_ne hxv _ _
  have hslots := (invariant_iterate S hperm' start a n).slots
  rw [heq] at hslots
  have hvisit : (step S order' ((step S order')^[n] (init start a))).visited = v :: b := by
    rw [heq, step_of_notMem S order' htrail.notMem, foldl_visited]
  have hseen : ∀ k, ¬((step S order')^[k] (init start a)).Seen w := by
    intro k
    induction k with
    | zero =>
      rintro (h | h)
      · exact List.not_mem_nil h
      · exact hne (List.mem_singleton.mp h)
    | succ k ih =>
      rw [Function.iterate_succ_apply']
      rcases step_cases S order' ((step S order')^[k] (init start a)) with
        ⟨-, hk⟩ | ⟨x, rest', hwork, -, hk⟩ | ⟨x, rest', hwork, hx, hk⟩
      · rw [hk]
        exact ih
      · rw [hk]
        exact fun h => ih (h.imp_right fun h => hwork ▸ List.mem_cons_of_mem x h)
      · have hxw : x ≠ w := fun h => ih (Or.inr (hwork ▸ h ▸ List.mem_cons_self))
        have hrest : w ∉ rest' := fun h => ih (Or.inr (hwork ▸ List.mem_cons_of_mem x h))
        have hnext : (step S order' ((step S order')^[k] (init start a))).visited =
            x :: ((step S order')^[k] (init start a)).visited := by
          rw [hk, foldl_visited]
        rintro (h | h)
        · rw [hnext] at h
          exact (List.mem_cons.mp h).elim (fun h => hxw h.symm) fun h => ih (Or.inl h)
        · rw [hk] at h
          by_cases hxv : x = v
          · subst hxv
            -- the vertex is visited only once
            have hkn : k = n := by
              rcases lt_trichotomy k n with hlt | rfl | hlt
              · have hsub := @visited_subset_iterate V U A _ S order' _ _ hlt (init start a)
                rw [Function.iterate_succ_apply', hnext, heq] at hsub
                exact absurd (hsub List.mem_cons_self) htrail.notMem
              · rfl
              · have hsub := @visited_subset_iterate V U A _ S order' _ _ hlt (init start a)
                rw [Function.iterate_succ_apply', hvisit] at hsub
                exact absurd (hsub List.mem_cons_self) hx
            subst hkn
            simp only [order', Function.update_self] at h
            refine notMem_foldl_worklist (s := s) S ?_ ?_ ?_ hrest h
            · intro u₁ hu₁
              have hmem := List.mem_filter.mp hu₁
              exact (honly x u₁ hmem.1 (of_decide_eq_true hmem.2)).2
            · intro u₁ hu₁ hpush
              have hmem := (List.mem_filter.mp hu₁).2
              simp only [first, hpush, decide_true, Bool.not_true, Bool.false_eq_true] at hmem
            · rw [heq]
              exact fun hs => hnot ((hslots s).mp hs)
          · rcases mem_foldl_worklist S x h with h | ⟨u₁, hu₁, htarget⟩
            · exact hrest h
            · exact hxv (honly x u₁ ((hperm' x).mem_iff.mp hu₁)
                (Effect.mayPush_of_target htarget)).1
  refine ⟨order', hperm', fun hfollow => ?_⟩
  have htracked := fun {x : V} => mem_visited_of_followed S hperm' start a hfollow (v := x)
  have hw : w ∈ (run S order' start a).visited :=
    (hfollow v w s u (htracked.mpr htrail.tracked.1) hu heffect).mpr
      ⟨v', htracked.mpr hv', u', hu', hmark⟩
  exact hseen _ (Or.inl hw)

/-- **When loads are followed**: every order of the uses follows the loads iff there is no late
mark. -/
theorem loadsFollowed_iff (hunique : LoadsUnique S.effect uses start) :
    (∀ order : V → List U, (∀ x, (order x).Perm (uses x)) →
      LoadsFollowed S.effect uses (run S order start a).visited) ↔ ¬LateMark S.effect uses start := by
  constructor
  · intro h hlate
    obtain ⟨order, hperm, hnot⟩ := exists_not_loadsFollowed S start a hunique hlate
    exact hnot (h order hperm)
  · exact fun hlate order hperm => loadsFollowed_run S hperm start a hunique hlate

end Late

end SlotSearch
