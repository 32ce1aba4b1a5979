import StackAnalyzer.Graph.Reach

set_option relaxedAutoImplicit false
set_option autoImplicit false

/-!
# Reachability with a worklist

The vertices that a root reaches, computed with a stack of vertices whose successors have not been
looked at. Every vertex is pushed at most once, so as many rounds as there are vertices suffice.

## Main definitions

* `Graph.push` — mark the successors of a vertex and push the new ones.
* `Graph.reachFrom` — the marks when the stack is empty.

## Main results

* `Graph.reachFrom_iff` — exactly the reachable vertices are marked.
-/

namespace Graph

variable {V : Type*} [DecidableEq V]

/-- Mark the vertices, and push those that were not marked. -/
def push : List V → List V → (V → Bool) → List V × (V → Bool)
  | [], work, seen => (work, seen)
  | v :: vs, work, seen =>
    if seen v then push vs work seen else push vs (v :: work) (Function.update seen v true)

/-- Pop vertices and push their successors until the stack is empty. -/
def drain (succ : V → List V) : ℕ → List V → (V → Bool) → (V → Bool)
  | 0, _, seen => seen
  | _ + 1, [], seen => seen
  | fuel + 1, v :: work, seen =>
    drain succ fuel (push (succ v) work seen).1 (push (succ v) work seen).2

/-- The vertices that the root reaches. -/
def reachFrom (succ : V → List V) (fuel : ℕ) (root : V) : V → Bool :=
  drain succ fuel [root] (Function.update (fun _ => false) root true)

/-- What pushing does: the vertices are marked, new marks are on the stack, nothing else changes,
and each push uses up an unseen vertex. -/
theorem push_spec {U : List V} : ∀ (vs work : List V) (seen : V → Bool), (∀ v ∈ vs, v ∈ U) →
    (∀ v, (push vs work seen).2 v = true ↔ seen v = true ∨ v ∈ vs) ∧
      (∀ v, v ∈ (push vs work seen).1 ↔ v ∈ work ∨ v ∈ vs ∧ seen v = false) ∧
      (push vs work seen).1.length + unseen U (push vs work seen).2 ≤
        work.length + unseen U seen
  | [], work, seen, _ => by simp [push]
  | v :: vs, work, seen, hU => by
    unfold push
    cases hv : seen v with
    | true =>
      obtain ⟨h₁, h₂, h₃⟩ := push_spec vs work seen fun w hw => hU w (List.mem_cons_of_mem _ hw)
      rw [if_pos rfl]
      refine ⟨fun w => ?_, fun w => ?_, h₃⟩
      · rw [h₁, List.mem_cons]
        by_cases hw : w = v
        · simp [hw, hv]
        · simp [hw]
      · rw [h₂, List.mem_cons]
        by_cases hw : w = v
        · simp [hw, hv]
        · simp [hw]
    | false =>
      obtain ⟨h₁, h₂, h₃⟩ := push_spec vs (v :: work) (Function.update seen v true)
        fun w hw => hU w (List.mem_cons_of_mem _ hw)
      rw [if_neg (by simp)]
      refine ⟨fun w => ?_, fun w => ?_, h₃.trans ?_⟩
      · rw [h₁, List.mem_cons]
        by_cases hw : w = v
        · simp [hw]
        · simp [hw]
      · rw [h₂, List.mem_cons, List.mem_cons]
        by_cases hw : w = v
        · simp [hw, hv]
        · simp [hw]
      · have hlt : unseen U (Function.update seen v true) < unseen U seen :=
          unseen_lt (fun u hu => by by_cases huv : u = v <;> simp [huv, hu])
            (hU v List.mem_cons_self) hv (Function.update_self ..)
        rw [List.length_cons]
        omega

/-- The marks are closed under successors when the stack runs empty.

**Proof sketch.** Induction on the rounds: a marked vertex is on the stack or its successors are
marked, and a round lowers the number of vertices that are on the stack or unseen. -/
theorem drain_spec {succ : V → List V} {U : List V} (hU : Closed succ U) :
    ∀ (fuel : ℕ) (work : List V) (seen : V → Bool), (∀ v ∈ work, v ∈ U) →
      (∀ v ∈ work, seen v = true) →
      (∀ v, seen v = true → v ∈ work ∨ ∀ w ∈ succ v, seen w = true) →
      work.length + unseen U seen ≤ fuel →
      (∀ v, seen v = true → drain succ fuel work seen v = true) ∧
        (∀ v, drain succ fuel work seen v = true → ∀ w ∈ succ v,
          drain succ fuel work seen w = true) ∧
        ∀ v, drain succ fuel work seen v = true → ∃ u, seen u = true ∧ Reach succ u v
  | 0, work, seen, _, _, hinv, hfuel => by
    have hwork : work = [] := List.length_eq_zero_iff.mp (by omega)
    subst hwork
    exact ⟨fun _ h => h, fun v hv => (hinv v hv).resolve_left (by simp),
      fun v hv => ⟨v, hv, Reach.refl v⟩⟩
  | fuel + 1, [], seen, _, _, hinv, _ =>
    ⟨fun _ h => h, fun v hv => (hinv v hv).resolve_left (by simp),
      fun v hv => ⟨v, hv, Reach.refl v⟩⟩
  | fuel + 1, v :: work, seen, hwork, hseen, hinv, hfuel => by
    have hv := hwork v List.mem_cons_self
    obtain ⟨h₁, h₂, h₃⟩ := push_spec (succ v) work seen (hU v hv)
    obtain ⟨hmono, hclosed, hreach⟩ := drain_spec hU fuel (push (succ v) work seen).1
      (push (succ v) work seen).2
      (fun w hw => by
        rcases (h₂ w).mp hw with hw | hw
        · exact hwork w (List.mem_cons_of_mem _ hw)
        · exact hU v hv w hw.1)
      (fun w hw => (h₁ w).mpr <| by
        rcases (h₂ w).mp hw with hw | hw
        · exact Or.inl (hseen w (List.mem_cons_of_mem _ hw))
        · exact Or.inr hw.1)
      (fun w hw => by
        by_cases hold : seen w = true
        · rcases hinv w hold with hmem | hsucc
          · rcases List.mem_cons.mp hmem with rfl | hmem
            · exact Or.inr fun u hu => (h₁ u).mpr (Or.inr hu)
            · exact Or.inl ((h₂ w).mpr (Or.inl hmem))
          · exact Or.inr fun u hu => (h₁ u).mpr (Or.inl (hsucc u hu))
        · have hmem := ((h₁ w).mp hw).resolve_left hold
          exact Or.inl ((h₂ w).mpr (Or.inr ⟨hmem, eq_false_of_ne_true hold⟩)))
      (by rw [List.length_cons] at hfuel; omega)
    refine ⟨fun w hw => hmono w ((h₁ w).mpr (Or.inl hw)), hclosed, fun w hw => ?_⟩
    obtain ⟨u, hu, hpath⟩ := hreach w hw
    rcases (h₁ u).mp hu with hu | hu
    · exact ⟨u, hu, hpath⟩
    · exact ⟨v, hseen v List.mem_cons_self, Reach.head hu hpath⟩

/-- **Reachability**: exactly the vertices that the root reaches are marked. -/
theorem reachFrom_iff {succ : V → List V} {U : List V} (hU : Closed succ U) {root : V}
    (hroot : root ∈ U) {fuel : ℕ} (hfuel : U.length < fuel) (v : V) :
    reachFrom succ fuel root v = true ↔ Reach succ root v := by
  have hstart : ∀ u, Function.update (fun _ => false) root true u = true ↔ u = root := fun u => by
    by_cases hu : u = root <;> simp [hu]
  obtain ⟨hmono, hclosed, hreach⟩ := drain_spec hU fuel [root]
    (Function.update (fun _ => false) root true)
    (by simpa using hroot) (by simp) (fun u hu => Or.inl (by simp [(hstart u).mp hu]))
    (by
      have := List.length_filter_le (fun u => !Function.update (fun _ => false) root true u) U
      simp only [unseen, List.length_singleton]
      omega)
  refine ⟨fun h => ?_, fun h => ?_⟩
  · obtain ⟨u, hu, hpath⟩ := hreach v h
    exact (hstart u).mp hu ▸ hpath
  · exact h.mem_of_closed (P := fun u => reachFrom succ fuel root u = true) hclosed
      (hmono root ((hstart root).mpr rfl))

end Graph
