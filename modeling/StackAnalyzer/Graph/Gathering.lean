import Mathlib

set_option relaxedAutoImplicit false
set_option autoImplicit false

/-!
# A search that gathers what the uses of vertices tell

A search with a stack of vertices, in which each use of a vertex tells something and leads to other
vertices, or ends the search. What the uses tell is joined. If a join has some property only if both
of its parts have it, the search has a result with the property if and only if all uses that can be
reached tell something with the property.

## Main definitions

* `Gathering` — what a use tells, and where it leads.
* `Gathering.gather` — the search, with enough rounds.
* `Gathering.Leads` — a vertex leads to another one.

## Main results

* `Gathering.gather_iff` — what the result says about the uses that can be reached.
-/

/-- What a use of a vertex tells and the vertices that it leads to, unless it ends the search, and how
things that are told are joined. -/
structure Gathering (V U A : Type*) where
  tells : V → U → Option (A × List V)
  join : A → A → A

namespace Gathering

open Relation

variable {V U A : Type*} (G : Gathering V U A) (uses : V → List U)

/-! ## The search -/

/-- Look at the uses of a vertex. -/
def scan (v : V) : List U → A → List V → Option (A × List V)
  | [], a, worklist => some (a, worklist)
  | u :: us, a, worklist =>
    match G.tells v u with
    | none => none
    | some (b, pushed) => scan v us (G.join a b) (pushed.reverse ++ worklist)

/-- The search with a bound on the rounds. -/
def gatherFrom [DecidableEq V] : ℕ → List V → List V → A → Option A
  | 0, _, _, _ => none
  | _ + 1, [], _, a => some a
  | n + 1, v :: rest, visited, a =>
    if v ∈ visited then gatherFrom n rest visited a
    else
      match G.scan v (uses v) a rest with
      | none => none
      | some (b, worklist) => gatherFrom n worklist (v :: visited) b

/-- How many vertices the uses of a vertex push. -/
def pushes (v : V) : ℕ := ((uses v).map fun u => (G.tells v u).elim 0 fun p => p.2.length).sum

/-- Enough rounds: each pop but the first one is for a push. -/
def rounds [Fintype V] : ℕ := 2 + ∑ v, G.pushes uses v

/-- The search from a vertex, with enough rounds. -/
def gather [Fintype V] [DecidableEq V] (start : V) (a : A) : Option A :=
  G.gatherFrom uses (G.rounds uses) [start] [] a

/-! ## What it finds -/

/-- A vertex leads to another one, which a use of it pushes. -/
def Leads (v w : V) : Prop :=
  ∃ u ∈ uses v, ∃ a pushed, G.tells v u = some (a, pushed) ∧ w ∈ pushed

variable (quiet : A → Prop)

/-- The uses of a vertex tell something with a property. -/
def Quiet (v : V) : Prop := ∀ u ∈ uses v, ∃ a pushed, G.tells v u = some (a, pushed) ∧ quiet a

variable {G uses quiet} (hjoin : ∀ a b, quiet (G.join a b) ↔ quiet a ∧ quiet b)

section Scan

variable {v : V} {us : List U} {a b : A} {worklist worklist' : List V}

include hjoin in
/-- What a scan finds. -/
theorem scan_quiet (h : G.scan v us a worklist = some (b, worklist')) (hquiet : quiet b) :
    quiet a ∧ ∀ u ∈ us, ∃ c pushed, G.tells v u = some (c, pushed) ∧ quiet c := by
  induction us generalizing a worklist with
  | nil =>
    obtain ⟨rfl, -⟩ := Prod.mk.inj (Option.some.inj h)
    exact ⟨hquiet, by simp⟩
  | cons u us ih =>
    rw [scan] at h
    split at h
    · cases h
    next c pushed htells =>
      obtain ⟨hac, hrest⟩ := ih h
      obtain ⟨ha, hc⟩ := (hjoin a c).mp hac
      exact ⟨ha, List.forall_mem_cons.mpr ⟨⟨c, pushed, htells, hc⟩, hrest⟩⟩

/-- What is on the stack after a scan. -/
theorem mem_scan (h : G.scan v us a worklist = some (b, worklist')) (w : V) :
    w ∈ worklist' ↔
      w ∈ worklist ∨ ∃ u ∈ us, ∃ c pushed, G.tells v u = some (c, pushed) ∧ w ∈ pushed := by
  induction us generalizing a worklist with
  | nil =>
    obtain ⟨-, rfl⟩ := Prod.mk.inj (Option.some.inj h)
    simp
  | cons u us ih =>
    rw [scan] at h
    split at h
    · cases h
    next c pushed htells =>
      rw [ih h, List.mem_append, List.mem_reverse]
      constructor
      · rintro ((hw | hw) | ⟨u', hu', hpushed⟩)
        · exact Or.inr ⟨u, List.mem_cons_self, c, pushed, htells, hw⟩
        · exact Or.inl hw
        · exact Or.inr ⟨u', List.mem_cons_of_mem u hu', hpushed⟩
      · rintro (hw | ⟨u', hu', c', pushed', htells', hw⟩)
        · exact Or.inl (Or.inr hw)
        rcases List.mem_cons.mp hu' with rfl | hu'
        · obtain ⟨-, rfl⟩ : c = c' ∧ pushed = pushed' := by simpa [htells] using htells'
          exact Or.inl (Or.inl hw)
        · exact Or.inr ⟨u', hu', c', pushed', htells', hw⟩

/-- How many vertices are on the stack after a scan. -/
theorem length_scan (h : G.scan v us a worklist = some (b, worklist')) :
    worklist'.length = worklist.length +
      (us.map fun u => (G.tells v u).elim 0 fun p => p.2.length).sum := by
  induction us generalizing a worklist with
  | nil =>
    obtain ⟨-, rfl⟩ := Prod.mk.inj (Option.some.inj h)
    simp
  | cons u us ih =>
    rw [scan] at h
    split at h
    · cases h
    next c pushed htells =>
      simp only [ih h, List.map_cons, List.sum_cons, htells, Option.elim_some, List.length_append,
        List.length_reverse]
      omega

include hjoin in
/-- A scan of uses that tell something with the property. -/
theorem exists_scan (ha : quiet a)
    (hus : ∀ u ∈ us, ∃ c pushed, G.tells v u = some (c, pushed) ∧ quiet c) :
    ∃ b worklist', G.scan v us a worklist = some (b, worklist') ∧ quiet b := by
  induction us generalizing a worklist with
  | nil => exact ⟨a, worklist, rfl, ha⟩
  | cons u us ih =>
    obtain ⟨⟨c, pushed, htells, hc⟩, hrest⟩ := List.forall_mem_cons.mp hus
    rw [scan, htells]
    exact ih ((hjoin a c).mpr ⟨ha, hc⟩) hrest

end Scan

section Search

variable [DecidableEq V]

include hjoin in
/-- **A result with the property** closes what is visited and what is on the stack under uses, and
they all tell something with the property.

**Proof sketch.** By induction on the rounds. A vertex that is visited in the first round leads to
what is then on the stack. -/
theorem closed_of_gatherFrom {n : ℕ} {worklist visited : List V} {a b : A}
    (h : G.gatherFrom uses n worklist visited a = some b) (hquiet : quiet b) :
    quiet a ∧ ∃ S : Set V, (∀ v ∈ worklist, v ∈ S) ∧ (∀ v ∈ visited, v ∈ S) ∧
      ∀ v ∈ S, v ∉ visited → G.Quiet uses quiet v ∧ ∀ w, G.Leads uses v w → w ∈ S := by
  induction n generalizing worklist visited a with
  | zero => cases h
  | succ n ih =>
    cases worklist with
    | nil =>
      obtain rfl := Option.some.inj h
      refine ⟨hquiet, {v | v ∈ visited}, ?_, fun v hv => hv, fun v hv hnot => absurd hv hnot⟩
      simp
    | cons v rest =>
      rw [gatherFrom] at h
      split at h
      next hv =>
        obtain ⟨ha, S, hrest, hvisited, hclosed⟩ := ih h
        exact ⟨ha, S, List.forall_mem_cons.mpr ⟨hvisited v hv, hrest⟩, hvisited, hclosed⟩
      next hv =>
        split at h
        · cases h
        next c worklist' hscan =>
          obtain ⟨hc, S, hworklist, hvisited, hclosed⟩ := ih h
          obtain ⟨ha, huses⟩ := scan_quiet hjoin hscan hc
          obtain ⟨hvS, hvisited⟩ := List.forall_mem_cons.mp hvisited
          refine ⟨ha, S, List.forall_mem_cons.mpr ⟨hvS, fun w hw => ?_⟩, hvisited, ?_⟩
          · exact hworklist w ((mem_scan hscan w).mpr (Or.inl hw))
          · intro x hx hnot
            by_cases hxv : x = v
            · subst hxv
              exact ⟨huses, fun w hw => hworklist w ((mem_scan hscan w).mpr (Or.inr hw))⟩
            · exact hclosed x hx (by simp [hxv, hnot])

variable [Fintype V]

/-- How many rounds are left at most. -/
def pending (G : Gathering V U A) (uses : V → List U) (worklist visited : List V) : ℕ :=
  worklist.length + ∑ v with v ∉ visited, G.pushes uses v

/-- A visit moves the pushes of a vertex to the stack. -/
theorem pending_visit {v : V} {rest worklist visited : List V} {a b : A}
    (hv : v ∉ visited) (h : G.scan v (uses v) a rest = some (b, worklist)) :
    pending G uses worklist (v :: visited) + 1 = pending G uses (v :: rest) visited := by
  have hsum : ∑ w with w ∉ visited, G.pushes uses w =
      G.pushes uses v + ∑ w with w ∉ v :: visited, G.pushes uses w := by
    rw [← Finset.add_sum_erase _ _ (show v ∈ Finset.univ.filter (· ∉ visited) by simpa using hv)]
    congr 2
    ext w
    simp
  have hlength : worklist.length = rest.length + G.pushes uses v := length_scan h
  unfold pending
  rw [hsum, hlength, List.length_cons]
  omega

include hjoin in
/-- From vertices that only reach quiet ones, the search has a result with the property. -/
theorem exists_gatherFrom {n : ℕ} {worklist visited : List V} {a : A}
    (hn : pending G uses worklist visited < n) (ha : quiet a)
    (hworklist : ∀ v ∈ worklist, ∀ w, ReflTransGen (G.Leads uses) v w → G.Quiet uses quiet w) :
    ∃ b, G.gatherFrom uses n worklist visited a = some b ∧ quiet b := by
  induction n generalizing worklist visited a with
  | zero => omega
  | succ n ih =>
    cases worklist with
    | nil => exact ⟨a, rfl, ha⟩
    | cons v rest =>
      obtain ⟨hvquiet, hrest⟩ := List.forall_mem_cons.mp hworklist
      rw [gatherFrom]
      split
      next hv =>
        refine ih ?_ ha hrest
        unfold pending at hn ⊢
        rw [List.length_cons] at hn
        omega
      next hv =>
        obtain ⟨b, worklist', hscan, hb⟩ :
            ∃ b worklist', G.scan v (uses v) a rest = some (b, worklist') ∧ quiet b :=
          exists_scan hjoin ha (hvquiet v .refl)
        rw [hscan]
        have hpending := pending_visit hv hscan
        refine ih (by omega) hb fun w hw x hx => ?_
        rcases (mem_scan hscan w).mp hw with hw | hw
        · exact hrest w hw x hx
        · exact hvquiet x (hx.head hw)

include hjoin in
/-- **What the result says about the uses that can be reached.** -/
theorem gather_iff {start : V} {a : A} :
    (∃ b, G.gather uses start a = some b ∧ quiet b) ↔
      quiet a ∧ ∀ v, ReflTransGen (G.Leads uses) start v → G.Quiet uses quiet v := by
  constructor
  · rintro ⟨b, hgather, hb⟩
    obtain ⟨ha, S, hstart, -, hclosed⟩ := closed_of_gatherFrom hjoin hgather hb
    refine ⟨ha, fun v hreach => ?_⟩
    have hv : v ∈ S := by
      induction hreach with
      | refl => exact hstart start (List.mem_singleton_self start)
      | tail _ hstep ih => exact (hclosed _ ih (by simp)).2 _ hstep
    exact (hclosed v hv (by simp)).1
  · rintro ⟨ha, hquiet⟩
    refine exists_gatherFrom hjoin ?_ ha fun v hv w hw => ?_
    · simp [pending, rounds]
    · obtain rfl : v = start := List.mem_singleton.mp hv
      exact hquiet w hw

end Search

end Gathering
