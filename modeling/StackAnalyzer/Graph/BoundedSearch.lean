import Mathlib

set_option relaxedAutoImplicit false
set_option autoImplicit false

/-!
# Breadth-first search with budgets

A search takes states from a queue and appends those that follow. It stops when a state yields an
answer, when too many states have been taken or when one is too deep. States are not compared: what
is searched is the tree of all ways from the start. But a state is dropped if too many of the same
key have been taken before.

## Main definitions

* `Graph.BoundedSearch` — the budgets, and what follows a state.
* `Graph.BoundedSearch.run` — the search.
* `Graph.BoundedSearch.tree` — the states up to some depth, each as often as there are ways to it.
* `Graph.BoundedSearch.Crowded` — keys of more states than are ever expanded.

## Main results

* `Graph.BoundedSearch.mem_expanded` — a search that finishes has expanded what it reaches without
  crowded keys.
* `Graph.BoundedSearch.exists_of_answered` — an answer is that of a state that is reached.
* `Graph.BoundedSearch.ne_exceeded` — small trees are searched to the end.
-/

namespace Graph

/-- A search for an answer of type `α`. -/
structure BoundedSearch (σ K α : Type*) where
  key : σ → K
  depth : σ → ℕ
  expand : σ → Except α (List σ)
  maxDepth : ℕ
  maxVisits : ℕ
  depth_expand : ∀ s next, expand s = .ok next → ∀ t ∈ next, depth t = depth s + 1

namespace BoundedSearch

/-- How a search ends: with an answer, without budget, or with the states that have been
expanded. -/
inductive Outcome (σ α : Type*)
  | answered (a : α)
  | exceeded
  | finished (expanded : List σ)

variable {σ K α : Type*}

/-- The states that follow a state without an answer. -/
def children (S : BoundedSearch σ K α) (s : σ) : List σ :=
  match S.expand s with
  | .ok next => next
  | .error _ => []

/-- The states up to some depth, each as often as there are ways to it. -/
def tree (S : BoundedSearch σ K α) (start : σ) : ℕ → List σ
  | 0 => [start]
  | d + 1 => start :: (S.tree start d).flatMap S.children

/-- **There are more states of a key than are ever expanded.** -/
def Crowded [DecidableEq K] (S : BoundedSearch σ K α) (start : σ) (k : K) : Prop :=
  ∃ d, S.maxVisits + 1 < (S.tree start d).countP fun s => S.key s = k

/-- **The search**, for at most a number of states. -/
def run [DecidableEq K] (S : BoundedSearch σ K α) :
    ℕ → List σ → (K → ℕ) → List σ → Outcome σ α
  | _, [], _, expanded => .finished expanded
  | 0, _ :: _, _, _ => .exceeded
  | n + 1, s :: work, visits, expanded =>
    if S.maxDepth < S.depth s then .exceeded
    else
      let visited := Function.update visits (S.key s) (visits (S.key s) + 1)
      if S.maxVisits < visits (S.key s) then S.run n work visited expanded
      else
        match S.expand s with
        | .error a => .answered a
        | .ok next => S.run n (work ++ next) visited (s :: expanded)

variable {S : BoundedSearch σ K α} {start s t : σ}

theorem children_eq {next : List σ} (h : S.expand s = .ok next) : S.children s = next := by
  rw [children, h]

theorem depth_children (h : t ∈ S.children s) : S.depth t = S.depth s + 1 := by
  unfold children at h
  split at h
  · next next hnext => exact S.depth_expand s next hnext t h
  · exact absurd h List.not_mem_nil

/-- What is expanded is reached. -/
theorem reach_of_mem_tree {d : ℕ} (h : s ∈ S.tree start d) :
    Relation.ReflTransGen (fun a b => b ∈ S.children a) start s := by
  induction d generalizing s with
  | zero => exact List.mem_singleton.mp h ▸ .refl
  | succ d ih =>
    rcases List.mem_cons.mp h with rfl | h
    · exact .refl
    · obtain ⟨r, hr, hs⟩ := List.mem_flatMap.mp h
      exact (ih hr).tail hs

/-- The children of states up to some depth. -/
theorem filter_flatMap_children (l : List σ) (d : ℕ) :
    (l.flatMap S.children).filter (fun s => decide (S.depth s ≤ d + 1)) =
      (l.filter fun s => decide (S.depth s ≤ d)).flatMap S.children := by
  induction l with
  | nil => rfl
  | cons s l ih =>
    rw [List.flatMap_cons, List.filter_append, ih, List.filter_cons]
    have hdepth : ∀ t ∈ S.children s, S.depth t ≤ d + 1 ↔ S.depth s ≤ d := fun t ht => by
      rw [depth_children ht]
      omega
    split_ifs with hs
    · have hall : (S.children s).filter (fun t => decide (S.depth t ≤ d + 1)) = S.children s :=
        List.filter_eq_self.mpr fun t ht =>
          decide_eq_true ((hdepth t ht).mpr (of_decide_eq_true hs))
      rw [hall, List.flatMap_cons]
    · have hnone : (S.children s).filter (fun t => decide (S.depth t ≤ d + 1)) = [] :=
        List.filter_eq_nil_iff.mpr fun t ht hle =>
          hs (decide_eq_true ((hdepth t ht).mp (of_decide_eq_true hle)))
      rw [hnone, List.nil_append]

/-- Fewer states have fewer children. -/
theorem subperm_flatMap {l l' : List σ} (h : l.Subperm l') :
    (l.flatMap S.children).Subperm (l'.flatMap S.children) := by
  obtain ⟨m, hperm, hsub⟩ := h
  exact ⟨m.flatMap S.children, hperm.flatMap_right S.children, hsub.flatMap S.children⟩

/-- Deeper trees have more states. -/
theorem subperm_tree_succ (d : ℕ) : (S.tree start d).Subperm (S.tree start (d + 1)) := by
  induction d with
  | zero => exact (List.singleton_sublist.mpr List.mem_cons_self).subperm
  | succ d ih => exact (List.subperm_cons start).mpr (subperm_flatMap ih)

theorem subperm_tree_of_le {d e : ℕ} (h : d ≤ e) : (S.tree start d).Subperm (S.tree start e) := by
  induction h with
  | refl => exact List.Subperm.refl _
  | step _ ih => exact ih.trans (subperm_tree_succ _)

/-- **A tree that has stopped growing** is the whole tree. -/
theorem subperm_tree_of_stable {d : ℕ} (h : S.tree start (d + 1) = S.tree start d) (e : ℕ) :
    (S.tree start e).Subperm (S.tree start d) := by
  have hstable : ∀ n, S.tree start (d + n) = S.tree start d := by
    intro n
    induction n with
    | zero => rfl
    | succ n ih => rw [← Nat.add_assoc, tree, ih, ← tree, h]
  rcases Nat.le_total e d with hle | hle
  · exact subperm_tree_of_le hle
  · obtain ⟨n, rfl⟩ := Nat.exists_eq_add_of_le hle
    rw [hstable]

/-! ## The invariant -/

section Invariant

variable [DecidableEq K]

/-- The invariant of a search: the states that have been taken and those in the queue are the start
and what follows expanded states; and those that have been dropped have a key that had been taken
too often. -/
structure SearchRun (S : BoundedSearch σ K α) (start : σ) (popped work : List σ) (visits : K → ℕ)
    (expanded : List σ) : Prop where
  perm : (popped ++ work).Perm (start :: expanded.flatMap S.children)
  visits_eq : ∀ k, visits k = popped.countP fun s => S.key s = k
  subperm : expanded.Subperm popped
  dropped : ∀ s ∈ popped, s ∉ expanded →
    S.maxVisits + 1 < popped.countP fun t => S.key t = S.key s
  expands : ∀ s ∈ expanded, ∃ next, S.expand s = .ok next

theorem SearchRun.init (S : BoundedSearch σ K α) (start : σ) :
    SearchRun S start [] [start] (fun _ => 0) [] :=
  ⟨List.Perm.refl _, fun _ => rfl, List.Subperm.refl _, fun _ h => absurd h List.not_mem_nil,
    fun _ h => absurd h List.not_mem_nil⟩

variable {popped work expanded : List σ} {visits : K → ℕ}

/-- How visits count. -/
theorem SearchRun.visits_cons (h : SearchRun S start popped (s :: work) visits expanded) (k : K) :
    Function.update visits (S.key s) (visits (S.key s) + 1) k =
      (s :: popped).countP fun t => S.key t = k := by
  rw [List.countP_cons]
  by_cases hk : S.key s = k
  · subst hk
    rw [Function.update_self, h.visits_eq]
    simp
  · rw [Function.update_of_ne (Ne.symm hk), h.visits_eq]
    simp [hk]

/-- The head of the queue is taken. -/
theorem SearchRun.perm_cons (h : SearchRun S start popped (s :: work) visits expanded) :
    (s :: popped ++ work).Perm (start :: expanded.flatMap S.children) :=
  List.perm_middle.symm.trans h.perm

/-- **A state is dropped.** -/
theorem SearchRun.drop (h : SearchRun S start popped (s :: work) visits expanded)
    (hvisits : S.maxVisits < visits (S.key s)) :
    SearchRun S start (s :: popped) work
      (Function.update visits (S.key s) (visits (S.key s) + 1)) expanded := by
  refine ⟨h.perm_cons, h.visits_cons, h.subperm.cons_right s, fun t ht hnot => ?_, h.expands⟩
  rcases List.mem_cons.mp ht with rfl | ht
  · rw [← h.visits_cons, Function.update_self]
    omega
  · exact (h.dropped t ht hnot).trans_le (List.sublist_cons_self s popped).countP_le

/-- **A state is expanded.** -/
theorem SearchRun.expand (h : SearchRun S start popped (s :: work) visits expanded)
    {next : List σ} (hnext : S.expand s = .ok next) :
    SearchRun S start (s :: popped) (work ++ next)
      (Function.update visits (S.key s) (visits (S.key s) + 1)) (s :: expanded) := by
  refine ⟨?_, h.visits_cons, (List.subperm_cons s).mpr h.subperm, fun t ht hnot => ?_,
    fun t ht => ?_⟩
  · rw [List.flatMap_cons, children_eq hnext, ← List.append_assoc]
    exact (h.perm_cons.append_right next).trans (List.perm_append_comm.cons start)
  · rw [List.mem_cons, not_or] at hnot
    obtain ⟨hne, hnot⟩ := hnot
    have ht := (List.mem_cons.mp ht).resolve_left hne
    exact (h.dropped t ht hnot).trans_le
      (List.sublist_cons_self s popped).countP_le
  · rcases List.mem_cons.mp ht with rfl | ht
    · exact ⟨next, hnext⟩
    · exact h.expands t ht

/-- What a search has done when it ends, if it may take a number of states. -/
def Ends (S : BoundedSearch σ K α) (start : σ) (n : ℕ) : Outcome σ α → Prop
  | .finished expanded => ∃ popped visits, SearchRun S start popped [] visits expanded
  | .answered a => ∃ popped s work visits expanded,
      SearchRun S start popped (s :: work) visits expanded ∧ S.expand s = .error a
  | .exceeded => ∃ popped s work visits expanded,
      SearchRun S start popped (s :: work) visits expanded ∧
        (S.maxDepth < S.depth s ∨ popped.length = n)

/-- **The invariant holds to the end.** -/
theorem SearchRun.ends (n : ℕ) (h : SearchRun S start popped work visits expanded) :
    Ends S start (popped.length + n) (S.run n work visits expanded) := by
  induction n generalizing popped work visits expanded with
  | zero =>
    cases work with
    | nil => exact ⟨popped, visits, h⟩
    | cons s work => exact ⟨popped, s, work, visits, expanded, h, Or.inr rfl⟩
  | succ n ih =>
    cases work with
    | nil => exact ⟨popped, visits, h⟩
    | cons s work =>
      have hlen : (s :: popped).length + n = popped.length + (n + 1) := by
        rw [List.length_cons]
        omega
      rw [BoundedSearch.run, ← hlen]
      split_ifs with hdepth hvisits
      · exact ⟨popped, s, work, visits, expanded, h, Or.inl hdepth⟩
      · exact ih (h.drop hvisits)
      · cases hexpand : S.expand s with
        | error a => exact ⟨popped, s, work, visits, expanded, h, hexpand⟩
        | ok next => exact ih (h.expand hexpand)

/-! ## The tree -/

/-- What has been taken and what is in the queue is part of the tree. -/
theorem SearchRun.subperm_tree (h : SearchRun S start popped work visits expanded)
    (hstart : S.depth start = 0) (d : ℕ) :
    ((popped ++ work).filter fun s => decide (S.depth s ≤ d)).Subperm (S.tree start d) := by
  have hroot : ∀ d, decide (S.depth start ≤ d) = true := fun d =>
    decide_eq_true (hstart ▸ Nat.zero_le d)
  have hperm : ∀ d, ((popped ++ work).filter fun s => decide (S.depth s ≤ d)).Perm
      (start :: (expanded.flatMap S.children).filter fun s => decide (S.depth s ≤ d)) := fun d =>
    (h.perm.filter _).trans (List.Perm.of_eq (List.filter_cons_of_pos (hroot d)))
  induction d with
  | zero =>
    have hnone : (expanded.flatMap S.children).filter (fun s => decide (S.depth s ≤ 0)) = [] := by
      refine List.filter_eq_nil_iff.mpr fun t ht => ?_
      obtain ⟨s, -, hts⟩ := List.mem_flatMap.mp ht
      simp [depth_children hts]
    exact (hnone ▸ hperm 0).subperm
  | succ d ih =>
    have hsub : (expanded.filter fun s => decide (S.depth s ≤ d)).Subperm
        ((popped ++ work).filter fun s => decide (S.depth s ≤ d)) :=
      (h.subperm.trans (List.sublist_append_left popped work).subperm).filter _
    refine (hperm (d + 1)).subperm.trans ?_
    rw [filter_flatMap_children]
    exact (List.subperm_cons start).mpr (subperm_flatMap (hsub.trans ih))

/-- All of it is part of some tree. -/
theorem SearchRun.exists_subperm_tree (h : SearchRun S start popped work visits expanded)
    (hstart : S.depth start = 0) : ∃ d, (popped ++ work).Subperm (S.tree start d) := by
  obtain ⟨d, hd⟩ := ((popped ++ work).map S.depth).toFinset.bddAbove
  have hall : (popped ++ work).filter (fun s => decide (S.depth s ≤ d)) = popped ++ work := by
    refine List.filter_eq_self.mpr fun s hs => decide_eq_true (hd ?_)
    exact Finset.mem_coe.mpr (List.mem_toFinset.mpr (List.mem_map_of_mem hs))
  exact ⟨d, hall ▸ h.subperm_tree hstart d⟩

/-- A state that has been dropped has a crowded key. -/
theorem SearchRun.crowded (h : SearchRun S start popped work visits expanded)
    (hstart : S.depth start = 0) (hs : s ∈ popped) (hnot : s ∉ expanded) :
    S.Crowded start (S.key s) := by
  obtain ⟨d, hd⟩ := h.exists_subperm_tree hstart
  refine ⟨d, (h.dropped s hs hnot).trans_le ?_⟩
  exact ((List.sublist_append_left popped work).subperm.trans hd).countP_le _

/-! ## What a search finds -/

/-- **A search that finishes** has expanded, without an answer, what it reaches without crowded
keys. -/
theorem mem_expanded (hstart : S.depth start = 0) {n : ℕ} {expanded : List σ}
    (h : S.run n [start] (fun _ => 0) [] = .finished expanded)
    (hreach : Relation.ReflTransGen
      (fun a b => b ∈ S.children a ∧ ¬ S.Crowded start (S.key a)) start s)
    (hs : ¬ S.Crowded start (S.key s)) : s ∈ expanded := by
  have hends := (SearchRun.init S start).ends n
  rw [h] at hends
  obtain ⟨popped, visits, hrun⟩ := hends
  have hpopped : ∀ t, t = start ∨ t ∈ expanded.flatMap S.children → t ∈ popped := by
    intro t ht
    have hmem := hrun.perm.mem_iff.mpr (List.mem_cons.mpr ht)
    rwa [List.append_nil] at hmem
  have hexpanded : ∀ t ∈ popped, ¬ S.Crowded start (S.key t) → t ∈ expanded := fun t ht hfew =>
    by_contra fun hnot => hfew (hrun.crowded hstart ht hnot)
  induction hreach with
  | refl => exact hexpanded _ (hpopped _ (Or.inl rfl)) hs
  | tail _ hstep ih =>
    exact hexpanded _ (hpopped _ (Or.inr (List.mem_flatMap.mpr ⟨_, ih hstep.2, hstep.1⟩))) hs

/-- A search that finishes has expanded states that it reaches only, and these have no answer. -/
theorem reach_of_mem_expanded (hstart : S.depth start = 0) {n : ℕ} {expanded : List σ}
    (h : S.run n [start] (fun _ => 0) [] = .finished expanded) (hs : s ∈ expanded) :
    Relation.ReflTransGen (fun a b => b ∈ S.children a) start s ∧
      ∃ next, S.expand s = .ok next := by
  have hends := (SearchRun.init S start).ends n
  rw [h] at hends
  obtain ⟨popped, visits, hrun⟩ := hends
  obtain ⟨d, hd⟩ := hrun.exists_subperm_tree hstart
  exact ⟨reach_of_mem_tree (hd.subset (List.mem_append_left [] (hrun.subperm.subset hs))),
    hrun.expands s hs⟩

/-- **An answer is that of a state that is reached.** -/
theorem exists_of_answered (hstart : S.depth start = 0) {n : ℕ} {a : α}
    (h : S.run n [start] (fun _ => 0) [] = .answered a) :
    ∃ s, Relation.ReflTransGen (fun a b => b ∈ S.children a) start s ∧ S.expand s = .error a := by
  have hends := (SearchRun.init S start).ends n
  rw [h] at hends
  obtain ⟨popped, s, work, visits, expanded, hrun, hs⟩ := hends
  obtain ⟨d, hd⟩ := hrun.exists_subperm_tree hstart
  exact ⟨s, reach_of_mem_tree (hd.subset (List.mem_append_right popped List.mem_cons_self)), hs⟩

/-- **Small trees are searched to the end.** -/
theorem ne_exceeded (hstart : S.depth start = 0) {n : ℕ}
    (hsmall : ∀ d, (S.tree start d).length ≤ n)
    (hdepth : ∀ d, ∀ s ∈ S.tree start d, S.depth s ≤ S.maxDepth) :
    S.run n [start] (fun _ => 0) [] ≠ .exceeded := by
  intro h
  have hends := (SearchRun.init S start).ends n
  rw [h] at hends
  obtain ⟨popped, s, work, visits, expanded, hrun, hs⟩ := hends
  obtain ⟨d, hd⟩ := hrun.exists_subperm_tree hstart
  rcases hs with hdeep | hlen
  · exact (hdepth d s (hd.subset (List.mem_append_right popped List.mem_cons_self))).not_gt hdeep
  · have hle := hd.length_le.trans (hsmall d)
    rw [List.length_append, List.length_cons, hlen, List.length_nil] at hle
    omega

end Invariant

end BoundedSearch

end Graph
