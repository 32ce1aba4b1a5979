import StackAnalyzer.Graph.Reach

set_option relaxedAutoImplicit false
set_option autoImplicit false

/-!
# Levels of an acyclic dependency relation

A level is a number for each node that lies just above the levels of all nodes it depends on. Levels
are the lengths of longest dependency chains, and one pass in an order in which dependencies come
first computes them.

## Main definitions

* `Graph.IsLevel` — just above the levels of the dependencies.
* `Graph.DepChain` — chains of distinct dependencies.

## Main results

* `Graph.IsLevel.isGreatest` — a level is the length of a longest chain.
* `Graph.isLevel_foldl` — a pass over the nodes, dependencies first, computes levels.
-/

namespace Graph

variable {V : Type*}

/-- The level of a node lies just above those of its dependencies: a number is below it iff it is at
most the level of some dependency. -/
def IsLevel (dep : V → V → Prop) (level : V → ℕ) : Prop :=
  ∀ v k, k < level v ↔ ∃ w, dep v w ∧ k ≤ level w

/-- A chain of distinct nodes, each a dependency of the one before it, behind a node. -/
def DepChain (dep : V → V → Prop) (v : V) (chain : List V) : Prop :=
  (v :: chain).IsChain dep ∧ (v :: chain).Nodup

variable {dep : V → V → Prop} {level : V → ℕ}

namespace IsLevel

/-- A dependency has a smaller level. -/
theorem lt (h : IsLevel dep level) {v w : V} (hvw : dep v w) : level w < level v :=
  (h v (level w)).mpr ⟨w, hvw, le_rfl⟩

/-- A node with a positive level has a dependency just below it. -/
theorem exists_dep (h : IsLevel dep level) {v : V} {k : ℕ} (hk : level v = k + 1) :
    ∃ w, dep v w ∧ level w = k := by
  obtain ⟨w, hvw, hle⟩ := (h v k).mp (by omega)
  have := h.lt hvw
  exact ⟨w, hvw, by omega⟩

/-- The levels along a chain are smaller than that of the first node. -/
theorem lt_of_isChain (h : IsLevel dep level) {v w : V} {chain : List V}
    (hchain : (v :: chain).IsChain dep) (hw : w ∈ chain) : level w < level v := by
  induction chain generalizing v with
  | nil => simp at hw
  | cons u chain ih =>
    obtain ⟨hvu, htail⟩ := List.isChain_cons_cons.mp hchain
    rcases List.mem_cons.mp hw with rfl | hw
    · exact h.lt hvu
    · exact (ih htail hw).trans (h.lt hvu)

/-- Chains consist of distinct nodes. -/
theorem nodup_of_isChain (h : IsLevel dep level) {v : V} {chain : List V}
    (hchain : (v :: chain).IsChain dep) : (v :: chain).Nodup := by
  induction chain generalizing v with
  | nil => simp
  | cons u chain ih =>
    refine List.nodup_cons.mpr ⟨fun hv => ?_, ih (List.isChain_cons_cons.mp hchain).2⟩
    exact lt_irrefl _ (h.lt_of_isChain hchain hv)

/-- A chain is at most as long as the level. -/
theorem length_le (h : IsLevel dep level) {v : V} {chain : List V}
    (hchain : (v :: chain).IsChain dep) : chain.length ≤ level v := by
  induction chain generalizing v with
  | nil => exact Nat.zero_le _
  | cons u chain ih =>
    obtain ⟨hvu, htail⟩ := List.isChain_cons_cons.mp hchain
    have := ih htail
    have := h.lt hvu
    rw [List.length_cons]
    omega

/-- Some chain is as long as the level. -/
theorem exists_chain (h : IsLevel dep level) {k : ℕ} {v : V} (hk : level v = k) :
    ∃ chain : List V, (v :: chain).IsChain dep ∧ chain.length = k := by
  induction k generalizing v with
  | zero => exact ⟨[], List.isChain_singleton v, rfl⟩
  | succ k ih =>
    obtain ⟨w, hvw, hw⟩ := h.exists_dep hk
    obtain ⟨chain, hchain, hlen⟩ := ih hw
    exact ⟨w :: chain, List.isChain_cons_cons.mpr ⟨hvw, hchain⟩, by rw [List.length_cons, hlen]⟩

/-- **A level is the length of a longest chain** of distinct dependencies. -/
theorem isGreatest (h : IsLevel dep level) (v : V) :
    IsGreatest {k | ∃ chain, DepChain dep v chain ∧ chain.length = k} (level v) := by
  refine ⟨?_, ?_⟩
  · obtain ⟨chain, hchain, hlen⟩ := h.exists_chain (rfl : level v = level v)
    exact ⟨chain, ⟨hchain, h.nodup_of_isChain hchain⟩, hlen⟩
  · rintro k ⟨chain, ⟨hchain, -⟩, rfl⟩
    exact h.length_le hchain

end IsLevel

/-- **One pass computes levels**, if dependencies have smaller numbers: `next s level` looks at the
levels of the dependencies of `s` only, and lies just above them. -/
theorem isLevel_foldl {dep : ℕ → ℕ → Prop} {n : ℕ} (hdep : ∀ s t, dep s t → t < s ∧ s < n)
    {next : ℕ → (ℕ → ℕ) → ℕ}
    (hnext : ∀ s level k, s < n → (k < next s level ↔ ∃ t, dep s t ∧ k ≤ level t)) :
    IsLevel dep
      ((List.range n).foldl (fun level s => Function.update level s (next s level))
        fun _ => 0) := by
  -- after `m` rounds the first `m` levels are final and the others are still zero
  have hpass : ∀ m ≤ n,
      (∀ s < m, ∀ k, k < (List.range m).foldl
          (fun level s => Function.update level s (next s level)) (fun _ => 0) s ↔
        ∃ t, dep s t ∧ k ≤ (List.range m).foldl
          (fun level s => Function.update level s (next s level)) (fun _ => 0) t) ∧
      ∀ s, m ≤ s → (List.range m).foldl
        (fun level s => Function.update level s (next s level)) (fun _ => 0) s = 0 := by
    intro m
    induction m with
    | zero => simp
    | succ m ih =>
      intro hm
      obtain ⟨hfinal, hzero⟩ := ih (by omega)
      simp only [List.range_succ, List.foldl_append, List.foldl_cons, List.foldl_nil]
      refine ⟨fun s hs k => ?_, fun s hs => ?_⟩
      · have hold : ∀ t, dep s t → t ≠ m := fun t ht => by
          have := (hdep s t ht).1
          omega
        rcases Nat.lt_succ_iff_lt_or_eq.mp hs with hs | rfl
        · rw [Function.update_of_ne (by omega), hfinal s hs k]
          refine exists_congr fun t => and_congr_right fun ht => ?_
          rw [Function.update_of_ne (hold t ht)]
        · rw [Function.update_self, hnext s _ k (by omega)]
          refine exists_congr fun t => and_congr_right fun ht => ?_
          rw [Function.update_of_ne (hold t ht)]
      · rw [Function.update_of_ne (by omega)]
        exact hzero s (by omega)
  intro s k
  by_cases hs : s < n
  · exact (hpass n le_rfl).1 s hs k
  · rw [(hpass n le_rfl).2 s (by omega)]
    refine ⟨fun h => absurd h (Nat.not_lt_zero k), fun ⟨t, ht, _⟩ => ?_⟩
    exact absurd (hdep s t ht).2 hs

/-- A relation without cycles on a finite set is well-founded. -/
theorem wellFounded_of_acyclic {r : V → V → Prop} {U : Set V} (hU : U.Finite)
    (hmem : ∀ a b, r a b → a ∈ U ∧ b ∈ U) (hacyclic : ∀ a, ¬ Relation.TransGen r a a) :
    WellFounded r := by
  have horder : IsStrictOrder V (Relation.TransGen r) :=
    { irrefl := hacyclic, trans := fun _ _ _ => Relation.TransGen.trans }
  have hwf := Set.wellFoundedOn_iff.mp (hU.wellFoundedOn (r := Relation.TransGen r))
  exact Subrelation.wf (fun {a b} h => ⟨Relation.TransGen.single h, hmem a b h⟩) hwf

/-- Values that are computed from the values of dependencies have a solution, if the dependencies are
well-founded. -/
theorem exists_solution {S : Type*} {dep : V → V → Prop} (hwf : WellFounded fun w v => dep v w)
    {U : List V} {eval : V → (V → S) → S}
    (hreads : ∀ v ∈ U, ∀ σ τ, (∀ w, dep v w → σ w = τ w) → eval v σ = eval v τ) (σ : V → S) :
    ∃ φ : V → S, ∀ v ∈ U, eval v φ = φ v := by
  classical
  let φ : V → S := hwf.fix fun v rec => eval v fun w => if h : dep v w then rec w h else σ w
  refine ⟨φ, fun v hv => ?_⟩
  have hφ : φ v = eval v fun w => if dep v w then φ w else σ w := by
    unfold φ
    rw [hwf.fix_eq]
    simp only [dite_eq_ite]
  rw [hφ]
  exact hreads v hv _ _ fun w hw => (if_pos hw).symm

end Graph
