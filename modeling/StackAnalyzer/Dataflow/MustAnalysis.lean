import Mathlib

set_option relaxedAutoImplicit false
set_option autoImplicit false

/-!
# Must analyses in which facts are only generated

A forward analysis of a flow graph that collects, for each block, the facts that hold on every path
to it. Each block generates facts and none is ever invalidated. The analysis starts from the
optimistic state, where all facts hold everywhere but at the entry, and sweeps over the blocks in a
fixed order, updating them in place.

A fact is missing at a block iff some path to it generates the fact nowhere. A sweep carries this
along every edge that leads to a later block of the order, and along one edge that leads back. So the
state after a number of sweeps is known exactly: it lacks what is missing on a path with fewer edges
that lead back.

## Main definitions

* `Dataflow.MustProblem` — a flow graph with the facts that each block generates.
* `Dataflow.MustProblem.Missing`, `Dataflow.MustProblem.mop` — paths that do not generate a fact,
  and the meet over all paths.
* `Dataflow.MustProblem.step`, `Dataflow.MustProblem.sweep` — the update of a block, and a sweep.

## Main results

* `Dataflow.MustProblem.sweep_iterate` — what is known after a number of sweeps.
* `Dataflow.MustProblem.sweep_iterate_fixed`, `Dataflow.MustProblem.step_eq_self` — the sweeps come
  to rest at the meet over all paths.
* `Dataflow.MustProblem.Missing.short` — fewer edges that lead back than blocks suffice.
-/

namespace Dataflow

/-- A must analysis without invalidation: the predecessors of each block, the facts that the
optimistic state assumes, and those that each block generates. -/
structure MustProblem (B X : Type*) where
  preds : B → List B
  top : Set X
  gen : B → Set X

/-- The facts known at the beginning and at the end of each block. -/
structure MustState (B X : Type*) where
  inSet : B → Set X
  outSet : B → Set X

namespace MustProblem

variable {B X : Type*} (P : MustProblem B X)

/-- The facts at the beginning of a block: those at the end of all predecessors, none at a block
without predecessors. -/
def meet (outSet : B → Set X) (b : B) : Set X :=
  {x | P.preds b ≠ [] ∧ x ∈ P.top ∧ ∀ p ∈ P.preds b, x ∈ outSet p}

/-- Some path to the block generates the fact in none of the blocks before it, and `k` of its edges
lead back, that is not to a later block. -/
inductive Missing (before : B → B → Prop) (x : X) : ℕ → B → Prop
  | entry {b : B} (h : P.preds b = []) : Missing before x 0 b
  | forward {k : ℕ} {p b : B} (h : Missing before x k p) (hgen : x ∉ P.gen p) (hp : p ∈ P.preds b)
      (hbefore : before p b) : Missing before x k b
  | back {k : ℕ} {p b : B} (h : Missing before x k p) (hgen : x ∉ P.gen p) (hp : p ∈ P.preds b)
      (hbefore : ¬ before p b) : Missing before x (k + 1) b

/-- The facts that are missing on no path with fewer than `n` edges that lead back. -/
def within (before : B → B → Prop) (n : ℕ) (b : B) : Set X :=
  {x | x ∈ P.top ∧ ∀ k < n, ¬ P.Missing before x k b}

/-- The meet over all paths: the facts that every path to the block generates before it. -/
def mop (before : B → B → Prop) (b : B) : Set X :=
  {x | x ∈ P.top ∧ ∀ k, ¬ P.Missing before x k b}

/-- Update a block. -/
def step [DecidableEq B] (s : MustState B X) (b : B) : MustState B X where
  inSet := Function.update s.inSet b (P.meet s.outSet b)
  outSet := Function.update s.outSet b (P.meet s.outSet b ∪ P.gen b)

/-- The optimistic state: everything holds everywhere but at the entry. -/
def init [DecidableEq B] (P : MustProblem B X) (entry : B) : MustState B X where
  inSet := fun b => if b = entry then ∅ else P.top
  outSet := fun b => if b = entry then ∅ else P.top

/-- Update the blocks in order. -/
def sweep [DecidableEq B] (order : List B) (s : MustState B X) : MustState B X :=
  order.foldl P.step s

variable {P} {before : B → B → Prop}

@[simp] theorem step_inSet_self [DecidableEq B] (s : MustState B X) (b : B) :
    (P.step s b).inSet b = P.meet s.outSet b := Function.update_self ..

@[simp] theorem step_outSet_self [DecidableEq B] (s : MustState B X) (b : B) :
    (P.step s b).outSet b = P.meet s.outSet b ∪ P.gen b := Function.update_self ..

theorem step_inSet_of_ne [DecidableEq B] (s : MustState B X) {b c : B} (h : c ≠ b) :
    (P.step s b).inSet c = s.inSet c := Function.update_of_ne h ..

theorem step_outSet_of_ne [DecidableEq B] (s : MustState B X) {b c : B} (h : c ≠ b) :
    (P.step s b).outSet c = s.outSet c := Function.update_of_ne h ..

/-! ## Paths -/

section Paths

variable {x : X} {order : List B}

/-- A fact is missing at a block with predecessors iff some predecessor lacks it and does not
generate it. -/
theorem missing_iff {k : ℕ} {b : B} (hb : P.preds b ≠ []) :
    (∃ j < k, P.Missing before x j b) ↔
      ∃ p ∈ P.preds b, x ∉ P.gen p ∧
        ((before p b ∧ ∃ j < k, P.Missing before x j p) ∨
          (¬ before p b ∧ ∃ j < k - 1, P.Missing before x j p)) := by
  constructor
  · rintro ⟨j, hj, hmiss⟩
    cases hmiss with
    | entry h => exact absurd h hb
    | forward h hgen hp hbefore => exact ⟨_, hp, hgen, Or.inl ⟨hbefore, _, hj, h⟩⟩
    | @back j _ _ h hgen hp hbefore => exact ⟨_, hp, hgen, Or.inr ⟨hbefore, j, by omega, h⟩⟩
  · rintro ⟨p, hp, hgen, ⟨hbefore, j, hj, h⟩ | ⟨hbefore, j, hj, h⟩⟩
    · exact ⟨j, hj, .forward h hgen hp hbefore⟩
    · exact ⟨j + 1, by omega, .back h hgen hp hbefore⟩

/-- Each number of edges that lead back, up to that of a best path, is the best one for some listed
block. -/
theorem Missing.exists_best (hclosed : ∀ b ∈ order, ∀ p ∈ P.preds b, p ∈ order) {k : ℕ} {b : B}
    (h : P.Missing before x k b) (hb : b ∈ order)
    (hmin : ∀ j, j < k → ¬ P.Missing before x j b) :
    ∀ i ≤ k, ∃ c ∈ order, P.Missing before x i c ∧ ∀ j, j < i → ¬ P.Missing before x j c := by
  induction h with
  | entry h =>
    intro i hi
    obtain rfl := Nat.le_zero.mp hi
    exact ⟨_, hb, .entry h, hmin⟩
  | @forward k p b h hgen hp hbefore ih =>
    exact ih (hclosed b hb p hp) fun j hj hj' => hmin j hj (.forward hj' hgen hp hbefore)
  | @back k p b h hgen hp hbefore ih =>
    intro i hi
    rcases Nat.lt_succ_iff_lt_or_eq.mp (Nat.lt_succ_of_le hi) with hlt | rfl
    · exact ih (hclosed b hb p hp)
        (fun j hj hj' => hmin (j + 1) (Nat.succ_lt_succ hj) (.back hj' hgen hp hbefore)) i
        (Nat.lt_succ_iff.mp hlt)
    · exact ⟨b, hb, .back h hgen hp hbefore, hmin⟩

/-- **Short paths suffice**: if some path generates the fact nowhere, then one on which fewer edges
lead back than there are blocks.

**Proof sketch.** Blocks with different best numbers are different. -/
theorem Missing.short (hclosed : ∀ b ∈ order, ∀ p ∈ P.preds b, p ∈ order) {k : ℕ} {b : B}
    (h : P.Missing before x k b) (hb : b ∈ order) :
    ∃ j < order.length, P.Missing before x j b := by
  classical
  have : Nonempty B := ⟨b⟩
  have hex : ∃ k, P.Missing before x k b := ⟨k, h⟩
  have hmin : ∀ j, j < Nat.find hex → ¬ P.Missing before x j b := fun j hj => Nat.find_min hex hj
  have hpath := (Nat.find_spec hex).exists_best hclosed hb hmin
  choose! c hc using hpath
  have hinj : Set.InjOn c (Finset.range (Nat.find hex + 1)) := by
    intro i hi j hj heq
    have hi' := Nat.lt_succ_iff.mp (Finset.mem_range.mp hi)
    have hj' := Nat.lt_succ_iff.mp (Finset.mem_range.mp hj)
    by_contra hne
    rcases lt_or_gt_of_ne hne with hlt | hlt
    · exact (hc j hj').2.2 i hlt (heq ▸ (hc i hi').2.1)
    · exact (hc i hi').2.2 j hlt (heq ▸ (hc j hj').2.1)
  have hcard : (Finset.range (Nat.find hex + 1)).card ≤ order.toFinset.card :=
    Finset.card_le_card_of_injOn c (fun i hi => List.mem_toFinset.mpr
      (hc i (Nat.lt_succ_iff.mp (Finset.mem_range.mp hi))).1) hinj
  rw [Finset.card_range] at hcard
  exact ⟨Nat.find hex, hcard.trans order.toFinset_card_le, Nat.find_spec hex⟩

/-- The meet over all paths is what every number of sweeps leaves. -/
theorem mem_mop_iff {b : B} : x ∈ P.mop before b ↔ ∀ n, x ∈ P.within before n b :=
  ⟨fun h _ => ⟨h.1, fun k _ => h.2 k⟩, fun h => ⟨(h 0).1, fun k => (h (k + 1)).2 k k.lt_succ_self⟩⟩

/-- All paths are considered iff no fact is missing on longer paths only. -/
theorem within_eq_mop_iff {n : ℕ} {b : B} :
    P.within before n b = P.mop before b ↔
      ∀ x ∈ P.top, (∃ k, P.Missing before x k b) → ∃ k < n, P.Missing before x k b := by
  constructor
  · rintro h x htop ⟨k, hk⟩
    by_contra hnone
    have hx : x ∈ P.within before n b := ⟨htop, fun j hj hmiss => hnone ⟨j, hj, hmiss⟩⟩
    exact (h ▸ hx : x ∈ P.mop before b).2 k hk
  · intro h
    refine Set.Subset.antisymm (fun x hx => ⟨hx.1, fun k hk => ?_⟩) fun x hx =>
      ⟨hx.1, fun k _ => hx.2 k⟩
    obtain ⟨j, hj, hmiss⟩ := h x hx.1 ⟨k, hk⟩
    exact hx.2 j hj hmiss

end Paths

/-! ## Sweeps -/

section Sweep

variable [DecidableEq B]

/-- What the end of a block yields, apart from facts outside of the top. -/
def Yields (P : MustProblem B X) (before : B → B → Prop) (n : ℕ) (s : MustState B X) (b : B) :
    Prop :=
  ∀ x ∈ P.top, x ∈ s.outSet b ↔ x ∈ P.within before n b ∨ x ∈ P.gen b

/-- The block holds what is missing on no path with fewer than `n` edges that lead back. -/
structure Holds (P : MustProblem B X) (before : B → B → Prop) (n : ℕ) (s : MustState B X) (b : B) :
    Prop where
  inSet : s.inSet b = P.within before n b
  outSet : s.outSet b = P.within before n b ∪ P.gen b

omit [DecidableEq B] in
theorem Holds.yields {n : ℕ} {s : MustState B X} {b : B} (h : Holds P before n s b) :
    Yields P before n s b := fun x _ => by rw [h.outSet, Set.mem_union]

/-- **The update of a block** whose earlier predecessors have been updated in this sweep. -/
theorem holds_step {n : ℕ} {s : MustState B X} {b : B}
    (hearlier : ∀ p ∈ P.preds b, before p b → Yields P before (n + 1) s p)
    (hlater : ∀ p ∈ P.preds b, ¬ before p b → Yields P before n s p) :
    Holds P before (n + 1) (P.step s b) b := by
  have hmeet : P.meet s.outSet b = P.within before (n + 1) b := by
    by_cases hb : P.preds b = []
    · have hmiss : ∀ x, P.Missing before x 0 b := fun x => .entry hb
      exact Set.ext fun x => ⟨fun h => absurd hb h.1, fun h => absurd (hmiss x) (h.2 0 n.succ_pos)⟩
    · apply Set.ext
      intro x
      by_cases htop : x ∈ P.top
      · have hpred : ∀ p ∈ P.preds b, x ∉ s.outSet p ↔ x ∉ P.gen p ∧
            ((before p b ∧ ∃ j < n + 1, P.Missing before x j p) ∨
              (¬ before p b ∧ ∃ j < n, P.Missing before x j p)) := by
          intro p hp
          by_cases hbefore : before p b
          · rw [hearlier p hp hbefore x htop]
            simp only [within, Set.mem_ofPred_eq, htop, hbefore, true_and, not_true, false_and,
              or_false, not_or, not_forall, not_not, exists_prop, and_comm]
          · rw [hlater p hp hbefore x htop]
            simp only [within, Set.mem_ofPred_eq, htop, hbefore, true_and, not_false_iff, false_and,
              false_or, not_or, not_forall, not_not, exists_prop, and_comm]
        have hmiss : (∃ j < n + 1, P.Missing before x j b) ↔ _ := missing_iff hb
        rw [Nat.add_sub_cancel] at hmiss
        constructor
        · rintro ⟨-, -, hall⟩
          refine ⟨htop, fun k hk hk' => ?_⟩
          obtain ⟨p, hp, hgen⟩ := hmiss.mp ⟨k, hk, hk'⟩
          exact (hpred p hp).mpr hgen (hall p hp)
        · rintro ⟨-, hall⟩
          refine ⟨hb, htop, fun p hp => by_contra fun hx => ?_⟩
          obtain ⟨j, hj, hj'⟩ := hmiss.mpr ⟨p, hp, (hpred p hp).mp hx⟩
          exact hall j hj hj'
      · exact ⟨fun h => absurd h.2.1 htop, fun h => absurd h.1 htop⟩
  exact ⟨by rw [step_inSet_self, hmeet], by rw [step_outSet_self, hmeet]⟩

/-- Updating another block changes neither what a block holds nor what it yields. -/
theorem Holds.step_of_ne {n : ℕ} {s : MustState B X} {b c : B} (h : Holds P before n s c)
    (hc : c ≠ b) : Holds P before n (P.step s b) c :=
  ⟨by rw [step_inSet_of_ne s hc, h.inSet], by rw [step_outSet_of_ne s hc, h.outSet]⟩

theorem Yields.step_of_ne {n : ℕ} {s : MustState B X} {b c : B} (h : Yields P before n s c)
    (hc : c ≠ b) : Yields P before n (P.step s b) c := fun x hx => by
  rw [step_outSet_of_ne s hc, h x hx]

variable {order : List B}

/-- A part of a sweep, behind blocks that have been updated.

**Proof sketch.** Induction on the blocks to come. The predecessors of the next block that precede it
are among the updated ones, and the others are not. -/
theorem holds_foldl (hasymm : ∀ a b, before a b → ¬ before b a)
    (hclosed : ∀ b ∈ order, ∀ p ∈ P.preds b, p ∈ order) {n : ℕ} (todo earlier : List B)
    (hsplit : order = earlier ++ todo) (hsorted : order.Pairwise before) {s : MustState B X}
    (hdone : ∀ b ∈ earlier, Holds P before (n + 1) s b) (htodo : ∀ b ∈ todo, Yields P before n s b) :
    ∀ b ∈ order, Holds P before (n + 1) (todo.foldl P.step s) b := by
  induction todo generalizing s earlier with
  | nil => simpa [hsplit] using hdone
  | cons c todo ih =>
    obtain ⟨-, htail, hcross⟩ := List.pairwise_append.mp (hsplit ▸ hsorted)
    have hcdone : ∀ b ∈ earlier, before b c := fun b hb => hcross b hb c List.mem_cons_self
    have hctodo : ∀ b ∈ todo, before c b := (List.pairwise_cons.mp htail).1
    have hirrefl : ∀ a, ¬ before a a := fun a h => hasymm a a h h
    have hstep : Holds P before (n + 1) (P.step s c) c := by
      have hc : c ∈ order := by simp [hsplit]
      refine holds_step (fun p hp hbefore => ?_) fun p hp hbefore => ?_
      · have hmem := hclosed c hc p hp
        rw [hsplit, List.mem_append, List.mem_cons] at hmem
        rcases hmem with hmem | rfl | hmem
        · exact (hdone p hmem).yields
        · exact absurd hbefore (hirrefl p)
        · exact absurd hbefore (hasymm _ _ (hctodo p hmem))
      · have hmem := hclosed c hc p hp
        rw [hsplit, List.mem_append] at hmem
        exact htodo p (hmem.resolve_left fun h => hbefore (hcdone p h))
    refine ih (earlier ++ [c]) (by simp [hsplit]) (fun b hb => ?_) fun b hb => ?_
    · rcases List.mem_append.mp hb with hb | hb
      · exact (hdone b hb).step_of_ne fun h => hirrefl c (h ▸ hcdone b hb)
      · rw [List.mem_singleton.mp hb]
        exact hstep
    · exact (htodo b (List.mem_cons_of_mem _ hb)).step_of_ne fun h => hirrefl c (h ▸ hctodo b hb)

variable {entry : B} {rest : List B}

/-- **The state after a number of sweeps**: every block holds what is missing on no path with fewer
edges that lead back than there were sweeps. -/
theorem sweep_iterate (hasymm : ∀ a b, before a b → ¬ before b a)
    (hclosed : ∀ b ∈ entry :: rest, ∀ p ∈ P.preds b, p ∈ entry :: rest)
    (hsorted : (entry :: rest).Pairwise before) (hentry : P.preds entry = []) (n : ℕ) :
    ∀ b ∈ entry :: rest,
      Holds P before (n + 1) ((P.sweep (entry :: rest))^[n + 1] (P.init entry)) b := by
  induction n with
  | zero =>
    have hne : ∀ b ∈ rest, b ≠ entry := fun b hb h =>
      hasymm entry entry (h ▸ (List.pairwise_cons.mp hsorted).1 b hb)
        (h ▸ (List.pairwise_cons.mp hsorted).1 b hb)
    have hfirst : Holds P before 1 (P.step (P.init entry) entry) entry :=
      holds_step (by simp [hentry]) (by simp [hentry])
    refine holds_foldl hasymm hclosed rest [entry] rfl hsorted (by simpa using hfirst)
      fun b hb => Yields.step_of_ne (fun x hx => ?_) (hne b hb)
    simp [init, hne b hb, within, hx]
  | succ n ih =>
    rw [Function.iterate_succ_apply']
    exact holds_foldl hasymm hclosed (entry :: rest) [] rfl hsorted (by simp) fun b hb =>
      (ih b hb).yields

/-- A state that a sweep does not change holds the meet over all paths. -/
theorem sweep_iterate_fixed (hasymm : ∀ a b, before a b → ¬ before b a)
    (hclosed : ∀ b ∈ entry :: rest, ∀ p ∈ P.preds b, p ∈ entry :: rest)
    (hsorted : (entry :: rest).Pairwise before) (hentry : P.preds entry = []) {n : ℕ}
    (hfix : P.sweep (entry :: rest) ((P.sweep (entry :: rest))^[n] (P.init entry)) =
      (P.sweep (entry :: rest))^[n] (P.init entry)) {b : B} (hb : b ∈ entry :: rest) :
    ((P.sweep (entry :: rest))^[n] (P.init entry)).inSet b = P.mop before b := by
  have hstay : ∀ m, (P.sweep (entry :: rest))^[m + n] (P.init entry) =
      (P.sweep (entry :: rest))^[n] (P.init entry) := by
    intro m
    rw [Function.iterate_add_apply]
    exact Function.iterate_fixed hfix m
  apply Set.ext
  intro x
  have hin : ∀ m, x ∈ ((P.sweep (entry :: rest))^[n] (P.init entry)).inSet b ↔
      x ∈ P.within before (m + 1 + n) b := by
    intro m
    have hholds := sweep_iterate hasymm hclosed hsorted hentry (m + n) b hb
    rw [show m + n + 1 = (m + 1) + n by omega] at hholds
    rw [← hstay (m + 1), hholds.inSet]
  refine ⟨fun hx => mem_mop_iff.mpr fun m => ?_, fun hx => (hin 0).mpr (mem_mop_iff.mp hx _)⟩
  exact ⟨((hin m).mp hx).1, fun k hk => ((hin m).mp hx).2 k (by omega)⟩

/-- Where the meet over all paths has been reached, an update changes nothing. -/
theorem step_eq_self (hclosed : ∀ b ∈ order, ∀ p ∈ P.preds b, p ∈ order) {n : ℕ}
    {s : MustState B X} (hmop : ∀ b ∈ order, P.within before n b = P.mop before b)
    (h : ∀ b ∈ order, Holds P before n s b) {b : B} (hb : b ∈ order) : P.step s b = s := by
  have hnext : ∀ c ∈ order, P.within before (n + 1) c = P.within before n c := by
    intro c hc
    refine Set.Subset.antisymm (fun x hx => ⟨hx.1, fun k hk => hx.2 k (hk.trans n.lt_succ_self)⟩)
      fun x hx => ?_
    exact mem_mop_iff.mp (hmop c hc ▸ hx) (n + 1)
  have hstep : Holds P before (n + 1) (P.step s b) b :=
    holds_step
      (fun p hp _ x hx => by rw [(h p (hclosed b hb p hp)).yields x hx, hnext p (hclosed b hb p hp)])
      fun p hp _ => (h p (hclosed b hb p hp)).yields
  have hin : (P.step s b).inSet b = s.inSet b := by
    rw [hstep.inSet, (h b hb).inSet, hnext b hb]
  have hout : (P.step s b).outSet b = s.outSet b := by
    rw [hstep.outSet, (h b hb).outSet, hnext b hb]
  rw [step_inSet_self] at hin
  rw [step_outSet_self] at hout
  rw [step, hout, hin, Function.update_eq_self, Function.update_eq_self]

end Sweep

end MustProblem

end Dataflow
