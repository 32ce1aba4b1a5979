import StackAnalyzer.Graph.Tarjan

set_option relaxedAutoImplicit false
set_option autoImplicit false

/-!
# The invariant of Tarjan's algorithm

The invariant is stated relative to the set of *gray* vertices, those whose procedure has been
entered and not left. Visited vertices are gray, or done and still on the stack, or in a
recorded component.

## Main definitions

* `Graph.Tarjan.Inv` — the invariant.
* `Graph.Tarjan.Ext` — what every piece of the search leaves unchanged.
* `Graph.Tarjan.Post` — the contract of `strongConnect`.
* `Graph.Tarjan.Scan` — the invariant of the successor loop.

## Main results

* `Graph.Tarjan.strongConnect_post`.
-/

namespace Graph.Tarjan

variable {V : Type*} {succ : V → List V}

/-- A search state that records its components. -/
abbrev RState (V : Type*) := State V (List (V × List V))

/-- The invariant of the search while the vertices of `gray` are being visited. -/
structure Inv (succ : V → List V) (gray : V → Prop) (s : RState V) : Prop where
  onStack_iff : ∀ v, s.onStack v = true ↔ v ∈ s.stack
  num_lt : ∀ v, s.Visited v → s.num v < s.nextIndex
  sorted : s.stack.Pairwise fun a b => s.num b < s.num a
  visited_iff : ∀ v, s.Visited v ↔ v ∈ s.stack ∨ s.Emitted v
  not_emitted : ∀ v ∈ s.stack, ¬ s.Emitted v
  gray_mem : ∀ v, gray v → v ∈ s.stack
  black : ∀ v, s.Visited v → ¬ gray v → ∀ w ∈ succ v, s.Visited w
  emitted_closed : ∀ v, s.Emitted v → ∀ w ∈ succ v, s.Emitted w
  to_gray : ∀ x ∈ s.stack, ∃ y, gray y ∧ s.num y ≤ s.num x ∧ Reach succ x y
  of_gray : ∀ x, gray x → ∀ y ∈ s.stack, s.num x ≤ s.num y → Reach succ x y
  sccs : ∀ p ∈ s.out, p.2.Nodup ∧ p.1 ∈ p.2 ∧ ∀ u, u ∈ p.2 ↔ SameSCC succ p.1 u
  pairwise : s.out.Pairwise fun p q => ∀ u ∈ p.2, u ∉ q.2 ∧ ∀ w ∈ succ u, w ∉ q.2

/-- The later state `s'` extends `s`: indices and lowlinks of visited vertices stay, new vertices
get new indices, and components are only added. -/
structure Ext (s s' : RState V) : Prop where
  index : ∀ u, s.Visited u → s'.index u = s.index u
  low : ∀ u, s.Visited u → s'.lowlink u = s.lowlink u
  fresh : ∀ u, s'.Visited u → ¬ s.Visited u → s.nextIndex ≤ s'.num u
  next : s.nextIndex ≤ s'.nextIndex
  out : s.out <+: s'.out

namespace Ext

variable {s s' s'' : RState V}

/-- Visited vertices stay visited. -/
theorem visited (h : Ext s s') {u : V} (hu : s.Visited u) : s'.Visited u := by
  unfold State.Visited
  rw [h.index u hu]
  exact hu

/-- Visited vertices keep their number. -/
theorem num (h : Ext s s') {u : V} (hu : s.Visited u) : s'.num u = s.num u := by
  simp only [State.num, h.index u hu]

/-- A state extends itself. -/
theorem refl (s : RState V) : Ext s s :=
  ⟨fun _ _ => rfl, fun _ _ => rfl, fun _ h h' => absurd h h', le_rfl, List.prefix_rfl⟩

/-- Extension is transitive. -/
theorem trans (h : Ext s s') (h' : Ext s' s'') : Ext s s'' where
  index u hu := (h'.index u (h.visited hu)).trans (h.index u hu)
  low u hu := (h'.low u (h.visited hu)).trans (h.low u hu)
  fresh u hu hn := by
    by_cases hs : s'.Visited u
    · rw [h'.num hs]
      exact h.fresh u hs hn
    · exact h.next.trans (h'.fresh u hu hs)
  next := h.next.trans h'.next
  out := h.out.trans h'.out

end Ext

/-- What `strongConnect v` does to a state `s` in which `v` is new: the invariant is kept for the
same gray vertices, everything new is reachable from `v`, the new part of the stack has no edge
into the old part below the lowlink of `v`, and the lowlink of `v` is the index of an old stack
vertex that `v` reaches, unless the component of `v` was recorded. -/
structure Post (succ : V → List V) (gray : V → Prop) (v : V) (s s' : RState V) : Prop where
  inv : Inv succ gray s'
  ext : Ext s s'
  visited : s'.Visited v
  reach : ∀ u, s'.Visited u → ¬ s.Visited u → Reach succ v u
  stack : ∃ new, s'.stack = new ++ s.stack ∧
    ∀ y ∈ new, ∀ z ∈ succ y, z ∈ s.stack → s'.lowlink v ≤ s'.num z
  low : s'.lowlink v = s'.num v ∨
    ∃ y ∈ s.stack, s'.num y = s'.lowlink v ∧ Reach succ v y

/-- The invariant of the loop over the successors of `v`, entered in state `s₀`, when the
successors in `done` have been followed. -/
structure Scan (succ : V → List V) (gray : V → Prop) (v : V) (s₀ s : RState V)
    (done : V → Prop) : Prop where
  inv : Inv succ (fun u => gray u ∨ u = v) s
  ext : Ext s₀ s
  isNew : ¬ s₀.Visited v
  num : s.num v = s₀.nextIndex
  visited : s.Visited v
  reach : ∀ u, s.Visited u → ¬ s₀.Visited u → Reach succ v u
  stack : ∃ new, s.stack = new ++ v :: s₀.stack ∧
    ∀ y ∈ new, ∀ z ∈ succ y, z ∈ s₀.stack → s.lowlink v ≤ s.num z
  followed : ∀ w, done w → s.Visited w ∧ (w ∈ s₀.stack → s.lowlink v ≤ s.num w)
  low_le : s.lowlink v ≤ s.num v
  low : s.lowlink v = s.num v ∨ ∃ y ∈ s₀.stack, s.num y = s.lowlink v ∧ Reach succ v y

/-! ## Consequences of the invariant -/

namespace Inv

variable {gray : V → Prop} {s : RState V}

/-- Stack vertices are visited. -/
theorem visited_of_mem (h : Inv succ gray s) {v : V} (hv : v ∈ s.stack) : s.Visited v :=
  (h.visited_iff v).mpr (Or.inl hv)

/-- The stack has no duplicates. -/
theorem nodup (h : Inv succ gray s) : s.stack.Nodup :=
  h.sorted.imp fun {a b} hab heq => by subst heq; exact lt_irrefl _ hab

/-- What a recorded vertex reaches is recorded. -/
theorem emitted_of_reach (h : Inv succ gray s) {u v : V} (hu : s.Emitted u)
    (huv : Reach succ u v) : s.Emitted v :=
  huv.mem_of_closed h.emitted_closed hu

/-- With no gray vertex the stack is empty. -/
theorem stack_eq_nil (h : Inv succ gray s) (hg : ∀ v, ¬ gray v) : s.stack = [] := by
  by_contra hne
  obtain ⟨x, hx⟩ := List.exists_mem_of_ne_nil _ hne
  obtain ⟨y, hy, -⟩ := h.to_gray x hx
  exact hg y hy

/-- The invariant holds before the first call. -/
theorem init : Inv succ (fun _ => False) (State.init [] : RState V) where
  onStack_iff v := by simp [State.init]
  num_lt v hv := by simp [State.Visited] at hv
  sorted := List.Pairwise.nil
  visited_iff v := by simp [State.Visited, State.Emitted]
  not_emitted v hv := by simp at hv
  gray_mem v hv := hv.elim
  black v hv := by simp [State.Visited] at hv
  emitted_closed v hv := by simp [State.Emitted] at hv
  to_gray x hx := by simp at hx
  of_gray x hx := hx.elim
  sccs p hp := by simp at hp
  pairwise := List.Pairwise.nil

variable [DecidableEq V]

/-- The invariant does not mention lowlinks. -/
theorem lower (h : Inv succ gray s) (v : V) (l : ℕ) : Inv succ gray (s.lower v l) :=
  ⟨h.onStack_iff, h.num_lt, h.sorted, h.visited_iff, h.not_emitted, h.gray_mem, h.black,
    h.emitted_closed, h.to_gray, h.of_gray, h.sccs, h.pairwise⟩

/-- Numbering a new vertex keeps the invariant, the vertex becoming gray. -/
theorem start (h : Inv succ gray s) {v : V} (hv : ¬ s.Visited v)
    (hg : ∀ g, gray g → Reach succ g v) :
    Inv succ (fun u => gray u ∨ u = v) (s.start v) := by
  have hne : ∀ {u}, s.Visited u → u ≠ v := fun hu he => hv (he ▸ hu)
  have hnum : ∀ {u}, s.Visited u → (s.start v).num u = s.num u := fun hu =>
    s.start_num_ne _ _ (hne hu)
  have hstk : ∀ {u}, u ∈ s.stack → s.Visited u := h.visited_of_mem
  have hem : ∀ u, (s.start v).Emitted u ↔ s.Emitted u := fun _ => Iff.rfl
  refine ⟨?_, ?_, ?_, ?_, ?_, ?_, ?_, ?_, ?_, ?_, h.sccs, h.pairwise⟩
  · intro u
    by_cases hu : u = v
    · subst hu; simp [State.start]
    · simp [State.start, hu, h.onStack_iff u]
  · intro u hu
    rcases (State.visited_start s u v).mp hu with rfl | hu
    · simp
    · rw [hnum hu, State.start_nextIndex]
      exact (h.num_lt u hu).trans (Nat.lt_succ_self _)
  · rw [State.start_stack, List.pairwise_cons]
    refine ⟨fun b hb => ?_, h.sorted.imp_of_mem fun {a b} ha hb hab => ?_⟩
    · rw [hnum (hstk hb), State.start_num]
      exact h.num_lt b (hstk hb)
    · rwa [hnum (hstk ha), hnum (hstk hb)]
  · intro u
    rw [State.visited_start, hem, State.start_stack, List.mem_cons, h.visited_iff u, or_assoc]
  · intro u hu
    rw [hem]
    rcases List.mem_cons.mp hu with rfl | hu
    · exact fun he => hv ((h.visited_iff _).mpr (Or.inr he))
    · exact h.not_emitted u hu
  · rintro u (hu | rfl)
    · exact List.mem_cons_of_mem _ (h.gray_mem u hu)
    · exact List.mem_cons_self
  · intro u hu hng w hw
    simp only [not_or] at hng
    rcases (State.visited_start s u v).mp hu with rfl | hu
    · exact absurd rfl hng.2
    · exact (State.visited_start s w v).mpr (Or.inr (h.black u hu hng.1 w hw))
  · exact h.emitted_closed
  · intro x hx
    rcases List.mem_cons.mp hx with rfl | hx
    · exact ⟨x, Or.inr rfl, le_rfl, Reach.refl x⟩
    · obtain ⟨y, hy, hyx, hxy⟩ := h.to_gray x hx
      refine ⟨y, Or.inl hy, ?_, hxy⟩
      rw [hnum (hstk hx), hnum (hstk (h.gray_mem y hy))]
      exact hyx
  · rintro x (hx | rfl) y hy hxy
    · rcases List.mem_cons.mp hy with rfl | hy
      · exact hg x hx
      · rw [hnum (hstk hy), hnum (hstk (h.gray_mem x hx))] at hxy
        exact h.of_gray x hx y hy hxy
    · rcases List.mem_cons.mp hy with rfl | hy
      · exact Reach.refl _
      · rw [hnum (hstk hy), State.start_num] at hxy
        exact absurd (h.num_lt y (hstk hy)) (by omega)

end Inv

/-! ## The successor loop -/

namespace Scan

variable {gray : V → Prop} {v : V} {s₀ s : RState V} {done : V → Prop} [DecidableEq V]

/-- The loop invariant holds when `v` has just been numbered. -/
theorem start (h : Inv succ gray s₀) (hv : ¬ s₀.Visited v)
    (hg : ∀ g, gray g → Reach succ g v) :
    Scan succ gray v s₀ (s₀.start v) fun _ => False where
  inv := h.start hv hg
  ext := by
    have hne : ∀ {u}, s₀.Visited u → u ≠ v := fun hu he => hv (he ▸ hu)
    refine ⟨fun u hu => s₀.start_index_ne _ _ (hne hu),
      fun u hu => s₀.start_lowlink_ne _ _ (hne hu), fun u hu hn => ?_, Nat.le_succ _,
      List.prefix_rfl⟩
    rcases (State.visited_start s₀ u v).mp hu with rfl | hu
    · simp
    · exact absurd hu hn
  isNew := hv
  num := by simp
  visited := (State.visited_start s₀ v v).mpr (Or.inl rfl)
  reach u hu hn := by
    rcases (State.visited_start s₀ u v).mp hu with rfl | hu
    · exact Reach.refl _
    · exact absurd hu hn
  stack := ⟨[], rfl, by simp⟩
  followed w hw := hw.elim
  low_le := by simp
  low := Or.inl (by simp)

/-- A stack vertex with a smaller index than `v` was on the stack before `v`. -/
theorem mem_old (h : Scan succ gray v s₀ s done) {y : V} (hy : y ∈ s.stack)
    (hlt : s.num y < s.num v) : y ∈ s₀.stack := by
  obtain ⟨new, hstk, -⟩ := h.stack
  have hs := h.inv.sorted
  rw [hstk] at hy hs
  rcases List.mem_append.mp hy with hy | hy
  · have := (List.pairwise_append.mp hs).2.2 y hy v List.mem_cons_self
    omega
  · rcases List.mem_cons.mp hy with rfl | hy
    · exact absurd hlt (lt_irrefl _)
    · exact hy

/-- The state `s₁` reached from `s` by following the edge from `v` to `w`, with the lowlink of `v`
lowered by `l`, satisfies the loop invariant with `w` followed.

The three ways to follow an edge are instances: `s₁` is the state after visiting a new `w` and `l`
the lowlink of `w`; or `s₁ = s` and `l` is the index of a stack vertex `w`; or `s₁ = s` and `l` is
the lowlink of `v` itself. -/
theorem advance (h : Scan succ gray v s₀ s done) {w : V} (hw : w ∈ succ v) {s₁ : RState V} {l : ℕ}
    (hinv : Inv succ (fun u => gray u ∨ u = v) s₁) (hext : Ext s s₁) (hvis : s₁.Visited w)
    (hreach : ∀ u, s₁.Visited u → ¬ s.Visited u → Reach succ w u)
    (hstk : ∃ new, s₁.stack = new ++ s.stack ∧
      ∀ y ∈ new, ∀ z ∈ succ y, z ∈ s.stack → l ≤ s₁.num z)
    (hlw : w ∈ s.stack → l ≤ s₁.num w)
    (hl : l < s.num v → ∃ y ∈ s.stack, s.num y = l ∧ Reach succ v y) :
    Scan succ gray v s₀ (s₁.lower v l) fun u => done u ∨ u = w := by
  have hlow : s₁.lowlink v = s.lowlink v := hext.low v h.visited
  have hnumv : s₁.num v = s.num v := hext.num h.visited
  have hold : ∀ {z}, z ∈ s₀.stack → z ∈ s.stack := by
    intro z hz
    obtain ⟨new, hs, -⟩ := h.stack
    rw [hs]
    exact List.mem_append_right _ (List.mem_cons_of_mem _ hz)
  have hnum : ∀ {z}, z ∈ s.stack → s₁.num z = s.num z := fun hz =>
    hext.num (h.inv.visited_of_mem hz)
  refine ⟨hinv.lower v l, ?_, h.isNew, hnumv.trans h.num, hext.visited h.visited, ?_, ?_, ?_, ?_,
    ?_⟩
  · have he := h.ext.trans hext
    refine ⟨he.index, fun u hu => ?_, he.fresh, he.next, he.out⟩
    rw [State.lower_lowlink_ne s₁ u v l fun heq => h.isNew (heq ▸ hu)]
    exact he.low u hu
  · intro u hu hn
    by_cases hs : s.Visited u
    · exact h.reach u hs hn
    · exact (hreach u hu hs).head hw
  · obtain ⟨new, hs, hnew⟩ := h.stack
    obtain ⟨new', hs', hnew'⟩ := hstk
    refine ⟨new' ++ new, by rw [State.lower_stack, hs', hs, List.append_assoc], ?_⟩
    intro y hy z hz hz0
    rw [State.lower_lowlink, State.lower_num]
    rcases List.mem_append.mp hy with hy | hy
    · have := hnew' y hy z hz (hold hz0)
      omega
    · have := hnew y hy z hz hz0
      rw [hnum (hold hz0)]
      omega
  · rintro u (hu | rfl)
    · refine ⟨hext.visited (h.followed u hu).1, fun hu0 => ?_⟩
      have := (h.followed u hu).2 hu0
      rw [State.lower_lowlink, State.lower_num, hnum (hold hu0)]
      omega
    · refine ⟨hvis, fun hu0 => ?_⟩
      have := hlw (hold hu0)
      rw [State.lower_lowlink, State.lower_num]
      omega
  · have := h.low_le
    rw [State.lower_lowlink, State.lower_num]
    omega
  · rw [State.lower_lowlink, State.lower_num, hlow, hnumv]
    by_cases hlt : l < s.lowlink v
    · -- the new lowlink is an index below that of `v`, hence of a vertex pushed before `v`
      have hlv : l < s.num v := lt_of_lt_of_le hlt h.low_le
      obtain ⟨y, hy, rfl, hvy⟩ := hl hlv
      refine Or.inr ⟨y, h.mem_old hy hlv, ?_, hvy⟩
      rw [Nat.min_eq_right hlt.le]
      exact hnum hy
    · rw [Nat.min_eq_left (by omega)]
      rcases h.low with hlow | ⟨y, hy, hyl, hvy⟩
      · exact Or.inl hlow
      · exact Or.inr ⟨y, hy, (hnum (hold hy)).trans hyl, hvy⟩

/-- Following one edge keeps the loop invariant. -/
theorem step (h : Scan succ gray v s₀ s done) {w : V} (hw : w ∈ succ v)
    {visit : V → RState V → RState V}
    (hvisit : ¬ s.Visited w → Post succ (fun u => gray u ∨ u = v) w s (visit w s)) :
    Scan succ gray v s₀ (relaxEdge visit v w s) fun u => done u ∨ u = w := by
  unfold relaxEdge
  cases hi : s.index w with
  | none =>
    have hn : ¬ s.Visited w := by simp [State.Visited, hi]
    have hp := hvisit hn
    refine h.advance hw hp.inv hp.ext hp.visited hp.reach hp.stack
      (fun hws => absurd (h.inv.visited_of_mem hws) hn) fun hlt => ?_
    rcases hp.low with heq | ⟨y, hy, hyl, hwy⟩
    · have h1 := hp.ext.fresh w hp.visited hn
      have h2 := h.inv.num_lt v h.visited
      omega
    · refine ⟨y, hy, ?_, hwy.head hw⟩
      rw [← hyl, hp.ext.num (h.inv.visited_of_mem hy)]
  | some i =>
    have hvis : s.Visited w := by simp [State.Visited, hi]
    have hnum : s.num w = i := by simp [State.num, hi]
    by_cases hon : s.onStack w = true
    · have hws := (h.inv.onStack_iff w).mp hon
      simp only [hon, if_true]
      exact h.advance hw h.inv (Ext.refl s) hvis (fun u hu hn => absurd hu hn)
        ⟨[], rfl, by simp⟩ (fun _ => hnum.ge) fun _ => ⟨w, hws, hnum, Reach.edge hw⟩
    · have hws : w ∉ s.stack := fun hws => hon ((h.inv.onStack_iff w).mpr hws)
      have hself : s = s.lower v (s.lowlink v) := by simp [State.lower]
      simp only [hon, Bool.false_eq_true, if_false]
      rw [hself]
      refine h.advance hw h.inv (Ext.refl s) hvis (fun u hu hn => absurd hu hn)
        ⟨[], rfl, by simp⟩ (fun hws' => absurd hws' hws) fun hlt => ?_
      rcases h.low with heq | ⟨y, hy, hyl, hvy⟩
      · omega
      · obtain ⟨new, hs, -⟩ := h.stack
        exact ⟨y, by rw [hs]; exact List.mem_append_right _ (List.mem_cons_of_mem _ hy), hyl, hvy⟩

/-- The loop over the successors of `v` follows all of them. -/
theorem loop {visit : V → RState V → RState V}
    (hvisit : ∀ w ∈ succ v, ∀ s, Inv succ (fun u => gray u ∨ u = v) s → Reach succ v w →
      Ext s₀ s → s.Visited v → ¬ s.Visited w →
      Post succ (fun u => gray u ∨ u = v) w s (visit w s)) :
    ∀ (ws : List V) (s : RState V) (done : V → Prop), (∀ w ∈ ws, w ∈ succ v) →
      Scan succ gray v s₀ s done →
      Scan succ gray v s₀ (edgeLoop visit v ws s) fun u => done u ∨ u ∈ ws
  | [], s, done, _, h => by simpa [edgeLoop] using h
  | w :: ws, s, done, hws, h => by
    have hw := hws w List.mem_cons_self
    have hstep := h.step hw fun hn =>
      hvisit w hw s h.inv (Reach.edge hw) h.ext h.visited hn
    have := loop hvisit ws _ _ (fun u hu => hws u (List.mem_cons_of_mem _ hu)) hstep
    simpa only [edgeLoop, List.mem_cons, or_assoc] using this

/-! ## Leaving a vertex -/

omit [DecidableEq V] in
/-- The vertices pushed since `v` was entered, and `v` itself, are not on the old stack. -/
theorem not_mem_old (h : Scan succ gray v s₀ s done) {new : List V}
    (hs : s.stack = new ++ v :: s₀.stack) {x : V} (hx : x ∈ new ++ [v]) : x ∉ s₀.stack := by
  have hnd := h.inv.nodup
  rw [hs, List.append_cons] at hnd
  exact (List.disjoint_of_nodup_append hnd) hx

omit [DecidableEq V] in
/-- Successors of what was pushed since `v` was entered are visited. -/
theorem visited_succ (h : Scan succ gray v s₀ s done) (hdone : ∀ w ∈ succ v, done w) {u : V}
    (hu : s.Visited u) (hg : ¬ gray u) : ∀ w ∈ succ u, s.Visited w := by
  intro w hw
  by_cases huv : u = v
  · subst huv
    exact (h.followed w (hdone w hw)).1
  · exact h.inv.black u hu (by tauto) w hw

omit [DecidableEq V] in
/-- If `v` is a root, the vertices pushed since it was entered have no edge to the old stack. -/
theorem closed (h : Scan succ gray v s₀ s done) (h₀ : Inv succ gray s₀)
    (hdone : ∀ w ∈ succ v, done w) (hroot : s.lowlink v = s.num v) {new : List V}
    (hs : s.stack = new ++ v :: s₀.stack)
    (hnew : ∀ y ∈ new, ∀ z ∈ succ y, z ∈ s₀.stack → s.lowlink v ≤ s.num z) :
    ∀ y, (y ∈ new ++ [v] ∨ s.Emitted y) → ∀ z ∈ succ y, z ∈ new ++ [v] ∨ s.Emitted z := by
  rintro y (hy | hy) z hz
  swap
  · exact Or.inr (h.inv.emitted_closed y hy z hz)
  have hys : y ∈ s.stack := by
    rw [hs, List.append_cons]
    exact List.mem_append_left _ hy
  have hyg : ¬ gray y := fun hg => h.not_mem_old hs hy (h₀.gray_mem y hg)
  have hzv := h.visited_succ hdone (h.inv.visited_of_mem hys) hyg z hz
  rcases (h.inv.visited_iff z).mp hzv with hzs | hze
  · rw [hs, List.append_cons] at hzs
    rcases List.mem_append.mp hzs with hzc | hz0
    · exact Or.inl hzc
    · -- an edge to the old stack would have lowered the lowlink of `v` below its index
      have hzle : s.lowlink v ≤ s.num z := by
        rcases List.mem_append.mp hy with hy | hy
        · exact hnew y hy z hz hz0
        · obtain rfl := List.mem_singleton.mp hy
          exact (h.followed z (hdone z hz)).2 hz0
      have hsort := h.inv.sorted
      rw [hs] at hsort
      have := List.rel_of_pairwise_cons (List.pairwise_append.mp hsort).2.1 hz0
      omega
  · exact Or.inr hze

omit [DecidableEq V] in
/-- If `v` is a root, the vertices pushed since it was entered are its component. -/
theorem component (h : Scan succ gray v s₀ s done) (h₀ : Inv succ gray s₀)
    (hdone : ∀ w ∈ succ v, done w) (hroot : s.lowlink v = s.num v) {new : List V}
    (hs : s.stack = new ++ v :: s₀.stack)
    (hnew : ∀ y ∈ new, ∀ z ∈ succ y, z ∈ s₀.stack → s.lowlink v ≤ s.num z) (u : V) :
    u ∈ new ++ [v] ↔ SameSCC succ v u := by
  have hcl := h.closed h₀ hdone hroot hs hnew
  have hmem : ∀ {x}, x ∈ new ++ [v] → x ∈ s.stack := fun hx => by
    rw [hs, List.append_cons]
    exact List.mem_append_left _ hx
  have hv : v ∈ new ++ [v] := List.mem_append_right _ (List.mem_singleton.mpr rfl)
  constructor
  · intro hu
    constructor
    · refine h.inv.of_gray v (Or.inr rfl) u (hmem hu) ?_
      rcases List.mem_append.mp hu with hu | hu
      · have hsort := h.inv.sorted
        rw [hs] at hsort
        exact ((List.pairwise_append.mp hsort).2.2 u hu v List.mem_cons_self).le
      · rw [List.mem_singleton.mp hu]
    · obtain ⟨y, hy | rfl, -, huy⟩ := h.inv.to_gray u (hmem hu)
      · -- a gray vertex below `v` is on the old stack, which `u` cannot reach
        have hy0 := h₀.gray_mem y hy
        rcases huy.mem_of_closed hcl (Or.inl hu) with hyc | hye
        · exact absurd hy0 (h.not_mem_old hs hyc)
        · refine absurd hye (h.inv.not_emitted y ?_)
          rw [hs]
          exact List.mem_append_right _ (List.mem_cons_of_mem _ hy0)
      · exact huy
  · rintro ⟨hvu, huv⟩
    rcases hvu.mem_of_closed hcl (Or.inl hv) with hu | hu
    · exact hu
    · exact absurd (h.inv.emitted_of_reach hu huv) (h.inv.not_emitted v (hmem hv))

/-- Leaving `v` after its loop fulfils the contract. -/
theorem finish (h : Scan succ gray v s₀ s done) (h₀ : Inv succ gray s₀)
    (hdone : ∀ w ∈ succ v, done w) : Post succ gray v s₀ (s.finish record v) := by
  obtain ⟨new, hs, hnew⟩ := h.stack
  have hidx : s.index v = some (s.num v) := by
    have := h.visited
    unfold State.Visited at this
    obtain ⟨i, hi⟩ := Option.isSome_iff_exists.mp this
    simp [State.num, hi]
  have hblack : ∀ u, s.Visited u → ¬ gray u → ∀ w ∈ succ u, s.Visited w := fun u hu hg =>
    h.visited_succ hdone hu hg
  have hold : ∀ {z}, z ∈ s₀.stack → z ∈ s.stack := fun hz => by
    rw [hs]
    exact List.mem_append_right _ (List.mem_cons_of_mem _ hz)
  have hlt : ∀ {z}, z ∈ s₀.stack → s.num z < s.num v := fun hz => by
    have hsort := h.inv.sorted
    rw [hs] at hsort
    exact List.rel_of_pairwise_cons (List.pairwise_append.mp hsort).2.1 hz
  unfold State.finish
  by_cases hroot : s.lowlink v = s.num v
  · have hvn : v ∉ new := by
      have hnd := h.inv.nodup
      rw [hs] at hnd
      exact fun hv => (List.disjoint_of_nodup_append hnd) hv List.mem_cons_self
    have hcomp := h.component h₀ hdone hroot hs hnew
    have hcl := h.closed h₀ hdone hroot hs hnew
    have hnd : (new ++ [v]).Nodup := by
      have hnd := h.inv.nodup
      rw [hs, List.append_cons] at hnd
      exact hnd.of_append_left
    have hin : ∀ {x}, x ∈ s.stack ↔ x ∈ new ++ [v] ∨ x ∈ s₀.stack := fun {x} => by
      rw [hs, List.append_cons, List.mem_append]
    rw [if_pos (by rw [hidx, hroot]), hs, popThrough_append hvn]
    set s' : RState V := { s with
      stack := s₀.stack
      onStack := fun w => if w ∈ new ++ [v] then false else s.onStack w
      out := record v (new ++ [v]) s.out } with hs'
    have hem : ∀ x, s'.Emitted x ↔ s.Emitted x ∨ x ∈ new ++ [v] := fun x => by
      simp [hs', State.Emitted, record, or_and_right, exists_or]
    have hinv : Inv succ gray s' := by
      refine ⟨fun w => ?_, h.inv.num_lt, ?_, fun w => ?_, fun w hw => ?_, h₀.gray_mem, hblack,
        fun w hw => ?_, fun x hx => ?_, fun x hx y hy => ?_, fun p hp => ?_, ?_⟩
      · show (if w ∈ new ++ [v] then false else s.onStack w) = true ↔ w ∈ s₀.stack
        by_cases hc : w ∈ new ++ [v]
        · rw [if_pos hc]
          exact ⟨fun hf => absurd hf Bool.false_ne_true,
            fun hw => absurd hw (h.not_mem_old hs hc)⟩
        · rw [if_neg hc, h.inv.onStack_iff w, hin]
          tauto
      · have hsort := h.inv.sorted
        rw [hs] at hsort
        exact (List.pairwise_cons.mp (List.pairwise_append.mp hsort).2.1).2
      · rw [show s'.Visited w ↔ s.Visited w from Iff.rfl, h.inv.visited_iff w, hin, hem]
        tauto
      · rw [hem]
        rintro (he | hc)
        · exact h.inv.not_emitted w (hold hw) he
        · exact h.not_mem_old hs hc hw
      · intro z hz
        exact (hem z).mpr ((hcl w ((hem w).mp hw).symm z hz).symm)
      · obtain ⟨y, hy | rfl, hyx, hxy⟩ := h.inv.to_gray x (hold hx)
        · exact ⟨y, hy, hyx, hxy⟩
        · exact absurd (hlt hx) (by omega)
      · exact h.inv.of_gray x (Or.inl hx) y (hold hy)
      · rcases List.mem_append.mp hp with hp | hp
        · exact h.inv.sccs p hp
        · obtain rfl := List.mem_singleton.mp hp
          exact ⟨hnd, List.mem_append_right _ (List.mem_singleton.mpr rfl), hcomp⟩
      · refine List.pairwise_append.mpr ⟨h.inv.pairwise, List.pairwise_singleton _ _, ?_⟩
        intro p hp q hq u hu
        obtain rfl := List.mem_singleton.mp hq
        have hue : s.Emitted u := ⟨p, hp, hu⟩
        exact ⟨fun hc => h.inv.not_emitted u (hin.mpr (Or.inl hc)) hue, fun w hw hc =>
          h.inv.not_emitted w (hin.mpr (Or.inl hc)) (h.inv.emitted_closed u hue w hw)⟩
    exact ⟨hinv, ⟨h.ext.index, h.ext.low, h.ext.fresh, h.ext.next,
      h.ext.out.trans (List.prefix_append _ _)⟩, h.visited, h.reach, ⟨[], rfl, by simp⟩,
      Or.inl hroot⟩
  · rw [if_neg (by rw [hidx]; simpa using hroot)]
    obtain ⟨y, hy, hyl, hvy⟩ := h.low.resolve_left hroot
    have hinv : Inv succ gray s := by
      refine ⟨h.inv.onStack_iff, h.inv.num_lt, h.inv.sorted, h.inv.visited_iff, h.inv.not_emitted,
        fun u hu => h.inv.gray_mem u (Or.inl hu), hblack, h.inv.emitted_closed, fun x hx => ?_,
        fun x hx => h.inv.of_gray x (Or.inl hx), h.inv.sccs, h.inv.pairwise⟩
      obtain ⟨z, hz | rfl, hzx, hxz⟩ := h.inv.to_gray x hx
      · exact ⟨z, hz, hzx, hxz⟩
      · -- the witness `v` is no longer gray: continue from the old vertex it reaches
        obtain ⟨z', hz' | rfl, hz'y, hyz'⟩ := h.inv.to_gray y (hold hy)
        · have := hlt hy
          exact ⟨z', hz', by omega, (hxz.trans hvy).trans hyz'⟩
        · have := hlt hy
          omega
    refine ⟨hinv, h.ext, h.visited, h.reach, ⟨new ++ [v], ?_, fun u hu z hz hz0 => ?_⟩,
      Or.inr ⟨y, hy, hyl, hvy⟩⟩
    · rw [hs, List.append_cons]
    · rcases List.mem_append.mp hu with hu | hu
      · exact hnew u hu z hz hz0
      · obtain rfl := List.mem_singleton.mp hu
        exact (h.followed z (hdone z hz)).2 hz0

end Scan

/-! ## The contract of `strongConnect` and of a run -/

variable [DecidableEq V]

/-- **`strongConnect` fulfils its contract**: called on a new vertex that every gray vertex
reaches, with more fuel than there are unvisited vertices.

**Proof sketch.** Induction on the fuel. Numbering `v` establishes the loop invariant, every edge
keeps it, the recursive call having one unvisited vertex less, and leaving `v` turns it into the
contract. -/
theorem strongConnect_post {U : List V} (hU : Closed succ U) :
    ∀ (fuel : ℕ) (gray : V → Prop) (v : V) (s : RState V), v ∈ U →
      unseen U (fun u => (s.index u).isSome) < fuel → Inv succ gray s → ¬ s.Visited v →
      (∀ g, gray g → Reach succ g v) →
      Post succ gray v s (strongConnect succ record fuel v s)
  | 0, _, _, _, _, hfuel, _, _, _ => absurd hfuel (Nat.not_lt_zero _)
  | fuel + 1, gray, v, s, hvU, hfuel, hinv, hv, hg => by
    have hstart := Scan.start hinv hv hg
    have hvisit : ∀ w ∈ succ v, ∀ s₁, Inv succ (fun u => gray u ∨ u = v) s₁ → Reach succ v w →
        Ext s s₁ → s₁.Visited v → ¬ s₁.Visited w →
        Post succ (fun u => gray u ∨ u = v) w s₁ (strongConnect succ record fuel w s₁) := by
      intro w hw s₁ hinv₁ hvw hext hv₁ hn
      refine strongConnect_post hU fuel _ w s₁ (hU v hvU w hw) ?_ hinv₁ hn ?_
      · have hlt : unseen U (fun u => (s₁.index u).isSome) <
            unseen U (fun u => (s.index u).isSome) :=
          unseen_lt (fun u hu => hext.visited hu) hvU (by simpa [State.Visited] using hv) hv₁
        omega
      · rintro g (hgg | rfl)
        · exact (hg g hgg).trans hvw
        · exact hvw
    have hloop := Scan.loop hvisit (succ v) (s.start v) _ (fun _ hw => hw) hstart
    exact hloop.finish hinv fun w hw => Or.inr hw

/-- A run keeps the invariant, visits its roots, and visits only what they reach. -/
theorem run_inv {U : List V} (hU : Closed succ U) {fuel : ℕ} :
    ∀ (roots : List V) (s : RState V), (∀ v ∈ roots, v ∈ U) →
      unseen U (fun u => (s.index u).isSome) < fuel → Inv succ (fun _ => False) s →
      Inv succ (fun _ => False) (run succ record fuel roots s) ∧
        Ext s (run succ record fuel roots s) ∧
        (∀ v ∈ roots, (run succ record fuel roots s).Visited v) ∧
        ∀ u, (run succ record fuel roots s).Visited u → s.Visited u ∨ ∃ v ∈ roots, Reach succ v u
  | [], s, _, _, hinv => by
    simp only [run]
    exact ⟨hinv, Ext.refl s, by simp, fun u hu => Or.inl hu⟩
  | v :: vs, s, hroots, hfuel, hinv => by
    have hvs : ∀ u ∈ vs, u ∈ U := fun u hu => hroots u (List.mem_cons_of_mem _ hu)
    simp only [run]
    by_cases hv : (s.index v).isSome = true
    · rw [if_pos hv]
      obtain ⟨h1, h2, h3, h4⟩ := run_inv hU vs s hvs hfuel hinv
      refine ⟨h1, h2, ?_, fun u hu => ?_⟩
      · rintro u hu
        rcases List.mem_cons.mp hu with rfl | hu
        · exact h2.visited hv
        · exact h3 u hu
      · rcases h4 u hu with h | ⟨w, hw, hwu⟩
        · exact Or.inl h
        · exact Or.inr ⟨w, List.mem_cons_of_mem _ hw, hwu⟩
    · rw [if_neg hv]
      have hpost := strongConnect_post hU fuel _ v s (hroots v List.mem_cons_self) hfuel hinv hv
        (fun g hg => hg.elim)
      have hfuel' : unseen U (fun u => ((strongConnect succ record fuel v s).index u).isSome) <
          fuel := lt_of_le_of_lt (unseen_mono fun u hu => hpost.ext.visited hu) hfuel
      obtain ⟨h1, h2, h3, h4⟩ := run_inv hU vs _ hvs hfuel' hpost.inv
      refine ⟨h1, hpost.ext.trans h2, ?_, fun u hu => ?_⟩
      · intro u hu
        rcases List.mem_cons.mp hu with rfl | hu
        · exact h2.visited hpost.visited
        · exact h3 u hu
      · rcases h4 u hu with h | ⟨w, hw, hwu⟩
        · by_cases hsu : s.Visited u
          · exact Or.inl hsu
          · exact Or.inr ⟨v, List.mem_cons_self, hpost.reach u h hsu⟩
        · exact Or.inr ⟨w, List.mem_cons_of_mem _ hw, hwu⟩

/-- What the recorded components of a run are: duplicate-free strongly connected components named
by their root, pairwise disjoint and without an edge to a later one, covering exactly what the
roots of the run reach. -/
structure Components (succ : V → List V) (roots : List V) (out : List (V × List V)) : Prop where
  cover : ∀ u, (∃ p ∈ out, u ∈ p.2) ↔ ∃ r ∈ roots, Reach succ r u
  sccs : ∀ p ∈ out, p.2.Nodup ∧ p.1 ∈ p.2 ∧ ∀ u, u ∈ p.2 ↔ SameSCC succ p.1 u
  pairwise : out.Pairwise fun p q => ∀ u ∈ p.2, u ∉ q.2 ∧ ∀ w ∈ succ u, w ∉ q.2

/-- **Tarjan's algorithm is correct**: with fuel above the size of a closed list that contains the
roots, a run records exactly the strongly connected components of what its roots reach.

**Proof sketch.** After the run no vertex is gray, so the stack is empty and the visited vertices
are the recorded ones; they are closed under edges and contain the roots. -/
theorem run_spec {U : List V} (hU : Closed succ U) {fuel : ℕ} (hfuel : U.length < fuel)
    {roots : List V} (hroots : ∀ v ∈ roots, v ∈ U) :
    Components succ roots (run succ record fuel roots (State.init [])).out := by
  have hle : unseen U (fun u => ((State.init [] : RState V).index u).isSome) < fuel :=
    lt_of_le_of_lt (List.length_filter_le _ _) hfuel
  obtain ⟨hinv, -, hvis, hreach⟩ := run_inv hU roots (State.init []) hroots hle Inv.init
  have hnil := hinv.stack_eq_nil fun _ h => h
  have hem : ∀ u, (run succ record fuel roots (State.init [])).Visited u ↔
      ∃ p ∈ (run succ record fuel roots (State.init [])).out, u ∈ p.2 := fun u => by
    rw [hinv.visited_iff u, hnil]
    simp [State.Emitted]
  refine ⟨fun u => ⟨fun hu => ?_, ?_⟩, hinv.sccs, hinv.pairwise⟩
  · rcases hreach u ((hem u).mpr hu) with h | h
    · simp [State.Visited] at h
    · exact h
  · rintro ⟨r, hr, hru⟩
    exact hinv.emitted_of_reach ((hem r).mp (hvis r hr)) hru

end Graph.Tarjan
