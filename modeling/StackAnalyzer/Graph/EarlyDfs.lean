import StackAnalyzer.Graph.Reach

set_option relaxedAutoImplicit false
set_option autoImplicit false

/-!
# Memoised checks by depth-first search

A vertex is checked item by item: an item passes, fails, or asks for the check of another vertex. The
search stops at the first item that does not pass. It takes a vertex that it is still checking for
one that fails, and remembers all answers for good.

A vertex that is still being checked reaches the one that asks for it. So both lie on a cycle or
above one, and the answers that are remembered are final.

## Main definitions

* `Graph.EarlyDfs.visit`, `Graph.EarlyDfs.answers` — a search, and searches one after the other.
* `Graph.EarlyDfs.Good` — no item that can be reached fails, and no cycle can be reached.

## Main results

* `Graph.EarlyDfs.visit_post` — what a search does to a state with the invariant.
* `Graph.EarlyDfs.answers_iff` — **all answers are right**, whatever has been asked before.
-/

namespace Graph.EarlyDfs

/-- An item of a check. -/
inductive Check (V : Type*)
  | pass
  | fail
  | ask (v : V)

variable {V : Type*}

/-- The answers so far, and the vertices that are being checked. -/
structure Cache (V : Type*) where
  memo : V → Option Bool
  visiting : V → Bool

/-- The cache after it has been cleared. -/
def Cache.cleared : Cache V := ⟨fun _ => none, fun _ => false⟩

/-- The check of the items of a vertex. -/
def scan (visit : V → Cache V → Bool × Cache V) : List (Check V) → Cache V → Bool × Cache V
  | [], cache => (true, cache)
  | .pass :: items, cache => scan visit items cache
  | .fail :: _, cache => (false, cache)
  | .ask v :: items, cache =>
    match visit v cache with
    | (true, cache) => scan visit items cache
    | (false, cache) => (false, cache)

section Search

variable [DecidableEq V]

/-- A vertex is being checked. -/
def Cache.enter (cache : Cache V) (v : V) : Cache V :=
  { cache with visiting := Function.update cache.visiting v true }

/-- The answer of a vertex is remembered. -/
def Cache.leave (cache : Cache V) (v : V) (answer : Bool) : Cache V :=
  ⟨Function.update cache.memo v (some answer), Function.update cache.visiting v false⟩

/-- The search. -/
def visit (items : V → List (Check V)) : ℕ → V → Cache V → Bool × Cache V
  | 0, _, cache => (false, cache)
  | fuel + 1, v, cache =>
    match cache.memo v with
    | some answer => (answer, cache)
    | none =>
      if cache.visiting v then (false, cache)
      else
        let result := scan (visit items fuel) (items v) (cache.enter v)
        (result.1, result.2.leave v result.1)

/-- Searches one after the other. -/
def answers (items : V → List (Check V)) (fuel : ℕ) : List V → Cache V → List Bool
  | [], _ => []
  | v :: vs, cache =>
    let result := visit items fuel v cache
    result.1 :: answers items fuel vs result.2

end Search

/-! ## What is right -/

/-- The vertices that a vertex asks for. -/
def asked (items : V → List (Check V)) (v : V) : List V :=
  (items v).filterMap fun item =>
    match item with
    | .ask u => some u
    | _ => none

/-- A vertex lies on a cycle. -/
def OnCycle (succ : V → List V) (v : V) : Prop := Relation.TransGen (Edge succ) v v

/-- **A vertex is good** if no item that can be reached fails, and no cycle can be reached. -/
def Good (items : V → List (Check V)) (v : V) : Prop :=
  (∀ u, Reach (asked items) v u → Check.fail ∉ items u) ∧
    ∀ u, Reach (asked items) v u → ¬ OnCycle (asked items) u

section Good

variable {items : V → List (Check V)} {v u : V}

theorem mem_asked_iff : u ∈ asked items v ↔ Check.ask u ∈ items v := by
  unfold asked
  rw [List.mem_filterMap]
  constructor
  · rintro ⟨item, hitem, h⟩
    cases item with
    | ask w =>
      obtain rfl := Option.some.inj h
      exact hitem
    | pass | fail => cases h
  · exact fun h => ⟨_, h, rfl⟩

/-- What can be reached from a good vertex is good. -/
theorem Good.of_reach (h : Good items v) (hreach : Reach (asked items) v u) : Good items u :=
  ⟨fun w hw => h.1 w (hreach.trans hw), fun w hw => h.2 w (hreach.trans hw)⟩

/-- A vertex is good if no item of it fails and all vertices that it asks for are good. -/
theorem good_iff : Good items v ↔ Check.fail ∉ items v ∧ ∀ u ∈ asked items v, Good items u := by
  constructor
  · exact fun h => ⟨h.1 v (Reach.refl v), fun u hu => h.of_reach (Reach.edge hu)⟩
  · rintro ⟨hfail, hgood⟩
    refine ⟨fun u hu => ?_, fun u hu hcycle => ?_⟩
    · rcases hu.cases_head with rfl | ⟨w, hw, hwu⟩
      · exact hfail
      · exact (hgood w hw).1 u hwu
    · rcases hu.cases_head with rfl | ⟨w, hw, hwu⟩
      · -- a cycle through the vertex is one through the next vertex on it
        obtain ⟨w, hw, hback⟩ := Relation.TransGen.head'_iff.mp hcycle
        exact (hgood w hw).2 w (Reach.refl w) (Relation.TransGen.tail' hback hw)
      · exact (hgood w hw).2 u hwu hcycle

end Good

/-! ## The invariant -/

/-- All answers that are remembered are right. -/
def Inv (items : V → List (Check V)) (cache : Cache V) : Prop :=
  ∀ v answer, cache.memo v = some answer → (answer = true ↔ Good items v)

/-- A vertex has been asked for. -/
def Cache.seen (cache : Cache V) (v : V) : Bool := cache.visiting v || (cache.memo v).isSome

/-- What a search does: its answer is right, the answers are right, the vertices that are being
checked are the same, and no answer is forgotten. -/
structure Post (items : V → List (Check V)) (cache : Cache V) (result : Bool × Cache V)
    (right : Prop) : Prop where
  answer_iff : result.1 = true ↔ right
  inv : Inv items result.2
  visiting_eq : result.2.visiting = cache.visiting
  memo_le : ∀ v, (cache.memo v).isSome → (result.2.memo v).isSome

variable {items : V → List (Check V)} {U : List V} {fuel : ℕ} {v : V} {cache : Cache V}

/-- No vertex that has been seen is forgotten. -/
theorem Post.unseen_le {result : Bool × Cache V} {right : Prop}
    (h : Post items cache result right) : unseen U result.2.seen ≤ unseen U cache.seen := by
  refine unseen_mono fun u hu => ?_
  simp only [Cache.seen, Bool.or_eq_true] at hu ⊢
  rw [h.visiting_eq]
  exact hu.imp_right (h.memo_le u)

/-- **The check of items** is right if that of the vertices is. -/
theorem scan_post {visit : V → Cache V → Bool × Cache V} (l : List (Check V))
    (hvisit : ∀ u, Check.ask u ∈ l → ∀ cache', Inv items cache' →
      cache'.visiting = cache.visiting → unseen U cache'.seen ≤ unseen U cache.seen →
      Post items cache' (visit u cache') (Good items u))
    {start : Cache V} (hinv : Inv items start) (hvisiting : start.visiting = cache.visiting)
    (hunseen : unseen U start.seen ≤ unseen U cache.seen) :
    Post items start (scan visit l start)
      (Check.fail ∉ l ∧ ∀ u, Check.ask u ∈ l → Good items u) := by
  induction l generalizing start with
  | nil => exact ⟨by simp [scan], hinv, rfl, fun _ h => h⟩
  | cons item l ih =>
    have hrest : ∀ u, Check.ask u ∈ l → ∀ cache', Inv items cache' →
        cache'.visiting = cache.visiting → unseen U cache'.seen ≤ unseen U cache.seen →
        Post items cache' (visit u cache') (Good items u) :=
      fun u hu => hvisit u (List.mem_cons_of_mem _ hu)
    cases item with
    | pass =>
      obtain ⟨hanswer, hinv', hvisiting', hmemo⟩ := ih hrest hinv hvisiting hunseen
      exact ⟨hanswer.trans (by simp), hinv', hvisiting', hmemo⟩
    | fail => exact ⟨by simp [scan], hinv, rfl, fun _ h => h⟩
    | ask u =>
      have hpost := hvisit u List.mem_cons_self start hinv hvisiting hunseen
      cases hresult : visit u start with
      | mk answer next =>
        rw [hresult] at hpost
        have hgood : answer = true ↔ Good items u := hpost.answer_iff
        cases answer with
        | true =>
          have hscan : scan visit (.ask u :: l) start = scan visit l next := by
            rw [scan, hresult]
          obtain ⟨hanswer, hinv', hvisiting', hmemo⟩ := ih hrest hpost.inv
            (hpost.visiting_eq.trans hvisiting) (hpost.unseen_le.trans hunseen)
          rw [hscan]
          refine ⟨hanswer.trans ?_, hinv', hvisiting'.trans hpost.visiting_eq,
            fun w hw => hmemo w (hpost.memo_le w hw)⟩
          simp [hgood.mp rfl]
        | false =>
          have hscan : scan visit (.ask u :: l) start = (false, next) := by
            rw [scan, hresult]
          rw [hscan]
          refine ⟨iff_of_false Bool.false_ne_true fun h => ?_, hpost.inv, hpost.visiting_eq,
            hpost.memo_le⟩
          exact Bool.false_ne_true (hgood.mpr (h.2 u List.mem_cons_self))

/-- The cleared cache has no wrong answers. -/
theorem inv_cleared : Inv items (Cache.cleared : Cache V) := by
  intro v answer h
  cases h

variable [DecidableEq V]

/-- A vertex that is being checked has been seen. -/
theorem unseen_enter_lt (hv : v ∈ U) (hseen : cache.seen v = false) :
    unseen U (cache.enter v).seen < unseen U cache.seen := by
  refine unseen_lt (fun u hu => ?_) hv hseen (by simp [Cache.seen, Cache.enter])
  simp only [Cache.seen, Cache.enter, Bool.or_eq_true] at hu ⊢
  by_cases hvu : u = v
  · simp [hvu]
  · simpa [hvu] using hu

/-- **What a search does**, if the vertices that are being checked reach the one that is asked for.

**Proof sketch.** By induction on the fuel. A vertex that is being checked reaches itself then, and
is not good. A new vertex is checked with itself among those that are being checked. -/
theorem visit_post (hU : ∀ v, v ∈ U) (fuel : ℕ) {v : V} {cache : Cache V} (hinv : Inv items cache)
    (hreach : ∀ u, cache.visiting u = true → Relation.TransGen (Edge (asked items)) u v)
    (hfuel : unseen U cache.seen < fuel) :
    Post items cache (visit items fuel v cache) (Good items v) := by
  induction fuel generalizing v cache with
  | zero => exact absurd hfuel (Nat.not_lt_zero _)
  | succ fuel ih =>
    cases hmemo : cache.memo v with
    | some answer =>
      have hvisit : visit items (fuel + 1) v cache = (answer, cache) := by rw [visit, hmemo]
      rw [hvisit]
      exact ⟨hinv v answer hmemo, hinv, rfl, fun _ h => h⟩
    | none =>
      cases hvisiting : cache.visiting v with
      | true =>
        have hvisit : visit items (fuel + 1) v cache = (false, cache) := by
          rw [visit, hmemo]
          exact if_pos hvisiting
        rw [hvisit]
        refine ⟨iff_of_false Bool.false_ne_true fun h => ?_, hinv, rfl, fun _ h => h⟩
        exact h.2 v (Reach.refl v) (hreach v hvisiting)
      | false =>
        have hvisit : visit items (fuel + 1) v cache =
            ((scan (visit items fuel) (items v) (cache.enter v)).1,
              (scan (visit items fuel) (items v) (cache.enter v)).2.leave v
                (scan (visit items fuel) (items v) (cache.enter v)).1) := by
          rw [visit, hmemo]
          exact if_neg (by simp [hvisiting])
        have hlt : unseen U (cache.enter v).seen < unseen U cache.seen :=
          unseen_enter_lt (hU v) (by simp [Cache.seen, hvisiting, hmemo])
        have hpost : Post items (cache.enter v)
            (scan (visit items fuel) (items v) (cache.enter v))
            (Check.fail ∉ items v ∧ ∀ u, Check.ask u ∈ items v → Good items u) := by
          refine scan_post (U := U) (items v) (fun u hu cache' hinv' hvisiting' hunseen' => ?_) hinv
            rfl le_rfl
          refine ih hinv' (fun w hw => ?_) (by omega)
          rw [hvisiting'] at hw
          have hedge : Edge (asked items) v u := mem_asked_iff.mpr hu
          by_cases hwv : w = v
          · subst hwv
            exact Relation.TransGen.single hedge
          · exact (hreach w (by simpa [Cache.enter, hwv] using hw)).tail hedge
        rw [hvisit]
        generalize scan (visit items fuel) (items v) (cache.enter v) = result at hpost
        have hgood : result.1 = true ↔ Good items v := by
          rw [hpost.answer_iff, good_iff]
          simp only [mem_asked_iff]
        refine ⟨hgood, fun u answer hu => ?_, ?_, fun u hu => ?_⟩
        · by_cases huv : u = v
          · subst huv
            obtain rfl : result.1 = answer := by simpa [Cache.leave] using hu
            exact hgood
          · exact hpost.inv u answer (by simpa [Cache.leave, huv] using hu)
        · show Function.update result.2.visiting v false = cache.visiting
          rw [hpost.visiting_eq]
          show Function.update (Function.update cache.visiting v true) v false = cache.visiting
          rw [Function.update_idem, ← hvisiting, Function.update_eq_self]
        · by_cases huv : u = v
          · simp [Cache.leave, huv]
          · simpa [Cache.leave, huv] using hpost.memo_le u hu

/-- **All answers are right**, whatever has been asked before. -/
theorem answers_iff (hU : ∀ v, v ∈ U) {fuel : ℕ} (hfuel : U.length < fuel) (queries : List V)
    {cache : Cache V} (hinv : Inv items cache) (hvisiting : ∀ v, cache.visiting v = false) :
    List.Forall₂ (fun v answer => answer = true ↔ Good items v) queries
      (answers items fuel queries cache) := by
  induction queries generalizing cache with
  | nil => exact .nil
  | cons v vs ih =>
    have hle : unseen U cache.seen ≤ U.length := List.length_filter_le _ _
    have hpost := visit_post hU fuel (v := v) hinv (fun u hu => by simp [hvisiting u] at hu)
      (by omega)
    refine .cons hpost.answer_iff (ih hpost.inv fun u => ?_)
    rw [hpost.visiting_eq, hvisiting u]

end Graph.EarlyDfs
