import StackAnalyzer.Stack.Cyclic

set_option relaxedAutoImplicit false
set_option autoImplicit false

/-!
# Stack totals as bounds on simple call paths

A total is sound when it bounds the frames along every simple call path and inherits every unknown
frame below. The totals memoised inside a cycle need not be: this file determines the call graphs
on which they are, for all frames and all key orders.

## Main definitions

* `StackAnalyzer.TotalsSound` — all totals are sound.
* `StackAnalyzer.PairCycles` — when a function calls another one that calls back, the other one
  calls no third function.

## Main results

* `StackAnalyzer.pathBytes_le_totalBytes`, `StackAnalyzer.unknown_of_reach` — soundness on graphs
  with `PairCycles`.
* `StackAnalyzer.exists_unsound` — on every other graph some totals are too small.
* `StackAnalyzer.totalsSound_iff` — the totals are sound exactly on acyclic graphs, and exactly on
  graphs with `PairCycles` when a repeated frame may not overflow either.
-/

namespace StackAnalyzer

open Graph

variable {F : Type*} [DecidableEq F] {CG : CallGraph F} {LocalStack : PtrMap F LocalStackInfo}

/-! ## Bounds on simple call paths -/

/-- The frames of all functions fit 64 bits together. -/
def SumsFit (LocalStack : PtrMap F LocalStackInfo) : Prop :=
  (LocalStack.keys.map (localBytes LocalStack)).sum < 2 ^ 64

/-- The frames fit 64 bits together with any one of them counted once more. -/
def RepeatedSumsFit (LocalStack : PtrMap F LocalStackInfo) : Prop :=
  ∀ f ∈ LocalStack.keys,
    (LocalStack.keys.map (localBytes LocalStack)).sum + localBytes LocalStack f < 2 ^ 64

/-- Every function of `LocalStack` has a total that bounds the frames along every simple call path
from it and that is unknown when a function that is reached has an unknown frame. -/
def TotalsSound (hasNoRecurseContract : F → Bool) (CG : CallGraph F)
    (LocalStack : PtrMap F LocalStackInfo) : Prop :=
  ∀ f ∈ LocalStack.keys, ∃ t,
    (computeGlobalStackUsage hasNoRecurseContract CG LocalStack).TotalStack f = some t ∧
    (∀ p, CallPath CG f p → p.Nodup → pathBytes LocalStack p ≤ t.bytes.toNat) ∧
    ((∃ u, Reach CG.callees f u ∧ (localEstimate LocalStack u).unknown = true) → t.unknown = true)

/-- When a function calls another one that calls back, the other one calls no third function. -/
def PairCycles (CG : CallGraph F) : Prop :=
  ∀ f, ∀ c ∈ CG.callees f, c ≠ f → Reach CG.callees c f → ∀ d ∈ CG.callees c, d = f ∨ d = c

/-- Acyclic graphs have no such functions. -/
theorem Acyclic.pairCycles (h : Acyclic CG) : PairCycles CG :=
  fun f c hc _ hcf => absurd hcf (h f c hc)

section Sound

variable {keys : List F} {S : MemoDfs.Schedule CG.callees keys} {T : F → Option StackEstimate}
  (hpair : PairCycles CG) (hT : S.Solves estimates (localEstimate LocalStack) T)
include hpair

/-- **The bound on simple paths**, when no equation wraps.

**Proof sketch.** Induction on the path. The next function contributes its total, which bounds the
rest of the path, unless it was being visited. Then it calls back, so by the shape of the cycles a
simple path ends there, and its frame is all there is to cover. -/
theorem pathBytes_le_totalBytes
    (hadd : ∀ g ∈ S.order, totalBytes T g = localBytes LocalStack g +
      (estimates.joinAll (contribution LocalStack S T g) (CG.callees g)).bytes.toNat)
    {f : F} {p : List F} (hp : CallPath CG f p) :
    p.Nodup → f ∈ S.order → pathBytes LocalStack p ≤ totalBytes T f := by
  induction hp with
  | single f =>
    intro _ hf
    rw [hadd f hf]
    simp
  | @cons f c p hc hp ih =>
    intro hnd hf
    rw [List.nodup_cons] at hnd
    have hle := StackEstimate.le_joinAll (contribution LocalStack S T f) _ hc
    rw [hadd f hf, pathBytes_cons]
    refine Nat.add_le_add_left (le_trans ?_ hle) _
    unfold contribution
    cases hb : S.back f c with
    | false => simpa [totalBytes] using ih hnd.2 (S.mem_succ hf hc)
    | true =>
      have hcf : c ≠ f := fun h => hnd.1 (h ▸ hp.mem_head)
      have hcall := hpair f c hc hcf (S.back_reach f hf c hb)
      cases hp with
      | single => simp [localBytes]
      | @cons _ d p hd hp =>
        rw [List.nodup_cons] at hnd
        rcases hcall d hd with rfl | rfl
        · exact absurd (List.mem_cons_of_mem _ hp.mem_head) hnd.1
        · exact absurd hp.mem_head hnd.2.1

include hT in
/-- The unknown flag reaches every caller. -/
theorem unknown_of_reach {u : F} (hu : (localEstimate LocalStack u).unknown = true) :
    ∀ g ∈ S.order, Reach CG.callees g u → ((T g).getD {}).unknown = true := by
  refine S.induction fun g hg ih hgu => ?_
  rw [total_unknown hT hg]
  by_cases hne : g = u
  · exact Or.inl (hne ▸ hu)
  · -- the last step out of `g` leads to a function other than `g`
    obtain ⟨a, c, rfl, hcg, hc, -, hcu⟩ := hgu.exit (P := fun x => x = g) rfl fun h => hne h.symm
    refine Or.inr ⟨c, hc, ?_⟩
    unfold contribution
    cases hb : S.back a c with
    | false => simpa using ih c hc hb hcu
    | true =>
      have hca := S.back_reach a hg c hb
      have hcall := hpair a c hc hcg hca
      -- `c` calls `a` and itself only, and so does `a`
      have hac : a ∈ CG.callees c := by
        obtain ⟨x, y, rfl, hy, hxy, -, -⟩ := hca.exit (P := fun x => x = c) rfl fun h => hcg h.symm
        rcases hcall y hxy with rfl | rfl
        · exact hxy
        · exact absurd rfl hy
      have hcall' := hpair c a hac (Ne.symm hcg) (Reach.edge hc)
      have hmem : u = a ∨ u = c := hcu.mem_of_closed (P := fun x => x = a ∨ x = c)
        (by
          rintro x (rfl | rfl) y hy
          · exact (hcall' y hy).symm
          · exact hcall y hy) (Or.inr rfl)
      rcases hmem with rfl | rfl
      · exact absurd rfl hne
      · simpa using hu

end Sound

/-- **The totals are sound** on graphs with `PairCycles`, if no equation wraps. -/
theorem totalsSound_of_pairCycles (hasNoRecurseContract : F → Bool) (hpair : PairCycles CG)
    (hfit : ∀ S : MemoDfs.Schedule CG.callees LocalStack.keys, ∃ M,
      (∀ g ∈ S.order, ∀ c ∈ CG.callees g, S.back g c = true → localBytes LocalStack c ≤ M) ∧
        (LocalStack.keys.map (localBytes LocalStack)).sum + M < 2 ^ 64) :
    TotalsSound hasNoRecurseContract CG LocalStack := by
  intro f hf
  obtain ⟨S, hS⟩ := exists_totals CG LocalStack.keys
  replace hS := hS LocalStack rfl
  obtain ⟨M, hM, hsum⟩ := hfit S
  have hfo : f ∈ S.order := (S.mem_iff f).mpr ⟨f, hf, Reach.refl f⟩
  have heq := total_eq hS hfo
  have hget : ∀ e, totalStack CG LocalStack f = some e → (totalStack CG LocalStack f).getD {} = e :=
    fun e he => by rw [he, Option.getD_some]
  refine ⟨_, heq, fun p hp hnd => ?_, ?_⟩
  · have h := pathBytes_le_totalBytes hpair (fun g hg => totalBytes_eq_add hS hM hsum hg) hp hnd hfo
    rwa [totalBytes, hget _ heq] at h
  · rintro ⟨u, hfu, hu⟩
    have h := unknown_of_reach hpair hS hu f hfo hfu
    rwa [hget _ heq] at h

/-! ## Call graphs with unsound totals -/

/-- A call path from a later function on is a call path. -/
theorem CallPath.suffix {f g : F} {p : List F} (h : CallPath CG f p) (hg : g ∈ p) :
    ∃ pre q, p = pre ++ q ∧ CallPath CG g q := by
  induction h with
  | single f =>
    obtain rfl := List.mem_singleton.mp hg
    exact ⟨[], [g], rfl, CallPath.single g⟩
  | @cons f c p hc hp ih =>
    rcases List.mem_cons.mp hg with rfl | hg
    · exact ⟨[], g :: p, rfl, CallPath.cons hc hp⟩
    · obtain ⟨pre, q, rfl, hq⟩ := ih hg
      exact ⟨f :: pre, q, rfl, hq⟩

/-- What is reached is reached by a simple call path. -/
theorem exists_simple_callPath {f g : F} (h : Reach CG.callees f g) :
    ∃ p, CallPath CG f p ∧ p.Nodup ∧ g ∈ p.getLast? := by
  induction h using Relation.ReflTransGen.head_induction_on with
  | refl => exact ⟨[g], CallPath.single g, List.nodup_singleton g, rfl⟩
  | @head a c hac _ ih =>
    obtain ⟨p, hp, hnd, hlast⟩ := ih
    by_cases ha : a ∈ p
    · -- the path returns to `a`: cut the loop off
      obtain ⟨pre, q, rfl, hq⟩ := hp.suffix ha
      refine ⟨q, hq, (List.nodup_append.mp hnd).2.1, ?_⟩
      rwa [List.getLast?_append_of_ne_nil _ (List.ne_nil_of_mem hq.mem_head)] at hlast
    · refine ⟨a :: p, CallPath.cons hac hp, List.nodup_cons.mpr ⟨ha, hnd⟩, ?_⟩
      rw [List.getLast?_cons]
      cases hl : p.getLast? with
      | none => rw [hl] at hlast; simp at hlast
      | some x => rw [hl] at hlast; simpa using hlast

/-- The frame of a function on a path is part of the sum. -/
theorem localBytes_le_pathBytes {f : F} {p : List F} (hf : f ∈ p) :
    localBytes LocalStack f ≤ pathBytes LocalStack p :=
  List.single_le_sum (by simp) _ (List.mem_map.mpr ⟨f, hf, rfl⟩)

/-- The total that soundness gives, as a number of bytes. -/
theorem TotalsSound.pathBytes_le {hasNoRecurseContract : F → Bool}
    (h : TotalsSound hasNoRecurseContract CG LocalStack) {f : F} (hf : f ∈ LocalStack.keys)
    {p : List F} (hp : CallPath CG f p) (hnd : p.Nodup) :
    pathBytes LocalStack p ≤ totalBytes (totalStack CG LocalStack) f := by
  obtain ⟨t, ht, hpath, -⟩ := h f hf
  have hget : totalBytes (totalStack CG LocalStack) f = t.bytes.toNat := by
    rw [totalBytes, show totalStack CG LocalStack f = some t from ht, Option.getD_some]
  rw [hget]
  exact hpath p hp hnd

/-- **A frame on a cycle that overflows when doubled** makes a total wrap: with the first key on
the cycle and a frame of `2 ^ 63` bytes, the totals are not sound. -/
theorem not_totalsSound_of_cycle (hasNoRecurseContract : F → Bool) {f c : F}
    (hc : c ∈ CG.callees f) (hcf : Reach CG.callees c f) :
    ∃ LocalStack, SumsFit LocalStack ∧ ¬ TotalsSound hasNoRecurseContract CG LocalStack := by
  let w : F → UInt64 := fun x => if x = f then UInt64.ofNat (2 ^ 63) else 0
  have hw : ∀ x, (w x).toNat = if x = f then 2 ^ 63 else 0 := fun x => by
    by_cases hx : x = f <;> simp [w, hx]
  have hkeys := keys_framesFrom CG f w
  have hlocal : localBytes (framesFrom CG f w) f = 2 ^ 63 := by
    have h := localBytes_frames w (nodup_keysFrom CG f) (self_mem_keysFrom CG f)
    rwa [hw, if_pos rfl] at h
  refine ⟨framesFrom CG f w, ?_, fun hs => ?_⟩
  · have hsum := sum_framesFrom_le CG f (w := w) (List.nodup_singleton f) fun x hx => by
      rw [hw] at hx
      simpa using hx
    rw [List.map_singleton, List.sum_singleton, hw, if_pos rfl] at hsum
    exact lt_of_le_of_lt hsum (by omega)
  · obtain ⟨S, hS⟩ := exists_totals CG (keysFrom CG f)
    replace hS := hS _ hkeys
    have hf : f ∈ S.order := (S.mem_iff f).mpr ⟨f, self_mem_keysFrom CG f, Reach.refl f⟩
    -- the callee on the cycle contributes the frame of `f` again
    have hm : 2 ^ 63 ≤ (estimates.joinAll (contribution (framesFrom CG f w) S
        (totalStack CG (framesFrom CG f w)) f) (CG.callees f)).bytes.toNat := by
      refine le_trans ?_ (StackEstimate.le_joinAll _ _ hc)
      unfold contribution
      by_cases hcf' : c = f
      · subst hcf'
        rw [S.back_self c hf, if_pos rfl]
        exact le_of_eq hlocal.symm
      · have hb : S.back f c = false := by
          rw [← Bool.not_eq_true, (S.first f (by simp [keysFrom])).1 c]
          exact hcf'
        obtain ⟨p, hp, hnd, hlast⟩ := exists_simple_callPath hcf
        rw [hb, if_neg (by decide)]
        calc 2 ^ 63 = localBytes (framesFrom CG f w) f := hlocal.symm
          _ ≤ pathBytes (framesFrom CG f w) p :=
            localBytes_le_pathBytes (List.mem_of_getLast? hlast)
          _ ≤ totalBytes (totalStack CG (framesFrom CG f w)) c :=
            hs.pathBytes_le (by rw [hkeys]; exact mem_keysFrom (CG.mem_functions hc)) hp hnd
    have hpath := hs.pathBytes_le (by rw [hkeys]; exact self_mem_keysFrom CG f)
      (CallPath.single f) (List.nodup_singleton f)
    rw [pathBytes_cons, pathBytes_nil, Nat.add_zero, totalBytes_eq hS hf, hlocal] at hpath
    have hlt := (estimates.joinAll (contribution (framesFrom CG f w) S
      (totalStack CG (framesFrom CG f w)) f) (CG.callees f)).bytes.toNat_lt
    omega

/-! ### The function of a component that finishes first -/

/-- A call of `x` inside its component leads to a function that calls a third one. -/
def CallsPast (CG : CallGraph F) (x : F) : Prop :=
  ∃ b ∈ CG.callees x, b ≠ x ∧ Reach CG.callees b x ∧ ∃ d ∈ CG.callees b, d ≠ x ∧ d ≠ b

omit [DecidableEq F] in
/-- A function that shares a component with `x` and is not `x` is a direct callee of `x`, if no
call of `x` inside the component leads past. -/
theorem mem_callees_of_not_callsPast [DecidableEq F] {x y : F} (hx : ¬ CallsPast CG x)
    (hxy : SameSCC CG.callees x y) (hne : y ≠ x) : y ∈ CG.callees x := by
  by_contra hy
  obtain ⟨a, d, ha, hd, had, hxa, hdy⟩ := hxy.1.exit
    (P := fun u => u = x ∨ u ∈ CG.callees x ∧ Reach CG.callees u x) (Or.inl rfl)
    fun h => h.elim hne fun h => hy h.1
  have hdx : Reach CG.callees d x := hdy.trans hxy.2
  rcases ha with rfl | ⟨hac, hax⟩
  · exact hd (Or.inr ⟨had, hdx⟩)
  · by_cases hax' : a = x
    · exact hd (Or.inr ⟨hax' ▸ had, hdx⟩)
    · refine hx ⟨a, hac, hax', hax, d, had, fun h => hd (Or.inl h), fun h => hd ?_⟩
      exact Or.inr (h ▸ ⟨hac, hax⟩)

/-- **All but one function of a component call past**: if one does, there is a function of the
component such that all others do.

**Proof sketch.** Two functions that do not would call each other and nothing else, so they would
be the whole component. -/
theorem exists_root_callsPast {x : F} (hx : CallsPast CG x) :
    ∃ r, SameSCC CG.callees x r ∧ ∀ y, SameSCC CG.callees x y → y ≠ r → CallsPast CG y := by
  by_cases hall : ∀ y, SameSCC CG.callees x y → CallsPast CG y
  · exact ⟨x, SameSCC.refl x, fun y hy _ => hall y hy⟩
  push Not at hall
  obtain ⟨r, hxr, hr⟩ := hall
  refine ⟨r, hxr, fun y hxy hyr => ?_⟩
  by_contra hy
  have hry : SameSCC CG.callees r y := hxr.symm.trans hxy
  have hyr' := mem_callees_of_not_callsPast hr hry hyr
  have hry' := mem_callees_of_not_callsPast hy hry.symm (Ne.symm hyr)
  -- the two call nothing but each other
  have honly : ∀ {a b}, ¬ CallsPast CG a → b ∈ CG.callees a → b ≠ a → a ∈ CG.callees b →
      ∀ d ∈ CG.callees b, d = a ∨ d = b := fun {a b} ha hb hne hab d hd => by
    by_contra hd'
    rw [not_or] at hd'
    exact ha ⟨b, hb, hne, Reach.edge hab, d, hd, hd'⟩
  have hclosed : ∀ u, (u = r ∨ u = y) → ∀ v ∈ CG.callees u, v = r ∨ v = y := by
    rintro u (rfl | rfl) v hv
    · exact (honly hy hry' (Ne.symm hyr) hyr' v hv).symm
    · exact honly hr hyr' hyr hry' v hv
  obtain ⟨b, hb, hbx, -, d, hd, hdx, hdb⟩ := hx
  have hx' := hxr.2.mem_of_closed hclosed (Or.inl rfl)
  have hb' := hclosed x hx' b hb
  have hd' := hclosed b hb' d hd
  rcases hx' with rfl | rfl <;> rcases hb' with rfl | rfl <;> rcases hd' with rfl | rfl <;>
    first | exact hbx rfl | exact hdx rfl | exact hdb rfl

/-- The function of the component of `r` that finishes first, when the component has another
function besides the first key `r`: everything it calls inside the component is being visited. -/
theorem exists_first_finisher {keys : List F} (S : MemoDfs.Schedule CG.callees keys) {r y : F}
    (hr : r ∈ keys.head?) (hry : SameSCC CG.callees r y) (hne : y ≠ r) :
    ∃ pre x post, S.order = pre ++ x :: post ∧ SameSCC CG.callees r x ∧ x ≠ r ∧
      ∀ z ∈ pre, ¬ SameSCC CG.callees r z := by
  classical
  have hro : r ∈ S.order := (S.mem_iff r).mpr ⟨r, List.mem_of_mem_head? hr, Reach.refl r⟩
  cases hfind : S.order.find? (fun x => decide (SameSCC CG.callees r x)) with
  | none =>
    rw [List.find?_eq_none] at hfind
    exact absurd (decide_eq_true (SameSCC.refl r)) (hfind r hro)
  | some x =>
    obtain ⟨hx, pre, post, heq, hpre⟩ := List.find?_eq_some_iff_append.mp hfind
    rw [decide_eq_true_eq] at hx
    have hpre' : ∀ z ∈ pre, ¬ SameSCC CG.callees r z := fun z hz => by
      have := hpre z hz
      simpa using this
    refine ⟨pre, x, post, heq, hx, fun hxr => ?_, hpre'⟩
    subst hxr
    -- `r` calls another function of the component, which finishes before it
    obtain ⟨a, d, rfl, hd, had, -, hdy⟩ := hry.1.exit (P := fun u => u = x) rfl hne
    rcases S.back_or_mem heq had with hb | hdp
    · exact hd (((S.first a hr).1 d).mp hb)
    · exact hpre' d hdp ⟨Reach.edge had, hdy.trans hry.2⟩

/-- **Small frames with a total that is too small**, when some function calls past inside its
component.

**Proof sketch.** Take as first key a function such that all others of the component call past,
and let `x` finish first in the component. It calls `b` inside the component, which calls a third
function `d`. Give `b` two bytes and `d` one. Everything that `x` calls inside the component
contributes its frame only, and what it calls outside does not reach `b`, so its total is at most
twice the frame of `d`. So the total of `x` is at most two, and the path through `b` has three. -/
theorem not_totalsSound_of_callsPast (hasNoRecurseContract : F → Bool) {f : F}
    (hf : CallsPast CG f) :
    ∃ LocalStack, RepeatedSumsFit LocalStack ∧ ¬ TotalsSound hasNoRecurseContract CG LocalStack := by
  classical
  obtain ⟨r, hfr, hall⟩ := exists_root_callsPast hf
  -- the component has a function besides the first key
  obtain ⟨y, hry, hyr⟩ : ∃ y, SameSCC CG.callees r y ∧ y ≠ r := by
    obtain ⟨b, hb, hbf, hbf', -⟩ := hf
    by_cases h : f = r
    · exact ⟨b, h ▸ ⟨Reach.edge hb, hbf'⟩, h ▸ hbf⟩
    · exact ⟨f, hfr.symm, h⟩
  obtain ⟨S, hS⟩ := exists_totals CG (keysFrom CG r)
  obtain ⟨pre, x, post, heq, hrx, hxr, hpre⟩ :=
    exists_first_finisher S (by simp [keysFrom]) hry hyr
  obtain ⟨b, hb, hbx, hbx', d, hd, hdx, hdb⟩ := hall x (hfr.trans hrx) hxr
  let w : F → UInt64 := fun u => if u = b then 2 else if u = d then 1 else 0
  have hw : ∀ u, (w u).toNat = if u = b then 2 else if u = d then 1 else 0 := fun u => by
    by_cases hub : u = b
    · simp [w, hub]
    · by_cases hud : u = d
      · subst hud; simp [w, hub]
      · simp [w, hub, hud]
  have hwb : (w b).toNat = 2 := by rw [hw, if_pos rfl]
  have hwd : (w d).toNat = 1 := by rw [hw, if_neg hdb, if_pos rfl]
  have hle : ∀ u, localBytes (framesFrom CG r w) u ≤ (w u).toNat := localBytes_frames_le w _
  have hle2 : ∀ u, (w u).toNat ≤ 2 := fun u => by rw [hw]; split_ifs <;> omega
  have hlocal : ∀ u ∈ CG.functions, localBytes (framesFrom CG r w) u = (w u).toNat := fun u hu =>
    localBytes_frames w _ (mem_keysFrom hu)
  refine ⟨framesFrom CG r w, fun u _ => ?_, fun hs => ?_⟩
  · have hsum := sum_framesFrom_le CG r (w := w) (s := [b, d]) (by simpa using Ne.symm hdb)
      fun u hu => by
        rw [hw] at hu
        by_contra hmem
        simp only [List.mem_cons, List.not_mem_nil, or_false, not_or] at hmem
        simp [hmem.1, hmem.2] at hu
    simp only [List.map_cons, List.map_nil, List.sum_cons, List.sum_nil, hwb, hwd] at hsum
    have := (hle u).trans (hle2 u)
    omega
  replace hS := hS _ (keys_framesFrom CG r w)
  have hxo : x ∈ S.order := by rw [heq]; simp
  -- the path `x`, `b`, `d` has three bytes
  have hpath := hs.pathBytes_le (f := x) (p := [x, b, d])
    (by rw [keys_framesFrom]; exact mem_keysFrom (CG.mem_functions_caller hb))
    (CallPath.cons hb (CallPath.cons hd (CallPath.single d)))
    (by simp [Ne.symm hbx, Ne.symm hdx, Ne.symm hdb])
  simp only [pathBytes_cons, pathBytes_nil, hlocal b (CG.mem_functions hb),
    hlocal d (CG.mem_functions hd), hwb, hwd] at hpath
  -- the callees of `x` contribute at most two
  have hm : (estimates.joinAll (contribution (framesFrom CG r w) S
      (totalStack CG (framesFrom CG r w)) x) (CG.callees x)).bytes.toNat ≤ 2 := by
    refine (StackEstimate.joinAll_le_iff _ _ _).mpr fun c hc => ?_
    unfold contribution
    cases hbk : S.back x c with
    | true => simpa [localBytes] using (hle c).trans (hle2 c)
    | false =>
      rcases S.back_or_mem heq hc with hb' | hcp
      · rw [hbk] at hb'
        exact absurd hb' (by decide)
      -- `c` finished before, so it lies outside of the component and does not reach `b`
      have hcx : ¬ Reach CG.callees c x := fun hcx =>
        hpre c hcp (hrx.trans ⟨Reach.edge hc, hcx⟩)
      have hone : ∀ u, Reach CG.callees c u → (w u).toNat ≤ if u = d then 1 else 0 := fun u hu => by
        have hub : u ≠ b := fun h => hcx ((h ▸ hu).trans hbx')
        rw [hw, if_neg hub]
      have hbound := totalBytes_le hS (R := Reach CG.callees c) (fun g hg v hv => hg.tail hv)
        (M := 1) (fun g _ hg v hv _ => (hle v).trans ((hone v (hg.tail hv)).trans (by
          split_ifs <;> omega))) pre _ heq c hcp (Reach.refl c)
      have hnd : (pre.filter fun u => decide (Reach CG.callees c u)).Nodup := by
        have := S.nodup
        rw [heq] at this
        exact (List.nodup_append.mp this).1.filter _
      have hsum := sum_map_le (w := localBytes (framesFrom CG r w)) hnd (List.nodup_singleton d)
        fun u hu h0 => by
          have hur : Reach CG.callees c u := by simpa using (List.mem_filter.mp hu).2
          have hu1 := (hle u).trans (hone u hur)
          by_contra hud
          rw [List.mem_singleton] at hud
          rw [if_neg hud] at hu1
          omega
      rw [List.map_singleton, List.sum_singleton, hlocal d (CG.mem_functions hd), hwd] at hsum
      simp only [Bool.false_eq_true, if_false]
      exact hbound.trans (by omega)
  have htotal := totalBytes_eq hS hxo
  have hxw : localBytes (framesFrom CG r w) x = 0 := by
    have := hle x
    rw [hw, if_neg (Ne.symm hbx), if_neg (Ne.symm hdx)] at this
    omega
  rw [hxw] at htotal hpath
  have := Nat.mod_le (0 + (estimates.joinAll (contribution (framesFrom CG r w) S
    (totalStack CG (framesFrom CG r w)) x) (CG.callees x)).bytes.toNat) (2 ^ 64)
  omega

/-- **Which call graphs have sound totals.** For all frames that fit 64 bits together, the totals
are sound exactly when the call graph has no cycle. When the frames still fit with one of them
counted twice, they are sound exactly when every function that takes part in a cycle with another
one calls no third function. -/
theorem totalsSound_iff (hasNoRecurseContract : F → Bool) (CG : CallGraph F) :
    ((∀ LocalStack, SumsFit LocalStack → TotalsSound hasNoRecurseContract CG LocalStack) ↔
      Acyclic CG) ∧
    ((∀ LocalStack, RepeatedSumsFit LocalStack → TotalsSound hasNoRecurseContract CG LocalStack) ↔
      PairCycles CG) := by
  refine ⟨⟨fun h f c hc hcf => ?_, fun hacyclic L hfit => ?_⟩,
    ⟨fun h f c hc hcf hreach d hd => ?_, fun hpair L hfit => ?_⟩⟩
  · obtain ⟨L, hfit, hL⟩ := not_totalsSound_of_cycle hasNoRecurseContract hc hcf
    exact hL (h L hfit)
  · refine totalsSound_of_pairCycles hasNoRecurseContract hacyclic.pairCycles fun S => ?_
    exact ⟨0, fun g hg c hc hb => absurd (S.back_reach g hg c hb) (hacyclic g c hc), hfit⟩
  · by_contra hd'
    rw [not_or] at hd'
    obtain ⟨L, hfit, hL⟩ :=
      not_totalsSound_of_callsPast hasNoRecurseContract ⟨c, hc, hcf, hreach, d, hd, hd'⟩
    exact hL (h L hfit)
  · refine totalsSound_of_pairCycles hasNoRecurseContract hpair fun S => ?_
    -- no frame exceeds what is left of 64 bits
    refine ⟨2 ^ 64 - 1 - (L.keys.map (localBytes L)).sum, fun g hg c hc _ => ?_, ?_⟩
    · by_cases hk : c ∈ L.keys
      · have := hfit c hk
        omega
      · rw [localBytes_eq_zero hk]
        exact Nat.zero_le _
    · cases hkeys : L.keys with
      | nil => simp
      | cons k ks =>
        have := hfit k (by rw [hkeys]; exact List.mem_cons_self)
        rw [← hkeys]
        omega

/-- With `0` as first key, the total of `1` in `callBack` misses the path to `2`. -/
theorem not_totalsSound_callBack :
    SumsFit callBackFrames ∧ RepeatedSumsFit callBackFrames ∧
      ¬ TotalsSound (fun _ => false) callBack callBackFrames := by
  refine ⟨by unfold SumsFit; decide, fun f hf => by revert f; decide, fun h => ?_⟩
  obtain ⟨t, ht, hpath, -⟩ := h 1 (by decide)
  have hle := hpath [1, 0, 2] (.cons (by decide) (.cons (by decide) (.single 2))) (by decide)
  obtain rfl : (⟨32, false⟩ : StackEstimate) = t := Option.some.inj ht
  exact absurd hle (by decide)

end StackAnalyzer
