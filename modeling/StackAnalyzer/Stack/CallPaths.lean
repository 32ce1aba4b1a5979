import StackAnalyzer.Stack.Soundness

set_option relaxedAutoImplicit false
set_option autoImplicit false

/-!
# The displayed call path

The call path that is displayed with a total goes from callee to callee, each time to the first one
with the largest total, until there is none or its total is zero. Where the part of the call graph
that the function reaches has no cycle, the frames along the path add up to the total.

## Main definitions

* `StackAnalyzer.walkMaxCallees`, `StackAnalyzer.maxStackCallPath` — the functions on the path.
* `StackAnalyzer.buildMaxStackCallPath` — the path as it is displayed.
* `StackAnalyzer.AcyclicFrom` — what a function reaches has no cycle.

## Main results

* `StackAnalyzer.bestCallee_spec` — the callee that is chosen.
* `StackAnalyzer.walkMaxCallees_spec` — one step of the path at a time.
* `StackAnalyzer.buildMaxStackCallPath_sum` — the displayed path has the frames of the total.
-/

namespace StackAnalyzer

open Graph

variable {F : Type*} [DecidableEq F]

/-! ## The path -/

section Walk

variable (T : F → Option StackEstimate)

/-- The body of the loop over the callees: a callee replaces the best one if its total is larger. -/
def betterCallee (best : Option (F × StackEstimate)) (callee : F) : Option (F × StackEstimate) :=
  let est := (T callee).getD {}
  match best with
  | none => some (callee, est)
  | some (bestCallee, bestStack) =>
    if est.bytes > bestStack.bytes then some (callee, est) else some (bestCallee, bestStack)

/-- The first callee with the largest total. -/
def bestCallee (callees : List F) : Option (F × StackEstimate) :=
  callees.foldl (betterCallee T) none

/-- The loop of `buildMaxStackCallPath`, with the functions that it adds to the path. -/
def walkMaxCallees (CG : CallGraph F) : ℕ → F → List F → Option (List F)
  | 0, _, _ => none
  | fuel + 1, current, visited =>
    if current ∈ visited then some []
    else
      match CG.find current with
      | none => some [current]
      | some callees =>
        match bestCallee T callees with
        | none => some [current]
        | some (callee, bestStack) =>
          if bestStack.bytes = 0 then some [current]
          else (walkMaxCallees CG fuel callee (current :: visited)).map fun p => current :: p

/-- The functions on the path of `buildMaxStackCallPath`. No function is entered twice, so the loop
ends within as many rounds as there are functions in the call graph, and one more. -/
def maxStackCallPath (CG : CallGraph F) (f : F) : Option (List F) :=
  walkMaxCallees T CG (CG.functions.length + 2) f []

/-- `buildMaxStackCallPath`, with the names of the functions. -/
def buildMaxStackCallPath (getName : F → List Char) (CG : CallGraph F) (f : F) :
    Option (List Char) :=
  (maxStackCallPath T CG f).map fun p => p.foldl
    (fun path current => (if path = [] then path else path ++ " -> ".toList) ++ getName current) []

end Walk

/-! ## The callee that is chosen -/

section Best

variable {T : F → Option StackEstimate}

omit [DecidableEq F] in
/-- The chosen callee after some more callees. -/
theorem foldl_betterCallee_spec (callees : List F) (best : F × StackEstimate) :
    ∃ c e, callees.foldl (betterCallee T) (some best) = some (c, e) ∧
      ((c, e) = best ∨ c ∈ callees ∧ e = (T c).getD {}) ∧
      best.2.bytes.toNat ≤ e.bytes.toNat ∧
      ∀ c' ∈ callees, ((T c').getD {}).bytes.toNat ≤ e.bytes.toNat := by
  induction callees generalizing best with
  | nil => exact ⟨best.1, best.2, rfl, Or.inl rfl, le_rfl, by simp⟩
  | cons callee callees ih =>
    rw [List.foldl_cons]
    unfold betterCallee at ih ⊢
    dsimp only at ih ⊢
    split_ifs with hlt
    all_goals rw [gt_iff_lt, UInt64.lt_iff_toNat_lt] at hlt
    · obtain ⟨c, e, heq, hfrom, hle, hall⟩ := ih (callee, (T callee).getD {})
      refine ⟨c, e, heq, Or.inr ?_, hlt.le.trans hle, ?_⟩
      · rcases hfrom with heq | ⟨hmem, he⟩
        · obtain ⟨rfl, rfl⟩ := Prod.mk.inj heq
          exact ⟨List.mem_cons_self, rfl⟩
        · exact ⟨List.mem_cons_of_mem callee hmem, he⟩
      · exact List.forall_mem_cons.mpr ⟨hle, hall⟩
    · obtain ⟨c, e, heq, hfrom, hle, hall⟩ := ih best
      refine ⟨c, e, heq, ?_, hle, ?_⟩
      · exact hfrom.imp_right fun h => ⟨List.mem_cons_of_mem callee h.1, h.2⟩
      · exact List.forall_mem_cons.mpr ⟨(not_lt.mp hlt).trans hle, hall⟩

omit [DecidableEq F] in
/-- **The callee that is chosen** has the largest total. There is none only if there are no
callees. -/
theorem bestCallee_spec (callees : List F) :
    (bestCallee T callees = none ∧ callees = []) ∨
    ∃ c ∈ callees, bestCallee T callees = some (c, (T c).getD {}) ∧
      ((T c).getD {}).bytes.toNat =
        (estimates.joinAll (fun c' => (T c').getD {}) callees).bytes.toNat := by
  cases callees with
  | nil => exact Or.inl ⟨rfl, rfl⟩
  | cons callee callees =>
    obtain ⟨c, e, heq, hfrom, hle, hall⟩ :=
      foldl_betterCallee_spec callees (callee, (T callee).getD {})
    have hmem : c ∈ callee :: callees ∧ e = (T c).getD {} := by
      rcases hfrom with h | ⟨hmem, he⟩
      · obtain ⟨rfl, rfl⟩ := Prod.mk.inj h
        exact ⟨List.mem_cons_self, rfl⟩
      · exact ⟨List.mem_cons_of_mem callee hmem, he⟩
    obtain ⟨hmem, rfl⟩ := hmem
    refine Or.inr ⟨c, hmem, heq, le_antisymm ?_ ?_⟩
    · exact StackEstimate.le_joinAll (fun c' => (T c').getD {}) _ hmem
    · refine (StackEstimate.joinAll_le_iff _ _ _).mpr fun c' hc' => ?_
      rcases List.mem_cons.mp hc' with rfl | hc'
      · exact hle
      · exact hall c' hc'

end Best

/-! ## The path and its frames -/

section Sum

variable {CG : CallGraph F} {LocalStack : PtrMap F LocalStackInfo} {keys : List F}
  {S : MemoDfs.Schedule CG.callees keys} {T : F → Option StackEstimate}

/-- What a function reaches has no cycle. -/
def AcyclicFrom (CG : CallGraph F) (f : F) : Prop :=
  ∀ g, Reach CG.callees f g → ∀ c ∈ CG.callees g, ¬Reach CG.callees c g

/-- A callee reaches less. -/
theorem AcyclicFrom.callee {f c : F} (h : AcyclicFrom CG f) (hc : c ∈ CG.callees f) :
    AcyclicFrom CG c :=
  fun g hg => h g (hg.head hc)

/-- The functions on a path are reached. -/
theorem CallPath.reach {f g : F} {p : List F} (h : CallPath CG f p) (hg : g ∈ p) :
    Reach CG.callees f g := by
  induction h with
  | single f =>
    obtain rfl := List.mem_singleton.mp hg
    exact Reach.refl g
  | @cons f c p hc hp ih =>
    rcases List.mem_cons.mp hg with rfl | hg
    · exact Reach.refl g
    · exact (ih hg).head hc

/-- Without cycles no function is twice on a path. -/
theorem CallPath.nodup {f : F} {p : List F} (h : CallPath CG f p) (hacyclic : AcyclicFrom CG f) :
    p.Nodup := by
  induction h with
  | single f => exact List.nodup_singleton f
  | @cons f c p hc hp ih =>
    refine List.nodup_cons.mpr ⟨fun hf => ?_, ih (hacyclic.callee hc)⟩
    exact hacyclic f (Reach.refl f) c hc (hp.reach hf)

/-- Where nothing on a cycle is reached, the total is the frame and the largest total of the
callees. -/
theorem total_eq_of_acyclicFrom (hT : S.Solves estimates (localEstimate LocalStack) T) {g : F}
    (hg : g ∈ S.order) (hacyclic : AcyclicFrom CG g) :
    T g = some (addCallee (localEstimate LocalStack g)
      (estimates.joinAll (fun c => (T c).getD {}) (CG.callees g))) := by
  have hcontribution : ∀ c ∈ CG.callees g,
      contribution LocalStack S T g c = (T c).getD {} := by
    intro c hc
    have hb : S.back g c = false := by
      rw [← Bool.not_eq_true]
      exact fun hb => hacyclic g (Reach.refl g) c hc (S.back_reach g hg c hb)
    simp [contribution, hb]
  rw [total_eq hT hg]
  exact congrArg (fun e => some (addCallee _ e)) (estimates.joinAll_congr hcontribution)

/-- **The path of a function**: if nothing that it reaches has been visited or lies on a cycle, and
no sum of frames along a call path overflows, the loop ends with a call path whose frames add up to
the total.

**Proof sketch.** Along the finishing order. The path goes on with the callee whose total is the
largest, by which the total of the function exceeds its frame. If that is zero, or there are no
callees, the frame is the total. -/
theorem walkMaxCallees_spec (hT : S.Solves estimates (localEstimate LocalStack) T) :
    ∀ g ∈ S.order, AcyclicFrom CG g →
      (∀ p, CallPath CG g p → pathBytes LocalStack p < 2 ^ 64) → ∀ (fuel : ℕ) (visited : List F),
        (∀ v ∈ visited, ¬Reach CG.callees g v) →
          unseen CG.functions (fun v => decide (v ∈ visited)) < fuel →
            ∃ p, walkMaxCallees T CG fuel g visited = some p ∧ CallPath CG g p ∧
              pathBytes LocalStack p = totalBytes T g := by
  refine S.induction fun g hg ih hacyclic hfit fuel visited hvisited hfuel => ?_
  have htotal := total_eq_of_acyclicFrom hT hg hacyclic
  obtain ⟨fuel, rfl⟩ := Nat.exists_eq_add_of_lt (Nat.zero_lt_of_lt hfuel)
  rw [Nat.zero_add] at hfuel ⊢
  have hnot : g ∉ visited := fun h => hvisited g h (Reach.refl g)
  have hframe : localBytes LocalStack g < 2 ^ 64 := by
    have h := hfit [g] (CallPath.single g)
    rwa [pathBytes_cons, pathBytes_nil, Nat.add_zero] at h
  -- the path that ends with `g`, where its callees add nothing
  have hsingle : (estimates.joinAll (fun c => (T c).getD {}) (CG.callees g)).bytes.toNat = 0 →
      pathBytes LocalStack [g] = totalBytes T g := by
    intro hzero
    rw [totalBytes, htotal, Option.getD_some, addCallee, UInt64.toNat_add, hzero, pathBytes_cons,
      pathBytes_nil, Nat.add_zero, Nat.add_zero]
    exact (Nat.mod_eq_of_lt hframe).symm
  rw [walkMaxCallees, if_neg hnot]
  cases hfind : CG.find g with
  | none =>
    have hcallees : CG.callees g = [] := by rw [CallGraph.callees, hfind, Option.getD_none]
    rw [hcallees] at hsingle
    exact ⟨[g], rfl, CallPath.single g, hsingle rfl⟩
  | some callees =>
    have hcallees : CG.callees g = callees := by rw [CallGraph.callees, hfind, Option.getD_some]
    dsimp only
    rcases bestCallee_spec (T := T) callees with ⟨hnone, hempty⟩ | ⟨c, hc, hbest, hmax⟩
    · rw [hcallees, hempty] at hsingle
      rw [hnone]
      exact ⟨[g], rfl, CallPath.single g, hsingle rfl⟩
    · rw [hbest]
      dsimp only
      rw [hcallees] at hsingle
      by_cases hzero : ((T c).getD {}).bytes = 0
      · rw [if_pos hzero]
        rw [hzero] at hmax
        exact ⟨[g], rfl, CallPath.single g, hsingle hmax.symm⟩
      · rw [if_neg hzero]
        have hcg : c ∈ CG.callees g := hcallees ▸ hc
        have hback : S.back g c = false := by
          rw [← Bool.not_eq_true]
          exact fun hb => hacyclic g (Reach.refl g) c hcg (S.back_reach g hg c hb)
        have hfit' : ∀ p, CallPath CG c p → pathBytes LocalStack p < 2 ^ 64 := by
          intro p hp
          have h := hfit _ (CallPath.cons hcg hp)
          rw [pathBytes_cons] at h
          omega
        have hvisited' : ∀ v ∈ g :: visited, ¬Reach CG.callees c v := by
          refine List.forall_mem_cons.mpr ⟨hacyclic g (Reach.refl g) c hcg, fun v hv hreach => ?_⟩
          exact hvisited v hv (hreach.head hcg)
        have hfuel' : unseen CG.functions (fun v => decide (v ∈ g :: visited)) < fuel := by
          refine lt_of_lt_of_le (unseen_lt (v := g) (fun u hu => ?_) ?_ ?_ ?_)
            (Nat.le_of_lt_succ hfuel)
          · simp only [decide_eq_true_eq] at hu ⊢
            exact List.mem_cons_of_mem g hu
          · exact CallGraph.mem_functions_caller hcg
          · exact decide_eq_false hnot
          · exact decide_eq_true List.mem_cons_self
        obtain ⟨p, hp, hpath, hsum⟩ :=
          ih c hcg hback (hacyclic.callee hcg) hfit' fuel (g :: visited) hvisited' hfuel'
        refine ⟨g :: p, by rw [hp, Option.map_some], CallPath.cons hcg hpath, ?_⟩
        have h := hfit _ (CallPath.cons hcg hpath)
        rw [pathBytes_cons, hsum] at h ⊢
        rw [totalBytes, hmax] at h ⊢
        rw [totalBytes, htotal, Option.getD_some, addCallee, UInt64.toNat_add, hcallees]
        exact (Nat.mod_eq_of_lt h).symm

end Sum

/-- **The displayed path has the frames of the total**: if nothing that the function reaches lies on
a cycle and no sum of frames along a call path from it overflows, the loop ends, with a call path
from the function on which no function is repeated and whose frames add up to the total.

**Proof sketch.** The loop starts without visited functions and with more rounds than there are
functions. The path cannot repeat a function without a cycle. -/
theorem buildMaxStackCallPath_sum (hasNoRecurseContract : F → Bool) (getName : F → List Char)
    (CG : CallGraph F) (LocalStack : PtrMap F LocalStackInfo) (f : F)
    (hacyclic : AcyclicFrom CG f)
    (hfit : ∀ p, CallPath CG f p → pathBytes LocalStack p < 2 ^ 64) (total : StackEstimate)
    (htotal : (computeGlobalStackUsage hasNoRecurseContract CG LocalStack).TotalStack f =
      some total) :
    let T := (computeGlobalStackUsage hasNoRecurseContract CG LocalStack).TotalStack
    ∃ p, maxStackCallPath T CG f = some p ∧ CallPath CG f p ∧ p.Nodup ∧
      pathBytes LocalStack p = total.bytes.toNat ∧
      buildMaxStackCallPath T getName CG f = some (p.foldl (fun path current =>
        (if path = [] then path else path ++ " -> ".toList) ++ getName current) []) := by
  intro T
  obtain ⟨S, hS⟩ := exists_totals CG LocalStack.keys
  replace hS : S.Solves estimates (localEstimate LocalStack) T := hS LocalStack rfl
  have hf : f ∈ S.order := by
    by_contra hf
    have hnone : T f = none := hS.2 f hf
    exact absurd (hnone.symm.trans htotal) (by simp)
  have hfuel : unseen CG.functions (fun v => decide (v ∈ ([] : List F))) <
      CG.functions.length + 2 :=
    lt_of_le_of_lt (List.length_filter_le _ _) (by omega)
  obtain ⟨p, hp, hpath, hsum⟩ :=
    walkMaxCallees_spec hS f hf hacyclic hfit _ [] (by simp) hfuel
  refine ⟨p, hp, hpath, hpath.nodup hacyclic, ?_, ?_⟩
  · rw [hsum, totalBytes, show T f = some total from htotal, Option.getD_some]
  · rw [buildMaxStackCallPath, maxStackCallPath, hp, Option.map_some]

/-- The displayed path of `sharedCallee` goes through both callees. -/
theorem buildMaxStackCallPath_sum_sharedCallee :
    let T := (computeGlobalStackUsage (fun _ => false) sharedCallee sharedCalleeFrames).TotalStack
    ∃ p, maxStackCallPath T sharedCallee 0 = some p ∧ CallPath sharedCallee 0 p ∧ p.Nodup ∧
      pathBytes sharedCalleeFrames p = (112 : UInt64).toNat ∧
      buildMaxStackCallPath T (fun f => (toString f).toList) sharedCallee 0 =
        some (p.foldl (fun path current => (if path = [] then path else path ++ " -> ".toList) ++
          (toString current).toList) []) := by
  have hacyclic : AcyclicFrom sharedCallee 0 := by
    intro g _ c hc hcg
    have hlt : ∀ u, ∀ v ∈ sharedCallee.callees u, u < v := by decide
    exact absurd (lt_of_lt_of_le (hlt g c hc) (hcg.mem_of_closed (P := (c ≤ ·))
      (fun u hu v hv => hu.trans (hlt u v hv).le) le_rfl)) (lt_irrefl g)
  have hsum : (sharedCalleeFrames.keys.map (localBytes sharedCalleeFrames)).sum < 2 ^ 64 := by
    decide
  exact buildMaxStackCallPath_sum (fun _ => false) (fun f => (toString f).toList) sharedCallee
    sharedCalleeFrames 0 hacyclic
    (fun p hp => lt_of_le_of_lt (sum_localBytes_le (hp.nodup hacyclic)) hsum) ⟨112, true⟩
    (by decide)

end StackAnalyzer
