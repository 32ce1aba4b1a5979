import StackAnalyzer.Stack.Totals

set_option relaxedAutoImplicit false
set_option autoImplicit false

/-!
# Stack totals of acyclic call graphs

On an acyclic call graph no function is entered again while it is being visited, so no callee
contributes its frame in place of its total, and the memoised totals are the intended ones.

## Main results

* `StackAnalyzer.totalBytes_isGreatest` — the largest sum of frames along a call path.
* `StackAnalyzer.totalStack_acyclic` — the totals of an acyclic call graph.
-/

namespace StackAnalyzer

open Graph

variable {F : Type*} [DecidableEq F] {CG : CallGraph F} {LocalStack : PtrMap F LocalStackInfo}
  {keys : List F} {S : MemoDfs.Schedule CG.callees keys} {T : F → Option StackEstimate}

/-- Without cycles every callee contributes its total. -/
theorem contribution_of_acyclic (hacyclic : Acyclic CG) {g : F} (hg : g ∈ S.order) {c : F}
    (hc : c ∈ CG.callees g) : contribution LocalStack S T g c = (T c).getD {} := by
  have hb : S.back g c = false := by
    rw [← Bool.not_eq_true]
    exact fun hb => hacyclic g c hc (S.back_reach g hg c hb)
  simp [contribution, hb]

section

variable (hacyclic : Acyclic CG) (hT : S.Solves estimates (localEstimate LocalStack) T)
include hacyclic hT

/-- The total of `g` is its frame and the largest total of its callees. -/
theorem total_eq_of_acyclic {g : F} (hg : g ∈ S.order) :
    T g = some (addCallee (localEstimate LocalStack g)
      (estimates.joinAll (fun c => (T c).getD {}) (CG.callees g))) := by
  rw [total_eq hT hg]
  exact congrArg (fun e => some (addCallee _ e))
    (estimates.joinAll_congr fun c hc => contribution_of_acyclic hacyclic hg hc)

/-- The flag of `g` is set when a function that `g` reaches has an unknown frame. -/
theorem total_unknown_of_acyclic : ∀ g ∈ S.order, (((T g).getD {}).unknown = true ↔
    ∃ u, Reach CG.callees g u ∧ (localEstimate LocalStack u).unknown = true) := by
  refine S.induction fun g hg ih => ?_
  rw [total_unknown hT hg]
  have hcontr : ∀ c ∈ CG.callees g, ((contribution LocalStack S T g c).unknown = true ↔
      ∃ u, Reach CG.callees c u ∧ (localEstimate LocalStack u).unknown = true) := fun c hc => by
    have hb : S.back g c = false := by
      rw [← Bool.not_eq_true]
      exact fun hb => hacyclic g c hc (S.back_reach g hg c hb)
    rw [contribution_of_acyclic hacyclic hg hc]
    exact ih c hc hb
  refine ⟨?_, ?_⟩
  · rintro (h | ⟨c, hc, h⟩)
    · exact ⟨g, Reach.refl g, h⟩
    · obtain ⟨u, hu, h⟩ := (hcontr c hc).mp h
      exact ⟨u, hu.head hc, h⟩
  · rintro ⟨u, hgu, hu⟩
    rcases hgu.cases_head with rfl | ⟨c, hc, hcu⟩
    · exact Or.inl hu
    · exact Or.inr ⟨c, hc, (hcontr c hc).mpr ⟨u, hcu, hu⟩⟩

/-- **The largest path sum**: when no sum of frames along a call path from `g` overflows, the
total of `g` is the largest of them.

**Proof sketch.** Along the finishing order. A path from `g` is `g` alone or `g` in front of a
path of a callee, whose sum the callee's total bounds; the largest callee total is itself the sum
of a path, so adding the frame of `g` does not overflow. -/
theorem totalBytes_isGreatest : ∀ g ∈ S.order,
    (∀ p, CallPath CG g p → pathBytes LocalStack p < 2 ^ 64) →
      IsGreatest {n | ∃ p, CallPath CG g p ∧ n = pathBytes LocalStack p} (totalBytes T g) := by
  refine S.induction fun g hg ih hfit => ?_
  have hcallee : ∀ c ∈ CG.callees g,
      IsGreatest {n | ∃ p, CallPath CG c p ∧ n = pathBytes LocalStack p} (totalBytes T c) :=
    fun c hc => ih c hc
      (by rw [← Bool.not_eq_true]; exact fun hb => hacyclic g c hc (S.back_reach g hg c hb))
      fun p hp => lt_of_le_of_lt (by rw [pathBytes_cons]; omega) (hfit _ (CallPath.cons hc hp))
  set m := (estimates.joinAll (fun c => (T c).getD {}) (CG.callees g)).bytes.toNat with hm
  -- the frame of `g` and the largest callee total are the sum of a path from `g`
  obtain ⟨p, hp, hpm⟩ : ∃ p, CallPath CG g p ∧ localBytes LocalStack g + m = pathBytes LocalStack p := by
    rcases StackEstimate.joinAll_attained (fun c => (T c).getD {}) (CG.callees g) with h0 | ⟨c, hc, h⟩
    · exact ⟨[g], CallPath.single g, by rw [hm, h0]; simp⟩
    · obtain ⟨⟨q, hq, hqc⟩, -⟩ := hcallee c hc
      refine ⟨g :: q, CallPath.cons hc hq, ?_⟩
      rw [pathBytes_cons, ← hqc, hm, ← h]
      rfl
  have htotal : totalBytes T g = localBytes LocalStack g + m := by
    have h := total_eq_of_acyclic hacyclic hT hg
    rw [totalBytes, h, Option.getD_some, addCallee, UInt64.toNat_add]
    refine Nat.mod_eq_of_lt ?_
    have := hfit p hp
    rw [← hpm] at this
    exact this
  refine ⟨⟨p, hp, by rw [htotal, hpm]⟩, ?_⟩
  rintro n ⟨q, hq, rfl⟩
  cases hq with
  | single => rw [htotal]; simp
  | @cons _ c q hc hq =>
    have h1 : pathBytes LocalStack q ≤ totalBytes T c := (hcallee c hc).2 ⟨q, hq, rfl⟩
    have h2 : totalBytes T c ≤ m := StackEstimate.le_joinAll (fun c => (T c).getD {}) _ hc
    rw [htotal, pathBytes_cons]
    omega

end

/-- **Totals of an acyclic call graph**: every function of `LocalStack` and every callee of one has
a total; its bytes are the frame of the function plus the largest total of its callees, which is
the largest sum of frames along a call path when no such sum overflows; and it is unknown when
some function that is reached has an unknown frame. -/
theorem totalStack_acyclic (hasNoRecurseContract : F → Bool) (CG : CallGraph F)
    (hacyclic : Acyclic CG) (LocalStack : PtrMap F LocalStackInfo) (f : F)
    (hf : f ∈ LocalStack.keys) :
    let T := (computeGlobalStackUsage hasNoRecurseContract CG LocalStack).TotalStack
    ∃ t, T f = some t ∧ (∀ c ∈ CG.callees f, (T c).isSome) ∧
      t.bytes = (localEstimate LocalStack f).bytes +
        ((CG.callees f).map fun c => ((T c).getD {}).bytes).foldl max 0 ∧
      ((∀ p, CallPath CG f p → pathBytes LocalStack p < 2 ^ 64) →
        IsGreatest {n | ∃ p, CallPath CG f p ∧ n = pathBytes LocalStack p} t.bytes.toNat) ∧
      (t.unknown = true ↔
        ∃ u, Reach CG.callees f u ∧ (localEstimate LocalStack u).unknown = true) := by
  intro T
  obtain ⟨S, hS⟩ := exists_totals CG LocalStack.keys
  replace hS : S.Solves estimates (localEstimate LocalStack) T := hS LocalStack rfl
  have hfo : f ∈ S.order := (S.mem_iff f).mpr ⟨f, hf, Reach.refl f⟩
  have heq := total_eq_of_acyclic hacyclic hS hfo
  refine ⟨_, heq, fun c hc => ?_, ?_, fun hfit => ?_, ?_⟩
  · rw [total_eq_of_acyclic hacyclic hS (S.mem_succ hfo hc)]
    rfl
  · rw [addCallee, StackEstimate.joinAll_bytes]
  · have h := totalBytes_isGreatest hacyclic hS f hfo hfit
    rwa [totalBytes, heq] at h
  · have h := total_unknown_of_acyclic hacyclic hS f hfo
    rwa [heq] at h

/-- The examples have three functions. -/
theorem neZero_three : NeZero 3 := ⟨three_ne_zero⟩

attribute [local instance] neZero_three

/-- Two functions with a shared callee that is called twice by one of them. -/
def sharedCallee : CallGraph (Fin 3) := ⟨[(0, [1, 2, 2]), (1, [2]), (2, [])], by decide⟩

/-- The frames of `sharedCallee`. -/
def sharedCalleeFrames : PtrMap (Fin 3) LocalStackInfo :=
  ⟨[(0, ⟨16, false⟩), (1, ⟨32, false⟩), (2, ⟨64, true⟩)], by decide⟩

/-- The largest path sum of `sharedCallee` is that of the path through both callees. -/
theorem totalStack_acyclic_sharedCallee :
    ∃ t, (computeGlobalStackUsage (fun _ => false) sharedCallee sharedCalleeFrames).TotalStack 0 =
      some t ∧ t.bytes = 16 + max (max (max 0 96) 64) 64 ∧ t.unknown = true := by
  have hacyclic : Acyclic sharedCallee := by
    intro f c hc hcf
    have hlt : ∀ u, ∀ v ∈ sharedCallee.callees u, u < v := by decide
    exact absurd (lt_of_lt_of_le (hlt f c hc) (hcf.mem_of_closed (P := (c ≤ ·))
      (fun u hu v hv => hu.trans (hlt u v hv).le) le_rfl)) (lt_irrefl f)
  obtain ⟨t, ht, -, hb, -, hu⟩ := totalStack_acyclic (fun _ => false) sharedCallee hacyclic
    sharedCalleeFrames 0 (by decide)
  exact ⟨t, ht, hb, hu.mpr ⟨2, Reach.edge (by decide), by decide⟩⟩

end StackAnalyzer
