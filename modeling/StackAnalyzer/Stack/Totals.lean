import StackAnalyzer.Stack.CallGraph

set_option relaxedAutoImplicit false
set_option autoImplicit false

/-!
# Stack totals

What the totals of `computeGlobalStackUsage` are, for every call graph: the solution of the
equations of a schedule, bounded above by the frames of what has finished and one more frame.

## Main definitions

* `StackAnalyzer.contribution` — what a callee contributes to its caller under a schedule.
* `StackAnalyzer.CallPath`, `StackAnalyzer.pathBytes` — call paths and their frames.

## Main results

* `StackAnalyzer.exists_totals` — one schedule for all frames.
* `StackAnalyzer.totalBytes_le` — the upper bound.
* `StackAnalyzer.totalBytes_eq_add` — no equation wraps when the bound fits 64 bits.
-/

namespace StackAnalyzer

open Graph

/-! ## Estimates -/

namespace StackEstimate

variable {F : Type*}

@[simp] theorem joinCallee_unknown (m c : StackEstimate) :
    (joinCallee m c).unknown = true ↔ m.unknown = true ∨ c.unknown = true := by
  cases hc : c.unknown <;> simp [joinCallee, hc]

@[simp] theorem addCallee_unknown (a m : StackEstimate) :
    (addCallee a m).unknown = true ↔ a.unknown = true ∨ m.unknown = true := by
  simp [addCallee]

/-- The maximum of two byte counts. -/
theorem joinCallee_bytes (m c : StackEstimate) :
    (joinCallee m c).bytes.toNat = max m.bytes.toNat c.bytes.toNat := by
  simp only [joinCallee, gt_iff_lt, UInt64.lt_iff_toNat_lt]
  split_ifs <;> omega

/-- The join of the callees, as the loop computes it from the accumulator `m`. -/
private theorem foldl_join (f : F → StackEstimate) :
    ∀ (cs : List F) (m : StackEstimate) (n : ℕ),
      ((cs.foldl (fun m c => joinCallee m (f c)) m).bytes.toNat ≤ n ↔
        m.bytes.toNat ≤ n ∧ ∀ c ∈ cs, (f c).bytes.toNat ≤ n) ∧
      ((cs.foldl (fun m c => joinCallee m (f c)) m).unknown = true ↔
        m.unknown = true ∨ ∃ c ∈ cs, (f c).unknown = true)
  | [], m, n => by simp
  | c :: cs, m, n => by
    obtain ⟨hb, hu⟩ := foldl_join f cs (joinCallee m (f c)) n
    refine ⟨?_, ?_⟩
    · rw [List.foldl_cons, hb, joinCallee_bytes]
      simp only [List.mem_cons, forall_eq_or_imp, max_le_iff, and_assoc]
    · rw [List.foldl_cons, hu, joinCallee_unknown]
      simp only [List.mem_cons, exists_eq_or_imp, or_assoc]

variable (f : F → StackEstimate) (cs : List F)

/-- The joined byte count is the least upper bound of the callees'. -/
theorem joinAll_le_iff (n : ℕ) :
    (estimates.joinAll f cs).bytes.toNat ≤ n ↔ ∀ c ∈ cs, (f c).bytes.toNat ≤ n := by
  have h := (foldl_join f cs {} n).1
  simpa [MemoDfs.Algebra.joinAll, estimates] using h

/-- The joined flag is set when a callee's is. -/
theorem joinAll_unknown :
    (estimates.joinAll f cs).unknown = true ↔ ∃ c ∈ cs, (f c).unknown = true := by
  have h := (foldl_join f cs {} 0).2
  simpa [MemoDfs.Algebra.joinAll, estimates] using h

/-- Every callee is below the join. -/
theorem le_joinAll {c : F} (hc : c ∈ cs) :
    (f c).bytes.toNat ≤ (estimates.joinAll f cs).bytes.toNat :=
  (joinAll_le_iff f cs _).mp le_rfl c hc

/-- The joined byte count is `0` or a callee's. -/
theorem joinAll_attained : (estimates.joinAll f cs).bytes.toNat = 0 ∨
    ∃ c ∈ cs, (f c).bytes.toNat = (estimates.joinAll f cs).bytes.toNat := by
  by_contra hne
  push Not at hne
  obtain ⟨h0, hne⟩ := hne
  -- otherwise one less is still an upper bound
  have hle := (joinAll_le_iff f cs ((estimates.joinAll f cs).bytes.toNat - 1)).mpr fun c hc => by
    have h1 := le_joinAll f cs hc
    have h2 := hne c hc
    omega
  omega

/-- The join does not depend on the order of the callees. -/
theorem joinAll_perm {cs cs' : List F} (h : cs.Perm cs') :
    estimates.joinAll f cs = estimates.joinAll f cs' := by
  have hb : (estimates.joinAll f cs).bytes = (estimates.joinAll f cs').bytes := by
    rw [← UInt64.toNat_inj]
    refine le_antisymm ?_ ?_
    · exact (joinAll_le_iff f cs _).mpr fun c hc => le_joinAll f cs' (h.mem_iff.mp hc)
    · exact (joinAll_le_iff f cs' _).mpr fun c hc => le_joinAll f cs (h.mem_iff.mpr hc)
  have hu : (estimates.joinAll f cs).unknown = (estimates.joinAll f cs').unknown := by
    rw [Bool.eq_iff_iff, joinAll_unknown, joinAll_unknown]
    exact ⟨fun ⟨c, hc, h'⟩ => ⟨c, h.mem_iff.mp hc, h'⟩, fun ⟨c, hc, h'⟩ => ⟨c, h.mem_iff.mpr hc, h'⟩⟩
  cases hx : estimates.joinAll f cs
  cases hy : estimates.joinAll f cs'
  rw [hx, hy] at hb hu
  simp only at hb hu
  rw [hb, hu]

/-- The joined byte count as a maximum of machine integers. -/
theorem joinAll_bytes :
    (estimates.joinAll f cs).bytes = (cs.map fun c => (f c).bytes).foldl max 0 := by
  have h : ∀ (cs : List F) (m : StackEstimate),
      (cs.foldl (fun m c => joinCallee m (f c)) m).bytes =
        (cs.map fun c => (f c).bytes).foldl max m.bytes := by
    intro cs
    induction cs with
    | nil => intro m; rfl
    | cons c cs ih =>
      intro m
      rw [List.foldl_cons, ih, List.map_cons, List.foldl_cons]
      refine congrArg (List.foldl max · _) ?_
      rw [show max m.bytes (f c).bytes = if m.bytes ≤ (f c).bytes then (f c).bytes else m.bytes
        from rfl]
      simp only [joinCallee, gt_iff_lt, UInt64.lt_iff_toNat_lt, UInt64.le_iff_toNat_le]
      split_ifs with hlt hle hle
      · rfl
      · omega
      · exact UInt64.toNat_inj.mp (by omega)
      · rfl
  exact h cs {}

end StackEstimate

/-! ## Call paths -/

section Paths

variable {F : Type*} [DecidableEq F]

/-- A call path that starts at a function. -/
inductive CallPath (CG : CallGraph F) : F → List F → Prop
  | single (f : F) : CallPath CG f [f]
  | cons {f c : F} {p : List F} : c ∈ CG.callees f → CallPath CG c p → CallPath CG f (f :: p)

/-- A call path starts with its first function. -/
theorem CallPath.mem_head {CG : CallGraph F} {f : F} {p : List F} (h : CallPath CG f p) :
    f ∈ p := by
  cases h <;> simp

/-- The call graph has no cycle. -/
def Acyclic (CG : CallGraph F) : Prop := ∀ f, ∀ c ∈ CG.callees f, ¬ Reach CG.callees c f

end Paths

/-! ## The totals solve a schedule -/

variable {F : Type*} [DecidableEq F]

/-- The frame size of `f`, as a number. -/
def localBytes (LocalStack : PtrMap F LocalStackInfo) (f : F) : ℕ :=
  (localEstimate LocalStack f).bytes.toNat

/-- A function outside of `LocalStack` has no frame. -/
theorem localBytes_eq_zero {LocalStack : PtrMap F LocalStackInfo} {f : F}
    (h : f ∉ LocalStack.keys) : localBytes LocalStack f = 0 := by
  simp [localBytes, localEstimate, (LocalStack.find_eq_none_iff f).mpr h]

/-- The sum of the frames along a path. -/
def pathBytes (LocalStack : PtrMap F LocalStackInfo) (p : List F) : ℕ :=
  (p.map (localBytes LocalStack)).sum

@[simp] theorem pathBytes_cons (LocalStack : PtrMap F LocalStackInfo) (f : F) (p : List F) :
    pathBytes LocalStack (f :: p) = localBytes LocalStack f + pathBytes LocalStack p := by
  simp [pathBytes]

@[simp] theorem pathBytes_nil (LocalStack : PtrMap F LocalStackInfo) :
    pathBytes LocalStack ([] : List F) = 0 := rfl

omit [DecidableEq F] in
/-- Summing weights over distinct functions, only those with a weight count. -/
theorem sum_map_le {w : F → ℕ} {l s : List F} (hl : l.Nodup) (hs : s.Nodup)
    (h : ∀ x ∈ l, w x ≠ 0 → x ∈ s) : (l.map w).sum ≤ (s.map w).sum := by
  classical
  rw [← List.sum_toFinset _ hl, ← List.sum_toFinset _ hs]
  exact Finset.sum_le_sum_of_ne_zero fun x hx hw =>
    List.mem_toFinset.mpr (h x (List.mem_toFinset.mp hx) hw)

/-- The frames of distinct functions, summed, stay below the sum over `LocalStack`. -/
theorem sum_localBytes_le {LocalStack : PtrMap F LocalStackInfo} {l : List F} (hl : l.Nodup) :
    (l.map (localBytes LocalStack)).sum ≤ (LocalStack.keys.map (localBytes LocalStack)).sum :=
  sum_map_le hl LocalStack.nodup fun x _ hx => by
    by_contra hk
    exact hx (localBytes_eq_zero hk)

/-- The `LocalStack` with known frames of the sizes `w`. -/
def frames (keys : List F) (w : F → UInt64) (h : keys.Nodup) : PtrMap F LocalStackInfo :=
  PtrMap.ofKeys keys (fun x => ⟨w x, false⟩) h

/-- The frame sizes of `frames`. -/
theorem localBytes_frames {keys : List F} (w : F → UInt64) (h : keys.Nodup) {x : F}
    (hx : x ∈ keys) : localBytes (frames keys w h) x = (w x).toNat := by
  simp [localBytes, localEstimate, frames, PtrMap.find_ofKeys _ _ h hx]

/-- The frame sizes of `frames` are bounded by the weights. -/
theorem localBytes_frames_le {keys : List F} (w : F → UInt64) (h : keys.Nodup) (x : F) :
    localBytes (frames keys w h) x ≤ (w x).toNat := by
  by_cases hx : x ∈ keys
  · exact le_of_eq (localBytes_frames w h hx)
  · rw [localBytes_eq_zero (by rwa [frames, PtrMap.keys_ofKeys])]
    exact Nat.zero_le _

/-- **The totals of `computeGlobalStackUsage`** solve the equations of a schedule that depends on
the call graph and the key order only. -/
theorem exists_totals (CG : CallGraph F) (keys : List F) :
    ∃ S : MemoDfs.Schedule CG.callees keys, ∀ LocalStack : PtrMap F LocalStackInfo,
      LocalStack.keys = keys →
        S.Solves estimates (localEstimate LocalStack) (totalStack CG LocalStack) := by
  obtain ⟨S, hS⟩ := MemoDfs.exists_schedule estimates (CG.closed_functions keys)
    (Nat.lt_succ_self _) (fun v hv => List.mem_append_left CG.functions hv)
  refine ⟨S, fun LocalStack hkeys => ?_⟩
  have h := hS (localEstimate LocalStack)
  rw [totalStack, hkeys]
  exact h

section Solution

variable {CG : CallGraph F} {LocalStack : PtrMap F LocalStackInfo} {keys : List F}
  {S : MemoDfs.Schedule CG.callees keys} {T : F → Option StackEstimate}

/-- What a callee `c` contributes to `g`: its frame, if it was being visited, else its total. -/
def contribution (LocalStack : PtrMap F LocalStackInfo) (S : MemoDfs.Schedule CG.callees keys)
    (T : F → Option StackEstimate) (g c : F) : StackEstimate :=
  if S.back g c then localEstimate LocalStack c else (T c).getD {}

/-- The total of `g`, as a number. -/
def totalBytes (T : F → Option StackEstimate) (g : F) : ℕ := ((T g).getD {}).bytes.toNat

variable (hT : S.Solves estimates (localEstimate LocalStack) T)
include hT

/-- The equation of a finished function. -/
theorem total_eq {g : F} (hg : g ∈ S.order) :
    T g = some (addCallee (localEstimate LocalStack g)
      (estimates.joinAll (contribution LocalStack S T g) (CG.callees g))) :=
  hT.1 g hg

/-- The flag of a finished function. -/
theorem total_unknown {g : F} (hg : g ∈ S.order) :
    ((T g).getD {}).unknown = true ↔ (localEstimate LocalStack g).unknown = true ∨
      ∃ c ∈ CG.callees g, (contribution LocalStack S T g c).unknown = true := by
  rw [total_eq hT hg, Option.getD_some, StackEstimate.addCallee_unknown,
    StackEstimate.joinAll_unknown]

/-- The number of bytes of a finished function, modulo `2 ^ 64`. -/
theorem totalBytes_eq {g : F} (hg : g ∈ S.order) :
    totalBytes T g = (localBytes LocalStack g +
      (estimates.joinAll (contribution LocalStack S T g) (CG.callees g)).bytes.toNat) % 2 ^ 64 := by
  rw [totalBytes, total_eq hT hg, Option.getD_some, addCallee, UInt64.toNat_add]
  rfl

section Bound

variable {R : F → Prop} [DecidablePred R] (hR : ∀ g, R g → ∀ c ∈ CG.callees g, R c) {M : ℕ}
  (hM : ∀ g ∈ S.order, R g → ∀ c ∈ CG.callees g, S.back g c = true → localBytes LocalStack c ≤ M)
include hR hM

omit hT [DecidablePred R] in
/-- The callees of `g` contribute at most what bounds the functions that finished before. -/
theorem joinAll_contribution_le {pre post : List F} {g : F} (heq : S.order = pre ++ g :: post)
    (hRg : R g) {n : ℕ} (hn : M ≤ n) (hpre : ∀ c ∈ pre, R c → totalBytes T c ≤ n) :
    (estimates.joinAll (contribution LocalStack S T g) (CG.callees g)).bytes.toNat ≤ n := by
  have hgo : g ∈ S.order := by rw [heq]; simp
  refine (StackEstimate.joinAll_le_iff _ _ _).mpr fun c hc => ?_
  unfold contribution
  cases hb : S.back g c with
  | true =>
    simp only [if_true]
    exact le_trans (hM g hgo hRg c hc hb) hn
  | false =>
    rcases S.back_or_mem heq hc with hb' | hcp
    · rw [hb] at hb'
      exact absurd hb' (by decide)
    · exact hpre c hcp (hR g hRg c hc)

/-- **The upper bound**, along the finishing order: within a set of functions closed under calls
the totals stay below the frames that have finished and one more frame, if `M` bounds the frames
that recursive calls contribute. -/
theorem totalBytes_le : ∀ (pre post : List F), S.order = pre ++ post → ∀ g ∈ pre, R g →
    totalBytes T g ≤ ((pre.filter R).map (localBytes LocalStack)).sum + M := by
  intro pre
  induction pre using List.reverseRecOn with
  | nil => simp
  | append_singleton pre d ih =>
    intro post heq g hg hRg
    rw [List.append_assoc, List.singleton_append] at heq
    rw [List.filter_append, List.map_append, List.sum_append]
    rcases List.mem_append.mp hg with hg | hg
    · have := ih _ heq g hg hRg
      omega
    · obtain rfl := List.mem_singleton.mp hg
      have hgo : g ∈ S.order := by rw [heq]; simp
      have hc := joinAll_contribution_le hR hM heq hRg (Nat.le_add_left M _) (ih _ heq)
      have hle := Nat.mod_le (localBytes LocalStack g +
        (estimates.joinAll (contribution LocalStack S T g) (CG.callees g)).bytes.toNat) (2 ^ 64)
      rw [← totalBytes_eq hT hgo] at hle
      simp only [List.filter_cons, hRg, decide_true, if_true, List.filter_nil, List.map_cons,
        List.map_nil, List.sum_cons, List.sum_nil]
      omega

end Bound

/-- **No equation wraps** when the frames and one more recursive frame fit 64 bits. -/
theorem totalBytes_eq_add {M : ℕ}
    (hM : ∀ g ∈ S.order, ∀ c ∈ CG.callees g, S.back g c = true → localBytes LocalStack c ≤ M)
    (hfit : (LocalStack.keys.map (localBytes LocalStack)).sum + M < 2 ^ 64) {g : F}
    (hg : g ∈ S.order) :
    totalBytes T g = localBytes LocalStack g +
      (estimates.joinAll (contribution LocalStack S T g) (CG.callees g)).bytes.toNat := by
  obtain ⟨pre, post, heq⟩ := List.append_of_mem hg
  have hnd := S.nodup
  rw [heq] at hnd
  have hsum : ((pre ++ [g]).map (localBytes LocalStack)).sum ≤
      (LocalStack.keys.map (localBytes LocalStack)).sum :=
    sum_localBytes_le (hnd.sublist (List.Sublist.append_left (by simp) pre))
  rw [List.map_append, List.sum_append, List.map_singleton, List.sum_singleton] at hsum
  have hpre := totalBytes_le hT (R := fun _ => True) (fun _ _ _ _ => trivial)
    (fun g hg _ => hM g hg) pre (g :: post) heq
  have hle := joinAll_contribution_le (R := fun _ => True) (fun _ _ _ _ => trivial)
    (fun g hg _ => hM g hg) heq trivial (Nat.le_add_left M _) hpre
  simp only [decide_true, List.filter_true] at hle
  rw [totalBytes_eq hT hg, Nat.mod_eq_of_lt (by omega)]

end Solution

end StackAnalyzer
