import StackAnalyzer.Stack.Acyclic

set_option relaxedAutoImplicit false
set_option autoImplicit false

/-!
# Stack totals and the enumeration order

A function that is being visited contributes only its frame to its callees, and the total that a
callee computes from it is memoised for good. Which function of a cycle is entered first decides
which totals suffer, and that depends on the order of the keys.

## Main definitions

* `StackAnalyzer.Reenumerates` — the same call graph and frames in another order.
* `StackAnalyzer.LoopsOnly` — the only cycles are functions that call themselves.
* `StackAnalyzer.framesFrom` — frames for the functions of a graph, from a chosen first key on.

## Main results

* `StackAnalyzer.totalStack_order_iff` — the totals are independent of the enumeration order
  exactly on graphs whose only cycles are self calls.
-/

namespace StackAnalyzer

open Graph

variable {F : Type*} [DecidableEq F]

/-- The frames with `r` as the first key: the functions of the graph, `r` moved to the front. -/
def keysFrom (CG : CallGraph F) (r : F) : List F := r :: CG.functions.dedup.erase r

/-- The keys are distinct. -/
theorem nodup_keysFrom (CG : CallGraph F) (r : F) : (keysFrom CG r).Nodup :=
  List.nodup_cons.mpr ⟨(List.nodup_dedup _).not_mem_erase, (List.nodup_dedup _).erase r⟩

/-- Starting from another function permutes the keys. -/
theorem keysFrom_perm (CG : CallGraph F) {r : F} (hr : r ∈ CG.functions) :
    (keysFrom CG r).Perm CG.functions.dedup :=
  (List.perm_cons_erase (List.mem_dedup.mpr hr)).symm

/-- The first key. -/
theorem self_mem_keysFrom (CG : CallGraph F) (r : F) : r ∈ keysFrom CG r := List.mem_cons_self

/-- The functions of the graph are keys. -/
theorem mem_keysFrom {CG : CallGraph F} {r x : F} (hx : x ∈ CG.functions) : x ∈ keysFrom CG r := by
  by_cases h : x = r
  · exact h ▸ List.mem_cons_self
  · exact List.mem_cons_of_mem _ ((List.mem_erase_of_ne h).mpr (List.mem_dedup.mpr hx))

/-- Known frames of the sizes `w` for the functions of the graph, with `r` as the first key. -/
def framesFrom (CG : CallGraph F) (r : F) (w : F → UInt64) : PtrMap F LocalStackInfo :=
  frames (keysFrom CG r) w (nodup_keysFrom CG r)

@[simp] theorem keys_framesFrom (CG : CallGraph F) (r : F) (w : F → UInt64) :
    (framesFrom CG r w).keys = keysFrom CG r := by
  rw [framesFrom, frames, PtrMap.keys_ofKeys]

/-- The frames that start from another function are the same map in another order. -/
theorem entries_framesFrom_perm (CG : CallGraph F) {r r' : F} (hr : r ∈ CG.functions)
    (hr' : r' ∈ CG.functions) (w : F → UInt64) :
    (framesFrom CG r w).entries.Perm (framesFrom CG r' w).entries :=
  List.Perm.map (fun x => (x, (⟨w x, false⟩ : LocalStackInfo)))
    ((keysFrom_perm CG hr).trans (keysFrom_perm CG hr').symm)

/-- When only the functions of `s` have a frame, their sizes bound the sum of the frames. -/
theorem sum_framesFrom_le (CG : CallGraph F) (r : F) {w : F → UInt64} {s : List F} (hs : s.Nodup)
    (h : ∀ x, (w x).toNat ≠ 0 → x ∈ s) :
    ((framesFrom CG r w).keys.map (localBytes (framesFrom CG r w))).sum ≤
      (s.map fun x => (w x).toNat).sum := by
  have hl : (framesFrom CG r w).keys.map (localBytes (framesFrom CG r w)) =
      (keysFrom CG r).map fun x => (w x).toNat := by
    rw [keys_framesFrom]
    exact List.map_congr_left fun x hx => localBytes_frames w _ hx
  rw [hl]
  exact sum_map_le (nodup_keysFrom CG r) hs fun x _ hx => h x hx

/-! ## Independence of the enumeration order -/

/-- The same call graph and frames, enumerated in another order. -/
structure Reenumerates (CG' : CallGraph F) (LocalStack' : PtrMap F LocalStackInfo)
    (CG : CallGraph F) (LocalStack : PtrMap F LocalStackInfo) : Prop where
  callees : ∀ f, (CG'.callees f).Perm (CG.callees f)
  entries : LocalStack'.entries.Perm LocalStack.entries

/-- The only cycles are functions that call themselves. -/
def LoopsOnly (CG : CallGraph F) : Prop :=
  ∀ f, ∀ c ∈ CG.callees f, c ≠ f → ¬ Reach CG.callees c f

variable {CG CG' : CallGraph F} {LocalStack LocalStack' : PtrMap F LocalStackInfo}

/-- Without longer cycles, the callees of a function other than itself contribute their totals. -/
theorem contribution_of_loopsOnly (hloops : LoopsOnly CG) {keys : List F}
    {S : MemoDfs.Schedule CG.callees keys} {g : F} (hg : g ∈ S.order) {c : F}
    (hc : c ∈ CG.callees g) : S.back g c = decide (c = g) := by
  by_cases hcg : c = g
  · rw [hcg, S.back_self g hg, decide_eq_true rfl]
  · rw [decide_eq_false hcg, ← Bool.not_eq_true]
    exact fun hb => hloops g c hc hcg (S.back_reach g hg c hb)

namespace Reenumerates

/-- Reachability does not depend on the enumeration order. -/
theorem reach (h : Reenumerates CG' LocalStack' CG LocalStack) :
    Reach CG'.callees = Reach CG.callees := by
  have hedge : Edge CG'.callees = Edge CG.callees := by
    funext u v
    exact propext (h.callees u).mem_iff
  rw [Reach, Reach, hedge]

/-- The frames do not depend on the enumeration order. -/
theorem localEstimate (h : Reenumerates CG' LocalStack' CG LocalStack) :
    localEstimate LocalStack' = localEstimate LocalStack := by
  funext f
  rw [StackAnalyzer.localEstimate, StackAnalyzer.localEstimate, PtrMap.find_perm h.entries]

/-- The keys are a permutation of each other. -/
theorem mem_keys (h : Reenumerates CG' LocalStack' CG LocalStack) (f : F) :
    f ∈ LocalStack'.keys ↔ f ∈ LocalStack.keys :=
  (h.entries.map Prod.fst).mem_iff

/-- **The equations have one solution**: without longer cycles the totals do not depend on the
enumeration order.

**Proof sketch.** Along the finishing order of one run. In both runs a function itself contributes
its frame and every other callee its total, so the totals of `g` agree when those of its callees
do, whatever the order in which the callees are joined. -/
theorem totalStack (h : Reenumerates CG' LocalStack' CG LocalStack) (hloops : LoopsOnly CG) :
    totalStack CG' LocalStack' = totalStack CG LocalStack := by
  obtain ⟨S, hS⟩ := exists_totals CG LocalStack.keys
  obtain ⟨S', hS'⟩ := exists_totals CG' LocalStack'.keys
  replace hS := hS LocalStack rfl
  replace hS' := hS' LocalStack' rfl
  have hloops' : LoopsOnly CG' := fun f c hc hcf => by
    rw [h.reach]
    exact hloops f c ((h.callees f).mem_iff.mp hc) hcf
  have horder : ∀ g, g ∈ S'.order ↔ g ∈ S.order := fun g => by
    rw [S'.mem_iff, S.mem_iff, h.reach]
    exact exists_congr fun r => and_congr_left fun _ => h.mem_keys r
  have hagree : ∀ g ∈ S.order, StackAnalyzer.totalStack CG' LocalStack' g =
      StackAnalyzer.totalStack CG LocalStack g := by
    refine S.induction fun g hg ih => ?_
    rw [total_eq hS hg, total_eq hS' ((horder g).mpr hg), h.localEstimate,
      StackEstimate.joinAll_perm _ (h.callees g)]
    refine congrArg (fun e => some (addCallee _ e)) (estimates.joinAll_congr fun c hc => ?_)
    simp only [contribution, contribution_of_loopsOnly hloops hg hc,
      contribution_of_loopsOnly hloops' ((horder g).mpr hg) ((h.callees g).mem_iff.mpr hc),
      h.localEstimate]
    by_cases hcg : c = g
    · simp [hcg]
    · simp only [hcg, decide_false, Bool.false_eq_true, if_false]
      rw [ih c hc (by rw [contribution_of_loopsOnly hloops hg hc, decide_eq_false hcg])]
  funext g
  by_cases hg : g ∈ S.order
  · exact hagree g hg
  · rw [hS.2 g hg, hS'.2 g fun hg' => hg ((horder g).mp hg')]

end Reenumerates

/-- With `r` as the first key, the total of `r` covers its frame and the total of any callee. -/
theorem local_add_total_le_of_first {r : F} {w : F → UInt64} {M : ℕ}
    (hM : ∀ x, (w x).toNat ≤ M)
    (hfit : ((framesFrom CG r w).keys.map (localBytes (framesFrom CG r w))).sum + M < 2 ^ 64)
    {d : F} (hd : d ∈ CG.callees r) (hdr : d ≠ r) :
    (w r).toNat + totalBytes (totalStack CG (framesFrom CG r w)) d ≤
      totalBytes (totalStack CG (framesFrom CG r w)) r := by
  obtain ⟨S, hS⟩ := exists_totals CG (keysFrom CG r)
  replace hS := hS _ (keys_framesFrom CG r w)
  have hr : r ∈ S.order := (S.mem_iff r).mpr ⟨r, self_mem_keysFrom CG r, Reach.refl r⟩
  have hb : S.back r d = false := by
    rw [← Bool.not_eq_true, (S.first r (by simp [keysFrom])).1 d]
    exact hdr
  have hlocal : localBytes (framesFrom CG r w) r = (w r).toNat :=
    localBytes_frames w _ (self_mem_keysFrom CG r)
  rw [totalBytes_eq_add hS (fun g _ c _ _ => (localBytes_frames_le w _ c).trans (hM c)) hfit hr,
    hlocal]
  have hle := StackEstimate.le_joinAll (contribution (framesFrom CG r w) S
    (totalStack CG (framesFrom CG r w)) r) _ hd
  simp only [contribution, hb, Bool.false_eq_true, if_false] at hle
  exact Nat.add_le_add_left hle _

/-- **Order independence**: the totals of `computeGlobalStackUsage` are the same for all frames and
all enumeration orders exactly when the only cycles of the call graph are self calls.

**Proof sketch.** Without longer cycles the equations have one solution. Conversely let `f` call
`c ≠ f` and `c` reach `f`, and give `f` one byte. If the order did not matter, every function
could be taken as the first key, so its total would cover its frame and the total of each callee;
around the cycle through `f` the total of `f` would exceed itself. -/
theorem totalStack_order_iff (hasNoRecurseContract : F → Bool) (CG : CallGraph F) :
    (∀ (CG' : CallGraph F) (LocalStack' LocalStack : PtrMap F LocalStackInfo),
      Reenumerates CG' LocalStack' CG LocalStack →
        (computeGlobalStackUsage hasNoRecurseContract CG' LocalStack').TotalStack =
          (computeGlobalStackUsage hasNoRecurseContract CG LocalStack).TotalStack) ↔
      LoopsOnly CG := by
  refine ⟨fun h f c hc hcf hreach => ?_, fun hloops CG' L' L h => h.totalStack hloops⟩
  let w : F → UInt64 := fun x => if x = f then 1 else 0
  have hw : ∀ x, (w x).toNat = if x = f then 1 else 0 := fun x => by
    by_cases hx : x = f <;> simp [w, hx]
  let T := totalStack CG (framesFrom CG f w)
  -- any function may be the first key
  have hT : ∀ r ∈ CG.functions, totalStack CG (framesFrom CG r w) = T := fun r hr =>
    h CG _ _ ⟨fun _ => List.Perm.refl _,
      entries_framesFrom_perm CG hr (CG.mem_functions_caller hc) w⟩
  have hedge : ∀ r, ∀ d ∈ CG.callees r, d ≠ r → (w r).toNat + totalBytes T d ≤ totalBytes T r := by
    intro r d hd hdr
    rw [← hT r (CG.mem_functions_caller hd)]
    refine local_add_total_le_of_first (M := 1) (fun x => by rw [hw]; split_ifs <;> simp) ?_ hd hdr
    have hsum := sum_framesFrom_le CG r (w := w) (List.nodup_singleton f) fun x hx => by
      rw [hw] at hx
      simpa using hx
    rw [List.map_singleton, List.sum_singleton, hw, if_pos rfl] at hsum
    omega
  -- totals do not grow along calls
  have hmono : ∀ u, Reach CG.callees c u → totalBytes T u ≤ totalBytes T c := by
    intro u hu
    induction hu with
    | refl => exact le_rfl
    | @tail a b _ hab ih =>
      by_cases hba : b = a
      · rw [hba]; exact ih
      · exact le_trans (le_trans (Nat.le_add_left _ _) (hedge a b hab hba)) ih
  have h1 := hedge f c hc hcf
  have h2 := hmono f hreach
  rw [hw, if_pos rfl] at h1
  omega

attribute [local instance] neZero_three

/-- `0` calls `1` and `2`, and `1` calls `0`. -/
def callBack : CallGraph (Fin 3) := ⟨[(0, [1, 2]), (1, [0])], by decide⟩

/-- The frames of `callBack`, `0` first. -/
def callBackFrames : PtrMap (Fin 3) LocalStackInfo :=
  ⟨[(0, ⟨16, false⟩), (1, ⟨16, false⟩), (2, ⟨1024, false⟩)], by decide⟩

/-- The frames of `callBack`, `1` first. -/
def callBackFramesSwapped : PtrMap (Fin 3) LocalStackInfo :=
  ⟨[(1, ⟨16, false⟩), (0, ⟨16, false⟩), (2, ⟨1024, false⟩)], by decide⟩

/-- Entered through `0`, the function `1` misses the frame of `2`; entered first, it does not. -/
theorem totalStack_callBack_order :
    Reenumerates callBack callBackFramesSwapped callBack callBackFrames ∧
      (computeGlobalStackUsage (fun _ => false) callBack callBackFrames).TotalStack 1 =
        some ⟨32, false⟩ ∧
      (computeGlobalStackUsage (fun _ => false) callBack callBackFramesSwapped).TotalStack 1 =
        some ⟨1056, false⟩ :=
  ⟨⟨fun _ => List.Perm.refl _, List.Perm.swap _ _ _⟩, rfl, rfl⟩

end StackAnalyzer
