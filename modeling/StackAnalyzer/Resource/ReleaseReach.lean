import StackAnalyzer.Graph.Paths
import StackAnalyzer.Resource.Lifetime

set_option relaxedAutoImplicit false
set_option autoImplicit false

/-!
# What a release reaches

A use is compared with the releases that may reach it. Between two blocks this is reachability, but
within a block it is the order of the instructions. So a release at the end of the body of a loop
does not reach a use at its beginning, which the next iteration executes.

## Main definitions

* `StackAnalyzer.Resource.LifetimeFunction.MayFollow` — some path executes an instruction, and later
  another one.
* `StackAnalyzer.Resource.LifetimeFunction.FollowsAroundLoop` — what the order in a block misses.

## Main results

* `StackAnalyzer.Resource.instructionMayReach_complete_iff` — exactly these pairs are missed.
* `StackAnalyzer.Resource.isUseAfterRelease_of_mayFollow` — which uses are found.
-/

namespace StackAnalyzer.Resource

open Graph

variable {A B I : Type*}

/-! ## Paths through the blocks of a function -/

namespace LifetimeFunction

variable (F : LifetimeFunction A B I)

/-- A block of the function. -/
def IsBlock (b : B) : Prop := b ∈ F.blocks

/-- **Some path of the function executes an instruction, and later another one**. -/
def MayFollow (source target : I) : Prop := F.cfg.MayFollow F.IsBlock source target

/-- What `isPotentiallyReachable` is relied on for: between different blocks, it finds every path. -/
def OverApproximates : Prop :=
  ∀ b c, F.IsBlock b → b ≠ c → Relation.TransGen (F.cfg.Goes F.IsBlock) b c →
    ∀ source ∈ F.cfg.instructions b, ∀ target ∈ F.cfg.instructions c,
      F.potentiallyReachable source target = true

/-- **An instruction follows around a loop** if it stands before the other one in their block, and
the block can be entered again. -/
def FollowsAroundLoop (source target : I) : Prop :=
  ∃ b, F.IsBlock b ∧ [target, source].Sublist (F.cfg.instructions b) ∧
    Relation.TransGen (F.cfg.Goes F.IsBlock) b b

variable {F}

/-- The instructions of a block are different. -/
theorem nodup_block {b : B} (hb : F.IsBlock b) : (F.cfg.instructions b).Nodup :=
  (List.nodup_flatMap.mp F.nodup).1 b hb

/-- An instruction stands in one block. -/
theorem block_unique {b c : B} {i : I} (hb : F.IsBlock b) (hc : F.IsBlock c)
    (hib : i ∈ F.cfg.instructions b) (hic : i ∈ F.cfg.instructions c) : b = c := by
  by_contra hne
  have hsymm : Std.Symm (Function.onFun List.Disjoint F.cfg.instructions) :=
    ⟨fun _ _ h => h.symm⟩
  have hdisjoint : F.blocks.Pairwise (Function.onFun List.Disjoint F.cfg.instructions) :=
    (List.nodup_flatMap.mp F.nodup).2
  exact hdisjoint.forall hb hc hne hib hic

/-- Nothing follows itself around a loop within one block. -/
theorem not_followsAroundLoop_self (i : I) : ¬ F.FollowsAroundLoop i i := by
  rintro ⟨b, hb, hpair, -⟩
  exact absurd (hpair.nodup (nodup_block hb)) (by simp)

variable [DecidableEq I]

/-- Every instruction reaches itself. -/
theorem instructionMayReach_self (i : I) : F.instructionMayReach i i = true := if_pos rfl

/-- **Within a block** the order decides. -/
theorem instructionMayReach_of_block {b : B} (hb : F.IsBlock b) {source target : I}
    (hne : source ≠ target) (hsource : source ∈ F.cfg.instructions b)
    (htarget : target ∈ F.cfg.instructions b) :
    F.instructionMayReach source target = true ↔
      (F.cfg.instructions b).idxOf source < (F.cfg.instructions b).idxOf target := by
  have hfound : F.blocks.find? (fun b => source ∈ F.cfg.instructions b ∧
      target ∈ F.cfg.instructions b) = some b := by
    cases hfind : F.blocks.find? fun b => source ∈ F.cfg.instructions b ∧
        target ∈ F.cfg.instructions b with
    | none =>
      have hnone := List.find?_eq_none.mp hfind b hb
      exact absurd (decide_eq_true ⟨hsource, htarget⟩) hnone
    | some c =>
      have hboth := List.find?_some hfind
      rw [block_unique (List.mem_of_find?_eq_some hfind) hb (of_decide_eq_true hboth).1 hsource]
  unfold instructionMayReach
  rw [if_neg hne, hfound]
  exact decide_eq_true_iff

/-- **Between two blocks** reachability decides. -/
theorem instructionMayReach_of_blocks {b c : B} (hb : F.IsBlock b) (hc : F.IsBlock c)
    (hne : b ≠ c) {source target : I} (hsource : source ∈ F.cfg.instructions b)
    (htarget : target ∈ F.cfg.instructions c) :
    F.instructionMayReach source target = F.potentiallyReachable source target := by
  have hfind : F.blocks.find? (fun b => source ∈ F.cfg.instructions b ∧
      target ∈ F.cfg.instructions b) = none := by
    refine List.find?_eq_none.mpr fun d hd hboth => hne ?_
    have hboth := of_decide_eq_true hboth
    rw [← block_unique hd hb hboth.1 hsource, block_unique hd hc hboth.2 htarget]
  have hdiff : source ≠ target := by
    rintro rfl
    exact hne (block_unique hb hc hsource htarget)
  unfold instructionMayReach
  rw [if_neg hdiff, hfind]

end LifetimeFunction

/-! ## What is missed -/

section Missed

open LifetimeFunction

variable {F : LifetimeFunction A B I} {source target : I}

/-- What follows around a loop is executed later on the path around the loop. -/
theorem mayFollow_of_followsAroundLoop (h : F.FollowsAroundLoop source target) :
    F.MayFollow source target := by
  obtain ⟨b, hb, hpair, hloop⟩ := h
  exact Cfg.mayFollow_iff.mpr
    (Or.inr ⟨b, b, hb, hloop, hpair.subset (by simp), hpair.subset (by simp)⟩)

variable [DecidableEq I]

/-- What follows around a loop is not reached. -/
theorem instructionMayReach_of_followsAroundLoop (h : F.FollowsAroundLoop source target) :
    F.instructionMayReach source target = false := by
  have hne : source ≠ target := by
    rintro rfl
    exact not_followsAroundLoop_self source h
  obtain ⟨b, hb, hpair, -⟩ := h
  have hsource : source ∈ F.cfg.instructions b := hpair.subset (by simp)
  have htarget : target ∈ F.cfg.instructions b := hpair.subset (by simp)
  have horder := idxOf_lt_of_pair_sublist (nodup_block hb) hpair
  rw [← Bool.not_eq_true, instructionMayReach_of_block hb hne hsource htarget]
  omega

/-- Whatever else is executed later is reached. -/
theorem instructionMayReach_of_mayFollow (hreach : F.OverApproximates)
    (h : F.MayFollow source target) (hloop : ¬ F.FollowsAroundLoop source target) :
    F.instructionMayReach source target = true := by
  by_cases hne : source = target
  · subst hne
    exact instructionMayReach_self source
  obtain ⟨b, hb, hpair⟩ | ⟨b, c, hb, hgoes, hsource, htarget⟩ := Cfg.mayFollow_iff.mp h
  · rw [instructionMayReach_of_block hb hne (hpair.subset (by simp)) (hpair.subset (by simp))]
    exact idxOf_lt_of_pair_sublist (nodup_block hb) hpair
  · by_cases hbc : b = c
    · -- the block is entered again, so the order must be the right one
      subst hbc
      obtain hpair | hpair := pair_sublist_total hsource htarget hne
      · rw [instructionMayReach_of_block hb hne hsource htarget]
        exact idxOf_lt_of_pair_sublist (nodup_block hb) hpair
      · exact absurd ⟨b, hb, hpair, hgoes⟩ hloop
    · have hc : F.IsBlock c := by
        cases hgoes with
        | single hedge => exact hedge.2
        | tail _ hedge => exact hedge.2
      rw [instructionMayReach_of_blocks hb hc hbc hsource htarget]
      exact hreach b c hb hbc hgoes source hsource target htarget

/-- **Exactly what follows around a loop is missed**: all other instructions that some path executes
later are reached. -/
theorem instructionMayReach_complete_iff (hreach : F.OverApproximates) (source target : I) :
    (F.MayFollow source target → F.instructionMayReach source target = true) ↔
      ¬ F.FollowsAroundLoop source target := by
  constructor
  · intro h hloop
    have hmissed := instructionMayReach_of_followsAroundLoop hloop
    rw [h (mayFollow_of_followsAroundLoop hloop)] at hmissed
    exact absurd hmissed (by decide)
  · intro hloop h
    exact instructionMayReach_of_mayFollow hreach h hloop

/-! A loop: `h = acquire(); do { use(h); release(h); } while (c); return;`. -/

/-- The blocks of the loop. -/
inductive LoopBlock
  | entry
  | body
  | exit
  deriving DecidableEq

/-- The instructions of the loop. -/
inductive LoopInst
  | acquire
  | enter
  | use
  | release
  | back
  | ret
  deriving DecidableEq

/-- The instructions in order. -/
def LoopInst.position : LoopInst → ℕ
  | .acquire => 0
  | .enter => 1
  | .use => 2
  | .release => 3
  | .back => 4
  | .ret => 5

/-- An instruction of the body of the loop. -/
def LoopInst.inBody : LoopInst → Bool
  | .use | .release | .back => true
  | _ => false

/-- The function with the loop. -/
def useAndRelease : LifetimeFunction Unit LoopBlock LoopInst where
  name := "useAndRelease".toList
  blocks := [.entry, .body, .exit]
  cfg :=
    { entry := .entry
      succ := fun b => match b with
        | .entry => [.body]
        | .body => [.body, .exit]
        | .exit => []
      instructions := fun b => match b with
        | .entry => [.acquire, .enter]
        | .body => [.use, .release, .back]
        | .exit => [.ret]
      normalDest := fun _ => none }
  inst _ := ⟨.none, none, none⟩
  line i := some i.position
  deriveAllocaName _ := "h".toList
  argumentShadow _ := false
  hasExplicitExternalStore _ _ := false
  addressEscapesToUnmodeledCall _ := false
  shouldReportIncompleteInterproc _ _ := true
  mayStoreValueFrom _ _ := false
  potentiallyReachable i j := decide (i.position ≤ j.position) || (i.inBody && j.inBody)
  nodup := by decide

/-- Between different blocks of this function, all paths are found. -/
theorem overApproximates_useAndRelease : useAndRelease.OverApproximates := by
  intro b c _ hne hgoes source hsource target htarget
  have hstart : b ≠ .exit := by
    rintro rfl
    cases hgoes using Relation.TransGen.head_induction_on with
    | single hedge => cases hedge.1
    | head hedge _ => cases hedge.1
  have hend : c ≠ .entry := by
    rintro rfl
    have hlast : ∀ d, ¬ useAndRelease.cfg.Goes useAndRelease.IsBlock d .entry := by
      rintro d ⟨hedge, -⟩
      cases d <;> exact absurd hedge (by decide)
    cases hgoes with
    | single hedge => exact hlast _ hedge
    | tail _ hedge => exact hlast _ hedge
  have hpairs : ∀ b c : LoopBlock, b ≠ c → b ≠ .exit → c ≠ .entry →
      ∀ i ∈ useAndRelease.cfg.instructions b, ∀ j ∈ useAndRelease.cfg.instructions c,
        useAndRelease.potentiallyReachable i j = true := by
    intro b c
    cases b <;> cases c <;> decide
  exact hpairs b c hne hstart hend source hsource target htarget

/-- The body of the loop is entered again from its end. -/
theorem followsAroundLoop_useAndRelease :
    useAndRelease.FollowsAroundLoop .release .use := by
  have hbody : useAndRelease.IsBlock .body :=
    List.mem_cons_of_mem _ List.mem_cons_self
  refine ⟨.body, hbody, ?_, .single ⟨List.mem_cons_self, hbody⟩⟩
  exact List.Sublist.cons_cons _ (List.Sublist.cons_cons _ (List.nil_sublist _))

/-- The use of the next iteration is not reached by the release. -/
theorem not_instructionMayReach_complete :
    ¬ ∀ (F : LifetimeFunction Unit LoopBlock LoopInst) (source target : LoopInst),
      F.OverApproximates → F.MayFollow source target →
        F.instructionMayReach source target = true := by
  intro h
  have hmissed := instructionMayReach_of_followsAroundLoop followsAroundLoop_useAndRelease
  rw [h useAndRelease .release .use overApproximates_useAndRelease
    (mayFollow_of_followsAroundLoop followsAroundLoop_useAndRelease)] at hmissed
  exact absurd hmissed (by decide)

/-- In the same loop, the use that follows the acquire is reached by it. -/
theorem instructionMayReach_complete_useAndRelease :
    (useAndRelease.MayFollow .acquire .use →
      useAndRelease.instructionMayReach .acquire .use = true) ↔
        ¬ useAndRelease.FollowsAroundLoop .acquire .use :=
  instructionMayReach_complete_iff overApproximates_useAndRelease .acquire .use

/-- **The uses that are found**: an access of a slot that was acquired, with a release on some path
before it, other than around a loop. -/
theorem isUseAfterRelease_of_mayFollow (hreach : F.OverApproximates) [DecidableEq A]
    {state : LocalHandleState A I} (hacquired : 0 < state.acquires)
    (hreleased : 0 < state.releases) (hmem : source ∈ state.releaseInsts)
    (h : F.MayFollow source target) (hloop : ¬ F.FollowsAroundLoop source target) :
    isUseAfterRelease F state.storage target state = true := by
  unfold isUseAfterRelease
  simp only [hacquired, hreleased, decide_true, Bool.true_and]
  exact List.any_eq_true.mpr ⟨source, hmem, instructionMayReach_of_mayFollow hreach h hloop⟩

end Missed

end StackAnalyzer.Resource
