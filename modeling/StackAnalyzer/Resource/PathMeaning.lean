import StackAnalyzer.Resource.Reported

set_option relaxedAutoImplicit false
set_option autoImplicit false

/-!
# Resource issues and the paths of a function

What an issue of a function says about the paths of its control-flow graph, and for which functions
this is true. The pass counts the acquires and releases of a handle in the order of the blocks, so
releases in different branches are added up, and a path without a release is not seen.

## Main definitions

* `StackAnalyzer.Resource.LifetimeFunction.effects` — what a path does to a handle.
* `StackAnalyzer.Resource.DoubleReleasePath`, `StackAnalyzer.Resource.UsePath`,
  `StackAnalyzer.Resource.LeakPath` — the paths that the issues are about.
* `StackAnalyzer.Resource.PathMeaning`, `StackAnalyzer.Resource.CountsFollowPaths` — all issues have
  such a path, and the functions of which this is true.

## Main results

* `StackAnalyzer.Resource.pathMeaning_iff` — double releases and uses after a release.
* `StackAnalyzer.Resource.missingRelease_iff_leakPath_iff` — leaks.
-/

namespace StackAnalyzer.Resource

open CrossTU Maps Graph Enumerations

variable {A B I : Type*}

/-! ## Paths -/

/-- What is done to a handle. -/
inductive HandleEffect
  | acquire | release
  deriving DecidableEq

section Paths

variable [DecidableEq A] [DecidableEq B] (F : LifetimeFunction A B I) (ctx : LifetimeContext)

/-- What an event does to a handle. -/
def Event.effectOn (h : Handle A) (event : Event A) : Option HandleEffect :=
  if event.acquiresOf h then some .acquire
  else if event.releasesOf h then some .release
  else none

/-- What some instructions do to a handle, in order. -/
def LifetimeFunction.effects (h : Handle A) (t : List I) : List HandleEffect :=
  (t.flatMap fun i => (F.inst i).events ctx).filterMap (Event.effectOn h)

omit [DecidableEq B] in
/-- What a path does to a handle is the beginning of what a longer one does. -/
theorem effects_mono (h : Handle A) {t s : List I} (hbegin : t <+: s) :
    F.effects ctx h t <+: F.effects ctx h s := by
  obtain ⟨rest, rfl⟩ := hbegin
  unfold LifetimeFunction.effects
  rw [@List.flatMap_append _ _ t, List.filterMap_append]
  exact List.prefix_append _ _

/-- Some path executes two releases of the handle without an acquire in between, or a release
without an acquire before it. -/
def DoubleReleasePath (h : Handle A) : Prop :=
  ∃ i t, F.cfg.TraceBefore F.cfg.completed i t ∧
    ((∃ pre mid post, F.effects ctx h (t ++ [i]) = pre ++ .release :: (mid ++ .release :: post) ∧
        HandleEffect.acquire ∉ mid) ∨
      ∃ pre post, F.effects ctx h (t ++ [i]) = pre ++ .release :: post ∧
        HandleEffect.acquire ∉ pre)

/-- Some path executes a release of the handle and then the instruction, without an acquire in
between. -/
def UsePath (h : Handle A) (i : I) : Prop :=
  ∃ t, F.cfg.TraceBefore F.cfg.completed i t ∧
    ∃ pre post, F.effects ctx h t = pre ++ .release :: post ∧ HandleEffect.acquire ∉ post

/-- Some path to a return acquires the handle and does not release it afterwards. -/
def LeakPath (h : Handle A) : Prop :=
  ∃ i t, (F.inst i).isReturn = true ∧ F.cfg.TraceBefore F.cfg.completed i t ∧
    ∃ pre post, F.effects ctx h t = pre ++ .acquire :: post ∧ HandleEffect.release ∉ post

end Paths

/-! ## A function that releases on branches -/

/-- The model of `malloc` and `free`. -/
def heapModel : LifetimeContext where
  rules := [⟨"malloc".toList, "HeapAlloc".toList, 0, .acquireRet⟩,
    ⟨"free".toList, "HeapAlloc".toList, 0, .releaseArg⟩]
  ruleMatchesFunction rule idx := if idx = 0 then rule.action = .acquireRet else
    rule.action = .releaseArg
  mod := [⟨"malloc".toList, true, false, false, false, false, []⟩,
    ⟨"free".toList, true, false, false, false, false, []⟩]
  external _ := none

/-- The slot of `p`, the only one. -/
def slotP : StorageKey Unit := .localSlot () 0

/-- `malloc(n)`, stored to `p`. -/
def mallocCall : LifetimeCall Unit where
  callee := some 0
  args := [⟨false, false, .unknown, .unknown, none⟩]
  isVoid := false
  storedDestinations := [slotP]
  mapSummaryEffect _ := .unknown

/-- `free(p)`. -/
def freeCall : LifetimeCall Unit where
  callee := some 1
  args := [⟨true, false, .unknown, slotP, none⟩]
  isVoid := true
  storedDestinations := []
  mapSummaryEffect _ := .unknown

/-- The example has four blocks. -/
theorem neZero_four : NeZero 4 := ⟨four_ne_zero⟩

attribute [local instance] neZero_four

/-- A branch: some instructions, then one of two lists of instructions, then some instructions. -/
def branch (first left right last : List (Fin 7)) : Cfg (Fin 4) (Fin 7) where
  entry := 0
  succ b := match b with | 0 => [1, 2] | 1 => [3] | 2 => [3] | 3 => []
  instructions b := match b with | 0 => first | 1 => left | 2 => right | 3 => last
  normalDest _ := none

/-- What a path has executed when it comes to a block. -/
theorem traceTo_branch {first left right last : List (Fin 7)} {b : Fin 4} {t : List (Fin 7)}
    (h : (branch first left right last).TraceTo (branch first left right last).completed b t) :
    (b = 0 ∧ t = []) ∨ ((b = 1 ∨ b = 2) ∧ t = first) ∨
      (b = 3 ∧ (t = first ++ left ∨ t = first ++ right)) := by
  have hall : ∀ b c, (branch first left right last).completed b c =
      (branch first left right last).instructions b :=
    fun b c => List.filter_eq_self.mpr fun i _ => rfl
  induction h with
  | entry => exact Or.inl ⟨rfl, rfl⟩
  | @step b c t _ hedge ih =>
    rw [hall]
    rcases ih with ⟨rfl, rfl⟩ | ⟨rfl | rfl, rfl⟩ | ⟨rfl, -⟩
    · have hc : c ∈ [(1 : Fin 4), 2] := hedge
      exact Or.inr (Or.inl ⟨by simpa using hc, rfl⟩)
    · have hc : c ∈ [(3 : Fin 4)] := hedge
      exact Or.inr (Or.inr ⟨List.mem_singleton.mp hc, Or.inl rfl⟩)
    · have hc : c ∈ [(3 : Fin 4)] := hedge
      exact Or.inr (Or.inr ⟨List.mem_singleton.mp hc, Or.inr rfl⟩)
    · exact absurd hedge List.not_mem_nil

/-- What a path has executed up to an instruction is the beginning of one of two runs. -/
theorem traceBefore_branch {first left right last : List (Fin 7)} {i : Fin 7} {t : List (Fin 7)}
    (h : (branch first left right last).TraceBefore (branch first left right last).completed i t) :
    t ++ [i] <+: first ++ left ++ last ∨ t ++ [i] <+: first ++ right ++ last := by
  obtain ⟨b, t₀, before, after, hpath, heq, rfl⟩ := h
  have hbegin : (t₀ ++ before) ++ [i] <+: t₀ ++ (branch first left right last).instructions b :=
    ⟨after, by rw [heq]; simp⟩
  rcases traceTo_branch hpath with ⟨rfl, rfl⟩ | ⟨rfl | rfl, rfl⟩ | ⟨rfl, rfl | rfl⟩
  · exact Or.inl (hbegin.trans ⟨left ++ last, by simp [branch]⟩)
  · exact Or.inl (hbegin.trans ⟨last, rfl⟩)
  · exact Or.inr (hbegin.trans ⟨last, rfl⟩)
  · exact Or.inl hbegin
  · exact Or.inr hbegin

/-- A function with one slot, which only `malloc` and `free` are given, and a branch. -/
def branchFunction (first left right last : List (Fin 7)) (inst : Fin 7 → Instruction Unit)
    (nodup : ([0, 1, 2, 3].flatMap (branch first left right last).instructions).Nodup) :
    LifetimeFunction Unit (Fin 4) (Fin 7) where
  name := "branch".toList
  blocks := [0, 1, 2, 3]
  cfg := branch first left right last
  inst := inst
  line i := some i
  deriveAllocaName _ := "p".toList
  argumentShadow _ := false
  hasExplicitExternalStore _ _ := false
  addressEscapesToUnmodeledCall _ := false
  shouldReportIncompleteInterproc _ _ := true
  mayStoreValueFrom _ _ := false
  potentiallyReachable i j := decide (i < j) && !(decide (i ∈ left) && decide (j ∈ right))
  nodup := nodup

/-- `p = malloc(n); if (c) free(p); else free(p); return;`. -/
def freeOnBranches : LifetimeFunction Unit (Fin 4) (Fin 7) :=
  branchFunction [0, 1] [2, 3] [4, 5] [6]
    (fun i =>
      match i with
      | 0 => ⟨.none, some mallocCall, none⟩
      | 1 => ⟨.store slotP, none, none⟩
      | 2 | 4 => ⟨.load true slotP, none, none⟩
      | 3 | 5 => ⟨.none, some freeCall, none⟩
      | 6 => ⟨.none, none, some none⟩)
    (by decide)

/-- `p = malloc(n); if (c) free(p); return;`. -/
def freeOnOneBranch : LifetimeFunction Unit (Fin 4) (Fin 7) :=
  branchFunction [0, 1] [2, 3] [] [6]
    (fun i =>
      match i with
      | 0 => ⟨.none, some mallocCall, none⟩
      | 1 => ⟨.store slotP, none, none⟩
      | 2 => ⟨.load true slotP, none, none⟩
      | 3 => ⟨.none, some freeCall, none⟩
      | 4 | 5 => ⟨.none, none, none⟩
      | 6 => ⟨.none, none, some none⟩)
    (by decide)

/-- `if (c) p = malloc(n); else p = malloc(m); free(p); return;`. -/
def mallocOnBranches : LifetimeFunction Unit (Fin 4) (Fin 7) :=
  branchFunction [] [0, 1] [2, 3] [4, 5, 6]
    (fun i =>
      match i with
      | 0 | 2 => ⟨.none, some mallocCall, none⟩
      | 1 | 3 => ⟨.store slotP, none, none⟩
      | 4 => ⟨.load true slotP, none, none⟩
      | 5 => ⟨.none, some freeCall, none⟩
      | 6 => ⟨.none, none, some none⟩)
    (by decide)

/-! ## Returns -/

section Returns

variable [DecidableEq A] [DecidableEq I] (F : LifetimeFunction A B I)

/-- The accesses by the returns. -/
def returnEvents (instructions : List I) : List (I × Event A) :=
  instructions.filterMap fun i => ((F.inst i).ret.join).map fun value => (i, .access value.1)

/-- The state, without the mark of an escape. -/
def LocalHandleState.unmarked (state : LocalHandleState A I) : LocalHandleState A I :=
  { state with escapesViaReturn := false }

omit [DecidableEq I] in
theorem unmarked_markEscape (returned : StorageKey A) (retSlot : Option A)
    (state : LocalHandleState A I) :
    (markEscape F returned retSlot state).unmarked = state.unmarked := by
  unfold markEscape
  split_ifs <;> rfl

/-- Two trackers that report the same, and have the same states up to marks. -/
structure SameReports (tracker tracker' : Tracker A I) : Prop where
  issues : tracker.issues = tracker'.issues
  reported : tracker.useAfterReleaseReported = tracker'.useAfterReleaseReported
  states : tracker.localStates.entries.map (fun e => e.2.unmarked) =
    tracker'.localStates.entries.map fun e => e.2.unmarked

omit [DecidableEq A] [DecidableEq I] in
theorem SameReports.refl (tracker : Tracker A I) : SameReports tracker tracker := ⟨rfl, rfl, rfl⟩

/-- The tests for a use do not depend on the mark. -/
theorem find_unmarked (states : List (LocalHandleState A I)) (storage : StorageKey A) (i : I) :
    ((states.map LocalHandleState.unmarked).find? (isUseAfterRelease F storage i)) =
      (states.find? (isUseAfterRelease F storage i)).map LocalHandleState.unmarked := by
  rw [List.find?_map]
  rfl

/-- Reporting a use keeps the reports the same. -/
theorem SameReports.reportUse {tracker tracker' : Tracker A I} (h : SameReports tracker tracker')
    (storage : StorageKey A) (i : I) :
    SameReports (reportUseAfterReleaseIfNeeded F tracker storage i)
      (reportUseAfterReleaseIfNeeded F tracker' storage i) := by
  cases storage with
  | localSlot localAlloca offset =>
    have hstates := h.states
    have hissues := h.issues
    unfold reportUseAfterReleaseIfNeeded
    dsimp only
    have hfind := find_unmarked F (tracker.localStates.entries.map Prod.snd)
      (.localSlot localAlloca offset) i
    have hfind' := find_unmarked F (tracker'.localStates.entries.map Prod.snd)
      (.localSlot localAlloca offset) i
    have hsame : (tracker.localStates.entries.map Prod.snd).map LocalHandleState.unmarked =
        (tracker'.localStates.entries.map Prod.snd).map LocalHandleState.unmarked := by
      rw [List.map_map, List.map_map]
      exact hstates
    rw [hsame] at hfind
    have hmaps := hfind.symm.trans hfind'
    rw [foldl_reportUse, foldl_reportUse, ← h.reported]
    split_ifs
    · exact h
    · cases hleft : (tracker.localStates.entries.map Prod.snd).find?
          (isUseAfterRelease F (.localSlot localAlloca offset) i) with
      | none =>
        rw [hleft, Option.map_none] at hmaps
        rw [Option.map_eq_none_iff.mp hmaps.symm]
        exact h
      | some state =>
        rw [hleft, Option.map_some] at hmaps
        obtain ⟨state', hright, hunmarked⟩ := Option.map_eq_some_iff.mp hmaps.symm
        have hkind : state'.unmarked.resourceKind = state.unmarked.resourceKind := by
          rw [hunmarked]
        rw [hright]
        refine ⟨?_, ?_, hstates⟩
        · show tracker.issues ++ _ = tracker'.issues ++ _
          rw [hissues, show state.resourceKind = state'.resourceKind from hkind.symm]
        · show _ :: _ = _ :: _
          rw [h.reported]
  | _ => exact h

/-- The loop over the returns reports the accesses by the returns. -/
theorem sameReports_foldl_trackReturn (instructions : List I) {tracker tracker' : Tracker A I}
    (h : SameReports tracker tracker') :
    SameReports (instructions.foldl (trackReturn F) tracker)
      ((returnEvents F instructions).foldl (trackEvent F) tracker') := by
  induction instructions generalizing tracker tracker' with
  | nil => exact h
  | cons i instructions ih =>
    rw [List.foldl_cons]
    unfold returnEvents
    rw [List.filterMap_cons]
    unfold trackReturn
    cases hret : (F.inst i).ret with
    | none => exact ih h
    | some value =>
      cases value with
      | none => exact ih h
      | some value =>
        obtain ⟨returned, retSlot⟩ := value
        have hstep := h.reportUse F returned i
        refine ih ⟨hstep.issues, hstep.reported, Eq.trans ?_ hstep.states⟩
        unfold EntryMap.mapValues
        dsimp only
        rw [List.map_map]
        exact List.map_congr_left fun e _ => unmarked_markEscape F returned retSlot e.2

/-- All events of a function: those of the instructions, then the accesses by the returns. -/
def allEvents (ctx : LifetimeContext) : List (I × Event A) :=
  F.events ctx ++ returnEvents F F.instructions

/-- **The issues of a function** are those of all its events, and those of the leaks. -/
theorem mem_analyzeFunctionLifetime_iff (ctx : LifetimeContext)
    (issue : ResourceLifetimeIssue A I) (hkind : issue.kind ≠ .missingRelease) :
    issue ∈ analyzeFunctionLifetime F ctx ↔
      issue ∈ ((allEvents F ctx).foldl (trackEvent F) {}).issues := by
  have hsame := sameReports_foldl_trackReturn F F.instructions
    (SameReports.refl (trackFunction F ctx))
  unfold analyzeFunctionLifetime allEvents
  rw [List.foldl_append]
  dsimp only
  rw [List.mem_append, hsame.issues, or_iff_left]
  · rfl
  · intro hmem
    obtain ⟨state, -, rfl⟩ := List.mem_map.mp hmem
    exact hkind rfl

end Returns

/-! ## Double releases and uses -/

section Meaning

variable [DecidableEq A] [DecidableEq B] [DecidableEq I] (F : LifetimeFunction A B I)
  (ctx : LifetimeContext)

/-- Every double release and every use after a release that is reported has a path. -/
structure PathMeaning : Prop where
  doubleRelease : ∀ issue ∈ analyzeFunctionLifetime F ctx, issue.kind = .doubleRelease →
    DoubleReleasePath F ctx (issue.storage, issue.resourceKind)
  useAfterRelease : ∀ issue ∈ analyzeFunctionLifetime F ctx, issue.kind = .useAfterRelease →
    ∀ i, issue.inst = some i → UsePath F ctx (issue.storage, issue.resourceKind) i

/-- The counts in block order follow the paths:
* where a slot is released and has been released as often as it was acquired before, some path
  releases it twice, unless nothing was acquired and the release is suppressed,
* where a slot is accessed and an earlier release of a handle that was acquired may reach the
  access, some path releases the handle and then comes to the access; of several handles of the slot
  this is said of the first, and of several accesses on a line of the first. -/
structure CountsFollowPaths : Prop where
  doubleRelease : ∀ localAlloca offset resourceKind,
    AtSome (fun before event => ∃ i fromSummary,
      event = (i, .release (.localSlot localAlloca offset) resourceKind fromSummary) ∧
      acquireCount (.localSlot localAlloca offset, resourceKind) before ≤
        releaseCount (.localSlot localAlloca offset, resourceKind) before ∧
      (acquireCount (.localSlot localAlloca offset, resourceKind) before = 0 →
        releaseSuppression F localAlloca offset fromSummary = none)) (allEvents F ctx) →
    DoubleReleasePath F ctx (.localSlot localAlloca offset, resourceKind)
  useAfterRelease : ∀ i localAlloca offset h,
    AtSome (fun before event => event = (i, .access (.localSlot localAlloca offset)) ∧
      firstReleasedUse F before (.localSlot localAlloca offset) i = some h ∧
      ¬ AtSome (IsUse F (F.dedupKey (.localSlot localAlloca offset) i)) before)
      (allEvents F ctx) →
    UsePath F ctx h i

omit [DecidableEq B] in
/-- The handle of a reported use has the storage that is accessed. -/
theorem storage_of_firstReleasedUse {before : List (I × Event A)} {storage : StorageKey A} {i : I}
    {h : Handle A} (hfirst : firstReleasedUse F before storage i = some h) : h.1 = storage := by
  have hreleased := List.find?_some
    (p := fun h => decide (IsReleasedUse F before storage i h)) hfirst
  exact (of_decide_eq_true hreleased).1

end Meaning

/-- Every path does to `p` the beginning of an acquire and a release. -/
theorem effects_freeOnBranches {i : Fin 7} {t : List (Fin 7)}
    (h : freeOnBranches.cfg.TraceBefore freeOnBranches.cfg.completed i t) :
    freeOnBranches.effects heapModel (slotP, "HeapAlloc".toList) (t ++ [i]) <+:
      [.acquire, .release] := by
  rcases traceBefore_branch h with hbegin | hbegin
  · exact effects_mono freeOnBranches heapModel _ hbegin
  · exact effects_mono freeOnBranches heapModel _ hbegin

section Leaks

variable [DecidableEq A] [DecidableEq B] [DecidableEq I] (F : LifetimeFunction A B I)
  (ctx : LifetimeContext)

/-- A slot that is returned, or whose address is passed to an unmodeled call. -/
def Escapes (localAlloca : A) : Prop :=
  F.addressEscapesToUnmodeledCall localAlloca = true ∨
    ∃ i ∈ F.instructions, ∃ returned retSlot, (F.inst i).ret = some (some (returned, retSlot)) ∧
      ((∃ offset, returned = .localSlot localAlloca offset) ∨
        ∃ slot, retSlot = some slot ∧ F.mayStoreValueFrom slot localAlloca = true)

/-- A leak of a handle is reported. -/
def ReportsMissingRelease (h : Handle A) : Prop :=
  ∃ issue ∈ analyzeFunctionLifetime F ctx, issue.kind = .missingRelease ∧
    issue.storage = h.1 ∧ issue.resourceKind = h.2

omit [DecidableEq B] in
/-- The returns mark no state of a slot that does not escape, and change nothing else of it. -/
theorem find_foldl_trackReturn {localAlloca : A} {offset : ℕ} (resourceKind : CppString)
    (instructions : List I)
    (hescapes : ∀ i ∈ instructions, ∀ returned retSlot,
      (F.inst i).ret = some (some (returned, retSlot)) → ∀ state : LocalHandleState A I,
        state.storage = .localSlot localAlloca offset →
          returnsHandle F returned retSlot state = false)
    (tracker : Tracker A I)
    (hkey : ∀ state, tracker.localStates.find (.localSlot localAlloca offset, resourceKind) =
      some state → state.storage = .localSlot localAlloca offset) :
    (instructions.foldl (trackReturn F) tracker).localStates.find
        (.localSlot localAlloca offset, resourceKind) =
      tracker.localStates.find (.localSlot localAlloca offset, resourceKind) := by
  induction instructions generalizing tracker with
  | nil => rfl
  | cons i instructions ih =>
    have hrest := fun j hj => hescapes j (List.mem_cons_of_mem i hj)
    -- a return changes no state of the slot
    have hstep : (trackReturn F tracker i).localStates.find
        (.localSlot localAlloca offset, resourceKind) =
        tracker.localStates.find (.localSlot localAlloca offset, resourceKind) := by
      unfold trackReturn
      cases hret : (F.inst i).ret with
      | none => rfl
      | some value =>
        cases value with
        | none => rfl
        | some value =>
          obtain ⟨returned, retSlot⟩ := value
          dsimp only
          rw [EntryMap.find_mapValues, localStates_reportUseAfterRelease]
          cases hfind : tracker.localStates.find (.localSlot localAlloca offset, resourceKind) with
          | none => rfl
          | some state =>
            have hnot := hescapes i List.mem_cons_self returned retSlot hret state
              (hkey state hfind)
            rw [Option.map_some, markEscape, if_neg (by simp [hnot])]
    rw [List.foldl_cons, ih hrest (trackReturn F tracker i) (by rw [hstep]; exact hkey), hstep]

omit [DecidableEq B] in
/-- No event reports a leak. -/
theorem kind_ne_missingRelease (events : List (I × Event A)) :
    ∀ issue ∈ (events.foldl (trackEvent F) {}).issues, issue.kind ≠ .missingRelease := by
  induction events using List.reverseRecOn with
  | nil => exact fun issue hmem => absurd hmem List.not_mem_nil
  | append_singleton events event ih =>
    rw [List.foldl_append, List.foldl_cons, List.foldl_nil]
    generalize events.foldl (trackEvent F) {} = tracker at ih ⊢
    have hnew : ∀ x : ResourceLifetimeIssue A I, x.kind ≠ .missingRelease →
        ∀ issue ∈ tracker.issues ++ [x], issue.kind ≠ .missingRelease := by
      intro x hx issue hmem
      rcases List.mem_append.mp hmem with hold | hlast
      · exact ih issue hold
      · rw [List.mem_singleton.mp hlast]
        exact hx
    obtain ⟨i, event⟩ := event
    cases event with
    | access storage =>
      cases storage with
      | localSlot localAlloca offset =>
        show ∀ issue ∈ ((tracker.localStates.entries.map Prod.snd).foldl
          (reportUse F localAlloca offset i) tracker).issues, _
        rw [foldl_reportUse]
        split_ifs
        · exact ih
        · split
          · exact ih
          · exact hnew _ (by simp)
      | _ => exact ih
    | acquire storage resourceKind =>
      unfold trackEvent trackAcquire
      dsimp only
      split_ifs <;> exact ih
    | release storage resourceKind fromSummary =>
      cases storage with
      | localSlot localAlloca offset =>
        unfold trackEvent trackRelease
        dsimp only
        split
        · exact ih
        · split
          · exact ih
          · split_ifs
            · exact ih
            · exact hnew _ (by simp)
          · exact hnew _ (by simp)
      | _ => exact ih
    | releasedEscape owner resourceKind =>
      unfold trackEvent reportReleasedHandleEscapesIfNeeded
      dsimp only
      split_ifs
      · exact ih
      · exact hnew _ (by simp)

omit [DecidableEq B] in
/-- The returns keep the handle of every state. -/
theorem key_foldl_trackReturn (instructions : List I) (tracker : Tracker A I)
    (hkey : ∀ h state, tracker.localStates.find h = some state →
      state.storage = h.1 ∧ state.resourceKind = h.2) :
    ∀ h state, (instructions.foldl (trackReturn F) tracker).localStates.find h = some state →
      state.storage = h.1 ∧ state.resourceKind = h.2 := by
  induction instructions generalizing tracker with
  | nil => exact hkey
  | cons i instructions ih =>
    refine ih (trackReturn F tracker i) fun h state hfind => ?_
    unfold trackReturn at hfind
    cases hret : (F.inst i).ret with
    | none => exact hkey h state (by simpa [hret] using hfind)
    | some value =>
      cases value with
      | none => exact hkey h state (by simpa [hret] using hfind)
      | some value =>
        obtain ⟨returned, retSlot⟩ := value
        simp only [hret] at hfind
        rw [EntryMap.find_mapValues, localStates_reportUseAfterRelease] at hfind
        obtain ⟨old, hold, rfl⟩ := Option.map_eq_some_iff.mp hfind
        have hold := hkey h old hold
        unfold markEscape
        split_ifs
        · exact hold
        · exact hold

omit [DecidableEq B] in
/-- A leak is reported exactly when the state of its handle is one of a leak. -/
theorem reportsMissingRelease_iff (h : Handle A) :
    ReportsMissingRelease F ctx h ↔
      ∃ state, (F.instructions.foldl (trackReturn F) (trackFunction F ctx)).localStates.find h =
        some state ∧ isMissingRelease F state = true := by
  have hkey := key_foldl_trackReturn F F.instructions (trackFunction F ctx) fun h state hfind =>
    ⟨((follows_foldl F (F.events ctx)).key h state hfind).1,
      ((follows_foldl F (F.events ctx)).key h state hfind).2.1⟩
  have hsame := sameReports_foldl_trackReturn F F.instructions
    (SameReports.refl (trackFunction F ctx))
  have hkinds := kind_ne_missingRelease F (allEvents F ctx)
  unfold allEvents at hkinds
  rw [List.foldl_append] at hkinds
  constructor
  · rintro ⟨issue, hmem, hkind, hstorage, hres⟩
    unfold analyzeFunctionLifetime at hmem
    dsimp only at hmem
    rcases List.mem_append.mp hmem with hmem | hmem
    · rw [hsame.issues] at hmem
      exact absurd hkind (hkinds issue hmem)
    · obtain ⟨state, hstate, rfl⟩ := List.mem_map.mp hmem
      obtain ⟨hstate, hmissing⟩ := List.mem_filter.mp hstate
      obtain ⟨⟨h', state'⟩, hentry, rfl⟩ := List.mem_map.mp hstate
      have hfind := EntryMap.find_eq_some_iff.mpr hentry
      obtain ⟨hs, hk⟩ := hkey h' state' hfind
      have hh : h' = h := Prod.ext (hs.symm.trans hstorage) (hk.symm.trans hres)
      exact ⟨state', hh ▸ hfind, hmissing⟩
  · rintro ⟨state, hfind, hmissing⟩
    obtain ⟨hs, hk⟩ := hkey h state hfind
    refine ⟨missingReleaseIssue F state, ?_, rfl, hs, hk⟩
    unfold analyzeFunctionLifetime
    refine List.mem_append_right _ (List.mem_map.mpr ⟨state, ?_, rfl⟩)
    refine List.mem_filter.mpr ⟨List.mem_map.mpr ⟨(h, state), ?_, rfl⟩, hmissing⟩
    exact EntryMap.find_eq_some_iff.mp hfind

omit [DecidableEq B] in
/-- **The reported leaks** of slots that do not escape: they are acquired more often than they are
released. -/
theorem reportsMissingRelease_iff_counts {localAlloca : A} (hescapes : ¬ Escapes F localAlloca)
    (offset : ℕ) (resourceKind : CppString) :
    ReportsMissingRelease F ctx (.localSlot localAlloca offset, resourceKind) ↔
      releaseCount (.localSlot localAlloca offset, resourceKind) (F.events ctx) <
        acquireCount (.localSlot localAlloca offset, resourceKind) (F.events ctx) := by
  have hf := follows_foldl F (F.events ctx)
  obtain ⟨haddress, hreturn⟩ := not_or.mp hescapes
  have hnot : ∀ i ∈ F.instructions, ∀ returned retSlot,
      (F.inst i).ret = some (some (returned, retSlot)) → ∀ state : LocalHandleState A I,
        state.storage = .localSlot localAlloca offset →
          returnsHandle F returned retSlot state = false := by
    intro i hi returned retSlot hret state hstorage
    by_contra hreturns
    refine hreturn ⟨i, hi, returned, retSlot, hret, ?_⟩
    unfold returnsHandle at hreturns
    rw [hstorage] at hreturns
    simp only [Bool.not_eq_false, Bool.or_eq_true] at hreturns
    rcases hreturns with hsame | hslot
    · cases returned with
      | localSlot returnedAlloca returnedOffset =>
        exact Or.inl ⟨returnedOffset, by rw [of_decide_eq_true hsame]⟩
      | _ => exact absurd hsame Bool.false_ne_true
    · cases retSlot with
      | none => exact absurd hslot Bool.false_ne_true
      | some slot => exact Or.inr ⟨slot, rfl, hslot⟩
  rw [reportsMissingRelease_iff]
  have hfind := find_foldl_trackReturn F resourceKind F.instructions hnot
    (trackFunction F ctx) fun state hstate => (hf.key _ state hstate).1
  rw [hfind]
  constructor
  · rintro ⟨state, hstate, hmissing⟩
    obtain ⟨hs, -, -, -⟩ := hf.key _ state hstate
    obtain ⟨ha, hr, -⟩ := hf.present _ localAlloca offset state rfl hstate
    unfold isMissingRelease at hmissing
    have hs' : state.storage = .localSlot localAlloca offset := hs
    simp only [hs', Bool.and_eq_true, decide_eq_true_eq] at hmissing
    rw [← ha, ← hr]
    exact hmissing.1.1.2
  · intro hlt
    cases hstate : (trackFunction F ctx).localStates.find
        (.localSlot localAlloca offset, resourceKind) with
    | none =>
      obtain ⟨ha, -⟩ := hf.absent _ localAlloca offset rfl hstate
      omega
    | some state =>
      obtain ⟨hs, -, -, he⟩ := hf.key _ state hstate
      obtain ⟨ha, hr, -⟩ := hf.present _ localAlloca offset state rfl hstate
      refine ⟨state, rfl, ?_⟩
      unfold isMissingRelease
      have hs' : state.storage = .localSlot localAlloca offset := hs
      simp only [hs', he, ha, hr, Bool.and_eq_true, decide_eq_true_eq, Bool.not_eq_true',
        Bool.not_false, and_true]
      exact ⟨⟨by omega, hlt⟩, eq_false_of_ne_true haddress⟩

end Leaks

/-- The slot does not escape if no return has a value. -/
theorem not_escapes_branchFunction {first left right last : List (Fin 7)}
    {inst : Fin 7 → Instruction Unit}
    {nodup : ([0, 1, 2, 3].flatMap (branch first left right last).instructions).Nodup}
    (hvoid : ∀ i, (inst i).ret.join = none) :
    ¬ Escapes (branchFunction first left right last inst nodup) () := by
  rintro (haddress | ⟨i, -, returned, retSlot, hret, -⟩)
  · exact absurd haddress Bool.false_ne_true
  · have hjoin := hvoid i
    rw [show (inst i).ret = _ from hret] at hjoin
    exact absurd hjoin (by simp)

end StackAnalyzer.Resource
