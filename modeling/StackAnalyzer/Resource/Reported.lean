import StackAnalyzer.Lists.Enumerations
import StackAnalyzer.Resource.Tracking

set_option relaxedAutoImplicit false
set_option autoImplicit false

/-!
# Which releases and uses are reported

The issues of a run of events, in terms of the events alone: a release is reported by the numbers of
acquires and releases before it, and an access by the releases before it that may reach it, unless
the slot has been reported on the same line.

## Main definitions

* `StackAnalyzer.Resource.IsDoubleRelease` — a release that is reported.
* `StackAnalyzer.Resource.IsReleasedUse`, `StackAnalyzer.Resource.firstReleasedUse`,
  `StackAnalyzer.Resource.IsReportedUse` — an access that is reported.

## Main results

* `StackAnalyzer.Resource.doubleRelease_mem_iff`, `StackAnalyzer.Resource.useAfterRelease_mem_iff` —
  the reported releases and uses.
-/

namespace StackAnalyzer.Resource

open CrossTU Maps Graph Enumerations

variable {A B I : Type*} [DecidableEq A] [DecidableEq I] (F : LifetimeFunction A B I)

/-! ## Reported double releases -/

/-- A release that is reported after some events: the handle has been released as often as it was
acquired, and if it was never acquired nothing suppresses the report. -/
def IsDoubleRelease (before : List (I × Event A)) (event : I × Event A)
    (issue : ResourceLifetimeIssue A I) : Prop :=
  ∃ i localAlloca offset resourceKind fromSummary,
    event = (i, .release (.localSlot localAlloca offset) resourceKind fromSummary) ∧
    acquireCount (.localSlot localAlloca offset, resourceKind) before ≤
      releaseCount (.localSlot localAlloca offset, resourceKind) before ∧
    (acquireCount (.localSlot localAlloca offset, resourceKind) before = 0 →
      releaseSuppression F localAlloca offset fromSummary = none) ∧
    issue = ⟨F.name, resourceKind, F.displayName localAlloca offset, some i, .doubleRelease,
      .localSlot localAlloca offset⟩

/-- Reporting uses reports no double release. -/
theorem doubleRelease_mem_reportUse (tracker : Tracker A I) (localAlloca : A) (offset : ℕ) (i : I)
    (state : LocalHandleState A I) (issue : ResourceLifetimeIssue A I)
    (hkind : issue.kind ≠ .useAfterRelease) :
    issue ∈ (reportUse F localAlloca offset i tracker state).issues ↔ issue ∈ tracker.issues := by
  unfold reportUse
  dsimp only
  split_ifs
  · rfl
  · rw [List.mem_append, List.mem_singleton, or_iff_left]
    rintro rfl
    exact hkind rfl
  · rfl

theorem doubleRelease_mem_reportUseAfterRelease (tracker : Tracker A I) (storage : StorageKey A)
    (i : I) (issue : ResourceLifetimeIssue A I) (hkind : issue.kind ≠ .useAfterRelease) :
    issue ∈ (reportUseAfterReleaseIfNeeded F tracker storage i).issues ↔
      issue ∈ tracker.issues := by
  cases storage with
  | localSlot localAlloca offset =>
    unfold reportUseAfterReleaseIfNeeded
    dsimp only
    generalize tracker.localStates.entries.map Prod.snd = states
    induction states generalizing tracker with
    | nil => rfl
    | cons state states ih =>
      rw [List.foldl_cons, ih, doubleRelease_mem_reportUse F tracker _ _ _ _ _ hkind]
  | _ => rfl

omit [DecidableEq I] in
/-- What a release of a slot reports as a double release. -/
theorem doubleRelease_mem_trackRelease {events : List (I × Event A)} {tracker : Tracker A I}
    (hf : Follows events tracker.localStates) (localAlloca : A) (offset : ℕ)
    (resourceKind : CppString) (i : I) (fromSummary : Bool) (issue : ResourceLifetimeIssue A I)
    (hkind : issue.kind = .doubleRelease) :
    issue ∈ (trackRelease F tracker (.localSlot localAlloca offset) resourceKind i
        fromSummary).issues ↔
      issue ∈ tracker.issues ∨ IsDoubleRelease F events
        (i, .release (.localSlot localAlloca offset) resourceKind fromSummary) issue := by
  obtain ⟨ha, hr, -⟩ := hf.getD (h := (.localSlot localAlloca offset, resourceKind)) rfl
  have hreport : IsDoubleRelease F events
      (i, .release (.localSlot localAlloca offset) resourceKind fromSummary) issue ↔
      acquireCount (.localSlot localAlloca offset, resourceKind) events ≤
        releaseCount (.localSlot localAlloca offset, resourceKind) events ∧
      (acquireCount (.localSlot localAlloca offset, resourceKind) events = 0 →
        releaseSuppression F localAlloca offset fromSummary = none) ∧
      issue = ⟨F.name, resourceKind, F.displayName localAlloca offset, some i, .doubleRelease,
        .localSlot localAlloca offset⟩ := by
    constructor
    · rintro ⟨i', localAlloca', offset', resourceKind', fromSummary', heq, hle, hsup, hissue⟩
      simp only [Prod.mk.injEq, Event.release.injEq, StorageKey.localSlot.injEq] at heq
      obtain ⟨rfl, ⟨rfl, rfl⟩, rfl, rfl⟩ := heq
      exact ⟨hle, hsup, hissue⟩
    · rintro ⟨hle, hsup, hissue⟩
      exact ⟨i, localAlloca, offset, resourceKind, fromSummary, rfl, hle, hsup, hissue⟩
  rw [hreport]
  unfold trackRelease
  simp only [LocalHandleState.release, ha, hr]
  by_cases hle : releaseCount (.localSlot localAlloca offset, resourceKind) events + 1 ≤
      acquireCount (.localSlot localAlloca offset, resourceKind) events
  · rw [if_pos hle, or_iff_left]
    rintro ⟨hmore, -⟩
    omega
  · rw [if_neg hle]
    have hmore : acquireCount (.localSlot localAlloca offset, resourceKind) events ≤
        releaseCount (.localSlot localAlloca offset, resourceKind) events := by omega
    -- the report that is suppressed has another kind
    have hother : ∀ x : ResourceLifetimeIssue A I, x.kind = .incompleteInterproc → issue ≠ x := by
      rintro x hx rfl
      rw [hkind] at hx
      exact absurd hx (by decide)
    by_cases hzero : acquireCount (.localSlot localAlloca offset, resourceKind) events = 0
    · rw [if_pos hzero]
      cases hsup : releaseSuppression F localAlloca offset fromSummary with
      | none =>
        simp only [List.mem_append, List.mem_singleton]
        exact or_congr_right ⟨fun h => ⟨hmore, fun _ => trivial, h⟩, fun h => h.2.2⟩
      | some suppression =>
        have hnot : ¬ (acquireCount (.localSlot localAlloca offset, resourceKind) events ≤
            releaseCount (.localSlot localAlloca offset, resourceKind) events ∧
            (acquireCount (.localSlot localAlloca offset, resourceKind) events = 0 →
              some suppression = none) ∧
            issue = ⟨F.name, resourceKind, F.displayName localAlloca offset, some i,
              .doubleRelease, .localSlot localAlloca offset⟩) :=
          fun h => absurd (h.2.1 hzero) (Option.some_ne_none _)
        rw [or_iff_left hnot]
        cases suppression with
        | argumentShadow => rfl
        | incompleteInterproc =>
          have hnew : ∀ x : ResourceLifetimeIssue A I, x.kind = .incompleteInterproc →
              (issue ∈ tracker.issues ++ [x] ↔ issue ∈ tracker.issues) := fun x hx => by
            rw [List.mem_append, List.mem_singleton, or_iff_left (hother x hx)]
          dsimp only
          split_ifs <;> first | rfl | exact hnew _ rfl
    · rw [if_neg hzero]
      simp only [List.mem_append, List.mem_singleton]
      exact or_congr_right ⟨fun h => ⟨hmore, fun hz => absurd hz hzero, h⟩, fun h => h.2.2⟩

/-- What one event reports as a double release. -/
theorem doubleRelease_mem_trackEvent {events : List (I × Event A)} {tracker : Tracker A I}
    (hf : Follows events tracker.localStates) (event : I × Event A)
    (issue : ResourceLifetimeIssue A I) (hkind : issue.kind = .doubleRelease) :
    issue ∈ (trackEvent F tracker event).issues ↔
      issue ∈ tracker.issues ∨ IsDoubleRelease F events event issue := by
  obtain ⟨i, event⟩ := event
  cases event with
  | access storage =>
    have hnone : ¬ IsDoubleRelease F events (i, .access storage) issue := by
      rintro ⟨_, _, _, _, _, heq, -⟩
      simp at heq
    rw [or_iff_left hnone]
    exact doubleRelease_mem_reportUseAfterRelease F tracker storage i issue
      (by rw [hkind]; decide)
  | acquire storage resourceKind =>
    have hnone : ¬ IsDoubleRelease F events (i, .acquire storage resourceKind) issue := by
      rintro ⟨_, _, _, _, _, heq, -⟩
      simp at heq
    rw [or_iff_left hnone]
    unfold trackEvent trackAcquire
    dsimp only
    split_ifs <;> rfl
  | release storage resourceKind fromSummary =>
    cases storage with
    | localSlot localAlloca offset =>
      exact doubleRelease_mem_trackRelease F hf localAlloca offset resourceKind i fromSummary issue
        hkind
    | _ =>
      refine (or_iff_left ?_).symm
      rintro ⟨_, _, _, _, _, heq, -⟩
      simp at heq
  | releasedEscape owner resourceKind =>
    have hnone : ¬ IsDoubleRelease F events (i, .releasedEscape owner resourceKind) issue := by
      rintro ⟨_, _, _, _, _, heq, -⟩
      simp at heq
    rw [or_iff_left hnone]
    unfold trackEvent reportReleasedHandleEscapesIfNeeded
    dsimp only
    split_ifs
    · rfl
    · rw [List.mem_append, List.mem_singleton, or_iff_left]
      rintro rfl
      simp at hkind

/-- **The reported double releases** of a run of events. -/
theorem doubleRelease_mem_iff (events : List (I × Event A)) (issue : ResourceLifetimeIssue A I)
    (hkind : issue.kind = .doubleRelease) :
    issue ∈ (events.foldl (trackEvent F) {}).issues ↔
      AtSome (fun before event => IsDoubleRelease F before event issue) events := by
  induction events using List.reverseRecOn with
  | nil => exact iff_of_false List.not_mem_nil (not_atSome_nil _)
  | append_singleton events event ih =>
    rw [List.foldl_append, List.foldl_cons, List.foldl_nil, atSome_append_singleton, ← ih]
    exact doubleRelease_mem_trackEvent F (follows_foldl F events) event issue hkind

/-! ## Reported uses -/

/-- The handle whose state an event changes. -/
def Event.tracked : Event A → Option (Handle A)
  | .acquire storage resourceKind =>
    if storage = .unknown then none else some (storage, resourceKind)
  | .release (.localSlot localAlloca offset) resourceKind _ =>
    some (.localSlot localAlloca offset, resourceKind)
  | _ => none

/-- The handles of some events, in the order in which they are first seen. -/
def handlesOf (events : List (I × Event A)) : List (Handle A) :=
  events.foldl (fun handles event =>
    match event.2.tracked with
    | none => handles
    | some h => if h ∈ handles then handles else handles ++ [h]) []

/-- After some events, an instruction uses a handle that an earlier release may reach. -/
def IsReleasedUse (before : List (I × Event A)) (storage : StorageKey A) (i : I)
    (h : Handle A) : Prop :=
  h.1 = storage ∧ 0 < acquireCount h before ∧ 0 < releaseCount h before ∧
    ∃ r ∈ releasingInsts h before, F.instructionMayReach r i = true

instance (before : List (I × Event A)) (storage : StorageKey A) (i : I) (h : Handle A) :
    Decidable (IsReleasedUse F before storage i h) :=
  inferInstanceAs (Decidable (_ ∧ _ ∧ _ ∧ ∃ r ∈ _, _))

/-- The first handle of which this is true. -/
def firstReleasedUse (before : List (I × Event A)) (storage : StorageKey A) (i : I) :
    Option (Handle A) :=
  (handlesOf before).find? fun h => decide (IsReleasedUse F before storage i h)

/-- An access of a slot that is a use of a released handle, with the key that it is reported by. -/
def IsUse (key : StorageKey A × Anchor I) (before : List (I × Event A)) (event : I × Event A) :
    Prop :=
  ∃ i localAlloca offset, event = (i, .access (.localSlot localAlloca offset)) ∧
    F.dedupKey (.localSlot localAlloca offset) i = key ∧
    (firstReleasedUse F before (.localSlot localAlloca offset) i).isSome = true

/-- An access that is reported after some events: there is a first handle, and no earlier use of the
slot on this line. -/
def IsReportedUse (before : List (I × Event A)) (event : I × Event A)
    (issue : ResourceLifetimeIssue A I) : Prop :=
  ∃ i localAlloca offset h, event = (i, .access (.localSlot localAlloca offset)) ∧
    firstReleasedUse F before (.localSlot localAlloca offset) i = some h ∧
    ¬ AtSome (IsUse F (F.dedupKey (.localSlot localAlloca offset) i)) before ∧
    issue = ⟨F.name, h.2, F.displayName localAlloca offset, some i, .useAfterRelease,
      .localSlot localAlloca offset⟩

/-- The loop over the states reports the first one that passes the tests, unless its key is
known. -/
theorem foldl_reportUse (localAlloca : A) (offset : ℕ) (i : I)
    (states : List (LocalHandleState A I)) (tracker : Tracker A I) :
    states.foldl (reportUse F localAlloca offset i) tracker =
      if F.dedupKey (.localSlot localAlloca offset) i ∈ tracker.useAfterReleaseReported then
        tracker
      else
        match states.find? (isUseAfterRelease F (.localSlot localAlloca offset) i) with
        | none => tracker
        | some state =>
          { tracker with
            useAfterReleaseReported :=
              F.dedupKey (.localSlot localAlloca offset) i :: tracker.useAfterReleaseReported
            issues := tracker.issues ++ [⟨F.name, state.resourceKind,
              F.displayName localAlloca offset, some i, .useAfterRelease,
              .localSlot localAlloca offset⟩] } := by
  induction states generalizing tracker with
  | nil => split_ifs <;> rfl
  | cons state states ih =>
    rw [List.foldl_cons, ih, List.find?_cons]
    by_cases htest : isUseAfterRelease F (.localSlot localAlloca offset) i state = true
    · by_cases hknown : F.dedupKey (.localSlot localAlloca offset) i ∈
          tracker.useAfterReleaseReported
      · have hstep : reportUse F localAlloca offset i tracker state = tracker := by
          rw [reportUse, if_pos htest, if_pos hknown]
        rw [hstep, if_pos hknown, if_pos hknown]
      · have hstep : reportUse F localAlloca offset i tracker state =
            { tracker with
              useAfterReleaseReported :=
                F.dedupKey (.localSlot localAlloca offset) i :: tracker.useAfterReleaseReported
              issues := tracker.issues ++ [⟨F.name, state.resourceKind,
                F.displayName localAlloca offset, some i, .useAfterRelease,
                .localSlot localAlloca offset⟩] } := by
          rw [reportUse, if_pos htest, if_neg hknown]
        rw [hstep, if_pos List.mem_cons_self, if_neg hknown, htest]
    · have hstep : reportUse F localAlloca offset i tracker state = tracker := by
        rw [reportUse, if_neg htest]
      rw [hstep, eq_false_of_ne_true htest]

/-- The keys of the states are the handles of the events. -/
theorem keys_foldl (events : List (I × Event A)) :
    (events.foldl (trackEvent F) {}).localStates.entries.map Prod.fst = handlesOf events := by
  induction events using List.reverseRecOn with
  | nil => rfl
  | append_singleton events event ih =>
    rw [List.foldl_append, List.foldl_cons, List.foldl_nil, handlesOf, List.foldl_append,
      List.foldl_cons, List.foldl_nil]
    change _ = match event.2.tracked with
      | none => handlesOf events
      | some h => if h ∈ handlesOf events then handlesOf events else handlesOf events ++ [h]
    rw [← ih]
    obtain ⟨i, event⟩ := event
    generalize events.foldl (trackEvent F) {} = tracker
    cases event with
    | access storage =>
      exact congrArg (fun m : EntryMap (Handle A) (LocalHandleState A I) => m.entries.map Prod.fst)
        (localStates_reportUseAfterRelease F tracker storage i)
    | acquire storage resourceKind =>
      unfold trackEvent trackAcquire Event.tracked
      dsimp only
      by_cases hstorage : storage = .unknown
      · rw [if_pos hstorage, if_pos hstorage]
      · rw [if_neg hstorage, if_neg hstorage]
        refine (EntryMap.keys_assign tracker.localStates (storage, resourceKind) _).trans ?_
        dsimp only
        split_ifs <;> rfl
    | release storage resourceKind fromSummary =>
      cases storage with
      | localSlot localAlloca offset =>
        refine Eq.trans (congrArg (fun m : EntryMap (Handle A) (LocalHandleState A I) =>
          m.entries.map Prod.fst) (localStates_trackRelease F tracker localAlloca offset
            resourceKind i fromSummary)) ?_
        refine (EntryMap.keys_assign tracker.localStates
          (.localSlot localAlloca offset, resourceKind) _).trans ?_
        unfold Event.tracked
        dsimp only
        split_ifs <;> rfl
      | _ => rfl
    | releasedEscape owner resourceKind =>
      unfold trackEvent reportReleasedHandleEscapesIfNeeded Event.tracked
      dsimp only
      split_ifs <;> rfl

/-- A state passes the tests exactly when its handle is used after a release. -/
theorem isUseAfterRelease_iff {events : List (I × Event A)}
    {localStates : EntryMap (Handle A) (LocalHandleState A I)} (hf : Follows events localStates)
    {h : Handle A} {state : LocalHandleState A I} (hfind : localStates.find h = some state)
    (localAlloca : A) (offset : ℕ) (i : I) :
    isUseAfterRelease F (.localSlot localAlloca offset) i state = true ↔
      IsReleasedUse F events (.localSlot localAlloca offset) i h := by
  obtain ⟨hstorage, -, -⟩ := hf.key h state hfind
  unfold isUseAfterRelease IsReleasedUse
  by_cases hlocal : h.1 = .localSlot localAlloca offset
  · obtain ⟨ha, hr, hi⟩ := hf.present h localAlloca offset state hlocal hfind
    rw [hstorage, ha, hr, hi]
    simp [hlocal, and_assoc]
  · simp [hstorage, hlocal]

/-- **The first state that passes the tests** belongs to the first handle that is used after a
release. -/
theorem find_states {events : List (I × Event A)}
    {localStates : EntryMap (Handle A) (LocalHandleState A I)} (hf : Follows events localStates)
    (hkeys : localStates.entries.map Prod.fst = handlesOf events) (localAlloca : A) (offset : ℕ)
    (i : I) :
    ((localStates.entries.map Prod.snd).find?
        (isUseAfterRelease F (.localSlot localAlloca offset) i)).map
        LocalHandleState.resourceKind =
      (firstReleasedUse F events (.localSlot localAlloca offset) i).map Prod.snd := by
  rw [firstReleasedUse, ← hkeys, List.find?_map, List.find?_map, Option.map_map, Option.map_map]
  have hsame : ∀ e ∈ localStates.entries,
      (isUseAfterRelease F (.localSlot localAlloca offset) i ∘ Prod.snd) e =
        ((fun h => decide (IsReleasedUse F events (.localSlot localAlloca offset) i h)) ∘
          Prod.fst) e := by
    intro e he
    have hiff := isUseAfterRelease_iff F hf (EntryMap.find_eq_some_iff.mpr he) localAlloca offset i
    simp only [Function.comp_apply]
    rw [Bool.eq_iff_iff, hiff, decide_eq_true_iff]
  have hkind : ∀ e ∈ localStates.entries, e.2.resourceKind = e.1.2 := fun e he =>
    (hf.key e.1 e.2 (EntryMap.find_eq_some_iff.mpr he)).2.1
  generalize localStates.entries = entries at hsame hkind
  induction entries with
  | nil => rfl
  | cons e es ih =>
    rw [List.find?_cons, List.find?_cons, hsame e List.mem_cons_self]
    generalize ((fun h => decide (IsReleasedUse F events (.localSlot localAlloca offset) i h)) ∘
      Prod.fst) e = passes
    cases passes with
    | true => exact congrArg some (hkind e List.mem_cons_self)
    | false =>
      exact ih (fun e he => hsame e (List.mem_cons_of_mem _ he)) fun e he =>
        hkind e (List.mem_cons_of_mem _ he)

/-- What is known of the keys of the reported uses after some events. -/
def KeysKnown (events : List (I × Event A)) (tracker : Tracker A I) : Prop :=
  ∀ key, key ∈ tracker.useAfterReleaseReported ↔ AtSome (IsUse F key) events

/-- An access that is no use is passed over. -/
theorem not_isUse_of_tracked (key : StorageKey A × Anchor I) (before : List (I × Event A))
    {event : I × Event A}
    (h : ∀ i localAlloca offset, event ≠ (i, .access (.localSlot localAlloca offset))) :
    ¬ IsUse F key before event := by
  rintro ⟨i, localAlloca, offset, heq, -⟩
  exact h i localAlloca offset heq

/-- What an access of a slot reports. -/
theorem reportUseAfterRelease_eq (tracker : Tracker A I) {events : List (I × Event A)}
    (hf : Follows events tracker.localStates)
    (hkeys : tracker.localStates.entries.map Prod.fst = handlesOf events)
    (localAlloca : A) (offset : ℕ) (i : I) :
    reportUseAfterReleaseIfNeeded F tracker (.localSlot localAlloca offset) i =
      if F.dedupKey (.localSlot localAlloca offset) i ∈ tracker.useAfterReleaseReported then
        tracker
      else
        match firstReleasedUse F events (.localSlot localAlloca offset) i with
        | none => tracker
        | some h =>
          { tracker with
            useAfterReleaseReported :=
              F.dedupKey (.localSlot localAlloca offset) i :: tracker.useAfterReleaseReported
            issues := tracker.issues ++ [⟨F.name, h.2, F.displayName localAlloca offset, some i,
              .useAfterRelease, .localSlot localAlloca offset⟩] } := by
  have hfind := find_states F hf hkeys localAlloca offset i
  unfold reportUseAfterReleaseIfNeeded
  dsimp only
  rw [foldl_reportUse]
  split_ifs with hknown
  · rfl
  · cases hstate : (tracker.localStates.entries.map Prod.snd).find?
        (isUseAfterRelease F (.localSlot localAlloca offset) i) with
    | none =>
      rw [hstate, Option.map_none] at hfind
      rw [Option.map_eq_none_iff.mp hfind.symm]
    | some state =>
      rw [hstate, Option.map_some] at hfind
      obtain ⟨h, hh, hkind⟩ := Option.map_eq_some_iff.mp hfind.symm
      rw [hh]
      dsimp only
      rw [hkind]

/-- Other events report no use, and keep the keys. -/
theorem use_trackEvent_of_not_access (tracker : Tracker A I) {event : I × Event A}
    (h : ∀ i localAlloca offset, event ≠ (i, .access (.localSlot localAlloca offset)))
    (issue : ResourceLifetimeIssue A I) (hkind : issue.kind = .useAfterRelease) :
    (trackEvent F tracker event).useAfterReleaseReported = tracker.useAfterReleaseReported ∧
      (issue ∈ (trackEvent F tracker event).issues ↔ issue ∈ tracker.issues) := by
  have hnew : ∀ x : ResourceLifetimeIssue A I, x.kind ≠ .useAfterRelease →
      (issue ∈ tracker.issues ++ [x] ↔ issue ∈ tracker.issues) := fun x hx => by
    rw [List.mem_append, List.mem_singleton, or_iff_left]
    rintro rfl
    exact hx hkind
  obtain ⟨i, event⟩ := event
  cases event with
  | access storage =>
    cases storage with
    | localSlot localAlloca offset => exact absurd rfl (h i localAlloca offset)
    | _ => exact ⟨rfl, Iff.rfl⟩
  | acquire storage resourceKind =>
    unfold trackEvent trackAcquire
    dsimp only
    split_ifs <;> exact ⟨rfl, Iff.rfl⟩
  | release storage resourceKind fromSummary =>
    cases storage with
    | localSlot localAlloca offset =>
      unfold trackEvent trackRelease
      dsimp only
      split
      · exact ⟨rfl, Iff.rfl⟩
      · split
        · exact ⟨rfl, Iff.rfl⟩
        · split_ifs
          · exact ⟨rfl, Iff.rfl⟩
          · exact ⟨rfl, hnew _ (by simp)⟩
        · exact ⟨rfl, hnew _ (by simp)⟩
    | _ => exact ⟨rfl, Iff.rfl⟩
  | releasedEscape owner resourceKind =>
    unfold trackEvent reportReleasedHandleEscapesIfNeeded
    dsimp only
    split_ifs
    · exact ⟨rfl, Iff.rfl⟩
    · exact ⟨rfl, hnew _ (by simp)⟩

/-- What one event does to the keys, and which use it reports. -/
theorem use_trackEvent {events : List (I × Event A)} {tracker : Tracker A I}
    (hf : Follows events tracker.localStates)
    (hkeys : tracker.localStates.entries.map Prod.fst = handlesOf events)
    (hknown : KeysKnown F events tracker) (event : I × Event A)
    (issue : ResourceLifetimeIssue A I) (hkind : issue.kind = .useAfterRelease) :
    KeysKnown F (events ++ [event]) (trackEvent F tracker event) ∧
      (issue ∈ (trackEvent F tracker event).issues ↔
        issue ∈ tracker.issues ∨ IsReportedUse F events event issue) := by
  by_cases haccess : ∃ i localAlloca offset,
      event = (i, .access (.localSlot localAlloca offset))
  · obtain ⟨i, localAlloca, offset, rfl⟩ := haccess
    have hstep : trackEvent F tracker (i, .access (.localSlot localAlloca offset)) = _ :=
      reportUseAfterRelease_eq F tracker hf hkeys localAlloca offset i
    have huse : ∀ key, IsUse F key events (i, .access (.localSlot localAlloca offset)) ↔
        F.dedupKey (.localSlot localAlloca offset) i = key ∧
          (firstReleasedUse F events (.localSlot localAlloca offset) i).isSome = true := by
      intro key
      constructor
      · rintro ⟨i', localAlloca', offset', heq, hkey, hfirst⟩
        simp only [Prod.mk.injEq, Event.access.injEq, StorageKey.localSlot.injEq] at heq
        obtain ⟨rfl, rfl, rfl⟩ := heq
        exact ⟨hkey, hfirst⟩
      · rintro ⟨hkey, hfirst⟩
        exact ⟨i, localAlloca, offset, rfl, hkey, hfirst⟩
    have hreported : IsReportedUse F events (i, .access (.localSlot localAlloca offset)) issue ↔
        ∃ h, firstReleasedUse F events (.localSlot localAlloca offset) i = some h ∧
          F.dedupKey (.localSlot localAlloca offset) i ∉ tracker.useAfterReleaseReported ∧
          issue = ⟨F.name, h.2, F.displayName localAlloca offset, some i, .useAfterRelease,
            .localSlot localAlloca offset⟩ := by
      constructor
      · rintro ⟨i', localAlloca', offset', h, heq, hfirst, hnot, hissue⟩
        simp only [Prod.mk.injEq, Event.access.injEq, StorageKey.localSlot.injEq] at heq
        obtain ⟨rfl, rfl, rfl⟩ := heq
        exact ⟨h, hfirst, mt (hknown _).mp hnot, hissue⟩
      · rintro ⟨h, hfirst, hnot, hissue⟩
        exact ⟨i, localAlloca, offset, h, rfl, hfirst, mt (hknown _).mpr hnot, hissue⟩
    rw [hstep, hreported]
    by_cases hmem : F.dedupKey (.localSlot localAlloca offset) i ∈ tracker.useAfterReleaseReported
    · rw [if_pos hmem]
      refine ⟨fun key => ?_, (or_iff_left ?_).symm⟩
      · rw [atSome_append_singleton, huse, ← hknown key]
        refine (or_iff_left_of_imp ?_).symm
        rintro ⟨rfl, -⟩
        exact hmem
      · rintro ⟨h, -, hnot, -⟩
        exact hnot hmem
    · rw [if_neg hmem]
      cases hfirst : firstReleasedUse F events (.localSlot localAlloca offset) i with
      | none =>
        refine ⟨fun key => ?_, (or_iff_left ?_).symm⟩
        · rw [atSome_append_singleton, huse, hfirst, ← hknown key]
          simp
        · rintro ⟨h, heq, -⟩
          exact absurd heq.symm (Option.some_ne_none _)
      | some h =>
        refine ⟨fun key => ?_, ?_⟩
        · rw [atSome_append_singleton, huse, hfirst, ← hknown key]
          simp [or_comm, eq_comm]
        · rw [List.mem_append, List.mem_singleton]
          refine or_congr_right ⟨fun hissue => ⟨h, rfl, hmem, hissue⟩, ?_⟩
          rintro ⟨h', heq, -, hissue⟩
          rwa [Option.some.inj heq]
  · push Not at haccess
    obtain ⟨hreported, hissues⟩ := use_trackEvent_of_not_access F tracker haccess issue hkind
    have hnone : ¬ IsReportedUse F events event issue := by
      rintro ⟨i, localAlloca, offset, h, heq, -⟩
      exact haccess i localAlloca offset heq
    refine ⟨fun key => ?_, ?_⟩
    · rw [hreported, atSome_append_singleton, ← hknown key]
      exact (or_iff_left (not_isUse_of_tracked F key events haccess)).symm
    · rw [hissues, or_iff_left hnone]

/-- **The reported uses** of a run of events. -/
theorem useAfterRelease_mem_iff (events : List (I × Event A)) (issue : ResourceLifetimeIssue A I)
    (hkind : issue.kind = .useAfterRelease) :
    KeysKnown F events (events.foldl (trackEvent F) {}) ∧
      (issue ∈ (events.foldl (trackEvent F) {}).issues ↔
        AtSome (fun before event => IsReportedUse F before event issue) events) := by
  induction events using List.reverseRecOn with
  | nil =>
    exact ⟨fun key => iff_of_false List.not_mem_nil (not_atSome_nil _),
      iff_of_false List.not_mem_nil (not_atSome_nil _)⟩
  | append_singleton events event ih =>
    rw [List.foldl_append, List.foldl_cons, List.foldl_nil, atSome_append_singleton, ← ih.2]
    exact use_trackEvent F (follows_foldl F events) (keys_foldl F events) ih.1 event issue hkind

end StackAnalyzer.Resource
