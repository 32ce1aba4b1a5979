import StackAnalyzer.Resource.Lifetime

set_option relaxedAutoImplicit false
set_option autoImplicit false

/-!
# What the states of the handles are

After some events the state of a local handle holds how often it was acquired and released in them,
and the instructions that released it.

## Main definitions

* `StackAnalyzer.Resource.Event.acquiresOf`, `StackAnalyzer.Resource.Event.releasesOf` — the events
  of a handle.
* `StackAnalyzer.Resource.Follows` — the states that belong to some events.

## Main results

* `StackAnalyzer.Resource.follows_foldl` — the states after some events.
-/

namespace StackAnalyzer.Resource

open CrossTU Maps Graph

variable {A B I : Type*}

/-! ## Events of a handle -/

/-- A handle: the storage, and the kind of the resource. -/
abbrev Handle (A : Type*) := StorageKey A × CppString

section Counting

variable [DecidableEq A]

/-- The event acquires the handle. -/
def Event.acquiresOf (h : Handle A) : Event A → Bool
  | .acquire storage resourceKind => decide ((storage, resourceKind) = h)
  | _ => false

/-- The event releases the handle. -/
def Event.releasesOf (h : Handle A) : Event A → Bool
  | .release storage resourceKind _ => decide ((storage, resourceKind) = h)
  | _ => false

/-- How often some events acquire a handle. -/
def acquireCount (h : Handle A) (events : List (I × Event A)) : ℕ :=
  events.countP fun event => event.2.acquiresOf h

/-- How often some events release a handle. -/
def releaseCount (h : Handle A) (events : List (I × Event A)) : ℕ :=
  events.countP fun event => event.2.releasesOf h

/-- The instructions that release a handle, once for every release. -/
def releasingInsts (h : Handle A) (events : List (I × Event A)) : List I :=
  (events.filter fun event => event.2.releasesOf h).map Prod.fst

theorem acquireCount_append_singleton (h : Handle A) (events : List (I × Event A))
    (event : I × Event A) : acquireCount h (events ++ [event]) =
      acquireCount h events + if event.2.acquiresOf h then 1 else 0 := by
  rw [acquireCount, List.countP_append, List.countP_singleton]
  rfl

theorem releaseCount_append_singleton (h : Handle A) (events : List (I × Event A))
    (event : I × Event A) : releaseCount h (events ++ [event]) =
      releaseCount h events + if event.2.releasesOf h then 1 else 0 := by
  rw [releaseCount, List.countP_append, List.countP_singleton]
  rfl

theorem releasingInsts_append_singleton (h : Handle A) (events : List (I × Event A))
    (event : I × Event A) : releasingInsts h (events ++ [event]) =
      releasingInsts h events ++ if event.2.releasesOf h then [event.1] else [] := by
  rw [releasingInsts, List.filter_append, List.map_append]
  by_cases hrel : event.2.releasesOf h = true <;> simp [releasingInsts, hrel]

/-- The states of the handles after some events. -/
structure Follows (events : List (I × Event A))
    (localStates : EntryMap (Handle A) (LocalHandleState A I)) : Prop where
  key : ∀ h state, localStates.find h = some state →
    state.storage = h.1 ∧ state.resourceKind = h.2 ∧ h.1 ≠ .unknown ∧
      state.escapesViaReturn = false
  absent : ∀ h localAlloca offset, h.1 = .localSlot localAlloca offset →
    localStates.find h = none → acquireCount h events = 0 ∧ releaseCount h events = 0
  present : ∀ h localAlloca offset state, h.1 = .localSlot localAlloca offset →
    localStates.find h = some state →
      state.acquires = acquireCount h events ∧ state.releases = releaseCount h events ∧
        state.releaseInsts = releasingInsts h events

/-- The state of a handle, if it has none yet. -/
theorem Follows.getD {events : List (I × Event A)}
    {localStates : EntryMap (Handle A) (LocalHandleState A I)} (hf : Follows events localStates)
    {h : Handle A} {localAlloca : A} {offset : ℕ} (hlocal : h.1 = .localSlot localAlloca offset) :
    ((localStates.find h).getD {}).acquires = acquireCount h events ∧
      ((localStates.find h).getD {}).releases = releaseCount h events ∧
      ((localStates.find h).getD {}).releaseInsts = releasingInsts h events := by
  cases hfind : localStates.find h with
  | some state => exact hf.present h localAlloca offset state hlocal hfind
  | none =>
    obtain ⟨hacq, hrel⟩ := hf.absent h localAlloca offset hlocal hfind
    refine ⟨hacq.symm, hrel.symm, ?_⟩
    have hnil : releasingInsts h events = [] := by
      rw [releaseCount, List.countP_eq_zero] at hrel
      rw [releasingInsts, List.filter_eq_nil_iff.mpr hrel, List.map_nil]
    exact hnil.symm

/-- An event that is neither an acquire nor a release keeps the states. -/
theorem Follows.other {events : List (I × Event A)}
    {localStates : EntryMap (Handle A) (LocalHandleState A I)} (hf : Follows events localStates)
    {event : I × Event A}
    (hacq : ∀ h localAlloca offset, h.1 = .localSlot localAlloca offset →
      event.2.acquiresOf h = false)
    (hrel : ∀ h localAlloca offset, h.1 = .localSlot localAlloca offset →
      event.2.releasesOf h = false) :
    Follows (events ++ [event]) localStates where
  key := hf.key
  absent h localAlloca offset hlocal hfind := by
    obtain ⟨ha, hr⟩ := hf.absent h localAlloca offset hlocal hfind
    rw [acquireCount_append_singleton, releaseCount_append_singleton, ha, hr,
      hacq h localAlloca offset hlocal, hrel h localAlloca offset hlocal]
    exact ⟨rfl, rfl⟩
  present h localAlloca offset state hlocal hfind := by
    obtain ⟨ha, hr, hi⟩ := hf.present h localAlloca offset state hlocal hfind
    rw [acquireCount_append_singleton, releaseCount_append_singleton,
      releasingInsts_append_singleton, hacq h localAlloca offset hlocal,
      hrel h localAlloca offset hlocal, ha, hr, hi]
    simp

/-- An acquire adds to the state of its handle. -/
theorem Follows.acquire {events : List (I × Event A)}
    {localStates : EntryMap (Handle A) (LocalHandleState A I)} (hf : Follows events localStates)
    {storage : StorageKey A} (hstorage : storage ≠ .unknown) (resourceKind : CppString) (i : I) :
    Follows (events ++ [(i, .acquire storage resourceKind)])
      (localStates.assign (storage, resourceKind)
        (((localStates.find (storage, resourceKind)).getD {}).acquire storage resourceKind i)) where
  key h state hfind := by
    rw [EntryMap.find_assign] at hfind
    split_ifs at hfind with hkey
    · subst hkey
      obtain rfl := Option.some.inj hfind
      refine ⟨rfl, rfl, hstorage, ?_⟩
      cases hold : localStates.find (storage, resourceKind) with
      | none => rfl
      | some old => exact (hf.key _ old hold).2.2.2
    · exact hf.key h state hfind
  absent h localAlloca offset hlocal hfind := by
    rw [EntryMap.find_assign] at hfind
    split_ifs at hfind with hkey
    obtain ⟨ha, hr⟩ := hf.absent h localAlloca offset hlocal hfind
    rw [acquireCount_append_singleton, releaseCount_append_singleton, ha, hr]
    simp [Event.acquiresOf, Event.releasesOf, hkey]
  present h localAlloca offset state hlocal hfind := by
    rw [EntryMap.find_assign] at hfind
    split_ifs at hfind with hkey
    · subst hkey
      obtain rfl := Option.some.inj hfind
      obtain ⟨ha, hr, hi⟩ := hf.getD hlocal
      rw [acquireCount_append_singleton, releaseCount_append_singleton,
        releasingInsts_append_singleton, ← ha, ← hr, ← hi]
      simp [LocalHandleState.acquire, Event.acquiresOf, Event.releasesOf]
    · obtain ⟨ha, hr, hi⟩ := hf.present h localAlloca offset state hlocal hfind
      rw [acquireCount_append_singleton, releaseCount_append_singleton,
        releasingInsts_append_singleton, ha, hr, hi]
      simp [Event.acquiresOf, Event.releasesOf, hkey]

/-- A release of a slot adds to the state of its handle. -/
theorem Follows.release {events : List (I × Event A)}
    {localStates : EntryMap (Handle A) (LocalHandleState A I)} (hf : Follows events localStates)
    (localAlloca : A) (offset : ℕ) (resourceKind : CppString) (i : I) (fromSummary : Bool) :
    Follows (events ++ [(i, .release (.localSlot localAlloca offset) resourceKind fromSummary)])
      (localStates.assign (.localSlot localAlloca offset, resourceKind)
        (((localStates.find (.localSlot localAlloca offset, resourceKind)).getD {}).release
          (.localSlot localAlloca offset) resourceKind i)) where
  key h state hfind := by
    rw [EntryMap.find_assign] at hfind
    split_ifs at hfind with hkey
    · subst hkey
      obtain rfl := Option.some.inj hfind
      cases hold : localStates.find (.localSlot localAlloca offset, resourceKind) with
      | none => simp [LocalHandleState.release]
      | some old =>
        obtain ⟨hs, hk, -, he⟩ := hf.key _ old hold
        simp [LocalHandleState.release, hs, hk, he]
    · exact hf.key h state hfind
  absent h localAlloca' offset' hlocal hfind := by
    rw [EntryMap.find_assign] at hfind
    split_ifs at hfind with hkey
    obtain ⟨ha, hr⟩ := hf.absent h localAlloca' offset' hlocal hfind
    rw [acquireCount_append_singleton, releaseCount_append_singleton, ha, hr]
    simp [Event.acquiresOf, Event.releasesOf, hkey]
  present h localAlloca' offset' state hlocal hfind := by
    rw [EntryMap.find_assign] at hfind
    split_ifs at hfind with hkey
    · subst hkey
      obtain rfl := Option.some.inj hfind
      obtain ⟨ha, hr, hi⟩ := hf.getD hlocal
      rw [acquireCount_append_singleton, releaseCount_append_singleton,
        releasingInsts_append_singleton, ← ha, ← hr, ← hi]
      simp [LocalHandleState.release, Event.acquiresOf, Event.releasesOf]
    · obtain ⟨ha, hr, hi⟩ := hf.present h localAlloca' offset' state hlocal hfind
      rw [acquireCount_append_singleton, releaseCount_append_singleton,
        releasingInsts_append_singleton, ha, hr, hi]
      simp [Event.acquiresOf, Event.releasesOf, hkey]

end Counting

/-! ## States after events -/

section Steps

variable [DecidableEq A] [DecidableEq I] (F : LifetimeFunction A B I)

/-- Reporting uses keeps the states. -/
theorem localStates_reportUse (tracker : Tracker A I) (localAlloca : A) (offset : ℕ) (i : I)
    (state : LocalHandleState A I) :
    (reportUse F localAlloca offset i tracker state).localStates = tracker.localStates := by
  unfold reportUse
  dsimp only
  split_ifs <;> rfl

theorem localStates_reportUseAfterRelease (tracker : Tracker A I) (storage : StorageKey A) (i : I) :
    (reportUseAfterReleaseIfNeeded F tracker storage i).localStates = tracker.localStates := by
  cases storage with
  | localSlot localAlloca offset =>
    unfold reportUseAfterReleaseIfNeeded
    dsimp only
    generalize tracker.localStates.entries.map Prod.snd = states
    induction states generalizing tracker with
    | nil => rfl
    | cons state states ih => rw [List.foldl_cons, ih, localStates_reportUse]
  | _ => rfl

omit [DecidableEq I] in
/-- A release of a slot assigns its state, whatever is reported. -/
theorem localStates_trackRelease (tracker : Tracker A I) (localAlloca : A) (offset : ℕ)
    (resourceKind : CppString) (i : I) (fromSummary : Bool) :
    (trackRelease F tracker (.localSlot localAlloca offset) resourceKind i
        fromSummary).localStates =
      tracker.localStates.assign (.localSlot localAlloca offset, resourceKind)
        (((tracker.localStates.find (.localSlot localAlloca offset, resourceKind)).getD {}).release
          (.localSlot localAlloca offset) resourceKind i) := by
  unfold trackRelease
  dsimp only
  split
  · rfl
  · split
    · rfl
    · split_ifs <;> rfl
    · rfl

/-- **One event** keeps the states of the handles. -/
theorem Follows.trackEvent {events : List (I × Event A)} {tracker : Tracker A I}
    (hf : Follows events tracker.localStates) (event : I × Event A) :
    Follows (events ++ [event]) (Resource.trackEvent F tracker event).localStates := by
  obtain ⟨i, event⟩ := event
  cases event with
  | access storage =>
    unfold Resource.trackEvent
    dsimp only
    rw [localStates_reportUseAfterRelease]
    exact hf.other (fun _ _ _ _ => rfl) fun _ _ _ _ => rfl
  | acquire storage resourceKind =>
    unfold Resource.trackEvent trackAcquire
    dsimp only
    split_ifs with hstorage
    · refine hf.other (fun h localAlloca offset hlocal => ?_) fun _ _ _ _ => rfl
      subst hstorage
      exact decide_eq_false fun heq => by simp [← heq] at hlocal
    · exact hf.acquire hstorage resourceKind i
  | release storage resourceKind fromSummary =>
    cases storage with
    | localSlot localAlloca offset =>
      unfold Resource.trackEvent
      dsimp only
      rw [localStates_trackRelease]
      exact hf.release localAlloca offset resourceKind i fromSummary
    | _ =>
      refine hf.other (fun _ _ _ _ => rfl) fun h localAlloca offset hlocal => ?_
      exact decide_eq_false fun heq => by simp [← heq] at hlocal
  | releasedEscape owner resourceKind =>
    have hsame :
        (Resource.trackEvent F tracker (i, .releasedEscape owner resourceKind)).localStates =
          tracker.localStates := by
      unfold Resource.trackEvent reportReleasedHandleEscapesIfNeeded
      dsimp only
      split_ifs <;> rfl
    rw [hsame]
    exact hf.other (fun _ _ _ _ => rfl) fun _ _ _ _ => rfl

/-- **The states after a run of events.** -/
theorem follows_foldl (events : List (I × Event A)) :
    Follows events (events.foldl (trackEvent F) {}).localStates := by
  induction events using List.reverseRecOn with
  | nil => exact ⟨fun h state hfind => by simp at hfind, fun _ _ _ _ _ => ⟨rfl, rfl⟩,
      fun h _ _ state _ hfind => by simp at hfind⟩
  | append_singleton events event ih =>
    rw [List.foldl_append, List.foldl_cons, List.foldl_nil]
    exact ih.trackEvent F event

end Steps

end StackAnalyzer.Resource
