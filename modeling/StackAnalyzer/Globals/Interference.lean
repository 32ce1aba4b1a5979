import StackAnalyzer.Globals.Reports

set_option relaxedAutoImplicit false
set_option autoImplicit false

/-!
# Interference between translation units

The index of written globals is a table by name, so a global with local linkage shares its entry
with every global of that name in the other modules. This file says which other modules have an
influence on the issues about a global.

## Main definitions

* `StackAnalyzer.Globals.IssuesUnchanged` — the issues about a global are the same in two programs.
* `StackAnalyzer.Globals.TrackedIn`, `StackAnalyzer.Globals.WrittenIn` — what the modules of a
  program say about its name.
* `StackAnalyzer.Globals.HasUndominatedRead` — the module has a read that would be reported.

## Main results

* `StackAnalyzer.Globals.tracks_buildCrossTU_iff` — which names the index tracks.
* `StackAnalyzer.Globals.localIssuesUnchanged_iff` — when the other modules have no influence.
-/

namespace StackAnalyzer.Globals

open Maps Graph Enumerations

variable {F G V B I : Type*}

/-! ## The tracked names -/

/-- An index tracks a name. -/
def SummaryIndex.Tracks (index : SummaryIndex) (name : String) : Prop :=
  (index.find name).any GlobalSummary.zeroInitializedArray = true

/-- A module has a zero-initialized array of a name, among its globals or the written ones. -/
def Module.TracksName (mod : Module F G V B I) (name : String) : Prop :=
  name ≠ "" ∧ ∃ g, (mod.global g).isTrackedDefinition = true ∧ (mod.global g).name = name ∧
    (g ∈ mod.globals ∨ ∃ f ∈ mod.selected, ∃ i ∈ (mod.function f).instructions,
      mod.WritesGlobal (mod.function f) i g)

/-- A write through one pointer. -/
theorem tracks_collectGlobalWriteSummaryForPointer (mod : Module F G V B I) (out : SummaryIndex)
    (p : V) (name : String) :
    (collectGlobalWriteSummaryForPointer mod out p).Tracks name ↔
      out.Tracks name ∨ name ≠ "" ∧ ∃ g, mod.resolveUnderlyingGlobal p = some g ∧
        (mod.global g).isTrackedDefinition = true ∧ (mod.global g).name = name := by
  unfold collectGlobalWriteSummaryForPointer SummaryIndex.Tracks
  cases hp : mod.resolveUnderlyingGlobal p with
  | none => simp
  | some g =>
    dsimp only
    by_cases hempty : (mod.global g).name = ""
    · rw [if_pos hempty, or_iff_left]
      rintro ⟨hname, g', hg', -, rfl⟩
      rw [← Option.some.inj hg'] at hname
      exact hname hempty
    · rw [if_neg hempty, EntryMap.find_assign]
      by_cases hname : (mod.global g).name = name
      · subst hname
        rw [if_pos rfl]
        cases out.find (mod.global g).name <;> simp [hempty]
      · rw [if_neg hname, or_iff_left]
        rintro ⟨-, g', hg', -, rfl⟩
        rw [Option.some.inj hg'] at hname
        exact hname rfl

/-- The loop over the globals. -/
theorem tracks_collectTrackedGlobals (mod : Module F G V B I) (name : String) :
    (collectTrackedGlobals mod).Tracks name ↔ name ≠ "" ∧ ∃ g ∈ mod.globals,
      (mod.global g).isTrackedDefinition = true ∧ (mod.global g).name = name := by
  have hrun := foldl_iff (Q := fun out : SummaryIndex => out.Tracks name)
    (P := fun g => name ≠ "" ∧ (mod.global g).isTrackedDefinition = true ∧
      (mod.global g).name = name)
    (f := fun out g =>
      if !(mod.global g).isTrackedDefinition || decide ((mod.global g).name = "") then out
      else out.assign (mod.global g).name
        { (out.find (mod.global g).name).getD {} with zeroInitializedArray := true })
    (fun out g => by
      split_ifs with hskip
      · refine ⟨Or.inl, fun h => h.elim id ?_⟩
        rintro ⟨hname, htracked, rfl⟩
        simp [htracked, hname] at hskip
      · obtain ⟨htracked, hempty⟩ : (mod.global g).isTrackedDefinition = true ∧
            (mod.global g).name ≠ "" := by simpa using hskip
        unfold SummaryIndex.Tracks
        rw [EntryMap.find_assign]
        by_cases hname : (mod.global g).name = name
        · subst hname
          simp [htracked, hempty]
        · simp [hname]) mod.globals EntryMap.empty
  unfold collectTrackedGlobals
  rw [hrun, or_iff_right (by simp [SummaryIndex.Tracks])]
  constructor
  · rintro ⟨g, hg, hname, htracked, heq⟩
    exact ⟨hname, g, hg, htracked, heq⟩
  · rintro ⟨hname, g, hg, htracked, heq⟩
    exact ⟨g, hg, hname, htracked, heq⟩

/-- **The index of a module** tracks the names of its zero-initialized arrays. -/
theorem tracks_build_iff (mod : Module F G V B I) (name : String) :
    (buildGlobalReadBeforeWriteSummaryIndex mod).Tracks name ↔ mod.TracksName name := by
  have hrun := foldl_iff (Q := fun out : SummaryIndex => out.Tracks name)
    (P := fun p => name ≠ "" ∧ ∃ g, mod.resolveUnderlyingGlobal p = some g ∧
      (mod.global g).isTrackedDefinition = true ∧ (mod.global g).name = name)
    (fun out p => tracks_collectGlobalWriteSummaryForPointer mod out p name)
    mod.writtenPointers (collectTrackedGlobals mod)
  unfold buildGlobalReadBeforeWriteSummaryIndex
  rw [hrun, tracks_collectTrackedGlobals]
  constructor
  · rintro (⟨hname, g, hg, htracked, heq⟩ | ⟨p, hp, hname, g, hg, htracked, heq⟩)
    · exact ⟨hname, g, htracked, heq, Or.inl hg⟩
    · obtain ⟨f, hf, hp⟩ := List.mem_flatMap.mp hp
      obtain ⟨i, hi, hp⟩ := List.mem_flatMap.mp hp
      exact ⟨hname, g, htracked, heq, Or.inr ⟨f, hf, i, hi, p, hp, hg⟩⟩
  · rintro ⟨hname, g, htracked, heq, hg | ⟨f, hf, i, hi, p, hp, hg⟩⟩
    · exact Or.inl ⟨hname, g, hg, htracked, heq⟩
    · refine Or.inr ⟨p, ?_, hname, g, hg, htracked, heq⟩
      exact List.mem_flatMap.mpr ⟨f, hf, List.mem_flatMap.mpr ⟨i, hi, hp⟩⟩

/-- A merged index tracks what either index tracks. -/
theorem tracks_merge_iff (dst src : SummaryIndex) (name : String) :
    (mergeGlobalReadBeforeWriteSummaryIndex dst src).1.Tracks name ↔
      dst.Tracks name ∨ src.Tracks name := by
  unfold mergeGlobalReadBeforeWriteSummaryIndex SummaryIndex.Tracks
  rw [EntryMap.find_merge]
  cases src.find name <;> cases dst.find name <;>
    simp [EntryMap.mergedValue, summaryJoining]

/-- **The index of several modules** tracks the names of the zero-initialized arrays of each. -/
theorem tracks_buildCrossTU_iff {loadedModules : List (Module F G V B I)} {index : SummaryIndex}
    (h : buildCrossTUGlobalReadBeforeWriteSummaryIndex loadedModules = some index)
    (name : String) :
    index.Tracks name ↔ ∃ mod ∈ loadedModules, mod.TracksName name := by
  have hrun := foldl_iff (Q := fun out : SummaryIndex => out.Tracks name)
    (P := fun mod : Module F G V B I => mod.TracksName name)
    (f := fun globalIndex mod => (mergeGlobalReadBeforeWriteSummaryIndex globalIndex
      (buildGlobalReadBeforeWriteSummaryIndex mod)).1)
    (fun out mod => by rw [tracks_merge_iff, tracks_build_iff]) loadedModules EntryMap.empty
  unfold buildCrossTUGlobalReadBeforeWriteSummaryIndex at h
  split_ifs at h
  rw [← Option.some.inj h, hrun, or_iff_right (by simp [SummaryIndex.Tracks])]

/-! ## What a program says about a global -/

/-- A global is a zero-initialized array, or the program has one of its name. -/
def TrackedIn (loadedModules : List (Module F G V B I)) (mod : Module F G V B I) (g : G) : Prop :=
  (mod.global g).isTrackedDefinition = true ∨
    2 ≤ loadedModules.length ∧ ∃ mod' ∈ loadedModules, mod'.TracksName (mod.global g).name

/-- The program has several modules, and one of them writes a global of this name. -/
def WrittenIn (loadedModules : List (Module F G V B I)) (mod : Module F G V B I) (g : G) : Prop :=
  2 ≤ loadedModules.length ∧ ∃ mod' ∈ loadedModules, mod'.WritesName (mod.global g).name

/-- There is an index if there are several modules. -/
theorem buildCrossTU_eq_none_iff (loadedModules : List (Module F G V B I)) :
    buildCrossTUGlobalReadBeforeWriteSummaryIndex loadedModules = none ↔
      ¬ 2 ≤ loadedModules.length := by
  unfold buildCrossTUGlobalReadBeforeWriteSummaryIndex
  split_ifs with hshort
  · simp [hshort]
  · simpa using hshort

/-- The tracked globals are those of which the program says so. -/
theorem tracked_iff (loadedModules : List (Module F G V B I)) (mod : Module F G V B I) (g : G) :
    mod.Tracked (buildCrossTUGlobalReadBeforeWriteSummaryIndex loadedModules) g ↔
      TrackedIn loadedModules mod g := by
  unfold Module.Tracked TrackedIn lookupExternalSummary
  refine or_congr_right ?_
  cases hindex : buildCrossTUGlobalReadBeforeWriteSummaryIndex loadedModules with
  | none =>
    have hshort := (buildCrossTU_eq_none_iff loadedModules).mp hindex
    simp [hshort]
  | some index =>
    have hlong : 2 ≤ loadedModules.length := by
      by_contra hshort
      rw [(buildCrossTU_eq_none_iff loadedModules).mpr hshort] at hindex
      exact absurd hindex.symm (Option.some_ne_none _)
    have htracks := tracks_buildCrossTU_iff hindex (mod.global g).name
    rw [and_iff_right hlong, ← htracks, Option.bind_some]
    by_cases hname : (mod.global g).name = ""
    · have hnot : ¬ index.Tracks (mod.global g).name := by
        rw [htracks]
        rintro ⟨mod', -, hne, -⟩
        exact hne hname
      rw [if_pos hname, iff_false_right hnot]
      simp
    · rw [if_neg hname]
      rfl

/-! ## What the index changes -/

section Recording

variable [DecidableEq G] (mod : Module F G V B I) {externalSummaries other : Option SummaryIndex}

/-- A write to a tracked global is appended to its writes. -/
theorem writes_recordAccess_of_tracked (recorded : Recorded G I) (i : I) {p : V} {g : G}
    (hp : mod.resolveUnderlyingGlobal p = some g) (htracked : mod.Tracked externalSummaries g) :
    (recordAccess mod externalSummaries recorded (i, .write p)).writes g =
      recorded.writes g ++ [i] := by
  have hresolve := (resolveTrackedGlobalBuffer_eq_some_iff mod externalSummaries p
    (g, lookupExternalSummary externalSummaries (mod.global g))).mpr ⟨hp, htracked, rfl⟩
  simp [recordAccess, hresolve, Recorded.writes, EntryMap.find_assign]

/-- Any other access leaves the writes of a global as they are. -/
theorem writes_recordAccess_of_not (recorded : Recorded G I) (event : I × Access V) {g : G}
    (h : ∀ p, event.2 = .write p → mod.resolveUnderlyingGlobal p = some g →
      ¬ mod.Tracked externalSummaries g) :
    (recordAccess mod externalSummaries recorded event).writes g = recorded.writes g := by
  obtain ⟨i, access⟩ := event
  cases access with
  | read p =>
    unfold recordAccess Recorded.writes
    dsimp only
    split <;> rfl
  | write p =>
    cases hp : resolveTrackedGlobalBuffer mod externalSummaries p with
    | none => simp [recordAccess, hp]
    | some tracked =>
      obtain ⟨hunder, htracked, -⟩ :=
        (resolveTrackedGlobalBuffer_eq_some_iff mod externalSummaries p tracked).mp hp
      have hne : tracked.1 ≠ g := by
        rintro rfl
        exact h p rfl hunder htracked
      simp [recordAccess, hp, Recorded.writes, EntryMap.find_assign, hne]

/-- **The recorded writes** to a global depend on the index only through whether it is tracked. -/
theorem writes_recordFunction_congr (fn : Function V B I) {g : G}
    (h : mod.Tracked externalSummaries g ↔ mod.Tracked other g) :
    (recordFunction mod externalSummaries fn).writes g = (recordFunction mod other fn).writes g := by
  have hrun : ∀ (events : List (I × Access V)) (recorded recorded' : Recorded G I),
      recorded.writes g = recorded'.writes g →
      (events.foldl (recordAccess mod externalSummaries) recorded).writes g =
        (events.foldl (recordAccess mod other) recorded').writes g := by
    intro events
    induction events with
    | nil => exact fun recorded recorded' hsame => hsame
    | cons event events ih =>
      intro recorded recorded' hsame
      refine ih _ _ ?_
      by_cases hwrite : ∃ p, event.2 = .write p ∧ mod.resolveUnderlyingGlobal p = some g ∧
          mod.Tracked externalSummaries g
      · obtain ⟨p, hevent, hp, htracked⟩ := hwrite
        obtain ⟨i, access⟩ := event
        obtain rfl : access = .write p := hevent
        rw [writes_recordAccess_of_tracked mod recorded i hp htracked,
          writes_recordAccess_of_tracked mod recorded' i hp (h.mp htracked), hsame]
      · rw [writes_recordAccess_of_not mod recorded event fun p hevent hp htracked =>
            hwrite ⟨p, hevent, hp, htracked⟩,
          writes_recordAccess_of_not mod recorded' event fun p hevent hp htracked =>
            hwrite ⟨p, hevent, hp, h.mpr htracked⟩, hsame]
  exact hrun fn.events {} {} rfl

end Recording

section Issues

variable [DecidableEq G] [DecidableEq I] {mod : Module F G V B I} {dominates : F → I → I → Bool}

/-- The selected read of a global that is not tracked does not exist. -/
theorem selectedReads_eq_none (externalSummaries : Option SummaryIndex) (f : F) {g : G}
    (h : ¬ mod.Tracked externalSummaries g) :
    (mod.selectedReads (dominates f) externalSummaries f).find g = none := by
  cases hfind : (mod.selectedReads (dominates f) externalSummaries f).find g with
  | none => rfl
  | some e =>
    have hmem := (mod.isSelection_selectedReads (dominates f) externalSummaries f).mem g e hfind
    exact absurd ((mem_reads_recordFunction mod externalSummaries _ _ g).mp hmem).2.2 h

/-- **The selected read** of a global depends on the index only through whether it is tracked. -/
theorem selectedReads_congr {externalSummaries other : Option SummaryIndex} (f : F) {g : G}
    (h : mod.Tracked externalSummaries g ↔ mod.Tracked other g) :
    (mod.selectedReads (dominates f) externalSummaries f).find g =
      (mod.selectedReads (dominates f) other f).find g := by
  have hsel := mod.isSelection_selectedReads (dominates f) externalSummaries f
  have hsel' := mod.isSelection_selectedReads (dominates f) other f
  have hscan : ∀ r, scanRead (dominates f) (mod.function f).instructionOrder
      (recordFunction mod externalSummaries (mod.function f)).writesByGlobal r g =
      scanRead (dominates f) (mod.function f).instructionOrder
        (recordFunction mod other (mod.function f)).writesByGlobal r g := by
    intro r
    have hwrites := writes_recordFunction_congr mod (mod.function f) h
    unfold Recorded.writes at hwrites
    unfold scanRead
    rw [hwrites]
  have hreads : ∀ r, (r, g) ∈ (recordFunction mod externalSummaries (mod.function f)).reads ↔
      (r, g) ∈ (recordFunction mod other (mod.function f)).reads := by
    intro r
    rw [mem_reads_recordFunction, mem_reads_recordFunction, h]
  cases hfind : (mod.selectedReads (dominates f) externalSummaries f).find g with
  | none =>
    cases hfind' : (mod.selectedReads (dominates f) other f).find g with
    | none => rfl
    | some e =>
      have hnone := hsel.absent g hfind e.inst ((hreads e.inst).mpr (hsel'.mem g e hfind'))
      rw [hscan, hsel'.scan g e hfind'] at hnone
      exact absurd hnone (Option.some_ne_none _)
  | some e =>
    cases hfind' : (mod.selectedReads (dominates f) other f).find g with
    | none =>
      have hnone := hsel'.absent g hfind' e.inst ((hreads e.inst).mp (hsel.mem g e hfind))
      rw [← hscan, hsel.scan g e hfind] at hnone
      exact absurd hnone (Option.some_ne_none _)
    | some e' =>
      -- both are the first read with a result, so they are the same instruction
      have hsome : ∀ x : Option I, some x ≠ none := fun x => Option.some_ne_none x
      have hle := hsel.first g e hfind e'.inst ((hreads _).mpr (hsel'.mem g e' hfind'))
        (by rw [hscan, hsel'.scan g e' hfind']; exact hsome _)
      have hle' := hsel'.first g e' hfind' e.inst ((hreads _).mp (hsel.mem g e hfind))
        (by rw [← hscan, hsel.scan g e hfind]; exact hsome _)
      have hmem := ((mem_reads_recordFunction mod externalSummaries _ e.inst g).mp
        (hsel.mem g e hfind)).1
      have hinst : e.inst = e'.inst := eq_of_instructionOrder_eq hmem (le_antisymm hle hle')
      have hwrite : e.firstWrite = e'.firstWrite := by
        have heq := hsel.scan g e hfind
        rw [hscan, hinst, hsel'.scan g e' hfind'] at heq
        exact (Option.some.inj heq).symm
      have hkind : e.kind = e'.kind := by
        rw [hsel.kind g e hfind, hsel'.kind g e' hfind', hwrite]
      congr 1
      obtain ⟨inst, firstWrite, kind⟩ := e
      obtain ⟨inst', firstWrite', kind'⟩ := e'
      obtain rfl : inst = inst' := hinst
      obtain rfl : firstWrite = firstWrite' := hwrite
      obtain rfl : kind = kind' := hkind
      rfl

/-- The issue of a selected read, with the flag of the index. -/
theorem toIssue_eq {externalSummaries : Option SummaryIndex} {f : F} {g : G} {e : SelectedRead I}
    (hfind : (mod.selectedReads (dominates f) externalSummaries f).find g = some e) :
    toIssue mod (mod.function f) (recordFunction mod externalSummaries (mod.function f)) (g, e) =
      { toIssue mod (mod.function f) {} (g, e) with
        hasNonLocalWrite := mod.knownWrite externalSummaries g } := by
  have hread := (mod.isSelection_selectedReads (dominates f) externalSummaries f).mem g e hfind
  have hknown := (flagsKnown_recordFunction mod externalSummaries (mod.function f)).known _ hread
  unfold toIssue
  dsimp only at hknown ⊢
  rw [hknown, Option.getD_some]

/-- The issues about a global are those of the selected reads, in whatever order. -/
theorem issueFor_iff {externalSummaries : Option SummaryIndex}
    {enumerate : F → List (G × SelectedRead I)}
    (henum : IsEnumeration mod externalSummaries dominates enumerate) (f : F) (g : G)
    (issue : GlobalReadBeforeWriteIssue I) :
    IssueFor mod externalSummaries enumerate f g issue ↔ f ∈ mod.selected ∧
      ∃ e, (mod.selectedReads (dominates f) externalSummaries f).find g = some e ∧
        issue = { toIssue mod (mod.function f) {} (g, e) with
          hasNonLocalWrite := mod.knownWrite externalSummaries g } := by
  constructor
  · rintro ⟨hf, e, hmem, rfl⟩
    have hfind := EntryMap.find_eq_some_iff.mpr ((henum f hf).mem_iff.mp hmem)
    exact ⟨hf, e, hfind, toIssue_eq hfind⟩
  · rintro ⟨hf, e, hfind, rfl⟩
    exact ⟨hf, e, (henum f hf).mem_iff.mpr (EntryMap.find_eq_some_iff.mp hfind),
      (toIssue_eq hfind).symm⟩

variable (mod dominates)

/-- A module has a read of a global that no single other write of the function dominates. -/
def HasUndominatedRead (g : G) : Prop :=
  ∃ f ∈ mod.selected, ∃ r ∈ (mod.function f).instructions, mod.ReadsGlobal (mod.function f) r g ∧
    ∀ w, OtherWrite mod f g r w → dominates f w r = false

/-- The issues about a global of a module are the same in two programs, whatever the orders of the
tables. -/
def IssuesUnchanged (loadedModules others : List (Module F G V B I)) (g : G) : Prop :=
  ∀ enumerate enumerate' : F → List (G × SelectedRead I),
    IsEnumeration mod (buildCrossTUGlobalReadBeforeWriteSummaryIndex loadedModules) dominates
        enumerate →
      IsEnumeration mod (buildCrossTUGlobalReadBeforeWriteSummaryIndex others) dominates
          enumerate' →
        ∀ f issue,
          IssueFor mod (buildCrossTUGlobalReadBeforeWriteSummaryIndex loadedModules) enumerate f g
              issue ↔
            IssueFor mod (buildCrossTUGlobalReadBeforeWriteSummaryIndex others) enumerate' f g
              issue

/-- The issues about the globals with local linkage are the same in two programs. -/
def LocalIssuesUnchanged (loadedModules others : List (Module F G V B I)) : Prop :=
  ∀ g, (mod.global g).hasLocalLinkage = true →
    IssuesUnchanged mod dominates loadedModules others g

variable {mod dominates}

/-- A tracked global has a selected read in some function iff some read of it is not dominated. -/
theorem exists_selectedRead_iff {externalSummaries : Option SummaryIndex} {g : G}
    (htracked : mod.Tracked externalSummaries g) :
    (∃ f ∈ mod.selected, ∃ e,
        (mod.selectedReads (dominates f) externalSummaries f).find g = some e) ↔
      HasUndominatedRead mod dominates g := by
  have hscan : ∀ f r, scanRead (dominates f) (mod.function f).instructionOrder
      (recordFunction mod externalSummaries (mod.function f)).writesByGlobal r g = none ↔
      ∃ w, OtherWrite mod f g r w ∧ dominates f w r = true := by
    intro f r
    rw [scanRead, scanWrites_eq_none_iff]
    constructor
    · rintro ⟨w, hw, hne, hdominates⟩
      obtain ⟨hmem, hwrites, -⟩ := (mem_writes_recordFunction mod _ (mod.function f) w g).mp hw
      exact ⟨w, ⟨hmem, hwrites, hne⟩, hdominates⟩
    · rintro ⟨w, ⟨hmem, hwrites, hne⟩, hdominates⟩
      exact ⟨w, (mem_writes_recordFunction mod _ (mod.function f) w g).mpr
        ⟨hmem, hwrites, htracked⟩, hne, hdominates⟩
  constructor
  · rintro ⟨f, hf, e, hfind⟩
    have hsel := mod.isSelection_selectedReads (dominates f) externalSummaries f
    obtain ⟨hmem, hreads, -⟩ := (mem_reads_recordFunction mod externalSummaries _ e.inst g).mp
      (hsel.mem g e hfind)
    refine ⟨f, hf, e.inst, hmem, hreads, fun w hw => ?_⟩
    by_contra hdominates
    have hnone := (hscan f e.inst).mpr ⟨w, hw, eq_true_of_ne_false hdominates⟩
    rw [hsel.scan g e hfind] at hnone
    exact Option.some_ne_none _ hnone
  · rintro ⟨f, hf, r, hmem, hreads, hnone⟩
    refine ⟨f, hf, ?_⟩
    cases hfind : (mod.selectedReads (dominates f) externalSummaries f).find g with
    | some e => exact ⟨e, rfl⟩
    | none =>
      have hsel := mod.isSelection_selectedReads (dominates f) externalSummaries f
      have hread := (mem_reads_recordFunction mod externalSummaries _ r g).mpr
        ⟨hmem, hreads, htracked⟩
      obtain ⟨w, hw, hdominates⟩ := (hscan f r).mp (hsel.absent g hfind r hread)
      rw [hnone w hw] at hdominates
      exact absurd hdominates Bool.false_ne_true

/-- **The issues about a global are unchanged** exactly if, in case there is a read to report, the
programs agree on whether the global is tracked, and for a tracked one on whether it is written. -/
theorem issuesUnchanged_iff (loadedModules others : List (Module F G V B I)) (g : G) :
    IssuesUnchanged mod dominates loadedModules others g ↔
      (HasUndominatedRead mod dominates g →
        (TrackedIn loadedModules mod g ↔ TrackedIn others mod g) ∧
          (TrackedIn loadedModules mod g →
            (WrittenIn loadedModules mod g ↔ WrittenIn others mod g))) := by
  rw [← tracked_iff, ← tracked_iff]
  unfold WrittenIn
  rw [← knownWrite_iff, ← knownWrite_iff]
  -- some order of the tables
  have henum : ∀ program : List (Module F G V B I), IsEnumeration mod
      (buildCrossTUGlobalReadBeforeWriteSummaryIndex program) dominates fun f =>
        (mod.selectedReads (dominates f)
          (buildCrossTUGlobalReadBeforeWriteSummaryIndex program) f).entries :=
    fun _ _ _ => List.Perm.refl _
  constructor
  · intro h hread
    have hsame := h _ _ (henum loadedModules) (henum others)
    simp only [issueFor_iff (henum _)] at hsame
    have hforward : ∀ htracked : mod.Tracked
        (buildCrossTUGlobalReadBeforeWriteSummaryIndex loadedModules) g,
        mod.Tracked (buildCrossTUGlobalReadBeforeWriteSummaryIndex others) g ∧
          mod.knownWrite (buildCrossTUGlobalReadBeforeWriteSummaryIndex loadedModules) g =
            mod.knownWrite (buildCrossTUGlobalReadBeforeWriteSummaryIndex others) g := by
      intro htracked
      obtain ⟨f, hf, e, hfind⟩ := (exists_selectedRead_iff htracked).mpr hread
      obtain ⟨-, e', hfind', heq⟩ := (hsame f _).mp ⟨hf, e, hfind, rfl⟩
      refine ⟨?_, congrArg GlobalReadBeforeWriteIssue.hasNonLocalWrite heq⟩
      by_contra hnot
      rw [selectedReads_eq_none _ f hnot] at hfind'
      exact absurd hfind' (Option.some_ne_none _).symm
    refine ⟨⟨fun htracked => (hforward htracked).1, fun htracked => ?_⟩,
      fun htracked => by rw [(hforward htracked).2]⟩
    obtain ⟨f, hf, e, hfind⟩ := (exists_selectedRead_iff htracked).mpr hread
    obtain ⟨-, e', hfind', -⟩ := (hsame f _).mpr ⟨hf, e, hfind, rfl⟩
    by_contra hnot
    rw [selectedReads_eq_none _ f hnot] at hfind'
    exact absurd hfind' (Option.some_ne_none _).symm
  · intro h enumerate enumerate' henum' henum'' f issue
    rw [issueFor_iff henum', issueFor_iff henum'']
    refine and_congr_right fun hf => ?_
    by_cases hread : HasUndominatedRead mod dominates g
    · obtain ⟨htracked, hwritten⟩ := h hread
      rw [selectedReads_congr f htracked]
      refine exists_congr fun e => and_congr_right fun hfind => ?_
      have hin : mod.Tracked (buildCrossTUGlobalReadBeforeWriteSummaryIndex loadedModules) g := by
        by_contra hnot
        rw [selectedReads_eq_none _ f (mt htracked.mpr hnot)] at hfind
        exact absurd hfind (Option.some_ne_none _).symm
      rw [Bool.eq_iff_iff.mpr (hwritten hin)]
    · -- without a read to report there is no issue
      have hnone : ∀ (externalSummaries : Option SummaryIndex) (e : SelectedRead I),
          (mod.selectedReads (dominates f) externalSummaries f).find g ≠ some e := by
        intro externalSummaries e hfind
        have htracked : mod.Tracked externalSummaries g := by
          by_contra hnot
          rw [selectedReads_eq_none _ f hnot] at hfind
          exact absurd hfind (Option.some_ne_none _).symm
        exact hread ((exists_selectedRead_iff htracked).mp ⟨f, hf, e, hfind⟩)
      constructor
      · rintro ⟨e, hfind, -⟩
        exact absurd hfind (hnone _ e)
      · rintro ⟨e, hfind, -⟩
        exact absurd hfind (hnone _ e)

/-- **When the other modules have no influence** on the issues about the globals with local linkage
of a module: for each of them with a read to report, the two programs agree on whether it is a
zero-initialized array or some module has one of its name, and if so, on whether some module of
several writes a global of its name.

**Proof sketch.** The index has one entry for a name. Whether a global is tracked decides which
accesses to it are recorded, hence which read is selected; the other flag is copied to the issue. -/
theorem localIssuesUnchanged_iff (mod : Module F G V B I) (dominates : F → I → I → Bool)
    (loadedModules others : List (Module F G V B I)) :
    LocalIssuesUnchanged mod dominates loadedModules others ↔
      ∀ g, (mod.global g).hasLocalLinkage = true → HasUndominatedRead mod dominates g →
        (TrackedIn loadedModules mod g ↔ TrackedIn others mod g) ∧
          (TrackedIn loadedModules mod g →
            (WrittenIn loadedModules mod g ↔ WrittenIn others mod g)) :=
  forall_congr' fun g => forall_congr' fun _ => issuesUnchanged_iff loadedModules others g

end Issues

/-! ## Two tables of one name -/

/-- `int readTable(void) { return table[0]; }`. -/
def readTable : Function Unit Unit Unit where
  name := "readTable"
  isDeclaration := false
  blocks := [()]
  cfg := ⟨(), fun _ => [], fun _ => [()], fun _ => none⟩
  opcode _ := .load false false ()
  nodup := List.nodup_singleton _

/-- The function in a module with an array `table`, either `static int table[2] = {1, 2};` or
`int table[2];`. -/
def tableModule (isStatic : Bool) : Module Unit Unit Unit Unit Unit where
  functions := [()]
  function _ := readTable
  shouldAnalyze _ := true
  globals := [()]
  global _ := ⟨"table", isStatic, false, false, true, !isStatic, true⟩
  underlyingGlobal _ := some ()
  name_injective _ _ _ _ := rfl

/-- **Interference**: a module with a zero-initialized table makes the analysis of another module
track the static, initialized table of the same name there. -/
theorem not_localIssuesUnchanged_tableModule :
    ¬ LocalIssuesUnchanged (tableModule true) (fun _ _ _ => false) [tableModule true]
      [tableModule true, tableModule false] := by
  intro h
  have hread : HasUndominatedRead (tableModule true) (fun _ _ _ => false) () :=
    ⟨(), List.mem_singleton_self _, (), List.mem_singleton_self _, ⟨(), List.mem_singleton_self _, rfl⟩,
      fun w hw => absurd hw.2.2 (by simp)⟩
  obtain ⟨htracked, -⟩ := (issuesUnchanged_iff _ _ ()).mp (h () rfl) hread
  have hin : TrackedIn [tableModule true, tableModule false] (tableModule true) () :=
    Or.inr ⟨le_refl 2, tableModule false, List.mem_cons_of_mem _ List.mem_cons_self,
      by decide, (), rfl, rfl, Or.inl List.mem_cons_self⟩
  rcases htracked.mpr hin with hdefined | ⟨hlong, -⟩
  · exact absurd hdefined (by decide)
  · exact absurd hlong (by decide)

end StackAnalyzer.Globals
