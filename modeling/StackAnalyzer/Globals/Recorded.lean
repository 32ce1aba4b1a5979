import StackAnalyzer.Globals.ReadBeforeWrite
import StackAnalyzer.Lists.Enumerations

set_option relaxedAutoImplicit false
set_option autoImplicit false

/-!
# What is recorded of a function, and which reads are selected

The accesses to a tracked global that the loop over a function records are those of its
instructions. Of the reads of a global that no single write dominates, the first one is selected.
The index knows of a write to a name exactly when some analysed function of some module has one.

## Main definitions

* `StackAnalyzer.Globals.Module.WritesGlobal`, `StackAnalyzer.Globals.Module.ReadsGlobal` — the
  accesses of an instruction.
* `StackAnalyzer.Globals.IsSelection` — the first read of each global that no single write
  dominates.
* `StackAnalyzer.Globals.Module.WritesName` — an analysed function writes a global of a name.

## Main results

* `StackAnalyzer.Globals.mem_writes_recordFunction`,
  `StackAnalyzer.Globals.mem_reads_recordFunction` — the recorded accesses.
* `StackAnalyzer.Globals.isSelection_selectedReads` — the selected reads.
* `StackAnalyzer.Globals.knows_buildCrossTU_iff` — what the index knows.
-/

namespace StackAnalyzer.Globals

open Maps Graph Enumerations

variable {F G V B I : Type*}

/-! ## Accesses -/

/-- An instruction may write a global. -/
def Module.WritesGlobal (mod : Module F G V B I) (fn : Function V B I) (i : I) (g : G) : Prop :=
  ∃ p ∈ (fn.opcode i).writtenPointers, mod.resolveUnderlyingGlobal p = some g

/-- An instruction may read a global. -/
def Module.ReadsGlobal (mod : Module F G V B I) (fn : Function V B I) (i : I) (g : G) : Prop :=
  ∃ p, Access.read p ∈ (fn.opcode i).accesses ∧ mod.resolveUnderlyingGlobal p = some g

/-- A global whose accesses are recorded. -/
def Module.Tracked (mod : Module F G V B I) (externalSummaries : Option SummaryIndex) (g : G) :
    Prop :=
  (mod.global g).isTrackedDefinition = true ∨
    (lookupExternalSummary externalSummaries (mod.global g)).any
      GlobalSummary.zeroInitializedArray = true

/-- The index and the recording agree on what an instruction writes. -/
theorem mem_writtenPointers_iff (op : Opcode V) (p : V) :
    p ∈ op.writtenPointers ↔ Access.write p ∈ op.accesses := by
  cases op with
  | store isVolatile q => cases isVolatile <;> simp [Opcode.writtenPointers, Opcode.accesses]
  | memTransfer isVolatile dest source =>
    cases isVolatile <;> simp [Opcode.writtenPointers, Opcode.accesses]
  | memSet isVolatile dest => cases isVolatile <;> simp [Opcode.writtenPointers, Opcode.accesses]
  | atomicRMW q => simp [Opcode.writtenPointers, Opcode.accesses]
  | atomicCmpXchg q => simp [Opcode.writtenPointers, Opcode.accesses]
  | call mayRead mayWrite args =>
    cases mayRead <;> cases mayWrite <;> simp [Opcode.writtenPointers, Opcode.accesses]
  | load isVolatile controlOnly q =>
    cases isVolatile <;> cases controlOnly <;> simp [Opcode.writtenPointers, Opcode.accesses]
  | other => simp [Opcode.writtenPointers, Opcode.accesses]

theorem mem_events_iff (fn : Function V B I) (i : I) (access : Access V) :
    (i, access) ∈ fn.events ↔ i ∈ fn.instructions ∧ access ∈ (fn.opcode i).accesses := by
  constructor
  · intro h
    obtain ⟨j, hj, hmem⟩ := List.mem_flatMap.mp h
    obtain ⟨a, ha, heq⟩ := List.mem_map.mp hmem
    obtain ⟨rfl, rfl⟩ := Prod.mk.inj heq
    exact ⟨hj, ha⟩
  · rintro ⟨hi, ha⟩
    exact List.mem_flatMap.mpr ⟨i, hi, List.mem_map.mpr ⟨access, ha, rfl⟩⟩

/-- **A tracked lookup** is a lookup of a tracked global, with its summary. -/
theorem resolveTrackedGlobalBuffer_eq_some_iff (mod : Module F G V B I)
    (externalSummaries : Option SummaryIndex) (p : V) (tracked : G × Option GlobalSummary) :
    resolveTrackedGlobalBuffer mod externalSummaries p = some tracked ↔
      mod.resolveUnderlyingGlobal p = some tracked.1 ∧ mod.Tracked externalSummaries tracked.1 ∧
        tracked.2 = lookupExternalSummary externalSummaries (mod.global tracked.1) := by
  obtain ⟨g, summary⟩ := tracked
  unfold resolveTrackedGlobalBuffer Module.Tracked
  rw [Option.bind_eq_some_iff]
  constructor
  · rintro ⟨g', hg', h⟩
    dsimp only at h
    split_ifs at h with htracked
    obtain ⟨rfl, rfl⟩ := Prod.mk.inj (Option.some.inj h)
    exact ⟨hg', by simpa using htracked, rfl⟩
  · rintro ⟨hg, htracked, hsummary⟩
    have hsummary' : summary = lookupExternalSummary externalSummaries (mod.global g) := hsummary
    refine ⟨g, hg, ?_⟩
    rw [if_pos (by simpa using htracked), hsummary']

/-- A lookup without a result does not find a tracked global. -/
theorem not_tracked_of_resolve_eq_none {mod : Module F G V B I}
    {externalSummaries : Option SummaryIndex} {p : V}
    (h : resolveTrackedGlobalBuffer mod externalSummaries p = none) (g : G) :
    ¬ (mod.resolveUnderlyingGlobal p = some g ∧ mod.Tracked externalSummaries g) := by
  rintro ⟨hunder, htracked⟩
  have hsome := (resolveTrackedGlobalBuffer_eq_some_iff mod externalSummaries p
    (g, lookupExternalSummary externalSummaries (mod.global g))).mpr ⟨hunder, htracked, rfl⟩
  rw [h] at hsome
  exact absurd hsome (Option.some_ne_none _).symm

section Recording

variable [DecidableEq G] (mod : Module F G V B I) (externalSummaries : Option SummaryIndex)

/-- The recorded writes to a global. -/
def Recorded.writes (recorded : Recorded G I) (g : G) : List I :=
  (recorded.writesByGlobal.find g).getD []

/-- What one access adds to the writes of a global. -/
theorem mem_writes_recordAccess (recorded : Recorded G I) (event : I × Access V) (i : I) (g : G) :
    i ∈ (recordAccess mod externalSummaries recorded event).writes g ↔
      i ∈ recorded.writes g ∨ ∃ p, event = (i, .write p) ∧
        mod.resolveUnderlyingGlobal p = some g ∧ mod.Tracked externalSummaries g := by
  obtain ⟨j, access⟩ := event
  cases access with
  | read p =>
    have hsame : (recordAccess mod externalSummaries recorded (j, .read p)).writes g =
        recorded.writes g := by
      unfold recordAccess Recorded.writes
      dsimp only
      split <;> rfl
    simp [hsame]
  | write p =>
    cases hp : resolveTrackedGlobalBuffer mod externalSummaries p with
    | none =>
      have hsame : recordAccess mod externalSummaries recorded (j, .write p) = recorded := by
        simp [recordAccess, hp]
      rw [hsame]
      refine ⟨Or.inl, fun h => h.elim id ?_⟩
      rintro ⟨q, heq, hq⟩
      obtain ⟨-, hpq⟩ := Prod.mk.inj heq
      obtain rfl := Access.write.inj hpq
      exact absurd hq (not_tracked_of_resolve_eq_none hp g)
    | some tracked =>
      obtain ⟨hunder, htracked, -⟩ :=
        (resolveTrackedGlobalBuffer_eq_some_iff mod externalSummaries p tracked).mp hp
      have hwrites : (recordAccess mod externalSummaries recorded (j, .write p)).writes g =
          if tracked.1 = g then recorded.writes tracked.1 ++ [j] else recorded.writes g := by
        simp only [recordAccess, hp, Recorded.writes, EntryMap.find_assign]
        split_ifs <;> simp
      rw [hwrites]
      by_cases hg : tracked.1 = g
      · subst hg
        simp only [if_true, List.mem_append, List.mem_singleton, Prod.mk.injEq]
        refine or_congr_right ⟨?_, ?_⟩
        · rintro rfl
          exact ⟨p, ⟨rfl, rfl⟩, hunder, htracked⟩
        · rintro ⟨q, ⟨rfl, -⟩, -⟩
          rfl
      · rw [if_neg hg]
        refine ⟨Or.inl, fun h => h.elim id ?_⟩
        rintro ⟨q, heq, hq, -⟩
        obtain ⟨-, hpq⟩ := Prod.mk.inj heq
        obtain rfl := Access.write.inj hpq
        exact absurd (Option.some.inj (hunder.symm.trans hq)) hg

/-- What one access adds to the reads. -/
theorem mem_reads_recordAccess (recorded : Recorded G I) (event : I × Access V) (i : I) (g : G) :
    (i, g) ∈ (recordAccess mod externalSummaries recorded event).reads ↔
      (i, g) ∈ recorded.reads ∨ ∃ p, event = (i, .read p) ∧
        mod.resolveUnderlyingGlobal p = some g ∧ mod.Tracked externalSummaries g := by
  obtain ⟨j, access⟩ := event
  cases access with
  | write p =>
    have hsame : (recordAccess mod externalSummaries recorded (j, .write p)).reads =
        recorded.reads := by
      unfold recordAccess
      dsimp only
      split <;> rfl
    simp [hsame]
  | read p =>
    cases hp : resolveTrackedGlobalBuffer mod externalSummaries p with
    | none =>
      have hsame : recordAccess mod externalSummaries recorded (j, .read p) = recorded := by
        simp [recordAccess, hp]
      rw [hsame]
      refine ⟨Or.inl, fun h => h.elim id ?_⟩
      rintro ⟨q, heq, hq⟩
      obtain ⟨-, hpq⟩ := Prod.mk.inj heq
      obtain rfl := Access.read.inj hpq
      exact absurd hq (not_tracked_of_resolve_eq_none hp g)
    | some tracked =>
      obtain ⟨hunder, htracked, -⟩ :=
        (resolveTrackedGlobalBuffer_eq_some_iff mod externalSummaries p tracked).mp hp
      have hreads : (recordAccess mod externalSummaries recorded (j, .read p)).reads =
          recorded.reads ++ [(j, tracked.1)] := by
        simp [recordAccess, hp]
      rw [hreads, List.mem_append, List.mem_singleton]
      refine or_congr_right ⟨?_, ?_⟩
      · intro h
        obtain ⟨rfl, rfl⟩ := Prod.mk.inj h
        exact ⟨p, rfl, hunder, htracked⟩
      · rintro ⟨q, heq, hq, -⟩
        obtain ⟨rfl, hpq⟩ := Prod.mk.inj heq
        obtain rfl := Access.read.inj hpq
        rw [Option.some.inj (hq.symm.trans hunder)]

/-- The summary of a global, if there is one, says that it is written somewhere. -/
def Module.knownWrite (g : G) : Bool :=
  (lookupExternalSummary externalSummaries (mod.global g)).any GlobalSummary.hasAnyWrite

/-- Every read global has a flag, and the flags are those of the summaries. -/
structure FlagsKnown (recorded : Recorded G I) : Prop where
  known : ∀ x ∈ recorded.reads,
    recorded.hasAnyKnownWriteByGlobal.find x.2 = some (mod.knownWrite externalSummaries x.2)
  sound : ∀ g b, recorded.hasAnyKnownWriteByGlobal.find g = some b →
    b = mod.knownWrite externalSummaries g

/-- `rememberAnyKnownWrite` stores the flag of the summary. -/
theorem find_rememberAnyKnownWrite {known : EntryMap G Bool} {g : G}
    (h : ∀ b, known.find g = some b → b = mod.knownWrite externalSummaries g) (g' : G) :
    (rememberAnyKnownWrite (g, lookupExternalSummary externalSummaries (mod.global g)) known).find
      g' = if g = g' then some (mod.knownWrite externalSummaries g) else known.find g' := by
  unfold rememberAnyKnownWrite
  dsimp only
  cases hfind : known.find g with
  | none =>
    cases hflag : mod.knownWrite externalSummaries g with
    | true =>
      unfold Module.knownWrite at hflag
      rw [if_pos hflag, EntryMap.find_assign, EntryMap.find_assign]
      split_ifs <;> rfl
    | false =>
      unfold Module.knownWrite at hflag
      rw [if_neg (by simp [hflag]), EntryMap.find_assign]
  | some b =>
    have hb := h b hfind
    cases hflag : mod.knownWrite externalSummaries g with
    | true =>
      unfold Module.knownWrite at hflag
      rw [if_pos hflag, EntryMap.find_assign]
    | false =>
      rw [hflag] at hb
      unfold Module.knownWrite at hflag
      rw [if_neg (by simp [hflag])]
      by_cases hg : g = g'
      · rw [if_pos hg, ← hg, hfind, hb]
      · rw [if_neg hg]

/-- One access keeps the flags. -/
theorem FlagsKnown.recordAccess {recorded : Recorded G I}
    (h : FlagsKnown mod externalSummaries recorded) (event : I × Access V) :
    FlagsKnown mod externalSummaries
      (Globals.recordAccess mod externalSummaries recorded event) := by
  obtain ⟨j, access⟩ := event
  -- storing the flag of a global, whichever list its access goes to
  have hstore : ∀ (g g' : G) (b : Bool),
      (rememberAnyKnownWrite (g, lookupExternalSummary externalSummaries (mod.global g))
        recorded.hasAnyKnownWriteByGlobal).find g' = some b →
      b = mod.knownWrite externalSummaries g' := by
    intro g g' b hb
    rw [find_rememberAnyKnownWrite mod externalSummaries (h.sound g)] at hb
    split_ifs at hb with hg
    · rw [← hg]
      exact (Option.some.inj hb).symm
    · exact h.sound g' b hb
  have hkeep : ∀ g, ∀ x ∈ recorded.reads,
      (rememberAnyKnownWrite (g, lookupExternalSummary externalSummaries (mod.global g))
        recorded.hasAnyKnownWriteByGlobal).find x.2 =
      some (mod.knownWrite externalSummaries x.2) := by
    intro g x hx
    rw [find_rememberAnyKnownWrite mod externalSummaries (h.sound g)]
    split_ifs with hg
    · rw [hg]
    · exact h.known x hx
  cases access with
  | write p =>
    cases hp : resolveTrackedGlobalBuffer mod externalSummaries p with
    | none => simpa [Globals.recordAccess, hp] using h
    | some tracked =>
      obtain ⟨g, summary⟩ := tracked
      obtain ⟨-, -, hsummary⟩ :=
        (resolveTrackedGlobalBuffer_eq_some_iff mod externalSummaries p (g, summary)).mp hp
      have hsummary : summary = lookupExternalSummary externalSummaries (mod.global g) := hsummary
      subst hsummary
      simp only [Globals.recordAccess, hp]
      exact ⟨hkeep g, hstore g⟩
  | read p =>
    cases hp : resolveTrackedGlobalBuffer mod externalSummaries p with
    | none => simpa [Globals.recordAccess, hp] using h
    | some tracked =>
      obtain ⟨g, summary⟩ := tracked
      obtain ⟨-, -, hsummary⟩ :=
        (resolveTrackedGlobalBuffer_eq_some_iff mod externalSummaries p (g, summary)).mp hp
      have hsummary : summary = lookupExternalSummary externalSummaries (mod.global g) := hsummary
      subst hsummary
      simp only [Globals.recordAccess, hp]
      refine ⟨fun x hx => ?_, hstore g⟩
      rcases List.mem_append.mp hx with hold | hnew
      · exact hkeep g x hold
      · rw [List.mem_singleton.mp hnew,
          find_rememberAnyKnownWrite mod externalSummaries (h.sound g), if_pos rfl]

/-- **The recorded writes** to a global are the writes to it, if it is tracked. -/
theorem mem_writes_recordFunction (fn : Function V B I) (i : I) (g : G) :
    i ∈ (recordFunction mod externalSummaries fn).writes g ↔
      i ∈ fn.instructions ∧ mod.WritesGlobal fn i g ∧ mod.Tracked externalSummaries g := by
  have hrun := foldl_iff (Q := fun r => i ∈ r.writes g)
    (P := fun e => ∃ p, e = (i, .write p) ∧ mod.resolveUnderlyingGlobal p = some g ∧
      mod.Tracked externalSummaries g)
    (fun r e => mem_writes_recordAccess mod externalSummaries r e i g) fn.events {}
  rw [recordFunction, hrun, or_iff_right (by simp [Recorded.writes])]
  constructor
  · rintro ⟨-, hmem, p, rfl, hp, htracked⟩
    obtain ⟨hi, haccess⟩ := (mem_events_iff fn i _).mp hmem
    exact ⟨hi, ⟨p, (mem_writtenPointers_iff _ p).mpr haccess, hp⟩, htracked⟩
  · rintro ⟨hi, ⟨p, hwritten, hp⟩, htracked⟩
    exact ⟨_, (mem_events_iff fn i _).mpr ⟨hi, (mem_writtenPointers_iff _ p).mp hwritten⟩, p, rfl,
      hp, htracked⟩

/-- **The recorded reads** are the reads of tracked globals. -/
theorem mem_reads_recordFunction (fn : Function V B I) (i : I) (g : G) :
    (i, g) ∈ (recordFunction mod externalSummaries fn).reads ↔
      i ∈ fn.instructions ∧ mod.ReadsGlobal fn i g ∧ mod.Tracked externalSummaries g := by
  have hrun := foldl_iff (Q := fun r => (i, g) ∈ r.reads)
    (P := fun e => ∃ p, e = (i, .read p) ∧ mod.resolveUnderlyingGlobal p = some g ∧
      mod.Tracked externalSummaries g)
    (fun r e => mem_reads_recordAccess mod externalSummaries r e i g) fn.events {}
  rw [recordFunction, hrun, or_iff_right (by simp)]
  constructor
  · rintro ⟨-, hmem, p, rfl, hp, htracked⟩
    obtain ⟨hi, haccess⟩ := (mem_events_iff fn i _).mp hmem
    exact ⟨hi, ⟨p, haccess, hp⟩, htracked⟩
  · rintro ⟨hi, ⟨p, haccess, hp⟩, htracked⟩
    exact ⟨_, (mem_events_iff fn i _).mpr ⟨hi, haccess⟩, p, rfl, hp, htracked⟩

/-- **The recorded flags** of the read globals are those of the summaries. -/
theorem flagsKnown_recordFunction (fn : Function V B I) :
    FlagsKnown mod externalSummaries (recordFunction mod externalSummaries fn) := by
  have hrun : ∀ (events : List (I × Access V)) (recorded : Recorded G I),
      FlagsKnown mod externalSummaries recorded →
      FlagsKnown mod externalSummaries
        (events.foldl (recordAccess mod externalSummaries) recorded) := by
    intro events
    induction events with
    | nil => exact fun recorded h => h
    | cons event events ih =>
      exact fun recorded h => ih _ (h.recordAccess mod externalSummaries event)
  apply hrun
  exact ⟨fun x hx => absurd hx List.not_mem_nil, fun g b h => by simp at h⟩

end Recording

/-! ## Selected reads -/

section Selection

variable [DecidableEq I] (dominates : I → I → Bool) (instructionOrder : I → ℕ)

/-- The scan of the writes ends without a result exactly when one of them dominates the read. -/
theorem scanWrites_eq_none_iff (readInst : I) (writes : List I) (firstWrite : Option I) :
    scanWrites dominates instructionOrder readInst writes firstWrite = none ↔
      ∃ w ∈ writes, w ≠ readInst ∧ dominates w readInst = true := by
  induction writes generalizing firstWrite with
  | nil => simp [scanWrites]
  | cons w writes ih =>
    rw [scanWrites, List.exists_mem_cons_iff]
    split_ifs with hself hdom
    · rw [ih, or_iff_right (by simp [hself])]
    · simp [hself, hdom]
    · rw [ih, or_iff_right (by simp [hdom])]
    · rw [ih, or_iff_right (by simp [hdom])]

/-- The scan finds a later write exactly when the read dominates one. -/
theorem isSome_of_scanWrites (readInst : I) (writes : List I) (firstWrite found : Option I)
    (h : scanWrites dominates instructionOrder readInst writes firstWrite = some found) :
    found.isSome = true ↔
      firstWrite.isSome = true ∨ ∃ w ∈ writes, w ≠ readInst ∧ dominates readInst w = true := by
  induction writes generalizing firstWrite with
  | nil =>
    obtain rfl := Option.some.inj h
    simp
  | cons w writes ih =>
    rw [scanWrites] at h
    rw [List.exists_mem_cons_iff]
    split_ifs at h with hself hdom hlater
    · have hnot : ¬ (w ≠ readInst ∧ dominates readInst w = true) := fun hw => hw.1 hself
      rw [ih firstWrite h, or_iff_right hnot]
    · have hreads : dominates readInst w = true := (Bool.and_eq_true_iff.mp hlater).1
      rw [ih (some w) h]
      simp [hself, hreads]
    · rw [ih firstWrite h]
      -- a write that is passed over is not dominated, or there is an earlier one
      by_cases hreads : dominates readInst w = true
      · have hsome : firstWrite.isSome = true := by
          cases firstWrite with
          | none => simp [hreads] at hlater
          | some _ => rfl
        simp [hsome]
      · have hnot : ¬ (w ≠ readInst ∧ dominates readInst w = true) := fun hw => hreads hw.2
        rw [or_iff_right hnot]

variable [DecidableEq G] (writesByGlobal : EntryMap G (List I))

/-- The scan of the writes to a global for a read of it. -/
def scanRead (readInst : I) (g : G) : Option (Option I) :=
  scanWrites dominates instructionOrder readInst ((writesByGlobal.find g).getD []) none

/-- The selected reads after some reads: the first one of each global whose scan has a result. -/
structure IsSelection (reads : List (I × G)) (selected : EntryMap G (SelectedRead I)) : Prop where
  absent : ∀ g, selected.find g = none → ∀ r, (r, g) ∈ reads →
    scanRead dominates instructionOrder writesByGlobal r g = none
  mem : ∀ g e, selected.find g = some e → (e.inst, g) ∈ reads
  scan : ∀ g e, selected.find g = some e →
    scanRead dominates instructionOrder writesByGlobal e.inst g = some e.firstWrite
  kind : ∀ g e, selected.find g = some e →
    e.kind = if e.firstWrite.isSome then .beforeFirstLocalWrite else .withoutLocalWrite
  first : ∀ g e, selected.find g = some e → ∀ r, (r, g) ∈ reads →
    scanRead dominates instructionOrder writesByGlobal r g ≠ none →
      instructionOrder e.inst ≤ instructionOrder r

variable {dominates instructionOrder writesByGlobal}

/-- One more read without a result is passed over. -/
theorem IsSelection.skip {reads : List (I × G)} {selected : EntryMap G (SelectedRead I)}
    (h : IsSelection dominates instructionOrder writesByGlobal reads selected) {x : I × G}
    (hscan : scanRead dominates instructionOrder writesByGlobal x.1 x.2 = none) :
    IsSelection dominates instructionOrder writesByGlobal (reads ++ [x]) selected where
  absent g hg r hr := by
    rcases List.mem_append.mp hr with hold | hnew
    · exact h.absent g hg r hold
    · obtain rfl := List.mem_singleton.mp hnew
      exact hscan
  mem g e he := List.mem_append_left _ (h.mem g e he)
  scan := h.scan
  kind := h.kind
  first g e he r hr hr' := by
    rcases List.mem_append.mp hr with hold | hnew
    · exact h.first g e he r hold hr'
    · obtain rfl := List.mem_singleton.mp hnew
      exact absurd hscan hr'

/-- One more read, of a global with an earlier selected read. -/
theorem IsSelection.keep {reads : List (I × G)} {selected : EntryMap G (SelectedRead I)}
    (h : IsSelection dominates instructionOrder writesByGlobal reads selected) {x : I × G}
    {earlier : SelectedRead I} (hfind : selected.find x.2 = some earlier)
    (hle : instructionOrder earlier.inst ≤ instructionOrder x.1) :
    IsSelection dominates instructionOrder writesByGlobal (reads ++ [x]) selected where
  absent g hg r hr := by
    rcases List.mem_append.mp hr with hold | hnew
    · exact h.absent g hg r hold
    · obtain rfl := List.mem_singleton.mp hnew
      exact absurd (hg.symm.trans hfind) (Option.some_ne_none _).symm
  mem g e he := List.mem_append_left _ (h.mem g e he)
  scan := h.scan
  kind := h.kind
  first g e he r hr hr' := by
    rcases List.mem_append.mp hr with hold | hnew
    · exact h.first g e he r hold hr'
    · obtain rfl := List.mem_singleton.mp hnew
      obtain rfl := Option.some.inj (he.symm.trans hfind)
      exact hle

/-- One more read, that becomes the selected one. -/
theorem IsSelection.select {reads : List (I × G)} {selected : EntryMap G (SelectedRead I)}
    (h : IsSelection dominates instructionOrder writesByGlobal reads selected) {x : I × G}
    {firstWrite : Option I}
    (hscan : scanRead dominates instructionOrder writesByGlobal x.1 x.2 = some firstWrite)
    (hlt : ∀ e, selected.find x.2 = some e → instructionOrder x.1 ≤ instructionOrder e.inst) :
    IsSelection dominates instructionOrder writesByGlobal (reads ++ [x])
      (selected.assign x.2 ⟨x.1, firstWrite,
        if firstWrite.isSome then .beforeFirstLocalWrite else .withoutLocalWrite⟩) where
  absent g hg r hr := by
    rw [EntryMap.find_assign] at hg
    split_ifs at hg with hx
    rcases List.mem_append.mp hr with hold | hnew
    · exact h.absent g hg r hold
    · obtain rfl := List.mem_singleton.mp hnew
      exact absurd rfl hx
  mem g e he := by
    rw [EntryMap.find_assign] at he
    by_cases hx : x.2 = g
    · rw [if_pos hx] at he
      subst hx
      obtain rfl := Option.some.inj he
      exact List.mem_append_right _ (List.mem_singleton_self x)
    · rw [if_neg hx] at he
      exact List.mem_append_left _ (h.mem g e he)
  scan g e he := by
    rw [EntryMap.find_assign] at he
    by_cases hx : x.2 = g
    · rw [if_pos hx] at he
      subst hx
      obtain rfl := Option.some.inj he
      exact hscan
    · rw [if_neg hx] at he
      exact h.scan g e he
  kind g e he := by
    rw [EntryMap.find_assign] at he
    by_cases hx : x.2 = g
    · rw [if_pos hx] at he
      obtain rfl := Option.some.inj he
      rfl
    · rw [if_neg hx] at he
      exact h.kind g e he
  first g e he r hr hr' := by
    rw [EntryMap.find_assign] at he
    by_cases hx : x.2 = g
    · rw [if_pos hx] at he
      subst hx
      obtain rfl := Option.some.inj he
      show instructionOrder x.1 ≤ instructionOrder r
      rcases List.mem_append.mp hr with hold | hnew
      · cases hfind : selected.find x.2 with
        | none => exact absurd (h.absent x.2 hfind r hold) hr'
        | some e => exact (hlt e hfind).trans (h.first x.2 e hfind r hold hr')
      · rw [← (Prod.mk.inj (List.mem_singleton.mp hnew)).1]
    · rw [if_neg hx] at he
      rcases List.mem_append.mp hr with hold | hnew
      · exact h.first g e he r hold hr'
      · obtain rfl := List.mem_singleton.mp hnew
        exact absurd rfl hx

/-- One round of the loop over the reads keeps the selection. -/
theorem IsSelection.selectRead {reads : List (I × G)} {selected : EntryMap G (SelectedRead I)}
    (h : IsSelection dominates instructionOrder writesByGlobal reads selected) (x : I × G) :
    IsSelection dominates instructionOrder writesByGlobal (reads ++ [x])
      (Globals.selectRead dominates instructionOrder writesByGlobal selected x) := by
  unfold Globals.selectRead
  cases hscan : scanWrites dominates instructionOrder x.1
      ((writesByGlobal.find x.2).getD []) none with
  | none => exact h.skip hscan
  | some firstWrite =>
    dsimp only
    cases hfind : selected.find x.2 with
    | none => exact h.select hscan fun e he => absurd (hfind.symm.trans he) (by simp)
    | some earlier =>
      dsimp only
      by_cases hlt : instructionOrder x.1 < instructionOrder earlier.inst
      · rw [if_pos hlt]
        refine h.select hscan fun e he => ?_
        obtain rfl := Option.some.inj (hfind.symm.trans he)
        exact hlt.le
      · rw [if_neg hlt]
        exact h.keep hfind (not_lt.mp hlt)

/-- **The selected reads** of a function. -/
theorem isSelection_selectedReads (recorded : Recorded G I) :
    IsSelection dominates instructionOrder recorded.writesByGlobal recorded.reads
      (selectedReads dominates instructionOrder recorded) := by
  unfold selectedReads
  induction recorded.reads using List.reverseRecOn with
  | nil =>
    exact ⟨fun g _ r hr => absurd hr List.not_mem_nil, fun g e he => by simp at he,
      fun g e he => by simp at he, fun g e he => by simp at he, fun g e he => by simp at he⟩
  | append_singleton reads x ih =>
    rw [List.foldl_append, List.foldl_cons, List.foldl_nil]
    exact ih.selectRead x

/-- The selected reads of a function of a module. -/
theorem Module.isSelection_selectedReads (mod : Module F G V B I) (dominates : I → I → Bool)
    (externalSummaries : Option SummaryIndex) (f : F) :
    IsSelection dominates (mod.function f).instructionOrder
      (recordFunction mod externalSummaries (mod.function f)).writesByGlobal
      (recordFunction mod externalSummaries (mod.function f)).reads
      (mod.selectedReads dominates externalSummaries f) :=
  Globals.isSelection_selectedReads _

end Selection

/-! ## The index -/

/-- An index knows of a write to a global of a name. -/
def SummaryIndex.Knows (index : SummaryIndex) (name : String) : Prop :=
  (index.find name).any GlobalSummary.hasAnyWrite = true

/-- Some analysed function of a module writes a global of a name. -/
def Module.WritesName (mod : Module F G V B I) (name : String) : Prop :=
  name ≠ "" ∧ ∃ f ∈ mod.selected, ∃ i ∈ (mod.function f).instructions, ∃ g,
    mod.WritesGlobal (mod.function f) i g ∧ (mod.global g).name = name

/-- A write through one pointer. -/
theorem knows_collectGlobalWriteSummaryForPointer (mod : Module F G V B I) (out : SummaryIndex)
    (p : V) (name : String) :
    (collectGlobalWriteSummaryForPointer mod out p).Knows name ↔
      out.Knows name ∨ name ≠ "" ∧ ∃ g, mod.resolveUnderlyingGlobal p = some g ∧
        (mod.global g).name = name := by
  unfold collectGlobalWriteSummaryForPointer SummaryIndex.Knows
  cases hp : mod.resolveUnderlyingGlobal p with
  | none => simp
  | some g =>
    dsimp only
    by_cases hempty : (mod.global g).name = ""
    · rw [if_pos hempty, or_iff_left]
      rintro ⟨hname, g', hg', rfl⟩
      rw [← Option.some.inj hg'] at hname
      exact hname hempty
    · rw [if_neg hempty, EntryMap.find_assign]
      by_cases hname : (mod.global g).name = name
      · rw [if_pos hname]
        simp [← hname, hempty]
      · rw [if_neg hname, or_iff_left]
        rintro ⟨-, g', hg', rfl⟩
        rw [Option.some.inj hg'] at hname
        exact hname rfl

/-- The loop over the globals does not record writes. -/
theorem not_knows_collectTrackedGlobals (mod : Module F G V B I) (name : String) :
    ¬ (collectTrackedGlobals mod).Knows name := by
  have hrun := foldl_iff (Q := fun out : SummaryIndex => out.Knows name) (P := fun _ : G => False)
    (f := fun out g =>
      if !(mod.global g).isTrackedDefinition || decide ((mod.global g).name = "") then out
      else out.assign (mod.global g).name
        { (out.find (mod.global g).name).getD {} with zeroInitializedArray := true })
    (fun out g => by
      rw [or_false]
      split_ifs
      · rfl
      · unfold SummaryIndex.Knows
        rw [EntryMap.find_assign]
        split_ifs with hname
        · rw [hname]
          cases out.find name <;> simp
        · rfl) mod.globals EntryMap.empty
  unfold collectTrackedGlobals
  rw [hrun]
  simp [SummaryIndex.Knows]

/-- **The index of a module** knows of the writes of its analysed functions. -/
theorem knows_build_iff (mod : Module F G V B I) (name : String) :
    (buildGlobalReadBeforeWriteSummaryIndex mod).Knows name ↔ mod.WritesName name := by
  have hrun := foldl_iff (Q := fun out : SummaryIndex => out.Knows name)
    (P := fun p => name ≠ "" ∧ ∃ g, mod.resolveUnderlyingGlobal p = some g ∧
      (mod.global g).name = name)
    (fun out p => knows_collectGlobalWriteSummaryForPointer mod out p name)
    mod.writtenPointers (collectTrackedGlobals mod)
  unfold buildGlobalReadBeforeWriteSummaryIndex
  rw [hrun, or_iff_right (not_knows_collectTrackedGlobals mod name)]
  constructor
  · rintro ⟨p, hp, hname, g, hg, heq⟩
    obtain ⟨f, hf, hp⟩ := List.mem_flatMap.mp hp
    obtain ⟨i, hi, hp⟩ := List.mem_flatMap.mp hp
    exact ⟨hname, f, hf, i, hi, g, ⟨p, hp, hg⟩, heq⟩
  · rintro ⟨hname, f, hf, i, hi, g, ⟨p, hp, hg⟩, heq⟩
    refine ⟨p, ?_, hname, g, hg, heq⟩
    exact List.mem_flatMap.mpr ⟨f, hf, List.mem_flatMap.mpr ⟨i, hi, hp⟩⟩

/-- A merged index knows what either index knows. -/
theorem knows_merge_iff (dst src : SummaryIndex) (name : String) :
    (mergeGlobalReadBeforeWriteSummaryIndex dst src).1.Knows name ↔
      dst.Knows name ∨ src.Knows name := by
  unfold mergeGlobalReadBeforeWriteSummaryIndex SummaryIndex.Knows
  rw [EntryMap.find_merge]
  cases src.find name <;> cases dst.find name <;>
    simp [EntryMap.mergedValue, summaryJoining]

/-- **The index of several modules** knows of the writes of the analysed functions of each. -/
theorem knows_buildCrossTU_iff {loadedModules : List (Module F G V B I)} {index : SummaryIndex}
    (h : buildCrossTUGlobalReadBeforeWriteSummaryIndex loadedModules = some index)
    (name : String) :
    index.Knows name ↔ ∃ mod ∈ loadedModules, mod.WritesName name := by
  have hrun := foldl_iff (Q := fun out : SummaryIndex => out.Knows name)
    (P := fun mod : Module F G V B I => mod.WritesName name)
    (f := fun globalIndex mod => (mergeGlobalReadBeforeWriteSummaryIndex globalIndex
      (buildGlobalReadBeforeWriteSummaryIndex mod)).1)
    (fun out mod => by rw [knows_merge_iff, knows_build_iff]) loadedModules EntryMap.empty
  unfold buildCrossTUGlobalReadBeforeWriteSummaryIndex at h
  split_ifs at h
  rw [← Option.some.inj h, hrun, or_iff_right (by simp [SummaryIndex.Knows])]

end StackAnalyzer.Globals
