import StackAnalyzer.Uninit.ByteStates
import StackAnalyzer.Uninit.CallEffects

set_option relaxedAutoImplicit false
set_option autoImplicit false

/-!
# What a call initialises

The bytes that a call initialises do not depend on those that are initialised before, unless a read
is suppressed: an argument whose read is found and suppressed is left out with all of its writes.
So a call adds a set of bytes to each state if and only if the arguments that are left out would
write nothing new.

## Main definitions

* `StackAnalyzer.Uninit.Mark` — bytes of an object that are initialised.
* `StackAnalyzer.Uninit.UninitModule.argumentMarks` — the writes of a call for an argument.
* `StackAnalyzer.Uninit.UninitModule.skips` — a read of an argument is suppressed.
* `StackAnalyzer.Uninit.UninitModule.callBytes` — the bytes that all arguments write.
* `StackAnalyzer.Uninit.UninitModule.SkipsNothingNew` — arguments that are left out write nothing
  new.

## Main results

* `StackAnalyzer.Uninit.UninitModule.applyArgument_spec` — what one argument adds.
* `StackAnalyzer.Uninit.UninitModule.applyCallee_spec` — what a call adds.
* `StackAnalyzer.Uninit.UninitModule.applyCallee_adds_iff` — when a call adds all bytes.
-/

namespace StackAnalyzer.Uninit

open Escape Ranges

/-! ## Marks -/

section Marks

/-- Bytes of an object. -/
abbrev Mark := ℕ × ByteRange

/-- The bytes of some marks. -/
def markBytes (marks : List Mark) : Set (ℕ × ℕ) :=
  {x | ∃ mark ∈ marks, mark.1 = x.1 ∧ mark.2.Contains x.2}

/-- Mark the bytes as initialised. -/
def applyMarks (marks : List Mark) (initialized : InitRangeState) : InitRangeState :=
  marks.foldl (fun state mark => state.modify mark.1 (addRange · mark.2.begin mark.2.stop))
    initialized

theorem applyMarks_append (marks marks' : List Mark) (initialized : InitRangeState) :
    applyMarks (marks ++ marks') initialized = applyMarks marks' (applyMarks marks initialized) :=
  List.foldl_append

@[simp] theorem applyMarks_nil (initialized : InitRangeState) :
    applyMarks [] initialized = initialized := rfl

theorem markBytes_append (marks marks' : List Mark) :
    markBytes (marks ++ marks') = markBytes marks ∪ markBytes marks' := by
  ext x
  simp only [markBytes, Set.mem_ofPred_eq, Set.mem_union, List.mem_append]
  constructor
  · rintro ⟨mark, hmark | hmark, h⟩
    · exact Or.inl ⟨mark, hmark, h⟩
    · exact Or.inr ⟨mark, hmark, h⟩
  · rintro (⟨mark, hmark, h⟩ | ⟨mark, hmark, h⟩)
    · exact ⟨mark, Or.inl hmark, h⟩
    · exact ⟨mark, Or.inr hmark, h⟩

/-- **Marks add their bytes.** -/
theorem applyMarks_spec {n : ℕ} {marks : List Mark} (hmarks : ∀ mark ∈ marks, mark.1 < n)
    {state : InitRangeState} (h : ValidState n state) :
    ValidState n (applyMarks marks state) ∧
      stateSet (applyMarks marks state) = stateSet state ∪ markBytes marks := by
  induction marks generalizing state with
  | nil => exact ⟨h, by simp [applyMarks, markBytes]⟩
  | cons mark marks ih =>
    obtain ⟨hvalid, hset⟩ := modify_addRange_spec h (hmarks mark List.mem_cons_self) mark.2
    obtain ⟨hvalid', hset'⟩ :=
      ih (fun mark' hmark' => hmarks mark' (List.mem_cons_of_mem _ hmark')) hvalid
    have hcons : markBytes (mark :: marks) = {x | mark.1 = x.1 ∧ mark.2.Contains x.2} ∪
        markBytes marks := by
      ext x
      simp [markBytes]
    refine ⟨hvalid', ?_⟩
    rw [hcons, ← Set.union_assoc, ← hset]
    exact hset'

/-- An operation initialises the bytes of some marks, and keeps the summary of the caller, if it is
asked for. -/
structure Initializes {V : Type*} (marks : List Mark) (st st' : CallState V) : Prop where
  initialized : st'.initialized = applyMarks marks st.initialized
  summary : st'.currentSummary.isSome = st.currentSummary.isSome

variable {V : Type*} {st st' st'' : CallState V} {marks marks' : List Mark}

theorem Initializes.refl (st : CallState V) : Initializes [] st st := ⟨rfl, rfl⟩

theorem Initializes.trans (h : Initializes marks st st') (h' : Initializes marks' st' st'') :
    Initializes (marks ++ marks') st st'' :=
  ⟨by rw [h'.initialized, h.initialized, applyMarks_append], h'.summary.trans h.summary⟩

/-- An operation that initialises nothing, after another one. -/
theorem Initializes.then_nothing (h : Initializes marks st st') (h' : Initializes [] st' st'') :
    Initializes marks st st'' := by
  simpa using h.trans h'

theorem initializes_addInitialized (st : CallState V) (objectIdx : ℕ) (range : ByteRange) :
    Initializes [(objectIdx, range)] st (st.addInitialized objectIdx range) := ⟨rfl, rfl⟩

theorem initializes_updateParam (st : CallState V) (argNo : ℕ)
    (change : ParamEffect → ParamEffect) : Initializes [] st (st.updateParam argNo change) :=
  ⟨rfl, by simp [CallState.updateParam]⟩

/-- A loop of operations. -/
theorem initializes_foldl {α : Type*} {step : CallState V → α → CallState V}
    (marksOf : Bool → α → List Mark)
    (h : ∀ st a, Initializes (marksOf st.currentSummary.isSome a) st (step st a)) (as : List α)
    (st : CallState V) :
    Initializes (as.flatMap (marksOf st.currentSummary.isSome)) st (as.foldl step st) := by
  induction as generalizing st with
  | nil => exact .refl st
  | cons a as ih =>
    have hrest := ih (step st a)
    rw [(h st a).summary] at hrest
    exact (h st a).trans hrest

end Marks

namespace UninitModule

variable {V F : Type*} [DecidableEq V] (M : UninitModule V F) (T : TrackedObjectContext V)

/-! ## The writes of a call -/

section Writes

variable (hasSummary : Bool) (call : SummarizedCall V F)

omit [DecidableEq V] in
/-- The bytes of a write into an object. -/
def objectMarks (base : ResolvedBase V) (writeSizeBytes : ℕ) : List Mark :=
  (writtenRange base writeSizeBytes).toList.map fun range => (base.objectIdx, range)

/-- The bytes of a write through a pointer. -/
def knownWriteMarks (ptrOperand : V) (writeSizeBytes : ℕ) : List Mark :=
  if M.isPointer ptrOperand = false then []
  else
    match M.summarizedSlot T hasSummary ptrOperand with
    | some _ => []
    | none =>
      match M.resolveTrackedObjectBase T ptrOperand with
      | none => []
      | some base => objectMarks base writeSizeBytes

/-- The guaranteed write. -/
def guaranteedMarks (actual : V) (argIdx : ℕ) : List Mark :=
  if M.hasGuaranteedCtorOrSRetWrite call argIdx ∧ M.inferWriteSizeFromPointerOperand actual ≠ 0 then
    M.knownWriteMarks T hasSummary actual (M.inferWriteSizeFromPointerOperand actual)
  else []

/-- The bytes of a write through a pointer in a slot. -/
def slotWriteMarks (base : ResolvedBase V) (slotWrite : PointerSlotWrite) : List Mark :=
  match M.findStoredPointerForTrackedSlotBeforeCall T call base.objectIdx
      (saturatingAdd base.offset slotWrite.slotOffset) with
  | some storedPtr => M.knownWriteMarks T hasSummary storedPtr slotWrite.writeSizeBytes
  | none => []

/-- All of them. -/
def slotMarks (effect : ParamEffect) (base : ResolvedBase V) : List Mark :=
  if base.hasConstOffset then
    effect.pointerSlotWrites.flatMap (M.slotWriteMarks T hasSummary call base)
  else []

/-- The writes for an argument with an effect. -/
def effectMarks (effect : ParamEffect) (base : ResolvedBase V) (actual : V) (argIdx : ℕ) :
    List Mark :=
  M.guaranteedMarks T hasSummary call actual argIdx ++ M.slotMarks T hasSummary call effect base ++
    (mappedWrites effect base).map fun range => (base.objectIdx, range)

/-- **The writes for an argument**: the guaranteed write, the writes through pointers in slots, and
the mapped and clipped ranges. -/
def argumentMarks (calleeSummary : UninitializedSummaryFunction) (arg : V × ℕ) : List Mark :=
  if M.isPointer arg.1 = false then []
  else
    match effectOf calleeSummary arg.2 with
    | none => M.guaranteedMarks T hasSummary call arg.1 arg.2
    | some effect =>
      match M.resolveTrackedObjectBase T arg.1 with
      | none => []
      | some base => M.effectMarks T hasSummary call effect base arg.1 arg.2

/-- **The bytes that a call writes.** -/
def callBytes (calleeSummary : UninitializedSummaryFunction) : Set (ℕ × ℕ) :=
  markBytes (call.args.zipIdx.flatMap (M.argumentMarks T hasSummary call calleeSummary))

/-- **A read is suppressed**: the callee reads something that is not initialised, through the `this`
pointer of a constructor, or from an object that is partially initialised in an assignment. -/
def skips (calleeSummary : UninitializedSummaryFunction) (initialized : InitRangeState)
    (arg : V × ℕ) : Bool :=
  M.isPointer arg.1 &&
    match effectOf calleeSummary arg.2, M.resolveTrackedObjectBase T arg.1 with
    | some effect, some base =>
      (findReads effect base initialized).hasReadBeforeWrite &&
        suppressesRead (M.function call.callee).name (M.isCtorThis call arg.2)
          (objectState base initialized)
    | _, _ => false

/-- The writes for the arguments that are not left out. -/
def appliedMarks (calleeSummary : UninitializedSummaryFunction) :
    List (V × ℕ) → InitRangeState → List Mark
  | [], _ => []
  | arg :: args, initialized =>
    let marks := M.argumentMarks T hasSummary call calleeSummary arg
    if M.skips T call calleeSummary initialized arg then
      appliedMarks calleeSummary args initialized
    else marks ++ appliedMarks calleeSummary args (applyMarks marks initialized)

/-- The writes for the arguments that are left out. -/
def skippedMarks (calleeSummary : UninitializedSummaryFunction) :
    List (V × ℕ) → InitRangeState → List Mark
  | [], _ => []
  | arg :: args, initialized =>
    let marks := M.argumentMarks T hasSummary call calleeSummary arg
    if M.skips T call calleeSummary initialized arg then
      marks ++ skippedMarks calleeSummary args initialized
    else skippedMarks calleeSummary args (applyMarks marks initialized)

/-- **Arguments that are left out write nothing new**: their bytes are initialised before the call,
or written for another argument. -/
def SkipsNothingNew (calleeSummary : UninitializedSummaryFunction)
    (initialized : InitRangeState) : Prop :=
  markBytes (M.skippedMarks T hasSummary call calleeSummary call.args.zipIdx initialized) ⊆
    stateSet initialized ∪
      markBytes (M.appliedMarks T hasSummary call calleeSummary call.args.zipIdx initialized)

end Writes

/-! ## What each operation initialises -/

section Operations

variable {st : CallState V} (call : SummarizedCall V F)

omit [DecidableEq V] in
theorem initializes_markSlotWrite (slot : ResolvedBase V) (writeSizeBytes : ℕ) :
    Initializes [] st (markSlotWrite slot writeSizeBytes st) := by
  unfold markSlotWrite
  split
  · exact initializes_updateParam ..
  · exact initializes_updateParam ..

omit [DecidableEq V] in
theorem initializes_markObjectWrite (base : ResolvedBase V) (writeSizeBytes : ℕ) :
    Initializes (objectMarks base writeSizeBytes) st (markObjectWrite base writeSizeBytes st) := by
  unfold markObjectWrite objectMarks
  cases hrange : writtenRange base writeSizeBytes with
  | none =>
    dsimp only [Option.toList_none, List.map_nil]
    split_ifs
    · exact ⟨rfl, rfl⟩
    · exact .refl st
    · exact initializes_updateParam ..
  | some range =>
    dsimp only [Option.toList_some, List.map_cons, List.map_nil]
    have hadd := initializes_addInitialized st base.objectIdx range
    split_ifs
    · exact ⟨rfl, rfl⟩
    · exact hadd.then_nothing (initializes_updateParam ..)
    · exact hadd.then_nothing (initializes_updateParam ..)

theorem initializes_markKnownWrite (ptrOperand : V) (writeSizeBytes : ℕ) :
    Initializes (M.knownWriteMarks T st.currentSummary.isSome ptrOperand writeSizeBytes) st
      (M.markKnownWriteOnPointerOperand T ptrOperand writeSizeBytes st) := by
  unfold knownWriteMarks markKnownWriteOnPointerOperand
  split_ifs
  · exact .refl st
  cases M.summarizedSlot T st.currentSummary.isSome ptrOperand with
  | some slot => exact initializes_markSlotWrite slot writeSizeBytes
  | none =>
    cases M.resolveTrackedObjectBase T ptrOperand with
    | none => exact .refl st
    | some base => exact initializes_markObjectWrite base writeSizeBytes

theorem initializes_markGuaranteed (actual : V) (argIdx : ℕ) :
    Initializes (M.guaranteedMarks T st.currentSummary.isSome call actual argIdx) st
      (M.markGuaranteed T call actual argIdx st) := by
  unfold guaranteedMarks markGuaranteed markGuaranteedCtorOrSRetWriteOnPointerOperand
  by_cases hwrite : M.hasGuaranteedCtorOrSRetWrite call argIdx = true
  swap
  · simp only [hwrite]
    exact .refl st
  by_cases hsize : M.inferWriteSizeFromPointerOperand actual = 0
  · simp only [hsize, ne_eq, not_true_eq_false, and_false, if_false, if_true, ite_self]
    exact .refl st
  · simp only [hwrite, hsize, ne_eq, not_false_eq_true, and_self, if_true, if_false]
    exact M.initializes_markKnownWrite T actual _

theorem initializes_markConstructed (actual : V) (argIdx : ℕ) :
    Initializes [] st (M.markConstructed T call actual argIdx st) := by
  have hconstructed : Initializes [] st (M.markConstructedOnPointerOperand T actual st) := by
    unfold markConstructedOnPointerOperand
    split
    · split_ifs
      · exact ⟨rfl, rfl⟩
      · exact .refl st
    · exact .refl st
  have hdefault (st' : CallState V) :
      Initializes [] st' (M.markDefaultCtorOnPointerOperand T actual st') := by
    unfold markDefaultCtorOnPointerOperand
    split
    · split_ifs
      · exact ⟨rfl, rfl⟩
      · exact .refl st'
    · exact .refl st'
  unfold markConstructed
  split_ifs
  · exact hconstructed.then_nothing (hdefault _)
  · exact hconstructed
  · exact .refl st

omit [DecidableEq V] in
theorem initializes_reportRead (effect : ParamEffect) (base : ResolvedBase V)
    (found : ReadFindings) : Initializes [] st (M.reportRead call effect base found st) := by
  have hstep (st : CallState V) (range : ByteRange) :
      Initializes [] st (st.updateParam base.obj.argNo fun current => { current with
        readBeforeWriteRanges := addRange current.readBeforeWriteRanges range.begin range.stop }) :=
    initializes_updateParam ..
  have hranges := initializes_foldl (fun _ _ => []) hstep found.uncoveredReadRanges st
  rw [List.flatMap_eq_nil_iff.mpr fun _ _ => rfl] at hranges
  unfold reportRead
  dsimp only
  split_ifs
  · exact ⟨rfl, rfl⟩
  · exact ⟨rfl, rfl⟩
  · exact hranges.then_nothing (initializes_updateParam ..)
  · exact hranges

theorem initializes_applySlotWrite (base : ResolvedBase V) (slotWrite : PointerSlotWrite) :
    Initializes (M.slotWriteMarks T st.currentSummary.isSome call base slotWrite) st
      (M.applySlotWrite T call base st slotWrite) := by
  unfold slotWriteMarks applySlotWrite
  dsimp only
  cases M.findStoredPointerForTrackedSlotBeforeCall T call base.objectIdx
      (saturatingAdd base.offset slotWrite.slotOffset) with
  | none =>
    dsimp only
    split_ifs
    · exact initializes_updateParam ..
    · exact .refl st
  | some storedPtr =>
    have hwrite : Initializes _ st _ :=
      M.initializes_markKnownWrite T storedPtr slotWrite.writeSizeBytes
    dsimp only
    split_ifs
    · exact hwrite.then_nothing (initializes_updateParam ..)
    · exact hwrite

theorem initializes_applySlotWrites (effect : ParamEffect) (base : ResolvedBase V) :
    Initializes (M.slotMarks T st.currentSummary.isSome call effect base) st
      (M.applySlotWrites T call effect base st) := by
  unfold slotMarks applySlotWrites
  by_cases hempty : effect.pointerSlotWrites = []
  · simp only [hempty, List.flatMap_nil, ite_self, if_true]
    exact .refl st
  rw [if_neg hempty]
  split_ifs
  · exact initializes_foldl (fun hasSummary => M.slotWriteMarks T hasSummary call base)
      (fun _ slotWrite => M.initializes_applySlotWrite T call base slotWrite) _ st
  · exact initializes_updateParam ..
  · exact .refl st

omit [DecidableEq V] in
theorem initializes_applyWrites (effect : ParamEffect) (base : ResolvedBase V) :
    Initializes ((mappedWrites effect base).map fun range => (base.objectIdx, range)) st
      (applyWrites effect base st) := by
  have hstep (st' : CallState V) (range : ByteRange) :
      Initializes [(base.objectIdx, range)] st' (applyWriteRange base st' range) := by
    have hadd := initializes_addInitialized st' base.objectIdx range
    unfold applyWriteRange
    dsimp only
    split_ifs
    · exact hadd.then_nothing (initializes_updateParam ..)
    · exact hadd
  have hranges := initializes_foldl (fun _ range => [(base.objectIdx, range)]) hstep
    (mappedWrites effect base) st
  rw [← List.map_eq_flatMap] at hranges
  unfold applyWrites
  dsimp only
  split_ifs
  · exact (hranges.then_nothing (initializes_updateParam ..)).then_nothing ⟨rfl, rfl⟩
  · exact hranges.then_nothing ⟨rfl, rfl⟩
  · exact hranges.then_nothing (initializes_updateParam ..)
  · exact hranges

end Operations

/-! ## The arguments -/

section Arguments

variable {st : CallState V} (call : SummarizedCall V F)
  (calleeSummary : UninitializedSummaryFunction)

/-- The rest of the loop over the arguments: all writes, or nothing if a read is suppressed. -/
theorem applyEffect_spec (effect : ParamEffect) (base : ResolvedBase V) (actual : V)
    (argIdx : ℕ) :
    Initializes
      (if (findReads effect base st.initialized).hasReadBeforeWrite &&
          suppressesRead (M.function call.callee).name (M.isCtorThis call argIdx)
            (objectState base st.initialized) then []
        else M.effectMarks T st.currentSummary.isSome call effect base actual argIdx)
      st (M.applyEffect T call effect base actual argIdx st) := by
  unfold applyEffect effectMarks
  dsimp only
  split
  · exact .refl st
  have hreport : Initializes [] st
      (if (findReads effect base st.initialized).hasReadBeforeWrite then
        M.reportRead call effect base (findReads effect base st.initialized) st else st) := by
    split
    · exact M.initializes_reportRead call ..
    · exact .refl st
  have hguaranteed := hreport.trans (M.initializes_markGuaranteed T call actual argIdx)
  have hslots := hguaranteed.trans (M.initializes_applySlotWrites T call effect base)
  have hwrites := hslots.trans (initializes_applyWrites effect base)
  rw [hguaranteed.summary, hreport.summary] at hwrites
  exact hwrites

/-- **What one argument adds**: all of its writes, or nothing if it is left out. -/
theorem applyArgument_spec (arg : V × ℕ) :
    Initializes
      (if M.skips T call calleeSummary st.initialized arg then []
        else M.argumentMarks T st.currentSummary.isSome call calleeSummary arg)
      st (M.applyArgument T call calleeSummary st arg) := by
  unfold skips argumentMarks applyArgument
  by_cases hpointer : M.isPointer arg.1 = false
  · simp only [hpointer, Bool.false_and, Bool.false_eq_true, if_false, if_true]
    exact .refl st
  rw [Bool.not_eq_false] at hpointer
  simp only [hpointer, Bool.true_and, Bool.true_eq_false, if_false]
  have hconstructed : Initializes [] st (M.markConstructed T call arg.1 arg.2 st) :=
    M.initializes_markConstructed T call arg.1 arg.2
  have hinitialized : (M.markConstructed T call arg.1 arg.2 st).initialized = st.initialized :=
    hconstructed.initialized
  cases effectOf calleeSummary arg.2 with
  | none =>
    have hguaranteed := hconstructed.trans (M.initializes_markGuaranteed T call arg.1 arg.2)
    rw [hconstructed.summary] at hguaranteed
    exact hguaranteed
  | some effect =>
    cases M.resolveTrackedObjectBase T arg.1 with
    | none =>
      simp only [Bool.false_eq_true, if_false]
      exact hconstructed
    | some base =>
      have heffect := hconstructed.trans (M.applyEffect_spec T call effect base arg.1 arg.2)
      rw [hconstructed.summary, hinitialized] at heffect
      exact heffect

/-- A call adds the bytes of the arguments that are not left out. -/
theorem applyArguments_spec (args : List (V × ℕ)) :
    Initializes
      (M.appliedMarks T st.currentSummary.isSome call calleeSummary args st.initialized) st
      (args.foldl (M.applyArgument T call calleeSummary) st) := by
  induction args generalizing st with
  | nil => exact .refl st
  | cons arg args ih =>
    have harg : Initializes _ st _ := M.applyArgument_spec T call calleeSummary arg
    have hrest := harg.trans ih
    unfold appliedMarks
    split_ifs at hrest harg with hskips
    · rw [harg.summary, harg.initialized] at hrest
      simpa [hskips] using hrest
    · rw [harg.summary, harg.initialized] at hrest
      simpa [hskips] using hrest

/-- The arguments that are left out and those that are not make up all arguments. -/
theorem markBytes_applied_union_skipped (hasSummary : Bool) (args : List (V × ℕ))
    (initialized : InitRangeState) :
    markBytes (M.appliedMarks T hasSummary call calleeSummary args initialized) ∪
        markBytes (M.skippedMarks T hasSummary call calleeSummary args initialized) =
      markBytes (args.flatMap (M.argumentMarks T hasSummary call calleeSummary)) := by
  induction args generalizing initialized with
  | nil => simp [appliedMarks, skippedMarks]
  | cons arg args ih =>
    simp only [appliedMarks, skippedMarks, List.flatMap_cons]
    split_ifs
    · rw [markBytes_append, markBytes_append, ← ih initialized, Set.union_left_comm]
    · rw [markBytes_append, markBytes_append,
        ← ih (applyMarks (M.argumentMarks T hasSummary call calleeSummary arg) initialized),
        Set.union_assoc]

end Arguments

/-! ## The objects of the writes -/

section Bounds

variable {hasSummary : Bool} {call : SummarizedCall V F}

theorem objectIdx_lt {ptr : V} {base : ResolvedBase V}
    (h : M.resolveTrackedObjectBase T ptr = some base) : base.objectIdx < T.objects.length := by
  unfold resolveTrackedObjectBase at h
  dsimp only at h
  split at h
  · cases h
  split at h
  · obtain ⟨obj, hobj, rfl⟩ := Option.map_eq_some_iff.mp h
    exact (List.getElem?_eq_some_iff.mp hobj).1
  · obtain ⟨objectIdx, -, hmap⟩ := Option.bind_eq_some_iff.mp h
    obtain ⟨obj, hobj, rfl⟩ := Option.map_eq_some_iff.mp hmap
    exact (List.getElem?_eq_some_iff.mp hobj).1

omit [DecidableEq V] in
theorem objectMarks_lt {base : ResolvedBase V} (hbase : base.objectIdx < T.objects.length)
    {writeSizeBytes : ℕ} : ∀ mark ∈ objectMarks base writeSizeBytes,
      mark.1 < T.objects.length := by
  intro mark hmark
  obtain ⟨range, -, rfl⟩ := List.mem_map.mp hmark
  exact hbase

theorem knownWriteMarks_lt {ptrOperand : V} {writeSizeBytes : ℕ} :
    ∀ mark ∈ M.knownWriteMarks T hasSummary ptrOperand writeSizeBytes,
      mark.1 < T.objects.length := by
  intro mark hmark
  unfold knownWriteMarks at hmark
  split at hmark
  · cases hmark
  split at hmark
  · cases hmark
  split at hmark
  · cases hmark
  next base hbase => exact objectMarks_lt T (M.objectIdx_lt T hbase) mark hmark

theorem guaranteedMarks_lt {actual : V} {argIdx : ℕ} :
    ∀ mark ∈ M.guaranteedMarks T hasSummary call actual argIdx, mark.1 < T.objects.length := by
  intro mark hmark
  unfold guaranteedMarks at hmark
  split at hmark
  · exact M.knownWriteMarks_lt T mark hmark
  · cases hmark

theorem slotMarks_lt {effect : ParamEffect} {base : ResolvedBase V} :
    ∀ mark ∈ M.slotMarks T hasSummary call effect base, mark.1 < T.objects.length := by
  intro mark hmark
  unfold slotMarks at hmark
  split at hmark
  · obtain ⟨slotWrite, -, hslot⟩ := List.mem_flatMap.mp hmark
    unfold slotWriteMarks at hslot
    split at hslot
    · exact M.knownWriteMarks_lt T mark hslot
    · cases hslot
  · cases hmark

theorem argumentMarks_lt {calleeSummary : UninitializedSummaryFunction} {arg : V × ℕ} :
    ∀ mark ∈ M.argumentMarks T hasSummary call calleeSummary arg,
      mark.1 < T.objects.length := by
  intro mark hmark
  unfold argumentMarks at hmark
  split at hmark
  · cases hmark
  split at hmark
  · exact M.guaranteedMarks_lt T mark hmark
  split at hmark
  · cases hmark
  next base hbase =>
    unfold effectMarks at hmark
    rcases List.mem_append.mp hmark with hmark | hmark
    · rcases List.mem_append.mp hmark with hmark | hmark
      · exact M.guaranteedMarks_lt T mark hmark
      · exact M.slotMarks_lt T mark hmark
    · obtain ⟨range, -, rfl⟩ := List.mem_map.mp hmark
      exact M.objectIdx_lt T hbase

theorem appliedMarks_lt {calleeSummary : UninitializedSummaryFunction} {args : List (V × ℕ)}
    {initialized : InitRangeState} :
    ∀ mark ∈ M.appliedMarks T hasSummary call calleeSummary args initialized,
      mark.1 < T.objects.length := by
  induction args generalizing initialized with
  | nil =>
    intro mark hmark
    cases hmark
  | cons arg args ih =>
    intro mark hmark
    unfold appliedMarks at hmark
    dsimp only at hmark
    split at hmark
    · exact ih mark hmark
    · rcases List.mem_append.mp hmark with hmark | hmark
      · exact M.argumentMarks_lt T mark hmark
      · exact ih mark hmark

end Bounds

/-! ## What a call initialises -/

section CallEffect

variable (call : SummarizedCall V F) (calleeSummary : UninitializedSummaryFunction)
  (st : CallState V)

/-- **What a call adds**: the bytes that are written for the arguments that are not left out. -/
theorem applyCallee_spec (h : ValidState T.objects.length st.initialized) :
    ValidState T.objects.length
        (M.applyCalleeSummaryAtCall T call calleeSummary st).initialized ∧
      stateSet (M.applyCalleeSummaryAtCall T call calleeSummary st).initialized =
        stateSet st.initialized ∪ markBytes (M.appliedMarks T st.currentSummary.isSome call
          calleeSummary call.args.zipIdx st.initialized) := by
  have hargs : Initializes _ st _ := M.applyArguments_spec T call calleeSummary call.args.zipIdx
  unfold applyCalleeSummaryAtCall
  rw [hargs.initialized]
  exact applyMarks_spec (M.appliedMarks_lt T) h

/-- **When a call adds all bytes that it writes**, whatever it reads: the arguments that are left out
write nothing new. -/
theorem applyCallee_adds_iff (h : ValidState T.objects.length st.initialized) :
    stateSet (M.applyCalleeSummaryAtCall T call calleeSummary st).initialized =
        stateSet st.initialized ∪ M.callBytes T st.currentSummary.isSome call calleeSummary ↔
      M.SkipsNothingNew T st.currentSummary.isSome call calleeSummary st.initialized := by
  rw [(M.applyCallee_spec T call calleeSummary st h).2, callBytes,
    ← M.markBytes_applied_union_skipped T call calleeSummary _ _ st.initialized,
    ← Set.union_assoc, eq_comm, Set.union_eq_left]
  rfl

end CallEffect

/-! ## A constructor that reads -/

section Constructor

/-- A function calls a constructor, which is defined elsewhere, for a local object (the first value)
of eight bytes. -/
def constructing : UninitModule Bool Bool where
  kind v :=
    if v then .alloca ⟨false, true, false, []⟩
    else .call ⟨[true], some true, fun _ => false, fun _ => false, false, [], false, []⟩
  name v := if v then "a".toList else []
  isPointer v := v
  stripPointerCasts := id
  getUnderlyingObject := id
  function f :=
    if f then ⟨"_ZN1AC1Ev".toList, true, 1, fun _ => false⟩
    else ⟨"main".toList, false, 0, fun _ => false⟩
  instructions f := if f then [] else [true, false]
  shouldAnalyze _ := true
  modelSaysNoEscapeArg _ _ := false
  returnedArgAliases _ := none
  users v := if v then [false] else []
  pointerBase v := (v, 0)
  gepResultSize _ := none
  blocks f := if f then [] else [[true, false]]
  hasStructRet _ _ := false
  callHasStructRet _ _ := false
  debugObjectPointers _ := none
  deriveAllocaName _ := "a".toList

/-- The object. -/
def constructedObject : TrackedObjectContext Bool where
  objects := [⟨⟨.alloca, 8, by decide, by decide⟩, true, 0, none⟩]
  allocaIndex v := if v then some 0 else none
  paramIndex _ := none

/-- The call. -/
def constructorCall : SummarizedCall Bool Bool := ⟨false, [true], false, true⟩

/-- The constructor reads the first four bytes before it writes all eight. -/
def constructorSummary : UninitializedSummaryFunction :=
  [⟨[⟨0, 4⟩], [⟨0, 8⟩], [], false, false⟩]

/-- A state in which only the initialised bytes are asked for. -/
def onlyInitialized {V : Type*} (initialized : InitRangeState) : CallState V :=
  ⟨initialized, none, none, none, none, none, none⟩

/-- The first four bytes are initialised. -/
theorem validState_half : ValidState 1 [[⟨0, 4⟩]] := by
  refine ⟨rfl, fun ranges hranges => ?_⟩
  obtain rfl : ranges = [⟨0, 4⟩] := List.mem_singleton.mp hranges
  exact Canonical.nil.cons (by decide) (by simp)

/-- The theorem, for an object whose first four bytes are initialised. -/
theorem applyCallee_adds_iff_half :
    stateSet (constructing.applyCalleeSummaryAtCall constructedObject constructorCall
        constructorSummary (onlyInitialized [[⟨0, 4⟩]])).initialized =
      stateSet [[⟨0, 4⟩]] ∪
        constructing.callBytes constructedObject false constructorCall constructorSummary :=
  (constructing.applyCallee_adds_iff constructedObject constructorCall constructorSummary
    (onlyInitialized [[⟨0, 4⟩]]) validState_half).mpr (by
      have hskipped : constructing.skippedMarks constructedObject false constructorCall
          constructorSummary constructorCall.args.zipIdx [[⟨0, 4⟩]] = [] := by decide
      unfold SkipsNothingNew
      rw [show (onlyInitialized [[⟨0, 4⟩]] : CallState Bool).initialized = [[⟨0, 4⟩]] from rfl,
        show (onlyInitialized [[⟨0, 4⟩]] : CallState Bool).currentSummary.isSome = false from rfl,
        hskipped]
      simp [markBytes])

/-- **A call does not always add the same bytes**: nothing if no byte is initialised, and all eight
if the first four are. -/
theorem not_addsBytes_constructor :
    ¬ ∃ bytes : Set (ℕ × ℕ), ∀ initialized : InitRangeState, ValidState 1 initialized →
      stateSet (constructing.applyCalleeSummaryAtCall constructedObject constructorCall
          constructorSummary (onlyInitialized initialized)).initialized =
        stateSet initialized ∪ bytes := by
  rintro ⟨bytes, h⟩
  have hnone := h [[]] ⟨rfl, by simp [Canonical.nil]⟩
  have hhalf := h [[⟨0, 4⟩]] validState_half
  rw [show (constructing.applyCalleeSummaryAtCall constructedObject constructorCall
    constructorSummary (onlyInitialized [[]])).initialized = [[]] by decide] at hnone
  rw [show (constructing.applyCalleeSummaryAtCall constructedObject constructorCall
    constructorSummary (onlyInitialized [[⟨0, 4⟩]])).initialized = [[⟨0, 8⟩]] by decide] at hhalf
  have hbyte : ((0, 5) : ℕ × ℕ) ∈ stateSet [[⟨0, 4⟩]] ∪ bytes := by
    rw [← hhalf]
    exact ⟨[⟨0, 8⟩], rfl, ⟨0, 8⟩, List.mem_singleton_self _, by decide, by decide⟩
  rcases hbyte with hbyte | hbyte
  · obtain ⟨ranges, hranges, range, hrange, -, hlt⟩ := hbyte
    obtain rfl : [⟨0, 4⟩] = ranges := Option.some.inj hranges
    obtain rfl : range = ⟨0, 4⟩ := List.mem_singleton.mp hrange
    exact absurd hlt (by decide)
  · have hempty : ((0, 5) : ℕ × ℕ) ∈ stateSet [[]] := by
      rw [hnone]
      exact Or.inr hbyte
    obtain ⟨ranges, hranges, range, hrange, -⟩ := hempty
    obtain rfl : [] = ranges := Option.some.inj hranges
    cases hrange

end Constructor

end UninitModule

end StackAnalyzer.Uninit
