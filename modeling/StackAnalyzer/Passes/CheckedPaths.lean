import StackAnalyzer.Graph.Reach
import StackAnalyzer.Passes.PerFunctionPasses

set_option relaxedAutoImplicit false
set_option autoImplicit false

/-!
# Checks that are executed before uses

A use of a path is reported with the first check of likely the same path that stands before it. The
blocks of a function may stand in any order. So a check that stands before a use may be one of
another branch, and in a loop a check that stands behind it may be executed before it.

## Main definitions

* `StackAnalyzer.Passes.FlowFunction` — a function with its blocks.
* `StackAnalyzer.Passes.ExecutesLater` — a path executes one instruction, and later another one.
* `StackAnalyzer.Passes.FollowsControlFlow` — the reports are those of paths.
* `StackAnalyzer.Passes.LayoutAgrees` — first checks stand before a use exactly if paths execute
  them before.

## Main results

* `StackAnalyzer.Passes.mem_reportedPairs_iff` — what is reported.
* `StackAnalyzer.Passes.followsControlFlow_iff` — when the reports are those of paths.
* `StackAnalyzer.Passes.not_followsControlFlow_exclusive` — a check and a use that exclude each
  other.
-/

namespace StackAnalyzer.Passes

open Graph

/-! ## Functions with blocks -/

/-- A function with its blocks, in the order of the layout. -/
structure FlowFunction (B V : Type*) extends Function V where
  blocks : List B
  code : B → List (Instruction V)
  successors : B → List B
  nodup : blocks.Nodup
  layout : instructions = blocks.flatMap code

section Positions

variable {B V : Type*} (fn : FlowFunction B V)

/-- The instruction with a number, counted from one, stands in a block behind `before` others. -/
def StandsIn (order : ℕ) (b : B) (before : ℕ) : Prop :=
  before < (fn.code b).length ∧ ∃ pre post, fn.blocks = pre ++ b :: post ∧
    order = (pre.flatMap fn.code).length + before + 1

/-- **A path executes one instruction, and later another one**: in the same block, or in a block
that it comes to later. -/
def ExecutesLater (first later : ℕ) : Prop :=
  ∃ b c i j, StandsIn fn first b i ∧ StandsIn fn later c j ∧
    ((b = c ∧ i < j) ∨ Relation.TransGen (Edge fn.successors) b c)

end Positions

variable {B V : Type*} [DecidableEq V] (values : ValueTable V)

/-! ## Reports -/

section Reports

/-- The events of a function. -/
def pathEvents (fn : Function V) : PathEvents V :=
  (fn.instructions.map Instruction.asCallBase).foldl (PathEvents.visit values) {}

/-- The check and the use of each issue: the loops of `analyzeTOCTOU`. -/
def reportedPairs (events : PathEvents V) : List (PathEvent V × PathEvent V) :=
  events.uses.filterMap fun useEvent =>
    (events.checks.find? fun checkEvent =>
      !decide (checkEvent.order ≥ useEvent.order) && likelySamePath checkEvent useEvent).map
    fun checkEvent => (checkEvent, useEvent)

/-- They are those of the issues. -/
theorem analyzeTOCTOU_eq_map (fn : Function V) : analyzeTOCTOU values fn =
    (reportedPairs (pathEvents values fn)).map fun pair =>
      ⟨fn.name, fn.filePath, pair.1.api, pair.2.api, pair.2.inst⟩ := by
  unfold analyzeTOCTOU reportUses reportedPairs pathEvents
  rw [List.map_filterMap]
  refine List.filterMap_congr fun useEvent _ => ?_
  rw [Option.map_map]
  rfl

/-- An instruction of the function is a check, or a use. -/
def EventOf (fn : Function V) (isCheck : Bool) (event : PathEvent V) : Prop :=
  ∃ i call, fn.instructions[i]?.bind Instruction.asCallBase = some call ∧
    pathEvent values (i + 1) call = some (isCheck, event)

/-- **The reports follow the control flow**: a use is reported with a check only if some path
executes the check and later the use, and each use is reported that some path executes after a check
of likely the same path. -/
structure FollowsControlFlow (fn : FlowFunction B V) : Prop where
  sound : ∀ pair ∈ reportedPairs (pathEvents values fn.toFunction),
    ExecutesLater fn pair.1.order pair.2.order
  complete : ∀ check use, EventOf values fn.toFunction true check →
    EventOf values fn.toFunction false use → likelySamePath check use = true →
    ExecutesLater fn check.order use.order →
      ∃ first, (first, use) ∈ reportedPairs (pathEvents values fn.toFunction)

/-- The check of likely the same path as a use that stands before all others. -/
structure FirstCheck (fn : Function V) (check use : PathEvent V) : Prop where
  event : EventOf values fn true check
  same : likelySamePath check use = true
  first : ∀ other, EventOf values fn true other → likelySamePath other use = true →
    check.order ≤ other.order

/-- **The layout agrees with the control flow**: the first check of likely the same path as a use
stands before it, and some path executes it before; or it stands behind it, and no path executes any
such check before. -/
def LayoutAgrees (fn : FlowFunction B V) : Prop :=
  ∀ use, EventOf values fn.toFunction false use →
    ∀ check, FirstCheck values fn.toFunction check use →
      (check.order < use.order ∧ ExecutesLater fn check.order use.order) ∨
        (use.order ≤ check.order ∧ ∀ other, EventOf values fn.toFunction true other →
          likelySamePath other use = true → ¬ ExecutesLater fn other.order use.order)

end Reports

/-! ## What is reported -/

section Events

/-- The event of a call behind a number of instructions, if it is a check or not. -/
def eventAt (isCheck : Bool) (x : Option (CallBase V) × ℕ) : Option (PathEvent V) :=
  (x.1.bind (pathEvent values (x.2 + 1))).bind fun e => if e.1 = isCheck then some e.2 else none

variable {values}

/-- The order of an event is the number of its instruction. -/
theorem order_of_pathEvent {order : ℕ} {call : CallBase V} {e : Bool × PathEvent V}
    (h : pathEvent values order call = some e) : e.2.order = order := by
  unfold pathEvent at h
  obtain ⟨callee, -, h⟩ := Option.bind_eq_some_iff.mp h
  obtain ⟨argIndex, -, h⟩ := Option.bind_eq_some_iff.mp h
  obtain ⟨arg, -, rfl⟩ := Option.map_eq_some_iff.mp h
  rfl

theorem eventAt_eq_some_iff {isCheck : Bool} {x : Option (CallBase V) × ℕ} {event : PathEvent V} :
    eventAt values isCheck x = some event ↔
      x.1.bind (pathEvent values (x.2 + 1)) = some (isCheck, event) := by
  unfold eventAt
  cases x.1.bind (pathEvent values (x.2 + 1)) with
  | none => simp
  | some e => by_cases he : e.1 = isCheck <;> simp [he, Prod.ext_iff]

/-- The events after some instructions. -/
theorem foldl_visit (cs : List (Option (CallBase V))) :
    cs.foldl (PathEvents.visit values) {} =
      { checks := cs.zipIdx.filterMap (eventAt values true)
        uses := cs.zipIdx.filterMap (eventAt values false)
        order := cs.length } := by
  induction cs using List.reverseRecOn with
  | nil => rfl
  | append_singleton cs x ih =>
    rw [List.foldl_append, ih, List.foldl_cons, List.foldl_nil, List.zipIdx_append,
      List.filterMap_append, List.filterMap_append, List.length_append, Nat.zero_add]
    unfold PathEvents.visit
    cases hevent : x.bind (pathEvent values (cs.length + 1)) with
    | none => simp [eventAt, hevent]
    | some e => obtain ⟨isCheck, event⟩ := e; cases isCheck <;> simp [eventAt, hevent]

/-- The numbers of instructions increase. -/
theorem pairwise_zipIdx {α : Type*} (l : List α) (k : ℕ) :
    (l.zipIdx k).Pairwise fun x y => x.2 < y.2 := by
  induction l generalizing k with
  | nil => exact .nil
  | cons a l ih =>
    rw [List.zipIdx_cons]
    refine .cons (fun y hy => ?_) (ih (k + 1))
    exact (List.mem_zipIdx hy).1

/-- So do the orders of events. -/
theorem pairwise_order (isCheck : Bool) (cs : List (Option (CallBase V))) :
    (cs.zipIdx.filterMap (eventAt values isCheck)).Pairwise fun e e' => e.order < e'.order := by
  refine List.Pairwise.filterMap _ (fun x y hlt e he e' he' => ?_) (pairwise_zipIdx cs 0)
  rw [eventAt_eq_some_iff] at he he'
  obtain ⟨call, -, he⟩ := Option.bind_eq_some_iff.mp he
  obtain ⟨call', -, he'⟩ := Option.bind_eq_some_iff.mp he'
  have horder : e.order = x.2 + 1 := order_of_pathEvent he
  have horder' : e'.order = y.2 + 1 := order_of_pathEvent he'
  omega

/-- The events in a list are those of the function. -/
theorem mem_events_iff {fn : Function V} {isCheck : Bool} {event : PathEvent V} :
    event ∈ (fn.instructions.map Instruction.asCallBase).zipIdx.filterMap
        (eventAt values isCheck) ↔ EventOf values fn isCheck event := by
  simp only [List.mem_filterMap, Prod.exists, eventAt_eq_some_iff, List.mk_mem_zipIdx_iff_getElem?,
    List.getElem?_map, Option.map_eq_some_iff]
  constructor
  · rintro ⟨_, i, ⟨inst, hinst, rfl⟩, h⟩
    obtain ⟨call, hcall, h⟩ := Option.bind_eq_some_iff.mp h
    exact ⟨i, call, by rw [hinst, Option.bind_some, hcall], h⟩
  · rintro ⟨i, call, hcall, h⟩
    obtain ⟨inst, hinst, hcall⟩ := Option.bind_eq_some_iff.mp hcall
    exact ⟨_, i, ⟨inst, hinst, rfl⟩, by rw [hcall, Option.bind_some, h]⟩

omit [DecidableEq V] in
/-- What is found in a list of events is the first one. -/
theorem find_eq_some_iff {events : List (PathEvent V)} {p : PathEvent V → Bool} {event : PathEvent V}
    (hsorted : events.Pairwise fun e e' => e.order < e'.order) :
    events.find? p = some event ↔
      event ∈ events ∧ p event = true ∧ ∀ e ∈ events, p e = true → event.order ≤ e.order := by
  induction events with
  | nil => simp
  | cons e events ih =>
    obtain ⟨hlt, hsorted⟩ := List.pairwise_cons.mp hsorted
    rw [List.find?_cons]
    cases hp : p e with
    | true =>
      rw [List.forall_mem_cons, List.mem_cons, Option.some_inj]
      constructor
      · rintro rfl
        exact ⟨Or.inl rfl, hp, fun _ => le_rfl, fun e' he' _ => (hlt e' he').le⟩
      · rintro ⟨rfl | hmem, -, hle, -⟩
        · rfl
        · exact absurd (hlt event hmem) (not_lt.mpr (hle hp))
    | false =>
      have hne : ∀ {e'}, p e' = true → e' ≠ e := by
        rintro e' he' rfl
        rw [hp] at he'
        cases he'
      rw [ih hsorted, List.forall_mem_cons, List.mem_cons]
      constructor
      · rintro ⟨hmem, hevent, hle⟩
        exact ⟨Or.inr hmem, hevent, fun he => absurd rfl (hne he), hle⟩
      · rintro ⟨hmem, hevent, -, hle⟩
        exact ⟨hmem.resolve_left (hne hevent), hevent, hle⟩

/-- **What is reported**: a use with the first check of likely the same path, if it stands before. -/
theorem mem_reportedPairs_iff {fn : Function V} {check use : PathEvent V} :
    (check, use) ∈ reportedPairs (pathEvents values fn) ↔
      EventOf values fn false use ∧ FirstCheck values fn check use ∧ check.order < use.order := by
  unfold reportedPairs pathEvents
  rw [foldl_visit, List.mem_filterMap]
  simp only [Option.map_eq_some_iff, find_eq_some_iff (pairwise_order _ _), mem_events_iff,
    Bool.and_eq_true, Bool.not_eq_true', decide_eq_false_iff_not, not_le, ge_iff_le,
    Prod.mk.injEq]
  constructor
  · rintro ⟨use, huse, check, ⟨hcheck, ⟨hlt, hsame⟩, hfirst⟩, rfl, rfl⟩
    refine ⟨huse, ⟨hcheck, hsame, fun other hother hother' => ?_⟩, hlt⟩
    by_contra hnot
    exact hnot (hfirst other hother ⟨by omega, hother'⟩)
  · rintro ⟨huse, hfirst, hlt⟩
    exact ⟨use, huse, check, ⟨hfirst.event, ⟨hlt, hfirst.same⟩,
      fun other hother hother' => hfirst.first other hother hother'.2⟩, rfl, rfl⟩

/-- If there is a check of likely the same path, then there is a first one. -/
theorem exists_firstCheck {fn : Function V} {check use : PathEvent V}
    (hcheck : EventOf values fn true check) (hsame : likelySamePath check use = true) :
    ∃ first, FirstCheck values fn first use := by
  induction hn : check.order using Nat.strong_induction_on generalizing check with
  | _ n ih =>
    by_cases hfirst : ∀ other, EventOf values fn true other → likelySamePath other use = true →
        check.order ≤ other.order
    · exact ⟨check, hcheck, hsame, hfirst⟩
    · push Not at hfirst
      obtain ⟨other, hother, hother', hlt⟩ := hfirst
      exact ih other.order (hn ▸ hlt) hother hother' rfl

end Events

/-- **When the reports follow the control flow**: the layout agrees with it. -/
theorem followsControlFlow_iff (values : ValueTable V) (fn : FlowFunction B V) :
    FollowsControlFlow values fn ↔ LayoutAgrees values fn := by
  constructor
  · intro h use huse check hfirst
    by_cases hlt : check.order < use.order
    · exact Or.inl ⟨hlt, h.sound _ (mem_reportedPairs_iff.mpr ⟨huse, hfirst, hlt⟩)⟩
    · refine Or.inr ⟨not_lt.mp hlt, fun other hother hsame hlater => ?_⟩
      obtain ⟨first, hreported⟩ := h.complete other use hother huse hsame hlater
      obtain ⟨-, hfirst', hlt'⟩ := mem_reportedPairs_iff.mp hreported
      exact hlt ((hfirst.first first hfirst'.event hfirst'.same).trans_lt hlt')
  · intro h
    refine ⟨?_, fun check use hcheck huse hsame hlater => ?_⟩
    · rintro ⟨check, use⟩ hpair
      obtain ⟨huse, hfirst, hlt⟩ := mem_reportedPairs_iff.mp hpair
      rcases h use huse check hfirst with ⟨-, hlater⟩ | ⟨hle, -⟩
      · exact hlater
      · exact absurd hlt (not_lt.mpr hle)
    · obtain ⟨first, hfirst⟩ := exists_firstCheck hcheck hsame
      rcases h use huse first hfirst with ⟨hlt, -⟩ | ⟨-, hnone⟩
      · exact ⟨first, mem_reportedPairs_iff.mpr ⟨huse, hfirst, hlt⟩⟩
      · exact absurd hlater (hnone check hcheck hsame)

/-! ## A check and a use that exclude each other -/

section Exclusive

/-- The example has three blocks. -/
theorem neZero_three : NeZero 3 := ⟨three_ne_zero⟩

attribute [local instance] neZero_three

/-- A call of a function with a path. -/
def namedCall (value : ℕ) (name : String) : CallBase ℕ := ⟨value, some ⟨name, name, none⟩, [0]⟩

/-- The blocks of `if (c) access(p, R_OK); else open(p, O_RDONLY);`. -/
def exclusiveCode (b : Fin 3) : List (Instruction ℕ) :=
  match b with
  | 0 => [.other]
  | 1 => [.call (namedCall 1 "access"), .other]
  | 2 => [.call (namedCall 2 "open"), .other]

/-- This function. -/
def exclusive : FlowFunction (Fin 3) ℕ where
  name := "f"
  filePath := "f.cpp"
  isDeclaration := false
  instructions := [0, 1, 2].flatMap exclusiveCode
  tryGetConstFromValue _ := false
  blocks := [0, 1, 2]
  code := exclusiveCode
  successors b := if b = 0 then [1, 2] else []
  nodup := by decide
  layout := rfl

/-- No value is known. -/
def noValues : ValueTable ℕ := ⟨fun _ => .other, id, id, fun _ => []⟩

/-- Where the instructions stand. -/
theorem standsIn_exclusive {order i : ℕ} {b : Fin 3} (h : StandsIn exclusive order b i) :
    (b = 0 ∧ i = 0 ∧ order = 1) ∨ (b = 1 ∧ i < 2 ∧ order = i + 2) ∨
      (b = 2 ∧ i < 2 ∧ order = i + 4) := by
  obtain ⟨hi, pre, post, hblocks, horder⟩ := h
  obtain _ | ⟨b₀, _ | ⟨b₁, _ | ⟨b₂, _ | _⟩⟩⟩ := pre <;> cases hblocks
  · have hi : i < 1 := hi
    have horder : order = 0 + i + 1 := horder
    exact Or.inl ⟨rfl, by omega, by omega⟩
  · have horder : order = 1 + i + 1 := horder
    exact Or.inr (Or.inl ⟨rfl, hi, by omega⟩)
  · have horder : order = 3 + i + 1 := horder
    exact Or.inr (Or.inr ⟨rfl, hi, by omega⟩)

/-- **The reports do not follow the control flow**: no path executes both. -/
theorem not_followsControlFlow_exclusive : ¬ FollowsControlFlow noValues exclusive := by
  intro h
  have hpair : (⟨"", "access", 1, 0, 2⟩, ⟨"", "open", 2, 0, 4⟩) ∈
      reportedPairs (pathEvents noValues exclusive.toFunction) := List.mem_singleton_self _
  obtain ⟨b, c, i, j, hfirst, hlater, hpath⟩ := h.sound _ hpair
  have hfirst : StandsIn exclusive 2 b i := hfirst
  have hlater : StandsIn exclusive 4 c j := hlater
  have hb : b = 1 := by
    rcases standsIn_exclusive hfirst with ⟨-, -, h⟩ | ⟨rfl, -, -⟩ | ⟨-, -, h⟩
    · cases h
    · rfl
    · omega
  have hc : c = 2 := by
    rcases standsIn_exclusive hlater with ⟨-, -, h⟩ | ⟨-, hj, h⟩ | ⟨rfl, -, -⟩
    · cases h
    · omega
    · rfl
  subst hb hc
  rcases hpath with ⟨hsame, -⟩ | hpath
  · cases hsame
  · obtain ⟨d, hedge, -⟩ := Relation.TransGen.head'_iff.mp hpath
    exact List.not_mem_nil hedge

end Exclusive

end StackAnalyzer.Passes
