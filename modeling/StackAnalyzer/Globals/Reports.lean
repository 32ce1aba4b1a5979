import StackAnalyzer.Globals.Recorded

set_option relaxedAutoImplicit false
set_option autoImplicit false

/-!
# When reports of reads before writes are true

A report names a read of a global. It says that the read may come before every write of the
function, that the function has no write at all, or that another function writes the global. This
file says for which programs all reports are true.

## Main definitions

* `StackAnalyzer.Globals.IssueTrue` — what a report says.
* `StackAnalyzer.Globals.FirstRead` — the read of a global that is reported.
* `StackAnalyzer.Globals.Meets` — the programs without false reports.

## Main results

* `StackAnalyzer.Globals.issueTrue_iff_meets` — all reports are true exactly for these programs.
-/

namespace StackAnalyzer.Globals

open Maps Graph

variable {F G V B I : Type*} [DecidableEq G] [DecidableEq I] [DecidableEq B]

/-! ## What a report says -/

/-- Two modules mean the same global: it is one global of one module, or both have a global of that
name that is not local. -/
def SameGlobal (loadedModules : List (Module F G V B I)) (k : ℕ) (g : G) (k' : ℕ) (g' : G) : Prop :=
  k = k' ∧ g = g' ∨ ∃ mod mod' : Module F G V B I, loadedModules[k]? = some mod ∧
    loadedModules[k']? = some mod' ∧ (mod.global g).name = (mod'.global g').name ∧
    (mod.global g).name ≠ "" ∧ (mod.global g).hasLocalLinkage = false ∧
    (mod'.global g').hasLocalLinkage = false

/-- Some function other than `f` of module `k` writes the global. -/
def WrittenElsewhere (loadedModules : List (Module F G V B I)) (k : ℕ) (f : F) (g : G) : Prop :=
  ∃ k' mod' f' i g', loadedModules[k']? = some mod' ∧ f' ∈ mod'.functions ∧ (k', f') ≠ (k, f) ∧
    i ∈ (mod'.function f').instructions ∧ mod'.WritesGlobal (mod'.function f') i g' ∧
    SameGlobal loadedModules k g k' g'

/-- What an issue for a global of a function says:
a path arrives at the read without a write of the global, the function has no other write if the
issue says so, and some other function has one if the issue says so. -/
structure IssueTrue (loadedModules : List (Module F G V B I)) (k : ℕ) (mod : Module F G V B I)
    (f : F) (g : G) (issue : GlobalReadBeforeWriteIssue I) : Prop where
  unwritten : ∃ t, (mod.function f).cfg.ExecutedBefore issue.readInst t ∧
    ∀ w ∈ t, ¬ mod.WritesGlobal (mod.function f) w g
  withoutLocalWrite : issue.kind = .withoutLocalWrite →
    ∀ w ∈ (mod.function f).instructions, mod.WritesGlobal (mod.function f) w g →
      w = issue.readInst
  nonLocalWrite : issue.hasNonLocalWrite = true → WrittenElsewhere loadedModules k f g

/-- `issue` is the issue that is returned for the global `g` in `f`. -/
def IssueFor (mod : Module F G V B I) (externalSummaries : Option SummaryIndex)
    (enumerate : F → List (G × SelectedRead I)) (f : F) (g : G)
    (issue : GlobalReadBeforeWriteIssue I) : Prop :=
  f ∈ mod.selected ∧ ∃ selected, (g, selected) ∈ enumerate f ∧
    issue = toIssue mod (mod.function f)
      (recordFunction mod externalSummaries (mod.function f)) (g, selected)

omit [DecidableEq I] [DecidableEq B] in
/-- Every returned issue is the issue of a global in a function. -/
theorem mem_analyzeGlobalReadBeforeWrites_iff (mod : Module F G V B I)
    (externalSummaries : Option SummaryIndex) (enumerate : F → List (G × SelectedRead I))
    (issue : GlobalReadBeforeWriteIssue I) :
    issue ∈ analyzeGlobalReadBeforeWrites mod externalSummaries enumerate ↔
      ∃ f g, IssueFor mod externalSummaries enumerate f g issue := by
  constructor
  · intro h
    obtain ⟨f, hf, h⟩ := List.mem_flatMap.mp h
    obtain ⟨⟨g, selected⟩, hmem, heq⟩ := List.mem_map.mp h
    exact ⟨f, g, hf, selected, hmem, heq.symm⟩
  · rintro ⟨f, g, hf, selected, hmem, rfl⟩
    exact List.mem_flatMap.mpr ⟨f, hf, List.mem_map.mpr ⟨(g, selected), hmem, rfl⟩⟩

/-! ## Programs without false reports -/

variable (loadedModules : List (Module F G V B I)) (mod : Module F G V B I)

/-- A write of the function to the global, other than by the read. -/
def OtherWrite (f : F) (g : G) (r w : I) : Prop :=
  w ∈ (mod.function f).instructions ∧ mod.WritesGlobal (mod.function f) w g ∧ w ≠ r

/-- A read of a tracked global that no single write dominates. -/
structure UndominatedRead (f : F) (g : G) (r : I) : Prop where
  mem : r ∈ (mod.function f).instructions
  reads : mod.ReadsGlobal (mod.function f) r g
  tracked : mod.Tracked (buildCrossTUGlobalReadBeforeWriteSummaryIndex loadedModules) g
  undominated : ∀ w, OtherWrite mod f g r w → ¬ (mod.function f).cfg.Dominates w r

/-- The first of them, in the order of the instructions. -/
structure FirstRead (f : F) (g : G) (r : I) : Prop extends
    UndominatedRead loadedModules mod f g r where
  first : ∀ r', UndominatedRead loadedModules mod f g r' →
    (mod.function f).instructionOrder r ≤ (mod.function f).instructionOrder r'

/-- The writes of a global together cover every path to the read, though none of them alone does. -/
def JointlyCovered (f : F) (g : G) (r : I) : Prop :=
  ∀ t, (mod.function f).cfg.ExecutedBefore r t →
    ∃ w ∈ t, mod.WritesGlobal (mod.function f) w g ∧ w ≠ r

/-- The programs without false reports for a module: at the first read of a global that no single
write dominates,
* the writes do not cover the read together,
* it dominates a write, if there are other writes,
* and if there are several modules, a name that is written is the name of a global that another
  function writes. -/
def Meets (k : ℕ) : Prop :=
  ∀ f ∈ mod.selected, ∀ g r, FirstRead loadedModules mod f g r →
    ¬ JointlyCovered mod f g r ∧
    ((∃ w, OtherWrite mod f g r w) →
      ∃ w, OtherWrite mod f g r w ∧ (mod.function f).cfg.Dominates r w) ∧
    (2 ≤ loadedModules.length →
      (∃ mod' ∈ loadedModules, mod'.WritesName (mod.global g).name) →
      WrittenElsewhere loadedModules k f g)

/-! ## The reported reads -/

section Reported

variable {loadedModules mod} {dominates : F → I → I → Bool}
  {enumerate : F → List (G × SelectedRead I)}

/-- The dominator trees of the analysed functions. -/
def IsDominatorTree (mod : Module F G V B I) (dominates : F → I → I → Bool) : Prop :=
  ∀ f ∈ mod.selected, ∀ i ∈ (mod.function f).instructions, ∀ j ∈ (mod.function f).instructions,
    (dominates f i j = true ↔ (mod.function f).cfg.Dominates i j)

/-- A recorded read has a result of the scan exactly when no single write dominates it. -/
theorem undominatedRead_iff (hdom : IsDominatorTree mod dominates) {f : F} (hf : f ∈ mod.selected)
    (g : G) (r : I) :
    let recorded := recordFunction mod
      (buildCrossTUGlobalReadBeforeWriteSummaryIndex loadedModules) (mod.function f)
    UndominatedRead loadedModules mod f g r ↔ (r, g) ∈ recorded.reads ∧
      scanRead (dominates f) (mod.function f).instructionOrder recorded.writesByGlobal r g ≠
        none := by
  intro recorded
  rw [mem_reads_recordFunction, scanRead, Ne, scanWrites_eq_none_iff]
  constructor
  · intro h
    refine ⟨⟨h.mem, h.reads, h.tracked⟩, ?_⟩
    rintro ⟨w, hw, hne, hdominates⟩
    obtain ⟨hmem, hwrites, -⟩ := (mem_writes_recordFunction mod _ (mod.function f) w g).mp hw
    exact h.undominated w ⟨hmem, hwrites, hne⟩ ((hdom f hf w hmem r h.mem).mp hdominates)
  · rintro ⟨⟨hmem, hreads, htracked⟩, hnot⟩
    refine ⟨hmem, hreads, htracked, fun w hw hdominates => hnot ⟨w, ?_, hw.2.2, ?_⟩⟩
    · exact (mem_writes_recordFunction mod _ (mod.function f) w g).mpr ⟨hw.1, hw.2.1, htracked⟩
    · exact (hdom f hf w hw.1 r hmem).mpr hdominates

omit [DecidableEq B] in
/-- Different instructions have different positions. -/
theorem eq_of_instructionOrder_eq {fn : Function V B I} {i j : I} (hi : i ∈ fn.instructions)
    (h : fn.instructionOrder i = fn.instructionOrder j) : i = j :=
  (List.idxOf_inj hi).mp h

/-- **The read of a reported global** is the first one that no single write dominates. -/
theorem firstRead_of_mem (hdom : IsDominatorTree mod dominates)
    (henum : IsEnumeration mod (buildCrossTUGlobalReadBeforeWriteSummaryIndex loadedModules)
      dominates enumerate)
    {f : F} (hf : f ∈ mod.selected) {g : G} {selected : SelectedRead I}
    (hmem : (g, selected) ∈ enumerate f) : FirstRead loadedModules mod f g selected.inst := by
  have hfind := EntryMap.find_eq_some_iff.mpr ((henum f hf).mem_iff.mp hmem)
  have hsel := mod.isSelection_selectedReads (dominates f)
    (buildCrossTUGlobalReadBeforeWriteSummaryIndex loadedModules) f
  have hund := (undominatedRead_iff hdom hf g selected.inst).mpr
    ⟨hsel.mem g selected hfind, by rw [hsel.scan g selected hfind]; exact Option.some_ne_none _⟩
  refine ⟨hund, fun r' hr' => ?_⟩
  obtain ⟨hreads, hscan⟩ := (undominatedRead_iff hdom hf g r').mp hr'
  exact hsel.first g selected hfind r' hreads hscan

/-- Every global with a read that no single write dominates is reported. -/
theorem exists_mem_of_firstRead (hdom : IsDominatorTree mod dominates)
    (henum : IsEnumeration mod (buildCrossTUGlobalReadBeforeWriteSummaryIndex loadedModules)
      dominates enumerate)
    {f : F} (hf : f ∈ mod.selected) {g : G} {r : I} (h : FirstRead loadedModules mod f g r) :
    ∃ selected, (g, selected) ∈ enumerate f ∧ selected.inst = r := by
  obtain ⟨hreads, hscan⟩ := (undominatedRead_iff hdom hf g r).mp h.toUndominatedRead
  have hsel := mod.isSelection_selectedReads (dominates f)
    (buildCrossTUGlobalReadBeforeWriteSummaryIndex loadedModules) f
  cases hfind : (mod.selectedReads (dominates f)
      (buildCrossTUGlobalReadBeforeWriteSummaryIndex loadedModules) f).find g with
  | none => exact absurd (hsel.absent g hfind r hreads) hscan
  | some selected =>
    have hmem : (g, selected) ∈ enumerate f :=
      (henum f hf).mem_iff.mpr (EntryMap.find_eq_some_iff.mp hfind)
    have hfirst := firstRead_of_mem hdom henum hf hmem
    refine ⟨selected, hmem, eq_of_instructionOrder_eq hfirst.mem (le_antisymm ?_ ?_)⟩
    · exact hfirst.first r h.toUndominatedRead
    · exact h.first selected.inst hfirst.toUndominatedRead

/-- **The kind** of a reported read: it dominates no write. -/
theorem kind_eq_withoutLocalWrite_iff (hdom : IsDominatorTree mod dominates)
    (henum : IsEnumeration mod (buildCrossTUGlobalReadBeforeWriteSummaryIndex loadedModules)
      dominates enumerate)
    {f : F} (hf : f ∈ mod.selected) {g : G} {selected : SelectedRead I}
    (hmem : (g, selected) ∈ enumerate f) :
    selected.kind = .withoutLocalWrite ↔ ¬ ∃ w, OtherWrite mod f g selected.inst w ∧
      (mod.function f).cfg.Dominates selected.inst w := by
  have hfirst := firstRead_of_mem hdom henum hf hmem
  have hfind := EntryMap.find_eq_some_iff.mpr ((henum f hf).mem_iff.mp hmem)
  have hsel := mod.isSelection_selectedReads (dominates f)
    (buildCrossTUGlobalReadBeforeWriteSummaryIndex loadedModules) f
  have hsome := isSome_of_scanWrites (dominates f) (mod.function f).instructionOrder
    selected.inst _ none _ (hsel.scan g selected hfind)
  have hkind : selected.kind = .withoutLocalWrite ↔ ¬ selected.firstWrite.isSome = true := by
    rw [hsel.kind g selected hfind]
    split_ifs with h <;> simp [h]
  rw [hkind, hsome, or_iff_right (by simp)]
  refine not_congr ⟨?_, ?_⟩
  · rintro ⟨w, hw, hne, hdominates⟩
    obtain ⟨hin, hwrites, -⟩ := (mem_writes_recordFunction mod _ (mod.function f) w g).mp hw
    exact ⟨w, ⟨hin, hwrites, hne⟩, (hdom f hf _ hfirst.mem w hin).mp hdominates⟩
  · rintro ⟨w, ⟨hin, hwrites, hne⟩, hdominates⟩
    refine ⟨w, ?_, hne, (hdom f hf _ hfirst.mem w hin).mpr hdominates⟩
    exact (mem_writes_recordFunction mod _ (mod.function f) w g).mpr
      ⟨hin, hwrites, hfirst.tracked⟩

omit [DecidableEq G] [DecidableEq I] [DecidableEq B] in
/-- What the index says of a global. -/
theorem knownWrite_iff (g : G) :
    mod.knownWrite (buildCrossTUGlobalReadBeforeWriteSummaryIndex loadedModules) g = true ↔
      2 ≤ loadedModules.length ∧ ∃ mod' ∈ loadedModules, mod'.WritesName (mod.global g).name := by
  unfold Module.knownWrite lookupExternalSummary
  cases hindex : buildCrossTUGlobalReadBeforeWriteSummaryIndex loadedModules with
  | none =>
    have hshort : loadedModules.length < 2 := by
      unfold buildCrossTUGlobalReadBeforeWriteSummaryIndex at hindex
      by_contra hlong
      rw [if_neg hlong] at hindex
      exact absurd hindex (Option.some_ne_none _)
    simp [hshort]
  | some index =>
    have hlong : 2 ≤ loadedModules.length := by
      unfold buildCrossTUGlobalReadBeforeWriteSummaryIndex at hindex
      by_contra hshort
      rw [if_pos (not_le.mp hshort)] at hindex
      exact absurd hindex.symm (Option.some_ne_none _)
    have hknows := knows_buildCrossTU_iff hindex (mod.global g).name
    rw [← hknows, Option.bind_some]
    by_cases hname : (mod.global g).name = ""
    · have hnot : ¬ index.Knows (mod.global g).name := by
        rw [hknows]
        rintro ⟨mod', -, hne, -⟩
        exact hne hname
      rw [if_pos hname, iff_false_right (fun h => hnot h.2)]
      simp
    · rw [if_neg hname]
      exact (and_iff_right hlong).symm

omit [DecidableEq G] [DecidableEq I] [DecidableEq B] in
/-- A path without other writes can be cut where it first arrives. -/
theorem not_jointlyCovered_iff (f : F) (g : G) (r : I) :
    ¬ JointlyCovered mod f g r ↔ ∃ t, (mod.function f).cfg.ExecutedBefore r t ∧
      ∀ w ∈ t, ¬ mod.WritesGlobal (mod.function f) w g := by
  unfold JointlyCovered
  push Not
  constructor
  · rintro ⟨t, hpath, hnone⟩
    obtain ⟨t', hpath', hnot, hbegin⟩ := hpath.first_arrival
    refine ⟨t', hpath', fun w hw hwrites => ?_⟩
    have hself : w = r := hnone w (hbegin.subset hw) hwrites
    exact hnot (hself ▸ hw)
  · rintro ⟨t, hpath, hnone⟩
    exact ⟨t, hpath, fun w hw hwrites => absurd hwrites (hnone w hw)⟩

/-- A report is true exactly when the read it names is as the program demands. -/
theorem issueTrue_toIssue_iff (k : ℕ) (hdom : IsDominatorTree mod dominates)
    (henum : IsEnumeration mod (buildCrossTUGlobalReadBeforeWriteSummaryIndex loadedModules)
      dominates enumerate)
    {f : F} (hf : f ∈ mod.selected) {g : G} {selected : SelectedRead I}
    (hmem : (g, selected) ∈ enumerate f) :
    IssueTrue loadedModules k mod f g (toIssue mod (mod.function f)
      (recordFunction mod (buildCrossTUGlobalReadBeforeWriteSummaryIndex loadedModules)
        (mod.function f)) (g, selected)) ↔
    ¬ JointlyCovered mod f g selected.inst ∧
      ((∃ w, OtherWrite mod f g selected.inst w) →
        ∃ w, OtherWrite mod f g selected.inst w ∧
          (mod.function f).cfg.Dominates selected.inst w) ∧
      (2 ≤ loadedModules.length →
        (∃ mod' ∈ loadedModules, mod'.WritesName (mod.global g).name) →
        WrittenElsewhere loadedModules k f g) := by
  have hfirst := firstRead_of_mem hdom henum hf hmem
  have hkind := kind_eq_withoutLocalWrite_iff hdom henum hf hmem
  -- the flag of a read global is the one of the index
  have hflag : (toIssue mod (mod.function f)
      (recordFunction mod (buildCrossTUGlobalReadBeforeWriteSummaryIndex loadedModules)
        (mod.function f)) (g, selected)).hasNonLocalWrite =
      mod.knownWrite (buildCrossTUGlobalReadBeforeWriteSummaryIndex loadedModules) g := by
    have hread := ((undominatedRead_iff hdom hf g selected.inst).mp hfirst.toUndominatedRead).1
    have hknown := (flagsKnown_recordFunction mod
      (buildCrossTUGlobalReadBeforeWriteSummaryIndex loadedModules) (mod.function f)).known _ hread
    unfold toIssue
    dsimp only at hknown ⊢
    rw [hknown, Option.getD_some]
  constructor
  · intro h
    refine ⟨(not_jointlyCovered_iff f g selected.inst).mpr h.unwritten, ?_, ?_⟩
    · rintro ⟨w, hw⟩
      by_contra hnone
      exact hw.2.2 (h.withoutLocalWrite (hkind.mpr hnone) w hw.1 hw.2.1)
    · intro hlong hwrites
      exact h.nonLocalWrite (hflag.trans ((knownWrite_iff g).mpr ⟨hlong, hwrites⟩))
  · rintro ⟨hcovered, hlater, helsewhere⟩
    refine ⟨(not_jointlyCovered_iff f g selected.inst).mp hcovered, ?_, ?_⟩
    · intro hwithout w hw hwrites
      by_contra hne
      exact hkind.mp hwithout (hlater ⟨w, hw, hwrites, hne⟩)
    · intro htrue
      obtain ⟨hlong, hwrites⟩ := (knownWrite_iff g).mp (hflag.symm.trans htrue)
      exact helsewhere hlong hwrites

end Reported

/-! ## The main result -/

/-- **When all reports are true**: for a module of a program, every returned issue is true exactly
when, at the first read of each global that no single write dominates, the writes do not cover the
read together, the read dominates a write if there are other ones, and another function writes the
global if the index knows of a write to its name.

**Proof sketch.** The scan of the writes has a result exactly for the reads that no single write
dominates, and the loop over the reads keeps the first of them. Its kind says whether it dominates
a write, and its flag is what the index knows of the name, which is whether any analysed function
writes a global of that name. -/
theorem issueTrue_iff_meets (loadedModules : List (Module F G V B I))
    (k : Fin loadedModules.length) (dominates : F → I → I → Bool)
    (enumerate : F → List (G × SelectedRead I))
    (hdom : IsDominatorTree (loadedModules.get k) dominates)
    (henum : IsEnumeration (loadedModules.get k)
      (buildCrossTUGlobalReadBeforeWriteSummaryIndex loadedModules) dominates enumerate) :
    (∀ f g issue, IssueFor (loadedModules.get k)
        (buildCrossTUGlobalReadBeforeWriteSummaryIndex loadedModules) enumerate f g issue →
      IssueTrue loadedModules k (loadedModules.get k) f g issue) ↔
    Meets loadedModules (loadedModules.get k) k := by
  constructor
  · intro h f hf g r hr
    obtain ⟨selected, hmem, rfl⟩ := exists_mem_of_firstRead hdom henum hf hr
    exact (issueTrue_toIssue_iff k hdom henum hf hmem).mp (h f g _ ⟨hf, selected, hmem, rfl⟩)
  · rintro h f g _ ⟨hf, selected, hmem, rfl⟩
    exact (issueTrue_toIssue_iff k hdom henum hf hmem).mpr
      (h f hf g selected.inst (firstRead_of_mem hdom henum hf hmem))

/-- A module with one buffer and one function. -/
def bufferModule {B I : Type*} (hasLocalLinkage : Bool) (fn : Function Unit B I) :
    Module Unit Unit Unit B I where
  functions := [()]
  function _ := fn
  shouldAnalyze _ := true
  globals := [()]
  global _ := ⟨"buffer", hasLocalLinkage, false, false, true, true, true⟩
  underlyingGlobal _ := some ()
  name_injective _ _ _ _ := rfl

/-- `int first = buffer[0]; buffer[1] = 1;`. -/
def readThenWrite : Function Unit Unit Bool where
  name := "readThenWrite"
  isDeclaration := false
  blocks := [()]
  cfg := ⟨(), fun _ => [], fun _ => [false, true], fun _ => none⟩
  opcode i := if i then .store false () else .load false false ()
  nodup := by decide

/-- The only block of the function is entered with nothing executed. -/
theorem traceTo_readThenWrite {pass : Unit → Unit → List Bool} {b : Unit} {t : List Bool}
    (h : readThenWrite.cfg.TraceTo pass b t) : t = [] := by
  cases h with
  | entry => rfl
  | step _ hedge => exact absurd hedge List.not_mem_nil

/-- Its read dominates its write. -/
theorem isDominatorTree_readThenWrite :
    IsDominatorTree (bufferModule false readThenWrite) fun _ i j => !i && j := by
  intro f _ i _ j _
  have hread : readThenWrite.cfg.TraceBefore readThenWrite.cfg.completed false [] :=
    ⟨(), [], [], [true], .entry, rfl, rfl⟩
  have hwrite : readThenWrite.cfg.TraceBefore readThenWrite.cfg.completed true [false] :=
    ⟨(), [], [false], [], .entry, rfl, rfl⟩
  cases j with
  | false =>
    refine ⟨fun h => ?_, fun h => absurd (h [] hread) List.not_mem_nil⟩
    exact absurd (show (!i && false) = true from h) (by simp)
  | true =>
    cases i with
    | true => exact ⟨fun h => absurd h Bool.false_ne_true, fun h => by simpa using h _ hwrite⟩
    | false =>
      refine ⟨fun _ => ?_, fun _ => rfl⟩
      rintro t ⟨b, t₀, before, after, hpath, heq, rfl⟩
      obtain rfl := traceTo_readThenWrite hpath
      have heq' : [false, true] = before ++ true :: after := heq
      cases before with
      | nil => simp at heq'
      | cons x xs =>
        rw [(List.cons.inj heq').1]
        exact List.mem_cons_self

theorem issueTrue_iff_meets_readThenWrite :
    (∀ f g issue, IssueFor (bufferModule false readThenWrite)
        (buildCrossTUGlobalReadBeforeWriteSummaryIndex [bufferModule false readThenWrite])
        (fun f => ((bufferModule false readThenWrite).selectedReads (fun i j => !i && j)
          (buildCrossTUGlobalReadBeforeWriteSummaryIndex [bufferModule false readThenWrite])
          f).entries) f g issue →
      IssueTrue [bufferModule false readThenWrite] 0 (bufferModule false readThenWrite) f g
        issue) ↔
    Meets [bufferModule false readThenWrite] (bufferModule false readThenWrite) 0 :=
  issueTrue_iff_meets [bufferModule false readThenWrite] 0 (fun _ i j => !i && j) _
    isDominatorTree_readThenWrite fun _ _ => List.Perm.refl _

/-- `if (c) buffer[0] = 1; else buffer[0] = 2; return buffer[0];`. -/
def writeBothThenRead : Function Unit (Fin 4) (Fin 3) where
  name := "writeBothThenRead"
  isDeclaration := false
  blocks := [0, 1, 2, 3]
  cfg :=
    { entry := 0
      succ := fun b => match b with | 0 => [1, 2] | 1 => [3] | 2 => [3] | 3 => []
      instructions := fun b => match b with | 0 => [] | 1 => [0] | 2 => [1] | 3 => [2]
      normalDest := fun _ => none }
  opcode i := if i = 2 then .load false false () else .store false ()
  nodup := by decide

/-- No instruction of the function dominates another one. -/
theorem isDominatorTree_writeBothThenRead :
    IsDominatorTree (bufferModule true writeBothThenRead) fun _ _ _ => false := by
  intro f _ i _ j _
  refine ⟨fun h => absurd h Bool.false_ne_true, fun h => ?_⟩
  have hleft : writeBothThenRead.cfg.TraceTo writeBothThenRead.cfg.completed 1 [] :=
    .step .entry (by decide)
  have hright : writeBothThenRead.cfg.TraceTo writeBothThenRead.cfg.completed 2 [] :=
    .step .entry (by decide)
  have hviaLeft : writeBothThenRead.cfg.TraceTo writeBothThenRead.cfg.completed 3 [0] :=
    .step hleft (by decide)
  have hviaRight : writeBothThenRead.cfg.TraceTo writeBothThenRead.cfg.completed 3 [1] :=
    .step hright (by decide)
  have hdom : writeBothThenRead.cfg.Dominates i j := h
  match j with
  | 0 => exact absurd (hdom [] ⟨1, [], [], [], hleft, rfl, rfl⟩) List.not_mem_nil
  | 1 => exact absurd (hdom [] ⟨2, [], [], [], hright, rfl, rfl⟩) List.not_mem_nil
  | 2 =>
    have hi₀ := hdom [0] ⟨3, [0], [], [], hviaLeft, rfl, rfl⟩
    have hi₁ := hdom [1] ⟨3, [1], [], [], hviaRight, rfl, rfl⟩
    rw [List.mem_singleton] at hi₀ hi₁
    exact absurd (hi₀.symm.trans hi₁) (by decide)

/-- Every path to its last block has executed a write. -/
theorem mem_of_traceTo_writeBothThenRead {b : Fin 4} {t : List (Fin 3)}
    (h : writeBothThenRead.cfg.TraceTo (fun b _ => writeBothThenRead.cfg.instructions b) b t)
    (hb : b = 3) : 0 ∈ t ∨ 1 ∈ t := by
  cases h with
  | entry => exact absurd hb (by decide)
  | @step b c t _ hedge =>
    subst hb
    match b with
    | 0 => exact absurd hedge (by decide)
    | 1 => exact Or.inl (List.mem_append_right _ (by decide))
    | 2 => exact Or.inr (List.mem_append_right _ (by decide))
    | 3 => exact absurd hedge (by decide)

/-- **Reports can be false.** With both branches writing a static buffer, in two translation units
with a static buffer of that name, the read after the branches is reported: although it is written
on every path, with the kind of a function without a write, and with a write elsewhere. -/
theorem not_issueTrue_writeBothThenRead :
    IsDominatorTree (bufferModule true writeBothThenRead) (fun _ _ _ => false) ∧
    ¬ ∀ f g issue, IssueFor (bufferModule true writeBothThenRead)
        (buildCrossTUGlobalReadBeforeWriteSummaryIndex
          [bufferModule true writeBothThenRead, bufferModule true writeBothThenRead])
        (fun f => ((bufferModule true writeBothThenRead).selectedReads (fun _ _ => false)
          (buildCrossTUGlobalReadBeforeWriteSummaryIndex
            [bufferModule true writeBothThenRead, bufferModule true writeBothThenRead])
          f).entries) f g issue →
      IssueTrue [bufferModule true writeBothThenRead, bufferModule true writeBothThenRead] 0
        (bufferModule true writeBothThenRead) f g issue := by
  refine ⟨isDominatorTree_writeBothThenRead, fun h => ?_⟩
  have hselected : ((bufferModule true writeBothThenRead).selectedReads (fun _ _ => false)
      (buildCrossTUGlobalReadBeforeWriteSummaryIndex
        [bufferModule true writeBothThenRead, bufferModule true writeBothThenRead])
      ()).entries = [((), ⟨2, none, .withoutLocalWrite⟩)] := rfl
  obtain ⟨⟨t, ⟨b, t₀, before, after, hpath, heq, rfl⟩, hnone⟩, -, -⟩ :=
    h () () _ ⟨List.mem_singleton_self _, ⟨2, none, .withoutLocalWrite⟩,
      by simp only [hselected, List.mem_singleton], rfl⟩
  have hb : b = 3 := by
    have hread : (2 : Fin 3) ∈ writeBothThenRead.cfg.instructions b :=
      (show writeBothThenRead.cfg.instructions b = _ from heq) ▸
        List.mem_append_right _ List.mem_cons_self
    have hall : ∀ c, (2 : Fin 3) ∈ writeBothThenRead.cfg.instructions c → c = 3 := by decide
    exact hall b hread
  rcases mem_of_traceTo_writeBothThenRead hpath hb with hmem | hmem
  · exact hnone 0 (List.mem_append_left _ hmem) ⟨(), by decide, rfl⟩
  · exact hnone 1 (List.mem_append_left _ hmem) ⟨(), by decide, rfl⟩

end StackAnalyzer.Globals
