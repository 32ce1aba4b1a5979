import StackAnalyzer.Graph.Tarjan
import StackAnalyzer.Graph.MemoDfs

set_option relaxedAutoImplicit false
set_option autoImplicit false

/-!
# Stack usage over the call graph

The call-graph part of the stack analysis: the memoised depth-first search that adds the largest
callee total to the local frame of every function, and the recursive components of the call
graph. Functions are the keys of pointer-ordered maps, so a map is the list of its entries in key
order; the order varies from run to run with the addresses, and every result is stated for all of
them.

## Main definitions

* `StackAnalyzer.PtrMap` — a pointer-ordered map, as its entries in key order.
* `StackAnalyzer.CallGraph`, `StackAnalyzer.LocalStackInfo`, `StackAnalyzer.StackEstimate`.
* `StackAnalyzer.dfsComputeStack` — the search, `StackAnalyzer.strongConnect` — the components.
* `StackAnalyzer.computeGlobalStackUsage`, `StackAnalyzer.computeRecursiveComponents`.
-/

namespace StackAnalyzer

open Graph

/-- A map keyed by pointers: its entries in key order, one for each key. -/
structure PtrMap (K α : Type*) where
  entries : List (K × α)
  nodup : (entries.map Prod.fst).Nodup

namespace PtrMap

variable {K α : Type*}

/-- The keys, in order. -/
def keys (m : PtrMap K α) : List K := m.entries.map Prod.fst

/-- The value stored under a key. -/
def find [DecidableEq K] (m : PtrMap K α) (k : K) : Option α :=
  (m.entries.find? fun p => decide (p.1 = k)).map Prod.snd

/-- The map with the keys `ks` and the values of `f`. -/
def ofKeys (ks : List K) (f : K → α) (h : ks.Nodup) : PtrMap K α :=
  ⟨ks.map fun k => (k, f k), by simpa [Function.comp_def] using h⟩

/-- The keys of `ofKeys`. -/
@[simp] theorem keys_ofKeys (ks : List K) (f : K → α) (h : ks.Nodup) :
    (ofKeys ks f h).keys = ks := by
  simp [keys, ofKeys, Function.comp_def]

variable [DecidableEq K]

/-- Nothing is found under what is not a key. -/
theorem find_eq_none_iff (m : PtrMap K α) (k : K) : m.find k = none ↔ k ∉ m.keys := by
  simp only [find, keys, Option.map_eq_none_iff, List.find?_eq_none, decide_eq_true_eq,
    List.mem_map, Prod.forall, Prod.exists, exists_and_right, exists_eq_right, not_exists]
  exact ⟨fun h a ha => h k a ha rfl, fun h a b hab he => h b (he ▸ hab)⟩

/-- A stored value is found under its key. -/
theorem find_eq_some_iff (m : PtrMap K α) (k : K) (a : α) :
    m.find k = some a ↔ (k, a) ∈ m.entries := by
  obtain ⟨es, hnd⟩ := m
  simp only [find]
  induction es with
  | nil => simp
  | cons e es ih =>
    simp only [List.map_cons, List.nodup_cons] at hnd
    by_cases hk : e.1 = k
    · subst hk
      have hne : (e.1, a) ∉ es := fun hm => hnd.1 (List.mem_map.mpr ⟨_, hm, rfl⟩)
      simp only [List.find?_cons, decide_true, Option.map_some, Option.some.injEq,
        List.mem_cons, hne, or_false]
      exact ⟨fun h => by rw [← h], fun h => by rw [← h]⟩
    · have hne : (k, a) ≠ e := fun h => hk (by rw [← h])
      simp only [List.find?_cons, hk, decide_false, List.mem_cons, hne, false_or]
      exact ih hnd.2

/-- Looking up a key of `ofKeys`. -/
theorem find_ofKeys (ks : List K) (f : K → α) (h : ks.Nodup) {k : K} (hk : k ∈ ks) :
    (ofKeys ks f h).find k = some (f k) := by
  rw [find_eq_some_iff]
  exact List.mem_map.mpr ⟨k, hk, rfl⟩

/-- Lookups do not depend on the order of the entries. -/
theorem find_perm {m m' : PtrMap K α} (h : m.entries.Perm m'.entries) (k : K) :
    m.find k = m'.find k := by
  refine Option.ext fun a => ?_
  rw [find_eq_some_iff, find_eq_some_iff]
  exact h.mem_iff

end PtrMap

/-- `CallGraph`: the called functions of every defined function, one entry for each call. -/
abbrev CallGraph (F : Type*) := PtrMap F (List F)

/-- `LocalStackInfo`: the frame of one function. -/
structure LocalStackInfo where
  bytes : UInt64
  unknown : Bool
  deriving DecidableEq

/-- `StackEstimate`. -/
structure StackEstimate where
  bytes : UInt64 := 0
  unknown : Bool := false
  deriving DecidableEq

/-- `InternalAnalysisState`, as `computeGlobalStackUsage` fills it. -/
structure InternalAnalysisState (F : Type*) where
  TotalStack : F → Option StackEstimate
  RecursiveFuncs : Finset F

variable {F : Type*} [DecidableEq F]

namespace CallGraph

/-- The adjacency list of `f`, empty when `f` is not in the graph. -/
def callees (CG : CallGraph F) (f : F) : List F := (CG.find f).getD []

/-- All functions that occur in the graph. -/
def functions (CG : CallGraph F) : List F := CG.entries.flatMap fun p => p.1 :: p.2

/-- A function with callees is stored in the graph with them. -/
theorem mem_entries {CG : CallGraph F} {f c : F} (hc : c ∈ CG.callees f) :
    ∃ cs, (f, cs) ∈ CG.entries ∧ c ∈ cs := by
  cases h : CG.find f with
  | none => simp [callees, h] at hc
  | some cs =>
    simp only [callees, h, Option.getD_some] at hc
    exact ⟨cs, (CG.find_eq_some_iff f cs).mp h, hc⟩

/-- The callees of a function occur in the graph. -/
theorem mem_functions {CG : CallGraph F} {f c : F} (hc : c ∈ CG.callees f) :
    c ∈ CG.functions := by
  obtain ⟨cs, hcs, hc⟩ := mem_entries hc
  exact List.mem_flatMap.mpr ⟨_, hcs, List.mem_cons_of_mem _ hc⟩

/-- A function with callees occurs in the graph. -/
theorem mem_functions_caller {CG : CallGraph F} {f c : F} (hc : c ∈ CG.callees f) :
    f ∈ CG.functions := by
  obtain ⟨cs, hcs, -⟩ := mem_entries hc
  exact List.mem_flatMap.mpr ⟨_, hcs, List.mem_cons_self⟩

/-- The fuel of a search from `nodes`: more than there are functions to enter. -/
def searchFuel (CG : CallGraph F) (nodes : List F) : ℕ := (nodes ++ CG.functions).length + 1

/-- The nodes and the functions of the graph are closed under calls. -/
theorem closed_functions (CG : CallGraph F) (nodes : List F) :
    Closed CG.callees (nodes ++ CG.functions) :=
  fun _ _ _ hc => List.mem_append_right _ (mem_functions hc)

end CallGraph

/-! ## Total stack usage -/

/-- The frame of `f` in `LocalStack`, empty when `f` has none. -/
def localEstimate (LocalStack : PtrMap F LocalStackInfo) (f : F) : StackEstimate :=
  match LocalStack.find f with
  | some info => { bytes := info.bytes, unknown := info.unknown }
  | none => {}

/-- The update of `maxCallee` by one callee. -/
def joinCallee (maxCallee calleeStack : StackEstimate) : StackEstimate where
  bytes := if calleeStack.bytes > maxCallee.bytes then calleeStack.bytes else maxCallee.bytes
  unknown := if calleeStack.unknown then true else maxCallee.unknown

/-- The total of a function: its frame and the maximum over its callees. -/
def addCallee (loc maxCallee : StackEstimate) : StackEstimate where
  bytes := loc.bytes + maxCallee.bytes
  unknown := loc.unknown || maxCallee.unknown

/-- The operations of the search on estimates. -/
def estimates : MemoDfs.Algebra StackEstimate := ⟨{}, joinCallee, addCallee⟩

/-- `dfsComputeStack`: a function being visited contributes its frame, a visited one its total;
otherwise visit the callees and memoise the total. -/
def dfsComputeStack (CG : CallGraph F) (LocalStack : PtrMap F LocalStackInfo) :
    ℕ → F → MemoDfs.State F StackEstimate → StackEstimate × MemoDfs.State F StackEstimate :=
  MemoDfs.visit estimates CG.callees (localEstimate LocalStack)

/-- The totals of `computeGlobalStackUsage`: search from every function of `LocalStack` that is
not visited yet, in key order. -/
def totalStack (CG : CallGraph F) (LocalStack : PtrMap F LocalStackInfo) :
    F → Option StackEstimate :=
  (MemoDfs.run estimates CG.callees (localEstimate LocalStack) (CG.searchFuel LocalStack.keys)
    LocalStack.keys MemoDfs.State.init).total

/-! ## Recursive components -/

/-- The results of Tarjan's algorithm: `recursive` and `recursiveComponents`. -/
structure RecursionResult (F : Type*) where
  recursive : Finset F
  recursiveComponents : List (List F)

variable (hasNoRecurseContract : F → Bool)

/-- The edges that `strongConnect` follows: neither end has the `norecurse` attribute. -/
def recursionCallees (CG : CallGraph F) (f : F) : List F :=
  if hasNoRecurseContract f then [] else (CG.callees f).filter fun W => !hasNoRecurseContract W

/-- `hasSelfCall`. -/
def hasSelfCall (CG : CallGraph F) (f : F) : Bool :=
  if hasNoRecurseContract f then false else (CG.callees f).any fun Callee => decide (Callee = f)

/-- Record a component popped at its root `V`: if it has several members or `V` calls itself. -/
def recordRecursive (CG : CallGraph F) (V : F) (component : List F) (r : RecursionResult F) :
    RecursionResult F :=
  if component.length > 1 then
    ⟨r.recursive ∪ component.toFinset, r.recursiveComponents ++ [component]⟩
  else if hasSelfCall hasNoRecurseContract CG V then
    ⟨insert V r.recursive, r.recursiveComponents ++ [component]⟩
  else r

/-- `strongConnect`. -/
def strongConnect (CG : CallGraph F) :
    ℕ → F → Tarjan.State F (RecursionResult F) → Tarjan.State F (RecursionResult F) :=
  Tarjan.strongConnect (recursionCallees hasNoRecurseContract CG)
    (recordRecursive hasNoRecurseContract CG)

/-- The loop of `computeRecursiveFunctions` and `computeRecursiveComponents` over the nodes, which
skips nodes with the `norecurse` attribute. -/
def runTarjan (CG : CallGraph F) (nodes : List F) : RecursionResult F :=
  (Tarjan.run (recursionCallees hasNoRecurseContract CG) (recordRecursive hasNoRecurseContract CG)
    (CG.searchFuel nodes) (nodes.filter fun V => !hasNoRecurseContract V)
    (Tarjan.State.init ⟨∅, []⟩)).out

/-- `computeRecursiveFunctions`. -/
def computeRecursiveFunctions (CG : CallGraph F) (nodes : List F) : Finset F :=
  (runTarjan hasNoRecurseContract CG nodes).recursive

/-- `computeRecursiveComponents`. -/
def computeRecursiveComponents (CG : CallGraph F) (nodes : List F) : List (List F) :=
  (runTarjan hasNoRecurseContract CG nodes).recursiveComponents

/-- `computeGlobalStackUsage`. -/
def computeGlobalStackUsage (CG : CallGraph F) (LocalStack : PtrMap F LocalStackInfo) :
    InternalAnalysisState F where
  TotalStack := totalStack CG LocalStack
  RecursiveFuncs := computeRecursiveFunctions hasNoRecurseContract CG LocalStack.keys

end StackAnalyzer
