import Mathlib

set_option relaxedAutoImplicit false
set_option autoImplicit false

/-!
# Parallel work

The indices of some work items are handed out to threads by a counter that is read and incremented
in one step. A thread calls the work function for the index that it has got and comes back for the
next one, until it gets an index that is not below the number of items. So the indices that have
been handed out are those below the counter, each of them to one thread. The counter has 64 bits:
each thread increments it once more at its end, and nothing may come round to zero before.

## Main definitions

* `StackAnalyzer.App.Pool`, `StackAnalyzer.App.Pool.move` — the threads, and a step of one of them.
* `StackAnalyzer.App.Pool.Finishes` — how `runParallelWork` ends.
* `StackAnalyzer.App.Pool.Invariant` — what holds after every interleaving.
* `StackAnalyzer.App.Partitions` — every index is called once, as in the sequential loop.

## Main results

* `StackAnalyzer.App.Pool.Invariant.of_move` — every step keeps the invariant.
* `StackAnalyzer.App.Pool.rank_lt` — every step brings the end nearer.
* `StackAnalyzer.App.partitions_iff` — exactly when the work is partitioned.
-/

namespace StackAnalyzer.App

/-! ## Threads -/

section Threads

variable {σ : Type*}

/-- Where a thread stands: before it takes an index, in a call with some steps left, or at its
end. -/
inductive Phase (σ : Type*)
  | claiming
  | working (index : ℕ) (rest : List (σ → σ))
  | stopped

/-- A thread, with its `WorkerState`. -/
structure Worker (σ : Type*) where
  phase : Phase σ := .claiming
  processedCount : ℕ := 0

/-- The thread goes on elsewhere. -/
def Worker.enter (state : Worker σ) (phase : Phase σ) : Worker σ := { state with phase := phase }

/-- The threads, the shared counter, and a slot for each index. `calls` lists the calls of the work
function so far, each with its thread. -/
structure Pool (σ : Type*) (workerCount : ℕ) where
  nextIndex : ℕ
  worker : Fin workerCount → Worker σ
  calls : List (Fin workerCount × ℕ)
  slots : ℕ → σ

/-- `workerCount`: the number of items is cut to 32 bits. -/
def workerCount (workItemCount maxJobs : ℕ) : ℕ := min maxJobs (workItemCount % 2 ^ 32)

/-- What a call does to its slot. -/
def runCall (steps : List (σ → σ)) (slot : σ) : σ := steps.foldl (fun slot step => step slot) slot

/-- The loop without threads. -/
def sequentialLoop (workItemCount : ℕ) (workFn : ℕ → List (σ → σ)) (slots : ℕ → σ) : ℕ → σ :=
  (List.range workItemCount).foldl
    (fun slots index => Function.update slots index (runCall (workFn index) (slots index))) slots

namespace Pool

variable {n : ℕ}

/-- The threads at their beginning. -/
def start (n : ℕ) (slots : ℕ → σ) : Pool σ n := ⟨0, fun _ => {}, [], slots⟩

/-- A thread changes its own state. -/
def setWorker (p : Pool σ n) (w : Fin n) (state : Worker σ) : Pool σ n :=
  { p with worker := Function.update p.worker w state }

/-- **A step of a thread.** A call works on the slot of its index, in as many steps as it likes. -/
def move (workItemCount : ℕ) (workFn : ℕ → List (σ → σ)) (p : Pool σ n) (w : Fin n) :
    Option (Pool σ n) :=
  let state := p.worker w
  match state.phase with
  | .claiming =>
    let taken := { p with nextIndex := (p.nextIndex + 1) % 2 ^ 64 }
    if workItemCount ≤ p.nextIndex then some (taken.setWorker w (state.enter .stopped))
    else
      some { taken.setWorker w (state.enter (.working p.nextIndex (workFn p.nextIndex))) with
        calls := p.calls ++ [(w, p.nextIndex)] }
  | .working index (step :: rest) =>
    some { p.setWorker w (state.enter (.working index rest)) with
      slots := Function.update p.slots index (step (p.slots index)) }
  | .working _ [] => some (p.setWorker w ⟨.claiming, (state.processedCount + 1) % 2 ^ 64⟩)
  | .stopped => none

/-- Some thread takes a step. -/
def Moves (workItemCount : ℕ) (workFn : ℕ → List (σ → σ)) (p p' : Pool σ n) : Prop :=
  ∃ w, p.move workItemCount workFn w = some p'

/-- **Every interleaving**: what can be reached by steps of any threads. -/
def Reaches (workItemCount : ℕ) (workFn : ℕ → List (σ → σ)) : Pool σ n → Pool σ n → Prop :=
  Relation.ReflTransGen (Moves workItemCount workFn)

/-- All threads can be joined. -/
def AllStopped (p : Pool σ n) : Prop := ∀ w, (p.worker w).phase = .stopped

/-- `processedTotal`. -/
def processedTotal (p : Pool σ n) : ℕ :=
  (List.finRange n).foldl (fun total w => (total + (p.worker w).processedCount) % 2 ^ 64) 0

end Pool

/-- How `runParallelWork` ends: the indices that the work function has been called for, in this
order, the slots, and whether there is the fatal error. -/
structure Ending (σ : Type*) where
  calls : List ℕ
  slots : ℕ → σ
  inconsistent : Bool

/-- **The endings of `runParallelWork`**. -/
inductive Finishes (workItemCount maxJobs : ℕ) (workFn : ℕ → List (σ → σ)) (slots : ℕ → σ) :
    Ending σ → Prop
  | none : workItemCount = 0 → Finishes workItemCount maxJobs workFn slots ⟨[], slots, false⟩
  | sequential : workItemCount ≠ 0 →
      workerCount workItemCount maxJobs ≤ 1 ∨ workItemCount ≤ 1 →
      Finishes workItemCount maxJobs workFn slots
        ⟨List.range workItemCount, sequentialLoop workItemCount workFn slots, false⟩
  | parallel {p : Pool σ (workerCount workItemCount maxJobs)} : workItemCount ≠ 0 →
      ¬ (workerCount workItemCount maxJobs ≤ 1 ∨ workItemCount ≤ 1) →
      Pool.Reaches workItemCount workFn (Pool.start _ slots) p → p.AllStopped →
      Finishes workItemCount maxJobs workFn slots
        ⟨p.calls.map Prod.snd, p.slots, decide (p.processedTotal ≠ workItemCount)⟩

/-- **The work is partitioned**: whatever the interleaving, no index is called twice and none that
is not below the number of items; all threads come to their end; and the work function has then
been called for every index, as in the sequential loop. -/
structure Partitions (workItemCount maxJobs : ℕ) (workFn : ℕ → List (σ → σ)) (slots : ℕ → σ) :
    Prop where
  once : ∀ p : Pool σ (workerCount workItemCount maxJobs),
    Pool.Reaches workItemCount workFn (Pool.start _ slots) p →
      (p.calls.map Prod.snd).Nodup ∧ ∀ index ∈ p.calls.map Prod.snd, index < workItemCount
  goes_on : ∀ p : Pool σ (workerCount workItemCount maxJobs),
    Pool.Reaches workItemCount workFn (Pool.start _ slots) p → ¬ p.AllStopped →
      ∃ p', Pool.Moves workItemCount workFn p p'
  terminates : Acc (fun p' p : Pool σ (workerCount workItemCount maxJobs) =>
    Pool.Moves workItemCount workFn p p') (Pool.start _ slots)
  ending : ∀ e, Finishes workItemCount maxJobs workFn slots e →
    e = ⟨List.range workItemCount, sequentialLoop workItemCount workFn slots, false⟩

end Threads

/-! ## The invariant -/

section Invariants

variable {σ : Type*}

/-- Whether a thread is at its end. -/
def Worker.stops (state : Worker σ) : ℕ :=
  match state.phase with
  | .stopped => 1
  | _ => 0

/-- The calls of a thread, with the one that it is in. -/
def Worker.called (state : Worker σ) : ℕ :=
  match state.phase with
  | .working _ _ => state.processedCount + 1
  | _ => state.processedCount

/-- The steps that a thread needs without taking another index. -/
def Worker.weight (state : Worker σ) : ℕ :=
  match state.phase with
  | .claiming => 1
  | .working _ rest => rest.length + 2
  | .stopped => 0

/-- A thread before it takes an index. -/
theorem Worker.of_claiming (state : Worker σ) (h : state.phase = .claiming) :
    state.stops = 0 ∧ state.called = state.processedCount ∧ state.weight = 1 := by
  simp [stops, called, weight, h]

/-- A thread in a call. -/
theorem Worker.of_working (state : Worker σ) {index : ℕ} {rest : List (σ → σ)}
    (h : state.phase = .working index rest) :
    state.stops = 0 ∧ state.called = state.processedCount + 1 ∧
      state.weight = rest.length + 2 := by
  simp [stops, called, weight, h]

/-- A thread that comes to its end. -/
theorem Worker.enter_stopped (state : Worker σ) :
    (state.enter .stopped).stops = 1 ∧ (state.enter .stopped).called = state.processedCount ∧
      (state.enter .stopped).weight = 0 := ⟨rfl, rfl, rfl⟩

/-- A thread that goes on with a call. -/
theorem Worker.enter_working (state : Worker σ) (index : ℕ) (rest : List (σ → σ)) :
    (state.enter (.working index rest)).stops = 0 ∧
      (state.enter (.working index rest)).called = state.processedCount + 1 ∧
      (state.enter (.working index rest)).weight = rest.length + 2 := ⟨rfl, rfl, rfl⟩

namespace Pool

variable {n : ℕ} {workItemCount : ℕ} {workFn : ℕ → List (σ → σ)} {slots : ℕ → σ}
variable {p p' : Pool σ n} {w : Fin n}

@[simp] theorem setWorker_self (p : Pool σ n) (w : Fin n) (state : Worker σ) :
    (p.setWorker w state).worker w = state := by
  simp [setWorker]

@[simp] theorem setWorker_of_ne (p : Pool σ n) {v w : Fin n} (state : Worker σ) (h : v ≠ w) :
    (p.setWorker w state).worker v = p.worker v := by
  simp [setWorker, h]

@[simp] theorem setWorker_nextIndex (p : Pool σ n) (w : Fin n) (state : Worker σ) :
    (p.setWorker w state).nextIndex = p.nextIndex := rfl

@[simp] theorem setWorker_calls (p : Pool σ n) (w : Fin n) (state : Worker σ) :
    (p.setWorker w state).calls = p.calls := rfl

@[simp] theorem setWorker_slots (p : Pool σ n) (w : Fin n) (state : Worker σ) :
    (p.setWorker w state).slots = p.slots := rfl

/-- A thread that is in a call, where one has changed its state. -/
theorem working_setWorker {v : Fin n} {state : Worker σ} {index : ℕ} {rest : List (σ → σ)}
    (h : ((p.setWorker w state).worker v).phase = .working index rest) :
    (v = w ∧ state.phase = .working index rest) ∨
      (v ≠ w ∧ (p.worker v).phase = .working index rest) := by
  by_cases hv : v = w
  · rw [hv, setWorker_self] at h
    exact Or.inl ⟨hv, h⟩
  · rw [setWorker_of_ne p _ hv] at h
    exact Or.inr ⟨hv, h⟩

/-- No thread has been in a call that no thread is in. -/
theorem not_working_of_setWorker {state : Worker σ} {index : ℕ}
    (hw : ∀ rest, (p.worker w).phase ≠ .working index rest)
    (hnone : ∀ v rest, ((p.setWorker w state).worker v).phase ≠ .working index rest)
    (v : Fin n) (rest : List (σ → σ)) : (p.worker v).phase ≠ .working index rest := by
  intro hv
  by_cases hvw : v = w
  · exact hw rest (hvw ▸ hv)
  · exact hnone v rest (by rw [setWorker_of_ne p _ hvw, hv])

/-- A sum over the threads, of which one changes. -/
theorem sum_setWorker (g : Worker σ → ℕ) (p : Pool σ n) (w : Fin n) (state : Worker σ) :
    ∑ v, g ((p.setWorker w state).worker v) + g (p.worker w) = ∑ v, g (p.worker v) + g state := by
  have hsplit : ∀ q : Fin n → Worker σ,
      ∑ v, g (q v) = g (q w) + ∑ v ∈ Finset.univ.erase w, g (q v) := fun q =>
    (Finset.add_sum_erase Finset.univ (fun v => g (q v)) (Finset.mem_univ w)).symm
  have hothers : ∑ v ∈ Finset.univ.erase w, g ((p.setWorker w state).worker v) =
      ∑ v ∈ Finset.univ.erase w, g (p.worker v) :=
    Finset.sum_congr rfl fun v hv => by
      rw [setWorker_of_ne p state (Finset.ne_of_mem_erase hv)]
  rw [hsplit, hsplit p.worker, hothers, setWorker_self]
  omega

/-- The step of a thread that gets no index. -/
theorem move_stop (hphase : (p.worker w).phase = .claiming) (hend : workItemCount ≤ p.nextIndex) :
    p.move workItemCount workFn w = some { p.setWorker w ((p.worker w).enter .stopped) with
      nextIndex := (p.nextIndex + 1) % 2 ^ 64 } := by
  unfold move
  dsimp only
  rw [hphase]
  exact if_pos hend

/-- The step of a thread that gets an index. -/
theorem move_claim (hphase : (p.worker w).phase = .claiming) (hin : p.nextIndex < workItemCount) :
    p.move workItemCount workFn w = some { p.setWorker w
        ((p.worker w).enter (.working p.nextIndex (workFn p.nextIndex))) with
      nextIndex := (p.nextIndex + 1) % 2 ^ 64
      calls := p.calls ++ [(w, p.nextIndex)] } := by
  unfold move
  dsimp only
  rw [hphase]
  exact if_neg (not_le.mpr hin)

/-- A step of a call. -/
theorem move_write {index : ℕ} {step : σ → σ} {rest : List (σ → σ)}
    (hphase : (p.worker w).phase = .working index (step :: rest)) :
    p.move workItemCount workFn w = some { p.setWorker w
        ((p.worker w).enter (.working index rest)) with
      slots := Function.update p.slots index (step (p.slots index)) } := by
  unfold move
  dsimp only
  rw [hphase]

/-- The return from a call. -/
theorem move_finish {index : ℕ} (hphase : (p.worker w).phase = .working index []) :
    p.move workItemCount workFn w =
      some (p.setWorker w ⟨.claiming, ((p.worker w).processedCount + 1) % 2 ^ 64⟩) := by
  unfold move
  dsimp only
  rw [hphase]

/-- **What a step does**, for each place where the thread stands. -/
theorem move_cases (h : p.move workItemCount workFn w = some p') :
    ((p.worker w).phase = .claiming ∧ workItemCount ≤ p.nextIndex ∧
      p' = { p.setWorker w ((p.worker w).enter .stopped) with
        nextIndex := (p.nextIndex + 1) % 2 ^ 64 }) ∨
    ((p.worker w).phase = .claiming ∧ p.nextIndex < workItemCount ∧
      p' = { p.setWorker w ((p.worker w).enter (.working p.nextIndex (workFn p.nextIndex))) with
        nextIndex := (p.nextIndex + 1) % 2 ^ 64
        calls := p.calls ++ [(w, p.nextIndex)] }) ∨
    (∃ index step rest, (p.worker w).phase = .working index (step :: rest) ∧
      p' = { p.setWorker w ((p.worker w).enter (.working index rest)) with
        slots := Function.update p.slots index (step (p.slots index)) }) ∨
    (∃ index, (p.worker w).phase = .working index [] ∧
      p' = p.setWorker w ⟨.claiming, ((p.worker w).processedCount + 1) % 2 ^ 64⟩) := by
  cases hphase : (p.worker w).phase with
  | claiming =>
    by_cases hend : workItemCount ≤ p.nextIndex
    · rw [move_stop hphase hend] at h
      exact Or.inl ⟨rfl, hend, (Option.some.inj h).symm⟩
    · rw [move_claim hphase (not_le.mp hend)] at h
      exact Or.inr (Or.inl ⟨rfl, not_le.mp hend, (Option.some.inj h).symm⟩)
  | working index rest =>
    cases rest with
    | nil =>
      rw [move_finish hphase] at h
      exact Or.inr (Or.inr (Or.inr ⟨index, rfl, (Option.some.inj h).symm⟩))
    | cons step rest =>
      rw [move_write hphase] at h
      exact Or.inr (Or.inr (Or.inl ⟨index, step, rest, rfl, (Option.some.inj h).symm⟩))
  | stopped =>
    unfold move at h
    dsimp only at h
    rw [hphase] at h
    cases h

variable (workItemCount workFn slots) in
/-- **What holds after every interleaving.** The indices that have been handed out are those below
the counter, which the threads at their end have moved on. A slot is as the calls have left it. -/
structure Invariant (p : Pool σ n) : Prop where
  indices : p.calls.map Prod.snd = List.range p.calls.length
  length_le : p.calls.length ≤ workItemCount
  counter : p.nextIndex = (p.calls.length + ∑ w, (p.worker w).stops) % 2 ^ 64
  at_end : 0 < ∑ w, (p.worker w).stops → p.calls.length = workItemCount
  called : ∑ w, (p.worker w).called = p.calls.length
  call : ∀ w index rest, (p.worker w).phase = .working index rest →
    (w, index) ∈ p.calls ∧ runCall rest (p.slots index) = runCall (workFn index) (slots index)
  slot : ∀ index, (∀ w rest, (p.worker w).phase ≠ .working index rest) →
    p.slots index =
      if index < p.calls.length then runCall (workFn index) (slots index) else slots index

/-- It holds at the beginning. -/
theorem invariant_start : Invariant workItemCount workFn slots (start n slots) where
  indices := rfl
  length_le := Nat.zero_le _
  counter := by simp [start, Worker.stops]
  at_end := by simp [start, Worker.stops]
  called := by simp [start, Worker.called]
  call _ _ _ h := by cases h
  slot _ _ := rfl

/-- **A thread that takes an index** gets the number of calls and ends so far. -/
theorem Invariant.nextIndex_eq (h : Invariant workItemCount workFn slots p)
    (hbound : workItemCount + n ≤ 2 ^ 64) (hphase : (p.worker w).phase = .claiming) :
    p.nextIndex = p.calls.length + ∑ v, (p.worker v).stops ∧
      p.calls.length + ∑ v, (p.worker v).stops + 1 ≤ workItemCount + n := by
  have hle : ∀ v, (p.worker v).stops ≤ 1 := fun v => by
    unfold Worker.stops
    split <;> omega
  have hw : (p.worker w).stops = 0 := by rw [Worker.stops, hphase]
  have hsum : ∑ v, (p.worker v).stops + 1 ≤ n := by
    have hlt : ∑ v, (p.worker v).stops < ∑ _v : Fin n, 1 :=
      Finset.sum_lt_sum (fun v _ => hle v) ⟨w, Finset.mem_univ w, by omega⟩
    simpa using hlt
  have hlength := h.length_le
  refine ⟨?_, by omega⟩
  rw [h.counter, Nat.mod_eq_of_lt]
  omega

/-- An index that has been called is below the number of calls. -/
theorem Invariant.lt_of_mem (h : Invariant workItemCount workFn slots p) {index : ℕ}
    (hmem : (w, index) ∈ p.calls) : index < p.calls.length := by
  have hindex : index ∈ p.calls.map Prod.snd := List.mem_map_of_mem hmem
  rw [h.indices] at hindex
  exact List.mem_range.mp hindex

/-- Each index is called by one thread. -/
theorem Invariant.unique (h : Invariant workItemCount workFn slots p) {v : Fin n} {index : ℕ}
    (hw : (w, index) ∈ p.calls) (hv : (v, index) ∈ p.calls) : v = w := by
  have hnodup : (p.calls.map Prod.snd).Nodup := by
    rw [h.indices]
    exact List.nodup_range
  exact congrArg Prod.fst (List.inj_on_of_nodup_map hnodup hv hw rfl)

/-- A thread comes to its end. -/
theorem Invariant.stop (h : Invariant workItemCount workFn slots p)
    (hbound : workItemCount + n ≤ 2 ^ 64) (hphase : (p.worker w).phase = .claiming)
    (hend : workItemCount ≤ p.nextIndex) :
    Invariant workItemCount workFn slots
      { p.setWorker w ((p.worker w).enter .stopped) with
        nextIndex := (p.nextIndex + 1) % 2 ^ 64 } := by
  have hnext := h.nextIndex_eq hbound hphase
  have hlength := h.length_le
  have hold := Worker.of_claiming _ hphase
  have hnew := (p.worker w).enter_stopped
  have hstops := sum_setWorker Worker.stops p w ((p.worker w).enter .stopped)
  have hcalled := sum_setWorker Worker.called p w ((p.worker w).enter .stopped)
  refine ⟨h.indices, h.length_le, ?_, fun _ => ?_, ?_, ?_, ?_⟩
  · dsimp only [setWorker_calls]
    rw [hnext.1]
    congr 1
    omega
  · dsimp only [setWorker_calls]
    by_cases hzero : ∑ v, (p.worker v).stops = 0
    · omega
    · exact h.at_end (Nat.pos_of_ne_zero hzero)
  · have := h.called
    dsimp only [setWorker_calls]
    omega
  · intro v index rest hv
    obtain ⟨-, hv⟩ | ⟨-, hv⟩ := working_setWorker hv
    · cases hv
    · exact h.call v index rest hv
  · intro index hnone
    refine h.slot index (not_working_of_setWorker (fun rest hw => ?_) hnone)
    rw [hphase] at hw
    cases hw

/-- **A thread gets an index**: the one that is next. -/
theorem Invariant.claim (h : Invariant workItemCount workFn slots p)
    (hbound : workItemCount + n ≤ 2 ^ 64) (hphase : (p.worker w).phase = .claiming)
    (hin : p.nextIndex < workItemCount) :
    Invariant workItemCount workFn slots
      { p.setWorker w ((p.worker w).enter (.working p.nextIndex (workFn p.nextIndex))) with
        nextIndex := (p.nextIndex + 1) % 2 ^ 64
        calls := p.calls ++ [(w, p.nextIndex)] } := by
  have hnext := h.nextIndex_eq hbound hphase
  have hlength := h.length_le
  have hold := Worker.of_claiming _ hphase
  have hnew := (p.worker w).enter_working p.nextIndex (workFn p.nextIndex)
  have hstops := sum_setWorker Worker.stops p w
    ((p.worker w).enter (.working p.nextIndex (workFn p.nextIndex)))
  have hcalled := sum_setWorker Worker.called p w
    ((p.worker w).enter (.working p.nextIndex (workFn p.nextIndex)))
  -- no thread is at its end
  have hzero : ∑ v, (p.worker v).stops = 0 := by
    by_contra hpos
    have := h.at_end (Nat.pos_of_ne_zero hpos)
    omega
  have hindex : p.nextIndex = p.calls.length := by omega
  have hfresh : ∀ v rest, (p.worker v).phase ≠ .working p.nextIndex rest := by
    intro v rest hv
    have := h.lt_of_mem (h.call v _ rest hv).1
    omega
  have hbefore : p.slots p.nextIndex = slots p.nextIndex := by
    rw [h.slot _ hfresh, if_neg (by omega)]
  refine ⟨?_, ?_, ?_, ?_, ?_, ?_, ?_⟩
  · dsimp only
    rw [List.map_append, h.indices, List.length_append, List.length_singleton, List.range_succ,
      List.map_singleton, hindex]
  · dsimp only
    rw [List.length_append, List.length_singleton]
    omega
  · dsimp only
    rw [List.length_append, List.length_singleton]
    congr 1
    omega
  · dsimp only
    omega
  · have := h.called
    dsimp only
    rw [List.length_append, List.length_singleton]
    omega
  · intro v index rest hv
    dsimp only
    obtain ⟨rfl, hv⟩ | ⟨-, hv⟩ := working_setWorker hv
    · obtain ⟨rfl, rfl⟩ := Phase.working.inj hv
      refine ⟨List.mem_append_right _ List.mem_cons_self, ?_⟩
      rw [setWorker_slots, hbefore]
    · obtain ⟨hmem, hrun⟩ := h.call v index rest hv
      exact ⟨List.mem_append_left _ hmem, hrun⟩
  · intro index hnone
    dsimp only at hnone ⊢
    have hne : index ≠ p.nextIndex := by
      rintro rfl
      exact hnone w (workFn p.nextIndex) (by rw [setWorker_self]; rfl)
    have hbusy : ∀ v rest, (p.worker v).phase ≠ .working index rest := by
      refine not_working_of_setWorker (fun rest hw => ?_) hnone
      rw [hphase] at hw
      cases hw
    have hiff : index < (p.calls ++ [(w, p.nextIndex)]).length ↔ index < p.calls.length := by
      rw [List.length_append, List.length_singleton]
      omega
    rw [setWorker_slots, h.slot index hbusy]
    simp only [hiff]

/-- A thread takes a step of its call. -/
theorem Invariant.write (h : Invariant workItemCount workFn slots p) {index : ℕ} {step : σ → σ}
    {rest : List (σ → σ)} (hphase : (p.worker w).phase = .working index (step :: rest)) :
    Invariant workItemCount workFn slots
      { p.setWorker w ((p.worker w).enter (.working index rest)) with
        slots := Function.update p.slots index (step (p.slots index)) } := by
  have hold := Worker.of_working _ hphase
  have hnew := (p.worker w).enter_working index rest
  have hstops := sum_setWorker Worker.stops p w ((p.worker w).enter (.working index rest))
  have hcalled := sum_setWorker Worker.called p w ((p.worker w).enter (.working index rest))
  have hsum : ∑ v, ((p.setWorker w ((p.worker w).enter (.working index rest))).worker v).stops =
      ∑ v, (p.worker v).stops := by omega
  obtain ⟨hw, hrun⟩ := h.call w index _ hphase
  refine ⟨h.indices, h.length_le, ?_, ?_, ?_, ?_, ?_⟩
  · dsimp only
    rw [hsum]
    exact h.counter
  · dsimp only
    rw [hsum]
    exact h.at_end
  · have := h.called
    dsimp only [setWorker_calls]
    omega
  · intro v index' rest' hv
    dsimp only
    obtain ⟨rfl, hv⟩ | ⟨hvw, hv⟩ := working_setWorker hv
    · obtain ⟨rfl, rfl⟩ := Phase.working.inj hv
      refine ⟨hw, ?_⟩
      rw [Function.update_self]
      exact hrun
    · obtain ⟨hmem, hrun'⟩ := h.call v index' rest' hv
      refine ⟨hmem, ?_⟩
      -- only one thread writes to the slot
      have hne : index' ≠ index := by
        rintro rfl
        exact hvw (h.unique hw hmem)
      rw [Function.update_of_ne hne]
      exact hrun'
  · intro index' hnone
    dsimp only at hnone ⊢
    have hne : index' ≠ index := by
      rintro rfl
      exact hnone w rest (by rw [setWorker_self]; rfl)
    have hbusy : ∀ v rest', (p.worker v).phase ≠ .working index' rest' := by
      refine not_working_of_setWorker (fun rest' hw' => ?_) hnone
      rw [hphase] at hw'
      exact hne (Phase.working.inj hw').1.symm
    rw [Function.update_of_ne hne]
    exact h.slot index' hbusy

/-- A thread returns from its call. -/
theorem Invariant.finish (h : Invariant workItemCount workFn slots p)
    (hbound : workItemCount + n ≤ 2 ^ 64) {index : ℕ}
    (hphase : (p.worker w).phase = .working index []) :
    Invariant workItemCount workFn slots
      (p.setWorker w ⟨.claiming, ((p.worker w).processedCount + 1) % 2 ^ 64⟩) := by
  have hold := Worker.of_working _ hphase
  have hnew := Worker.of_claiming
    (⟨.claiming, ((p.worker w).processedCount + 1) % 2 ^ 64⟩ : Worker σ) rfl
  have hstops := sum_setWorker Worker.stops p w
    ⟨.claiming, ((p.worker w).processedCount + 1) % 2 ^ 64⟩
  have hcalled := sum_setWorker Worker.called p w
    ⟨.claiming, ((p.worker w).processedCount + 1) % 2 ^ 64⟩
  have hlength := h.length_le
  have htotal := h.called
  have hpos : 0 < n := w.pos
  have hsmall : (p.worker w).called ≤ ∑ v, (p.worker v).called :=
    Finset.single_le_sum (f := fun v => (p.worker v).called) (fun _ _ => Nat.zero_le _)
      (Finset.mem_univ w)
  have hmod : ((p.worker w).processedCount + 1) % 2 ^ 64 = (p.worker w).processedCount + 1 :=
    Nat.mod_eq_of_lt (by omega)
  obtain ⟨hw, hrun⟩ := h.call w index _ hphase
  rw [hmod] at hnew hstops hcalled ⊢
  have hsum : ∑ v, ((p.setWorker w ⟨.claiming, (p.worker w).processedCount + 1⟩).worker v).stops =
      ∑ v, (p.worker v).stops := by omega
  refine ⟨h.indices, h.length_le, ?_, ?_, ?_, ?_, ?_⟩
  · rw [hsum]
    exact h.counter
  · rw [hsum]
    exact h.at_end
  · rw [setWorker_calls]
    dsimp only at hnew
    omega
  · intro v index' rest' hv
    obtain ⟨-, hv⟩ | ⟨-, hv⟩ := working_setWorker hv
    · cases hv
    · exact h.call v index' rest' hv
  · intro index' hnone
    by_cases heq : index' = index
    · -- the slot of the call that is over
      subst heq
      rw [setWorker_slots, setWorker_calls, if_pos (h.lt_of_mem hw)]
      exact hrun
    · refine h.slot index' (not_working_of_setWorker (fun rest' hw' => ?_) hnone)
      rw [hphase] at hw'
      exact heq (Phase.working.inj hw').1.symm

/-- **Every step keeps the invariant.** -/
theorem Invariant.of_move (h : Invariant workItemCount workFn slots p)
    (hbound : workItemCount + n ≤ 2 ^ 64) (hmove : p.move workItemCount workFn w = some p') :
    Invariant workItemCount workFn slots p' := by
  obtain ⟨hphase, hend, rfl⟩ | ⟨hphase, hin, rfl⟩ | ⟨index, step, rest, hphase, rfl⟩ |
    ⟨index, hphase, rfl⟩ := move_cases hmove
  · exact h.stop hbound hphase hend
  · exact h.claim hbound hphase hin
  · exact h.write hphase
  · exact h.finish hbound hphase

/-- **It holds after every interleaving.** -/
theorem Invariant.of_reaches (h : Invariant workItemCount workFn slots p)
    (hbound : workItemCount + n ≤ 2 ^ 64) (hreach : Reaches workItemCount workFn p p') :
    Invariant workItemCount workFn slots p' := by
  induction hreach with
  | refl => exact h
  | tail _ hmove ih =>
    obtain ⟨w, hmove⟩ := hmove
    exact ih.of_move hbound hmove

/-! ### The end -/

variable (workItemCount workFn) in
/-- The steps that are left: those of the calls that have not begun, each with the two steps around
it, and those of the threads. -/
def rank (p : Pool σ n) : ℕ :=
  ∑ index ∈ Finset.Ico p.calls.length workItemCount, ((workFn index).length + 2) +
    ∑ w, (p.worker w).weight

/-- **Every step brings the end nearer.** -/
theorem rank_lt (h : Invariant workItemCount workFn slots p) (hbound : workItemCount + n ≤ 2 ^ 64)
    (hmove : p.move workItemCount workFn w = some p') :
    p'.rank workItemCount workFn < p.rank workItemCount workFn := by
  unfold rank
  obtain ⟨hphase, hend, rfl⟩ | ⟨hphase, hin, rfl⟩ | ⟨index, step, rest, hphase, rfl⟩ |
    ⟨index, hphase, rfl⟩ := move_cases hmove
  · have hold := Worker.of_claiming _ hphase
    have hnew := (p.worker w).enter_stopped
    have hsum := sum_setWorker Worker.weight p w ((p.worker w).enter .stopped)
    dsimp only [setWorker_calls]
    omega
  · have hold := Worker.of_claiming _ hphase
    have hnew := (p.worker w).enter_working p.nextIndex (workFn p.nextIndex)
    have hsum := sum_setWorker Worker.weight p w
      ((p.worker w).enter (.working p.nextIndex (workFn p.nextIndex)))
    have hnext := h.nextIndex_eq hbound hphase
    have hindex : p.calls.length = p.nextIndex := by
      by_cases hzero : ∑ v, (p.worker v).stops = 0
      · omega
      · have := h.at_end (Nat.pos_of_ne_zero hzero)
        omega
    -- the steps of the call go over to the thread
    have hsplit := Finset.sum_eq_sum_Ico_succ_bot hin fun index => (workFn index).length + 2
    dsimp only
    rw [List.length_append, List.length_singleton, hindex]
    omega
  · have hold := Worker.of_working _ hphase
    have hnew := (p.worker w).enter_working index rest
    have hsum := sum_setWorker Worker.weight p w ((p.worker w).enter (.working index rest))
    rw [List.length_cons] at hold
    dsimp only [setWorker_calls]
    omega
  · have hold := Worker.of_working _ hphase
    have hnew := Worker.of_claiming
      (⟨.claiming, ((p.worker w).processedCount + 1) % 2 ^ 64⟩ : Worker σ) rfl
    have hsum := sum_setWorker Worker.weight p w
      ⟨.claiming, ((p.worker w).processedCount + 1) % 2 ^ 64⟩
    rw [List.length_nil] at hold
    rw [setWorker_calls]
    omega

/-- There is no endless interleaving. -/
theorem Invariant.acc (hbound : workItemCount + n ≤ 2 ^ 64)
    (h : Invariant workItemCount workFn slots p) :
    Acc (fun p' p : Pool σ n => Moves workItemCount workFn p p') p := by
  induction hrank : p.rank workItemCount workFn using Nat.strong_induction_on generalizing p with
  | _ k ih =>
    subst hrank
    refine Acc.intro p fun p' hmoves => ?_
    obtain ⟨w, hmove⟩ := hmoves
    exact ih _ (rank_lt h hbound hmove) (h.of_move hbound hmove) rfl

/-- A thread that is not at its end can take a step. -/
theorem exists_moves (h : ¬ p.AllStopped) : ∃ p', Moves workItemCount workFn p p' := by
  obtain ⟨w, hw⟩ := not_forall.mp h
  cases hphase : (p.worker w).phase with
  | claiming =>
    by_cases hend : workItemCount ≤ p.nextIndex
    · exact ⟨_, w, move_stop hphase hend⟩
    · exact ⟨_, w, move_claim hphase (not_le.mp hend)⟩
  | working index rest =>
    cases rest with
    | nil => exact ⟨_, w, move_finish hphase⟩
    | cons step rest => exact ⟨_, w, move_write hphase⟩
  | stopped => exact absurd hphase hw

/-- When all threads are at their end, all indices have been called. -/
theorem Invariant.length_eq (h : Invariant workItemCount workFn slots p) (hpos : 0 < n)
    (hstopped : p.AllStopped) : p.calls.length = workItemCount := by
  refine h.at_end (Finset.sum_pos (fun w _ => ?_) ⟨⟨0, hpos⟩, Finset.mem_univ _⟩)
  rw [Worker.stops, hstopped w]
  exact Nat.one_pos

/-- The sum of the counts, in 64 bits. -/
theorem processedTotal_eq (p : Pool σ n) :
    p.processedTotal = (∑ w, (p.worker w).processedCount) % 2 ^ 64 := by
  have hfold : ∀ (l : List (Fin n)) (total : ℕ),
      l.foldl (fun total w => (total + (p.worker w).processedCount) % 2 ^ 64) (total % 2 ^ 64) =
        (total + (l.map fun w => (p.worker w).processedCount).sum) % 2 ^ 64 := by
    intro l
    induction l with
    | nil => simp
    | cons w l ih =>
      intro total
      rw [List.foldl_cons, Nat.mod_add_mod, ih, List.map_cons, List.sum_cons, Nat.add_assoc]
  have h := hfold (List.finRange n) 0
  rw [Nat.zero_mod, Nat.zero_add] at h
  rw [processedTotal, h, Fin.sum_univ_def]

/-- **The final check does not fail.** -/
theorem Invariant.processedTotal_eq (h : Invariant workItemCount workFn slots p)
    (hbound : workItemCount + n ≤ 2 ^ 64) (hpos : 0 < n) (hstopped : p.AllStopped) :
    p.processedTotal = workItemCount := by
  have hcalled : ∑ w, (p.worker w).processedCount = ∑ w, (p.worker w).called :=
    Finset.sum_congr rfl fun w _ => by rw [Worker.called, hstopped w]
  rw [Pool.processedTotal_eq, hcalled, h.called, h.length_eq hpos hstopped]
  exact Nat.mod_eq_of_lt (by omega)

end Pool

/-- The slots after the loop without threads. -/
theorem sequentialLoop_apply (workItemCount : ℕ) (workFn : ℕ → List (σ → σ)) (slots : ℕ → σ)
    (index : ℕ) :
    sequentialLoop workItemCount workFn slots index =
      if index < workItemCount then runCall (workFn index) (slots index) else slots index := by
  induction workItemCount with
  | zero => rfl
  | succ count ih =>
    unfold sequentialLoop at ih ⊢
    rw [List.range_succ, List.foldl_append, List.foldl_cons, List.foldl_nil]
    by_cases heq : index = count
    · subst heq
      rw [Function.update_self, ih, if_neg (lt_irrefl index), if_pos (Nat.lt_succ_self index)]
    · have hiff : index < count + 1 ↔ index < count := by omega
      rw [Function.update_of_ne heq, ih]
      simp only [hiff]

/-- **The slots at the end** are those of the loop without threads. -/
theorem Pool.Invariant.slots_eq {n workItemCount : ℕ} {workFn : ℕ → List (σ → σ)} {slots : ℕ → σ}
    {p : Pool σ n} (h : p.Invariant workItemCount workFn slots) (hpos : 0 < n)
    (hstopped : p.AllStopped) : p.slots = sequentialLoop workItemCount workFn slots := by
  funext index
  have hnone : ∀ w rest, (p.worker w).phase ≠ .working index rest := by
    intro w rest hw
    rw [hstopped w] at hw
    cases hw
  rw [h.slot index hnone, h.length_eq hpos hstopped, sequentialLoop_apply]

/-- **Below 64 bits the work is partitioned.** -/
theorem partitions_of_le {workItemCount maxJobs : ℕ}
    (hbound : workItemCount + workerCount workItemCount maxJobs ≤ 2 ^ 64)
    (workFn : ℕ → List (σ → σ)) (slots : ℕ → σ) :
    Partitions workItemCount maxJobs workFn slots where
  once p hreach := by
    have h := Pool.invariant_start.of_reaches hbound hreach
    rw [h.indices]
    refine ⟨List.nodup_range, fun index hindex => ?_⟩
    exact (List.mem_range.mp hindex).trans_le h.length_le
  goes_on p _ hstopped := Pool.exists_moves hstopped
  terminates := Pool.invariant_start.acc hbound
  ending e he := by
    cases he with
    | none hzero =>
      subst hzero
      rfl
    | sequential _ _ => rfl
    | parallel _ hthreads hreach hstopped =>
      have h := Pool.invariant_start.of_reaches hbound hreach
      have hpos : 0 < workerCount workItemCount maxJobs := by omega
      rw [h.indices, h.length_eq hpos hstopped, h.slots_eq hpos hstopped,
        h.processedTotal_eq hbound hpos hstopped]
      simp

end Invariants

/-! ## When the counter comes round -/

section Overflow

variable {σ : Type*} {n workItemCount : ℕ} {workFn : ℕ → List (σ → σ)}

namespace Pool

/-- A step that the thread takes. -/
theorem Reaches.move {p p' p'' : Pool σ n} {w : Fin n} (h : Reaches workItemCount workFn p p')
    (hmove : p'.move workItemCount workFn w = some p'') : Reaches workItemCount workFn p p'' :=
  h.tail ⟨w, hmove⟩

/-- A thread can go on to the end of its call. -/
theorem exists_finished (p : Pool σ n) (w : Fin n) (index : ℕ) (rest : List (σ → σ))
    (hphase : (p.worker w).phase = .working index rest) :
    ∃ p', Reaches workItemCount workFn p p' ∧ p'.nextIndex = p.nextIndex ∧ p'.calls = p.calls ∧
      (p'.worker w).phase = .claiming ∧ ∀ v, v ≠ w → p'.worker v = p.worker v := by
  induction rest generalizing p with
  | nil =>
    refine ⟨_, .single ⟨w, move_finish hphase⟩, rfl, rfl, ?_, fun v hv => setWorker_of_ne p _ hv⟩
    rw [setWorker_self]
  | cons step rest ih =>
    have hmove : p.move workItemCount workFn w = some _ := move_write hphase
    have hnow : ∀ slots : ℕ → σ, (({ p.setWorker w ((p.worker w).enter (.working index rest)) with
        slots := slots } : Pool σ n).worker w).phase = .working index rest := fun slots => by
      rw [setWorker_self]
      rfl
    obtain ⟨p', hreach, hnext, hcalls, hw, hothers⟩ := ih _ (hnow _)
    refine ⟨p', .head ⟨w, hmove⟩ hreach, hnext, hcalls, hw, fun v hv => ?_⟩
    rw [hothers v hv]
    exact setWorker_of_ne p _ hv

variable (workFn) in
/-- One thread can do all the work. -/
theorem exists_all_called (hcount : workItemCount < 2 ^ 64) (slots : ℕ → σ) (w : Fin n) (k : ℕ)
    (hk : k ≤ workItemCount) :
    ∃ p, Reaches workItemCount workFn (start n slots) p ∧ p.nextIndex = k ∧
      p.calls.map Prod.snd = List.range k ∧ ∀ v, (p.worker v).phase = .claiming := by
  induction k with
  | zero => exact ⟨start n slots, .refl, rfl, rfl, fun _ => rfl⟩
  | succ k ih =>
    obtain ⟨p, hreach, hnext, hcalls, hphase⟩ := ih (Nat.le_of_succ_le hk)
    have hmove : p.move workItemCount workFn w = some _ :=
      move_claim (hphase w) (by omega)
    have hnow : (({ p.setWorker w
          ((p.worker w).enter (.working p.nextIndex (workFn p.nextIndex))) with
        nextIndex := (p.nextIndex + 1) % 2 ^ 64
        calls := p.calls ++ [(w, p.nextIndex)] } : Pool σ n).worker w).phase =
        .working p.nextIndex (workFn p.nextIndex) := by
      rw [setWorker_self]
      rfl
    obtain ⟨p', hreach', hnext', hcalls', hw, hothers⟩ := exists_finished _ w _ _ hnow
    refine ⟨p', (hreach.move hmove).trans hreach', ?_, ?_, fun v => ?_⟩
    · rw [hnext', hnext]
      exact Nat.mod_eq_of_lt (by omega)
    · rw [hcalls', List.map_append, hcalls, hnext, List.range_succ, List.map_singleton]
    · by_cases hv : v = w
      · rw [hv, hw]
      · rw [hothers v hv, setWorker_of_ne p _ hv, hphase v]

variable (workFn) in
/-- Then the threads can come to their ends, one after the other. -/
theorem exists_some_stopped (hcount : workItemCount < 2 ^ 64) (slots : ℕ → σ) (w : Fin n) (j : ℕ)
    (hj : workItemCount + j ≤ 2 ^ 64) (hn : j ≤ n) :
    ∃ p, Reaches workItemCount workFn (start n slots) p ∧
      p.nextIndex = (workItemCount + j) % 2 ^ 64 ∧
      p.calls.map Prod.snd = List.range workItemCount ∧
      ∀ v : Fin n, j ≤ v.val → (p.worker v).phase = .claiming := by
  induction j with
  | zero =>
    obtain ⟨p, hreach, hnext, hcalls, hphase⟩ :=
      exists_all_called workFn hcount slots w workItemCount le_rfl
    refine ⟨p, hreach, ?_, hcalls, fun v _ => hphase v⟩
    rw [hnext, Nat.add_zero, Nat.mod_eq_of_lt hcount]
  | succ j ih =>
    obtain ⟨p, hreach, hnext, hcalls, hphase⟩ := ih (by omega) (by omega)
    rw [Nat.mod_eq_of_lt (by omega)] at hnext
    have hmove : p.move workItemCount workFn ⟨j, hn⟩ = some _ :=
      move_stop (hphase ⟨j, hn⟩ le_rfl) (by omega)
    refine ⟨_, hreach.move hmove, ?_, hcalls, fun v hv => ?_⟩
    · dsimp only
      rw [hnext]
      rfl
    · have hne : v ≠ ⟨j, hn⟩ := fun h => by
        rw [h] at hv
        exact absurd hv (Nat.not_succ_le_self j)
      dsimp only
      rw [setWorker_of_ne p _ hne]
      exact hphase v (Nat.le_of_succ_le hv)

variable (workFn) in
/-- **The counter comes round**: an index is called twice. -/
theorem exists_called_twice (hpos : 0 < workItemCount) (hcount : workItemCount < 2 ^ 64)
    (hover : 2 ^ 64 < workItemCount + n) (slots : ℕ → σ) :
    ∃ p, Reaches workItemCount workFn (start n slots) p ∧ ¬ (p.calls.map Prod.snd).Nodup := by
  have hw : 2 ^ 64 - workItemCount < n := by omega
  obtain ⟨p, hreach, hnext, hcalls, hphase⟩ :=
    exists_some_stopped workFn hcount slots ⟨_, hw⟩ (2 ^ 64 - workItemCount) (by omega) hw.le
  have hzero : p.nextIndex = 0 := by
    rw [hnext]
    omega
  have hmove : p.move workItemCount workFn ⟨_, hw⟩ = some _ :=
    move_claim (hphase ⟨_, hw⟩ le_rfl) (by omega)
  refine ⟨_, hreach.move hmove, ?_⟩
  dsimp only
  rw [List.map_append, hcalls, List.map_singleton, hzero, List.nodup_append]
  rintro ⟨-, -, hdisjoint⟩
  exact hdisjoint 0 (List.mem_range.mpr hpos) 0 (List.mem_singleton_self 0) rfl

end Pool

/-- **The work is partitioned** if and only if the counter does not come round before all threads
have come to their end. -/
theorem partitions_iff {workItemCount maxJobs : ℕ} (hcount : workItemCount < 2 ^ 64)
    (hjobs : maxJobs < 2 ^ 32) (workFn : ℕ → List (σ → σ)) (slots : ℕ → σ) :
    Partitions workItemCount maxJobs workFn slots ↔
      workItemCount + workerCount workItemCount maxJobs ≤ 2 ^ 64 := by
  refine ⟨fun h => ?_, fun hbound => partitions_of_le hbound workFn slots⟩
  by_contra hover
  have hworkers : workerCount workItemCount maxJobs ≤ maxJobs := min_le_left _ _
  obtain ⟨p, hreach, htwice⟩ := Pool.exists_called_twice workFn (by omega) hcount
    (not_le.mp hover) slots
  exact htwice (h.once p hreach).1

/-- With two threads and one item less than `2 ^ 64`, an index can be called twice. -/
theorem not_partitions :
    ¬ Partitions (2 ^ 64 - 1) 2 (fun _ => ([] : List (Unit → Unit))) fun _ => () := by
  intro h
  have hover : 2 ^ 64 < 2 ^ 64 - 1 + workerCount (2 ^ 64 - 1) 2 := by decide
  obtain ⟨p, hreach, htwice⟩ := Pool.exists_called_twice (fun _ => ([] : List (Unit → Unit)))
    (by decide) (by decide) hover fun _ => ()
  exact htwice (h.once p hreach).1

/-- Three items, two threads. -/
theorem partitions_three :
    Partitions 3 2 (fun index => [fun slot => slot + index, fun slot => slot * 2]) fun _ => 1 :=
  (partitions_iff (by decide) (by decide) _ _).mpr (by decide)

end Overflow

end StackAnalyzer.App
