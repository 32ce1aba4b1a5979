import Mathlib

set_option relaxedAutoImplicit false
set_option autoImplicit false

/-!
# Traces of a control-flow graph

Blocks of instructions, and the instructions that are executed along a path from the entry. What a
path executes of a block may depend on the edge by which it leaves: the result of a call that may
throw exists along the normal edge only.

## Main definitions

* `Graph.Cfg` — blocks, edges and instructions.
* `Graph.Cfg.TraceTo` — what is executed along a path to a block.
* `Graph.Cfg.TraceBefore` — what is executed before an instruction.
* `Graph.Cfg.Dominates` — an instruction is executed before another one on every path.

## Main results

* `Graph.Cfg.ExecutedBefore.first_arrival` — a path can be cut where it first arrives.
-/

namespace Graph

/-- A control-flow graph: the entry, the successors of each block, and its instructions in order.
An instruction with a normal destination has its effect along that edge only. -/
structure Cfg (B I : Type*) where
  entry : B
  succ : B → List B
  instructions : B → List I
  normalDest : I → Option B

namespace Cfg

variable {B I : Type*}

/-- The instructions of a block that have had their effect when the block is left to `c`. -/
def completed [DecidableEq B] (g : Cfg B I) (b c : B) : List I :=
  (g.instructions b).filter fun i => (g.normalDest i).all fun n => decide (n = c)

/-- What a path from the entry has executed when it arrives at a block; `pass b c` is what it
executes of `b` when it goes on to `c`. -/
inductive TraceTo (g : Cfg B I) (pass : B → B → List I) : B → List I → Prop
  | entry : TraceTo g pass g.entry []
  | step {b c : B} {t : List I} :
      TraceTo g pass b t → c ∈ g.succ b → TraceTo g pass c (t ++ pass b c)

/-- What a path from the entry has executed when it arrives at an instruction. -/
def TraceBefore (g : Cfg B I) (pass : B → B → List I) (i : I) (t : List I) : Prop :=
  ∃ b t₀ before after, TraceTo g pass b t₀ ∧ g.instructions b = before ++ i :: after ∧
    t = t₀ ++ before

/-- The instructions executed before an instruction along a path. -/
def ExecutedBefore (g : Cfg B I) (i : I) (t : List I) : Prop :=
  g.TraceBefore (fun b _ => g.instructions b) i t

/-- Every path to `i` has completed `d` before. An instruction that no path reaches is dominated by
every instruction. -/
def Dominates [DecidableEq B] (g : Cfg B I) (d i : I) : Prop :=
  ∀ t, g.TraceBefore g.completed i t → d ∈ t

variable {g : Cfg B I}

/-- A path that has executed an instruction can be cut where it first arrives there. -/
theorem TraceTo.first_arrival {b : B} {i : I} {t : List I}
    (h : g.TraceTo (fun b _ => g.instructions b) b t) (hi : i ∈ t) :
    ∃ t', g.ExecutedBefore i t' ∧ i ∉ t' ∧ t' <+: t := by
  induction h with
  | entry => exact absurd hi List.not_mem_nil
  | @step b c t hpath hedge ih =>
    by_cases ht : i ∈ t
    · obtain ⟨t', hbefore, hnot, hbegin⟩ := ih ht
      exact ⟨t', hbefore, hnot, hbegin.trans (List.prefix_append _ _)⟩
    · have hblock : i ∈ g.instructions b := (List.mem_append.mp hi).resolve_left ht
      obtain ⟨before, after, heq, hnot⟩ := List.eq_append_cons_of_mem hblock
      refine ⟨t ++ before, ⟨b, t, before, after, hpath, heq, rfl⟩, ?_, ?_⟩
      · exact fun hmem => (List.mem_append.mp hmem).elim ht hnot
      · show t ++ before <+: t ++ g.instructions b
        rw [heq]
        exact (List.prefix_append_right_inj t).mpr (List.prefix_append _ _)

/-- **First arrival**: a path to an instruction has a beginning that arrives there for the first
time. -/
theorem ExecutedBefore.first_arrival {i : I} {t : List I} (h : g.ExecutedBefore i t) :
    ∃ t', g.ExecutedBefore i t' ∧ i ∉ t' ∧ t' <+: t := by
  obtain ⟨b, t₀, before, after, hpath, heq, rfl⟩ := h
  by_cases ht₀ : i ∈ t₀
  · obtain ⟨t', hbefore, hnot, hbegin⟩ := hpath.first_arrival ht₀
    exact ⟨t', hbefore, hnot, hbegin.trans (List.prefix_append _ _)⟩
  · by_cases hin : i ∈ before
    · obtain ⟨before', after', rfl, hnot⟩ := List.eq_append_cons_of_mem hin
      refine ⟨t₀ ++ before', ⟨b, t₀, before', after' ++ i :: after, hpath, ?_, rfl⟩, ?_, ?_⟩
      · rw [heq, List.append_assoc, List.cons_append]
      · exact fun hmem => (List.mem_append.mp hmem).elim ht₀ hnot
      · exact (List.prefix_append_right_inj t₀).mpr (List.prefix_append _ _)
    · refine ⟨t₀ ++ before, ⟨b, t₀, before, after, hpath, heq, rfl⟩, ?_, List.prefix_rfl⟩
      exact fun hmem => (List.mem_append.mp hmem).elim ht₀ hin

end Cfg

end Graph
