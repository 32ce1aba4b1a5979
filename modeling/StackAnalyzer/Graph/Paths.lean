import StackAnalyzer.Graph.Cfg

set_option relaxedAutoImplicit false
set_option autoImplicit false

/-!
# Instructions along paths

One instruction is executed before another one along some path of a control-flow graph: they stand
in one block in this order, or the path goes on from the block of the first to that of the second.

## Main definitions

* `Graph.Cfg.Goes` — an edge to a block of the function.
* `Graph.Cfg.MayFollow` — an instruction is executed, and later another one.

## Main results

* `Graph.Cfg.mayFollow_iff` — where the two instructions stand.
-/

namespace Graph

/-! ## Two members of a list in order -/

section Pairs

variable {I : Type*} {a b : I}

/-- Two members in order stand in the first part, in the second part, or in both. -/
theorem pair_sublist_append {l l' : List I} :
    [a, b].Sublist (l ++ l') ↔ [a, b].Sublist l ∨ (a ∈ l ∧ b ∈ l') ∨ [a, b].Sublist l' := by
  constructor
  · intro h
    obtain ⟨s, s', hs, hl, hl'⟩ := List.sublist_append_iff.mp h
    match s, hs with
    | [], hs => exact Or.inr (Or.inr (hs ▸ hl'))
    | [c], hs =>
      obtain ⟨rfl, rfl⟩ : a = c ∧ [b] = s' := by simpa using hs
      exact Or.inr (Or.inl ⟨List.singleton_sublist.mp hl, List.singleton_sublist.mp hl'⟩)
    | c :: d :: rest, hs =>
      obtain ⟨rfl, rfl, hrest⟩ : a = c ∧ b = d ∧ [] = rest ++ s' := by simpa using hs
      obtain ⟨rfl, -⟩ := List.append_eq_nil_iff.mp hrest.symm
      exact Or.inl hl
  · rintro (h | ⟨ha, hb⟩ | h)
    · exact h.trans (List.sublist_append_left l l')
    · exact (List.singleton_sublist.mpr ha).append (List.singleton_sublist.mpr hb)
    · exact h.trans (List.sublist_append_right l l')

/-- Of two members of a list, one stands before the other. -/
theorem pair_sublist_total {l : List I} (ha : a ∈ l) (hb : b ∈ l) (hne : a ≠ b) :
    [a, b].Sublist l ∨ [b, a].Sublist l := by
  obtain ⟨before, after, rfl⟩ := List.append_of_mem ha
  rw [List.mem_append, List.mem_cons] at hb
  obtain hb | rfl | hb := hb
  · exact Or.inr (pair_sublist_append.mpr (Or.inr (Or.inl ⟨hb, List.mem_cons_self⟩)))
  · exact absurd rfl hne
  · refine Or.inl ((List.Sublist.cons_cons a ?_).trans (List.sublist_append_right before _))
    exact List.singleton_sublist.mpr hb

/-- The member that stands before the other has the smaller index. -/
theorem idxOf_lt_of_pair_sublist [DecidableEq I] {l : List I} (hnodup : l.Nodup)
    (h : [a, b].Sublist l) : l.idxOf a < l.idxOf b := by
  induction l with
  | nil => cases h
  | cons c l ih =>
    rw [List.nodup_cons] at hnodup
    cases h with
    | cons _ h =>
      have hmem : a ∈ l ∧ b ∈ l := ⟨h.subset (by simp), h.subset (by simp)⟩
      have hca : c ≠ a := fun heq => hnodup.1 (heq ▸ hmem.1)
      have hcb : c ≠ b := fun heq => hnodup.1 (heq ▸ hmem.2)
      rw [List.idxOf_cons_ne _ hca, List.idxOf_cons_ne _ hcb]
      exact Nat.succ_lt_succ (ih hnodup.2 h)
    | cons_cons _ h =>
      have hcb : a ≠ b := fun heq => hnodup.1 (heq ▸ List.singleton_sublist.mp h)
      rw [List.idxOf_cons_self, List.idxOf_cons_ne _ hcb]
      exact Nat.succ_pos _

end Pairs

/-! ## Paths -/

namespace Cfg

variable {B I : Type*} (g : Cfg B I) (inside : B → Prop)

/-- There is an edge to a block of the function. -/
def Goes (b c : B) : Prop := c ∈ g.succ b ∧ inside c

/-- The blocks of a path that does not leave the function. -/
def IsPath (path : List B) : Prop :=
  path.IsChain (g.Goes inside) ∧ ∀ b ∈ path.head?, inside b

/-- **Some path executes an instruction, and later another one**. -/
def MayFollow (a b : I) : Prop :=
  ∃ path, g.IsPath inside path ∧ [a, b].Sublist (path.flatMap g.instructions)

variable {g inside}

/-- A path without its first block. -/
theorem IsPath.tail {c : B} {path : List B} (h : g.IsPath inside (c :: path)) :
    g.IsPath inside path := by
  cases path with
  | nil => exact ⟨List.isChain_nil, by simp⟩
  | cons d path =>
    obtain ⟨hedge, hchain⟩ := List.isChain_cons_cons.mp h.1
    refine ⟨hchain, ?_⟩
    rintro _ ⟨⟩
    exact hedge.2

/-- A path in front of which there is an edge. -/
theorem IsPath.cons {c d : B} {path : List B} (hc : inside c) (hedge : g.Goes inside c d)
    (h : g.IsPath inside (d :: path)) : g.IsPath inside (c :: d :: path) := by
  refine ⟨List.isChain_cons_cons.mpr ⟨hedge, h.1⟩, ?_⟩
  rintro _ ⟨⟩
  exact hc

/-- What is executed behind the first block of a path is in a block that it leads to. -/
theorem IsPath.exists_of_mem {c : B} {path : List B} {b : I} (h : g.IsPath inside (c :: path))
    (hb : b ∈ path.flatMap g.instructions) :
    ∃ d, Relation.TransGen (g.Goes inside) c d ∧ b ∈ g.instructions d := by
  induction path generalizing c with
  | nil => cases hb
  | cons d path ih =>
    have hedge := (List.isChain_cons_cons.mp h.1).1
    rw [List.flatMap_cons, List.mem_append] at hb
    obtain hb | hb := hb
    · exact ⟨d, .single hedge, hb⟩
    · obtain ⟨e, hreach, he⟩ := ih h.tail hb
      exact ⟨e, .head hedge hreach, he⟩

/-- There is a path along the edges that lead from one block to another. -/
theorem exists_isPath {c d : B} (hc : inside c) (h : Relation.TransGen (g.Goes inside) c d) :
    ∃ path, g.IsPath inside (c :: path) ∧ d ∈ path := by
  induction h using Relation.TransGen.head_induction_on with
  | single hedge =>
    refine ⟨[_], IsPath.cons hc hedge ⟨List.isChain_singleton _, ?_⟩, List.mem_singleton_self _⟩
    rintro _ ⟨⟩
    exact hedge.2
  | head hedge _ ih =>
    obtain ⟨path, hpath, hmem⟩ := ih hedge.2
    exact ⟨_ :: path, hpath.cons hc hedge, List.mem_cons_of_mem _ hmem⟩

/-- **Where the two instructions stand**: in one block in this order, or the blocks that the second
stands in can be entered from a block of the first. -/
theorem mayFollow_iff {a b : I} :
    g.MayFollow inside a b ↔
      (∃ c, inside c ∧ [a, b].Sublist (g.instructions c)) ∨
        ∃ c d, inside c ∧ Relation.TransGen (g.Goes inside) c d ∧ a ∈ g.instructions c ∧
          b ∈ g.instructions d := by
  constructor
  · rintro ⟨path, hpath, hpair⟩
    induction path with
    | nil => cases hpair
    | cons c path ih =>
      have hc : inside c := hpath.2 c rfl
      rw [List.flatMap_cons, pair_sublist_append] at hpair
      obtain hpair | ⟨ha, hb⟩ | hpair := hpair
      · exact Or.inl ⟨c, hc, hpair⟩
      · obtain ⟨d, hreach, hd⟩ := hpath.exists_of_mem hb
        exact Or.inr ⟨c, d, hc, hreach, ha, hd⟩
      · exact ih hpath.tail hpair
  · rintro (⟨c, hc, hpair⟩ | ⟨c, d, hc, hreach, ha, hb⟩)
    · refine ⟨[c], ⟨List.isChain_singleton c, ?_⟩, ?_⟩
      · rintro _ ⟨⟩
        exact hc
      · rw [List.flatMap_singleton]
        exact hpair
    · obtain ⟨path, hpath, hmem⟩ := exists_isPath hc hreach
      refine ⟨c :: path, hpath, ?_⟩
      rw [List.flatMap_cons, pair_sublist_append]
      exact Or.inr (Or.inl ⟨ha, List.mem_flatMap.mpr ⟨d, hmem, hb⟩⟩)

end Cfg

end Graph
