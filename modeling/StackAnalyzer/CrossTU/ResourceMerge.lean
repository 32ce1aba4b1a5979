import StackAnalyzer.CrossTU.ResourceIndex

set_option relaxedAutoImplicit false
set_option autoImplicit false

/-!
# The laws of merging resource summaries

An index stands for the functions that it defines and the effects of each. Merging is the union of
these, equality is their equality, and the set of changed names is where they differ. The text that
is hashed determines the index unless the name of a function looks like the line of an effect.

## Main definitions

* `StackAnalyzer.CrossTU.ValidIndex` — indexes without duplicate effects.
* `StackAnalyzer.CrossTU.Defines`, `StackAnalyzer.CrossTU.HasEffect` — what an index stands for.
* `StackAnalyzer.CrossTU.Ambiguous` — names that can be mistaken for the line of an effect.

## Main results

* `StackAnalyzer.CrossTU.resourceSummaryIndexEquals_iff`,
  `StackAnalyzer.CrossTU.hasEffect_merge` — equality and merging.
* `StackAnalyzer.CrossTU.resourceMergeLaws_iff` — all laws hold iff names are not ambiguous.
-/

namespace StackAnalyzer.CrossTU

open Maps

/-- No effect list carries a duplicate key. -/
def ValidIndex (index : ResourceSummaryIndex) : Prop :=
  ∀ entry ∈ index.entries, (entry.2.map ResourceSummaryEffect.key).Nodup

/-- The index has an entry for the function. -/
def Defines (index : ResourceSummaryIndex) (name : CppString) : Prop :=
  ∃ fn, index.find name = some fn

/-- The index lists the effect for the function. -/
def HasEffect (index : ResourceSummaryIndex) (name : CppString) (effect : ResourceSummaryEffect) :
    Prop :=
  ∃ fn, index.find name = some fn ∧ effect ∈ fn

/-- What an index defines and lists, another one does too. -/
def Contained (src dst : ResourceSummaryIndex) : Prop :=
  (∀ name, Defines src name → Defines dst name) ∧
    ∀ name effect, HasEffect src name effect → HasEffect dst name effect

variable {a b c dst src : ResourceSummaryIndex}

theorem ValidIndex.nodup (h : ValidIndex a) {name : CppString} {fn : ResourceSummaryFunction}
    (hfn : a.find name = some fn) : fn.Nodup :=
  List.Nodup.of_map _ (h (name, fn) (EntryMap.find_eq_some_iff.mp hfn))

theorem validIndex_iff :
    ValidIndex a ↔ ∀ name fn, a.find name = some fn → fn.Nodup := by
  refine ⟨fun h name fn hfn => h.nodup hfn, fun h entry hentry => ?_⟩
  exact (h entry.1 entry.2 (EntryMap.find_eq_some_iff.mpr hentry)).map
    ResourceSummaryEffect.key_injective

theorem HasEffect.defines {name : CppString} {effect : ResourceSummaryEffect}
    (h : HasEffect a name effect) : Defines a name := h.imp fun _ => And.left

theorem not_defines_empty (name : CppString) : ¬ Defines EntryMap.empty name := by
  simp [Defines]

theorem not_hasEffect_empty (name : CppString) (effect : ResourceSummaryEffect) :
    ¬ HasEffect EntryMap.empty name effect := fun h => not_defines_empty name h.defines

namespace Contained

theorem refl (a : ResourceSummaryIndex) : Contained a a := ⟨fun _ => id, fun _ _ => id⟩

theorem trans (h : Contained a b) (h' : Contained b c) : Contained a c :=
  ⟨fun n hn => h'.1 n (h.1 n hn), fun n e he => h'.2 n e (h.2 n e he)⟩

end Contained

theorem resourceSummaryIndexEquals_refl (a : ResourceSummaryIndex) :
    resourceSummaryIndexEquals a a = true := by
  rw [resourceSummaryIndexEquals, EntryMap.equalsBy_iff]
  intro name
  cases a.find name with
  | none => trivial
  | some fn => exact beq_self_eq_true (sortedKeys fn)

/-- **Equality**: the same functions with the same effects. -/
theorem resourceSummaryIndexEquals_iff (ha : ValidIndex a) (hb : ValidIndex b) :
    resourceSummaryIndexEquals a b = true ↔
      (∀ name, Defines a name ↔ Defines b name) ∧
        ∀ name effect, HasEffect a name effect ↔ HasEffect b name effect := by
  rw [resourceSummaryIndexEquals, EntryMap.equalsBy_iff, ← forall_and]
  refine forall_congr' fun name => ?_
  unfold Defines HasEffect
  cases hfa : a.find name with
  | none =>
    cases hfb : b.find name with
    | none => simp [EntryMap.ValueEq]
    | some g => simp [EntryMap.ValueEq]
  | some f =>
    cases hfb : b.find name with
    | none => simp [EntryMap.ValueEq]
    | some g =>
      rw [EntryMap.ValueEq, resourceSummaryFunctionEquals_iff (ha.nodup hfa) (hb.nodup hfb)]
      simp

/-- The value of a function after a merge. -/
theorem find_mergeResourceSummaryIndex (dst src : ResourceSummaryIndex) (name : CppString) :
    (mergeResourceSummaryIndex dst src).1.find name =
      match dst.find name, src.find name with
      | d, none => d
      | none, some s => some s
      | some d, some s => some (mergeEffects d s).1 := by
  rw [mergeResourceSummaryIndex, EntryMap.find_merge]
  cases dst.find name <;> cases src.find name <;> rfl

/-- A merge defines what either index defines. -/
theorem defines_merge (name : CppString) :
    Defines (mergeResourceSummaryIndex dst src).1 name ↔ Defines dst name ∨ Defines src name := by
  unfold Defines
  rw [find_mergeResourceSummaryIndex]
  cases dst.find name <;> cases src.find name <;> simp

/-- **A merge is the union** of the effects. -/
theorem hasEffect_merge (name : CppString) (effect : ResourceSummaryEffect) :
    HasEffect (mergeResourceSummaryIndex dst src).1 name effect ↔
      HasEffect dst name effect ∨ HasEffect src name effect := by
  unfold HasEffect
  rw [find_mergeResourceSummaryIndex]
  cases dst.find name with
  | none => cases src.find name <;> simp
  | some d =>
    cases src.find name with
    | none => simp
    | some s => simpa using (mergeEffects_spec d s).1 effect

/-- A merge carries no duplicates. -/
theorem validIndex_merge (hdst : ValidIndex dst) (hsrc : ValidIndex src) :
    ValidIndex (mergeResourceSummaryIndex dst src).1 := by
  rw [validIndex_iff]
  intro name fn hfn
  rw [find_mergeResourceSummaryIndex] at hfn
  cases hd : dst.find name with
  | none =>
    cases hs : src.find name with
    | none => simp [hd, hs] at hfn
    | some s =>
      simp only [hd, hs, Option.some.injEq] at hfn
      exact hfn ▸ hsrc.nodup hs
  | some d =>
    cases hs : src.find name with
    | none =>
      simp only [hd, hs, Option.some.injEq] at hfn
      exact hfn ▸ hdst.nodup hd
    | some s =>
      simp only [hd, hs, Option.some.injEq] at hfn
      exact hfn ▸ (mergeEffects_spec d s).2.1 (hdst.nodup hd)

/-- A merge contains an index iff the merged ones do. -/
theorem merge_contained_iff :
    Contained (mergeResourceSummaryIndex dst src).1 c ↔ Contained dst c ∧ Contained src c := by
  simp only [Contained, defines_merge, hasEffect_merge, or_imp, forall_and]
  tauto

theorem contained_merge_left : Contained dst (mergeResourceSummaryIndex dst src).1 :=
  (merge_contained_iff.mp (Contained.refl _)).1

theorem contained_merge_right : Contained src (mergeResourceSummaryIndex dst src).1 :=
  (merge_contained_iff.mp (Contained.refl _)).2

/-- A merge reports no change iff everything was known. -/
theorem merge_unchanged_iff_contained :
    (mergeResourceSummaryIndex dst src).2 = false ↔ Contained src dst := by
  rw [← Bool.not_eq_true, mergeResourceSummaryIndex, EntryMap.merge_changed_iff, not_exists,
    Contained, ← forall_and]
  refine forall_congr' fun name => ?_
  unfold EntryMap.mergeChanges Defines HasEffect
  cases hs : src.find name with
  | none => simp
  | some s =>
    cases hd : dst.find name with
    | none => simp [resourceJoining]
    | some d =>
      have hch := (mergeEffects_spec d s).2.2.1
      simp only [resourceJoining, Option.some.injEq, exists_eq_left', forall_eq', true_and,
        hch, exists_eq', implies_true]
      simp

/-- A merge reports no change iff it makes none. -/
theorem merge_unchanged_iff_eq :
    (mergeResourceSummaryIndex dst src).2 = false ↔ (mergeResourceSummaryIndex dst src).1 = dst :=
  EntryMap.merge_eq_self_iff dst src fun _ _ s _ => mergeEffects_eq_self_iff _ s

/-- No name has changed iff the indexes are equal. -/
theorem changedNames_eq_nil_iff :
    computeChangedResourceFunctionNames a b = [] ↔ resourceSummaryIndexEquals a b = true := by
  have hsymm : ∀ f g, resourceSummaryFunctionEquals f g = resourceSummaryFunctionEquals g f :=
    fun f g => BEq.comm
  rw [resourceSummaryIndexEquals, EntryMap.equalsBy_iff, List.eq_nil_iff_forall_not_mem]
  refine forall_congr' fun name => ?_
  rw [computeChangedResourceFunctionNames, EntryMap.mem_changedKeys, not_not]
  cases a.find name <;> cases b.find name <;> simp [EntryMap.ValueEq, hsymm]

/-! ## The hashed text -/

/-- The line of an effect. -/
def effectLine (key : CppString) : CppString := ' ' :: ' ' :: key

/-- A name that can be mistaken for the line of an effect, behind a smaller name. -/
def Ambiguous (names : Set CppString) : Prop :=
  ∃ f ∈ names, ∃ g ∈ names, '\n' ∉ f ∧ f < g ∧
    ∃ effect : ResourceSummaryEffect, '\n' ∉ effect.resourceKind ∧
      g = effectLine effect.encodeSummaryEffectKey

/-- The lines of an entry. -/
def entryLines (entry : CppString × List CppString) : List CppString :=
  entry.1 :: entry.2.map effectLine

/-- Text is determined by its lines. -/
theorem lines_inj {ls ms : List CppString} (hl : ∀ l ∈ ls, '\n' ∉ l) (hm : ∀ l ∈ ms, '\n' ∉ l)
    (h : ls.flatMap (· ++ ['\n']) = ms.flatMap (· ++ ['\n'])) : ls = ms := by
  induction ls generalizing ms with
  | nil =>
    cases ms with
    | nil => rfl
    | cons m ms => simp at h
  | cons l ls ih =>
    cases ms with
    | nil => simp at h
    | cons m ms =>
      simp only [List.flatMap_cons, List.append_assoc, List.singleton_append] at h
      obtain ⟨rfl, htail⟩ := append_separator_inj (hl l List.mem_cons_self)
        (hm m List.mem_cons_self) h
      rw [ih (fun x hx => hl x (List.mem_cons_of_mem _ hx))
        (fun x hx => hm x (List.mem_cons_of_mem _ hx)) htail]

/-- The hashed text consists of the lines of the canonical entries. -/
theorem summaryIndexText_eq (index : ResourceSummaryIndex) :
    summaryIndexText index =
      ((canonicalEntries index).flatMap entryLines).flatMap (· ++ ['\n']) := by
  rw [summaryIndexText, List.flatMap_assoc]
  refine List.flatMap_congr fun entry _ => ?_
  rw [entryLines, List.flatMap_cons, List.flatMap_map, List.append_assoc, List.singleton_append]
  rfl

/-- An index over a set of names: no duplicate effects, and no newline in names and resource
kinds. -/
structure IndexOver (names : Set CppString) (index : ResourceSummaryIndex) : Prop where
  valid : ValidIndex index
  mem : ∀ entry ∈ index.entries, entry.1 ∈ names
  name : ∀ entry ∈ index.entries, '\n' ∉ entry.1
  kind : ∀ entry ∈ index.entries, ∀ effect ∈ entry.2, '\n' ∉ effect.resourceKind

/-- A canonical entry over a set of names. -/
structure EntryOver (names : Set CppString) (entry : CppString × List CppString) : Prop where
  mem : entry.1 ∈ names
  name : '\n' ∉ entry.1
  keys : ∀ key ∈ entry.2, ∃ effect : ResourceSummaryEffect,
    '\n' ∉ effect.resourceKind ∧ key = effect.encodeSummaryEffectKey

/-- The line of an effect whose kind has no newline has none. -/
theorem not_mem_effectLine {effect : ResourceSummaryEffect} (h : '\n' ∉ effect.resourceKind) :
    '\n' ∉ effectLine effect.encodeSummaryEffectKey := by
  have hdecimal : ∀ n, '\n' ∉ decimal n := not_mem_decimal rfl
  simp [effectLine, ResourceSummaryEffect.encodeSummaryEffectKey, effectKey, hdecimal, h]

section Canonical

variable {names : Set CppString}

/-- The canonical entries have the names and the sorted keys of the index. -/
theorem mem_canonicalEntries (index : ResourceSummaryIndex)
    (entry : CppString × List CppString) :
    entry ∈ canonicalEntries index ↔
      ∃ fn, index.find entry.1 = some fn ∧ entry.2 = sortedKeys fn := by
  have hkeys : ∀ fn : ResourceSummaryFunction,
      (fn.map ResourceSummaryEffect.encodeSummaryEffectKey).insertionSort (· ≤ ·) =
        sortedKeys fn := by
    intro fn
    rw [sortedKeys]
    congr 1
    exact List.map_congr_left fun e _ => e.encodeSummaryEffectKey_eq
  rw [canonicalEntries, List.mem_insertionSort, List.mem_map]
  constructor
  · rintro ⟨⟨name, fn⟩, hmem, rfl⟩
    exact ⟨fn, EntryMap.find_eq_some_iff.mpr hmem, hkeys fn⟩
  · rintro ⟨fn, hfind, hentry⟩
    exact ⟨(entry.1, fn), EntryMap.find_eq_some_iff.mp hfind, Prod.ext rfl (by
      rw [hentry]
      exact hkeys fn)⟩

/-- The canonical entries are in the order of their names. -/
theorem pairwise_canonicalEntries (index : ResourceSummaryIndex) :
    (canonicalEntries index).Pairwise fun x y => x.1 < y.1 := by
  have hle : (canonicalEntries index).Pairwise fun x y => x.1 ≤ y.1 := by
    have htotal : Std.Total fun x y : CppString × List CppString => x.1 ≤ y.1 :=
      ⟨fun x y => le_total x.1 y.1⟩
    have htrans : IsTrans (CppString × List CppString) fun x y => x.1 ≤ y.1 :=
      ⟨fun x y z => le_trans⟩
    exact List.pairwise_insertionSort _ _
  have hnames : (canonicalEntries index).Pairwise fun x y => x.1 ≠ y.1 := by
    refine List.pairwise_map.mp (?_ : ((canonicalEntries index).map Prod.fst).Nodup)
    have hperm := (List.perm_insertionSort
      (fun x y : CppString × List CppString => x.1 ≤ y.1)
      (index.entries.map fun entry => (entry.1,
        (entry.2.map ResourceSummaryEffect.encodeSummaryEffectKey).insertionSort (· ≤ ·)))).map
      Prod.fst
    refine hperm.nodup_iff.mpr ?_
    rw [List.map_map]
    exact index.nodup
  exact hle.imp₂ (fun _ _ h hne => lt_of_le_of_ne h hne) hnames

/-- **Equality of indexes is equality of their canonical entries.** -/
theorem canonicalEntries_eq_iff :
    canonicalEntries a = canonicalEntries b ↔ resourceSummaryIndexEquals a b = true := by
  rw [resourceSummaryIndexEquals, EntryMap.equalsBy_iff]
  constructor
  · intro h name
    have hmem : ∀ keys, (name, keys) ∈ canonicalEntries a ↔ (name, keys) ∈ canonicalEntries b :=
      fun keys => by rw [h]
    simp only [mem_canonicalEntries] at hmem
    cases hfa : a.find name with
    | none =>
      cases hfb : b.find name with
      | none => trivial
      | some g =>
        obtain ⟨f, hf, -⟩ := (hmem (sortedKeys g)).mpr ⟨g, hfb, rfl⟩
        simp [hfa] at hf
    | some f =>
      obtain ⟨g, hg, heq⟩ := (hmem (sortedKeys f)).mp ⟨f, hfa, rfl⟩
      rw [hg]
      exact beq_iff_eq.mpr heq
  · intro h
    have hirrefl : Std.Irrefl fun x y : CppString × List CppString => x.1 < y.1 :=
      ⟨fun x => lt_irrefl x.1⟩
    have hanti : Std.Antisymm fun x y : CppString × List CppString => x.1 < y.1 :=
      ⟨fun x y h h' => absurd h (lt_asymm h')⟩
    refine List.Pairwise.eq_of_mem_iff (pairwise_canonicalEntries a)
      (pairwise_canonicalEntries b) fun entry => ?_
    rw [mem_canonicalEntries, mem_canonicalEntries]
    have hname := h entry.1
    cases hfa : a.find entry.1 with
    | none =>
      cases hfb : b.find entry.1 with
      | none => rfl
      | some g => exact absurd hname (by simp [hfa, hfb, EntryMap.ValueEq])
    | some f =>
      cases hfb : b.find entry.1 with
      | none => exact absurd hname (by simp [hfa, hfb, EntryMap.ValueEq])
      | some g =>
        rw [hfa, hfb] at hname
        have heq : sortedKeys f = sortedKeys g := beq_iff_eq.mp hname
        simp [heq]

/-- Effect lines in front of text that begins with none. -/
theorem effectLines_inj {keys keys' x y : List CppString} {P : CppString → Prop}
    (hk : ∀ k ∈ keys, P k) (hk' : ∀ k ∈ keys', P k)
    (hx : ∀ k ls, P k → x ≠ effectLine k :: ls) (hy : ∀ k ls, P k → y ≠ effectLine k :: ls)
    (h : keys.map effectLine ++ x = keys'.map effectLine ++ y) : keys = keys' ∧ x = y := by
  induction keys generalizing keys' with
  | nil =>
    cases keys' with
    | nil => exact ⟨rfl, h⟩
    | cons k' keys' => exact absurd h (hx k' _ (hk' k' List.mem_cons_self))
  | cons k keys ih =>
    cases keys' with
    | nil => exact absurd h.symm (hy k _ (hk k List.mem_cons_self))
    | cons k' keys' =>
      rw [List.map_cons, List.map_cons, List.cons_append, List.cons_append] at h
      obtain ⟨hhead, htail⟩ := List.cons.inj h
      have hkk : k = k' := (List.cons.inj (List.cons.inj hhead).2).2
      obtain ⟨hkeys, hxy⟩ := ih (fun k hk₁ => hk k (List.mem_cons_of_mem _ hk₁))
        (fun k hk₁ => hk' k (List.mem_cons_of_mem _ hk₁)) htail
      exact ⟨by rw [hkk, hkeys], hxy⟩

/-- The lines determine the entries, if names are not ambiguous.

**Proof sketch.** Induction on the entries. A line behind those of an entry that is the line of an
effect for one list is the name of the next entry for the other, which is an ambiguous name. -/
theorem entryLines_inj (hnames : ¬ Ambiguous names) {A B : List (CppString × List CppString)}
    (hA : A.Pairwise fun x y => x.1 < y.1) (hB : B.Pairwise fun x y => x.1 < y.1)
    (hA' : ∀ x ∈ A, EntryOver names x) (hB' : ∀ x ∈ B, EntryOver names x)
    (h : A.flatMap entryLines = B.flatMap entryLines) : A = B := by
  induction A generalizing B with
  | nil =>
    cases B with
    | nil => rfl
    | cons y B => simp [entryLines] at h
  | cons x A ih =>
    cases B with
    | nil => simp [entryLines] at h
    | cons y B =>
      rw [List.flatMap_cons, List.flatMap_cons, entryLines, entryLines, List.cons_append,
        List.cons_append] at h
      obtain ⟨hname, htail⟩ := List.cons.inj h
      have hnext : ∀ (C : List (CppString × List CppString)), (∀ z ∈ C, EntryOver names z) →
          (∀ z ∈ C, x.1 < z.1) → ∀ k ls,
          (∃ effect : ResourceSummaryEffect, '\n' ∉ effect.resourceKind ∧
            k = effect.encodeSummaryEffectKey) → C.flatMap entryLines ≠ effectLine k :: ls := by
        rintro C hC hlt k ls ⟨effect, hkind, rfl⟩ heq
        cases C with
        | nil => simp at heq
        | cons z C =>
          rw [List.flatMap_cons, entryLines, List.cons_append] at heq
          exact hnames ⟨x.1, (hA' x List.mem_cons_self).mem, z.1, (hC z List.mem_cons_self).mem,
            (hA' x List.mem_cons_self).name, hlt z List.mem_cons_self, effect, hkind,
            (List.cons.inj heq).1⟩
      have hltB : ∀ z ∈ B, x.1 < z.1 := fun z hz => hname ▸ (List.pairwise_cons.mp hB).1 z hz
      have hA'' := fun z hz => hA' z (List.mem_cons_of_mem _ hz)
      have hB'' := fun z hz => hB' z (List.mem_cons_of_mem _ hz)
      obtain ⟨hkeys, hrest⟩ := effectLines_inj (hA' x List.mem_cons_self).keys
        (hB' y List.mem_cons_self).keys (hnext A hA'' (List.pairwise_cons.mp hA).1)
        (hnext B hB'' hltB) htail
      rw [ih (List.pairwise_cons.mp hA).2 (List.pairwise_cons.mp hB).2 hA'' hB'' hrest,
        Prod.ext hname hkeys]

/-- The canonical entries of an index over a set of names. -/
theorem IndexOver.entryOver (h : IndexOver names a) :
    ∀ entry ∈ canonicalEntries a, EntryOver names entry := by
  intro entry hentry
  obtain ⟨fn, hfind, hkeys⟩ := (mem_canonicalEntries a entry).mp hentry
  have hmem := EntryMap.find_eq_some_iff.mp hfind
  refine ⟨h.mem _ hmem, h.name _ hmem, fun key hkey => ?_⟩
  rw [hkeys, sortedKeys, List.mem_insertionSort] at hkey
  obtain ⟨effect, heffect, rfl⟩ := List.mem_map.mp hkey
  exact ⟨effect, h.kind _ hmem effect heffect, effect.encodeSummaryEffectKey_eq.symm⟩

/-- **The text determines the index**, if names are not ambiguous. -/
theorem summaryIndexText_inj (hnames : ¬ Ambiguous names) (ha : IndexOver names a)
    (hb : IndexOver names b) (h : summaryIndexText a = summaryIndexText b) :
    resourceSummaryIndexEquals a b = true := by
  have hlines : ∀ index, IndexOver names index →
      ∀ l ∈ (canonicalEntries index).flatMap entryLines, '\n' ∉ l := by
    intro index hindex l hl
    obtain ⟨entry, hentry, hl⟩ := List.mem_flatMap.mp hl
    have hover := hindex.entryOver entry hentry
    rcases List.mem_cons.mp hl with rfl | hl
    · exact hover.name
    · obtain ⟨key, hkey, rfl⟩ := List.mem_map.mp hl
      obtain ⟨effect, hkind, rfl⟩ := hover.keys key hkey
      exact not_mem_effectLine hkind
  rw [summaryIndexText_eq, summaryIndexText_eq] at h
  exact canonicalEntries_eq_iff.mp (entryLines_inj hnames (pairwise_canonicalEntries a)
    (pairwise_canonicalEntries b) ha.entryOver hb.entryOver
    (lines_inj (hlines a ha) (hlines b hb) h))

/-- Equal indexes have the same text. -/
theorem summaryIndexText_eq_of_equals (h : resourceSummaryIndexEquals a b = true) :
    summaryIndexText a = summaryIndexText b := by
  rw [summaryIndexText, summaryIndexText, canonicalEntries_eq_iff.mpr h]

end Canonical

/-! ## The laws -/

/-- The laws of merging, comparing and hashing indexes over a set of names. -/
structure ResourceMergeLaws (names : Set CppString) : Prop where
  comm : ∀ a b, IndexOver names a → IndexOver names b →
    resourceSummaryIndexEquals (mergeResourceSummaryIndex a b).1
      (mergeResourceSummaryIndex b a).1 = true
  assoc : ∀ a b c, IndexOver names a → IndexOver names b → IndexOver names c →
    resourceSummaryIndexEquals
      (mergeResourceSummaryIndex (mergeResourceSummaryIndex a b).1 c).1
      (mergeResourceSummaryIndex a (mergeResourceSummaryIndex b c).1).1 = true
  idem : ∀ a, IndexOver names a →
    resourceSummaryIndexEquals (mergeResourceSummaryIndex a a).1 a = true
  union : ∀ a b, IndexOver names a → IndexOver names b → ∀ name,
    (Defines (mergeResourceSummaryIndex a b).1 name ↔ Defines a name ∨ Defines b name) ∧
      ∀ effect, HasEffect (mergeResourceSummaryIndex a b).1 name effect ↔
        HasEffect a name effect ∨ HasEffect b name effect
  unchanged : ∀ dst src, IndexOver names dst → IndexOver names src →
    ((mergeResourceSummaryIndex dst src).2 = false ↔
        (mergeResourceSummaryIndex dst src).1 = dst) ∧
      ((mergeResourceSummaryIndex dst src).2 = false ↔ Contained src dst)
  changedNames : ∀ a b, IndexOver names a → IndexOver names b →
    (computeChangedResourceFunctionNames a b = [] ↔ resourceSummaryIndexEquals a b = true)
  text : ∀ a b, IndexOver names a → IndexOver names b →
    (summaryIndexText a = summaryIndexText b ↔ resourceSummaryIndexEquals a b = true)

/-- Two indexes with the same text, over ambiguous names. -/
theorem exists_same_text {names : Set CppString} (h : Ambiguous names) :
    ∃ a b, IndexOver names a ∧ IndexOver names b ∧ summaryIndexText a = summaryIndexText b ∧
      resourceSummaryIndexEquals a b = false := by
  obtain ⟨f, hf, g, hg, hnewline, hlt, effect, hkind, rfl⟩ := h
  refine ⟨⟨[(f, [effect])], by simp⟩,
    ⟨[(f, []), (effectLine effect.encodeSummaryEffectKey, [])], by simp [hlt.ne]⟩, ?_, ?_, ?_, ?_⟩
  · exact ⟨by simp [ValidIndex], by simpa using hf, by simpa using hnewline, by simpa using hkind⟩
  · exact ⟨by simp [ValidIndex], by simp [hf, hg],
      by simpa using ⟨hnewline, not_mem_effectLine hkind⟩, by simp⟩
  · have hle : f ≤ ' ' :: ' ' :: effect.encodeSummaryEffectKey := hlt.le
    simp [summaryIndexText, canonicalEntries, effectLine, hle]
  · simp [resourceSummaryIndexEquals, EntryMap.equalsBy]

/-- **The laws of resource summaries** hold of indexes over a set of names iff no name can be
mistaken for the line of an effect behind a smaller name.

**Proof sketch.** Merging is the union of what the indexes define and list, and equality and changed
names compare these. Only the text does not determine the index: the line of an effect may be that
of a function. -/
theorem resourceMergeLaws_iff (names : Set CppString) :
    ResourceMergeLaws names ↔ ¬ Ambiguous names := by
  constructor
  · intro h hambiguous
    obtain ⟨a, b, ha, hb, htext, hne⟩ := exists_same_text hambiguous
    rw [(h.text a b ha hb).mp htext] at hne
    exact Bool.noConfusion hne
  · intro hnames
    refine ⟨fun a b ha hb => ?_, fun a b c ha hb hc => ?_, fun a ha => ?_,
      fun a b _ _ name => ⟨defines_merge name, hasEffect_merge name⟩,
      fun dst src _ _ => ⟨merge_unchanged_iff_eq, merge_unchanged_iff_contained⟩,
      fun a b _ _ => changedNames_eq_nil_iff,
      fun a b ha hb => ⟨summaryIndexText_inj hnames ha hb, summaryIndexText_eq_of_equals⟩⟩
    · rw [resourceSummaryIndexEquals_iff (validIndex_merge ha.valid hb.valid)
        (validIndex_merge hb.valid ha.valid)]
      refine ⟨fun name => ?_, fun name effect => ?_⟩
      · rw [defines_merge, defines_merge, or_comm]
      · rw [hasEffect_merge, hasEffect_merge, or_comm]
    · have hab := validIndex_merge ha.valid hb.valid
      have hbc := validIndex_merge hb.valid hc.valid
      rw [resourceSummaryIndexEquals_iff (validIndex_merge hab hc.valid)
        (validIndex_merge ha.valid hbc)]
      refine ⟨fun name => ?_, fun name effect => ?_⟩
      · rw [defines_merge, defines_merge, defines_merge, defines_merge, or_assoc]
      · rw [hasEffect_merge, hasEffect_merge, hasEffect_merge, hasEffect_merge, or_assoc]
    · rw [resourceSummaryIndexEquals_iff (validIndex_merge ha.valid ha.valid) ha.valid]
      refine ⟨fun name => ?_, fun name effect => ?_⟩
      · rw [defines_merge, or_self]
      · rw [hasEffect_merge, or_self]

/-- The resource kind `k`, released by the first argument. -/
def releaseEffect : ResourceSummaryEffect := ⟨.releaseArg, 0, 0, false, ['k']⟩

/-- **A confusion**: a function named by a blank that releases its argument, and two functions
without effects of which the second one is named by the line of that effect. -/
theorem not_resourceMergeLaws :
    ¬ ResourceMergeLaws {[' '], effectLine releaseEffect.encodeSummaryEffectKey} := by
  intro h
  have hambiguous : Ambiguous {[' '], effectLine releaseEffect.encodeSummaryEffectKey} :=
    ⟨_, Or.inl rfl, _, Or.inr rfl, by decide, by decide, releaseEffect, by decide, rfl⟩
  obtain ⟨a, b, ha, hb, htext, hne⟩ := exists_same_text hambiguous
  rw [(h.text a b ha hb).mp htext] at hne
  exact Bool.noConfusion hne

end StackAnalyzer.CrossTU
