import Mathlib

set_option relaxedAutoImplicit false
set_option autoImplicit false

/-!
# Finite maps that are merged entry by entry

A finite map as the list of its entries, in the order in which a hash table is iterated over. Maps
are merged by going through the entries of one of them: an entry with a new key is added, one with a
known key is joined with the old value. Equality of maps and the set of changed keys are decided
with an equality of values.

## Main definitions

* `Maps.EntryMap`, `Maps.EntryMap.find` — finite maps, and looking up a key.
* `Maps.Joining`, `Maps.EntryMap.merge` — how values are joined, and merging maps.
* `Maps.EntryMap.equalsBy`, `Maps.EntryMap.changedKeys` — comparing maps.

## Main results

* `Maps.EntryMap.find_merge`, `Maps.EntryMap.merge_changed_iff` — what a merge does, key by key.
* `Maps.EntryMap.merge_eq_self_iff` — a merge that reports no change is one that makes none.
* `Maps.EntryMap.equalsBy_iff`, `Maps.EntryMap.mem_changedKeys` — comparisons, key by key.
-/

namespace Maps

/-- The value of a key in a list of entries. -/
def lookup {K V : Type*} [DecidableEq K] : List (K × V) → K → Option V
  | [], _ => none
  | e :: es, k => if e.1 = k then some e.2 else lookup es k

/-- A finite map: its entries, no two of them with the same key. -/
@[ext] structure EntryMap (K V : Type*) where
  entries : List (K × V)
  nodup : (entries.map Prod.fst).Nodup

/-- How a value is joined to another one, and whether that changed it. Some values are passed over,
and a value may be normalised before it becomes an entry of its own. -/
structure Joining (V : Type*) where
  skip : V → Bool
  normalize : V → V
  join : V → V → V × Bool

section Lookup

variable {K V : Type*} [DecidableEq K]

theorem lookup_eq_none_iff {es : List (K × V)} {k : K} :
    lookup es k = none ↔ k ∉ es.map Prod.fst := by
  induction es with
  | nil => simp [lookup]
  | cons e es ih =>
    by_cases h : e.1 = k
    · simp [lookup, h]
    · simp [lookup, h, ih, Ne.symm h]

theorem lookup_append (es es' : List (K × V)) (k : K) :
    lookup (es ++ es') k = (lookup es k).or (lookup es' k) := by
  induction es with
  | nil => simp [lookup]
  | cons e es ih => by_cases h : e.1 = k <;> simp [lookup, h, ih]

theorem lookup_eq_some_iff {es : List (K × V)} (h : (es.map Prod.fst).Nodup) {k : K} {v : V} :
    lookup es k = some v ↔ (k, v) ∈ es := by
  induction es with
  | nil => simp [lookup]
  | cons e es ih =>
    obtain ⟨hnot, hnodup⟩ := List.nodup_cons.mp h
    by_cases hk : e.1 = k
    · have hmem : (k, v) ∉ es := fun hv => hnot (hk ▸ List.mem_map_of_mem hv)
      rw [lookup, if_pos hk, List.mem_cons, or_iff_left hmem]
      subst hk
      exact ⟨fun h => by rw [← Option.some.inj h], fun h => by rw [← h]⟩
    · have hne : (k, v) ≠ e := fun h => hk (h ▸ rfl)
      rw [lookup, if_neg hk, ih hnodup, List.mem_cons, or_iff_right hne]

end Lookup

namespace EntryMap

variable {K V : Type*}

/-- The map without entries. -/
def empty : EntryMap K V := ⟨[], List.nodup_nil⟩

variable [DecidableEq K]

/-- The value of a key. -/
def find (m : EntryMap K V) (k : K) : Option V := lookup m.entries k

/-- Add an entry with a new key. -/
def add (m : EntryMap K V) (k : K) (v : V) (h : m.find k = none) : EntryMap K V where
  entries := m.entries ++ [(k, v)]
  nodup := by
    rw [List.map_append, List.map_singleton]
    refine m.nodup.append (List.nodup_singleton k) ?_
    rw [List.disjoint_singleton]
    exact lookup_eq_none_iff.mp h

/-- Replace the value of a key. -/
def set (m : EntryMap K V) (k : K) (v : V) : EntryMap K V where
  entries := m.entries.map fun e => if e.1 = k then (e.1, v) else e
  nodup := by
    have hkeys : (m.entries.map fun e => if e.1 = k then (e.1, v) else e).map Prod.fst =
        m.entries.map Prod.fst := by
      rw [List.map_map]
      refine List.map_congr_left fun e _ => ?_
      by_cases h : e.1 = k <;> simp [h]
    rw [hkeys]
    exact m.nodup

/-- `insert_or_assign`, or an assignment through `operator[]`. -/
def assign (m : EntryMap K V) (k : K) (v : V) : EntryMap K V :=
  match h : m.find k with
  | none => m.add k v h
  | some _ => m.set k v

@[simp] theorem find_empty (k : K) : (empty : EntryMap K V).find k = none := rfl

theorem find_eq_some_iff {m : EntryMap K V} {k : K} {v : V} :
    m.find k = some v ↔ (k, v) ∈ m.entries := lookup_eq_some_iff m.nodup

/-- The order of the entries does not matter to the values. -/
theorem find_congr_perm {m m' : EntryMap K V} (h : m.entries.Perm m'.entries) (k : K) :
    m.find k = m'.find k := by
  apply Option.ext
  intro v
  rw [find_eq_some_iff, find_eq_some_iff, h.mem_iff]

theorem find_add (m : EntryMap K V) (k : K) (v : V) (h : m.find k = none) (k' : K) :
    (m.add k v h).find k' = if k = k' then some v else m.find k' := by
  unfold find add
  rw [lookup_append]
  by_cases hk : k = k'
  · have hnone : lookup m.entries k' = none := hk ▸ h
    simp [lookup, hk, hnone]
  · cases lookup m.entries k' <;> simp [lookup, hk]

theorem find_set (m : EntryMap K V) (k : K) (v : V) (k' : K) :
    (m.set k v).find k' = if k = k' then (m.find k').map fun _ => v else m.find k' := by
  unfold find set
  simp only
  induction m.entries with
  | nil => simp [lookup]
  | cons e es ih =>
    rw [List.map_cons]
    by_cases he : e.1 = k
    · by_cases hk : k = k'
      · simp [lookup, he, hk]
      · simp only [if_neg hk] at ih
        simp [lookup, he, hk, ih]
    · by_cases hk : k = k'
      · subst hk
        simp only [if_true] at ih
        simp only [lookup, if_neg he, if_true, ih]
      · simp only [if_neg hk] at ih
        simp only [lookup, if_neg he, if_neg hk, ih]

theorem find_assign (m : EntryMap K V) (k : K) (v : V) (k' : K) :
    (m.assign k v).find k' = if k = k' then some v else m.find k' := by
  unfold assign
  split
  · rename_i h
    exact find_add m k v h k'
  · rename_i d h
    rw [find_set]
    by_cases hk : k = k'
    · rw [if_pos hk, if_pos hk, ← hk, h, Option.map_some]
    · rw [if_neg hk, if_neg hk]

theorem set_eq_self {m : EntryMap K V} {k : K} {v : V} (h : m.find k = some v) :
    m.set k v = m := by
  apply EntryMap.ext
  refine (List.map_congr_left fun e he => ?_).trans (List.map_id _)
  by_cases hk : e.1 = k
  · have he' : m.find k = some e.2 := find_eq_some_iff.mpr (hk ▸ he)
    rw [if_pos hk, Option.some.inj (h.symm.trans he'), id]
  · rw [if_neg hk, id]

/-- An assignment adds a new key at the end. -/
theorem keys_assign (m : EntryMap K V) (k : K) (v : V) :
    (m.assign k v).entries.map Prod.fst =
      if k ∈ m.entries.map Prod.fst then m.entries.map Prod.fst
      else m.entries.map Prod.fst ++ [k] := by
  unfold assign
  split
  · rename_i h
    rw [if_neg (lookup_eq_none_iff.mp h), add, List.map_append, List.map_singleton]
  · rename_i d h
    have hmem : k ∈ m.entries.map Prod.fst := by
      by_contra hnot
      exact absurd ((lookup_eq_none_iff.mpr hnot).symm.trans h) (Option.some_ne_none _).symm
    rw [if_pos hmem, set, List.map_map]
    refine List.map_congr_left fun e _ => ?_
    by_cases he : e.1 = k <;> simp [he]

/-- Change every value, and keep the keys. -/
def mapValues (f : V → V) (m : EntryMap K V) : EntryMap K V where
  entries := m.entries.map fun e => (e.1, f e.2)
  nodup := by
    rw [List.map_map]
    exact m.nodup

theorem find_mapValues (f : V → V) (m : EntryMap K V) (k : K) :
    (m.mapValues f).find k = (m.find k).map f := by
  unfold find mapValues
  simp only
  induction m.entries with
  | nil => rfl
  | cons e es ih =>
    rw [List.map_cons]
    by_cases he : e.1 = k
    · simp [lookup, he]
    · simp [lookup, he, ih]

/-! ## Merging -/

section Merge

variable (J : Joining V)

/-- Merge an entry, and record whether that changed the map. -/
def mergeEntry (r : EntryMap K V × Bool) (e : K × V) : EntryMap K V × Bool :=
  if J.skip e.2 then r
  else
    match h : r.1.find e.1 with
    | none => (r.1.add e.1 (J.normalize e.2) h, true)
    | some d => (r.1.set e.1 (J.join d e.2).1, r.2 || (J.join d e.2).2)

/-- Merge the entries of a map into another one. -/
def merge (dst src : EntryMap K V) : EntryMap K V × Bool :=
  src.entries.foldl (mergeEntry J) (dst, false)

/-- The value of a key after a merge. -/
def mergedValue (dst src : Option V) : Option V :=
  match src with
  | none => dst
  | some s =>
    if J.skip s then dst
    else
      match dst with
      | none => some (J.normalize s)
      | some d => some (J.join d s).1

/-- Merging the value of a key changes something. -/
def mergeChanges (dst src : Option V) : Prop :=
  ∃ s, src = some s ∧ J.skip s = false ∧ ∀ d, dst = some d → (J.join d s).2 = true

variable {J}

theorem find_mergeEntry (r : EntryMap K V × Bool) (e : K × V) (k : K) :
    (mergeEntry J r e).1.find k =
      if e.1 = k then mergedValue J (r.1.find k) (some e.2) else r.1.find k := by
  unfold mergeEntry mergedValue
  by_cases hskip : J.skip e.2 = true
  · simp [hskip]
  · simp only [hskip, Bool.false_eq_true, if_false]
    split
    · rename_i h
      rw [find_add]
      by_cases hk : e.1 = k
      · simp [hk, hk ▸ h]
      · simp [hk]
    · rename_i d h
      rw [find_set]
      by_cases hk : e.1 = k
      · simp [hk, hk ▸ h]
      · simp [hk]

theorem mergeEntry_changed_iff (r : EntryMap K V × Bool) (e : K × V) :
    (mergeEntry J r e).2 = true ↔ r.2 = true ∨ mergeChanges J (r.1.find e.1) (some e.2) := by
  unfold mergeEntry mergeChanges
  by_cases hskip : J.skip e.2 = true
  · simp [hskip]
  · simp only [hskip, Bool.false_eq_true, if_false]
    split
    · rename_i h
      simp [h, hskip]
    · rename_i d h
      simp [h, hskip]

/-- Merging entries with different keys, key by key. -/
theorem foldl_mergeEntry_spec (es : List (K × V)) (hes : (es.map Prod.fst).Nodup)
    (r : EntryMap K V × Bool) :
    (∀ k, (es.foldl (mergeEntry J) r).1.find k = mergedValue J (r.1.find k) (lookup es k)) ∧
      ((es.foldl (mergeEntry J) r).2 = true ↔
        r.2 = true ∨ ∃ k, mergeChanges J (r.1.find k) (lookup es k)) := by
  induction es generalizing r with
  | nil => simp [lookup, mergedValue, mergeChanges]
  | cons e es ih =>
    obtain ⟨hnot, hnodup⟩ := List.nodup_cons.mp hes
    have hnone : lookup es e.1 = none := lookup_eq_none_iff.mpr hnot
    obtain ⟨hfind, hchanged⟩ := ih hnodup (mergeEntry J r e)
    rw [List.foldl_cons]
    refine ⟨fun k => ?_, ?_⟩
    · rw [hfind, find_mergeEntry, lookup]
      by_cases hk : e.1 = k
      · rw [if_pos hk, if_pos hk, ← hk, hnone, mergedValue]
      · rw [if_neg hk, if_neg hk]
    · rw [hchanged, mergeEntry_changed_iff, or_assoc]
      refine or_congr_right ⟨?_, ?_⟩
      · rintro (h | ⟨k, hk⟩)
        · exact ⟨e.1, by rwa [lookup, if_pos rfl]⟩
        · have hne : e.1 ≠ k := by
            rintro rfl
            obtain ⟨s, hs, -⟩ := hk
            simp [hnone] at hs
          rw [find_mergeEntry, if_neg hne] at hk
          exact ⟨k, by rwa [lookup, if_neg hne]⟩
      · rintro ⟨k, hk⟩
        by_cases hne : e.1 = k
        · subst hne
          rw [lookup, if_pos rfl] at hk
          exact Or.inl hk
        · rw [lookup, if_neg hne] at hk
          refine Or.inr ⟨k, ?_⟩
          rwa [find_mergeEntry, if_neg hne]

/-- **A merge, key by key.** -/
theorem find_merge (dst src : EntryMap K V) (k : K) :
    (merge J dst src).1.find k = mergedValue J (dst.find k) (src.find k) :=
  (foldl_mergeEntry_spec src.entries src.nodup (dst, false)).1 k

/-- A merge reports a change iff it changes the value of some key. -/
theorem merge_changed_iff (dst src : EntryMap K V) :
    (merge J dst src).2 = true ↔ ∃ k, mergeChanges J (dst.find k) (src.find k) :=
  ((foldl_mergeEntry_spec src.entries src.nodup (dst, false)).2).trans (by simp; rfl)

/-- A change that has been recorded is reported. -/
theorem changed_of_foldl {es : List (K × V)} {r : EntryMap K V × Bool}
    (h : (es.foldl (mergeEntry J) r).2 = false) : r.2 = false := by
  induction es generalizing r with
  | nil => exact h
  | cons e es ih =>
    have hstep := ih h
    by_contra hr
    have hchanged := (mergeEntry_changed_iff (J := J) r e).mpr (Or.inl (eq_true_of_ne_false hr))
    simp [hstep] at hchanged

/-- An entry that is merged without a change leaves the map alone. -/
theorem mergeEntry_eq_self {r : EntryMap K V × Bool} {e : K × V}
    (hjoin : ∀ d, r.1.find e.1 = some d → (J.join d e.2).2 = false → (J.join d e.2).1 = d)
    (h : (mergeEntry J r e).2 = false) : mergeEntry J r e = r := by
  unfold mergeEntry at h ⊢
  split_ifs at h ⊢ with hskip
  · rfl
  · split at h
    · simp at h
    · rename_i d hd
      obtain ⟨hr, hunchanged⟩ := Bool.or_eq_false_iff.mp h
      rw [hunchanged, Bool.or_false, hjoin d hd hunchanged, set_eq_self hd]

/-- **A merge reports no change iff it makes none**, if the same is true of joining values. -/
theorem merge_eq_self_iff (dst src : EntryMap K V)
    (hjoin : ∀ k d s, dst.find k = some d → ((J.join d s).2 = false ↔ (J.join d s).1 = d)) :
    (merge J dst src).2 = false ↔ (merge J dst src).1 = dst := by
  constructor
  · intro h
    have hfold : ∀ es : List (K × V), (es.foldl (mergeEntry J) (dst, false)).2 = false →
        es.foldl (mergeEntry J) (dst, false) = (dst, false) := by
      intro es
      induction es with
      | nil => exact fun _ => rfl
      | cons e es ih =>
        intro he
        rw [List.foldl_cons] at he ⊢
        have hstep : mergeEntry J (dst, false) e = (dst, false) :=
          mergeEntry_eq_self (fun d hd => (hjoin e.1 d e.2 hd).mp) (changed_of_foldl he)
        rw [hstep] at he ⊢
        exact ih he
    exact congrArg Prod.fst (hfold src.entries h)
  · intro h
    by_contra hchanged
    obtain ⟨k, s, hs, hskip, hall⟩ :=
      (merge_changed_iff dst src).mp (eq_true_of_ne_false hchanged)
    have hk := find_merge (J := J) dst src k
    simp only [h, hs, mergedValue, hskip, Bool.false_eq_true, if_false] at hk
    cases hd : dst.find k with
    | none => simp [hd] at hk
    | some d =>
      rw [hd] at hk
      have hfalse := (hjoin k d s hd).mpr (Option.some.inj hk).symm
      simp [hall d hd] at hfalse

/-- A merge keeps the order of the keys, and adds new ones behind them. -/
theorem keys_prefix_merge (dst src : EntryMap K V) :
    dst.entries.map Prod.fst <+: (merge J dst src).1.entries.map Prod.fst := by
  have hset : ∀ (m : EntryMap K V) (k : K) (v : V),
      (m.set k v).entries.map Prod.fst = m.entries.map Prod.fst := by
    intro m k v
    rw [set, List.map_map]
    refine List.map_congr_left fun e _ => ?_
    by_cases h : e.1 = k <;> simp [h]
  have hentry : ∀ (r : EntryMap K V × Bool) (e : K × V),
      r.1.entries.map Prod.fst <+: (mergeEntry J r e).1.entries.map Prod.fst := by
    intro r e
    unfold mergeEntry
    split_ifs
    · exact List.prefix_rfl
    · split
      · simp only [add, List.map_append]
        exact List.prefix_append _ _
      · rw [hset]
  have hfold : ∀ (es : List (K × V)) (r : EntryMap K V × Bool),
      r.1.entries.map Prod.fst <+: (es.foldl (mergeEntry J) r).1.entries.map Prod.fst := by
    intro es
    induction es with
    | nil => exact fun r => List.prefix_rfl
    | cons e es ih => exact fun r => (hentry r e).trans (ih _)
  exact hfold src.entries (dst, false)

/-! ## Sizes -/

/-- The sizes of all entries. -/
def weight (size : K → V → ℕ) (m : EntryMap K V) : ℕ := (m.entries.map fun e => size e.1 e.2).sum

variable {size : K → V → ℕ}

theorem weight_add (m : EntryMap K V) (k : K) (v : V) (h : m.find k = none) :
    weight size (m.add k v h) = weight size m + size k v := by
  simp [weight, add]

theorem weight_set (size : K → V → ℕ) {m : EntryMap K V} {k : K} {d : V}
    (h : m.find k = some d) (v : V) :
    weight size (m.set k v) + size k d = weight size m + size k v := by
  obtain ⟨es, hnodup⟩ := m
  simp only [weight, set, find] at h ⊢
  induction es with
  | nil => simp [lookup] at h
  | cons e es ih =>
    obtain ⟨hnot, hnodup⟩ := List.nodup_cons.mp hnodup
    simp only [List.map_cons, List.sum_cons]
    by_cases hk : e.1 = k
    · have hrest : (es.map fun e => if e.1 = k then (e.1, v) else e) = es := by
        refine (List.map_congr_left fun e' he' => ?_).trans (List.map_id es)
        have hne : e'.1 ≠ k := fun hk' => hnot (hk ▸ hk' ▸ List.mem_map_of_mem he')
        rw [if_neg hne, id]
      rw [lookup, if_pos hk, Option.some.injEq] at h
      rw [if_pos hk, hrest, hk, h]
      simp only
      omega
    · rw [lookup, if_neg hk] at h
      have := ih hnodup h
      rw [if_neg hk]
      omega

/-- **Changing merges add weight**, if entries have a size and joins that report a change enlarge
the value. -/
theorem weight_merge (hpos : ∀ k v, 0 < size k v)
    (hjoin : ∀ k d s, size k d ≤ size k (J.join d s).1 ∧
      ((J.join d s).2 = true → size k d < size k (J.join d s).1)) (dst src : EntryMap K V) :
    weight size dst ≤ weight size (merge J dst src).1 ∧
      ((merge J dst src).2 = true → weight size dst < weight size (merge J dst src).1) := by
  have hstep : ∀ (r : EntryMap K V × Bool) (e : K × V),
      weight size r.1 ≤ weight size (mergeEntry J r e).1 ∧
        ((mergeEntry J r e).2 = true →
          r.2 = true ∨ weight size r.1 < weight size (mergeEntry J r e).1) := by
    intro r e
    unfold mergeEntry
    by_cases hskip : J.skip e.2 = true
    · simp only [hskip, if_true]
      exact ⟨le_rfl, Or.inl⟩
    · simp only [hskip, Bool.false_eq_true, if_false]
      split
      · rename_i h
        have := hpos e.1 (J.normalize e.2)
        rw [weight_add]
        exact ⟨by omega, fun _ => Or.inr (by omega)⟩
      · rename_i d h
        have hset := weight_set size h (J.join d e.2).1
        obtain ⟨hle, hlt⟩ := hjoin e.1 d e.2
        refine ⟨by simp only; omega, fun hch => ?_⟩
        refine (Bool.or_eq_true_iff.mp hch).imp_right fun hch => ?_
        have := hlt hch
        simp only
        omega
  have hfold : ∀ (es : List (K × V)) (r : EntryMap K V × Bool),
      weight size r.1 ≤ weight size (es.foldl (mergeEntry J) r).1 ∧
        ((es.foldl (mergeEntry J) r).2 = true →
          r.2 = true ∨ weight size r.1 < weight size (es.foldl (mergeEntry J) r).1) := by
    intro es
    induction es with
    | nil => exact fun r => ⟨le_rfl, Or.inl⟩
    | cons e es ih =>
      intro r
      rw [List.foldl_cons]
      obtain ⟨hle, hch⟩ := hstep r e
      obtain ⟨hle', hch'⟩ := ih (mergeEntry J r e)
      refine ⟨hle.trans hle', fun h => ?_⟩
      rcases hch' h with h | h
      · exact (hch h).imp_right fun h => lt_of_lt_of_le h hle'
      · exact Or.inr (lt_of_le_of_lt hle h)
  obtain ⟨hle, hch⟩ := hfold src.entries (dst, false)
  exact ⟨hle, fun h => (hch h).resolve_left Bool.false_ne_true⟩

end Merge

/-! ## Comparing -/

section Compare

variable (eq : V → V → Bool)

/-- Maps with the same number of entries, each entry of the first one with an equal value in the
second one. -/
def equalsBy (lhs rhs : EntryMap K V) : Bool :=
  lhs.entries.length == rhs.entries.length &&
    lhs.entries.all fun e => (rhs.find e.1).any fun v => eq e.2 v

/-- The keys that are new, gone, or have an unequal value. -/
def changedKeys (prev next : EntryMap K V) : List K :=
  (next.entries.filter fun e => (prev.find e.1).all fun v => !eq e.2 v).map Prod.fst ++
    (prev.entries.filter fun e => (next.find e.1).isNone).map Prod.fst

/-- Both keys are missing, or their values are equal. -/
def ValueEq : Option V → Option V → Prop
  | none, none => True
  | some v, some w => eq v w = true
  | _, _ => False

variable {eq}

theorem mem_keys_iff {m : EntryMap K V} {k : K} :
    k ∈ m.entries.map Prod.fst ↔ ∃ v, m.find k = some v := by
  rw [List.mem_map]
  constructor
  · rintro ⟨⟨k', v⟩, hmem, rfl⟩
    exact ⟨v, find_eq_some_iff.mpr hmem⟩
  · rintro ⟨v, hv⟩
    exact ⟨(k, v), find_eq_some_iff.mp hv, rfl⟩

/-- **Equality, key by key.** -/
theorem equalsBy_iff (lhs rhs : EntryMap K V) :
    equalsBy eq lhs rhs = true ↔ ∀ k, ValueEq eq (lhs.find k) (rhs.find k) := by
  rw [equalsBy, Bool.and_eq_true, beq_iff_eq, List.all_eq_true]
  have hall : (∀ e ∈ lhs.entries, ((rhs.find e.1).any fun v => eq e.2 v) = true) ↔
      ∀ k v, lhs.find k = some v → ∃ w, rhs.find k = some w ∧ eq v w = true := by
    constructor
    · intro h k v hk
      have := h (k, v) (find_eq_some_iff.mp hk)
      cases hr : rhs.find k with
      | none => simp [hr] at this
      | some w => exact ⟨w, rfl, by simpa [hr] using this⟩
    · rintro h ⟨k, v⟩ hmem
      obtain ⟨w, hw, heq⟩ := h k v (find_eq_some_iff.mpr hmem)
      simp [hw, heq]
  rw [hall]
  constructor
  · rintro ⟨hlen, h⟩ k
    have hsub : lhs.entries.map Prod.fst ⊆ rhs.entries.map Prod.fst := by
      intro k hk
      obtain ⟨v, hv⟩ := mem_keys_iff.mp hk
      obtain ⟨w, hw, -⟩ := h k v hv
      exact mem_keys_iff.mpr ⟨w, hw⟩
    have hperm : (lhs.entries.map Prod.fst).Perm (rhs.entries.map Prod.fst) :=
      (lhs.nodup.subperm hsub).perm_of_length_le (by simp [hlen])
    cases hl : lhs.find k with
    | none =>
      cases hr : rhs.find k with
      | none => trivial
      | some w =>
        have hk := hperm.mem_iff.mpr (mem_keys_iff.mpr ⟨w, hr⟩)
        obtain ⟨v, hv⟩ := mem_keys_iff.mp hk
        simp [hl] at hv
    | some v =>
      obtain ⟨w, hw, heq⟩ := h k v hl
      rw [hw]
      exact heq
  · intro h
    have hiff : ∀ k, k ∈ lhs.entries.map Prod.fst ↔ k ∈ rhs.entries.map Prod.fst := by
      intro k
      have hk := h k
      rw [mem_keys_iff, mem_keys_iff]
      cases hl : lhs.find k <;> cases hr : rhs.find k <;> simp_all [ValueEq]
    refine ⟨?_, fun k v hv => ?_⟩
    · simpa using ((List.perm_ext_iff_of_nodup lhs.nodup rhs.nodup).mpr hiff).length_eq
    · have hk := h k
      rw [hv] at hk
      cases hr : rhs.find k with
      | none => simp [hr, ValueEq] at hk
      | some w => exact ⟨w, rfl, by simpa [hr, ValueEq] using hk⟩

/-- **The changed keys** are those without equal values. -/
theorem mem_changedKeys (prev next : EntryMap K V) (k : K) :
    k ∈ changedKeys eq prev next ↔ ¬ ValueEq eq (next.find k) (prev.find k) := by
  have hnew : k ∈ (next.entries.filter fun e => (prev.find e.1).all fun v => !eq e.2 v).map
      Prod.fst ↔ ∃ v, next.find k = some v ∧ ∀ w, prev.find k = some w → eq v w = false := by
    rw [List.mem_map]
    constructor
    · rintro ⟨⟨k', v⟩, hmem, rfl⟩
      obtain ⟨hmem, hall⟩ := List.mem_filter.mp hmem
      refine ⟨v, find_eq_some_iff.mpr hmem, fun w hw => ?_⟩
      simpa [hw] using hall
    · rintro ⟨v, hv, hall⟩
      refine ⟨(k, v), List.mem_filter.mpr ⟨find_eq_some_iff.mp hv, ?_⟩, rfl⟩
      cases hp : prev.find k with
      | none => rfl
      | some w => simp [hall w hp]
  have hgone : k ∈ (prev.entries.filter fun e => (next.find e.1).isNone).map Prod.fst ↔
      ∃ v, prev.find k = some v ∧ next.find k = none := by
    rw [List.mem_map]
    constructor
    · rintro ⟨⟨k', v⟩, hmem, rfl⟩
      obtain ⟨hmem, hnone⟩ := List.mem_filter.mp hmem
      exact ⟨v, find_eq_some_iff.mpr hmem, by simpa using hnone⟩
    · rintro ⟨v, hv, hnone⟩
      exact ⟨(k, v), List.mem_filter.mpr ⟨find_eq_some_iff.mp hv, by simp [hnone]⟩, rfl⟩
  rw [changedKeys, List.mem_append, hnew, hgone]
  cases hn : next.find k <;> cases hp : prev.find k <;> simp [ValueEq]

end Compare

end EntryMap

end Maps
