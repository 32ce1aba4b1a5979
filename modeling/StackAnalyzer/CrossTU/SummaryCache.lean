import StackAnalyzer.Formats.Json
import StackAnalyzer.Names.Mangle
import StackAnalyzer.CrossTU.ResourceMerge

set_option relaxedAutoImplicit false
set_option autoImplicit false

/-!
# The cache file of resource summaries

The summaries of a module are written to a JSON file and read back by a later run. Integers are
cast to signed 64-bit numbers on the way out and back on the way in, names are canonicalised on
both sides, and the reader skips what it cannot use. This file shows what comes back.

## Main definitions

* `StackAnalyzer.CrossTU.writeSummaryCacheFile`, `StackAnalyzer.CrossTU.readSummaryCacheFile`.
* `StackAnalyzer.CrossTU.withoutUnnamed` — the index without an entry for the empty name.

## Main results

* `StackAnalyzer.CrossTU.readEffect_effectObject` — every effect is read back.
* `StackAnalyzer.CrossTU.readSummaryCacheFile_writeSummaryCacheFile` — the index comes back without
  the entry of the empty name, so it is equal exactly when there is no such entry.
-/

namespace StackAnalyzer.CrossTU

open Maps Formats

/-! ## Casts -/

/-- The cast of an unsigned number to `int64_t`. -/
def toInt64 (n : ℕ) : ℤ := Int.bmod n (2 ^ 64)

/-- The cast of an `int64_t` to `unsigned`. -/
def toUnsigned (n : ℤ) : ℕ := (n % 2 ^ 32).toNat

/-- The cast of an `int64_t` to `std::uint64_t`. -/
def toUInt64 (n : ℤ) : ℕ := (n % 2 ^ 64).toNat

/-- Every 64-bit number survives both casts, those above `2 ^ 63 - 1` included. -/
theorem toUInt64_toInt64 {n : ℕ} (h : n < 2 ^ 64) : toUInt64 (toInt64 n) = n := by
  have hmod : toInt64 n % 2 ^ 64 = (n : ℤ) % 2 ^ 64 := Int.bmod_emod
  rw [toUInt64, hmod]
  omega

/-- Every 32-bit number survives both casts. -/
theorem toUnsigned_toInt64 {n : ℕ} (h : n < 2 ^ 32) : toUnsigned (toInt64 n) = n := by
  have hmod : toInt64 n % 2 ^ 64 = (n : ℤ) % 2 ^ 64 := Int.bmod_emod
  rw [toUnsigned]
  omega

/-! ## Writing -/

/-- `encodeSummaryActionName`. -/
def encodeSummaryActionName : ResourceSummaryAction → CppString
  | .acquireOut => "acquire_out".toList
  | .acquireRet => "acquire_ret".toList
  | .releaseArg => "release_arg".toList

/-- The object of one effect. -/
def effectObject (effect : ResourceSummaryEffect) : Json :=
  .object <|
    ((((Members.set [] "action".toList (.string (encodeSummaryActionName effect.action))).set
      "argIndex".toList (.integer (toInt64 effect.argIndex))).set
      "offset".toList (.integer (toInt64 effect.offset))).set
      "viaPointerSlot".toList (.boolean effect.viaPointerSlot)).set
      "resourceKind".toList (.string effect.resourceKind)

/-- The object of one function. -/
def functionObject (entry : CppString × ResourceSummaryFunction) : Json :=
  .object <|
    (Members.set [] "name".toList (.string (canonicalizeMangledName entry.1))).set
      "effects".toList (.array (entry.2.map effectObject))

/-- The schema of the file. -/
def cacheSchema : CppString := "resource-summary-cache-v2".toList

/-- The document that `writeSummaryCacheFile` prints. -/
def summaryCacheValue (index : ResourceSummaryIndex) : Json :=
  .object <|
    (Members.set [] "schema".toList (.string cacheSchema)).set
      "functions".toList (.array (index.entries.map functionObject))

/-- `writeSummaryCacheFile`: the contents of the file, once it can be written. -/
def writeSummaryCacheFile (json : JsonText) (index : ResourceSummaryIndex) : CppString :=
  json.print (summaryCacheValue index)

/-! ## Reading -/

/-- `decodeSummaryActionName`. -/
def decodeSummaryActionName (value : CppString) : Option ResourceSummaryAction :=
  if value = "acquire_out".toList then some .acquireOut
  else if value = "acquire_ret".toList then some .acquireRet
  else if value = "release_arg".toList then some .releaseArg
  else none

/-- `getString`. -/
def getString (obj : Members) (key : CppString) : Option CppString :=
  (obj.get key).bind Json.getAsString

/-- `getInteger`. -/
def getInteger (obj : Members) (key : CppString) : Option ℤ := (obj.get key).bind Json.getAsInteger

/-- `getBoolean`. -/
def getBoolean (obj : Members) (key : CppString) : Option Bool :=
  (obj.get key).bind Json.getAsBoolean

/-- `getArray`. -/
def getArray (obj : Members) (key : CppString) : Option (List Json) :=
  (obj.get key).bind Json.getAsArray

/-- The effect of one object, unless it is skipped. -/
def readEffect (effectValue : Json) : Option ResourceSummaryEffect := do
  let effectObj ← effectValue.getAsObject
  let actionName ← getString effectObj "action".toList
  let action ← decodeSummaryActionName actionName
  let argIndex ← getInteger effectObj "argIndex".toList
  let offset ← getInteger effectObj "offset".toList
  let viaPointerSlot ← getBoolean effectObj "viaPointerSlot".toList
  let resourceKind ← getString effectObj "resourceKind".toList
  return { action, argIndex := toUnsigned argIndex, offset := toUInt64 offset,
           viaPointerSlot, resourceKind }

/-- The name and the effects of one object, unless it is skipped: an empty name is. -/
def readFunction (fnValue : Json) : Option (CppString × ResourceSummaryFunction) := do
  let fnObj ← fnValue.getAsObject
  let name ← getString fnObj "name".toList
  if name.isEmpty then none
  let effects ← getArray fnObj "effects".toList
  return (canonicalizeMangledName name, effects.filterMap readEffect)

/-- The body of the loop over the functions. -/
def readStep (index : ResourceSummaryIndex) (fnValue : Json) : ResourceSummaryIndex :=
  match readFunction fnValue with
  | some fn => index.assign fn.1 fn.2
  | none => index

/-- The index of a parsed document with the right schema. -/
def readSummaryCacheValue (parsed : Json) : Option ResourceSummaryIndex := do
  let obj ← parsed.getAsObject
  let schema ← getString obj "schema".toList
  if schema ≠ cacheSchema then none
  let functions ← getArray obj "functions".toList
  return functions.foldl readStep EntryMap.empty

/-- `readSummaryCacheFile`, of a file that can be read. -/
def readSummaryCacheFile (json : JsonText) (text : CppString) : Option ResourceSummaryIndex :=
  (json.parse text).bind readSummaryCacheValue

/-! ## What comes back -/

/-- Every action name is decoded. -/
@[simp] theorem decodeSummaryActionName_encode (action : ResourceSummaryAction) :
    decodeSummaryActionName (encodeSummaryActionName action) = some action := by
  cases action <;> decide

/-- The members of an effect, as they are read. -/
theorem get_effectObject (effect : ResourceSummaryEffect) :
    ∃ ms, effectObject effect = .object ms ∧
      getString ms "action".toList = some (encodeSummaryActionName effect.action) ∧
      getInteger ms "argIndex".toList = some (toInt64 effect.argIndex) ∧
      getInteger ms "offset".toList = some (toInt64 effect.offset) ∧
      getBoolean ms "viaPointerSlot".toList = some effect.viaPointerSlot ∧
      getString ms "resourceKind".toList = some effect.resourceKind :=
  ⟨_, rfl, rfl, rfl, rfl, rfl, rfl⟩

/-- The members of a function, as they are read. -/
theorem get_functionObject (entry : CppString × ResourceSummaryFunction) :
    ∃ ms, functionObject entry = .object ms ∧
      getString ms "name".toList = some (canonicalizeMangledName entry.1) ∧
      getArray ms "effects".toList = some (entry.2.map effectObject) :=
  ⟨_, rfl, rfl, rfl⟩

/-- The members of the document, as they are read. -/
theorem get_summaryCacheValue (index : ResourceSummaryIndex) :
    ∃ ms, summaryCacheValue index = .object ms ∧
      getString ms "schema".toList = some cacheSchema ∧
      getArray ms "functions".toList = some (index.entries.map functionObject) :=
  ⟨_, rfl, rfl, rfl⟩

/-- An effect is read back, its numbers after both casts. -/
theorem readEffect_effectObject_cast (effect : ResourceSummaryEffect) :
    readEffect (effectObject effect) = some { effect with
      argIndex := toUnsigned (toInt64 effect.argIndex)
      offset := toUInt64 (toInt64 effect.offset) } := by
  obtain ⟨ms, hms, haction, harg, hoffset, hvia, hkind⟩ := get_effectObject effect
  simp only [readEffect, hms, Json.getAsObject, haction, harg, hoffset, hvia, hkind,
    decodeSummaryActionName_encode, Option.bind_eq_bind, Option.bind_some, Option.pure_def]

/-- **Every effect of the source's types is read back.** -/
theorem readEffect_effectObject {effect : ResourceSummaryEffect}
    (harg : effect.argIndex < 2 ^ 32) (hoffset : effect.offset < 2 ^ 64) :
    readEffect (effectObject effect) = some effect := by
  rw [readEffect_effectObject_cast, toUnsigned_toInt64 harg, toUInt64_toInt64 hoffset]

/-- The entry has the types of the source: its numbers fit 32 and 64 bits. -/
def EntryInRange (entry : CppString × ResourceSummaryFunction) : Prop :=
  ∀ effect ∈ entry.2, effect.argIndex < 2 ^ 32 ∧ effect.offset < 2 ^ 64

/-- A function is read back under its canonical name, unless its name is empty. -/
theorem readFunction_functionObject {entry : CppString × ResourceSummaryFunction}
    (hname : canonicalizeMangledName entry.1 = entry.1) (hrange : EntryInRange entry) :
    readFunction (functionObject entry) = if entry.1 = [] then none else some entry := by
  obtain ⟨ms, hms, hstring, harray⟩ := get_functionObject entry
  have heffects : (entry.2.map effectObject).filterMap readEffect = entry.2 := by
    rw [List.filterMap_map]
    refine (List.filterMap_congr fun effect he => ?_).trans List.filterMap_some
    exact readEffect_effectObject (hrange effect he).1 (hrange effect he).2
  simp only [readFunction, hms, Json.getAsObject, hstring, harray, Option.bind_eq_bind,
    Option.bind_some, heffects, Option.pure_def, hname, List.isEmpty_iff]
  by_cases hempty : entry.1 = []
  · rw [if_pos hempty, if_pos hempty, Option.bind_none]
  · rw [if_neg hempty, if_neg hempty]

/-- The step of the loop on such a function. -/
theorem readStep_functionObject {entry : CppString × ResourceSummaryFunction}
    (hname : canonicalizeMangledName entry.1 = entry.1) (hrange : EntryInRange entry)
    (index : ResourceSummaryIndex) :
    readStep index (functionObject entry) =
      if entry.1 = [] then index else index.assign entry.1 entry.2 := by
  rw [readStep, readFunction_functionObject hname hrange]
  by_cases hempty : entry.1 = []
  · rw [if_pos hempty, if_pos hempty]
  · rw [if_neg hempty, if_neg hempty]

/-- A new name is appended. -/
theorem entries_assign_of_find_eq_none {index : ResourceSummaryIndex} {name : CppString}
    (h : index.find name = none) (fn : ResourceSummaryFunction) :
    (index.assign name fn).entries = index.entries ++ [(name, fn)] := by
  rw [EntryMap.assign]
  split
  · rfl
  · rename_i heq
    rw [h] at heq
    exact absurd heq (by simp)

/-- The index without an entry for the empty name. -/
def withoutUnnamed (index : ResourceSummaryIndex) : ResourceSummaryIndex where
  entries := index.entries.filter fun entry => decide (entry.1 ≠ [])
  nodup := index.nodup.sublist (List.filter_sublist.map Prod.fst)

/-- Only the empty name is lost. -/
theorem find_withoutUnnamed (index : ResourceSummaryIndex) (name : CppString) :
    (withoutUnnamed index).find name = if name = [] then none else index.find name := by
  apply Option.ext
  intro fn
  rw [EntryMap.find_eq_some_iff]
  by_cases hname : name = []
  · simp [withoutUnnamed, hname]
  · rw [if_neg hname, EntryMap.find_eq_some_iff]
    simp [withoutUnnamed, hname]

/-- **Reading the functions** of a list of entries with distinct names adds those with a name.

**Proof sketch.** Induction on the entries read so far. An entry with a name is new to the index,
so that its assignment adds it at the end; one without a name is skipped. -/
theorem foldl_readStep {entries : List (CppString × ResourceSummaryFunction)}
    (hnd : (entries.map Prod.fst).Nodup)
    (hname : ∀ entry ∈ entries, canonicalizeMangledName entry.1 = entry.1)
    (hrange : ∀ entry ∈ entries, EntryInRange entry) :
    ((entries.map functionObject).foldl readStep EntryMap.empty).entries =
      entries.filter fun entry => decide (entry.1 ≠ []) := by
  induction entries using List.reverseRecOn with
  | nil => rfl
  | append_singleton entries entry ih =>
    rw [List.map_append, List.nodup_append] at hnd
    have hbefore := ih hnd.1 (fun e he => hname e (List.mem_append_left _ he))
      fun e he => hrange e (List.mem_append_left _ he)
    rw [List.map_append, List.foldl_append, List.filter_append, List.map_singleton,
      List.foldl_cons, List.foldl_nil,
      readStep_functionObject (hname entry (by simp)) (hrange entry (by simp))]
    by_cases hempty : entry.1 = []
    · rw [if_pos hempty, hbefore]
      simp [hempty]
    · -- the name is new, so the assignment appends
      have hnew : ((entries.map functionObject).foldl readStep EntryMap.empty).find entry.1 =
          none := by
        rw [EntryMap.find, lookup_eq_none_iff, hbefore]
        intro hmem
        obtain ⟨e, he, heq⟩ := List.mem_map.mp hmem
        exact hnd.2.2 e.1 (List.mem_map_of_mem (List.mem_filter.mp he).1) entry.1 (by simp) heq
      rw [if_neg hempty, entries_assign_of_find_eq_none hnew, hbefore]
      simp [hempty]

/-- The index read back from an exact text. -/
theorem read_write_eq {json : JsonText} {index : ResourceSummaryIndex}
    (hname : ∀ entry ∈ index.entries, canonicalizeMangledName entry.1 = entry.1)
    (hrange : ∀ entry ∈ index.entries, EntryInRange entry)
    (hjson : json.Exact (summaryCacheValue index)) :
    readSummaryCacheFile json (writeSummaryCacheFile json index) = some (withoutUnnamed index) := by
  obtain ⟨ms, hms, hschema, hfunctions⟩ := get_summaryCacheValue index
  have hparse : json.parse (writeSummaryCacheFile json index) = some (summaryCacheValue index) :=
    hjson
  have hfold : (index.entries.map functionObject).foldl readStep EntryMap.empty =
      withoutUnnamed index :=
    EntryMap.ext (foldl_readStep index.nodup hname hrange)
  simp only [readSummaryCacheFile, hparse, Option.bind_some, readSummaryCacheValue, hms,
    Json.getAsObject, hschema, hfunctions, Option.bind_eq_bind, hfold, Option.pure_def]
  rfl

/-- An index equals itself without the empty name exactly when it has no entry for it. -/
theorem withoutUnnamed_equals_iff (index : ResourceSummaryIndex) :
    resourceSummaryIndexEquals (withoutUnnamed index) index = true ↔ index.find [] = none := by
  rw [resourceSummaryIndexEquals, EntryMap.equalsBy_iff]
  constructor
  · intro h
    have hnil := h []
    rw [find_withoutUnnamed, if_pos rfl] at hnil
    cases hfind : index.find [] with
    | none => rfl
    | some fn =>
      rw [hfind] at hnil
      exact absurd hnil id
  · intro h name
    rw [find_withoutUnnamed]
    by_cases hn : name = []
    · rw [if_pos hn, hn, h]
      trivial
    · rw [if_neg hn]
      cases index.find name with
      | none => trivial
      | some fn => exact beq_self_eq_true (sortedKeys fn)

/-- **The round trip of the cache file.** When all names are canonical and the JSON text of the
document is printed and parsed exactly, the index is read back without the entry of the empty
name, which the reader skips. So the index read back equals the one written exactly when no
function without a name has an entry.

**Proof sketch.** The document gives back every function with a name, under its name and with its
effects in order; functions without effects have an empty array. An index with an entry for the
empty name has one more entry than what is read. -/
theorem readSummaryCacheFile_writeSummaryCacheFile (json : JsonText)
    (index : ResourceSummaryIndex)
    (hname : ∀ entry ∈ index.entries, canonicalizeMangledName entry.1 = entry.1)
    (hrange : ∀ entry ∈ index.entries, EntryInRange entry)
    (hjson : json.Exact (summaryCacheValue index)) :
    ∃ index', readSummaryCacheFile json (writeSummaryCacheFile json index) = some index' ∧
      (∀ name, index'.find name = if name = [] then none else index.find name) ∧
      (resourceSummaryIndexEquals index' index = true ↔ index.find [] = none) :=
  ⟨withoutUnnamed index, read_write_eq hname hrange hjson, find_withoutUnnamed index,
    withoutUnnamed_equals_iff index⟩

/-! ## An index with and without the empty name -/

/-- The printer of `llvm::json`, and a parser that knows the text of one document. -/
def documentText (v : Json) : JsonText where
  print := Json.pretty 0
  parse text := if text = Json.pretty 0 v then some v else none

/-- The text of the document is parsed exactly. -/
theorem documentText_exact (v : Json) : (documentText v).Exact v := if_pos rfl

/-- A release at the largest offset and an acquisition through a pointer slot, in a function with
the given name, beside a function without effects. -/
def releaseIndex (name : CppString) (h : ([name, ['g']] : List CppString).Nodup) :
    ResourceSummaryIndex where
  entries := [(name, [⟨.releaseArg, 2 ^ 32 - 1, 2 ^ 64 - 1, false, ['f', 'd']⟩,
    ⟨.acquireRet, 0, 8, true, []⟩]), (['g'], [])]
  nodup := h

/-- Both names are canonical. -/
theorem releaseIndex_canonical {name : CppString} (h : ([name, ['g']] : List CppString).Nodup)
    (hname : canonicalizeMangledName name = name) :
    ∀ entry ∈ (releaseIndex name h).entries, canonicalizeMangledName entry.1 = entry.1 := by
  intro entry hentry
  rcases List.mem_cons.mp hentry with rfl | hentry
  · exact hname
  · obtain rfl := List.mem_singleton.mp hentry
    decide

/-- All numbers fit their types. -/
theorem releaseIndex_inRange {name : CppString} (h : ([name, ['g']] : List CppString).Nodup) :
    ∀ entry ∈ (releaseIndex name h).entries, EntryInRange entry := by
  intro entry hentry
  rcases List.mem_cons.mp hentry with rfl | hentry
  · intro effect heffect
    simp only [List.mem_cons, List.not_mem_nil, or_false] at heffect
    rcases heffect with rfl | rfl <;> exact ⟨by norm_num, by norm_num⟩
  · obtain rfl := List.mem_singleton.mp hentry
    intro effect heffect
    exact absurd heffect List.not_mem_nil

/-- The index with a function `f`. -/
def fReleaseIndex : ResourceSummaryIndex := releaseIndex ['f'] (by decide)

/-- The index of a function `f` is read back. -/
theorem readSummaryCacheFile_fReleaseIndex :
    ∃ index', readSummaryCacheFile (documentText (summaryCacheValue fReleaseIndex))
        (writeSummaryCacheFile (documentText (summaryCacheValue fReleaseIndex)) fReleaseIndex) =
      some index' ∧ resourceSummaryIndexEquals index' fReleaseIndex = true := by
  obtain ⟨index', hread, -, hequal⟩ := readSummaryCacheFile_writeSummaryCacheFile
    (documentText (summaryCacheValue fReleaseIndex)) fReleaseIndex
    (releaseIndex_canonical (by decide) (by decide)) (releaseIndex_inRange (by decide))
    (documentText_exact _)
  exact ⟨index', hread, hequal.mpr (by decide)⟩

/-- **The entry of the empty name is lost**: the round trip does not return an equal index,
although the empty name is canonical and all numbers fit their types. -/
theorem not_readSummaryCacheFile_equal :
    ¬ ∀ (json : JsonText) (index : ResourceSummaryIndex),
      (∀ entry ∈ index.entries, canonicalizeMangledName entry.1 = entry.1) →
      (∀ entry ∈ index.entries, EntryInRange entry) → json.Exact (summaryCacheValue index) →
      ∃ index', readSummaryCacheFile json (writeSummaryCacheFile json index) = some index' ∧
        resourceSummaryIndexEquals index' index = true := by
  intro h
  have hnd : ([[], ['g']] : List CppString).Nodup := by decide
  have hname := releaseIndex_canonical hnd (by decide)
  have hrange := releaseIndex_inRange hnd
  have hjson := documentText_exact (summaryCacheValue (releaseIndex [] hnd))
  obtain ⟨index', hread, hequal⟩ := h _ _ hname hrange hjson
  obtain rfl := Option.some.inj (hread.symm.trans (read_write_eq hname hrange hjson))
  exact absurd ((withoutUnnamed_equals_iff _).mp hequal)
    (by simp [releaseIndex, EntryMap.find, lookup])

end StackAnalyzer.CrossTU
