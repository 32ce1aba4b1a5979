import StackAnalyzer.CrossTU.SummaryCache
import StackAnalyzer.Loader.CompileArgs

set_option relaxedAutoImplicit false
set_option autoImplicit false

/-!
# Entries of the compile cache

An entry keeps what a compilation produced, beside snapshots of the source file and of the files in
the dependency file. It is used as long as all snapshots are those of the current files.

## Main definitions

* `StackAnalyzer.Loader.File`, `StackAnalyzer.Loader.FileSnapshot` — files and their snapshots.
* `StackAnalyzer.Loader.parseDepfileDependencies` — the paths in a dependency file.
* `StackAnalyzer.Loader.storeCompileIRCachePayload`,
  `StackAnalyzer.Loader.loadCompileIRCachePayload` — writing and reading an entry.

## Main results

* `StackAnalyzer.Loader.decodeSnapshot_encodeSnapshot` — a snapshot that is read is the one written.
* `StackAnalyzer.Loader.load_store` — a payload that is loaded is the one stored, and the snapshots
  stored with it are current.
-/

namespace StackAnalyzer.Loader

open App CrossTU CompileCommands Formats

/-! ## Snapshots -/

/-- A regular file: its contents and the time of the last write. -/
structure File where
  content : CppString
  mtimeNs : ℤ

/-- The regular files, by their absolute paths in normal form. -/
abbrev Files := CppString → Option File

/-- What is in the files. -/
def Files.contents (files : Files) (path : CppString) : Option CppString :=
  (files path).map File.content

/-- `FileSnapshot`. -/
structure FileSnapshot where
  path : CppString
  size : ℕ
  mtimeNs : ℤ
  deriving DecidableEq

/-- The snapshot of a file at a path. -/
def File.snapshot (file : File) (path : CppString) : FileSnapshot :=
  ⟨path, file.content.length % 2 ^ 64, file.mtimeNs⟩

namespace Surroundings

variable (E : Surroundings)

/-- `captureFileSnapshot`. -/
def captureFileSnapshot (files : Files) (path : CppString) : Option FileSnapshot :=
  if path = [] then none
  else
    (E.absolute path).bind fun absolute =>
      let absolute := lexicallyNormal absolute
      (files absolute).map fun file => file.snapshot absolute

/-- `isSnapshotCurrent`. -/
def isSnapshotCurrent (files : Files) (expected : FileSnapshot) : Bool :=
  match E.captureFileSnapshot files expected.path with
  | none => false
  | some current => current.size = expected.size ∧ current.mtimeNs = expected.mtimeNs

/-- `buildDependencySnapshots`. -/
def buildDependencySnapshots (files : Files) (dependencies : List CppString) :
    Option (List FileSnapshot) :=
  dependencies.mapM (E.captureFileSnapshot files)

end Surroundings

/-- `encodeSnapshot`. -/
def encodeSnapshot (snapshot : FileSnapshot) : Json :=
  .object <|
    ((Members.set [] "path".toList (.string snapshot.path)).set
      "size".toList (.integer (toInt64 snapshot.size))).set
      "mtimeNs".toList (.integer snapshot.mtimeNs)

/-- `decodeSnapshot`. -/
def decodeSnapshot (value : Json) : Option FileSnapshot := do
  let obj ← value.getAsObject
  let path ← getString obj "path".toList
  let size ← getInteger obj "size".toList
  let mtimeNs ← getInteger obj "mtimeNs".toList
  if size < 0 then none else return ⟨path, toUInt64 size, mtimeNs⟩

/-! ## Dependency files -/

/-- Line breaks behind a backslash are dropped, with the backslash. -/
def mergeLines : CppString → CppString
  | [] => []
  | '\\' :: '\n' :: rest => mergeLines rest
  | '\\' :: '\r' :: '\n' :: rest => mergeLines rest
  | c :: rest => c :: mergeLines rest

/-- What follows the first colon in front of a blank. -/
def dependenciesPart : CppString → Option CppString
  | [] => none
  | c :: rest =>
    if c = ':' ∧ rest.head?.any isSpace then some rest else dependenciesPart rest

/-- The names in a text, where a backslash takes its meaning from the next character. The name that
has begun, and whether a backslash stands in front, are given. -/
def dependencyNames : CppString → Bool → CppString → List CppString
  | current, _, [] => if current = [] then [] else [current]
  | current, true, ch :: rest => dependencyNames (current ++ [ch]) false rest
  | current, false, ch :: rest =>
    if ch = '\\' then dependencyNames current true rest
    else if isSpace ch then
      if current = [] then dependencyNames [] false rest
      else current :: dependencyNames [] false rest
    else dependencyNames (current ++ [ch]) false rest

/-- `parseDepfileDependencies`, of the text of the file if it can be read. -/
def Surroundings.parseDepfileDependencies (E : Surroundings) (depFile : Option CppString)
    (compileWorkingDir : CppString) : Option (List CppString) :=
  depFile.bind fun content =>
    (dependenciesPart (mergeLines content)).bind fun depsPart =>
      let names := dependencyNames [] false depsPart
      let absolute := names.map fun name => E.makeAbsolutePathFrom name compileWorkingDir
      let dependencies := (absolute.filter (· ≠ [])).eraseDups
      if dependencies = [] then none else some dependencies

example : dependencyNames [] false (mergeLines " a.c \\\n  my\\ dir/b.h".toList) =
    ["a.c".toList, "my dir/b.h".toList] := by
  decide +kernel

/-! ## Entries -/

/-- `CompileIRCachePayload`. -/
structure CompileIRCachePayload where
  llvmBitcode : CppString
  llvmIR : CppString
  diagnostics : CppString
  deriving DecidableEq

/-- The files of the cache directory, with their contents. -/
abbrev CacheFiles := CppString → Option CppString

/-- `readTextFile`, into an empty text. -/
def readTextFile (cache : CacheFiles) (path : CppString) : CppString := (cache path).getD []

/-- The document of an entry. -/
def entryValue (sourceSnapshot : FileSnapshot) (dependencySnapshots : List FileSnapshot)
    (diagnostics : CppString) : Json :=
  .object <|
    (((Members.set [] "schema".toList (.string kCompileIRCacheSchema)).set
      "source".toList (encodeSnapshot sourceSnapshot)).set
      "dependencies".toList (.array (dependencySnapshots.map encodeSnapshot))).set
      "diagnostics".toList (.string diagnostics)

namespace Surroundings

variable (E : Surroundings) (json : JsonText)

/-- The source file and the dependencies of an entry are unchanged. -/
def entryCurrent (files : Files) (root : Members) : Bool :=
  ((root.get "source".toList).bind decodeSnapshot).any (E.isSnapshotCurrent files) &&
  (getArray root "dependencies".toList).any fun depsArray =>
    depsArray.all fun depValue => (decodeSnapshot depValue).any (E.isSnapshotCurrent files)

/-- `loadCompileIRCachePayload`. -/
def loadCompileIRCachePayload (cachePaths : CompileIRCachePaths) (cache : CacheFiles)
    (files : Files) : Option CompileIRCachePayload :=
  if !cachePaths.enabled then none
  else do
    let metadataText ← cache cachePaths.metaFile
    let parsed ← json.parse metadataText
    let root ← parsed.getAsObject
    if getString root "schema".toList ≠ some kCompileIRCacheSchema then none
    else if !E.entryCurrent files root then none
    else
      let llvmBitcode := readTextFile cache cachePaths.bcFile
      let llvmIR := readTextFile cache cachePaths.irFile
      if llvmBitcode = [] ∧ llvmIR = [] then none
      else some ⟨llvmBitcode, llvmIR, (getString root "diagnostics".toList).getD []⟩

end Surroundings

/-- Which files and directories of the cache can be written. -/
structure CacheAccess where
  ensureDirectoryExists : CppString → Bool
  writable : CppString → Bool

/-- `writeTextFile`: whether it succeeds, and the files afterwards. -/
def CacheAccess.writeTextFile (access : CacheAccess) (cache : CacheFiles)
    (path content : CppString) : Bool × CacheFiles :=
  if access.writable path then (true, Function.update cache path (some content)) else (false, cache)

/-- `storeCompileIRCachePayload`: whether it succeeds, and the files afterwards. -/
def CacheAccess.storeCompileIRCachePayload (access : CacheAccess) (json : JsonText)
    (cachePaths : CompileIRCachePaths) (sourceSnapshot : FileSnapshot)
    (dependencySnapshots : List FileSnapshot) (payload : CompileIRCachePayload)
    (cache : CacheFiles) : Bool × CacheFiles :=
  if !cachePaths.enabled ∨ dependencySnapshots = [] ∨
      !access.ensureDirectoryExists cachePaths.directory then
    (false, cache)
  else
    let metadataText :=
      json.print (entryValue sourceSnapshot dependencySnapshots payload.diagnostics)
    let (bcWritten, cache) := if payload.llvmBitcode = [] then (true, cache)
      else access.writeTextFile cache cachePaths.bcFile payload.llvmBitcode
    if !bcWritten then (false, cache)
    else
      let (irWritten, cache) := access.writeTextFile cache cachePaths.irFile payload.llvmIR
      if !irWritten then (false, cache)
      else access.writeTextFile cache cachePaths.metaFile metadataText

/-! ## Reading what was written -/

/-- The members of a snapshot, as they are read. -/
theorem get_encodeSnapshot (snapshot : FileSnapshot) :
    ∃ ms, encodeSnapshot snapshot = .object ms ∧
      getString ms "path".toList = some snapshot.path ∧
      getInteger ms "size".toList = some (toInt64 snapshot.size) ∧
      getInteger ms "mtimeNs".toList = some snapshot.mtimeNs :=
  ⟨_, rfl, rfl, rfl, rfl⟩

/-- A snapshot is read with its size after both casts, unless the size is negative in between. -/
theorem decodeSnapshot_object {ms : Members} {path : CppString} {size mtimeNs : ℤ}
    (hpath : getString ms "path".toList = some path)
    (hsize : getInteger ms "size".toList = some size)
    (htime : getInteger ms "mtimeNs".toList = some mtimeNs) :
    decodeSnapshot (.object ms) =
      if size < 0 then none else some ⟨path, toUInt64 size, mtimeNs⟩ := by
  simp only [decodeSnapshot, Json.getAsObject, hpath, hsize, htime, Option.bind_eq_bind,
    Option.bind_some, Option.pure_def]

/-- **A snapshot that is read is the one that was written**: sizes that do not fit are refused. -/
theorem decodeSnapshot_encodeSnapshot {snapshot read : FileSnapshot}
    (hsize : snapshot.size < 2 ^ 64) (h : decodeSnapshot (encodeSnapshot snapshot) = some read) :
    read = snapshot := by
  obtain ⟨ms, hms, hpath, hsizes, htime⟩ := get_encodeSnapshot snapshot
  rw [hms, decodeSnapshot_object hpath hsizes htime, toUInt64_toInt64 hsize] at h
  by_cases hneg : toInt64 snapshot.size < 0
  · rw [if_pos hneg] at h
    exact absurd h (by simp)
  · rw [if_neg hneg] at h
    exact (Option.some.inj h).symm

/-- A written snapshot is current if what is read of it is. -/
theorem current_of_decoded {E : Surroundings} {files : Files} {snapshot : FileSnapshot}
    (hsize : snapshot.size < 2 ^ 64)
    (h : (decodeSnapshot (encodeSnapshot snapshot)).any (E.isSnapshotCurrent files)) :
    E.isSnapshotCurrent files snapshot := by
  rw [Option.any_eq_true] at h
  obtain ⟨read, hread, hcurrent⟩ := h
  obtain rfl := decodeSnapshot_encodeSnapshot hsize hread
  exact hcurrent

/-- The members of an entry, as they are read. -/
theorem get_entryValue (source : FileSnapshot) (dependencies : List FileSnapshot)
    (diagnostics : CppString) :
    ∃ ms : Members, entryValue source dependencies diagnostics = .object ms ∧
      getString ms "schema".toList = some kCompileIRCacheSchema ∧
      ms.get "source".toList = some (encodeSnapshot source) ∧
      getArray ms "dependencies".toList = some (dependencies.map encodeSnapshot) ∧
      getString ms "diagnostics".toList = some diagnostics :=
  ⟨_, rfl, rfl, rfl, rfl, rfl⟩

/-- The snapshots of an entry that is current are current. -/
theorem current_of_entryCurrent {E : Surroundings} {files : Files} {ms : Members}
    {source : FileSnapshot} {dependencies : List FileSnapshot}
    (hsource : ms.get "source".toList = some (encodeSnapshot source))
    (hdeps : getArray ms "dependencies".toList = some (dependencies.map encodeSnapshot))
    (hsizes : ∀ snapshot ∈ source :: dependencies, snapshot.size < 2 ^ 64)
    (h : E.entryCurrent files ms) :
    ∀ snapshot ∈ source :: dependencies, E.isSnapshotCurrent files snapshot := by
  rw [Surroundings.entryCurrent, hsource, hdeps, Option.bind_some, Option.any_some,
    Bool.and_eq_true, List.all_eq_true] at h
  obtain ⟨hfirst, hrest⟩ := h
  intro snapshot hmem
  have hsize := hsizes snapshot hmem
  rcases List.mem_cons.mp hmem with heq | hdep
  · rw [← heq] at hfirst
    exact current_of_decoded hsize hfirst
  · exact current_of_decoded hsize (hrest _ (List.mem_map_of_mem hdep))

/-- What a file write leaves behind. -/
theorem CacheAccess.writeTextFile_eq_true {access : CacheAccess} {cache cache' : CacheFiles}
    {path content : CppString} (h : access.writeTextFile cache path content = (true, cache')) :
    cache' = Function.update cache path (some content) := by
  unfold writeTextFile at h
  split_ifs at h
  · exact (Prod.mk.inj h).2.symm
  · simp at h

/-- What storing an entry with bitcode leaves behind. -/
theorem CacheAccess.store_eq_true {access : CacheAccess} {json : JsonText}
    {cachePaths : CompileIRCachePaths} {source : FileSnapshot} {dependencies : List FileSnapshot}
    {payload : CompileIRCachePayload} {cache cache' : CacheFiles}
    (hbitcode : payload.llvmBitcode ≠ [])
    (h : access.storeCompileIRCachePayload json cachePaths source dependencies payload cache =
      (true, cache')) :
    cache' = Function.update (Function.update (Function.update cache
        cachePaths.bcFile (some payload.llvmBitcode))
        cachePaths.irFile (some payload.llvmIR))
        cachePaths.metaFile (some (json.print
          (entryValue source dependencies payload.diagnostics))) := by
  unfold storeCompileIRCachePayload at h
  split_ifs at h with hrefused
  · simp at h
  simp only at h
  rcases hbc : access.writeTextFile cache cachePaths.bcFile payload.llvmBitcode with ⟨bc, cache₁⟩
  rw [hbc] at h
  cases bc with
  | false => simp at h
  | true =>
    rcases hir : access.writeTextFile cache₁ cachePaths.irFile payload.llvmIR with ⟨ir, cache₂⟩
    simp only [hir] at h
    cases ir with
    | false => simp at h
    | true =>
      simp only [Bool.not_true, Bool.false_eq_true, if_false] at h
      rw [writeTextFile_eq_true h, writeTextFile_eq_true hir, writeTextFile_eq_true hbc]

/-- The three files of an entry are different. -/
structure CompileIRCachePaths.Distinct (paths : CompileIRCachePaths) : Prop where
  bc_ir : paths.bcFile ≠ paths.irFile
  bc_meta : paths.bcFile ≠ paths.metaFile
  ir_meta : paths.irFile ≠ paths.metaFile

/-- A payload is only loaded from an enabled entry. -/
theorem Surroundings.enabled_of_load {E : Surroundings} {json : JsonText}
    {cachePaths : CompileIRCachePaths} {cache : CacheFiles} {files : Files}
    {loaded : CompileIRCachePayload}
    (h : E.loadCompileIRCachePayload json cachePaths cache files = some loaded) :
    cachePaths.enabled := by
  unfold loadCompileIRCachePayload at h
  split_ifs at h with hdisabled
  simpa using hdisabled

/-- **A payload that is loaded is the one that was stored**, and all snapshots stored with it are
current. -/
theorem Surroundings.load_store {E : Surroundings} {access : CacheAccess} {json : JsonText}
    {cachePaths : CompileIRCachePaths} {source : FileSnapshot} {dependencies : List FileSnapshot}
    {payload loaded : CompileIRCachePayload} {cache cache' : CacheFiles} {files : Files}
    (hpaths : cachePaths.Distinct) (hbitcode : payload.llvmBitcode ≠ [])
    (hsizes : ∀ snapshot ∈ source :: dependencies, snapshot.size < 2 ^ 64)
    (hjson : json.Exact (entryValue source dependencies payload.diagnostics))
    (hstore : access.storeCompileIRCachePayload json cachePaths source dependencies payload cache =
      (true, cache'))
    (hload : E.loadCompileIRCachePayload json cachePaths cache' files = some loaded) :
    loaded = payload ∧ ∀ snapshot ∈ source :: dependencies, E.isSnapshotCurrent files snapshot := by
  obtain ⟨ms, hms, hschema, hsource, hdeps, hdiagnostics⟩ :=
    get_entryValue source dependencies payload.diagnostics
  have hcache := CacheAccess.store_eq_true hbitcode hstore
  have hmeta : cache' cachePaths.metaFile =
      some (json.print (entryValue source dependencies payload.diagnostics)) := by
    rw [hcache, Function.update_self]
  have hir : readTextFile cache' cachePaths.irFile = payload.llvmIR := by
    rw [readTextFile, hcache, Function.update_of_ne hpaths.ir_meta, Function.update_self,
      Option.getD_some]
  have hbc : readTextFile cache' cachePaths.bcFile = payload.llvmBitcode := by
    rw [readTextFile, hcache, Function.update_of_ne hpaths.bc_meta,
      Function.update_of_ne hpaths.bc_ir, Function.update_self, Option.getD_some]
  have hparse : json.parse (json.print (entryValue source dependencies payload.diagnostics)) =
      some (.object ms) := by
    rw [← hms]
    exact hjson
  unfold loadCompileIRCachePayload at hload
  simp only [hmeta, hparse, hschema, hdiagnostics, hir, hbc, Json.getAsObject,
    Option.bind_eq_bind, Option.bind_some, Option.getD_some] at hload
  split_ifs at hload with henabled hold hcurrent hempty
  rw [Bool.not_eq_true, Bool.not_eq_false'] at hcurrent
  exact ⟨(Option.some.inj hload).symm, current_of_entryCurrent hsource hdeps hsizes hcurrent⟩

end StackAnalyzer.Loader
