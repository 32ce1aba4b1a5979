import StackAnalyzer.App.Config
import StackAnalyzer.CompileCommands.Database
import StackAnalyzer.Formats.MarkedFields

set_option relaxedAutoImplicit false
set_option autoImplicit false

/-!
# Keys of the compile cache

The files of a cache entry are named by the digest of a text with one line for each part of the
compile request: the language, the format, the source file, the working directory and the
arguments. A part is written as it is, with its line breaks.

## Main definitions

* `StackAnalyzer.Loader.lexicallyNormal`, `StackAnalyzer.Loader.Surroundings.makeAbsolutePathFrom`
  — paths of the requests.
* `StackAnalyzer.Loader.Surroundings.buildCompileIRCachePaths` — the files of an entry.
* `StackAnalyzer.Loader.Surroundings.KeysDistinct` — requests with one meta file agree.

## Main results

* `StackAnalyzer.Loader.keysDistinct_iff` — the keys are distinct if and only if neither the paths
  nor the arguments have the bytes for the beginning of another line.
-/

namespace StackAnalyzer.Loader

open App CrossTU CompileCommands MarkedFields

/-- `LanguageType`. -/
inductive LanguageType
  | unknown | llvmIR | c | cxx
  deriving DecidableEq

/-- The number of an enumerator. -/
def LanguageType.toNat : LanguageType → ℕ
  | .unknown => 0
  | .llvmIR => 1
  | .c => 2
  | .cxx => 3

/-- What comes from outside: the absolute path of a path, if there is no error, and the digest of a
text. -/
structure Surroundings where
  absolute : CppString → Option CppString
  md5Hex : CppString → CppString

/-! ## Paths -/

/-- The names of a path in normal form, the last one first, and whether a separator follows. -/
def normalNames (isAbsolute : Bool) :
    List CppString → Bool → List CppString → List CppString × Bool
  | names, separator, [] => (names, separator)
  | names, separator, name :: rest =>
    if name = [] then normalNames isAbsolute names (!names.isEmpty) rest
    else if name = ".".toList then normalNames isAbsolute names true rest
    else if name = "..".toList then
      match names with
      | [] => if isAbsolute then normalNames isAbsolute [] separator rest
        else normalNames isAbsolute [name] false rest
      | last :: front =>
        if last = "..".toList then normalNames isAbsolute (name :: names) false rest
        else normalNames isAbsolute front true rest
    else normalNames isAbsolute (name :: names) false rest

/-- `path::lexically_normal`. -/
def lexicallyNormal (path : CppString) : CppString :=
  if path = [] then []
  else
    let (names, separator) := normalNames (!isRelative path) [] false (path.splitOn '/')
    let text := (if isRelative path then [] else ['/']) ++
      ['/'].intercalate names.reverse ++
      (if separator ∧ names ≠ [] ∧ names.head? ≠ some "..".toList then ['/'] else [])
    if text = [] then ".".toList else text

example : lexicallyNormal "/src/./lib//a/../b.c".toList = "/src/lib/b.c".toList := by
  decide +kernel

example : lexicallyNormal "a/../..".toList = "..".toList := by decide +kernel

namespace Surroundings

variable (E : Surroundings)

/-- `makeAbsolutePathFrom`. -/
def makeAbsolutePathFrom (path baseDir : CppString) : CppString :=
  let p := if isRelative path ∧ baseDir ≠ [] then joinPath baseDir path else path
  lexicallyNormal ((E.absolute p).getD p)

end Surroundings

/-! ## Keys -/

/-- `CompileIRCachePaths`. -/
structure CompileIRCachePaths where
  directory : CppString := []
  metaFile : CppString := []
  bcFile : CppString := []
  irFile : CppString := []
  depFile : CppString := []
  enabled : Bool := false

/-- `kCompileIRCacheSchema`. -/
def kCompileIRCacheSchema : CppString := "compile-ir-cache-v2".toList

/-- The name of a format in a key. -/
def formatName (format : CompileIRFormat) : CppString :=
  if format = .ll then "ll".toList else "bc".toList

namespace Surroundings

variable (E : Surroundings)

/-- The text whose digest is the key. -/
def keyPayload (config : AnalysisConfig) (filename : CppString) (language : LanguageType)
    (args : List CppString) (workingDir : CppString) : CppString :=
  kCompileIRCacheSchema ++ "\n".toList ++
  "language:".toList ++ decimal language.toNat ++ "\n".toList ++
  "compileIRFormat:".toList ++ formatName config.compileIRFormat ++ "\n".toList ++
  "file:".toList ++ E.makeAbsolutePathFrom filename workingDir ++ "\n".toList ++
  "workingDir:".toList ++ E.makeAbsolutePathFrom workingDir [] ++ "\n".toList ++
  args.flatMap fun arg => "arg:".toList ++ arg ++ "\n".toList

/-- `buildCompileIRCachePaths`. -/
def buildCompileIRCachePaths (config : AnalysisConfig) (filename : CppString)
    (language : LanguageType) (args : List CppString) (workingDir : CppString) :
    CompileIRCachePaths :=
  if config.compileIRCacheDir = [] then {}
  else
    let key := E.md5Hex (E.keyPayload config filename language args workingDir)
    let directory := config.compileIRCacheDir
    { enabled := true
      directory := directory
      metaFile := joinPath directory (key ++ ".json".toList)
      bcFile := joinPath directory (key ++ ".bc".toList)
      irFile := joinPath directory (key ++ ".ll".toList)
      depFile := joinPath directory (key ++ ".d".toList) }

end Surroundings

/-- What `buildCompileIRCachePaths` is called with. -/
structure CompileRequest where
  config : AnalysisConfig
  filename : CppString
  language : LanguageType
  args : List CppString
  workingDir : CppString

namespace Surroundings

variable (E : Surroundings)

/-- The absolute path of the source file. -/
def sourcePath (r : CompileRequest) : CppString := E.makeAbsolutePathFrom r.filename r.workingDir

/-- The absolute path of the working directory. -/
def directoryPath (r : CompileRequest) : CppString := E.makeAbsolutePathFrom r.workingDir []

/-- The files of the entry of a request. -/
def cachePaths (r : CompileRequest) : CompileIRCachePaths :=
  E.buildCompileIRCachePaths r.config r.filename r.language r.args r.workingDir

/-- The requests ask for the same compilation. -/
def SameCompilation (r r' : CompileRequest) : Prop :=
  r.language = r'.language ∧ r.config.compileIRFormat = r'.config.compileIRFormat ∧
  E.sourcePath r = E.sourcePath r' ∧ E.directoryPath r = E.directoryPath r' ∧ r.args = r'.args

/-- **Distinct keys**: enabled requests of a kind that have one cache directory and one meta file
ask for the same compilation. -/
def KeysDistinct (kind : CompileRequest → Prop) : Prop :=
  ∀ r r', kind r → kind r' → (E.cachePaths r).enabled → (E.cachePaths r').enabled →
    r.config.compileIRCacheDir = r'.config.compileIRCacheDir →
    (E.cachePaths r).metaFile = (E.cachePaths r').metaFile → E.SameCompilation r r'

/-- The bytes of the absolute paths of a request, apart from separators, and the bytes of its
arguments are among the given ones. -/
def WithinBytes (pathBytes argBytes : Set Char) (r : CompileRequest) : Prop :=
  (∀ c ∈ E.sourcePath r, c = '/' ∨ c ∈ pathBytes) ∧
  (∀ c ∈ E.directoryPath r, c = '/' ∨ c ∈ pathBytes) ∧
  ∀ arg ∈ r.args, ∀ c ∈ arg, c ∈ argBytes

end Surroundings

/-- What stands between the source file and the working directory. -/
def directoryMarker : CppString := '\n' :: "workingDir:".toList

/-- What stands in front of an argument. -/
def argMarker : CppString := '\n' :: "arg:".toList

/-- **The bytes that keep keys apart**: the paths cannot contain the beginning of a line for the
working directory or for an argument, and the arguments cannot contain the latter. -/
def SeparatingBytes (pathBytes argBytes : Set Char) : Prop :=
  (¬∀ c ∈ directoryMarker, c ∈ pathBytes) ∧ (¬∀ c ∈ argMarker, c ∈ pathBytes) ∧
  ¬∀ c ∈ argMarker, c ∈ argBytes

/-! ## Reading a key back -/

/-- The paths and the arguments, with markers between them. -/
theorem fields_text (source directory : CppString) (args : List CppString) :
    "file:".toList ++ source ++ "\n".toList ++ "workingDir:".toList ++ directory ++ "\n".toList ++
      (args.flatMap fun arg => "arg:".toList ++ arg ++ "\n".toList) =
    "file:".toList ++ (source ++ (directoryMarker ++
      (argMarker.intercalate (directory :: args) ++ ['\n']))) := by
  have hargs : ∀ (first : CppString) (rest : List CppString),
      first ++ ('\n' :: rest.flatMap fun arg => "arg:".toList ++ arg ++ "\n".toList) =
      argMarker.intercalate (first :: rest) ++ ['\n'] := by
    intro first rest
    induction rest generalizing first with
    | nil => rw [List.flatMap_nil, List.intercalate_singleton]
    | cons arg rest ih =>
      rw [List.intercalate_cons_cons, List.append_assoc, ← ih arg]
      simp [argMarker]
  rw [← hargs]
  simp [directoryMarker]

namespace Surroundings

variable {E : Surroundings}

/-- The text of a key: the schema, the language and the format, then the fields. -/
theorem keyPayload_eq (r : CompileRequest) :
    E.keyPayload r.config r.filename r.language r.args r.workingDir =
    (kCompileIRCacheSchema ++ "\nlanguage:".toList) ++ (decimal r.language.toNat ++ '\n' ::
      ("compileIRFormat:".toList ++ (formatName r.config.compileIRFormat ++ '\n' ::
        ("file:".toList ++ (E.sourcePath r ++ (directoryMarker ++
          (argMarker.intercalate (E.directoryPath r :: r.args) ++ ['\n']))))))) := by
  rw [← fields_text]
  simp [keyPayload, sourcePath, directoryPath]

/-- A path behind a directory is determined. -/
theorem joinPath_inj {directory rest rest' : CppString} (hrest : isRelative rest)
    (hrest' : isRelative rest') (h : joinPath directory rest = joinPath directory rest') :
    rest = rest' := by
  simp only [joinPath, hrest, hrest', Bool.not_true, Bool.false_eq_true, if_false] at h
  split_ifs at h
  · exact List.append_cancel_left h
  · exact (List.cons.inj (List.append_cancel_left h)).2

/-- A digest that does not begin with a separator still does not with an ending. -/
theorem isRelative_append {key ending : CppString} (hkey : key.head? ≠ some '/')
    (hending : ending.head? ≠ some '/') : isRelative (key ++ ending) := by
  cases key with
  | nil => simpa [isRelative] using hending
  | cons c key => simpa [isRelative] using hkey

/-- Entries are enabled if there is a cache directory. -/
theorem cachePaths_enabled {r : CompileRequest} :
    (E.cachePaths r).enabled ↔ r.config.compileIRCacheDir ≠ [] := by
  unfold cachePaths buildCompileIRCachePaths
  split_ifs with hempty
  · simp [hempty]
  · simp [hempty]

/-- The meta file of an enabled entry. -/
theorem cachePaths_metaFile {r : CompileRequest} (hdir : r.config.compileIRCacheDir ≠ []) :
    (E.cachePaths r).metaFile = joinPath r.config.compileIRCacheDir
      (E.md5Hex (E.keyPayload r.config r.filename r.language r.args r.workingDir) ++
        ".json".toList) := by
  rw [cachePaths, buildCompileIRCachePaths, if_neg hdir]

section Digest

variable (hmd5 : Function.Injective E.md5Hex) (hslash : ∀ text, (E.md5Hex text).head? ≠ some '/')

include hmd5 hslash

/-- Enabled requests with one cache directory have one meta file if and only if they have one
text. -/
theorem metaFile_eq_iff {r r' : CompileRequest} (hr : (E.cachePaths r).enabled)
    (hr' : (E.cachePaths r').enabled)
    (hdir : r.config.compileIRCacheDir = r'.config.compileIRCacheDir) :
    (E.cachePaths r).metaFile = (E.cachePaths r').metaFile ↔
      E.keyPayload r.config r.filename r.language r.args r.workingDir =
        E.keyPayload r'.config r'.filename r'.language r'.args r'.workingDir := by
  rw [cachePaths_metaFile (cachePaths_enabled.mp hr),
    cachePaths_metaFile (cachePaths_enabled.mp hr'), hdir]
  constructor
  · intro h
    apply hmd5
    apply List.append_cancel_right
    exact joinPath_inj (isRelative_append (hslash _) (by decide))
      (isRelative_append (hslash _) (by decide)) h
  · intro h
    rw [h]

/-! ## Distinct keys -/

/-- **Separating bytes keep the keys apart.**

**Proof sketch.** The language and the format end at the first line break. The source file ends at
the first marker of the working directory, and the other fields at the markers of arguments. -/
theorem keysDistinct_of_separatingBytes {pathBytes argBytes : Set Char}
    (hbytes : SeparatingBytes pathBytes argBytes) :
    E.KeysDistinct (E.WithinBytes pathBytes argBytes) := by
  obtain ⟨hdirectory, hpath, harg⟩ := hbytes
  intro r r' hkind hkind' hr hr' hdir hmeta
  have htext := (metaFile_eq_iff hmd5 hslash hr hr' hdir).mp hmeta
  rw [keyPayload_eq, keyPayload_eq] at htext
  have hbreak : ∀ n, '\n' ∉ decimal n := not_mem_decimal rfl
  obtain ⟨hlanguage, htext⟩ :=
    append_separator_inj (hbreak _) (hbreak _) (List.append_cancel_left htext)
  have hformat : ∀ format, '\n' ∉ formatName format := by
    intro format
    cases format <;> decide
  obtain ⟨hformats, htext⟩ :=
    append_separator_inj (hformat _) (hformat _) (List.append_cancel_left htext)
  -- a path with the bytes of a path contains no marker
  have hfree : ∀ {marker path : CppString}, '/' ∉ marker → (¬∀ c ∈ marker, c ∈ pathBytes) →
      (∀ c ∈ path, c = '/' ∨ c ∈ pathBytes) → ¬marker <:+: path := by
    intro marker path hsep hnot hp hinside
    refine hnot fun c hc => (hp c (hinside.subset hc)).resolve_left ?_
    rintro rfl
    exact hsep hc
  obtain ⟨hsource, htext⟩ := append_marker_inj (by decide)
    (hfree (by decide) hdirectory hkind.1) (hfree (by decide) hdirectory hkind'.1)
    (List.append_cancel_left htext)
  have hfields : ∀ {q : CompileRequest}, E.WithinBytes pathBytes argBytes q →
      ∀ field ∈ E.directoryPath q :: q.args, ¬argMarker <:+: field := by
    intro q hq field hfield
    rcases List.mem_cons.mp hfield with rfl | hmem
    · exact hfree (by decide) hpath hq.2.1
    · exact fun hinside => harg fun c hc => hq.2.2 field hmem c (hinside.subset hc)
  have hrest := intercalate_inj (by decide) (hfields hkind) (hfields hkind')
    (List.append_cancel_right htext)
  obtain ⟨hdirs, hargs⟩ := List.cons.inj hrest
  refine ⟨?_, ?_, hsource, hdirs, hargs⟩
  · have := decimal_inj hlanguage
    revert this
    cases r.language <;> cases r'.language <;> decide
  · revert hformats
    cases r.config.compileIRFormat <;> cases r'.config.compileIRFormat <;> decide

end Digest

/-! ## Collisions -/

/-- A request for a C file at an absolute path. -/
def cRequest (filename workingDir : CppString) (args : List CppString) : CompileRequest where
  config := { compileIRCacheDir := "cache".toList }
  filename := filename
  language := .c
  args := args
  workingDir := workingDir

/-- Such a request has a cache directory. -/
theorem compileIRCacheDir_cRequest (filename workingDir : CppString) (args : List CppString) :
    (cRequest filename workingDir args).config.compileIRCacheDir ≠ [] := by
  show "cache".toList ≠ []
  decide

/-- An absolute path in normal form. -/
def Normal (path : CppString) : Prop := ¬isRelative path ∧ lexicallyNormal path = path

/-- The root, and paths that go on with a line of their own. -/
theorem normal_paths : Normal ['/'] ∧ Normal ('/' :: argMarker) ∧
    Normal ('/' :: (directoryMarker ++ ['/'])) := by
  unfold Normal
  decide +kernel

section Absolute

variable (habsolute : ∀ path, ¬isRelative path → E.absolute path = some path)

include habsolute

/-- An absolute path only gets its normal form. -/
theorem makeAbsolutePathFrom_of_absolute {path baseDir : CppString} (hpath : ¬isRelative path) :
    E.makeAbsolutePathFrom path baseDir = lexicallyNormal path := by
  rw [makeAbsolutePathFrom]
  simp only [hpath, false_and, Bool.false_eq_true, if_false, habsolute path hpath,
    Option.getD_some]

/-- The paths of a request with absolute paths in normal form. -/
theorem paths_cRequest {filename workingDir : CppString} (args : List CppString)
    (hfilename : Normal filename) (hworkingDir : Normal workingDir) :
    E.sourcePath (cRequest filename workingDir args) = filename ∧
    E.directoryPath (cRequest filename workingDir args) = workingDir :=
  ⟨(makeAbsolutePathFrom_of_absolute habsolute hfilename.1).trans hfilename.2,
    (makeAbsolutePathFrom_of_absolute habsolute hworkingDir.1).trans hworkingDir.2⟩

/-- The request is one for a C file at a path in normal form, within some bytes. -/
structure CRequestWithin (pathBytes argBytes : Set Char) (filename workingDir : CppString)
    (args : List CppString) : Prop where
  filename : Normal filename ∧ ∀ c ∈ filename, c = '/' ∨ c ∈ pathBytes
  workingDir : Normal workingDir ∧ ∀ c ∈ workingDir, c = '/' ∨ c ∈ pathBytes
  args : ∀ arg ∈ args, ∀ c ∈ arg, c ∈ argBytes

/-- The fields of two such requests with one text have to be the same. -/
theorem KeysDistinct.fields_eq {pathBytes argBytes : Set Char}
    (h : E.KeysDistinct (E.WithinBytes pathBytes argBytes))
    {filename workingDir filename' workingDir' : CppString} (args args' : List CppString)
    (hr : CRequestWithin pathBytes argBytes filename workingDir args)
    (hr' : CRequestWithin pathBytes argBytes filename' workingDir' args')
    (htext : filename ++ (directoryMarker ++ argMarker.intercalate (workingDir :: args)) =
      filename' ++ (directoryMarker ++ argMarker.intercalate (workingDir' :: args'))) :
    workingDir = workingDir' ∧ args = args' := by
  have hpaths := paths_cRequest habsolute args hr.filename.1 hr.workingDir.1
  have hpaths' := paths_cRequest habsolute args' hr'.filename.1 hr'.workingDir.1
  have hmeta : (E.cachePaths (cRequest filename workingDir args)).metaFile =
      (E.cachePaths (cRequest filename' workingDir' args')).metaFile := by
    rw [cachePaths_metaFile (compileIRCacheDir_cRequest _ _ _),
      cachePaths_metaFile (compileIRCacheDir_cRequest _ _ _), keyPayload_eq, keyPayload_eq,
      hpaths.1, hpaths.2, hpaths'.1, hpaths'.2]
    have hline := congrArg (· ++ ['\n']) htext
    simp only [List.append_assoc] at hline
    simp only [cRequest, hline]
  obtain ⟨-, -, -, hdirectory, hargs⟩ := h (cRequest filename workingDir args)
    (cRequest filename' workingDir' args')
    ⟨by rw [hpaths.1]; exact hr.filename.2, by rw [hpaths.2]; exact hr.workingDir.2, hr.args⟩
    ⟨by rw [hpaths'.1]; exact hr'.filename.2, by rw [hpaths'.2]; exact hr'.workingDir.2, hr'.args⟩
    (cachePaths_enabled.mpr (compileIRCacheDir_cRequest _ _ _))
    (cachePaths_enabled.mpr (compileIRCacheDir_cRequest _ _ _))
    (by simp only [cRequest]) hmeta
  rw [hpaths.2, hpaths'.2] at hdirectory
  exact ⟨hdirectory, hargs⟩

/-- **Bytes that do not separate make keys collide**: an argument can be split in two, a path can
begin an argument, and a path can begin the working directory. -/
theorem separatingBytes_of_keysDistinct {pathBytes argBytes : Set Char}
    (h : E.KeysDistinct (E.WithinBytes pathBytes argBytes)) :
    SeparatingBytes pathBytes argBytes := by
  obtain ⟨hroot, hargs, hdirs⟩ := normal_paths
  have hslash : ∀ c ∈ ['/'], c = '/' ∨ c ∈ pathBytes := by
    intro c hc
    exact Or.inl (List.mem_singleton.mp hc)
  refine ⟨?_, ?_, ?_⟩
  · intro hbytes
    have hlong : ∀ c ∈ '/' :: (directoryMarker ++ ['/']), c = '/' ∨ c ∈ pathBytes := by
      intro c hc
      rcases List.mem_cons.mp hc with hc | hc
      · exact Or.inl hc
      · exact (List.mem_append.mp hc).elim (fun hm => Or.inr (hbytes c hm)) (hslash c)
    have hfields := h.fields_eq habsolute [] []
      ⟨⟨hdirs, hlong⟩, ⟨hroot, hslash⟩, by simp⟩ ⟨⟨hroot, hslash⟩, ⟨hdirs, hlong⟩, by simp⟩ rfl
    exact absurd hfields.1 (by decide)
  · intro hbytes
    have hlong : ∀ c ∈ '/' :: argMarker, c = '/' ∨ c ∈ pathBytes := by
      intro c hc
      exact (List.mem_cons.mp hc).imp id (hbytes c)
    have hfields := h.fields_eq habsolute [] [[]]
      ⟨⟨hroot, hslash⟩, ⟨hargs, hlong⟩, by simp⟩ ⟨⟨hroot, hslash⟩, ⟨hroot, hslash⟩, by simp⟩ rfl
    exact absurd hfields.1 (by decide)
  · intro hbytes
    have hfields := h.fields_eq habsolute [argMarker] [[], []]
      ⟨⟨hroot, hslash⟩, ⟨hroot, hslash⟩, by simpa using hbytes⟩
      ⟨⟨hroot, hslash⟩, ⟨hroot, hslash⟩, by simp⟩ rfl
    exact absurd hfields.2 (by decide)

end Absolute

end Surroundings

open Surroundings

/-- **Compile cache keys** are distinct if and only if the bytes of paths and arguments cannot begin
another line: a line break, for instance, is not among them.

**Proof sketch.** With such bytes the fields can be read back from the text. Otherwise the text of
one of three pairs of requests is the same. -/
theorem keysDistinct_iff (E : Surroundings) (hmd5 : Function.Injective E.md5Hex)
    (hslash : ∀ text, (E.md5Hex text).head? ≠ some '/')
    (habsolute : ∀ path, ¬isRelative path → E.absolute path = some path)
    (pathBytes argBytes : Set Char) :
    E.KeysDistinct (E.WithinBytes pathBytes argBytes) ↔ SeparatingBytes pathBytes argBytes :=
  ⟨separatingBytes_of_keysDistinct habsolute, keysDistinct_of_separatingBytes hmd5 hslash⟩

/-- The text of the key of a request with the arguments `-g` and `-O1`. -/
def splitArgumentText : CppString :=
  "compile-ir-cache-v2\nlanguage:2\ncompileIRFormat:bc\nfile:/a.c\n".toList ++
    "workingDir:/\narg:-g\narg:-O1\n".toList

/-- A digest function with the digest of this text. Other texts are kept apart from it. -/
def splitArgumentMd5 (text : CppString) : CppString :=
  if text = splitArgumentText then "110423dea5019d5a52e3b20066ffc1f1".toList else 'x' :: text

/-- Surroundings with the root as the current directory. -/
def rootSurroundings : Surroundings where
  absolute path :=
    if path = [] then none else if isRelative path then some ('/' :: path) else some path
  md5Hex := splitArgumentMd5

theorem splitArgumentMd5_injective : Function.Injective splitArgumentMd5 := by
  intro a b h
  unfold splitArgumentMd5 at h
  split_ifs at h with ha hb hb
  · exact ha.trans hb.symm
  · exact absurd (List.cons.inj h).1 (by decide)
  · exact absurd (List.cons.inj h).1 (by decide)
  · exact (List.cons.inj h).2

theorem splitArgumentMd5_head (text : CppString) : (splitArgumentMd5 text).head? ≠ some '/' := by
  unfold splitArgumentMd5
  split_ifs
  · decide
  · simp

/-- Without line breaks in paths and arguments the keys are distinct. -/
theorem keysDistinct_iff_noBreak :
    rootSurroundings.KeysDistinct
      (rootSurroundings.WithinBytes {c | c ≠ '\n'} {c | c ≠ '\n'}) := by
  refine (keysDistinct_iff rootSurroundings splitArgumentMd5_injective splitArgumentMd5_head
    ?_ _ _).mpr ?_
  · intro path hpath
    have hne : path ≠ [] := by
      rintro rfl
      exact hpath rfl
    simp [rootSurroundings, hne, hpath]
  · exact ⟨fun h => h '\n' (by decide) rfl, fun h => h '\n' (by decide) rfl,
      fun h => h '\n' (by decide) rfl⟩

/-- One argument with a line break has the key of two arguments. -/
theorem not_keysDistinct_splitArgument :
    Function.Injective rootSurroundings.md5Hex ∧
    (rootSurroundings.cachePaths
        (cRequest "/a.c".toList "/".toList ["-g\narg:-O1".toList])).metaFile =
      "cache/110423dea5019d5a52e3b20066ffc1f1.json".toList ∧
    (rootSurroundings.cachePaths
        (cRequest "/a.c".toList "/".toList ["-g".toList, "-O1".toList])).metaFile =
      "cache/110423dea5019d5a52e3b20066ffc1f1.json".toList ∧
    ¬rootSurroundings.KeysDistinct fun _ => True := by
  have hone : (rootSurroundings.cachePaths
      (cRequest "/a.c".toList "/".toList ["-g\narg:-O1".toList])).metaFile =
      "cache/110423dea5019d5a52e3b20066ffc1f1.json".toList := by decide +kernel
  have htwo : (rootSurroundings.cachePaths
      (cRequest "/a.c".toList "/".toList ["-g".toList, "-O1".toList])).metaFile =
      "cache/110423dea5019d5a52e3b20066ffc1f1.json".toList := by decide +kernel
  refine ⟨splitArgumentMd5_injective, hone, htwo, ?_⟩
  intro h
  have hsame := h (cRequest "/a.c".toList "/".toList ["-g\narg:-O1".toList])
    (cRequest "/a.c".toList "/".toList ["-g".toList, "-O1".toList]) trivial trivial
    (by decide +kernel) (by decide +kernel) rfl (hone.trans htwo.symm)
  exact absurd hsame.2.2.2.2 (by decide +kernel)

end StackAnalyzer.Loader
