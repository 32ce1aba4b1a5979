import StackAnalyzer.Loader.CacheEntry

set_option relaxedAutoImplicit false
set_option autoImplicit false

/-!
# Loading a source file

A source file is compiled and the result is parsed, unless the compile cache has an entry for it.
With several jobs the compiler runs in the directory of the process at first, and only if it fails
there in the directory of the command.

## Main definitions

* `StackAnalyzer.Loader.Compiler` — the compiler, a function of its arguments, the current directory
  and the contents of the files that it reads.
* `StackAnalyzer.Loader.SourceLoader.compileWithConfiguredWorkingDir` — the attempts of a
  compilation.
* `StackAnalyzer.Loader.SourceLoader.compileSource`,
  `StackAnalyzer.Loader.SourceLoader.loadModuleForAnalysis` — compiling and loading.
-/

namespace StackAnalyzer.Loader

open App CrossTU CompileCommands Formats

/-! ## The compiler -/

/-- `compilerlib::OutputMode`. -/
inductive OutputMode
  | toMemory | toFile
  deriving DecidableEq

/-- `compilerlib::CompileResult`, with what the output file and the dependency file contain after
the run. -/
structure CompileResult where
  success : Bool
  llvmIR : CppString
  diagnostics : CppString
  outputFile : Option CppString
  depFile : Option CppString
  deriving DecidableEq

/-- `compilerlib::compile`: its result depends on the arguments, the current directory and the
contents of the files that it reads or looks for. -/
structure Compiler where
  compile : List CppString → OutputMode → CppString → (CppString → Option CppString) → CompileResult
  reads : List CppString → OutputMode → CppString → (CppString → Option CppString) → Set CppString
  determined : ∀ {args mode dir contents contents'},
    (∀ path ∈ reads args mode dir contents, contents path = contents' path) →
    compile args mode dir contents = compile args mode dir contents'

/-! ## Modules -/

/-- `ModuleLoadResult`. -/
structure ModuleLoadResult (Module Diagnostic : Type) where
  module : Option Module := none
  language : LanguageType := .unknown
  frontendDiagnostics : List Diagnostic := []
  error : CppString := []

/-- The parsers of bitcode and of textual IR, the latter with its message. -/
structure Parsers (Module : Type) where
  parseBitcodeFile : CppString → Option Module
  parseIR : CppString → Except CppString Module

/-- What the loader does with a module: its bitcode, the diagnostics of the compiler as those of the
analyzer, the dump with the text of an error. IR files are loaded elsewhere. -/
structure ModuleTools (Module Diagnostic : Type) where
  writeBitcodeToFile : Module → CppString
  writeBitcodeToFile_ne_nil : ∀ module, writeBitcodeToFile module ≠ []
  collectFrontendDiagnostics : CppString → Module → CppString → List Diagnostic
  dumpModuleIR : Module → CppString → Option CppString
  loadIRInput : CppString → ModuleLoadResult Module Diagnostic

/-- The module of a cached payload, in the order of the configured format. -/
def Parsers.parseCached {Module : Type} (P : Parsers Module) (config : AnalysisConfig)
    (cached : CompileIRCachePayload) : Option Module :=
  let bitcodeModule :=
    if cached.llvmBitcode = [] then none else P.parseBitcodeFile cached.llvmBitcode
  let textModule := if cached.llvmIR = [] then none else (P.parseIR cached.llvmIR).toOption
  if config.compileIRFormat = .bc then bitcodeModule.or textModule else textModule.or bitcodeModule

/-! ## Languages -/

/-- `extractExtension`. -/
def extractExtension (path : CppString) : CppString :=
  if '.' ∈ path then (path.reverse.takeWhile (· ≠ '.')).reverse else []

/-- `detectFromExtension`. -/
def detectFromExtension (path : CppString) : LanguageType :=
  let rawExt := extractExtension path
  if rawExt = [] then .unknown
  else if rawExt = "C".toList then .cxx
  else
    let ext := rawExt.map Char.toLower
    if ext = "ll".toList ∨ ext = "bc".toList then .llvmIR
    else if ext = "c".toList then .c
    else if ext = "cpp".toList ∨ ext = "cc".toList ∨ ext = "cxx".toList ∨ ext = "c++".toList ∨
        ext = "cp".toList then .cxx
    else .unknown

/-! ## Attempts -/

/-- The compilation may have succeeded. -/
def succeeded (res : Option CompileResult) : Bool := res.any CompileResult.success

/-- `ScopedCurrentPath`: the current directory in its scope, or an error. -/
def LoaderPaths.scopedCurrentPath (E : LoaderPaths) (path : CppString) :
    Except CppString CppString :=
  if path = [] then .ok E.processDir
  else
    match E.currentPath with
    | none => .error "Failed to read current working directory".toList
    | some _ =>
      match E.changeDirectory path with
      | none => .error ("Failed to change working directory to: ".toList ++ path)
      | some dir => .ok dir

/-- The loader: its surroundings, the compiler, the cache, and what deals with modules. -/
structure SourceLoader (Module Diagnostic : Type) where
  paths : LoaderPaths
  compiler : Compiler
  json : JsonText
  access : CacheAccess
  tools : ModuleTools Module Diagnostic

namespace SourceLoader

variable {Module Diagnostic : Type} (L : SourceLoader Module Diagnostic)

/-- `compileWithOptionalWorkingDir`: the result, and the error from then on. -/
def compileWithOptionalWorkingDir (workingDir : CppString) (files : Files) (error : CppString)
    (compileArgs : List CppString) (outputMode : OutputMode) (useWorkingDir : Bool) :
    Option CompileResult × CppString :=
  if !useWorkingDir then
    (some (L.compiler.compile compileArgs outputMode L.paths.processDir files.contents), error)
  else
    match L.paths.scopedCurrentPath workingDir with
    | .error cwdError => (none, cwdError ++ "\n".toList)
    | .ok dir => (some (L.compiler.compile compileArgs outputMode dir files.contents), error)

/-- `compileWithConfiguredWorkingDir`. -/
def compileWithConfiguredWorkingDir (config : AnalysisConfig) (workingDir : CppString)
    (files : Files) (error : CppString) (compileArgs : List CppString) (outputMode : OutputMode) :
    Option CompileResult × CppString :=
  if 1 < config.jobs ∧ workingDir ≠ [] then
    let res := L.compileWithOptionalWorkingDir workingDir files error compileArgs outputMode false
    if succeeded res.1 then res
    else L.compileWithOptionalWorkingDir workingDir files res.2 compileArgs outputMode true
  else
    L.compileWithOptionalWorkingDir workingDir files error compileArgs outputMode (workingDir ≠ [])

/-! ## Compiling -/

/-- What is stored of a compilation. -/
structure StoredEntry where
  sourceSnapshot : FileSnapshot
  dependencySnapshots : List FileSnapshot
  payload : CompileIRCachePayload
  deriving DecidableEq

/-- The result of compiling a source file, and what is to be stored. -/
structure CompileOutcome (Module Diagnostic : Type) where
  result : ModuleLoadResult Module Diagnostic
  entry : Option StoredEntry := none

/-- The diagnostics of the analyzer for those of the compiler. -/
def frontendDiagnostics (filename diagnosticsText : CppString) (module : Module) :
    List Diagnostic :=
  if diagnosticsText = [] then []
  else L.tools.collectFrontendDiagnostics diagnosticsText module filename

/-- The result with a module: the dump may fail. -/
def moduleResult (filename : CppString) (language : LanguageType) (diagnosticsText : CppString)
    (module : Module) (error : CppString) : ModuleLoadResult Module Diagnostic where
  module := some module
  language := language
  frontendDiagnostics := L.frontendDiagnostics filename diagnosticsText module
  error := (L.tools.dumpModuleIR module filename).getD error

/-- The result without a module. -/
def failedResult (language : LanguageType) (error : CppString) :
    ModuleLoadResult Module Diagnostic where
  language := language
  error := error

/-- The snapshots of the source file and of the dependencies. -/
def captureSnapshots (filename workingDir : CppString) (files : Files)
    (depFile : Option CppString) : Option (FileSnapshot × List FileSnapshot) :=
  let E := L.paths.toSurroundings
  match E.parseDepfileDependencies depFile workingDir,
    E.captureFileSnapshot files (E.makeAbsolutePathFrom filename workingDir) with
  | some dependencies, some sourceSnapshot =>
    (E.buildDependencySnapshots files dependencies).map fun snapshots => (sourceSnapshot, snapshots)
  | _, _ => none

/-- A module that was parsed, and what is stored of it. -/
def finish (filename : CppString) (language : LanguageType)
    (snapshots : Option (FileSnapshot × List FileSnapshot)) (error diagnosticsText : CppString)
    (bitcode ir : CppString) (module : Module) : CompileOutcome Module Diagnostic where
  result := L.moduleResult filename language diagnosticsText module error
  entry := snapshots.map fun (sourceSnapshot, dependencySnapshots) =>
    { sourceSnapshot := sourceSnapshot
      dependencySnapshots := dependencySnapshots
      payload :=
        { llvmBitcode := if bitcode = [] then L.tools.writeBitcodeToFile module else bitcode
          llvmIR := ir
          diagnostics := diagnosticsText } }

/-- Parsing the textual IR of a result, if there is one. -/
def finishText (P : Parsers Module) (filename : CppString) (language : LanguageType)
    (snapshots : Option (FileSnapshot × List FileSnapshot)) (bitcode : CppString)
    (attempt : Option CompileResult × CppString) : CompileOutcome Module Diagnostic :=
  match attempt.1 with
  | none => { result := failedResult language attempt.2 }
  | some res =>
    if !res.success then
      { result := failedResult language
          ("Compilation failed:\n".toList ++ res.diagnostics ++ "\n".toList) }
    else if res.llvmIR = [] then
      { result := failedResult language "No LLVM IR produced by compilerlib::compile\n".toList }
    else
      match P.parseIR res.llvmIR with
      | .error message =>
        { result := failedResult language
            ("Failed to parse in-memory LLVM IR:\n".toList ++ message) }
      | .ok module =>
        L.finish filename language snapshots attempt.2 res.diagnostics bitcode res.llvmIR module

/-- The arguments of the first compilation. -/
def firstArgs (config : AnalysisConfig) (args : List CppString)
    (cachePaths : CompileIRCachePaths) : List CppString :=
  let compileArgs := if config.compileIRFormat = .bc then
    buildBitcodeCompileArgs args L.paths.tempBitcodePath else args
  if cachePaths.enabled ∧ L.access.ensureDirectoryExists cachePaths.directory then
    appendDependencyCaptureArgs compileArgs cachePaths.depFile
  else compileArgs

/-- The output of the first compilation. -/
def firstMode (config : AnalysisConfig) : OutputMode :=
  if config.compileIRFormat = .bc then .toFile else .toMemory

/-- Compiling a source file, with the given attempts: to bitcode, if that is configured, and to
textual IR if it is not or if that fails. -/
def compileSource (P : Parsers Module) (config : AnalysisConfig) (filename : CppString)
    (language : LanguageType) (args : List CppString) (workingDir : CppString)
    (cachePaths : CompileIRCachePaths) (files : Files)
    (attempt : CppString → List CppString → OutputMode → Option CompileResult × CppString) :
    CompileOutcome Module Diagnostic :=
  let preferBitcodeCompile := config.compileIRFormat = .bc
  let first := attempt [] (L.firstArgs config args cachePaths) (firstMode config)
  if preferBitcodeCompile ∧ !succeeded first.1 then
    let fallbackResult := attempt first.2 args .toMemory
    L.finishText P filename language none []
      (if fallbackResult.1.isSome then fallbackResult else (first.1, fallbackResult.2))
  else
    let snapshots :=
      if cachePaths.enabled ∧ L.access.ensureDirectoryExists cachePaths.directory then
        L.captureSnapshots filename workingDir files (first.1.bind CompileResult.depFile)
      else none
    match first.1 with
    | none => { result := failedResult language first.2 }
    | some res =>
      if !preferBitcodeCompile then L.finishText P filename language snapshots [] first
      else
        let llvmBitcode := res.outputFile.getD []
        match if llvmBitcode = [] then none else P.parseBitcodeFile llvmBitcode with
        | some module =>
          L.finish filename language snapshots first.2 res.diagnostics llvmBitcode [] module
        | none =>
          L.finishText P filename language snapshots llvmBitcode (attempt first.2 args .toMemory)

/-! ## Loading -/

/-- Storing what was compiled. -/
def storeOutcome (cachePaths : CompileIRCachePaths) (outcome : CompileOutcome Module Diagnostic)
    (cache : CacheFiles) : Bool × CacheFiles :=
  match outcome.entry with
  | none => (false, cache)
  | some entry =>
    L.access.storeCompileIRCachePayload L.json cachePaths entry.sourceSnapshot
      entry.dependencySnapshots entry.payload cache

/-- `loadModuleForAnalysis`: the result, and the files of the cache afterwards. -/
def loadModuleForAnalysis (P : Parsers Module) (filename : CppString) (config : AnalysisConfig)
    (files : Files) (cache : CacheFiles) : ModuleLoadResult Module Diagnostic × CacheFiles :=
  let language := detectFromExtension filename
  if language = .unknown then
    (failedResult language ("Unsupported input file type: ".toList ++ filename ++ "\n".toList),
      cache)
  else if language = .llvmIR then (L.tools.loadIRInput filename, cache)
  else
    match L.paths.buildCompileArgs filename language config with
    | .error compileError => (failedResult language (compileError ++ "\n".toList), cache)
    | .ok (args, workingDir) =>
      let cachePaths :=
        L.paths.buildCompileIRCachePaths config filename language args workingDir
      let cached := L.paths.loadCompileIRCachePayload L.json cachePaths cache files
      match cached.bind fun payload => (P.parseCached config payload).map (payload, ·) with
      | some (payload, module) =>
        (L.moduleResult filename language payload.diagnostics module [], cache)
      | none =>
        let outcome := L.compileSource P config filename language args workingDir cachePaths files
          (L.compileWithConfiguredWorkingDir config workingDir files)
        (outcome.result, (L.storeOutcome cachePaths outcome cache).2)

end SourceLoader

end StackAnalyzer.Loader
