import StackAnalyzer.CompileCommands.SuffixLookup
import StackAnalyzer.Loader.CacheKey

set_option relaxedAutoImplicit false
set_option autoImplicit false

/-!
# The arguments of the compiler

From the command of the compilation database, or without one from defaults, the loader makes the
arguments for textual IR, and from these the arguments for bitcode and for a dependency file.

## Main definitions

* `StackAnalyzer.Loader.applyCompdbFastMode` — a command without optimisations and sanitizers.
* `StackAnalyzer.Loader.LoaderPaths`, `StackAnalyzer.Loader.LoaderPaths.buildCompileArgs` — the
  arguments for a source file, with the directory of its command.
* `StackAnalyzer.Loader.buildBitcodeCompileArgs`,
  `StackAnalyzer.Loader.appendDependencyCaptureArgs` — the other arguments.
-/

namespace StackAnalyzer.Loader

open App CrossTU CompileCommands

/-! ## Lists of arguments -/

/-- `appendIfMissing`. -/
def appendIfMissing (args : List CppString) (flag : CppString) : List CppString :=
  if flag ∈ args then args else args ++ [flag]

/-- The text begins with another one. -/
def startsWith (text start : CppString) : Bool := start.isPrefixOf text

/-- `removeOutputPathArgs`. -/
def removeOutputPathArgs : List CppString → List CppString
  | [] => []
  | arg :: rest =>
    if arg = "-o".toList then
      match rest with
      | [] => []
      | _ :: rest => removeOutputPathArgs rest
    else if startsWith arg "-o=".toList ∨ (2 < arg.length ∧ startsWith arg "-o".toList) then
      removeOutputPathArgs rest
    else arg :: removeOutputPathArgs rest

/-- `buildBitcodeCompileArgs`. -/
def buildBitcodeCompileArgs (baseArgs : List CppString) (outputBitcodePath : CppString) :
    List CppString :=
  let args := removeOutputPathArgs (baseArgs.filter (· ≠ "-S".toList))
  let args := appendIfMissing (appendIfMissing args "-emit-llvm".toList) "-c".toList
  args ++ ["-o".toList, outputBitcodePath]

/-- `hasDebugFlag`. -/
def hasDebugFlag (args : List CppString) : Bool :=
  args.any fun arg => arg = "-g".toList ∨ (2 < arg.length ∧ startsWith arg "-g".toList)

/-- The flags that fast mode drops. -/
def isSlowFlag (arg : CppString) : Bool :=
  (1 < arg.length ∧ startsWith arg "-O".toList) ∨ startsWith arg "-g".toList ∨
  startsWith arg "-fsanitize".toList ∨ startsWith arg "-fno-sanitize".toList ∨
  arg = "-flto".toList ∨ startsWith arg "-flto=".toList ∨
  startsWith arg "-fprofile".toList ∨ startsWith arg "-fcoverage".toList ∨
  startsWith arg "-arch=".toList ∨ startsWith arg "-isysroot=".toList ∨
  startsWith arg "-mmacosx-version-min".toList ∨
  startsWith arg "-miphoneos-version-min".toList ∨
  startsWith arg "-mios-simulator-version-min".toList ∨
  arg = "-fembed-bitcode".toList ∨ arg = "-fapplication-extension".toList ∨
  (startsWith arg "--target=".toList ∧ "apple".toList <:+: arg.drop "--target=".toList.length)

/-- The flags that fast mode drops together with the argument behind them. -/
def isSlowFlagWithValue (arg : CppString) : Bool :=
  arg = "-arch".toList ∨ arg = "-isysroot".toList ∨ arg = "-iframework".toList

/-- The arguments that fast mode keeps, where the first one may be the value of a flag before. -/
def fastModeArgs : Bool → List CppString → List CppString
  | _, [] => []
  | true, _ :: rest => fastModeArgs false rest
  | false, arg :: rest =>
    if isSlowFlag arg then fastModeArgs false rest
    else if isSlowFlagWithValue arg ∨
        (arg = "-target".toList ∧ rest.head?.any fun triple => "apple".toList <:+: triple) then
      fastModeArgs true rest
    else arg :: fastModeArgs false rest

/-- `applyCompdbFastMode`. -/
def applyCompdbFastMode (args : List CppString) : List CppString :=
  fastModeArgs false args ++ ["-O0".toList, "-gline-tables-only".toList, "-fno-sanitize=all".toList]

example : applyCompdbFastMode ["-O2".toList, "-arch".toList, "arm64".toList, "-Iinclude".toList] =
    ["-Iinclude".toList, "-O0".toList, "-gline-tables-only".toList,
      "-fno-sanitize=all".toList] := by
  decide +kernel

/-- `appendDependencyCaptureArgs`. -/
def appendDependencyCaptureArgs (args : List CppString) (depFile : CppString) : List CppString :=
  args ++ ["-MMD".toList, "-MF".toList, depFile, "-MT".toList,
    "coretrace_compile_ir_cache_target".toList]

/-! ## The arguments for a source file -/

/-- The surroundings of the loader: paths, the compilation database, the directory of the process
and what `current_path` returns of it, the directory after a change, and the file for bitcode. -/
structure LoaderPaths extends Surroundings where
  databasePaths : FileSystem
  compilationDatabase : Option CompilationDatabase
  processDir : CppString
  currentPath : Option CppString
  changeDirectory : CppString → Option CppString
  tempBitcodePath : CppString

namespace LoaderPaths

variable (E : LoaderPaths)

/-- `makeAbsolutePath`. -/
def makeAbsolutePath (path : CppString) : CppString :=
  match E.absolute path with
  | none => path
  | some absPath => lexicallyNormal absPath

/-- The command for a file, if there is a database with one. -/
def findCommand (filename : CppString) : Option CompileCommand :=
  E.compilationDatabase.bind fun db =>
    (E.databasePaths.findCommandForFile db filename).map Prod.snd

/-- The arguments of a file without a command. -/
def defaultCompileArgs (language : LanguageType) : List CppString :=
  ["-emit-llvm".toList, "-S".toList, "-g".toList] ++
    if language = .cxx then ["-x".toList, "c++".toList, "-std=gnu++20".toList] else []

/-- The arguments that are added to those of a command. -/
def completeCompileArgs (config : AnalysisConfig) (args : List CppString) (file : CppString) :
    List CppString :=
  let args := appendIfMissing (args ++ config.extraCompileArgs) "-emit-llvm".toList
  let args := appendIfMissing args "-S".toList
  let args := if hasDebugFlag args then args else args ++ ["-g".toList]
  appendIfMissing args "-fno-discard-value-names".toList ++ [file]

/-- `buildCompileArgs`: the arguments and the working directory, or an error. -/
def buildCompileArgs (filename : CppString) (language : LanguageType) (config : AnalysisConfig) :
    Except CppString (List CppString × CppString) :=
  match E.findCommand filename with
  | some command =>
    let args := if config.compdbFast then applyCompdbFastMode command.arguments
      else command.arguments
    .ok (completeCompileArgs config args (E.makeAbsolutePath filename), command.directory)
  | none =>
    if config.requireCompilationDatabase then
      .error ("No compile command found for: ".toList ++ filename ++
        match E.compilationDatabase with
        | none => []
        | some db => if db.sourcePath = [] then [] else " in ".toList ++ db.sourcePath)
    else .ok (completeCompileArgs config (defaultCompileArgs language) filename, [])

end LoaderPaths

end StackAnalyzer.Loader
