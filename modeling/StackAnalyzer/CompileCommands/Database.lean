import StackAnalyzer.CompileCommands.CommandLine

set_option relaxedAutoImplicit false
set_option autoImplicit false

/-!
# Loading a compilation database

The entries of a database are JSON objects. Each usable one gives a command for a file, and of
several commands for one file the preferred one is kept.

## Main definitions

* `StackAnalyzer.CompileCommands.FileSystem` — paths and parsing, as far as they come from outside.
* `StackAnalyzer.CompileCommands.FileSystem.entryCommand` — the file and the command of an entry.
* `StackAnalyzer.CompileCommands.FileSystem.loadFromFile` — the database, or an error.
* `StackAnalyzer.CompileCommands.FileSystem.OrderIndependent` — the order of the entries does not
  matter.

## Main results

* `StackAnalyzer.CompileCommands.orderIndependent` — every file keeps its preferred command.
-/

namespace StackAnalyzer.CompileCommands

open Formats Maps

/-- What comes from outside: the JSON parser with the texts of its errors, the generic text of a
path that has been made absolute and canonical, the parent of a path, and the current directory. -/
structure FileSystem where
  parse : List Char → Except (List Char) Json
  canonicalText : List Char → List Char
  parentPath : List Char → List Char
  currentPath : Option (List Char)

/-- `CompilationDatabase`. -/
structure CompilationDatabase where
  sourcePath : List Char
  commands : EntryMap (List Char) CompileCommand

/-! ## Paths -/

/-- `path::is_relative`. -/
def isRelative (path : List Char) : Bool := decide (path.head? ≠ some '/')

/-- `path::operator/`. -/
def joinPath (path rest : List Char) : List Char :=
  if !isRelative rest then rest
  else if path = [] ∨ path.getLast? = some '/' then path ++ rest
  else path ++ '/' :: rest

/-- The slashes at the end of a text are dropped, but its first character is kept. -/
def dropTrailingSlashes (out : List Char) : List Char :=
  match out with
  | [] => []
  | c :: cs => c :: (cs.reverse.dropWhile (· = '/')).reverse

namespace FileSystem

variable (S : FileSystem)

/-- `normalizePath`. -/
def normalizePath (path : List Char) : List Char :=
  if path = [] then [] else dropTrailingSlashes (S.canonicalText path)

/-- `normalizeDirectoryPath`. -/
def normalizeDirectoryPath (compdbDir directory : List Char) : List Char :=
  let dirPath := if directory = [] then compdbDir else directory
  if isRelative dirPath then joinPath compdbDir dirPath else dirPath

/-- An argument is the input file. -/
def isInputFile (directory fileKey arg : List Char) : Bool :=
  if arg = [] ∨ arg.head? = some '-' then false
  else
    let argPath := if isRelative arg then joinPath directory arg else arg
    let argKey := S.normalizePath argPath
    decide (argKey ≠ [] ∧ argKey = fileKey)

/-- `stripInputFileArg`: the first argument that is the input file is removed. -/
def stripInputFileArg (args : List (List Char)) (directory fileKey : List Char) :
    List (List Char) :=
  if fileKey = [] then args else args.eraseP (S.isInputFile directory fileKey)

/-- The body of the loop over the entries: the file and its command, if the entry is usable. -/
def entryCommand (compdbDir : List Char) (entryValue : Json) :
    Option (List Char × CompileCommand) :=
  match entryValue.getAsObject with
  | none => none
  | some obj =>
    match (obj.get "file".toList).bind Json.getAsString with
    | none => none
    | some fileStr =>
      let dirStr := ((obj.get "directory".toList).bind Json.getAsString).getD []
      let directoryPath := normalizeDirectoryPath compdbDir dirStr
      let directoryKey := S.normalizePath directoryPath
      if directoryKey = [] then none
      else
        let filePath := if isRelative fileStr then joinPath directoryPath fileStr else fileStr
        let fileKey := S.normalizePath filePath
        if fileKey = [] then none
        else
          let args := extractArguments obj
          if args = [] then none
          else
            some (fileKey,
              { directory := directoryKey
                arguments := S.stripInputFileArg
                  (stripOutputAndDependencyArgs (stripLeadingCommandTokens args))
                  directoryKey fileKey })

/-- The directory of the database. -/
def compdbDirOf (path : List Char) : List Char :=
  if S.parentPath path = [] then S.currentPath.getD ['.'] else S.parentPath path

/-- The loop over the entries. -/
def loadEntries (path : List Char) (entries : List Json) :
    EntryMap (List Char) CompileCommand :=
  EntryMap.empty.keepAll shouldPreferCandidateCommand
    (entries.filterMap (S.entryCommand (S.compdbDirOf path)))

/-- `CompilationDatabase::loadFromFile`, with what reading the file gives: its text, or the message
of an error. -/
def loadFromFile (path : List Char) (buffer : Except (List Char) (List Char)) :
    Except (List Char) CompilationDatabase :=
  match buffer with
  | .error message =>
    .error ("unable to read compile commands file: ".toList ++ path ++ " (".toList ++ message ++
      ")".toList)
  | .ok text =>
    match S.parse text with
    | .error message => .error ("failed to parse compile commands JSON: ".toList ++ message)
    | .ok parsed =>
      match parsed.getAsArray with
      | none => .error "compile commands JSON must be an array".toList
      | some entries =>
        let commands := S.loadEntries path entries
        if commands.entries = [] then
          .error "compile commands file contains no usable entries".toList
        else .ok ⟨S.normalizePath path, commands⟩

end FileSystem

/-! ## The order of the entries -/

/-- The same error, or databases with the same commands. -/
def SameDatabase : Except (List Char) CompilationDatabase →
    Except (List Char) CompilationDatabase → Prop
  | .error message, .error message' => message = message'
  | .ok db, .ok db' => db.sourcePath = db'.sourcePath ∧
      ∀ fileKey, db.commands.find fileKey = db'.commands.find fileKey
  | _, _ => False

/-- **The order of the entries does not matter**: files whose arrays are permutations of each other
give the same database, the preference is a strict total order, and the loop keeps for each file the
command to which no other one is preferred. -/
structure FileSystem.OrderIndependent (S : FileSystem) : Prop where
  sameDatabase : ∀ (path text text' : List Char) (entries entries' : List Json),
    S.parse text = .ok (.array entries) → S.parse text' = .ok (.array entries') →
      entries.Perm entries' →
        SameDatabase (S.loadFromFile path (.ok text)) (S.loadFromFile path (.ok text'))
  totalOrder : IsStrictTotalOrder CompileCommand
    fun existing candidate => shouldPreferCandidateCommand existing candidate = true
  keepsMaximum : ∀ (path : List Char) (entries : List Json) (fileKey : List Char)
    (command : CompileCommand), (S.loadEntries path entries).find fileKey = some command ↔
      IsBest shouldPreferCandidateCommand
        (entries.filterMap (S.entryCommand (S.compdbDirOf path))) fileKey command

/-- A map is without entries iff no key has a value. -/
theorem entries_eq_nil_iff (m : EntryMap (List Char) CompileCommand) :
    m.entries = [] ↔ ∀ fileKey, m.find fileKey = none := by
  constructor
  · intro h fileKey
    unfold EntryMap.find
    rw [h]
    rfl
  · intro h
    apply List.eq_nil_iff_forall_not_mem.mpr
    rintro ⟨fileKey, command⟩ hmem
    have hfind := EntryMap.find_eq_some_iff.mpr hmem
    rw [h fileKey] at hfind
    cases hfind

/-- The commands of a permutation of the entries. -/
theorem FileSystem.find_loadEntries_perm (S : FileSystem) (path : List Char)
    {entries entries' : List Json} (h : entries.Perm entries') (fileKey : List Char) :
    (S.loadEntries path entries).find fileKey = (S.loadEntries path entries').find fileKey := by
  have := isStrictTotalOrder_shouldPrefer
  exact find_keepAll_perm shouldPreferCandidateCommand (h.filterMap _) fileKey

/-- The loop keeps the command to which no other one is preferred. -/
theorem FileSystem.find_loadEntries_iff (S : FileSystem) (path : List Char) (entries : List Json)
    (fileKey : List Char) (command : CompileCommand) :
    (S.loadEntries path entries).find fileKey = some command ↔
      IsBest shouldPreferCandidateCommand
        (entries.filterMap (S.entryCommand (S.compdbDirOf path))) fileKey command := by
  have := isStrictTotalOrder_shouldPrefer
  exact find_keepAll_iff shouldPreferCandidateCommand _ fileKey command

/-- **A compilation database does not depend on the order of its entries.**

**Proof sketch.** The preference compares four keys that tell commands apart, so it is a strict total
order, and by `find_keepAll_iff` each file keeps its best command. A permutation has the same best
commands. -/
theorem orderIndependent (S : FileSystem) : S.OrderIndependent where
  totalOrder := isStrictTotalOrder_shouldPrefer
  keepsMaximum := S.find_loadEntries_iff
  sameDatabase path text text' entries entries' hparse hparse' hperm := by
    have hfind := S.find_loadEntries_perm path hperm
    have hnil : (S.loadEntries path entries).entries = [] ↔
        (S.loadEntries path entries').entries = [] := by
      simp only [entries_eq_nil_iff, hfind]
    simp only [FileSystem.loadFromFile, hparse, hparse', Json.getAsArray]
    by_cases hempty : (S.loadEntries path entries).entries = []
    · rw [if_pos hempty, if_pos (hnil.mp hempty)]
      exact rfl
    · rw [if_neg hempty, if_neg fun h => hempty (hnil.mpr h)]
      exact ⟨rfl, hfind⟩

end StackAnalyzer.CompileCommands
