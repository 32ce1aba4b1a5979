import StackAnalyzer.Loader.JobsIndependence

set_option relaxedAutoImplicit false
set_option autoImplicit false

/-!
# Hits in the compile cache

An entry is used while the files that it recorded are unchanged. Between storing and using it files
are edited; the compiler may read more files than are recorded.

## Main definitions

* `StackAnalyzer.Loader.SourceLoader.compilationReads` — the files that a compilation reads.
* `StackAnalyzer.Loader.Edit`, `StackAnalyzer.Loader.SafeHistory` — edits, and edits that leave
  alone what was read and not recorded.

## Main results

* `StackAnalyzer.Loader.lexicallyNormal_idem` — the normal form of an absolute path is normal.
* `StackAnalyzer.Loader.cacheHit_fresh` — after such edits a hit is what compiling again gives.
-/

namespace StackAnalyzer.Loader

open App CrossTU CompileCommands Formats

/-! ## Normal forms of absolute paths -/

/-- A name that stays in the normal form of an absolute path. -/
def ProperName (name : CppString) : Prop :=
  '/' ∉ name ∧ name ≠ [] ∧ name ≠ ".".toList ∧ name ≠ "..".toList

/-- No part between separators contains one. -/
theorem notMem_of_mem_splitOn {path part : CppString} (h : part ∈ path.splitOn '/') :
    '/' ∉ part := by
  induction path generalizing part with
  | nil =>
    rw [List.splitOn_nil, List.mem_singleton] at h
    exact h ▸ List.not_mem_nil
  | cons c path ih =>
    rw [List.splitOn_cons_eq_if_modifyHead] at h
    obtain ⟨first, rest, hsplit⟩ := List.exists_cons_of_ne_nil (List.splitOn_ne_nil '/' path)
    rw [hsplit] at h ih
    split_ifs at h with hc
    · rcases List.mem_cons.mp h with rfl | hmem
      · exact List.not_mem_nil
      · exact ih hmem
    · rcases List.mem_cons.mp h with rfl | hmem
      · intro hslash
        rcases List.mem_cons.mp hslash with heq | hfirst
        · exact hc (by simp [← heq])
        · exact ih List.mem_cons_self hfirst
      · exact ih (List.mem_cons_of_mem _ hmem)

/-- The names of the normal form of an absolute path are proper. -/
theorem normalNames_proper {names parts : List CppString} {separator : Bool}
    (hnames : ∀ name ∈ names, ProperName name) (hparts : ∀ part ∈ parts, '/' ∉ part) :
    ∀ name ∈ (normalNames true names separator parts).1, ProperName name := by
  induction parts generalizing names separator with
  | nil => exact hnames
  | cons part parts ih =>
    have hrest := fun p hp => hparts p (List.mem_cons_of_mem part hp)
    rw [normalNames.eq_def]
    dsimp only
    by_cases hempty : part = []
    · rw [if_pos hempty]
      exact ih hnames hrest
    rw [if_neg hempty]
    by_cases hdot : part = ".".toList
    · rw [if_pos hdot]
      exact ih hnames hrest
    rw [if_neg hdot]
    by_cases hdots : part = "..".toList
    · rw [if_pos hdots]
      cases names with
      | nil => exact ih (by simp) hrest
      | cons last front =>
        dsimp only
        rw [if_neg (hnames last List.mem_cons_self).2.2.2]
        exact ih (fun n hn => hnames n (List.mem_cons_of_mem last hn)) hrest
    · rw [if_neg hdots]
      refine ih (fun n hn => ?_) hrest
      rcases List.mem_cons.mp hn with rfl | hmem
      · exact ⟨hparts _ List.mem_cons_self, hempty, hdot, hdots⟩
      · exact hnames n hmem

/-- Proper names are kept in order. -/
theorem normalNames_append {ns names parts : List CppString} {separator : Bool}
    (hns : ∀ name ∈ ns, ProperName name) (hne : ns ≠ []) :
    normalNames true names separator (ns ++ parts) =
      normalNames true (ns.reverse ++ names) false parts := by
  induction ns generalizing names separator with
  | nil => exact absurd rfl hne
  | cons n ns ih =>
    obtain ⟨-, hempty, hdot, hdots⟩ := hns n List.mem_cons_self
    rw [List.cons_append, normalNames.eq_def]
    dsimp only
    rw [if_neg hempty, if_neg hdot, if_neg hdots]
    by_cases hlast : ns = []
    · subst hlast
      rfl
    · rw [ih (fun m hm => hns m (List.mem_cons_of_mem n hm)) hlast]
      simp

/-- A separator at the end is an empty name. -/
theorem intercalate_append_nil {ns : List CppString} (hne : ns ≠ []) :
    ['/'].intercalate (ns ++ [[]]) = ['/'].intercalate ns ++ ['/'] := by
  induction ns with
  | nil => exact absurd rfl hne
  | cons n ns ih =>
    by_cases hlast : ns = []
    · subst hlast
      simp [List.intercalate_cons_cons]
    · rw [List.cons_append, List.intercalate_cons_of_ne_nil (by simp), ih hlast,
        List.intercalate_cons_of_ne_nil hlast]
      simp

/-- The text of an absolute path with proper names, and maybe a separator at the end. -/
def absoluteText (ns : List CppString) (separator : Bool) : CppString :=
  if ns = [] then ['/']
  else ['/'].intercalate ([] :: (ns ++ if separator then [[]] else []))

/-- The normal form of an absolute path, from its names. -/
theorem lexicallyNormal_of_names {path : CppString} (hpath : ¬isRelative path)
    {ns : List CppString} {separator : Bool} (hns : ∀ name ∈ ns, ProperName name)
    (hresult : normalNames true [] false (path.splitOn '/') = (ns.reverse, separator)) :
    lexicallyNormal path = absoluteText ns separator := by
  have hne : path ≠ [] := by
    rintro rfl
    exact hpath rfl
  simp only [Bool.not_eq_true] at hpath
  simp only [lexicallyNormal, if_neg hne, hpath, Bool.not_false, hresult, Bool.false_eq_true,
    if_false, absoluteText, List.reverse_reverse, ne_eq, List.reverse_eq_nil_iff]
  by_cases hempty : ns = []
  · simp [hempty]
  · have hhead : ns.reverse.head? ≠ some "..".toList := by
      intro hhead
      have hmem := List.mem_reverse.mp (List.mem_of_mem_head? (by rw [hhead]; rfl))
      exact (hns _ hmem).2.2.2 rfl
    rw [if_neg hempty, if_neg (by simp)]
    cases separator with
    | false =>
      rw [if_neg (by simp), List.append_nil, if_neg (by simp), List.append_nil,
        List.intercalate_cons_of_ne_nil hempty]
      rfl
    | true =>
      rw [if_pos ⟨rfl, hempty, hhead⟩, if_pos rfl, List.intercalate_cons_of_ne_nil (by simp),
        intercalate_append_nil hempty]
      simp

/-- The normal form of an absolute path has such a text. -/
theorem lexicallyNormal_eq {path : CppString} (hpath : ¬isRelative path) :
    ∃ (ns : List CppString) (separator : Bool), (∀ name ∈ ns, ProperName name) ∧
      lexicallyNormal path = absoluteText ns separator := by
  obtain ⟨names, separator, hresult⟩ : ∃ names separator,
      normalNames true [] false (path.splitOn '/') = (names, separator) := ⟨_, _, rfl⟩
  have hproper : ∀ name ∈ names, ProperName name := by
    have h : ∀ name ∈ (normalNames true [] false (path.splitOn '/')).1, ProperName name :=
      normalNames_proper (by simp) fun part hpart => notMem_of_mem_splitOn hpart
    rwa [hresult] at h
  refine ⟨names.reverse, separator, by simpa using hproper, ?_⟩
  exact lexicallyNormal_of_names hpath (by simpa using hproper)
    (by rw [hresult, List.reverse_reverse])

/-- Such a text is an absolute path. -/
theorem not_isRelative_absoluteText (ns : List CppString) (separator : Bool) :
    ¬isRelative (absoluteText ns separator) := by
  unfold absoluteText
  by_cases hempty : ns = []
  · rw [if_pos hempty]
    decide
  · rw [if_neg hempty, List.intercalate_cons_of_ne_nil (by simp [hempty])]
    simp [isRelative]

/-- Such a text is its own normal form. -/
theorem lexicallyNormal_absoluteText {ns : List CppString} (separator : Bool)
    (hns : ∀ name ∈ ns, ProperName name) :
    lexicallyNormal (absoluteText ns separator) = absoluteText ns separator := by
  by_cases hempty : ns = []
  · subst hempty
    show lexicallyNormal ['/'] = ['/']
    decide +kernel
  · have hsplit : (absoluteText ns separator).splitOn '/' =
        [] :: (ns ++ if separator then [[]] else []) := by
      rw [absoluteText, if_neg hempty]
      apply List.splitOn_intercalate
      · intro part hpart
        rcases List.mem_cons.mp hpart with rfl | hmem
        · exact List.not_mem_nil
        · rcases List.mem_append.mp hmem with hname | hlast
          · exact (hns part hname).1
          · split_ifs at hlast
            · exact List.mem_singleton.mp hlast ▸ List.not_mem_nil
            · exact absurd hlast List.not_mem_nil
      · exact List.cons_ne_nil _ _
    apply lexicallyNormal_of_names (not_isRelative_absoluteText ns separator) hns
    rw [hsplit, normalNames.eq_def]
    dsimp only
    rw [if_pos rfl, normalNames_append hns hempty, List.append_nil]
    cases separator with
    | false => rfl
    | true =>
      rw [if_pos rfl, normalNames.eq_def]
      dsimp only
      rw [if_pos rfl, normalNames.eq_def]
      simp [hempty]

/-- **The normal form of an absolute path is normal**, and absolute. -/
theorem lexicallyNormal_idem {path : CppString} (hpath : ¬isRelative path) :
    ¬isRelative (lexicallyNormal path) ∧
      lexicallyNormal (lexicallyNormal path) = lexicallyNormal path := by
  obtain ⟨ns, separator, hns, heq⟩ := lexicallyNormal_eq hpath
  rw [heq]
  exact ⟨not_isRelative_absoluteText ns separator, lexicallyNormal_absoluteText separator hns⟩

/-! ## Snapshots of unchanged files -/

/-- Absolute paths are absolute, and an absolute path is its own. -/
structure Surroundings.AbsolutePaths (E : Surroundings) : Prop where
  absolute_self : ∀ path, ¬isRelative path → E.absolute path = some path
  absolute_absolute : ∀ {path result}, E.absolute path = some result → ¬isRelative result

/-- A snapshot of a file, at its normal path: in other files it is captured at the same path. -/
theorem Surroundings.captureFileSnapshot_eq_some {E : Surroundings} (hpaths : E.AbsolutePaths)
    {files : Files} {path : CppString} {snapshot : FileSnapshot}
    (h : E.captureFileSnapshot files path = some snapshot) :
    ¬isRelative snapshot.path ∧ lexicallyNormal snapshot.path = snapshot.path ∧
    (∃ file, files snapshot.path = some file ∧ file.snapshot snapshot.path = snapshot) ∧
    ∀ files', E.captureFileSnapshot files' path =
      (files' snapshot.path).map fun file => file.snapshot snapshot.path := by
  unfold captureFileSnapshot at h ⊢
  split_ifs at h ⊢ with hempty
  cases habsolute : E.absolute path with
  | none => simp [habsolute] at h
  | some result =>
    simp only [habsolute, Option.bind_some, Option.map_eq_some_iff] at h ⊢
    obtain ⟨file, hfile, rfl⟩ := h
    have hresult := hpaths.absolute_absolute habsolute
    obtain ⟨hnormal, hidem⟩ := lexicallyNormal_idem hresult
    exact ⟨hnormal, hidem, ⟨file, hfile, rfl⟩, fun files' => rfl⟩

/-- The file of a snapshot that is current has that snapshot. -/
theorem Surroundings.snapshot_of_current {E : Surroundings} (hpaths : E.AbsolutePaths)
    {files : Files} {snapshot : FileSnapshot} (hpath : ¬isRelative snapshot.path)
    (hnormal : lexicallyNormal snapshot.path = snapshot.path)
    (h : E.isSnapshotCurrent files snapshot) :
    ∃ file, files snapshot.path = some file ∧ file.snapshot snapshot.path = snapshot := by
  have hne : snapshot.path ≠ [] := by
    intro hempty
    rw [hempty] at hpath
    exact hpath rfl
  have hcapture : E.captureFileSnapshot files snapshot.path =
      (files snapshot.path).map fun file => file.snapshot snapshot.path := by
    rw [captureFileSnapshot, if_neg hne, hpaths.absolute_self _ hpath, Option.bind_some, hnormal]
  rw [isSnapshotCurrent, hcapture] at h
  cases hfile : files snapshot.path with
  | none => simp [hfile] at h
  | some file =>
    simp only [hfile, Option.map_some, decide_eq_true_eq] at h
    refine ⟨file, rfl, ?_⟩
    obtain ⟨path, size, time⟩ := snapshot
    simp only [File.snapshot] at h ⊢
    rw [h.1, h.2]

/-! ## What a compilation reads -/

namespace SourceLoader

variable {Module Diagnostic : Type} (L : SourceLoader Module Diagnostic)

/-- The files that the attempts of a compilation read. -/
def attemptReads (config : AnalysisConfig) (workingDir : CppString) (files : Files)
    (args : List CppString) (mode : OutputMode) : Set CppString :=
  let inProcess := L.compiler.reads args mode L.paths.processDir files.contents
  let inCommand := {path | ∃ dir, L.paths.scopedCurrentPath workingDir = .ok dir ∧
    path ∈ L.compiler.reads args mode dir files.contents}
  if workingDir = [] then inProcess
  else if 1 < config.jobs then
    if (L.inProcess files args mode).success then inProcess else inProcess ∪ inCommand
  else inCommand

/-- The compilation to textual IR is needed beside that to bitcode. -/
def needsText (P : Parsers Module) (config : AnalysisConfig)
    (first : Option CompileResult) : Prop :=
  config.compileIRFormat = .bc ∧ ∀ res, first = some res → res.success →
    res.bitcode = [] ∨ P.parseBitcodeFile res.bitcode = none

section Compilation

variable (P : Parsers Module) (config : AnalysisConfig) (filename : CppString)
  (language : LanguageType) (args : List CppString) (workingDir : CppString)

/-- The files of the entry of the compilation. -/
def entryPaths : CompileIRCachePaths :=
  L.paths.buildCompileIRCachePaths config filename language args workingDir

/-- Compiling the source file, with the files as they are. -/
def compileAt (files : Files) : CompileOutcome Module Diagnostic :=
  L.compileSource P config filename language args workingDir
    (L.entryPaths config filename language args workingDir) files
    (L.compileWithConfiguredWorkingDir config workingDir files)

/-- **The files that a compilation reads or looks for.** -/
def compilationReads (files : Files) : Set CppString :=
  let first := L.firstArgs config args (L.entryPaths config filename language args workingDir)
  L.attemptReads config workingDir files first (firstMode config) ∪
    {path | needsText P config (L.compileWithConfiguredWorkingDir config workingDir files [] first
      (firstMode config)).1 ∧ path ∈ L.attemptReads config workingDir files args .toMemory}

end Compilation

/-- **An attempt only depends on what it reads.** -/
theorem attempt_congr {config : AnalysisConfig} {workingDir : CppString} {files files' : Files}
    {args : List CppString} {mode : OutputMode}
    (h : ∀ path ∈ L.attemptReads config workingDir files args mode,
      files.contents path = files'.contents path) (error : CppString) :
    L.compileWithConfiguredWorkingDir config workingDir files' error args mode =
      L.compileWithConfiguredWorkingDir config workingDir files error args mode := by
  have hprocess : (∀ path ∈ L.compiler.reads args mode L.paths.processDir files.contents,
      files.contents path = files'.contents path) →
      L.inProcess files' args mode = L.inProcess files args mode := fun hreads =>
    (L.compiler.determined hreads).symm
  have hcommand : (∀ path dir, L.paths.scopedCurrentPath workingDir = .ok dir →
      path ∈ L.compiler.reads args mode dir files.contents →
      files.contents path = files'.contents path) → ∀ error,
      L.compileWithOptionalWorkingDir workingDir files' error args mode true =
        L.compileWithOptionalWorkingDir workingDir files error args mode true := by
    intro hreads error
    simp only [compileWithOptionalWorkingDir, Bool.not_true, Bool.false_eq_true, if_false]
    cases hpath : L.paths.scopedCurrentPath workingDir with
    | error failure => rfl
    | ok dir =>
      dsimp only
      rw [L.compiler.determined fun path hmem => hreads path dir hpath hmem]
  have hfalse : ∀ g : Files, ∀ error, L.compileWithOptionalWorkingDir workingDir g error args mode
      false = (some (L.inProcess g args mode), error) := fun _ _ => rfl
  unfold attemptReads at h
  unfold compileWithConfiguredWorkingDir
  by_cases hdir : workingDir = []
  · simp only [hdir, ne_eq, not_true_eq_false, and_false, if_false, decide_false, if_true]
      at h hfalse ⊢
    rw [hfalse, hfalse, hprocess h]
  · rw [if_neg hdir] at h
    by_cases hjobs : 1 < config.jobs
    · rw [if_pos hjobs] at h
      simp only [hjobs, hdir, ne_eq, not_false_eq_true, and_self, if_true, hfalse, succeeded,
        Option.any_some]
      by_cases hsuccess : (L.inProcess files args mode).success
      · rw [if_pos hsuccess] at h
        rw [hprocess h]
        simp only [hsuccess, if_true]
      · rw [if_neg hsuccess] at h
        rw [hprocess fun path hmem => h path (Or.inl hmem),
          hcommand fun path dir hpath hmem => h path (Or.inr ⟨dir, hpath, hmem⟩)]
    · rw [if_neg hjobs] at h
      rw [if_neg fun hboth => hjobs hboth.1, if_neg fun hboth => hjobs hboth.1,
        decide_eq_true hdir]
      exact hcommand (fun path dir hpath hmem => h path ⟨dir, hpath, hmem⟩) error

/-- Compiling depends on the first attempt, and on that to textual IR if it is needed. -/
theorem compileSource_eq_of_attempts {P : Parsers Module} {config : AnalysisConfig}
    {filename : CppString} {language : LanguageType} {args : List CppString}
    {workingDir : CppString} {cachePaths : CompileIRCachePaths} {files files' : Files}
    {attempt attempt' : CppString → List CppString → OutputMode → Option CompileResult × CppString}
    (hfirst : attempt' [] (L.firstArgs config args cachePaths) (firstMode config) =
      attempt [] (L.firstArgs config args cachePaths) (firstMode config))
    (htext : needsText P config
        (attempt [] (L.firstArgs config args cachePaths) (firstMode config)).1 →
      ∀ error, attempt' error args .toMemory = attempt error args .toMemory)
    (hsnapshots : ∀ depFile, (attempt [] (L.firstArgs config args cachePaths)
        (firstMode config)).1.bind CompileResult.depFile = depFile →
      L.captureSnapshots filename workingDir files' depFile =
        L.captureSnapshots filename workingDir files depFile) :
    L.compileSource P config filename language args workingDir cachePaths files' attempt' =
      L.compileSource P config filename language args workingDir cachePaths files attempt := by
  unfold compileSource
  simp only [hfirst, hsnapshots _ rfl]
  generalize attempt [] (L.firstArgs config args cachePaths) (firstMode config) = first at htext ⊢
  obtain ⟨res, error⟩ := first
  by_cases hformat : config.compileIRFormat = .bc
  · simp only [hformat, true_and, decide_true, Bool.not_true, Bool.false_eq_true, if_false]
    cases res with
    | none => rw [htext ⟨hformat, by simp⟩ error]
    | some res =>
      by_cases hsuccess : res.success
      · have hsucceeded : succeeded (some res) = true := hsuccess
        simp only [hsucceeded, Bool.not_true, Bool.false_eq_true, if_false]
        cases hparsed : if res.outputFile.getD [] = [] then none
            else P.parseBitcodeFile (res.outputFile.getD []) with
        | some module => rfl
        | none =>
          have hneeds : needsText P config (some res) := by
            refine ⟨hformat, fun res' heq _ => ?_⟩
            obtain rfl := Option.some.inj heq
            by_cases hempty : res.bitcode = []
            · exact Or.inl hempty
            · exact Or.inr ((if_neg hempty).symm.trans hparsed)
          rw [htext hneeds error]
      · have hneeds : needsText P config (some res) :=
          ⟨hformat, fun res' heq hres' => absurd (Option.some.inj heq ▸ hres') hsuccess⟩
        rw [htext hneeds error]
  · simp only [hformat, false_and, if_false, decide_false, Bool.not_false, if_true]

/-- The first attempt of a compilation. -/
def firstAttempt (config : AnalysisConfig) (filename : CppString) (language : LanguageType)
    (args : List CppString) (workingDir : CppString) (files : Files) :
    Option CompileResult × CppString :=
  L.compileWithConfiguredWorkingDir config workingDir files []
    (L.firstArgs config args (L.entryPaths config filename language args workingDir))
    (firstMode config)

section Entry

variable {P : Parsers Module} {config : AnalysisConfig} {filename : CppString}
  {language : LanguageType} {args : List CppString} {workingDir : CppString} {files : Files}

/-- **Compiling only depends on what it reads**, and on the snapshots that are captured. -/
theorem compileAt_congr {files' : Files}
    (hreads : ∀ path ∈ L.compilationReads P config filename language args workingDir files,
      files.contents path = files'.contents path)
    (hsnapshots : ∀ depFile, (L.firstAttempt config filename language args workingDir
        files).1.bind CompileResult.depFile = depFile →
      L.captureSnapshots filename workingDir files' depFile =
        L.captureSnapshots filename workingDir files depFile) :
    L.compileAt P config filename language args workingDir files' =
      L.compileAt P config filename language args workingDir files := by
  apply L.compileSource_eq_of_attempts
  · exact L.attempt_congr (fun path hmem => hreads path (Or.inl hmem)) []
  · intro hneeds error
    exact L.attempt_congr (fun path hmem => hreads path (Or.inr ⟨hneeds, hmem⟩)) error
  · exact hsnapshots

/-- What is to be stored of a module has the snapshots that are given, and some bitcode. -/
theorem finish_entry {snapshots : Option (FileSnapshot × List FileSnapshot)}
    {error text bitcode ir : CppString} {module : Module} {entry : StoredEntry}
    (h : (L.finish filename language snapshots error text bitcode ir module).entry = some entry) :
    snapshots = some (entry.sourceSnapshot, entry.dependencySnapshots) ∧
      entry.payload.llvmBitcode ≠ [] := by
  rw [finish, Option.map_eq_some_iff] at h
  obtain ⟨⟨source, dependencies⟩, hsnapshots, rfl⟩ := h
  refine ⟨hsnapshots, ?_⟩
  dsimp only
  split_ifs with hempty
  · exact L.tools.writeBitcodeToFile_ne_nil module
  · exact hempty

/-- The same after parsing textual IR. -/
theorem finishText_entry {snapshots : Option (FileSnapshot × List FileSnapshot)}
    {bitcode : CppString} {attempt : Option CompileResult × CppString} {entry : StoredEntry}
    (h : (L.finishText P filename language snapshots bitcode attempt).entry = some entry) :
    snapshots = some (entry.sourceSnapshot, entry.dependencySnapshots) ∧
      entry.payload.llvmBitcode ≠ [] := by
  obtain ⟨res, error⟩ := attempt
  cases res with
  | none => simp [finishText] at h
  | some res =>
    simp only [finishText] at h
    split_ifs at h
    cases hparse : P.parseIR res.llvmIR with
    | error message => simp [hparse] at h
    | ok module =>
      rw [hparse] at h
      exact L.finish_entry h

/-- **What is to be stored** has the snapshots of the first attempt, and some bitcode. -/
theorem compileSource_entry {cachePaths : CompileIRCachePaths}
    {attempt : CppString → List CppString → OutputMode → Option CompileResult × CppString}
    {entry : StoredEntry}
    (h : (L.compileSource P config filename language args workingDir cachePaths files
      attempt).entry = some entry) :
    L.captureSnapshots filename workingDir files
        ((attempt [] (L.firstArgs config args cachePaths) (firstMode config)).1.bind
          CompileResult.depFile) = some (entry.sourceSnapshot, entry.dependencySnapshots) ∧
      entry.payload.llvmBitcode ≠ [] := by
  unfold compileSource at h
  simp only at h
  generalize attempt [] (L.firstArgs config args cachePaths) (firstMode config) = first at h ⊢
  obtain ⟨res, error⟩ := first
  -- snapshots are only captured if the cache is ready
  have hready : ∀ {snapshots : Option (FileSnapshot × List FileSnapshot)},
      (if cachePaths.enabled ∧ L.access.ensureDirectoryExists cachePaths.directory then snapshots
        else none) = some (entry.sourceSnapshot, entry.dependencySnapshots) →
      snapshots = some (entry.sourceSnapshot, entry.dependencySnapshots) := by
    intro snapshots h
    split_ifs at h
    exact h
  by_cases hfallback : config.compileIRFormat = .bc ∧ (!succeeded res) = true
  · rw [if_pos hfallback] at h
    have hnone := (L.finishText_entry h).1
    simp at hnone
  · rw [if_neg hfallback] at h
    cases res with
    | none => simp at h
    | some res =>
      simp only at h
      by_cases htext : (!decide (config.compileIRFormat = .bc)) = true
      · rw [if_pos htext] at h
        exact (L.finishText_entry h).imp hready id
      · rw [if_neg htext] at h
        cases hparsed : if res.outputFile.getD [] = [] then none
            else P.parseBitcodeFile (res.outputFile.getD []) with
        | some module =>
          rw [hparsed] at h
          exact (L.finish_entry h).imp hready id
        | none =>
          rw [hparsed] at h
          exact (L.finishText_entry h).imp hready id

/-- The same for a compilation of the loader. -/
theorem compileAt_entry {entry : StoredEntry}
    (h : (L.compileAt P config filename language args workingDir files).entry = some entry) :
    L.captureSnapshots filename workingDir files ((L.firstAttempt config filename language args
      workingDir files).1.bind CompileResult.depFile) =
        some (entry.sourceSnapshot, entry.dependencySnapshots) ∧
      entry.payload.llvmBitcode ≠ [] :=
  L.compileSource_entry h

end Entry

end SourceLoader

/-! ## Capturing again -/

section Capture

variable {E : Surroundings} (hpaths : E.AbsolutePaths) {files files' : Files}

include hpaths

/-- A snapshot that is current is captured again. -/
theorem captureFileSnapshot_again {path : CppString} {snapshot : FileSnapshot}
    (h : E.captureFileSnapshot files path = some snapshot)
    (hcurrent : E.isSnapshotCurrent files' snapshot) :
    E.captureFileSnapshot files' path = some snapshot := by
  obtain ⟨hpath, hnormal, -, hagain⟩ := E.captureFileSnapshot_eq_some hpaths h
  obtain ⟨file, hfile, hsnapshot⟩ := E.snapshot_of_current hpaths hpath hnormal hcurrent
  rw [hagain files', hfile, Option.map_some, hsnapshot]

/-- Snapshots that are current are captured again. -/
theorem buildDependencySnapshots_again {dependencies : List CppString}
    {snapshots : List FileSnapshot}
    (h : E.buildDependencySnapshots files dependencies = some snapshots)
    (hcurrent : ∀ snapshot ∈ snapshots, E.isSnapshotCurrent files' snapshot) :
    E.buildDependencySnapshots files' dependencies = some snapshots := by
  induction dependencies generalizing snapshots with
  | nil =>
    obtain rfl := Option.some.inj h
    rfl
  | cons path rest ih =>
    simp only [Surroundings.buildDependencySnapshots, List.mapM_cons, Option.bind_eq_bind,
      Option.bind_eq_some_iff, Option.pure_def, Option.some.injEq] at h ih ⊢
    obtain ⟨first, hfirst, others, hothers, rfl⟩ := h
    exact ⟨first, captureFileSnapshot_again hpaths hfirst (hcurrent first List.mem_cons_self),
      others, ih hothers fun s hs => hcurrent s (List.mem_cons_of_mem first hs), rfl⟩

omit hpaths in
/-- Each snapshot of a dependency is captured. -/
theorem captured_of_buildDependencySnapshots {dependencies : List CppString}
    {snapshots : List FileSnapshot}
    (h : E.buildDependencySnapshots files dependencies = some snapshots) :
    ∀ snapshot ∈ snapshots, ∃ path, E.captureFileSnapshot files path = some snapshot := by
  induction dependencies generalizing snapshots with
  | nil =>
    obtain rfl := Option.some.inj h
    simp
  | cons path rest ih =>
    simp only [Surroundings.buildDependencySnapshots, List.mapM_cons, Option.bind_eq_bind,
      Option.bind_eq_some_iff, Option.pure_def, Option.some.injEq] at h ih
    obtain ⟨first, hfirst, others, hothers, rfl⟩ := h
    intro snapshot hmem
    rcases List.mem_cons.mp hmem with rfl | hmem
    · exact ⟨path, hfirst⟩
    · exact ih hothers snapshot hmem

end Capture

namespace SourceLoader

variable {Module Diagnostic : Type} {L : SourceLoader Module Diagnostic} {files files' : Files}
  {filename workingDir : CppString} {depFile : Option CppString} {source : FileSnapshot}
  {dependencies : List FileSnapshot}

/-- The snapshots of an entry: that of the source file, and those of the dependencies. -/
theorem captureSnapshots_eq_some
    (h : L.captureSnapshots filename workingDir files depFile = some (source, dependencies)) :
    ∃ names, L.paths.parseDepfileDependencies depFile workingDir = some names ∧
      L.paths.captureFileSnapshot files (L.paths.makeAbsolutePathFrom filename workingDir) =
        some source ∧
      L.paths.buildDependencySnapshots files names = some dependencies := by
  simp only [captureSnapshots] at h
  cases hparse : L.paths.parseDepfileDependencies depFile workingDir with
  | none => simp [hparse] at h
  | some names =>
    cases hsource : L.paths.captureFileSnapshot files
        (L.paths.makeAbsolutePathFrom filename workingDir) with
    | none => simp [hparse, hsource] at h
    | some first =>
      simp only [hparse, hsource, Option.map_eq_some_iff, Prod.mk.injEq] at h
      obtain ⟨snapshots, hbuild, rfl, rfl⟩ := h
      exact ⟨names, rfl, rfl, hbuild⟩

/-- Each snapshot of an entry is captured. -/
theorem captured_of_captureSnapshots
    (h : L.captureSnapshots filename workingDir files depFile = some (source, dependencies)) :
    ∀ snapshot ∈ source :: dependencies,
      ∃ path, L.paths.captureFileSnapshot files path = some snapshot := by
  obtain ⟨names, -, hsource, hbuild⟩ := captureSnapshots_eq_some h
  intro snapshot hmem
  rcases List.mem_cons.mp hmem with rfl | hmem
  · exact ⟨_, hsource⟩
  · exact captured_of_buildDependencySnapshots hbuild snapshot hmem

/-- The snapshots of an entry that are current are captured again. -/
theorem captureSnapshots_again (hpaths : L.paths.toSurroundings.AbsolutePaths)
    (h : L.captureSnapshots filename workingDir files depFile = some (source, dependencies))
    (hcurrent : ∀ snapshot ∈ source :: dependencies,
      L.paths.isSnapshotCurrent files' snapshot) :
    L.captureSnapshots filename workingDir files' depFile = some (source, dependencies) := by
  obtain ⟨names, hparse, hsource, hbuild⟩ := captureSnapshots_eq_some h
  have hfirst := captureFileSnapshot_again hpaths hsource (hcurrent source List.mem_cons_self)
  have hrest := buildDependencySnapshots_again hpaths hbuild
    fun s hs => hcurrent s (List.mem_cons_of_mem source hs)
  simp only [captureSnapshots, hparse, hfirst, hrest, Option.map_some]

end SourceLoader

/-! ## Edits -/

/-- An edit: a file is written, or removed. -/
structure Edit where
  path : CppString
  file : Option File

/-- The files after an edit. -/
def applyEdit (files : Files) (edit : Edit) : Files := Function.update files edit.path edit.file

/-- The files after edits in a row. -/
def applyEdits (files : Files) (edits : List Edit) : Files := edits.foldl applyEdit files

/-- **Each edit leaves the contents of the given files as they are.** -/
def SafeHistory (watched : Set CppString) : Files → List Edit → Prop
  | _, [] => True
  | files, edit :: rest =>
    (edit.path ∈ watched → edit.file.map File.content = files.contents edit.path) ∧
      SafeHistory watched (applyEdit files edit) rest

/-- An edit that leaves the watched files as they are keeps their contents. -/
theorem contents_applyEdit {watched : Set CppString} {files : Files} {edit : Edit}
    (h : edit.path ∈ watched → edit.file.map File.content = files.contents edit.path)
    {path : CppString} (hpath : path ∈ watched) :
    (applyEdit files edit).contents path = files.contents path := by
  by_cases heq : path = edit.path
  · subst heq
    rw [← h hpath, Files.contents, applyEdit, Function.update_self]
  · rw [Files.contents, applyEdit, Function.update_of_ne heq, Files.contents]

/-- A history of such edits keeps the contents of the watched files. -/
theorem contents_applyEdits {watched : Set CppString} {files : Files} {edits : List Edit}
    (h : SafeHistory watched files edits) {path : CppString} (hpath : path ∈ watched) :
    (applyEdits files edits).contents path = files.contents path := by
  induction edits generalizing files with
  | nil => rfl
  | cons edit rest ih => exact (ih h.2).trans (contents_applyEdit h.1 hpath)

/-- Equal snapshots of a file mean equal contents. -/
def SnapshotsFaithful (files files' : Files) : Prop :=
  ∀ path file file', files path = some file → files' path = some file' →
    file.snapshot path = file'.snapshot path → file.content = file'.content

/-! ## Hits -/

open SourceLoader

/-- A path in a directory ends with what stands behind the directory. -/
theorem getLast?_joinPath (directory : CppString) {rest : CppString} (hrest : rest ≠ []) :
    (joinPath directory rest).getLast? = rest.getLast? := by
  have hcons : ('/' :: rest).getLast? = rest.getLast? := by
    rw [← List.singleton_append, List.getLast?_append_of_ne_nil _ hrest]
  unfold joinPath
  split_ifs
  · rfl
  · exact List.getLast?_append_of_ne_nil _ hrest
  · rw [List.getLast?_append_of_ne_nil _ (List.cons_ne_nil _ _), hcons]

/-- The files of an enabled entry are different. -/
theorem Surroundings.buildCompileIRCachePaths_distinct {E : Surroundings} {config : AnalysisConfig}
    {filename : CppString} {language : LanguageType} {args : List CppString}
    {workingDir : CppString}
    (h : (E.buildCompileIRCachePaths config filename language args workingDir).enabled) :
    (E.buildCompileIRCachePaths config filename language args workingDir).Distinct := by
  have hends : ∀ {directory key x y : CppString}, x.getLast? ≠ y.getLast? → x ≠ [] → y ≠ [] →
      joinPath directory (key ++ x) ≠ joinPath directory (key ++ y) := by
    intro directory key x y hlast hx hy heq
    apply hlast
    rw [← List.getLast?_append_of_ne_nil key hx, ← List.getLast?_append_of_ne_nil key hy,
      ← getLast?_joinPath directory (List.append_ne_nil_of_right_ne_nil key hx), heq,
      getLast?_joinPath directory (List.append_ne_nil_of_right_ne_nil key hy)]
  unfold buildCompileIRCachePaths at h ⊢
  split_ifs at h ⊢ with hempty
  · exact ⟨hends (by decide) (by decide) (by decide), hends (by decide) (by decide) (by decide),
      hends (by decide) (by decide) (by decide)⟩

/-- The files that a compilation reads and that an entry does not record. -/
def SourceLoader.unrecordedReads {Module Diagnostic : Type} (L : SourceLoader Module Diagnostic)
    (P : Parsers Module) (config : AnalysisConfig) (filename : CppString)
    (language : LanguageType) (args : List CppString) (workingDir : CppString) (files : Files)
    (entry : StoredEntry) : Set CppString :=
  {path | path ∈ L.compilationReads P config filename language args workingDir files ∧
    ∀ snapshot ∈ entry.sourceSnapshot :: entry.dependencySnapshots, snapshot.path ≠ path}

/-- **A hit is fresh**: if a compilation is stored, if then every edit leaves alone what it read
and the entry does not record, and if equal snapshots mean equal contents, then a payload that is
found is that of compiling again.

**Proof sketch.** All snapshots of the entry are current, so the files that it records have their
contents, and the other files that the compilation read have theirs by induction on the edits. The
compiler gives the same, and the same snapshots are captured. -/
theorem cacheHit_fresh {Module Diagnostic : Type} (L : SourceLoader Module Diagnostic)
    (P : Parsers Module) (config : AnalysisConfig) (filename : CppString)
    (language : LanguageType) (args : List CppString) (workingDir : CppString) (files : Files)
    (cache cache' : CacheFiles) (entry : StoredEntry) (edits : List Edit)
    (payload : CompileIRCachePayload) (hpaths : L.paths.toSurroundings.AbsolutePaths)
    (hentry : (L.compileAt P config filename language args workingDir files).entry = some entry)
    (hjson : L.json.Exact (entryValue entry.sourceSnapshot entry.dependencySnapshots
      entry.payload.diagnostics))
    (hstore : L.storeOutcome (L.entryPaths config filename language args workingDir)
      (L.compileAt P config filename language args workingDir files) cache = (true, cache'))
    (hsafe : SafeHistory (L.unrecordedReads P config filename language args workingDir files entry)
      files edits)
    (hfaithful : SnapshotsFaithful files (applyEdits files edits))
    (hhit : L.paths.loadCompileIRCachePayload L.json
      (L.entryPaths config filename language args workingDir) cache' (applyEdits files edits) =
        some payload) :
    L.compileAt P config filename language args workingDir (applyEdits files edits) =
        L.compileAt P config filename language args workingDir files ∧
      payload = entry.payload := by
  obtain ⟨hsnapshots, hbitcode⟩ := L.compileAt_entry hentry
  have hstored : L.access.storeCompileIRCachePayload L.json
      (L.entryPaths config filename language args workingDir) entry.sourceSnapshot
      entry.dependencySnapshots entry.payload cache = (true, cache') := by
    rw [storeOutcome, hentry] at hstore
    exact hstore
  have henabled := Surroundings.enabled_of_load hhit
  have hcaptured := captured_of_captureSnapshots hsnapshots
  have hsizes : ∀ snapshot ∈ entry.sourceSnapshot :: entry.dependencySnapshots,
      snapshot.size < 2 ^ 64 := by
    intro snapshot hmem
    obtain ⟨path, hpath⟩ := hcaptured snapshot hmem
    obtain ⟨-, -, ⟨file, -, hfile⟩, -⟩ := Surroundings.captureFileSnapshot_eq_some hpaths hpath
    rw [← hfile]
    exact Nat.mod_lt _ (by norm_num)
  obtain ⟨hpayload, hcurrent⟩ := Surroundings.load_store
    (Surroundings.buildCompileIRCachePaths_distinct henabled) hbitcode hsizes hjson hstored hhit
  have hagain := captureSnapshots_again hpaths hsnapshots hcurrent
  refine ⟨L.compileAt_congr ?_ ?_, hpayload⟩
  · intro path hread
    by_cases hrecorded : ∀ snapshot ∈ entry.sourceSnapshot :: entry.dependencySnapshots,
        snapshot.path ≠ path
    · exact (contents_applyEdits hsafe ⟨hread, hrecorded⟩).symm
    · push Not at hrecorded
      obtain ⟨snapshot, hmem, rfl⟩ := hrecorded
      obtain ⟨source, hsource⟩ := hcaptured snapshot hmem
      obtain ⟨hpath, hnormal, ⟨file, hfile, hsnapshot⟩, -⟩ :=
        Surroundings.captureFileSnapshot_eq_some hpaths hsource
      obtain ⟨file', hfile', hsnapshot'⟩ :=
        Surroundings.snapshot_of_current hpaths hpath hnormal (hcurrent snapshot hmem)
      have hcontent := hfaithful _ _ _ hfile hfile' (hsnapshot.trans hsnapshot'.symm)
      rw [Files.contents, Files.contents, hfile, hfile', Option.map_some, Option.map_some, hcontent]
  · rintro depFile rfl
    exact hagain.trans hsnapshots.symm

/-- What a compilation reads is read by the compiler in some directory. -/
theorem mem_reads_of_mem_compilationReads {Module Diagnostic : Type}
    {L : SourceLoader Module Diagnostic} {P : Parsers Module} {config : AnalysisConfig}
    {filename : CppString} {language : LanguageType} {args : List CppString}
    {workingDir path : CppString} {files : Files}
    (h : path ∈ L.compilationReads P config filename language args workingDir files) :
    ∃ args mode dir, path ∈ L.compiler.reads args mode dir files.contents := by
  have hattempt : ∀ args mode, path ∈ L.attemptReads config workingDir files args mode →
      ∃ args mode dir, path ∈ L.compiler.reads args mode dir files.contents := by
    intro args mode hmem
    unfold attemptReads at hmem
    dsimp only at hmem
    split_ifs at hmem
    · exact ⟨args, mode, _, hmem⟩
    · exact ⟨args, mode, _, hmem⟩
    · rcases hmem with hmem | ⟨dir, -, hmem⟩
      · exact ⟨args, mode, _, hmem⟩
      · exact ⟨args, mode, dir, hmem⟩
    · obtain ⟨dir, -, hmem⟩ := hmem
      exact ⟨args, mode, dir, hmem⟩
  rcases h with hmem | ⟨-, hmem⟩
  · exact hattempt _ _ hmem
  · exact hattempt _ _ hmem

/-! ## A system header -/

/-- A compiler for a file with `#include <version.h>`, a header of the system: the dependency file
does not list it. -/
def versionCompiler : Compiler where
  compile _ mode _ contents :=
    match contents "/proj/a.c".toList, contents "/usr/include/version.h".toList with
    | some _, some value =>
      let ir := "@version = global i32 ".toList ++ value
      let depFile := some "coretrace_compile_ir_cache_target: /proj/a.c\n".toList
      if mode = .toFile then ⟨true, [], [], some ir, depFile⟩ else ⟨true, ir, [], none, depFile⟩
    | _, _ => ⟨false, [], "fatal error".toList, none, none⟩
  reads _ _ _ _ := {path | path = "/proj/a.c".toList ∨ path = "/usr/include/version.h".toList}
  determined h := by simp only [h _ (Or.inl rfl), h _ (Or.inr rfl)]

/-- The snapshot of the source file. -/
def sourceSnapshot : FileSnapshot := ⟨"/proj/a.c".toList, 20, 1⟩

/-- A loader with this compiler and a cache. -/
def versionLoader : SourceLoader CppString CppString :=
  { headerLoader with
    compiler := versionCompiler
    json := documentText (entryValue sourceSnapshot [sourceSnapshot] []) }

/-- The source file and the header. -/
def versionFiles : Files := fun path =>
  if path = "/proj/a.c".toList then some ⟨"#include <version.h>".toList, 1⟩
  else if path = "/usr/include/version.h".toList then some ⟨"1".toList, 1⟩
  else none

/-- The configuration with a cache. -/
def cachedConfig : AnalysisConfig := { compileIRCacheDir := "cache".toList }

/-- What is stored. -/
def versionEntry : StoredEntry :=
  ⟨sourceSnapshot, [sourceSnapshot], ⟨"@version = global i32 1".toList, [], []⟩⟩

/-- The files of the cache afterwards. -/
def versionCache : CacheFiles :=
  (versionLoader.storeOutcome
    (versionLoader.entryPaths cachedConfig "/proj/a.c".toList .c headerArgs "/proj".toList)
    (versionLoader.compileAt textParsers cachedConfig "/proj/a.c".toList .c headerArgs
      "/proj".toList versionFiles) fun _ => none).2

/-- Absolute paths of the loader. -/
theorem versionLoader_absolutePaths : versionLoader.paths.toSurroundings.AbsolutePaths where
  absolute_self path hpath := by
    have hne : path ≠ [] := by
      rintro rfl
      exact hpath rfl
    show (if path = [] then none else if isRelative path then _ else some path) = some path
    rw [if_neg hne, if_neg hpath]
  absolute_absolute := by
    intro path result h
    change (if path = [] then none else if isRelative path then some ('/' :: path)
      else some path) = some result at h
    split_ifs at h with hempty hrelative
    · exact Option.some.inj h ▸ by simp [isRelative]
    · exact Option.some.inj h ▸ hrelative

theorem versionEntry_stored :
    (versionLoader.compileAt textParsers cachedConfig "/proj/a.c".toList .c headerArgs
      "/proj".toList versionFiles).entry = some versionEntry := by
  decide +kernel

/-- The entry is written. -/
theorem versionCache_eq :
    versionLoader.storeOutcome
      (versionLoader.entryPaths cachedConfig "/proj/a.c".toList .c headerArgs "/proj".toList)
      (versionLoader.compileAt textParsers cachedConfig "/proj/a.c".toList .c headerArgs
        "/proj".toList versionFiles) (fun _ => none) = (true, versionCache) := by
  refine Prod.ext ?_ rfl
  decide +kernel

/-- The document of the entry is read back. -/
theorem versionLoader_exact :
    versionLoader.json.Exact (entryValue versionEntry.sourceSnapshot
      versionEntry.dependencySnapshots versionEntry.payload.diagnostics) :=
  documentText_exact _

/-- An edit of a file that is not read. -/
def noteEdit : Edit := ⟨"/proj/notes.txt".toList, some ⟨"todo".toList, 2⟩⟩

/-- After it the entry is found, and compiling again gives what it has. -/
theorem cacheHit_fresh_note :
    versionLoader.compileAt textParsers cachedConfig "/proj/a.c".toList .c headerArgs
        "/proj".toList (applyEdits versionFiles [noteEdit]) =
      versionLoader.compileAt textParsers cachedConfig "/proj/a.c".toList .c headerArgs
        "/proj".toList versionFiles := by
  refine (cacheHit_fresh versionLoader textParsers cachedConfig "/proj/a.c".toList .c headerArgs
    "/proj".toList versionFiles (fun _ => none) versionCache versionEntry [noteEdit]
    versionEntry.payload versionLoader_absolutePaths versionEntry_stored versionLoader_exact
    versionCache_eq ⟨?_, trivial⟩ ?_ ?_).1
  · rintro ⟨hread, -⟩
    obtain ⟨args, mode, dir, hpath⟩ := mem_reads_of_mem_compilationReads hread
    rcases hpath with hpath | hpath
    · exact absurd hpath (by decide +kernel)
    · exact absurd hpath (by decide +kernel)
  · intro path file file' hfile hfile' _
    by_cases heq : path = noteEdit.path
    · subst heq
      have hnone : (versionFiles noteEdit.path).isNone := by decide +kernel
      rw [hfile] at hnone
      exact absurd hnone (by simp)
    · rw [applyEdits, List.foldl_cons, List.foldl_nil, applyEdit, Function.update_of_ne heq,
        hfile] at hfile'
      rw [Option.some.inj hfile']
  · decide +kernel

/-- An edit of the system header. -/
def headerEdit : Edit := ⟨"/usr/include/version.h".toList, some ⟨"2".toList, 2⟩⟩

/-- **After an edit of a system header** the entry is still found, though snapshots tell the
contents apart and compiling again gives another module. -/
theorem not_cacheHit_fresh_header :
    SnapshotsFaithful versionFiles (applyEdits versionFiles [headerEdit]) ∧
    versionLoader.paths.loadCompileIRCachePayload versionLoader.json
      (versionLoader.entryPaths cachedConfig "/proj/a.c".toList .c headerArgs "/proj".toList)
      versionCache (applyEdits versionFiles [headerEdit]) = some versionEntry.payload ∧
    (versionLoader.compileAt textParsers cachedConfig "/proj/a.c".toList .c headerArgs
      "/proj".toList (applyEdits versionFiles [headerEdit])).result.module =
        some "@version = global i32 2".toList ∧
    versionEntry.payload.llvmBitcode = "@version = global i32 1".toList ∧
    versionLoader.compileAt textParsers cachedConfig "/proj/a.c".toList .c headerArgs
        "/proj".toList (applyEdits versionFiles [headerEdit]) ≠
      versionLoader.compileAt textParsers cachedConfig "/proj/a.c".toList .c headerArgs
        "/proj".toList versionFiles := by
  have hnew : (versionLoader.compileAt textParsers cachedConfig "/proj/a.c".toList .c headerArgs
      "/proj".toList (applyEdits versionFiles [headerEdit])).result.module =
        some "@version = global i32 2".toList := by
    decide +kernel
  have hold : (versionLoader.compileAt textParsers cachedConfig "/proj/a.c".toList .c headerArgs
      "/proj".toList versionFiles).result.module = some "@version = global i32 1".toList := by
    decide +kernel
  refine ⟨?_, by decide +kernel, hnew, rfl, fun heq => ?_⟩
  swap
  · have hmodule := congrArg (fun outcome => outcome.result.module) heq
    exact absurd (hnew.symm.trans (hmodule.trans hold)) (by decide +kernel)
  intro path file file' hfile hfile' hsnapshot
  by_cases heq : path = headerEdit.path
  · subst heq
    have hold : versionFiles headerEdit.path = some ⟨"1".toList, 1⟩ := rfl
    have hnew : applyEdits versionFiles [headerEdit] headerEdit.path = some ⟨"2".toList, 2⟩ := rfl
    obtain rfl := Option.some.inj (hold.symm.trans hfile)
    obtain rfl := Option.some.inj (hnew.symm.trans hfile')
    exact absurd (congrArg FileSnapshot.mtimeNs hsnapshot) (by decide)
  · rw [applyEdits, List.foldl_cons, List.foldl_nil, applyEdit, Function.update_of_ne heq,
      hfile] at hfile'
    rw [Option.some.inj hfile']

end StackAnalyzer.Loader
