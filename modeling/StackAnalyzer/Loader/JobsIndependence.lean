import StackAnalyzer.Loader.LoadModule

set_option relaxedAutoImplicit false
set_option autoImplicit false

/-!
# Loading with several jobs

With several jobs a compilation is tried in the directory of the process first. The module and the
diagnostics are those of a single job if this attempt, where it succeeds, gives what the directory
of the command gives.

## Main definitions

* `StackAnalyzer.Loader.SourceLoader.SameLoad` — several jobs load what one job loads.
* `StackAnalyzer.Loader.SourceLoader.DirectoryFree` — the attempts do not depend on the directory.

## Main results

* `StackAnalyzer.Loader.sameLoad_iff` — when loading does not depend on the number of jobs.
-/

namespace StackAnalyzer.Loader

open App CrossTU CompileCommands Formats

/-- The bitcode in the output file. -/
def CompileResult.bitcode (r : CompileResult) : CppString := r.outputFile.getD []

namespace SourceLoader

variable {Module Diagnostic : Type} (L : SourceLoader Module Diagnostic)

/-! ## The property and its condition -/

/-- Several jobs load the module and the diagnostics that one job loads. -/
def SameLoad (P : Parsers Module) (filename : CppString) (config : AnalysisConfig)
    (jobs : UInt32) (files : Files) (cache : CacheFiles) : Prop :=
  (L.loadModuleForAnalysis P filename { config with jobs := jobs } files cache).1 =
    (L.loadModuleForAnalysis P filename { config with jobs := 1 } files cache).1

/-- Two texts of the compiler give the same diagnostics of the analyzer, for every module. -/
def SameDiagnostics (filename text text' : CppString) : Prop :=
  ∀ module, L.frontendDiagnostics filename text module = L.frontendDiagnostics filename text' module

/-- The result of the compiler in the directory of the process. -/
def inProcess (files : Files) (args : List CppString) (mode : OutputMode) : CompileResult :=
  L.compiler.compile args mode L.paths.processDir files.contents

/-- The result of the compiler in the directory of the command, if that can be entered. -/
def inCommand (workingDir : CppString) (files : Files) (args : List CppString)
    (mode : OutputMode) : Option CompileResult :=
  (L.paths.scopedCurrentPath workingDir).toOption.map fun dir =>
    L.compiler.compile args mode dir files.contents

/-- **Textual IR does not depend on the directory**: what succeeds in the directory of the process
succeeds in that of the command, with the same text and diagnostics. -/
def SameText (filename : CppString) (p : CompileResult) (w : Option CompileResult) : Prop :=
  p.success → ∃ r, w = some r ∧ r.success ∧ r.llvmIR = p.llvmIR ∧
    (p.llvmIR ≠ [] → L.SameDiagnostics filename p.diagnostics r.diagnostics)


/-- **Bitcode does not depend on the directory**: what succeeds with bitcode in the directory of the
process succeeds in that of the command, with the same bitcode and diagnostics, and if there is no
bitcode in the one there is none in the other. -/
def SameBitcode (filename : CppString) (p : CompileResult) (w : Option CompileResult) : Prop :=
  p.success →
    if p.bitcode = [] then ∀ r, w = some r → r.success → r.bitcode = []
    else ∃ r, w = some r ∧ r.success ∧ r.bitcode = p.bitcode ∧
      L.SameDiagnostics filename p.diagnostics r.diagnostics

/-- **The attempts of the loader do not depend on the directory.** -/
def DirectoryFree (filename : CppString) (config : AnalysisConfig) (args : List CppString)
    (workingDir : CppString) (files : Files) : Prop :=
  let cachePaths := L.paths.buildCompileIRCachePaths config filename
    (detectFromExtension filename) args workingDir
  let first := L.firstArgs config args cachePaths
  if config.compileIRFormat = .bc then
    L.SameBitcode filename (L.inProcess files first .toFile)
      (L.inCommand workingDir files first .toFile) ∧
    L.SameText filename (L.inProcess files args .toMemory)
      (L.inCommand workingDir files args .toMemory)
  else
    L.SameText filename (L.inProcess files first .toMemory)
      (L.inCommand workingDir files first .toMemory)

/-! ## Attempts -/

variable {L} {filename workingDir : CppString} {files : Files} {language : LanguageType}
  {P : Parsers Module} {config : AnalysisConfig}

/-- One attempt, in the directory of the command. -/
def commandAttempt (L : SourceLoader Module Diagnostic) (workingDir : CppString) (files : Files)
    (error : CppString) (args : List CppString) (mode : OutputMode) :
    Option CompileResult × CppString :=
  L.compileWithOptionalWorkingDir workingDir files error args mode true

/-- One job makes one attempt, in the directory of the command. -/
theorem compile_oneJob (hdir : workingDir ≠ []) :
    L.compileWithConfiguredWorkingDir { config with jobs := 1 } workingDir files =
      L.commandAttempt workingDir files := by
  funext error args mode
  simp [compileWithConfiguredWorkingDir, commandAttempt, hdir]

/-- Several jobs make an attempt in the directory of the process first. -/
theorem compile_severalJobs {jobs : UInt32} (hjobs : 1 < jobs) (hdir : workingDir ≠ [])
    (config : AnalysisConfig) (files : Files) (error : CppString) (args : List CppString)
    (mode : OutputMode) :
    L.compileWithConfiguredWorkingDir { config with jobs := jobs } workingDir files error args
        mode =
      if (L.inProcess files args mode).success then (some (L.inProcess files args mode), error)
      else L.commandAttempt workingDir files error args mode := by
  unfold compileWithConfiguredWorkingDir
  rw [if_pos ⟨hjobs, hdir⟩]
  simp [compileWithOptionalWorkingDir, commandAttempt, inProcess, succeeded]

/-- The directory of the command can be entered, and all attempts in it run there, or it cannot, and
all attempts have one error. -/
theorem commandAttempt_cases (L : SourceLoader Module Diagnostic) (workingDir : CppString)
    (files : Files) :
    (∃ dir, (∀ args mode, L.inCommand workingDir files args mode =
        some (L.compiler.compile args mode dir files.contents)) ∧
      ∀ error args mode, L.commandAttempt workingDir files error args mode =
        (some (L.compiler.compile args mode dir files.contents), error)) ∨
    ∃ failure, failure.head? = some 'F' ∧
      (∀ args mode, L.inCommand workingDir files args mode = none) ∧
      ∀ error args mode, L.commandAttempt workingDir files error args mode = (none, failure) := by
  have herror : ∀ failure, L.paths.scopedCurrentPath workingDir = .error failure →
      failure.head? = some 'F' := by
    intro failure h
    unfold LoaderPaths.scopedCurrentPath at h
    split_ifs at h
    split at h
    · exact Except.error.inj h ▸ rfl
    · split at h
      · exact Except.error.inj h ▸ rfl
      · simp at h
  cases hpath : L.paths.scopedCurrentPath workingDir with
  | ok dir =>
    refine Or.inl ⟨dir, ?_, ?_⟩
    · intro args mode
      simp [inCommand, hpath, Except.toOption]
    · intro error args mode
      simp [commandAttempt, compileWithOptionalWorkingDir, hpath]
  | error failure =>
    refine Or.inr ⟨failure ++ "\n".toList, ?_, ?_, ?_⟩
    · have hhead := herror failure hpath
      cases failure with
      | nil => exact absurd hhead (by simp)
      | cons c rest => exact hhead
    · intro args mode
      simp [inCommand, hpath, Except.toOption]
    · intro error args mode
      simp [commandAttempt, compileWithOptionalWorkingDir, hpath]

/-! ## Equal results -/

/-- The result does not depend on what is stored beside it. -/
theorem finishText_result (snapshots : Option (FileSnapshot × List FileSnapshot))
    (bitcode : CppString) (attempt : Option CompileResult × CppString) :
    (L.finishText P filename language snapshots bitcode attempt).result =
      (L.finishText P filename language none [] attempt).result := by
  obtain ⟨res, error⟩ := attempt
  cases res with
  | none => rfl
  | some res =>
    simp only [finishText]
    split_ifs
    · rfl
    · rfl
    · cases P.parseIR res.llvmIR <;> rfl

/-- Modules give the same result for texts with the same diagnostics. -/
theorem moduleResult_congr {text text' error : CppString}
    (h : L.SameDiagnostics filename text text') (module : Module) :
    L.moduleResult filename language text module error =
      L.moduleResult filename language text' module error := by
  rw [moduleResult, moduleResult, h module]

/-- Textual IR that does not depend on the directory is loaded the same from both attempts. -/
theorem finishText_congr {jobs : UInt32} (hjobs : 1 < jobs) (hdir : workingDir ≠ [])
    {args : List CppString} {mode : OutputMode}
    (h : L.SameText filename (L.inProcess files args mode)
      (L.inCommand workingDir files args mode)) (error : CppString) :
    (L.finishText P filename language none [] (L.compileWithConfiguredWorkingDir
        { config with jobs := jobs } workingDir files error args mode)).result =
      (L.finishText P filename language none []
        (L.commandAttempt workingDir files error args mode)).result := by
  rw [compile_severalJobs hjobs hdir]
  split_ifs with hsuccess
  · obtain ⟨r, hr, hrsuccess, hir, hdiagnostics⟩ := h hsuccess
    rcases L.commandAttempt_cases workingDir files with
      ⟨dir, hcommand, hattempt⟩ | ⟨failure, -, hcommand, -⟩
    · obtain rfl := Option.some.inj ((hcommand args mode).symm.trans hr)
      rw [hattempt]
      simp only [finishText, hsuccess, hrsuccess, hir, Bool.not_true, Bool.false_eq_true, if_false]
      split_ifs with hempty
      · rfl
      · cases P.parseIR (L.inProcess files args mode).llvmIR with
        | error message => rfl
        | ok module => exact moduleResult_congr (hdiagnostics hempty) module
    · simp [hcommand] at hr
  · rfl

section Compiling

variable {args : List CppString} {cachePaths : CompileIRCachePaths}
  {attempt : CppString → List CppString → OutputMode → Option CompileResult × CppString}

/-- To textual IR: the first attempt is parsed. -/
theorem compileSource_text (hformat : config.compileIRFormat ≠ .bc) :
    (L.compileSource P config filename language args workingDir cachePaths files attempt).result =
      (L.finishText P filename language none []
        (attempt [] (L.firstArgs config args cachePaths) .toMemory)).result := by
  have hmode : firstMode config = .toMemory := if_neg hformat
  unfold compileSource
  simp only [hformat, hmode, false_and, if_false, decide_false, Bool.not_false, if_true]
  cases hfirst : attempt [] (L.firstArgs config args cachePaths) .toMemory with
  | mk res error =>
    cases res with
    | none => rfl
    | some res => exact finishText_result _ _ _

/-- To bitcode, where the first attempt fails: textual IR is tried. -/
theorem compileSource_fallback (hformat : config.compileIRFormat = .bc)
    {res : Option CompileResult} {error : CppString}
    (hfirst : attempt [] (L.firstArgs config args cachePaths) .toFile = (res, error))
    (hfailed : succeeded res = false) :
    (L.compileSource P config filename language args workingDir cachePaths files attempt).result =
      (L.finishText P filename language none []
        (if (attempt error args .toMemory).1.isSome then attempt error args .toMemory
        else (res, (attempt error args .toMemory).2))).result := by
  have hmode : firstMode config = .toFile := if_pos hformat
  unfold compileSource
  simp only [hformat, hmode, hfirst, hfailed, Bool.not_false, and_self, if_true]

/-- To bitcode, where the first attempt succeeds: its bitcode is parsed, if that is possible. -/
theorem compileSource_bitcode (hformat : config.compileIRFormat = .bc) {res : CompileResult}
    {error : CppString}
    (hfirst : attempt [] (L.firstArgs config args cachePaths) .toFile = (some res, error))
    (hsuccess : res.success) :
    (L.compileSource P config filename language args workingDir cachePaths files attempt).result =
      match if res.bitcode = [] then none else P.parseBitcodeFile res.bitcode with
      | some module => L.moduleResult filename language res.diagnostics module error
      | none =>
        (L.finishText P filename language none [] (attempt error args .toMemory)).result := by
  have hmode : firstMode config = .toFile := if_pos hformat
  have hsucceeded : succeeded (some res) = true := hsuccess
  unfold compileSource
  simp only [hformat, hmode, hfirst, hsucceeded, Bool.not_true, Bool.false_eq_true, and_false,
    if_false, decide_true]
  cases hparsed : if res.bitcode = [] then none else P.parseBitcodeFile res.bitcode with
  | some module =>
    rw [CompileResult.bitcode] at hparsed
    simp only [hparsed]
    rfl
  | none =>
    rw [CompileResult.bitcode] at hparsed
    simp only [hparsed]
    exact finishText_result _ _ _

end Compiling

section Bitcode

variable {args : List CppString} {jobs : UInt32} {cachePaths : CompileIRCachePaths}
  (hjobs : 1 < jobs) (hdir : workingDir ≠ []) (hformat : config.compileIRFormat = .bc)
  (hbitcode : L.SameBitcode filename
    (L.inProcess files (L.firstArgs config args cachePaths) .toFile)
    (L.inCommand workingDir files (L.firstArgs config args cachePaths) .toFile))
  (htext : L.SameText filename (L.inProcess files args .toMemory)
    (L.inCommand workingDir files args .toMemory))

include hjobs hdir hformat hbitcode htext

/-- The result is the same if the directory of the command can be entered. -/
theorem compileSource_congr_entered {dir : CppString}
    (hcommand : ∀ args mode, L.inCommand workingDir files args mode =
      some (L.compiler.compile args mode dir files.contents))
    (hattempt : ∀ error args mode, L.commandAttempt workingDir files error args mode =
      (some (L.compiler.compile args mode dir files.contents), error)) :
    (L.compileSource P config filename language args workingDir cachePaths files
      (L.compileWithConfiguredWorkingDir { config with jobs := jobs } workingDir files)).result =
    (L.compileSource P config filename language args workingDir cachePaths files
      (L.commandAttempt workingDir files)).result := by
  have hmore := L.compile_severalJobs hjobs hdir config files
  have htexts : ∀ error, (L.finishText P filename language none []
      (L.compileWithConfiguredWorkingDir { config with jobs := jobs } workingDir files error args
        .toMemory)).result = (L.finishText P filename language none []
          (L.commandAttempt workingDir files error args .toMemory)).result :=
    fun error => finishText_congr hjobs hdir htext error
  have hfirst := hattempt [] (L.firstArgs config args cachePaths) .toFile
  -- a first attempt in the directory of the command that fails leaves textual IR
  have hfallback : ∀ attempt : CppString → List CppString → OutputMode →
        Option CompileResult × CppString,
      attempt [] (L.firstArgs config args cachePaths) .toFile =
        (some (L.compiler.compile (L.firstArgs config args cachePaths) .toFile dir files.contents),
          []) →
      (L.compiler.compile (L.firstArgs config args cachePaths) .toFile dir
        files.contents).success = false →
      (attempt [] args .toMemory).1.isSome →
      (L.compileSource P config filename language args workingDir cachePaths files attempt).result =
        (L.finishText P filename language none [] (attempt [] args .toMemory)).result := by
    intro attempt hattempt hfailed hsome
    rw [compileSource_fallback hformat hattempt (by simpa [succeeded] using hfailed), if_pos hsome]
  have hsingle : (L.commandAttempt workingDir files [] args .toMemory).1.isSome := by
    rw [hattempt]
    rfl
  by_cases hp : (L.inProcess files (L.firstArgs config args cachePaths) .toFile).success
  · have hfirst' := hmore [] (L.firstArgs config args cachePaths) .toFile
    rw [if_pos hp] at hfirst'
    have hsame := hbitcode hp
    rw [compileSource_bitcode hformat hfirst' hp]
    split_ifs at hsame with hempty
    · rw [if_pos hempty]
      by_cases hw : (L.compiler.compile (L.firstArgs config args cachePaths) .toFile dir
          files.contents).success
      · rw [compileSource_bitcode hformat hfirst hw, if_pos (hsame _ (hcommand _ _) hw)]
        exact htexts []
      · rw [hfallback _ hfirst (by simpa using hw) hsingle]
        exact htexts []
    · obtain ⟨r, hr, hrsuccess, hrbitcode, hdiagnostics⟩ := hsame
      obtain rfl := Option.some.inj ((hcommand _ _).symm.trans hr)
      rw [compileSource_bitcode hformat hfirst hrsuccess, hrbitcode]
      split
      · exact moduleResult_congr hdiagnostics _
      · exact htexts []
  · have hfirst' := hmore [] (L.firstArgs config args cachePaths) .toFile
    rw [if_neg hp, hfirst] at hfirst'
    by_cases hw : (L.compiler.compile (L.firstArgs config args cachePaths) .toFile dir
        files.contents).success
    · rw [compileSource_bitcode hformat hfirst' hw, compileSource_bitcode hformat hfirst hw,
        htexts []]
    · have hsome : (L.compileWithConfiguredWorkingDir { config with jobs := jobs } workingDir files
          [] args .toMemory).1.isSome := by
        rw [hmore, hattempt]
        split_ifs <;> rfl
      rw [hfallback _ hfirst' (by simpa using hw) hsome,
        hfallback _ hfirst (by simpa using hw) hsingle]
      exact htexts []

/-- The result is the same if the directory of the command cannot be entered. -/
theorem compileSource_congr_refused {failure : CppString}
    (hcommand : ∀ args mode, L.inCommand workingDir files args mode = none)
    (hattempt : ∀ error args mode, L.commandAttempt workingDir files error args mode =
      (none, failure)) :
    (L.compileSource P config filename language args workingDir cachePaths files
      (L.compileWithConfiguredWorkingDir { config with jobs := jobs } workingDir files)).result =
    (L.compileSource P config filename language args workingDir cachePaths files
      (L.commandAttempt workingDir files)).result := by
  have hmore := L.compile_severalJobs hjobs hdir config files
  have hfirst := hattempt [] (L.firstArgs config args cachePaths) .toFile
  -- textual IR does not succeed in the directory of the process either
  have hnotext : (L.inProcess files args .toMemory).success = false := by
    by_contra h
    obtain ⟨r, hr, -⟩ := htext (by simpa using h)
    simp [hcommand] at hr
  have htexts : ∀ error, L.compileWithConfiguredWorkingDir { config with jobs := jobs } workingDir
      files error args .toMemory = (none, failure) := by
    intro error
    rw [hmore, hnotext, hattempt]
    rfl
  rw [compileSource_fallback hformat hfirst rfl, hattempt]
  by_cases hp : (L.inProcess files (L.firstArgs config args cachePaths) .toFile).success
  · have hfirst' := hmore [] (L.firstArgs config args cachePaths) .toFile
    rw [if_pos hp] at hfirst'
    have hsame := hbitcode hp
    rw [compileSource_bitcode hformat hfirst' hp]
    split_ifs at hsame with hempty
    · rw [if_pos hempty, htexts]
      rfl
    · obtain ⟨r, hr, -⟩ := hsame
      simp [hcommand] at hr
  · have hfirst' := hmore [] (L.firstArgs config args cachePaths) .toFile
    rw [if_neg hp, hfirst] at hfirst'
    rw [compileSource_fallback hformat hfirst' rfl, htexts]

end Bitcode

/-- **Attempts that do not depend on the directory give the same result.**

**Proof sketch.** Where the first attempt succeeds in the directory of the process, its bitcode is
the same in that of the command, or there is none in both and textual IR is tried. Where it fails,
both runs go on from the directory of the command, and textual IR is the same. -/
theorem compileSource_congr {args : List CppString} {jobs : UInt32} (hjobs : 1 < jobs)
    (hdir : workingDir ≠ []) (hfree : L.DirectoryFree filename config args workingDir files) :
    let cachePaths := L.paths.buildCompileIRCachePaths config filename
      (detectFromExtension filename) args workingDir
    (L.compileSource P config filename language args workingDir cachePaths files
      (L.compileWithConfiguredWorkingDir { config with jobs := jobs } workingDir files)).result =
    (L.compileSource P config filename language args workingDir cachePaths files
      (L.commandAttempt workingDir files)).result := by
  intro cachePaths
  by_cases hformat : config.compileIRFormat = .bc
  · rw [DirectoryFree, if_pos hformat] at hfree
    rcases L.commandAttempt_cases workingDir files with
      ⟨dir, hcommand, hattempt⟩ | ⟨failure, -, hcommand, hattempt⟩
    · exact compileSource_congr_entered hjobs hdir hformat hfree.1 hfree.2 hcommand hattempt
    · exact compileSource_congr_refused hjobs hdir hformat hfree.1 hfree.2 hcommand hattempt
  · rw [DirectoryFree, if_neg hformat] at hfree
    rw [compileSource_text hformat, compileSource_text hformat]
    exact finishText_congr hjobs hdir hfree []

/-! ## Results that show the directory -/

/-- The result of a textual IR, with its module. -/
theorem finishText_success {res : CompileResult} (hsuccess : res.success) (error : CppString) :
    (L.finishText P filename language none [] (some res, error)).result =
      if res.llvmIR = [] then
        failedResult language "No LLVM IR produced by compilerlib::compile\n".toList
      else
        match P.parseIR res.llvmIR with
        | .error message =>
          failedResult language ("Failed to parse in-memory LLVM IR:\n".toList ++ message)
        | .ok module => L.moduleResult filename language res.diagnostics module error := by
  simp only [finishText, hsuccess, Bool.not_true, Bool.false_eq_true, if_false]
  split_ifs
  · rfl
  · cases P.parseIR res.llvmIR <;> rfl

/-- The result of a compilation that failed. -/
theorem finishText_failed {res : CompileResult} (hfailed : res.success = false)
    (error : CppString) :
    (L.finishText P filename language none [] (some res, error)).result =
      failedResult language ("Compilation failed:\n".toList ++ res.diagnostics ++ "\n".toList) := by
  simp [finishText, hfailed]

/-- Results with different first characters of their errors are different. -/
theorem failedResult_ne {error error' : CppString} (h : error.head? ≠ error'.head?) :
    (failedResult language error : ModuleLoadResult Module Diagnostic) ≠
      failedResult language error' := by
  intro heq
  apply h
  have := congrArg ModuleLoadResult.error heq
  simp only [failedResult] at this
  rw [this]

/-- A result with a module is none without. -/
theorem moduleResult_ne {text error error' : CppString} {module : Module} :
    L.moduleResult filename language text module error ≠ failedResult language error' := by
  intro heq
  exact absurd (congrArg ModuleLoadResult.module heq) (by simp [moduleResult, failedResult])

/-- **Equal results for all parsers mean equal text.**

**Proof sketch.** A parser that takes every text tells a success from a failure and shows the
diagnostics, and a parser that gives one text a module of its own tells the texts apart. -/
theorem sameText_of_results [Nontrivial Module] (language : LanguageType) {args : List CppString}
    {mode : OutputMode} (error : CppString)
    (h : (L.inProcess files args mode).success → ∀ parseIR : CppString → Except CppString Module,
      (L.finishText ⟨fun _ => none, parseIR⟩ filename language none []
        (some (L.inProcess files args mode), error)).result =
      (L.finishText ⟨fun _ => none, parseIR⟩ filename language none []
        (L.commandAttempt workingDir files [] args mode)).result) :
    L.SameText filename (L.inProcess files args mode) (L.inCommand workingDir files args mode) := by
  intro hp
  obtain ⟨m₁, m₂, hne⟩ := exists_pair_ne Module
  have hleft := fun parseIR : CppString → Except CppString Module =>
    (finishText_success hp error).symm.trans (h hp parseIR)
  rcases L.commandAttempt_cases workingDir files with
    ⟨dir, hcommand, hattempt⟩ | ⟨failure, hfailure, -, hattempt⟩
  · have hcommand := hcommand args mode
    have hattempt := hattempt [] args mode
    generalize L.compiler.compile args mode dir files.contents = w at hcommand hattempt
    have hsuccess : w.success := by
      by_contra hfailed
      have heq := hleft fun _ => .ok m₁
      rw [hattempt, finishText_failed (by simpa using hfailed)] at heq
      split_ifs at heq
      · exact failedResult_ne (by simp) heq
      · exact moduleResult_ne heq
    simp only [hattempt, finishText_success hsuccess] at hleft
    have hir : w.llvmIR = (L.inProcess files args mode).llvmIR := by
      by_contra hdiff
      have heq := hleft fun text =>
        .ok (if text = (L.inProcess files args mode).llvmIR then m₁ else m₂)
      simp only [if_true, if_neg hdiff] at heq
      split_ifs at heq with hempty hempty' hempty'
      · exact hdiff (hempty'.trans hempty.symm)
      · exact moduleResult_ne heq.symm
      · exact moduleResult_ne heq
      · exact hne (Option.some.inj (congrArg ModuleLoadResult.module heq))
    refine ⟨w, hcommand, hsuccess, hir, ?_⟩
    intro hnonempty module
    have heq := hleft fun _ => .ok module
    rw [if_neg hnonempty, if_neg (hir ▸ hnonempty)] at heq
    exact congrArg ModuleLoadResult.frontendDiagnostics heq
  · have heq := hleft fun _ => .ok m₁
    rw [hattempt] at heq
    split_ifs at heq
    · exact absurd heq (failedResult_ne (by rw [hfailure]; simp))
    · exact absurd heq moduleResult_ne

section Bitcode

variable {args : List CppString} {jobs : UInt32} {cachePaths : CompileIRCachePaths}
  (hformat : config.compileIRFormat = .bc)

include hformat

/-- Without parsable bitcode one job loads the textual IR of the directory of the command. -/
theorem compileSource_oneJob_noBitcode (parseIR : CppString → Except CppString Module) :
    (L.compileSource ⟨fun _ => none, parseIR⟩ config filename language args workingDir cachePaths
        files (L.commandAttempt workingDir files)).result =
      (L.finishText ⟨fun _ => none, parseIR⟩ filename language none []
        (L.commandAttempt workingDir files [] args .toMemory)).result := by
  rcases L.commandAttempt_cases workingDir files with
    ⟨dir, -, hattempt⟩ | ⟨failure, -, -, hattempt⟩
  · have hfirst := hattempt [] (L.firstArgs config args cachePaths) .toFile
    cases hw : (L.compiler.compile (L.firstArgs config args cachePaths) .toFile dir
        files.contents).success with
    | true =>
      rw [compileSource_bitcode hformat hfirst hw]
      simp only [ite_self]
    | false =>
      rw [compileSource_fallback hformat hfirst (by simpa [succeeded] using hw), hattempt]
      rfl
  · rw [compileSource_fallback hformat (hattempt _ _ _) rfl, hattempt, hattempt]
    rfl

/-- Without parsable bitcode several jobs load the textual IR of the directory of the process, if it
succeeds there. -/
theorem compileSource_severalJobs_noBitcode (hjobs : 1 < jobs) (hdir : workingDir ≠ [])
    (hp : (L.inProcess files args .toMemory).success) :
    ∃ error, ∀ parseIR : CppString → Except CppString Module,
      (L.compileSource ⟨fun _ => none, parseIR⟩ config filename language args workingDir cachePaths
        files (L.compileWithConfiguredWorkingDir { config with jobs := jobs } workingDir
          files)).result =
      (L.finishText ⟨fun _ => none, parseIR⟩ filename language none []
        (some (L.inProcess files args .toMemory), error)).result := by
  have hmore := L.compile_severalJobs hjobs hdir config files
  have hsecond : ∀ error, L.compileWithConfiguredWorkingDir { config with jobs := jobs } workingDir
      files error args .toMemory = (some (L.inProcess files args .toMemory), error) := by
    intro error
    rw [hmore, if_pos hp]
  cases hfirst : L.compileWithConfiguredWorkingDir { config with jobs := jobs } workingDir files []
      (L.firstArgs config args cachePaths) .toFile with
  | mk res error =>
    refine ⟨error, fun parseIR => ?_⟩
    cases hres : succeeded res with
    | false =>
      rw [compileSource_fallback hformat hfirst hres, hsecond]
      rfl
    | true =>
      cases res with
      | none => simp [succeeded] at hres
      | some res =>
        rw [compileSource_bitcode hformat hfirst hres, hsecond]
        simp only [ite_self]

omit hformat in
/-- Textual IR never gives a module that its parser does not give. -/
theorem finishText_module_ne {m₁ m₂ : Module} (hne : m₁ ≠ m₂) {parse : CppString → Option Module}
    (attempt : Option CompileResult × CppString) :
    (L.finishText ⟨parse, fun _ => .ok m₂⟩ filename language none [] attempt).result.module ≠
      some m₁ := by
  obtain ⟨res, error⟩ := attempt
  cases res with
  | none => simp [finishText, failedResult]
  | some res =>
    simp only [finishText]
    split_ifs
    · simp [failedResult]
    · simp [failedResult]
    · simpa [finish, moduleResult] using hne.symm

/-- **Equal results for all parsers mean equal bitcode.**

**Proof sketch.** A module that only bitcode gives tells whether there is bitcode, a parser that
gives one text a module of its own tells the bitcodes apart, and a module shows the diagnostics. -/
theorem sameBitcode_of_results [Nontrivial Module] (hjobs : 1 < jobs) (hdir : workingDir ≠ [])
    (h : ∀ P : Parsers Module,
      (L.compileSource P config filename language args workingDir cachePaths files
        (L.compileWithConfiguredWorkingDir { config with jobs := jobs } workingDir files)).result =
      (L.compileSource P config filename language args workingDir cachePaths files
        (L.commandAttempt workingDir files)).result) :
    L.SameBitcode filename (L.inProcess files (L.firstArgs config args cachePaths) .toFile)
      (L.inCommand workingDir files (L.firstArgs config args cachePaths) .toFile) := by
  intro hp
  obtain ⟨m₁, m₂, hne⟩ := exists_pair_ne Module
  have hmore := L.compile_severalJobs hjobs hdir config files
  have hleft := hmore [] (L.firstArgs config args cachePaths) .toFile
  rw [if_pos hp] at hleft
  split_ifs with hempty
  · -- no bitcode in the directory of the process
    intro r hr hrsuccess
    by_contra hbitcode
    rcases L.commandAttempt_cases workingDir files with
      ⟨dir, hcommand, hattempt⟩ | ⟨failure, -, hcommand, -⟩
    · obtain rfl := Option.some.inj ((hcommand _ _).symm.trans hr)
      have heq := h ⟨fun _ => some m₁, fun _ => .ok m₂⟩
      rw [compileSource_bitcode hformat hleft hp, if_pos hempty,
        compileSource_bitcode hformat (hattempt _ _ _) hrsuccess, if_neg hbitcode] at heq
      exact finishText_module_ne hne _ (congrArg ModuleLoadResult.module heq)
    · simp [hcommand] at hr
  · -- the bitcode is found in the directory of the command
    have hmodule := congrArg ModuleLoadResult.module (h ⟨fun _ => some m₁, fun _ => .ok m₂⟩)
    rw [compileSource_bitcode hformat hleft hp, if_neg hempty] at hmodule
    rcases L.commandAttempt_cases workingDir files with
      ⟨dir, hcommand, hattempt⟩ | ⟨failure, -, -, hattempt⟩
    · have hcommand := hcommand (L.firstArgs config args cachePaths) .toFile
      have hfirst := hattempt [] (L.firstArgs config args cachePaths) .toFile
      generalize L.compiler.compile (L.firstArgs config args cachePaths) .toFile dir
        files.contents = w at hcommand hfirst
      have hsuccess : w.success := by
        by_contra hfailed
        rw [compileSource_fallback hformat hfirst (by simpa [succeeded] using hfailed)] at hmodule
        exact finishText_module_ne hne _ hmodule.symm
      have hbitcode : w.bitcode ≠ [] := by
        intro hnone
        rw [compileSource_bitcode hformat hfirst hsuccess, if_pos hnone] at hmodule
        exact finishText_module_ne hne _ hmodule.symm
      have hresult : ∀ parse : CppString → Module, _ := fun parse =>
        h ⟨fun text => some (parse text), fun _ => .ok m₂⟩
      simp only [compileSource_bitcode hformat hleft hp, if_neg hempty,
        compileSource_bitcode hformat hfirst hsuccess, if_neg hbitcode] at hresult
      refine ⟨w, hcommand, hsuccess, ?_, ?_⟩
      · by_contra hdiff
        have heq := hresult fun text => if text = (L.inProcess files
          (L.firstArgs config args cachePaths) .toFile).bitcode then m₁ else m₂
        rw [if_pos rfl, if_neg hdiff] at heq
        exact hne (Option.some.inj (congrArg ModuleLoadResult.module heq))
      · intro module
        exact congrArg ModuleLoadResult.frontendDiagnostics (hresult fun _ => module)
    · rw [compileSource_fallback hformat (hattempt _ _ _) rfl] at hmodule
      exact absurd hmodule.symm (finishText_module_ne hne _)

end Bitcode

/-- **Equal results for all parsers mean that the attempts do not depend on the directory.** -/
theorem directoryFree_of_results [Nontrivial Module] (language : LanguageType)
    {args : List CppString} {jobs : UInt32}
    (hjobs : 1 < jobs) (hdir : workingDir ≠ [])
    (h : ∀ P : Parsers Module,
      (L.compileSource P config filename language args workingDir
        (L.paths.buildCompileIRCachePaths config filename (detectFromExtension filename) args
          workingDir) files
        (L.compileWithConfiguredWorkingDir { config with jobs := jobs } workingDir files)).result =
      (L.compileSource P config filename language args workingDir
        (L.paths.buildCompileIRCachePaths config filename (detectFromExtension filename) args
          workingDir) files (L.commandAttempt workingDir files)).result) :
    L.DirectoryFree filename config args workingDir files := by
  have hmore := L.compile_severalJobs hjobs hdir config files
  unfold DirectoryFree
  by_cases hformat : config.compileIRFormat = .bc
  · rw [if_pos hformat]
    refine ⟨sameBitcode_of_results hformat hjobs hdir h, ?_⟩
    by_cases hp : (L.inProcess files args .toMemory).success
    · obtain ⟨error, herror⟩ := compileSource_severalJobs_noBitcode hformat hjobs hdir hp
      refine sameText_of_results language error fun _ parseIR => ?_
      rw [← herror parseIR, h, compileSource_oneJob_noBitcode hformat]
    · exact fun hsuccess => absurd hsuccess hp
  · rw [if_neg hformat]
    refine sameText_of_results language [] fun hp parseIR => ?_
    have heq := h ⟨fun _ => none, parseIR⟩
    rw [compileSource_text hformat, compileSource_text hformat, hmore, if_pos hp] at heq
    exact heq

/-! ## Loading -/

/-- Loading a source file whose entry is not in the cache, or cannot be parsed. -/
theorem load_eq {args : List CppString} {cache : CacheFiles}
    (hsource : detectFromExtension filename = .c ∨ detectFromExtension filename = .cxx)
    (hargs : L.paths.buildCompileArgs filename (detectFromExtension filename) config =
      .ok (args, workingDir)) (jobs : UInt32) :
    (L.loadModuleForAnalysis P filename { config with jobs := jobs } files cache).1 =
      match (L.paths.loadCompileIRCachePayload L.json (L.paths.buildCompileIRCachePaths config
          filename (detectFromExtension filename) args workingDir) cache files).bind fun payload =>
          (P.parseCached config payload).map (payload, ·) with
      | some (payload, module) =>
        L.moduleResult filename (detectFromExtension filename) payload.diagnostics module []
      | none =>
        (L.compileSource P config filename (detectFromExtension filename) args workingDir
          (L.paths.buildCompileIRCachePaths config filename (detectFromExtension filename) args
            workingDir) files
          (L.compileWithConfiguredWorkingDir { config with jobs := jobs } workingDir
            files)).result := by
  have hknown : detectFromExtension filename ≠ .unknown := by
    rcases hsource with h | h <;> rw [h] <;> decide
  have hcode : detectFromExtension filename ≠ .llvmIR := by
    rcases hsource with h | h <;> rw [h] <;> decide
  have hargs' : L.paths.buildCompileArgs filename (detectFromExtension filename)
      { config with jobs := jobs } = .ok (args, workingDir) := hargs
  have hpaths : L.paths.buildCompileIRCachePaths { config with jobs := jobs } filename
      (detectFromExtension filename) args workingDir = L.paths.buildCompileIRCachePaths config
        filename (detectFromExtension filename) args workingDir := rfl
  have hparse : P.parseCached { config with jobs := jobs } = P.parseCached config := rfl
  have hcompile : L.compileSource P { config with jobs := jobs } = L.compileSource P config := rfl
  simp only [loadModuleForAnalysis, if_neg hknown, if_neg hcode, hargs', hpaths, hparse, hcompile]
  split <;> simp only [*]

/-- Loading a source file with an empty cache. -/
theorem load_miss {args : List CppString}
    (hsource : detectFromExtension filename = .c ∨ detectFromExtension filename = .cxx)
    (hargs : L.paths.buildCompileArgs filename (detectFromExtension filename) config =
      .ok (args, workingDir)) (jobs : UInt32) :
    (L.loadModuleForAnalysis P filename { config with jobs := jobs } files fun _ => none).1 =
      (L.compileSource P config filename (detectFromExtension filename) args workingDir
        (L.paths.buildCompileIRCachePaths config filename (detectFromExtension filename) args
          workingDir) files
        (L.compileWithConfiguredWorkingDir { config with jobs := jobs } workingDir
          files)).result := by
  have hmiss : ∀ paths, L.paths.loadCompileIRCachePayload L.json paths (fun _ => none) files =
      none := by
    intro paths
    unfold Surroundings.loadCompileIRCachePayload
    split_ifs <;> rfl
  rw [load_eq hsource hargs, hmiss]
  rfl

end SourceLoader

open SourceLoader

/-- **Loading with several jobs**: whatever the parsers do and whatever is in the cache, several
jobs load what one job loads if and only if the attempts do not depend on the directory.

**Proof sketch.** An entry of the cache is the same for all numbers of jobs. Without one the results
are those of compiling, which are equal for all parsers exactly if what succeeds in the directory of
the process gives the same in that of the command. -/
theorem sameLoad_iff {Module Diagnostic : Type} [Nontrivial Module]
    (L : SourceLoader Module Diagnostic) (filename : CppString) (config : AnalysisConfig)
    (jobs : UInt32) (files : Files) (args : List CppString) (workingDir : CppString)
    (hsource : detectFromExtension filename = .c ∨ detectFromExtension filename = .cxx)
    (hargs : L.paths.buildCompileArgs filename (detectFromExtension filename) config =
      .ok (args, workingDir))
    (hdir : workingDir ≠ []) (hjobs : 1 < jobs) :
    (∀ P cache, L.SameLoad P filename config jobs files cache) ↔
      L.DirectoryFree filename config args workingDir files := by
  constructor
  · intro h
    refine directoryFree_of_results (detectFromExtension filename) hjobs hdir fun P => ?_
    have heq := h P fun _ => none
    rw [SameLoad, load_miss hsource hargs, load_miss hsource hargs, compile_oneJob hdir] at heq
    exact heq
  · intro hfree P cache
    rw [SameLoad, load_eq hsource hargs, load_eq hsource hargs, compile_oneJob hdir]
    split
    · rfl
    · exact compileSource_congr hjobs hdir hfree

/-! ## A header in two directories -/

/-- A compiler for a file with `#include <defs.h>`, where the header is looked for in the current
directory and has the value of a global variable. -/
def headerCompiler : Compiler where
  compile _ mode dir contents :=
    match contents (dir ++ "/defs.h".toList) with
    | none => ⟨false, [], "fatal error: 'defs.h' file not found".toList, none, none⟩
    | some value =>
      let ir := "@version = global i32 ".toList ++ value
      if mode = .toFile then ⟨true, [], [], some ir, none⟩ else ⟨true, ir, [], none, none⟩
  reads _ _ dir _ := {dir ++ "/defs.h".toList}
  determined h := by simp only [h _ rfl]

/-- A loader for the command of `/proj/a.c` in a process that runs in `/work`. Modules are texts. -/
def headerLoader : SourceLoader CppString CppString where
  paths :=
    { rootSurroundings with
      databasePaths := plainFiles
      compilationDatabase := some ⟨"/proj/compile_commands.json".toList,
        ⟨[("/proj/a.c".toList, ⟨"/proj".toList, ["-I.".toList]⟩)], List.nodup_singleton _⟩⟩
      processDir := "/work".toList
      currentPath := some "/work".toList
      changeDirectory := some
      tempBitcodePath := "/tmp/a.bc".toList }
  compiler := headerCompiler
  json := ⟨fun _ => [], fun _ => none⟩
  access := ⟨fun _ => true, fun _ => true⟩
  tools :=
    { writeBitcodeToFile := fun module => 'B' :: module
      writeBitcodeToFile_ne_nil := fun _ => List.cons_ne_nil _ _
      collectFrontendDiagnostics := fun text _ _ => [text]
      dumpModuleIR := fun _ _ => none
      loadIRInput := fun _ => {} }

/-- The source file, with the header in the directory of its command. -/
def projectFiles : Files := fun path =>
  if path = "/proj/a.c".toList then some ⟨"#include <defs.h>".toList, 1⟩
  else if path = "/proj/defs.h".toList then some ⟨"2".toList, 1⟩
  else none

/-- The same files, and another header of that name in the directory of the process. -/
def projectAndWorkFiles : Files := fun path =>
  if path = "/work/defs.h".toList then some ⟨"1".toList, 1⟩ else projectFiles path

/-- Parsers that take every text. -/
def textParsers : Parsers CppString := ⟨some, .ok⟩

/-- The arguments of the command. -/
def headerArgs : List CppString :=
  ["-I.".toList, "-emit-llvm".toList, "-S".toList, "-g".toList,
    "-fno-discard-value-names".toList, "/proj/a.c".toList]

/-- With the header in the directory of the command only, two jobs load what one job loads. -/
theorem sameLoad_iff_projectHeader :
    headerLoader.SameLoad textParsers "/proj/a.c".toList {} 2 projectFiles fun _ => none := by
  refine (sameLoad_iff headerLoader "/proj/a.c".toList {} 2 projectFiles headerArgs "/proj".toList
    (Or.inl (by decide +kernel)) (by decide +kernel) (by decide) (by decide)).mpr ?_ _ _
  have hmissing : projectFiles.contents ("/work".toList ++ "/defs.h".toList) = none := by
    decide +kernel
  have hfailed : ∀ args mode, (headerLoader.inProcess projectFiles args mode).success = false := by
    intro args mode
    show (headerCompiler.compile args mode "/work".toList projectFiles.contents).success = false
    simp only [headerCompiler, hmissing]
  refine ⟨?_, ?_⟩
  · intro h
    rw [hfailed] at h
    exact absurd h (by decide)
  · intro h
    rw [hfailed] at h
    exact absurd h (by decide)

/-- **Another header in the directory of the process** is used with two jobs. -/
theorem not_sameLoad_workHeader :
    (headerLoader.loadModuleForAnalysis textParsers "/proj/a.c".toList { jobs := 2 }
      projectAndWorkFiles fun _ => none).1.module = some "@version = global i32 1".toList ∧
    (headerLoader.loadModuleForAnalysis textParsers "/proj/a.c".toList { jobs := 1 }
      projectAndWorkFiles fun _ => none).1.module = some "@version = global i32 2".toList ∧
    ¬headerLoader.SameLoad textParsers "/proj/a.c".toList {} 2 projectAndWorkFiles
      fun _ => none := by
  have htwo : (headerLoader.loadModuleForAnalysis textParsers "/proj/a.c".toList { jobs := 2 }
      projectAndWorkFiles fun _ => none).1.module = some "@version = global i32 1".toList := by
    decide +kernel
  have hone : (headerLoader.loadModuleForAnalysis textParsers "/proj/a.c".toList { jobs := 1 }
      projectAndWorkFiles fun _ => none).1.module = some "@version = global i32 2".toList := by
    decide +kernel
  refine ⟨htwo, hone, ?_⟩
  intro hsame
  have hmodule := congrArg ModuleLoadResult.module hsame
  exact absurd (htwo.symm.trans (hmodule.trans hone)) (by decide +kernel)

end StackAnalyzer.Loader
