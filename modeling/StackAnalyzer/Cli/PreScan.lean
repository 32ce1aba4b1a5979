import StackAnalyzer.Cli.Override

set_option relaxedAutoImplicit false
set_option autoImplicit false

/-!
# The two readings of a command line

The arguments are read twice, and only the second reading knows which options take the next argument
as their value. The first one looks at every argument, so it also takes the value of another option
for a `--config` option if it looks like one.

## Main definitions

* `StackAnalyzer.Cli.scannedConfigs` — what the first reading takes for the configuration file.
* `StackAnalyzer.Cli.consumedConfigs` — the `--config` options of the second reading.
* `StackAnalyzer.Cli.separateValues` — the values that are arguments of their own.
* `StackAnalyzer.Cli.PreScanAgrees` — both readings agree on the configuration file.

## Main results

* `StackAnalyzer.Cli.recognize_eq_of_recognizeConfig` — both read an argument by itself alike.
* `StackAnalyzer.Cli.scannedConfigs_eq` — when they take the same for the configuration file.
* `StackAnalyzer.Cli.preScanAgrees_iff` — when they agree.
-/

namespace StackAnalyzer.Cli

open App CrossTU Maps

/-! ## The two readings -/

/-- What `consumeLongOptionValue` makes of an argument for `--config`. -/
def recognizeConfig (arg : CppString) : Option Recognized :=
  (Form.valued "--config").recognize .config arg

/-- The values that the first reading takes for the configuration file, with the positions of the
options, where the first argument has a given position. -/
def scannedConfigs : ℕ → List CppString → List (ℕ × CppString)
  | _, [] => []
  | n, arg :: rest =>
    match recognizeConfig arg with
    | some (.separate _ _) =>
      match rest with
      | [] => []
      | value :: rest' => (n, value) :: scannedConfigs (n + 2) rest'
    | some (.complete _ value) => (n, value) :: scannedConfigs (n + 1) rest
    | _ => scannedConfigs (n + 1) rest

/-- The options of the second reading, with their positions and values. -/
def optionsAt : ℕ → List CppString → List (ℕ × CliOption × CppString)
  | _, [] => []
  | n, arg :: rest =>
    match recognize arg with
    | .unknown => []
    | .complete option value => (n, option, value) :: optionsAt (n + 1) rest
    | .separate option _ =>
      match rest with
      | [] => []
      | value :: rest' => (n, option, value) :: optionsAt (n + 2) rest'

/-- The `--config` options of the second reading, with their positions. -/
def consumedConfigs (n : ℕ) (args : List CppString) : List (ℕ × CppString) :=
  (optionsAt n args).filterMap fun found =>
    if found.2.1 = .config then some (found.1, found.2.2) else none

/-- The values that are arguments of their own, with their options. -/
def separateValues : List CppString → List (CliOption × CppString)
  | [] => []
  | arg :: rest =>
    match recognize arg with
    | .unknown => []
    | .complete _ _ => separateValues rest
    | .separate option _ =>
      match rest with
      | [] => []
      | value :: rest' => (option, value) :: separateValues rest'

/-- The value of the last `--config` option of the second reading, empty if there is none. -/
def lastConfig (args : List CppString) : CppString :=
  (((consumedConfigs 0 args).map Prod.snd).getLast?).getD []

/-- **Both readings agree**: the configuration file that is loaded is that of the last `--config`
option, it is the one that the settings name, and nothing else is taken for such an option. -/
structure PreScanAgrees (args : List CppString) (parsed : ParsedArguments) : Prop where
  loaded : ∃ outMeta, preScanMetaOptions args ⟨[], false⟩ = .ok outMeta ∧
    outMeta.configPath = lastConfig args
  named : parsed .configPath = lastConfig args
  onlyOptions : ∀ taken ∈ scannedConfigs 0 args, taken ∈ consumedConfigs 0 args

/-! ## One argument -/

section OneArgument

variable {arg : CppString} {r : Recognized}

/-- What is recognized is the option that is compared. -/
theorem Form.option_of_recognize {form : Form} {option : CliOption}
    (h : form.recognize option arg = some r) :
    (∃ name, r = .separate option name) ∨ ∃ value, r = .complete option value := by
  cases form with
  | flag name =>
    rw [Form.recognize] at h
    split_ifs at h
    exact Or.inr ⟨_, (Option.some.inj h).symm⟩
  | valued name =>
    rw [Form.recognize] at h
    split_ifs at h
    · exact Or.inl ⟨_, (Option.some.inj h).symm⟩
    · exact Or.inr ⟨_, (Option.some.inj h).symm⟩
  | joined name =>
    rw [Form.recognize] at h
    split_ifs at h
    · exact Or.inl ⟨_, (Option.some.inj h).symm⟩
    · exact Or.inr ⟨_, (Option.some.inj h).symm⟩
  | attached name =>
    rw [Form.recognize] at h
    split_ifs at h
    exact Or.inr ⟨_, (Option.some.inj h).symm⟩

/-- An argument that is a flag of another option is not taken for `--config`. -/
theorem recognize_flag_eq_none (h : recognizeConfig arg = some r) {option : CliOption}
    {name : String} (hname : recognizeConfig name.toList = none) :
    (Form.flag name).recognize option arg = none := by
  rw [Form.recognize]
  refine if_neg fun harg => ?_
  rw [harg, hname] at h
  cases h

/-- **Both readings read an argument alike**: one that the first takes for `--config` is that option
for the second too. -/
theorem recognize_eq_of_recognizeConfig (h : recognizeConfig arg = some r) :
    recognize arg = r := by
  have hfound : cliForms.findSome? (fun form => form.2.recognize form.1 arg) = some r := by
    rw [cliForms, firstForms]
    -- the flags in front of `--config` are other arguments
    simp only [List.cons_append, List.findSome?_cons,
      recognize_flag_eq_none h (show recognizeConfig "-h".toList = none by decide),
      recognize_flag_eq_none h (show recognizeConfig "--help".toList = none by decide),
      recognize_flag_eq_none h (show recognizeConfig "--demangle".toList = none by decide),
      recognize_flag_eq_none h (show recognizeConfig "--quiet".toList = none by decide),
      recognize_flag_eq_none h (show recognizeConfig "--verbose".toList = none by decide),
      recognize_flag_eq_none h
        (show recognizeConfig "--print-effective-config".toList = none by decide)]
    unfold recognizeConfig at h
    rw [h]
  rw [recognize, hfound]

/-- `--config` is written in one way only. -/
theorem form_of_config {form : CliOption × Form} (h : form ∈ cliForms)
    (hoption : form.1 = .config) : form.2 = .valued "--config" := by
  have hall : ∀ form ∈ cliForms, form.1 = .config → form.2 = .valued "--config" := by
    simp [cliForms, firstForms, smtForms, lastForms]
  exact hall form h hoption

/-- What is recognized comes from one of the forms, or is an input file. -/
theorem exists_form_of_recognize (h : recognize arg = r) (hunknown : r ≠ .unknown) :
    (∃ form ∈ cliForms, form.2.recognize form.1 arg = some r) ∨ r = .complete .inputFile arg := by
  rw [recognize] at h
  cases hfound : cliForms.findSome? (fun form => form.2.recognize form.1 arg) with
  | some found =>
    rw [hfound] at h
    obtain rfl := h
    obtain ⟨form, hform, hfound⟩ := List.exists_of_findSome?_eq_some hfound
    exact Or.inl ⟨form, hform, hfound⟩
  | none =>
    rw [hfound] at h
    dsimp only at h
    split_ifs at h
    · exact absurd h.symm hunknown
    · exact Or.inr h.symm

/-- An option with an attached value is `--config` for both readings or for none. -/
theorem recognizeConfig_of_complete {option : CliOption} {value : CppString}
    (h : recognize arg = .complete option value) :
    recognizeConfig arg = if option = .config then some (.complete .config value) else none := by
  split_ifs with hoption
  · subst hoption
    rcases exists_form_of_recognize h Recognized.noConfusion with ⟨form, hform, hfound⟩ | heq
    · have hconfig : form.1 = .config := by
        rcases Form.option_of_recognize hfound with ⟨name, heq⟩ | ⟨value', heq⟩
        · cases heq
        · exact (Recognized.complete.inj heq).1.symm
      rw [form_of_config hform hconfig, hconfig] at hfound
      exact hfound
    · cases heq
  · cases hconfig : recognizeConfig arg with
    | none => rfl
    | some r =>
      have heq := (recognize_eq_of_recognizeConfig hconfig).symm.trans h
      rcases Form.option_of_recognize hconfig with ⟨name, rfl⟩ | ⟨value', rfl⟩
      · cases heq
      · exact absurd (Recognized.complete.inj heq).1.symm hoption

/-- An option whose value is the next argument is `--config` for both readings or for none. -/
theorem recognizeConfig_of_separate {option : CliOption} {name : String}
    (h : recognize arg = .separate option name) :
    recognizeConfig arg = if option = .config then some (.separate .config name) else none := by
  split_ifs with hoption
  · subst hoption
    rcases exists_form_of_recognize h Recognized.noConfusion with ⟨form, hform, hfound⟩ | heq
    · have hconfig : form.1 = .config := by
        rcases Form.option_of_recognize hfound with ⟨name', heq⟩ | ⟨value', heq⟩
        · exact (Recognized.separate.inj heq).1.symm
        · cases heq
      rw [form_of_config hform hconfig, hconfig] at hfound
      exact hfound
    · cases heq
  · cases hconfig : recognizeConfig arg with
    | none => rfl
    | some r =>
      have heq := (recognize_eq_of_recognizeConfig hconfig).symm.trans h
      rcases Form.option_of_recognize hconfig with ⟨name', rfl⟩ | ⟨value', rfl⟩
      · exact absurd (Recognized.separate.inj heq).1.symm hoption
      · cases heq

/-- An argument is not taken for `--config` if it is neither the option nor has its value. -/
theorem recognizeConfig_eq_none
    (hseparate : ∀ option name, recognizeConfig arg = some (.separate option name) → False)
    (hcomplete : ∀ option value, recognizeConfig arg = some (.complete option value) → False) :
    recognizeConfig arg = none := by
  cases hconfig : recognizeConfig arg with
  | none => rfl
  | some r =>
    rcases Form.option_of_recognize hconfig with ⟨name, rfl⟩ | ⟨value, rfl⟩
    · exact absurd hconfig (hseparate _ name)
    · exact absurd hconfig (hcomplete _ value)

end OneArgument

/-! ## All arguments -/

/-- The second reading gets to the end of the arguments. -/
def WellRead : List CppString → Prop
  | [] => True
  | arg :: rest =>
    match recognize arg with
    | .unknown => False
    | .complete _ _ => WellRead rest
    | .separate _ _ =>
      match rest with
      | [] => False
      | _ :: rest' => WellRead rest'

section Readings

variable {n : ℕ} {arg : CppString} {rest : List CppString}

theorem wellRead_of_complete {option : CliOption} {value : CppString}
    (h : recognize arg = .complete option value) : WellRead (arg :: rest) ↔ WellRead rest := by
  rw [WellRead.eq_def]
  simp only [h]

theorem scannedConfigs_of_none (h : recognizeConfig arg = none) :
    scannedConfigs n (arg :: rest) = scannedConfigs (n + 1) rest := by
  rw [scannedConfigs.eq_def]
  simp only [h]

theorem scannedConfigs_of_complete {option : CliOption} {value : CppString}
    (h : recognizeConfig arg = some (.complete option value)) :
    scannedConfigs n (arg :: rest) = (n, value) :: scannedConfigs (n + 1) rest := by
  rw [scannedConfigs.eq_def]
  simp only [h]

theorem scannedConfigs_of_separate {option : CliOption} {name : String}
    (h : recognizeConfig arg = some (.separate option name)) (value : CppString) :
    scannedConfigs n (arg :: value :: rest) = (n, value) :: scannedConfigs (n + 2) rest := by
  rw [scannedConfigs.eq_def]
  simp only [h]

end Readings

/-- An accepted command line is read to its end. -/
theorem wellRead_of_parseLoop {hardwareConcurrency : UInt32}
    {suggest : CppString → Option CppString} {args : List CppString}
    {parsed parsed' : ParsedArguments}
    (h : parseLoop hardwareConcurrency suggest args parsed = .ok parsed') : WellRead args := by
  induction args using cliActions.induct generalizing parsed parsed' with
  | case1 => exact trivial
  | case2 arg rest hunknown =>
    rw [parseLoop, hunknown] at h
    cases h
  | case3 arg rest option value hcomplete ih =>
    rw [wellRead_of_complete hcomplete]
    simp only [parseLoop, hcomplete] at h
    cases happly : applyOption hardwareConcurrency option value parsed with
    | inl next =>
      rw [happly] at h
      exact ih h
    | inr result =>
      rw [happly] at h
      have hok := happly.trans (congrArg Sum.inr h)
      exact absurd hok (applyOption_ne_ok option value parsed parsed')
  | case4 arg option name hseparate =>
    rw [parseLoop, hseparate] at h
    cases h
  | case5 arg option name hseparate value rest ih =>
    simp only [parseLoop, WellRead, hseparate] at h ⊢
    cases happly : applyOption hardwareConcurrency option value parsed with
    | inl next =>
      rw [happly] at h
      exact ih h
    | inr result =>
      rw [happly] at h
      have hok := happly.trans (congrArg Sum.inr h)
      exact absurd hok (applyOption_ne_ok option value parsed parsed')

/-- The values of the options on a command line, without their positions. -/
theorem map_optionsAt (n : ℕ) (args : List CppString) :
    (optionsAt n args).map Prod.snd = cliActions args := by
  induction args using cliActions.induct generalizing n with
  | case1 => rfl
  | case2 arg rest hunknown => simp only [optionsAt, cliActions, hunknown, List.map_nil]
  | case3 arg rest option value hcomplete ih =>
    simp only [optionsAt, cliActions, hcomplete, List.map_cons, ih]
  | case4 arg option name hseparate => simp only [optionsAt, cliActions, hseparate, List.map_nil]
  | case5 arg option name hseparate value rest ih =>
    simp only [optionsAt, cliActions, hseparate, List.map_cons, ih]

/-- An option stands where the reading is, or behind it. -/
theorem le_of_mem_optionsAt {n : ℕ} {args : List CppString} {found : ℕ × CliOption × CppString}
    (h : found ∈ optionsAt n args) : n ≤ found.1 := by
  induction args using cliActions.induct generalizing n with
  | case1 => exact absurd h List.not_mem_nil
  | case2 arg rest hunknown =>
    simp only [optionsAt, hunknown] at h
    exact absurd h List.not_mem_nil
  | case3 arg rest option value hcomplete ih =>
    simp only [optionsAt, hcomplete] at h
    rcases List.mem_cons.mp h with rfl | h
    · exact le_rfl
    · exact (Nat.le_succ n).trans (ih h)
  | case4 arg option name hseparate =>
    simp only [optionsAt, hseparate] at h
    exact absurd h List.not_mem_nil
  | case5 arg option name hseparate value rest ih =>
    simp only [optionsAt, hseparate] at h
    rcases List.mem_cons.mp h with rfl | h
    · exact le_rfl
    · exact (Nat.le_add_right n 2).trans (ih h)

/-- What the first reading takes stands where the reading is, or behind it. -/
theorem le_of_mem_scannedConfigs {n : ℕ} {args : List CppString} {taken : ℕ × CppString}
    (h : taken ∈ scannedConfigs n args) : n ≤ taken.1 := by
  induction n, args using scannedConfigs.induct with
  | case1 n => exact absurd h List.not_mem_nil
  | case2 n arg option name hseparate =>
    simp only [scannedConfigs, hseparate] at h
    exact absurd h List.not_mem_nil
  | case3 n arg option name hseparate value rest ih =>
    rw [scannedConfigs_of_separate hseparate] at h
    rcases List.mem_cons.mp h with rfl | h
    · exact le_rfl
    · exact (Nat.le_add_right n 2).trans (ih h)
  | case4 n arg rest option value hcomplete ih =>
    rw [scannedConfigs_of_complete hcomplete] at h
    rcases List.mem_cons.mp h with rfl | h
    · exact le_rfl
    · exact (Nat.le_succ n).trans (ih h)
  | case5 n arg rest hseparate hcomplete ih =>
    have hnone := recognizeConfig_eq_none hseparate hcomplete
    rw [scannedConfigs_of_none hnone] at h
    exact (Nat.le_succ n).trans (ih h)

theorem mem_consumedConfigs {n : ℕ} {args : List CppString} {taken : ℕ × CppString} :
    taken ∈ consumedConfigs n args ↔ (taken.1, .config, taken.2) ∈ optionsAt n args := by
  unfold consumedConfigs
  rw [List.mem_filterMap]
  constructor
  · rintro ⟨⟨i, option, value⟩, hfound, htaken⟩
    dsimp only at htaken
    split_ifs at htaken with hoption
    obtain rfl := Option.some.inj htaken
    exact hoption ▸ hfound
  · intro h
    exact ⟨_, h, if_pos rfl⟩

theorem consumedConfigs_of_optionsAt {n m : ℕ} {args rest : List CppString} {option : CliOption}
    {value : CppString} (h : optionsAt n args = (n, option, value) :: optionsAt m rest) :
    consumedConfigs n args =
      if option = .config then (n, value) :: consumedConfigs m rest
      else consumedConfigs m rest := by
  rw [consumedConfigs, h]
  split_ifs with hoption
  · exact List.filterMap_cons_some (if_pos hoption)
  · exact List.filterMap_cons_none (if_neg hoption)

/-- The first reading ends with the last value that it takes for the configuration file. -/
theorem configPath_of_preScan {args : List CppString} {outMeta outMeta' : PreParsedCliMeta}
    (h : preScanMetaOptions args outMeta = .ok outMeta') (n : ℕ) :
    outMeta'.configPath =
      (((scannedConfigs n args).map Prod.snd).getLast?).getD outMeta.configPath := by
  induction args, outMeta using preScanMetaOptions.induct generalizing n with
  | case1 outMeta =>
    obtain rfl := Except.ok.inj h
    rfl
  | case2 rest outMeta ih =>
    have hnone : recognizeConfig "--print-effective-config".toList = none := by decide
    rw [preScanMetaOptions.eq_def] at h
    simp only [if_true] at h
    rw [scannedConfigs_of_none hnone]
    exact ih h (n + 1)
  | case3 arg outMeta hprint option name hseparate =>
    simp only [preScanMetaOptions, if_neg hprint, hseparate] at h
    cases h
  | case4 arg outMeta hprint option name hseparate value rest ih =>
    simp only [preScanMetaOptions, if_neg hprint, hseparate] at h
    rw [scannedConfigs_of_separate hseparate, List.map_cons, List.getLast?_cons, Option.getD_some]
    exact ih h (n + 2)
  | case5 arg rest outMeta hprint option value hcomplete ih =>
    rw [preScanMetaOptions.eq_def] at h
    simp only [if_neg hprint, hcomplete] at h
    rw [scannedConfigs_of_complete hcomplete, List.map_cons, List.getLast?_cons, Option.getD_some]
    exact ih h (n + 1)
  | case6 arg rest outMeta hprint hseparate hcomplete ih =>
    have hnone := recognizeConfig_eq_none hseparate hcomplete
    rw [preScanMetaOptions.eq_def] at h
    simp only [if_neg hprint] at h
    rw [scannedConfigs_of_none hnone]
    exact ih h (n + 1)

/-! ## Agreement -/

/-- The values of other options that look like a `--config` option. -/
def NoValueTaken (args : List CppString) : Prop :=
  ∀ entry ∈ separateValues args, entry.1 ≠ .config → recognizeConfig entry.2 = none

/-- **Both readings take the same** for the configuration file if no value of another option looks
like a `--config` option.

**Proof sketch.** By induction along the second reading. The first one is at the same argument, or
just behind a value of another option that it passes over. -/
theorem scannedConfigs_eq {args : List CppString} (hread : WellRead args)
    (h : NoValueTaken args) (n : ℕ) : scannedConfigs n args = consumedConfigs n args := by
  unfold NoValueTaken at h
  induction args using cliActions.induct generalizing n with
  | case1 => rfl
  | case2 arg rest hunknown => simp only [WellRead.eq_def, hunknown] at hread
  | case3 arg rest option value hcomplete ih =>
    rw [wellRead_of_complete hcomplete] at hread
    have htail : separateValues (arg :: rest) = separateValues rest := by
      rw [separateValues.eq_def]
      simp only [hcomplete]
    rw [htail] at h
    have hconfig := recognizeConfig_of_complete hcomplete
    have hoptions : optionsAt n (arg :: rest) = (n, option, value) :: optionsAt (n + 1) rest := by
      rw [optionsAt.eq_def]
      simp only [hcomplete]
    rw [consumedConfigs_of_optionsAt hoptions]
    split_ifs at hconfig ⊢ with hoption
    · rw [scannedConfigs_of_complete hconfig, ih hread h]
    · rw [scannedConfigs_of_none hconfig, ih hread h]
  | case4 arg option name hseparate => simp only [WellRead, hseparate] at hread
  | case5 arg option name hseparate value rest ih =>
    simp only [WellRead, hseparate] at hread
    simp only [separateValues, hseparate, List.forall_mem_cons] at h
    have hconfig := recognizeConfig_of_separate hseparate
    have hoptions :
        optionsAt n (arg :: value :: rest) = (n, option, value) :: optionsAt (n + 2) rest := by
      simp only [optionsAt, hseparate]
    rw [consumedConfigs_of_optionsAt hoptions]
    split_ifs at hconfig ⊢ with hoption
    · rw [scannedConfigs_of_separate hconfig, ih hread h.2]
    · rw [scannedConfigs_of_none hconfig, scannedConfigs_of_none (h.1 hoption), ih hread h.2]
/-- The first reading of the arguments behind one that is not `--config`. -/
theorem exists_preScan_of_none {arg : CppString} {rest : List CppString}
    {outMeta outMeta' : PreParsedCliMeta} (hnone : recognizeConfig arg = none)
    (h : preScanMetaOptions (arg :: rest) outMeta = .ok outMeta') :
    ∃ next, preScanMetaOptions rest next = .ok outMeta' := by
  rw [preScanMetaOptions.eq_def] at h
  dsimp only at h
  split_ifs at h
  · exact ⟨_, h⟩
  · rw [show (Form.valued "--config").recognize .config arg = none from hnone] at h
    exact ⟨_, h⟩

/-- The first reading of the arguments behind `--config` with its value. -/
theorem exists_preScan_of_complete {arg value : CppString} {rest : List CppString}
    {option : CliOption} {outMeta outMeta' : PreParsedCliMeta}
    (hcomplete : recognizeConfig arg = some (.complete option value))
    (h : preScanMetaOptions (arg :: rest) outMeta = .ok outMeta') :
    ∃ next, preScanMetaOptions rest next = .ok outMeta' := by
  rw [preScanMetaOptions.eq_def] at h
  dsimp only at h
  split_ifs at h
  · exact ⟨_, h⟩
  · rw [show (Form.valued "--config").recognize .config arg = _ from hcomplete] at h
    exact ⟨_, h⟩

/-- The first reading takes the argument behind `--config`, and there is one. -/
theorem exists_preScan_of_separate {arg : CppString} {rest : List CppString}
    {option : CliOption} {name : String} {outMeta outMeta' : PreParsedCliMeta}
    (hseparate : recognizeConfig arg = some (.separate option name))
    (h : preScanMetaOptions (arg :: rest) outMeta = .ok outMeta') :
    ∃ value rest' next, rest = value :: rest' ∧ preScanMetaOptions rest' next = .ok outMeta' := by
  have hprint : arg ≠ "--print-effective-config".toList := by
    rintro rfl
    rw [show recognizeConfig "--print-effective-config".toList = none by decide] at hseparate
    cases hseparate
  rw [preScanMetaOptions.eq_def] at h
  dsimp only at h
  rw [if_neg hprint, show (Form.valued "--config").recognize .config arg = _ from hseparate] at h
  cases rest with
  | nil => cases h
  | cons value rest' => exact ⟨value, rest', _, rfl, h⟩

/-- What both readings take behind an option that both take. -/
theorem forall_mem_scannedConfigs_tail {n m : ℕ} {value : CppString} {rest : List CppString}
    (hlt : n < m) (h : ∀ taken ∈ (n, value) :: scannedConfigs m rest,
      taken ∈ (n, value) :: consumedConfigs m rest) :
    ∀ taken ∈ scannedConfigs m rest, taken ∈ consumedConfigs m rest := by
  intro taken htaken
  have hle := le_of_mem_scannedConfigs htaken
  rcases List.mem_cons.mp (h taken (List.mem_cons_of_mem _ htaken)) with rfl | hmem
  · exact absurd hle (Nat.not_le_of_lt hlt)
  · exact hmem

/-- **No value is taken only if none looks like the option.** If what the first reading takes are
options of the second, no value of another option looks like a `--config` option.

**Proof sketch.** By induction along the second reading, as long as both are at the same argument. A
value of another option that looks like `--config` is taken by the first reading at a position where
the second one has no option. -/
theorem noValueTaken_of_scannedConfigs {args : List CppString} {n : ℕ}
    {outMeta outMeta' : PreParsedCliMeta} (hread : WellRead args)
    (hscan : preScanMetaOptions args outMeta = .ok outMeta')
    (h : ∀ taken ∈ scannedConfigs n args, taken ∈ consumedConfigs n args) : NoValueTaken args := by
  unfold NoValueTaken
  induction args using cliActions.induct generalizing n outMeta with
  | case1 => exact fun entry hentry => absurd hentry List.not_mem_nil
  | case2 arg rest hunknown => simp only [WellRead.eq_def, hunknown] at hread
  | case3 arg rest option value hcomplete ih =>
    rw [wellRead_of_complete hcomplete] at hread
    have hvalues : separateValues (arg :: rest) = separateValues rest := by
      rw [separateValues.eq_def]
      simp only [hcomplete]
    have hoptions : optionsAt n (arg :: rest) = (n, option, value) :: optionsAt (n + 1) rest := by
      rw [optionsAt.eq_def]
      simp only [hcomplete]
    have hconfig := recognizeConfig_of_complete hcomplete
    rw [consumedConfigs_of_optionsAt hoptions] at h
    rw [hvalues]
    split_ifs at hconfig h
    · obtain ⟨next, hnext⟩ := exists_preScan_of_complete hconfig hscan
      rw [scannedConfigs_of_complete hconfig] at h
      exact ih hread hnext (forall_mem_scannedConfigs_tail (Nat.lt_succ_self n) h)
    · obtain ⟨next, hnext⟩ := exists_preScan_of_none hconfig hscan
      rw [scannedConfigs_of_none hconfig] at h
      exact ih hread hnext h
  | case4 arg option name hseparate => simp only [WellRead, hseparate] at hread
  | case5 arg option name hseparate value rest ih =>
    simp only [WellRead, hseparate] at hread
    have hoptions :
        optionsAt n (arg :: value :: rest) = (n, option, value) :: optionsAt (n + 2) rest := by
      simp only [optionsAt, hseparate]
    have hconfig := recognizeConfig_of_separate hseparate
    rw [consumedConfigs_of_optionsAt hoptions] at h
    simp only [separateValues, hseparate, List.forall_mem_cons]
    split_ifs at hconfig h with hoption
    · obtain ⟨_, _, next, hrest, hnext⟩ := exists_preScan_of_separate hconfig hscan
      obtain ⟨rfl, rfl⟩ := List.cons.inj hrest
      rw [scannedConfigs_of_separate hconfig] at h
      have htail := forall_mem_scannedConfigs_tail (Nat.lt_add_of_pos_right Nat.two_pos) h
      exact ⟨fun hne => absurd hoption hne, ih hread hnext htail⟩
    · obtain ⟨next, hnext⟩ := exists_preScan_of_none hconfig hscan
      rw [scannedConfigs_of_none hconfig] at h
      -- the second reading has no option at the position of the value
      have hnot : ∀ v, (n + 1, v) ∉ scannedConfigs (n + 1) (value :: rest) := by
        intro v hv
        have hle := le_of_mem_optionsAt (mem_consumedConfigs.mp (h _ hv))
        dsimp only at hle
        omega
      have hvalue : recognizeConfig value = none := by
        refine recognizeConfig_eq_none (fun option' name' htaken => ?_)
          fun option' value' htaken => ?_
        · obtain ⟨value', rest', next', rfl, -⟩ := exists_preScan_of_separate htaken hnext
          exact hnot value' (scannedConfigs_of_separate htaken value' ▸ List.mem_cons_self)
        · exact hnot value' (scannedConfigs_of_complete htaken ▸ List.mem_cons_self)
      obtain ⟨next', hnext'⟩ := exists_preScan_of_none hvalue hnext
      rw [scannedConfigs_of_none hvalue] at h
      exact ⟨fun _ => hvalue, ih hread hnext' h⟩

/-! ## The path in the settings -/

/-- The field of a solver option. -/
def SmtOption.field : SmtOption → Field
  | .switch => .smtEnabled
  | .backend => .smtBackend
  | .secondaryBackend => .smtSecondaryBackend
  | .mode => .smtMode
  | .timeout => .smtTimeoutMs
  | .budget => .smtBudgetNodes
  | .rules => .smtRules

/-- A solver option changes its field. -/
theorem SmtOption.field_of_apply {value : CppString} {source : SmtOptionSource} {spec : SmtOption}
    {changes : List Change} (h : spec.apply value source = .ok changes) {c : Change}
    (hc : c ∈ changes) : c.field = spec.field := by
  have hassign : ∀ {field : Field} {v : Except CppString field.Value},
      assignParsed field v = .ok changes → c.field = field := by
    intro field v heq
    obtain ⟨v', -, rfl⟩ := eq_of_assignParsed heq
    rw [List.mem_singleton.mp hc]
    rfl
  cases spec with
  | backend | secondaryBackend =>
    obtain rfl := Except.ok.inj h
    rw [List.mem_singleton.mp hc]
    rfl
  | rules =>
    cases source with
    | cli | config =>
      obtain rfl := Except.ok.inj h
      rw [List.mem_singleton.mp hc]
      rfl
  | switch => exact hassign h
  | mode => exact hassign h
  | timeout => exact hassign h
  | budget => exact hassign h

/-- Only `--config` changes the path of the configuration file. -/
theorem CliOption.eq_config_of_changes {hardwareConcurrency : UInt32} {value : CppString}
    {option : CliOption} {changes : List Change}
    (h : option.changes hardwareConcurrency value = .ok changes) {c : Change} (hc : c ∈ changes)
    (hfield : c.field = .configPath) : option = .config := by
  have hassign : ∀ {field : Field} {v : Except CppString field.Value} {before : CppString},
      field ≠ .configPath →
        ((assignParsed field v).mapError fun e => before ++ e) ≠ .ok changes := by
    intro field v before hne heq
    obtain ⟨v', -, rfl⟩ := eq_of_assignParsed (mapError_eq_ok heq)
    rw [List.mem_singleton.mp hc] at hfield
    exact hne hfield
  cases option with
  | config => rfl
  | smt spec =>
    have happly : spec.applySmtOptionValue value .cli = .ok changes := by
      simp only [CliOption.changes] at h
      exact mapError_eq_ok h
    rcases SmtOption.mem_applySmtOptionValue happly hc with ⟨own, hown, hc⟩ | rfl
    · rw [SmtOption.field_of_apply hown hc] at hfield
      cases spec <;> cases hfield
    · cases hfield
  | help =>
    obtain rfl := Except.ok.inj h
    exact absurd hc List.not_mem_nil
  | stackLimit => exact absurd h (hassign Field.noConfusion)
  | compileIRFormat => exact absurd h (hassign Field.noConfusion)
  | analysisProfile | jobs =>
    simp only [CliOption.changes] at h
    obtain ⟨v, -, rfl⟩ := map_eq_ok (mapError_eq_ok h)
    rcases List.mem_cons.mp hc with rfl | hc
    · cases hfield
    · rw [List.mem_singleton.mp hc] at hfield
      cases hfield
  | verbose | compileCommands =>
    obtain rfl := Except.ok.inj h
    rcases List.mem_cons.mp hc with rfl | hc
    · cases hfield
    · rw [List.mem_singleton.mp hc] at hfield
      cases hfield
  | mode =>
    simp only [CliOption.changes] at h
    split_ifs at h
    all_goals
      obtain rfl := Except.ok.inj h
      rw [List.mem_singleton.mp hc] at hfield
      cases hfield
  | _ =>
    obtain rfl := Except.ok.inj h
    rw [List.mem_singleton.mp hc] at hfield
    cases hfield

/-- The value of `--config`. -/
def configValue (action : CliOption × CppString) : Option CppString :=
  if action.1 = .config then some action.2 else none

/-- The path after a command line: that of its last `--config` option. -/
theorem configPath_of_cliChanges {hardwareConcurrency : UInt32}
    {actions : List (CliOption × CppString)} {cs : List Change}
    (h : cliChanges hardwareConcurrency actions = .ok cs) (parsed : ParsedArguments) :
    applyAll parsed cs .configPath =
      ((actions.filterMap configValue).getLast?).getD (parsed .configPath) := by
  induction actions generalizing cs parsed with
  | nil =>
    obtain rfl := Except.ok.inj h
    rfl
  | cons action actions ih =>
    obtain ⟨first, rest, hfirst, hrest, rfl⟩ := cliChanges_cons h
    obtain ⟨option, value⟩ := action
    rw [applyAll_append, ih hrest]
    by_cases hconfig : option = .config
    · subst hconfig
      obtain rfl := Except.ok.inj hfirst
      have hvalue : configValue (.config, value) = some value := if_pos rfl
      rw [List.filterMap_cons_some hvalue, List.getLast?_cons, Option.getD_some]
      rfl
    · have hvalue : configValue (option, value) = none := if_neg hconfig
      rw [List.filterMap_cons_none hvalue]
      congr 1
      exact applyAll_of_untouched
        (fun c hc hfield => hconfig (CliOption.eq_config_of_changes hfirst hc hfield)) parsed

/-- The `--config` options of the second reading, without their positions. -/
theorem map_consumedConfigs (args : List CppString) :
    (consumedConfigs 0 args).map Prod.snd = (cliActions args).filterMap configValue := by
  rw [← map_optionsAt 0 args, consumedConfigs, List.map_filterMap, List.filterMap_map]
  congr 1
  funext found
  unfold configValue
  dsimp only [Function.comp]
  split_ifs <;> rfl

/-! ## When both readings agree -/

/-- **When both readings agree** on the configuration file: no argument that is the value of another
option looks like a `--config` option.

**Proof sketch.** Both readings end with the last value that they take for the file. If no value
looks like the option, they take the same; and if the first one takes nothing but options, no value
can look like one. -/
theorem preScanAgrees_iff {S : Surroundings} {args : List CppString} {parsed : ParsedArguments}
    (h : S.parseArguments args = .ok parsed) :
    PreScanAgrees args parsed ↔
      ∀ entry ∈ separateValues args, entry.1 ≠ .config → recognizeConfig entry.2 = none := by
  obtain ⟨outMeta, file, cs, hscan, hfile, hcs, hparsed, -⟩ := parseArguments_eq_ok h
  have hread : WellRead args := by
    rw [parseArguments_eq hscan, hfile] at h
    exact wellRead_of_parseLoop h
  constructor
  · intro hagrees
    exact noValueTaken_of_scannedConfigs hread hscan hagrees.onlyOptions
  · intro hvalues
    have heq := scannedConfigs_eq hread hvalues 0
    have hpath := configPath_of_preScan hscan 0
    rw [heq] at hpath
    have hbefore : applyAll (ParsedArguments.scanned outMeta) file .configPath =
        outMeta.configPath := by
      by_cases hempty : outMeta.configPath = []
      · rw [Surroundings.configChanges, if_pos hempty] at hfile
        obtain rfl := Except.ok.inj hfile
        exact hempty.symm
      · obtain ⟨lines, changes, -, -, rfl⟩ := configChanges_eq_ok hfile hempty
        rw [applyAll_append]
        rfl
    refine ⟨⟨outMeta, hscan, hpath⟩, ?_, fun taken htaken => heq ▸ htaken⟩
    rw [hparsed, configPath_of_cliChanges hcs, hbefore, hpath, lastConfig, map_consumedConfigs]
    cases (List.filterMap configValue (cliActions args)).getLast? with
    | none => rfl
    | some path => rfl

/-- A command line that names its configuration file is read alike. -/
theorem preScanAgrees_iff_switchedOff :
    PreScanAgrees ["--config=c".toList, "--smt=off".toList] switchedOff ↔
      ∀ entry ∈ separateValues ["--config=c".toList, "--smt=off".toList],
        entry.1 ≠ .config → recognizeConfig entry.2 = none :=
  preScanAgrees_iff (show oneRuleFile.parseArguments _ = .ok switchedOff from rfl)

/-- The value of `--only-file` is taken for the configuration file. -/
theorem not_preScanAgrees_onlyFile :
    ¬∀ (S : Surroundings) (args : List CppString) (parsed : ParsedArguments),
      S.parseArguments args = .ok parsed → PreScanAgrees args parsed := by
  intro hall
  have hrules : (oneRuleFile.parseArguments
      ["--only-file".toList, "--config=c".toList]).smtRules = some [['a']] := by
    decide +kernel
  cases hparse : oneRuleFile.parseArguments ["--only-file".toList, "--config=c".toList] with
  | help parsed =>
    rw [hparse] at hrules
    cases hrules
  | error message =>
    rw [hparse] at hrules
    cases hrules
  | ok parsed =>
    have htaken := (hall oneRuleFile _ parsed hparse).onlyOptions (1, ['c']) (by decide +kernel)
    exact absurd htaken (by decide +kernel)

end StackAnalyzer.Cli
