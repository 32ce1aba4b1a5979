import StackAnalyzer.App.Config
import StackAnalyzer.CompileCommands.Database

set_option relaxedAutoImplicit false
set_option autoImplicit false

/-!
# Values of options

The texts that stand for switches, modes, numbers and lists, on the command line and in the
configuration file. A text that is not accepted gives the message of the error.

## Main definitions

* `StackAnalyzer.Cli.chooseWord` — one of some words, written in any case.
* `StackAnalyzer.Cli.parsePositiveU64`, `StackAnalyzer.Cli.parseStackLimitValue` — numbers.
* `StackAnalyzer.Cli.csvItems` — the items of a list.

## Main results

* `StackAnalyzer.Cli.parsePositiveU64_pos`, `StackAnalyzer.Cli.parseStackLimitValue_pos` — no number
  that is accepted is zero.
-/

namespace StackAnalyzer.Cli

open App Smt CrossTU CompileCommands

/-! ## Texts -/

/-- `trimCopy`. -/
def trimCopy (input : CppString) : CppString :=
  ((input.dropWhile isSpace).reverse.dropWhile isSpace).reverse

/-- `toLowerAsciiCopy`. -/
def toLowerAsciiCopy (input : CppString) : CppString := input.map Char.toLower

/-- `stripOptionalQuotes`. -/
def stripOptionalQuotes (input : CppString) : CppString :=
  if 2 ≤ input.length ∧ (input.head? = some '"' ∧ input.getLast? = some '"' ∨
      input.head? = some (Char.ofNat 39) ∧ input.getLast? = some (Char.ofNat 39)) then
    (input.drop 1).dropLast
  else input

/-- The loop of `addCsvFilters`, with the characters of the item that has begun. -/
def csvItemsFrom : List Char → CppString → List CppString
  | [], current => pushToken (trimCopy current) []
  | c :: cs, current =>
    if c = ',' then pushToken (trimCopy current) (csvItemsFrom cs [])
    else csvItemsFrom cs (current ++ [c])

/-- The items that `addCsvFilters` adds. -/
def csvItems (input : CppString) : List CppString := csvItemsFrom input []

/-! ## Words -/

/-- The value of a word, written in any case and with blanks around it. -/
def chooseWord {A : Type*} (table : List (String × A)) (error : String) (input : CppString) :
    Except CppString A :=
  match table.find? fun entry => decide (entry.1.toList = toLowerAsciiCopy (trimCopy input)) with
  | some entry => .ok entry.2
  | none => .error error.toList

/-- `parseSmtSwitch`. -/
def parseSmtSwitch : CppString → Except CppString Bool :=
  chooseWord [("on", true), ("off", false)] "expected 'on' or 'off'"

/-- `parseBoolSwitch`. -/
def parseBoolSwitch : CppString → Except CppString Bool :=
  chooseWord [("true", true), ("on", true), ("yes", true), ("1", true), ("false", false),
    ("off", false), ("no", false), ("0", false)] "expected true/false (or on/off, yes/no, 1/0)"

/-- `parseSmtMode`. -/
def parseSmtMode : CppString → Except CppString SolverMode :=
  chooseWord [("single", .single), ("portfolio", .portfolio), ("cross-check", .crossCheck),
    ("dual-consensus", .dualConsensus)]
    "expected 'single', 'portfolio', 'cross-check', or 'dual-consensus'"

/-- `parseAnalysisProfile`. -/
def parseAnalysisProfile : CppString → Except CppString AnalysisProfile :=
  chooseWord [("fast", .fast), ("full", .full)] "expected 'fast' or 'full'"

/-- `parseCompileIRFormat`: one dot in front is dropped. -/
def parseCompileIRFormat (input : CppString) : Except CppString CompileIRFormat :=
  let trimmed := trimCopy input
  let undotted := if trimmed.head? = some '.' then trimmed.drop 1 else trimmed
  if toLowerAsciiCopy undotted = "bc".toList then .ok .bc
  else if toLowerAsciiCopy undotted = "ll".toList then .ok .ll
  else .error "expected 'bc' or 'll'".toList

/-! ## Numbers -/

/-- `std::from_chars` on a whole text: a number that fits in 64 bits. -/
def fromChars (text : CppString) : Option ℕ :=
  if text = [] ∨ text.all Char.isDigit = false then none
  else
    let n := text.foldl (fun n c => n * 10 + (c.toNat - '0'.toNat)) 0
    if n < 2 ^ 64 then some n else none

/-- A positive number below a bound: what `parsePositiveUnsigned` and `parsePositiveU64` share. -/
def parsePositive (bound : ℕ) (input : CppString) : Except CppString ℕ :=
  let trimmed := trimCopy input
  if trimmed = [] then .error "value is empty".toList
  else
    match fromChars trimmed with
    | none => .error "invalid numeric value".toList
    | some parsed =>
      if parsed = 0 then .error "value must be greater than zero".toList
      else if bound ≤ parsed then .error "value is too large".toList
      else .ok parsed

/-- `parsePositiveUnsigned`. -/
def parsePositiveUnsigned (input : CppString) : Except CppString UInt32 :=
  (parsePositive (2 ^ 32) input).map UInt32.ofNat

/-- `parsePositiveU64`: no number that is read is too large. -/
def parsePositiveU64 (input : CppString) : Except CppString UInt64 :=
  (parsePositive (2 ^ 64) input).map UInt64.ofNat

/-- `parseJobsValue`, with the number of processors, zero if it is not known. -/
def parseJobsValue (hardwareConcurrency : UInt32) (input : CppString) :
    Except CppString (UInt32 × Bool) :=
  let trimmed := trimCopy input
  if toLowerAsciiCopy trimmed = "auto".toList then
    .ok (if hardwareConcurrency = 0 then 1 else hardwareConcurrency, true)
  else (parsePositiveUnsigned trimmed).map fun jobs => (jobs, false)

/-- The multiplier of a suffix. -/
def suffixMultiplier (suffix : CppString) : Except CppString ℕ :=
  if suffix = [] then .ok 1
  else
    chooseWord [("b", 1), ("k", 1024), ("kb", 1024), ("kib", 1024), ("m", 1024 * 1024),
      ("mb", 1024 * 1024), ("mib", 1024 * 1024), ("g", 1024 * 1024 * 1024),
      ("gb", 1024 * 1024 * 1024), ("gib", 1024 * 1024 * 1024)]
      "unsupported suffix (use bytes, KiB, MiB, or GiB)" suffix

/-- `parseStackLimitValue`. -/
def parseStackLimitValue (input : CppString) : Except CppString UInt64 :=
  let trimmed := trimCopy input
  if trimmed = [] then .error "stack limit is empty".toList
  else
    let numberPart := trimmed.takeWhile Char.isDigit
    if numberPart = [] then .error "stack limit must start with a number".toList
    else
      match fromChars numberPart with
      | none => .error "invalid numeric value".toList
      | some base =>
        if base = 0 then .error "stack limit must be greater than zero".toList
        else
          match suffixMultiplier (trimCopy (trimmed.drop numberPart.length)) with
          | .error e => .error e
          | .ok multiplier =>
            if (2 ^ 64 - 1) / multiplier < base then .error "stack limit is too large".toList
            else .ok (UInt64.ofNat (base * multiplier))

/-! ## Numbers that are accepted -/

theorem parsePositive_spec {bound n : ℕ} {input : CppString}
    (h : parsePositive bound input = .ok n) : 0 < n ∧ n < bound := by
  unfold parsePositive at h
  dsimp only at h
  split_ifs at h
  split at h
  · cases h
  · split_ifs at h with hzero hbound
    cases h
    omega

/-- No budget is zero. -/
theorem parsePositiveU64_pos {n : UInt64} {input : CppString}
    (h : parsePositiveU64 input = .ok n) : 0 < n := by
  unfold parsePositiveU64 at h
  cases hparse : parsePositive (2 ^ 64) input with
  | error e =>
    rw [hparse] at h
    cases h
  | ok m =>
    rw [hparse] at h
    obtain rfl : UInt64.ofNat m = n := Except.ok.inj h
    obtain ⟨hpos, hlt⟩ := parsePositive_spec hparse
    rw [UInt64.lt_iff_toNat_lt, UInt64.toNat_ofNat_of_lt' hlt]
    exact hpos

/-- What a word stands for is in the table. -/
theorem mem_of_chooseWord {A : Type*} {table : List (String × A)} {error : String}
    {input : CppString} {a : A} (h : chooseWord table error input = .ok a) :
    ∃ word, (word, a) ∈ table := by
  unfold chooseWord at h
  split at h
  · rename_i entry hfind
    obtain rfl := Except.ok.inj h
    exact ⟨entry.1, List.mem_of_find?_eq_some hfind⟩
  · cases h

theorem suffixMultiplier_pos {suffix : CppString} {multiplier : ℕ}
    (h : suffixMultiplier suffix = .ok multiplier) : 0 < multiplier := by
  unfold suffixMultiplier at h
  split_ifs at h
  · obtain rfl := Except.ok.inj h
    exact Nat.one_pos
  · obtain ⟨word, hmem⟩ := mem_of_chooseWord h
    simp only [List.mem_cons, Prod.mk.injEq, List.not_mem_nil, or_false] at hmem
    omega

/-- No stack limit is zero. -/
theorem parseStackLimitValue_pos {n : UInt64} {input : CppString}
    (h : parseStackLimitValue input = .ok n) : 0 < n := by
  unfold parseStackLimitValue at h
  dsimp only at h
  split_ifs at h
  split at h
  · cases h
  · rename_i base hbase
    split_ifs at h with hzero
    split at h
    · cases h
    · rename_i multiplier hmultiplier
      split_ifs at h with hlarge
      obtain rfl := Except.ok.inj h
      have hpos := suffixMultiplier_pos hmultiplier
      have hle : base * multiplier ≤ 2 ^ 64 - 1 :=
        (Nat.le_div_iff_mul_le hpos).mp (not_lt.mp hlarge)
      have hlt : base * multiplier < 2 ^ 64 := by omega
      rw [UInt64.lt_iff_toNat_lt, UInt64.toNat_ofNat_of_lt' hlt]
      exact Nat.mul_pos (Nat.pos_of_ne_zero hzero) hpos

end StackAnalyzer.Cli
