import StackAnalyzer.Cli.Values
import StackAnalyzer.Lists.Trimming

set_option relaxedAutoImplicit false
set_option autoImplicit false

/-!
# Stack limits

A stack limit is a decimal number with an optional unit behind it, in any case, and with blanks
around both. It is accepted exactly if it is positive and the number of bytes fits in 64 bits.

## Main definitions

* `StackAnalyzer.Cli.parseStackLimitInto` — parsing, with its output arguments.
* `StackAnalyzer.Cli.IsStackLimit` — a text that writes a number of units.

## Main results

* `StackAnalyzer.Cli.parseStackLimitValue_eq_ok_iff` — which limits are accepted.
* `StackAnalyzer.Cli.parseStackLimitInto_spec` — what is left in the output arguments.
-/

namespace StackAnalyzer.Cli

open CrossTU CompileCommands Lists

/-! ## What a limit is -/

section Limits

/-- The units, with the number of bytes of each. -/
def stackLimitUnits : List (String × ℕ) :=
  [("b", 1), ("k", 2 ^ 10), ("kb", 2 ^ 10), ("kib", 2 ^ 10), ("m", 2 ^ 20), ("mb", 2 ^ 20),
    ("mib", 2 ^ 20), ("g", 2 ^ 30), ("gb", 2 ^ 30), ("gib", 2 ^ 30)]

/-- The number that decimal digits write. -/
def digitsValue (digits : CppString) : ℕ :=
  Nat.ofDigits 10 (digits.reverse.map fun c => c.toNat - '0'.toNat)

/-- A suffix writes a unit in any case; without a suffix, bytes are counted. -/
def IsUnit (suffix : CppString) (unit : ℕ) : Prop :=
  suffix = [] ∧ unit = 1 ∨ ∃ word, (word, unit) ∈ stackLimitUnits ∧
    toLowerAsciiCopy suffix = word.toList

/-- **A text writes a number of units**, when it is trimmed: digits, blanks, and a suffix. -/
def IsStackLimit (input : CppString) (number unit : ℕ) : Prop :=
  ∃ digits blanks suffix, trimCopy input = digits ++ blanks ++ suffix ∧ digits ≠ [] ∧
    (∀ c ∈ digits, c.isDigit = true) ∧ (∀ c ∈ blanks, isSpace c = true) ∧ IsUnit suffix unit ∧
      number = digitsValue digits

end Limits

/-! ## Numbers and units -/

section Parts

/-- The number is built digit by digit. -/
theorem foldl_eq_digitsValue (digits : CppString) :
    digits.foldl (fun n c => n * 10 + (c.toNat - '0'.toNat)) 0 = digitsValue digits := by
  induction digits using List.reverseRecOn with
  | nil => rfl
  | append_singleton init c ih =>
    rw [List.foldl_append, ih, digitsValue, digitsValue, List.reverse_append]
    simp only [List.reverse_cons, List.reverse_nil, List.nil_append, List.cons_append,
      List.map_cons, Nat.ofDigits_cons, List.foldl_cons, List.foldl_nil]
    omega

/-- `std::from_chars` reads the number that the digits write, if it fits. -/
theorem fromChars_eq_some_iff {digits : CppString} {number : ℕ} (hne : digits ≠ [])
    (hdigits : ∀ c ∈ digits, c.isDigit = true) :
    fromChars digits = some number ↔ number = digitsValue digits ∧ number < 2 ^ 64 := by
  have hall : digits.all Char.isDigit = true := List.all_eq_true.mpr hdigits
  unfold fromChars
  rw [if_neg (by simp [hne, hall]), foldl_eq_digitsValue]
  dsimp only
  split_ifs with hfits
  · rw [Option.some_inj]
    constructor
    · rintro rfl
      exact ⟨rfl, hfits⟩
    · rintro ⟨rfl, -⟩
      rfl
  · refine ⟨nofun, ?_⟩
    rintro ⟨rfl, hlt⟩
    exact absurd hlt hfits

/-- A word of a table is chosen if it is the text, trimmed and in small letters. -/
theorem chooseWord_eq_ok_iff {A : Type*} {table : List (String × A)} {error : String}
    {input : CppString} {a : A}
    (hdistinct : table.Pairwise fun entry entry' => entry.1.toList ≠ entry'.1.toList) :
    chooseWord table error input = .ok a ↔
      ∃ word, (word, a) ∈ table ∧ toLowerAsciiCopy (trimCopy input) = word.toList := by
  unfold chooseWord
  split
  · next entry hfind =>
    have hmem := List.mem_of_find?_eq_some hfind
    have hentry : entry.1.toList = toLowerAsciiCopy (trimCopy input) := by
      simpa using List.find?_some hfind
    rw [Except.ok.injEq]
    constructor
    · rintro rfl
      exact ⟨entry.1, hmem, hentry.symm⟩
    · rintro ⟨word, hword, htext⟩
      by_contra hne
      have hentries : entry ≠ (word, a) := fun heq => hne (congrArg Prod.snd heq)
      have hsymm : Std.Symm fun entry entry' : String × A => entry.1.toList ≠ entry'.1.toList :=
        ⟨fun _ _ h => h.symm⟩
      exact hdistinct.forall hmem hword hentries (hentry.trans htext)
  · next hfind =>
    refine ⟨nofun, ?_⟩
    rintro ⟨word, hword, htext⟩
    exact absurd (decide_eq_true htext.symm) (List.find?_eq_none.mp hfind _ hword)

/-- The multiplier is the unit of the suffix. -/
theorem suffixMultiplier_eq_ok_iff {suffix : CppString} {unit : ℕ}
    (htrim : trimCopy suffix = suffix) :
    suffixMultiplier suffix = .ok unit ↔ IsUnit suffix unit := by
  unfold suffixMultiplier
  split_ifs with hempty
  · subst hempty
    rw [Except.ok.injEq, eq_comm]
    refine ⟨fun h => Or.inl ⟨rfl, h⟩, ?_⟩
    rintro (⟨-, h⟩ | ⟨word, hword, htext⟩)
    · exact h
    · have hwords : ∀ entry ∈ stackLimitUnits, ([] : CppString) ≠ entry.1.toList := by decide
      exact absurd htext (hwords _ hword)
  · have hdistinct : stackLimitUnits.Pairwise fun entry entry' =>
        entry.1.toList ≠ entry'.1.toList := by decide
    refine (chooseWord_eq_ok_iff hdistinct).trans ?_
    rw [htrim, IsUnit]
    simp only [hempty, false_and, false_or]

/-- The multiplier of a unit is positive. -/
theorem IsUnit.pos {suffix : CppString} {unit : ℕ} (h : IsUnit suffix unit) : 0 < unit := by
  obtain ⟨-, rfl⟩ | ⟨word, hword, -⟩ := h
  · exact Nat.one_pos
  · have hunits : ∀ entry ∈ stackLimitUnits, 0 < entry.2 := by decide
    exact hunits _ hword

/-- Decimal digits, by their codes. -/
theorem isDigit_iff (c : Char) : c.isDigit = true ↔ 48 ≤ c.toNat ∧ c.toNat ≤ 57 := by
  simp only [Char.isDigit, Bool.and_eq_true, decide_eq_true_eq, ge_iff_le, UInt32.le_iff_toNat_le]
  exact Iff.rfl

/-- A blank is no digit. -/
theorem isDigit_of_isSpace {c : Char} (h : isSpace c = true) : c.isDigit = false := by
  rw [Bool.eq_false_iff]
  intro hdigit
  rw [isDigit_iff] at hdigit
  simp only [isSpace, Bool.or_eq_true, Bool.and_eq_true, decide_eq_true_eq] at h
  rcases h with rfl | ⟨-, hle⟩
  · exact absurd hdigit (by decide)
  · omega

/-- Neither digits nor blanks have another case. -/
theorem toLower_eq_self {c : Char} (h : c.isDigit = true ∨ isSpace c = true) : c.toLower = c := by
  have hlt : c.toNat < 65 := by
    rcases h with hdigit | hspace
    · rw [isDigit_iff] at hdigit
      omega
    · simp only [isSpace, Bool.or_eq_true, Bool.and_eq_true, decide_eq_true_eq] at hspace
      rcases hspace with rfl | ⟨-, hle⟩
      · decide
      · omega
  have hupper : ¬ ('A'.val ≤ c.val ∧ c.val ≤ 'Z'.val) := by
    rintro ⟨hle, -⟩
    have hle' : 65 ≤ c.toNat := UInt32.le_iff_toNat_le.mp hle
    omega
  unfold Char.toLower
  rw [dif_neg hupper]

/-- A suffix has neither digits nor blanks. -/
theorem IsUnit.not_digit_or_blank {suffix : CppString} {unit : ℕ} (h : IsUnit suffix unit) {c : Char}
    (hc : c ∈ suffix) : c.isDigit = false ∧ isSpace c = false := by
  obtain ⟨rfl, -⟩ | ⟨word, hword, htext⟩ := h
  · cases hc
  · have hletters : ∀ entry ∈ stackLimitUnits,
        (entry.1.toList.all fun c => !c.isDigit && !isSpace c) = true := by decide
    have hlower : c.toLower ∈ word.toList := by
      rw [← htext]
      exact List.mem_map_of_mem hc
    have hletter := List.all_eq_true.mp (hletters _ hword) _ hlower
    simp only [Bool.and_eq_true, Bool.not_eq_true'] at hletter
    obtain ⟨hdigit, hspace⟩ := hletter
    constructor
    · by_contra hyes
      rw [Bool.not_eq_false] at hyes
      rw [toLower_eq_self (Or.inl hyes), hyes] at hdigit
      cases hdigit
    · by_contra hyes
      rw [Bool.not_eq_false] at hyes
      rw [toLower_eq_self (Or.inr hyes), hyes] at hspace
      cases hspace

/-- A suffix is trimmed. -/
theorem IsUnit.trimCopy_eq {suffix : CppString} {unit : ℕ} (h : IsUnit suffix unit) :
    trimCopy suffix = suffix :=
  trim_eq_self (fun _ hc => (h.not_digit_or_blank (List.mem_of_mem_head? hc)).2)
    fun _ hc => (h.not_digit_or_blank (List.mem_of_mem_getLast? hc)).2

end Parts

/-! ## Which limits are accepted -/

section Accepted

/-- Where the parser cuts a text that writes a number of units. -/
theorem cut_eq {digits blanks suffix : CppString} {unit : ℕ}
    (hdigits : ∀ c ∈ digits, c.isDigit = true) (hblanks : ∀ c ∈ blanks, isSpace c = true)
    (hunit : IsUnit suffix unit) :
    (digits ++ blanks ++ suffix).takeWhile Char.isDigit = digits ∧
      trimCopy ((digits ++ blanks ++ suffix).drop digits.length) = suffix := by
  have hstop : (blanks ++ suffix).takeWhile Char.isDigit = [] := by
    cases hrest : blanks ++ suffix with
    | nil => rfl
    | cons c cs =>
      have hmem : c ∈ blanks ++ suffix := by
        rw [hrest]
        exact List.mem_cons_self
      have hnot : c.isDigit = false := (List.mem_append.mp hmem).elim
        (fun hc => isDigit_of_isSpace (hblanks c hc)) fun hc => (hunit.not_digit_or_blank hc).1
      exact List.takeWhile_cons_of_neg (by simp [hnot])
  rw [List.append_assoc, List.takeWhile_append_of_pos hdigits, hstop, List.append_nil,
    List.drop_left]
  refine ⟨rfl, ?_⟩
  change trim isSpace (blanks ++ suffix) = suffix
  rw [trim_append hblanks]
  exact hunit.trimCopy_eq

/-- **A text writes one number of one unit.** -/
theorem IsStackLimit.unique {input : CppString} {number number' unit unit' : ℕ}
    (h : IsStackLimit input number unit) (h' : IsStackLimit input number' unit') :
    number = number' ∧ unit = unit' := by
  obtain ⟨digits, blanks, suffix, htext, -, hdigits, hblanks, hunit, rfl⟩ := h
  obtain ⟨digits', blanks', suffix', htext', -, hdigits', hblanks', hunit', rfl⟩ := h'
  obtain ⟨hcut, hsuffix⟩ := cut_eq hdigits hblanks hunit
  obtain ⟨hcut', hsuffix'⟩ := cut_eq hdigits' hblanks' hunit'
  rw [← htext] at hcut hsuffix
  rw [← htext'] at hcut' hsuffix'
  obtain rfl : digits = digits' := hcut.symm.trans hcut'
  obtain rfl : suffix = suffix' := hsuffix.symm.trans hsuffix'
  have hmultiplier := (suffixMultiplier_eq_ok_iff hunit.trimCopy_eq).mpr hunit
  have hmultiplier' := (suffixMultiplier_eq_ok_iff hunit'.trimCopy_eq).mpr hunit'
  rw [hmultiplier, Except.ok.injEq] at hmultiplier'
  exact ⟨rfl, hmultiplier'⟩

/-- What the parser cuts off is a number and a suffix behind blanks. -/
theorem exists_blanks (text : CppString) (hlast : ∀ c, text.getLast? = some c → isSpace c = false) :
    ∃ blanks, (∀ c ∈ blanks, isSpace c = true) ∧
      text = text.takeWhile Char.isDigit ++ blanks ++
        trimCopy (text.drop (text.takeWhile Char.isDigit).length) := by
  have hcut := List.takeWhile_append_dropWhile (p := Char.isDigit) (l := text)
  have hdrop : text.drop (text.takeWhile Char.isDigit).length = text.dropWhile Char.isDigit :=
    calc text.drop (text.takeWhile Char.isDigit).length
      _ = (text.takeWhile Char.isDigit ++ text.dropWhile Char.isDigit).drop
          (text.takeWhile Char.isDigit).length := by rw [hcut]
      _ = text.dropWhile Char.isDigit := List.drop_left
  have htrim : trim isSpace (text.dropWhile Char.isDigit) =
      (text.dropWhile Char.isDigit).dropWhile isSpace := by
    refine trim_eq_dropWhile fun c hc => hlast c ?_
    obtain ⟨init, hinit⟩ := List.getLast?_eq_some_iff.mp hc
    rw [← hcut, hinit, ← List.append_assoc]
    exact List.getLast?_concat
  refine ⟨(text.dropWhile Char.isDigit).takeWhile isSpace,
    fun c hc => List.mem_takeWhile_imp hc, ?_⟩
  rw [hdrop, List.append_assoc]
  change text = _ ++ (_ ++ trim isSpace (text.dropWhile Char.isDigit))
  rw [htrim, List.takeWhile_append_dropWhile, hcut]

/-- **Which limits are accepted**: those that are positive and fit in 64 bits. -/
theorem parseStackLimitValue_eq_ok_iff (input : CppString) (value : UInt64) :
    parseStackLimitValue input = .ok value ↔
      ∃ number unit, IsStackLimit input number unit ∧ 0 < number ∧ number * unit < 2 ^ 64 ∧
        value.toNat = number * unit := by
  constructor
  · intro h
    unfold parseStackLimitValue at h
    dsimp only at h
    split_ifs at h with hempty hdigits
    split at h
    · cases h
    · next number hnumber =>
      split_ifs at h with hzero
      split at h
      · cases h
      · next unit hunit =>
        split_ifs at h with hlarge
        obtain rfl := Except.ok.inj h
        have hall : ∀ c ∈ (trimCopy input).takeWhile Char.isDigit, c.isDigit = true :=
          fun c hc => List.mem_takeWhile_imp hc
        obtain ⟨hvalue, hlt⟩ := (fromChars_eq_some_iff hdigits hall).mp hnumber
        have hsuffix := (suffixMultiplier_eq_ok_iff trim_trim).mp hunit
        obtain ⟨blanks, hblanks, htext⟩ := exists_blanks (trimCopy input) fun c => getLast_trim
        have hle : number * unit ≤ 2 ^ 64 - 1 :=
          (Nat.le_div_iff_mul_le hsuffix.pos).mp (not_lt.mp hlarge)
        have hfits : number * unit < 2 ^ 64 := by omega
        exact ⟨number, unit, ⟨_, blanks, _, htext, hdigits, hall, hblanks, hsuffix, hvalue⟩,
          Nat.pos_of_ne_zero hzero, hfits, UInt64.toNat_ofNat_of_lt' hfits⟩
  · rintro ⟨number, unit, ⟨digits, blanks, suffix, htext, hne, hdigits, hblanks, hunit, rfl⟩, hpos,
      hfits, hvalue⟩
    obtain ⟨hnumberPart, hsuffix⟩ := cut_eq hdigits hblanks hunit
    have hlt : digitsValue digits < 2 ^ 64 :=
      lt_of_le_of_lt (Nat.le_mul_of_pos_right _ hunit.pos) hfits
    have hnumber := (fromChars_eq_some_iff hne hdigits).mpr ⟨rfl, hlt⟩
    have hmultiplier := (suffixMultiplier_eq_ok_iff hunit.trimCopy_eq).mpr hunit
    have hlarge : ¬ (2 ^ 64 - 1) / unit < digitsValue digits := by
      rw [not_lt, Nat.le_div_iff_mul_le hunit.pos]
      omega
    have hempty : trimCopy input ≠ [] := by
      rw [htext]
      simp [hne]
    unfold parseStackLimitValue
    dsimp only
    rw [if_neg hempty, htext, hnumberPart, if_neg hne, hnumber]
    dsimp only
    rw [if_neg hpos.ne', hsuffix, hmultiplier]
    dsimp only
    rw [if_neg hlarge, ← hvalue, UInt64.ofNat_toNat]

end Accepted

/-! ## Output arguments -/

section Outputs

/-- `parseStackLimitValue`, with its output arguments `out` and `error`. -/
def parseStackLimitInto (input : CppString) (out : UInt64) (error : CppString) :
    Bool × UInt64 × CppString :=
  let trimmed := trimCopy input
  if trimmed = [] then (false, out, "stack limit is empty".toList)
  else
    let numberPart := trimmed.takeWhile Char.isDigit
    if numberPart = [] then (false, out, "stack limit must start with a number".toList)
    else
      match fromChars numberPart with
      | none => (false, out, "invalid numeric value".toList)
      | some base =>
        if base = 0 then (false, out, "stack limit must be greater than zero".toList)
        else
          match suffixMultiplier (trimCopy (trimmed.drop numberPart.length)) with
          | .error unsupported => (false, out, unsupported)
          | .ok multiplier =>
            if (2 ^ 64 - 1) / multiplier < base then
              (false, out, "stack limit is too large".toList)
            else (true, UInt64.ofNat (base * multiplier), error)

/-- The output argument is set where a value is returned, and the error elsewhere. -/
theorem parseStackLimitInto_eq (input : CppString) (out : UInt64) (error : CppString) :
    parseStackLimitInto input out error =
      match parseStackLimitValue input with
      | .ok value => (true, value, error)
      | .error message => (false, out, message) := by
  unfold parseStackLimitInto parseStackLimitValue
  dsimp only
  split_ifs with hempty hdigits
  · rfl
  · rfl
  · cases fromChars ((trimCopy input).takeWhile Char.isDigit) with
    | none => rfl
    | some base =>
      dsimp only
      split_ifs with hzero
      · rfl
      · cases suffixMultiplier (trimCopy ((trimCopy input).drop
          ((trimCopy input).takeWhile Char.isDigit).length)) with
        | error message => rfl
        | ok multiplier =>
          dsimp only
          split_ifs <;> rfl

/-- **Stack limits are parsed exactly**: parsing succeeds for positive numbers of units that fit in
64 bits, and then the output argument is the number of bytes; otherwise it stays as it is. -/
theorem parseStackLimitInto_spec (input : CppString) (out : UInt64) (error : CppString) :
    ((parseStackLimitInto input out error).1 = true ↔
      ∃ number unit, IsStackLimit input number unit ∧ 0 < number ∧ number * unit < 2 ^ 64) ∧
    ((parseStackLimitInto input out error).1 = true →
      ∀ number unit, IsStackLimit input number unit →
        (parseStackLimitInto input out error).2.1.toNat = number * unit) ∧
    ((parseStackLimitInto input out error).1 = false →
      (parseStackLimitInto input out error).2.1 = out) := by
  rw [parseStackLimitInto_eq]
  cases hparse : parseStackLimitValue input with
  | ok value =>
    obtain ⟨number, unit, hlimit, hpos, hfits, hvalue⟩ :=
      (parseStackLimitValue_eq_ok_iff input value).mp hparse
    refine ⟨iff_of_true rfl ⟨number, unit, hlimit, hpos, hfits⟩, fun _ number' unit' hlimit' => ?_,
      nofun⟩
    obtain ⟨rfl, rfl⟩ := hlimit.unique hlimit'
    exact hvalue
  | error message =>
    refine ⟨iff_of_false nofun ?_, nofun, fun _ => rfl⟩
    rintro ⟨number, unit, hlimit, hpos, hfits⟩
    have hok := (parseStackLimitValue_eq_ok_iff input (UInt64.ofNat (number * unit))).mpr
      ⟨number, unit, hlimit, hpos, hfits, UInt64.toNat_ofNat_of_lt' hfits⟩
    rw [hparse] at hok
    cases hok

end Outputs

end StackAnalyzer.Cli
