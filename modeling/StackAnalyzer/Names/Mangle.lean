import Mathlib

set_option relaxedAutoImplicit false
set_option autoImplicit false

/-!
# Mangled names

Functions of different translation units are matched by their mangled names, from which the inline
namespaces of the standard library implementations have been removed.

## Main definitions

* `StackAnalyzer.canonicalizeMangledName` — the name under which a function is summarised.
* `StackAnalyzer.isStdLibCalleeName` — names of the standard library.
-/

namespace StackAnalyzer

/-- The loop that replaces a pattern: the search goes on where the replacement begins. The fuel is
used up by the characters of the text, of which each step takes at least one. -/
def replaceAll (pattern replacement : List Char) : ℕ → List Char → List Char
  | 0, text => text
  | n + 1, text =>
    if pattern.isPrefixOf text then
      replaceAll pattern replacement n (replacement ++ text.drop pattern.length)
    else
      match text with
      | [] => []
      | c :: rest => c :: replaceAll pattern replacement n rest

/-- `St3__1`, the mangling of `std::__1`. -/
def libcxxNamespace : List Char := ['S', 't', '3', '_', '_', '1']

/-- `St7__cxx11`, the mangling of `std::__cxx11`. -/
def libstdcxxNamespace : List Char := ['S', 't', '7', '_', '_', 'c', 'x', 'x', '1', '1']

/-- `canonicalizeMangledName`. -/
def canonicalizeMangledName (name : List Char) : List Char :=
  let result := replaceAll libcxxNamespace ['S', 't'] name.length name
  replaceAll libstdcxxNamespace ['S', 't'] result.length result

/-- The prefixes of the names of the standard library. -/
def stdLibPrefixes : List (List Char) :=
  [['_', 'Z', 'N', 'S', 't', '3', '_', '_', '1'],
    ['_', 'Z', 'N', 'S', 't', '7', '_', '_', 'c', 'x', 'x', '1', '1'],
    ['_', 'Z', 'S', 't'], ['_', 'Z', 'N', 'S', 't'], ['_', 'Z', 'N', 'K', 'S', 't']]

/-- `isStdLibCalleeName`: a leading `\01`, which keeps a name as it is, is not looked at. -/
def isStdLibCalleeName (name : List Char) : Bool :=
  let name := if name.head? = some (Char.ofNat 1) then name.drop 1 else name
  stdLibPrefixes.any fun p => p.isPrefixOf name

end StackAnalyzer
