import StackAnalyzer.Maps.EntryMap

set_option relaxedAutoImplicit false
set_option autoImplicit false

/-!
# JSON values

The values of a JSON document, the members of its objects, and the text that a printer with an
indentation of two writes. An object keeps its members in key order, the order in which they are
printed, so equal objects are equal lists.

## Main definitions

* `Formats.Json` — values, with the accessors that read one kind of value.
* `Formats.Members.set`, `Formats.Members.get` — the members of an object.
* `Formats.Json.pretty` — the indented text of a value.
* `Formats.JsonText` — a printer and a parser, `Formats.JsonText.Exact` for one value.
-/

namespace Formats

/-- A JSON value. A number that is not written as an integer keeps its text and the integer that
it equals, if any. -/
inductive Json
  | null
  | boolean (b : Bool)
  | integer (n : ℤ)
  | number (text : List Char) (asInteger : Option ℤ)
  | string (s : List Char)
  | array (vs : List Json)
  | object (ms : List (List Char × Json))

/-- The members of an object. -/
abbrev Members := List (List Char × Json)

namespace Members

/-- The value of a member. -/
def get (ms : Members) (key : List Char) : Option Json := Maps.lookup ms key

/-- Assign a member, at its place in key order. -/
def set : Members → List Char → Json → Members
  | [], key, v => [(key, v)]
  | m :: ms, key, v =>
    if m.1 = key then (key, v) :: ms
    else if key < m.1 then (key, v) :: m :: ms
    else m :: set ms key v

end Members

namespace Json

/-- The members, of an object. -/
def getAsObject : Json → Option Members
  | .object ms => some ms
  | _ => none

/-- The elements, of an array. -/
def getAsArray : Json → Option (List Json)
  | .array vs => some vs
  | _ => none

/-- The text, of a string. -/
def getAsString : Json → Option (List Char)
  | .string s => some s
  | _ => none

/-- The truth value, of a boolean. -/
def getAsBoolean : Json → Option Bool
  | .boolean b => some b
  | _ => none

/-- The integer that a number is. -/
def getAsInteger : Json → Option ℤ
  | .integer n => some n
  | .number _ asInteger => asInteger
  | _ => none

/-! ## Printing -/

/-- A control character, escaped. -/
def escapeControl (c : Char) : List Char :=
  if c = '\t' then ['t'] else if c = '\n' then ['n'] else if c = '\r' then ['r']
  else 'u' :: '0' :: '0' :: Nat.digitChar (c.toNat / 16) :: [Nat.digitChar (c.toNat % 16)]

/-- A string between quotation marks. -/
def quote (s : List Char) : List Char :=
  '"' :: (s.flatMap fun c =>
    if c = '"' ∨ c = '\\' then ['\\', c] else if c.toNat < 32 then '\\' :: escapeControl c
    else [c]) ++ ['"']

/-- A new line at an indentation. -/
def newline (depth : ℕ) : List Char := '\n' :: List.replicate (2 * depth) ' '

/-- An integer in decimal. -/
def printInteger (n : ℤ) : List Char :=
  if n < 0 then '-' :: Nat.toDigits 10 n.natAbs else Nat.toDigits 10 n.natAbs

mutual

/-- The text of a value, with two blanks for each level. -/
def pretty (depth : ℕ) : Json → List Char
  | .null => ['n', 'u', 'l', 'l']
  | .boolean true => ['t', 'r', 'u', 'e']
  | .boolean false => ['f', 'a', 'l', 's', 'e']
  | .integer n => printInteger n
  | .number text _ => text
  | .string s => quote s
  | .array [] => ['[', ']']
  | .array (v :: vs) =>
    '[' :: newline (depth + 1) ++ pretty (depth + 1) v ++ prettyElements (depth + 1) vs ++
      newline depth ++ [']']
  | .object [] => ['\x7b', '\x7d']
  | .object ((key, v) :: ms) =>
    '\x7b' :: newline (depth + 1) ++ quote key ++ ':' :: ' ' :: pretty (depth + 1) v ++
      prettyMembers (depth + 1) ms ++ newline depth ++ ['\x7d']

/-- The elements of an array after the first one. -/
def prettyElements (depth : ℕ) : List Json → List Char
  | [] => []
  | v :: vs => ',' :: newline depth ++ pretty depth v ++ prettyElements depth vs

/-- The members of an object after the first one. -/
def prettyMembers (depth : ℕ) : List (List Char × Json) → List Char
  | [] => []
  | (key, v) :: ms =>
    ',' :: newline depth ++ quote key ++ ':' :: ' ' :: pretty depth v ++ prettyMembers depth ms

end

end Json

/-- A printer and a parser of JSON text. -/
structure JsonText where
  print : Json → List Char
  parse : List Char → Option Json

/-- The text printed for a value is parsed as the value. -/
def JsonText.Exact (text : JsonText) (v : Json) : Prop := text.parse (text.print v) = some v

end Formats
