import UrlPattern.Text.Hex
import UrlPattern.ValueType

/-!
# Types over an alphabet

A host may describe a type of its own by an alphabet, bounds on the number of characters and what a
text stands for: itself, its length, or a number in base 16. Such a type brings its own expression,
which constraints do not narrow.

Specification: `SPEC_FULL.md` §4.1 (lines 44–45).
-/

namespace UrlPattern

/-- What a text over an alphabet stands for. -/
inductive Reading where
  /-- The text itself. -/
  | text
  /-- Its number of characters. -/
  | length
  /-- The integer that it writes in base 16. -/
  | hex
  deriving DecidableEq

/-- A type given by an alphabet. -/
structure Alphabet where
  /-- The name that a pattern writes. -/
  name : String
  /-- The regular expression of a group. -/
  pattern : String
  /-- The characters that a text may have. -/
  chars : List Char
  /-- The least number of characters. -/
  min : Nat
  /-- The greatest number of characters. -/
  max : Nat
  /-- What a text stands for. -/
  reading : Reading
  /-- The kinds of constraints that the type supports. -/
  supported : List ConstraintKind

namespace Alphabet

/-- Adds a hex digit behind a number, unless that makes it larger than any integer's size. -/
def pushHexDigit (n : Nat) (c : Char) : Option Nat :=
  (Text.hexValue? c).bind fun d ↦ if 16 * n + d ≤ Text.sizeMax then some (16 * n + d) else none

/-- Reads the size of an integer from hex digits. -/
def readHexDigits (cs : List Char) : Option Nat :=
  if cs = [] then none else cs.foldlM pushHexDigit 0

/-- Reads an integer in base 16 with an optional sign. -/
def readHex (cs : List Char) : Option Int64 :=
  match cs with
  | '-' :: ds => (readHexDigits ds).bind fun n ↦ Text.integerOf (-n)
  | '+' :: ds => (readHexDigits ds).bind fun n ↦ Text.integerOf n
  | ds => (readHexDigits ds).bind fun n ↦ Text.integerOf n

/-- Whether a text belongs to the type. -/
def admits (a : Alphabet) (raw : String) : Bool :=
  decide (a.min ≤ raw.length) && decide (raw.length ≤ a.max) &&
    raw.toList.all fun c ↦ a.chars.contains c

/-- The value of a text. -/
def value? (a : Alphabet) (raw : String) : Option Value :=
  if a.admits raw then
    match a.reading with
    | .text => some (.text raw)
    | .length => (Text.integerOf raw.length).map .int
    | .hex => (readHex raw.toList).map .int
  else none

/-- The text of a value: base 16 for an integer that is not negative if texts are read so, else the
plain text. -/
def format (a : Alphabet) (v : Value) : String :=
  match a.reading, v with
  | .hex, .int n =>
    if 0 ≤ n.toInt then String.ofList (Nat.toDigits 16 n.toInt.natAbs) else v.render
  | _, _ => v.render

/-- The type over the alphabet. -/
def valueType (a : Alphabet) : ValueType where
  name := a.name
  pattern := a.pattern
  supported := a.supported
  convert := ValueType.convertWith a.name a.value?
  format := a.format

end Alphabet

end UrlPattern
