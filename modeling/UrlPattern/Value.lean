import UrlPattern.Text.Decimal

/-!
# Values of groups

What a group's type makes of the text that the group captured, and what generation turns back into
text.

Specification: `SPEC_FULL.md` §3 (line 38) and §10.3 (lines 194–210).
-/

namespace UrlPattern

/-- A typed value: an integer of 64 bits, or a text. `SPEC_FULL.md:202–207`. -/
inductive Value where
  | int (n : Int64)
  | text (s : String)
  deriving DecidableEq

namespace Value

/-- The integer, if the value is one. -/
def asInt? : Value → Option Int64
  | int n => some n
  | text _ => none

/-- The text, if the value is one. -/
def asText? : Value → Option String
  | int _ => none
  | text s => some s

/-- The plain text of a value: decimal digits, or the text itself. -/
def render : Value → String
  | int n => Text.renderInteger n
  | text s => s

end Value

end UrlPattern
