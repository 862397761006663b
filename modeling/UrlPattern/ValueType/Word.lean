import UrlPattern.ValueType

/-!
# Words

The type `string`: one or more letters and digits of ASCII, underscores and hyphens. An empty
capture counts as none, so the expression of a word never matches the empty text, whatever
`minLen` says.

Specification: `SPEC_FULL.md` §10.3 (lines 204–207).
-/

namespace UrlPattern.ValueType

/-- Whether a character may stand in a word. -/
def isWordChar (c : Char) : Bool := c.isAlphanum || c = '_' || c = '-'

/-- The expression of one character of a word. -/
def wordClass : String := "[a-zA-Z0-9_-]"

/-- The expression of a word within bounds on its length. `SPEC_FULL.md:204–206`. -/
def wordPattern (minLen maxLen : Option Nat) : String :=
  let least := Nat.max 1 (minLen.getD 1)
  match maxLen with
  | some greatest =>
    wordClass ++ "\x7b" ++ Text.renderNat least ++ "," ++ Text.renderNat greatest ++ "\x7d"
  | none =>
    if least = 1 then wordClass ++ "+"
    else wordClass ++ "\x7b" ++ Text.renderNat least ++ ",\x7d"

/-- The value of a text: the text itself, if it is a word. -/
def wordValue? (raw : String) : Option Value :=
  if raw ≠ "" ∧ raw.toList.all isWordChar then some (.text raw) else none

/-- The type of words. `SPEC_FULL.md:204–207`. -/
def word : ValueType where
  name := "string"
  pattern := wordClass ++ "+"
  constrainedPattern cs := wordPattern (Constraint.minLen? cs) (Constraint.maxLen? cs)
  supported := [.minLen, .maxLen, .startsWith, .endsWith, .contains, .fallback]
  convert := convertWith "string" wordValue?
  checkConstraints cs :=
    match Constraint.minLen? cs, Constraint.maxLen? cs with
    | some least, some greatest =>
      if greatest < least then .error (.contradiction .minLen .maxLen) else .ok ()
    | _, _ => .ok ()

theorem convert?_word_eq_some_iff {raw : String} {v : Value} : word.convert? raw = some v ↔
    (raw ≠ "" ∧ raw.toList.all isWordChar = true) ∧ v = .text raw := by
  have hvalue : word.convert? raw = wordValue? raw := toOption_convertWith "string" wordValue? raw
  rw [hvalue, wordValue?, Option.ite_none_right_eq_some, Option.some_inj, eq_comm (a := v)]

end UrlPattern.ValueType
