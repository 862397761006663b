import UrlPattern.Regex.Matching
import UrlPattern.Regex.Parser

/-!
# Backends for regular expressions

Patterns do not match texts themselves: a backend reads their expressions and finds the first match
of an expression in a text. Which expressions there are beyond those that trees give rise to depends
on the backend alone, so what does not concern the expressions holds for every backend. The standard
one is the engine of this library.

Specification: `SPEC_FULL.md` §10.2 (lines 184–187).
-/

namespace UrlPattern

/-- What reads regular expressions and matches them. -/
structure Backend where
  /-- The expressions as read. -/
  Expr : Type
  /-- Reads an expression; none if it is refused. -/
  parse? : String → Option Expr
  /-- Whether an expression matches somewhere in a text. -/
  isMatch : Expr → String → Bool
  /-- What the groups captured in the first match in a text, by their names, if there is a match. -/
  captures? : Expr → String → Option (String → Option String)
  /-- There is a first match exactly if there is a match. -/
  isSome_captures? : ∀ e input, (captures? e input).isSome = isMatch e input

/-- The backend of this library. -/
@[reducible] def Backend.standard : Backend where
  Expr := Regex
  parse? := Regex.parse?
  isMatch := Regex.isMatch
  captures? e input := (e.captures? input).map Regex.capturedText?
  isSome_captures? _ _ := Option.isSome_map

instance : Inhabited Backend := ⟨.standard⟩

end UrlPattern
