import UrlPattern.Prefilter

/-!
# Pattern sets

Patterns that are tried in order, behind a common pre-filter.

Specification: `SPEC_FULL.md` §10.7 (lines 239–243).
-/

namespace UrlPattern

/-- Patterns in the order in which they are tried, with their pre-filter. `SPEC_FULL.md:241`. -/
structure PatternSet where
  patterns : List Pattern
  prefilter : Prefilter

namespace PatternSet

/-- The set of some patterns, with the pre-filter made for them. -/
def ofPatterns (options : PrefilterOptions) (patterns : List Pattern) : PatternSet :=
  ⟨patterns, .ofPatterns options patterns⟩

/-- The set without patterns. -/
def empty : PatternSet := ofPatterns .standard []

/-- The first of several patterns that matches, by its place from a number on, with its result. -/
def findFrom? (input : String) (place : Nat) : List Pattern → Option (Nat × MatchResult)
  | [] => none
  | p :: ps =>
    match p.match? input with
    | some r => some (place, r)
    | none => findFrom? input (place + 1) ps

/-- The first pattern that matches an input which the pre-filter lets pass, with its result.
`SPEC_FULL.md:242–243`. -/
def find? (s : PatternSet) (input : String) : Option (Nat × MatchResult) :=
  if s.prefilter.supports input then findFrom? input 0 s.patterns else none

end PatternSet

end UrlPattern
