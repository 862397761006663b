import UrlPattern.CharSet
import UrlPattern.Text.Utf8

/-!
# Regular expressions

The syntax trees of regular expressions and what bounds them. An expression is read by
`Regex.Parser`, and `Regex.Matching` says what it matches.

Two limits keep expressions tractable: how deep constructs may nest (`Regex.nesting`), and how large
the expression becomes once its counted repetitions are written out (`Regex.Footprint`).

Specification: `SPEC_FULL.md` §10.2 (lines 184–187).
-/

namespace UrlPattern

/-- A demand on a place between two characters: which of them belong to words. -/
inductive WordEdge where
  /-- Exactly one of them: a word starts or ends. -/
  | either
  /-- Both or none: no word starts or ends. -/
  | neither
  /-- Only the one behind: a word starts. -/
  | start
  /-- Only the one before: a word ends. -/
  | finish
  /-- Not the one before, whatever is behind. -/
  | startHalf
  /-- Not the one behind, whatever is before. -/
  | finishHalf
  deriving DecidableEq

/-- Whether the demand is met, given whether the characters before and behind belong to words. The
ends of the input belong to none. -/
def WordEdge.holds (e : WordEdge) (before behind : Bool) : Bool :=
  match e with
  | either => before != behind
  | neither => before == behind
  | start => !before && behind
  | finish => before && !behind
  | startHalf => !before
  | finishHalf => !behind

/-- A regular expression. -/
inductive Regex where
  /-- The empty text. -/
  | empty
  /-- One given character. -/
  | char (c : Char)
  /-- One character of a set, in whose notation brackets, unions and operators nest so deep. -/
  | set (s : CharSet) (nesting : Nat)
  /-- The start of the input. -/
  | start
  /-- The end of the input. -/
  | finish
  /-- A place where words start or end, or where none does. -/
  | wordEdge (e : WordEdge)
  /-- One expression after the other. -/
  | cat (a b : Regex)
  /-- The first expression, or else the second. -/
  | alt (a b : Regex)
  /-- At least and at most so many copies in a row, preferably many (greedy) or few. -/
  | rep (r : Regex) (least : Nat) (most : Option Nat) (greedy : Bool)
  /-- A group, which captures what it matches if it has a name. A group that captures without a name
  has the empty one. -/
  | group (name : Option String) (r : Regex)
  deriving DecidableEq

namespace Regex

/-- How deep groups, repetitions, alternatives, sequences and the parts of sets nest. A sequence of
many parts is one construct, and so is a choice among many. -/
def nesting : Regex → Nat
  | empty => 0
  | char _ => 0
  | set _ n => n
  | start => 0
  | finish => 0
  | wordEdge _ => 0
  | cat a b =>
    max (match a with
      | cat .. => a.nesting
      | _ => a.nesting + 1) (b.nesting + 1)
  | alt a b =>
    max (match a with
      | alt .. => a.nesting
      | _ => a.nesting + 1) (b.nesting + 1)
  | rep r _ _ _ => r.nesting + 1
  | group _ r => r.nesting + 1

/-- The deepest nesting allowed. -/
def nestingLimit : Nat := 250

/-- Whether the expression can match nothing but the empty text, judged by its form. -/
def isWidthless : Regex → Bool
  | empty => true
  | char _ => false
  | set _ _ => false
  | start => true
  | finish => true
  | wordEdge _ => true
  | cat a b => a.isWidthless && b.isWidthless
  | alt a b => a.isWidthless && b.isWidthless
  | rep r _ most _ => r.isWidthless || most == some 0
  | group _ r => r.isWidthless

/-- The least number of copies in a repetition that make a difference: of an expression without
width, one copy matches as much as many. -/
def leastCopies (r : Regex) (least : Nat) : Nat := if r.isWidthless then min least 1 else least

/-- The greatest number of copies in a repetition that make a difference. -/
def mostCopies (r : Regex) (most : Option Nat) : Option Nat :=
  if r.isWidthless then some (min (most.getD 1) 1) else most

/-- The names of the capturing groups, from left to right. -/
def captureNames : Regex → List String
  | cat a b => a.captureNames ++ b.captureNames
  | alt a b => a.captureNames ++ b.captureNames
  | rep r _ _ _ => r.captureNames
  | group (some name) r => name :: r.captureNames
  | group none r => r.captureNames
  | _ => []

/-- The characters with a meaning of their own in an expression. -/
def metaChars : List Char :=
  ['\\', '.', '+', '*', '?', '(', ')', '|', '[', ']', '\x7b', '\x7d', '^', '$', '#', '&', '-', '~']

/-- A character in an expression that means the character itself. -/
def escapeChar (c : Char) : List Char := if metaChars.contains c then ['\\', c] else [c]

/-- The expression that matches a text and nothing else. -/
def escape (s : String) : String := String.ofList (s.toList.flatMap escapeChar)

end Regex

end UrlPattern
