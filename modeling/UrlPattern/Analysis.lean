import UrlPattern.ByteSet
import UrlPattern.Text.Run
import UrlPattern.Tree

/-!
# Analysis of trees

Bounds on the length of the texts that a tree can match, the literals it contains and the bytes it
can produce. A group is a black box: its type is tried on runs of one printable character, and on
runs with one foreign character, so types that a host brings are treated like any other. Lengths are
cut off at a ceiling.

Specification: `SPEC_FULL.md` §4.8 (lines 71–72) and §10.9 (lines 266–281).
-/

namespace UrlPattern

/-- Limits of an analysis. `SPEC_FULL.md:173–174`. -/
structure AnalysisOptions where
  /-- No greatest length exceeds this. -/
  ceiling : Nat
  /-- No longer run is tried on a type. -/
  probeLimit : Nat
  deriving DecidableEq

/-- The limits of an analysis that is not told otherwise. -/
def AnalysisOptions.standard : AnalysisOptions := ⟨10000, 1024⟩

instance : Inhabited AnalysisOptions := ⟨.standard⟩

/-- What is known of the texts that a node can match. `SPEC_FULL.md:72`. -/
structure Analysis where
  /-- The least number of bytes. -/
  minLen : Nat
  /-- The greatest number of bytes. -/
  maxLen : Nat
  /-- The literals, and whether a match may lack them. -/
  literals : Table String Bool
  /-- The bytes that may occur. -/
  chars : ByteSet
  deriving DecidableEq

namespace Analysis

/-- The analysis of nothing. -/
def empty : Analysis := ⟨0, 0, ∅, .empty⟩

/-- The analysis of one node directly behind another. A literal of both that one of them must have
is one that the whole must have. -/
def followedBy (ceiling : Nat) (a b : Analysis) : Analysis where
  minLen := min (a.minLen + b.minLen) ceiling
  maxLen := min (a.maxLen + b.maxLen) ceiling
  literals := b.literals.toList.foldl (fun t e ↦ t.insertWith (· && ·) e.1 e.2) a.literals
  chars := a.chars.union b.chars

/-- The analysis of a node that may be left out. -/
def madeOptional (a : Analysis) : Analysis :=
  { a with minLen := 0, literals := a.literals.map fun _ ↦ true }

/-- The analysis of a literal. -/
def ofText (ceiling : Nat) (text : String) : Analysis where
  minLen := min text.utf8ByteSize ceiling
  maxLen := min text.utf8ByteSize ceiling
  literals := Table.empty.insert text false
  chars := .ofText text

end Analysis

/-- The printable characters, which groups are tried on. -/
def printableChars : List Char := (List.range' 32 95).map Char.ofNat

namespace Group

/-- Whether a text gives the group a value. -/
def accepts (g : Group) (text : String) : Bool :=
  match g.type.parseValue (some text) g.constraints with
  | .ok _ => true
  | .error _ => false

/-- Whether so many repetitions of one character give the group a value. `SPEC_FULL.md:268–269`. -/
def acceptsRun (g : Group) (c : Char) (n : Nat) : Bool := g.accepts (Text.run c n)

/-- The shortest accepted run among so many lengths from one on, with its character.
`SPEC_FULL.md:270–271`. -/
def shortestRunFrom? (g : Group) (n : Nat) : (lengths : Nat) → Option (Nat × Char)
  | 0 => none
  | lengths + 1 =>
    match printableChars.find? fun c ↦ g.acceptsRun c n with
    | some c => some (n, c)
    | none => g.shortestRunFrom? (n + 1) lengths

/-- A length below `high` whose run is accepted, found by halving from an accepted length `low` on.
It is the greatest such length if the accepted ones from `low` on have no gap.
`SPEC_FULL.md:276–278`. -/
def longestRun (g : Group) (c : Char) (low high : Nat) : Nat :=
  if high - low ≤ 1 then low
  else
    let middle := low + (high - low) / 2
    if g.acceptsRun c middle then g.longestRun c middle high else g.longestRun c low middle
termination_by high - low

/-- A run of one character with another around it or in its place at either end. -/
def variants (run : List Char) (c : Char) : List String :=
  [c :: run, run ++ [c], c :: run.tail, run.dropLast ++ [c]].map String.ofList

/-- The characters that occur in accepted texts, as far as runs and their variants tell.
`SPEC_FULL.md:272–275`. -/
def acceptedChars (g : Group) (n : Nat) (first : Char) : List Char :=
  printableChars.filter fun c ↦
    c = first || g.acceptsRun c n || (variants (List.replicate n first) c).any g.accepts

/-- The length of the longest accepted run of any of the characters, or the ceiling if a run of the
greatest length tried is accepted. `SPEC_FULL.md:276–278`. -/
def longestRunOf (g : Group) (options : AnalysisOptions) (limit n : Nat) (chars : List Char) :
    Nat :=
  if chars.any fun c ↦ g.acceptsRun c limit then options.ceiling
  else
    chars.foldl
      (fun longest c ↦
        if g.acceptsRun c n then max longest (g.longestRun c n limit) else longest)
      n

/-- The analysis of a group. Of a group that accepts no run nothing is known.
`SPEC_FULL.md:279–281`. -/
def analysis (g : Group) (options : AnalysisOptions) : Analysis :=
  let limit := max options.probeLimit 1
  match g.shortestRunFrom? 1 limit with
  | none => ⟨0, options.ceiling, ∅, .printable⟩
  | some (n, first) =>
    let chars := g.acceptedChars n first
    { minLen := n
      maxLen := min (g.longestRunOf options limit n chars) options.ceiling
      literals := ∅
      chars := .ofList (chars.map fun c ↦ UInt8.ofNat c.toNat) }

end Group

namespace Node

mutual

/-- The analysis of a node and all below it. -/
def analysis (options : AnalysisOptions) : Node → Analysis
  | literal text _ => .ofText options.ceiling text
  | group g => g.analysis options
  | sequence children _ => analysisFrom options .empty children
  | optional children _ => (analysisFrom options .empty children).madeOptional

/-- The analysis of several nodes that follow something analyzed before. `SPEC_FULL.md:72`. -/
def analysisFrom (options : AnalysisOptions) (before : Analysis) : List Node → Analysis
  | [] => before
  | n :: ns => analysisFrom options (before.followedBy options.ceiling (n.analysis options)) ns

end

end Node

end UrlPattern
