import UrlPattern.Regex

/-!
# The room an expression takes

An expression runs as an automaton over the bytes of the input, in which every counted repetition is
written out. The footprint is the size of that automaton in bytes: a state takes 32, a step on a
range of bytes 8, a choice 4 for each of its branches.

A set of characters is a small automaton of its own. The bytes of its characters are grouped into
sequences of byte ranges, and sequences that end alike share their last states.
-/

namespace UrlPattern.Regex

/-- A closed range of bytes. -/
abbrev ByteRange := Nat × Nat

/-- The code points of one length in bytes: the closed range of them, what the first byte is counted
from, and how many bytes of six bits follow it. -/
structure Width where
  low : Nat
  high : Nat
  lead : Nat
  followers : Nat

/-- The code points by the length of their encoding. Surrogates have none. -/
def widths : List Width :=
  [⟨0, 0x7F, 0, 0⟩, ⟨0x80, 0x7FF, 0xC0, 1⟩, ⟨0x800, 0xD7FF, 0xE0, 2⟩, ⟨0xE000, 0xFFFF, 0xE0, 2⟩,
   ⟨0x10000, 0x10FFFF, 0xF0, 3⟩]

/-- What the bytes behind the first are counted from. -/
def followerLead : Nat := 0x80

/-- Any byte behind the first. -/
def anyFollower : ByteRange := (0x80, 0xBF)

/-- The sequences of byte ranges that encode a closed range of numbers in a first byte and so many
followers. -/
def sequences (lead : Nat) : Nat → Nat → Nat → List (List ByteRange)
  | 0, low, high => [[(lead + low, lead + high)]]
  | n + 1, low, high =>
    let size := Nat.pow 64 (n + 1)
    let first := low / size
    let last := high / size
    let under (digit low high : Nat) : List (List ByteRange) :=
      (sequences followerLead n low high).map ((lead + digit, lead + digit) :: ·)
    if first = last then under first (low % size) (high % size)
    else
      let opening := if low % size = 0 then [] else under first (low % size) (size - 1)
      let closing := if high % size = size - 1 then [] else under last 0 (high % size)
      let firstWhole := if opening = [] then first else first + 1
      let wholes := (if closing = [] then last + 1 else last) - firstWhole
      let middle :=
        if wholes = 0 then []
        else [(lead + firstWhole, lead + firstWhole + wholes - 1)
          :: List.replicate (n + 1) anyFollower]
      opening ++ middle ++ closing

/-- The sequences of byte ranges that encode the characters of a set, ascending. -/
def setSequences (s : CharSet) : List (List ByteRange) :=
  s.ranges.flatMap fun r ↦ widths.flatMap fun w ↦
    let low := max r.1 w.low
    let high := min r.2 w.high
    if low ≤ high then sequences w.lead w.followers low high else []

/-- The sequences of a state by their first range: the steps that lead on, and what is left of the
sequences behind each. -/
def steps : List (List ByteRange) → List (ByteRange × List (List ByteRange))
  | [] => []
  | [] :: others => steps others
  | (range :: rest) :: others =>
    match steps others with
    | (range', rests) :: later =>
      if range = range' then (range, rest :: rests) :: later
      else (range, [rest]) :: (range', rests) :: later
    | [] => [(range, [rest])]

/-- Adds the states that a state leads to in at most so many steps, itself included. The last state
of all, where nothing is left, is not counted. -/
def addStates : Nat → List (List (List ByteRange)) → List (List ByteRange) →
    List (List (List ByteRange))
  | 0, found, _ => found
  | n + 1, found, state =>
    if state = [[]] ∨ state ∈ found then found
    else (steps state).foldl (fun found step ↦ addStates n found step.2) (state :: found)

/-- The greatest number of bytes in a character. -/
def bytesMax : Nat := 4

/-- The room of a set. -/
def setFootprint (s : CharSet) : Nat :=
  match s.single? with
  | some c => 32 * c.utf8Size
  | none =>
    let states := addStates bytesMax [] (setSequences s)
    states.foldl (fun size state ↦ size + 32 + 8 * (steps state).length) 32

/-- Whether the expression may match the empty text, judged by its form. -/
def isSkippable : Regex → Bool
  | empty => true
  | char _ => false
  | set s _ => s.changes.isEmpty
  | start => true
  | finish => true
  | wordEdge _ => true
  | cat a b => a.isSkippable && b.isSkippable
  | alt a b => a.isSkippable || b.isSkippable
  | rep r least _ _ => least == 0 || r.isSkippable
  | group _ r => r.isSkippable

/-- The room of copies of an expression that takes a given room by itself: one state for none at
all, and a choice before each copy that may be left out. -/
def copiesFootprint (size : Nat) (skippable : Bool) (least : Nat) : Option Nat → Nat
  | none =>
    if least = 0 then if skippable then size + 112 else size + 40
    else size * least + 40
  | some most =>
    if most = 0 then 32
    else if least = most then size * most
    else if least = 0 ∧ most = 1 then size + 72
    else max (size * least) 32 + 32 + (size + 40) * (most - least)

/-- The room of an expression. -/
def footprint : Regex → Nat
  | empty => 32
  | char c => 32 * c.utf8Size
  | set s _ => setFootprint s
  | start => 32
  | finish => 32
  | wordEdge _ => 32
  | cat a b => a.footprint + b.footprint
  | alt a b =>
    a.footprint + b.footprint + match a with
      | alt .. => 4
      | _ => 72
  | rep r least most _ =>
    copiesFootprint r.footprint r.isSkippable (r.leastCopies least) (r.mostCopies most)
  | group none r => r.footprint
  | group (some _) r => r.footprint + 64

/-- The largest footprint allowed. -/
def footprintLimit : Nat := 10485760

/-- Whether the expression keeps within the limits on nesting and on room. -/
def isWithinLimits (r : Regex) : Bool :=
  decide (r.nesting ≤ nestingLimit) && decide (r.footprint ≤ footprintLimit)

end UrlPattern.Regex
