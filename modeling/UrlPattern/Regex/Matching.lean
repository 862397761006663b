import UrlPattern.Regex
import UrlPattern.Regex.Positions
import UrlPattern.Text.Word

/-!
# Matching

`Regex.ends` lists where an expression may end when it starts at one of several cursors, the
preferred end first: an earlier cursor before a later one, the first alternative before the second,
and of a repetition the longest (or, lazily, the shortest) run first. What follows an expression
depends on where it ended alone, so of several ways to the same place only the preferred one is
kept. A search starts at every place of the input, from left to right, and takes the first end.

A repetition without an upper bound goes round until a round stays in place. Such a round counts
only if none came before it, so a copy that matches nothing never takes the place of one that
matched something.

Specification: `SPEC_FULL.md` §10.2 (lines 184–187).
-/

namespace UrlPattern.Regex

/-- A piece of the input that a named group matched: so many characters from a given place on. -/
structure Capture where
  name : String
  source : List Char
  length : Nat

/-- The captured text. -/
def Capture.text (c : Capture) : String := String.ofList (c.source.take c.length)

/-- A place in the input. -/
structure Place where
  /-- The character before, unless it is the start. -/
  before : Option Char
  /-- The input from here on. -/
  rest : List Char
  /-- How many characters lie before. -/
  pos : Nat

/-- A place in the input on the way through an expression. -/
structure Cursor extends Place where
  /-- Where the groups around began, the innermost first. -/
  opened : List Place
  /-- What named groups have matched so far, the latest first. -/
  captures : List Capture

namespace Cursor

/-- The cursor behind the next character. -/
def advance (c : Cursor) (a : Char) (rest : List Char) : Cursor :=
  { c with before := some a, rest, pos := c.pos + 1 }

/-- Enters a group. -/
def openGroup (c : Cursor) : Cursor := { c with opened := c.toPlace :: c.opened }

/-- Leaves the innermost group, which has a name. -/
def closeGroup (name : String) (c : Cursor) : Cursor :=
  match c.opened with
  | place :: opened =>
    { c with opened, captures := ⟨name, place.rest, c.pos - place.pos⟩ :: c.captures }
  | [] => c

/-- The cursor behind the next character if that passes a test. -/
def step? (p : Char → Bool) (c : Cursor) : Option Cursor :=
  match c.rest with
  | a :: rest => if p a then some (c.advance a rest) else none
  | [] => none

/-- Whether a demand on the characters before and behind is met. -/
def isAtEdge (e : WordEdge) (c : Cursor) : Bool :=
  e.holds (c.before.any Text.wordChars.contains) (c.rest.head?.any Text.wordChars.contains)

/-- The cursors at every place of a text, from left to right. -/
def starts (before : Option Char) (pos : Nat) : List Char → List Cursor
  | [] => [⟨⟨before, [], pos⟩, [], []⟩]
  | a :: rest => ⟨⟨before, a :: rest, pos⟩, [], []⟩ :: starts (some a) (pos + 1) rest

end Cursor

/-- The cursors found so far, at most one at each place. -/
structure Found where
  /-- The positions of the places found. -/
  seen : Positions
  /-- The cursors, the latest first. -/
  latest : List Cursor

namespace Found

/-- Nothing found. Search results are expected from the given position on. -/
def none (first : Nat) : Found := ⟨.empty first, []⟩

/-- Whether a place is found. -/
def has (f : Found) (pos : Nat) : Bool := f.seen.has pos

/-- Adds a cursor unless its place is found. -/
def add (f : Found) (c : Cursor) : Found :=
  if f.has c.pos then f else ⟨f.seen.insert c.pos, c :: f.latest⟩

/-- The cursors in the order in which they were found. -/
def toList (f : Found) : List Cursor := f.latest.reverse

/-- Adding a cursor finds its place and no other. -/
theorem has_add (f : Found) (c : Cursor) (pos : Nat) :
    (f.add c).has pos = (pos == c.pos || f.has pos) := by
  unfold add
  split
  · rename_i h
    by_cases hp : pos = c.pos
    · simp [hp, h]
    · simp [hp]
  · exact f.seen.has_insert c.pos pos

end Found

/-- The least position of a cursor. -/
def leastPos : List Cursor → Nat
  | [] => 0
  | c :: cs => cs.foldl (fun pos c ↦ min pos c.pos) c.pos

/-- The first cursor at each place, in order. -/
def distinct (cs : List Cursor) : List Cursor :=
  (cs.foldl Found.add (Found.none (leastPos cs))).toList

/-- The first cursor at each place over all rows, each in its row. -/
def distinctRows (seen : Positions) : List (List Cursor) → List (List Cursor)
  | [] => []
  | row :: rows =>
    let f := row.foldl Found.add ⟨seen, []⟩
    f.toList :: distinctRows f.seen rows

/-- Puts the ends of a run of characters that pass a test in front of the ends of shorter runs, the
longest run first, with bounds on its length and leaving out positions that were seen. A run without
an upper bound stops at such a position, from where all longer runs were seen too. -/
def runEnds (p : Char → Bool) (seen : Positions) (c : Cursor) :
    Nat → Option Nat → Option Char → List Char → Nat → List Cursor → List Cursor
  | least, most, before, rest, pos, shorter =>
    let isNew := !seen.has pos
    if least = 0 ∧ most = none ∧ ¬ isNew then shorter
    else
      let longer := if least = 0 ∧ isNew then { c with before, rest, pos } :: shorter else shorter
      match rest with
      | [] => longer
      | a :: rest =>
        if most ≠ some 0 ∧ p a then
          runEnds p seen c (least - 1) (most.map (· - 1)) (some a) rest (pos + 1) longer
        else longer

/-- The ends of a repetition of one character that passes a test. -/
def runs (p : Char → Bool) (least : Nat) (most : Option Nat) (greedy : Bool) (cs : List Cursor) :
    List Cursor :=
  (cs.foldl (fun f c ↦
    let ends := runEnds p f.seen c least most c.before c.rest c.pos []
    (if greedy then ends else ends.reverse).foldl Found.add f) (Found.none (leastPos cs))).toList

/-- The ends of exactly so many copies. -/
def times (copy : List Cursor → List Cursor) : Nat → List Cursor → List Cursor
  | 0, cs => cs
  | n + 1, cs => if cs.isEmpty then [] else times copy n (copy cs)

/-- The ends of what follows the first copy of a repetition that began at a cursor: of a copy that
moved on what is given for it in turn, and of one that stayed in place that place. -/
def follow (c : Cursor) : List Cursor → List (List Cursor) → List Cursor
  | [], _ => []
  | d :: ds, further =>
    if c.pos < d.pos then
      match further with
      | ends :: further => ends ++ follow c ds further
      | [] => follow c ds []
    else d :: follow c ds further

/-- Goes on behind the first copies, given for each cursor, with what follows those that moved on,
given for each of them. -/
def followAll (greedy : Bool) :
    List Cursor → List (List Cursor) → List (List Cursor) → List (List Cursor)
  | c :: cs, first :: firsts, further =>
    let moved := (first.filter (c.pos < ·.pos)).length
    let ends := follow c first (further.take moved)
    (if greedy then ends ++ [c] else c :: ends)
      :: followAll greedy cs firsts (further.drop moved)
  | _, _, _ => []

/-- The ends of at most so many copies, for each cursor those that no earlier cursor has. -/
def upTo (copy : List Cursor → List Cursor) (greedy : Bool) : Nat → List Cursor → List (List Cursor)
  | 0, cs => cs.map fun c ↦ [c]
  | n + 1, cs =>
    let seen := Positions.empty (leastPos cs)
    let firsts := distinctRows seen (cs.map fun c ↦ copy [c])
    let moved := (cs.zip firsts).flatMap fun e ↦ e.2.filter (e.1.pos < ·.pos)
    let further := if moved.isEmpty then [] else upTo copy greedy n moved
    distinctRows seen (followAll greedy cs firsts further)

/-- Adds the ends of further copies behind a copy that moved on to a cursor, and then the cursor. A
place that was found is not explored again. The number of copies in a row is bounded by the
characters of a text, which the input behind the first copy must not exceed. -/
def explore (copy : List Cursor → List Cursor) (greedy : Bool) : List Char → Found → Cursor → Found
  | [], f, c => f.add c
  | _ :: bound, f, c =>
    if f.has c.pos then f
    else
      let further (f : Found) : Found :=
        (copy [c]).foldl (fun f d ↦ if c.pos < d.pos then explore copy greedy bound f d else f) f
      if greedy then (further f).add c else further (f.add c)

/-- Adds the ends of one or more copies that start at a cursor, and where a repetition may be left
out also the cursor. -/
def exploreFrom (copy : List Cursor → List Cursor) (optional greedy : Bool) (f : Found)
    (c : Cursor) : Found :=
  let copies (f : Found) : Found :=
    (copy [c]).foldl
      (fun f d ↦ if c.pos < d.pos then explore copy greedy c.rest f d else f.add d) f
  if optional then if greedy then (copies f).add c else copies (f.add c) else copies f

/-- The ends of a repetition. -/
def repEnds (copy : List Cursor → List Cursor) (least : Nat) (most : Option Nat) (greedy : Bool)
    (cs : List Cursor) : List Cursor :=
  match most with
  | some most => distinct (upTo copy greedy (most - least) (times copy least cs)).flatten
  | none =>
    let cs := times copy (least - 1) cs
    (cs.foldl (exploreFrom copy (least == 0) greedy) (Found.none (leastPos cs))).toList

/-- The test for one character, of an expression that always matches exactly one. -/
def single? : Regex → Option (Char → Bool)
  | char c => some (c == ·)
  | set s _ => some s.contains
  | _ => none

/-- Where an expression may end when it starts at one of several cursors, the preferred end first.
-/
def ends : Regex → List Cursor → List Cursor
  | empty, cs => cs
  | char a, cs => cs.filterMap (Cursor.step? (a == ·))
  | set s _, cs => cs.filterMap (Cursor.step? s.contains)
  | start, cs => cs.filter (·.pos == 0)
  | finish, cs => cs.filter (·.rest.isEmpty)
  | wordEdge e, cs => cs.filter (Cursor.isAtEdge e)
  | cat a b, cs => ends b (ends a cs)
  | alt a b, cs => distinct (cs.flatMap fun c ↦ ends a [c] ++ ends b [c])
  | rep r least most greedy, cs =>
    match r.single? with
    | some p => runs p least most greedy cs
    | none => repEnds (ends r) (r.leastCopies least) (r.mostCopies most) greedy cs
  | group none r, cs => ends r cs
  | group (some name) r, cs => (ends r (cs.map Cursor.openGroup)).map (Cursor.closeGroup name)

/-- The captures of the first match in a text, if there is a match. -/
def captures? (r : Regex) (input : String) : Option (List Capture) :=
  (r.ends (Cursor.starts none 0 input.toList)).head?.map (·.captures)

/-- Whether an expression matches somewhere in a text. -/
def isMatch (r : Regex) (input : String) : Bool := (r.captures? input).isSome

/-- What the group of a name captured last. -/
def capturedText? (captures : List Capture) (name : String) : Option String :=
  (captures.find? fun c ↦ c.name = name).map Capture.text

end UrlPattern.Regex
