import UrlPattern.Regex.Bracket
import UrlPattern.Regex.Footprint
import UrlPattern.Text.Decimal

/-!
# Reading regular expressions

An expression is read character by character. The reader keeps the groups that are still open on a
stack and, within the innermost, the finished alternatives and the parts of the current one; its
mode says in the midst of what construct it is. Reading a text is a fold, so reading two texts one
after the other is reading their concatenation.

Read are: characters, `.`, `^`, `$`, escapes, sets in brackets, groups `(...)`, `(?:...)`,
`(?P<name>...)` and `(?<name>...)`, alternatives, and repetitions `?`, `*`, `+`, `{n}`, `{n,}`,
`{n,m}`, each lazily if a `?` follows. Directly behind `\b`, braces may also hold one of the words
`start`, `end`, `start-half` and `end-half`, which say what edge of a word is meant. Anything else
is refused: unbalanced brackets, a repetition of nothing, a reversed range, a count of `2 ^ 32` or
more, two groups of one name, flags, classes of Unicode properties.

Specification: `SPEC_FULL.md` §10.2 (lines 184–187).
-/

namespace UrlPattern.Regex

/-- In the midst of what construct the reader is. -/
inductive Mode where
  /-- Between two parts. -/
  | plain
  /-- Behind a repetition, which a `?` makes lazy. -/
  | repeated
  /-- Inside an escape. -/
  | escape (m : EscapeMode)
  /-- Inside the braces behind a part; the text so far, the last character first. -/
  | braces (text : List Char)
  /-- Behind an opening parenthesis. -/
  | opened
  /-- Behind `(?`. -/
  | openedMark
  /-- Behind `(?P`. -/
  | openedP
  /-- Inside the name of a group; the name so far, the last character first. -/
  | name (text : List Char)
  /-- Inside a set. -/
  | set (s : SetReader)

/-- An open group: its name, and what stands around it. -/
structure Frame where
  name : Option String
  branches : List Regex
  items : List Regex

/-- The state of the reader. -/
structure Reader where
  mode : Mode
  /-- The finished alternatives of the innermost open group, the last first. -/
  branches : List Regex
  /-- The parts of its current alternative, the last first. -/
  items : List Regex
  /-- The open groups, the innermost first. -/
  outer : List Frame
  /-- The names of groups read so far. -/
  names : List String

namespace Reader

/-- The reader before the first character. -/
def init : Reader := ⟨.plain, [], [], [], []⟩

/-- The sequence of parts that come the last first. -/
def sequence : List Regex → Regex
  | [] => .empty
  | [r] => r
  | r :: rest => .cat (sequence rest) r

/-- The choice among alternatives that come the last first. -/
def choice : List Regex → Regex
  | [] => .empty
  | [r] => r
  | r :: rest => .alt (choice rest) r

/-- The expression read in the innermost open group. -/
def current (b : Reader) : Regex := choice (sequence b.items :: b.branches)

/-- Adds a part. -/
def push (b : Reader) (r : Regex) : Reader := { b with mode := .plain, items := r :: b.items }

/-- Repeats the last part. -/
def repeatLast (b : Reader) (least : Nat) (most : Option Nat) : Option Reader :=
  match b.items with
  | r :: rest => some { b with mode := .repeated, items := .rep r least most true :: rest }
  | [] => none

/-- Makes the last repetition lazy. -/
def makeLazy (b : Reader) : Option Reader :=
  match b.items with
  | .rep r least most _ :: rest =>
    some { b with mode := .plain, items := .rep r least most false :: rest }
  | _ => none

/-- Opens a group. -/
def openGroup (b : Reader) (name : Option String) : Reader :=
  { b with
    mode := .plain
    branches := []
    items := []
    outer := ⟨name, b.branches, b.items⟩ :: b.outer }

/-- Closes the innermost group. -/
def closeGroup (b : Reader) : Option Reader :=
  match b.outer with
  | f :: outer =>
    some { b with
      mode := .plain
      branches := f.branches
      items := .group f.name b.current :: f.items
      outer }
  | [] => none

/-- The greatest number in a count. -/
def countMax : Nat := 0xffffffff

/-- Reads a number of a count, with blanks around it. -/
def readBound (cs : List Char) : Option Nat :=
  Text.readNatUpTo countMax (Text.trim cs)

/-- Reads the inside of the braces of a count. -/
def readCount (cs : List Char) : Option (Nat × Option Nat) :=
  let low := cs.takeWhile (· ≠ ',')
  match cs.dropWhile (· ≠ ',') with
  | [] => (readBound low).map fun n ↦ (n, some n)
  | [_] => (readBound low).map fun n ↦ (n, none)
  | _ :: high => do
    let n ← readBound low
    let m ← readBound high
    if n ≤ m then some (n, some m) else none

/-- The edge of a word that a word in braces names. -/
def namedEdge? (cs : List Char) : Option WordEdge :=
  match String.ofList cs with
  | "start" => some .start
  | "end" => some .finish
  | "start-half" => some .startHalf
  | "end-half" => some .finishHalf
  | _ => none

/-- Ends a pair of braces, given what it holds. -/
def endBraces (b : Reader) (cs : List Char) : Option Reader :=
  match b.items, namedEdge? cs with
  | .wordEdge .either :: rest, some e =>
    some { b with mode := .plain, items := .wordEdge e :: rest }
  | _, _ => (readCount cs).bind fun n ↦ b.repeatLast n.1 n.2

/-- Whether a character may stand in the name of a group, at its start or later. -/
def isNameChar (first : Bool) (c : Char) : Bool :=
  c = '_' || Text.alphabetic.contains c ||
    (!first && (c = '.' || c = '[' || c = ']' || Text.numeric.contains c))

/-- Ends the name of a group, given the last character first. -/
def endName (b : Reader) (text : List Char) : Option Reader :=
  let name := String.ofList text.reverse
  if text = [] ∨ b.names.contains name then none
  else some { b.openGroup (some name) with names := name :: b.names }

/-- Reads a character between two parts. -/
def stepPlain (b : Reader) (c : Char) : Option Reader :=
  match c with
  | '(' => some { b with mode := .opened }
  | ')' => b.closeGroup
  | '|' => some { b with mode := .plain, branches := sequence b.items :: b.branches, items := [] }
  | '[' => some { b with mode := .set .init }
  | '?' => b.repeatLast 0 (some 1)
  | '*' => b.repeatLast 0 none
  | '+' => b.repeatLast 1 none
  | '\x7b' => some { b with mode := .braces [] }
  | '\\' => some { b with mode := .escape .letter }
  | '^' => some (b.push .start)
  | '$' => some (b.push .finish)
  | '.' => some (b.push (.set (CharSet.single '\n').complement 0))
  | c => some (b.push (.char c))

/-- Goes on behind a step of an escape. -/
def behindEscape (b : Reader) : EscapeStep → Reader
  | .more m => { b with mode := .escape m }
  | .done (.char c) => b.push (.char c)
  | .done (.set s) => b.push (.set s 0)
  | .done (.edge r) => b.push r

/-- Goes on behind a step of a set, and gives what is to be read again. -/
def behindSet (b : Reader) : SetStep → Reader × List Char
  | .more s again => ({ b with mode := .set s }, again)
  | .done t => (b.push (.set t.chars t.nesting), [])

/-- Reads one character, and gives what is to be read again. -/
def stepOnce (b : Reader) (c : Char) : Option (Reader × List Char) :=
  match b.mode with
  | .plain => (b.stepPlain c).map fun b ↦ (b, [])
  | .repeated => (if c = '?' then b.makeLazy else b.stepPlain c).map fun b ↦ (b, [])
  | .escape m => (m.step c).map fun s ↦ (b.behindEscape s, [])
  | .braces text =>
    if c = '\x7d' then (b.endBraces text.reverse).map fun b ↦ (b, [])
    else some ({ b with mode := .braces (c :: text) }, [])
  | .opened =>
    if c = '?' then some ({ b with mode := .openedMark }, [])
    else ((b.openGroup (some "")).stepPlain c).map fun b ↦ (b, [])
  | .openedMark =>
    match c with
    | ':' => some (b.openGroup none, [])
    | 'P' => some ({ b with mode := .openedP }, [])
    | '<' => some ({ b with mode := .name [] }, [])
    | _ => none
  | .openedP => if c = '<' then some ({ b with mode := .name [] }, []) else none
  | .name text =>
    if c = '>' then (b.endName text).map fun b ↦ (b, [])
    else if isNameChar text.isEmpty c then some ({ b with mode := .name (c :: text) }, [])
    else none
  | .set s => (s.step c).map b.behindSet

/-- Reads characters again. None of them leads to reading a third time: they hold no colon but at
their start and directly before their last. -/
def readAgain (b : Reader) (cs : List Char) : Option Reader :=
  cs.foldlM (fun b c ↦ (b.stepOnce c).map (·.1)) b

/-- Reads one character. -/
def step (b : Reader) (c : Char) : Option Reader :=
  (b.stepOnce c).bind fun e ↦ e.1.readAgain e.2

/-- Reads again what is left where the text ends. -/
def settle (b : Reader) : Option Reader :=
  match b.mode with
  | .set s =>
    s.unread?.bind fun t ↦
      let e := b.behindSet t
      e.1.readAgain e.2
  | _ => some b

/-- Ends the reading. -/
def result (b : Reader) : Option Regex :=
  b.settle.bind fun b ↦
    match b.mode, b.outer with
    | .plain, [] => some b.current
    | .repeated, [] => some b.current
    | _, _ => none

end Reader

/-- Reads an expression of any size; none if the text is malformed. -/
def read? (text : String) : Option Regex :=
  (text.toList.foldlM Reader.step Reader.init).bind Reader.result

/-- Reads an expression; none if the text is malformed or the expression exceeds the limits. -/
def parse? (text : String) : Option Regex := (read? text).filter isWithinLimits

end UrlPattern.Regex
