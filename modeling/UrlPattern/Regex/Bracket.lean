import UrlPattern.Regex.Escape

/-!
# Sets in brackets

A set in brackets holds characters, ranges, classes, named classes such as `[:alpha:]` and further
sets, all of which are united. The operators `&&` (both), `--` (the first without the second) and
`~~` (just one of them) bind weaker than that and apply from left to right. A set may be empty.

A set is read character by character. A text behind `[:` is the name of a class only if `:]` follows
it; otherwise it is read again, as the beginning of a further set.
-/

namespace UrlPattern.Regex

/-- The operators between the parts of a set. -/
inductive SetOperator where
  | both
  | without
  | justOne
  deriving DecidableEq

namespace SetOperator

/-- The operator that a character means when it is written twice. -/
def ofChar? (c : Char) : Option SetOperator :=
  match c with
  | '&' => some both
  | '-' => some without
  | '~' => some justOne
  | _ => none

/-- Applies an operator. -/
def apply : SetOperator → CharSet → CharSet → CharSet
  | both, s, t => s.inter t
  | without, s, t => s.diff t
  | justOne, s, t => s.symmDiff t

end SetOperator

/-- A part of a set as it is written. -/
structure SetTerm where
  chars : CharSet
  /-- How deep brackets, unions and operators nest in it. -/
  nesting : Nat

namespace SetTerm

/-- The union of terms. A single term is no union. -/
def unite : List SetTerm → SetTerm
  | [] => ⟨.empty, 0⟩
  | [t] => t
  | ts => ⟨ts.foldl (fun s t ↦ s.union t.chars) .empty, (ts.map nesting).foldl max 0 + 1⟩

/-- The term of an operator between two terms. -/
def operate (operator : SetOperator) (s t : SetTerm) : SetTerm :=
  ⟨operator.apply s.chars t.chars, max s.nesting t.nesting + 1⟩

/-- The term in brackets. -/
def bracketed (negated : Bool) (t : SetTerm) : SetTerm :=
  ⟨if negated then t.chars.complement else t.chars, t.nesting + 1⟩

end SetTerm

/-- An open bracket. -/
structure Bracket where
  negated : Bool
  /-- What stands before the last operator, and that operator. -/
  left : Option (SetTerm × SetOperator)
  /-- The items behind it so far, the last first. -/
  items : List SetTerm

namespace Bracket

/-- An open bracket without items. -/
def init (negated : Bool) : Bracket := ⟨negated, none, []⟩

/-- Adds an item. -/
def add (b : Bracket) (t : SetTerm) : Bracket := { b with items := t :: b.items }

/-- What stands in the bracket so far. -/
def inside (b : Bracket) : SetTerm :=
  match b.left with
  | some (s, operator) => .operate operator s (.unite b.items)
  | none => .unite b.items

/-- Begins the right side of an operator. -/
def operate (b : Bracket) (operator : SetOperator) : Bracket :=
  { b with left := some (b.inside, operator), items := [] }

/-- The closed bracket. -/
def close (b : Bracket) : SetTerm := .bracketed b.negated b.inside

end Bracket

/-- The classes of ASCII characters by their names. -/
def namedClasses : List (String × List (Nat × Nat)) :=
  [("alnum", [(48, 57), (65, 90), (97, 122)]), ("alpha", [(65, 90), (97, 122)]),
   ("ascii", [(0, 127)]), ("blank", [(9, 9), (32, 32)]), ("cntrl", [(0, 31), (127, 127)]),
   ("digit", [(48, 57)]), ("graph", [(33, 126)]), ("lower", [(97, 122)]), ("print", [(32, 126)]),
   ("punct", [(33, 47), (58, 64), (91, 96), (123, 126)]), ("space", [(9, 13), (32, 32)]),
   ("upper", [(65, 90)]), ("word", [(48, 57), (65, 90), (95, 95), (97, 122)]),
   ("xdigit", [(48, 57), (65, 70), (97, 102)])]

/-- The class of a name, or of `^` and a name the characters outside it. -/
def namedClass? : List Char → Option CharSet
  | '^' :: name => (find? name).map CharSet.complement
  | name => find? name
where
  /-- The class of a name. -/
  find? (name : List Char) : Option CharSet :=
    (namedClasses.find? fun e ↦ e.1.toList = name).map fun e ↦ CharSet.ofRanges e.2

/-- An item of a set. A plain character may also begin an operator. -/
inductive SetItem where
  | plain (c : Char)
  | escaped (c : Char)
  | set (s : CharSet)

namespace SetItem

/-- The characters of an item. -/
def toSet : SetItem → CharSet
  | plain c => .single c
  | escaped c => .single c
  | set s => s

/-- The character of an item, which a range may start with. -/
def char? : SetItem → Option Char
  | plain c => some c
  | escaped c => some c
  | set _ => none

end SetItem

/-- In the midst of what the reader of a set is. -/
inductive SetMode where
  /-- Behind an opening bracket. -/
  | opened
  /-- At the start of a set, where hyphens and a closing bracket stand for themselves. -/
  | lead
  /-- Where an item may start. -/
  | body
  /-- Behind an item. -/
  | item (i : SetItem)
  /-- Behind an item and a hyphen. -/
  | dash (i : SetItem)
  /-- Inside an escape where an item may start. -/
  | escape (m : EscapeMode)
  /-- Inside an escape at the end of a range. -/
  | dashEscape (i : SetItem) (m : EscapeMode)
  /-- Behind the opening bracket of a further set. -/
  | nested
  /-- Behind `[:` in a set; the text so far, the last character first. -/
  | named (text : List Char)
  /-- Behind `[:` in a set, a text and a colon. -/
  | namedColon (text : List Char)

/-- The reader of a set: its mode and the open brackets, the innermost first. -/
structure SetReader where
  mode : SetMode
  current : Bracket
  outer : List Bracket

/-- A step on the way through a set. -/
inductive SetStep where
  /-- The set goes on; some characters may have to be read again. -/
  | more (s : SetReader) (again : List Char)
  | done (t : SetTerm)

namespace SetReader

/-- The reader behind the opening bracket of a set. -/
def init : SetReader := ⟨.opened, .init false, []⟩

/-- Goes on in a mode. -/
def go (s : SetReader) (mode : SetMode) : Option SetStep := some (.more { s with mode } [])

/-- Adds an item that is no bracket to the innermost bracket. -/
def add (s : SetReader) (chars : CharSet) : SetReader :=
  { s with current := s.current.add ⟨chars, 0⟩ }

/-- Opens a further bracket. -/
def openBracket (s : SetReader) : SetReader := ⟨.opened, .init false, s.current :: s.outer⟩

/-- Closes the innermost bracket. -/
def closeBracket (s : SetReader) : SetStep :=
  match s.outer with
  | [] => .done s.current.close
  | b :: outer => .more ⟨.body, b.add s.current.close, outer⟩ []

/-- Reads a character where an item may start. -/
def stepBody (s : SetReader) (c : Char) : Option SetStep :=
  match c with
  | ']' => some s.closeBracket
  | '[' => s.go .nested
  | '\\' => s.go (.escape .letter)
  | c => s.go (.item (.plain c))

/-- Reads a character at the start of a set. -/
def stepLead (s : SetReader) (c : Char) : Option SetStep :=
  if c = '-' then (s.add (.single c)).go .lead
  else if c = ']' ∧ s.current.items.isEmpty then (s.add (.single c)).go .body
  else s.stepBody c

/-- Reads the first character behind an opening bracket. -/
def stepOpened (s : SetReader) (c : Char) : Option SetStep :=
  if c = '^' then { s with current := .init true }.go .lead else s.stepLead c

/-- The operator that a character completes behind an item. -/
def operator? (i : SetItem) (c : Char) : Option SetOperator :=
  match i with
  | .plain a => if a = c then SetOperator.ofChar? c else none
  | _ => none

/-- Reads a character behind an item. -/
def stepItem (s : SetReader) (i : SetItem) (c : Char) : Option SetStep :=
  match operator? i c with
  | some operator => { s with current := s.current.operate operator }.go .body
  | none => if c = '-' then s.go (.dash i) else (s.add i.toSet).stepBody c

/-- Ends a range. -/
def endRange (s : SetReader) (i : SetItem) (high : Char) : Option SetStep :=
  i.char?.bind fun low ↦
    if low.toNat ≤ high.toNat then (s.add (.range low high)).go .body else none

/-- Reads a character behind an item and a hyphen. -/
def stepDash (s : SetReader) (i : SetItem) (c : Char) : Option SetStep :=
  match c with
  | ']' => some ((s.add i.toSet).add (.single '-')).closeBracket
  | '-' =>
    let s := s.add i.toSet
    { s with current := s.current.operate .without }.go .body
  | '\\' => s.go (.dashEscape i .letter)
  | c => s.endRange i c

/-- Goes on behind a step of an escape where an item may start. -/
def behindEscape (s : SetReader) : EscapeStep → Option SetStep
  | .more m => s.go (.escape m)
  | .done (.char c) => s.go (.item (.escaped c))
  | .done (.set t) => s.go (.item (.set t))
  | .done (.edge _) => none

/-- Goes on behind a step of an escape at the end of a range. -/
def behindDashEscape (s : SetReader) (i : SetItem) : EscapeStep → Option SetStep
  | .more m => s.go (.dashEscape i m)
  | .done (.char c) => s.endRange i c
  | .done _ => none

/-- Reads what begins with `[:` as a further set, since it is no named class: the characters behind
the bracket are read again. -/
def reread (s : SetReader) (text : List Char) : SetStep :=
  .more s.openBracket (':' :: text)

/-- Reads one character. -/
def step (s : SetReader) (c : Char) : Option SetStep :=
  match s.mode with
  | .opened => s.stepOpened c
  | .lead => s.stepLead c
  | .body => s.stepBody c
  | .item i => s.stepItem i c
  | .dash i => s.stepDash i c
  | .escape m => (m.step c).bind s.behindEscape
  | .dashEscape i m => (m.step c).bind (s.behindDashEscape i)
  | .nested => if c = ':' then s.go (.named []) else s.openBracket.stepOpened c
  | .named text => if c = ':' then s.go (.namedColon text) else s.go (.named (c :: text))
  | .namedColon text =>
    match if c = ']' then namedClass? text.reverse else none with
    | some t => (s.add t).go .body
    | none => some (s.reread (text.reverse ++ [':', c]))

/-- What is left to read where the input ends: a text behind `[:` that did not become the name of a
class. -/
def unread? (s : SetReader) : Option SetStep :=
  match s.mode with
  | .named text => some (s.reread text.reverse)
  | .namedColon text => some (s.reread (text.reverse ++ [':']))
  | _ => none

end SetReader

end UrlPattern.Regex
