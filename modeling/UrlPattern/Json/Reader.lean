import UrlPattern.Json.Number
import UrlPattern.Json.Unescape

/-!
# Reading JSON

A text is read character by character. The reader keeps the arrays and objects that are still open
on a stack; its mode says what may come next. Reading is a fold, so reading two texts one after
the other is reading their concatenation.

The reader is strict: no comments, no comma behind the last item, no blanks but space, tab, line
feed and carriage return, no control characters in strings, no text behind the value. How deep a
text nests does not matter to it.

Specification: `SPEC_FULL.md` §10.2 (lines 179–182).
-/

namespace UrlPattern.Json

/-- The beginning of an array or object that is not closed yet, with what it holds so far, the last
part first. A name that spells half a character is none. -/
inductive Frame where
  | array (items : List Json)
  /-- An object between two fields. -/
  | object (fields : List (Option Name × Json))
  /-- An object behind the name of a field. -/
  | member (fields : List (Option Name × Json)) (name : Option Name)

/-- What may come next. -/
inductive Mode where
  /-- A value. -/
  | value
  /-- The first item of an array, or its end. -/
  | firstItem
  /-- The first name of an object, or its end. -/
  | firstName
  /-- The name of a further field. -/
  | name
  /-- A colon. -/
  | colon
  /-- A comma, or the end of the array or object. -/
  | behind
  /-- More of a word or number; the text so far, the last character first. -/
  | word (text : List Char)
  /-- More of a string, which may be a name; whether a backslash stands directly before, and the
  text so far, the last character first. -/
  | quoted (isName escaped : Bool) (text : List Char)
  /-- Nothing but blanks: the whole value is read. -/
  | done (value : Json)

/-- The state of the reader. -/
structure Reader where
  mode : Mode
  /-- The open arrays and objects, the innermost first. -/
  around : List Frame

namespace Reader

/-- The reader before the first character. -/
def init : Reader := ⟨.value, []⟩

/-- Puts a value where it belongs. -/
def put (r : Reader) (j : Json) : Option Reader :=
  match r.around with
  | [] => some ⟨.done j, []⟩
  | .array items :: outer => some ⟨.behind, .array (j :: items) :: outer⟩
  | .member fields name :: outer => some ⟨.behind, .object ((name, j) :: fields) :: outer⟩
  | .object _ :: _ => none

/-- Closes an array. -/
def closeArray (r : Reader) : Option Reader :=
  match r.around with
  | .array items :: outer => put { r with around := outer } (.array items.reverse)
  | _ => none

/-- The object of fields that come the last first; without value if a name has none. -/
def objectOf (fields : List (Option Name × Json)) : Json :=
  match fields.reverse.mapM fun e ↦ e.1.map fun name ↦ (name, e.2) with
  | some fields => .object fields
  | none => .invalid

/-- Closes an object. -/
def closeObject (r : Reader) : Option Reader :=
  match r.around with
  | .object fields :: outer => put { r with around := outer } (objectOf fields)
  | _ => none

/-- Whether a character may stand in a word or number. -/
def isWordChar (c : Char) : Bool := c.isAlphanum || c = '-' || c = '+' || c = '.'

/-- The value of a word or number. -/
def ofWord? (cs : List Char) : Option Json :=
  if cs = ['n', 'u', 'l', 'l'] then some .null
  else if cs = ['t', 'r', 'u', 'e'] then some (.bool true)
  else if cs = ['f', 'a', 'l', 's', 'e'] then some (.bool false)
  else ofNumber? cs

/-- Ends a word or number, given the last character first. -/
def endWord (r : Reader) (text : List Char) : Option Reader := (ofWord? text.reverse).bind r.put

/-- Ends a string, given the last character first. -/
def endString (r : Reader) (isName : Bool) (text : List Char) : Option Reader :=
  (pieces? text.reverse).bind fun pieces ↦
    let s := (join? pieces).map String.ofList
    if isName then
      match r.around with
      | .object fields :: outer =>
        some ⟨.colon, .member fields (s.map (⟨·, !text.contains '\\'⟩)) :: outer⟩
      | _ => none
    else
      match s with
      | some s => r.put (.string s)
      | none => r.put .invalid

/-- Reads the first character of a value. -/
def start (r : Reader) (c : Char) : Option Reader :=
  match c with
  | '"' => some { r with mode := .quoted false false [] }
  | '[' => some ⟨.firstItem, .array [] :: r.around⟩
  | '\x7b' => some ⟨.firstName, .object [] :: r.around⟩
  | c => if isWordChar c then some { r with mode := .word [c] } else none

/-- Reads the first character of a name. -/
def startName (r : Reader) (c : Char) : Option Reader :=
  if c = '"' then some { r with mode := .quoted true false [] } else none

/-- Reads a character behind a value in an array or object. -/
def stepBehind (r : Reader) (c : Char) : Option Reader :=
  match c, r.around with
  | ',', .array _ :: _ => some { r with mode := .value }
  | ',', .object _ :: _ => some { r with mode := .name }
  | ']', _ => r.closeArray
  | '\x7d', _ => r.closeObject
  | _, _ => none

/-- Whether a character may stand between the parts of a text. -/
def isSpace (c : Char) : Bool := c = ' ' || c = '\t' || c = '\n' || c = '\r'

/-- Reads a character that is not inside a string, word or number. -/
def stepBetween (r : Reader) (c : Char) : Option Reader :=
  if isSpace c then some r
  else
    match r.mode with
    | .value => r.start c
    | .firstItem => if c = ']' then r.closeArray else r.start c
    | .firstName => if c = '\x7d' then r.closeObject else r.startName c
    | .name => r.startName c
    | .colon => if c = ':' then some { r with mode := .value } else none
    | .behind => r.stepBehind c
    | _ => none

/-- Reads one character. -/
def step (r : Reader) (c : Char) : Option Reader :=
  match r.mode with
  | .quoted isName escaped text =>
    if c.toNat < 32 then none
    else if escaped then some { r with mode := .quoted isName false (c :: text) }
    else if c = '\\' then some { r with mode := .quoted isName true (c :: text) }
    else if c = '"' then r.endString isName text
    else some { r with mode := .quoted isName false (c :: text) }
  | .word text =>
    if isWordChar c then some { r with mode := .word (c :: text) }
    else (r.endWord text).bind fun r ↦ r.stepBetween c
  | _ => r.stepBetween c

/-- Ends the reading. -/
def result (r : Reader) : Option Json :=
  match r.mode, r.around with
  | .done j, _ => some j
  | .word text, [] => ofWord? text.reverse
  | _, _ => none

end Reader

/-- Reads a text; none if it is malformed. -/
def parse? (text : String) : Option Json :=
  (text.toList.foldlM Reader.step Reader.init).bind Reader.result

end UrlPattern.Json
