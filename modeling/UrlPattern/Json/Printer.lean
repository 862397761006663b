import UrlPattern.Json

/-!
# Writing JSON

A value is written either without any blanks or line by line, indented by two spaces for each
level. In texts only quotes, backslashes and control characters are escaped.

Specification: `SPEC_FULL.md` §10.2 (lines 179–182).
-/

namespace UrlPattern.Json

/-- A character inside a string. -/
def escapeChar (c : Char) : List Char :=
  if c = '"' then ['\\', '"']
  else if c = '\\' then ['\\', '\\']
  else if c = '\x08' then ['\\', 'b']
  else if c = '\x0c' then ['\\', 'f']
  else if c = '\n' then ['\\', 'n']
  else if c = '\r' then ['\\', 'r']
  else if c = '\t' then ['\\', 't']
  else if c.toNat < 32 then
    ['\\', 'u', '0', '0', Nat.digitChar (c.toNat / 16), Nat.digitChar (c.toNat % 16)]
  else [c]

/-- A text as a string. -/
def quote (s : String) : String := String.ofList ('"' :: s.toList.flatMap escapeChar ++ ['"'])

/-- The digits of a whole number, with a `-` in front of a negative one. -/
def renderInt (n : Int) : String :=
  if n < 0 then "-" ++ Text.renderNat n.natAbs else Text.renderNat n.natAbs

mutual

/-- The text of a value, without blanks. -/
def render : Json → String
  | null => "null"
  | bool b => if b then "true" else "false"
  | int n => renderInt n
  | decimal text => text
  | string s => quote s
  | array items => "[" ++ renderItems items ++ "]"
  | object fields => "\x7b" ++ renderFields fields ++ "\x7d"
  | invalid => "null"

/-- The texts of items, separated by commas. -/
def renderItems : List Json → String
  | [] => ""
  | j :: items => j.render ++ renderMoreItems items

/-- The texts of items that follow another. -/
def renderMoreItems : List Json → String
  | [] => ""
  | j :: items => "," ++ j.render ++ renderMoreItems items

/-- The texts of fields, separated by commas. -/
def renderFields : List Field → String
  | [] => ""
  | e :: fields => quote e.1.text ++ ":" ++ e.2.render ++ renderMoreFields fields

/-- The texts of fields that follow another. -/
def renderMoreFields : List Field → String
  | [] => ""
  | e :: fields => "," ++ quote e.1.text ++ ":" ++ e.2.render ++ renderMoreFields fields

end

/-- A line feed and the blanks that start a line of a level. -/
def lineStart (level : Nat) : String := String.ofList ('\n' :: List.replicate (2 * level) ' ')

mutual

/-- The text of a value, line by line, inside so many arrays and objects. -/
def renderIndented (level : Nat) : Json → String
  | array [] => "[]"
  | array (j :: items) =>
    "[" ++ lineStart (level + 1) ++ j.renderIndented (level + 1)
      ++ indentMoreItems (level + 1) items ++ lineStart level ++ "]"
  | object [] => "\x7b\x7d"
  | object (e :: fields) =>
    "\x7b" ++ lineStart (level + 1) ++ quote e.1.text ++ ": " ++ e.2.renderIndented (level + 1)
      ++ indentMoreFields (level + 1) fields ++ lineStart level ++ "\x7d"
  | j => j.render

/-- The lines of items that follow another. -/
def indentMoreItems (level : Nat) : List Json → String
  | [] => ""
  | j :: items => "," ++ lineStart level ++ j.renderIndented level ++ indentMoreItems level items

/-- The lines of fields that follow another. -/
def indentMoreFields (level : Nat) : List Field → String
  | [] => ""
  | e :: fields =>
    "," ++ lineStart level ++ quote e.1.text ++ ": " ++ e.2.renderIndented level
      ++ indentMoreFields level fields

end

end UrlPattern.Json
