import UrlPattern.Text.Visible

/-!
# Quoted texts

Reports show a text between double quotes, with its invisible characters escaped.

Specification: `SPEC_FULL.md` §10.10 (lines 283–294).
-/

namespace UrlPattern.Text

/-- A character inside a quoted text. -/
def quotedChar (c : Char) : List Char :=
  if c = '\x00' then ['\\', '0']
  else if c = '\t' then ['\\', 't']
  else if c = '\n' then ['\\', 'n']
  else if c = '\r' then ['\\', 'r']
  else if c = '"' then ['\\', '"']
  else if c = '\\' then ['\\', '\\']
  else if isVisible c then [c]
  else ['\\', 'u', '\x7b'] ++ Nat.toDigits 16 c.toNat ++ ['\x7d']

/-- A text between double quotes. Quotes and backslashes are escaped by a backslash, the null
character, tab, line feed and carriage return by their letters, and every other invisible character
by its code point in hex digits. -/
def quoted (s : String) : String :=
  String.ofList ('"' :: s.toList.flatMap quotedChar ++ ['"'])

end UrlPattern.Text
