import UrlPattern.Text.Hex

/-!
# The inside of JSON strings

Between the quotes of a string, a backslash and a letter stand for a character, and `\u` with four
hex digits for a unit of sixteen bits. Two units make one character if the first is a high and the
second a low surrogate; a surrogate that is not part of such a pair spells nothing.

Specification: `SPEC_FULL.md` §10.2 (lines 179–182).
-/

namespace UrlPattern.Json

/-- A part of a string. -/
inductive Piece where
  | char (c : Char)
  /-- Sixteen bits spelled in hex digits. -/
  | unit (n : Nat)
  deriving DecidableEq

/-- The unit of four hex digits. -/
def unit? (a b c d : Char) : Option Piece := do
  let a ← Text.hexValue? a
  let b ← Text.hexValue? b
  let c ← Text.hexValue? c
  let d ← Text.hexValue? d
  return .unit (((a * 16 + b) * 16 + c) * 16 + d)

/-- The character that stands for a backslash and a letter. -/
def unescapeChar? (c : Char) : Option Char :=
  match c with
  | '"' => some '"'
  | '\\' => some '\\'
  | '/' => some '/'
  | 'b' => some '\x08'
  | 'f' => some '\x0c'
  | 'n' => some '\n'
  | 'r' => some '\r'
  | 't' => some '\t'
  | _ => none

/-- The pieces of the inside of a string; none if an escape is malformed. -/
def pieces? : List Char → Option (List Piece)
  | [] => some []
  | '\\' :: 'u' :: a :: b :: c :: d :: cs => do
    let unit ← unit? a b c d
    let others ← pieces? cs
    return unit :: others
  | '\\' :: c :: cs => do
    let first ← unescapeChar? c
    let others ← pieces? cs
    return .char first :: others
  | '\\' :: [] => none
  | c :: cs => (pieces? cs).map (.char c :: ·)

/-- Whether a unit is the first half of a character. -/
def isHighSurrogate (n : Nat) : Bool := 0xD800 ≤ n && n < 0xDC00

/-- Whether a unit is the second half of a character. -/
def isLowSurrogate (n : Nat) : Bool := 0xDC00 ≤ n && n < 0xE000

/-- The text of pieces; none if half a character is left over. -/
def join? : List Piece → Option (List Char)
  | [] => some []
  | .char c :: ps => (join? ps).map (c :: ·)
  | .unit n :: .unit m :: ps =>
    if isHighSurrogate n then
      if isLowSurrogate m then
        (join? ps).map (Char.ofNat (0x10000 + (n - 0xD800) * 0x400 + (m - 0xDC00)) :: ·)
      else none
    else if isLowSurrogate n then none
    else (join? (.unit m :: ps)).map (Char.ofNat n :: ·)
  | .unit n :: ps =>
    if isHighSurrogate n || isLowSurrogate n then none else (join? ps).map (Char.ofNat n :: ·)

end UrlPattern.Json
