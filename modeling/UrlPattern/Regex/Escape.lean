import UrlPattern.Regex
import UrlPattern.Text.Blank
import UrlPattern.Text.Hex
import UrlPattern.Text.Word

/-!
# Escapes in regular expressions

A backslash takes the meaning from a punctuation character, names a control character by its letter
or any character by its code point (`\x41`, `\x{e9}`, `\u0041`, `\U00000041`), or stands for a class
of characters (`\d`, `\s`, `\w` and their opposites), an end of the input (`\A`, `\z`), or a place
where a word starts or ends (`\b`, `\<`, `\>`) or none does (`\B`).
-/

namespace UrlPattern.Regex

/-- What an escape stands for. -/
inductive Escaped where
  | char (c : Char)
  | set (s : CharSet)
  /-- An expression that matches between characters. -/
  | edge (r : Regex)

/-- How far an escape is read. -/
inductive EscapeMode where
  /-- Behind the backslash. -/
  | letter
  /-- Behind the letter of a code point of so many digits, which braces may replace. -/
  | hex (count : Nat)
  /-- Inside a code point without braces: how many digits are left, and the number so far. -/
  | digits (left value : Nat)
  /-- Inside the braces of a code point; the number so far, if there is a digit. -/
  | braced (value : Option Nat)

/-- A step on the way through an escape. -/
inductive EscapeStep where
  | more (m : EscapeMode)
  | done (e : Escaped)

namespace EscapeMode

/-- The end of a code point. -/
def ofCode (n : Nat) : Option EscapeStep :=
  if h : n.isValidChar then some (.done (.char (Char.ofNatAux n h))) else none

/-- Reads a digit of a code point, of which so many are left behind it. -/
def stepDigit (left value : Nat) (c : Char) : Option EscapeStep :=
  (Text.hexValue? c).bind fun d ↦
    let value := value * 16 + d
    if left = 0 then ofCode value else some (.more (.digits left value))

/-- Reads the character behind a backslash. -/
def stepLetter (c : Char) : Option EscapeStep :=
  match c with
  | 'a' => some (.done (.char '\x07'))
  | 'f' => some (.done (.char '\x0c'))
  | 't' => some (.done (.char '\t'))
  | 'n' => some (.done (.char '\n'))
  | 'r' => some (.done (.char '\r'))
  | 'v' => some (.done (.char '\x0b'))
  | 'x' => some (.more (.hex 2))
  | 'u' => some (.more (.hex 4))
  | 'U' => some (.more (.hex 8))
  | 'd' => some (.done (.set Text.decimalDigits))
  | 's' => some (.done (.set Text.blanks))
  | 'w' => some (.done (.set Text.wordChars))
  | 'D' => some (.done (.set Text.decimalDigits.complement))
  | 'S' => some (.done (.set Text.blanks.complement))
  | 'W' => some (.done (.set Text.wordChars.complement))
  | 'A' => some (.done (.edge .start))
  | 'z' => some (.done (.edge .finish))
  | 'b' => some (.done (.edge (.wordEdge .either)))
  | 'B' => some (.done (.edge (.wordEdge .neither)))
  | '<' => some (.done (.edge (.wordEdge .start)))
  | '>' => some (.done (.edge (.wordEdge .finish)))
  | _ => if c.toNat < 128 ∧ ¬ c.isAlphanum then some (.done (.char c)) else none

/-- Reads one character of an escape. -/
def step (m : EscapeMode) (c : Char) : Option EscapeStep :=
  match m with
  | .letter => stepLetter c
  | .hex count => if c = '\x7b' then some (.more (.braced none)) else stepDigit (count - 1) 0 c
  | .digits left value => stepDigit (left - 1) value c
  | .braced value =>
    if c = '\x7d' then value.bind ofCode
    else (Text.hexValue? c).map fun d ↦ .more (.braced (some (value.getD 0 * 16 + d)))

end EscapeMode

end UrlPattern.Regex
