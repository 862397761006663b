import UrlPattern.CharSet

/-!
# Blank characters

Trimming, and the spaces allowed around constraint values, go by the Unicode property `White_Space`.
-/

namespace UrlPattern.Text

/-- The code points with the property `White_Space`, as closed ranges. -/
def blankRanges : List (Nat × Nat) :=
  [(0x09, 0x0D), (0x20, 0x20), (0x85, 0x85), (0xA0, 0xA0), (0x1680, 0x1680), (0x2000, 0x200A),
   (0x2028, 0x2029), (0x202F, 0x202F), (0x205F, 0x205F), (0x3000, 0x3000)]

/-- The characters with the property `White_Space`. -/
def blanks : CharSet := .ofRanges blankRanges

/-- Whether a character is white space. -/
def isBlank (c : Char) : Bool := blankRanges.any fun r ↦ r.1 ≤ c.toNat && c.toNat ≤ r.2

/-- A text without the blanks at its start. -/
def trimStart (cs : List Char) : List Char := cs.dropWhile isBlank

/-- A text without the blanks at its end. -/
def trimEnd (cs : List Char) : List Char := (trimStart cs.reverse).reverse

/-- A text without the blanks at either end. -/
def trim (cs : List Char) : List Char := trimEnd (trimStart cs)

end UrlPattern.Text
