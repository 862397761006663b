/-!
# Bytes of a text

Lengths and offsets in this library count bytes of the UTF-8 encoding. `utf8` is the encoding
itself and `byteLength` its length, both of a list of characters; `byteLength_toList` ties the
latter to the size that a `String` stores.

Specification: `SPEC_FULL.md` §10.8 (lines 245–264).
-/

namespace UrlPattern.Text

/-- The bytes of a text. -/
def utf8 (cs : List Char) : List UInt8 := cs.flatMap String.utf8EncodeChar

/-- How many bytes a text has. -/
def byteLength : List Char → Nat
  | [] => 0
  | c :: cs => c.utf8Size + byteLength cs

theorem utf8_append (s t : List Char) : utf8 (s ++ t) = utf8 s ++ utf8 t := by
  simp [utf8]

/-- `byteLength` counts the bytes of the encoding. -/
theorem length_utf8 (cs : List Char) : (utf8 cs).length = byteLength cs := by
  induction cs with
  | nil => rfl
  | cons c cs ih =>
    have : utf8 (c :: cs) = String.utf8EncodeChar c ++ utf8 cs := rfl
    rw [this, List.length_append, String.length_utf8EncodeChar, ih, byteLength]

theorem byteLength_append (s t : List Char) :
    byteLength (s ++ t) = byteLength s + byteLength t := by
  rw [← length_utf8, utf8_append, List.length_append, length_utf8, length_utf8]

theorem length_le_byteLength (cs : List Char) : cs.length ≤ byteLength cs := by
  induction cs with
  | nil => exact Nat.le_refl 0
  | cons c cs ih =>
    have := c.utf8Size_pos
    simp only [List.length_cons, byteLength]
    omega

/-- A stored text knows its number of bytes. -/
theorem byteLength_toList (s : String) : byteLength s.toList = s.utf8ByteSize := by
  rw [← length_utf8]
  have h := congrArg ByteArray.size (String.utf8Encode_toList (b := s))
  simpa [List.utf8Encode, utf8] using h

end UrlPattern.Text
