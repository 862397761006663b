import UrlPattern.Json

/-!
# Numbers in JSON

A number is an optional `-`, digits without a leading zero, and perhaps a fraction and an exponent.

Specification: `SPEC_FULL.md` §10.2 (lines 179–182).
-/

namespace UrlPattern.Json

/-- The parts of a number as written. -/
structure Numeral where
  negative : Bool
  whole : List Char
  /-- The digits behind the point; empty if there is none. -/
  fraction : List Char
  /-- The exponent, if there is one. -/
  exponent : Option Int

namespace Numeral

/-- Reads the digits before point and exponent; gives them and what follows. -/
def readWhole (cs : List Char) : Option (List Char × List Char) :=
  match cs.takeWhile Char.isDigit with
  | [] => none
  | '0' :: _ :: _ => none
  | digits => some (digits, cs.dropWhile Char.isDigit)

/-- Reads the fraction, if there is one; gives its digits and what follows. -/
def readFraction : List Char → Option (List Char × List Char)
  | '.' :: cs =>
    match cs.takeWhile Char.isDigit with
    | [] => none
    | digits => some (digits, cs.dropWhile Char.isDigit)
  | cs => some ([], cs)

/-- Reads the number behind an exponent's letter. -/
def readExponent : List Char → Option Int
  | '-' :: cs => (Text.readNat cs).map fun n ↦ -n
  | '+' :: cs => (Text.readNat cs).map Int.ofNat
  | cs => (Text.readNat cs).map Int.ofNat

/-- Reads a number without its sign. -/
def readUnsigned (negative : Bool) (cs : List Char) : Option Numeral := do
  let (whole, cs) ← readWhole cs
  let (fraction, cs) ← readFraction cs
  match cs with
  | [] => some ⟨negative, whole, fraction, none⟩
  | e :: cs =>
    if e = 'e' ∨ e = 'E' then
      (readExponent cs).map fun n ↦ ⟨negative, whole, fraction, some n⟩
    else none

/-- Reads a number. -/
def read? : List Char → Option Numeral
  | '-' :: cs => readUnsigned true cs
  | cs => readUnsigned false cs

/-- The whole number written without point and exponent. Zero has no sign. -/
def int? (n : Numeral) : Option Int :=
  match n.fraction, n.exponent with
  | [], none =>
    let size := Text.ofDigits n.whole
    if n.negative then if size = 0 then none else some (-size) else some size
  | _, _ => none

/-- Extends a number by digits as long as it fits into 64 bits; gives it and the digits left. -/
def takeDigits (n : Nat) : List Char → Nat × List Char
  | [] => (n, [])
  | c :: cs =>
    if 10 * n + Text.digitValue c ≤ 0xffffffffffffffff then
      takeDigits (10 * n + Text.digitValue c) cs
    else (n, c :: cs)

/-- The whole number of the leading digits and the power of ten that scales it. Digits before the
point that do not fit only scale; behind the point as many count as still fit. -/
def leading (n : Numeral) : Nat × Int :=
  let (size, wholeLeft) := takeDigits 0 n.whole
  let (size, fractionLeft) := takeDigits size n.fraction
  (size, wholeLeft.length + fractionLeft.length - n.fraction.length + n.exponent.getD 0)

/-- The nearest number of at most 53 significant bits; of two, the one with the even last bit. -/
def toDouble (n : Nat) : Nat :=
  let unit := Nat.pow 2 (n.log2 - 52)
  let units := n / unit
  let rest := 2 * (n % unit)
  if rest > unit ∨ rest = unit ∧ units % 2 = 1 then (units + 1) * unit else units * unit

/-- The least size that is beyond all bounds: halfway from the greatest double to the next power of
two. -/
def sizeLimit : Nat := Nat.pow 2 1024 - Nat.pow 2 970

/-- Whether the product of the leading digits and their power of ten, as doubles, is beyond all
bounds. -/
def isTooLarge (n : Numeral) : Bool :=
  let (size, scale) := n.leading
  size ≠ 0 && 0 ≤ scale
    && (308 < scale || sizeLimit ≤ toDouble size * toDouble (Nat.pow 10 scale.toNat))

end Numeral

/-- The least whole number of 64 bits. -/
def intMin : Int := -0x8000000000000000

/-- The greatest whole number of 64 bits. -/
def intMax : Int := 0xffffffffffffffff

/-- The value of a number as written, if it is one. -/
def ofNumber? (cs : List Char) : Option Json :=
  (Numeral.read? cs).map fun n ↦
    match n.int? with
    | some i => if intMin ≤ i ∧ i ≤ intMax then int i else ofOther n
    | none => ofOther n
where
  /-- The value of a number that is no whole number of 64 bits. -/
  ofOther (n : Numeral) : Json := if n.isTooLarge then invalid else decimal (String.ofList cs)

end UrlPattern.Json
