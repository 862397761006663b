import UrlPattern.ValueType

/-!
# Integers

The type `int`: integers of 64 bits in decimal digits, a negative one with `-` in front. Bounds
narrow the expression to what their digits allow: `min` of zero or more forbids the sign, `max`
limits the digits of an unsigned number, and a negative `min` those of a signed one.

Specification: `SPEC_FULL.md` §10.3 (lines 196–203).
-/

namespace UrlPattern.ValueType

/-- How many digits the magnitude of an integer has. -/
def digitCount (n : Int64) : Nat := (Text.natDigits n.toInt.natAbs).length

/-- The expression of a run of digits, of at most this many if a width is given. -/
def digitsPattern : Option Nat → String
  | some width => "[0-9]\x7b1," ++ Text.renderNat width ++ "\x7d"
  | none => "[0-9]+"

/-- The expression of an integer within bounds. `SPEC_FULL.md:196–202`. -/
def integerPattern (min max : Option Int64) : String :=
  let unsigned := digitsPattern (max.map digitCount)
  match min with
  | some least =>
    if 0 ≤ least.toInt then unsigned
    else
      let signed := digitsPattern (some (digitCount least))
      if signed = unsigned then "-?" ++ unsigned else "(?:-" ++ signed ++ "|" ++ unsigned ++ ")"
  | none =>
    if max.isNone then "-?" ++ unsigned
    else "(?:-" ++ digitsPattern none ++ "|" ++ unsigned ++ ")"

/-- Whether a character may stand in an integer. -/
def isIntegerChar (c : Char) : Bool := c.isDigit || c = '-'

/-- Reads an integer. Most texts that are none hold a character that stands in no integer. -/
def readInteger? (raw : String) : Option Int64 :=
  if raw.toList.all isIntegerChar then Text.readSigned raw.toList else none

/-- The type of integers. `SPEC_FULL.md:196–203`. -/
def integer : ValueType where
  name := "int"
  pattern := "-?[0-9]+"
  constrainedPattern cs := integerPattern (Constraint.min? cs) (Constraint.max? cs)
  supported := [.min, .max, .fallback]
  convert := convertWith "int" fun raw ↦ (readInteger? raw).map .int
  checkConstraints cs :=
    match Constraint.min? cs, Constraint.max? cs with
    | some least, some greatest =>
      if greatest.toInt < least.toInt then .error (.contradiction .min .max) else .ok ()
    | _, _ => .ok ()

theorem convert?_integer (raw : String) : integer.convert? raw = (readInteger? raw).map .int :=
  toOption_convertWith "int" (fun raw ↦ (readInteger? raw).map .int) raw

/-- The values of texts are integers. -/
theorem exists_int_of_convert? {raw : String} {v : Value} (h : integer.convert? raw = some v) :
    ∃ n, v = .int n := by
  rw [convert?_integer] at h
  obtain ⟨n, -, rfl⟩ := Option.map_eq_some_iff.mp h
  exact ⟨n, rfl⟩

theorem convert_integer_eq_error_iff {raw : String} {e : ValueError} :
    integer.convert raw = .error e ↔ integer.convert? raw = none ∧ e = .invalid "int" raw := by
  rw [convert?_integer]
  change convertWith "int" (fun raw ↦ (readInteger? raw).map .int) raw = _ ↔ _
  exact convertWith_eq_error_iff

/-- What reads as an integer consists of the characters of integers. -/
theorem readInteger?_eq (raw : String) : readInteger? raw = Text.readSigned raw.toList := by
  have digits : ∀ (most : Nat) (cs : List Char) (n : Nat),
      Text.readNatUpTo most cs = some n → cs.all isIntegerChar := by
    intro most cs n h
    rw [Text.readNatUpTo_eq, Text.readNat] at h
    by_cases ha : cs.all Char.isDigit
    · rw [List.all_eq_true] at ha ⊢
      exact fun c hc ↦ by simp [isIntegerChar, ha c hc]
    · simp_all
  rw [readInteger?]
  split
  · rfl
  · next hall =>
    symm
    rw [Text.readSigned.eq_def]
    split
    · next ds =>
      rw [Option.bind_eq_none_iff]
      intro n hn
      have := digits _ _ _ hn
      simp_all [isIntegerChar]
    · rw [Option.bind_eq_none_iff]
      intro n hn
      exact absurd (digits _ _ _ hn) hall

end UrlPattern.ValueType
