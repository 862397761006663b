import UrlPattern.Table
import UrlPattern.Value

/-!
# Constraints

A group may carry constraints, written `key=value` after its type. The written pairs are kept as
they are (`RawConstraints`); reading one against its kind gives a `Constraint`. All kinds but
`fallback` restrict the values of the group; `fallback` supplies the value of a group that
captured nothing.

`Constraint.holds` says which values a constraint admits, and `Constraint.apply` is what matching
does with it.

Specification: `SPEC_FULL.md` §4.2 (lines 47–48) and §10.4 (lines 212–222).
-/

namespace UrlPattern

/-- The written constraints of a group: key to value, as they stand in the pattern.
`SPEC_FULL.md:26`. -/
abbrev RawConstraints := Table String String

/-- The kinds of constraints. -/
inductive ConstraintKind where
  /-- The least integer admitted. -/
  | min
  /-- The greatest integer admitted. -/
  | max
  /-- The least number of characters. -/
  | minLen
  /-- The greatest number of characters. -/
  | maxLen
  /-- The value of a group that captured nothing. -/
  | fallback
  /-- A required beginning. -/
  | startsWith
  /-- A required end. -/
  | endsWith
  /-- A required part. -/
  | contains
  deriving DecidableEq

namespace ConstraintKind

/-- Every kind. -/
def all : List ConstraintKind :=
  [min, max, minLen, maxLen, fallback, startsWith, endsWith, contains]

/-- The key that a pattern writes for the kind. `SPEC_FULL.md:48`. -/
def name : ConstraintKind → String
  | min => "min"
  | max => "max"
  | minLen => "minLen"
  | maxLen => "maxLen"
  | fallback => "default"
  | startsWith => "startsWith"
  | endsWith => "endsWith"
  | contains => "contains"

/-- The kind with a given key. -/
def ofName? (key : String) : Option ConstraintKind := all.find? fun k ↦ k.name = key

/-- Whether a constraint of this kind bounds the width of a group. `SPEC_FULL.md:48`. -/
def capsWidth : ConstraintKind → Bool
  | max => true
  | maxLen => true
  | _ => false

/-- A kind is found by its key alone. -/
theorem name_of_ofName? {key : String} {k : ConstraintKind} (h : ofName? key = some k) :
    k.name = key := by
  simpa using List.find?_some h

end ConstraintKind

/-- A constraint with its parameter. `SPEC_FULL.md:214–216`. -/
inductive Constraint where
  | min (n : Int64)
  | max (n : Int64)
  | minLen (n : Nat)
  | maxLen (n : Nat)
  | fallback (raw : String)
  | startsWith (part : String)
  | endsWith (part : String)
  | contains (part : String)
  deriving DecidableEq

/-- What a constraint's parameter should have been. -/
inductive Expectation where
  | integer
  | length
  | positiveLength
  | typedValue
  deriving DecidableEq

/-- The expectation in words. -/
def Expectation.text : Expectation → String
  | integer => "an integer"
  | length => "a length"
  | positiveLength => "a length of at least 1"
  | typedValue => "a value of the group's type"

/-- Why written constraints do not suit a type. `SPEC_FULL.md:146–149`. -/
inductive ConstraintError where
  /-- The type does not support a constraint of that key. -/
  | unknown (typeName key : String)
  /-- The parameter is empty. -/
  | emptyValue (kind : ConstraintKind)
  /-- The parameter cannot be read. -/
  | invalidParameter (kind : ConstraintKind) (value : String) (expected : Expectation)
  /-- The lower bound exceeds the upper. -/
  | contradiction (lower upper : ConstraintKind)
  deriving DecidableEq

/-- The wording of the error. -/
def ConstraintError.message : ConstraintError → String
  | unknown typeName key => s!"unknown constraint '{key}' for type '{typeName}'"
  | emptyValue kind => s!"constraint '{kind.name}' requires a value"
  | invalidParameter kind value expected =>
    s!"constraint '{kind.name}' expects {expected.text}, got '{value}'"
  | contradiction lower upper => s!"constraint '{lower.name}' exceeds '{upper.name}'"

/-- Why a group has no value although the pattern matched. `SPEC_FULL.md:155–156`. -/
inductive ValueError where
  /-- Nothing was captured and there is no fallback. -/
  | missing
  /-- The text denotes no value of the type. -/
  | invalid (typeName raw : String)
  /-- The value is not admitted by a constraint. -/
  | violation (kind : ConstraintKind) (reason : String)
  deriving DecidableEq

/-- The wording of the error. -/
def ValueError.message : ValueError → String
  | missing => "value is required"
  | invalid typeName raw => s!"'{raw}' is not a valid {typeName}"
  | violation kind reason => s!"constraint '{kind.name}' violated: {reason}"

/-- Whether a part occurs somewhere in a text. -/
def occursIn (part : List Char) : List Char → Bool
  | [] => part.isEmpty
  | c :: cs => part.isPrefixOf (c :: cs) || occursIn part cs

/-- `occursIn` is the relation "is a contiguous part of". -/
theorem occursIn_iff (part cs : List Char) : occursIn part cs = true ↔ part <:+: cs := by
  induction cs with
  | nil => simp [occursIn, List.isEmpty_iff]
  | cons c cs ih =>
    rw [occursIn, Bool.or_eq_true, List.isPrefixOf_iff_prefix, ih, List.infix_cons_iff]

namespace Constraint

/-- The kind of a constraint. -/
def kind : Constraint → ConstraintKind
  | min _ => .min
  | max _ => .max
  | minLen _ => .minLen
  | maxLen _ => .maxLen
  | fallback _ => .fallback
  | startsWith _ => .startsWith
  | endsWith _ => .endsWith
  | contains _ => .contains

/-- Reads a constraint of a kind from its written parameter. -/
def ofRaw (kind : ConstraintKind) (raw : String) : Except ConstraintError Constraint :=
  let orElse (c : Option Constraint) (e : Expectation) : Except ConstraintError Constraint :=
    match c with
    | some c => .ok c
    | none => .error (.invalidParameter kind raw e)
  if raw = "" then .error (.emptyValue kind)
  else match kind with
    | .min => orElse ((Text.readInteger raw.toList).map .min) .integer
    | .max => orElse ((Text.readInteger raw.toList).map .max) .integer
    | .minLen => orElse ((Text.readLength raw.toList).map .minLen) .length
    | .maxLen =>
      match Text.readLength raw.toList with
      | none => .error (.invalidParameter kind raw .length)
      | some 0 => .error (.invalidParameter kind raw .positiveLength)
      | some n => .ok (.maxLen n)
    | .fallback => .ok (.fallback raw)
    | .startsWith => .ok (.startsWith raw)
    | .endsWith => .ok (.endsWith raw)
    | .contains => .ok (.contains raw)

/-- The parameter in its plain written form. -/
def rawValue : Constraint → String
  | min n => Text.renderInteger n
  | max n => Text.renderInteger n
  | minLen n => Text.renderNat n
  | maxLen n => Text.renderNat n
  | fallback s => s
  | startsWith s => s
  | endsWith s => s
  | contains s => s

/-- Whether the constraint bounds the width of a group. -/
def capsWidth (c : Constraint) : Bool := c.kind.capsWidth

/-- Whether the constraint admits a value. A constraint on integers admits every text, a constraint
on texts every integer, and a fallback everything. -/
def holds : Constraint → Value → Bool
  | min n, .int m => decide (n.toInt ≤ m.toInt)
  | max n, .int m => decide (m.toInt ≤ n.toInt)
  | minLen n, .text s => decide (n ≤ s.length)
  | maxLen n, .text s => decide (s.length ≤ n)
  | startsWith p, .text s => p.toList.isPrefixOf s.toList
  | endsWith p, .text s => p.toList.isSuffixOf s.toList
  | contains p, .text s => occursIn p.toList s.toList
  | _, _ => true

/-- What is wrong with a value that the constraint does not admit. -/
def complaint (c : Constraint) (v : Value) : String :=
  match c with
  | min _ => s!"{v.render} is less than {c.rawValue}"
  | max _ => s!"{v.render} is greater than {c.rawValue}"
  | minLen _ => s!"'{v.render}' is shorter than {c.rawValue}"
  | maxLen _ => s!"'{v.render}' is longer than {c.rawValue}"
  | startsWith p => s!"'{v.render}' does not start with '{p}'"
  | endsWith p => s!"'{v.render}' does not end with '{p}'"
  | contains p => s!"'{v.render}' does not contain '{p}'"
  | fallback _ => ""

/-- Passes a value that the constraint admits. Without a value, a fallback supplies one by `convert`
and any other constraint leaves it at that. `SPEC_FULL.md:48`. -/
def apply (convert : String → Except ValueError Value) (c : Constraint) :
    Option Value → Except ValueError (Option Value)
  | none =>
    match c with
    | fallback raw => (convert raw).map some
    | _ => .ok none
  | some v => if c.holds v then .ok (some v) else .error (.violation c.kind (c.complaint v))

end Constraint

/-- Whether nothing in the list bounds the width of a group. `SPEC_FULL.md:33`. -/
def isGreedy (constraints : List Constraint) : Bool := !constraints.any Constraint.capsWidth

end UrlPattern
