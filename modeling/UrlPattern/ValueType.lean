import UrlPattern.Constraint

/-!
# Value types

A value type says which texts a group may capture (a regular expression, narrowed by the group's
constraints) and what value a captured text denotes. Types are given by their operations, so a host
can add types of its own to the two that every registry may start with. An operation with a default
may be given in another way by a host: `ValueType.parseValue`, which is what matching does with a
capture, converts the text and applies the constraints unless a type says otherwise
(`ValueType.UsesConvert`).

`ValueType.resolve` is what compiling does with written constraints.

Specification: `SPEC_FULL.md` §4.1 (lines 44–45) and §10.3 (lines 194–210).
-/

namespace UrlPattern

/-- The value of a group from what it captured, if anything, under its constraints, which are
applied in order. `SPEC_FULL.md:45`. -/
def ValueType.parseWith (convert : String → Except ValueError Value) (raw : Option String)
    (constraints : List Constraint) : Except ValueError Value := do
  let start ← match raw with
    | some raw => (convert raw).map some
    | none => pure none
  match ← constraints.foldlM (fun v c ↦ c.apply convert v) start with
  | some v => pure v
  | none => throw .missing

/-- A named type of values. `SPEC_FULL.md:208–210`. -/
structure ValueType where
  /-- The name that a pattern writes. -/
  name : String
  /-- The regular expression of a group without constraints. -/
  pattern : String
  /-- The regular expression of a group with constraints. -/
  constrainedPattern : List Constraint → String := fun _ ↦ pattern
  /-- The kinds of constraints that the type supports. -/
  supported : List ConstraintKind
  /-- The value that a text denotes, whatever the constraints. -/
  convert : String → Except ValueError Value
  /-- Refuses constraints that no value can meet together. -/
  checkConstraints : List Constraint → Except ConstraintError Unit := fun _ ↦ .ok ()
  /-- The value of a group from what it captured, if anything, under its constraints. -/
  parseValue : Option String → List Constraint → Except ValueError Value :=
    ValueType.parseWith convert
  /-- The text of a value. -/
  format : Value → String := Value.render

namespace ValueType

/-- The type parses what groups capture as types do that do not say otherwise. -/
def UsesConvert (t : ValueType) : Prop := t.parseValue = parseWith t.convert

/-- The value that a text denotes, if there is one. -/
def convert? (t : ValueType) (raw : String) : Option Value := (t.convert raw).toOption

/-- The conversion of a type by name, which refuses a text without a value by naming both. -/
def convertWith (name : String) (value? : String → Option Value) (raw : String) :
    Except ValueError Value :=
  match value? raw with
  | some v => .ok v
  | none => .error (.invalid name raw)

theorem toOption_convertWith (name : String) (value? : String → Option Value) (raw : String) :
    (convertWith name value? raw).toOption = value? raw := by
  rw [convertWith]
  cases value? raw <;> rfl

theorem convertWith_eq_error_iff {name raw : String} {value? : String → Option Value}
    {e : ValueError} :
    convertWith name value? raw = .error e ↔ value? raw = none ∧ e = .invalid name raw := by
  rw [convertWith]
  cases value? raw with
  | none => simp [eq_comm]
  | some v => simp

theorem convert?_eq_some_iff {t : ValueType} {raw : String} {v : Value} :
    t.convert? raw = some v ↔ t.convert raw = .ok v := by
  rw [convert?]
  cases t.convert raw <;> simp [Except.toOption]

/-- Reads one written constraint. -/
def resolveEntry (t : ValueType) (key raw : String) : Except ConstraintError Constraint :=
  match (ConstraintKind.ofName? key).filter fun k ↦ t.supported.contains k with
  | some kind => Constraint.ofRaw kind raw
  | none => .error (.unknown t.name key)

/-- Moves the fallback, if there is one, behind the other constraints. `SPEC_FULL.md:218–220`. -/
def fallbackLast (cs : List Constraint) : List Constraint :=
  cs.filter (fun c ↦ c.kind ≠ .fallback) ++ cs.filter (fun c ↦ c.kind = .fallback)

/-- Reads the written constraints of a group. They come in the order of their keys, the fallback
last, and the fallback must denote a value of the type. `SPEC_FULL.md:218–220`. -/
def resolve (t : ValueType) (raw : RawConstraints) : Except ConstraintError (List Constraint) := do
  let constraints := fallbackLast (← raw.toList.mapM fun e ↦ t.resolveEntry e.1 e.2)
  t.checkConstraints constraints
  match constraints.getLast? with
  | some (.fallback text) =>
    if (t.convert? text).isSome then pure constraints
    else throw (.invalidParameter .fallback text .typedValue)
  | _ => pure constraints

end ValueType

namespace Constraint

/-- The lower bound on integers that comes first in a list. -/
def min? (cs : List Constraint) : Option Int64 :=
  cs.findSome? fun
    | min n => some n
    | _ => none

/-- The upper bound on integers that comes first in a list. -/
def max? (cs : List Constraint) : Option Int64 :=
  cs.findSome? fun
    | max n => some n
    | _ => none

/-- The lower bound on lengths that comes first in a list. -/
def minLen? (cs : List Constraint) : Option Nat :=
  cs.findSome? fun
    | minLen n => some n
    | _ => none

/-- The upper bound on lengths that comes first in a list. -/
def maxLen? (cs : List Constraint) : Option Nat :=
  cs.findSome? fun
    | maxLen n => some n
    | _ => none

/-- The fallback text that comes first in a list. -/
def fallback? (cs : List Constraint) : Option String :=
  cs.findSome? fun
    | fallback s => some s
    | _ => none

end Constraint

end UrlPattern
