import UrlPattern.ValueType.Integer
import UrlPattern.ValueType.Word

/-!
# Registries of types

The types that the groups of a pattern may name.

Specification: `SPEC_FULL.md` §4.1 (lines 44–45) and §10.2 (lines 169–177).
-/

namespace UrlPattern

/-- Why a type cannot be found or registered. `SPEC_FULL.md:144–145`. -/
inductive TypeError where
  /-- A group names a type that is not registered. -/
  | unknown (group typeName : String) (available : List String)
  /-- The name is taken. -/
  | duplicate (name : String)
  deriving DecidableEq

/-- The wording of the error. -/
def TypeError.message : TypeError → String
  | unknown group typeName available =>
    let names := ", ".intercalate available
    s!"unknown type '{typeName}' in group '{group}', valid types are: {names}"
  | duplicate name => s!"type '{name}' is already registered"

/-- Types by their names. `SPEC_FULL.md:45`. -/
structure TypeRegistry where
  types : Table String ValueType
  /-- Every type is entered under its own name. -/
  name_eq : ∀ {name : String} {t : ValueType}, types.get? name = some t → t.name = name

namespace TypeRegistry

/-- Entering a type under its own name keeps to the rule. -/
private theorem name_eq_insert {types : Table String ValueType} {t : ValueType}
    (h : ∀ {name : String} {t : ValueType}, types.get? name = some t → t.name = name)
    {name : String} {t' : ValueType} (hget : (types.insert t.name t).get? name = some t') :
    t'.name = name := by
  rw [Table.get?_insert] at hget
  split at hget
  · next hname =>
    cases hget
    exact hname.symm
  · exact h hget

/-- The registry without types. -/
def empty : TypeRegistry where
  types := ∅
  name_eq := nofun

/-- The registry of `int` and `string`. `SPEC_FULL.md:175`. -/
def builtin : TypeRegistry where
  types := Table.ofList
    [(ValueType.integer.name, ValueType.integer), (ValueType.word.name, ValueType.word)]
  name_eq := name_eq_insert (name_eq_insert empty.name_eq)

instance : Inhabited TypeRegistry := ⟨builtin⟩

/-- The type of a name. -/
def get? (r : TypeRegistry) (name : String) : Option ValueType := r.types.get? name

/-- The registered names, ascending. -/
def names (r : TypeRegistry) : List String := r.types.keys

/-- Adds a type under its own name, which must be free. -/
def register (r : TypeRegistry) (t : ValueType) : Except TypeError TypeRegistry :=
  if r.types.contains t.name then .error (.duplicate t.name)
  else .ok ⟨r.types.insert t.name t, name_eq_insert r.name_eq⟩

/-- The type that a group names. -/
def resolve (r : TypeRegistry) (group typeName : String) : Except TypeError ValueType :=
  match r.get? typeName with
  | some t => .ok t
  | none => .error (.unknown group typeName r.names)

end TypeRegistry

end UrlPattern
