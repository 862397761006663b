import UrlPattern.Json.Reader
import UrlPattern.Pattern
import UrlPattern.Tree.RecordJson

/-!
# Records of compiled patterns

A record says of a compiled pattern all that can be stored. Its JSON form is an object with the
fields of the record in order; an array of the same parts is also read. A text in which the tree
nests too deep is refused.

Specification: `SPEC_FULL.md` §6 (line 84) and §10.2 (lines 179–182).
-/

namespace UrlPattern

/-- A stored pattern. `SPEC_FULL.md:84`. -/
structure PatternRecord where
  version : Nat
  pattern : String
  regex : String
  ast : NodeRecord
  namedGroups : Table Nat String
  groupTypes : Table String String
  groupConstraints : Table String RawConstraints
  deriving DecidableEq

namespace PatternRecord

/-- The version of the records that are written. `SPEC_FULL.md:181–182`. -/
def currentVersion : Nat := 1

/-- The names of the fields. -/
def fieldNames : List String :=
  ["version", "pattern", "regex", "ast", "namedGroups", "groupTypes", "groupConstraints"]

/-- The JSON form of a record. -/
def toJson (r : PatternRecord) : Json :=
  .ofParts fieldNames
    [.nat r.version, .string r.pattern, .string r.regex, r.ast.toJson,
      .object (r.namedGroups.toList.map fun e ↦ (Text.renderNat e.1, .string e.2)),
      .ofTable .string r.groupTypes, .ofTable (.ofTable .string) r.groupConstraints]

/-- The greatest version number. -/
def versionMax : Nat := 0xffffffff

/-- The number of a group written as the name of a field, in plain digits without leading zeros. -/
def readId? (name : Json.Name) : Option Nat :=
  match name.isPlain, name.text.toList with
  | false, _ => none
  | true, '0' :: _ :: _ => none
  | true, cs => (Text.readNat cs).filter (· ≤ NodeRecord.idMax)

/-- The name of a group by its number. -/
def readNamedGroup? (e : Json.Field) : Option (Nat × String) := do
  return (← readId? e.1, ← e.2.text?)

/-- The names of groups by number. -/
def readNamedGroups? : Json → Option (Table Nat String)
  | .object fields => (fields.mapM readNamedGroup?).map Table.ofList
  | _ => none

/-- How deep a tree may nest inside a record. -/
def depthMax : Nat := 126

/-- Reads the tree of a record. -/
def readTree? (j : Json) : Option NodeRecord :=
  if j.depth ≤ depthMax then NodeRecord.ofJson? j else none

/-- Reads a record. -/
def ofJson? (j : Json) : Option PatternRecord :=
  match j.parts? fieldNames with
  | some [some version, some pattern, some regex, some ast, some named, some types,
      some constraints] => do
    return {
      version := ← version.nat? versionMax
      pattern := ← pattern.text?
      regex := ← regex.text?
      ast := ← readTree? ast
      namedGroups := ← readNamedGroups? named
      groupTypes := ← types.table? Json.text?
      groupConstraints := ← constraints.table? (Json.table? Json.text?) }
  | _ => none

/-- The stored text of a record. -/
def render (r : PatternRecord) : String := r.toJson.render

/-- Reads a stored text. -/
def parse (text : String) : Except CompileError PatternRecord :=
  match (Json.parse? text).bind ofJson? with
  | some r => .ok r
  | none => .error (.corrupt .undecodable)

end PatternRecord

/-- The record of a compiled pattern. -/
def Pattern.toRecord {B : Backend} (p : Pattern B) : PatternRecord where
  version := PatternRecord.currentVersion
  pattern := p.source
  regex := p.regexText
  ast := p.tree.toRecord
  namedGroups := p.groups.namedGroups
  groupTypes := p.groups.groupTypes
  groupConstraints := p.groups.groupConstraints

end UrlPattern
