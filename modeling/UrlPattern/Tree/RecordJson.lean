import UrlPattern.Json.Printer
import UrlPattern.Tree.Record

/-!
# Records of trees as JSON

A node is stored as an object whose field `kind` names the kind of node; the other fields depend
on it. Read are also arrays that hold the kind and then the fields in their order, and below the
root the kind by its number. Fields with other names do not count.

Specification: `SPEC_FULL.md` §6 (line 84) and §10.2 (lines 179–182).
-/

namespace UrlPattern

/-- The kinds of stored nodes. -/
inductive NodeKind where
  | literal
  | group
  | sequence
  | optional
  deriving DecidableEq

namespace NodeKind

/-- The name of a kind. -/
def name : NodeKind → String
  | literal => "literal"
  | group => "group"
  | sequence => "sequence"
  | optional => "subSequence"

/-- All kinds, in the order of their numbers. -/
def all : List NodeKind := [literal, group, sequence, optional]

/-- The kind that a value tells; below the root this may be a number. -/
def ofJson? (isRoot : Bool) : Json → Option NodeKind
  | .string s => all.find? fun k ↦ k.name = s
  | .int n => if ¬ isRoot ∧ 0 ≤ n then all[n.toNat]? else none
  | _ => none

end NodeKind

namespace NodeRecord

mutual

/-- The JSON form of a record. -/
def toJson : NodeRecord → Json
  | literal text regex =>
    .object [("kind", .string NodeKind.literal.name), ("text", .string text),
      ("regex", .optional regex)]
  | group name typeName constraints inSection id regex =>
    .object [("kind", .string NodeKind.group.name), ("name", .string name),
      ("type", .string typeName), ("constraints", .ofTable .string constraints),
      ("optional", .bool inSection), ("groupId", .nat id), ("regex", .optional regex)]
  | sequence children regex =>
    .object [("kind", .string NodeKind.sequence.name), ("children", .array (toJsons children)),
      ("regex", .optional regex)]
  | optional children regex =>
    .object [("kind", .string NodeKind.optional.name), ("children", .array (toJsons children)),
      ("regex", .optional regex)]

/-- The JSON forms of several records. -/
def toJsons : List NodeRecord → List Json
  | [] => []
  | r :: rs => r.toJson :: toJsons rs

end

/-- The greatest number of a group. -/
def idMax : Nat := 0xffffffff

/-- Splits the kind from the other parts of a node. -/
def splitKind? (isRoot : Bool) : Json → Option (NodeKind × Json)
  | .object fields => do
    let kind ← (← Json.field? "kind" fields).bind (NodeKind.ofJson? isRoot)
    return (kind, .object (fields.filter (·.1.text ≠ "kind")))
  | .array (first :: items) => (NodeKind.ofJson? isRoot first).map fun kind ↦ (kind, .array items)
  | _ => none

/-- Reads a node that is nested no deeper than so many levels. -/
def ofNestedJson? (isRoot : Bool) : (levels : Nat) → Json → Option NodeRecord
  | 0, _ => none
  | levels + 1, j => do
    let (kind, body) ← splitKind? isRoot j
    match kind with
    | .literal =>
      match body.parts? ["text", "regex"] with
      | some [some text, regex] =>
        return .literal (← text.text?) (← Json.partOr none Json.optional? regex)
      | _ => none
    | .group =>
      match body.parts? ["name", "type", "constraints", "optional", "groupId", "regex"] with
      | some [some name, some typeName, constraints, inSection, some id, regex] =>
        return .group (← name.text?) (← typeName.text?)
          (← Json.partOr ∅ (Json.table? Json.text?) constraints)
          (← Json.partOr false Json.bool? inSection) (← id.nat? idMax)
          (← Json.partOr none Json.optional? regex)
      | _ => none
    | .sequence =>
      match body.parts? ["children", "regex"] with
      | some [some children, regex] =>
        return .sequence (← children.list? (ofNestedJson? false levels))
          (← Json.partOr none Json.optional? regex)
      | _ => none
    | .optional =>
      match body.parts? ["children", "regex"] with
      | some [some children, regex] =>
        return .optional (← children.list? (ofNestedJson? false levels))
          (← Json.partOr none Json.optional? regex)
      | _ => none

/-- Reads a node, which must have a value in every part. -/
def ofJson? (j : Json) : Option NodeRecord :=
  if j.isSound then ofNestedJson? true j.depth j else none

end NodeRecord

end UrlPattern
