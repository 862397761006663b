import UrlPattern.Text.Quoted
import UrlPattern.Tree.Record

/-!
# Records of trees in diagnostics

The form in which a compilation report shows a tree: the kind of each node followed by its fields.

Specification: `SPEC_FULL.md` §10.10 (lines 283–294).
-/

namespace UrlPattern.NodeRecord

/-- A fragment, if there is one. -/
def showOptional : Option String → String
  | some s => "Some(" ++ Text.quoted s ++ ")"
  | none => "None"

/-- A table of constraints. -/
def showConstraints (c : RawConstraints) : String :=
  let entries := c.toList.map fun e ↦ Text.quoted e.1 ++ ": " ++ Text.quoted e.2
  "\x7b" ++ ", ".intercalate entries ++ "\x7d"

/-- A kind and the texts of its fields. -/
def showFields (kind : String) (fields : List (String × String)) : String :=
  kind ++ " \x7b " ++ ", ".intercalate (fields.map fun e ↦ e.1 ++ ": " ++ e.2) ++ " \x7d"

mutual

/-- The diagnostic form of a record. -/
def diagnostic : NodeRecord → String
  | literal text regex =>
    showFields "Literal" [("text", Text.quoted text), ("regex", showOptional regex)]
  | group name typeName constraints inSection id regex =>
    showFields "Group"
      [("name", Text.quoted name), ("type_name", Text.quoted typeName),
        ("constraints", showConstraints constraints),
        ("optional", if inSection then "true" else "false"), ("group_id", Text.renderNat id),
        ("regex", showOptional regex)]
  | sequence children regex =>
    showFields "Sequence"
      [("children", "[" ++ ", ".intercalate (diagnostics children) ++ "]"),
        ("regex", showOptional regex)]
  | optional children regex =>
    showFields "SubSequence"
      [("children", "[" ++ ", ".intercalate (diagnostics children) ++ "]"),
        ("regex", showOptional regex)]

/-- The diagnostic forms of several records. -/
def diagnostics : List NodeRecord → List String
  | [] => []
  | r :: rs => r.diagnostic :: diagnostics rs

end

end UrlPattern.NodeRecord
