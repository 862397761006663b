import UrlPattern.Pattern.Record
import UrlPattern.Tree.Diagnostic
import UrlPattern.Tree.Parser
import UrlPattern.Tree.Validation

/-!
# Compiling and loading patterns

A compiler holds the types that groups may name and the rules that trees must meet. It makes
patterns from their text or from a record. A text is read, the names of its groups are checked to
be different, the rules are checked, and last the expression is built. A record is not read as a
text again: its tree is rebuilt with the compiler's own types, and its expression is taken as
stored.

Specification: `SPEC_FULL.md` §4.5 (lines 60–61) and §6 (line 84).
-/

namespace UrlPattern

/-- What compiling for a backend depends on. -/
structure Compiler (B : Backend := .standard) where
  types : TypeRegistry
  pipeline : Pipeline

/-- What a compilation report tells. -/
structure CompileReport where
  source : String
  /-- The tree in its diagnostic form. -/
  tree : String
  regex : String
  groups : List GroupInfo
  deriving DecidableEq

/-- The text of a report. -/
def CompileReport.render (r : CompileReport) : String :=
  let group (i : GroupInfo) : String :=
    "Group " ++ Text.renderNat i.id ++ ": " ++ i.name ++ " (" ++ i.typeName ++ ")"
      ++ (if i.inSection then " optional" else "") ++ "\n"
  "Compilation Report\n==================\n"
    ++ "Input:  " ++ r.source ++ "\n"
    ++ "AST:    " ++ r.tree ++ "\n"
    ++ "Regex:  " ++ r.regex ++ "\n"
    ++ String.join (r.groups.map group)

namespace Compiler

variable {B : Backend}

/-- The compiler with the types `int` and `string` and the standard rules. `SPEC_FULL.md:175`. -/
def standard : Compiler := ⟨.builtin, .standard⟩

instance : Inhabited Compiler := ⟨standard⟩

/-- A tree whose groups have different names, with their table. `SPEC_FULL.md:33`. -/
structure NamedTree where
  tree : Node
  groups : GroupTable
  groups_eq : GroupTable.ofTree tree = .ok groups

/-- Checks that the groups of a tree have different names. -/
def NamedTree.ofNode (tree : Node) : Except ValidationError NamedTree :=
  match h : GroupTable.ofTree tree with
  | .ok groups => .ok ⟨tree, groups, h⟩
  | .error e => .error e

/-- Reads a pattern and checks it. `SPEC_FULL.md:61`. -/
def check (c : Compiler B) (source : String) : Except PatternError NamedTree := do
  let tree ← Node.parse source c.types
  let named ← (NamedTree.ofNode tree).mapError .validation
  (c.pipeline.validate tree).mapError .validation
  return named

/-- Compiles a pattern. `SPEC_FULL.md:61`. -/
def compile (c : Compiler B) (source : String) : Except PatternError (Pattern B) := do
  let p ← c.check source
  (Pattern.ofTree source p.tree p.groups p.tree.anchoredRegex p.groups_eq).mapError .compile

/-- Reports what compiling a pattern finds, up to the text of the expression. `SPEC_FULL.md:286`. -/
def report (c : Compiler B) (source : String) : Except PatternError CompileReport := do
  let p ← c.check source
  return ⟨source, p.tree.toRecord.diagnostic, p.tree.anchoredRegex, p.groups.infos⟩

/-- Makes a pattern from its record. `SPEC_FULL.md:84`. -/
def load (c : Compiler B) (r : PatternRecord) : Except PatternError (Pattern B) := do
  if r.version ≠ PatternRecord.currentVersion then
    throw (.compile (.unsupportedVersion r.version PatternRecord.currentVersion))
  let tree ← Node.ofRecord c.types r.ast
  let p ← (NamedTree.ofNode tree).mapError fun e ↦ .compile (.corrupt (.tree e))
  if p.groups.namedGroups ≠ r.namedGroups then throw (.compile (.corrupt .groupTable))
  (Pattern.ofTree r.pattern p.tree p.groups r.regex p.groups_eq).mapError .compile

/-- Makes a pattern from the stored text of its record. -/
def loadText (c : Compiler B) (text : String) : Except PatternError (Pattern B) := do
  let r ← (PatternRecord.parse text).mapError .compile
  c.load r

end Compiler

end UrlPattern
