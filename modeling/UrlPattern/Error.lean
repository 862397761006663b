import UrlPattern.ValueType.Registry

/-!
# Why a pattern is refused

The errors of reading, checking, compiling and loading patterns, each with its wording. Errors of
types, constraints and values are defined with them.

Specification: `SPEC_FULL.md` §7 (lines 90–91) and §10.2 (lines 133–160).
-/

namespace UrlPattern

/-- What is wrong with the text of a pattern. `SPEC_FULL.md:140–141`. -/
inductive ParseErrorKind where
  /-- A group is not closed. -/
  | unterminatedGroup
  /-- An optional section is not closed. -/
  | unterminatedSection
  /-- A quoted value is not closed. -/
  | unterminatedQuote
  /-- There is no text. -/
  | emptyPattern
  /-- The inside of a group is not of the form `name:type` or `name:type(constraints)`. -/
  | invalidGroup (content : String)
  /-- A constraint is not of the form `key=value`, or repeats a key. -/
  | invalidConstraint (key : String)
  deriving DecidableEq

/-- The kind of error in words. -/
def ParseErrorKind.text : ParseErrorKind → String
  | unterminatedGroup => "unterminated group"
  | unterminatedSection => "unterminated optional section"
  | unterminatedQuote => "unterminated quoted value"
  | emptyPattern => "empty pattern"
  | invalidGroup content => "invalid group \x60" ++ content ++ "\x60"
  | invalidConstraint key => "invalid constraint \x60" ++ key ++ "\x60"

/-- An error at a place in the text of a pattern. `SPEC_FULL.md:139`. -/
structure ParseError where
  /-- The whole text of the pattern. -/
  pattern : String
  /-- How many bytes lie before the group or section at fault. -/
  offset : Nat
  kind : ParseErrorKind
  deriving DecidableEq

/-- The wording of the error. -/
def ParseError.message (e : ParseError) : String :=
  e.kind.text ++ " at offset " ++ Text.renderNat e.offset
    ++ " in pattern \x60" ++ e.pattern ++ "\x60"

/-- A structural rule that a tree breaks. `SPEC_FULL.md:150–151`. -/
inductive ValidationError where
  /-- An optional section has no content. -/
  | emptySection
  /-- A literal has no text. -/
  | emptyLiteral
  /-- Two groups of unbounded width follow one another directly. -/
  | adjacentGreedyGroups (first second : String)
  /-- Two groups have one name. -/
  | duplicateGroupName (name : String)
  deriving DecidableEq

/-- The wording of the error. -/
def ValidationError.message : ValidationError → String
  | emptySection => "optional section must not be empty"
  | emptyLiteral => "literal must not be empty"
  | adjacentGreedyGroups first second =>
    s!"groups '{first}' and '{second}' are both greedy"
      ++ " and need a literal or optional section between them"
  | duplicateGroupName name => s!"duplicate group name '{name}'"

/-- What is wrong with a stored record. `SPEC_FULL.md:152–153`. -/
inductive Corruption where
  /-- The text is no record. -/
  | undecodable
  /-- The tree names a group twice. -/
  | tree (error : ValidationError)
  /-- The stored group names are not those of the tree. -/
  | groupTable
  /-- There is a character pattern but no character table, or the reverse. -/
  | charPattern
  deriving DecidableEq

/-- The corruption in words. -/
def Corruption.text : Corruption → String
  | undecodable => "not a record"
  | tree error => error.message
  | groupTable => "group table does not match tree"
  | charPattern => "character pattern does not match character table"

/-- Why a checked tree cannot be compiled, or a stored record not be loaded.
`SPEC_FULL.md:152–153`. -/
inductive CompileError where
  /-- The expression is malformed or exceeds the limits. -/
  | regex
  /-- The record is of another version. -/
  | unsupportedVersion (found expected : Nat)
  /-- The record is inconsistent. -/
  | corrupt (reason : Corruption)
  deriving DecidableEq

/-- The wording of the error. -/
def CompileError.message : CompileError → String
  | regex => "invalid regex"
  | unsupportedVersion found expected =>
    "unsupported record version " ++ Text.renderNat found
      ++ ", expected " ++ Text.renderNat expected
  | corrupt reason => "corrupt record: " ++ reason.text

/-- Why there is no compiled pattern. `SPEC_FULL.md:134–138`. -/
inductive PatternError where
  | parse (error : ParseError)
  | type (error : TypeError)
  | constraint (error : ConstraintError)
  | validation (error : ValidationError)
  | compile (error : CompileError)
  deriving DecidableEq

/-- The wording of the error, led by the stage that failed. -/
def PatternError.message : PatternError → String
  | parse error => "parse error: " ++ error.message
  | type error => "type error: " ++ error.message
  | constraint error => "constraint error: " ++ error.message
  | validation error => "validation error: " ++ error.message
  | compile error => "compilation error: " ++ error.message

end UrlPattern
