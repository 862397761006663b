import UrlPattern.Backend
import UrlPattern.GroupTable
import UrlPattern.Tree.Generation

/-!
# Compiled patterns

A compiled pattern is a tree together with the regular expression that it is matched by, as the
backend has read it; the backend is the standard one unless another is named. Matching
gives each group of the tree its value: what the group captured, converted and checked, or the
fallback of a group that captured nothing. A value that is refused is reported beside the values of
the other groups. The empty text never matches.

Specification: `SPEC_FULL.md` §4.5 (lines 60–61) and §6 (line 88).
-/

namespace UrlPattern

/-- A pattern ready for matching by a backend. `SPEC_FULL.md:36`. -/
structure Pattern (B : Backend := .standard) where
  /-- The text that the pattern was written as. -/
  source : String
  tree : Node
  groups : GroupTable
  /-- The expression as written. -/
  regexText : String
  /-- The expression as read. -/
  regex : B.Expr
  /-- The table is that of the tree. -/
  groups_eq : GroupTable.ofTree tree = .ok groups
  /-- The expression is read from its text. -/
  regex_eq : B.parse? regexText = some regex

/-- The value of a group, with what the group says of it. -/
structure GroupValue where
  value : Value
  typeName : String
  /-- The constraints as written. -/
  constraints : RawConstraints
  deriving DecidableEq

/-- A refused value of a group. `SPEC_FULL.md:156–157`. -/
structure MatchError where
  group : String
  error : ValueError
  deriving DecidableEq

/-- The wording of the error. -/
def MatchError.message (e : MatchError) : String := s!"group '{e.group}': {e.error.message}"

/-- The result of matching one input against one pattern. `SPEC_FULL.md:38`. -/
structure MatchResult where
  input : String
  /-- The groups that have a value. -/
  groups : Table String GroupValue
  /-- The groups whose value was refused, in order of appearance. -/
  errors : List MatchError
  deriving DecidableEq

namespace MatchResult

/-- The result before any group is looked at. -/
def ofInput (input : String) : MatchResult := ⟨input, ∅, []⟩

/-- Whether some value was refused. -/
def isFailed (r : MatchResult) : Bool := !r.errors.isEmpty

/-- The value of a group. -/
def get? (r : MatchResult) (name : String) : Option Value := (r.groups.get? name).map (·.value)

/-- The plain values. -/
def values (r : MatchResult) : Bindings := r.groups.map (·.value)

/-- The plain values together with the input under the name `input`, which a group of that name
hides. `SPEC_FULL.md:88`. -/
def flat (r : MatchResult) : Bindings :=
  r.values.toList.foldl (fun t e ↦ t.insert e.1 e.2) (Table.empty.insert "input" (.text r.input))

/-- Adds the outcome of a group that captured a text, or nothing. An empty capture counts as
nothing, and a group with neither capture nor fallback is left out. `SPEC_FULL.md:61`. -/
def addGroup (captured : String → Option String) (r : MatchResult) (g : Group) : MatchResult :=
  let raw := (captured g.captureName).filter (· ≠ "")
  if raw.isNone && g.fallback?.isNone then r
  else
    match g.type.parseValue raw g.constraints with
    | .ok value => { r with groups := r.groups.insert g.name ⟨value, g.type.name, g.raw⟩ }
    | .error error => { r with errors := r.errors ++ [⟨g.name, error⟩] }

end MatchResult

namespace Pattern

variable {B : Backend}

/-- Puts a pattern together. -/
def ofTree (source : String) (tree : Node) (groups : GroupTable) (regexText : String)
    (groups_eq : GroupTable.ofTree tree = .ok groups) : Except CompileError (Pattern B) :=
  match h : B.parse? regexText with
  | some regex => .ok ⟨source, tree, groups, regexText, regex, groups_eq, h⟩
  | none => .error .regex

/-- Whether an input has the shape of the pattern, whatever the values of the groups.
`SPEC_FULL.md:61`. -/
def isMatch (p : Pattern B) (input : String) : Bool := input ≠ "" && B.isMatch p.regex input

/-- Matches an input. `SPEC_FULL.md:61`. -/
def match? (p : Pattern B) (input : String) : Option MatchResult :=
  if input = "" then none
  else
    (B.captures? p.regex input).map fun captured ↦
      p.tree.groups.foldl (MatchResult.addGroup captured) (.ofInput input)

/-- Matching gives a result for the inputs that have the shape of the pattern. -/
theorem isSome_match? (p : Pattern B) (input : String) :
    (p.match? input).isSome = p.isMatch input := by
  rw [match?, isMatch, ← B.isSome_captures?]
  by_cases hempty : input = "" <;> simp [hempty]

/-- The text that the pattern spells with these values. `SPEC_FULL.md:61`. -/
def generate (p : Pattern B) (values : Bindings) : Except GenerateError String :=
  p.tree.generate values

/-! ### Patterns of the standard backend -/

theorem parse?_regexText (p : Pattern) : Regex.parse? p.regexText = some p.regex := p.regex_eq

theorem isMatch_eq (p : Pattern) (input : String) :
    p.isMatch input = (decide (input ≠ "") && p.regex.isMatch input) := rfl

theorem match?_eq (p : Pattern) (input : String) :
    p.match? input =
      if input = "" then none
      else
        (p.regex.captures? input).map fun captures ↦
          p.tree.groups.foldl (MatchResult.addGroup (Regex.capturedText? captures))
            (.ofInput input) := by
  rw [match?, Option.map_map]
  rfl

end Pattern

end UrlPattern
