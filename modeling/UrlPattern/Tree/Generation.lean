import UrlPattern.Tree

/-!
# Generation

Values bound to the names of groups turn a tree back into a text. An optional section appears only
if some group in it is bound. A group without a value falls back to its fallback text, or else
there is no text.

Specification: `SPEC_FULL.md` §4.3 (lines 50–51) and §10.5 (lines 224–231).
-/

namespace UrlPattern

/-- Why there is no text. `SPEC_FULL.md:154`. -/
inductive GenerateError where
  /-- A group that must appear has neither a value nor a fallback. -/
  | missingValue (group : String)
  deriving DecidableEq

/-- The wording of the error. -/
def GenerateError.message : GenerateError → String
  | missingValue group => s!"missing value for group '{group}'"

/-- Values by the names of the groups that they are bound to. `SPEC_FULL.md:230–231`. -/
abbrev Bindings := Table String Value

/-- The text of a group. `SPEC_FULL.md:226–227`. -/
def Group.generate (g : Group) (values : Bindings) : Except GenerateError String :=
  match values.get? g.name with
  | some value => .ok (g.type.format value)
  | none =>
    match g.fallback? with
    | some text => .ok text
    | none => .error (.missingValue g.name)

namespace Node

mutual

/-- Whether some group of the tree is bound. `SPEC_FULL.md:228`. -/
def bindsSome (values : Bindings) : Node → Bool
  | literal .. => false
  | group g => values.contains g.name
  | sequence children _ => anyBindsSome values children
  | optional children _ => anyBindsSome values children

/-- Whether some group of the trees is bound. -/
def anyBindsSome (values : Bindings) : List Node → Bool
  | [] => false
  | n :: ns => n.bindsSome values || anyBindsSome values ns

end

mutual

/-- The text of a tree. `SPEC_FULL.md:51`. -/
def generate (values : Bindings) : Node → Except GenerateError String
  | literal text _ => .ok text
  | group g => g.generate values
  | sequence children _ => generateAll values children
  | optional children _ =>
    if anyBindsSome values children then generateAll values children else .ok ""

/-- The texts of several trees, one after the other. -/
def generateAll (values : Bindings) : List Node → Except GenerateError String
  | [] => .ok ""
  | n :: ns => do
    let first ← n.generate values
    let others ← generateAll values ns
    return first ++ others

end

end Node

end UrlPattern
