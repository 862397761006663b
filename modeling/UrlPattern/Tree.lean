import UrlPattern.Regex
import UrlPattern.ValueType

/-!
# Pattern trees

A pattern is a tree of literals, groups, sequences and optional sections. Each node knows whether
it stands inside an optional section, and may carry a stored fragment of regular expression that
is used in the stead of the derived one.

Specification: `SPEC_FULL.md` §3 (lines 28–34) and §4.3 (lines 50–51).
-/

namespace UrlPattern

/-- What a node carries besides its content. -/
structure Tag where
  /-- Whether the node is marked as standing inside an optional section. -/
  inSection : Bool
  /-- The stored fragment, if there is one. -/
  stored : Option String
  deriving DecidableEq

/-- The tag of a node outside all sections and without a stored fragment. -/
def Tag.plain : Tag := ⟨false, none⟩

/-- A named, typed part of a pattern. `SPEC_FULL.md:30`. -/
structure Group where
  /-- The number of the group, which names its capture. -/
  id : Nat
  name : String
  type : ValueType
  /-- The constraints as written. -/
  raw : RawConstraints
  /-- The constraints as read, the fallback last. -/
  constraints : List Constraint
  /-- The constraints are what the type makes of the written ones. -/
  resolved : type.resolve raw = .ok constraints
  tag : Tag

namespace Group

/-- A group whose written constraints suit its type. -/
def ofRaw (id : Nat) (name : String) (type : ValueType) (raw : RawConstraints) (tag : Tag) :
    Except ConstraintError Group :=
  match h : type.resolve raw with
  | .ok constraints => .ok ⟨id, name, type, raw, constraints, h, tag⟩
  | .error e => .error e

/-- The name of the capture in the derived expression. `SPEC_FULL.md:185`. -/
def captureName (g : Group) : String := "g" ++ Text.renderNat g.id

/-- Whether nothing bounds the width of the group. -/
def isGreedy (g : Group) : Bool := UrlPattern.isGreedy g.constraints

/-- The text of the fallback. -/
def fallback? (g : Group) : Option String := Constraint.fallback? g.constraints

/-- The expression of the group's text. -/
def pattern (g : Group) : String := g.type.constrainedPattern g.constraints

/-- The fragment of the group: a capture of its text, unless another is stored. -/
def fragment (g : Group) : String :=
  match g.tag.stored with
  | some s => s
  | none => "(?P<" ++ g.captureName ++ ">" ++ g.pattern ++ ")"

end Group

/-- A node of a pattern tree. `SPEC_FULL.md:28–34`. -/
inductive Node where
  /-- A fixed text. -/
  | literal (text : String) (tag : Tag)
  /-- A group. -/
  | group (g : Group)
  /-- Nodes one after the other. -/
  | sequence (children : List Node) (tag : Tag)
  /-- Nodes one after the other, or nothing at all. -/
  | optional (children : List Node) (tag : Tag)

namespace Node

/-- What the node carries besides its content. -/
def tag : Node → Tag
  | literal _ tag => tag
  | group g => g.tag
  | sequence _ tag => tag
  | optional _ tag => tag

/-- Whether the node is marked as standing inside an optional section. -/
def inSection (n : Node) : Bool := n.tag.inSection

mutual

/-- Marks a node, and all nodes below, as standing inside an optional section.
`SPEC_FULL.md:105`. -/
def markInSection : Node → Node
  | literal text tag => literal text { tag with inSection := true }
  | group g => group { g with tag := { g.tag with inSection := true } }
  | sequence children tag => sequence (markAllInSection children) { tag with inSection := true }
  | optional children tag => optional (markAllInSection children) { tag with inSection := true }

/-- Marks all nodes of a list. -/
def markAllInSection : List Node → List Node
  | [] => []
  | n :: ns => n.markInSection :: markAllInSection ns

end

/-- A literal. -/
def ofText (text : String) : Node := literal text .plain

/-- A sequence. -/
def ofChildren (children : List Node) : Node := sequence children .plain

/-- An optional section, which marks all that stands in it. `SPEC_FULL.md:32`. -/
def ofSection (children : List Node) : Node := optional (markAllInSection children) .plain

/-- The nodes directly below a sequence or section. -/
def children? : Node → Option (List Node)
  | sequence children _ => some children
  | optional children _ => some children
  | _ => none

/-- The name of a group. -/
def name? : Node → Option String
  | group g => some g.name
  | _ => none

/-- Whether the node keeps the groups on its two sides apart. `SPEC_FULL.md:55`. -/
def providesBoundary : Node → Bool
  | literal .. => true
  | optional .. => true
  | _ => false

mutual

/-- The groups of a tree, from left to right. -/
def groups : Node → List Group
  | literal .. => []
  | group g => [g]
  | sequence children _ => groupsOf children
  | optional children _ => groupsOf children

/-- The groups of several trees, from left to right. -/
def groupsOf : List Node → List Group
  | [] => []
  | n :: ns => n.groups ++ groupsOf ns

end

theorem groupsOf_group (g : Group) (ns : List Node) :
    groupsOf (group g :: ns) = g :: groupsOf ns := rfl

theorem groupsOf_sequence (children : List Node) (tag : Tag) (ns : List Node) :
    groupsOf (sequence children tag :: ns) = groupsOf children ++ groupsOf ns := rfl

theorem groupsOf_optional (children : List Node) (tag : Tag) (ns : List Node) :
    groupsOf (optional children tag :: ns) = groupsOf children ++ groupsOf ns := rfl

mutual

/-- The fragment of regular expression of a node: the stored one, or else the one derived from the
content. A literal matches its text, and an optional section its content or nothing.
`SPEC_FULL.md:51`. -/
def fragment : Node → String
  | literal text tag => tag.stored.getD (Regex.escape text)
  | group g => g.fragment
  | sequence children tag => tag.stored.getD (fragments children)
  | optional children tag => tag.stored.getD ("(?:" ++ fragments children ++ ")?")

/-- The fragments of several nodes, one after the other. -/
def fragments : List Node → String
  | [] => ""
  | n :: ns => n.fragment ++ fragments ns

end

/-- The expression of a whole pattern, tied to both ends of the input. `SPEC_FULL.md:36`. -/
def anchoredRegex (n : Node) : String := "^" ++ n.fragment ++ "$"

end Node

end UrlPattern
