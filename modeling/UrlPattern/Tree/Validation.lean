import UrlPattern.Error
import UrlPattern.Tree

/-!
# Structural rules

Rules that a tree must meet before it is compiled. A pipeline checks them in order and stops at the
first that is broken.

Specification: `SPEC_FULL.md` §4.3 (lines 53–55) and §4.6 (lines 63–64).
-/

namespace UrlPattern

/-- A named rule for trees. `SPEC_FULL.md:64`. -/
structure Validator where
  name : String
  check : Node → Except ValidationError Unit

namespace Node

mutual

/-- No literal and no optional section is empty; the first that is decides the error.
`SPEC_FULL.md:54`. -/
def checkContent : Node → Except ValidationError Unit
  | literal text _ => if text = "" then .error .emptyLiteral else .ok ()
  | group _ => .ok ()
  | sequence children _ => checkContents children
  | optional children _ =>
    if children.isEmpty then .error .emptySection else checkContents children

/-- `checkContent` for several nodes in turn. -/
def checkContents : List Node → Except ValidationError Unit
  | [] => .ok ()
  | n :: ns => do
    n.checkContent
    checkContents ns

end

mutual

/-- Passes over a node with the name of the greedy group directly before it, if any, and gives the
greedy group directly before what follows. A section is checked on its own. `SPEC_FULL.md:55`. -/
def checkAdjacent (last : Option String) : Node → Except ValidationError (Option String)
  | literal .. => .ok none
  | group g =>
    if g.isGreedy then
      match last with
      | some first => .error (.adjacentGreedyGroups first g.name)
      | none => .ok (some g.name)
    else .ok none
  | sequence children _ => checkAllAdjacent last children
  | optional children _ => do
    let _ ← checkAllAdjacent none children
    return none

/-- `checkAdjacent` for several nodes in turn. -/
def checkAllAdjacent (last : Option String) : List Node → Except ValidationError (Option String)
  | [] => .ok last
  | n :: ns => do
    let next ← n.checkAdjacent last
    checkAllAdjacent next ns

end

end Node

namespace Validator

/-- Literals and optional sections have content. -/
def treeContext : Validator := ⟨"tree-context", Node.checkContent⟩

/-- No two groups of unbounded width follow one another directly. The rule is about the children of
the root, so it holds of a root without children. -/
def greedyAdjacency : Validator where
  name := "greedy-adjacency"
  check root :=
    match root.children? with
    | some children => do
      let _ ← Node.checkAllAdjacent none children
      return ()
    | none => .ok ()

end Validator

/-- Rules in the order in which they are checked. `SPEC_FULL.md:64`. -/
abbrev Pipeline := List Validator

namespace Pipeline

/-- The rules of a compiler that is not told otherwise. -/
def standard : Pipeline := [.treeContext, .greedyAdjacency]

/-- The names of the rules. -/
def names (p : Pipeline) : List String := p.map (·.name)

/-- Checks the rules in order. -/
def validate (p : Pipeline) (root : Node) : Except ValidationError Unit :=
  p.forM fun v ↦ v.check root

end Pipeline

end UrlPattern
