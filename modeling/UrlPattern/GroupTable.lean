import UrlPattern.Error
import UrlPattern.Tree

/-!
# Group tables

The groups of a pattern, listed in order of appearance. No name is entered twice: the second group
of a name is refused. The names that are taken are kept as a set beside the list, and the set is
written before it is decided whether the group is refused. From a table come the maps that a
compiled pattern shows: numbers to names, names to types, and names to constraints.

Specification: `SPEC_FULL.md` §10.6 (lines 233–237).
-/

namespace UrlPattern

/-- What a group table says of a group. `SPEC_FULL.md:235`. -/
structure GroupInfo where
  id : Nat
  name : String
  typeName : String
  /-- The constraints as written. -/
  constraints : RawConstraints
  /-- Whether the group stands inside an optional section. -/
  inSection : Bool
  deriving DecidableEq

/-- The entry of a group. -/
def Group.info (g : Group) : GroupInfo := ⟨g.id, g.name, g.type.name, g.raw, g.tag.inSection⟩

/-- The groups entered so far, and the names that are taken. -/
structure GroupTable where
  /-- The groups, the first one first. -/
  infos : List GroupInfo
  taken : Table String Unit
  deriving DecidableEq

namespace GroupTable

/-- The table without groups. -/
def empty : GroupTable := ⟨[], ∅⟩

instance : EmptyCollection GroupTable := ⟨empty⟩

/-- The names of the groups, in order of entry. -/
def names (t : GroupTable) : List String := t.infos.map (·.name)

/-- How many groups there are. -/
def size (t : GroupTable) : Nat := t.infos.length

/-- Enters a group and answers with its number. The name is put to those that are taken in any case;
if it was among them before, the group is refused. -/
def register (t : GroupTable) (g : Group) : GroupTable × Except ValidationError Nat :=
  let taken := t.taken.insert g.name ()
  if t.taken.contains g.name then ({ t with taken }, .error (.duplicateGroupName g.name))
  else (⟨t.infos ++ [g.info], taken⟩, .ok g.id)

/-- Enters groups one by one up to the first that is refused; gives the table reached and the
refusal. -/
def registerAll (t : GroupTable) : List Group → GroupTable × Option ValidationError
  | [] => (t, none)
  | g :: gs =>
    match t.register g with
    | (t', .ok _) => t'.registerAll gs
    | (t', .error e) => (t', some e)

/-- Enters the groups of a tree from left to right. -/
def collect (t : GroupTable) (root : Node) : GroupTable × Option ValidationError :=
  t.registerAll root.groups

/-- The table of a tree, whose groups must have different names. `SPEC_FULL.md:235–236`. -/
def ofTree (root : Node) : Except ValidationError GroupTable :=
  match empty.collect root with
  | (t, none) => .ok t
  | (_, some e) => .error e

/-- The names of the groups by number. `SPEC_FULL.md:237`. -/
def namedGroups (t : GroupTable) : Table Nat String :=
  .ofList (t.infos.map fun i ↦ (i.id, i.name))

/-- The types of the groups by name. `SPEC_FULL.md:237`. -/
def groupTypes (t : GroupTable) : Table String String :=
  .ofList (t.infos.map fun i ↦ (i.name, i.typeName))

/-- The constraints of the groups by name. `SPEC_FULL.md:237`. -/
def groupConstraints (t : GroupTable) : Table String RawConstraints :=
  .ofList (t.infos.map fun i ↦ (i.name, i.constraints))

end GroupTable

end UrlPattern
