import UrlPattern.Error
import UrlPattern.Tree

/-!
# Records of trees

A record says of a tree all that can be stored: the texts, the groups with the names of their
types and the constraints as written, and a fragment of regular expression per node. A record may
be made by hand, so it may lack fragments, and reading it back resolves types and constraints
anew.

Specification: `SPEC_FULL.md` §4.3 (lines 50–51) and §6 (line 84).
-/

namespace UrlPattern

/-- A stored node. `SPEC_FULL.md:84`. -/
inductive NodeRecord where
  | literal (text : String) (regex : Option String)
  | group (name typeName : String) (constraints : RawConstraints) (inSection : Bool) (id : Nat)
    (regex : Option String)
  | sequence (children : List NodeRecord) (regex : Option String)
  | optional (children : List NodeRecord) (regex : Option String)

namespace NodeRecord

mutual

/-- Decides whether two records are equal. -/
def decEq : (a b : NodeRecord) → Decidable (a = b)
  | literal t r, literal t' r' => decidable_of_iff (t = t' ∧ r = r') (by simp)
  | group n t c o i r, group n' t' c' o' i' r' =>
    decidable_of_iff (n = n' ∧ t = t' ∧ c = c' ∧ o = o' ∧ i = i' ∧ r = r') (by simp)
  | sequence c r, sequence c' r' =>
    match decEqAll c c' with
    | isTrue h => decidable_of_iff (r = r') (by simp [h])
    | isFalse h => isFalse (by simp [h])
  | optional c r, optional c' r' =>
    match decEqAll c c' with
    | isTrue h => decidable_of_iff (r = r') (by simp [h])
    | isFalse h => isFalse (by simp [h])
  | literal .., group .. => isFalse nofun
  | literal .., sequence .. => isFalse nofun
  | literal .., optional .. => isFalse nofun
  | group .., literal .. => isFalse nofun
  | group .., sequence .. => isFalse nofun
  | group .., optional .. => isFalse nofun
  | sequence .., literal .. => isFalse nofun
  | sequence .., group .. => isFalse nofun
  | sequence .., optional .. => isFalse nofun
  | optional .., literal .. => isFalse nofun
  | optional .., group .. => isFalse nofun
  | optional .., sequence .. => isFalse nofun

/-- Decides whether two lists of records are equal. -/
def decEqAll : (a b : List NodeRecord) → Decidable (a = b)
  | [], [] => isTrue rfl
  | [], _ :: _ => isFalse nofun
  | _ :: _, [] => isFalse nofun
  | a :: s, b :: t =>
    match decEq a b with
    | isTrue h =>
      match decEqAll s t with
      | isTrue h' => isTrue (by rw [h, h'])
      | isFalse h' => isFalse (by simp [h'])
    | isFalse h => isFalse (by simp [h])

end

instance : DecidableEq NodeRecord := decEq

end NodeRecord

namespace Node

mutual

/-- The record of a tree, with the fragment of every node. `SPEC_FULL.md:51`. -/
def toRecord : Node → NodeRecord
  | literal text tag => .literal text (some (literal text tag).fragment)
  | group g => .group g.name g.type.name g.raw g.tag.inSection g.id (some g.fragment)
  | sequence children tag => .sequence (toRecords children) (some (sequence children tag).fragment)
  | optional children tag => .optional (toRecords children) (some (optional children tag).fragment)

/-- The records of several trees. -/
def toRecords : List Node → List NodeRecord
  | [] => []
  | n :: ns => n.toRecord :: toRecords ns

end

mutual

/-- The tree of a record, with the types of a registry. A group is marked as standing inside a
section if its record says so or if it does. `SPEC_FULL.md:51`. -/
def ofRecord (types : TypeRegistry) : NodeRecord → Except PatternError Node
  | .literal text regex => .ok (literal text ⟨false, regex⟩)
  | .group name typeName constraints inSection id regex => do
    let type ← (types.resolve name typeName).mapError .type
    let g ← (Group.ofRaw id name type constraints ⟨inSection, regex⟩).mapError .constraint
    return group g
  | .sequence children regex => do
    let children ← ofRecords types children
    return sequence children ⟨false, regex⟩
  | .optional children regex => do
    let children ← ofRecords types children
    return optional (markAllInSection children) ⟨false, regex⟩

/-- The trees of several records. -/
def ofRecords (types : TypeRegistry) : List NodeRecord → Except PatternError (List Node)
  | [] => .ok []
  | r :: rs => do
    let n ← ofRecord types r
    let ns ← ofRecords types rs
    return n :: ns

end

end Node

end UrlPattern
