import UrlPattern.Table
import UrlPattern.Text.Decimal

/-!
# JSON values

Records are stored as JSON. A value here is what a well-formed text says, with three distinctions
that records need: a whole number of 64 bits is kept apart from every other number; a name in an
object remembers whether it is spelled with escapes, which a name that is a number must not be; and
a text can be well-formed and yet have no value, because it spells half a character or a number
beyond all bounds. Such a part is `invalid`: it does no harm where nobody looks at it.

The functions below look into values; each gives none where the value is of another kind.

Specification: `SPEC_FULL.md` §10.2 (lines 179–182).
-/

namespace UrlPattern

/-- The name of a field. -/
structure Json.Name where
  text : String
  /-- Whether the text stands between the quotes as it is, without any escape. -/
  isPlain : Bool
  deriving DecidableEq

/-- Whether a character stands for itself inside a string. -/
def Json.isPlainChar (c : Char) : Bool := c ≠ '"' && c ≠ '\\' && 32 ≤ c.toNat

/-- The name of a text, plain if it can be. -/
def Json.Name.ofText (s : String) : Json.Name := ⟨s, s.toList.all isPlainChar⟩

instance : Coe String Json.Name := ⟨Json.Name.ofText⟩

/-- A JSON value. -/
inductive Json where
  | null
  | bool (b : Bool)
  /-- A whole number from `-2 ^ 63` to `2 ^ 64 - 1`, written without point and exponent. -/
  | int (n : Int)
  /-- Any other number, as written. -/
  | decimal (text : String)
  | string (s : String)
  | array (items : List Json)
  /-- The fields in the order of the text, which may repeat a name. -/
  | object (fields : List (Json.Name × Json))
  /-- A part of a well-formed text that has no value. -/
  | invalid

namespace Json

/-- A field: its name and its value. -/
abbrev Field := Name × Json

/-- A number that is not negative. -/
def nat (n : Nat) : Json := int n

/-- A text, or null for none. -/
def optional : Option String → Json
  | some s => string s
  | none => null

/-- The object of a table from texts. -/
def ofTable {ν : Type _} (f : ν → Json) (t : Table String ν) : Json :=
  object (t.toList.map fun e ↦ (e.1, f e.2))

/-- The object of fields with these names and these values. -/
def ofParts (names : List String) (values : List Json) : Json :=
  object ((names.map Name.ofText).zip values)

/-- The text. -/
def text? : Json → Option String
  | string s => some s
  | _ => none

/-- The truth value. -/
def bool? : Json → Option Bool
  | bool b => some b
  | _ => none

/-- The number, from zero to a limit. -/
def nat? (most : Nat) : Json → Option Nat
  | int n => if 0 ≤ n ∧ n ≤ most then some n.toNat else none
  | _ => none

/-- The text, or none for null. -/
def optional? : Json → Option (Option String)
  | null => some none
  | string s => some (some s)
  | _ => none

/-- The items of an array, each read by a function. -/
def list? {α : Type _} (f : Json → Option α) : Json → Option (List α)
  | array items => items.mapM f
  | _ => none

/-- The table of an object, each value read by a function; of two fields of one name, the later
counts. -/
def table? {ν : Type _} (f : Json → Option ν) : Json → Option (Table String ν)
  | object fields => (fields.mapM fun e ↦ (f e.2).map fun v ↦ (e.1.text, v)).map Table.ofList
  | _ => none

/-- The field of a name, which may be missing but must not be repeated. -/
def field? (name : String) (fields : List Field) : Option (Option Json) :=
  match fields.filter (·.1.text = name) with
  | [] => some none
  | [e] => some (some e.2)
  | _ => none

/-- The parts of a record with these field names, in this order: those of an object by name, where
other fields do not count, and those of an array by place, where the last ones may be missing. -/
def parts? (names : List String) : Json → Option (List (Option Json))
  | object fields => names.mapM fun name ↦ field? name fields
  | array items =>
    if items.length ≤ names.length then
      some (items.map some ++ List.replicate (names.length - items.length) none)
    else none
  | _ => none

/-- Reads a part that may be missing. -/
def partOr {α : Type _} (missing : α) (f : Json → Option α) : Option Json → Option α
  | none => some missing
  | some j => f j

mutual

/-- How many arrays and objects stand around the innermost part, that one included. -/
def depth : Json → Nat
  | array items => depthOfItems items + 1
  | object fields => depthOfFields fields + 1
  | _ => 0

/-- The greatest depth of the items. -/
def depthOfItems : List Json → Nat
  | [] => 0
  | j :: items => max j.depth (depthOfItems items)

/-- The greatest depth of the fields. -/
def depthOfFields : List Field → Nat
  | [] => 0
  | e :: fields => max e.2.depth (depthOfFields fields)

end

mutual

/-- Whether every part has a value. -/
def isSound : Json → Bool
  | invalid => false
  | array items => areItemsSound items
  | object fields => areFieldsSound fields
  | _ => true

/-- Whether every part of the items has a value. -/
def areItemsSound : List Json → Bool
  | [] => true
  | j :: items => j.isSound && areItemsSound items

/-- Whether every part of the fields has a value. -/
def areFieldsSound : List Field → Bool
  | [] => true
  | e :: fields => e.2.isSound && areFieldsSound fields

end

end Json

end UrlPattern
