import UrlPattern.Json.Printer
import UrlPattern.Json.Reader
import UrlPattern.Prefilter

/-!
# Records of pre-filters

The stored form of a pre-filter is a JSON object with its parts in order and a version in front;
an array of the same parts is also read. The stored form tells twice whether other bytes are not
to pass, by a truth value and by the presence of an expression, and the two must agree.

Specification: `SPEC_FULL.md` §6 (line 86) and §10.8 (lines 245–264).
-/

namespace UrlPattern

/-- The JSON form of a set of bytes: its members, ascending. -/
def ByteSet.toJson (s : ByteSet) : Json := .array (s.toList.map fun b ↦ .nat b.toNat)

/-- Reads a set of bytes from a list, in any order and with repetitions. -/
def ByteSet.ofJson? (j : Json) : Option ByteSet :=
  (j.list? fun b ↦ (b.nat? 255).map UInt8.ofNat).map ByteSet.ofList

/-- The JSON form of a set of texts. -/
def TextSet.toJson (s : TextSet) : Json := .array (s.texts.map .string)

/-- Reads a set of texts from a list, in any order and with repetitions. -/
def TextSet.ofJson? (j : Json) : Option TextSet :=
  (j.list? fun text ↦ text.text?.map fun s ↦ (s, ())).map Table.ofList

/-- Reads options, of which any may be missing. -/
def PrefilterOptions.ofJson? (j : Json) : Option PrefilterOptions :=
  match j.parts? ["maxLength", "minLiteralLength", "groupMinLength"] with
  | some [maxLength, minLiteralLength, groupMinLength] => do
    let length (missing : Nat) := Json.partOr missing (Json.nat? Text.lengthMax)
    return {
      maxLength := ← length standard.maxLength maxLength
      minLiteralLength := ← length standard.minLiteralLength minLiteralLength
      groupMinLength := ← length standard.groupMinLength groupMinLength }
  | _ => none

namespace Prefilter

/-- The version of the records that are written. `SPEC_FULL.md:181–182`. -/
def currentVersion : Nat := 1

/-- The greatest version number. -/
def versionMax : Nat := 0xffffffff

/-- The names of the fields of a record. -/
def fieldNames : List String :=
  ["version", "literals", "prefixes", "suffixes", "minLen", "maxLen", "charLookup",
    "useCharLookup", "charPattern", "unanchored"]

/-- A stored pre-filter. `SPEC_FULL.md:86`. -/
structure Stored where
  version : Nat
  literals : Table String Bool
  prefixes : Table String TextSet
  suffixes : Table String TextSet
  minLen : Nat
  maxLen : Nat
  charLookup : ByteSet
  /-- Whether other bytes are not to pass, according to the record. -/
  useCharLookup : Bool
  charPattern : Option String
  unanchored : Bool
  deriving DecidableEq

/-- The JSON form of a record. -/
def Stored.toJson (r : Stored) : Json :=
  .ofParts fieldNames
    [.nat r.version, .ofTable .bool r.literals, .ofTable TextSet.toJson r.prefixes,
      .ofTable TextSet.toJson r.suffixes, .nat r.minLen, .nat r.maxLen, r.charLookup.toJson,
      .bool r.useCharLookup, .optional r.charPattern, .bool r.unanchored]

/-- The record of a pre-filter. -/
def toStored (f : Prefilter) : Stored where
  version := currentVersion
  literals := f.literals
  prefixes := f.prefixes
  suffixes := f.suffixes
  minLen := f.minLen
  maxLen := f.maxLen
  charLookup := f.charLookup
  useCharLookup := f.usesCharLookup
  charPattern := f.charPattern
  unanchored := f.unanchored

/-- The JSON form of a pre-filter. -/
def toJson (f : Prefilter) : Json := f.toStored.toJson

/-- Reads the expression, or null, which an object may lack and an array must have. -/
def readCharPattern? (isArray : Bool) : Option Json → Option (Option String)
  | none => if isArray then none else some none
  | some j => j.optional?

/-- Whether a value is an array. -/
def isArray : Json → Bool
  | .array _ => true
  | _ => false

/-- Reads a record. -/
def ofJson? (j : Json) : Option Stored :=
  match j.parts? fieldNames with
  | some [some version, some literals, some prefixes, some suffixes, some minLen, some maxLen,
      some charLookup, some useCharLookup, charPattern, unanchored] => do
    return {
      version := ← version.nat? versionMax
      literals := ← literals.table? Json.bool?
      prefixes := ← prefixes.table? TextSet.ofJson?
      suffixes := ← suffixes.table? TextSet.ofJson?
      minLen := ← minLen.nat? Text.lengthMax
      maxLen := ← maxLen.nat? Text.lengthMax
      charLookup := ← ByteSet.ofJson? charLookup
      useCharLookup := ← useCharLookup.bool?
      charPattern := ← readCharPattern? (isArray j) charPattern
      unanchored := ← Json.partOr false Json.bool? unanchored }
  | _ => none

/-- The stored text of a pre-filter. -/
def render (f : Prefilter) : String := f.toJson.render

/-- Makes a pre-filter from a record. The range of lengths is derived again.
`SPEC_FULL.md:261–262`. -/
def ofStored (r : Stored) : Except CompileError Prefilter :=
  if r.version ≠ currentVersion then .error (.unsupportedVersion r.version currentVersion)
  else if h : r.useCharLookup = r.charPattern.isSome then
    .ok {
      literals := r.literals
      prefixes := r.prefixes
      suffixes := r.suffixes
      minLen := r.minLen
      maxLen := r.maxLen
      charLookup := r.charLookup
      usesCharLookup := r.useCharLookup
      charPattern := r.charPattern
      unanchored := r.unanchored
      usesCharLookup_eq := h }
  else .error (.corrupt .charPattern)

/-- Makes a pre-filter from a stored text. -/
def parse (text : String) : Except CompileError Prefilter :=
  match (Json.parse? text).bind ofJson? with
  | some r => ofStored r
  | none => .error (.corrupt .undecodable)

end Prefilter

end UrlPattern
