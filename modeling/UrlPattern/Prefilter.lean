import UrlPattern.ByteSet
import UrlPattern.Pattern

/-!
# Pre-filters

A pre-filter tells of an input, without matching, whether some pattern of a set could match it. It
holds the range of lengths, the characters if no pattern has groups, and the literals that patterns
start with. To find the literals that an input may start with they are grouped by their first two
characters. It may pass an input that no pattern matches.

Specification: `SPEC_FULL.md` §4.7 (lines 66–69) and §10.8 (lines 245–264).
-/

namespace UrlPattern

/-- A set of texts. -/
abbrev TextSet := Table String Unit

/-- The texts of a set, ascending. -/
def TextSet.texts (s : TextSet) : List String := s.keys

/-- What building a pre-filter depends on. `SPEC_FULL.md:170–172`. -/
structure PrefilterOptions where
  /-- No longer input passes, in bytes. -/
  maxLength : Nat
  /-- No literal of fewer characters is kept. -/
  minLiteralLength : Nat
  /-- The least number of bytes that a group is taken to have. -/
  groupMinLength : Nat
  deriving DecidableEq

/-- The options of a pre-filter that is not told otherwise. -/
def PrefilterOptions.standard : PrefilterOptions := ⟨10000, 2, 0⟩

instance : Inhabited PrefilterOptions := ⟨.standard⟩

/-- A range of lengths, its ends included. `SPEC_FULL.md:261–262`. -/
structure LengthRange where
  least : Nat
  greatest : Nat
  deriving DecidableEq

/-- Whether a length lies in the range. -/
def LengthRange.contains (r : LengthRange) (n : Nat) : Bool :=
  decide (r.least ≤ n) && decide (n ≤ r.greatest)

/-- A pre-filter. -/
structure Prefilter where
  /-- The literals kept, and whether some pattern must start with them. -/
  literals : Table String Bool
  /-- The literals by their first two characters. -/
  prefixes : Table String TextSet
  /-- The literals by their last two characters. -/
  suffixes : Table String TextSet
  /-- The least number of bytes of an input. -/
  minLen : Nat
  /-- The greatest number of bytes of an input. -/
  maxLen : Nat
  /-- The bytes of all literals. -/
  charLookup : ByteSet
  /-- Whether other bytes are not to pass. -/
  usesCharLookup : Bool
  /-- The expression of texts over the characters of all literals. -/
  charPattern : Option String
  /-- Whether some pattern may start with anything. -/
  unanchored : Bool
  /-- The numbers of bytes that an input may have. They are derived from the least and the greatest
  one wherever a pre-filter is made, and never stored. -/
  lengths : LengthRange := ⟨minLen, maxLen⟩
  /-- The expression is there exactly if other bytes are not to pass. -/
  usesCharLookup_eq : usesCharLookup = charPattern.isSome
  lengths_eq : lengths = ⟨minLen, maxLen⟩ := by rfl
  deriving DecidableEq

namespace Prefilter

/-- The first two characters of a text, if it has so many. `SPEC_FULL.md:263–264`. -/
def prefixKey? (s : String) : Option String :=
  match s.toList with
  | a :: b :: _ => some (String.ofList [a, b])
  | _ => none

/-- The last two characters of a text, if it has so many. -/
def suffixKey? (s : String) : Option String :=
  match s.toList.reverse with
  | b :: a :: _ => some (String.ofList [a, b])
  | _ => none

/-- How many characters a literal must have to be found by its first characters. -/
def keyWidth : Nat := 2

/-- Whether a text starts with a literal that some pattern must start with. `SPEC_FULL.md:254`. -/
def startsWithAnchor (f : Prefilter) (s : String) : Bool :=
  match (prefixKey? s).bind f.prefixes.get? with
  | some bucket =>
    bucket.texts.any fun text ↦
      f.literals.get? text == some true && text.toList.isPrefixOf s.toList
  | none => false

/-- Whether some pattern could match a text. `SPEC_FULL.md:255–258`. -/
def supports (f : Prefilter) (s : String) : Bool :=
  s ≠ "" && f.lengths.contains s.utf8ByteSize &&
    (!f.usesCharLookup || f.charLookup.containsAll s) && (f.unanchored || f.startsWithAnchor s)

/-- The literals that some pattern must start with, ascending. -/
def anchors (f : Prefilter) : List String := (f.literals.toList.filter (·.2)).map (·.1)

end Prefilter

namespace Node

mutual

/-- The texts of the literals of a tree, from left to right. -/
def literalTexts : Node → List String
  | literal text _ => [text]
  | group _ => []
  | sequence children _ => literalTextsOf children
  | optional children _ => literalTextsOf children

/-- The texts of the literals of several trees. -/
def literalTextsOf : List Node → List String
  | [] => []
  | n :: ns => n.literalTexts ++ literalTextsOf ns

end

mutual

/-- The least and the greatest number of bytes of a node's texts, a group counting as configured.
What stands in an optional section may be missing. `SPEC_FULL.md:67`. -/
def lengthBounds (options : PrefilterOptions) : Node → Nat × Nat
  | literal text tag => (if tag.inSection then 0 else text.utf8ByteSize, text.utf8ByteSize)
  | group _ => (options.groupMinLength, options.maxLength)
  | sequence children _ =>
    let bounds := lengthBoundsOf options children
    (bounds.1, min bounds.2 options.maxLength)
  | optional children _ => (0, min (lengthBoundsOf options children).2 options.maxLength)

/-- The sums of the bounds of several nodes. -/
def lengthBoundsOf (options : PrefilterOptions) : List Node → Nat × Nat
  | [] => (0, 0)
  | n :: ns =>
    let first := n.lengthBounds options
    let others := lengthBoundsOf options ns
    (first.1 + others.1, first.2 + others.2)

end

/-- The literal that a pattern must start with, if it is long enough to be found.
`SPEC_FULL.md:250–253`. -/
def anchor? (options : PrefilterOptions) (root : Node) : Option String :=
  match root.children? with
  | some (literal text tag :: _) =>
    if !tag.inSection && decide (max options.minLiteralLength Prefilter.keyWidth ≤ text.length) then
      some text
    else none
  | _ => none

end Node

namespace Prefilter

/-- Groups texts by a key; texts without a key are left out. -/
def groupBy (key : String → Option String) (texts : List String) : Table String TextSet :=
  texts.foldl
    (fun t text ↦
      match key text with
      | some k => t.insert k (((t.get? k).getD ∅).insert text ())
      | none => t)
    ∅

/-- The expression of non-empty texts over some characters. `SPEC_FULL.md:259–260`. -/
def classPattern (chars : List Char) : String :=
  "^[" ++ String.join (chars.map fun c ↦ Regex.escape (String.singleton c)) ++ "]+$"

/-- The literals of a set of patterns that are kept, and whether some pattern must start with them.
`SPEC_FULL.md:249`. -/
def literalsOf (options : PrefilterOptions) (roots : List Node) : Table String Bool :=
  let texts := (roots.flatMap Node.literalTexts).filter fun text ↦
    decide (options.minLiteralLength ≤ text.length)
  let kept : Table String Bool := .ofList (texts.map fun text ↦ (text, false))
  (roots.filterMap (Node.anchor? options)).foldl (fun t text ↦ t.insert text true) kept

/-- The range of lengths of several trees. -/
def lengthRange (options : PrefilterOptions) (roots : List Node) : Nat × Nat :=
  let clamped := roots.map fun root ↦
    let bounds := root.lengthBounds options
    (min bounds.1 options.maxLength, min bounds.2 options.maxLength)
  match clamped with
  | [] => (0, 0)
  | b :: bs => bs.foldl (fun a b ↦ (min a.1 b.1, max a.2 b.2)) b

/-- The pre-filter of a set of trees. `SPEC_FULL.md:67`. -/
def ofTrees (options : PrefilterOptions) (roots : List Node) : Prefilter :=
  let literals := literalsOf options roots
  let chars : Table Char Unit :=
    .ofList ((roots.flatMap Node.literalTexts).flatMap fun text ↦ text.toList.map fun c ↦ (c, ()))
  let hasGroups := roots.any fun root ↦ !root.groups.isEmpty
  let usesCharLookup := !roots.isEmpty && !hasGroups
  let range := lengthRange options roots
  { literals
    prefixes := groupBy prefixKey? literals.keys
    suffixes := groupBy suffixKey? literals.keys
    minLen := range.1
    maxLen := range.2
    charLookup := .ofList (Text.utf8 chars.keys)
    usesCharLookup
    charPattern := if usesCharLookup then some (classPattern chars.keys) else none
    unanchored := roots.any fun root ↦ (root.anchor? options).isNone
    usesCharLookup_eq := by cases usesCharLookup <;> rfl }

/-- The pre-filter of a set of patterns. -/
def ofPatterns (options : PrefilterOptions) (patterns : List Pattern) : Prefilter :=
  ofTrees options (patterns.map (·.tree))

end Prefilter

end UrlPattern
