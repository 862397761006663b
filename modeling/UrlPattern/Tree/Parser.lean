import UrlPattern.Error
import UrlPattern.Text.Utf8
import UrlPattern.Tree
import UrlPattern.Tree.ConstraintList

/-!
# Reading patterns

A pattern is a row of groups `{name:type(constraints)}`, optional sections `(...)` and literals,
which are the runs of characters between them. A `?` behind a group makes a section of it. Groups
are numbered in the order in which they are read, and the numbering goes on from pattern to
pattern, even past one that is refused.

A section ends at the parenthesis that closes it, where parentheses inside groups do not count; a
group ends at the first closing brace outside quotes. Both ends are looked for before the inside
is read.

Specification: `SPEC_FULL.md` §4.4 (lines 57–58) and §6 (lines 78–82).
-/

namespace UrlPattern

/-- What is wrong at a place in a text. -/
structure ParseFault where
  offset : Nat
  kind : ParseErrorKind
  deriving DecidableEq

namespace Node

/-- Splits a text at the brace that closes a group; gives what stands inside the group and what
follows the brace. Inside quotes a brace does not close, and a backslash hides the next character.
`SPEC_FULL.md:58`. -/
def splitGroup : (inQuotes : Bool) → List Char → Except ParseErrorKind (List Char × List Char)
  | inQuotes, [] => .error (if inQuotes then .unterminatedQuote else .unterminatedGroup)
  | true, '\\' :: c :: cs => (splitGroup true cs).map fun r ↦ ('\\' :: c :: r.1, r.2)
  | inQuotes, '"' :: cs => (splitGroup (!inQuotes) cs).map fun r ↦ ('"' :: r.1, r.2)
  | false, '\x7d' :: cs => .ok ([], cs)
  | inQuotes, c :: cs => (splitGroup inQuotes cs).map fun r ↦ (c :: r.1, r.2)

/-- What a search gives once it has passed over a beginning of the text. -/
theorem map_append_eq_ok {ε : Type} (front : List Char) {r : Except ε (List Char × List Char)}
    {inside after : List Char} :
    (r.map fun r ↦ (front ++ r.1, r.2)) = .ok (inside, after) ↔
      ∃ inside', r = .ok (inside', after) ∧ inside = front ++ inside' := by
  cases r with
  | error e => simp [Except.map]
  | ok p =>
    simp only [Except.map, Except.ok.injEq, Prod.mk.injEq]
    constructor
    · rintro ⟨rfl, rfl⟩
      exact ⟨p.1, rfl, rfl⟩
    · rintro ⟨inside', rfl, rfl⟩
      exact ⟨rfl, rfl⟩

/-- Splitting at a brace loses the brace alone. -/
theorem eq_of_splitGroup {inQuotes : Bool} {cs content after : List Char}
    (h : splitGroup inQuotes cs = .ok (content, after)) : cs = content ++ '\x7d' :: after := by
  fun_induction splitGroup inQuotes cs generalizing content after with
  | case1 => simp at h
  | case2 c cs ih =>
    obtain ⟨inner, hr, rfl⟩ := (map_append_eq_ok ['\\', c]).mp h
    rw [ih hr]
    rfl
  | case3 inQuotes cs ih =>
    obtain ⟨inner, hr, rfl⟩ := (map_append_eq_ok ['"']).mp h
    rw [ih hr]
    rfl
  | case4 cs =>
    simp only [Except.ok.injEq, Prod.mk.injEq] at h
    rw [← h.1, ← h.2]
    rfl
  | case5 inQuotes c cs _ _ _ ih =>
    obtain ⟨inner, hr, rfl⟩ := (map_append_eq_ok [c]).mp h
    rw [ih hr]
    rfl

/-- Splits a text at the parenthesis that closes a section; gives what stands inside the section and
what follows the parenthesis. The section was opened at one offset, the text starts at another, and
so many inner parentheses are open. `SPEC_FULL.md:58`. -/
def splitSection (opener offset depth : Nat) (cs : List Char) :
    Except ParseFault (List Char × List Char) :=
  match cs with
  | [] => .error ⟨opener, .unterminatedSection⟩
  | c :: rest =>
    if c = '\x7b' then
      match _h : splitGroup false rest with
      | .error kind => .error ⟨offset, kind⟩
      | .ok (content, after) =>
        (splitSection opener (offset + 1 + Text.byteLength content + 1) depth after).map fun r ↦
          (c :: content ++ '\x7d' :: r.1, r.2)
    else if c = '(' then
      (splitSection opener (offset + 1) (depth + 1) rest).map fun r ↦ (c :: r.1, r.2)
    else if c = ')' then
      if depth = 0 then .ok ([], rest)
      else (splitSection opener (offset + 1) (depth - 1) rest).map fun r ↦ (c :: r.1, r.2)
    else (splitSection opener (offset + c.utf8Size) depth rest).map fun r ↦ (c :: r.1, r.2)
termination_by cs.length
decreasing_by
  · have := congrArg List.length (eq_of_splitGroup _h)
    simp only [List.length_append, List.length_cons] at *
    omega
  all_goals simp

/-- Splitting at a parenthesis loses the parenthesis alone. -/
theorem eq_of_splitSection {opener offset depth : Nat} {cs inner after : List Char}
    (h : splitSection opener offset depth cs = .ok (inner, after)) :
    cs = inner ++ ')' :: after := by
  fun_induction splitSection opener offset depth cs generalizing inner after with
  | case1 => simp at h
  | case2 => simp at h
  | case3 offset depth rest content after' hg ih =>
    rw [eq_of_splitGroup hg]
    obtain ⟨inner', hr, rfl⟩ := (map_append_eq_ok ('\x7b' :: content ++ ['\x7d'])).mp
      (by simpa using h)
    rw [ih hr]
    simp
  | case4 offset depth rest _ ih =>
    obtain ⟨inner', hr, rfl⟩ := (map_append_eq_ok ['(']).mp h
    rw [ih hr]
    rfl
  | case5 offset rest _ _ =>
    simp only [Except.ok.injEq, Prod.mk.injEq] at h
    rw [← h.1, ← h.2]
    rfl
  | case6 offset depth rest _ _ _ ih =>
    obtain ⟨inner', hr, rfl⟩ := (map_append_eq_ok [')']).mp h
    rw [ih hr]
    rfl
  | case7 offset depth c rest _ _ _ ih =>
    obtain ⟨inner', hr, rfl⟩ := (map_append_eq_ok [c]).mp h
    rw [ih hr]
    rfl

/-- What stands inside the braces of a group. -/
structure GroupHeader where
  name : String
  typeName : String
  /-- The text between the parentheses, if there are any. -/
  constraints : Option (List Char)

/-- Whether a character may stand in the name of a group, at its start or later. -/
def isNameChar (first : Bool) (c : Char) : Bool :=
  c.isAlpha || c = '_' || (!first && c.isDigit)

/-- Reads the inside of a group: a name, a colon, the letters of a type, and perhaps a list between
parentheses, the second of which ends the text. `SPEC_FULL.md:80`. -/
def GroupHeader.read? (content : List Char) : Option GroupHeader :=
  let name := content.takeWhile (isNameChar false)
  match name.head?, content.dropWhile (isNameChar false) with
  | some c, ':' :: rest =>
    let typeName := rest.takeWhile Char.isAlpha
    if ¬ isNameChar true c ∨ typeName = [] then none
    else
      match rest.dropWhile Char.isAlpha with
      | [] => some ⟨String.ofList name, String.ofList typeName, none⟩
      | '(' :: list =>
        if list.getLast? = some ')' then
          some ⟨String.ofList name, String.ofList typeName, some list.dropLast⟩
        else none
      | _ => none
  | _, _ => none

/-- A step of reading: it may fail, and either way leaves the number of the next group.
`SPEC_FULL.md:106`. -/
abbrev Parse (α : Type) := EStateM PatternError Nat α

/-- The number for a new group. -/
def takeId : Parse Nat := fun next ↦ .ok next (next + 1)

/-- A result of a step that takes no numbers. -/
def liftResult {ε α : Type} (f : ε → PatternError) (r : Except ε α) : Parse α :=
  match r with
  | .ok a => pure a
  | .error e => throw (f e)

/-- Reads the inside of a group that starts at an offset of a pattern. -/
def readGroup (pattern : String) (types : TypeRegistry) (offset : Nat) (content : List Char) :
    Parse Group := do
  let fail (kind : ParseErrorKind) : PatternError := .parse ⟨pattern, offset, kind⟩
  match GroupHeader.read? content with
  | none => throw (fail (.invalidGroup (String.ofList content)))
  | some header =>
    let raw ← liftResult
      (fun
        | .invalidEntry key => fail (.invalidConstraint key)
        | .unterminatedQuote => fail .unterminatedQuote)
      (match header.constraints with
        | some list => ConstraintList.read list
        | none => .ok ∅)
    let type ← liftResult .type (types.resolve header.name header.typeName)
    let id ← takeId
    liftResult .constraint (Group.ofRaw id header.name type raw .plain)

/-- Whether a character belongs to a literal. `SPEC_FULL.md:79`. -/
def isLiteralChar (c : Char) : Bool := c ≠ '\x7b' && c ≠ '('

/-- Reads the elements of a part of a pattern that starts at an offset. `SPEC_FULL.md:58`. -/
def readElements (pattern : String) (types : TypeRegistry) (offset : Nat) (cs : List Char) :
    Parse (List Node) :=
  match cs with
  | [] => pure []
  | c :: rest =>
    if c = '\x7b' then
      match _h : splitGroup false rest with
      | .error kind => throw (.parse ⟨pattern, offset, kind⟩)
      | .ok (content, '?' :: after) => do
        let g ← readGroup pattern types offset content
        let others ← readElements pattern types (offset + 1 + Text.byteLength content + 2) after
        return ofSection [group g] :: others
      | .ok (content, after) => do
        let g ← readGroup pattern types offset content
        let others ← readElements pattern types (offset + 1 + Text.byteLength content + 1) after
        return group g :: others
    else if c = '(' then
      match h : splitSection offset (offset + 1) 0 rest with
      | .error fault => throw (.parse ⟨pattern, fault.offset, fault.kind⟩)
      | .ok (inner, after) => do
        let children ← readElements pattern types (offset + 1) inner
        let others ← readElements pattern types (offset + 1 + Text.byteLength inner + 1) after
        return ofSection children :: others
    else do
      let text := c :: rest.takeWhile isLiteralChar
      let others ← readElements pattern types (offset + Text.byteLength text)
        (rest.dropWhile isLiteralChar)
      return ofText (String.ofList text) :: others
termination_by cs.length
decreasing_by
  · have := congrArg List.length (eq_of_splitGroup _h)
    simp only [List.length_append, List.length_cons] at *
    omega
  · have := congrArg List.length (eq_of_splitGroup _h)
    simp only [List.length_append, List.length_cons] at *
    omega
  · have := congrArg List.length (eq_of_splitSection h)
    simp only [List.length_append, List.length_cons] at *
    omega
  · have := congrArg List.length (eq_of_splitSection h)
    simp only [List.length_append, List.length_cons] at *
    omega
  · have := (List.dropWhile_suffix isLiteralChar (l := rest)).length_le
    simp only [List.length_cons]
    omega

/-- Reads a pattern into a sequence of its elements, numbering the groups from the state on. -/
def read (pattern : String) (types : TypeRegistry) : Parse Node :=
  if pattern = "" then throw (.parse ⟨pattern, 0, .emptyPattern⟩)
  else do
    let children ← readElements pattern types 0 pattern.toList
    return ofChildren children

/-- Reads one pattern, whose groups are numbered from one on. `SPEC_FULL.md:58`. -/
def parse (pattern : String) (types : TypeRegistry) : Except PatternError Node :=
  match read pattern types 1 with
  | .ok root _ => .ok root
  | .error e _ => .error e

end Node

end UrlPattern
