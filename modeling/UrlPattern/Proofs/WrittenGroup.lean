import UrlPattern.Proofs.Enclosed
import UrlPattern.Proofs.WrittenConstraints

/-!
# How groups are written

A group is written as its name, a colon and the name of its type, then perhaps a list that spells
its constraints, all between braces. A group without constraints has a blank list or none.

Reading a group gives the one group of a number that is written so (`readGroup_eq_ok_iff`).

Specification: `SPEC_FULL.md` §4.4 (lines 57–58) and §6 (lines 78–82).
-/

namespace UrlPattern

/-- The names that groups may have. -/
def IsGroupName (name : String) : Prop :=
  (∃ c ∈ name.toList.head?, Node.isNameChar true c = true) ∧
    ∀ c ∈ name.toList, Node.isNameChar false c = true

/-- The names of types that a group may state. -/
def IsTypeName (name : String) : Prop := name ≠ "" ∧ ∀ c ∈ name.toList, c.isAlpha = true

namespace Group

/-- A group marked as standing inside an optional section. -/
def markInSection (g : Group) : Group := { g with tag := { g.tag with inSection := true } }

/-- Whether a group can stand in a pattern: its names can be written, and its type is found. -/
structure IsReadable (types : TypeRegistry) (g : Group) : Prop where
  name : IsGroupName g.name
  typeName : IsTypeName g.type.name
  type_found : types.get? g.type.name = some g.type

/-- How the inside of a group may be written. -/
inductive IsWrittenInside (g : Group) : (content : List Char) → Prop where
  | bare (hraw : g.raw = ∅) : IsWrittenInside g (g.name.toList ++ ':' :: g.type.name.toList)
  | listed {list : List Char} (hlist : ConstraintList.Spells list g.raw) :
      IsWrittenInside g (g.name.toList ++ ':' :: (g.type.name.toList ++ '(' :: (list ++ [')'])))

/-- How a group is written does not depend on where it stands. -/
theorem IsReadable.of_tag {types : TypeRegistry} {g : Group} (h : g.IsReadable types) (tag : Tag) :
    ({ g with tag := tag } : Group).IsReadable types :=
  ⟨h.name, h.typeName, h.type_found⟩

theorem IsWrittenInside.of_tag {g : Group} {content : List Char} (h : g.IsWrittenInside content)
    (tag : Tag) : ({ g with tag := tag } : Group).IsWrittenInside content := by
  cases h with
  | bare hraw => exact .bare hraw
  | listed hlist => exact .listed hlist

/-- What may be made of a group that is read. -/
theorem ofRaw_eq_ok_iff {id : Nat} {name : String} {type : ValueType} {raw : RawConstraints}
    {tag : Tag} {g : Group} :
    ofRaw id name type raw tag = .ok g ↔
      g.id = id ∧ g.name = name ∧ g.type = type ∧ g.raw = raw ∧ g.tag = tag := by
  rw [ofRaw]
  constructor
  · intro h
    split at h
    · cases h
      exact ⟨rfl, rfl, rfl, rfl, rfl⟩
    · cases h
  · rintro ⟨rfl, rfl, rfl, rfl, rfl⟩
    have hresolved := g.resolved
    split
    · next constraints h =>
      rw [h] at hresolved
      cases hresolved
      rfl
    · next h =>
      rw [h] at hresolved
      cases hresolved

end Group

/-- A type is found under no name but its own. -/
theorem TypeRegistry.resolve_eq_ok_iff {types : TypeRegistry} {group typeName : String}
    {t : ValueType} :
    types.resolve group typeName = .ok t ↔ t.name = typeName ∧ types.get? t.name = some t := by
  rw [resolve]
  constructor
  · intro h
    split at h
    · next hget =>
      cases h
      have hname := types.name_eq hget
      exact ⟨hname, hname ▸ hget⟩
    · cases h
  · rintro ⟨rfl, hget⟩
    rw [hget]

namespace Node

namespace GroupHeader

/-- What stands behind the type of a group. -/
def listText : Option (List Char) → List Char
  | none => []
  | some list => '(' :: (list ++ [')'])

/-- The inside of a group, written from its parts. -/
def text (header : GroupHeader) : List Char :=
  header.name.toList ++ ':' :: (header.typeName.toList ++ listText header.constraints)

/-- What is read as the inside of a group is written from what was read. -/
theorem eq_text_of_read? {content : List Char} {header : GroupHeader}
    (h : read? content = some header) :
    IsGroupName header.name ∧ IsTypeName header.typeName ∧ content = header.text := by
  rw [read?] at h
  split at h
  · next c rest hhead hdrop =>
    obtain ⟨hcontent, hchars, -⟩ := Text.takeWhile_eq_and_dropWhile_eq_iff.mp ⟨rfl, hdrop⟩
    dsimp only at h
    split at h
    · cases h
    · next hnot =>
      obtain ⟨hfirst, htype⟩ := not_or.mp hnot
      have hname : IsGroupName (String.ofList (content.takeWhile (isNameChar false))) := by
        rw [IsGroupName, String.toList_ofList]
        exact ⟨⟨c, hhead, not_not.mp hfirst⟩, hchars⟩
      have htype : IsTypeName (String.ofList (rest.takeWhile Char.isAlpha)) := by
        rw [IsTypeName, String.toList_ofList]
        exact ⟨fun h ↦ htype (String.ofList_inj.mp h), fun d hd ↦ List.mem_takeWhile_imp hd⟩
      have hrest := List.takeWhile_append_dropWhile (p := Char.isAlpha) (l := rest)
      split at h
      · next hnil =>
        cases h
        refine ⟨hname, htype, ?_⟩
        simp only [text, listText, String.toList_ofList]
        rw [← hnil, hrest]
        exact hcontent
      · next list hlist =>
        split at h
        · next hlast =>
          cases h
          refine ⟨hname, htype, ?_⟩
          simp only [text, listText, String.toList_ofList]
          rw [List.dropLast_append_getLast? _ hlast, ← hlist, hrest]
          exact hcontent
        · cases h
      · cases h
  · cases h

/-- The inside of a group is read as it was written, as neither a colon nor a parenthesis stands in
the names. -/
theorem read?_text {header : GroupHeader} (hname : IsGroupName header.name)
    (htypeName : IsTypeName header.typeName) : read? header.text = some header := by
  obtain ⟨⟨c, hhead, hfirst⟩, hchars⟩ := hname
  obtain ⟨hne, hletters⟩ := htypeName
  obtain ⟨name, typeName, constraints⟩ := header
  have hcolon : ∀ d ∈ (':' :: (typeName.toList ++ listText constraints)).head?,
      isNameChar false d = false := fun d hd ↦ by
    cases hd
    rfl
  have hparen : ∀ d ∈ (listText constraints).head?, d.isAlpha = false := fun d hd ↦ by
    cases constraints <;> cases hd
    rfl
  obtain ⟨htake, hdrop⟩ := Text.takeWhile_eq_and_dropWhile_eq_iff.mpr ⟨rfl, hchars, hcolon⟩
  obtain ⟨htake', hdrop'⟩ := Text.takeWhile_eq_and_dropWhile_eq_iff.mpr ⟨rfl, hletters, hparen⟩
  have hnil : typeName.toList ≠ [] := fun h ↦ hne (String.toList_inj.mp h)
  rw [read?, text, htake, hdrop, Option.mem_def.mp hhead]
  simp only [htake', hdrop', hfirst, hnil, String.ofList_toList]
  cases constraints with
  | none => rfl
  | some list => simp [listText]

end GroupHeader

/-! ### Steps of reading -/

/-- A step and what follows it give a result exactly if both do. -/
theorem parse_bind_eq_ok {α β : Type} {x : Parse α} {f : α → Parse β} {next last : Nat} {b : β} :
    (x >>= f) next = .ok b last ↔ ∃ a middle, x next = .ok a middle ∧ f a middle = .ok b last := by
  have hbind : (x >>= f) next = EStateM.bind x f next := rfl
  rw [hbind, EStateM.bind]
  cases hx : x next with
  | ok a middle =>
    constructor
    · exact fun h ↦ ⟨a, middle, rfl, h⟩
    · rintro ⟨a', middle', heq, h⟩
      cases heq
      exact h
  | error e middle => exact ⟨nofun, fun ⟨_, _, heq, _⟩ ↦ nomatch heq⟩

theorem liftResult_eq_ok_iff {ε α : Type} {f : ε → PatternError} {r : Except ε α}
    {next last : Nat} {a : α} : liftResult f r next = .ok a last ↔ r = .ok a ∧ next = last := by
  cases r with
  | error e => exact ⟨nofun, fun h ↦ nomatch h.1⟩
  | ok b =>
    constructor
    · intro h
      cases h
      exact ⟨rfl, rfl⟩
    · rintro ⟨h, rfl⟩
      cases h
      rfl

/-- A step that fails, or whose result a failing step gets. -/
theorem parse_bind_eq_error {α β : Type} {x : Parse α} {f : α → Parse β} {next last : Nat}
    {e : PatternError} (h : (x >>= f) next = .error e last) :
    x next = .error e last ∨ ∃ a middle, x next = .ok a middle ∧ f a middle = .error e last := by
  change EStateM.bind x f next = _ at h
  rw [EStateM.bind] at h
  split at h
  · next a middle hx => exact .inr ⟨a, middle, hx, h⟩
  · next e' middle hx =>
    cases h
    exact .inl hx

theorem liftResult_eq_error {ε α : Type} {f : ε → PatternError} {r : Except ε α} {next last : Nat}
    {e : PatternError} (h : liftResult f r next = .error e last) : ∃ e', e = f e' := by
  cases r with
  | ok a => cases h
  | error e' =>
    cases h
    exact ⟨e', rfl⟩

/-- A group that was read can stand in a pattern, and was written so. -/
private theorem written_of_readGroup {pattern : String} {types : TypeRegistry}
    {offset next last : Nat} {content : List Char} {g : Group}
    (h : readGroup pattern types offset content next = .ok g last) :
    g.IsReadable types ∧ g.IsWrittenInside content ∧ g.tag = .plain ∧ g.id = next ∧
      last = next + 1 := by
  rw [readGroup] at h
  cases hread : GroupHeader.read? content with
  | none =>
    rw [hread] at h
    cases h
  | some header =>
    rw [hread] at h
    obtain ⟨hname, htypeName, rfl⟩ := GroupHeader.eq_text_of_read? hread
    obtain ⟨raw, n₁, hfirst, h₁⟩ := parse_bind_eq_ok.mp h
    obtain ⟨hraw, rfl⟩ := liftResult_eq_ok_iff.mp hfirst
    obtain ⟨type, n₂, hsecond, h₂⟩ := parse_bind_eq_ok.mp h₁
    obtain ⟨htype, rfl⟩ := liftResult_eq_ok_iff.mp hsecond
    obtain ⟨id, n₃, hthird, h₃⟩ := parse_bind_eq_ok.mp h₂
    cases hthird
    obtain ⟨hgroup, rfl⟩ := liftResult_eq_ok_iff.mp h₃
    obtain ⟨hid, hgname, rfl, rfl, htag⟩ := Group.ofRaw_eq_ok_iff.mp hgroup
    obtain ⟨htname, hfound⟩ := TypeRegistry.resolve_eq_ok_iff.mp htype
    obtain ⟨name, typeName, constraints⟩ := header
    dsimp only at hgname htname
    subst hgname htname
    refine ⟨⟨hname, htypeName, hfound⟩, ?_, htag, hid, rfl⟩
    cases constraints with
    | none =>
      rw [GroupHeader.text, GroupHeader.listText, List.append_nil]
      exact .bare (Except.ok.inj hraw).symm
    | some list => exact .listed (ConstraintList.read_eq_ok_iff.mp hraw)

/-- A group is read as it is written, with the next number. -/
theorem readGroup_eq_ok_iff {pattern : String} {types : TypeRegistry} {offset next last : Nat}
    {content : List Char} {g : Group} :
    readGroup pattern types offset content next = .ok g last ↔
      g.IsReadable types ∧ g.IsWrittenInside content ∧ g.tag = .plain ∧ g.id = next ∧
        last = next + 1 := by
  refine ⟨written_of_readGroup, ?_⟩
  rintro ⟨hreadable, hwritten, htag, rfl, rfl⟩
  obtain ⟨constraints, rfl, hraw⟩ : ∃ constraints,
      content = GroupHeader.text ⟨g.name, g.type.name, constraints⟩ ∧
        constraints.elim (.ok ∅) ConstraintList.read = .ok g.raw := by
    cases hwritten with
    | bare hraw =>
      refine ⟨none, ?_, congrArg _ hraw.symm⟩
      rw [GroupHeader.text, GroupHeader.listText, List.append_nil]
    | listed hlist => exact ⟨some _, rfl, ConstraintList.read_eq_ok_iff.mpr hlist⟩
  have hread : GroupHeader.read? (GroupHeader.text ⟨g.name, g.type.name, constraints⟩) = _ :=
    GroupHeader.read?_text hreadable.name hreadable.typeName
  rw [readGroup, hread]
  refine parse_bind_eq_ok.mpr ⟨g.raw, g.id, liftResult_eq_ok_iff.mpr ⟨?_, rfl⟩, ?_⟩
  · cases constraints <;> exact hraw
  refine parse_bind_eq_ok.mpr ⟨g.type, g.id, liftResult_eq_ok_iff.mpr
    ⟨TypeRegistry.resolve_eq_ok_iff.mpr ⟨rfl, hreadable.type_found⟩, rfl⟩, ?_⟩
  refine parse_bind_eq_ok.mpr ⟨g.id, g.id + 1, rfl, liftResult_eq_ok_iff.mpr ⟨?_, rfl⟩⟩
  exact Group.ofRaw_eq_ok_iff.mpr ⟨rfl, rfl, rfl, rfl, htag⟩

/-- The errors of a group that starts at an offset of a pattern and has this inside. -/
inductive GroupError (pattern : String) (offset : Nat) (content : List Char) :
    PatternError → Prop where
  | header :
      GroupError pattern offset content
        (.parse ⟨pattern, offset, .invalidGroup (String.ofList content)⟩)
  | entry {key : String} :
      GroupError pattern offset content (.parse ⟨pattern, offset, .invalidConstraint key⟩)
  | openQuote : GroupError pattern offset content (.parse ⟨pattern, offset, .unterminatedQuote⟩)
  | type {e : TypeError} : GroupError pattern offset content (.type e)
  | constraint {e : ConstraintError} : GroupError pattern offset content (.constraint e)

/-- Reading a group fails with no other errors. -/
theorem groupError_of_readGroup {pattern : String} {types : TypeRegistry} {offset next last : Nat}
    {content : List Char} {e : PatternError}
    (h : readGroup pattern types offset content next = .error e last) :
    GroupError pattern offset content e := by
  rw [readGroup] at h
  cases hread : GroupHeader.read? content with
  | none =>
    rw [hread] at h
    cases h
    exact .header
  | some header =>
    rw [hread] at h
    obtain h | ⟨raw, n₁, -, h⟩ := parse_bind_eq_error h
    · obtain ⟨fault, rfl⟩ := liftResult_eq_error h
      cases fault with
      | invalidEntry key => exact .entry
      | unterminatedQuote => exact .openQuote
    obtain h | ⟨type, n₂, -, h⟩ := parse_bind_eq_error h
    · obtain ⟨e', rfl⟩ := liftResult_eq_error h
      exact .type
    obtain h | ⟨id, n₃, -, h⟩ := parse_bind_eq_error h
    · cases h
    · obtain ⟨e', rfl⟩ := liftResult_eq_error h
      exact .constraint

end Node

end UrlPattern
