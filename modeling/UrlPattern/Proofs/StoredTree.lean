import UrlPattern.Proofs.ParsedTree

/-!
# Trees that were stored

The record of a tree has the fragment of every node, so the tree that is read back stores what the
first one may only derive. Apart from that both are the same: `AreReloaded` relates rows of nodes
that differ only in which fragments they store, and it does not tell apart what a tree generates,
what its groups make of a match, and how it is recorded again.

That reading back succeeds rests on two facts about a tree (`AreStorable`): its types are found
under their names, and its nodes are marked as standing where they do. Both hold of the trees that
are read from patterns and of those that are read from records, whatever the records say.

Specification: `SPEC_FULL.md` §4.3 (lines 50–51) and §6 (line 84).
-/

namespace UrlPattern

/-- What a record may say of the fragment of a node: the fragment, or nothing if none is stored. -/
def Tag.Records (tag : Tag) (fragment : String) (regex : Option String) : Prop :=
  regex = some fragment ∨ regex = none ∧ tag.stored = none

/-- A fragment is the same whether it is stored or derived from the same parts. -/
theorem Tag.Records.getD_eq {tag : Tag} {fragment derived : String} {stored : Option String}
    (h : tag.Records fragment stored) (hderived : tag.stored = none → derived = fragment) :
    stored.getD derived = fragment := by
  obtain rfl | ⟨rfl, hnone⟩ := h
  · rfl
  · exact hderived hnone

theorem Group.fragment_eq_getD (g : Group) :
    g.fragment = g.tag.stored.getD ("(?P<" ++ g.captureName ++ ">" ++ g.pattern ++ ")") := by
  rw [fragment]
  cases g.tag.stored <;> rfl

/-- Naming an error otherwise does not change a result. -/
theorem mapError_eq_ok {ε ε' α : Type} {f : ε → ε'} {x : Except ε α} {a : α} :
    x.mapError f = .ok a ↔ x = .ok a := by
  cases x with
  | error e => exact ⟨nofun, nofun⟩
  | ok b => exact ⟨fun h ↦ by cases h; rfl, fun h ↦ by cases h; rfl⟩

namespace Node

/-! ### Storable trees -/

/-- Rows of nodes that are read back as they are. Outside of sections a group may be marked. -/
inductive AreStorable (types : TypeRegistry) : (inSection : Bool) → List Node → Prop where
  | nil {inSection : Bool} : AreStorable types inSection []
  | literal {inSection : Bool} {text : String} {stored : Option String} {ns : List Node}
      (hns : AreStorable types inSection ns) :
      AreStorable types inSection (.literal text ⟨inSection, stored⟩ :: ns)
  | group {inSection : Bool} {g : Group} {ns : List Node}
      (hfound : types.get? g.type.name = some g.type)
      (htag : inSection = true → g.tag.inSection = true) (hns : AreStorable types inSection ns) :
      AreStorable types inSection (.group g :: ns)
  | sequence {inSection : Bool} {children ns : List Node} {stored : Option String}
      (hchildren : AreStorable types inSection children) (hns : AreStorable types inSection ns) :
      AreStorable types inSection (.sequence children ⟨inSection, stored⟩ :: ns)
  | optional {inSection : Bool} {children ns : List Node} {stored : Option String}
      (hchildren : AreStorable types true children) (hns : AreStorable types inSection ns) :
      AreStorable types inSection (.optional children ⟨inSection, stored⟩ :: ns)

namespace AreStorable

variable {types : TypeRegistry} {inSection : Bool} {n : Node} {ns : List Node}

theorem cons (hn : AreStorable types inSection [n]) (hns : AreStorable types inSection ns) :
    AreStorable types inSection (n :: ns) := by
  cases hn with
  | literal => exact .literal hns
  | group hfound htag => exact .group hfound htag hns
  | sequence hchildren => exact .sequence hchildren hns
  | optional hchildren => exact .optional hchildren hns

/-- What stands in a section is storable there. -/
theorem markAllInSection (h : AreStorable types inSection ns) :
    AreStorable types true (Node.markAllInSection ns) := by
  induction h with
  | nil => exact .nil
  | literal _ ih => exact .literal ih
  | group hfound _ _ ih => exact .group hfound (fun _ ↦ rfl) ih
  | sequence _ _ ihchildren ih => exact .sequence ihchildren ih
  | optional _ _ ihchildren ih => exact .optional ihchildren ih

end AreStorable

/-- What is read from a pattern is storable. -/
theorem ReadsElements.areStorable {types : TypeRegistry} {inSection : Bool} {next last : Nat}
    {cs : List Char} {ns : List Node} (h : ReadsElements types inSection next cs ns last) :
    AreStorable types inSection ns := by
  induction h with
  | nil => exact .nil
  | group _ hreadable _ htag _ _ ih =>
    exact .group hreadable.type_found (fun h ↦ by rw [htag, h]) ih
  | marked _ hreadable _ htag _ ih =>
    exact .optional (.group hreadable.type_found (fun _ ↦ by rw [htag]) .nil) ih
  | «section» _ _ _ ihchildren ih => exact .optional ihchildren ih
  | text _ _ _ _ ih => exact .literal ih

mutual

/-- What is read from a record is storable. -/
theorem areStorable_of_ofRecord {types : TypeRegistry} {r : NodeRecord} {n : Node}
    (h : ofRecord types r = .ok n) : AreStorable types false [n] := by
  match r with
  | .literal text regex =>
    cases h
    exact .literal .nil
  | .group name typeName constraints inSection id regex =>
    obtain ⟨type, htype, h⟩ := bind_eq_ok.mp h
    obtain ⟨g, hg, h⟩ := bind_eq_ok.mp h
    cases h
    obtain ⟨-, hfound⟩ := TypeRegistry.resolve_eq_ok_iff.mp (mapError_eq_ok.mp htype)
    obtain ⟨-, -, rfl, -⟩ := Group.ofRaw_eq_ok_iff.mp (mapError_eq_ok.mp hg)
    exact .group hfound (fun h ↦ absurd h Bool.false_ne_true) .nil
  | .sequence children regex =>
    obtain ⟨ns, hns, h⟩ := bind_eq_ok.mp h
    cases h
    exact .sequence (areStorable_of_ofRecords hns) .nil
  | .optional children regex =>
    obtain ⟨ns, hns, h⟩ := bind_eq_ok.mp h
    cases h
    exact .optional (areStorable_of_ofRecords hns).markAllInSection .nil

theorem areStorable_of_ofRecords {types : TypeRegistry} {rs : List NodeRecord} {ns : List Node}
    (h : ofRecords types rs = .ok ns) : AreStorable types false ns := by
  match rs with
  | [] =>
    cases h
    exact .nil
  | r :: rs =>
    obtain ⟨n, hn, h⟩ := bind_eq_ok.mp h
    obtain ⟨ns', hns, h⟩ := bind_eq_ok.mp h
    cases h
    exact (areStorable_of_ofRecord hn).cons (areStorable_of_ofRecords hns)

end

/-! ### Records of trees -/

/-- The records of rows of nodes, where a fragment that is not stored may be left out. -/
inductive AreRecordedAs : List Node → List NodeRecord → Prop where
  | nil : AreRecordedAs [] []
  | literal {text : String} {tag : Tag} {regex : Option String} {ns : List Node}
      {rs : List NodeRecord} (hregex : tag.Records (Node.literal text tag).fragment regex)
      (hns : AreRecordedAs ns rs) :
      AreRecordedAs (.literal text tag :: ns) (.literal text regex :: rs)
  | group {g : Group} {regex : Option String} {ns : List Node} {rs : List NodeRecord}
      (hregex : g.tag.Records g.fragment regex) (hns : AreRecordedAs ns rs) :
      AreRecordedAs (.group g :: ns)
        (.group g.name g.type.name g.raw g.tag.inSection g.id regex :: rs)
  | sequence {children ns : List Node} {tag : Tag} {regex : Option String}
      {rs' rs : List NodeRecord} (hregex : tag.Records (Node.sequence children tag).fragment regex)
      (hchildren : AreRecordedAs children rs') (hns : AreRecordedAs ns rs) :
      AreRecordedAs (.sequence children tag :: ns) (.sequence rs' regex :: rs)
  | optional {children ns : List Node} {tag : Tag} {regex : Option String}
      {rs' rs : List NodeRecord} (hregex : tag.Records (Node.optional children tag).fragment regex)
      (hchildren : AreRecordedAs children rs') (hns : AreRecordedAs ns rs) :
      AreRecordedAs (.optional children tag :: ns) (.optional rs' regex :: rs)

theorem AreRecordedAs.cons {n : Node} {r : NodeRecord} {ns : List Node} {rs : List NodeRecord}
    (hn : AreRecordedAs [n] [r]) (hns : AreRecordedAs ns rs) :
    AreRecordedAs (n :: ns) (r :: rs) := by
  cases hn with
  | literal hregex => exact .literal hregex hns
  | group hregex => exact .group hregex hns
  | sequence hregex hchildren => exact .sequence hregex hchildren hns
  | optional hregex hchildren => exact .optional hregex hchildren hns

mutual

/-- A record may say all that there is to say. -/
theorem areRecordedAs_toRecord (n : Node) : AreRecordedAs [n] [n.toRecord] := by
  match n with
  | .literal text tag => exact .literal (.inl rfl) .nil
  | .group g => exact .group (.inl rfl) .nil
  | .sequence children tag => exact .sequence (.inl rfl) (areRecordedAs_toRecords children) .nil
  | .optional children tag => exact .optional (.inl rfl) (areRecordedAs_toRecords children) .nil

theorem areRecordedAs_toRecords (ns : List Node) : AreRecordedAs ns (toRecords ns) := by
  match ns with
  | [] => exact .nil
  | n :: ns => exact (areRecordedAs_toRecord n).cons (areRecordedAs_toRecords ns)

end

/-! ### Reloaded trees -/

/-- Rows of the same nodes, of which the second may store fragments that the first derives. -/
inductive AreReloaded : List Node → List Node → Prop where
  | nil : AreReloaded [] []
  | literal {text : String} {tag : Tag} {stored : Option String} {ns ns' : List Node}
      (hstored : tag.Records (Node.literal text tag).fragment stored) (hns : AreReloaded ns ns') :
      AreReloaded (.literal text tag :: ns) (.literal text ⟨tag.inSection, stored⟩ :: ns')
  | group {g : Group} {stored : Option String} {ns ns' : List Node}
      (hstored : g.tag.Records g.fragment stored) (hns : AreReloaded ns ns') :
      AreReloaded (.group g :: ns) (.group { g with tag := ⟨g.tag.inSection, stored⟩ } :: ns')
  | sequence {children children' ns ns' : List Node} {tag : Tag} {stored : Option String}
      (hstored : tag.Records (Node.sequence children tag).fragment stored)
      (hchildren : AreReloaded children children') (hns : AreReloaded ns ns') :
      AreReloaded (.sequence children tag :: ns)
        (.sequence children' ⟨tag.inSection, stored⟩ :: ns')
  | optional {children children' ns ns' : List Node} {tag : Tag} {stored : Option String}
      (hstored : tag.Records (Node.optional children tag).fragment stored)
      (hchildren : AreReloaded children children') (hns : AreReloaded ns ns') :
      AreReloaded (.optional children tag :: ns)
        (.optional children' ⟨tag.inSection, stored⟩ :: ns')

mutual

/-- Marking twice is marking once. -/
theorem markInSection_markInSection (n : Node) :
    n.markInSection.markInSection = n.markInSection := by
  match n with
  | .literal text tag => rfl
  | .group g => rfl
  | .sequence children tag =>
    simp only [markInSection, markAllInSection_markAllInSection children]
  | .optional children tag =>
    simp only [markInSection, markAllInSection_markAllInSection children]

theorem markAllInSection_markAllInSection (ns : List Node) :
    markAllInSection (markAllInSection ns) = markAllInSection ns := by
  match ns with
  | [] => rfl
  | n :: ns =>
    rw [markAllInSection, markAllInSection, markInSection_markInSection n,
      markAllInSection_markAllInSection ns]

end

/-- A group of a type that is found is read back from its record. -/
private theorem ofRecord_group {types : TypeRegistry} {g : Group}
    (hfound : types.get? g.type.name = some g.type) (regex : Option String) :
    ofRecord types (.group g.name g.type.name g.raw g.tag.inSection g.id regex)
      = .ok (.group { g with tag := ⟨g.tag.inSection, regex⟩ }) := by
  have htype : types.resolve g.name g.type.name = .ok g.type :=
    TypeRegistry.resolve_eq_ok_iff.mpr ⟨rfl, hfound⟩
  refine bind_eq_ok.mpr ⟨g.type, mapError_eq_ok.mpr htype, ?_⟩
  refine bind_eq_ok.mpr ⟨{ g with tag := ⟨g.tag.inSection, regex⟩ }, mapError_eq_ok.mpr ?_, rfl⟩
  exact Group.ofRaw_eq_ok_iff.mpr ⟨rfl, rfl, rfl, rfl, rfl⟩

/-- A record of storable nodes is read back as these nodes. -/
theorem exists_ofRecords {types : TypeRegistry} {inSection : Bool} {ns : List Node}
    {rs : List NodeRecord} (hrecord : AreRecordedAs ns rs) (h : AreStorable types inSection ns) :
    ∃ ns', ofRecords types rs = .ok ns' ∧
      AreReloaded ns (bif inSection then markAllInSection ns' else ns') := by
  induction hrecord generalizing inSection with
  | nil => exact ⟨[], rfl, by cases inSection <;> exact .nil⟩
  | @literal text tag regex ns rs hregex _ ih =>
    cases h with
    | literal h =>
      obtain ⟨ns', hread, hns⟩ := ih h
      refine ⟨.literal text ⟨false, regex⟩ :: ns',
        bind_eq_ok.mpr ⟨_, rfl, bind_eq_ok.mpr ⟨_, hread, rfl⟩⟩, ?_⟩
      cases inSection <;> exact .literal hregex hns
  | @group g regex ns rs hregex _ ih =>
    cases h with
    | group hfound htag h =>
      obtain ⟨ns', hread, hns⟩ := ih h
      refine ⟨_ :: ns', bind_eq_ok.mpr ⟨_, ofRecord_group hfound regex,
        bind_eq_ok.mpr ⟨_, hread, rfl⟩⟩, ?_⟩
      cases inSection with
      | false => exact .group hregex hns
      | true =>
        have hg := AreReloaded.group hregex hns
        rwa [htag rfl] at hg
  | @sequence children ns tag regex rs' rs hregex _ _ ihchildren ih =>
    cases h with
    | sequence hchildren h =>
      obtain ⟨children', hread', hchildren⟩ := ihchildren hchildren
      obtain ⟨ns', hread, hns⟩ := ih h
      have hn : ofRecord types (.sequence rs' regex) = .ok (.sequence children' ⟨false, regex⟩) :=
        bind_eq_ok.mpr ⟨_, hread', rfl⟩
      refine ⟨_ :: ns', bind_eq_ok.mpr ⟨_, hn, bind_eq_ok.mpr ⟨_, hread, rfl⟩⟩, ?_⟩
      cases inSection <;> exact .sequence hregex hchildren hns
  | @optional children ns tag regex rs' rs hregex _ _ ihchildren ih =>
    cases h with
    | optional hchildren h =>
      obtain ⟨children', hread', hchildren⟩ := ihchildren hchildren
      obtain ⟨ns', hread, hns⟩ := ih h
      have hn : ofRecord types (.optional rs' regex)
          = .ok (.optional (markAllInSection children') ⟨false, regex⟩) :=
        bind_eq_ok.mpr ⟨_, hread', rfl⟩
      refine ⟨_ :: ns', bind_eq_ok.mpr ⟨_, hn, bind_eq_ok.mpr ⟨_, hread, rfl⟩⟩, ?_⟩
      cases inSection with
      | false => exact .optional hregex hchildren hns
      | true =>
        rw [cond_true, markAllInSection, markInSection, markAllInSection_markAllInSection]
        exact .optional hregex hchildren hns

/-! ### What reloading leaves as it is -/

namespace AreReloaded

variable {ns ns' : List Node}

theorem fragments_eq (h : AreReloaded ns ns') : fragments ns' = fragments ns := by
  induction h with
  | nil => rfl
  | literal hstored _ ih =>
    rw [fragments, fragments, ih, fragment, hstored.getD_eq]
    intro hnone
    rw [fragment, hnone]
    rfl
  | @group g stored ns ns' hstored _ ih =>
    rw [fragments, fragments, ih, fragment, Group.fragment_eq_getD, hstored.getD_eq, fragment]
    intro hnone
    rw [Group.fragment_eq_getD g, hnone]
    rfl
  | sequence hstored _ _ ihchildren ih =>
    rw [fragments, fragments, ih, fragment, hstored.getD_eq]
    intro hnone
    rw [fragment, hnone, ihchildren]
    rfl
  | optional hstored _ _ ihchildren ih =>
    rw [fragments, fragments, ih, fragment, hstored.getD_eq]
    intro hnone
    rw [fragment, hnone, ihchildren]
    rfl

/-- The nodes of reloaded rows have the same fragments, one by one. -/
theorem fragment_eq {n n' : Node} (h : AreReloaded [n] [n']) : n'.fragment = n.fragment := by
  simpa only [fragments, String.append_empty] using h.fragments_eq

/-- What was reloaded is recorded as before. -/
theorem toRecords_eq (h : AreReloaded ns ns') : toRecords ns' = toRecords ns := by
  induction h with
  | nil => rfl
  | literal hstored _ ih =>
    rw [toRecords, toRecords, ih, toRecord, toRecord, fragment_eq (.literal hstored .nil)]
  | group hstored _ ih =>
    have hfragment := fragment_eq (.group hstored .nil)
    rw [fragment, fragment] at hfragment
    rw [toRecords, toRecords, ih, toRecord, toRecord, hfragment]
  | sequence hstored hchildren _ ihchildren ih =>
    rw [toRecords, toRecords, ih, toRecord, toRecord, ihchildren,
      fragment_eq (.sequence hstored hchildren .nil)]
  | optional hstored hchildren _ ihchildren ih =>
    rw [toRecords, toRecords, ih, toRecord, toRecord, ihchildren,
      fragment_eq (.optional hstored hchildren .nil)]

theorem anyBindsSome_eq (h : AreReloaded ns ns') (values : Bindings) :
    anyBindsSome values ns' = anyBindsSome values ns := by
  induction h with
  | nil => rfl
  | literal _ _ ih => rw [anyBindsSome, anyBindsSome, ih, bindsSome, bindsSome]
  | group _ _ ih => rw [anyBindsSome, anyBindsSome, ih, bindsSome, bindsSome]
  | sequence _ _ _ ihchildren ih =>
    rw [anyBindsSome, anyBindsSome, ih, bindsSome, bindsSome, ihchildren]
  | optional _ _ _ ihchildren ih =>
    rw [anyBindsSome, anyBindsSome, ih, bindsSome, bindsSome, ihchildren]

/-- What was reloaded generates the same texts. -/
theorem generateAll_eq (h : AreReloaded ns ns') (values : Bindings) :
    generateAll values ns' = generateAll values ns := by
  induction h with
  | nil => rfl
  | literal _ _ ih => rw [generateAll, generateAll, ih, generate, generate]
  | group _ _ ih => rw [generateAll, generateAll, ih, generate, generate]; rfl
  | sequence _ _ _ ihchildren ih =>
    rw [generateAll, generateAll, ih, generate, generate, ihchildren]
  | optional _ hchildren _ ihchildren ih =>
    rw [generateAll, generateAll, ih, generate, generate, ihchildren,
      hchildren.anyBindsSome_eq values]

theorem generate_eq {n n' : Node} (h : AreReloaded [n] [n']) (values : Bindings) :
    n'.generate values = n.generate values := by
  have hsingle : ∀ n : Node, generateAll values [n] = n.generate values := fun n ↦ by
    rw [generateAll]
    cases n.generate values with
    | error e => rfl
    | ok t => exact congrArg Except.ok String.append_empty
  rw [← hsingle, ← hsingle, h.generateAll_eq]

/-- The groups that were reloaded are entered as before. -/
theorem infos_eq (h : AreReloaded ns ns') :
    (groupsOf ns').map Group.info = (groupsOf ns).map Group.info := by
  induction h with
  | nil => rfl
  | literal _ _ ih => exact ih
  | group _ _ ih => rw [groupsOf_group, groupsOf_group, List.map_cons, List.map_cons, ih]; rfl
  | sequence _ _ _ ihchildren ih =>
    rw [groupsOf_sequence, groupsOf_sequence, List.map_append, List.map_append, ihchildren, ih]
  | optional _ _ _ ihchildren ih =>
    rw [groupsOf_optional, groupsOf_optional, List.map_append, List.map_append, ihchildren, ih]

/-- The groups that were reloaded make of captures what they made before. -/
theorem foldl_addGroup_eq (h : AreReloaded ns ns') (captured : String → Option String)
    (r : MatchResult) :
    (groupsOf ns').foldl (MatchResult.addGroup captured) r
      = (groupsOf ns).foldl (MatchResult.addGroup captured) r := by
  induction h generalizing r with
  | nil => rfl
  | literal _ _ ih => exact ih r
  | group _ _ ih => exact ih _
  | sequence _ _ _ ihchildren ih =>
    rw [groupsOf_sequence, groupsOf_sequence, List.foldl_append, List.foldl_append, ihchildren, ih]
  | optional _ _ _ ihchildren ih =>
    rw [groupsOf_optional, groupsOf_optional, List.foldl_append, List.foldl_append, ihchildren, ih]

end AreReloaded

end Node

end UrlPattern
