import UrlPattern.Proofs.StoredTree
import UrlPattern.Proofs.CompiledPattern
import UrlPattern.Proofs.MatchedValues

/-!
# Patterns that were stored

A pattern that is stored and loaded again behaves as it did, be it compiled or itself loaded from a
record made by hand. This holds for every backend, as the expression of a record may be any that the
backend reads. The fragments in the record of a compiled pattern are only kept for speed: with
any of them left out the pattern that is loaded is still the same.

Specification: `SPEC_FULL.md` §6 (line 84) and §8 (line 100).
-/

namespace UrlPattern

namespace NodeRecord

/-- Rows of records of which the second leaves out some fragments of the first, whichever. -/
inductive AreThinned : List NodeRecord → List NodeRecord → Prop where
  | nil : AreThinned [] []
  | literal {text : String} {regex regex' : Option String} {rs rs' : List NodeRecord}
      (hregex : regex' = regex ∨ regex' = none) (hrs : AreThinned rs rs') :
      AreThinned (.literal text regex :: rs) (.literal text regex' :: rs')
  | group {name typeName : String} {constraints : RawConstraints} {inSection : Bool} {id : Nat}
      {regex regex' : Option String} {rs rs' : List NodeRecord}
      (hregex : regex' = regex ∨ regex' = none) (hrs : AreThinned rs rs') :
      AreThinned (.group name typeName constraints inSection id regex :: rs)
        (.group name typeName constraints inSection id regex' :: rs')
  | sequence {children children' rs rs' : List NodeRecord} {regex regex' : Option String}
      (hregex : regex' = regex ∨ regex' = none) (hchildren : AreThinned children children')
      (hrs : AreThinned rs rs') :
      AreThinned (.sequence children regex :: rs) (.sequence children' regex' :: rs')
  | optional {children children' rs rs' : List NodeRecord} {regex regex' : Option String}
      (hregex : regex' = regex ∨ regex' = none) (hchildren : AreThinned children children')
      (hrs : AreThinned rs rs') :
      AreThinned (.optional children regex :: rs) (.optional children' regex' :: rs')

end NodeRecord

/-- Where no fragment is stored, all may be left out. -/
theorem Node.AreRecordedAs.of_areThinned {ns : List Node} {rs rs' : List NodeRecord}
    (h : AreRecordedAs ns rs) (hthinned : NodeRecord.AreThinned rs rs') (hderived : AreDerived ns) :
    AreRecordedAs ns rs' := by
  have hrecords : ∀ {tag : Tag} {fragment : String} {regex regex' : Option String},
      tag.Records fragment regex → tag.stored = none → regex' = regex ∨ regex' = none →
      tag.Records fragment regex' := by
    rintro tag fragment regex regex' hrecord hnone (rfl | rfl)
    · exact hrecord
    · exact .inr ⟨rfl, hnone⟩
  induction hthinned generalizing ns with
  | nil => exact h
  | literal hregex _ ih =>
    cases h with
    | literal hrecord hns =>
      obtain ⟨hnone, hderived⟩ := hderived
      exact .literal (hrecords hrecord hnone hregex) (ih hns hderived)
  | group hregex _ ih =>
    cases h with
    | group hrecord hns =>
      obtain ⟨hnone, hderived⟩ := hderived
      exact .group (hrecords hrecord hnone hregex) (ih hns hderived)
  | sequence hregex _ _ ihchildren ih =>
    cases h with
    | sequence hrecord hchildren hns =>
      obtain ⟨⟨hnone, hderived'⟩, hderived⟩ := hderived
      exact .sequence (hrecords hrecord hnone hregex) (ihchildren hchildren hderived')
        (ih hns hderived)
  | optional hregex _ _ ihchildren ih =>
    cases h with
    | optional hrecord hchildren hns =>
      obtain ⟨⟨hnone, hderived'⟩, hderived⟩ := hderived
      exact .optional (hrecords hrecord hnone hregex) (ihchildren hchildren hderived')
        (ih hns hderived)

namespace Pattern

/-- Patterns that cannot be told apart: they are recorded alike, match alike and generate alike. -/
structure IsLike {B : Backend} (q p : Pattern B) : Prop where
  toRecord_eq : q.toRecord = p.toRecord
  match?_eq : ∀ s, q.match? s = p.match? s
  generate_eq : ∀ values, q.generate values = p.generate values

end Pattern

namespace Compiler

variable {B : Backend} {c c' : Compiler B} {p : Pattern B}

theorem NamedTree.ofNode_eq_ok_iff {tree : Node} {named : NamedTree} :
    NamedTree.ofNode tree = .ok named ↔ named.tree = tree := by
  rw [ofNode]
  constructor
  · intro h
    split at h <;> cases h
    rfl
  · rintro rfl
    have hgroups := named.groups_eq
    split
    · next h =>
      rw [h] at hgroups
      cases hgroups
      rfl
    · next h =>
      rw [h] at hgroups
      cases hgroups

/-- A pattern is put together of its text, its tree and its expression. -/
theorem ofTree_eq_ok_iff {source regexText : String} {named : NamedTree} :
    Pattern.ofTree source named.tree named.groups regexText named.groups_eq = .ok p ↔
      p.source = source ∧ p.tree = named.tree ∧ p.regexText = regexText := by
  rw [Pattern.ofTree]
  constructor
  · intro h
    split at h <;> cases h
    exact ⟨rfl, rfl, rfl⟩
  · obtain ⟨source', tree, groups, regexText', regex, hgroups, hregex⟩ := p
    obtain ⟨tree', groups', hgroups'⟩ := named
    rintro ⟨rfl, rfl, rfl⟩
    rw [hgroups] at hgroups'
    cases hgroups'
    split
    · next h =>
      rw [hregex] at h
      cases h
      rfl
    · next h =>
      rw [hregex] at h
      cases h

/-- What loading comes to: the tree is read from the record, and the rest is taken as it stands. -/
theorem load_eq_ok_iff {r : PatternRecord} :
    c.load r = .ok p ↔
      r.version = PatternRecord.currentVersion ∧ Node.ofRecord c.types r.ast = .ok p.tree ∧
        r.namedGroups = p.groups.namedGroups ∧ p.source = r.pattern ∧ p.regexText = r.regex := by
  rw [load]
  by_cases hversion : r.version = PatternRecord.currentVersion
  · rw [if_neg (not_not.mpr hversion)]
    constructor
    · intro h
      obtain ⟨tree, htree, h₁⟩ := bind_eq_ok.mp h
      obtain ⟨named, hnamed, h₂⟩ := bind_eq_ok.mp h₁
      obtain rfl := NamedTree.ofNode_eq_ok_iff.mp (mapError_eq_ok.mp hnamed)
      dsimp only at h₂
      split at h₂
      · cases h₂
      · next hgroups =>
        obtain ⟨hsource, hroot, htext⟩ := ofTree_eq_ok_iff.mp (mapError_eq_ok.mp h₂)
        have hentries := p.groups_eq
        rw [hroot, named.groups_eq] at hentries
        refine ⟨hversion, hroot ▸ htree, ?_, hsource, htext⟩
        rw [← Except.ok.inj hentries]
        exact (not_not.mp hgroups).symm
    · rintro ⟨-, htree, hgroups, hsource, htext⟩
      have hnamed : NamedTree.ofNode p.tree = .ok ⟨p.tree, p.groups, p.groups_eq⟩ :=
        NamedTree.ofNode_eq_ok_iff.mpr rfl
      refine bind_eq_ok.mpr ⟨p.tree, htree, bind_eq_ok.mpr ⟨_, mapError_eq_ok.mpr hnamed, ?_⟩⟩
      have hpattern : Pattern.ofTree r.pattern p.tree p.groups r.regex p.groups_eq = .ok p :=
        (@ofTree_eq_ok_iff B p r.pattern r.regex ⟨p.tree, p.groups, p.groups_eq⟩).mpr
          ⟨hsource, rfl, htext⟩
      dsimp only
      rw [if_neg (not_not.mpr hgroups.symm)]
      exact mapError_eq_ok.mpr hpattern
  · rw [if_pos hversion]
    exact iff_of_false nofun fun h ↦ hversion h.1

/-- A record of a pattern with a storable tree is loaded as a pattern like it. -/
theorem exists_load {ast : NodeRecord} (hstorable : Node.AreStorable c.types false [p.tree])
    (hrecord : Node.AreRecordedAs [p.tree] [ast]) :
    ∃ q, c.load { p.toRecord with ast := ast } = .ok q ∧ q.IsLike p := by
  obtain ⟨ns', hread, hreloaded⟩ := Node.exists_ofRecords hrecord hstorable
  obtain ⟨tree, htree, hread⟩ := bind_eq_ok.mp hread
  cases hread
  have hgroups : GroupTable.ofTree tree = .ok p.groups := by
    refine GroupTable.ofTree_eq_ok_iff.mpr (p.lists_groups.congr ?_)
    simpa [Node.groupsOf] using hreloaded.infos_eq
  refine ⟨⟨p.source, tree, p.groups, p.regexText, p.regex, hgroups, p.regex_eq⟩,
    load_eq_ok_iff.mpr ⟨rfl, htree, rfl, rfl, rfl⟩, ?_, fun s ↦ ?_, fun values ↦ ?_⟩
  · rw [Pattern.toRecord, Pattern.toRecord, (List.cons.inj hreloaded.toRecords_eq).1]
  · have hfold := fun captured ↦ hreloaded.foldl_addGroup_eq captured (.ofInput s)
    simp only [Node.groupsOf, List.append_nil, cond_false] at hfold
    simp only [Pattern.match?, hfold]
  · exact hreloaded.generate_eq values

/-- A pattern that is stored and loaded again is like it was, be it compiled or loaded. A compiled
pattern is like it was even if fragments are left out of its record. `SPEC_FULL.md:100`. -/
theorem load_toRecord (htypes : c'.types = c.types)
    (h : (∃ source, c.compile source = .ok p) ∨ ∃ r, c.load r = .ok p) :
    (∃ q, c'.load p.toRecord = .ok q ∧ q.IsLike p) ∧
      ∀ source, c.compile source = .ok p →
        ∀ ast, NodeRecord.AreThinned [p.toRecord.ast] [ast] →
          ∃ q, c'.load { p.toRecord with ast := ast } = .ok q ∧ q.IsLike p := by
  have hcompile : ∀ source, c.compile source = .ok p →
      Node.AreStorable c'.types false [p.tree] ∧ p.tree.IsDerived := by
    intro source h
    obtain ⟨named, hcheck, -, htree, -⟩ := compile_eq_ok h
    obtain ⟨⟨children, last, hread, hroot⟩, -⟩ := check_eq_ok hcheck
    rw [htree, hroot, htypes]
    exact ⟨.sequence hread.areStorable .nil, rfl, hread.areDerived⟩
  refine ⟨exists_load ?_ (Node.areRecordedAs_toRecord p.tree), fun source hsource ast hast ↦ ?_⟩
  · obtain ⟨source, hsource⟩ | ⟨r, hr⟩ := h
    · exact (hcompile source hsource).1
    · rw [htypes]
      exact Node.areStorable_of_ofRecord (load_eq_ok_iff.mp hr).2.1
  · obtain ⟨hstorable, hderived⟩ := hcompile source hsource
    exact exists_load hstorable
      ((Node.areRecordedAs_toRecord p.tree).of_areThinned hast ⟨hderived, trivial⟩)

/-- A compiled pattern is loaded from a record that keeps one fragment alone. -/
theorem load_toRecord_thinned :
    ∃ p q ast, standard.compile "n\x7bid:int\x7d(-x)" = .ok p ∧ ast ≠ p.toRecord.ast ∧
      NodeRecord.AreThinned [p.toRecord.ast] [ast] ∧
      standard.load { p.toRecord with ast := ast } = .ok q ∧ q.IsLike p := by
  have htest : (standard.compile "n\x7bid:int\x7d(-x)").toOption.any (fun p ↦
      p.toRecord.ast == .sequence
        [.literal "n" (some "n"), .group "id" "int" ∅ false 1 (some "(?P<g1>-?[0-9]+)"),
          .optional [.literal "-x" (some "\\-x")] (some "(?:\\-x)?")]
        (some "n(?P<g1>-?[0-9]+)(?:\\-x)?")) = true := by
    decide +kernel
  obtain ⟨p, hp, htest⟩ := exists_ok_of_any htest
  have hast := eq_of_beq htest
  have hthinned : NodeRecord.AreThinned [p.toRecord.ast]
      [.sequence [.literal "n" none, .group "id" "int" ∅ false 1 none,
        .optional [.literal "-x" (some "\\-x")] none] none] := by
    rw [hast]
    refine .sequence (.inr rfl) (.literal (.inr rfl) (.group (.inr rfl) ?_)) .nil
    exact .optional (.inr rfl) (.literal (.inl rfl) .nil) .nil
  obtain ⟨q, hq, hlike⟩ := (load_toRecord rfl (.inl ⟨_, hp⟩)).2 _ hp _ hthinned
  exact ⟨p, q, _, hp, by rw [hast]; simp, hthinned, hq, hlike⟩

end Compiler

end UrlPattern
