import Mathlib.Data.List.Dedup
import UrlPattern.Proofs.NumberedGroups
import UrlPattern.Proofs.StoredPattern

/-!
# The groups of stored patterns

A record tells of its groups four times: in its tree and in three tables. Loading builds the table
of groups from the tree alone (`Compiler.groups_eq_of_load`). It compares the names by number, and
refuses a record in which they differ; the other two tables are not looked at.

The numbers in a record need not be different. Of groups that share one, the table of names keeps
the last, so comparing the names does not tell them apart, and they share a capture. An expression
that is derived from the tree is malformed in that case.

Specification: `SPEC_FULL.md` §6 (line 84) and §10.6 (lines 233–237).
-/

namespace UrlPattern

/-! ### Tables with repeated keys -/

namespace Table

universe u v

variable {κ : Type u} {ν : Type v} [KeyOrder κ] [DecidableEq κ]

/-- The table of a list is as long as the list exactly if no key is repeated. -/
theorem length_ofList_eq_iff {l : List (κ × ν)} :
    (ofList l).toList.length = l.length ↔ (l.map Prod.fst).Nodup := by
  have hkeys : (ofList l).keys.Perm (l.map Prod.fst).dedup := by
    refine (List.perm_ext_iff_of_nodup (keys_nodup _) (List.nodup_dedup _)).mpr fun k ↦ ?_
    rw [mem_keys_ofList, List.mem_dedup]
    simp
  have hlength : (ofList l).toList.length = (l.map Prod.fst).dedup.length := by
    rw [← hkeys.length_eq, keys, List.length_map]
  rw [hlength, ← List.length_map Prod.fst]
  constructor
  · intro h
    exact List.dedup_eq_self.mp ((List.dedup_sublist _).eq_of_length h)
  · intro h
    rw [List.dedup_eq_self.mpr h]

end Table

namespace GroupTable

variable {root : Node} {t : GroupTable}

/-- The map by numbers is as long as there are groups exactly if no number is shared. -/
theorem length_namedGroups_eq_iff (h : ofTree root = .ok t) :
    t.namedGroups.toList.length = root.groups.length ↔ (root.groups.map Group.id).Nodup := by
  have hlength := Table.length_ofList_eq_iff (l := root.groups.map fun g ↦ (g.id, g.name))
  rw [List.length_map, List.map_map] at hlength
  rw [(ofTree_eq_ok_iff.mp h).namedGroups_eq]
  exact hlength

/-- A number leads to the name of the last group that has it. -/
theorem get?_namedGroups_eq_some_iff (h : ofTree root = .ok t) {id : Nat} {name : String} :
    t.namedGroups.get? id = some name ↔
      ∃ front g back, root.groups = front ++ g :: back ∧ g.id = id ∧ g.name = name ∧
        ∀ g' ∈ back, g'.id ≠ id :=
  (ofTree_eq_ok_iff.mp h).get?_namedGroups_eq_some_iff

end GroupTable

/-! ### What a record says of its groups -/

namespace NodeRecord

mutual

/-- The groups of a record, from left to right. They stand inside a section if the record says so
or if a section encloses them. -/
def infos (inSection : Bool) : NodeRecord → List GroupInfo
  | literal _ _ => []
  | group name typeName constraints marked id _ =>
    [⟨id, name, typeName, constraints, inSection || marked⟩]
  | sequence children _ => infosOf inSection children
  | optional children _ => infosOf true children

/-- The groups of several records. -/
def infosOf (inSection : Bool) : List NodeRecord → List GroupInfo
  | [] => []
  | r :: rs => r.infos inSection ++ infosOf inSection rs

end

end NodeRecord

/-- The table of the groups in the tree of a record. -/
def PatternRecord.groupTable (r : PatternRecord) : GroupTable := .ofInfos (r.ast.infos false)

namespace Node

variable {types : TypeRegistry}

mutual

/-- The tree of a record has the groups that the record says. -/
theorem infos_of_ofRecord {r : NodeRecord} {n : Node} (h : ofRecord types r = .ok n)
    (inSection : Bool) :
    (bif inSection then n.markInSection else n).groups.map Group.info = r.infos inSection := by
  match r with
  | .literal text regex =>
    cases h
    cases inSection <;> rfl
  | .group name typeName constraints marked id regex =>
    obtain ⟨type, htype, h⟩ := bind_eq_ok.mp h
    obtain ⟨g, hg, h⟩ := bind_eq_ok.mp h
    cases h
    obtain ⟨hname, -⟩ := TypeRegistry.resolve_eq_ok_iff.mp (mapError_eq_ok.mp htype)
    obtain ⟨hid, hgname, hgtype, hraw, htag⟩ := Group.ofRaw_eq_ok_iff.mp (mapError_eq_ok.mp hg)
    cases inSection <;>
      simp [markInSection, groups, NodeRecord.infos, Group.info, hid, hgname, hgtype, hraw, htag,
        hname]
  | .sequence children regex =>
    obtain ⟨ns, hns, h⟩ := bind_eq_ok.mp h
    cases h
    have hchildren := infos_of_ofRecords hns inSection
    cases inSection <;> exact hchildren
  | .optional children regex =>
    obtain ⟨ns, hns, h⟩ := bind_eq_ok.mp h
    cases h
    have hchildren := infos_of_ofRecords hns true
    cases inSection with
    | false => exact hchildren
    | true =>
      rw [cond_true, markInSection, markAllInSection_markAllInSection]
      exact hchildren

theorem infos_of_ofRecords {rs : List NodeRecord} {ns : List Node}
    (h : ofRecords types rs = .ok ns) (inSection : Bool) :
    (groupsOf (bif inSection then markAllInSection ns else ns)).map Group.info
      = NodeRecord.infosOf inSection rs := by
  match rs with
  | [] =>
    cases h
    cases inSection <;> rfl
  | r :: rs =>
    obtain ⟨n, hn, h⟩ := bind_eq_ok.mp h
    obtain ⟨ns', hns, h⟩ := bind_eq_ok.mp h
    cases h
    rw [NodeRecord.infosOf, ← infos_of_ofRecord hn, ← infos_of_ofRecords hns]
    cases inSection <;> exact List.map_append

end

/-- A record has the numbers of the nodes that it is made for. -/
theorem AreRecordedAs.ids_eq {ns : List Node} {rs : List NodeRecord} (h : AreRecordedAs ns rs)
    (inSection : Bool) :
    (NodeRecord.infosOf inSection rs).map GroupInfo.id = (groupsOf ns).map Group.id := by
  induction h generalizing inSection with
  | nil => rfl
  | literal _ _ ih => exact ih inSection
  | group _ _ ih =>
    rw [groupsOf_group, List.map_cons, ← ih inSection]
    rfl
  | sequence _ _ _ ihchildren ih =>
    rw [groupsOf_sequence, List.map_append, ← ihchildren inSection, ← ih inSection,
      ← List.map_append]
    rfl
  | optional _ _ _ ihchildren ih =>
    rw [groupsOf_optional, List.map_append, ← ihchildren true, ← ih inSection, ← List.map_append]
    rfl

end Node

/-! ### Loading -/

namespace Compiler

section

variable {B : Backend} {c : Compiler B} {r : PatternRecord}

/-- A loaded pattern has the groups that the tree in its record says. -/
theorem groups_eq_of_load {p : Pattern B} (h : c.load r = .ok p) : p.groups = r.groupTable := by
  obtain ⟨-, htree, -⟩ := load_eq_ok_iff.mp h
  have hinfos : p.tree.groups.map Group.info = r.ast.infos false :=
    Node.infos_of_ofRecord htree false
  rw [PatternRecord.groupTable, ← hinfos]
  exact p.lists_groups.unique (GroupTable.lists_ofInfos p.names_nodup)

/-- A tree that can be read is refused if its names by number are not the stored ones. -/
theorem load_eq_error_groupTable {tree : Node} (hversion : r.version = PatternRecord.currentVersion)
    (htree : Node.ofRecord c.types r.ast = .ok tree) (hnames : r.groupTable.names.Nodup)
    (hgroups : r.namedGroups ≠ r.groupTable.namedGroups) :
    c.load r = .error (.compile (.corrupt .groupTable)) := by
  have hinfos : tree.groups.map Group.info = r.ast.infos false :=
    Node.infos_of_ofRecord htree false
  have htable : GroupTable.ofTree tree = .ok r.groupTable := by
    rw [GroupTable.names, PatternRecord.groupTable, ← hinfos, GroupTable.ofInfos, List.map_map]
      at hnames
    rw [PatternRecord.groupTable, ← hinfos]
    exact GroupTable.ofTree_eq_ok_iff.mpr (GroupTable.lists_ofInfos hnames)
  have hnamed : NamedTree.ofNode tree = .ok ⟨tree, r.groupTable, htable⟩ :=
    NamedTree.ofNode_eq_ok_iff.mpr rfl
  rw [load, if_neg (not_not.mpr hversion), htree]
  change (Except.mapError _ (NamedTree.ofNode tree) >>= _) = _
  rw [hnamed]
  change (if r.groupTable.namedGroups ≠ r.namedGroups then _ else _) = _
  rw [if_pos hgroups.symm]
  rfl

/-- Loading compares the names by number with the tree, and neither the types nor the constraints by
name: whatever these say, the pattern has the groups that the tree says. `SPEC_FULL.md:84`. -/
theorem load_compares_names (c : Compiler B) (r : PatternRecord) :
    (∀ p, c.load r = .ok p →
        r.namedGroups = r.groupTable.namedGroups ∧ p.groups = r.groupTable) ∧
      (r.namedGroups ≠ r.groupTable.namedGroups →
        (∃ e, c.load r = .error e) ∧
          ∀ tree, r.version = PatternRecord.currentVersion →
            Node.ofRecord c.types r.ast = .ok tree → r.groupTable.names.Nodup →
              c.load r = .error (.compile (.corrupt .groupTable))) ∧
      ∀ types constraints,
        c.load { r with groupTypes := types, groupConstraints := constraints } = c.load r := by
  have hloaded : ∀ p, c.load r = .ok p →
      r.namedGroups = r.groupTable.namedGroups ∧ p.groups = r.groupTable := by
    intro p hp
    have hgroups := groups_eq_of_load hp
    obtain ⟨-, -, hnames, -⟩ := load_eq_ok_iff.mp hp
    rw [hgroups] at hnames
    exact ⟨hnames, hgroups⟩
  refine ⟨hloaded, fun hne ↦ ⟨?_, fun tree hversion htree hnames ↦ ?_⟩, fun _ _ ↦ rfl⟩
  · cases hp : c.load r with
    | ok p => exact absurd (hloaded p hp).1 hne
    | error e => exact ⟨e, rfl⟩
  · exact load_eq_error_groupTable hversion htree hnames hne

end

variable {c : Compiler} {r : PatternRecord} {p : Pattern}

/-- The record of a compiled pattern is loaded, and refused without its names. -/
theorem load_compares_names_missing :
    ∃ p q, standard.compile "a\x7bx:int(min=1)\x7d" = .ok p ∧ standard.load p.toRecord = .ok q ∧
      q.groups = p.toRecord.groupTable ∧
      standard.load { p.toRecord with namedGroups := ∅ }
        = .error (.compile (.corrupt .groupTable)) := by
  have htest : (standard.compile "a\x7bx:int(min=1)\x7d").toOption.any (fun p ↦
      (standard.load p.toRecord).toOption.any (fun _ ↦ true) &&
        (Node.ofRecord .builtin p.toRecord.ast).toOption.any (fun _ ↦ true) &&
          decide (∅ ≠ p.toRecord.groupTable.namedGroups) &&
            decide p.toRecord.groupTable.names.Nodup) = true := by
    decide +kernel
  obtain ⟨p, hp, htest⟩ := exists_ok_of_any htest
  simp only [Bool.and_eq_true, decide_eq_true_eq] at htest
  obtain ⟨⟨⟨hload, hread⟩, hne⟩, hnames⟩ := htest
  obtain ⟨q, hq, -⟩ := exists_ok_of_any hload
  obtain ⟨tree, htree, -⟩ := exists_ok_of_any hread
  exact ⟨p, q, hp, hq, ((load_compares_names standard p.toRecord).1 q hq).2,
    ((load_compares_names standard { p.toRecord with namedGroups := ∅ }).2.1 hne).2 tree rfl htree
      hnames⟩

/-- A record whose tables of types and constraints are not those of its tree is loaded. -/
theorem exists_load_disagreeing :
    ∃ p q, standard.compile "a\x7bx:int(min=1)\x7d" = .ok p ∧
      standard.load { p.toRecord with
        groupTypes := .ofList [("x", "string")], groupConstraints := ∅ } = .ok q ∧
      p.toRecord.groupTable.groupTypes ≠ .ofList [("x", "string")] ∧
      p.toRecord.groupTable.groupConstraints ≠ ∅ := by
  have htest : (standard.compile "a\x7bx:int(min=1)\x7d").toOption.any (fun p ↦
      (standard.load { p.toRecord with
        groupTypes := .ofList [("x", "string")], groupConstraints := ∅ }).toOption.any
          (fun _ ↦ true) &&
        decide (p.toRecord.groupTable.groupTypes ≠ .ofList [("x", "string")]) &&
          decide (p.toRecord.groupTable.groupConstraints ≠ ∅)) = true := by
    decide +kernel
  obtain ⟨p, hp, htest⟩ := exists_ok_of_any htest
  simp only [Bool.and_eq_true, decide_eq_true_eq] at htest
  obtain ⟨⟨hload, htypes⟩, hconstraints⟩ := htest
  obtain ⟨q, hq, -⟩ := exists_ok_of_any hload
  exact ⟨p, q, hp, hq, htypes, hconstraints⟩

/-- No number is shared in a record whose expression is derived from its tree. -/
theorem ids_nodup_of_load (h : c.load r = .ok p) {n : Node} (hderived : n.IsDerived)
    (hbuiltin : n.IsBuiltin) (hrecord : Node.AreRecordedAs [n] [r.ast])
    (hregex : r.regex = n.anchoredRegex) : (p.tree.groups.map Group.id).Nodup := by
  have hids : p.tree.groups.map Group.id = n.groups.map Group.id := by
    have hinfos : r.ast.infos false = p.tree.groups.map Group.info := by
      rw [← p.lists_groups.infos_eq, groups_eq_of_load h]
      rfl
    have hrecorded := hrecord.ids_eq false
    simp only [Node.groupsOf, NodeRecord.infosOf, List.append_nil] at hrecorded
    rw [← hrecorded, hinfos, List.map_map]
    rfl
  rw [hids, ← Node.nodup_captureNames_iff]
  by_contra hrepeated
  have hread := p.parse?_regexText
  rw [(load_eq_ok_iff.mp h).2.2.2.2, hregex, Regex.parse?,
    Node.read?_anchoredRegex_of_repeated hderived hbuiltin hrepeated] at hread
  cases hread

/-- The groups of a loaded pattern have different names, and different numbers exactly if the record
names as many numbers as there are groups. A number leads to the last group that has it, and groups
read one capture exactly if they share a number. No number is shared in a record whose expression is
derived from its tree. `SPEC_FULL.md:30`. -/
theorem numbers_of_load (h : c.load r = .ok p) :
    (p.tree.groups.map Group.name).Nodup ∧
      ((p.tree.groups.map Group.id).Nodup ↔
        r.namedGroups.toList.length = p.tree.groups.length) ∧
      (∀ id name, r.namedGroups.get? id = some name ↔
        ∃ front g back, p.tree.groups = front ++ g :: back ∧ g.id = id ∧ g.name = name ∧
          ∀ g' ∈ back, g'.id ≠ id) ∧
      (∀ g ∈ p.tree.groups, ∀ g' ∈ p.tree.groups, g.captureName = g'.captureName ↔ g.id = g'.id) ∧
      ∀ n : Node, n.IsDerived → n.IsBuiltin → Node.AreRecordedAs [n] [r.ast] →
        r.regex = n.anchoredRegex → (p.tree.groups.map Group.id).Nodup := by
  obtain ⟨-, -, hnames, -⟩ := load_eq_ok_iff.mp h
  rw [hnames]
  refine ⟨p.names_nodup, (GroupTable.length_namedGroups_eq_iff p.groups_eq).symm,
    fun id name ↦ GroupTable.get?_namedGroups_eq_some_iff p.groups_eq,
    fun g _ g' _ ↦ Group.captureName_inj, fun n hderived hbuiltin hrecord hregex ↦ ?_⟩
  exact ids_nodup_of_load h hderived hbuiltin hrecord hregex

/-- The groups in the record of a compiled pattern have different numbers. -/
theorem numbers_of_load_compiled :
    ∃ p q, standard.compile "\x7ba:int\x7d-\x7bb:int\x7d" = .ok p ∧
      standard.load p.toRecord = .ok q ∧ (q.tree.groups.map Group.id).Nodup := by
  have htest : (standard.compile "\x7ba:int\x7d-\x7bb:int\x7d").toOption.any (fun p ↦
      (standard.load p.toRecord).toOption.any (fun _ ↦ true)) = true := by
    decide +kernel
  obtain ⟨p, hp, htest⟩ := exists_ok_of_any htest
  obtain ⟨q, hq, -⟩ := exists_ok_of_any htest
  have hderived := isDerived_of_compile hp
  exact ⟨p, q, hp, hq, (numbers_of_load hq).2.2.2.2 p.tree hderived.tree hderived.builtin
    (Node.areRecordedAs_toRecord p.tree) hderived.regexText_eq⟩

/-- A record in which two groups have one number. -/
def sharedNumber : PatternRecord where
  version := 1
  pattern := "\x7ba:int\x7d-\x7bb:int\x7d"
  regex := "^(?P<g1>[0-9]+)-[0-9]+$"
  ast := .sequence
    [.group "a" "int" ∅ false 1 none, .literal "-" none, .group "b" "int" ∅ false 1 none] none
  namedGroups := .ofList [(1, "b")]
  groupTypes := .ofList [("a", "int"), ("b", "int")]
  groupConstraints := .ofList [("a", ∅), ("b", ∅)]

/-- The record is loaded, and both groups have the value of the one capture. -/
theorem exists_load_sharedNumber :
    ∃ p m, standard.load sharedNumber = .ok p ∧ ¬ (p.tree.groups.map Group.id).Nodup ∧
      p.match? "12-7" = some m ∧ m.get? "a" = some (.int 12) ∧ m.get? "b" = some (.int 12) := by
  have htest : (standard.load sharedNumber).toOption.any (fun p ↦
      decide (¬ (p.tree.groups.map Group.id).Nodup) && (p.match? "12-7").any fun m ↦
        decide (m.get? "a" = some (.int 12) ∧ m.get? "b" = some (.int 12))) = true := by
    decide +kernel
  obtain ⟨p, hp, htest⟩ := exists_ok_of_any htest
  obtain ⟨hids, hmatch⟩ := Bool.and_eq_true_iff.mp htest
  obtain ⟨m, hm, hvalues⟩ := (Option.any_eq_true _ _).mp hmatch
  exact ⟨p, m, hp, of_decide_eq_true hids, hm, of_decide_eq_true hvalues⟩

end Compiler

end UrlPattern
