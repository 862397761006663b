import UrlPattern.Proofs.JsonText
import UrlPattern.Proofs.NumberedGroups

/-!
# Stored texts

The stored text of a pattern is read back as the record that it was written for. Only a text that
nests deeper than the reader allows is not; such a text is refused, so that no stored text is ever
read as another record.

Specification: `SPEC_FULL.md` §10.2 (lines 179–182).
-/

namespace UrlPattern

namespace Json

/-! ### The parts of a record -/

/-- Of fields with different names, each is found under its name. -/
theorem field?_of_mem {fields : List Field} (hnodup : (fields.map fun e ↦ e.1.text).Nodup)
    {e : Field} (he : e ∈ fields) : field? e.1.text fields = some (some e.2) := by
  have hfilter : fields.filter (fun d ↦ decide (d.1.text = e.1.text)) = [e] := by
    induction fields with
    | nil => cases he
    | cons d fields ih =>
      obtain ⟨hnew, hnodup⟩ := List.nodup_cons.mp hnodup
      rcases List.mem_cons.mp he with rfl | he
      · rw [List.filter_cons_of_pos (by simp), List.filter_eq_nil_iff.mpr]
        intro d hd hname
        exact hnew (List.mem_map.mpr ⟨d, hd, of_decide_eq_true hname⟩)
      · rw [List.filter_cons_of_neg, ih hnodup he]
        intro hname
        exact hnew (List.mem_map.mpr ⟨e, he, (of_decide_eq_true hname).symm⟩)
  rw [field?, hfilter]

/-- The names of the fields of a record. -/
theorem names_zip {names : List String} {values : List Json}
    (hlength : names.length = values.length) :
    ((names.map Name.ofText).zip values).map (fun e ↦ e.1.text) = names := by
  rw [List.zip_map_left, List.map_map]
  exact List.map_fst_zip (Nat.le_of_eq hlength)

theorem values_zip {names : List String} {values : List Json}
    (hlength : names.length = values.length) :
    ((names.map Name.ofText).zip values).map Prod.snd = values := by
  apply List.map_snd_zip
  rw [List.length_map, hlength]

/-- A record has its parts, if their names are different. -/
theorem parts?_ofParts {names : List String} {values : List Json} (hnodup : names.Nodup)
    (hlength : names.length = values.length) :
    (ofParts names values).parts? names = some (values.map some) := by
  have hnames := names_zip hlength
  have hvalues := values_zip hlength
  rw [← hnames] at hnodup
  have hparts : (((names.map Name.ofText).zip values).map fun e ↦ e.1.text).mapM
      (fun name ↦ field? name ((names.map Name.ofText).zip values))
        = some (((names.map Name.ofText).zip values).map fun e ↦ some e.2) :=
    mapM_map_eq_some fun e he ↦ field?_of_mem hnodup he
  rw [hnames, ← Function.comp_def some Prod.snd, ← List.map_map, hvalues] at hparts
  exact hparts

/-- Reading the object of a table gives the table. -/
theorem table?_ofTable {ν : Type _} {f : ν → Json} {g : Json → Option ν}
    (h : ∀ v, g (f v) = some v) (t : Table String ν) : (ofTable f t).table? g = some t := by
  have hentries : (t.toList.map fun e ↦ (Name.ofText e.1, f e.2)).mapM
      (fun e ↦ (g e.2).map fun v ↦ (e.1.text, v)) = some (t.toList.map id) := by
    apply mapM_map_eq_some
    intro e _
    rw [h, Option.map_some]
    rfl
  rw [ofTable, table?, hentries, Option.map_some, List.map_id, Table.ofList_toList]

theorem nat?_nat {most n : Nat} (h : n ≤ most) : (nat n).nat? most = some n := by
  rw [nat, nat?, if_pos ⟨Int.natCast_nonneg n, Int.ofNat_le.mpr h⟩]
  rfl

theorem optional?_optional (s : Option String) : (optional s).optional? = some s := by
  cases s <;> rfl

/-! ### Writing the parts of a record -/

namespace IsWritable

theorem nat {n : Nat} (h : n ≤ 0xffffffffffffffff) : IsWritable (.nat n) := by
  apply IsWritable.int
  · rw [intMin]
    omega
  · rw [intMax]
    omega

theorem optional (s : Option String) : IsWritable (.optional s) := by
  cases s with
  | none => exact .null
  | some s => exact .string s

theorem ofParts {names : List String} {values : List Json} (h : ∀ j ∈ values, IsWritable j) :
    IsWritable (.ofParts names values) := by
  apply IsWritable.object
  · intro e he
    obtain ⟨name, -, hname⟩ := List.mem_map.mp (List.of_mem_zip he).1
    rw [← hname]
    rfl
  · intro e he
    exact h e.2 (List.of_mem_zip he).2

theorem ofTable {ν : Type _} {f : ν → Json} (h : ∀ v, IsWritable (f v)) (t : Table String ν) :
    IsWritable (.ofTable f t) := by
  apply IsWritable.object
  · intro e he
    obtain ⟨d, -, rfl⟩ := List.mem_map.mp he
    rfl
  · intro e he
    obtain ⟨d, -, rfl⟩ := List.mem_map.mp he
    exact h d.2

end IsWritable

/-! ### The depth of a record -/

theorem depthOfFields_eq (fields : List Field) :
    depthOfFields fields = depthOfItems (fields.map Prod.snd) := by
  induction fields with
  | nil => rfl
  | cons e fields ih => rw [depthOfFields, List.map_cons, depthOfItems, ih]

theorem depth_ofParts {names : List String} {values : List Json}
    (hlength : names.length = values.length) :
    (ofParts names values).depth = depthOfItems values + 1 := by
  rw [ofParts, depth, depthOfFields_eq, values_zip hlength]

/-- The depth of items is within a bound if that of each is. -/
theorem depthOfItems_le {items : List Json} {n : Nat} (h : ∀ j ∈ items, j.depth ≤ n) :
    depthOfItems items ≤ n := by
  induction items with
  | nil => exact Nat.zero_le n
  | cons j items ih =>
    obtain ⟨hj, hitems⟩ := List.forall_mem_cons.mp h
    exact Nat.max_le.mpr ⟨hj, ih hitems⟩

theorem depth_object_le {fields : List Field} {n : Nat} (h : ∀ e ∈ fields, e.2.depth ≤ n) :
    (object fields).depth ≤ n + 1 := by
  rw [depth, depthOfFields_eq]
  apply Nat.succ_le_succ
  apply depthOfItems_le
  intro j hj
  obtain ⟨e, he, rfl⟩ := List.mem_map.mp hj
  exact h e he

theorem depth_ofTable_le {ν : Type _} {f : ν → Json} {n : Nat} (h : ∀ v, (f v).depth ≤ n)
    (t : Table String ν) : (ofTable f t).depth ≤ n + 1 := by
  apply depth_object_le
  intro e he
  obtain ⟨d, -, rfl⟩ := List.mem_map.mp he
  exact h d.2

end Json

/-! ### Trees -/

theorem NodeKind.ofJson?_name (isRoot : Bool) (kind : NodeKind) :
    ofJson? isRoot (.string kind.name) = some kind := by
  cases kind <;> rfl

namespace NodeRecord

mutual

/-- The numbers of the groups, from left to right. -/
def ids : NodeRecord → List Nat
  | literal _ _ => []
  | group _ _ _ _ id _ => [id]
  | sequence children _ => idsOf children
  | optional children _ => idsOf children

/-- The numbers of the groups of several records. -/
def idsOf : List NodeRecord → List Nat
  | [] => []
  | r :: rs => r.ids ++ idsOf rs

end

/-! The JSON forms are records whose first part tells the kind. -/

theorem toJson_literal (text : String) (regex : Option String) :
    (literal text regex).toJson = .ofParts ["kind", "text", "regex"]
      [.string NodeKind.literal.name, .string text, .optional regex] := rfl

theorem toJson_group (name typeName : String) (constraints : RawConstraints) (inSection : Bool)
    (id : Nat) (regex : Option String) :
    (group name typeName constraints inSection id regex).toJson
      = .ofParts ["kind", "name", "type", "constraints", "optional", "groupId", "regex"]
        [.string NodeKind.group.name, .string name, .string typeName,
          .ofTable .string constraints, .bool inSection, .nat id, .optional regex] := rfl

theorem toJson_sequence (children : List NodeRecord) (regex : Option String) :
    (sequence children regex).toJson = .ofParts ["kind", "children", "regex"]
      [.string NodeKind.sequence.name, .array (toJsons children), .optional regex] := rfl

theorem toJson_optional (children : List NodeRecord) (regex : Option String) :
    (optional children regex).toJson = .ofParts ["kind", "children", "regex"]
      [.string NodeKind.optional.name, .array (toJsons children), .optional regex] := rfl

/-- The kind is split from the other parts. -/
theorem splitKind?_ofParts {names : List String} {values : List Json}
    (hnodup : ("kind" :: names).Nodup) (hlength : names.length = values.length) (isRoot : Bool)
    (kind : NodeKind) :
    splitKind? isRoot (.ofParts ("kind" :: names) (.string kind.name :: values))
      = some (kind, .ofParts names values) := by
  have hlength' : ("kind" :: names).length = (Json.string kind.name :: values).length :=
    congrArg Nat.succ hlength
  have hnames := Json.names_zip hlength'
  rw [← hnames] at hnodup
  have hkind : Json.field? "kind" ((("kind" :: names).map Json.Name.ofText).zip
      (.string kind.name :: values)) = some (some (.string kind.name)) :=
    Json.field?_of_mem hnodup List.mem_cons_self
  have hothers : ((names.map Json.Name.ofText).zip values).filter (·.1.text ≠ "kind")
      = (names.map Json.Name.ofText).zip values := by
    apply List.filter_eq_self.mpr
    intro e he
    apply decide_eq_true
    intro heq
    exact (List.nodup_cons.mp hnodup).1 (List.mem_map.mpr ⟨e, he, heq⟩)
  rw [Json.ofParts, splitKind?, hkind]
  simp only [Option.bind_eq_bind, Option.bind_some, NodeKind.ofJson?_name]
  rw [List.map_cons, List.zip_cons_cons, List.filter_cons_of_neg (by simp [Json.Name.ofText]),
    hothers]
  rfl

mutual

/-- The JSON form of a record can be written, if its numbers fit. -/
theorem isWritable_toJson (r : NodeRecord) (h : ∀ id ∈ r.ids, id ≤ idMax) :
    r.toJson.IsWritable := by
  match r with
  | literal text regex =>
    rw [toJson_literal]
    apply Json.IsWritable.ofParts
    simp only [List.forall_mem_cons]
    exact ⟨.string _, .string text, .optional regex, nofun⟩
  | group name typeName constraints inSection id regex =>
    have hid : id ≤ 0xffffffffffffffff := Nat.le_trans (h id List.mem_cons_self) (by decide)
    rw [toJson_group]
    apply Json.IsWritable.ofParts
    simp only [List.forall_mem_cons]
    exact ⟨.string _, .string name, .string typeName, .ofTable .string constraints,
      .bool inSection, .nat hid, .optional regex, nofun⟩
  | sequence children regex =>
    rw [toJson_sequence]
    apply Json.IsWritable.ofParts
    simp only [List.forall_mem_cons]
    exact ⟨.string _, .array (isWritable_toJsons children h), .optional regex, nofun⟩
  | optional children regex =>
    rw [toJson_optional]
    apply Json.IsWritable.ofParts
    simp only [List.forall_mem_cons]
    exact ⟨.string _, .array (isWritable_toJsons children h), .optional regex, nofun⟩

theorem isWritable_toJsons (rs : List NodeRecord) (h : ∀ id ∈ idsOf rs, id ≤ idMax) :
    ∀ j ∈ toJsons rs, j.IsWritable := by
  match rs with
  | [] => exact nofun
  | r :: rs =>
    rw [idsOf, List.forall_mem_append] at h
    rw [toJsons, List.forall_mem_cons]
    exact ⟨isWritable_toJson r h.1, isWritable_toJsons rs h.2⟩

end

mutual

/-- Reading the JSON form of a record gives the record, if it nests no deeper than is allowed. -/
theorem ofNestedJson?_toJson (r : NodeRecord) (isRoot : Bool) {levels : Nat}
    (hdepth : r.toJson.depth ≤ levels) (hids : ∀ id ∈ r.ids, id ≤ idMax) :
    ofNestedJson? isRoot levels r.toJson = some r := by
  match r with
  | literal text regex =>
    rw [toJson_literal] at hdepth ⊢
    obtain _ | levels := levels
    · cases hdepth
    rw [ofNestedJson?, splitKind?_ofParts (by decide) rfl]
    simp only [Option.bind_eq_bind, Option.bind_some]
    rw [Json.parts?_ofParts (by decide) rfl]
    simp [Json.text?, Json.partOr, Json.optional?_optional]
  | group name typeName constraints inSection id regex =>
    have hid : id ≤ idMax := hids id List.mem_cons_self
    rw [toJson_group] at hdepth ⊢
    obtain _ | levels := levels
    · cases hdepth
    rw [ofNestedJson?, splitKind?_ofParts (by decide) rfl]
    simp only [Option.bind_eq_bind, Option.bind_some]
    rw [Json.parts?_ofParts (by decide) rfl]
    have hconstraints : (Json.ofTable Json.string constraints).table? Json.text?
        = some constraints :=
      Json.table?_ofTable (f := .string) (fun _ ↦ rfl) constraints
    simp [Json.text?, Json.bool?, Json.partOr, Json.optional?_optional, Json.nat?_nat hid,
      hconstraints]
  | sequence children regex =>
    -- The children stand in an array inside an object: two levels, of which reading counts one.
    rw [toJson_sequence] at hdepth ⊢
    obtain _ | levels := levels
    · cases hdepth
    rw [Json.depth_ofParts rfl] at hdepth
    simp only [Json.depthOfItems, Json.depth] at hdepth
    rw [ofNestedJson?, splitKind?_ofParts (by decide) rfl]
    simp only [Option.bind_eq_bind, Option.bind_some]
    rw [Json.parts?_ofParts (by decide) rfl]
    have hlevels : Json.depthOfItems (toJsons children) ≤ levels := by omega
    have hchildren := mapM_toJsons children hlevels hids
    simp [Json.list?, Json.partOr, Json.optional?_optional, hchildren]
  | optional children regex =>
    rw [toJson_optional] at hdepth ⊢
    obtain _ | levels := levels
    · cases hdepth
    rw [Json.depth_ofParts rfl] at hdepth
    simp only [Json.depthOfItems, Json.depth] at hdepth
    rw [ofNestedJson?, splitKind?_ofParts (by decide) rfl]
    simp only [Option.bind_eq_bind, Option.bind_some]
    rw [Json.parts?_ofParts (by decide) rfl]
    have hlevels : Json.depthOfItems (toJsons children) ≤ levels := by omega
    have hchildren := mapM_toJsons children hlevels hids
    simp [Json.list?, Json.partOr, Json.optional?_optional, hchildren]

theorem mapM_toJsons (rs : List NodeRecord) {levels : Nat}
    (hdepth : Json.depthOfItems (toJsons rs) ≤ levels) (hids : ∀ id ∈ idsOf rs, id ≤ idMax) :
    (toJsons rs).mapM (ofNestedJson? false levels) = some rs := by
  match rs with
  | [] => rfl
  | r :: rs =>
    rw [idsOf, List.forall_mem_append] at hids
    rw [toJsons, Json.depthOfItems] at hdepth
    rw [toJsons, List.mapM_cons, ofNestedJson?_toJson r false (by omega) hids.1,
      mapM_toJsons rs (by omega) hids.2]
    rfl

end

/-- A tree that was written is read back. -/
theorem ofJson?_toJson (r : NodeRecord) (h : ∀ id ∈ r.ids, id ≤ idMax) :
    ofJson? r.toJson = some r := by
  rw [ofJson?, if_pos (isWritable_toJson r h).isSound]
  exact ofNestedJson?_toJson r true (Nat.le_refl _) h

end NodeRecord

/-! ### Records of patterns -/

namespace PatternRecord

/-- Whether the numbers of a record are no greater than a record can store. -/
structure FitsNumbers (r : PatternRecord) : Prop where
  version_le : r.version ≤ versionMax
  ids_le : ∀ id ∈ r.ast.ids, id ≤ NodeRecord.idMax
  keys_le : ∀ id ∈ r.namedGroups.keys, id ≤ NodeRecord.idMax

/-- The number of a group written as the name of a field is read back. -/
theorem readId?_renderNat {id : Nat} (h : id ≤ NodeRecord.idMax) :
    readId? (Json.Name.ofText (Text.renderNat id)) = some id := by
  have hdigits : (Text.renderNat id).toList = Text.natDigits id := String.toList_ofList
  have hplain : (Text.natDigits id).all Json.isPlainChar = true := by
    apply List.all_eq_true.mpr
    intro c hc
    exact Json.isPlainChar_of_isDigit (Text.isDigit_of_mem_natDigits hc)
  rw [Json.Name.ofText, readId?, hdigits, hplain]
  dsimp only
  split
  · next hfalse => cases hfalse
  · next hzero =>
    have hid : id = 0 := Text.eq_zero_of_head?_natDigits (by rw [hzero]; rfl)
    subst hid
    cases hzero
  · rw [Text.readNat_natDigits, Option.filter_some, if_pos (decide_eq_true h)]

/-- The JSON form of the names of groups by number. -/
theorem readNamedGroups?_renderNat {t : Table Nat String}
    (h : ∀ id ∈ t.keys, id ≤ NodeRecord.idMax) :
    readNamedGroups? (.object (t.toList.map fun e ↦
      (Json.Name.ofText (Text.renderNat e.1), Json.string e.2))) = some t := by
  have hentries : (t.toList.map fun e ↦
      (Json.Name.ofText (Text.renderNat e.1), Json.string e.2)).mapM readNamedGroup?
      = some (t.toList.map id) := by
    apply Json.mapM_map_eq_some
    intro e he
    rw [readNamedGroup?, readId?_renderNat (h e.1 (List.mem_map_of_mem he))]
    rfl
  rw [readNamedGroups?, hentries, Option.map_some, List.map_id, Table.ofList_toList]

variable {r : PatternRecord}

/-- The JSON form of a record can be written, if its numbers fit. -/
theorem isWritable_toJson (h : r.FitsNumbers) : r.toJson.IsWritable := by
  have hversion : r.version ≤ 0xffffffffffffffff := Nat.le_trans h.version_le (by decide)
  apply Json.IsWritable.ofParts
  simp only [List.forall_mem_cons]
  refine ⟨.nat hversion, .string _, .string _, r.ast.isWritable_toJson h.ids_le, ?_,
    .ofTable .string _, .ofTable (fun _ ↦ .ofTable .string _) _, nofun⟩
  apply Json.IsWritable.object
  · intro e he
    obtain ⟨d, -, rfl⟩ := List.mem_map.mp he
    rfl
  · intro e he
    obtain ⟨d, -, rfl⟩ := List.mem_map.mp he
    exact .string d.2

/-- A record nests one level deeper than its tree. -/
theorem depth_toJson_le_iff : r.toJson.depth ≤ depthMax + 1 ↔ r.ast.toJson.depth ≤ depthMax := by
  have hnamed : (Json.object (r.namedGroups.toList.map fun e ↦
      (Json.Name.ofText (Text.renderNat e.1), Json.string e.2))).depth ≤ 1 := by
    apply Json.depth_object_le
    intro e he
    obtain ⟨d, -, rfl⟩ := List.mem_map.mp he
    exact Nat.le_refl 0
  have htypes : (Json.ofTable .string r.groupTypes).depth ≤ 1 :=
    Json.depth_ofTable_le (fun _ ↦ Nat.le_refl 0) _
  have hconstraints : (Json.ofTable (.ofTable .string) r.groupConstraints).depth ≤ 2 :=
    Json.depth_ofTable_le (Json.depth_ofTable_le fun _ ↦ Nat.le_refl 0) _
  have hnat : (Json.nat r.version).depth = 0 := rfl
  have hstring : ∀ s, (Json.string s).depth = 0 := fun _ ↦ rfl
  rw [toJson, Json.depth_ofParts rfl]
  simp only [Json.depthOfItems, hnat, hstring, depthMax]
  omega

/-- A record is read back, if its tree nests no deeper than is allowed. -/
theorem ofJson?_toJson (h : r.FitsNumbers) :
    ofJson? r.toJson = if r.ast.toJson.depth ≤ depthMax then some r else none := by
  have htree : readTree? r.ast.toJson
      = if r.ast.toJson.depth ≤ depthMax then some r.ast else none := by
    rw [readTree?, r.ast.ofJson?_toJson h.ids_le]
  have htypes : (Json.ofTable Json.string r.groupTypes).table? Json.text? = some r.groupTypes :=
    Json.table?_ofTable (f := .string) (fun _ ↦ rfl) _
  have hconstraints : (Json.ofTable (.ofTable .string) r.groupConstraints).table?
      (Json.table? Json.text?) = some r.groupConstraints :=
    Json.table?_ofTable (f := .ofTable .string) (Json.table?_ofTable (f := .string) fun _ ↦ rfl) _
  rw [toJson, ofJson?, Json.parts?_ofParts (by decide) rfl]
  simp only [List.map_cons, List.map_nil, Json.nat?_nat h.version_le, Json.text?, htree,
    readNamedGroups?_renderNat h.keys_le, htypes, hconstraints]
  split <;> rfl

/-- A stored text is read back, if it nests no deeper than is allowed, and is refused otherwise. -/
theorem parse_render (h : r.FitsNumbers) :
    parse r.render = if r.toJson.depth ≤ depthMax + 1 then .ok r
      else .error (.corrupt .undecodable) := by
  rw [parse, render, (isWritable_toJson h).parse?_render, Option.bind_some, ofJson?_toJson h]
  by_cases hdepth : r.ast.toJson.depth ≤ depthMax
  · rw [if_pos hdepth, if_pos (depth_toJson_le_iff.mpr hdepth)]
  · rw [if_neg hdepth, if_neg fun hle ↦ hdepth (depth_toJson_le_iff.mp hle)]

end PatternRecord

namespace Node

mutual

/-- The record of a tree has the numbers of its groups. -/
theorem ids_toRecord (n : Node) : n.toRecord.ids = n.groups.map Group.id := by
  match n with
  | literal text tag => rfl
  | group g => rfl
  | sequence children tag =>
    rw [toRecord, NodeRecord.ids, groups]
    exact idsOf_toRecords children
  | optional children tag =>
    rw [toRecord, NodeRecord.ids, groups]
    exact idsOf_toRecords children

theorem idsOf_toRecords (ns : List Node) :
    NodeRecord.idsOf (toRecords ns) = (groupsOf ns).map Group.id := by
  match ns with
  | [] => rfl
  | n :: ns =>
    rw [toRecords, NodeRecord.idsOf, ids_toRecord n, idsOf_toRecords ns, groupsOf, List.map_append]

end

end Node

namespace Pattern

variable {p : Pattern}

/-- The numbers in the record of a pattern are those of its groups. -/
theorem fitsNumbers_toRecord (h : ∀ g ∈ p.tree.groups, g.id ≤ NodeRecord.idMax) :
    p.toRecord.FitsNumbers := by
  constructor
  · exact (by decide : PatternRecord.currentVersion ≤ PatternRecord.versionMax)
  · intro id hid
    rw [toRecord, Node.ids_toRecord] at hid
    obtain ⟨g, hg, rfl⟩ := List.mem_map.mp hid
    exact h g hg
  · intro id hid
    obtain ⟨name, hname⟩ := (Table.mem_keys_ofList _ _).mp hid
    rw [p.lists_groups.infos_eq] at hname
    obtain ⟨info, hinfo, heq⟩ := List.mem_map.mp hname
    obtain ⟨g, hg, rfl⟩ := List.mem_map.mp hinfo
    cases heq
    exact h g hg

/-- A compiled pattern has no more groups than there are numbers for them. -/
theorem id_le_of_compile {pipeline : Pipeline} {source : String}
    (h : (⟨.builtin, pipeline⟩ : Compiler).compile source = .ok p) :
    ∀ g ∈ p.tree.groups, g.id ≤ NodeRecord.idMax := by
  intro g hg
  have hroom := (Compiler.isDerived_of_compile h).length_groups_le
  have hid : g.id ∈ List.range' 1 p.tree.groups.length := by
    rw [← (Compiler.hasNumberedGroups h).ids_eq]
    exact List.mem_map_of_mem hg
  rw [List.mem_range'_1] at hid
  rw [Regex.footprintLimit] at hroom
  rw [NodeRecord.idMax]
  omega

/-- The stored text of a pattern, compiled or with numbers that can be stored, is read back as its
record if it nests no deeper than the reader allows, and is refused otherwise. `SPEC_FULL.md:84`. -/
theorem parse_render_toRecord
    (h : (∃ pipeline source, (⟨.builtin, pipeline⟩ : Compiler).compile source = .ok p) ∨
      ∀ g ∈ p.tree.groups, g.id ≤ NodeRecord.idMax) :
    Json.parse? p.toRecord.render = some p.toRecord.toJson ∧
      PatternRecord.parse p.toRecord.render
        = if p.toRecord.toJson.depth ≤ PatternRecord.depthMax + 1 then .ok p.toRecord
          else .error (.corrupt .undecodable) := by
  have hids : ∀ g ∈ p.tree.groups, g.id ≤ NodeRecord.idMax := by
    rcases h with ⟨pipeline, source, hcompile⟩ | hids
    · exact id_le_of_compile hcompile
    · exact hids
  have hfits := fitsNumbers_toRecord hids
  exact ⟨(PatternRecord.isWritable_toJson hfits).parse?_render, PatternRecord.parse_render hfits⟩

/-- A compiled pattern that is read back, and a loaded one whose sections nest too deep. -/
theorem parse_render_toRecord_nested :
    (∃ p, Compiler.standard.compile "é\"(\x7bn:string(startsWith=\"q\")\x7d(/\x7bm:int\x7d))"
        = .ok p ∧
      PatternRecord.parse p.toRecord.render = .ok p.toRecord) ∧
    ∃ p, Compiler.standard.load ⟨PatternRecord.currentVersion, "a", "a",
        Nat.repeat (fun r ↦ .optional [r] none) 63 (.literal "a" none), ∅, ∅, ∅⟩ = .ok p ∧
      PatternRecord.parse p.toRecord.render = .error (.corrupt .undecodable) := by
  have hcompiles : (Compiler.standard.compile
      "é\"(\x7bn:string(startsWith=\"q\")\x7d(/\x7bm:int\x7d))").toOption.any
      (fun p ↦ decide (p.toRecord.toJson.depth ≤ PatternRecord.depthMax + 1)) = true := by
    decide +kernel
  have hloads : (Compiler.standard.load ⟨PatternRecord.currentVersion, "a", "a",
      Nat.repeat (fun r ↦ .optional [r] none) 63 (.literal "a" none), ∅, ∅, ∅⟩).toOption.any
      (fun p ↦ p.tree.groups.isEmpty &&
        !decide (p.toRecord.toJson.depth ≤ PatternRecord.depthMax + 1)) = true := by
    decide +kernel
  obtain ⟨p, hp, hdepth⟩ := exists_ok_of_any hcompiles
  obtain ⟨p', hp', htest⟩ := exists_ok_of_any hloads
  obtain ⟨hempty, hdeep⟩ := Bool.and_eq_true_iff.mp htest
  have hids : ∀ g ∈ p'.tree.groups, g.id ≤ NodeRecord.idMax := by
    rw [List.isEmpty_iff.mp hempty]
    exact nofun
  have hread := (parse_render_toRecord (.inl ⟨.standard, _, hp⟩)).2
  have hrefused := (parse_render_toRecord (.inr hids)).2
  rw [if_pos (of_decide_eq_true hdepth)] at hread
  rw [if_neg (by simpa using hdeep)] at hrefused
  exact ⟨⟨p, hp, hread⟩, p', hp', hrefused⟩

end Pattern

end UrlPattern
