import UrlPattern.Proofs.RoundTrip

/-!
# Writing texts of a pattern

What is written depends only on how the groups of the tree write their values
(`Node.generate_congr_format`). If all groups outside the optional sections have values, and so have
all groups that stand directly in a section in which some group has one, no fallback is written and
nothing is lacking. The text then divides along the tree into the written values
(`Node.exists_generate_divides_of_outer`), so the pattern matches it if the values suit their groups
(`Compiler.exists_generate_isMatch`).

Specification: `SPEC_FULL.md` §4.3 (lines 50–51) and §10.5 (lines 224–231).
-/

namespace UrlPattern

/-- A piece is written of values: a group as its value, and a section is left out if it has none. -/
def Piece.IsOf (values : Bindings) : Piece → Prop
  | literal _ => True
  | group g text => ∃ v, values.get? g.name = some v ∧ text = (g.type.format v).toList
  | present => True
  | absent children => ∀ g ∈ Node.groupsOf children, values.contains g.name = false

namespace Node

/-! ### Values of other names -/

theorem anyBindsSome_congr {values values' : Bindings} {ns : List Node}
    (h : ∀ g ∈ groupsOf ns, values.contains g.name = values'.contains g.name) :
    anyBindsSome values ns = anyBindsSome values' ns := by
  rw [Bool.eq_iff_iff, anyBindsSome_iff, anyBindsSome_iff]
  refine exists_congr fun g ↦ and_congr_right fun hg ↦ ?_
  rw [h g hg]

mutual

/-- Values that the groups of a tree write alike are written as the same text, or lack the same
value. -/
theorem generate_congr_format {values values' : Bindings} (n : Node)
    (h : ∀ g ∈ n.groups,
      (values.get? g.name).map g.type.format = (values'.get? g.name).map g.type.format) :
    n.generate values = n.generate values' := by
  match n with
  | literal text tag => rfl
  | group g =>
    have hwritten := h g List.mem_cons_self
    rw [generate, generate, Group.generate, Group.generate]
    cases hv : values.get? g.name with
    | none =>
      rw [hv] at hwritten
      rw [Option.map_eq_none_iff.mp hwritten.symm]
    | some v =>
      rw [hv] at hwritten
      obtain ⟨v', hv', hformat⟩ := Option.map_eq_some_iff.mp hwritten.symm
      rw [hv']
      exact congrArg Except.ok hformat.symm
  | sequence children tag => exact generateAll_congr_format children h
  | optional children tag =>
    have hbound : ∀ g ∈ groupsOf children, values.contains g.name = values'.contains g.name := by
      intro g hg
      have hsome := congrArg Option.isSome (h g hg)
      rwa [Option.isSome_map, Option.isSome_map] at hsome
    rw [generate, generate, anyBindsSome_congr hbound, generateAll_congr_format children h]

theorem generateAll_congr_format {values values' : Bindings} (ns : List Node)
    (h : ∀ g ∈ groupsOf ns,
      (values.get? g.name).map g.type.format = (values'.get? g.name).map g.type.format) :
    generateAll values ns = generateAll values' ns := by
  match ns with
  | [] => rfl
  | n :: ns =>
    obtain ⟨hn, hns⟩ := List.forall_mem_append.mp h
    rw [generateAll, generateAll, generate_congr_format n hn, generateAll_congr_format ns hns]

end

/-- Values that agree on the groups of a tree are written as the same text, or lack the same value.
-/
theorem generate_congr {values values' : Bindings} (n : Node)
    (h : ∀ g ∈ n.groups, values.get? g.name = values'.get? g.name) :
    n.generate values = n.generate values' :=
  generate_congr_format n fun g hg ↦ congrArg (Option.map g.type.format) (h g hg)

/-! ### Sections that are written as a whole -/

mutual

/-- The groups of a tree that stand in none of its optional sections. -/
def outerGroups : Node → List Group
  | literal .. => []
  | group g => [g]
  | sequence children _ => outerGroupsOf children
  | optional .. => []

/-- The groups of several trees that stand in none of their optional sections. -/
def outerGroupsOf : List Node → List Group
  | [] => []
  | n :: ns => n.outerGroups ++ outerGroupsOf ns

end

mutual

/-- A tree is written and divided into its values if all groups outside of its sections have values,
and in each section that has some value all groups that stand directly in it. -/
theorem exists_generate_divides_of_outer {values : Bindings} (n : Node)
    (houter : ∀ g ∈ n.outerGroups, values.contains g.name = true)
    (hinner : ∀ children ∈ n.sections, anyBindsSome values children = true →
      ∀ g ∈ outerGroupsOf children, values.contains g.name = true)
    (hspells : ∀ g ∈ n.groups, ∀ v, values.get? g.name = some v →
      g.Spells (g.type.format v).toList) :
    ∃ t d, n.generate values = .ok t ∧ n.Divides d ∧ d.text = t.toList ∧
      ∀ piece ∈ d, piece.IsOf values := by
  match n with
  | literal text tag =>
    exact ⟨text, [.literal text], rfl, rfl, List.append_nil _,
      List.forall_mem_singleton.mpr trivial⟩
  | group g =>
    obtain ⟨v, hv⟩ := Option.isSome_iff_exists.mp (houter g List.mem_cons_self)
    refine ⟨g.type.format v, [.group g (g.type.format v).toList], ?_,
      ⟨_, hspells g List.mem_cons_self v hv, rfl⟩, List.append_nil _,
      List.forall_mem_singleton.mpr ⟨v, hv, rfl⟩⟩
    rw [generate, Group.generate, hv]
  | sequence children tag =>
    exact exists_generateAll_divides_of_outer children houter hinner hspells
  | optional children tag =>
    obtain ⟨hhere, hinside⟩ := List.forall_mem_cons.mp hinner
    rw [generate]
    by_cases hsome : anyBindsSome values children = true
    · -- The section has a value, so its own groups are those that must have one.
      obtain ⟨t, d, ht, hd, htext, hpieces⟩ :=
        exists_generateAll_divides_of_outer children (hhere hsome) hinside hspells
      rw [if_pos hsome]
      exact ⟨t, .present :: d, ht, .inl ⟨d, hd, rfl⟩, htext,
        List.forall_mem_cons.mpr ⟨trivial, hpieces⟩⟩
    · rw [if_neg hsome]
      exact ⟨"", [.absent children], rfl, .inr rfl, rfl, List.forall_mem_singleton.mpr
        (anyBindsSome_eq_false_iff.mp (Bool.eq_false_iff.mpr hsome))⟩

theorem exists_generateAll_divides_of_outer {values : Bindings} (ns : List Node)
    (houter : ∀ g ∈ outerGroupsOf ns, values.contains g.name = true)
    (hinner : ∀ children ∈ sectionsOf ns, anyBindsSome values children = true →
      ∀ g ∈ outerGroupsOf children, values.contains g.name = true)
    (hspells : ∀ g ∈ groupsOf ns, ∀ v, values.get? g.name = some v →
      g.Spells (g.type.format v).toList) :
    ∃ t d, generateAll values ns = .ok t ∧ DividesAll ns d ∧ d.text = t.toList ∧
      ∀ piece ∈ d, piece.IsOf values := by
  match ns with
  | [] => exact ⟨"", [], rfl, rfl, rfl, nofun⟩
  | n :: ns =>
    obtain ⟨houter, houter'⟩ := List.forall_mem_append.mp houter
    obtain ⟨hinner, hinner'⟩ := List.forall_mem_append.mp hinner
    obtain ⟨hspells, hspells'⟩ := List.forall_mem_append.mp hspells
    obtain ⟨t, d, ht, hd, htext, hpieces⟩ :=
      exists_generate_divides_of_outer n houter hinner hspells
    obtain ⟨t', d', ht', hd', htext', hpieces'⟩ :=
      exists_generateAll_divides_of_outer ns houter' hinner' hspells'
    refine ⟨t ++ t', d ++ d', ?_, ⟨d, d', hd, hd', rfl⟩, ?_,
      List.forall_mem_append.mpr ⟨hpieces, hpieces'⟩⟩
    · exact bind_eq_ok.mpr ⟨t, ht, bind_eq_ok.mpr ⟨t', ht', rfl⟩⟩
    · rw [Division.text_append, htext, htext', String.toList_append]

end

end Node

namespace Pattern

variable {p : Pattern} {values : Bindings}

/-- Values that suit their groups are written as texts of them. -/
theorem IsDerived.spells_format (hp : p.IsDerived)
    (hvalues : ∀ g ∈ p.tree.groups, ∀ v, values.get? g.name = some v →
      g.type.parseValue (some (g.type.format v)) g.constraints = .ok v) :
    ∀ g ∈ p.tree.groups, ∀ v, values.get? g.name = some v →
      g.Spells (g.type.format v).toList := by
  intro g hg v hv
  have hbuiltin := hp.builtin g hg
  obtain ⟨hconv, hholds⟩ :=
    (ValueType.parseValue_some_eq_ok hbuiltin.usesConvert).mp (hvalues g hg v hv)
  exact Group.spells_format hbuiltin hconv hholds

end Pattern

namespace Compiler

variable {pipeline : Pipeline} {source : String} {p : Pattern}

/-- With values that suit their groups, for all groups outside the optional sections and all that
stand directly in a section with a value, a compiled pattern writes a text. It matches the text
unless it is empty. `SPEC_FULL.md:226–229`. -/
theorem exists_generate_isMatch (h : (⟨.builtin, pipeline⟩ : Compiler).compile source = .ok p)
    {values : Bindings}
    (houter : ∀ g ∈ p.tree.outerGroups, values.contains g.name = true)
    (hinner : ∀ children ∈ p.tree.sections,
      (∃ g ∈ Node.groupsOf children, values.contains g.name = true) →
        ∀ g ∈ Node.outerGroupsOf children, values.contains g.name = true)
    (hvalues : ∀ g ∈ p.tree.groups, ∀ v, values.get? g.name = some v →
      g.type.parseValue (some (g.type.format v)) g.constraints = .ok v) :
    ∃ t, p.generate values = .ok t ∧ (t ≠ "" → p.isMatch t = true) := by
  have hp := isDerived_of_compile h
  have hsections : ∀ children ∈ p.tree.sections, Node.anyBindsSome values children = true →
      ∀ g ∈ Node.outerGroupsOf children, values.contains g.name = true :=
    fun children hmem hsome ↦ hinner children hmem ((Node.anyBindsSome_iff _ _).mp hsome)
  obtain ⟨t, d, ht, hd, htext, -⟩ :=
    Node.exists_generate_divides_of_outer p.tree houter hsections (hp.spells_format hvalues)
  refine ⟨t, ht, fun hne ↦ ?_⟩
  rw [hp.isMatch_iff]
  exact ⟨hne, (Node.mem_language _ _).mpr ⟨d, hd, htext⟩⟩

/-- Two groups that touch and a section whose inner section is left out. -/
theorem exists_generate_isMatch_touching :
    ∃ p,
      standard.compile
          "u\x7ba:int(max=99)\x7d\x7bb:string(maxLen=3)\x7d(-\x7bc:int\x7d(/\x7bd:string\x7d))"
        = .ok p ∧
      p.generate (Table.ofList [("a", .int 7), ("b", .text "8x"), ("c", .int (-3))])
        = .ok "u78x--3" ∧
      p.isMatch "u78x--3" = true := by
  let values : Bindings := Table.ofList [("a", .int 7), ("b", .text "8x"), ("c", .int (-3))]
  have htest : (standard.compile
        "u\x7ba:int(max=99)\x7d\x7bb:string(maxLen=3)\x7d(-\x7bc:int\x7d(/\x7bd:string\x7d))"
      ).toOption.any (fun p ↦ p.tree.outerGroups.all (fun g ↦ values.contains g.name) &&
        (p.tree.sections.all (fun children ↦
          !(Node.groupsOf children).any (fun g ↦ values.contains g.name) ||
            (Node.outerGroupsOf children).all fun g ↦ values.contains g.name) &&
        (p.tree.groups.all (fun g ↦ (values.get? g.name).all fun v ↦
          g.type.parseValue (some (g.type.format v)) g.constraints == .ok v) &&
        p.generate values == .ok "u78x--3"))) = true := by
    decide +kernel
  obtain ⟨p, hp, htest⟩ := exists_ok_of_any htest
  simp only [Bool.and_eq_true, Bool.or_eq_true, Bool.not_eq_true', List.all_eq_true,
    beq_iff_eq] at htest
  obtain ⟨houter, hsections, hparses, hgenerate⟩ := htest
  have hinner : ∀ children ∈ p.tree.sections,
      (∃ g ∈ Node.groupsOf children, values.contains g.name = true) →
        ∀ g ∈ Node.outerGroupsOf children, values.contains g.name = true := by
    intro children hmem hsome
    rw [← List.any_eq_true] at hsome
    refine (hsections children hmem).resolve_left fun hnone ↦ ?_
    rw [hnone] at hsome
    cases hsome
  have hvalues : ∀ g ∈ p.tree.groups, ∀ v, values.get? g.name = some v →
      g.type.parseValue (some (g.type.format v)) g.constraints = .ok v := by
    intro g hg v hv
    have hall := hparses g hg
    rwa [hv, Option.all_some, beq_iff_eq] at hall
  obtain ⟨t, ht, hmatch⟩ := exists_generate_isMatch hp houter hinner hvalues
  obtain rfl : t = "u78x--3" := Except.ok.inj (ht.symm.trans hgenerate)
  exact ⟨p, hp, hgenerate, hmatch (by decide)⟩

end Compiler

end UrlPattern
