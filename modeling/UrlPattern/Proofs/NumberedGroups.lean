import Mathlib.Algebra.GroupWithZero.Nat
import UrlPattern.Proofs.CompiledPattern
import UrlPattern.Proofs.MatchedValues

/-!
# Numbered groups

The groups of a compiled pattern are numbered from one on, in the order in which they appear, and
have different names. The tree, the expression and the three maps of the pattern agree on them: each
number names one capture of the expression, and each name leads to the type and the constraints of
its own group.

A pattern in which a name is repeated is refused, whatever else is wrong with it, and the error
names the first group whose name an earlier one has (`GroupTable.ofTree_of_repeated`).

Specification: `SPEC_FULL.md` §10.6 (lines 233–237) and §8 (line 101).
-/

namespace UrlPattern

/-! ### The captures of an expression -/

namespace Regex

/-- The captures of a sequence are those of its parts. -/
theorem captureNames_sequence (rs : List Regex) :
    (Reader.sequence rs).captureNames = rs.reverse.flatMap captureNames := by
  induction rs with
  | nil => rfl
  | cons r rs ih =>
    rw [List.reverse_cons, List.flatMap_append, List.flatMap_singleton]
    cases rs with
    | nil => rfl
    | cons r' rs =>
      rw [← ih]
      rfl

end Regex

/-- What stands inside the capture of a group captures nothing itself. -/
theorem Group.captureNames_textItems (g : Group) :
    g.textItems.flatMap Regex.captureNames = [] := by
  rw [textItems]
  split
  · rw [Regex.integerItems.eq_def]
    split
    · split
      · rfl
      · dsimp only
        split <;> rfl
    · split <;> rfl
  · rfl

/-- The expression of a group captures under the name of the group. -/
theorem Group.captureNames_item (g : Group) : g.item.captureNames = [g.captureName] := by
  rw [item, Regex.captureNames, Regex.captureNames_sequence, List.reverse_reverse,
    g.captureNames_textItems]

namespace Node

mutual

/-- The parts of the expression of a tree capture under the names of its groups. -/
theorem captureNames_items (n : Node) :
    n.items.flatMap Regex.captureNames = captureNames n.groups := by
  match n with
  | literal text tag =>
    simp only [items, groups, List.flatMap_map, List.map_nil, List.flatMap_eq_nil_iff]
    intro c _
    rfl
  | group g =>
    simp only [items, groups, List.flatMap_singleton, List.map_cons, List.map_nil]
    exact g.captureNames_item
  | sequence children tag => exact captureNames_itemsAll children
  | optional children tag =>
    simp only [items, groups, List.flatMap_singleton, Regex.captureNames]
    rw [Regex.captureNames_sequence, List.reverse_reverse]
    exact captureNames_itemsAll children

theorem captureNames_itemsAll (ns : List Node) :
    (itemsAll ns).flatMap Regex.captureNames = captureNames (groupsOf ns) := by
  match ns with
  | [] => rfl
  | n :: ns =>
    simp only [itemsAll, groupsOf, List.flatMap_append, List.map_append]
    rw [captureNames_items n, captureNames_itemsAll ns]

end

/-- The expression of a whole pattern captures under the names of its groups. -/
theorem captureNames_wholeItems (n : Node) :
    n.wholeItems.flatMap Regex.captureNames = captureNames n.groups := by
  rw [wholeItems, List.flatMap_cons, List.flatMap_append, captureNames_items]
  exact List.append_nil _

end Node

/-! ### The room of the groups -/

/-- A sequence takes at least the room of its parts. -/
theorem Regex.sum_footprint_le (rs : List Regex) :
    (rs.map footprint).sum ≤ (Reader.sequence rs).footprint := by
  induction rs with
  | nil => exact Nat.zero_le _
  | cons r rs ih =>
    rw [List.map_cons, List.sum_cons]
    cases rs with
    | nil => exact Nat.le_refl _
    | cons r' rs =>
      rw [Reader.sequence, footprint]
      · omega
      · exact List.cons_ne_nil r' rs

/-- A section takes at least the room of what it encloses. -/
theorem Regex.footprint_le_section (r : Regex) :
    r.footprint ≤ (rep (group none r) 0 (some 1) true).footprint := by
  have hleast : (group none r).leastCopies 0 = 0 := by
    unfold leastCopies
    split <;> rfl
  have hmost : (group none r).mostCopies (some 1) = some 1 := by
    unfold mostCopies
    split <;> rfl
  rw [footprint, hleast, hmost]
  exact Nat.le_add_right _ _

namespace Node

mutual

/-- Every group of a tree takes room in its expression, that of the marks of its capture. -/
theorem le_sum_footprint_items (n : Node) :
    64 * n.groups.length ≤ (n.items.map Regex.footprint).sum := by
  match n with
  | literal text tag => exact Nat.zero_le _
  | group g => exact Nat.le_add_left 64 _
  | sequence children tag => exact le_sum_footprint_itemsAll children
  | optional children tag =>
    have hchildren := le_sum_footprint_itemsAll children
    have hsequence := Regex.sum_footprint_le (itemsAll children).reverse
    have hsection := Regex.footprint_le_section (Regex.Reader.sequence (itemsAll children).reverse)
    rw [List.map_reverse, List.sum_reverse] at hsequence
    rw [groups, items, List.map_singleton, List.sum_singleton]
    omega

theorem le_sum_footprint_itemsAll (ns : List Node) :
    64 * (groupsOf ns).length ≤ ((itemsAll ns).map Regex.footprint).sum := by
  match ns with
  | [] => exact Nat.zero_le _
  | n :: ns =>
    have hn := le_sum_footprint_items n
    have hns := le_sum_footprint_itemsAll ns
    rw [groupsOf, itemsAll, List.map_append, List.sum_append, List.length_append]
    omega

end

end Node

/-- The expression of a pattern has room for so many groups. -/
theorem Pattern.IsDerived.length_groups_le {p : Pattern} (h : p.IsDerived) :
    64 * p.tree.groups.length ≤ Regex.footprintLimit := by
  have hlimit : p.regex.footprint ≤ Regex.footprintLimit := by
    have hread := p.parse?_regexText
    rw [Regex.parse?, Option.filter_eq_some_iff, Regex.isWithinLimits, Bool.and_eq_true] at hread
    exact of_decide_eq_true hread.2.2
  have hgroups := p.tree.le_sum_footprint_items
  have hsequence := Regex.sum_footprint_le p.tree.wholeItems.reverse
  rw [← h.regex_eq, List.map_reverse, List.sum_reverse, Node.wholeItems, List.map_cons,
    List.sum_cons, List.map_append, List.sum_append] at hsequence
  omega

/-! ### Compiled patterns -/

/-- What numbered groups have in common: their numbers count them from one on, their names are
different, and the expression and the maps of the pattern agree with the tree on both. -/
structure Pattern.HasNumberedGroups (p : Pattern) : Prop where
  ids_eq : p.tree.groups.map Group.id = List.range' 1 p.tree.groups.length
  names_nodup : (p.tree.groups.map Group.name).Nodup
  /-- The numbers lead to the names in order of appearance. -/
  namedGroups_eq : p.groups.namedGroups.toList
    = (List.range' 1 p.tree.groups.length).zip (p.tree.groups.map Group.name)
  /-- Exactly the names of groups have a type, that of their group. -/
  groupTypes_iff : ∀ name typeName, p.groups.groupTypes.get? name = some typeName ↔
    ∃ g ∈ p.tree.groups, g.name = name ∧ g.type.name = typeName
  /-- Exactly the names of groups have constraints, those of their group. -/
  groupConstraints_iff : ∀ name raw, p.groups.groupConstraints.get? name = some raw ↔
    ∃ g ∈ p.tree.groups, g.name = name ∧ g.raw = raw
  /-- The expression is that of the tree, and each number names one of its captures. -/
  captureNames_eq : Regex.parse? p.tree.anchoredRegex = some p.regex ∧ p.regex.captureNames
    = (List.range' 1 p.tree.groups.length).map fun id ↦ "g" ++ Text.renderNat id
  captureNames_nodup : p.regex.captureNames.Nodup

/-- Numbers that ascend lead to the names in order of appearance. -/
theorem GroupTable.Lists.toList_namedGroups {t : GroupTable} {gs : List Group} (h : t.Lists gs)
    (hids : (gs.map Group.id).Pairwise (· < ·)) :
    t.namedGroups.toList = gs.map fun g ↦ (g.id, g.name) := by
  rw [h.namedGroups_eq]
  refine Table.toList_ofList ?_
  rw [List.pairwise_map] at hids ⊢
  exact hids.imp fun hab ↦ decide_eq_true hab

namespace Compiler

variable {pipeline : Pipeline} {source : String} {p : Pattern}

theorem hasNumberedGroups (h : (⟨.builtin, pipeline⟩ : Compiler).compile source = .ok p) :
    p.HasNumberedGroups := by
  have hp := isDerived_of_compile h
  obtain ⟨named, hcheck, -, htree, -⟩ := compile_eq_ok h
  obtain ⟨⟨children, last, hread, hroot⟩, -⟩ := check_eq_ok hcheck
  have hids : p.tree.groups.map Group.id = List.range' 1 p.tree.groups.length := by
    rw [htree, hroot]
    exact hread.ids_eq_range.1
  have hcaptures : p.regex.captureNames = Node.captureNames p.tree.groups := by
    rw [hp.regex_eq, Regex.captureNames_sequence, List.reverse_reverse,
      Node.captureNames_wholeItems]
  have hexpr := p.parse?_regexText
  rw [hp.regexText_eq] at hexpr
  refine ⟨hids, p.names_nodup, ?_, ?_, ?_, ⟨hexpr, ?_⟩, ?_⟩
  · rw [p.lists_groups.toList_namedGroups (by rw [hids]; exact List.pairwise_lt_range'), ← hids,
      List.zip_map']
  · exact p.lists_groups.hasMaps.groupTypes_iff
  · exact p.lists_groups.hasMaps.groupConstraints_iff
  · rw [hcaptures, ← hids, List.map_map]
    rfl
  · rw [hcaptures]
    exact hp.captureNames_nodup

/-- The groups of a compiled pattern are numbered. A pattern that can be read but repeats a name is
refused for the first name that an earlier group has. `SPEC_FULL.md:101`. -/
theorem numbered_or_repeated (pipeline : Pipeline) (source : String) :
    (∀ p, (⟨.builtin, pipeline⟩ : Compiler).compile source = .ok p → p.HasNumberedGroups) ∧
      ∀ root, Node.parse source .builtin = .ok root → ¬ (root.groups.map Group.name).Nodup →
        ∃ front g back, root.groups = front ++ g :: back ∧ (front.map Group.name).Nodup ∧
          g.name ∈ front.map Group.name ∧
          (⟨.builtin, pipeline⟩ : Compiler).compile source
            = .error (.validation (.duplicateGroupName g.name)) := by
  refine ⟨fun p ↦ hasNumberedGroups, fun root hparse hrepeated ↦ ?_⟩
  obtain ⟨front, g, back, hgroups, hnodup, hmem, htable⟩ := GroupTable.ofTree_of_repeated hrepeated
  refine ⟨front, g, back, hgroups, hnodup, hmem, ?_⟩
  have hnamed : NamedTree.ofNode root = .error (.duplicateGroupName g.name) := by
    rw [NamedTree.ofNode]
    split
    · next groups hok =>
      rw [hok] at htable
      cases htable
    · next e herror =>
      rw [herror] at htable
      exact congrArg _ (Except.error.inj htable)
  have hcheck : (⟨.builtin, pipeline⟩ : Compiler).check source
      = .error (.validation (.duplicateGroupName g.name)) := by
    rw [check, hparse]
    change ((NamedTree.ofNode root).mapError PatternError.validation >>= _) = _
    rw [hnamed]
    rfl
  rw [compile, hcheck]
  rfl

/-- A pattern whose second group stands in a section, and one in which two names are repeated. -/
theorem numbered_or_repeated_section :
    (∃ p, standard.compile "\x7ba:int\x7d(/\x7bb:string\x7d)" = .ok p ∧ p.HasNumberedGroups) ∧
      ∃ root, Node.parse "\x7ba:int\x7d/\x7bb:int\x7d/\x7bb:int\x7d/\x7ba:int\x7d" .builtin
          = .ok root ∧
        ∃ g ∈ root.groups, standard.compile
            "\x7ba:int\x7d/\x7bb:int\x7d/\x7bb:int\x7d/\x7ba:int\x7d"
          = .error (.validation (.duplicateGroupName g.name)) := by
  have hcompiles : (standard.compile "\x7ba:int\x7d(/\x7bb:string\x7d)").toOption.any
      (fun _ ↦ true) = true := by
    decide +kernel
  have hrepeats : (Node.parse "\x7ba:int\x7d/\x7bb:int\x7d/\x7bb:int\x7d/\x7ba:int\x7d"
      .builtin).toOption.any (fun root ↦ !decide (root.groups.map Group.name).Nodup) = true := by
    decide +kernel
  obtain ⟨p, hp, -⟩ := exists_ok_of_any hcompiles
  obtain ⟨root, hroot, htest⟩ := exists_ok_of_any hrepeats
  have hrepeated : ¬ (root.groups.map Group.name).Nodup := by simpa using htest
  obtain ⟨front, g, back, hgroups, -, -, herror⟩ :=
    (numbered_or_repeated .standard _).2 root hroot hrepeated
  refine ⟨⟨p, hp, (numbered_or_repeated .standard _).1 p hp⟩, root, hroot, g, ?_, herror⟩
  rw [hgroups]
  exact List.mem_append_right _ List.mem_cons_self

end Compiler

end UrlPattern
