import UrlPattern.Proofs.CompiledPattern
import UrlPattern.Proofs.MatchedValues

/-!
# Writing what was matched

The values of a match write a text again. Three things may keep the pattern from matching it. The
empty text never matches, and a tree of optional sections without values is written as one. A
fallback need not be a text of its group. And a section that the input left out comes back if the
match gave a fallback to one of its groups, which asks for the values of its other groups, too.
There is nothing else: every other value is written as a text of its group.

Specification: `SPEC_FULL.md` §8 (line 94).
-/

namespace UrlPattern

namespace Group

/-- A group is written if it has a value or a fallback. -/
theorem exists_generate_iff {values : Bindings} {g : Group} :
    (∃ t, g.generate values = .ok t) ↔
      (values.contains g.name = false → g.fallback? ≠ none) := by
  rw [generate, Table.contains]
  cases hvalue : values.get? g.name with
  | some v => simp
  | none => cases hfallback : g.fallback? <;> simp

/-- The fallback of a group is a text of the group once it is converted and written. -/
def SpellsFallback (g : Group) : Prop :=
  ∀ raw v, g.fallback? = some raw → g.type.convert? raw = some v →
    g.Spells (g.type.format v).toList

end Group

namespace Node

/-- A group stands in an optional section in which no group is bound. -/
def IsLeftOut (values : Bindings) (sections : List (List Node)) (g : Group) : Prop :=
  ∃ children ∈ sections, g ∈ groupsOf children ∧
    ∀ g' ∈ groupsOf children, values.contains g'.name = false

section

variable {values : Bindings} {sections sections' : List (List Node)} {g : Group}

theorem IsLeftOut.mono (h : IsLeftOut values sections g) (hsub : sections ⊆ sections') :
    IsLeftOut values sections' g := by
  obtain ⟨children, hmem, hg, hall⟩ := h
  exact ⟨children, hsub hmem, hg, hall⟩

/-- A group is left out of the sections that it stands in. -/
theorem isLeftOut_append_left (h : ∀ children ∈ sections', g ∉ groupsOf children) :
    IsLeftOut values (sections ++ sections') g ↔ IsLeftOut values sections g := by
  constructor
  · rintro ⟨children, hmem, hg, hall⟩
    rcases List.mem_append.mp hmem with hmem | hmem
    · exact ⟨children, hmem, hg, hall⟩
    · exact absurd hg (h children hmem)
  · exact fun hout ↦ hout.mono (List.subset_append_left _ _)

theorem isLeftOut_append_right (h : ∀ children ∈ sections, g ∉ groupsOf children) :
    IsLeftOut values (sections ++ sections') g ↔ IsLeftOut values sections' g := by
  constructor
  · rintro ⟨children, hmem, hg, hall⟩
    rcases List.mem_append.mp hmem with hmem | hmem
    · exact absurd hg (h children hmem)
    · exact ⟨children, hmem, hg, hall⟩
  · exact fun hout ↦ hout.mono (List.subset_append_right _ _)

end

mutual

/-- A tree is bound somewhere if one of its groups is. -/
theorem bindsSome_iff (values : Bindings) (n : Node) :
    n.bindsSome values = true ↔ ∃ g ∈ n.groups, values.contains g.name = true := by
  match n with
  | literal text tag => simp [bindsSome, groups]
  | group g => simp [bindsSome, groups]
  | sequence children tag => exact anyBindsSome_iff values children
  | optional children tag => exact anyBindsSome_iff values children

theorem anyBindsSome_iff (values : Bindings) (ns : List Node) :
    anyBindsSome values ns = true ↔ ∃ g ∈ groupsOf ns, values.contains g.name = true := by
  match ns with
  | [] => simp [anyBindsSome, groupsOf]
  | n :: ns =>
    simp only [anyBindsSome, groupsOf, Bool.or_eq_true, bindsSome_iff values n,
      anyBindsSome_iff values ns, List.mem_append, or_and_right, exists_or]

end

theorem anyBindsSome_eq_false_iff {values : Bindings} {ns : List Node} :
    anyBindsSome values ns = false ↔ ∀ g ∈ groupsOf ns, values.contains g.name = false := by
  rw [← Bool.not_eq_true, anyBindsSome_iff]
  simp

/-! ### When there is a text -/

/-- Trees in a row are written if each of them is. -/
theorem exists_generateAll_cons_iff {values : Bindings} {n : Node} {ns : List Node} :
    (∃ t, generateAll values (n :: ns) = .ok t) ↔
      (∃ t, n.generate values = .ok t) ∧ ∃ t, generateAll values ns = .ok t := by
  rw [generateAll]
  constructor
  · rintro ⟨t, h⟩
    obtain ⟨first, hfirst, h⟩ := bind_eq_ok.mp h
    obtain ⟨others, hothers, -⟩ := bind_eq_ok.mp h
    exact ⟨⟨first, hfirst⟩, ⟨others, hothers⟩⟩
  · rintro ⟨⟨first, hfirst⟩, ⟨others, hothers⟩⟩
    exact ⟨first ++ others, bind_eq_ok.mpr ⟨first, hfirst, bind_eq_ok.mpr ⟨others, hothers, rfl⟩⟩⟩

mutual

/-- A tree of groups with different names is written if every group without a value and without a
fallback stands in a section without values. -/
theorem exists_generate_iff {values : Bindings} (n : Node)
    (hnames : (n.groups.map Group.name).Nodup) :
    (∃ t, n.generate values = .ok t) ↔
      ∀ g ∈ n.groups, values.contains g.name = false → g.fallback? = none →
        IsLeftOut values n.sections g := by
  match n with
  | literal text tag => exact ⟨fun _ ↦ nofun, fun _ ↦ ⟨text, rfl⟩⟩
  | group g =>
    rw [generate, Group.exists_generate_iff, groups, List.forall_mem_singleton]
    constructor
    · exact fun h hvalue hfallback ↦ absurd hfallback (h hvalue)
    · intro h hvalue hfallback
      obtain ⟨children, hmem, -⟩ := h hvalue hfallback
      cases hmem
  | sequence children tag => exact exists_generateAll_iff children hnames
  | optional children tag =>
    rw [generate, groups, sections]
    split
    · next hbinds =>
      rw [exists_generateAll_iff children hnames]
      -- A section that is written leaves out only what sections inside of it leave out.
      refine forall₂_congr fun g hg ↦ forall₂_congr fun hvalue hfallback ↦
        ⟨fun h ↦ h.mono (List.subset_cons_self _ _), ?_⟩
      rintro ⟨children', hmem, hg', hall⟩
      rcases List.mem_cons.mp hmem with rfl | hmem
      · rw [anyBindsSome_eq_false_iff.mpr hall] at hbinds
        cases hbinds
      · exact ⟨children', hmem, hg', hall⟩
    · next hbinds =>
      rw [Bool.not_eq_true, anyBindsSome_eq_false_iff] at hbinds
      exact iff_of_true ⟨"", rfl⟩ fun g hg _ _ ↦ ⟨children, List.mem_cons_self, hg, hbinds⟩

theorem exists_generateAll_iff {values : Bindings} (ns : List Node)
    (hnames : ((groupsOf ns).map Group.name).Nodup) :
    (∃ t, generateAll values ns = .ok t) ↔
      ∀ g ∈ groupsOf ns, values.contains g.name = false → g.fallback? = none →
        IsLeftOut values (sectionsOf ns) g := by
  match ns with
  | [] => exact ⟨fun _ ↦ nofun, fun _ ↦ ⟨"", rfl⟩⟩
  | n :: ns =>
    rw [groupsOf, List.map_append, List.nodup_append] at hnames
    obtain ⟨hn, hns, hdisjoint⟩ := hnames
    rw [exists_generateAll_cons_iff, exists_generate_iff n hn, exists_generateAll_iff ns hns,
      groupsOf, sectionsOf, List.forall_mem_append]
    -- A group that stands on one side stands in no section of the other side.
    refine and_congr (forall₂_congr fun g hg ↦ ?_) (forall₂_congr fun g hg ↦ ?_)
    · rw [isLeftOut_append_left fun children hmem hin ↦ hdisjoint _ (List.mem_map_of_mem hg) _
        (List.mem_map_of_mem (mem_groupsOf_of_mem_sectionsOf hmem hin)) rfl]
    · rw [isLeftOut_append_right fun children hmem hin ↦ hdisjoint _
        (List.mem_map_of_mem (mem_groups_of_mem_sections hmem hin)) _ (List.mem_map_of_mem hg) rfl]

end

/-! ### What the text is -/

mutual

/-- A tree whose groups are written as texts of theirs is written as a text of the tree. -/
theorem mem_language_of_generate {values : Bindings} {n : Node}
    (hspells : ∀ g ∈ n.groups, ∀ u, g.generate values = .ok u → g.Spells u.toList) {t : String}
    (h : n.generate values = .ok t) : t.toList ∈ n.language := by
  match n with
  | literal text tag =>
    rw [generate] at h
    cases h
    exact rfl
  | group g => exact hspells g List.mem_cons_self t h
  | sequence children tag =>
    rw [language]
    exact mem_languageAll_of_generateAll hspells h
  | optional children tag =>
    rw [generate] at h
    rw [language]
    split at h
    · exact .inl (mem_languageAll_of_generateAll hspells h)
    · cases h
      exact .inr rfl

theorem mem_languageAll_of_generateAll {values : Bindings} {ns : List Node}
    (hspells : ∀ g ∈ groupsOf ns, ∀ u, g.generate values = .ok u → g.Spells u.toList) {t : String}
    (h : generateAll values ns = .ok t) : t.toList ∈ languageAll ns := by
  match ns with
  | [] =>
    cases h
    exact rfl
  | n :: ns =>
    obtain ⟨first, hfirst, h⟩ := bind_eq_ok.mp h
    obtain ⟨others, hothers, h⟩ := bind_eq_ok.mp h
    cases h
    rw [String.toList_append, languageAll]
    exact Language.append_mem_mul
      (mem_language_of_generate (fun g hg ↦ hspells g (List.mem_append_left _ hg)) hfirst)
      (mem_languageAll_of_generateAll (fun g hg ↦ hspells g (List.mem_append_right _ hg)) hothers)

end

mutual

/-- A tree with a value is not written as the empty text, as no group is. -/
theorem generate_ne_empty {values : Bindings} {n : Node}
    (hspells : ∀ g ∈ n.groups, ∀ u, g.generate values = .ok u → g.Spells u.toList)
    (hbinds : n.bindsSome values = true) {t : String} (h : n.generate values = .ok t) : t ≠ "" := by
  match n with
  | literal text tag => cases hbinds
  | group g =>
    rintro rfl
    exact (hspells g List.mem_cons_self "" h).ne_nil rfl
  | sequence children tag => exact generateAll_ne_empty hspells hbinds h
  | optional children tag =>
    have hbinds : anyBindsSome values children = true := hbinds
    rw [generate, if_pos hbinds] at h
    exact generateAll_ne_empty hspells hbinds h

theorem generateAll_ne_empty {values : Bindings} {ns : List Node}
    (hspells : ∀ g ∈ groupsOf ns, ∀ u, g.generate values = .ok u → g.Spells u.toList)
    (hbinds : anyBindsSome values ns = true) {t : String} (h : generateAll values ns = .ok t) :
    t ≠ "" := by
  match ns with
  | [] => cases hbinds
  | n :: ns =>
    obtain ⟨first, hfirst, h⟩ := bind_eq_ok.mp h
    obtain ⟨others, hothers, h⟩ := bind_eq_ok.mp h
    cases h
    rw [ne_eq, String.append_eq_empty_iff, not_and_or]
    rcases Bool.or_eq_true_iff.mp hbinds with hbinds | hbinds
    · exact .inl (generate_ne_empty (fun g hg ↦ hspells g (List.mem_append_left _ hg)) hbinds
        hfirst)
    · exact .inr (generateAll_ne_empty (fun g hg ↦ hspells g (List.mem_append_right _ hg)) hbinds
        hothers)

end

end Node

/-! ### Values of a match -/

namespace Group

variable {g : Group} {captured : String → Option String}

/-- The value of a group is written as a text of the group, given that its fallback is if it is
needed. -/
theorem spells_result (hg : g.IsBuiltin) (hne : captured g.captureName ≠ some "")
    (haccept : g.refusal? captured = none)
    (hfallback : captured g.captureName = none → g.SpellsFallback) {e : GroupValue}
    (he : g.result? captured = some e) : g.Spells (g.type.format e.value).toList := by
  cases hcap : captured g.captureName with
  | none =>
    obtain ⟨raw, hraw, hconv⟩ := result?_of_uncaptured hg.usesConvert hcap he
    exact hfallback hcap raw e.value hraw hconv
  | some t =>
    have ht : t ≠ "" := fun heq ↦ hne (heq ▸ hcap)
    obtain ⟨v, hv, hconv, hholds⟩ := result?_of_captured hg.usesConvert hcap ht haccept
    rw [hv] at he
    cases he
    exact spells_format hg hconv hholds

end Group

namespace Pattern

variable {p : Pattern} {s : String} {r : MatchResult}

/-- What is known of the result of a match without errors. -/
structure IsAccepted (p : Pattern) (captured : String → Option String) (r : MatchResult) :
    Prop where
  nonempty : ∀ g ∈ p.tree.groups, captured g.captureName ≠ some ""
  accepted : ∀ g ∈ p.tree.groups, g.refusal? captured = none
  values : ∀ g ∈ p.tree.groups, r.values.get? g.name = (g.result? captured).map (·.value)
  others : ∀ name, name ∉ p.tree.groups.map Group.name → r.groups.get? name = none

theorem IsDerived.isAccepted (hp : p.IsDerived) (hmatch : p.match? s = some r)
    (herrors : r.errors = []) :
    ∃ captures, p.regex.captures? s = some captures ∧
      p.IsAccepted (Regex.capturedText? captures) r := by
  obtain ⟨-, captures, hcap, hvalues, hothers, hrefusals⟩ := match?_eq_some hmatch
  rw [herrors] at hrefusals
  refine ⟨captures, hcap, fun g hg hempty ↦ ?_, ?_, hvalues, hothers⟩
  · exact hp.ne_empty_of_captured hcap hg hempty rfl
  · exact List.filterMap_eq_nil_iff.mp hrefusals.symm

namespace IsAccepted

variable {captured : String → Option String}

/-- A group without a value captured nothing and has no fallback. -/
theorem uncaptured (h : p.IsAccepted captured r) {g : Group} (hg : g ∈ p.tree.groups)
    (hvalue : r.values.contains g.name = false) :
    captured g.captureName = none ∧ g.fallback? = none := by
  rw [Table.contains, h.values g hg, Option.isSome_map, Option.isSome_eq_false_iff,
    Option.isNone_iff_eq_none] at hvalue
  exact Group.fallback?_eq_none (h.nonempty g hg) hvalue (h.accepted g hg)

/-- A group that captured nothing and has no fallback is without a value. -/
theorem contains_eq_false (h : p.IsAccepted captured r) {g : Group} (hg : g ∈ p.tree.groups)
    (hcap : captured g.captureName = none) (hfallback : g.fallback? = none) :
    r.values.contains g.name = false := by
  rw [Table.contains, h.values g hg, Option.isSome_map, Option.isSome_eq_false_iff,
    Option.isNone_iff_eq_none, Group.result?, Group.outcome?_of_uncaptured hcap, hfallback]
  rfl

/-- What a group is written as is a text of the group, given that a fallback that is needed is. -/
theorem spells_generate (h : p.IsAccepted captured r) (hp : p.IsDerived)
    (hfallbacks : ∀ g ∈ p.tree.groups, captured g.captureName = none → g.SpellsFallback) {g : Group}
    (hg : g ∈ p.tree.groups) {u : String} (hu : g.generate r.values = .ok u) :
    g.Spells u.toList := by
  rw [Group.generate] at hu
  cases hvalue : r.values.get? g.name with
  | some v =>
    rw [hvalue] at hu
    cases hu
    rw [h.values g hg] at hvalue
    obtain ⟨e, he, rfl⟩ := Option.map_eq_some_iff.mp hvalue
    exact Group.spells_result (hp.builtin g hg) (h.nonempty g hg) (h.accepted g hg)
      (hfallbacks g hg) he
  | none =>
    have hnone : r.values.contains g.name = false := by rw [Table.contains, hvalue]; rfl
    rw [hvalue, (h.uncaptured hg hnone).2] at hu
    cases hu

/-- Only groups of the pattern have values. -/
theorem exists_bound (h : p.IsAccepted captured r) (hne : r.groups ≠ ∅) :
    ∃ g ∈ p.tree.groups, r.values.contains g.name = true := by
  by_contra hnone
  refine hne (Table.ext_get? fun name ↦ ?_)
  by_cases hname : name ∈ p.tree.groups.map Group.name
  · obtain ⟨g, hg, rfl⟩ := List.mem_map.mp hname
    have hunbound : ¬ r.values.contains g.name = true := fun hbound ↦ hnone ⟨g, hg, hbound⟩
    rw [Table.contains, MatchResult.values, Table.get?_map, Option.isSome_map,
      Bool.not_eq_true, Option.isSome_eq_false_iff, Option.isNone_iff_eq_none] at hunbound
    exact hunbound
  · exact h.others name hname

end IsAccepted

end Pattern

namespace Compiler

variable {pipeline : Pipeline} {source : String} {p : Pattern}

/-- What a test finds of a compiled pattern and of a match without errors. -/
private theorem exists_accepted_of_any {s : String} {test : Pattern → MatchResult → Bool}
    (h : (standard.compile source).toOption.any (fun p ↦
      (p.match? s).any fun r ↦ r.errors.isEmpty && test p r) = true) :
    ∃ p r, standard.compile source = .ok p ∧ p.match? s = some r ∧ r.errors = [] ∧
      test p r = true := by
  obtain ⟨p, hp, htest⟩ := exists_ok_of_any h
  obtain ⟨r, hr, htest⟩ := (Option.any_eq_true ..).mp htest
  obtain ⟨herrors, htest⟩ := Bool.and_eq_true_iff.mp htest
  exact ⟨p, r, hp, hr, List.isEmpty_iff.mp herrors, htest⟩

/-- The values of a match without errors are written again exactly if every group without a value
stands in a section without values, so in any case if no fallback was needed. If the fallbacks that
were needed are texts of their groups, the pattern matches what is written unless it is the empty
text, which it is not if some group has a value. `SPEC_FULL.md:94`. -/
theorem generate_matched (h : (⟨.builtin, pipeline⟩ : Compiler).compile source = .ok p) {s : String}
    {r : MatchResult} (hmatch : p.match? s = some r) (herrors : r.errors = []) :
    ((∃ t, p.generate r.values = .ok t) ↔
        ∀ g ∈ p.tree.groups, r.values.contains g.name = false →
          Node.IsLeftOut r.values p.tree.sections g) ∧
      ∃ captures, p.regex.captures? s = some captures ∧
        ((∀ g ∈ p.tree.groups, Regex.capturedText? captures g.captureName = none →
            g.fallback? = none) →
          ∃ t, p.generate r.values = .ok t) ∧
        ∀ t, p.generate r.values = .ok t →
          (∀ g ∈ p.tree.groups, Regex.capturedText? captures g.captureName = none →
            g.SpellsFallback) →
          (p.isMatch t = true ↔ t ≠ "") ∧ (r.groups ≠ ∅ → t ≠ "") := by
  have hp := isDerived_of_compile h
  obtain ⟨captures, hcap, hr⟩ := hp.isAccepted hmatch herrors
  have hsuccess : (∃ t, p.generate r.values = .ok t) ↔
      ∀ g ∈ p.tree.groups, r.values.contains g.name = false →
        Node.IsLeftOut r.values p.tree.sections g := by
    rw [Pattern.generate, Node.exists_generate_iff p.tree p.names_nodup]
    exact forall₂_congr fun g hg ↦ forall_congr' fun hvalue ↦
      ⟨fun hout ↦ hout (hr.uncaptured hg hvalue).2, fun hout _ ↦ hout⟩
  refine ⟨hsuccess, captures, hcap, fun hfallbacks ↦ ?_, fun t ht hfallbacks ↦ ?_⟩
  · rw [hsuccess]
    intro g hg hvalue
    obtain ⟨d, hbest, hgroups⟩ := hp.dividesBest_of_captures? hcap
    obtain ⟨children, habsent, hin⟩ := (hgroups g hg).2.mp (hr.uncaptured hg hvalue).1
    have hsection := hbest.divides.fits habsent
    refine ⟨children, hsection, hin, fun g' hg' ↦ ?_⟩
    have hg'' := Node.mem_groups_of_mem_sections hsection hg'
    have hnothing := (hgroups g' hg'').2.mpr ⟨children, habsent, hg'⟩
    exact hr.contains_eq_false hg'' hnothing (hfallbacks g' hg'' hnothing)
  · have hspells : ∀ g ∈ p.tree.groups, ∀ u, g.generate r.values = .ok u → g.Spells u.toList :=
      fun g hg u hu ↦ hr.spells_generate hp hfallbacks hg hu
    refine ⟨?_, fun hne ↦ ?_⟩
    · rw [hp.isMatch_iff]
      exact and_iff_left (Node.mem_language_of_generate hspells ht)
    · exact Node.generate_ne_empty hspells ((Node.bindsSome_iff _ _).mpr (hr.exists_bound hne)) ht

/-- A section comes back with the fallback of its group. -/
theorem generate_matched_fallback :
    ∃ p r, standard.compile "a(-\x7bn:int(max=9,default=7)\x7d)" = .ok p ∧
      p.match? "a" = some r ∧ r.errors = [] ∧ p.generate r.values = .ok "a-7" ∧
      p.isMatch "a-7" = true := by
  have htest : (standard.compile "a(-\x7bn:int(max=9,default=7)\x7d)").toOption.any (fun p ↦
      (p.match? "a").any fun r ↦ r.errors.isEmpty && (p.generate r.values == .ok "a-7"
        && p.tree.groups.all fun g ↦ (g.fallback?.bind g.type.convert?).all fun v ↦
          g.constraints.all fun c ↦ c.holds v)) = true := by
    decide +kernel
  obtain ⟨p, r, hp, hmatch, herrors, htest⟩ := exists_accepted_of_any htest
  obtain ⟨hgenerate, hall⟩ := Bool.and_eq_true_iff.mp htest
  obtain ⟨-, captures, -, -, hmatched⟩ := generate_matched hp hmatch herrors
  have hfallbacks : ∀ g ∈ p.tree.groups, g.SpellsFallback := by
    intro g hg raw v hraw hconv
    have hholds := List.all_eq_true.mp hall g hg
    rw [hraw, Option.bind_some, hconv, Option.all_some, List.all_eq_true] at hholds
    exact Group.spells_format ((isDerived_of_compile hp).builtin g hg) hconv hholds
  have hresult := eq_of_beq hgenerate
  exact ⟨p, r, hp, hmatch, herrors, hresult,
    (hmatched "a-7" hresult fun g hg _ ↦ hfallbacks g hg).1.mpr (by decide)⟩

/-- The three ways in which a pattern may fail to match what is written of a match: a section that
comes back with a fallback lacks another value, a fallback is too wide for its group, or the text is
empty. -/
theorem exists_generate_unmatched :
    (∃ p r, standard.compile "a(-\x7bx:int\x7d-\x7by:int(default=1)\x7d)" = .ok p ∧
      p.match? "a" = some r ∧ r.errors = [] ∧ p.generate r.values = .error (.missingValue "x")) ∧
    (∃ p r, standard.compile "a(\x7bn:int(max=9,default=10)\x7d)" = .ok p ∧
      p.match? "a" = some r ∧ r.errors = [] ∧ p.generate r.values = .ok "a10" ∧
      p.isMatch "a10" = false) ∧
    ∃ p r, standard.compile "(x)" = .ok p ∧ p.match? "x" = some r ∧ r.errors = [] ∧
      p.generate r.values = .ok "" ∧ p.isMatch "" = false := by
  have unmatched : ∀ {source s t : String},
      (standard.compile source).toOption.any (fun p ↦ (p.match? s).any fun r ↦
        r.errors.isEmpty && (p.generate r.values == .ok t && !p.isMatch t)) = true →
      ∃ p r, standard.compile source = .ok p ∧ p.match? s = some r ∧ r.errors = [] ∧
        p.generate r.values = .ok t ∧ p.isMatch t = false := by
    intro source s t htest
    obtain ⟨p, r, hp, hmatch, herrors, htest⟩ := exists_accepted_of_any htest
    obtain ⟨hgenerate, hnot⟩ := Bool.and_eq_true_iff.mp htest
    exact ⟨p, r, hp, hmatch, herrors, eq_of_beq hgenerate, by simpa using hnot⟩
  refine ⟨?_, unmatched (by decide +kernel), unmatched (by decide +kernel)⟩
  have htest : (standard.compile "a(-\x7bx:int\x7d-\x7by:int(default=1)\x7d)").toOption.any
      (fun p ↦ (p.match? "a").any fun r ↦
        r.errors.isEmpty && p.generate r.values == .error (.missingValue "x")) = true := by
    decide +kernel
  obtain ⟨p, r, hp, hmatch, herrors, htest⟩ := exists_accepted_of_any htest
  exact ⟨p, r, hp, hmatch, herrors, eq_of_beq htest⟩

end Compiler

end UrlPattern
