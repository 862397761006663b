import UrlPattern.Proofs.Chain
import UrlPattern.Proofs.GeneratedText

/-!
# Matching what was written

Values that are written and matched again are found again if the written text divides in one way
only, as it does along a chain. The values are to be those of all groups that stand in no more than
a given number of sections. So the sections are written from the outermost one inwards and no
written group lacks a value, which means that no fallback is written. The groups of the sections
that are left out are given their fallbacks by the match.

Specification: `SPEC_FULL.md` §8 (line 94).
-/

namespace UrlPattern

namespace Node

/-! ### Groups by their sections -/

mutual

/-- The groups of a tree, each with the number of sections that it stands in, given the number of
those that the tree stands in. -/
def leveled (depth : Nat) : Node → List (Nat × Group)
  | literal .. => []
  | group g => [(depth, g)]
  | sequence children _ => leveledAll depth children
  | optional children _ => leveledAll (depth + 1) children

/-- The groups of several trees with the number of sections that they stand in. -/
def leveledAll (depth : Nat) : List Node → List (Nat × Group)
  | [] => []
  | n :: ns => n.leveled depth ++ leveledAll depth ns

end

mutual

/-- These are all groups of the tree. -/
theorem map_snd_leveled (depth : Nat) (n : Node) : (n.leveled depth).map (·.2) = n.groups := by
  match n with
  | literal text tag => rfl
  | group g => rfl
  | sequence children tag => exact map_snd_leveledAll depth children
  | optional children tag => exact map_snd_leveledAll (depth + 1) children

theorem map_snd_leveledAll (depth : Nat) (ns : List Node) :
    (leveledAll depth ns).map (·.2) = groupsOf ns := by
  match ns with
  | [] => rfl
  | n :: ns =>
    rw [leveledAll, List.map_append, map_snd_leveled depth n, map_snd_leveledAll depth ns, groupsOf]

end

mutual

/-- The sections around a tree are around its groups. -/
theorem le_of_mem_leveled {depth : Nat} {n : Node} {e : Nat × Group} (h : e ∈ n.leveled depth) :
    depth ≤ e.1 := by
  match n with
  | literal text tag => cases h
  | group g =>
    rw [List.mem_singleton.mp h]
  | sequence children tag => exact le_of_mem_leveledAll h
  | optional children tag => exact Nat.le_of_succ_le (le_of_mem_leveledAll h)

theorem le_of_mem_leveledAll {depth : Nat} {ns : List Node} {e : Nat × Group}
    (h : e ∈ leveledAll depth ns) : depth ≤ e.1 := by
  match ns with
  | [] => cases h
  | n :: ns =>
    rcases List.mem_append.mp h with h | h
    · exact le_of_mem_leveled h
    · exact le_of_mem_leveledAll h

end

mutual

/-- The groups outside the sections of a tree stand in as many sections as the tree. -/
theorem mem_leveled_of_mem_outerGroups {depth : Nat} {n : Node} {g : Group}
    (h : g ∈ n.outerGroups) : (depth, g) ∈ n.leveled depth := by
  match n with
  | literal text tag => cases h
  | group g' =>
    rw [List.mem_singleton.mp h]
    exact List.mem_cons_self
  | sequence children tag => exact mem_leveledAll_of_mem_outerGroupsOf h
  | optional children tag => cases h

theorem mem_leveledAll_of_mem_outerGroupsOf {depth : Nat} {ns : List Node} {g : Group}
    (h : g ∈ outerGroupsOf ns) : (depth, g) ∈ leveledAll depth ns := by
  match ns with
  | [] => cases h
  | n :: ns =>
    rcases List.mem_append.mp h with h | h
    · exact List.mem_append_left _ (mem_leveled_of_mem_outerGroups h)
    · exact List.mem_append_right _ (mem_leveledAll_of_mem_outerGroupsOf h)

end

mutual

/-- What stands in a section of a tree stands in a certain number of sections. -/
theorem exists_leveledAll_subset (depth : Nat) {n : Node} {children : List Node}
    (h : children ∈ n.sections) : ∃ inside, leveledAll inside children ⊆ n.leveled depth := by
  match n with
  | literal text tag => cases h
  | group g => cases h
  | sequence ns tag => exact exists_leveledAll_subset_of_sectionsOf depth h
  | optional ns tag =>
    rcases List.mem_cons.mp h with rfl | h
    · exact ⟨depth + 1, List.Subset.refl _⟩
    · exact exists_leveledAll_subset_of_sectionsOf (depth + 1) h

theorem exists_leveledAll_subset_of_sectionsOf (depth : Nat) {ns children : List Node}
    (h : children ∈ sectionsOf ns) :
    ∃ inside, leveledAll inside children ⊆ leveledAll depth ns := by
  match ns with
  | [] => cases h
  | n :: ns =>
    rcases List.mem_append.mp h with h | h
    · obtain ⟨inside, hsub⟩ := exists_leveledAll_subset depth h
      exact ⟨inside, List.subset_append_of_subset_left _ hsub⟩
    · obtain ⟨inside, hsub⟩ := exists_leveledAll_subset_of_sectionsOf depth h
      exact ⟨inside, List.subset_append_of_subset_right _ hsub⟩

end

/-! ### Division of what is written -/

/-- A tree is written and divided into its values, given that those groups have a value that stand
in no more than so many sections. -/
theorem exists_generate_divides {values : Bindings} {most depth : Nat} (n : Node)
    (hdepth : depth ≤ most)
    (hbinds : ∀ e ∈ n.leveled depth, values.contains e.2.name = true ↔ e.1 ≤ most)
    (hspells : ∀ g ∈ n.groups, ∀ v, values.get? g.name = some v →
      g.Spells (g.type.format v).toList) :
    ∃ t d, n.generate values = .ok t ∧ n.Divides d ∧ d.text = t.toList ∧
      ∀ piece ∈ d, piece.IsOf values := by
  refine exists_generate_divides_of_outer n (fun g hg ↦ ?_) (fun children hmem hsome g hg ↦ ?_)
    hspells
  · exact (hbinds (depth, g) (mem_leveled_of_mem_outerGroups hg)).mpr hdepth
  · -- Some group in the section has a value, so all that stand directly in it do.
    obtain ⟨inside, hsub⟩ := exists_leveledAll_subset depth hmem
    obtain ⟨g', hg', hbound⟩ := (anyBindsSome_iff values children).mp hsome
    rw [← map_snd_leveledAll inside children] at hg'
    obtain ⟨e, he, rfl⟩ := List.mem_map.mp hg'
    have hinside : inside ≤ most :=
      Nat.le_trans (le_of_mem_leveledAll he) ((hbinds e (hsub he)).mp hbound)
    exact (hbinds (inside, g) (hsub (mem_leveledAll_of_mem_outerGroupsOf hg))).mpr hinside

end Node

namespace Pattern

variable {p : Pattern} {values : Bindings} {t : String} {d : Division}

/-- With values for the groups in no more than so many sections, a group has a value exactly if it
is one of them, as the names are different. -/
theorem contains_level_iff {most : Nat}
    (hbinds : ∀ name, values.contains name = true ↔
      ∃ e ∈ p.tree.leveled 0, e.1 ≤ most ∧ e.2.name = name) :
    ∀ e ∈ p.tree.leveled 0, values.contains e.2.name = true ↔ e.1 ≤ most := by
  intro e he
  rw [hbinds]
  refine ⟨?_, fun hle ↦ ⟨e, he, hle, rfl⟩⟩
  rintro ⟨e', he', hle, hname⟩
  have hnames := p.names_nodup
  rw [← Node.map_snd_leveled 0 p.tree, List.map_map] at hnames
  rwa [← List.inj_on_of_nodup_map hnames he' he hname]

/-- The match of a text that divides in one way only, and that into values, finds these values. The
groups without one get their fallbacks. -/
theorem IsDerived.match?_of_unique (hp : p.IsDerived) (ht : t ≠ "") (hd : p.tree.Divides d)
    (htext : d.text = t.toList) (hunique : ∀ e, p.tree.Divides e → e.text = t.toList → e = d)
    (hpieces : ∀ piece ∈ d, piece.IsOf values)
    (hvalues : ∀ g ∈ p.tree.groups, ∀ v, values.get? g.name = some v →
      g.type.parseValue (some (g.type.format v)) g.constraints = .ok v) :
    ∃ r, p.match? t = some r ∧ r.errors = [] ∧
      (∀ g ∈ p.tree.groups, r.values.get? g.name
        = (values.get? g.name).or (g.fallback?.bind g.type.convert?)) ∧
      ∀ name, name ∉ p.tree.groups.map Group.name → r.values.get? name = none := by
  have hmatch : p.isMatch t = true :=
    (hp.isMatch_iff t).mpr ⟨ht, (Node.mem_language _ _).mpr ⟨d, hd, htext⟩⟩
  rw [← isSome_match?] at hmatch
  obtain ⟨r, hr⟩ := Option.isSome_iff_exists.mp hmatch
  obtain ⟨-, captures, hcap, hentries, hothers, herrors⟩ := match?_eq_some hr
  obtain ⟨e, hbest, hgroups⟩ := hp.dividesBest_of_captures? hcap
  obtain rfl := hunique e hbest.divides hbest.text_eq
  have haccepted : ∀ g ∈ p.tree.groups, g.refusal? (Regex.capturedText? captures) = none ∧
      (g.result? (Regex.capturedText? captures)).map (·.value)
        = (values.get? g.name).or (g.fallback?.bind g.type.convert?) := by
    intro g hg
    cases hcaptured : Regex.capturedText? captures g.captureName with
    | none =>
      obtain ⟨children, habsent, hin⟩ := (hgroups g hg).2.mp hcaptured
      have hunbound : values.get? g.name = none :=
        Option.isNone_iff_eq_none.mp (Option.isSome_eq_false_iff.mp (hpieces _ habsent g hin))
      rw [hunbound, Option.none_or]
      exact Group.accepted_of_uncaptured (hp.builtin g hg).usesConvert hcaptured
    | some u =>
      have hpiece : .group g u.toList ∈ e :=
        ((hgroups g hg).1 u.toList).mp (by rw [String.ofList_toList, hcaptured])
      obtain ⟨v, hv, hu⟩ := hpieces _ hpiece
      obtain rfl := String.toList_inj.mp hu
      have hne : g.type.format v ≠ "" := fun hempty ↦
        (hd.spells hpiece).ne_nil (String.toList_eq_nil_iff.mpr hempty)
      rw [hv, Option.some_or]
      exact Group.accepted_of_captured hcaptured hne (hvalues g hg v hv)
  refine ⟨r, hr, ?_, fun g hg ↦ (hentries g hg).trans (haccepted g hg).2, fun name hname ↦ ?_⟩
  · rw [herrors, List.filterMap_eq_nil_iff]
    exact fun g hg ↦ (haccepted g hg).1
  · rw [MatchResult.values, Table.get?_map, hothers name hname, Option.map_none]

end Pattern

namespace Compiler

variable {pipeline : Pipeline} {source : String} {p : Pattern}

/-- A text divides along a compiled chain in at most one way. -/
theorem divides_unique_of_chain (h : (⟨.builtin, pipeline⟩ : Compiler).compile source = .ok p)
    {children : List Node} (hroot : p.tree.children? = some children)
    (hchain : Node.IsChain children) {d e : Division} (hd : p.tree.Divides d)
    (he : p.tree.Divides e) (htext : d.text = e.text) : d = e := by
  obtain ⟨named, hcheck, -, htree, -⟩ := compile_eq_ok h
  obtain ⟨⟨children', last, hread, hnamed⟩, -⟩ := check_eq_ok hcheck
  rw [htree, hnamed] at hroot hd he
  obtain rfl : children' = children := Option.some.inj hroot
  exact hchain.divides_unique (hread.areWellFormed nofun) hd he htext

/-- Along a chain, the values of all groups in no more than so many sections are written, and the
match of what is written finds these values and no errors, unless it is the empty text. The other
groups get the values that their fallbacks denote. `SPEC_FULL.md:94`. -/
theorem match?_generate (h : (⟨.builtin, pipeline⟩ : Compiler).compile source = .ok p)
    {children : List Node} (hroot : p.tree.children? = some children)
    (hchain : Node.IsChain children) {most : Nat} {values : Bindings}
    (hbinds : ∀ name, values.contains name = true ↔
      ∃ e ∈ p.tree.leveled 0, e.1 ≤ most ∧ e.2.name = name)
    (hvalues : ∀ g ∈ p.tree.groups, ∀ v, values.get? g.name = some v →
      g.type.parseValue (some (g.type.format v)) g.constraints = .ok v) :
    ∃ t, p.generate values = .ok t ∧ (t ≠ "" → ∃ r, p.match? t = some r ∧ r.errors = [] ∧
      (∀ g ∈ p.tree.groups, (∀ raw ∈ g.fallback?, (g.type.convert? raw).isSome) ∧
        r.values.get? g.name = (values.get? g.name).or (g.fallback?.bind g.type.convert?)) ∧
      ∀ name, name ∉ p.tree.groups.map Group.name → r.values.get? name = none) := by
  have hp := isDerived_of_compile h
  obtain ⟨t, d, ht, hd, htext, hpieces⟩ :=
    Node.exists_generate_divides p.tree (Nat.zero_le most)
      (Pattern.contains_level_iff hbinds) (hp.spells_format hvalues)
  refine ⟨t, ht, fun hne ↦ ?_⟩
  have hunique : ∀ e, p.tree.Divides e → e.text = t.toList → e = d := fun e he heq ↦
    divides_unique_of_chain h hroot hchain he hd (heq.trans htext.symm)
  obtain ⟨r, hr, herrors, hgroups, hothers⟩ :=
    hp.match?_of_unique hne hd htext hunique hpieces hvalues
  refine ⟨r, hr, herrors, fun g hg ↦ ⟨fun raw hraw ↦ ?_, hgroups g hg⟩, hothers⟩
  obtain ⟨v, hconv, -⟩ := Group.exists_parseValue_none (hp.builtin g hg).usesConvert hraw
  rw [hconv]
  rfl

/-- A page whose language is left out is matched with the language of the fallback. -/
theorem match?_generate_page :
    ∃ p r, standard.compile
        "PAGE\x7buid:int(min=1)\x7d(-\x7blang:int(min=0,default=0)\x7d)" = .ok p ∧
      p.generate (Table.ofList [("uid", .int 7)]) = .ok "PAGE7" ∧ p.match? "PAGE7" = some r ∧
      r.errors = [] ∧ r.values.get? "uid" = some (.int 7) ∧
      r.values.get? "lang" = some (.int 0) := by
  let values : Bindings := Table.ofList [("uid", .int 7)]
  have htest : (standard.compile
      "PAGE\x7buid:int(min=1)\x7d(-\x7blang:int(min=0,default=0)\x7d)").toOption.any (fun p ↦
        p.tree.children?.any (decide <| Node.IsChain ·) &&
        (((p.tree.leveled 0).filter (·.1 ≤ 0)).map (·.2.name) == values.keys &&
        (p.tree.groups.all (fun g ↦ (values.get? g.name).all fun v ↦
          g.type.parseValue (some (g.type.format v)) g.constraints == .ok v) &&
        (p.generate values == .ok "PAGE7" &&
        p.tree.groups.map (fun g ↦ (g.name, g.fallback?.bind g.type.convert?))
          == [("uid", none), ("lang", some (.int 0))])))) = true := by
    decide +kernel
  obtain ⟨p, hp, htest⟩ := exists_ok_of_any htest
  simp only [Bool.and_eq_true, beq_iff_eq, List.all_eq_true] at htest
  obtain ⟨hchain, hbinds, hvalues, hgenerate, hgroups⟩ := htest
  obtain ⟨children, hroot, hchain⟩ := (Option.any_eq_true ..).mp hchain
  have hbound : ∀ name, values.contains name = true ↔
      ∃ e ∈ p.tree.leveled 0, e.1 ≤ 0 ∧ e.2.name = name := by
    intro name
    rw [Table.contains_iff_mem_keys, ← hbinds]
    simp [and_assoc]
  have hparse : ∀ g ∈ p.tree.groups, ∀ v, values.get? g.name = some v →
      g.type.parseValue (some (g.type.format v)) g.constraints = .ok v := by
    intro g hg v hv
    have hall := hvalues g hg
    rwa [hv, Option.all_some, beq_iff_eq] at hall
  obtain ⟨t, ht, hmatch⟩ := match?_generate hp hroot (of_decide_eq_true hchain) hbound hparse
  obtain rfl : t = "PAGE7" := Except.ok.inj (ht.symm.trans hgenerate)
  obtain ⟨r, hr, herrors, hfound, -⟩ := hmatch (by decide)
  have hentry : ∀ {name : String} {fallback : Option Value},
      (name, fallback) ∈ p.tree.groups.map (fun g ↦ (g.name, g.fallback?.bind g.type.convert?)) →
        r.values.get? name = (values.get? name).or fallback := by
    intro name fallback hmem
    obtain ⟨g, hg, heq⟩ := List.mem_map.mp hmem
    cases heq
    exact (hfound g hg).2
  rw [hgroups] at hentry
  have huid := hentry List.mem_cons_self
  have hlang := hentry (List.mem_cons_of_mem _ List.mem_cons_self)
  exact ⟨p, r, hp, hgenerate, hr, herrors, huid.trans (by decide), hlang.trans (by decide)⟩

end Compiler

end UrlPattern
