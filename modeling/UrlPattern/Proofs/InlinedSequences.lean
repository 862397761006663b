import UrlPattern.Proofs.DerivedExpression
import UrlPattern.Proofs.GeneratedText
import UrlPattern.Proofs.MandatoryLiterals
import UrlPattern.Proofs.ProperRange
import UrlPattern.Proofs.SiblingGroups

/-!
# Sequences in line

A plain sequence in a tree means what its children mean in its place. So a tree can be written
without nested sequences (`Node.unnested`): its expression, its groups, its texts, the check of
greedy groups and its analysis stay the same (`Node.unnested_eq`).

Each of these goes over a row of siblings from left to right with something in hand: the text so
far, the greedy group before, the analysis of what stands before. A nested sequence starts its own
analysis from nothing, which is then put behind the one in hand. Both ways agree since putting
analyses one behind the other is associative, also where lengths are cut off
(`Analysis.followedBy_assoc`).

Specification: `SPEC_FULL.md` §4.3 (lines 50–51).
-/

namespace UrlPattern

/-! ### Analyses one behind the other -/

namespace Analysis

variable {ceiling : Nat} {a b c : Analysis}

theorem followedBy_assoc : (a.followedBy ceiling b).followedBy ceiling c
    = a.followedBy ceiling (b.followedBy ceiling c) := by
  have hmin : min (min (a.minLen + b.minLen) ceiling + c.minLen) ceiling
      = min (a.minLen + min (b.minLen + c.minLen) ceiling) ceiling := by omega
  have hmax : min (min (a.maxLen + b.maxLen) ceiling + c.maxLen) ceiling
      = min (a.maxLen + min (b.maxLen + c.maxLen) ceiling) ceiling := by omega
  have hliterals : ((a.followedBy ceiling b).followedBy ceiling c).literals
      = (a.followedBy ceiling (b.followedBy ceiling c)).literals := by
    apply Table.ext_get?
    intro text
    simp only [get?_literals_followedBy]
    cases a.literals.get? text <;> cases b.literals.get? text <;> cases c.literals.get? text <;>
      simp [Bool.and_assoc]
  have hchars : (a.chars.union b.chars).union c.chars = a.chars.union (b.chars.union c.chars) := by
    apply ByteSet.ext_contains
    intro byte
    simp only [ByteSet.contains_union, Bool.or_assoc]
  exact (mk.injEq ..).mpr ⟨hmin, hmax, hliterals, hchars⟩

/-- Nothing behind what has a proper range leaves it as it is. -/
theorem IsProper.followedBy_empty (h : a.IsProper ceiling) : a.followedBy ceiling empty = a := by
  obtain ⟨hle, hceiling⟩ := h
  have hmin : min (a.minLen + 0) ceiling = a.minLen := by omega
  have hmax : min (a.maxLen + 0) ceiling = a.maxLen := by omega
  have hchars : a.chars.union ByteSet.empty = a.chars := by
    apply ByteSet.ext_contains
    intro byte
    rw [ByteSet.contains_union, ByteSet.contains_empty, Bool.or_false]
  cases a
  exact (mk.injEq ..).mpr ⟨hmin, hmax, rfl, hchars⟩

end Analysis

namespace Node

variable {options : AnalysisOptions} {before : Analysis}

theorem analysisFrom_append (ns ns' : List Node) :
    analysisFrom options before (ns ++ ns')
      = analysisFrom options (analysisFrom options before ns) ns' := by
  induction ns generalizing before with
  | nil => rfl
  | cons n ns ih => exact ih

/-- A row that is analyzed by itself is put behind what stands before as a whole. -/
theorem followedBy_analysisFrom (a : Analysis) (ns : List Node) :
    a.followedBy options.ceiling (analysisFrom options before ns)
      = analysisFrom options (a.followedBy options.ceiling before) ns := by
  induction ns generalizing before with
  | nil => rfl
  | cons n ns ih => rw [analysisFrom, analysisFrom, ih, Analysis.followedBy_assoc]

/-! ### Rows that mean the same -/

theorem fragments_append (ns ns' : List Node) :
    fragments (ns ++ ns') = fragments ns ++ fragments ns' := by
  induction ns with
  | nil => exact (String.empty_append ..).symm
  | cons n ns ih => rw [List.cons_append, fragments, fragments, ih, String.append_assoc]

theorem areDerived_append {ns ns' : List Node} :
    AreDerived (ns ++ ns') ↔ AreDerived ns ∧ AreDerived ns' := by
  induction ns with
  | nil => exact (iff_of_eq (true_and _)).symm
  | cons n ns ih => rw [List.cons_append, AreDerived, AreDerived, ih, and_assoc]

theorem generateAll_append {values : Bindings} (ns ns' : List Node) :
    generateAll values (ns ++ ns') = do
      let first ← generateAll values ns
      let others ← generateAll values ns'
      return first ++ others := by
  induction ns with
  | nil =>
    rw [List.nil_append, generateAll]
    cases generateAll values ns' with
    | error e => rfl
    | ok others => exact congrArg Except.ok (String.empty_append ..).symm
  | cons n ns ih =>
    rw [List.cons_append, generateAll, generateAll, ih]
    cases n.generate values with
    | error e => rfl
    | ok first =>
      cases generateAll values ns with
      | error e => rfl
      | ok inner =>
        cases generateAll values ns' with
        | error e => rfl
        | ok others => exact congrArg Except.ok (String.append_assoc ..).symm

theorem checkAllAdjacent_append {last : Option String} (ns ns' : List Node) :
    checkAllAdjacent last (ns ++ ns')
      = checkAllAdjacent last ns >>= fun next ↦ checkAllAdjacent next ns' := by
  induction ns generalizing last with
  | nil => rfl
  | cons n ns ih =>
    rw [List.cons_append, checkAllAdjacent, checkAllAdjacent]
    cases n.checkAdjacent last with
    | error e => rfl
    | ok next => exact ih

/-- Two rows of siblings that nothing tells apart, if no expressions are stored in the first. -/
structure MeanSame (ns ns' : List Node) : Prop where
  fragments : AreDerived ns → AreDerived ns' ∧ Node.fragments ns = Node.fragments ns'
  groups : groupsOf ns = groupsOf ns'
  texts : ∀ values, generateAll values ns = generateAll values ns'
  adjacent : ∀ last, checkAllAdjacent last ns = checkAllAdjacent last ns'
  analysis : ∀ options before, before.IsProper options.ceiling →
    analysisFrom options before ns = analysisFrom options before ns'

namespace MeanSame

variable {n : Node} {ns ns' ns'' children children' : List Node} {tag : Tag}

theorem refl (ns : List Node) : MeanSame ns ns where
  fragments h := ⟨h, rfl⟩
  groups := rfl
  texts _ := rfl
  adjacent _ := rfl
  analysis _ _ _ := rfl

theorem trans (h : MeanSame ns ns') (h' : MeanSame ns' ns'') : MeanSame ns ns'' where
  fragments hderived := by
    obtain ⟨hderived', heq⟩ := h.fragments hderived
    obtain ⟨hderived'', heq'⟩ := h'.fragments hderived'
    exact ⟨hderived'', heq.trans heq'⟩
  groups := h.groups.trans h'.groups
  texts values := (h.texts values).trans (h'.texts values)
  adjacent last := (h.adjacent last).trans (h'.adjacent last)
  analysis options before hbefore :=
    (h.analysis options before hbefore).trans (h'.analysis options before hbefore)

/-- The same node before two rows. -/
theorem cons (n : Node) (h : MeanSame ns ns') : MeanSame (n :: ns) (n :: ns') where
  fragments hderived := by
    obtain ⟨hderived', heq⟩ := h.fragments hderived.2
    exact ⟨⟨hderived.1, hderived'⟩, congrArg (n.fragment ++ ·) heq⟩
  groups := congrArg (n.groups ++ ·) h.groups
  texts values := by rw [generateAll, generateAll, h.texts]
  adjacent last := by
    simp only [checkAllAdjacent, h.adjacent]
  analysis options before hbefore :=
    h.analysis options _ (hbefore.isWithin.followedBy (isWithin_analysis options n))

theorem anyBindsSome_eq (h : MeanSame ns ns') (values : Bindings) :
    anyBindsSome values ns = anyBindsSome values ns' := by
  rw [Bool.eq_iff_iff, anyBindsSome_iff, anyBindsSome_iff, h.groups]

/-- Two sections before the same row. -/
theorem «section» (h : MeanSame children children') :
    MeanSame (optional children tag :: ns) (optional children' tag :: ns) where
  fragments hderived := by
    obtain ⟨⟨hstored, hchildren⟩, hns⟩ := hderived
    obtain ⟨hchildren', heq⟩ := h.fragments hchildren
    refine ⟨⟨⟨hstored, hchildren'⟩, hns⟩, ?_⟩
    rw [Node.fragments, Node.fragments, fragment, fragment, heq]
  groups := congrArg (· ++ groupsOf ns) h.groups
  texts values := by
    rw [generateAll, generateAll, generate, generate, h.anyBindsSome_eq, h.texts]
  adjacent last := by
    rw [checkAllAdjacent, checkAllAdjacent, checkAdjacent, checkAdjacent, h.adjacent]
  analysis options before hbefore := by
    have hchildren := h.analysis options .empty Analysis.isProper_empty
    rw [analysisFrom, analysisFrom, Node.analysis, Node.analysis, hchildren]

/-- A plain sequence and its children before the same row. -/
theorem sequence : MeanSame (.sequence children tag :: ns) (children ++ ns) where
  fragments hderived := by
    obtain ⟨⟨hstored, hchildren⟩, hns⟩ := hderived
    refine ⟨areDerived_append.mpr ⟨hchildren, hns⟩, ?_⟩
    rw [fragments_append, Node.fragments, fragment, hstored, Option.getD_none]
  groups := (groupsOf_append ..).symm
  texts values := (generateAll_append ..).symm
  adjacent last := (checkAllAdjacent_append ..).symm
  analysis options before hbefore := by
    rw [analysisFrom_append, analysisFrom, Node.analysis, followedBy_analysisFrom,
      hbefore.followedBy_empty]

end MeanSame

mutual

/-- A node and what stands for it mean the same, whatever stands behind. -/
theorem meanSame_inlined (n : Node) (rest : List Node) :
    MeanSame (n :: rest) (n.inlined ++ rest) := by
  match n with
  | literal text tag => exact .refl _
  | group g => exact .refl _
  | .sequence children tag => exact .trans .sequence (meanSame_inlinedAll children rest)
  | optional children tag =>
    have hchildren := meanSame_inlinedAll children []
    rw [List.append_nil, List.append_nil] at hchildren
    exact .section hchildren

theorem meanSame_inlinedAll (ns rest : List Node) :
    MeanSame (ns ++ rest) (inlinedAll ns ++ rest) := by
  match ns with
  | [] => exact .refl _
  | n :: ns =>
    rw [inlinedAll, List.append_assoc]
    exact .trans (.cons n (meanSame_inlinedAll ns rest)) (meanSame_inlined n _)

end

/-- The tree without nested plain sequences: at any depth these give way to what stands in them. -/
def unnested : Node → Node
  | literal text tag => literal text tag
  | group g => group g
  | .sequence children tag => .sequence (inlinedAll children) tag
  | optional children tag => optional (inlinedAll children) tag

/-- A tree and the tree without nested plain sequences have the same groups and the same texts, or
lack the same value, the check of greedy groups has the same outcome, and so has every analysis.
They have the same expression if the tree stores none. -/
theorem unnested_eq (n : Node) :
    (n.IsDerived → n.unnested.fragment = n.fragment) ∧ n.unnested.groups = n.groups ∧
      (∀ values, n.unnested.generate values = n.generate values) ∧
      Validator.greedyAdjacency.check n.unnested = Validator.greedyAdjacency.check n ∧
      ∀ options, n.unnested.analysis options = n.analysis options := by
  have hrow : ∀ children, MeanSame children (inlinedAll children) := fun children ↦ by
    have h := meanSame_inlinedAll children []
    rwa [List.append_nil, List.append_nil] at h
  cases n with
  | literal text tag => exact ⟨fun _ ↦ rfl, rfl, fun _ ↦ rfl, rfl, fun _ ↦ rfl⟩
  | group g => exact ⟨fun _ ↦ rfl, rfl, fun _ ↦ rfl, rfl, fun _ ↦ rfl⟩
  | sequence children tag =>
    have h := hrow children
    refine ⟨fun hderived ↦ ?_, h.groups.symm, fun values ↦ (h.texts values).symm, ?_,
      fun options ↦ (h.analysis options .empty Analysis.isProper_empty).symm⟩
    · rw [unnested, fragment, fragment, (h.fragments hderived.2).2]
    · simp only [Validator.greedyAdjacency, unnested, children?, h.adjacent]
  | optional children tag =>
    have h := hrow children
    refine ⟨fun hderived ↦ ?_, h.groups.symm, fun values ↦ ?_, ?_, fun options ↦ ?_⟩
    · rw [unnested, fragment, fragment, (h.fragments hderived.2).2]
    · rw [unnested, generate, generate, h.anyBindsSome_eq, h.texts]
    · simp only [Validator.greedyAdjacency, unnested, children?, h.adjacent]
    · rw [unnested, analysis, analysis, h.analysis options .empty Analysis.isProper_empty]

/-- A sequence in a sequence and one in a section. -/
theorem unnested_eq_nested :
    ∃ p root, Compiler.standard.compile "a\x7bn:int\x7d" = .ok p ∧
      root = ofChildren [p.tree, ofSection [ofChildren [ofText "b", ofText "c"]]] ∧
      root.IsDerived ∧ root.unnested.fragment = root.fragment ∧
      root.fragment = "a(?P<g1>-?[0-9]+)(?:bc)?" ∧
      root.children?.map List.length = some 2 ∧
      root.unnested.children?.map List.length = some 3 := by
  have htest : (Compiler.standard.compile "a\x7bn:int\x7d").toOption.any (fun p ↦
      (ofChildren [p.tree, ofSection [ofChildren [ofText "b", ofText "c"]]]).fragment
          == "a(?P<g1>-?[0-9]+)(?:bc)?" && p.tree.inlined.length == 2) = true := by
    decide +kernel
  obtain ⟨p, hp, htest⟩ := exists_ok_of_any htest
  simp only [Bool.and_eq_true, beq_iff_eq] at htest
  obtain ⟨hfragment, hlength⟩ := htest
  have htree : p.tree.IsDerived := (Compiler.isDerived_of_compile hp).tree
  have hderived :
      (ofChildren [p.tree, ofSection [ofChildren [ofText "b", ofText "c"]]]).IsDerived :=
    ⟨rfl, htree, ⟨rfl, ⟨rfl, rfl, rfl, trivial⟩, trivial⟩, trivial⟩
  refine ⟨p, _, hp, rfl, hderived, (unnested_eq _).1 hderived, hfragment, rfl, ?_⟩
  show some (p.tree.inlined ++ _).length = some 3
  rw [List.length_append, hlength]
  rfl

end Node

end UrlPattern
