import UrlPattern.Proofs.PrefilterExact
import UrlPattern.Proofs.ProperRange

/-!
# Bounds of pre-filters and of analyses

A pre-filter and an analysis both bound the lengths of the texts of a tree. A pre-filter takes
groups to have any length, and cuts sums off at the end of a row, an analysis after each node. A
pre-filter takes no least length from a literal that is marked as standing in a section, an analysis
none from the section. With the same ceiling the bounds of the pre-filter are the wider ones, and if
there are no groups they agree, and so do the bytes (`Compiler.bounds_of_compile`).

The row analyzed so far is an offset to the sums: with it they are compared after the cut, for every
row behind it.

Specification: `SPEC_FULL.md` §4.7 (lines 66–69) and §4.8 (lines 71–72).
-/

namespace UrlPattern

namespace Node

variable (ceiling minLiteralLength probeLimit : Nat)

/-! ### Wider bounds -/

mutual

/-- The bounds of a pre-filter are no closer than those of an analysis. -/
theorem lengthBounds_coarse (n : Node) :
    min (n.lengthBounds ⟨ceiling, minLiteralLength, 0⟩).1 ceiling
        ≤ (n.analysis ⟨ceiling, probeLimit⟩).minLen ∧
      (n.analysis ⟨ceiling, probeLimit⟩).maxLen
        ≤ (n.lengthBounds ⟨ceiling, minLiteralLength, 0⟩).2 := by
  match n with
  | literal text tag =>
    simp only [lengthBounds, analysis, Analysis.ofText]
    constructor
    · split <;> omega
    · exact Nat.min_le_left _ _
  | group g => exact ⟨Nat.le_trans (Nat.min_le_left _ _) (Nat.zero_le _), maxLen_analysis_le _ _⟩
  | sequence children tag =>
    obtain ⟨hleast, hmost⟩ := lengthBoundsOf_coarse children .empty
    rw [Analysis.minLen_empty, Nat.zero_add] at hleast
    rw [Analysis.maxLen_empty, Nat.zero_add] at hmost
    exact ⟨hleast, Nat.le_min.mpr ⟨hmost, maxLen_analysis_le _ (sequence children tag)⟩⟩
  | optional children tag =>
    obtain ⟨-, hmost⟩ := lengthBoundsOf_coarse children .empty
    rw [Analysis.maxLen_empty, Nat.zero_add] at hmost
    exact ⟨Nat.min_le_left _ _,
      Nat.le_min.mpr ⟨hmost, maxLen_analysis_le _ (optional children tag)⟩⟩

/-- The same of several nodes behind an analyzed row. -/
theorem lengthBoundsOf_coarse (ns : List Node) (before : Analysis) :
    min (before.minLen + (lengthBoundsOf ⟨ceiling, minLiteralLength, 0⟩ ns).1) ceiling
        ≤ (analysisFrom ⟨ceiling, probeLimit⟩ before ns).minLen ∧
      (analysisFrom ⟨ceiling, probeLimit⟩ before ns).maxLen
        ≤ before.maxLen + (lengthBoundsOf ⟨ceiling, minLiteralLength, 0⟩ ns).2 := by
  match ns with
  | [] => exact ⟨Nat.min_le_left _ _, Nat.le_refl _⟩
  | n :: ns =>
    obtain ⟨hleast, hmost⟩ := lengthBounds_coarse n
    obtain ⟨hleast', hmost'⟩ :=
      lengthBoundsOf_coarse ns (before.followedBy ceiling (n.analysis ⟨ceiling, probeLimit⟩))
    rw [Analysis.minLen_followedBy] at hleast'
    rw [Analysis.maxLen_followedBy] at hmost'
    simp only [analysisFrom, lengthBoundsOf]
    omega

end

/-! ### Trees without groups -/

mutual

/-- Without groups the greatest lengths agree, and so do the least ones if the marks are right. -/
theorem analysis_of_groups_eq_nil (n : Node) (hgroups : n.groups = []) :
    (n.analysis ⟨ceiling, probeLimit⟩).maxLen
        = min (n.lengthBounds ⟨ceiling, minLiteralLength, 0⟩).2 ceiling ∧
      (n.IsMarked false → (n.analysis ⟨ceiling, probeLimit⟩).minLen
        = min (n.lengthBounds ⟨ceiling, minLiteralLength, 0⟩).1 ceiling) := by
  match n with
  | literal text tag =>
    refine ⟨rfl, fun hmark ↦ ?_⟩
    rw [IsMarked] at hmark
    rw [lengthBounds, hmark]
    rfl
  | group g => exact absurd hgroups (List.cons_ne_nil g [])
  | sequence children tag =>
    obtain ⟨hmost, hleast⟩ :=
      analysisFrom_of_groups_eq_nil children hgroups Analysis.isProper_empty
    rw [Analysis.maxLen_empty, Nat.zero_add] at hmost
    rw [Analysis.minLen_empty, Nat.zero_add] at hleast
    simp only [analysis, lengthBounds]
    constructor
    · omega
    · rintro ⟨-, hmark⟩
      exact hleast hmark
  | optional children tag =>
    obtain ⟨hmost, -⟩ := analysisFrom_of_groups_eq_nil children hgroups Analysis.isProper_empty
    rw [Analysis.maxLen_empty, Nat.zero_add] at hmost
    simp only [analysis, lengthBounds, Analysis.madeOptional]
    constructor
    · omega
    · exact fun _ ↦ (Nat.zero_min _).symm

/-- The same of several nodes behind an analyzed row. -/
theorem analysisFrom_of_groups_eq_nil (ns : List Node) (hgroups : groupsOf ns = [])
    {before : Analysis} (hbefore : before.IsProper ceiling) :
    (analysisFrom ⟨ceiling, probeLimit⟩ before ns).maxLen
        = min (before.maxLen + (lengthBoundsOf ⟨ceiling, minLiteralLength, 0⟩ ns).2) ceiling ∧
      (AreMarked false ns → (analysisFrom ⟨ceiling, probeLimit⟩ before ns).minLen
        = min (before.minLen + (lengthBoundsOf ⟨ceiling, minLiteralLength, 0⟩ ns).1) ceiling) := by
  match ns with
  | [] =>
    obtain ⟨hle, hmost⟩ := hbefore
    rw [analysisFrom, lengthBoundsOf]
    constructor
    · omega
    · omega
  | n :: ns =>
    obtain ⟨hgroups, hgroups'⟩ := List.append_eq_nil_iff.mp hgroups
    obtain ⟨hmost, hleast⟩ := analysis_of_groups_eq_nil n hgroups
    obtain ⟨hmost', hleast'⟩ := analysisFrom_of_groups_eq_nil ns hgroups'
      (hbefore.isWithin.followedBy (isWithin_analysis ⟨ceiling, probeLimit⟩ n))
    rw [Analysis.minLen_followedBy] at hleast'
    rw [Analysis.maxLen_followedBy] at hmost'
    simp only [analysisFrom, lengthBoundsOf]
    constructor
    · omega
    · rintro ⟨hmark, hmark'⟩
      have hfirst := hleast hmark
      have hothers := hleast' hmark'
      omega

end

mutual

/-- Without groups the bytes of an analysis are those of the literals. -/
theorem contains_chars_analysis (limits : AnalysisOptions) (n : Node) (hgroups : n.groups = [])
    {b : UInt8} : (n.analysis limits).chars.contains b = true ↔
      ∃ text ∈ n.literalTexts, b ∈ Text.utf8 text.toList := by
  match n with
  | literal text tag =>
    simp only [literalTexts, List.mem_singleton, exists_eq_left]
    exact ByteSet.contains_ofList _ b
  | group g => exact absurd hgroups (List.cons_ne_nil g [])
  | sequence children tag =>
    rw [analysis, contains_chars_analysisFrom limits children hgroups]
    exact or_iff_right (ne_true_of_eq_false (ByteSet.contains_empty b))
  | optional children tag =>
    show (analysisFrom limits .empty children).chars.contains b = true ↔ _
    rw [contains_chars_analysisFrom limits children hgroups]
    exact or_iff_right (ne_true_of_eq_false (ByteSet.contains_empty b))

/-- The same of several nodes behind an analyzed row. -/
theorem contains_chars_analysisFrom (limits : AnalysisOptions) (ns : List Node)
    (hgroups : groupsOf ns = []) {before : Analysis} {b : UInt8} :
    (analysisFrom limits before ns).chars.contains b = true ↔
      before.chars.contains b = true ∨ ∃ text ∈ literalTextsOf ns, b ∈ Text.utf8 text.toList := by
  match ns with
  | [] => exact (or_iff_left nofun).symm
  | n :: ns =>
    obtain ⟨hgroups, hgroups'⟩ := List.append_eq_nil_iff.mp hgroups
    rw [analysisFrom, contains_chars_analysisFrom limits ns hgroups']
    show (before.chars.union (n.analysis limits).chars).contains b = true ∨ _ ↔ _
    rw [ByteSet.contains_union, Bool.or_eq_true, contains_chars_analysis limits n hgroups, or_assoc,
      literalTextsOf]
    simp only [List.mem_append, or_and_right, exists_or]

end

end Node

namespace Compiler

/-- The pre-filter of one pattern, with groups of any length, bounds lengths no closer than an
analysis with the same ceiling. If the pattern has no groups, both have the same bounds, and the
pre-filter passes the bytes of the analysis. `SPEC_FULL.md:67`. -/
theorem bounds_of_compile {c : Compiler} {source : String} {p : Pattern}
    (h : c.compile source = .ok p) (ceiling minLiteralLength probeLimit : Nat) :
    let f := Prefilter.ofPatterns ⟨ceiling, minLiteralLength, 0⟩ [p]
    let a := p.tree.analysis ⟨ceiling, probeLimit⟩
    f.minLen ≤ a.minLen ∧ a.maxLen ≤ f.maxLen ∧
      (p.tree.groups = [] → f.minLen = a.minLen ∧ f.maxLen = a.maxLen ∧
        f.usesCharLookup = true ∧ f.charLookup = a.chars) := by
  intro f a
  obtain ⟨hleast, hmost⟩ := p.tree.lengthBounds_coarse ceiling minLiteralLength probeLimit
  have hmostLe : a.maxLen ≤ ceiling := p.tree.maxLen_analysis_le ⟨ceiling, probeLimit⟩
  refine ⟨hleast, Nat.le_min.mpr ⟨hmost, hmostLe⟩, ?_⟩
  intro hgroups
  obtain ⟨hmost, hleast⟩ :=
    p.tree.analysis_of_groups_eq_nil ceiling minLiteralLength probeLimit hgroups
  refine ⟨(hleast (isMarked_of_compile h)).symm, hmost.symm, ?_, ?_⟩
  · refine Prefilter.usesCharLookup_ofTrees_iff.mpr ⟨List.cons_ne_nil _ _, ?_⟩
    rintro root (_ | ⟨_, ⟨⟩⟩)
    exact hgroups
  · refine ByteSet.ext_contains fun b ↦ Bool.eq_iff_iff.mpr ?_
    rw [Node.contains_chars_analysis ⟨ceiling, probeLimit⟩ p.tree hgroups]
    refine Prefilter.contains_charLookup_iff.trans ?_
    simp only [List.map_cons, List.map_nil, List.mem_singleton, exists_eq_left]

/-- Two digits between a letter and a section: lengths from three to five, of which a pre-filter
knows one letter. Letters in two nested sections: both cut the six letters off at the ceiling. -/
theorem bounds_of_compile_sections :
    (∃ p, standard.compile "v{n:int(min=10, max=99)}(-x)" = .ok p ∧
      (p.tree.analysis ⟨50, 3⟩).minLen = 3 ∧ (p.tree.analysis ⟨50, 3⟩).maxLen = 5 ∧
      (Prefilter.ofPatterns ⟨50, 2, 0⟩ [p]).minLen ≤ 3 ∧
      5 ≤ (Prefilter.ofPatterns ⟨50, 2, 0⟩ [p]).maxLen) ∧
    ∃ p, standard.compile "ab(cd(e))f" = .ok p ∧ p.tree.groups = [] ∧
      (p.tree.analysis ⟨5, 3⟩).minLen = 3 ∧ (p.tree.analysis ⟨5, 3⟩).maxLen = 5 ∧
      (Prefilter.ofPatterns ⟨5, 2, 0⟩ [p]).minLen = 3 ∧
      (Prefilter.ofPatterns ⟨5, 2, 0⟩ [p]).maxLen = 5 ∧
      (Prefilter.ofPatterns ⟨5, 2, 0⟩ [p]).charLookup = (p.tree.analysis ⟨5, 3⟩).chars := by
  constructor
  · have htest : (standard.compile "v{n:int(min=10, max=99)}(-x)").toOption.any (fun p ↦
        (p.tree.analysis ⟨50, 3⟩).minLen == 3 && (p.tree.analysis ⟨50, 3⟩).maxLen == 5) = true := by
      decide +kernel
    obtain ⟨p, hp, htest⟩ := exists_ok_of_any htest
    simp only [Bool.and_eq_true, beq_iff_eq] at htest
    obtain ⟨hleast, hmost, -⟩ := bounds_of_compile hp 50 2 3
    rw [htest.1] at hleast
    rw [htest.2] at hmost
    exact ⟨p, hp, htest.1, htest.2, hleast, hmost⟩
  · have htest : (standard.compile "ab(cd(e))f").toOption.any (fun p ↦
        p.tree.groups.isEmpty && ((p.tree.analysis ⟨5, 3⟩).minLen == 3 &&
          (p.tree.analysis ⟨5, 3⟩).maxLen == 5)) = true := by
      decide +kernel
    obtain ⟨p, hp, htest⟩ := exists_ok_of_any htest
    simp only [Bool.and_eq_true, beq_iff_eq, List.isEmpty_iff] at htest
    obtain ⟨hgroups, hleast, hmost⟩ := htest
    obtain ⟨-, -, hsame⟩ := bounds_of_compile hp 5 2 3
    obtain ⟨hleast', hmost', -, hchars⟩ := hsame hgroups
    exact ⟨p, hp, hgroups, hleast, hmost, hleast'.trans hleast, hmost'.trans hmost, hchars⟩

end Compiler

end UrlPattern
