import UrlPattern.Proofs.LengthBounds

/-!
# Ranges of lengths

The least length that an analysis reports is at most the greatest one, and this is at most the
ceiling, whatever the ceiling and the number of runs that are tried. There is one exception: the
least length of a group is that of its shortest accepted run, which is not cut off at the ceiling as
the lengths of literals and of rows are (`Node.isProper_analysis_iff`).

Nodes that follow one another have proper ranges as soon as each of them has one after its least
length is cut off (`Analysis.IsWithin`), so the exception does not spread.

Specification: `SPEC_FULL.md` §4.8 (lines 71–72) and §10.9 (lines 266–281).
-/

namespace UrlPattern

namespace Analysis

variable {ceiling : Nat} {a b : Analysis}

/-- The least length is at most the greatest one, and this is at most the ceiling. -/
def IsProper (ceiling : Nat) (a : Analysis) : Prop := a.minLen ≤ a.maxLen ∧ a.maxLen ≤ ceiling

/-- The range is proper as soon as the least length is cut off at the ceiling. -/
def IsWithin (ceiling : Nat) (a : Analysis) : Prop :=
  min a.minLen ceiling ≤ a.maxLen ∧ a.maxLen ≤ ceiling

theorem IsProper.isWithin (h : a.IsProper ceiling) : a.IsWithin ceiling :=
  ⟨Nat.le_trans (Nat.min_le_left _ _) h.1, h.2⟩

/-- A range is proper if there is nothing to be cut off. -/
theorem IsWithin.isProper_iff (h : a.IsWithin ceiling) :
    a.IsProper ceiling ↔ a.minLen ≤ ceiling := by
  unfold IsWithin at h
  unfold IsProper
  omega

theorem isProper_empty : empty.IsProper ceiling := ⟨Nat.le_refl 0, Nat.zero_le _⟩

theorem isProper_ofText (text : String) : (ofText ceiling text).IsProper ceiling :=
  ⟨Nat.le_refl _, Nat.min_le_right _ _⟩

theorem minLen_empty : empty.minLen = 0 := rfl

theorem maxLen_empty : empty.maxLen = 0 := rfl

theorem minLen_followedBy (ceiling : Nat) (a b : Analysis) :
    (a.followedBy ceiling b).minLen = min (a.minLen + b.minLen) ceiling := rfl

theorem maxLen_followedBy (ceiling : Nat) (a b : Analysis) :
    (a.followedBy ceiling b).maxLen = min (a.maxLen + b.maxLen) ceiling := rfl

/-- One node behind another: the sums are cut off, so the range is proper. -/
theorem IsWithin.followedBy (ha : a.IsWithin ceiling) (hb : b.IsWithin ceiling) :
    (a.followedBy ceiling b).IsProper ceiling := by
  unfold IsWithin at ha hb
  rw [IsProper, minLen_followedBy, maxLen_followedBy]
  omega

theorem IsProper.madeOptional (h : a.IsProper ceiling) : a.madeOptional.IsProper ceiling :=
  ⟨Nat.zero_le _, h.2⟩

end Analysis

namespace Group

variable {g : Group} {n : Nat} {first : Char} (options : AnalysisOptions)

/-- The least length of a group is that of its shortest accepted run. -/
theorem minLen_analysis
    (hfind : g.shortestRunFrom? 1 (max options.probeLimit 1) = some (n, first)) :
    (g.analysis options).minLen = n := by
  simp only [analysis, hfind]

/-- The longest accepted run is no shorter than the shortest one, unless the ceiling stands for it.
-/
theorem le_longestRunOf (limit n : Nat) (chars : List Char) :
    n ≤ g.longestRunOf options limit n chars ∨
      g.longestRunOf options limit n chars = options.ceiling := by
  cases hlimit : chars.any fun c ↦ g.acceptsRun c limit with
  | true => exact .inr (if_pos hlimit)
  | false => exact .inl ((longestRunOf_le_iff options hlimit).mp (Nat.le_refl _)).1

/-- The range of a group is proper but for its least length. -/
theorem isWithin_analysis : (g.analysis options).IsWithin options.ceiling := by
  rw [analysis]
  split
  · exact ⟨Nat.min_le_right _ _, Nat.le_refl _⟩
  · next n first _ =>
    have hlongest := le_longestRunOf (g := g) options (max options.probeLimit 1) n
      (g.acceptedChars n first)
    constructor
    · show min n options.ceiling ≤ min (g.longestRunOf _ _ _ _) options.ceiling
      omega
    · exact Nat.min_le_right _ _

/-- The range of a group is proper unless all accepted runs are longer than the ceiling. -/
theorem isProper_iff_shortestRunFrom? :
    (g.analysis options).IsProper options.ceiling ↔
      ∀ length first, g.shortestRunFrom? 1 (max options.probeLimit 1) = some (length, first) →
        length ≤ options.ceiling := by
  rw [(g.isWithin_analysis options).isProper_iff]
  cases hfind : g.shortestRunFrom? 1 (max options.probeLimit 1) with
  | none => simp [analysis, hfind]
  | some found =>
    rw [g.minLen_analysis options hfind]
    constructor
    · rintro hle length first ⟨⟩
      exact hle
    · intro hruns
      exact hruns found.1 found.2 rfl

end Group

namespace Node

variable (options : AnalysisOptions)

mutual

/-- The range of a node is proper but for the least length of a group. -/
theorem isWithin_analysis (n : Node) : (n.analysis options).IsWithin options.ceiling := by
  match n with
  | literal text tag => exact (Analysis.isProper_ofText text).isWithin
  | group g => exact g.isWithin_analysis options
  | sequence children tag =>
    exact (isProper_analysisFrom children Analysis.isProper_empty).isWithin
  | optional children tag =>
    exact (isProper_analysisFrom children Analysis.isProper_empty).madeOptional.isWithin

/-- Nodes behind something with a proper range have a proper range together with it. -/
theorem isProper_analysisFrom (ns : List Node) {before : Analysis}
    (h : before.IsProper options.ceiling) :
    (analysisFrom options before ns).IsProper options.ceiling := by
  match ns with
  | [] => exact h
  | n :: ns => exact isProper_analysisFrom ns (h.isWithin.followedBy (isWithin_analysis n))

end

/-- The range of every node but a group is proper. -/
theorem isProper_analysis {n : Node} (h : ∀ g, n ≠ group g) :
    (n.analysis options).IsProper options.ceiling := by
  cases n with
  | literal text tag => exact Analysis.isProper_ofText text
  | group g => exact absurd rfl (h g)
  | sequence children tag => exact isProper_analysisFrom options children Analysis.isProper_empty
  | optional children tag =>
    exact (isProper_analysisFrom options children Analysis.isProper_empty).madeOptional

/-- The greatest length of a node is at most the ceiling, and the least one at most the greatest,
unless the node is a group whose shortest accepted run is longer than the ceiling. -/
theorem isProper_analysis_iff (n : Node) :
    (n.analysis options).maxLen ≤ options.ceiling ∧
      ((n.analysis options).IsProper options.ceiling ↔
        ∀ g length first, n = group g →
          g.shortestRunFrom? 1 (max options.probeLimit 1) = some (length, first) →
            length ≤ options.ceiling) := by
  refine ⟨(isWithin_analysis options n).2, ?_⟩
  by_cases hgroup : ∃ g, n = group g
  · obtain ⟨g, rfl⟩ := hgroup
    rw [analysis, g.isProper_iff_shortestRunFrom? options]
    constructor
    · rintro hruns _ length first ⟨⟩
      exact hruns length first
    · intro hruns length first
      exact hruns g length first rfl
  · have hother : ∀ g, n ≠ group g := fun g hn ↦ hgroup ⟨g, hn⟩
    exact iff_of_true (isProper_analysis options hother) fun g _ _ hn ↦ absurd hn (hother g)

/-- Every accepted run has two digits or more, so the least length exceeds a ceiling of one. In the
tree around the group it is cut off. -/
theorem exists_not_isProper :
    ∃ p g, Compiler.standard.compile "\x7bn:int(min=10)\x7d" = .ok p ∧ p.tree.groups = [g] ∧
      (g.analysis ⟨1, 2⟩).minLen = 2 ∧ (g.analysis ⟨1, 2⟩).maxLen = 1 ∧
      (p.tree.analysis ⟨1, 2⟩).minLen = 1 := by
  have htest : (Compiler.standard.compile "\x7bn:int(min=10)\x7d").toOption.any (fun p ↦
      p.tree.groups.length == 1 && ((p.tree.analysis ⟨1, 2⟩).minLen == 1 &&
        p.tree.groups.all fun g ↦
          (g.analysis ⟨1, 2⟩).minLen == 2 && (g.analysis ⟨1, 2⟩).maxLen == 1)) = true := by
    decide +kernel
  obtain ⟨p, hp, htest⟩ := exists_ok_of_any htest
  simp only [Bool.and_eq_true, beq_iff_eq, List.length_eq_one_iff, List.all_eq_true] at htest
  obtain ⟨⟨g, hgroups⟩, hroot, hlengths⟩ := htest
  obtain ⟨hleast, hgreatest⟩ := hlengths g (by rw [hgroups]; exact List.mem_singleton_self g)
  exact ⟨p, g, hp, hgroups, hleast, hgreatest, hroot⟩

end Node

end UrlPattern
