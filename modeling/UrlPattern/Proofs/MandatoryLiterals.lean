import UrlPattern.Prefilter
import UrlPattern.Proofs.TreeAnalysis

/-!
# Literals that must be there

An analysis lists the texts of all literals of a tree. One of them is mandatory exactly if some
literal with this text stands outside of all optional sections, whatever other literals have the
same text. Every input that the pattern matches contains all mandatory texts
(`Compiler.literals_analysis`).

Specification: `SPEC_FULL.md` §4.8 (lines 71–72).
-/

namespace UrlPattern

namespace Node

mutual

/-- The texts of the literals of a tree that stand in none of its optional sections. -/
def outerTexts : Node → List String
  | literal text _ => [text]
  | group _ => []
  | sequence children _ => outerTextsOf children
  | optional .. => []

/-- The texts of the literals of several trees that stand in none of their optional sections. -/
def outerTextsOf : List Node → List String
  | [] => []
  | n :: ns => n.outerTexts ++ outerTextsOf ns

end

end Node

/-! ### The literals of an analysis -/

namespace Analysis

variable {a b : Analysis} {outer outer' all all' : List String}

/-- The literals of an analysis are all of some texts, and the outer ones are mandatory. -/
structure HasLiterals (a : Analysis) (outer all : List String) : Prop where
  contains_iff : ∀ text, a.literals.contains text = true ↔ text ∈ all
  mandatory_iff : ∀ text, a.literals.get? text = some false ↔ text ∈ outer

theorem get?_literals_ofText (ceiling : Nat) (text other : String) :
    (ofText ceiling text).literals.get? other = if other = text then some false else none :=
  Table.get?_insert ..

theorem get?_literals_followedBy (ceiling : Nat) (a b : Analysis) (text : String) :
    (a.followedBy ceiling b).literals.get? text
      = (a.literals.get? text).merge (· && ·) (b.literals.get? text) :=
  Table.get?_foldl_insertWith_toList ..

theorem get?_literals_madeOptional (a : Analysis) (text : String) :
    a.madeOptional.literals.get? text = (a.literals.get? text).map fun _ ↦ true :=
  Table.get?_map ..

/-- A text is mandatory in two places together if it is in one of them. -/
theorem mandatory_followedBy_iff {ceiling : Nat} {text : String} :
    (a.followedBy ceiling b).literals.get? text = some false ↔
      a.literals.get? text = some false ∨ b.literals.get? text = some false := by
  rw [get?_literals_followedBy]
  rcases a.literals.get? text with _ | _ | _ <;> rcases b.literals.get? text with _ | _ | _ <;> simp

/-- Nothing in a section is mandatory. -/
theorem not_mandatory_madeOptional (a : Analysis) (text : String) :
    a.madeOptional.literals.get? text ≠ some false := by
  rw [get?_literals_madeOptional]
  cases a.literals.get? text <;> simp

theorem hasLiterals_empty : empty.HasLiterals [] [] :=
  ⟨fun _ ↦ iff_of_false nofun List.not_mem_nil, fun _ ↦ iff_of_false nofun List.not_mem_nil⟩

theorem hasLiterals_ofText (ceiling : Nat) (text : String) :
    (ofText ceiling text).HasLiterals [text] [text] := by
  constructor <;> intro other
  · rw [Table.contains, get?_literals_ofText, List.mem_singleton]
    split <;> simp [*]
  · rw [get?_literals_ofText, List.mem_singleton]
    split <;> simp [*]

/-- Groups have no literals. -/
theorem hasLiterals_group (g : Group) (options : AnalysisOptions) :
    (g.analysis options).HasLiterals [] [] := by
  have hnone : (g.analysis options).literals = ∅ := by
    simp only [Group.analysis]
    split <;> rfl
  constructor <;> intro text
  · rw [hnone]
    exact hasLiterals_empty.contains_iff text
  · rw [hnone]
    exact hasLiterals_empty.mandatory_iff text

theorem HasLiterals.followedBy (ceiling : Nat) (ha : a.HasLiterals outer all)
    (hb : b.HasLiterals outer' all') :
    (a.followedBy ceiling b).HasLiterals (outer ++ outer') (all ++ all') := by
  constructor <;> intro text
  · rw [Table.contains, get?_literals_followedBy, Option.isSome_merge, Bool.or_eq_true,
      List.mem_append, ← ha.contains_iff, ← hb.contains_iff]
    rfl
  · rw [mandatory_followedBy_iff, List.mem_append, ha.mandatory_iff, hb.mandatory_iff]

theorem HasLiterals.madeOptional (h : a.HasLiterals outer all) :
    a.madeOptional.HasLiterals [] all := by
  constructor <;> intro text
  · rw [Table.contains, get?_literals_madeOptional, Option.isSome_map, ← h.contains_iff]
    rfl
  · exact iff_of_false (not_mandatory_madeOptional a text) List.not_mem_nil

/-- A text contains the literals that are mandatory in its parts. -/
theorem isKept_literals (options : AnalysisOptions) :
    IsKept options fun a t ↦ ∀ text, a.literals.get? text = some false → text.toList <:+: t where
  empty := nofun
  literal text other hother := by
    have heq := ((hasLiterals_ofText ..).mandatory_iff other).mp hother
    rw [List.mem_singleton.mp heq]
  followedBy hs ht text htext := by
    rcases mandatory_followedBy_iff.mp htext with htext | htext
    · exact (hs text htext).trans (List.prefix_append ..).isInfix
    · exact (ht text htext).trans (List.suffix_append ..).isInfix
  absent a text htext := absurd htext (not_mandatory_madeOptional a text)
  present {a _} _ text htext := absurd htext (not_mandatory_madeOptional a text)

end Analysis

/-! ### Trees -/

namespace Node

variable (options : AnalysisOptions)

mutual

theorem hasLiterals_analysis (n : Node) :
    (n.analysis options).HasLiterals n.outerTexts n.literalTexts := by
  match n with
  | literal text tag => exact Analysis.hasLiterals_ofText options.ceiling text
  | group g => exact Analysis.hasLiterals_group g options
  | sequence children tag => exact hasLiterals_analysisFrom children Analysis.hasLiterals_empty
  | optional children tag =>
    have hchildren := hasLiterals_analysisFrom children Analysis.hasLiterals_empty
    exact hchildren.madeOptional

theorem hasLiterals_analysisFrom (ns : List Node) {before : Analysis} {outer all : List String}
    (h : before.HasLiterals outer all) : (analysisFrom options before ns).HasLiterals
      (outer ++ outerTextsOf ns) (all ++ literalTextsOf ns) := by
  match ns with
  | [] =>
    rw [analysisFrom, outerTextsOf, literalTextsOf, List.append_nil, List.append_nil]
    exact h
  | n :: ns =>
    rw [analysisFrom, outerTextsOf, literalTextsOf, ← List.append_assoc, ← List.append_assoc]
    exact hasLiterals_analysisFrom ns (h.followedBy options.ceiling (hasLiterals_analysis n))

end

/-- The texts that a tree stands for contain its mandatory literals. -/
theorem infix_of_mem_language {n : Node} {t : List Char} (ht : t ∈ n.language) {text : String}
    (htext : (n.analysis options).literals.get? text = some false) : text.toList <:+: t := by
  obtain ⟨d, hdivides, rfl⟩ := (mem_language n t).mp ht
  refine analysis_of_kept (Analysis.isKept_literals options) hdivides (fun g _ _ other hother ↦ ?_)
    text htext
  -- Nothing is mandatory in a group, whatever its text is.
  exact absurd (((Analysis.hasLiterals_group g options).mandatory_iff other).mp hother)
    List.not_mem_nil

end Node

namespace Compiler

/-- An analysis of a compiled pattern lists the texts of all its literals. Those of literals outside
of sections are mandatory and no others are, and with the types that every registry may start with
each input that is matched contains them. `SPEC_FULL.md:72`. -/
theorem literals_analysis {c : Compiler} {source : String} {p : Pattern}
    (h : c.compile source = .ok p) (options : AnalysisOptions) :
    (∀ text, text ∈ (p.tree.analysis options).literals.keys ↔ text ∈ p.tree.literalTexts) ∧
      (∀ text, (p.tree.analysis options).literals.get? text = some false
        ↔ text ∈ p.tree.outerTexts) ∧
      (c.types = .builtin → ∀ s r, p.match? s = some r → ∀ text,
        (p.tree.analysis options).literals.get? text = some false →
          text.toList <:+: s.toList) := by
  have hliterals := Node.hasLiterals_analysis options p.tree
  refine ⟨fun text ↦ ?_, hliterals.mandatory_iff, fun htypes s r hmatch text htext ↦ ?_⟩
  · rw [← Table.contains_iff_mem_keys]
    exact hliterals.contains_iff text
  · obtain ⟨types, pipeline⟩ := c
    subst htypes
    have hmatches : p.isMatch s = true := by
      rw [← p.isSome_match?, hmatch]
      rfl
    have hlanguage := ((isDerived_of_compile h).isMatch_iff s).mp hmatches
    exact Node.infix_of_mem_language options hlanguage.2 htext

/-- A literal that stands in a section and behind it is mandatory. -/
theorem literals_analysis_twice :
    ∃ p, standard.compile "a(c){n:int}c" = .ok p ∧
      (p.tree.analysis .standard).literals.keys = ["a", "c"] ∧
      (p.tree.analysis .standard).literals.get? "c" = some false ∧
      ∃ r, p.match? "a5c" = some r ∧ "c".toList <:+: "a5c".toList := by
  have htest : (standard.compile "a(c){n:int}c").toOption.any (fun p ↦
      (p.tree.analysis .standard).literals.keys == ["a", "c"] &&
        (p.tree.outerTexts.contains "c" && (p.match? "a5c").isSome)) = true := by
    decide +kernel
  obtain ⟨p, hp, htest⟩ := exists_ok_of_any htest
  simp only [Bool.and_eq_true, beq_iff_eq, List.contains_iff_mem] at htest
  obtain ⟨hkeys, houter, hmatch⟩ := htest
  obtain ⟨r, hr⟩ := Option.isSome_iff_exists.mp hmatch
  obtain ⟨-, hmandatory, hinfix⟩ := literals_analysis hp .standard
  have hc := (hmandatory "c").mpr houter
  exact ⟨p, hp, hkeys, hc, r, hr, hinfix rfl "a5c" r hr "c" hc⟩

end Compiler

end UrlPattern
