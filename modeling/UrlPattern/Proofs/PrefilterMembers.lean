import UrlPattern.Proofs.PrefilterExact

/-!
# Pre-filters and the members of a set

A pre-filter is determined by which patterns its set has (`Prefilter.ofPatterns_eq_of_mem_iff`).
Neither their order nor repetitions show. This holds even if the literals are entered pattern by
pattern and one that is there already is left alone (`Prefilter.literalsOf_eq_foldl`), as the mark
of a literal that some pattern must start with is set in any case and never taken back.

With more patterns, more inputs pass (`Prefilter.supports_append`). None of the four conditions
becomes stricter: the range of lengths grows, the allowed bytes grow or are no longer looked at, and
the literals at the start grow or are no longer asked for. The set without patterns is apart from
this. Its range of lengths is not within that of other sets, but it lets no input pass.

Specification: `SPEC_FULL.md` §4.7 (lines 66–69).
-/

namespace UrlPattern

namespace Prefilter

variable {options : PrefilterOptions} {roots roots' : List Node}

/-! ### Tree by tree -/

/-- Enters the literals of one more tree. A literal that is there already stays as it is, unless the
tree must start with it. -/
def enterLiterals (options : PrefilterOptions) (t : Table String Bool) (root : Node) :
    Table String Bool :=
  let texts := root.literalTexts.filter fun text ↦ decide (options.minLiteralLength ≤ text.length)
  let entered := texts.foldl (fun t text ↦ if t.contains text then t else t.insert text false) t
  match root.anchor? options with
  | some text => entered.insert text true
  | none => entered

theorem get?_foldl_insertNew (texts : List String) (t : Table String Bool) (text : String) :
    (texts.foldl (fun t text ↦ if t.contains text then t else t.insert text false) t).get? text
      = (t.get? text).or (if text ∈ texts then some false else none) := by
  induction texts generalizing t with
  | nil => exact (Option.or_none ..).symm
  | cons other texts ih =>
    rw [List.foldl_cons, ih]
    simp only [List.mem_cons]
    by_cases htext : text = other
    · subst htext
      cases hget : t.get? text with
      | none => simp [Table.contains, hget, Table.get?_insert]
      | some old => simp [Table.contains, hget]
    · split <;> simp [Table.get?_insert, htext]

/-- What entering the literals of one tree does to the look-up of a text. -/
theorem get?_enterLiterals (t : Table String Bool) (root : Node) (text : String) :
    (enterLiterals options t root).get? text
      = if root.anchor? options = some text then some true
        else (t.get? text).or
          (if options.minLiteralLength ≤ text.length ∧ text ∈ root.literalTexts then some false
          else none) := by
  unfold enterLiterals
  cases root.anchor? options with
  | none =>
    rw [get?_foldl_insertNew]
    simp [and_comm]
  | some anchor =>
    rw [Table.get?_insert, get?_foldl_insertNew]
    simp [and_comm, eq_comm]

/-- A text that some tree must start with is found as such, whether it was entered before or is
entered again. Of any other text, what was known first remains. -/
theorem get?_foldl_enterLiterals (t : Table String Bool) (roots : List Node) (text : String) :
    (roots.foldl (enterLiterals options) t).get? text
      = if ∃ root ∈ roots, root.anchor? options = some text then some true
        else (t.get? text).or
          (if options.minLiteralLength ≤ text.length ∧ ∃ root ∈ roots, text ∈ root.literalTexts
            then some false
          else none) := by
  induction roots generalizing t with
  | nil => simp
  | cons root roots ih =>
    rw [List.foldl_cons, ih, get?_enterLiterals]
    by_cases hlater : ∃ root ∈ roots, root.anchor? options = some text
    · simp [hlater]
    · by_cases hanchor : root.anchor? options = some text
      · simp [hlater, hanchor]
      · by_cases hlong : options.minLiteralLength ≤ text.length
        · by_cases hin : text ∈ root.literalTexts <;> simp [hlater, hanchor, hlong, hin]
        · simp [hlater, hanchor, hlong]

/-- The literals of a set are those that are entered tree by tree. -/
theorem literalsOf_eq_foldl (roots : List Node) :
    literalsOf options roots = roots.foldl (enterLiterals options) ∅ := by
  apply Table.ext_get?
  intro text
  have hempty : (∅ : Table String Bool).get? text = none := rfl
  rw [get?_literalsOf, get?_foldl_enterLiterals, hempty, Option.none_or]

/-! ### The same trees -/

section

variable (h : ∀ root, root ∈ roots ↔ root ∈ roots')

include h

theorem literalsOf_congr : literalsOf options roots = literalsOf options roots' := by
  apply Table.ext_get?
  intro text
  simp only [get?_literalsOf, h]

theorem lengthRange_congr : lengthRange options roots = lengthRange options roots' := by
  by_cases hroots : roots = []
  · subst hroots
    have hroots' : roots' = [] :=
      List.eq_nil_iff_forall_not_mem.mpr fun root hroot ↦ List.not_mem_nil ((h root).mpr hroot)
    rw [hroots']
  · have hroots' : roots' ≠ [] := by
      obtain ⟨root, hroot⟩ := List.exists_mem_of_ne_nil roots hroots
      exact List.ne_nil_of_mem ((h root).mp hroot)
    obtain ⟨hleast, hgreatest⟩ := @isLeast_isGreatest_lengthRange options roots hroots
    simp only [h] at hleast hgreatest
    obtain ⟨hleast', hgreatest'⟩ := @isLeast_isGreatest_lengthRange options roots' hroots'
    exact Prod.ext (hleast.unique hleast') (hgreatest.unique hgreatest')

/-- The order and the number of times in which trees are given do not show in their pre-filter. -/
theorem ofTrees_congr : ofTrees options roots = ofTrees options roots' := by
  have hany : ∀ test : Node → Bool, roots.any test = roots'.any test := by
    intro test
    rw [Bool.eq_iff_iff]
    simp only [List.any_eq_true, h]
  have hempty : roots.isEmpty = roots'.isEmpty := by
    rw [Bool.eq_iff_iff]
    simp only [List.isEmpty_iff, List.eq_nil_iff_forall_not_mem, h]
  have hchars : ∀ f : String → List (Char × Unit),
      Table.ofList ((roots.flatMap Node.literalTexts).flatMap f)
        = Table.ofList ((roots'.flatMap Node.literalTexts).flatMap f) := by
    intro f
    apply Table.ext_keys
    intro c
    simp only [Table.mem_keys_ofList, List.mem_flatMap, h]
  rw [ofTrees, ofTrees]
  simp only [literalsOf_congr h, lengthRange_congr h, hany, hempty, hchars]

end

/-- Two lists with the same patterns, in whichever order and however often, have the same
pre-filter. -/
theorem ofPatterns_eq_of_mem_iff (options : PrefilterOptions) {ps qs : List Pattern}
    (h : ∀ p, p ∈ ps ↔ p ∈ qs) : ofPatterns options ps = ofPatterns options qs := by
  apply ofTrees_congr
  intro root
  simp only [List.mem_map, h]

/-- A literal that one pattern must start with stays such a literal where another pattern, given
before and after, may leave it out. -/
theorem ofPatterns_eq_reordered :
    ∃ p q, Compiler.standard.compile "news\x7bn:int\x7d" = .ok p ∧
      Compiler.standard.compile "(news)archive" = .ok q ∧
      ofPatterns .standard [p, q] = ofPatterns .standard [q, p, q] ∧
      (ofPatterns .standard [q, p, q]).literals.get? "news" = some true := by
  have htest : (Compiler.standard.compile "news\x7bn:int\x7d").toOption.any
      (fun p ↦ p.tree.anchor? .standard == some "news") = true := by
    decide +kernel
  have htest' : (Compiler.standard.compile "(news)archive").toOption.any
      (fun q ↦ q.tree.literalTexts == ["news", "archive"]) = true := by
    decide +kernel
  obtain ⟨p, hp, hanchor⟩ := exists_ok_of_any htest
  obtain ⟨q, hq, -⟩ := exists_ok_of_any htest'
  have hsame : ∀ r, r ∈ [p, q] ↔ r ∈ [q, p, q] := by
    intro r
    simp only [List.mem_cons, List.not_mem_nil, or_false]
    tauto
  refine ⟨p, q, hp, hq, ofPatterns_eq_of_mem_iff .standard hsame, ?_⟩
  have hmem : p ∈ [q, p, q] := List.mem_cons_of_mem _ List.mem_cons_self
  exact get?_literalsOf_eq_true_iff.mpr ⟨p.tree, List.mem_map_of_mem hmem, eq_of_beq hanchor⟩

/-! ### More trees -/

section

variable (hsub : roots ⊆ roots')

include hsub

/-- The range of lengths grows. -/
theorem lengthRange_mono (hroots : roots ≠ []) :
    (lengthRange options roots').1 ≤ (lengthRange options roots).1 ∧
      (lengthRange options roots).2 ≤ (lengthRange options roots').2 := by
  have hroots' : roots' ≠ [] := fun hnil ↦ hroots (List.subset_nil.mp (hnil ▸ hsub))
  obtain ⟨hleast, hgreatest⟩ := @isLeast_isGreatest_lengthRange options roots hroots
  obtain ⟨hleast', hgreatest'⟩ := @isLeast_isGreatest_lengthRange options roots' hroots'
  constructor
  · apply hleast.mono hleast'
    rintro n ⟨root, hroot, hn⟩
    exact ⟨root, hsub hroot, hn⟩
  · apply hgreatest.mono hgreatest'
    rintro n ⟨root, hroot, hn⟩
    exact ⟨root, hsub hroot, hn⟩

/-- Where the bytes are looked at with more trees, they were before, and fewer were allowed. -/
theorem containsAll_mono (hroots : roots ≠ []) {s : String}
    (hchars : (ofTrees options roots).usesCharLookup = true →
      (ofTrees options roots).charLookup.containsAll s = true)
    (huses : (ofTrees options roots').usesCharLookup = true) :
    (ofTrees options roots').charLookup.containsAll s = true := by
  have hgroups := (usesCharLookup_ofTrees_iff.mp huses).2
  have hall := hchars (usesCharLookup_ofTrees_iff.mpr
    ⟨hroots, fun root hroot ↦ hgroups root (hsub hroot)⟩)
  rw [ByteSet.containsAll, List.all_eq_true] at hall ⊢
  intro b hb
  obtain ⟨root, hroot, htext⟩ := contains_charLookup_iff.mp (hall b hb)
  exact contains_charLookup_iff.mpr ⟨root, hsub hroot, htext⟩

/-- What may start an input still may, if it matters at all. -/
theorem startsWithAnchor_mono {s : String}
    (hstart : (ofTrees options roots).unanchored = true ∨
      (ofTrees options roots).startsWithAnchor s = true) :
    (ofTrees options roots').unanchored = true ∨
      (ofTrees options roots').startsWithAnchor s = true := by
  rcases hstart with hunanchored | hanchor
  · obtain ⟨root, hroot, hnone⟩ := List.any_eq_true.mp hunanchored
    exact .inl (List.any_eq_true.mpr ⟨root, hsub hroot, hnone⟩)
  · obtain ⟨text, hget, hbegins⟩ := startsWithAnchor_iff.mp hanchor
    obtain ⟨root, hroot, htext⟩ := get?_literalsOf_eq_true_iff.mp hget
    have hget' := get?_literalsOf_eq_true_iff.mpr ⟨root, hsub hroot, htext⟩
    exact .inr (startsWithAnchor_iff.mpr ⟨text, hget', hbegins⟩)

/-- What passes the pre-filter of some trees passes that of more trees. -/
theorem supports_mono {s : String} (h : (ofTrees options roots).supports s = true) :
    (ofTrees options roots').supports s = true := by
  rw [supports_iff] at h
  obtain ⟨hne, ⟨hleast, hgreatest⟩, hchars, hstart⟩ := h
  have hroots : roots ≠ [] := by
    -- The greatest length of no trees at all is zero.
    rintro rfl
    exact hne (String.utf8ByteSize_eq_zero_iff.mp (Nat.le_zero.mp hgreatest))
  obtain ⟨hlow, hhigh⟩ := @lengthRange_mono options roots roots' hsub hroots
  rw [supports_iff]
  exact ⟨hne, ⟨Nat.le_trans hlow hleast, Nat.le_trans hgreatest hhigh⟩,
    containsAll_mono hsub hroots hchars, startsWithAnchor_mono hsub hstart⟩

end

/-- Further patterns keep no input from passing. -/
theorem supports_append {options : PrefilterOptions} {ps : List Pattern} {s : String}
    (h : (ofPatterns options ps).supports s = true) (qs : List Pattern) :
    (ofPatterns options (ps ++ qs)).supports s = true := by
  rw [ofPatterns] at h ⊢
  apply supports_mono _ h
  rw [List.map_append]
  exact List.subset_append_left _ _

/-- A pattern of other characters does not keep the texts of the first one from passing. -/
theorem supports_append_archive :
    ∃ p q, Compiler.standard.compile "news" = .ok p ∧
      Compiler.standard.compile "archive\x7bn:int\x7d" = .ok q ∧
      (ofPatterns .standard [p]).supports "news" = true ∧
      (ofPatterns .standard ([p] ++ [q])).supports "news" = true := by
  have htest : (Compiler.standard.compile "news").toOption.any
      (fun p ↦ (ofPatterns .standard [p]).supports "news") = true := by
    decide +kernel
  have htest' : (Compiler.standard.compile "archive\x7bn:int\x7d").toOption.any
      (fun q ↦ !(ofPatterns .standard [q]).supports "news") = true := by
    decide +kernel
  obtain ⟨p, hp, hsupports⟩ := exists_ok_of_any htest
  obtain ⟨q, hq, -⟩ := exists_ok_of_any htest'
  exact ⟨p, q, hp, hq, hsupports, supports_append hsupports [q]⟩

end Prefilter

end UrlPattern
