import UrlPattern.Proofs.ParsedTree

/-!
# What compiled patterns match

A pattern that was compiled with the types that every registry may start with matches the texts of
its tree and no others, and what its groups capture is their part in the best division of the input.
The structural rules of the compiler play no role in this, so they are left open.

Specification: `SPEC_FULL.md` §4.5 (lines 60–61).
-/

namespace UrlPattern

namespace Pattern

/-- What is known of a compiled pattern: its expression is derived from its tree, whose groups are
of the types that every registry may start with and have different captures. -/
structure IsDerived (p : Pattern) : Prop where
  tree : p.tree.IsDerived
  builtin : p.tree.IsBuiltin
  captureNames_nodup : (Node.captureNames p.tree.groups).Nodup
  regexText_eq : p.regexText = p.tree.anchoredRegex

variable {p : Pattern}

/-- The bounds on the lengths of words in a pattern that was read fit a count. -/
theorem IsDerived.countsFit (h : p.IsDerived) : ∀ g ∈ p.tree.groups, g.CountsFit := by
  by_contra hnot
  have hnone := Node.read?_anchoredRegex_eq_none h.tree h.builtin h.captureNames_nodup hnot
  have hread := p.parse?_regexText
  rw [Regex.parse?, h.regexText_eq, hnone] at hread
  cases hread

/-- The expression of a pattern is the sequence of the parts of its tree. -/
theorem IsDerived.regex_eq (h : p.IsDerived) :
    p.regex = Regex.Reader.sequence p.tree.wholeItems.reverse := by
  have hread := p.parse?_regexText
  rw [Regex.parse?, h.regexText_eq, Option.filter_eq_some_iff,
    Node.read?_anchoredRegex h.tree h.builtin h.captureNames_nodup h.countsFit] at hread
  exact (Option.some.inj hread.1).symm

/-- A pattern captures what the first division of the input captures. -/
theorem IsDerived.captures? (h : p.IsDerived) (s : String) :
    p.regex.captures? s
      = ((p.tree.divisions s.toList).filter fun d ↦ d.text = s.toList).head?.map
          fun d ↦ (d.walk (Node.startCursor s.toList)).captures := by
  rw [h.regex_eq, Node.captures?_whole _ h.builtin]

/-- The groups of a pattern capture their texts in the best division of the input, and those in a
section that is left out capture nothing. -/
theorem IsDerived.dividesBest_of_captures? (h : p.IsDerived) {s : String}
    {captures : List Regex.Capture} (hcap : p.regex.captures? s = some captures) :
    ∃ d, p.tree.DividesBest s.toList d ∧
      ∀ g ∈ p.tree.groups,
        (∀ t, Regex.capturedText? captures g.captureName = some (String.ofList t)
          ↔ .group g t ∈ d) ∧
        (Regex.capturedText? captures g.captureName = none
          ↔ ∃ children, .absent children ∈ d ∧ g ∈ Node.groupsOf children) := by
  rw [h.captures?] at hcap
  obtain ⟨d, hd, rfl⟩ := Option.map_eq_some_iff.mp hcap
  have hbest := Node.dividesBest_of_head? hd
  have hbegins : d.text <+: (Node.startCursor s.toList).rest := by
    rw [hbest.text_eq]
    exact List.prefix_refl _
  refine ⟨d, hbest, fun g hg ↦ ⟨fun t ↦ ?_, ?_⟩⟩
  · exact capturedText?_eq_some_iff hbest.divides h.captureNames_nodup rfl hbegins hg t
  · exact capturedText?_eq_none_iff hbest.divides h.captureNames_nodup rfl hbegins hg

/-- What a group captures is a text of the group. -/
theorem IsDerived.spells_captured (h : p.IsDerived) {s : String} {captures : List Regex.Capture}
    (hcap : p.regex.captures? s = some captures) {g : Group} (hg : g ∈ p.tree.groups) {t : String}
    (ht : Regex.capturedText? captures g.captureName = some t) : g.Spells t.toList := by
  obtain ⟨d, hbest, hgroups⟩ := h.dividesBest_of_captures? hcap
  refine hbest.divides.spells (((hgroups g hg).1 t.toList).mp ?_)
  rwa [String.ofList_toList]

/-- No group captures the empty text. -/
theorem IsDerived.ne_empty_of_captured (h : p.IsDerived) {s : String}
    {captures : List Regex.Capture} (hcap : p.regex.captures? s = some captures) {g : Group}
    (hg : g ∈ p.tree.groups) {t : String}
    (ht : Regex.capturedText? captures g.captureName = some t) : t ≠ "" := by
  rintro rfl
  exact (h.spells_captured hcap hg ht).ne_nil rfl

/-- A pattern matches the texts of its tree other than the empty one. -/
theorem IsDerived.isMatch_iff (h : p.IsDerived) (s : String) :
    p.isMatch s = true ↔ s ≠ "" ∧ s.toList ∈ p.tree.language := by
  rw [isMatch_eq, Bool.and_eq_true, decide_eq_true_eq, Regex.isMatch, h.captures?,
    Option.isSome_map, List.isSome_head?, Node.mem_language]
  refine and_congr_right fun _ ↦ ?_
  rw [← List.length_pos_iff, List.length_pos_iff_exists_mem]
  simp only [List.mem_filter, Node.mem_divisions, decide_eq_true_eq]
  constructor
  · rintro ⟨d, ⟨hd, -⟩, htext⟩
    exact ⟨d, hd, htext⟩
  · rintro ⟨d, hd, htext⟩
    exact ⟨d, ⟨hd, htext ▸ List.prefix_refl _⟩, htext⟩

end Pattern

/-- A computation whose result passes a test has a result. -/
theorem exists_ok_of_any {ε α : Type} {x : Except ε α} {test : α → Bool}
    (h : x.toOption.any test = true) : ∃ a, x = .ok a ∧ test a = true := by
  cases x with
  | error e => cases h
  | ok a => exact ⟨a, rfl, h⟩

namespace Compiler

variable {pipeline : Pipeline} {source : String} {named : NamedTree} {p : Pattern}

/-- What is known of the tree of a pattern that was checked. -/
theorem tree_of_check (h : (⟨.builtin, pipeline⟩ : Compiler).check source = .ok named) :
    named.tree.IsDerived ∧ named.tree.IsBuiltin ∧ (Node.captureNames named.tree.groups).Nodup := by
  obtain ⟨⟨children, last, hread, htree⟩, -⟩ := check_eq_ok h
  rw [htree]
  refine ⟨?_, hread.isBuiltin, hread.captureNames_nodup⟩
  simp only [Node.ofChildren, Node.IsDerived]
  exact ⟨rfl, hread.areDerived⟩

theorem isDerived_of_compile (h : (⟨.builtin, pipeline⟩ : Compiler).compile source = .ok p) :
    p.IsDerived := by
  obtain ⟨named, hcheck, -, htree, -, htext⟩ := compile_eq_ok h
  obtain ⟨hder, hbuiltin, hnames⟩ := tree_of_check hcheck
  rw [← htree] at hder hbuiltin hnames
  exact ⟨hder, hbuiltin, hnames, htext⟩

/-- The derived expression of a checked tree is well-formed exactly if the bounds on the lengths of
words fit a count, and a compiled pattern matches the texts of its tree other than the empty one.
`SPEC_FULL.md:36`. -/
theorem isMatch_iff_mem_language
    (h : (⟨.builtin, pipeline⟩ : Compiler).check source = .ok named) :
    ((Regex.read? named.tree.anchoredRegex).isSome ↔ ∀ g ∈ named.tree.groups, g.CountsFit) ∧
      ∀ p, (⟨.builtin, pipeline⟩ : Compiler).compile source = .ok p →
        p.tree = named.tree ∧ Regex.read? p.tree.anchoredRegex = some p.regex ∧
          ∀ s, p.isMatch s = true ↔ s ≠ "" ∧ s.toList ∈ p.tree.language := by
  obtain ⟨hder, hbuiltin, hnames⟩ := tree_of_check h
  refine ⟨⟨fun hsome ↦ ?_, fun hfits ↦ ?_⟩, fun p hp ↦ ?_⟩
  · by_contra hnot
    rw [Node.read?_anchoredRegex_eq_none hder hbuiltin hnames hnot] at hsome
    cases hsome
  · rw [Node.read?_anchoredRegex hder hbuiltin hnames hfits]
    rfl
  · have hp' := isDerived_of_compile hp
    obtain ⟨named', hcheck, -, htree, -, -⟩ := compile_eq_ok hp
    rw [h] at hcheck
    cases hcheck
    refine ⟨htree, ?_, hp'.isMatch_iff⟩
    rw [hp'.regex_eq]
    exact Node.read?_anchoredRegex hp'.tree hp'.builtin hp'.captureNames_nodup hp'.countsFit

/-- A pattern of one compiled group, where the expression accepts a text that the tree denotes. -/
theorem mem_language_version :
    ∃ named p, standard.check "v\x7bn:int\x7d" = .ok named ∧
      standard.compile "v\x7bn:int\x7d" = .ok p ∧ "v7".toList ∈ p.tree.language := by
  have htest : (standard.compile "v\x7bn:int\x7d").toOption.any (·.isMatch "v7") = true := by
    decide +kernel
  obtain ⟨p, hp, hmatch⟩ := exists_ok_of_any htest
  obtain ⟨named, hcheck, -⟩ := compile_eq_ok hp
  have hiff := ((isMatch_iff_mem_language hcheck).2 p hp).2.2 "v7"
  exact ⟨named, p, hcheck, hp, (hiff.mp hmatch).2⟩

/-- The captures of a match are the texts of the groups in the best division of the input along the
tree. A group captures nothing exactly if a section around it is left out. `SPEC_FULL.md:61`. -/
theorem match?_dividesBest (h : (⟨.builtin, pipeline⟩ : Compiler).compile source = .ok p)
    {s : String} {r : MatchResult} (hmatch : p.match? s = some r) :
    ∃ captures d, p.regex.captures? s = some captures ∧
      r = p.tree.groups.foldl (MatchResult.addGroup (Regex.capturedText? captures)) (.ofInput s) ∧
      p.tree.DividesBest s.toList d ∧
      (∀ g t, .group g t ∈ d → t ≠ []) ∧
      ∀ g ∈ p.tree.groups,
        (∀ t, Regex.capturedText? captures g.captureName = some (String.ofList t)
          ↔ .group g t ∈ d) ∧
        (Regex.capturedText? captures g.captureName = none
          ↔ ∃ children, .absent children ∈ d ∧ g ∈ Node.groupsOf children) := by
  rw [Pattern.match?_eq] at hmatch
  split at hmatch
  · cases hmatch
  · obtain ⟨captures, hcap, hr⟩ := Option.map_eq_some_iff.mp hmatch
    obtain ⟨d, hbest, hgroups⟩ := (isDerived_of_compile h).dividesBest_of_captures? hcap
    exact ⟨captures, d, hcap, hr.symm, hbest, fun g t hin ↦ (hbest.divides.spells hin).ne_nil,
      hgroups⟩

/-- Of two groups that share a row of digits, the first one takes what its bound allows. -/
theorem dividesBest_digits :
    ∃ p d, standard.compile "\x7bx:int(max=9)\x7d\x7by:int(max=99)\x7d" = .ok p ∧
      p.tree.DividesBest "123".toList d ∧ ∃ g ∈ p.tree.groups, .group g ['1'] ∈ d := by
  have htest : (standard.compile "\x7bx:int(max=9)\x7d\x7by:int(max=99)\x7d").toOption.any
      (fun p ↦ (p.match? "123").isSome && p.tree.groups.any fun g ↦
        (p.regex.captures? "123").any fun captures ↦
          Regex.capturedText? captures g.captureName == some "1") = true := by
    decide +kernel
  obtain ⟨p, hp, htest⟩ := exists_ok_of_any htest
  obtain ⟨hmatch, hgroup⟩ := Bool.and_eq_true_iff.mp htest
  obtain ⟨r, hr⟩ := Option.isSome_iff_exists.mp hmatch
  obtain ⟨captures, d, hcaptures, -, hbest, -, hgroups⟩ := match?_dividesBest hp hr
  obtain ⟨g, hg, htext⟩ := List.any_eq_true.mp hgroup
  rw [hcaptures] at htext
  exact ⟨p, d, hp, hbest, g, hg, ((hgroups g hg).1 ['1']).mp (by simpa using htext)⟩

end Compiler

end UrlPattern
