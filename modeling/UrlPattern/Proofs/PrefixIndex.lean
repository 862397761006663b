import UrlPattern.Proofs.PrefilterExact

/-!
# The index of literals

A pre-filter lists each literal of at least two characters under its first two and under its last
two characters, nowhere else, and nothing but these. A literal at the start of an input has the
first two characters of the input, so the literals under these are the only ones to look at: the
answer is the one that going through all literals would give
(`Prefilter.supports_iff_exists_anchor`). Both keys are cut between characters, however many bytes
these have.

Specification: `SPEC_FULL.md` §10.8 (lines 245–264).
-/

namespace UrlPattern.Prefilter

/-! ### Keys -/

theorem prefixKey?_eq_some_iff {s k : String} :
    prefixKey? s = some k ↔ 2 ≤ s.length ∧ k = String.ofList (s.toList.take 2) := by
  rw [prefixKey?, ← String.length_toList]
  cases s.toList with
  | nil => simp
  | cons a cs =>
    cases cs with
    | nil => simp
    | cons b cs => simp [eq_comm]

theorem suffixKey?_eq_some_iff {s k : String} :
    suffixKey? s = some k ↔
      2 ≤ s.length ∧ k = String.ofList (s.toList.drop (s.length - 2)) := by
  have hreverse : s.toList = s.toList.reverse.reverse := (List.reverse_reverse _).symm
  rw [suffixKey?, ← String.length_toList, hreverse, List.reverse_reverse]
  cases s.toList.reverse with
  | nil => simp
  | cons b cs =>
    cases cs with
    | nil => simp
    | cons a cs =>
      have hlength : (b :: a :: cs).reverse.length - 2 = cs.reverse.length := by simp
      rw [hlength, List.reverse_cons, List.reverse_cons, List.append_assoc, List.drop_left]
      simp [eq_comm]

/-! ### Buckets -/

section

variable {options : PrefilterOptions} {roots : List Node} {k text : String}

/-- The literals with the same first two characters. -/
theorem isUnder_prefixes :
    IsUnder (ofTrees options roots).prefixes k text ↔
      (ofTrees options roots).literals.contains text = true ∧ 2 ≤ text.length ∧
        k = String.ofList (text.toList.take 2) := by
  have hbuckets : (ofTrees options roots).prefixes
      = groupBy prefixKey? (ofTrees options roots).literals.keys := rfl
  rw [hbuckets, isUnder_groupBy, ← Table.contains_iff_mem_keys, prefixKey?_eq_some_iff]

/-- The literals with the same last two characters. -/
theorem isUnder_suffixes :
    IsUnder (ofTrees options roots).suffixes k text ↔
      (ofTrees options roots).literals.contains text = true ∧ 2 ≤ text.length ∧
        k = String.ofList (text.toList.drop (text.length - 2)) := by
  have hbuckets : (ofTrees options roots).suffixes
      = groupBy suffixKey? (ofTrees options roots).literals.keys := rfl
  rw [hbuckets, isUnder_groupBy, ← Table.contains_iff_mem_keys, suffixKey?_eq_some_iff]

end

/-- An input that passes by its length and its bytes passes exactly if it starts with a literal that
some pattern must start with, unless some pattern may start with anything. Each literal of at least
two characters is listed under its first two and its last two, and nothing else is listed.
`SPEC_FULL.md:254`. -/
theorem supports_iff_exists_anchor (options : PrefilterOptions) (patterns : List Pattern) :
    (∀ s, s ≠ "" →
        (ofPatterns options patterns).minLen ≤ s.utf8ByteSize →
        s.utf8ByteSize ≤ (ofPatterns options patterns).maxLen →
        ((ofPatterns options patterns).usesCharLookup = true →
          (ofPatterns options patterns).charLookup.containsAll s = true) →
        (ofPatterns options patterns).unanchored = false →
        ((ofPatterns options patterns).supports s = true ↔
          ∃ text, (ofPatterns options patterns).literals.get? text = some true ∧
            text.toList <+: s.toList)) ∧
      (∀ k text, IsUnder (ofPatterns options patterns).prefixes k text ↔
        (ofPatterns options patterns).literals.contains text = true ∧ 2 ≤ text.length ∧
          k = String.ofList (text.toList.take 2)) ∧
      ∀ k text, IsUnder (ofPatterns options patterns).suffixes k text ↔
        (ofPatterns options patterns).literals.contains text = true ∧ 2 ≤ text.length ∧
          k = String.ofList (text.toList.drop (text.length - 2)) := by
  refine ⟨fun s hne hleast hgreatest hchars hanchored ↦ ?_, fun k text ↦ isUnder_prefixes,
    fun k text ↦ isUnder_suffixes⟩
  have hscan : (ofPatterns options patterns).startsWithAnchor s = true ↔
      ∃ text, (ofPatterns options patterns).literals.get? text = some true ∧
        text.toList <+: s.toList := startsWithAnchor_iff
  rw [← hscan, supports_iff, hanchored]
  constructor
  · rintro ⟨-, -, -, hunanchored | hstart⟩
    · cases hunanchored
    · exact hstart
  · intro hstart
    exact ⟨hne, ⟨hleast, hgreatest⟩, hchars, .inr hstart⟩

/-- Two literals under one key, of which an input starts with the one that is no anchor. -/
theorem supports_iff_exists_anchor_twoBytes :
    ∃ p, Compiler.standard.compile "été\x7bn:int\x7d(étude)" = .ok p ∧
      (ofPatterns .standard [p]).unanchored = false ∧
      (∃ text, (ofPatterns .standard [p]).literals.get? text = some true ∧
        text.toList <+: "été7".toList) ∧
      (¬ ∃ text, (ofPatterns .standard [p]).literals.get? text = some true ∧
        text.toList <+: "étude7".toList) ∧
      IsUnder (ofPatterns .standard [p]).prefixes "ét" "étude" ∧
      IsUnder (ofPatterns .standard [p]).suffixes "té" "été" := by
  have htest : (Compiler.standard.compile "été\x7bn:int\x7d(étude)").toOption.any (fun p ↦
      let f := ofPatterns .standard [p]
      f.minLen ≤ 5 && 7 ≤ f.maxLen && !f.usesCharLookup && !f.unanchored &&
        f.supports "été7" && !f.supports "étude7" && f.literals.contains "été" &&
        f.literals.contains "étude") = true := by
    decide +kernel
  obtain ⟨p, hp, htest⟩ := exists_ok_of_any htest
  simp only [Bool.and_eq_true, Bool.not_eq_true', decide_eq_true_eq] at htest
  obtain ⟨⟨⟨⟨⟨⟨⟨hleast, hgreatest⟩, hchars⟩, hanchored⟩, hyes⟩, hno⟩, hfirst⟩, hsecond⟩ := htest
  obtain ⟨hscan, hprefixes, hsuffixes⟩ := supports_iff_exists_anchor .standard [p]
  have hbytes : (ofPatterns .standard [p]).usesCharLookup = true →
      ∀ s, (ofPatterns .standard [p]).charLookup.containsAll s = true := by
    rw [hchars]
    exact fun hlookup ↦ absurd hlookup Bool.false_ne_true
  refine ⟨p, hp, hanchored, ?_, ?_, ?_, ?_⟩
  · exact (hscan "été7" (by decide) (Nat.le_trans hleast (by decide))
      (Nat.le_trans (by decide) hgreatest) (hbytes · _) hanchored).mp hyes
  · rw [← hscan "étude7" (by decide) (Nat.le_trans hleast (by decide))
      (Nat.le_trans (by decide) hgreatest) (hbytes · _) hanchored, hno]
    exact Bool.false_ne_true
  · exact (hprefixes "ét" "étude").mpr ⟨hsecond, by decide, by decide⟩
  · exact (hsuffixes "té" "été").mpr ⟨hfirst, by decide, by decide⟩

end UrlPattern.Prefilter
