import UrlPattern.Proofs.CharacterClass
import UrlPattern.Proofs.CompiledPattern
import UrlPattern.Proofs.PrefilterExact

/-!
# The characters that may pass

If no pattern of a set has groups, its pre-filter looks at the characters of an input in two ways:
by a table of bytes, and by an expression over whole characters. The expression matches the
non-empty texts over the characters of the literals. The table passes all of these, and other texts
too if several characters beyond ASCII share their bytes: from the bytes of two of them a third one
may be put together. For texts of ASCII, and for literals of ASCII, both say the same
(`Prefilter.isMatch_charPattern_iff`).

Specification: `SPEC_FULL.md` §10.8 (lines 245–264).
-/

namespace UrlPattern

/-! ### Bytes that characters share -/

namespace Text

/-- A character of ASCII is one byte. -/
theorem utf8EncodeChar_of_lt {c : Char} (h : c.toNat < 128) :
    String.utf8EncodeChar c = [UInt8.ofNat c.toNat] := by
  have hle : c.val.toNat ≤ 127 := Nat.le_of_lt_succ h
  simp only [String.utf8EncodeChar, if_pos hle]
  rfl

/-- Beyond ASCII no byte of a character is one of ASCII. -/
theorem le_of_mem_utf8EncodeChar {c : Char} {b : UInt8} (h : b ∈ String.utf8EncodeChar c)
    (hc : 128 ≤ c.toNat) : 128 ≤ b.toNat := by
  have hhigh : ∀ n, b = UInt8.ofNat n → 128 ≤ n → n < 256 → 128 ≤ b.toNat := by
    rintro n rfl hn hlt
    rwa [UInt8.toNat_ofNat', Nat.mod_eq_of_lt hlt]
  have hgt : ¬ c.val.toNat ≤ 127 := Nat.not_le.mpr hc
  simp only [String.utf8EncodeChar, if_neg hgt] at h
  split at h
  · simp only [List.mem_cons, List.not_mem_nil, or_false] at h
    rcases h with h | h <;> exact hhigh _ h (by omega) (by omega)
  · split at h
    · simp only [List.mem_cons, List.not_mem_nil, or_false] at h
      rcases h with h | h | h <;> exact hhigh _ h (by omega) (by omega)
    · simp only [List.mem_cons, List.not_mem_nil, or_false] at h
      rcases h with h | h | h | h <;> exact hhigh _ h (by omega) (by omega)

/-- If a character of ASCII and another one share a byte, both are the same. -/
theorem eq_of_mem_utf8EncodeChar {c d : Char} {b : UInt8} (hc : c.toNat < 128)
    (h : b ∈ String.utf8EncodeChar c) (h' : b ∈ String.utf8EncodeChar d) : d = c := by
  have hcode : ∀ {c : Char}, c.toNat < 128 → b ∈ String.utf8EncodeChar c →
      b.toNat = c.toNat := by
    intro c hc h
    rw [utf8EncodeChar_of_lt hc, List.mem_singleton] at h
    rw [h, UInt8.toNat_ofNat']
    omega
  have hlow := hcode hc h
  have hd : d.toNat < 128 := by
    by_contra hnot
    have hhigh := le_of_mem_utf8EncodeChar h' (Nat.not_lt.mp hnot)
    omega
  exact Char.toNat_inj.mp ((hcode hd h').symm.trans hlow)

theorem exists_mem_utf8EncodeChar (c : Char) : ∃ b, b ∈ String.utf8EncodeChar c := by
  apply List.exists_mem_of_length_pos
  rw [String.length_utf8EncodeChar]
  exact c.utf8Size_pos

end Text

/-! ### Patterns without groups -/

namespace Node.ReadsElements

variable {types : TypeRegistry} {inSection : Bool} {next last : Nat} {cs : List Char}
  {ns : List Node}

theorem eq_nil (h : ReadsElements types inSection next cs [] last) : cs = [] := by
  cases h
  rfl

/-- What was read and has content has a literal with a character, if it has no groups. -/
theorem exists_literalChar (h : ReadsElements types inSection next cs ns last) (hne : ns ≠ [])
    (hgroups : groupsOf ns = []) (hcontent : checkContents ns = .ok ()) :
    ∃ text ∈ literalTextsOf ns, ∃ c, c ∈ text.toList := by
  induction h with
  | nil => exact absurd rfl hne
  | group => cases hgroups
  | marked => cases hgroups
  | @«section» _ _ _ _ _ _ children _ _ _ _ ihchildren =>
    rw [groupsOf_optional, List.append_eq_nil_iff] at hgroups
    obtain ⟨⟨⟩, hsection, -⟩ := bind_eq_ok.mp hcontent
    rw [checkContent] at hsection
    split at hsection
    · cases hsection
    · next hsome =>
      have hchildren : children ≠ [] := fun hnil ↦ hsome (by rw [hnil]; rfl)
      obtain ⟨text, htext, hchar⟩ := ihchildren hchildren hgroups.1 hsection
      exact ⟨text, List.mem_append_left _ htext, hchar⟩
  | @text _ _ _ text _ _ hchars =>
    obtain ⟨c, text, rfl⟩ := List.exists_cons_of_ne_nil hchars
    refine ⟨String.ofList (c :: text), List.mem_cons_self, c, ?_⟩
    rw [String.toList_ofList]
    exact List.mem_cons_self

end Node.ReadsElements

namespace Pipeline

/-- A rule of a pipeline holds of the trees that pass it. -/
theorem check_eq_ok_of_validate {rules : Pipeline} {root : Node} (h : rules.validate root = .ok ())
    {rule : Validator} (hrule : rule ∈ rules) : rule.check root = .ok () := by
  induction rules with
  | nil => cases hrule
  | cons first rules ih =>
    obtain ⟨⟨⟩, hfirst, hrest⟩ := bind_eq_ok.mp h
    rcases List.mem_cons.mp hrule with rfl | hrule
    · exact hfirst
    · exact ih hrest hrule

end Pipeline

/-! ### The table and the expression -/

namespace Prefilter

variable {options : PrefilterOptions} {roots : List Node} {c : Char} {s : String}

/-- Some literal of the trees has the character. -/
def HasLiteralChar (roots : List Node) (c : Char) : Prop :=
  ∃ root ∈ roots, ∃ text ∈ root.literalTexts, c ∈ text.toList

/-- The table has the bytes of the characters of the literals. -/
theorem contains_charLookup_iff_hasLiteralChar {b : UInt8} :
    (ofTrees options roots).charLookup.contains b = true ↔
      ∃ c, HasLiteralChar roots c ∧ b ∈ String.utf8EncodeChar c := by
  rw [contains_charLookup_iff]
  constructor
  · rintro ⟨root, hroot, text, htext, hb⟩
    obtain ⟨c, hc, hb⟩ := List.mem_flatMap.mp hb
    exact ⟨c, ⟨root, hroot, text, htext, hc⟩, hb⟩
  · rintro ⟨c, ⟨root, hroot, text, htext, hc⟩, hb⟩
    exact ⟨root, hroot, text, htext, List.mem_flatMap.mpr ⟨c, hc, hb⟩⟩

/-- The table passes a text if it has the bytes of each character. -/
theorem containsAll_iff {set : ByteSet} : set.containsAll s = true ↔
    ∀ c ∈ s.toList, ∀ b ∈ String.utf8EncodeChar c, set.contains b = true := by
  rw [ByteSet.containsAll, List.all_eq_true]
  simp only [Text.utf8, List.mem_flatMap, forall_exists_index, and_imp]
  exact ⟨fun h c hc b hb ↦ h b c hc hb, fun h b c hc hb ↦ h c hc b hb⟩

/-- A text has only characters of the literals if the table passes it and has the characters beyond
ASCII not by their bytes alone. -/
theorem forall_hasLiteralChar_iff : (∀ c ∈ s.toList, HasLiteralChar roots c) ↔
    (ofTrees options roots).charLookup.containsAll s = true ∧
      ∀ c ∈ s.toList, 128 ≤ c.toNat → HasLiteralChar roots c := by
  rw [containsAll_iff]
  constructor
  · refine fun h ↦ ⟨fun c hc b hb ↦ ?_, fun c hc _ ↦ h c hc⟩
    exact contains_charLookup_iff_hasLiteralChar.mpr ⟨c, h c hc, hb⟩
  · rintro ⟨hbytes, hbeyond⟩ c hc
    -- A byte of ASCII tells the character that it comes from; other bytes do not.
    rcases Nat.lt_or_ge c.toNat 128 with hlow | hhigh
    · obtain ⟨b, hb⟩ := Text.exists_mem_utf8EncodeChar c
      obtain ⟨d, hd, hin⟩ := contains_charLookup_iff_hasLiteralChar.mp (hbytes c hc b hb)
      rwa [← Text.eq_of_mem_utf8EncodeChar hlow hb hin]
    · exact hbeyond c hc hhigh

/-- If all literals are of ASCII, so is every text that the table passes. -/
theorem lt_of_containsAll (hliterals : ∀ c, HasLiteralChar roots c → c.toNat < 128)
    (h : (ofTrees options roots).charLookup.containsAll s = true) {c : Char} (hc : c ∈ s.toList) :
    c.toNat < 128 := by
  obtain ⟨b, hb⟩ := Text.exists_mem_utf8EncodeChar c
  obtain ⟨d, hd, hin⟩ := contains_charLookup_iff_hasLiteralChar.mp (containsAll_iff.mp h c hc b hb)
  have hlow := hliterals d hd
  rwa [Text.eq_of_mem_utf8EncodeChar hlow hin hb]

/-- Without groups, there is an expression of the characters of the literals. -/
theorem charPattern_ofTrees (hroots : roots ≠ []) (hgroups : ∀ root ∈ roots, root.groups = []) :
    ∃ chars : List Char, (ofTrees options roots).charPattern = some (classPattern chars) ∧
      ∀ c, c ∈ chars ↔ HasLiteralChar roots c := by
  let entries := (roots.flatMap Node.literalTexts).flatMap fun text ↦
    text.toList.map fun c ↦ (c, ())
  have hpattern : (ofTrees options roots).charPattern
      = if (ofTrees options roots).usesCharLookup then
          some (classPattern (Table.ofList entries).keys)
        else none := rfl
  refine ⟨(Table.ofList entries).keys, ?_, fun c ↦ ?_⟩
  · rw [hpattern, if_pos (usesCharLookup_ofTrees_iff.mpr ⟨hroots, hgroups⟩)]
  · rw [Table.mem_keys_ofList]
    simp only [entries, List.mem_flatMap, List.mem_map]
    constructor
    · rintro ⟨_, text, ⟨root, hroot, htext⟩, d, hd, heq⟩
      cases heq
      exact ⟨root, hroot, text, htext, hd⟩
    · rintro ⟨root, hroot, text, htext, hc⟩
      exact ⟨(), text, ⟨root, hroot, htext⟩, c, hc, rfl⟩

/-- A pattern without groups has a literal with a character, if no empty section is accepted. -/
theorem exists_literalChar_of_compile {compiler : Compiler} {source : String} {p : Pattern}
    (hrule : .treeContext ∈ compiler.pipeline) (h : compiler.compile source = .ok p)
    (hgroups : p.tree.groups = []) : ∃ c, ∃ text ∈ p.tree.literalTexts, c ∈ text.toList := by
  obtain ⟨named, hcheck, -, htree, -⟩ := Compiler.compile_eq_ok h
  obtain ⟨⟨children, last, hread, hroot⟩, hvalid⟩ := Compiler.check_eq_ok hcheck
  have hcontent : named.tree.checkContent = .ok () :=
    Pipeline.check_eq_ok_of_validate hvalid hrule
  rw [htree, hroot] at hgroups ⊢
  rw [hroot] at hcontent
  have hne : children ≠ [] := by
    rintro rfl
    obtain ⟨tree, hparse, -⟩ := bind_eq_ok.mp hcheck
    have hsource := (Node.parse_eq_ok_iff_readsElements.mp hparse).1
    exact hsource (String.toList_eq_nil_iff.mp hread.eq_nil)
  obtain ⟨text, htext, c, hc⟩ := hread.exists_literalChar hne hgroups hcontent
  exact ⟨c, text, htext, hc⟩

/-- For patterns without groups, the expression of the characters is well-formed. It matches the
texts over the characters of the literals. These pass the table of bytes, and no other text of ASCII
does. If all literals are of ASCII, the table and the expression say the same of all texts.
`SPEC_FULL.md:259–260`. -/
theorem isMatch_charPattern_iff {options : PrefilterOptions} {patterns : List Pattern}
    (hne : patterns ≠ [])
    (hpatterns : ∀ p ∈ patterns, ∃ (compiler : Compiler) (source : String),
      .treeContext ∈ compiler.pipeline ∧ compiler.compile source = .ok p)
    (hgroups : ∀ p ∈ patterns, p.tree.groups = []) :
    let f := ofPatterns options patterns
    let roots := patterns.map (·.tree)
    ∃ e r, f.charPattern = some e ∧ Regex.read? e = some r ∧ ∀ s : String, s ≠ "" →
      (r.isMatch s = true ↔ ∀ c ∈ s.toList, HasLiteralChar roots c) ∧
      (r.isMatch s = true ↔ f.charLookup.containsAll s = true ∧
        ∀ c ∈ s.toList, 128 ≤ c.toNat → HasLiteralChar roots c) ∧
      ((∀ c, HasLiteralChar roots c → c.toNat < 128) →
        (r.isMatch s = true ↔ f.charLookup.containsAll s = true)) := by
  intro f roots
  have hroots : roots ≠ [] := fun hnil ↦ hne (List.map_eq_nil_iff.mp hnil)
  obtain ⟨chars, hpattern, hmem⟩ :=
    @charPattern_ofTrees options roots hroots (List.forall_mem_map.mpr hgroups)
  have hchars : chars ≠ [] := by
    obtain ⟨p, rest, rfl⟩ := List.exists_cons_of_ne_nil hne
    have hp := List.mem_cons_self (a := p) (l := rest)
    obtain ⟨compiler, source, hrule, hcompile⟩ := hpatterns p hp
    obtain ⟨c, text, htext, hc⟩ := exists_literalChar_of_compile hrule hcompile (hgroups p hp)
    have hin := (hmem c).mpr ⟨p.tree, List.mem_cons_self, text, htext, hc⟩
    exact List.ne_nil_of_mem hin
  refine ⟨_, _, hpattern, read?_classPattern hchars, fun s hs ↦ ?_⟩
  have hmatch : (Regex.tied (Regex.classItems chars)).isMatch s = true ↔
      ∀ c ∈ s.toList, HasLiteralChar roots c := by
    rw [Regex.isMatch_classItems_iff]
    simp only [hmem]
    exact and_iff_right hs
  have hbytes := hmatch.trans (@forall_hasLiteralChar_iff options roots s)
  refine ⟨hmatch, hbytes, fun hliterals ↦ hbytes.trans (and_iff_left_of_imp fun hall c hc hge ↦ ?_)⟩
  exact absurd hge (Nat.not_le.mpr (lt_of_containsAll hliterals hall hc))

/-- Characters with a meaning of their own in brackets, and one beyond ASCII. -/
theorem isMatch_charPattern_escaped :
    ∃ p e r, Compiler.standard.compile "^]é-" = .ok p ∧
      (ofPatterns .standard [p]).charPattern = some e ∧ Regex.read? e = some r ∧
      r.isMatch "-é^" = true ∧ r.isMatch "a" = false := by
  have htest : (Compiler.standard.compile "^]é-").toOption.any (fun p ↦
      p.tree.groups.isEmpty && p.tree.literalTexts == ["^]é-"]) = true := by
    decide +kernel
  obtain ⟨p, hp, htest⟩ := exists_ok_of_any htest
  simp only [Bool.and_eq_true, List.isEmpty_iff, beq_iff_eq] at htest
  obtain ⟨hgroups, htexts⟩ := htest
  obtain ⟨e, r, hpattern, hread, hmatch⟩ := @isMatch_charPattern_iff .standard [p]
    (List.cons_ne_nil _ _) (List.forall_mem_singleton.mpr ⟨.standard, _, List.mem_cons_self, hp⟩)
    (List.forall_mem_singleton.mpr hgroups)
  have hchar : ∀ c, HasLiteralChar [p.tree] c ↔ c ∈ "^]é-".toList := fun c ↦ by
    simp [HasLiteralChar, htexts]
  have hall : "-é^".toList ⊆ "^]é-".toList := by simp
  refine ⟨p, e, r, hp, hpattern, hread, ?_, Bool.eq_false_iff.mpr fun hother ↦ ?_⟩
  · exact (hmatch "-é^" (by decide)).1.mpr fun c hc ↦ (hchar c).mpr (hall hc)
  · have hin := (hchar 'a').mp ((hmatch "a" (by decide)).1.mp hother 'a' (by decide))
    exact absurd hin (by decide)

/-- Two characters of two bytes each, the bytes of which make up a third character. The table passes
it, and the expression does not match it. -/
theorem exists_containsAll_unmatched :
    ∃ p e r, Compiler.standard.compile "éĀ" = .ok p ∧ p.tree.groups = [] ∧
      (ofPatterns .standard [p]).charPattern = some e ∧ Regex.read? e = some r ∧
      (ofPatterns .standard [p]).charLookup.containsAll "ĩ" = true ∧ r.isMatch "ĩ" = false := by
  have htest : (Compiler.standard.compile "éĀ").toOption.any (fun p ↦
      p.tree.groups.isEmpty && ((ofPatterns .standard [p]).charLookup.containsAll "ĩ" &&
        (ofPatterns .standard [p]).charPattern.any fun e ↦
          (Regex.read? e).any fun r ↦ !r.isMatch "ĩ")) = true := by
    decide +kernel
  obtain ⟨p, hp, htest⟩ := exists_ok_of_any htest
  simp only [Bool.and_eq_true, List.isEmpty_iff] at htest
  obtain ⟨hgroups, hbytes, htest⟩ := htest
  obtain ⟨e, he, htest⟩ := (Option.any_eq_true ..).mp htest
  obtain ⟨r, hr, hmatch⟩ := (Option.any_eq_true ..).mp htest
  exact ⟨p, e, r, hp, hgroups, he, hr, hbytes, (Bool.not_eq_true' _).mp hmatch⟩

end Prefilter

end UrlPattern
