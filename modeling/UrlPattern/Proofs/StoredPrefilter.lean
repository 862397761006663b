import UrlPattern.Prefilter.Record
import UrlPattern.Proofs.PrefilterExact
import UrlPattern.Proofs.StoredText

/-!
# Stored pre-filters

A pre-filter that is stored and read back is the same pre-filter, and thus lets the same inputs
pass. Each part of its JSON form is read back by itself: tables of texts and truth values, tables of
sets of texts, a set of bytes as the list of its members, and two lengths, which must fit 64 bits.
They always do in a pre-filter that is built, as its greatest length bounds both of them.

Specification: `SPEC_FULL.md` §4.7 (lines 66–69) and §10.8 (lines 245–264).
-/

namespace UrlPattern

namespace ByteSet

/-- A set of bytes is read back from the list of its members. -/
theorem ofJson?_toJson (s : ByteSet) : ofJson? s.toJson = some s := by
  have hbytes : (s.toList.map fun b ↦ Json.nat b.toNat).mapM
      (fun j ↦ (j.nat? 255).map UInt8.ofNat) = some (s.toList.map id) := by
    apply Json.mapM_map_eq_some
    intro b _
    rw [Json.nat?_nat (Nat.le_of_lt_succ b.toNat_lt), Option.map_some, UInt8.ofNat_toNat]
    rfl
  rw [toJson, ofJson?, Json.list?, hbytes, Option.map_some, List.map_id, ofList_toList]

theorem isWritable_toJson (s : ByteSet) : s.toJson.IsWritable := by
  apply Json.IsWritable.array
  intro j hj
  obtain ⟨b, -, rfl⟩ := List.mem_map.mp hj
  exact .nat (Nat.le_trans (Nat.le_of_lt b.toNat_lt) (by decide))

end ByteSet

namespace TextSet

/-- A set of texts is read back from the list of them. -/
theorem ofJson?_toJson (s : TextSet) : ofJson? s.toJson = some s := by
  have htexts : (s.texts.map Json.string).mapM (fun j ↦ j.text?.map fun text ↦ (text, ()))
      = some (s.texts.map fun text ↦ (text, ())) :=
    Json.mapM_map_eq_some fun text _ ↦ rfl
  have hentries : (s.texts.map fun text ↦ (text, ())) = s.toList := by
    rw [texts, Table.keys, List.map_map]
    exact List.map_id _
  rw [toJson, ofJson?, Json.list?, htexts, Option.map_some, hentries, Table.ofList_toList]

theorem isWritable_toJson (s : TextSet) : s.toJson.IsWritable := by
  apply Json.IsWritable.array
  intro j hj
  obtain ⟨text, -, rfl⟩ := List.mem_map.mp hj
  exact .string text

end TextSet

namespace Prefilter

/-- The lengths of a pre-filter are no greater than a record can store. -/
structure FitsLengths (f : Prefilter) : Prop where
  minLen_le : f.minLen ≤ Text.lengthMax
  maxLen_le : f.maxLen ≤ Text.lengthMax

variable {f : Prefilter}

/-- The JSON form of a pre-filter can be written, if its lengths fit. -/
theorem FitsLengths.isWritable_toJson (h : f.FitsLengths) : f.toJson.IsWritable := by
  have hversion : currentVersion ≤ Text.lengthMax := by decide
  apply Json.IsWritable.ofParts
  simp only [List.forall_mem_cons]
  exact ⟨.nat hversion, .ofTable .bool _, .ofTable TextSet.isWritable_toJson _,
    .ofTable TextSet.isWritable_toJson _, .nat h.minLen_le, .nat h.maxLen_le,
    f.charLookup.isWritable_toJson, .bool _, .optional _, .bool _, List.forall_mem_nil _⟩

/-- The record of a pre-filter is read back with all its parts. -/
theorem FitsLengths.ofJson?_toJson (h : f.FitsLengths) :
    ofJson? f.toJson = some f.toStored := by
  have hversion : (Json.nat currentVersion).nat? versionMax = some currentVersion :=
    Json.nat?_nat (by decide)
  have hliterals : (Json.ofTable Json.bool f.literals).table? Json.bool? = some f.literals :=
    Json.table?_ofTable (f := .bool) (fun _ ↦ rfl) _
  have hbuckets : ∀ t : Table String TextSet,
      (Json.ofTable TextSet.toJson t).table? TextSet.ofJson? = some t :=
    Json.table?_ofTable TextSet.ofJson?_toJson
  rw [toJson, Stored.toJson, toStored, ofJson?, Json.parts?_ofParts (by decide) rfl]
  simp only [List.map_cons, List.map_nil, hversion, hliterals, hbuckets,
    Json.nat?_nat h.minLen_le, Json.nat?_nat h.maxLen_le, ByteSet.ofJson?_toJson, Json.bool?,
    readCharPattern?, Json.optional?_optional, Json.partOr]
  rfl

/-- A pre-filter is made again from its record. The range of lengths, which the record lacks, comes
out as it was. -/
theorem ofStored_toStored (f : Prefilter) : ofStored f.toStored = .ok f := by
  have hversion : f.toStored.version = currentVersion := rfl
  have huses : f.toStored.useCharLookup = f.toStored.charPattern.isSome := f.usesCharLookup_eq
  rw [ofStored, if_neg (not_not.mpr hversion), dif_pos huses]
  cases f
  next hlengths =>
    cases hlengths
    rfl

/-- A stored pre-filter is read back, if its lengths fit. -/
theorem FitsLengths.parse_render (h : f.FitsLengths) : parse f.render = .ok f := by
  rw [parse, render, h.isWritable_toJson.parse?_render, Option.bind_some, h.ofJson?_toJson]
  exact ofStored_toStored f

variable {options : PrefilterOptions} {roots : List Node}

/-- No length of a pre-filter exceeds the greatest length that it was built for. -/
theorem lengthRange_le :
    (lengthRange options roots).1 ≤ options.maxLength ∧
      (lengthRange options roots).2 ≤ options.maxLength := by
  by_cases hroots : roots = []
  · subst hroots
    exact ⟨Nat.zero_le _, Nat.zero_le _⟩
  · obtain ⟨⟨⟨least, -, hleast⟩, -⟩, ⟨⟨greatest, -, hgreatest⟩, -⟩⟩ :=
      @isLeast_isGreatest_lengthRange options roots hroots
    rw [← hleast, ← hgreatest]
    exact ⟨Nat.min_le_right _ _, Nat.min_le_right _ _⟩

/-- The lengths of a pre-filter fit, if the greatest length that it is built for fits. -/
theorem fitsLengths_ofTrees (h : options.maxLength ≤ Text.lengthMax) :
    (ofTrees options roots).FitsLengths :=
  ⟨Nat.le_trans lengthRange_le.1 h, Nat.le_trans lengthRange_le.2 h⟩

/-- The pre-filter of any patterns, stored with any options of 64 bits, is a text that is read as
its own JSON form, which is a record with the same parts. What is made of the record is the same
pre-filter, so it has the same range of lengths and lets the same inputs pass. `SPEC_FULL.md:86`. -/
theorem parse_render_ofPatterns {options : PrefilterOptions}
    (h : options.maxLength ≤ Text.lengthMax) (patterns : List Pattern) :
    let f := ofPatterns options patterns
    Json.parse? f.render = some f.toJson ∧
      ofJson? f.toJson = some f.toStored ∧
      ∃ g, parse f.render = .ok g ∧ g = f ∧ ∀ s, g.supports s = f.supports s := by
  have hfits : (ofPatterns options patterns).FitsLengths := fitsLengths_ofTrees h
  exact ⟨hfits.isWritable_toJson.parse?_render, hfits.ofJson?_toJson, _, hfits.parse_render, rfl,
    fun _ ↦ rfl⟩

/-- A pre-filter with an expression of escaped characters and the greatest length of all. -/
theorem parse_render_ofPatterns_escaped :
    ∃ p, Compiler.standard.compile "é\"]^\\" = .ok p ∧
      (ofPatterns ⟨Text.lengthMax, 1, 0⟩ [p]).charPattern = some "^[\"\\\\\\]\\^é]+$" ∧
      parse (ofPatterns ⟨Text.lengthMax, 1, 0⟩ [p]).render
        = .ok (ofPatterns ⟨Text.lengthMax, 1, 0⟩ [p]) := by
  have htest : (Compiler.standard.compile "é\"]^\\").toOption.any (fun p ↦
      (ofPatterns ⟨Text.lengthMax, 1, 0⟩ [p]).charPattern == some "^[\"\\\\\\]\\^é]+$") = true := by
    decide +kernel
  obtain ⟨p, hp, hpattern⟩ := exists_ok_of_any htest
  obtain ⟨-, -, g, hparse, rfl, -⟩ :=
    @parse_render_ofPatterns ⟨Text.lengthMax, 1, 0⟩ (Nat.le_refl _) [p]
  exact ⟨p, hp, eq_of_beq hpattern, hparse⟩

end Prefilter

end UrlPattern
