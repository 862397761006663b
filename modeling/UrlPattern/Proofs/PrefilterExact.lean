import UrlPattern.PatternSet
import UrlPattern.Proofs.CompiledPattern

/-!
# Pre-filters lose nothing

A pre-filter holds what every text of its trees must satisfy: bounds on the length, the characters
if there are no groups, and a literal at the start. Each of the four is shown to follow for all
texts of a tree by induction on the tree, so an input that some pattern matches passes unless it
exceeds the greatest length. Thus a set of patterns finds behind its pre-filter what it would find
without one.

Specification: `SPEC_FULL.md` §4.7 (lines 66–69) and §8 (line 97).
-/

namespace UrlPattern

namespace Node

section

variable {options : PrefilterOptions}

mutual

/-- The bounds hold of the texts of the tree, the upper one of those that are not too long. -/
theorem lengthBounds_sound (hmin : options.groupMinLength ≤ 1) (n : Node) {t : List Char}
    (ht : t ∈ n.language) :
    (n.lengthBounds options).1 ≤ Text.byteLength t ∧
      (Text.byteLength t ≤ options.maxLength →
        Text.byteLength t ≤ (n.lengthBounds options).2) := by
  match n with
  | literal text tag =>
    simp only [language] at ht
    have hbytes : Text.byteLength t = text.utf8ByteSize := by
      rw [ht, Text.byteLength_toList]
    simp only [lengthBounds, hbytes]
    exact ⟨by split <;> omega, fun _ ↦ Nat.le_refl _⟩
  | group g =>
    simp only [language] at ht
    have hne : t ≠ [] := Group.Spells.ne_nil ht
    have hpos : 1 ≤ Text.byteLength t :=
      Nat.le_trans (List.length_pos_iff.mpr hne) (Text.length_le_byteLength t)
    simp only [lengthBounds]
    exact ⟨Nat.le_trans hmin hpos, id⟩
  | sequence children tag =>
    simp only [language] at ht
    obtain ⟨hlow, hhigh⟩ := lengthBoundsOf_sound hmin children ht
    simp only [lengthBounds]
    exact ⟨hlow, fun hle ↦ Nat.le_min.mpr ⟨hhigh hle, hle⟩⟩
  | optional children tag =>
    simp only [language, Language.mem_add, Language.mem_one] at ht
    simp only [lengthBounds]
    refine ⟨Nat.zero_le _, fun hle ↦ Nat.le_min.mpr ⟨?_, hle⟩⟩
    rcases ht with ht | rfl
    · exact (lengthBoundsOf_sound hmin children ht).2 hle
    · exact Nat.zero_le _

theorem lengthBoundsOf_sound (hmin : options.groupMinLength ≤ 1) (ns : List Node) {t : List Char}
    (ht : t ∈ languageAll ns) :
    (lengthBoundsOf options ns).1 ≤ Text.byteLength t ∧
      (Text.byteLength t ≤ options.maxLength →
        Text.byteLength t ≤ (lengthBoundsOf options ns).2) := by
  match ns with
  | [] =>
    simp only [languageAll, Language.mem_one] at ht
    rw [ht]
    exact ⟨Nat.le_refl _, fun _ ↦ Nat.le_refl _⟩
  | n :: ns =>
    simp only [languageAll, Language.mem_mul] at ht
    obtain ⟨u, hu, v, hv, rfl⟩ := ht
    obtain ⟨hlow, hhigh⟩ := lengthBounds_sound hmin n hu
    obtain ⟨hlow', hhigh'⟩ := lengthBoundsOf_sound hmin ns hv
    simp only [lengthBoundsOf, Text.byteLength_append]
    exact ⟨by omega, fun hle ↦ Nat.add_le_add (hhigh (by omega)) (hhigh' (by omega))⟩

end

mutual

/-- A tree without groups makes its texts from the characters of its literals. -/
theorem exists_literalText (n : Node) (hgroups : n.groups = []) {t : List Char}
    (ht : t ∈ n.language) {c : Char} (hc : c ∈ t) : ∃ text ∈ n.literalTexts, c ∈ text.toList := by
  match n with
  | literal text tag =>
    simp only [language] at ht
    rw [ht] at hc
    exact ⟨text, List.mem_singleton_self text, hc⟩
  | group g => exact absurd hgroups (List.cons_ne_nil g [])
  | sequence children tag =>
    simp only [language] at ht
    exact exists_literalTextOf children hgroups ht hc
  | optional children tag =>
    simp only [language, Language.mem_add, Language.mem_one] at ht
    rcases ht with ht | rfl
    · exact exists_literalTextOf children hgroups ht hc
    · exact absurd hc List.not_mem_nil

theorem exists_literalTextOf (ns : List Node) (hgroups : groupsOf ns = []) {t : List Char}
    (ht : t ∈ languageAll ns) {c : Char} (hc : c ∈ t) :
    ∃ text ∈ literalTextsOf ns, c ∈ text.toList := by
  match ns with
  | [] =>
    simp only [languageAll, Language.mem_one] at ht
    rw [ht] at hc
    exact absurd hc List.not_mem_nil
  | n :: ns =>
    simp only [languageAll, Language.mem_mul] at ht
    obtain ⟨u, hu, v, hv, rfl⟩ := ht
    obtain ⟨hfirst, hothers⟩ := List.append_eq_nil_iff.mp hgroups
    rcases List.mem_append.mp hc with hc | hc
    · obtain ⟨text, htext, hin⟩ := exists_literalText n hfirst hu hc
      exact ⟨text, List.mem_append_left _ htext, hin⟩
    · obtain ⟨text, htext, hin⟩ := exists_literalTextOf ns hothers hv hc
      exact ⟨text, List.mem_append_right _ htext, hin⟩

end

/-- A literal that a tree must start with is its first child, long enough to be kept and found. -/
theorem anchor?_eq_some {n : Node} {text : String} (h : n.anchor? options = some text) :
    (∃ tag rest, n.children? = some (literal text tag :: rest)) ∧
      options.minLiteralLength ≤ text.length ∧ Prefilter.keyWidth ≤ text.length := by
  rw [anchor?] at h
  split at h
  · next text' tag rest hchildren =>
    split at h
    · next hcond =>
      cases h
      rw [Bool.and_eq_true, decide_eq_true_eq] at hcond
      exact ⟨⟨tag, rest, hchildren⟩, Nat.max_le.mp hcond.2⟩
    · cases h
  · cases h

/-- Every text of a tree but the empty one starts with the literal that it must start with. -/
theorem anchor_prefix {n : Node} {text : String} (h : n.anchor? options = some text)
    {t : List Char} (ht : t ∈ n.language) (hne : t ≠ []) : text.toList <+: t := by
  have hall : ∀ {tag : Tag} {rest : List Node},
      t ∈ languageAll (literal text tag :: rest) → text.toList <+: t := by
    intro tag rest ht
    simp only [languageAll, language, Language.mem_mul] at ht
    obtain ⟨u, hu, v, -, rfl⟩ := ht
    rw [show u = text.toList from hu]
    exact List.prefix_append _ _
  obtain ⟨⟨tag, rest, hchildren⟩, -⟩ := anchor?_eq_some h
  cases n with
  | literal => cases hchildren
  | group => cases hchildren
  | sequence children tag =>
    cases hchildren
    exact hall ht
  | optional children tag =>
    cases hchildren
    simp only [language, Language.mem_add, Language.mem_one] at ht
    exact hall (ht.resolve_right hne)

end

end Node

namespace Prefilter

variable {options : PrefilterOptions} {roots : List Node} {root : Node}

/-! ### The range of lengths -/

/-- Folding ranges together gives the least of their lower and the greatest of their upper ends. -/
private theorem foldl_ranges (f : Node → Nat × Nat) (ns : List Node) (n : Node) :
    IsLeast {a | ∃ x ∈ n :: ns, (f x).1 = a}
        ((ns.map f).foldl (fun a b ↦ (min a.1 b.1, max a.2 b.2)) (f n)).1 ∧
      IsGreatest {a | ∃ x ∈ n :: ns, (f x).2 = a}
        ((ns.map f).foldl (fun a b ↦ (min a.1 b.1, max a.2 b.2)) (f n)).2 := by
  constructor
  · have hfold : ((n :: ns).map fun x ↦ (f x).1).min?
        = some ((ns.map f).foldl (fun a b ↦ (min a.1 b.1, max a.2 b.2)) (f n)).1 := by
      rw [List.map_cons, List.min?_cons', List.foldl_map, List.foldl_map]
      exact congrArg some (List.foldl_hom Prod.fst fun _ _ ↦ rfl)
    obtain ⟨hmem, hle⟩ := List.min?_eq_some_iff.mp hfold
    refine ⟨List.mem_map.mp hmem, ?_⟩
    rintro a ⟨x, hx, rfl⟩
    exact hle _ (List.mem_map_of_mem hx)
  · have hfold : ((n :: ns).map fun x ↦ (f x).2).max?
        = some ((ns.map f).foldl (fun a b ↦ (min a.1 b.1, max a.2 b.2)) (f n)).2 := by
      rw [List.map_cons, List.max?_cons', List.foldl_map, List.foldl_map]
      exact congrArg some (List.foldl_hom Prod.snd fun _ _ ↦ rfl)
    obtain ⟨hmem, hle⟩ := List.max?_eq_some_iff.mp hfold
    refine ⟨List.mem_map.mp hmem, ?_⟩
    rintro a ⟨x, hx, rfl⟩
    exact hle _ (List.mem_map_of_mem hx)

/-- The ends of the range are those of some trees, up to the greatest length. -/
theorem isLeast_isGreatest_lengthRange (h : roots ≠ []) :
    IsLeast {n | ∃ root ∈ roots, min (root.lengthBounds options).1 options.maxLength = n}
        (lengthRange options roots).1 ∧
      IsGreatest {n | ∃ root ∈ roots, min (root.lengthBounds options).2 options.maxLength = n}
        (lengthRange options roots).2 := by
  cases roots with
  | nil => exact absurd rfl h
  | cons root roots =>
    exact foldl_ranges (fun root ↦ (min (root.lengthBounds options).1 options.maxLength,
      min (root.lengthBounds options).2 options.maxLength)) roots root

/-- The range of lengths holds the bounds of every tree, up to the greatest length. -/
theorem lengthRange_of_mem (h : root ∈ roots) :
    (lengthRange options roots).1 ≤ (root.lengthBounds options).1 ∧
      min (root.lengthBounds options).2 options.maxLength ≤ (lengthRange options roots).2 ∧
      (lengthRange options roots).2 ≤ options.maxLength := by
  have hne : roots ≠ [] := List.ne_nil_of_mem h
  obtain ⟨⟨-, hlower⟩, ⟨⟨root', -, hattained⟩, hupper⟩⟩ :=
    @isLeast_isGreatest_lengthRange options roots hne
  refine ⟨Nat.le_trans (hlower ⟨root, h, rfl⟩) (Nat.min_le_left _ _), hupper ⟨root, h, rfl⟩, ?_⟩
  rw [← hattained]
  exact Nat.min_le_right _ _

/-! ### The literals at the start -/

/-- What is kept of a text: whether some tree must start with it, if it is a literal at all that is
not too short. -/
theorem get?_literalsOf (text : String) :
    (literalsOf options roots).get? text
      = if ∃ root ∈ roots, root.anchor? options = some text then some true
        else if options.minLiteralLength ≤ text.length ∧ ∃ root ∈ roots, text ∈ root.literalTexts
          then some false
        else none := by
  have hfold : ∀ (anchors : List String) (t : Table String Bool),
      anchors.foldl (fun t text ↦ t.insert text true) t
        = (anchors.map fun text ↦ (text, true)).foldl (fun t e ↦ t.insert e.1 e.2) t :=
    fun anchors t ↦ by rw [List.foldl_map]
  rw [literalsOf, hfold, Table.get?_foldl_insert, Table.ofList, Table.get?_foldl_insert,
    Table.get?_empty, ← List.map_reverse, ← List.map_reverse, Table.lookupEntry_map_pair,
    Table.lookupEntry_map_pair]
  simp only [List.mem_reverse, List.mem_filterMap, List.mem_filter, List.mem_flatMap,
    decide_eq_true_eq, and_comm]
  split <;> simp

/-- A literal is kept as one that some tree must start with exactly if there is such a tree. -/
theorem get?_literalsOf_eq_true_iff {text : String} :
    (literalsOf options roots).get? text = some true ↔
      ∃ root ∈ roots, root.anchor? options = some text := by
  rw [get?_literalsOf]
  split
  · next h => exact iff_of_true rfl h
  · next h =>
    refine iff_of_false ?_ h
    split <;> simp

/-- Adding a text under a key. -/
def addUnder (t : Table String TextSet) (k text : String) : Table String TextSet :=
  t.insert k (((t.get? k).getD ∅).insert text ())

/-- A text is listed under a key. -/
def IsUnder (t : Table String TextSet) (k text : String) : Prop :=
  ∃ bucket, t.get? k = some bucket ∧ bucket.contains text = true

theorem isUnder_addUnder {t : Table String TextSet} {j other k text : String} :
    IsUnder (addUnder t j other) k text ↔ (text = other ∧ k = j) ∨ IsUnder t k text := by
  rw [IsUnder, IsUnder, addUnder, Table.get?_insert]
  by_cases hk : k = j
  · subst hk
    have hempty : (∅ : TextSet).get? text = none := rfl
    by_cases htext : text = other
    · simp [htext, Table.contains, Table.get?_insert]
    · cases hget : t.get? k with
      | none => simp [htext, Table.contains, Table.get?_insert, hempty]
      | some bucket => simp [htext, Table.contains, Table.get?_insert]
  · simp [hk]

theorem isUnder_foldl {key : String → Option String} {texts : List String}
    {t : Table String TextSet} {k text : String} :
    IsUnder (texts.foldl (fun t text ↦ (key text).elim t fun k ↦ addUnder t k text) t) k text
      ↔ (text ∈ texts ∧ key text = some k) ∨ IsUnder t k text := by
  induction texts generalizing t with
  | nil => simp
  | cons other texts ih =>
    rw [List.foldl_cons, ih, List.mem_cons, or_and_right, or_assoc, or_left_comm]
    refine or_congr_right ?_
    cases hkey : key other with
    | none =>
      have hne : ¬ (text = other ∧ key text = some k) := by
        rintro ⟨rfl, h⟩
        rw [hkey] at h
        cases h
      rw [Option.elim_none, or_iff_right hne]
    | some j =>
      rw [Option.elim_some, isUnder_addUnder]
      refine or_congr_left ?_
      constructor
      · rintro ⟨rfl, rfl⟩
        exact ⟨rfl, hkey⟩
      · rintro ⟨rfl, h⟩
        exact ⟨rfl, Option.some.inj (h.symm.trans hkey)⟩

/-- Texts are grouped by adding each of them under its key. -/
theorem groupBy_eq_foldl (key : String → Option String) (texts : List String) :
    groupBy key texts
      = texts.foldl (fun t text ↦ (key text).elim t fun k ↦ addUnder t k text) ∅ := by
  rw [groupBy]
  congr
  funext t text
  cases key text <;> rfl

/-- The texts under a key are those of the list that have it. -/
theorem isUnder_groupBy {key : String → Option String} {texts : List String} {k text : String} :
    IsUnder (groupBy key texts) k text ↔ text ∈ texts ∧ key text = some k := by
  have hnone : ¬ IsUnder ∅ k text := by
    rintro ⟨bucket, hget, -⟩
    cases hget
  rw [groupBy_eq_foldl, isUnder_foldl, or_iff_left hnone]

/-- The look-up by the first characters finds whether a text starts with a literal that some tree
must start with. -/
theorem startsWithAnchor_iff {s : String} :
    (ofTrees options roots).startsWithAnchor s = true ↔
      ∃ text, (literalsOf options roots).get? text = some true ∧ text.toList <+: s.toList := by
  constructor
  · intro h
    rw [startsWithAnchor] at h
    split at h
    · obtain ⟨text, -, htext⟩ := List.any_eq_true.mp h
      obtain ⟨hget, hbegins⟩ := Bool.and_eq_true_iff.mp htext
      exact ⟨text, eq_of_beq hget, List.isPrefixOf_iff_prefix.mp hbegins⟩
    · cases h
  · rintro ⟨text, hget, hbegins⟩
    obtain ⟨root, -, hanchor⟩ := get?_literalsOf_eq_true_iff.mp hget
    have hkey : ∃ k, prefixKey? text = some k ∧ prefixKey? s = some k := by
      have hlen : 2 ≤ text.toList.length := by
        rw [String.length_toList]
        exact (Node.anchor?_eq_some hanchor).2.2
      obtain ⟨a, b, rest, htext⟩ : ∃ a b rest, text.toList = a :: b :: rest := by
        obtain ⟨a, tail, htext⟩ := List.exists_cons_of_length_pos (Nat.lt_of_succ_lt hlen)
        rw [htext, List.length_cons] at hlen
        obtain ⟨b, rest, rfl⟩ := List.exists_cons_of_length_pos (Nat.le_of_succ_le_succ hlen)
        exact ⟨a, b, rest, htext⟩
      rw [htext] at hbegins
      obtain ⟨more, hs⟩ := hbegins
      exact ⟨String.ofList [a, b], by rw [prefixKey?, htext], by rw [prefixKey?, ← hs]; rfl⟩
    obtain ⟨k, hk, hks⟩ := hkey
    have hin : text ∈ (literalsOf options roots).keys := by
      rw [← Table.contains_iff_mem_keys, Table.contains, hget]
      rfl
    obtain ⟨bucket, hbucket, hmem⟩ := isUnder_groupBy.mpr ⟨hin, hk⟩
    have hbucket' : (ofTrees options roots).prefixes.get? k = some bucket := hbucket
    rw [startsWithAnchor, hks, Option.bind_some, hbucket']
    refine List.any_eq_true.mpr ⟨text, (Table.contains_iff_mem_keys _ _).mp hmem, ?_⟩
    have hliterals : (ofTrees options roots).literals.get? text = some true := hget
    rw [hliterals, Bool.and_eq_true]
    exact ⟨rfl, List.isPrefixOf_iff_prefix.mpr hbegins⟩

/-! ### The characters -/

/-- Other bytes are not to pass exactly if there are trees and none of them has groups. -/
theorem usesCharLookup_ofTrees_iff :
    (ofTrees options roots).usesCharLookup = true ↔
      roots ≠ [] ∧ ∀ root ∈ roots, root.groups = [] := by
  have huses : (ofTrees options roots).usesCharLookup
      = (!roots.isEmpty && !roots.any fun root ↦ !root.groups.isEmpty) := rfl
  rw [huses]
  simp

/-- The bytes of the literals are those that may pass. -/
theorem contains_charLookup_iff {b : UInt8} :
    (ofTrees options roots).charLookup.contains b = true ↔
      ∃ root ∈ roots, ∃ text ∈ root.literalTexts, b ∈ Text.utf8 text.toList := by
  have hlookup : (ofTrees options roots).charLookup.contains b = true ↔ _ :=
    ByteSet.contains_ofList _ b
  rw [hlookup, Text.utf8]
  simp only [List.mem_flatMap, Table.mem_keys_ofList, List.mem_map, Text.utf8]
  constructor
  · rintro ⟨c, ⟨_, text, ⟨root, hroot, htext⟩, c', hc, heq⟩, hb⟩
    cases heq
    exact ⟨root, hroot, text, htext, c, hc, hb⟩
  · rintro ⟨root, hroot, text, htext, c, hc, hb⟩
    exact ⟨c, ⟨(), text, ⟨root, hroot, htext⟩, c, hc, rfl⟩, hb⟩

/-! ### The four conditions together -/

/-- What a text must satisfy to pass. -/
theorem supports_iff {f : Prefilter} {s : String} :
    f.supports s = true ↔ s ≠ "" ∧ (f.minLen ≤ s.utf8ByteSize ∧ s.utf8ByteSize ≤ f.maxLen) ∧
      (f.usesCharLookup = true → f.charLookup.containsAll s = true) ∧
      (f.unanchored = true ∨ f.startsWithAnchor s = true) := by
  rw [supports, f.lengths_eq, LengthRange.contains]
  cases f.usesCharLookup <;> simp [and_assoc]

/-- The characters of a text of a tree pass, as far as the pre-filter looks at characters. -/
theorem containsAll_of_mem_language {s : String} (h : root ∈ roots)
    (hs : s.toList ∈ root.language) (huses : (ofTrees options roots).usesCharLookup = true) :
    (ofTrees options roots).charLookup.containsAll s = true := by
  have hgroups := (usesCharLookup_ofTrees_iff.mp huses).2 root h
  rw [ByteSet.containsAll, List.all_eq_true]
  intro b hb
  obtain ⟨c, hc, hb⟩ := List.mem_flatMap.mp hb
  obtain ⟨text, htext, hin⟩ := root.exists_literalText hgroups hs hc
  exact contains_charLookup_iff.mpr ⟨root, h, text, htext, List.mem_flatMap.mpr ⟨c, hin, hb⟩⟩

/-- A text of one of the trees passes exactly if it does not exceed the greatest length. -/
theorem supports_iff_of_mem_language (hmin : options.groupMinLength ≤ 1) {s : String}
    (h : root ∈ roots) (hne : s ≠ "") (hs : s.toList ∈ root.language) :
    (ofTrees options roots).supports s = true ↔ s.utf8ByteSize ≤ options.maxLength := by
  obtain ⟨hlow, hhigh, hmost⟩ := @lengthRange_of_mem options roots root h
  obtain ⟨hleast, hgreatest⟩ := root.lengthBounds_sound hmin hs
  rw [Text.byteLength_toList] at hleast hgreatest
  have hstart : (ofTrees options roots).unanchored = true ∨
      (ofTrees options roots).startsWithAnchor s = true := by
    cases hanchor : root.anchor? options with
    | none =>
      refine .inl (List.any_eq_true.mpr ⟨root, h, ?_⟩)
      rw [hanchor]
      rfl
    | some text =>
      have hnil : s.toList ≠ [] := fun hnil ↦ hne (String.toList_eq_nil_iff.mp hnil)
      exact .inr (startsWithAnchor_iff.mpr ⟨text, get?_literalsOf_eq_true_iff.mpr
        ⟨root, h, hanchor⟩, Node.anchor_prefix hanchor hs hnil⟩)
  have hrange : (ofTrees options roots).minLen = (lengthRange options roots).1 ∧
      (ofTrees options roots).maxLen = (lengthRange options roots).2 := ⟨rfl, rfl⟩
  rw [supports_iff, hrange.1, hrange.2]
  constructor
  · rintro ⟨-, ⟨-, hle⟩, -⟩
    exact Nat.le_trans hle hmost
  · intro hle
    exact ⟨hne,
      ⟨Nat.le_trans hlow hleast, Nat.le_trans (Nat.le_min.mpr ⟨hgreatest hle, hle⟩) hhigh⟩,
      containsAll_of_mem_language h hs, hstart⟩

end Prefilter

namespace PatternSet

/-- Trying patterns in order gives the first that matches, with its place. -/
theorem findFrom?_eq (s : String) (place : Nat) (ps : List Pattern) :
    findFrom? s place ps
      = (ps.zipIdx place).findSome? fun e ↦ (e.1.match? s).map fun r ↦ (e.2, r) := by
  induction ps generalizing place with
  | nil => rfl
  | cons p ps ih =>
    rw [findFrom?, List.zipIdx_cons, List.findSome?_cons]
    cases p.match? s with
    | none => exact ih (place + 1)
    | some r => rfl

/-- For compiled patterns and groups of at least one byte, the pre-filter passes an input that some
pattern matches exactly if it does not exceed the greatest length. Within that length, a set finds
what trying every pattern in order finds. `SPEC_FULL.md:97`. -/
theorem find?_eq_findSome? {options : PrefilterOptions} (hmin : options.groupMinLength ≤ 1)
    {patterns : List Pattern}
    (hpatterns : ∀ p ∈ patterns, ∃ pipeline source,
      (⟨.builtin, pipeline⟩ : Compiler).compile source = .ok p) :
    (∀ s, (∃ p ∈ patterns, (p.match? s).isSome) →
      ((Prefilter.ofPatterns options patterns).supports s = true
        ↔ s.utf8ByteSize ≤ options.maxLength)) ∧
      ∀ s, s.utf8ByteSize ≤ options.maxLength →
        (ofPatterns options patterns).find? s
          = patterns.zipIdx.findSome? fun e ↦ (e.1.match? s).map fun r ↦ (e.2, r) := by
  have hsupports : ∀ s, (∃ p ∈ patterns, (p.match? s).isSome) →
      ((Prefilter.ofPatterns options patterns).supports s = true
        ↔ s.utf8ByteSize ≤ options.maxLength) := by
    rintro s ⟨p, hp, hmatch⟩
    obtain ⟨pipeline, source, hcompile⟩ := hpatterns p hp
    rw [Pattern.isSome_match?] at hmatch
    obtain ⟨hne, hlang⟩ := ((Compiler.isDerived_of_compile hcompile).isMatch_iff s).mp hmatch
    exact Prefilter.supports_iff_of_mem_language hmin (List.mem_map_of_mem hp) hne hlang
  refine ⟨hsupports, fun s hlen ↦ ?_⟩
  rw [← findFrom?_eq, find?]
  split
  · rfl
  · next hnot =>
    rw [findFrom?_eq, eq_comm, List.findSome?_eq_none_iff]
    rintro ⟨p, i⟩ hin
    rw [Option.map_eq_none_iff, ← Option.not_isSome_iff_eq_none]
    intro hmatch
    have hp : p ∈ patterns := (List.mem_zipIdx' hin).2 ▸ List.getElem_mem _
    exact hnot ((hsupports s ⟨p, hp, hmatch⟩).mpr hlen)

/-- A set of one compiled pattern finds what the pattern matches. -/
theorem find?_version :
    ∃ p, Compiler.standard.compile "v\x7bn:int\x7d" = .ok p ∧
      ((ofPatterns .standard [p]).find? "v7").isSome = true ∧
      (Prefilter.ofPatterns .standard [p]).supports "v7" = true := by
  have htest : (Compiler.standard.compile "v\x7bn:int\x7d").toOption.any
      (fun p ↦ (p.match? "v7").isSome) = true := by
    decide +kernel
  obtain ⟨p, hp, hmatch⟩ := exists_ok_of_any htest
  have hfilter := @find?_eq_findSome? .standard (by decide) [p] fun p' hp' ↦
    ⟨.standard, _, List.mem_singleton.mp hp' ▸ hp⟩
  refine ⟨p, hp, ?_, ?_⟩
  · obtain ⟨r, hr⟩ := Option.isSome_iff_exists.mp hmatch
    rw [hfilter.2 "v7" (by decide), List.zipIdx_singleton, List.findSome?_singleton, hr]
    rfl
  · exact (hfilter.1 "v7" ⟨p, List.mem_singleton_self p, hmatch⟩).mpr (by decide)

end PatternSet

end UrlPattern
