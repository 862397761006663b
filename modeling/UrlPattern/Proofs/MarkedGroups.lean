import UrlPattern.Proofs.SectionSteps

/-!
# The mark behind a group

A group with a `?` behind it is read as a section with that group alone in it. So `{...}?` may be
written `({...})`, wherever in a pattern the reader comes to such a group, and what is read stays
the same.

What the reader takes up in one step does not depend on what follows (`Step.behind`). Hence a text
that may stand for another at one place of a pattern (`Replaces`) may do so at every place from
which the reader comes there, across elements and into sections (`Visits.replaces`).

Specification: `SPEC_FULL.md` §4.4 (lines 57–58) and §8 (line 99).
-/

namespace UrlPattern

/-- Two beginnings of one text are equal if they take up the same bytes. -/
theorem Text.append_inj_of_byteLength {front front' back back' : List Char}
    (h : front ++ back = front' ++ back')
    (hlength : Text.byteLength front = Text.byteLength front') :
    front = front' ∧ back = back' := by
  have hnil : ∀ more : List Char, Text.byteLength more = 0 → more = [] := fun more hmore ↦
    List.length_eq_zero_iff.mp (Nat.le_zero.mp (hmore ▸ Text.length_le_byteLength more))
  obtain ⟨more, rfl, rfl⟩ | ⟨more, rfl, rfl⟩ := List.append_eq_append_iff.mp h
  · rw [Text.byteLength_append, Nat.left_eq_add] at hlength
    rw [hnil more hlength]
    simp
  · rw [Text.byteLength_append, Nat.add_eq_left] at hlength
    rw [hnil more hlength]
    simp

namespace Node

/-- One text may stand for another, where the next group has this number. -/
structure Replaces (types : TypeRegistry) (next : Nat) (new old : List Char) : Prop where
  /-- The element before ends where it ended. -/
  head : new.head? = old.head? ∨ new.head? = some '('
  /-- A section around ends where it ended. -/
  inside : SectionInside 0 old → SectionInside 0 new
  /-- The nodes are those of before, and so is the number of the group behind. -/
  reads : ∀ ns last, ReadsElements types false next old ns last →
    ReadsElements types false next new ns last

namespace Place

variable {pattern : String} {types : TypeRegistry} {p q r : Place} {n : Node}

/-- The reader comes from one place to another, past elements and into sections. -/
inductive Visits (pattern : String) (types : TypeRegistry) : Place → Place → Prop where
  | refl {p : Place} : Visits pattern types p p
  | step {p q r : Place} {n : Node} (hstep : Step pattern types p n q)
      (h : Visits pattern types q r) : Visits pattern types p r
  | enter {offset next : Nat} {cs inside behind : List Char} {r : Place}
      (hsplit : splitSection offset (offset + 1) 0 cs = .ok (inside, behind))
      (h : Visits pattern types ⟨offset + 1, inside, next⟩ r) :
      Visits pattern types ⟨offset, '(' :: cs, next⟩ r

/-- A step is the same before another text, if a mark or a literal does not start there that did
not before. -/
theorem Step.behind (h : Step pattern types p n q) :
    ∃ front, p.rest = front ++ q.rest ∧ ∀ new : List Char,
      (new.head? = q.rest.head? ∨ new.head? = some '(') →
        Step pattern types ⟨p.offset, front ++ new, p.next⟩ n ⟨q.offset, new, q.next⟩ := by
  cases h with
  | @group offset next last cs content behind g hsplit hbehind hread =>
    obtain ⟨hcontent, rfl⟩ := splitGroup_eq_ok_iff.mp hsplit
    refine ⟨'\x7b' :: (content ++ ['\x7d']), by simp, fun new hnew ↦ ?_⟩
    rw [List.cons_append, List.append_assoc, List.singleton_append]
    refine .group (splitGroup_of_inside hcontent new) ?_ hread
    obtain hnew | hnew := hnew
    · rwa [hnew]
    · rw [hnew]
      decide
  | @marked offset next last cs content behind g hsplit hread =>
    obtain ⟨hcontent, rfl⟩ := splitGroup_eq_ok_iff.mp hsplit
    refine ⟨'\x7b' :: (content ++ ['\x7d', '?']), by simp, fun new _ ↦ ?_⟩
    rw [List.cons_append, List.append_assoc]
    exact .marked (splitGroup_of_inside hcontent _) hread
  | @«section» offset next last cs inside behind children hsplit hread =>
    obtain ⟨hinside, rfl⟩ := splitSection_eq_ok_iff.mp hsplit
    refine ⟨'(' :: (inside ++ [')']), by simp, fun new _ ↦ ?_⟩
    rw [List.cons_append, List.append_assoc, List.singleton_append]
    exact .section (splitSection_of_inside hinside _ _ new) hread
  | @text offset next text behind hne htext hbehind =>
    refine ⟨text, rfl, fun new hnew ↦ .text hne htext fun c hc ↦ ?_⟩
    obtain hnew | hnew := hnew
    · exact hbehind c (hnew ▸ hc)
    · rw [hnew] at hc
      cases hc
      rfl

/-- What is read before a step is what the step makes and what is read behind it. -/
theorem Step.readsElements_iff (h : Step pattern types p n q) {ns : List Node} {last : Nat} :
    ReadsElements types false p.next p.rest ns last ↔
      ∃ others, ReadsElements types false q.next q.rest others last ∧ ns = n :: others := by
  rw [← @readElements_eq_ok_iff pattern types p.offset, readElements_of_step h]
  simp only [← @readElements_eq_ok_iff pattern types q.offset]
  change EStateM.map _ _ _ = _ ↔ _
  rw [EStateM.map]
  cases readElements pattern types q.offset q.rest q.next with
  | error e last' => exact ⟨nofun, fun ⟨_, hothers, _⟩ ↦ nomatch hothers⟩
  | ok others last' =>
    constructor
    · rintro ⟨⟩
      exact ⟨others, rfl, rfl⟩
    · rintro ⟨_, ⟨⟩, rfl⟩
      rfl

/-- What may stand for a text behind an element may do so with the element before it. -/
theorem Step.replaces (h : Step pattern types p n q) :
    ∃ front, p.rest = front ++ q.rest ∧ q.offset = p.offset + Text.byteLength front ∧
      ∀ new, Replaces types q.next new q.rest → Replaces types p.next (front ++ new) p.rest := by
  obtain ⟨front, hne, hrest, hoffset, hinside⟩ := h.exists_front
  obtain ⟨front', hrest', hbehind⟩ := h.behind
  obtain rfl : front = front' := List.append_cancel_right (hrest.symm.trans hrest')
  refine ⟨front, hrest, hoffset, fun new hnew ↦ ⟨.inl ?_, fun hp ↦ ?_, fun ns last hread ↦ ?_⟩⟩
  · rw [hrest, List.head?_append_of_ne_nil _ hne, List.head?_append_of_ne_nil _ hne]
  · obtain ⟨hfront, hq, -⟩ := hinside hp
    rw [← Nat.add_zero 0, hfront.append_iff]
    exact hnew.inside hq
  · obtain ⟨others, hothers, rfl⟩ := h.readsElements_iff.mp hread
    exact (hbehind new hnew.head).readsElements_iff.mpr ⟨others, hnew.reads _ _ hothers, rfl⟩

end Place

/-- What may stand for the inside of a section may do so with the section around it. -/
theorem Replaces.of_section {types : TypeRegistry} {next : Nat} {new inside : List Char}
    (hinside : SectionInside 0 inside) (h : Replaces types next new inside) (behind : List Char) :
    Replaces types next ('(' :: (new ++ ')' :: behind)) ('(' :: (inside ++ ')' :: behind)) := by
  have hnew := h.inside hinside
  refine ⟨.inl rfl, fun hold ↦ ?_, fun ns last hread ↦ ?_⟩
  · rw [SectionInside.section_iff hinside] at hold
    exact (SectionInside.section_iff hnew).mpr hold
  · rw [← @readElements_eq_ok_iff "" types 0] at hread ⊢
    rw [readElements_section _ _ _ (splitSection_of_inside hinside _ _ _)] at hread
    rw [readElements_section _ _ _ (splitSection_of_inside hnew _ _ _)]
    obtain ⟨children, middle, hchildren, hread⟩ := parse_bind_eq_ok.mp hread
    obtain ⟨others, last, hothers, hread⟩ := parse_bind_eq_ok.mp hread
    cases hread
    have hchildren' := h.reads _ _ (readElements_eq_ok_iff.mp hchildren)
    have hothers' := readElements_eq_ok_iff.mp hothers
    exact parse_bind_eq_ok.mpr ⟨_, _, readElements_eq_ok_iff.mpr hchildren',
      parse_bind_eq_ok.mpr ⟨_, _, readElements_eq_ok_iff.mpr hothers', rfl⟩⟩

/-- A section with a group alone may stand for the group with a mark behind it. -/
theorem replaces_marked {content : List Char} (hcontent : GroupInside false content)
    (types : TypeRegistry) (next : Nat) (behind : List Char) :
    Replaces types next ('(' :: ('\x7b' :: (content ++ ['\x7d']) ++ ')' :: behind))
      ('\x7b' :: (content ++ '\x7d' :: '?' :: behind)) := by
  have halone : SectionInside 0 ('\x7b' :: (content ++ ['\x7d'])) := .group hcontent .nil
  refine ⟨.inr rfl, fun hold ↦ ?_, fun ns last hread ↦ ?_⟩
  · rw [SectionInside.group_iff hcontent, SectionInside.char_iff (by decide)] at hold
    exact (SectionInside.section_iff halone).mpr hold
  · rw [← @readElements_eq_ok_iff "" types 0] at hread ⊢
    rw [readElements_marked _ _ _ (splitGroup_of_inside hcontent _)] at hread
    rw [readElements_section _ _ _ (splitSection_of_inside halone _ _ _)]
    obtain ⟨g, middle, hg, hread⟩ := parse_bind_eq_ok.mp hread
    obtain ⟨others, last, hothers, hread⟩ := parse_bind_eq_ok.mp hread
    cases hread
    have hg' : readGroup "" types 1 content next = .ok g middle :=
      readGroup_eq_ok_iff.mpr (readGroup_eq_ok_iff.mp hg)
    have hchildren : readElements "" types 1 ('\x7b' :: (content ++ ['\x7d'])) next
        = .ok [.group g] middle := by
      rw [readElements_group _ _ _ (splitGroup_of_inside hcontent []) (by simp)]
      exact parse_bind_eq_ok.mpr ⟨_, _, hg', by rw [readElements]; rfl⟩
    have hothers' := readElements_eq_ok_iff.mp hothers
    exact parse_bind_eq_ok.mpr ⟨_, _, hchildren,
      parse_bind_eq_ok.mpr ⟨_, _, readElements_eq_ok_iff.mpr hothers', rfl⟩⟩

/-- What may stand for a text at a place may do so wherever the reader comes to the place from. Of
the text that the reader started with, what follows is nothing or starts where a section ends. -/
theorem Place.Visits.replaces {pattern : String} {types : TypeRegistry} {p r : Place}
    (h : Visits pattern types p r) :
    ∃ front back, p.rest = front ++ (r.rest ++ back) ∧
      r.offset = p.offset + Text.byteLength front ∧ (∀ c ∈ back.head?, c = ')') ∧
      ∀ new, Replaces types r.next new r.rest →
        Replaces types p.next (front ++ (new ++ back)) p.rest := by
  induction h with
  | refl => exact ⟨[], [], by simp, rfl, nofun, fun new hnew ↦ by simpa using hnew⟩
  | @step p q r n hstep _ ih =>
    obtain ⟨front, hrest, hoffset, hreplaces⟩ := hstep.replaces
    obtain ⟨front', back, hrest', hoffset', hback, hreplaces'⟩ := ih
    refine ⟨front ++ front', back, ?_, ?_, hback, fun new hnew ↦ ?_⟩
    · rw [hrest, hrest', List.append_assoc]
    · rw [hoffset', hoffset, Text.byteLength_append, Nat.add_assoc]
    · rw [List.append_assoc]
      exact hreplaces _ (hreplaces' new hnew)
  | @enter offset next cs inside behind r hsplit _ ih =>
    obtain ⟨hinside, rfl⟩ := splitSection_eq_ok_iff.mp hsplit
    obtain ⟨front, back, hrest, hoffset, hback, hreplaces⟩ := ih
    dsimp only at hrest hoffset hreplaces
    refine ⟨'(' :: front, back ++ ')' :: behind, ?_, ?_, ?_, fun new hnew ↦ ?_⟩
    · simp [hrest]
    · rw [hoffset, Text.byteLength, Nat.add_assoc]
      rfl
    · cases back with
      | nil => simp
      | cons c cs => exact hback
    · have hsection := (hreplaces new hnew).of_section hinside behind
      rwa [List.append_assoc, List.append_assoc] at hsection

/-- A group with a mark behind it, at the top or in any section, may be written as a section with
the group alone: what is read is the same tree. `SPEC_FULL.md:99`. -/
theorem parse_marked {types : TypeRegistry} {u c v : String} {next : Nat}
    {cs behind : List Char} {root : Node}
    (hvisits : Place.Visits (u ++ "\x7b" ++ c ++ "\x7d?" ++ v) types
      ⟨0, (u ++ "\x7b" ++ c ++ "\x7d?" ++ v).toList, 1⟩ ⟨u.utf8ByteSize, '\x7b' :: cs, next⟩)
    (hsplit : splitGroup false cs = .ok (c.toList, behind))
    (hparse : parse (u ++ "\x7b" ++ c ++ "\x7d?" ++ v) types = .ok root) :
    parse (u ++ "(\x7b" ++ c ++ "\x7d)" ++ v) types = .ok root := by
  obtain ⟨front, back, hrest, hoffset, hback, hreplaces⟩ := hvisits.replaces
  obtain ⟨hcontent, rfl⟩ := splitGroup_eq_ok_iff.mp hsplit
  obtain ⟨-, children, last, hread, rfl⟩ := parse_eq_ok_iff_readsElements.mp hparse
  have htext : (u ++ "\x7b" ++ c ++ "\x7d?" ++ v).toList
      = u.toList ++ '\x7b' :: (c.toList ++ '\x7d' :: '?' :: v.toList) := by simp
  have htext' : (u ++ "(\x7b" ++ c ++ "\x7d)" ++ v).toList
      = u.toList ++ '(' :: ('\x7b' :: (c.toList ++ ['\x7d']) ++ ')' :: v.toList) := by simp
  dsimp only at hrest hoffset hreplaces
  rw [Nat.zero_add, ← Text.byteLength_toList] at hoffset
  obtain ⟨rfl, hv⟩ := Text.append_inj_of_byteLength (htext.symm.trans hrest) hoffset
  have hv : '?' :: v.toList = behind ++ back := by simpa using hv
  cases behind with
  | nil =>
    -- The mark does not end a section, so it is not what follows the text with the group.
    have hmark := hback '?' (by rw [← List.nil_append back, ← hv]; rfl)
    cases hmark
  | cons d behind =>
    obtain ⟨rfl, hbehind⟩ := List.cons.inj hv
    replace hbehind : v.toList = behind ++ back := hbehind
    have hnew := hreplaces _ (replaces_marked hcontent types next behind)
    refine parse_eq_ok_iff_readsElements.mpr ⟨?_, children, last, ?_, rfl⟩
    · exact fun hempty ↦ by simp [hempty] at htext'
    · rw [htext', hbehind]
      simpa using hnew.reads _ _ hread

/-- In a section, behind a literal and before another. -/
theorem parse_marked_inside :
    ∃ root, parse "x(a\x7bn:int\x7d?b)" .builtin = .ok root ∧
      parse "x(a(\x7bn:int\x7d)b)" .builtin = .ok root := by
  have hany : (parse "x(a\x7bn:int\x7d?b)" .builtin).toOption.any (fun _ ↦ true) = true := by
    decide +kernel
  obtain ⟨root, hparse, -⟩ := exists_ok_of_any hany
  have hsplit : splitSection 1 2 0 "a\x7bn:int\x7d?b)".toList
      = .ok ("a\x7bn:int\x7d?b".toList, []) := by decide +kernel
  have hvisits : Place.Visits "x(a\x7bn:int\x7d?b)" .builtin
      ⟨0, "x(a\x7bn:int\x7d?b)".toList, 1⟩ ⟨3, '\x7b' :: "n:int\x7d?b".toList, 1⟩ :=
    .step (.text (List.cons_ne_nil 'x' []) (by simp [isLiteralChar]) (by rintro _ ⟨⟩; rfl))
      (.enter hsplit (.step (.text (List.cons_ne_nil 'a' []) (by simp [isLiteralChar])
        (by rintro _ ⟨⟩; rfl)) .refl))
  have hend : splitGroup false "n:int\x7d?b".toList = .ok ("n:int".toList, "?b".toList) := by
    decide +kernel
  have hbefore : "x(a" ++ "\x7b" ++ "n:int" ++ "\x7d?" ++ "b)" = "x(a\x7bn:int\x7d?b)" := by
    decide +kernel
  have hafter : "x(a" ++ "(\x7b" ++ "n:int" ++ "\x7d)" ++ "b)" = "x(a(\x7bn:int\x7d)b)" := by
    decide +kernel
  rw [← hbefore] at hparse hvisits ⊢
  rw [← hafter]
  exact ⟨root, hparse, parse_marked hvisits hend hparse⟩

end Node

end UrlPattern
