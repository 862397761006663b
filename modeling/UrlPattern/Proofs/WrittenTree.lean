import UrlPattern.Proofs.CompiledPattern

/-!
# How trees are written

A tree is written from left to right: a literal as its text, a group between braces, a section
between parentheses, or as its one group and a question mark. Not every tree can be written so: two
literals side by side would be read as one, and a literal with a brace as the start of a group.
`AreWellFormed` lists what keeps the nodes of a tree apart.

A text is read as a tree exactly if the tree is well-formed and written as the text
(`parse_eq_ok_iff`). So reading drops no part of a text, and what it makes stands in the text.

Specification: `SPEC_FULL.md` §4.4 (lines 57–58) and §6 (lines 78–82).
-/

namespace UrlPattern

/-- A group is written between braces. -/
inductive Group.IsWrittenAs (g : Group) : (text : List Char) → Prop where
  | mk {content : List Char} (hinside : Node.GroupInside false content)
      (hwritten : g.IsWrittenInside content) : IsWrittenAs g ('\x7b' :: (content ++ ['\x7d']))

namespace Node

/-- The text of a literal. -/
def literalText? : Node → Option String
  | literal text _ => some text
  | _ => none

/-- Rows of nodes that stay apart when they are written. All nodes are marked as standing where
they do, no fragment is stored, and no sequence stands among them. -/
inductive AreWellFormed : (inSection : Bool) → List Node → Prop where
  | nil {inSection : Bool} : AreWellFormed inSection []
  | literal {inSection : Bool} {text : String} {ns : List Node} (hne : text ≠ "")
      (htext : ∀ c ∈ text.toList, isLiteralChar c = true)
      (hparen : inSection = true → ')' ∉ text.toList)
      (hnext : ∀ n ∈ ns.head?, n.literalText? = none) (hns : AreWellFormed inSection ns) :
      AreWellFormed inSection (.literal text ⟨inSection, none⟩ :: ns)
  | group {inSection : Bool} {g : Group} {ns : List Node} (htag : g.tag = ⟨inSection, none⟩)
      (hnext : ∀ n ∈ ns.head?, ∀ text ∈ n.literalText?, text.toList.head? ≠ some '?')
      (hns : AreWellFormed inSection ns) : AreWellFormed inSection (.group g :: ns)
  | optional {inSection : Bool} {children ns : List Node} (hchildren : AreWellFormed true children)
      (hns : AreWellFormed inSection ns) :
      AreWellFormed inSection (.optional children ⟨inSection, none⟩ :: ns)

/-- How rows of nodes may be written. -/
inductive AreWrittenAs : List Node → (text : List Char) → Prop where
  | nil : AreWrittenAs [] []
  | literal {text : String} {tag : Tag} {ns : List Node} {rest : List Char}
      (hns : AreWrittenAs ns rest) : AreWrittenAs (.literal text tag :: ns) (text.toList ++ rest)
  | group {g : Group} {ns : List Node} {text rest : List Char} (hg : g.IsWrittenAs text)
      (hns : AreWrittenAs ns rest) : AreWrittenAs (.group g :: ns) (text ++ rest)
  | optional {children ns : List Node} {tag : Tag} {inside rest : List Char}
      (hchildren : AreWrittenAs children inside) (hns : AreWrittenAs ns rest) :
      AreWrittenAs (.optional children tag :: ns) ('(' :: (inside ++ ')' :: rest))
  | marked {g : Group} {ns : List Node} {tag : Tag} {text rest : List Char}
      (hg : g.IsWrittenAs text) (hns : AreWrittenAs ns rest) :
      AreWrittenAs (.optional [.group g] tag :: ns) (text ++ '?' :: rest)

/-- The rows of nodes that patterns are read into. -/
structure ArePattern (types : TypeRegistry) (ns : List Node) : Prop where
  ne_nil : ns ≠ []
  wellFormed : AreWellFormed false ns
  readable : ∀ g ∈ groupsOf ns, g.IsReadable types
  ids : (groupsOf ns).map Group.id = List.range' 1 (groupsOf ns).length

/-! ### What is read is written so -/

namespace ReadsElements

variable {types : TypeRegistry} {inSection : Bool} {next last : Nat} {cs : List Char}
  {ns : List Node}

/-- What was read is a way to write what reading made. -/
theorem areWrittenAs (h : ReadsElements types inSection next cs ns last) : AreWrittenAs ns cs := by
  induction h with
  | nil => exact .nil
  | group hinside _ hwritten _ _ _ ih =>
    simpa using AreWrittenAs.group (.mk hinside hwritten) ih
  | marked hinside _ hwritten _ _ ih =>
    simpa using AreWrittenAs.marked (.mk hinside hwritten) ih
  | «section» _ _ _ ihchildren ih => exact .optional ihchildren ih
  | @text inSection _ _ text _ _ _ _ _ _ ih =>
    simpa using @AreWrittenAs.literal (String.ofList text) ⟨inSection, none⟩ _ _ ih

/-- A row that starts with a literal is read from a text that starts so. -/
theorem head?_of_literalText? (h : ReadsElements types inSection next cs ns last) {n : Node}
    (hn : n ∈ ns.head?) {text : String} (htext : text ∈ n.literalText?) :
    cs.head? = text.toList.head? ∧ ∃ c ∈ cs.head?, isLiteralChar c = true := by
  cases h with
  | nil => cases hn
  | group => cases hn; cases htext
  | marked => cases hn; cases htext
  | «section» => cases hn; cases htext
  | @text _ _ _ text after ns hne hchars _ _ =>
    cases hn
    cases htext
    cases text with
    | nil => exact absurd rfl hne
    | cons c text =>
      rw [String.toList_ofList]
      exact ⟨rfl, c, rfl, hchars c List.mem_cons_self⟩

/-- Reading makes rows whose nodes stay apart. -/
theorem areWellFormed (h : ReadsElements types inSection next cs ns last)
    (hinside : inSection = true → SectionInside 0 cs) : AreWellFormed inSection ns := by
  induction h with
  | nil => exact .nil
  | @group _ g content after ns last hcontent _ _ htag hafter hns ih =>
    refine .group htag (fun n hn text htext hhead ↦ hafter ?_)
      (ih fun hin ↦ (SectionInside.group_iff hcontent).mp (hinside hin))
    rw [(hns.head?_of_literalText? hn htext).1, hhead]
  | @marked inSection g content after ns last hcontent _ _ htag _ ih =>
    refine .optional (.group htag nofun .nil) (ih fun hin ↦ ?_)
    exact (SectionInside.char_iff (by decide)).mp
      ((SectionInside.group_iff hcontent).mp (hinside hin))
  | «section» hchildren _ _ ihchildren ih =>
    exact .optional (ihchildren fun _ ↦ hchildren)
      (ih fun hin ↦ (SectionInside.section_iff hchildren).mp (hinside hin))
  | @text inSection _ _ text after ns hne hchars hafter hns ih =>
    have hin : inSection = true → ')' ∉ text ∧ SectionInside 0 after := fun h ↦
      (SectionInside.text_iff hchars).mp (hinside h)
    refine .literal (fun h ↦ hne (String.ofList_inj.mp h)) ?_ ?_ ?_ (ih fun h ↦ (hin h).2)
    · rwa [String.toList_ofList]
    · rw [String.toList_ofList]
      exact fun h ↦ (hin h).1
    · intro n hn
      refine Option.eq_none_iff_forall_not_mem.mpr fun text' htext' ↦ ?_
      obtain ⟨-, c, hc, hliteral⟩ := hns.head?_of_literalText? hn htext'
      rw [hafter c hc] at hliteral
      cases hliteral

end ReadsElements

/-! ### What is written so is read -/

/-- The numbers of a group and of those behind it. -/
private theorem ids_cons {g : Group} {gs : List Group} {next : Nat}
    (h : (g :: gs).map Group.id = List.range' next (g :: gs).length) :
    g.id = next ∧ gs.map Group.id = List.range' (next + 1) gs.length ∧
      next + (g :: gs).length = next + 1 + gs.length := by
  rw [List.map_cons, List.length_cons, List.range'_succ] at h
  obtain ⟨hid, hids⟩ := List.cons.inj h
  exact ⟨hid, hids, by rw [List.length_cons]; omega⟩

/-- The numbers of groups and of those behind them. -/
private theorem ids_append {gs gs' : List Group} {next : Nat}
    (h : (gs ++ gs').map Group.id = List.range' next (gs ++ gs').length) :
    gs.map Group.id = List.range' next gs.length ∧
      gs'.map Group.id = List.range' (next + gs.length) gs'.length ∧
      next + (gs ++ gs').length = next + gs.length + gs'.length := by
  rw [List.map_append, List.length_append, ← List.range'_append_1] at h
  obtain ⟨hids, hids'⟩ := List.append_inj h (by simp)
  exact ⟨hids, hids', by rw [List.length_append]; omega⟩

namespace AreWrittenAs

variable {types : TypeRegistry} {inSection : Bool} {cs : List Char} {ns : List Node}

/-- A row without nodes is written as nothing, and no other is. -/
theorem eq_nil_iff (h : AreWrittenAs ns cs) (hwell : AreWellFormed inSection ns) :
    cs = [] ↔ ns = [] := by
  cases h with
  | nil => exact iff_of_true rfl rfl
  | literal hns =>
    cases hwell with
    | literal hne =>
      refine iff_of_false (fun h ↦ hne ?_) (List.cons_ne_nil _ _)
      exact String.toList_eq_nil_iff.mp (List.append_eq_nil_iff.mp h).1
  | group hg hns =>
    cases hg
    exact iff_of_false (List.cons_ne_nil _ _) (List.cons_ne_nil _ _)
  | optional => exact iff_of_false (List.cons_ne_nil _ _) (List.cons_ne_nil _ _)
  | marked hg hns =>
    cases hg
    exact iff_of_false (List.cons_ne_nil _ _) (List.cons_ne_nil _ _)

/-- The first character of a row is that of a literal, or starts a group or a section. -/
theorem head?_eq (h : AreWrittenAs ns cs) (hwell : AreWellFormed inSection ns) {c : Char}
    (hc : c ∈ cs.head?) :
    (c = '\x7b' ∨ c = '(') ∨
      ∃ n ∈ ns.head?, ∃ text ∈ n.literalText?, text.toList.head? = some c := by
  cases h with
  | nil => cases hc
  | @literal text tag ns rest hns =>
    cases hwell with
    | literal hne =>
      have hne' : text.toList ≠ [] := fun h ↦ hne (String.toList_eq_nil_iff.mp h)
      rw [List.head?_append_of_ne_nil _ hne'] at hc
      exact .inr ⟨_, rfl, text, rfl, hc⟩
  | group hg hns =>
    cases hg
    cases hc
    exact .inl (.inl rfl)
  | optional =>
    cases hc
    exact .inl (.inr rfl)
  | marked hg hns =>
    cases hg
    cases hc
    exact .inl (.inl rfl)

/-- Behind a literal no other one starts. -/
theorem not_isLiteralChar (h : AreWrittenAs ns cs) (hwell : AreWellFormed inSection ns)
    (hnext : ∀ n ∈ ns.head?, n.literalText? = none) {c : Char} (hc : c ∈ cs.head?) :
    isLiteralChar c = false := by
  obtain (rfl | rfl) | ⟨n, hn, text, htext, -⟩ := h.head?_eq hwell hc
  · rfl
  · rfl
  · rw [hnext n hn] at htext
    cases htext

/-- In a section the parentheses of a row come in pairs. -/
theorem sectionInside (h : AreWrittenAs ns cs) (hwell : AreWellFormed true ns) :
    SectionInside 0 cs := by
  induction h with
  | nil => exact .nil
  | literal _ ih =>
    cases hwell with
    | literal _ htext hparen _ hns => exact (SectionInside.text_iff htext).mpr ⟨hparen rfl, ih hns⟩
  | group hg _ ih =>
    cases hwell with
    | group _ _ hns =>
      obtain ⟨hinside, -⟩ := hg
      simpa using (SectionInside.group_iff hinside).mpr (ih hns)
  | optional _ _ ihchildren ih =>
    cases hwell with
    | optional hchildren hns =>
      exact (SectionInside.section_iff (ihchildren hchildren)).mpr (ih hns)
  | marked hg _ ih =>
    cases hwell with
    | optional _ hns =>
      obtain ⟨hinside, -⟩ := hg
      have hrest := (SectionInside.char_iff (c := '?') (by decide)).mpr (ih hns)
      simpa using (SectionInside.group_iff hinside).mpr hrest

/-- What stands in a row is read from any way to write it, if its groups can stand in a pattern and
have the numbers that come next. -/
theorem readsElements (h : AreWrittenAs ns cs) (hwell : AreWellFormed inSection ns)
    (hreadable : ∀ g ∈ groupsOf ns, g.IsReadable types) {next : Nat}
    (hids : (groupsOf ns).map Group.id = List.range' next (groupsOf ns).length) :
    ReadsElements types inSection next cs ns (next + (groupsOf ns).length) := by
  induction h generalizing inSection next with
  | nil => exact .nil
  | @literal text tag ns rest hns ih =>
    cases hwell with
    | literal hne htext hparen hnext hwell =>
      have hread := ReadsElements.text (fun h ↦ hne (String.toList_eq_nil_iff.mp h)) htext
        (fun c hc ↦ hns.not_isLiteralChar hwell hnext hc) (ih hwell hreadable hids)
      rwa [String.ofList_toList] at hread
  | @group g ns text rest hg hns ih =>
    cases hwell with
    | group htag hnext hwell =>
      rw [groupsOf_group] at hids hreadable ⊢
      obtain ⟨rfl, hids, hlast⟩ := ids_cons hids
      obtain ⟨hg', hreadable⟩ := List.forall_mem_cons.mp hreadable
      obtain ⟨hinside, hwritten⟩ := hg
      rw [List.cons_append, List.append_assoc, hlast]
      refine .group hinside hg' hwritten htag (fun hhead ↦ ?_) (ih hwell hreadable hids)
      obtain (h | h) | ⟨n, hn, text, htext, h⟩ := hns.head?_eq hwell hhead
      · cases h
      · cases h
      · exact hnext n hn text htext h
  | @optional children ns tag inside rest hchildren hns ihchildren ih =>
    cases hwell with
    | optional hwell hwell' =>
      rw [groupsOf_optional] at hids hreadable ⊢
      obtain ⟨hids, hids', hlast⟩ := ids_append hids
      obtain ⟨hreadable, hreadable'⟩ := List.forall_mem_append.mp hreadable
      rw [hlast]
      exact .section (hchildren.sectionInside hwell) (ihchildren hwell hreadable hids)
        (ih hwell' hreadable' hids')
  | @marked g ns tag text rest hg hns ih =>
    cases hwell with
    | optional hwell hwell' =>
      cases hwell with
      | group htag =>
        rw [groupsOf_optional, groupsOf_group, groupsOf, List.singleton_append] at hids hreadable ⊢
        obtain ⟨rfl, hids, hlast⟩ := ids_cons hids
        obtain ⟨hg', hreadable⟩ := List.forall_mem_cons.mp hreadable
        obtain ⟨hinside, hwritten⟩ := hg
        rw [List.cons_append, List.append_assoc, hlast]
        exact .marked hinside hg' hwritten htag (ih hwell' hreadable hids)

end AreWrittenAs

/-- What is read as a pattern are the well-formed trees, each from any way to write it. -/
theorem parse_eq_ok_iff {source : String} {types : TypeRegistry} {root : Node} :
    parse source types = .ok root ↔
      ∃ children, root = ofChildren children ∧ ArePattern types children ∧
        AreWrittenAs children source.toList := by
  rw [parse_eq_ok_iff_readsElements]
  constructor
  · rintro ⟨hne, children, last, hread, rfl⟩
    have hwell := hread.areWellFormed fun h ↦ absurd h Bool.false_ne_true
    refine ⟨children, rfl, ⟨fun h ↦ hne ?_, hwell, hread.readable, hread.ids_eq_range.1⟩,
      hread.areWrittenAs⟩
    exact String.toList_eq_nil_iff.mp ((hread.areWrittenAs.eq_nil_iff hwell).mpr h)
  · rintro ⟨children, rfl, hpattern, hwritten⟩
    refine ⟨?_, children, _,
      hwritten.readsElements hpattern.wellFormed hpattern.readable hpattern.ids, rfl⟩
    rintro rfl
    exact hpattern.ne_nil ((hwritten.eq_nil_iff hpattern.wellFormed).mp rfl)

/-- A pattern that is read says neither more nor less than its tree: the tree is well-formed, and
the pattern is a way to write it. `SPEC_FULL.md:78–82`. -/
theorem written_of_parse {source : String} {types : TypeRegistry} {root : Node}
    (h : parse source types = .ok root) :
    ∃ children, root = ofChildren children ∧ children ≠ [] ∧ AreWellFormed false children ∧
      AreWrittenAs children source.toList := by
  obtain ⟨children, hroot, hpattern, hwritten⟩ := parse_eq_ok_iff.mp h
  exact ⟨children, hroot, hpattern.ne_nil, hpattern.wellFormed, hwritten⟩

/-- Quotes hide braces and parentheses, and a question mark makes a section of a group. -/
theorem written_of_parse_quoted :
    ∃ root children,
      parse "a\x7bn:string(startsWith=\"\x7d)\")\x7d?(-\x7bm:int\x7d)" .builtin = .ok root ∧
      root = ofChildren children ∧ AreWellFormed false children ∧
      AreWrittenAs children "a\x7bn:string(startsWith=\"\x7d)\")\x7d?(-\x7bm:int\x7d)".toList := by
  have htest : (parse "a\x7bn:string(startsWith=\"\x7d)\")\x7d?(-\x7bm:int\x7d)"
      .builtin).toOption.any (fun _ ↦ true) = true := by
    decide +kernel
  obtain ⟨root, hroot, -⟩ := exists_ok_of_any htest
  obtain ⟨children, hchildren, -, hwell, hwritten⟩ := written_of_parse hroot
  exact ⟨root, children, hroot, hchildren, hwell, hwritten⟩

end Node

end UrlPattern
