import UrlPattern.Proofs.WrittenGroup

/-!
# What reading makes of a text

`ReadsElements` lists the steps that reading takes, with the text that each of them reads, the node
that it makes and the number of the next group. The steps are told apart by the text alone, and
reading takes exactly these (`readElements_eq_ok_iff`): whatever is said of the trees that reading
makes, or of the texts that it accepts, follows by induction on the steps.

Specification: `SPEC_FULL.md` §4.4 (lines 57–58).
-/

namespace UrlPattern.Node

/-- The rows of nodes that reading makes of texts, with the number of the next group before and
behind. All nodes are marked as standing where they do. -/
inductive ReadsElements (types : TypeRegistry) :
    (inSection : Bool) → (next : Nat) → List Char → List Node → (last : Nat) → Prop where
  | nil {inSection : Bool} {next : Nat} : ReadsElements types inSection next [] [] next
  | group {inSection : Bool} {g : Group} {content after : List Char} {ns : List Node} {last : Nat}
      (hinside : GroupInside false content) (hreadable : g.IsReadable types)
      (hwritten : g.IsWrittenInside content) (htag : g.tag = ⟨inSection, none⟩)
      (hafter : after.head? ≠ some '?')
      (hns : ReadsElements types inSection (g.id + 1) after ns last) :
      ReadsElements types inSection g.id ('\x7b' :: (content ++ '\x7d' :: after)) (.group g :: ns)
        last
  | marked {inSection : Bool} {g : Group} {content after : List Char} {ns : List Node} {last : Nat}
      (hinside : GroupInside false content) (hreadable : g.IsReadable types)
      (hwritten : g.IsWrittenInside content) (htag : g.tag = ⟨true, none⟩)
      (hns : ReadsElements types inSection (g.id + 1) after ns last) :
      ReadsElements types inSection g.id ('\x7b' :: (content ++ '\x7d' :: '?' :: after))
        (.optional [.group g] ⟨inSection, none⟩ :: ns) last
  | section {inSection : Bool} {next middle last : Nat} {inside after : List Char}
      {children ns : List Node} (hinside : SectionInside 0 inside)
      (hchildren : ReadsElements types true next inside children middle)
      (hns : ReadsElements types inSection middle after ns last) :
      ReadsElements types inSection next ('(' :: (inside ++ ')' :: after))
        (.optional children ⟨inSection, none⟩ :: ns) last
  | text {inSection : Bool} {next last : Nat} {text after : List Char} {ns : List Node}
      (hne : text ≠ []) (htext : ∀ c ∈ text, isLiteralChar c = true)
      (hafter : ∀ c ∈ after.head?, isLiteralChar c = false)
      (hns : ReadsElements types inSection next after ns last) :
      ReadsElements types inSection next (text ++ after)
        (.literal (String.ofList text) ⟨inSection, none⟩ :: ns) last

namespace ReadsElements

variable {types : TypeRegistry} {next last : Nat} {cs : List Char} {ns : List Node}

/-- In a section all nodes are marked already. -/
theorem markAllInSection_eq_self (h : ReadsElements types true next cs ns last) :
    Node.markAllInSection ns = ns := by
  generalize hb : true = inSection at h
  induction h with
  | nil => rfl
  | @group _ g content after ns last hinside hreadable hwritten htag hafter _ ih =>
    subst hb
    obtain ⟨id, name, type, raw, constraints, resolved, tag⟩ := g
    obtain rfl : tag = ⟨true, none⟩ := htag
    exact congrArg _ (ih rfl)
  | @marked _ g content after ns last hinside hreadable hwritten htag _ ih =>
    subst hb
    obtain ⟨id, name, type, raw, constraints, resolved, tag⟩ := g
    obtain rfl : tag = ⟨true, none⟩ := htag
    exact congrArg _ (ih rfl)
  | «section» hinside _ _ ihchildren ih =>
    subst hb
    rw [Node.markAllInSection, Node.markInSection, ihchildren rfl, ih rfl]
  | text hne htext hafter _ ih =>
    subst hb
    exact congrArg _ (ih rfl)

/-- In a section nodes are as they are outside, but for the mark. -/
theorem markAllInSection (h : ReadsElements types false next cs ns last) :
    ReadsElements types true next cs (Node.markAllInSection ns) last := by
  generalize hb : false = inSection at h
  induction h with
  | nil => exact .nil
  | @group _ g content after ns last hinside hreadable hwritten htag hafter _ ih =>
    subst hb
    exact .group (g := g.markInSection) hinside (hreadable.of_tag _) (hwritten.of_tag _)
      (by rw [Group.markInSection, htag]) hafter (ih rfl)
  | @marked _ g content after ns last hinside hreadable hwritten htag _ ih =>
    subst hb
    exact .marked (g := g.markInSection) hinside (hreadable.of_tag _) (hwritten.of_tag _)
      (by rw [Group.markInSection, htag]) (ih rfl)
  | «section» hinside hchildren _ _ ih =>
    subst hb
    rw [Node.markAllInSection, Node.markInSection, hchildren.markAllInSection_eq_self]
    exact .section hinside hchildren (ih rfl)
  | text hne htext hafter _ ih =>
    subst hb
    exact .text hne htext hafter (ih rfl)

end ReadsElements

/-- No mark follows, in the words of the reader's case split. -/
theorem head?_ne_mark {after : List Char} (h : ∀ after', after = '?' :: after' → False) :
    after.head? ≠ some '?' := by
  intro hhead
  obtain ⟨after', hafter⟩ := List.head?_eq_some_iff.mp hhead
  exact h after' hafter

section

variable (pattern : String) (types : TypeRegistry) (offset : Nat)

theorem readElements_marked {rest content after : List Char}
    (h : splitGroup false rest = .ok (content, '?' :: after)) :
    readElements pattern types offset ('\x7b' :: rest) = do
      let g ← readGroup pattern types offset content
      let others ← readElements pattern types (offset + 1 + Text.byteLength content + 2) after
      return ofSection [group g] :: others := by
  rw [readElements, if_pos rfl, h]
  rfl

theorem readElements_group {rest content after : List Char}
    (h : splitGroup false rest = .ok (content, after)) (hafter : after.head? ≠ some '?') :
    readElements pattern types offset ('\x7b' :: rest) = do
      let g ← readGroup pattern types offset content
      let others ← readElements pattern types (offset + 1 + Text.byteLength content + 1) after
      return group g :: others := by
  rw [readElements, if_pos rfl, h]
  split
  · next heq => cases heq
  · next heq =>
    cases heq
    exact absurd rfl hafter
  · next heq =>
    cases heq
    rfl

theorem readElements_section {rest inside after : List Char}
    (h : splitSection offset (offset + 1) 0 rest = .ok (inside, after)) :
    readElements pattern types offset ('(' :: rest) = do
      let children ← readElements pattern types (offset + 1) inside
      let others ← readElements pattern types (offset + 1 + Text.byteLength inside + 1) after
      return ofSection children :: others := by
  rw [readElements, if_neg (by decide), if_pos rfl, h]

theorem readElements_text {text after : List Char} (hne : text ≠ [])
    (htext : ∀ c ∈ text, isLiteralChar c = true)
    (hafter : ∀ c ∈ after.head?, isLiteralChar c = false) :
    readElements pattern types offset (text ++ after) = do
      let others ← readElements pattern types (offset + Text.byteLength text) after
      return ofText (String.ofList text) :: others := by
  cases text with
  | nil => exact absurd rfl hne
  | cons c text =>
    have hc := htext c List.mem_cons_self
    simp only [isLiteralChar, Bool.and_eq_true, decide_eq_true_eq] at hc
    obtain ⟨htake, hdrop⟩ := Text.takeWhile_eq_and_dropWhile_eq_iff.mpr
      ⟨rfl, fun d hd ↦ htext d (List.mem_cons_of_mem c hd), hafter⟩
    rw [List.cons_append, readElements, if_neg hc.1, if_neg hc.2]
    simp only [htake, hdrop]

end

section

variable {pattern : String} {types : TypeRegistry} {offset next last : Nat} {cs : List Char}
  {ns : List Node}

/-- Reading takes no other steps. -/
theorem readsElements_of_readElements
    (h : readElements pattern types offset cs next = .ok ns last) :
    ReadsElements types false next cs ns last := by
  induction offset, cs using readElements.induct generalizing next last ns with
  | case1 offset =>
    rw [readElements] at h
    cases h
    exact .nil
  | case2 offset rest kind hsplit =>
    rw [readElements, if_pos rfl, hsplit] at h
    cases h
  | case3 offset rest content after hsplit ih =>
    rw [readElements_marked _ _ _ hsplit] at h
    obtain ⟨g, n₁, hg, h₁⟩ := parse_bind_eq_ok.mp h
    obtain ⟨others, n₂, hothers, h₂⟩ := parse_bind_eq_ok.mp h₁
    cases h₂
    obtain ⟨hreadable, hwritten, htag, rfl, rfl⟩ := readGroup_eq_ok_iff.mp hg
    obtain ⟨hinside, rfl⟩ := splitGroup_eq_ok_iff.mp hsplit
    exact .marked (g := g.markInSection) hinside (hreadable.of_tag _) (hwritten.of_tag _)
      (by rw [Group.markInSection, htag]; rfl) (ih hothers)
  | case4 offset rest content after hafter hsplit ih =>
    have hafter' := head?_ne_mark hafter
    rw [readElements_group _ _ _ hsplit hafter'] at h
    obtain ⟨g, n₁, hg, h₁⟩ := parse_bind_eq_ok.mp h
    obtain ⟨others, n₂, hothers, h₂⟩ := parse_bind_eq_ok.mp h₁
    cases h₂
    obtain ⟨hreadable, hwritten, htag, rfl, rfl⟩ := readGroup_eq_ok_iff.mp hg
    obtain ⟨hinside, rfl⟩ := splitGroup_eq_ok_iff.mp hsplit
    exact .group hinside hreadable hwritten htag hafter' (ih hothers)
  | case5 offset rest fault hsplit hbrace =>
    rw [readElements, if_neg hbrace, if_pos rfl, hsplit] at h
    cases h
  | case6 offset rest inside after hsplit hbrace ih ih' =>
    rw [readElements_section _ _ _ hsplit] at h
    obtain ⟨children, n₁, hchildren, h₁⟩ := parse_bind_eq_ok.mp h
    obtain ⟨others, n₂, hothers, h₂⟩ := parse_bind_eq_ok.mp h₁
    cases h₂
    obtain ⟨hinside, rfl⟩ := splitSection_eq_ok_iff.mp hsplit
    exact .section hinside (ih hchildren).markAllInSection (ih' hothers)
  | case7 offset c rest hbrace hparen text =>
    rename_i ih
    have hsplit : rest.takeWhile isLiteralChar = _ ∧ rest.dropWhile isLiteralChar = _ := ⟨rfl, rfl⟩
    obtain ⟨hrest, htext, hafter⟩ := Text.takeWhile_eq_and_dropWhile_eq_iff.mp hsplit
    have hcs : c :: rest = (c :: rest.takeWhile isLiteralChar) ++ rest.dropWhile isLiteralChar :=
      congrArg (c :: ·) hrest
    have htext : ∀ d ∈ c :: rest.takeWhile isLiteralChar, isLiteralChar d = true :=
      List.forall_mem_cons.mpr ⟨by simp [isLiteralChar, hbrace, hparen], htext⟩
    rw [hcs, readElements_text _ _ _ (List.cons_ne_nil _ _) htext hafter] at h
    obtain ⟨others, n₁, hothers, h₁⟩ := parse_bind_eq_ok.mp h
    cases h₁
    rw [hcs]
    exact .text (List.cons_ne_nil _ _) htext hafter (ih hothers)

/-- Reading makes a group that is marked later. -/
private theorem readGroup_unmarked (pattern : String) (offset : Nat) {g : Group}
    {content : List Char} (hreadable : g.IsReadable types) (hwritten : g.IsWrittenInside content) :
    readGroup pattern types offset content g.id = .ok { g with tag := .plain } (g.id + 1) :=
  readGroup_eq_ok_iff.mpr ⟨hreadable.of_tag _, hwritten.of_tag _, rfl, rfl, rfl⟩

/-- Marking afterwards leaves the mark of where a node stands. -/
private theorem cond_markInSection_group {inSection : Bool} {g : Group}
    (htag : g.tag = ⟨inSection, none⟩) :
    (bif inSection then (Node.group { g with tag := .plain }).markInSection
      else .group { g with tag := .plain }) = .group g := by
  obtain ⟨id, name, type, raw, constraints, resolved, tag⟩ := g
  obtain rfl : tag = ⟨inSection, none⟩ := htag
  cases inSection <;> rfl

private theorem cond_markInSection_section {inSection : Bool} {children children' : List Node}
    (hmark : markAllInSection children' = children) (hself : markAllInSection children = children) :
    (bif inSection then (ofSection children').markInSection else ofSection children')
      = .optional children ⟨inSection, none⟩ := by
  rw [ofSection, hmark]
  cases inSection with
  | false => rfl
  | true =>
    rw [cond_true, markInSection, hself]
    rfl

private theorem cond_markInSection_cons {inSection : Bool} {n n' : Node} {ns ns' : List Node}
    (hn : (bif inSection then n'.markInSection else n') = n)
    (hns : (bif inSection then markAllInSection ns' else ns') = ns) :
    (bif inSection then markAllInSection (n' :: ns') else n' :: ns') = n :: ns := by
  cases inSection <;> cases hn <;> cases hns <;> rfl

/-- Reading takes each of the steps, and what stands in a section is marked afterwards. -/
theorem exists_readElements {inSection : Bool} (pattern : String) (offset : Nat)
    (h : ReadsElements types inSection next cs ns last) :
    ∃ ns', readElements pattern types offset cs next = .ok ns' last ∧
      (bif inSection then markAllInSection ns' else ns') = ns := by
  induction h generalizing offset with
  | nil => exact ⟨[], by rw [readElements]; rfl, Bool.cond_self _ _⟩
  | @group inSection g content after ns last hinside hreadable hwritten htag hafter _ ih =>
    obtain ⟨ns', hread, hns⟩ := ih (offset + 1 + Text.byteLength content + 1)
    have hg := readGroup_unmarked pattern offset hreadable hwritten
    refine ⟨_, ?_, cond_markInSection_cons (cond_markInSection_group htag) hns⟩
    rw [readElements_group _ _ _ (splitGroup_of_inside hinside _) hafter]
    exact parse_bind_eq_ok.mpr ⟨_, _, hg, parse_bind_eq_ok.mpr ⟨_, _, hread, rfl⟩⟩
  | @marked inSection g content after ns last hinside hreadable hwritten htag _ ih =>
    obtain ⟨ns', hread, hns⟩ := ih (offset + 1 + Text.byteLength content + 2)
    have hg := readGroup_unmarked pattern offset hreadable hwritten
    have hchild : ReadsElements types true g.id ('\x7b' :: (content ++ ['\x7d'])) [.group g]
        (g.id + 1) := .group hinside hreadable hwritten htag (by simp) .nil
    have hmark : markAllInSection [.group { g with tag := .plain }] = [.group g] :=
      congrArg (fun n ↦ [n]) (cond_markInSection_group htag)
    refine ⟨_, ?_, cond_markInSection_cons
      (cond_markInSection_section hmark hchild.markAllInSection_eq_self) hns⟩
    rw [readElements_marked _ _ _ (splitGroup_of_inside hinside _)]
    exact parse_bind_eq_ok.mpr ⟨_, _, hg, parse_bind_eq_ok.mpr ⟨_, _, hread, rfl⟩⟩
  | @«section» inSection next middle last inside after children ns hinside hchildren _ ihchildren
      ih =>
    obtain ⟨children', hread', hmark⟩ := ihchildren (offset + 1)
    obtain ⟨ns', hread, hns⟩ := ih (offset + 1 + Text.byteLength inside + 1)
    refine ⟨_, ?_, cond_markInSection_cons
      (cond_markInSection_section hmark hchildren.markAllInSection_eq_self) hns⟩
    rw [readElements_section _ _ _ (splitSection_of_inside hinside _ _ _)]
    exact parse_bind_eq_ok.mpr ⟨_, _, hread', parse_bind_eq_ok.mpr ⟨_, _, hread, rfl⟩⟩
  | @text inSection next last text after ns hne htext hafter _ ih =>
    obtain ⟨ns', hread, hns⟩ := ih (offset + Text.byteLength text)
    refine ⟨ofText (String.ofList text) :: ns', ?_,
      cond_markInSection_cons (by cases inSection <;> rfl) hns⟩
    rw [readElements_text _ _ _ hne htext hafter]
    exact parse_bind_eq_ok.mpr ⟨_, _, hread, rfl⟩

/-- What reading makes of a text are the rows of nodes that its steps make. -/
theorem readElements_eq_ok_iff :
    readElements pattern types offset cs next = .ok ns last ↔
      ReadsElements types false next cs ns last := by
  refine ⟨readsElements_of_readElements, fun h ↦ ?_⟩
  obtain ⟨ns', hread, rfl⟩ := exists_readElements pattern offset h
  exact hread

end

end UrlPattern.Node
