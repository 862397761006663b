import Mathlib.Computability.Language
import UrlPattern.Proofs.GroupTexts

/-!
# Dividing texts along trees

What texts a tree stands for, said without regular expressions: `Node.language` by concatenation and
union, and `Node.Divides` by the pieces that a text falls into, one for each literal and group and
one for each optional section that says whether the section is there. Both say the same
(`Node.mem_language`).

A text may divide in several ways. Of two divisions the one is preferred that does better at the
first piece where they differ: a longer group text is better, and so is a section that is there.
`Node.divisions` lists all divisions of the beginnings of a text, the preferred ones first.

Specification: `SPEC_FULL.md` §4.3 (lines 50–51).
-/

namespace UrlPattern

/-- A piece of a text that is divided along a tree. -/
inductive Piece where
  /-- The text of a literal. -/
  | literal (text : String)
  /-- The text of a group. -/
  | group (g : Group) (text : List Char)
  /-- An optional section that is there. The pieces of its children follow. -/
  | present
  /-- An optional section that is left out with all of its children. -/
  | absent (children : List Node)

/-- The characters of a piece. -/
def Piece.text : Piece → List Char
  | literal text => text.toList
  | group _ text => text
  | present => []
  | absent _ => []

/-- One piece is better than another in its place. -/
inductive Piece.Better : Piece → Piece → Prop where
  | longer {g : Group} {t t' : List Char} (h : t'.length < t.length) :
      Better (group g t) (group g t')
  | present {children : List Node} : Better present (absent children)

/-- The pieces that a text is divided into, from left to right. -/
abbrev Division := List Piece

namespace Division

/-- The divided text. -/
def text (d : Division) : List Char := d.flatMap Piece.text

theorem text_nil : text [] = [] := rfl

theorem text_cons (p : Piece) (d : Division) : text (p :: d) = p.text ++ text d := rfl

theorem text_append (d e : Division) : text (d ++ e) = text d ++ text e := List.flatMap_append

/-- A division is preferred to another if it is better at the first piece where they differ. -/
inductive Preferred : Division → Division → Prop where
  | here {p q : Piece} {d e : Division} (h : p.Better q) : Preferred (p :: d) (q :: e)
  | later {p : Piece} {d e : Division} (h : Preferred d e) : Preferred (p :: d) (p :: e)

theorem Preferred.append {d e : Division} (h : Preferred d e) (d' e' : Division) :
    Preferred (d ++ d') (e ++ e') := by
  induction h with
  | here h => exact .here h
  | later _ ih => exact .later ih

/-- Of two divisions at most one is preferred to the other. -/
theorem Preferred.asymm {d e : Division} (h : Preferred d e) : ¬ Preferred e d := by
  have better_asymm : ∀ {p q : Piece}, p.Better q → ¬ q.Better p := by
    intro p q h h'
    cases h with
    | longer hlt =>
      cases h' with
      | longer hgt => exact Nat.lt_asymm hlt hgt
    | present => cases h'
  have better_irrefl : ∀ {p : Piece}, ¬ p.Better p := fun h ↦ better_asymm h h
  induction h with
  | here h =>
    intro h'
    cases h' with
    | here h' => exact better_asymm h h'
    | later _ => exact better_irrefl h
  | later _ ih =>
    intro h'
    cases h' with
    | here h' => exact better_irrefl h'
    | later h' => exact ih h'

theorem Preferred.append_left {d e : Division} (h : Preferred d e) (front : Division) :
    Preferred (front ++ d) (front ++ e) := by
  induction front with
  | nil => exact h
  | cons p front ih => exact .later ih

end Division

namespace Node

mutual

/-- The texts that a tree stands for. -/
def language : Node → Language Char
  | literal text _ => {text.toList}
  | group g => {t | g.Spells t}
  | sequence children _ => languageAll children
  | optional children _ => languageAll children + 1

/-- The texts that several trees in a row stand for. -/
def languageAll : List Node → Language Char
  | [] => 1
  | n :: ns => n.language * languageAll ns

end

mutual

/-- The pieces are those of a text divided along a tree. -/
def Divides : Node → Division → Prop
  | literal text _, d => d = [.literal text]
  | group g, d => ∃ t, g.Spells t ∧ d = [.group g t]
  | sequence children _, d => DividesAll children d
  | optional children _, d =>
    (∃ e, DividesAll children e ∧ d = .present :: e) ∨ d = [.absent children]

/-- The pieces are those of a text divided along several trees in a row. -/
def DividesAll : List Node → Division → Prop
  | [], d => d = []
  | n :: ns, d => ∃ d₁ d₂, n.Divides d₁ ∧ DividesAll ns d₂ ∧ d = d₁ ++ d₂

end

mutual

/-- What stands in the optional sections of a tree, for each section by itself. -/
def sections : Node → List (List Node)
  | literal .. => []
  | group _ => []
  | sequence children _ => sectionsOf children
  | optional children _ => children :: sectionsOf children

/-- What stands in the optional sections of several trees. -/
def sectionsOf : List Node → List (List Node)
  | [] => []
  | n :: ns => n.sections ++ sectionsOf ns

end

mutual

/-- The groups in the sections of a tree are groups of the tree. -/
theorem mem_groups_of_mem_sections {n : Node} {children : List Node} (h : children ∈ n.sections)
    {g : Group} (hg : g ∈ groupsOf children) : g ∈ n.groups := by
  match n with
  | literal text tag => cases h
  | group g' => cases h
  | sequence children' tag => exact mem_groupsOf_of_mem_sectionsOf h hg
  | optional children' tag =>
    rcases List.mem_cons.mp h with rfl | h
    · exact hg
    · exact mem_groupsOf_of_mem_sectionsOf h hg

theorem mem_groupsOf_of_mem_sectionsOf {ns : List Node} {children : List Node}
    (h : children ∈ sectionsOf ns) {g : Group} (hg : g ∈ groupsOf children) : g ∈ groupsOf ns := by
  match ns with
  | [] => cases h
  | n :: ns =>
    rcases List.mem_append.mp h with h | h
    · exact List.mem_append_left _ (mem_groups_of_mem_sections h hg)
    · exact List.mem_append_right _ (mem_groupsOf_of_mem_sectionsOf h hg)

end

end Node

/-- A piece fits a tree with these groups and sections. -/
def Piece.Fits (groups : List Group) (sections : List (List Node)) : Piece → Prop
  | literal _ => True
  | group g text => g ∈ groups ∧ g.Spells text
  | present => True
  | absent children => children ∈ sections

theorem Piece.Fits.mono {p : Piece} {groups groups' : List Group}
    {sections sections' : List (List Node)} (h : p.Fits groups sections)
    (hgroups : groups ⊆ groups') (hsections : sections ⊆ sections') : p.Fits groups' sections' := by
  cases p with
  | literal text => trivial
  | group g text => exact ⟨hgroups h.1, h.2⟩
  | present => trivial
  | absent children => exact hsections h

namespace Node

mutual

/-- The pieces of a division fit the tree. -/
theorem Divides.fits {n : Node} {d : Division} (h : n.Divides d) {p : Piece} (hp : p ∈ d) :
    p.Fits n.groups n.sections := by
  match n with
  | literal text tag =>
    simp only [Divides] at h
    rw [h, List.mem_singleton] at hp
    rw [hp]
    trivial
  | group g =>
    simp only [Divides] at h
    obtain ⟨t, ht, rfl⟩ := h
    rw [List.mem_singleton.mp hp]
    exact ⟨List.mem_cons_self, ht⟩
  | sequence children tag =>
    simp only [Divides] at h
    exact DividesAll.fits h hp
  | optional children tag =>
    simp only [Divides] at h
    rcases h with ⟨e, he, rfl⟩ | rfl
    · rcases List.mem_cons.mp hp with rfl | hp
      · trivial
      · exact (DividesAll.fits he hp).mono (List.Subset.refl _) (List.subset_cons_self _ _)
    · rw [List.mem_singleton.mp hp]
      exact List.mem_cons_self

theorem DividesAll.fits {ns : List Node} {d : Division} (h : DividesAll ns d) {p : Piece}
    (hp : p ∈ d) : p.Fits (groupsOf ns) (sectionsOf ns) := by
  match ns with
  | [] =>
    simp only [DividesAll] at h
    rw [h] at hp
    exact absurd hp List.not_mem_nil
  | n :: ns =>
    simp only [DividesAll] at h
    obtain ⟨d, e, hd, he, rfl⟩ := h
    rcases List.mem_append.mp hp with hp | hp
    · exact (Divides.fits hd hp).mono (List.subset_append_left _ _) (List.subset_append_left _ _)
    · exact (DividesAll.fits he hp).mono (List.subset_append_right _ _)
        (List.subset_append_right _ _)

end

/-- The pieces of groups are texts that the groups spell. -/
theorem Divides.spells {n : Node} {d : Division} (h : n.Divides d) {g : Group} {t : List Char}
    (hp : .group g t ∈ d) : g.Spells t := (h.fits hp).2

mutual

/-- The texts of a tree are those that can be divided along it. -/
theorem mem_language (n : Node) (t : List Char) :
    t ∈ n.language ↔ ∃ d, n.Divides d ∧ Division.text d = t := by
  match n with
  | literal text tag =>
    simp only [language, Divides, exists_eq_left]
    exact ⟨fun h ↦ by rw [h]; exact List.append_nil _,
      fun h ↦ by rw [← h]; exact List.append_nil _⟩
  | group g =>
    simp only [language, Divides]
    constructor
    · exact fun h ↦ ⟨[.group g t], ⟨t, h, rfl⟩, List.append_nil _⟩
    · rintro ⟨d, ⟨u, hu, rfl⟩, rfl⟩
      rw [Division.text_cons, Division.text_nil, List.append_nil]
      exact hu
  | sequence children tag =>
    simp only [language, Divides]
    exact mem_languageAll children t
  | optional children tag =>
    simp only [language, Divides, Language.mem_add, Language.mem_one, mem_languageAll children t]
    constructor
    · rintro (⟨d, hd, rfl⟩ | rfl)
      · exact ⟨.present :: d, .inl ⟨d, hd, rfl⟩, rfl⟩
      · exact ⟨[.absent children], .inr rfl, rfl⟩
    · rintro ⟨d, ⟨e, he, rfl⟩ | rfl, rfl⟩
      · exact .inl ⟨e, he, rfl⟩
      · exact .inr rfl

theorem mem_languageAll (ns : List Node) (t : List Char) :
    t ∈ languageAll ns ↔ ∃ d, DividesAll ns d ∧ Division.text d = t := by
  match ns with
  | [] =>
    simp only [languageAll, DividesAll, Language.mem_one, exists_eq_left]
    exact eq_comm
  | n :: ns =>
    simp only [languageAll, DividesAll, Language.mem_mul]
    constructor
    · rintro ⟨u, hu, v, hv, rfl⟩
      obtain ⟨d, hd, rfl⟩ := (mem_language n u).mp hu
      obtain ⟨e, he, rfl⟩ := (mem_languageAll ns v).mp hv
      exact ⟨d ++ e, ⟨d, e, hd, he, rfl⟩, Division.text_append d e⟩
    · rintro ⟨d', ⟨d, e, hd, he, rfl⟩, rfl⟩
      exact ⟨d.text, (mem_language n _).mpr ⟨d, hd, rfl⟩, e.text,
        (mem_languageAll ns _).mpr ⟨e, he, rfl⟩, (Division.text_append d e).symm⟩

end

mutual

/-- The divisions of the beginnings of a text, the preferred ones first. -/
noncomputable def divisions : Node → List Char → List Division
  | literal text _, s => if text.toList.isPrefixOf s then [[.literal text]] else []
  | group g, s => (Regex.prefixLengths g.Spells s).map fun k ↦ [.group g (s.take k)]
  | sequence children _, s => divisionsAll children s
  | optional children _, s => (divisionsAll children s).map (.present :: ·) ++ [[.absent children]]

/-- The divisions of the beginnings of a text along several trees in a row. -/
noncomputable def divisionsAll : List Node → List Char → List Division
  | [], _ => [[]]
  | n :: ns, s =>
    (n.divisions s).flatMap fun d ↦ (divisionsAll ns (s.drop d.text.length)).map (d ++ ·)

end

mutual

/-- The listed divisions are those of the beginnings of the text. -/
theorem mem_divisions (n : Node) (s : List Char) (d : Division) :
    d ∈ n.divisions s ↔ n.Divides d ∧ d.text <+: s := by
  match n with
  | literal text tag =>
    have htext : Division.text [.literal text] = text.toList := List.append_nil _
    simp only [divisions, Divides]
    constructor
    · intro hd
      split at hd
      · next hp =>
        rw [List.mem_singleton.mp hd, htext]
        exact ⟨rfl, List.isPrefixOf_iff_prefix.mp hp⟩
      · simp at hd
    · rintro ⟨rfl, hp⟩
      rw [htext, ← List.isPrefixOf_iff_prefix] at hp
      rw [if_pos hp]
      exact List.mem_singleton_self _
  | group g =>
    have htext : ∀ t, Division.text [.group g t] = t := fun t ↦ List.append_nil _
    simp only [divisions, Divides, List.mem_map, Regex.mem_prefixLengths]
    constructor
    · rintro ⟨k, ⟨-, hk⟩, rfl⟩
      rw [htext]
      exact ⟨⟨_, hk, rfl⟩, List.take_prefix k s⟩
    · rintro ⟨⟨t, ht, rfl⟩, hp⟩
      rw [htext] at hp
      have htake : s.take t.length = t := (List.prefix_iff_eq_take.mp hp).symm
      refine ⟨t.length, ⟨hp.length_le, ?_⟩, ?_⟩
      · rwa [htake]
      · rw [htake]
  | sequence children tag =>
    simp only [divisions, Divides]
    exact mem_divisionsAll children s d
  | optional children tag =>
    simp only [divisions, Divides, List.mem_append, List.mem_map, mem_divisionsAll children s,
      List.mem_singleton]
    constructor
    · rintro (⟨e, ⟨he, hp⟩, rfl⟩ | rfl)
      · exact ⟨.inl ⟨e, he, rfl⟩, hp⟩
      · exact ⟨.inr rfl, List.nil_prefix⟩
    · rintro ⟨⟨e, he, rfl⟩ | rfl, hp⟩
      · exact .inl ⟨e, ⟨he, hp⟩, rfl⟩
      · exact .inr rfl

theorem mem_divisionsAll (ns : List Node) (s : List Char) (d : Division) :
    d ∈ divisionsAll ns s ↔ DividesAll ns d ∧ d.text <+: s := by
  match ns with
  | [] =>
    simp only [divisionsAll, DividesAll, List.mem_singleton]
    exact ⟨fun h ↦ ⟨h, by rw [h]; exact List.nil_prefix⟩, And.left⟩
  | n :: ns =>
    simp only [divisionsAll, DividesAll, List.mem_flatMap, List.mem_map]
    constructor
    · rintro ⟨d, hd, e, he, rfl⟩
      obtain ⟨hdiv, t, rfl⟩ := (mem_divisions n s d).mp hd
      rw [List.drop_left, mem_divisionsAll ns t e] at he
      refine ⟨⟨d, e, hdiv, he.1, rfl⟩, ?_⟩
      rw [Division.text_append, List.prefix_append_right_inj]
      exact he.2
    · rintro ⟨⟨d, e, hd, he, rfl⟩, hp⟩
      rw [Division.text_append] at hp
      obtain ⟨t, rfl⟩ := (List.prefix_append _ _).trans hp
      rw [List.prefix_append_right_inj] at hp
      refine ⟨d, (mem_divisions n _ d).mpr ⟨hd, List.prefix_append _ _⟩, e, ?_, rfl⟩
      rw [List.drop_left]
      exact (mem_divisionsAll ns t e).mpr ⟨he, hp⟩

end

mutual

/-- Preferred divisions are listed first. -/
theorem divisions_pairwise (n : Node) (s : List Char) :
    (n.divisions s).Pairwise Division.Preferred := by
  match n with
  | literal text tag =>
    simp only [divisions]
    split
    · exact List.pairwise_singleton _ _
    · exact List.Pairwise.nil
  | group g =>
    simp only [divisions, List.pairwise_map]
    refine (Regex.prefixLengths_descending g.Spells s).imp_of_mem fun hk hj hgt ↦
      .here (.longer ?_)
    rw [List.length_take_of_le (Regex.mem_prefixLengths.mp hj).1,
      List.length_take_of_le (Regex.mem_prefixLengths.mp hk).1]
    exact hgt
  | sequence children tag =>
    simp only [divisions]
    exact divisionsAll_pairwise children s
  | optional children tag =>
    simp only [divisions, List.pairwise_append, List.pairwise_map]
    refine ⟨(divisionsAll_pairwise children s).imp .later, List.pairwise_singleton _ _, ?_⟩
    intro d hd e he
    obtain ⟨d, -, rfl⟩ := List.mem_map.mp hd
    rw [List.mem_singleton.mp he]
    exact .here .present

theorem divisionsAll_pairwise (ns : List Node) (s : List Char) :
    (divisionsAll ns s).Pairwise Division.Preferred := by
  match ns with
  | [] =>
    simp only [divisionsAll]
    exact List.pairwise_singleton _ _
  | n :: ns =>
    simp only [divisionsAll, List.flatMap_def, List.pairwise_flatten, List.pairwise_map,
      List.mem_map]
    constructor
    · rintro l ⟨d, -, rfl⟩
      rw [List.pairwise_map]
      exact (divisionsAll_pairwise ns _).imp fun h ↦ h.append_left d
    · refine (divisions_pairwise n s).imp fun h ↦ ?_
      rintro _ ⟨d', -, rfl⟩ _ ⟨e', -, rfl⟩
      exact h.append d' e'

end

/-- The division of a text along a tree that is preferred to all others. -/
structure DividesBest (n : Node) (s : List Char) (d : Division) : Prop where
  divides : n.Divides d
  text_eq : d.text = s
  preferred : ∀ e, n.Divides e → e.text = s → e = d ∨ d.Preferred e

/-- A text has at most one best division. -/
theorem DividesBest.unique {n : Node} {s : List Char} {d e : Division} (hd : n.DividesBest s d)
    (he : n.DividesBest s e) : d = e := by
  rcases hd.preferred e he.divides he.text_eq with h | h
  · exact h.symm
  · rcases he.preferred d hd.divides hd.text_eq with h' | h'
    · exact h'
    · exact absurd h' h.asymm

/-- The first of the listed divisions that take up a text is its best division. -/
theorem dividesBest_of_head? {n : Node} {s : List Char} {d : Division}
    (h : ((n.divisions s).filter fun d ↦ d.text = s).head? = some d) : n.DividesBest s d := by
  obtain ⟨others, heq⟩ := List.head?_eq_some_iff.mp h
  have hmem : ∀ e, e ∈ d :: others ↔ n.Divides e ∧ e.text = s := fun e ↦ by
    rw [← heq, List.mem_filter, mem_divisions, decide_eq_true_eq]
    exact ⟨fun h ↦ ⟨h.1.1, h.2⟩, fun h ↦ ⟨⟨h.1, h.2 ▸ List.prefix_refl _⟩, h.2⟩⟩
  have hpair : (d :: others).Pairwise Division.Preferred :=
    heq ▸ (divisions_pairwise n s).filter _
  obtain ⟨hdiv, htext⟩ := (hmem d).mp List.mem_cons_self
  refine ⟨hdiv, htext, fun e he hs ↦ ?_⟩
  rcases List.mem_cons.mp ((hmem e).mpr ⟨he, hs⟩) with rfl | hin
  · exact .inl rfl
  · exact .inr ((List.pairwise_cons.mp hpair).1 e hin)

end Node

end UrlPattern
