import UrlPattern.Proofs.WrittenTree

/-!
# Chains

A chain is a row of literals and groups in which the character behind a group tells where the text
of the group ends, and in which the only section stands last and is a chain again. A text divides
along a chain in at most one way (`IsChain.divides_unique`), so no search is needed to find out what
the groups of a chain stand for.

The end of a group is seen because every longer text of the group would go on with a character that
extends it. A section is seen to be there because it starts with a literal, which is not empty.

Specification: `SPEC_FULL.md` §8 (line 94).
-/

namespace UrlPattern

namespace Group

/-- The characters that a text of the group goes on with. -/
def isExtendedBy (g : Group) (c : Char) : Bool :=
  if g.type.name = ValueType.integer.name then c.isDigit else ValueType.isWordChar c

variable {g : Group} {u w x y : List Char} {c : Char}

/-- What stands behind the first character of a text of a group extends the group. -/
theorem Spells.isExtendedBy (h : g.Spells (u ++ c :: w)) (hu : u ≠ []) :
    g.isExtendedBy c = true := by
  have hc : c ∈ u ++ c :: w := List.mem_append_right _ List.mem_cons_self
  rcases h with ⟨hint, h⟩ | ⟨hword, h⟩
  · rw [Group.isExtendedBy, if_pos (by rw [hint])]
    rcases h with hdigits | ⟨ds, hds, -, hdigits⟩
    · exact hdigits.2.1 c hc
    · -- The sign is the first character, so this one is a digit behind it.
      obtain ⟨a, u, rfl⟩ := List.exists_cons_of_ne_nil hu
      obtain ⟨-, rfl⟩ := List.cons.inj hds
      exact hdigits.2.1 c (List.mem_append_right _ List.mem_cons_self)
  · rw [Group.isExtendedBy, if_neg (by rw [hword]; decide)]
    exact h.1 c hc

/-- A text of a group that begins with another one is that one, given a character behind the
shorter one that does not extend the group. -/
private theorem Spells.eq_nil_of_append (hu : g.Spells u) (hw : g.Spells (u ++ w))
    (hnext : ∀ c ∈ (w ++ y).head?, g.isExtendedBy c = false) : w = [] := by
  cases w with
  | nil => rfl
  | cons c w =>
    have hextends := hw.isExtendedBy hu.ne_nil
    rw [hnext c rfl] at hextends
    cases hextends

/-- The character behind a text of a group tells where the text ends. -/
theorem Spells.append_inj (hu : g.Spells u) (hw : g.Spells w) (h : u ++ x = w ++ y)
    (hx : ∀ c ∈ x.head?, g.isExtendedBy c = false) (hy : ∀ c ∈ y.head?, g.isExtendedBy c = false) :
    u = w ∧ x = y := by
  rcases List.append_eq_append_iff.mp h with ⟨v, rfl, rfl⟩ | ⟨v, rfl, rfl⟩
  · obtain rfl := hu.eq_nil_of_append hw hx
    exact ⟨(List.append_nil u).symm, rfl⟩
  · obtain rfl := hw.eq_nil_of_append hu hy
    exact ⟨List.append_nil w, rfl⟩

end Group

namespace Node

/-- The first character of a row that starts with a literal, or with a section that does. -/
def firstChar? : List Node → Option Char
  | literal text _ :: _ => text.toList.head?
  | optional (literal text _ :: _) _ :: _ => text.toList.head?
  | _ => none

/-- Rows of literals and groups with at most one section, which stands last, starts with a literal
and is a chain again. Every group stands last, or in front of a literal, which may be the one that
the section starts with, whose first character does not extend the group. -/
inductive IsChain : List Node → Prop where
  | nil : IsChain []
  | literal {text : String} {tag : Tag} {ns : List Node} (hns : IsChain ns) :
      IsChain (.literal text tag :: ns)
  | group {g : Group} {ns : List Node}
      (hnext : ns = [] ∨ ∃ c ∈ firstChar? ns, g.isExtendedBy c = false) (hns : IsChain ns) :
      IsChain (.group g :: ns)
  | section {text : String} {tag tag' : Tag} {ns : List Node}
      (hchildren : IsChain (.literal text tag' :: ns)) :
      IsChain [.optional (.literal text tag' :: ns) tag]

/-! ### Telling chains -/

mutual

/-- Whether a node may stand in front of the row in a chain. -/
def isLink : Node → List Node → Bool
  | literal .., _ => true
  | group g, ns => ns.isEmpty || (firstChar? ns).any fun c ↦ !g.isExtendedBy c
  | sequence .., _ => false
  | optional children _, ns =>
    ns.isEmpty && (children.head?.bind literalText?).isSome && isChain children

/-- Whether a row is a chain. -/
def isChain : List Node → Bool
  | [] => true
  | n :: ns => n.isLink ns && isChain ns

end

private theorem isLink_group_iff {g : Group} {ns : List Node} :
    (group g).isLink ns = true ↔ ns = [] ∨ ∃ c ∈ firstChar? ns, g.isExtendedBy c = false := by
  simp [isLink, Option.any_eq_true]

private theorem isChain_of_eq_true (ns : List Node) (h : isChain ns = true) : IsChain ns := by
  match ns with
  | [] => exact .nil
  | n :: ns =>
    obtain ⟨hlink, hns⟩ := Bool.and_eq_true_iff.mp h
    match n with
    | literal text tag => exact .literal (isChain_of_eq_true ns hns)
    | group g => exact .group (isLink_group_iff.mp hlink) (isChain_of_eq_true ns hns)
    | sequence children tag => cases hlink
    | optional children tag =>
      rw [isLink, Bool.and_eq_true, Bool.and_eq_true, List.isEmpty_iff] at hlink
      obtain ⟨⟨rfl, hliteral⟩, hchildren⟩ := hlink
      have hchain := isChain_of_eq_true children hchildren
      cases hchain with
      | literal hns => exact .section (.literal hns)
      | nil => cases hliteral
      | group => cases hliteral
      | «section» => cases hliteral

theorem isChain_iff {ns : List Node} : isChain ns = true ↔ IsChain ns := by
  refine ⟨isChain_of_eq_true ns, fun h ↦ ?_⟩
  induction h with
  | nil => rfl
  | literal _ ih => exact ih
  | group hnext _ ih => exact Bool.and_eq_true_iff.mpr ⟨isLink_group_iff.mpr hnext, ih⟩
  | «section» _ ih => simpa [isChain, isLink, literalText?] using ih

instance (ns : List Node) : Decidable (IsChain ns) := decidable_of_iff _ isChain_iff

/-! ### Dividing along chains -/

namespace IsChain

variable {ns : List Node} {d e : Division}

/-- A text that is divided along a chain begins with the first character of the chain, unless it is
empty because the chain is a section that is left out. -/
theorem head?_text (h : IsChain ns) {c : Char} (hc : c ∈ firstChar? ns) (hd : DividesAll ns d) :
    ∀ c' ∈ d.text.head?, c' = c := by
  have hliteral : ∀ {text : String} {tag : Tag} {ns : List Node} {d : Division},
      c ∈ text.toList.head? → DividesAll (.literal text tag :: ns) d → c ∈ d.text.head? := by
    rintro text tag ns d hc ⟨d, e, rfl, -, rfl⟩
    exact List.mem_head?_append_of_mem_head? hc
  intro c' hc'
  cases h with
  | nil => cases hc
  | literal hns => exact Option.mem_unique hc' (hliteral hc hd)
  | group hnext hns => cases hc
  | «section» hchildren =>
    obtain ⟨d, e, ⟨d, hd, rfl⟩ | rfl, rfl, rfl⟩ := hd
    · rw [List.append_nil, Division.text_cons] at hc'
      exact Option.mem_unique hc' (hliteral hc hd)
    · cases hc'

/-- What stands behind a group in a chain does not extend it. -/
theorem isExtendedBy_eq_false {g : Group} (h : IsChain (.group g :: ns)) (hd : DividesAll ns d) :
    ∀ c ∈ d.text.head?, g.isExtendedBy c = false := by
  intro c hc
  cases h with
  | group hnext hns =>
    rcases hnext with rfl | ⟨c', hc', hextends⟩
    · obtain rfl := hd
      cases hc
    · rwa [hns.head?_text hc' hd c hc]

/-- A text divides along a chain in at most one way. -/
theorem divides_unique (h : IsChain ns) {inSection : Bool} (hwf : AreWellFormed inSection ns)
    (hd : DividesAll ns d) (he : DividesAll ns e) (htext : d.text = e.text) : d = e := by
  induction h generalizing inSection d e with
  | nil => exact hd.trans he.symm
  | @literal text tag ns _ ih =>
    obtain ⟨_, d, rfl, hd, rfl⟩ := hd
    obtain ⟨_, e, rfl, he, rfl⟩ := he
    cases hwf with
    | literal _ _ _ _ hwf =>
      rw [Division.text_append, Division.text_append, List.append_cancel_left_eq] at htext
      rw [ih hwf hd he htext]
  | @group g ns hnext hns ih =>
    obtain ⟨_, d, ⟨u, hu, rfl⟩, hd, rfl⟩ := hd
    obtain ⟨_, e, ⟨w, hw, rfl⟩, he, rfl⟩ := he
    cases hwf with
    | group _ _ hwf =>
      have htext : u ++ d.text = w ++ Division.text e := htext
      obtain ⟨rfl, htext'⟩ := hu.append_inj hw htext (isExtendedBy_eq_false (.group hnext hns) hd)
        (isExtendedBy_eq_false (.group hnext hns) he)
      rw [ih hwf hd he htext']
  | @«section» text tag tag' ns hchildren ih =>
    cases hwf with
    | optional hwf _ =>
      have hne : ∀ {d : Division}, DividesAll (.literal text tag' :: ns) d →
          Division.text (.present :: d) ≠ [] := by
        rintro _ ⟨_, d, rfl, -, rfl⟩ (hnil : text.toList ++ Division.text d = [])
        cases hwf with
        | literal hne =>
          exact hne (String.toList_eq_nil_iff.mp (List.append_eq_nil_iff.mp hnil).1)
      obtain ⟨_, _, hd, rfl, rfl⟩ := hd
      obtain ⟨_, _, he, rfl, rfl⟩ := he
      rw [List.append_nil, List.append_nil] at htext ⊢
      -- The section is there in both divisions or in none, as its text is not empty.
      rcases hd with ⟨d, hd, rfl⟩ | rfl <;> rcases he with ⟨e, he, rfl⟩ | rfl
      · rw [ih hwf hd he htext]
      · exact absurd htext (hne hd)
      · exact absurd htext.symm (hne he)
      · rfl

end IsChain

end Node

end UrlPattern
