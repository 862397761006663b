import UrlPattern.Proofs.ParsedTree

/-!
# Marks of sections

A node does not know what stands above it. Its mark says whether a section does: in every tree that
is put together from parts, or that is read, a node is marked if there is a section above it, and a
node that is marked without one is a group that was marked when it was put in
(`Node.inSection_iff_section_or_given`). Groups keep their marks when they are taken out of a tree,
so such groups exist (`Node.exists_inSection_outside`). Where all groups that are put in are new, a
node is marked exactly if there is a section above it (`Node.inSection_iff_exists_section`).

The marks of a whole tree are described from the root down (`Node.IsMarked`). Putting a section
around finished trees marks all of their nodes, whatever was marked before
(`Node.isMarked_markInSection`), and going down from the root, the mark changes where a section is
entered and nowhere else (`Node.IsMarked.inSection_eq`).

Specification: `SPEC_FULL.md` §9 (line 105).
-/

namespace UrlPattern.Node

variable {root n : Node} {above : List Node} {inSection : Bool}

/-- Whether the node is an optional section. -/
def isSection : Node → Bool
  | optional .. => true
  | _ => false

/-- A node of a tree, and the nodes above it from the root on. -/
inductive HasNode : (root : Node) → (above : List Node) → (n : Node) → Prop where
  | here {n : Node} : HasNode n [] n
  | child {parent child n : Node} {children above : List Node}
      (hchildren : parent.children? = some children) (hmem : child ∈ children)
      (h : HasNode child above n) : HasNode parent (parent :: above) n

/-- The trees that are put together from parts or read. The groups that are put in are given. -/
inductive IsMade (given : Group → Prop) : Node → Prop where
  | text (text : String) : IsMade given (ofText text)
  | group {g : Group} (h : given g) : IsMade given (.group g)
  | children {ns : List Node} (h : ∀ n ∈ ns, IsMade given n) : IsMade given (ofChildren ns)
  | section {ns : List Node} (h : ∀ n ∈ ns, IsMade given n) : IsMade given (ofSection ns)
  /-- Reading may number the groups from any number on; that of a single pattern starts at one. -/
  | read {pattern : String} {types : TypeRegistry} {next last : Nat} {root : Node}
      (h : read pattern types next = .ok root last) : IsMade given root

theorem isMade_of_parse {given : Group → Prop} {pattern : String} {types : TypeRegistry}
    (h : parse pattern types = .ok root) : root.IsMade given := by
  rw [parse] at h
  split at h
  · next hread =>
    cases h
    exact .read hread
  · cases h

/-! ### The marks of a whole tree -/

theorem areMarked_iff {ns : List Node} :
    AreMarked inSection ns ↔ ∀ n ∈ ns, n.IsMarked inSection := by
  induction ns with
  | nil => simp [AreMarked]
  | cons n ns ih => simp [AreMarked, ih]

mutual

/-- A section marks everything in it. -/
theorem isMarked_markInSection (n : Node) : n.markInSection.IsMarked true := by
  cases n with
  | literal text tag => rfl
  | group g => rfl
  | sequence children tag => exact ⟨rfl, areMarked_markAllInSection children⟩
  | optional children tag => exact ⟨rfl, areMarked_markAllInSection children⟩

theorem areMarked_markAllInSection (ns : List Node) : AreMarked true (markAllInSection ns) := by
  cases ns with
  | nil => trivial
  | cons n ns => exact ⟨isMarked_markInSection n, areMarked_markAllInSection ns⟩

end

/-! ### The mark of a node -/

theorem IsMarked.root_eq (h : n.IsMarked inSection) : n.inSection = inSection := by
  cases n with
  | literal text tag => exact h
  | group g => exact h
  | sequence children tag => exact h.1
  | optional children tag => exact h.1

/-- One level down the mark is that of the node above, unless this is a section. -/
theorem IsMarked.child {child : Node} {children : List Node} (h : n.IsMarked inSection)
    (hchildren : n.children? = some children) (hmem : child ∈ children) :
    child.IsMarked (inSection || n.isSection) := by
  cases n with
  | literal text tag => cases hchildren
  | group g => cases hchildren
  | sequence children tag =>
    cases hchildren
    change child.IsMarked (inSection || false)
    rw [Bool.or_false]
    exact areMarked_iff.mp h.2 child hmem
  | optional children tag =>
    cases hchildren
    change child.IsMarked (inSection || true)
    rw [Bool.or_true]
    exact areMarked_iff.mp h.2 child hmem

/-- Down from the root, sections and only sections set the mark. -/
theorem IsMarked.inSection_eq (h : root.IsMarked inSection) (hnode : root.HasNode above n) :
    n.inSection = (inSection || above.any isSection) := by
  induction hnode generalizing inSection with
  | here => rw [List.any_nil, Bool.or_false, h.root_eq]
  | child hchildren hmem _ ih =>
    rw [ih (h.child hchildren hmem), List.any_cons, Bool.or_assoc]

variable {given : Group → Prop}

/-- In a tree that is put together or read, the mark of a node is right, unless the node is a group
that was put in outside of all sections and has the mark that it came with. -/
theorem IsMade.inSection_eq_or (hroot : root.IsMade given) (hnode : root.HasNode above n) :
    n.inSection = above.any isSection ∨
      (∃ g, given g ∧ n = .group g) ∧ above.any isSection = false := by
  induction hroot generalizing above n with
  | text text =>
    cases hnode with
    | here => exact .inl rfl
    | child hchildren => cases hchildren
  | @group g h =>
    cases hnode with
    | here => exact .inr ⟨⟨g, h, rfl⟩, rfl⟩
    | child hchildren => cases hchildren
  | children _ ih =>
    cases hnode with
    | here => exact .inl rfl
    | child hchildren hmem hnode =>
      cases hchildren
      simpa [ofChildren, isSection] using ih _ hmem hnode
  | «section» _ _ =>
    cases hnode with
    | here => exact .inl rfl
    | child hchildren hmem hnode =>
      cases hchildren
      exact .inl ((areMarked_iff.mp (areMarked_markAllInSection _) _ hmem).inSection_eq hnode)
  | read h =>
    obtain ⟨-, children, hread, rfl⟩ := read_eq_ok_iff.mp h
    have hmarked : (ofChildren children).IsMarked false := ⟨rfl, hread.areMarked⟩
    exact .inl (hmarked.inSection_eq hnode)

/-- In every tree that is put together or read, a node is marked exactly if there is a section above
it or it is a group that was marked when it was put in. `SPEC_FULL.md:105`. -/
theorem inSection_iff_section_or_given (hroot : root.IsMade given)
    (hnode : root.HasNode above n) :
    n.inSection = true ↔
      (∃ a ∈ above, a.isSection = true) ∨
        ∃ g, given g ∧ g.tag.inSection = true ∧ n = .group g := by
  rw [← List.any_eq_true]
  constructor
  · intro hmark
    obtain heq | ⟨⟨g, hg, rfl⟩, -⟩ := hroot.inSection_eq_or hnode
    · exact .inl (heq.symm.trans hmark)
    · exact .inr ⟨g, hg, hmark, rfl⟩
  · rintro (habove | ⟨g, -, hmark, rfl⟩)
    · obtain heq | ⟨-, hnone⟩ := hroot.inSection_eq_or hnode
      · exact heq.trans habove
      · rw [hnone] at habove
        cases habove
    · exact hmark

/-- A literal in a section of a pattern that another section was put around. -/
theorem inSection_iff_section_or_given_nested :
    ∃ (root : Node) (above : List Node), parse "a(b)" .builtin = .ok root ∧
      (ofSection [root]).HasNode above (literal "b" ⟨true, none⟩) ∧
        above.map isSection = [true, false, true] ∧ ∃ a ∈ above, a.isSection = true := by
  let root : Node := ofChildren [ofText "a", ofSection [ofText "b"]]
  have hparse : parse "a(b)" .builtin = .ok root := by
    refine parse_eq_ok_iff_readsElements.mpr ⟨by decide, _, 1, ?_, rfl⟩
    have houter : ∀ c ∈ ['a'], isLiteralChar c = true := List.forall_mem_singleton.mpr rfl
    have hinner : ∀ c ∈ ['b'], isLiteralChar c = true := List.forall_mem_singleton.mpr rfl
    have hafter : ∀ c ∈ some '(', isLiteralChar c = false := by
      rintro c ⟨⟩
      rfl
    exact .text (by decide) houter hafter
      (.section (.char (by decide) .nil) (.text (by decide) hinner nofun .nil) .nil)
  have hmade : (ofSection [root]).IsMade fun _ ↦ False :=
    .section (List.forall_mem_singleton.mpr (isMade_of_parse hparse))
  have hnode : (ofSection [root]).HasNode _ (literal "b" ⟨true, none⟩) :=
    .child rfl List.mem_cons_self (.child rfl (List.mem_cons_of_mem _ List.mem_cons_self)
      (.child rfl List.mem_cons_self .here))
  have hmark := (inSection_iff_section_or_given hmade hnode).mp rfl
  exact ⟨root, _, hparse, hnode, rfl, hmark.resolve_right fun ⟨_, hgiven, _⟩ ↦ hgiven⟩

/-- A group that is taken out of a section and put into a sequence is marked there. -/
theorem exists_inSection_outside :
    ∃ g g' : Group, Group.ofRaw 1 "x" .integer ∅ .plain = .ok g ∧
      (ofSection [.group g]).groups = [g'] ∧
      (ofChildren [.group g']).IsMade (· = g') ∧
      (ofChildren [.group g']).HasNode [ofChildren [.group g']] (.group g') ∧
      (group g').inSection = true ∧ ¬ ∃ a ∈ [ofChildren [.group g']], a.isSection = true := by
  let g : Group := ⟨1, "x", .integer, ∅, [], rfl, .plain⟩
  let g' : Group := { g with tag := ⟨true, none⟩ }
  have hmade : (ofChildren [.group g']).IsMade (· = g') :=
    .children (List.forall_mem_singleton.mpr (.group rfl))
  have hnode : (ofChildren [.group g']).HasNode [ofChildren [.group g']] (.group g') :=
    .child rfl List.mem_cons_self .here
  refine ⟨g, g', rfl, rfl, hmade, hnode, rfl, ?_⟩
  rintro ⟨a, ha, hsection⟩
  rw [List.mem_singleton.mp ha] at hsection
  cases hsection

/-- Where all groups that are put in are new, a node is marked exactly if there is a section above
it. -/
theorem inSection_iff_exists_section
    (hnew : ∀ g, given g → ∃ id name type raw, Group.ofRaw id name type raw .plain = .ok g)
    (hroot : root.IsMade given) (hnode : root.HasNode above n) :
    n.inSection = true ↔ ∃ a ∈ above, a.isSection = true := by
  have heq : n.inSection = above.any isSection := by
    obtain heq | ⟨⟨g, hg, rfl⟩, hnone⟩ := hroot.inSection_eq_or hnode
    · exact heq
    · obtain ⟨id, name, type, raw, hg⟩ := hnew g hg
      obtain ⟨-, -, -, -, htag⟩ := Group.ofRaw_eq_ok_iff.mp hg
      rw [hnone]
      exact congrArg Tag.inSection htag
  rw [heq, List.any_eq_true]

end UrlPattern.Node
