import UrlPattern.Compiler
import UrlPattern.Proofs.DerivedExpression
import UrlPattern.Proofs.ReadElements

/-!
# Trees that were read

What is known of the trees of compiled patterns is known of all rows of nodes that reading makes, by
induction on its steps: no fragment is stored in them, all nodes are marked as standing where they
do, their groups have registered types, and the numbers of the groups are consecutive.

Specification: `SPEC_FULL.md` §4.4 (lines 57–58) and §4.5 (lines 60–61).
-/

namespace UrlPattern

namespace Node

mutual

/-- The tree is marked as standing in a section or not, and every node below is marked exactly if it
stands in one. -/
def IsMarked (inSection : Bool) : Node → Prop
  | literal _ tag => tag.inSection = inSection
  | group g => g.tag.inSection = inSection
  | sequence children tag => tag.inSection = inSection ∧ AreMarked inSection children
  | optional children tag => tag.inSection = inSection ∧ AreMarked true children

/-- `IsMarked` for several trees. -/
def AreMarked (inSection : Bool) : List Node → Prop
  | [] => True
  | n :: ns => n.IsMarked inSection ∧ AreMarked inSection ns

end

end Node

namespace Node.ReadsElements

variable {types : TypeRegistry} {inSection : Bool} {next last : Nat} {cs : List Char}
  {ns : List Node}

/-- Nothing is stored in what was read. -/
theorem areDerived (h : ReadsElements types inSection next cs ns last) : AreDerived ns := by
  induction h with
  | nil => trivial
  | group _ _ _ htag _ _ ih => simp [AreDerived, IsDerived, htag, ih]
  | marked _ _ _ htag _ ih => simp [AreDerived, IsDerived, htag, ih]
  | «section» _ _ _ ihchildren ih => simp [AreDerived, IsDerived, ihchildren, ih]
  | text _ _ _ _ ih => simp [AreDerived, IsDerived, ih]

/-- What was read is marked as standing where it does. -/
theorem areMarked (h : ReadsElements types inSection next cs ns last) : AreMarked inSection ns := by
  induction h with
  | nil => trivial
  | group _ _ _ htag _ _ ih => exact ⟨congrArg Tag.inSection htag, ih⟩
  | marked _ _ _ htag _ ih => exact ⟨⟨rfl, congrArg Tag.inSection htag, trivial⟩, ih⟩
  | «section» _ _ _ ihchildren ih => exact ⟨⟨rfl, ihchildren⟩, ih⟩
  | text _ _ _ _ ih => exact ⟨rfl, ih⟩

/-- Every group that was read can stand in a pattern. -/
theorem readable (h : ReadsElements types inSection next cs ns last) :
    ∀ g ∈ groupsOf ns, g.IsReadable types := by
  induction h with
  | nil => exact nofun
  | group _ hreadable _ _ _ _ ih => exact List.forall_mem_cons.mpr ⟨hreadable, ih⟩
  | marked _ hreadable _ _ _ ih => exact List.forall_mem_cons.mpr ⟨hreadable, ih⟩
  | «section» _ _ _ ihchildren ih => exact List.forall_mem_append.mpr ⟨ihchildren, ih⟩
  | text _ _ _ _ ih => exact ih

/-- The groups that were read have consecutive numbers. -/
theorem ids_eq_range (h : ReadsElements types inSection next cs ns last) :
    (groupsOf ns).map Group.id = List.range' next (groupsOf ns).length ∧
      last = next + (groupsOf ns).length := by
  have hcons : ∀ {g : Group} {ns : List Node} {last : Nat},
      (groupsOf ns).map Group.id = List.range' (g.id + 1) (groupsOf ns).length ∧
        last = g.id + 1 + (groupsOf ns).length →
      (g :: groupsOf ns).map Group.id = List.range' g.id (g :: groupsOf ns).length ∧
        last = g.id + (g :: groupsOf ns).length := by
    rintro g ns last ⟨hids, rfl⟩
    rw [List.map_cons, List.length_cons, List.range'_succ, hids]
    exact ⟨rfl, by omega⟩
  induction h with
  | nil => exact ⟨rfl, rfl⟩
  | group _ _ _ _ _ _ ih => exact hcons ih
  | marked _ _ _ _ _ ih => exact hcons ih
  | «section» _ _ _ ihchildren ih =>
    rw [groupsOf_optional, List.map_append, ihchildren.1, ih.1, List.length_append, ih.2,
      ihchildren.2, List.range'_append_1]
    exact ⟨rfl, by omega⟩
  | text _ _ _ _ ih => exact ih

/-- Different groups that were read have different captures. -/
theorem captureNames_nodup (h : ReadsElements types inSection next cs ns last) :
    (captureNames (groupsOf ns)).Nodup := by
  rw [nodup_captureNames_iff, h.ids_eq_range.1]
  exact List.nodup_range'

/-- With the types that every registry may start with, all groups that were read are builtin. -/
theorem isBuiltin (h : ReadsElements .builtin inSection next cs ns last) :
    ∀ g ∈ groupsOf ns, g.IsBuiltin := by
  intro g hg
  have hfound := (h.readable g hg).type_found
  have hbuiltin : TypeRegistry.builtin.types
      = (Table.empty.insert ValueType.integer.name ValueType.integer).insert ValueType.word.name
          ValueType.word := rfl
  rw [TypeRegistry.get?, hbuiltin, Table.get?_insert, Table.get?_insert, Table.get?_empty] at hfound
  split at hfound
  · exact .inr (Option.some.inj hfound).symm
  · split at hfound
    · exact .inl (Option.some.inj hfound).symm
    · cases hfound

end Node.ReadsElements

/-- What is read as a pattern, wherever the numbering stands, is the sequence of its elements. -/
theorem Node.read_eq_ok_iff {source : String} {types : TypeRegistry} {next last : Nat}
    {root : Node} :
    Node.read source types next = .ok root last ↔
      source ≠ "" ∧ ∃ children, ReadsElements types false next source.toList children last ∧
        root = ofChildren children := by
  rw [read]
  by_cases hempty : source = ""
  · rw [if_pos hempty]
    exact iff_of_false nofun fun h ↦ h.1 hempty
  · rw [if_neg hempty]
    constructor
    · intro hread
      obtain ⟨children, last', hchildren, hroot⟩ := parse_bind_eq_ok.mp hread
      cases hroot
      exact ⟨hempty, children, readElements_eq_ok_iff.mp hchildren, rfl⟩
    · rintro ⟨-, children, hchildren, rfl⟩
      exact parse_bind_eq_ok.mpr ⟨children, last, readElements_eq_ok_iff.mpr hchildren, rfl⟩

/-- What is read as the only pattern is the sequence of its elements. -/
theorem Node.parse_eq_ok_iff_readsElements {source : String} {types : TypeRegistry} {root : Node} :
    Node.parse source types = .ok root ↔
      source ≠ "" ∧ ∃ children last, ReadsElements types false 1 source.toList children last ∧
        root = ofChildren children := by
  have hparse : Node.parse source types = .ok root ↔
      ∃ last, Node.read source types 1 = .ok root last := by
    rw [parse]
    constructor
    · intro h
      split at h
      · next root' last hread =>
        cases h
        exact ⟨last, hread⟩
      · cases h
    · rintro ⟨last, hread⟩
      rw [hread]
  rw [hparse]
  constructor
  · rintro ⟨last, hread⟩
    obtain ⟨hne, children, hchildren, hroot⟩ := read_eq_ok_iff.mp hread
    exact ⟨hne, children, last, hchildren, hroot⟩
  · rintro ⟨hne, children, last, hchildren, hroot⟩
    exact ⟨last, read_eq_ok_iff.mpr ⟨hne, children, hchildren, hroot⟩⟩

/-! ### Compiled patterns -/

namespace Compiler

variable {B : Backend} {c : Compiler B} {source : String}

/-- What checking a pattern comes to: the tree was read, and the rules hold of it. -/
theorem check_eq_ok {named : NamedTree} (h : c.check source = .ok named) :
    (∃ children last, Node.ReadsElements c.types false 1 source.toList children last ∧
        named.tree = Node.ofChildren children) ∧
      c.pipeline.validate named.tree = .ok () := by
  obtain ⟨tree, hparse, h⟩ := bind_eq_ok.mp h
  obtain ⟨named', hnamed, h⟩ := bind_eq_ok.mp h
  obtain ⟨⟨⟩, hvalid, h⟩ := bind_eq_ok.mp h
  cases h
  have htree : named.tree = tree := by
    rw [NamedTree.ofNode] at hnamed
    split at hnamed <;> cases hnamed
    rfl
  rw [htree]
  refine ⟨(Node.parse_eq_ok_iff_readsElements.mp hparse).2, ?_⟩
  cases hcheck : c.pipeline.validate tree with
  | ok u => rfl
  | error e =>
    rw [hcheck] at hvalid
    cases hvalid

/-- What compiling a pattern comes to: a checked tree, whose expression is the derived one. -/
theorem compile_eq_ok {p : Pattern B} (h : c.compile source = .ok p) :
    ∃ named, c.check source = .ok named ∧ p.source = source ∧ p.tree = named.tree ∧
      p.groups = named.groups ∧ p.regexText = p.tree.anchoredRegex := by
  obtain ⟨named, hcheck, h⟩ := bind_eq_ok.mp h
  refine ⟨named, hcheck, ?_⟩
  rw [Pattern.ofTree] at h
  split at h
  · cases h
    exact ⟨rfl, rfl, rfl, rfl⟩
  · cases h

/-- In a compiled tree exactly the nodes in sections are marked as standing in one. -/
theorem isMarked_of_compile {p : Pattern B} (h : c.compile source = .ok p) :
    p.tree.IsMarked false := by
  obtain ⟨named, hcheck, -, htree, -⟩ := compile_eq_ok h
  obtain ⟨⟨children, last, hreads, hroot⟩, -⟩ := check_eq_ok hcheck
  rw [htree, hroot]
  exact ⟨rfl, hreads.areMarked⟩

end Compiler

end UrlPattern
