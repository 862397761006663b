import UrlPattern.Proofs.GeneratedText

/-!
# What is written of a tree

Seen as a row of leaves, literals and groups, a tree is written leaf by leaf. A leaf is live if some
group has a value in each of the sections that it stands in, at whatever depth below the section.
The live leaves are written from left to right: a literal as its text, a group as its value or else
as its fallback (`Node.generate_live`). The first one among them that is a group with neither is the
one that is reported as lacking a value. The leaves that are not live play no role.

The decision about a section is made when writing comes to it, and the sections around it have been
decided before. The row of leaves has forgotten the order of these decisions, as a leaf knows all
sections around it.

Specification: `SPEC_FULL.md` §4.3 (lines 50–51) and §10.5 (lines 224–231).
-/

namespace UrlPattern

/-- What a leaf of a tree is. -/
inductive LeafContent where
  | literal (text : String)
  | group (g : Group)

/-- A leaf of a tree. -/
structure Leaf where
  content : LeafContent
  /-- What stands in each of the sections that the leaf stands in, the innermost one first. -/
  around : List (List Node)

namespace Leaf

/-- Whether some group has a value in each of the sections around. -/
def isLive (values : Bindings) (leaf : Leaf) : Bool :=
  leaf.around.all fun children ↦ (Node.groupsOf children).any fun g ↦ values.contains g.name

/-- The group that the leaf is, if it has neither a value nor a fallback. -/
def lacking? (values : Bindings) (leaf : Leaf) : Option Group :=
  match leaf.content with
  | .literal _ => none
  | .group g =>
    match values.get? g.name, g.fallback? with
    | none, none => some g
    | _, _ => none

/-- What is written of a leaf that lacks nothing. -/
def text (values : Bindings) (leaf : Leaf) : String :=
  match leaf.content with
  | .literal text => text
  | .group g =>
    match values.get? g.name with
    | some value => g.type.format value
    | none => g.fallback?.getD ""

end Leaf

namespace Node

mutual

/-- The leaves of a tree, from left to right, given the sections that the tree stands in. -/
def leavesIn (around : List (List Node)) : Node → List Leaf
  | literal text _ => [⟨.literal text, around⟩]
  | group g => [⟨.group g, around⟩]
  | sequence children _ => leavesOfIn around children
  | optional children _ => leavesOfIn (children :: around) children

/-- The leaves of several trees, from left to right. -/
def leavesOfIn (around : List (List Node)) : List Node → List Leaf
  | [] => []
  | n :: ns => n.leavesIn around ++ leavesOfIn around ns

end

/-- The leaves of a tree that are live, from left to right. -/
def liveLeaves (values : Bindings) (n : Node) : List Leaf :=
  (n.leavesIn []).filter (·.isLive values)

end Node

/-! ### Rows of leaves -/

namespace Leaf

variable {values : Bindings}

/-- The text of a row of leaves, unless some leaf lacks a value. Then the first one is reported. -/
def writeAll (values : Bindings) (leaves : List Leaf) : Except GenerateError String :=
  match leaves.findSome? (lacking? values) with
  | some g => .error (.missingValue g.name)
  | none => .ok (String.join (leaves.map (text values)))

theorem writeAll_append (leaves leaves' : List Leaf) :
    writeAll values (leaves ++ leaves') = do
      let first ← writeAll values leaves
      let others ← writeAll values leaves'
      return first ++ others := by
  unfold writeAll
  rw [List.findSome?_append, List.map_append, String.join_append]
  cases leaves.findSome? (lacking? values) with
  | some g => rfl
  | none =>
    cases leaves'.findSome? (lacking? values) with
    | some g => rfl
    | none => rfl

theorem writeAll_literal (s : String) (around : List (List Node)) :
    writeAll values [⟨.literal s, around⟩] = .ok s := by
  change Except.ok (String.join [s]) = _
  rw [String.join_cons]
  exact congrArg Except.ok (String.append_empty ..)

theorem writeAll_group (g : Group) (around : List (List Node)) :
    writeAll values [⟨.group g, around⟩] = g.generate values := by
  have htext : ∀ t, String.join [t] = t := fun t ↦ by
    rw [String.join_cons]
    exact String.append_empty ..
  rw [writeAll, Group.generate, List.map_singleton, htext, List.findSome?_singleton]
  simp only [lacking?, text]
  cases values.get? g.name with
  | some value => rfl
  | none => cases g.fallback? <;> rfl

/-- A row of leaves is not written exactly if some leaf lacks a value. -/
theorem exists_writeAll_eq_error_iff {leaves : List Leaf} :
    (∃ e, writeAll values leaves = .error e) ↔ ∃ leaf ∈ leaves, (leaf.lacking? values).isSome := by
  rw [← List.findSome?_isSome_iff, writeAll]
  cases leaves.findSome? (lacking? values) with
  | some g => exact iff_of_true ⟨_, rfl⟩ rfl
  | none => exact iff_of_false nofun nofun

end Leaf

/-! ### Trees -/

namespace Node

variable {values : Bindings}

mutual

/-- The leaves of a tree stand in all sections that the tree stands in. -/
theorem subset_around {around : List (List Node)} (n : Node) {leaf : Leaf}
    (h : leaf ∈ n.leavesIn around) : around ⊆ leaf.around := by
  match n with
  | literal text tag =>
    rw [List.mem_singleton.mp h]
    exact List.Subset.refl _
  | group g =>
    rw [List.mem_singleton.mp h]
    exact List.Subset.refl _
  | sequence children tag => exact subset_around_all children h
  | optional children tag =>
    have hinside : children :: around ⊆ leaf.around := subset_around_all children h
    exact List.Subset.trans (List.subset_cons_self ..) hinside

theorem subset_around_all {around : List (List Node)} (ns : List Node) {leaf : Leaf}
    (h : leaf ∈ leavesOfIn around ns) : around ⊆ leaf.around := by
  match ns with
  | [] => cases h
  | n :: ns =>
    rcases List.mem_append.mp h with h | h
    · exact subset_around n h
    · exact subset_around_all ns h

end

/-- Whether the sections around a tree let it be written. -/
def AllBound (values : Bindings) (around : List (List Node)) : Prop :=
  ∀ children ∈ around, anyBindsSome values children = true

theorem isLive_iff {leaf : Leaf} : leaf.isLive values = true ↔ AllBound values leaf.around := by
  simp only [Leaf.isLive, List.all_eq_true, List.any_eq_true, AllBound, anyBindsSome_iff]

/-- In a section without a value no leaf is live. -/
theorem filter_isLive_eq_nil {around : List (List Node)} {children : List Node}
    (h : anyBindsSome values children = false) :
    (leavesOfIn (children :: around) children).filter (·.isLive values) = [] := by
  rw [List.filter_eq_nil_iff]
  intro leaf hleaf hlive
  have hin := subset_around_all children hleaf List.mem_cons_self
  rw [isLive_iff.mp hlive children hin] at h
  cases h

mutual

/-- A tree whose surroundings are written is written as the row of its live leaves. -/
theorem generate_eq_writeAll {around : List (List Node)} (n : Node) (h : AllBound values around) :
    n.generate values = Leaf.writeAll values ((n.leavesIn around).filter (·.isLive values)) := by
  match n with
  | literal text tag =>
    rw [leavesIn, List.filter_singleton, isLive_iff.mpr h, cond_true, Leaf.writeAll_literal,
      generate]
  | group g =>
    rw [leavesIn, List.filter_singleton, isLive_iff.mpr h, cond_true, Leaf.writeAll_group, generate]
  | sequence children tag => exact generateAll_eq_writeAll children h
  | optional children tag =>
    rw [generate, leavesIn]
    by_cases hsome : anyBindsSome values children = true
    · rw [if_pos hsome]
      have hinside : AllBound values (children :: around) := List.forall_mem_cons.mpr ⟨hsome, h⟩
      exact generateAll_eq_writeAll children hinside
    · rw [if_neg hsome, filter_isLive_eq_nil (Bool.eq_false_iff.mpr hsome)]
      rfl

theorem generateAll_eq_writeAll {around : List (List Node)} (ns : List Node)
    (h : AllBound values around) : generateAll values ns
      = Leaf.writeAll values ((leavesOfIn around ns).filter (·.isLive values)) := by
  match ns with
  | [] => rfl
  | n :: ns =>
    rw [generateAll, leavesOfIn, List.filter_append, Leaf.writeAll_append,
      generate_eq_writeAll n h, generateAll_eq_writeAll ns h]

end

/-- A tree is written as the row of its live leaves. It is not written exactly if some live leaf
lacks a value, and then the first of these is reported. Values that agree on the groups of the tree
are written alike. `SPEC_FULL.md:226–231`. -/
theorem generate_live (n : Node) (values : Bindings) :
    ((∃ e, n.generate values = .error e) ↔
        ∃ leaf ∈ n.liveLeaves values, (leaf.lacking? values).isSome) ∧
      (∀ front leaf back g, n.liveLeaves values = front ++ leaf :: back →
        (∀ earlier ∈ front, earlier.lacking? values = none) → leaf.lacking? values = some g →
          n.generate values = .error (.missingValue g.name)) ∧
      ((∀ leaf ∈ n.liveLeaves values, leaf.lacking? values = none) →
        n.generate values = .ok (String.join ((n.liveLeaves values).map (·.text values)))) ∧
      ∀ values' : Bindings, (∀ g ∈ n.groups, values.get? g.name = values'.get? g.name) →
        n.generate values = n.generate values' := by
  have hwrite : n.generate values = Leaf.writeAll values (n.liveLeaves values) :=
    generate_eq_writeAll n nofun
  refine ⟨?_, fun front leaf back g hsplit hfront hleaf ↦ ?_, fun hnone ↦ ?_,
    fun values' h ↦ generate_congr n h⟩
  · rw [hwrite]
    exact Leaf.exists_writeAll_eq_error_iff
  · have hfirst : (n.liveLeaves values).findSome? (Leaf.lacking? values) = some g :=
      List.findSome?_eq_some_iff.mpr ⟨front, leaf, back, hsplit, hleaf, hfront⟩
    rw [hwrite, Leaf.writeAll, hfirst]
  · rw [hwrite, Leaf.writeAll, List.findSome?_eq_none_iff.mpr hnone]

/-- A value in the innermost section makes the groups around it required. A value of another name
makes no difference. -/
theorem generate_live_nested :
    ∃ p, Compiler.standard.compile
          "a\x7bx:int\x7d(-\x7by:int(default=7)\x7d(/\x7bz:int\x7d))(+)" = .ok p ∧
      p.tree.generate (.ofList [("z", .int 1)]) = .error (.missingValue "x") ∧
      p.tree.generate (.ofList [("x", .int 5), ("z", .int 1)]) = .ok "a5-7/1" ∧
      p.tree.generate (.ofList [("x", .int 5), ("z", .int 1), ("input", .text "q")])
        = .ok "a5-7/1" := by
  let lacks : Bindings := .ofList [("z", .int 1)]
  let values : Bindings := .ofList [("x", .int 5), ("z", .int 1)]
  let more : Bindings := .ofList [("x", .int 5), ("z", .int 1), ("input", .text "q")]
  have htest : (Compiler.standard.compile
      "a\x7bx:int\x7d(-\x7by:int(default=7)\x7d(/\x7bz:int\x7d))(+)").toOption.any (fun p ↦
        ((p.tree.liveLeaves lacks).findSome? (Leaf.lacking? lacks)).any (·.name == "x") &&
          ((p.tree.liveLeaves values).all (fun leaf ↦ (leaf.lacking? values).isNone) &&
          (String.join ((p.tree.liveLeaves values).map (·.text values)) == "a5-7/1" &&
          p.tree.groups.all fun g ↦ values.get? g.name == more.get? g.name))) = true := by
    decide +kernel
  obtain ⟨p, hp, htest⟩ := exists_ok_of_any htest
  simp only [Bool.and_eq_true, List.all_eq_true, beq_iff_eq, Option.isNone_iff_eq_none] at htest
  obtain ⟨hfirst, hnone, htext, hagree⟩ := htest
  obtain ⟨g, hg, hname⟩ := (Option.any_eq_true ..).mp hfirst
  obtain ⟨front, leaf, back, hsplit, hleaf, hfront⟩ := List.findSome?_eq_some_iff.mp hg
  obtain ⟨-, hmissing, -, -⟩ := generate_live p.tree lacks
  obtain ⟨-, -, hwritten, hsame⟩ := generate_live p.tree values
  have hvalues : p.tree.generate values = .ok "a5-7/1" := by
    rw [hwritten hnone, htext]
  refine ⟨p, hp, ?_, hvalues, (hsame more hagree).symm.trans hvalues⟩
  rw [← eq_of_beq hname]
  exact hmissing front leaf back g hsplit hfront hleaf

end Node

end UrlPattern
