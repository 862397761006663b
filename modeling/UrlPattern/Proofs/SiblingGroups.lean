import Mathlib.Data.List.Induction
import UrlPattern.Tree.Validation

/-!
# Greedy groups side by side

The rule that no two greedy groups follow one another is checked in one pass with one greedy group
kept in mind, which plain sequences hand on and sections do not. Here the rule is said of the rows
of siblings: the nodes of the root, and those of each section, where plain sequences give way to
what stands in them (`HasRow`). It is broken where two greedy groups are neighbours in such a row
(`HasPair`), and of all these places the check reports the one that comes first.

One step of the pass keeps what is known of the nodes before (`verdict_checkAdjacent`), and a row is
passed over step by step (`verdict_checkAllAdjacent`).

Specification: `SPEC_FULL.md` §4.3 (lines 53–55) and §8 (line 95).
-/

namespace UrlPattern

namespace Node

mutual

/-- What stands for a node in a row, where plain sequences give way to what stands in them. -/
def inlined : Node → List Node
  | literal text tag => [literal text tag]
  | group g => [group g]
  | sequence children _ => inlinedAll children
  | optional children tag => [optional (inlinedAll children) tag]

/-- What stands for several nodes. -/
def inlinedAll : List Node → List Node
  | [] => []
  | n :: ns => n.inlined ++ inlinedAll ns

end

theorem groupsOf_append (ns ns' : List Node) :
    groupsOf (ns ++ ns') = groupsOf ns ++ groupsOf ns' := by
  induction ns with
  | nil => rfl
  | cons n ns ih => rw [List.cons_append, groupsOf, groupsOf, ih, List.append_assoc]

mutual

/-- The groups of a node stay, and their order. -/
theorem groupsOf_inlined : (n : Node) → groupsOf n.inlined = n.groups
  | literal .. => rfl
  | group _ => rfl
  | sequence children _ => groupsOf_inlinedAll children
  | optional children _ => by
    rw [inlined, groupsOf_optional, groupsOf_inlinedAll children, groupsOf, List.append_nil, groups]

theorem groupsOf_inlinedAll : (ns : List Node) → groupsOf (inlinedAll ns) = groupsOf ns
  | [] => rfl
  | n :: ns => by
    rw [inlinedAll, groupsOf_append, groupsOf_inlined n, groupsOf_inlinedAll ns, groupsOf]

end

/-! ### Rows and pairs -/

/-- The rows of siblings of a tree with this uppermost row: that row, and those of the sections in
it. So many groups of the tree stand before a row. -/
inductive HasRow : (top : List Node) → (before : Nat) → (row : List Node) → Prop where
  | top {top : List Node} : HasRow top 0 top
  | section {front children back row : List Node} {tag : Tag} {before : Nat}
      (h : HasRow children before row) :
      HasRow (front ++ optional children tag :: back) ((groupsOf front).length + before) row

/-- Two greedy groups are neighbours in a row of siblings. The place of the second among all groups
of the tree, from left to right, is this one. -/
def HasPair (top : List Node) (place : Nat) (first second : Group) : Prop :=
  ∃ before front back, HasRow top before (front ++ group first :: group second :: back) ∧
    first.isGreedy = true ∧ second.isGreedy = true ∧ place = before + (groupsOf front).length + 1

/-- The groups of a row follow one another among the groups of the tree. -/
theorem HasRow.exists_groups {top row : List Node} {before : Nat} (h : HasRow top before row) :
    ∃ left right, groupsOf top = left ++ groupsOf row ++ right ∧ left.length = before := by
  induction h with
  | top => exact ⟨[], [], by simp, rfl⟩
  | @«section» front children back row tag before _ ih =>
    obtain ⟨left, right, hgroups, rfl⟩ := ih
    refine ⟨groupsOf front ++ left, right ++ groupsOf back, ?_, List.length_append⟩
    rw [groupsOf_append, groupsOf_optional, hgroups]
    simp

namespace HasPair

variable {top ns : List Node} {n : Node} {place : Nat} {first second : Group}

/-- A pair stands in the uppermost row, or in a section of it. -/
theorem cases_top (h : HasPair top place first second) :
    (∃ front back, top = front ++ group first :: group second :: back ∧ first.isGreedy = true ∧
        second.isGreedy = true ∧ place = (groupsOf front).length + 1) ∨
      ∃ front children tag back place', top = front ++ optional children tag :: back ∧
        HasPair children place' first second ∧ place = (groupsOf front).length + place' := by
  obtain ⟨before, front, back, hrow, hfirst, hsecond, rfl⟩ := h
  generalize hpair : front ++ group first :: group second :: back = row at hrow
  cases hrow with
  | top => exact .inl ⟨front, back, hpair.symm, hfirst, hsecond, by omega⟩
  | @«section» front' children back' _ tag before hrow =>
    subst hpair
    have hpair : HasPair children (before + (groupsOf front).length + 1) first second :=
      ⟨before, front, back, hrow, hfirst, hsecond, rfl⟩
    exact .inr ⟨front', children, tag, back', _, rfl, hpair, by omega⟩

theorem of_neighbours {front back : List Node} (hfirst : first.isGreedy = true)
    (hsecond : second.isGreedy = true) :
    HasPair (front ++ group first :: group second :: back) ((groupsOf front).length + 1) first
      second :=
  ⟨0, front, back, .top, hfirst, hsecond, by omega⟩

theorem of_section {front children back : List Node} {tag : Tag}
    (h : HasPair children place first second) :
    HasPair (front ++ optional children tag :: back) ((groupsOf front).length + place) first
      second := by
  obtain ⟨before, front', back', hrow, hfirst, hsecond, rfl⟩ := h
  exact ⟨_, front', back', .section hrow, hfirst, hsecond, by omega⟩

/-- The groups of a pair follow one another among all groups of the tree. -/
theorem getElem?_groupsOf (h : HasPair top place first second) :
    ∃ previous, place = previous + 1 ∧ (groupsOf top)[previous]? = some first ∧
      (groupsOf top)[place]? = some second := by
  obtain ⟨before, front, back, hrow, -, -, rfl⟩ := h
  obtain ⟨left, right, hgroups, rfl⟩ := hrow.exists_groups
  refine ⟨_, rfl, ?_⟩
  rw [hgroups, groupsOf_append, groupsOf_group, groupsOf_group]
  have hparts : left ++ (groupsOf front ++ first :: second :: groupsOf back) ++ right
      = (left ++ groupsOf front) ++ first :: second :: (groupsOf back ++ right) := by simp
  have hlength : left.length + (groupsOf front).length = (left ++ groupsOf front).length := by simp
  rw [hparts, hlength, List.getElem?_append_right (Nat.le_refl _),
    List.getElem?_append_right (Nat.le_succ _)]
  simp

theorem place_lt (h : HasPair top place first second) : place < (groupsOf top).length := by
  obtain ⟨-, -, -, hsecond⟩ := h.getElem?_groupsOf
  exact (List.getElem?_eq_some_iff.mp hsecond).1

/-- More nodes behind leave the pairs as they are. -/
theorem append_right (h : HasPair top place first second) (ns : List Node) :
    HasPair (top ++ ns) place first second := by
  obtain ⟨front, back, rfl, hfirst, hsecond, rfl⟩ |
    ⟨front, children, tag, back, k, rfl, hpair, rfl⟩ := h.cases_top
  · rw [List.append_assoc]
    exact of_neighbours hfirst hsecond
  · rw [List.append_assoc]
    exact of_section hpair

/-- With one more node, a pair is one of before, or is made by the node and the last before it, or
stands in the node. -/
theorem of_concat (h : HasPair (top ++ [n]) place first second) :
    HasPair top place first second ∨
      (n = group second ∧ top.getLast? = some (group first) ∧ first.isGreedy = true ∧
        second.isGreedy = true ∧ place = (groupsOf top).length) ∨
      ∃ children tag place', n = optional children tag ∧ HasPair children place' first second ∧
        place = (groupsOf top).length + place' := by
  obtain ⟨front, back, htop, hfirst, hsecond, rfl⟩ |
    ⟨front, children, tag, back, k, htop, hpair, rfl⟩ := h.cases_top
  · obtain rfl | ⟨back, m, rfl⟩ := List.eq_nil_or_concat back
    · have hparts : top ++ [n] = (front ++ [group first]) ++ [group second] := by simp [htop]
      obtain ⟨rfl, hn⟩ := List.append_inj' hparts rfl
      refine .inr (.inl ⟨List.singleton_inj.mp hn, by simp, hfirst, hsecond, ?_⟩)
      rw [groupsOf_append, List.length_append]
      rfl
    · have hparts : top ++ [n] = (front ++ group first :: group second :: back) ++ [m] := by
        simp [htop]
      obtain ⟨rfl, -⟩ := List.append_inj' hparts rfl
      exact .inl (of_neighbours hfirst hsecond)
  · obtain rfl | ⟨back, m, rfl⟩ := List.eq_nil_or_concat back
    · obtain ⟨rfl, hn⟩ := List.append_inj' htop rfl
      exact .inr (.inr ⟨children, tag, k, List.singleton_inj.mp hn, hpair, rfl⟩)
    · have hparts : top ++ [n] = (front ++ optional children tag :: back) ++ [m] := by simp [htop]
      obtain ⟨rfl, -⟩ := List.append_inj' hparts rfl
      exact .inl (of_section hpair)

/-- A pair that more nodes make stands behind all groups of before. -/
theorem of_append (h : HasPair (top ++ ns) place first second) :
    HasPair top place first second ∨ (groupsOf top).length ≤ place := by
  induction ns using List.reverseRecOn with
  | nil => exact .inl (by rwa [List.append_nil] at h)
  | append_singleton ns n ih =>
    rw [← List.append_assoc] at h
    have hlength : (groupsOf top).length ≤ (groupsOf (top ++ ns)).length := by
      rw [groupsOf_append, List.length_append]
      exact Nat.le_add_right _ _
    obtain h | ⟨-, -, -, -, rfl⟩ | ⟨children, tag, k, -, -, rfl⟩ := h.of_concat
    · exact ih h
    · exact .inr hlength
    · exact .inr (Nat.le_trans hlength (Nat.le_add_right _ _))

end HasPair

/-! ### The pass -/

/-- The name of a greedy group. -/
def greedyName? : Node → Option String
  | group g => if g.isGreedy then some g.name else none
  | _ => none

/-- What the pass over a row has to say: there is no pair in it, and the last node is kept in mind
if it is a greedy group; or the first of the pairs is reported. -/
inductive Verdict (row : List Node) : Except ValidationError (Option String) → Prop where
  | clear (h : ∀ place first second, ¬ HasPair row place first second) :
      Verdict row (.ok (row.getLast?.bind greedyName?))
  | broken {place : Nat} {first second : Group} (hpair : HasPair row place first second)
      (hleast : ∀ place' first' second', HasPair row place' first' second' → place ≤ place') :
      Verdict row (.error (.adjacentGreedyGroups first.name second.name))

namespace Verdict

variable {row : List Node} {last : Option String} {e : ValidationError}

theorem ok_cases (h : Verdict row (.ok last)) :
    (∀ place first second, ¬ HasPair row place first second) ∧
      last = row.getLast?.bind greedyName? := by
  cases h with
  | clear h => exact ⟨h, rfl⟩

/-- More nodes behind do not change which pair is the first. -/
theorem append_right (h : Verdict row (.error e)) (ns : List Node) :
    Verdict (row ++ ns) (.error e) := by
  cases h with
  | broken hpair hleast =>
    refine .broken (hpair.append_right ns) fun place' first' second' hpair' ↦ ?_
    obtain hpair' | hplace := hpair'.of_append
    · exact hleast _ _ _ hpair'
    · exact Nat.le_trans (Nat.le_of_lt hpair.place_lt) hplace

end Verdict

/-- A node behind a row without pairs is passed over, if it makes none with the last node and has
none in it. -/
theorem Verdict.concat {row : List Node} {n : Node}
    (hclear : ∀ place first second, ¬ HasPair row place first second)
    (hlast : ∀ first second, n = group second → row.getLast? = some (group first) →
      first.isGreedy = true → second.isGreedy = false)
    (hinside : ∀ children tag, n = optional children tag →
      ∀ place first second, ¬ HasPair children place first second) :
    Verdict (row ++ [n]) (.ok n.greedyName?) := by
  have hnone : ∀ place first second, ¬ HasPair (row ++ [n]) place first second := by
    intro place first second h
    obtain h | ⟨hn, hrow, hfirst, hsecond, -⟩ | ⟨children, tag, k, hn, h, -⟩ := h.of_concat
    · exact hclear _ _ _ h
    · rw [hlast _ _ hn hrow hfirst] at hsecond
      cases hsecond
    · exact hinside _ _ hn _ _ _ h
  have hverdict := Verdict.clear hnone
  rwa [List.getLast?_concat] at hverdict

/-- A greedy group makes a pair with a greedy group before it, and nothing else does. -/
theorem verdict_group (g : Group) {row : List Node} {last : Option String}
    (h : Verdict row (.ok last)) : Verdict (row ++ [group g]) ((group g).checkAdjacent last) := by
  obtain ⟨hclear, rfl⟩ := h.ok_cases
  have hinside : ∀ children tag, group g = optional children tag →
      ∀ place first second, ¬ HasPair children place first second := nofun
  unfold checkAdjacent
  by_cases hg : g.isGreedy = true
  · rw [if_pos hg]
    have hname : (group g).greedyName? = some g.name := if_pos hg
    cases hlast : row.getLast?.bind greedyName? with
    | none =>
      rw [← hname]
      apply Verdict.concat hclear _ hinside
      intro first second _ hrow hfirst
      rw [hrow, Option.bind_some, greedyName?, if_pos hfirst] at hlast
      cases hlast
    | some name =>
      obtain ⟨n, hn, hname⟩ := Option.bind_eq_some_iff.mp hlast
      obtain ⟨front, rfl⟩ := List.getLast?_eq_some_iff.mp hn
      cases n with
      | group first =>
        obtain ⟨hfirst, rfl⟩ : first.isGreedy = true ∧ first.name = name := by
          simpa [greedyName?] using hname
        have hpair : HasPair (front ++ [group first, group g]) ((groupsOf front).length + 1) first
            g := .of_neighbours hfirst hg
        rw [List.append_assoc]
        refine .broken hpair fun place' first' second' h' ↦ ?_
        -- Any other pair is one of before, so there is none, or stands behind all groups of before.
        rw [← List.singleton_append, ← List.append_assoc] at h'
        have hplace := h'.of_append.resolve_left (hclear _ _ _)
        rwa [groupsOf_append, List.length_append] at hplace
      | literal text tag => cases hname
      | sequence children tag => cases hname
      | optional children tag => cases hname
  · rw [if_neg hg]
    have hname : (group g).greedyName? = none := if_neg hg
    rw [← hname]
    apply Verdict.concat hclear _ hinside
    rintro first second ⟨⟩ - -
    exact Bool.eq_false_iff.mpr hg

/-- A section is passed over if nothing is wrong in it, and its first pair is reported otherwise. -/
theorem verdict_section {children row : List Node} (tag : Tag) {last : Option String}
    {inside : Except ValidationError (Option String)} (h : Verdict row (.ok last))
    (hinside : Verdict children inside) :
    Verdict (row ++ [optional children tag]) (inside >>= fun _ ↦ .ok none) := by
  obtain ⟨hclear, -⟩ := h.ok_cases
  cases hinside with
  | clear hnone =>
    refine .concat hclear (fun _ _ hn ↦ nomatch hn) ?_
    rintro _ _ ⟨⟩
    exact hnone
  | @broken place first second hpair hleast =>
    refine .broken (.of_section hpair) fun place' first' second' h' ↦ ?_
    obtain h' | ⟨hn, -⟩ | ⟨children', tag', k, hn, h', rfl⟩ := h'.of_concat
    · exact absurd h' (hclear _ _ _)
    · cases hn
    · cases hn
      exact Nat.add_le_add_left (hleast _ _ _ h') _

/-- In a row without nodes there is nothing to report. -/
theorem verdict_nil : Verdict [] (.ok none) := by
  refine .clear fun place first second h ↦ ?_
  have hplace := h.place_lt
  cases hplace

mutual

/-- A step of the pass says what there is to say of the nodes up to the one passed over. -/
theorem verdict_checkAdjacent : (n : Node) → {row : List Node} → {last : Option String} →
    Verdict row (.ok last) → Verdict (row ++ n.inlined) (n.checkAdjacent last)
  | literal _ _, _, _, h =>
    .concat h.ok_cases.1 (fun _ _ hn ↦ nomatch hn) (fun _ _ hn ↦ nomatch hn)
  | group g, _, _, h => verdict_group g h
  | sequence children _, _, _, h => verdict_checkAllAdjacent children h
  | optional children tag, _, _, h =>
    verdict_section tag h (verdict_checkAllAdjacent children verdict_nil)

/-- The pass over several nodes goes on from one to the next until something is wrong. -/
theorem verdict_checkAllAdjacent : (ns : List Node) → {row : List Node} → {last : Option String} →
    Verdict row (.ok last) → Verdict (row ++ inlinedAll ns) (checkAllAdjacent last ns)
  | [], _, _, h => by
    rw [inlinedAll, List.append_nil]
    exact h
  | n :: ns, _, last, h => by
    have hstep := verdict_checkAdjacent n h
    rw [inlinedAll, ← List.append_assoc, checkAllAdjacent]
    cases hn : n.checkAdjacent last with
    | error e =>
      rw [hn] at hstep
      exact hstep.append_right _
    | ok next =>
      rw [hn] at hstep
      exact verdict_checkAllAdjacent ns hstep

end

/-- The uppermost row of siblings of a tree. -/
def siblings (root : Node) : List Node := inlinedAll (root.children?.getD [])

end Node

namespace Validator

open Node

/-- The rule says of a tree what there is to say of its uppermost row. -/
theorem verdict_greedyAdjacency (root : Node) :
    ∃ result, Verdict root.siblings result ∧
      greedyAdjacency.check root = result.map fun _ ↦ () := by
  unfold greedyAdjacency siblings
  cases hchildren : root.children? with
  | none =>
    refine ⟨_, verdict_nil, ?_⟩
    simp only [hchildren]
    rfl
  | some children =>
    refine ⟨_, verdict_checkAllAdjacent children verdict_nil, ?_⟩
    simp only [hchildren]
    cases checkAllAdjacent none children <;> rfl

/-- The groups of the uppermost row and of all sections in it are those of the tree, if it has
children. -/
theorem groups_of_siblings {root : Node} {place : Nat} {g : Group}
    (h : (groupsOf root.siblings)[place]? = some g) : root.groups[place]? = some g := by
  cases root with
  | literal text tag => cases h
  | group g' => cases h
  | sequence children tag => rwa [siblings, children?, Option.getD_some, groupsOf_inlinedAll] at h
  | optional children tag => rwa [siblings, children?, Option.getD_some, groupsOf_inlinedAll] at h

/-- The rule is broken exactly if two greedy groups are neighbours in some row of siblings, and the
error names the two of which the second comes first among the groups of the tree.
`SPEC_FULL.md:55`. -/
theorem greedyAdjacency_check (root : Node) :
    (greedyAdjacency.check root = .ok () ↔
        ∀ place first second, ¬ HasPair root.siblings place first second) ∧
      (∀ e, greedyAdjacency.check root = .error e ↔
        ∃ place first second, HasPair root.siblings place first second ∧
          (∀ place' first' second', HasPair root.siblings place' first' second' →
            place ≤ place') ∧
          e = .adjacentGreedyGroups first.name second.name) ∧
      ∀ place first second, HasPair root.siblings place first second →
        root.groups[place]? = some second := by
  have hplace : ∀ place first second, HasPair root.siblings place first second →
      root.groups[place]? = some second := fun _ _ _ hpair ↦ by
    obtain ⟨-, -, -, hsecond⟩ := hpair.getElem?_groupsOf
    exact groups_of_siblings hsecond
  obtain ⟨result, hverdict, hcheck⟩ := verdict_greedyAdjacency root
  rw [hcheck]
  cases hverdict with
  | clear hnone =>
    refine ⟨⟨fun _ ↦ hnone, fun _ ↦ rfl⟩, fun e ↦ ⟨nofun, ?_⟩, hplace⟩
    rintro ⟨place, first, second, hpair, -⟩
    exact absurd hpair (hnone _ _ _)
  | @broken place first second hpair hleast =>
    refine ⟨⟨nofun, fun hnone ↦ absurd hpair (hnone _ _ _)⟩, fun e ↦ ⟨?_, ?_⟩, hplace⟩
    · rintro ⟨⟩
      exact ⟨place, first, second, hpair, hleast, rfl⟩
    · rintro ⟨place', first', second', hpair', hleast', rfl⟩
      -- The two places are both the least, so they are one, and so are the groups there.
      obtain rfl : place = place' := Nat.le_antisymm (hleast _ _ _ hpair') (hleast' _ _ _ hpair)
      obtain ⟨k, rfl, hfirst, hsecond⟩ := hpair.getElem?_groupsOf
      obtain ⟨k', hk, hfirst', hsecond'⟩ := hpair'.getElem?_groupsOf
      obtain rfl : k = k' := Nat.succ.inj hk
      obtain rfl : first = first' := Option.some.inj (hfirst.symm.trans hfirst')
      obtain rfl : second = second' := Option.some.inj (hsecond.symm.trans hsecond')
      rfl

end Validator

end UrlPattern
