import UrlPattern.Proofs.CompiledPattern
import UrlPattern.Proofs.GeneratedText
import UrlPattern.Proofs.MatchedValues

/-!
# Every group of a match

A match result says of every group one of three things: the group has a value, its text was refused,
or it is left out (`MatchResult.Accounts`). It says nothing else, as the groups of a pattern have
different names and no group is looked at twice. A group is left out exactly if it captured nothing
and has no fallback, so only a group in an optional section can be
(`Compiler.accounts_of_match?`).

Specification: `SPEC_FULL.md` §4.5 (lines 60–61) and §7 (lines 90–91).
-/

namespace UrlPattern

namespace Node

mutual

/-- A group outside of all sections has its piece in every division. -/
theorem Divides.exists_piece {n : Node} {d : Division} (h : n.Divides d) {g : Group}
    (hg : g ∈ n.outerGroups) : ∃ t, .group g t ∈ d := by
  match n with
  | literal text tag => exact absurd hg List.not_mem_nil
  | group g' =>
    rw [List.mem_singleton.mp hg]
    obtain ⟨t, -, rfl⟩ := h
    exact ⟨t, List.mem_singleton_self _⟩
  | sequence children tag =>
    have hall : DividesAll children d := h
    exact hall.exists_piece hg
  | optional children tag => exact absurd hg List.not_mem_nil

theorem DividesAll.exists_piece {ns : List Node} {d : Division} (h : DividesAll ns d) {g : Group}
    (hg : g ∈ outerGroupsOf ns) : ∃ t, .group g t ∈ d := by
  match ns with
  | [] => exact absurd hg List.not_mem_nil
  | n :: ns =>
    obtain ⟨d₁, d₂, h₁, h₂, rfl⟩ := h
    rcases List.mem_append.mp hg with hg | hg
    · obtain ⟨t, ht⟩ := Divides.exists_piece h₁ hg
      exact ⟨t, List.mem_append_left _ ht⟩
    · obtain ⟨t, ht⟩ := DividesAll.exists_piece h₂ hg
      exact ⟨t, List.mem_append_right _ ht⟩

end

end Node

namespace MatchResult

/-- The names of the groups whose value was refused, as the errors list them. -/
def refusedNames (r : MatchResult) : List String := r.errors.map (·.group)

/-- A result has neither a value nor an error of a group. -/
def Omits (r : MatchResult) (g : Group) : Prop :=
  r.groups.get? g.name = none ∧ g.name ∉ r.refusedNames

/-- A result says one thing of a group, and says it once. -/
inductive Accounts (r : MatchResult) (g : Group) : Prop where
  | value {v : Value} (hget : r.groups.get? g.name = some ⟨v, g.type.name, g.raw⟩)
      (haccept : g.name ∉ r.refusedNames)
  | error (hget : r.groups.get? g.name = none) (hcount : r.refusedNames.count g.name = 1)
  | omitted (homits : r.Omits g)

variable {captured : String → Option String} {gs : List Group} {g : Group} {s : String}

/-- The errors name the refused groups in their order. -/
theorem refusedNames_addGroups :
    (gs.foldl (addGroup captured) (.ofInput s)).refusedNames
      = (gs.filter fun g ↦ (g.refusal? captured).isSome).map Group.name := by
  rw [refusedNames, errors_addGroups, ofInput, List.nil_append]
  induction gs with
  | nil => rfl
  | cons g gs ih =>
    cases hrefusal : g.refusal? captured with
    | none =>
      rw [List.filterMap_cons_none hrefusal, List.filter_cons_of_neg (by simp [hrefusal]), ih]
    | some e =>
      have hname : e.group = g.name := by
        rw [Group.refusal?] at hrefusal
        split at hrefusal <;> cases hrefusal
        rfl
      rw [List.filterMap_cons_some hrefusal, List.filter_cons_of_pos (by simp [hrefusal]),
        List.map_cons, List.map_cons, ih, hname]

section

variable (hnodup : (gs.map Group.name).Nodup) (hg : g ∈ gs)

include hnodup hg

theorem get?_addGroups_ofInput :
    (gs.foldl (addGroup captured) (.ofInput s)).groups.get? g.name = g.result? captured :=
  (get?_addGroups hnodup hg).trans (Option.or_none ..)

theorem mem_refusedNames_addGroups :
    g.name ∈ (gs.foldl (addGroup captured) (.ofInput s)).refusedNames ↔
      (g.refusal? captured).isSome = true := by
  rw [refusedNames_addGroups, List.mem_map]
  constructor
  · rintro ⟨g', hg', hname⟩
    obtain ⟨hg', hrefused⟩ := List.mem_filter.mp hg'
    rwa [List.inj_on_of_nodup_map hnodup hg' hg hname] at hrefused
  · intro hrefused
    exact ⟨g, List.mem_filter.mpr ⟨hg, hrefused⟩, rfl⟩

/-- A name that is refused is named once. -/
theorem count_refusedNames_addGroups (hrefused : (g.refusal? captured).isSome = true) :
    (gs.foldl (addGroup captured) (.ofInput s)).refusedNames.count g.name = 1 := by
  have hnames : (gs.foldl (addGroup captured) (.ofInput s)).refusedNames.Nodup := by
    rw [refusedNames_addGroups]
    exact hnodup.sublist (List.filter_sublist.map _)
  rw [hnames.count, if_pos ((mem_refusedNames_addGroups hnodup hg).mpr hrefused)]

/-- A group is left out if matching made nothing of it. -/
theorem omits_addGroups_iff :
    (gs.foldl (addGroup captured) (.ofInput s)).Omits g ↔ g.outcome? captured = none := by
  rw [Omits, get?_addGroups_ofInput hnodup hg, mem_refusedNames_addGroups hnodup hg, Group.result?,
    Group.refusal?]
  cases g.outcome? captured with
  | none => simp
  | some outcome => cases outcome <;> simp

/-- What is said of a group is what matching made of it. -/
theorem accounts_addGroups : (gs.foldl (addGroup captured) (.ofInput s)).Accounts g := by
  have hget : (gs.foldl (addGroup captured) (.ofInput s)).groups.get? g.name
      = g.result? captured := get?_addGroups_ofInput hnodup hg
  rw [Group.result?] at hget
  cases houtcome : g.outcome? captured with
  | none => exact .omitted ((omits_addGroups_iff hnodup hg).mpr houtcome)
  | some outcome =>
    rw [houtcome] at hget
    cases outcome with
    | ok v =>
      refine .value hget ?_
      rw [mem_refusedNames_addGroups hnodup hg, Group.refusal?, houtcome]
      exact Bool.false_ne_true
    | error e =>
      refine .error hget (count_refusedNames_addGroups hnodup hg ?_)
      rw [Group.refusal?, houtcome]
      rfl

end

end MatchResult

namespace Compiler

variable {pipeline : Pipeline} {source : String} {p : Pattern} {s : String} {r : MatchResult}

/-- A match says one thing of every group of the pattern, and nothing of other names: an entry
states the type and the constraints of its group, and the errors come in the order of the groups.
The groups left out are those that captured nothing and have no fallback, and none of them stands
outside the optional sections. `SPEC_FULL.md:61`. -/
theorem accounts_of_match? (h : (⟨.builtin, pipeline⟩ : Compiler).compile source = .ok p)
    (hmatch : p.match? s = some r) :
    ∃ captures, p.regex.captures? s = some captures ∧
      (∀ g ∈ p.tree.groups, r.Accounts g ∧
        (r.Omits g ↔ Regex.capturedText? captures g.captureName = none ∧ g.fallback? = none)) ∧
      (∀ g ∈ p.tree.outerGroups, ¬ r.Omits g) ∧
      (∀ name, r.groups.contains name = true → ∃ g ∈ p.tree.groups, g.name = name) ∧
      r.refusedNames.Sublist (p.tree.groups.map Group.name) := by
  have hp := isDerived_of_compile h
  rw [Pattern.match?_eq] at hmatch
  split at hmatch
  · cases hmatch
  obtain ⟨captures, hcap, rfl⟩ := Option.map_eq_some_iff.mp hmatch
  have homits : ∀ g ∈ p.tree.groups, (p.tree.groups.foldl
      (MatchResult.addGroup (Regex.capturedText? captures)) (.ofInput s)).Omits g ↔
        Regex.capturedText? captures g.captureName = none ∧ g.fallback? = none := by
    intro g hg
    have hne : Regex.capturedText? captures g.captureName ≠ some "" := fun hempty ↦
      hp.ne_empty_of_captured hcap hg hempty rfl
    rw [MatchResult.omits_addGroups_iff p.names_nodup hg, Group.outcome?_eq_none_iff hne]
  refine ⟨captures, hcap, fun g hg ↦ ?_, fun g hg ↦ ?_, fun name hname ↦ ?_, ?_⟩
  · exact ⟨MatchResult.accounts_addGroups p.names_nodup hg, homits g hg⟩
  · obtain ⟨d, hbest, hgroups⟩ := hp.dividesBest_of_captures? hcap
    obtain ⟨t, ht⟩ := hbest.divides.exists_piece hg
    have hg' : g ∈ p.tree.groups := (hbest.divides.fits ht).1
    have htext := ((hgroups g hg').1 t).mpr ht
    rw [homits g hg', htext]
    exact fun hnone ↦ Option.some_ne_none _ hnone.1
  · by_contra hnot
    have hnone : name ∉ p.tree.groups.map Group.name := fun hmem ↦ hnot (List.mem_map.mp hmem)
    rw [Table.contains, MatchResult.get?_addGroups_of_notMem hnone] at hname
    cases hname
  · rw [MatchResult.refusedNames_addGroups]
    exact List.filter_sublist.map _

/-- A refused value, a group left out, and one that has its fallback. -/
theorem accounts_of_match?_three :
    ∃ p r captures, standard.compile
        "\x7ba:int(min=5)\x7d(-\x7bb:int\x7d)(.\x7bc:int(default=3)\x7d)" = .ok p ∧
      p.match? "3" = some r ∧ p.regex.captures? "3" = some captures ∧
      r.refusedNames = ["a"] ∧ r.groups.contains "c" = true ∧
      (∃ g ∈ p.tree.groups, g.name = "b" ∧ r.Omits g) ∧ ∀ g ∈ p.tree.groups, r.Accounts g := by
  have htest : (standard.compile
      "\x7ba:int(min=5)\x7d(-\x7bb:int\x7d)(.\x7bc:int(default=3)\x7d)").toOption.any (fun p ↦
        (p.match? "3").any fun r ↦ r.refusedNames == ["a"] && r.groups.contains "c" &&
          p.tree.groups.any fun g ↦ g.name == "b" && g.fallback?.isNone &&
            (p.regex.captures? "3").all fun captures ↦
              Regex.capturedText? captures g.captureName == none) = true := by
    decide +kernel
  obtain ⟨p, hp, htest⟩ := exists_ok_of_any htest
  obtain ⟨r, hr, htest⟩ := (Option.any_eq_true ..).mp htest
  obtain ⟨captures, hcap, hgroups, -⟩ := accounts_of_match? hp hr
  simp only [Bool.and_eq_true, beq_iff_eq, List.any_eq_true, Option.isNone_iff_eq_none,
    hcap, Option.all_some] at htest
  obtain ⟨⟨hrefused, hvalue⟩, g, hg, ⟨hname, hfallback⟩, htext⟩ := htest
  exact ⟨p, r, captures, hp, hr, hcap, hrefused, hvalue,
    ⟨g, hg, hname, (hgroups g hg).2.mpr ⟨htext, hfallback⟩⟩, fun g hg ↦ (hgroups g hg).1⟩

end Compiler

end UrlPattern
