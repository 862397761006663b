import UrlPattern.Proofs.GeneratedText

/-!
# Writing the flat values of a match

The flat values of a match are those of its groups, together with the input under the name `input`.
A value of a group named `input` takes that place. So the input is written only for a group of that
name which has no value, because it captured nothing or because what it captured was refused. Unless
there is such a group, the flat values are written as the values of the groups are
(`Pattern.generate_flat`). If there is, its section comes back with the whole input in it, and the
pattern may not match the text (`Pattern.exists_generate_flat_ne`).

Specification: `SPEC_FULL.md` §6 (line 88).
-/

namespace UrlPattern

namespace MatchResult

variable {r : MatchResult}

/-- A flat value is that of a group, or else the input under its name. -/
theorem get?_flat (r : MatchResult) (name : String) :
    r.flat.get? name
      = (r.values.get? name).or (if name = "input" then some (.text r.input) else none) := by
  rw [flat, Table.get?_foldl_insert_toList, Table.get?_insert, Table.get?_empty]

/-- Without a value named `input` the flat values are the values with the input under that name. -/
theorem flat_eq_insert (h : r.values.contains "input" = false) :
    r.flat = r.values.insert "input" (.text r.input) := by
  apply Table.ext_get?
  intro name
  rw [get?_flat, Table.get?_insert]
  by_cases hname : name = "input"
  · have hnone : r.values.get? "input" = none := by
      simpa [Table.contains] using h
    rw [if_pos hname, hname, hnone, Option.none_or]
    rfl
  · rw [if_neg hname, if_neg hname, Option.or_none]

end MatchResult

namespace Pattern

/-- The flat values of a match are written as the values of its groups are, the same text or the
same lack, unless a group named `input` has no value. Such a group is written as the input.
`SPEC_FULL.md:88`. -/
theorem generate_flat {p : Pattern} {s : String} {r : MatchResult} (hmatch : p.match? s = some r) :
    ((∀ g ∈ p.tree.groups, g.name = "input" → r.values.contains "input" = true) →
        p.generate r.flat = p.generate r.values) ∧
      (r.values.contains "input" = false →
        p.generate r.flat = p.generate (r.values.insert "input" (.text s))) := by
  constructor
  · intro hinput
    apply Node.generate_congr
    intro g hg
    rw [MatchResult.get?_flat]
    by_cases hname : g.name = "input"
    · obtain ⟨v, hv⟩ := Option.isSome_iff_exists.mp (hinput g hg hname)
      rw [hname, hv, Option.some_or]
    · rw [if_neg hname, Option.or_none]
  · intro hnone
    rw [MatchResult.flat_eq_insert hnone, input_eq_of_match? hmatch]

/-- A group named `input` that has a value is written as that value. -/
theorem generate_flat_named :
    ∃ p r, Compiler.standard.compile "a(-\x7binput:int\x7d)" = .ok p ∧ p.match? "a-5" = some r ∧
      p.generate r.flat = p.generate r.values ∧ p.generate r.values = .ok "a-5" := by
  have htest : (Compiler.standard.compile "a(-\x7binput:int\x7d)").toOption.any (fun p ↦
      (p.match? "a-5").any fun r ↦
        r.values.contains "input" && p.generate r.values == .ok "a-5") = true := by
    decide +kernel
  obtain ⟨p, hp, htest⟩ := exists_ok_of_any htest
  obtain ⟨r, hmatch, htest⟩ := (Option.any_eq_true ..).mp htest
  obtain ⟨hvalue, hgenerate⟩ := Bool.and_eq_true_iff.mp htest
  exact ⟨p, r, hp, hmatch, (generate_flat hmatch).1 fun _ _ _ ↦ hvalue, eq_of_beq hgenerate⟩

/-- A group named `input` that captured nothing comes back with the whole input, in a text that the
pattern does not match. One that was refused is written, where its value is lacking otherwise. -/
theorem exists_generate_flat_ne :
    (∃ p r, Compiler.standard.compile "a(-\x7binput:int\x7d)" = .ok p ∧ p.match? "a" = some r ∧
      r.errors = [] ∧ p.generate r.values = .ok "a" ∧ p.generate r.flat = .ok "a-a" ∧
      p.isMatch "a-a" = false) ∧
    ∃ p r, Compiler.standard.compile "\x7binput:int(min=5)\x7d" = .ok p ∧
      p.match? "3" = some r ∧ p.generate r.values = .error (.missingValue "input") ∧
      p.generate r.flat = .ok "3" := by
  have htest : (Compiler.standard.compile "a(-\x7binput:int\x7d)").toOption.any (fun p ↦
      (p.match? "a").any fun r ↦ r.errors.isEmpty && (p.generate r.values == .ok "a" &&
        (p.generate r.flat == .ok "a-a" && !p.isMatch "a-a"))) = true := by
    decide +kernel
  have htest' : (Compiler.standard.compile "\x7binput:int(min=5)\x7d").toOption.any (fun p ↦
      (p.match? "3").any fun r ↦ p.generate r.values == .error (.missingValue "input") &&
        p.generate r.flat == .ok "3") = true := by
    decide +kernel
  obtain ⟨p, hp, htest⟩ := exists_ok_of_any htest
  obtain ⟨r, hmatch, htest⟩ := (Option.any_eq_true ..).mp htest
  obtain ⟨p', hp', htest'⟩ := exists_ok_of_any htest'
  obtain ⟨r', hmatch', htest'⟩ := (Option.any_eq_true ..).mp htest'
  simp only [Bool.and_eq_true, beq_iff_eq, List.isEmpty_iff, Bool.not_eq_true'] at htest htest'
  exact ⟨⟨p, r, hp, hmatch, htest⟩, ⟨p', r', hp', hmatch', htest'⟩⟩

end Pattern

end UrlPattern
