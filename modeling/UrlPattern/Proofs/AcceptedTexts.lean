import UrlPattern.Analysis
import UrlPattern.Proofs.CheckedValues

/-!
# Accepted texts

Which texts give a group a value, said of the texts and the constraints. A group of integers accepts
the texts of the integers between two bounds, whether or not its expression finds them; a group of
words accepts the words that meet its constraints.

A match without errors divides its input so that every group takes a text that it accepts
(`Pattern.IsDerived.exists_accepted_division`).

Specification: `SPEC_FULL.md` §10.3 (lines 194–210) and §10.4 (lines 212–222).
-/

namespace UrlPattern

namespace Text

/-- An integer of 64 bits lies within the bounds of all of them. -/
theorem toInt_mem_bounds (n : Int64) : integerMin ≤ n.toInt ∧ n.toInt ≤ integerMax := by
  have hleast := n.le_toInt
  have hgreatest := n.toInt_lt
  rw [integerMin, integerMax]
  omega

theorem integerOf_eq_some_iff {v : Int} {n : Int64} : integerOf v = some n ↔ v = n.toInt := by
  constructor
  · intro h
    obtain ⟨⟨hleast, hgreatest⟩, heq⟩ := Option.ite_none_right_eq_some.mp h
    rw [integerMin] at hleast
    rw [integerMax] at hgreatest
    rw [← Option.some.inj heq, Int64.toInt_ofInt_of_le (by omega) (by omega)]
  · rintro rfl
    rw [integerOf, if_pos (toInt_mem_bounds n), Int64.ofInt_toInt]

end Text

namespace ValueType

/-- Only the texts of integers read as integers. -/
theorem isIntegerText_of_readSigned {t : List Char} {n : Int64} (h : Text.readSigned t = some n) :
    IsIntegerText none none t := by
  have digits : ∀ {ds : List Char} {f : Nat → Option Int64},
      (Text.readNatUpTo Text.sizeMax ds).bind f = some n → IsDigits none ds := by
    intro ds f hread
    obtain ⟨m, hm, -⟩ := Option.bind_eq_some_iff.mp hread
    rw [Text.readNatUpTo_eq, Text.readNat] at hm
    obtain ⟨hm, -⟩ := Option.filter_eq_some_iff.mp hm
    obtain ⟨⟨hne, hall⟩, -⟩ := Option.ite_none_right_eq_some.mp hm
    refine ⟨hne, List.all_eq_true.mp hall, ?_⟩
    intro w hw
    cases hw
  rw [Text.readSigned.eq_def] at h
  split at h
  · refine .inr ⟨_, rfl, ?_, digits h⟩
    intro m hm
    cases hm
  · exact .inl (digits h)

/-- The value of a text as an integer is the one that its digits and its sign denote. -/
theorem convert?_integer_eq_some_iff {raw : String} {n : Int64} :
    integer.convert? raw = some (.int n) ↔
      IsIntegerText none none raw.toList ∧ Text.signedValue raw.toList = n.toInt := by
  have hconvert : integer.convert? raw = (Text.readSigned raw.toList).map .int := by
    rw [← readInteger?_eq, convert?_integer]
  rw [hconvert, Option.map_eq_some_iff]
  constructor
  · rintro ⟨m, hread, hm⟩
    cases hm
    have htext := isIntegerText_of_readSigned hread
    rw [readSigned_eq_integerOf htext] at hread
    exact ⟨htext, Text.integerOf_eq_some_iff.mp hread⟩
  · rintro ⟨htext, hvalue⟩
    refine ⟨n, ?_, rfl⟩
    rw [readSigned_eq_integerOf htext]
    exact Text.integerOf_eq_some_iff.mpr hvalue

end ValueType

namespace Group

variable {g : Group} {raw : String}

/-- A group accepts the texts that its type gives a value under its constraints. -/
theorem accepts_iff_exists_parseValue :
    g.accepts raw = true ↔ ∃ v, g.type.parseValue (some raw) g.constraints = .ok v := by
  rw [accepts]
  cases g.type.parseValue (some raw) g.constraints with
  | ok v => exact iff_of_true rfl ⟨v, rfl⟩
  | error e => exact iff_of_false nofun nofun

/-- A text is accepted if it denotes a value that all constraints admit. -/
theorem accepts_iff (huse : g.type.UsesConvert) : g.accepts raw = true ↔
    ∃ v, g.type.convert? raw = some v ∧ ∀ c ∈ g.constraints, c.holds v = true :=
  accepts_iff_exists_parseValue.trans
    (exists_congr fun _ ↦ ValueType.parseValue_some_eq_ok huse)

/-- The least integer that the group admits. -/
def leastValue (g : Group) : Int :=
  ((Constraint.min? g.constraints).map Int64.toInt).getD Text.integerMin

/-- The greatest integer that the group admits. -/
def greatestValue (g : Group) : Int :=
  ((Constraint.max? g.constraints).map Int64.toInt).getD Text.integerMax

/-- Of integers, the constraints of a group admit those between its bounds. -/
theorem forall_holds_int_iff {n : Int64} : (∀ c ∈ g.constraints, c.holds (.int n) = true) ↔
    g.leastValue ≤ n.toInt ∧ n.toInt ≤ g.greatestValue := by
  have hrange := Text.toInt_mem_bounds n
  constructor
  · intro hall
    constructor
    · rw [leastValue]
      cases hmin : Constraint.min? g.constraints with
      | none => exact hrange.1
      | some m => exact of_decide_eq_true (hall _ (Constraint.mem_of_min? hmin))
    · rw [greatestValue]
      cases hmax : Constraint.max? g.constraints with
      | none => exact hrange.2
      | some m => exact of_decide_eq_true (hall _ (Constraint.mem_of_max? hmax))
  · rintro ⟨hleast, hgreatest⟩ c hc
    cases c with
    | min m =>
      have hfound : Constraint.min? g.constraints = some m :=
        findSome?_eq_some_of_mem hc rfl fun c' _ h ↦ by cases c' <;> cases h; rfl
      rw [leastValue, hfound] at hleast
      exact decide_eq_true hleast
    | max m =>
      have hfound : Constraint.max? g.constraints = some m :=
        findSome?_eq_some_of_mem hc rfl fun c' _ h ↦ by cases c' <;> cases h; rfl
      rw [greatestValue, hfound] at hgreatest
      exact decide_eq_true hgreatest
    | minLen m | maxLen m | fallback text | startsWith part | endsWith part | contains part => rfl

/-- A group of integers accepts the texts of the integers between its bounds. -/
theorem accepts_integer_iff (hint : g.type = .integer) : g.accepts raw = true ↔
    ValueType.IsIntegerText none none raw.toList ∧
      g.leastValue ≤ Text.signedValue raw.toList ∧
        Text.signedValue raw.toList ≤ g.greatestValue := by
  rw [accepts_iff (IsBuiltin.usesConvert (.inl hint)), hint]
  constructor
  · rintro ⟨v, hconv, hall⟩
    obtain ⟨n, rfl⟩ := ValueType.exists_int_of_convert? hconv
    obtain ⟨htext, hvalue⟩ := ValueType.convert?_integer_eq_some_iff.mp hconv
    rw [hvalue]
    exact ⟨htext, forall_holds_int_iff.mp hall⟩
  · rintro ⟨htext, hleast, hgreatest⟩
    -- Between the bounds of the group there are only integers of 64 bits.
    cases hfits : Text.integerOf (Text.signedValue raw.toList) with
    | none =>
      have hlow : Text.integerMin ≤ g.leastValue := by
        rw [leastValue]
        cases Constraint.min? g.constraints with
        | none => exact Int.le_refl _
        | some m => exact (Text.toInt_mem_bounds m).1
      have hhigh : g.greatestValue ≤ Text.integerMax := by
        rw [greatestValue]
        cases Constraint.max? g.constraints with
        | none => exact Int.le_refl _
        | some m => exact (Text.toInt_mem_bounds m).2
      rw [Text.integerOf_eq_none_iff] at hfits
      omega
    | some n =>
      have hvalue := Text.integerOf_eq_some_iff.mp hfits
      rw [hvalue] at hleast hgreatest
      exact ⟨.int n, ValueType.convert?_integer_eq_some_iff.mpr ⟨htext, hvalue⟩,
        forall_holds_int_iff.mpr ⟨hleast, hgreatest⟩⟩

/-- A group of words accepts the words that meet its constraints. -/
theorem accepts_word_iff (hword : g.type = .word) : g.accepts raw = true ↔
    raw ≠ "" ∧ (∀ c ∈ raw.toList, ValueType.isWordChar c) ∧
      ∀ c ∈ g.constraints, c.IsMetBy (.text raw) := by
  have hconvert : ∀ {v}, g.type.convert? raw = some v ↔
      (raw ≠ "" ∧ raw.toList.all ValueType.isWordChar) ∧ v = .text raw := by
    rw [hword]
    exact ValueType.convert?_word_eq_some_iff
  rw [accepts_iff (IsBuiltin.usesConvert (.inr hword))]
  constructor
  · rintro ⟨v, hconv, hall⟩
    obtain ⟨⟨hne, hchars⟩, rfl⟩ := hconvert.mp hconv
    exact ⟨hne, List.all_eq_true.mp hchars, fun c hc ↦
      (holds_iff_isMetBy (.inr hword) hc hconv).mp (hall c hc)⟩
  · rintro ⟨hne, hchars, hmet⟩
    have hconv := hconvert.mpr ⟨⟨hne, List.all_eq_true.mpr hchars⟩, rfl⟩
    exact ⟨_, hconv, fun c hc ↦ (holds_iff_isMetBy (.inr hword) hc hconv).mpr (hmet c hc)⟩

end Group

namespace Pattern

variable {p : Pattern} {s : String} {r : MatchResult}

/-- A match without errors divides its input so that every group takes a text that it both spells
and accepts. -/
theorem IsDerived.exists_accepted_division (h : p.IsDerived) (hmatch : p.match? s = some r)
    (herrors : r.errors = []) :
    ∃ d, p.tree.Divides d ∧ d.text = s.toList ∧
      ∀ g t, .group g t ∈ d →
        g ∈ p.tree.groups ∧ g.Spells t ∧ g.accepts (String.ofList t) = true := by
  obtain ⟨-, captures, hcap, -, -, hrefused⟩ := match?_eq_some hmatch
  rw [herrors] at hrefused
  obtain ⟨d, hbest, hgroups⟩ := h.dividesBest_of_captures? hcap
  refine ⟨d, hbest.divides, hbest.text_eq, ?_⟩
  intro g t hin
  obtain ⟨hg, hspells⟩ := hbest.divides.fits hin
  refine ⟨hg, hspells, ?_⟩
  have ht := ((hgroups g hg).1 t).mpr hin
  have haccept := List.filterMap_eq_nil_iff.mp hrefused.symm g hg
  have huse := (h.builtin g hg).usesConvert
  obtain ⟨v, -, hvalue⟩ :=
    Group.result?_of_captured huse ht (h.ne_empty_of_captured hcap hg ht) haccept
  exact (Group.accepts_iff huse).mpr ⟨v, hvalue⟩

end Pattern

end UrlPattern
