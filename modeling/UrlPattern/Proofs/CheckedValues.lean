import UrlPattern.Proofs.CompiledPattern
import UrlPattern.Proofs.MatchedValues

/-!
# Values under constraints

What a match says of the constraints of its groups. A captured value that is reported meets all of
them. A fallback supplies its value after the others have been applied, so none of them restricts
it (`Group.Reports`).

A group is refused for one of two reasons (`Group.Refuses`): it captured a number of more than 64
bits, or it captured a value that one of its constraints does not admit. The expression of a group
already keeps to the bounds on lengths, so these refuse nothing.

Specification: `SPEC_FULL.md` §4.2 (lines 47–48) and §10.4 (lines 212–222).
-/

namespace UrlPattern

/-! ### Integers in texts -/

namespace Text

/-- The integer that digits behind an optional sign denote. -/
def signedValue : List Char → Int
  | '-' :: ds => -ofDigits ds
  | ds => ofDigits ds

theorem integerOf_eq_none_iff {n : Int} : integerOf n = none ↔ n < integerMin ∨ integerMax < n := by
  rw [integerOf]
  split
  · next h => exact iff_of_false nofun (by omega)
  · next h => exact iff_of_true rfl (by omega)

end Text

namespace ValueType

/-- Bounds only leave texts out. -/
theorem IsIntegerText.unbounded {least greatest : Option Int64} {t : List Char}
    (h : IsIntegerText least greatest t) : IsIntegerText none none t := by
  have hdigits : ∀ {width : Option Nat} {ds : List Char}, IsDigits width ds → IsDigits none ds :=
    fun hds ↦ ⟨hds.1, hds.2.1, nofun⟩
  rcases h with hds | ⟨ds, rfl, -, hds⟩
  · exact .inl (hdigits hds)
  · exact .inr ⟨ds, rfl, nofun, hdigits hds⟩

/-- Digits read as the number that they denote, if it fits. -/
private theorem readNatUpTo_bind_integerOf {ds : List Char} (h : IsDigits none ds) {f : Nat → Int}
    (hf : ∀ n, Text.sizeMax < n → Text.integerOf (f n) = none) :
    ((Text.readNatUpTo Text.sizeMax ds).bind fun n ↦ Text.integerOf (f n))
      = Text.integerOf (f (Text.ofDigits ds)) := by
  have hread : Text.readNat ds = some (Text.ofDigits ds) :=
    if_pos ⟨h.1, List.all_eq_true.mpr h.2.1⟩
  rw [Text.readNatUpTo_eq, hread, Option.filter_some]
  split
  · rfl
  · next hlarge =>
    rw [hf _ (by simpa using hlarge)]
    rfl

/-- A text of an integer reads as the integer that it denotes, if that has 64 bits. -/
theorem readSigned_eq_integerOf {t : List Char} (h : IsIntegerText none none t) :
    Text.readSigned t = Text.integerOf (Text.signedValue t) := by
  rcases h with hds | ⟨ds, rfl, -, hds⟩
  · have hsign : ∀ ds, t ≠ '-' :: ds := by
      rintro ds rfl
      have hdigit := hds.2.1 '-' List.mem_cons_self
      cases hdigit
    rw [Text.readSigned.eq_2 t hsign, Text.signedValue.eq_2 t hsign]
    refine readNatUpTo_bind_integerOf hds fun n hn ↦ ?_
    rw [Text.integerOf_eq_none_iff, Text.integerMin, Text.integerMax]
    rw [Text.sizeMax] at hn
    omega
  · refine readNatUpTo_bind_integerOf (f := fun n ↦ -n) hds fun n hn ↦ ?_
    rw [Text.integerOf_eq_none_iff, Text.integerMin, Text.integerMax]
    rw [Text.sizeMax] at hn
    omega

/-- The texts of integers that have no value are those of integers that do not fit. -/
theorem convert?_integer_eq_none_iff {raw : String} (h : IsIntegerText none none raw.toList) :
    integer.convert? raw = none ↔ Text.signedValue raw.toList < Text.integerMin ∨
      Text.integerMax < Text.signedValue raw.toList := by
  rw [convert?_integer, Option.map_eq_none_iff, readInteger?_eq, readSigned_eq_integerOf h,
    Text.integerOf_eq_none_iff]

/-- A text of a word has itself as its value. -/
theorem convert?_of_isWordText {least greatest : Option Nat} {raw : String}
    (h : IsWordText least greatest raw.toList) : word.convert? raw = some (.text raw) := by
  refine convert?_word_eq_some_iff.mpr ⟨⟨?_, List.all_eq_true.mpr h.1⟩, rfl⟩
  rintro rfl
  have hone := Nat.le_trans (Nat.le_max_left 1 _) h.2.1
  cases hone

end ValueType

/-! ### What constraints demand -/

/-- What a constraint demands of a value. A bound on integers demands an integer and the other
restrictions a text; a fallback demands nothing. -/
def Constraint.IsMetBy : Constraint → Value → Prop
  | min n, .int m => n.toInt ≤ m.toInt
  | max n, .int m => m.toInt ≤ n.toInt
  | minLen n, .text s => n ≤ s.length
  | maxLen n, .text s => s.length ≤ n
  | startsWith part, .text s => part.toList <+: s.toList
  | endsWith part, .text s => part.toList <:+ s.toList
  | contains part, .text s => part.toList <:+: s.toList
  | fallback _, _ => True
  | _, _ => False

namespace Group

variable {g : Group} {raw : String} {v : Value} {c : Constraint}

/-- Of the values of its type, a constraint of a group admits those that meet it. -/
theorem holds_iff_isMetBy (hg : g.IsBuiltin) (hc : c ∈ g.constraints)
    (hconv : g.type.convert? raw = some v) : c.holds v = true ↔ c.IsMetBy v := by
  have hkind := (ValueType.written_of_mem g.resolved hc).1
  rcases hg with hint | hword
  · rw [hint] at hkind hconv
    obtain ⟨n, rfl⟩ := ValueType.exists_int_of_convert? hconv
    cases c with
    | min m => exact decide_eq_true_iff
    | max m => exact decide_eq_true_iff
    | fallback text => exact iff_of_true rfl trivial
    | minLen m | maxLen m | startsWith part | endsWith part | contains part =>
      simp [Constraint.kind, ValueType.integer] at hkind
  · rw [hword] at hkind hconv
    obtain ⟨-, rfl⟩ := ValueType.convert?_word_eq_some_iff.mp hconv
    cases c with
    | minLen m => exact decide_eq_true_iff
    | maxLen m => exact decide_eq_true_iff
    | startsWith part => exact List.isPrefixOf_iff_prefix
    | endsWith part => exact List.isSuffixOf_iff_suffix
    | contains part => exact occursIn_iff _ _
    | fallback text => exact iff_of_true rfl trivial
    | min m | max m => simp [Constraint.kind, ValueType.word] at hkind

/-- A search for the parameter of a kind finds that of the one constraint of the kind. -/
theorem findSome?_eq_some_of_mem {α : Type} {param? : Constraint → Option α} {a : α}
    (hc : c ∈ g.constraints) (hparam : param? c = some a)
    (hkind : ∀ c' a', param? c' = some a' → c'.kind = c.kind) :
    g.constraints.findSome? param? = some a := by
  cases hfind : g.constraints.findSome? param? with
  | none =>
    rw [List.findSome?_eq_none_iff.mp hfind c hc] at hparam
    cases hparam
  | some a' =>
    obtain ⟨c', hc', hparam'⟩ := List.exists_of_findSome?_eq_some hfind
    obtain rfl := ValueType.eq_of_kind_eq g.resolved hc' hc (hkind c' a' hparam')
    rw [← hparam', hparam]

/-- The texts of a group keep to its bounds on lengths. -/
theorem holds_of_spells (h : g.Spells raw.toList) (hc : c ∈ g.constraints)
    (hconv : g.type.convert? raw = some v) (hkind : c.kind = .minLen ∨ c.kind = .maxLen) :
    c.holds v = true := by
  rcases h with ⟨hint, -⟩ | ⟨hword, htext⟩
  · rw [hint] at hconv
    obtain ⟨n, rfl⟩ := ValueType.exists_int_of_convert? hconv
    cases c with
    | minLen m | maxLen m => rfl
    | min m | max m | fallback text | startsWith part | endsWith part | contains part =>
      rcases hkind with hkind | hkind <;> cases hkind
  · rw [hword, ValueType.convert?_of_isWordText htext] at hconv
    obtain rfl := Option.some.inj hconv
    obtain ⟨-, hleast, hgreatest⟩ := htext
    rw [String.length_toList] at hleast hgreatest
    cases c with
    | minLen m =>
      have hfound : Constraint.minLen? g.constraints = some m :=
        findSome?_eq_some_of_mem hc rfl fun c' _ h ↦ by cases c' <;> cases h; rfl
      rw [hfound] at hleast
      exact decide_eq_true (Nat.le_trans (Nat.le_max_right 1 m) hleast)
    | maxLen m =>
      have hfound : Constraint.maxLen? g.constraints = some m :=
        findSome?_eq_some_of_mem hc rfl fun c' _ h ↦ by cases c' <;> cases h; rfl
      exact decide_eq_true (hgreatest m hfound)
    | min m | max m | fallback text | startsWith part | endsWith part | contains part =>
      rcases hkind with hkind | hkind <;> cases hkind

end Group

/-! ### Refusals -/

namespace ValueType

variable {t : ValueType} {cs : List Constraint} {v : Value} {error : ValueError}

/-- Constraints refuse a value for the first of them that does not admit it. -/
theorem foldlM_apply_eq_error {convert : String → Except ValueError Value}
    (h : cs.foldlM (fun v c ↦ c.apply convert v) (some v) = .error error) :
    ∃ c ∈ cs, c.holds v = false ∧ error = .violation c.kind (c.complaint v) := by
  induction cs with
  | nil => cases h
  | cons c cs ih =>
    rw [List.foldlM_cons, Constraint.apply] at h
    split at h
    · obtain ⟨c', hc', hrefused⟩ := ih h
      exact ⟨c', List.mem_cons_of_mem _ hc', hrefused⟩
    · next hnot =>
      refine ⟨c, List.mem_cons_self, Bool.eq_false_iff.mpr hnot, ?_⟩
      exact (Except.error.inj h).symm

/-- A captured text is refused because it denotes no value, or because a constraint does not admit
the value that it denotes. -/
theorem parseValue_some_eq_error (huse : t.UsesConvert) {raw : String}
    (h : t.parseValue (some raw) cs = .error error) :
    t.convert raw = .error error ∨
      ∃ v, t.convert? raw = some v ∧
        ∃ c ∈ cs, c.holds v = false ∧ error = .violation c.kind (c.complaint v) := by
  rw [huse, parseWith] at h
  cases hconv : t.convert raw with
  | error e =>
    rw [hconv] at h
    exact .inl h
  | ok v =>
    refine .inr ⟨v, convert?_eq_some_iff.mpr hconv, ?_⟩
    rw [hconv] at h
    change (cs.foldlM (fun v c ↦ c.apply t.convert v) (some v) >>= _) = _ at h
    cases hall : cs.foldlM (fun v c ↦ c.apply t.convert v) (some v) with
    | ok o =>
      rw [hall, (foldlM_apply_eq_ok.mp hall).1] at h
      cases h
    | error e =>
      rw [hall] at h
      obtain rfl := Except.error.inj h
      exact foldlM_apply_eq_error hall

end ValueType

namespace Group

variable {g : Group} {captured : String → Option String}

/-- Why a captured text is refused: it denotes an integer that does not fit, or a value that some
constraint other than the bounds on lengths does not admit. -/
inductive Refuses (g : Group) (t : String) : ValueError → Prop where
  | tooLarge (hint : g.type = .integer) (ht : ValueType.IsIntegerText none none t.toList)
      (hlarge : Text.signedValue t.toList < Text.integerMin ∨
        Text.integerMax < Text.signedValue t.toList) :
      g.Refuses t (.invalid "int" t)
  | violated {v : Value} {c : Constraint} (hconv : g.type.convert? t = some v)
      (hc : c ∈ g.constraints) (hkind : c.kind ∈ [.min, .max, .startsWith, .endsWith, .contains])
      (hnot : ¬ c.IsMetBy v) : g.Refuses t (.violation c.kind (c.complaint v))

theorem refuses_of_parseValue (hg : g.IsBuiltin) {t : String} (ht : g.Spells t.toList)
    {error : ValueError} (h : g.type.parseValue (some t) g.constraints = .error error) :
    g.Refuses t error := by
  obtain hconv | ⟨v, hconv, c, hc, hnot, rfl⟩ :=
    ValueType.parseValue_some_eq_error hg.usesConvert h
  · rcases ht with ⟨hint, htext⟩ | ⟨hword, htext⟩
    · rw [hint] at hconv
      obtain ⟨hnone, rfl⟩ := ValueType.convert_integer_eq_error_iff.mp hconv
      have htext := htext.unbounded
      exact .tooLarge hint htext ((ValueType.convert?_integer_eq_none_iff htext).mp hnone)
    · have hvalue := ValueType.convert?_eq_some_iff.mp (ValueType.convert?_of_isWordText htext)
      rw [hword, hvalue] at hconv
      cases hconv
  · have hunmet : ¬ c.IsMetBy v := by
      rw [← holds_iff_isMetBy hg hc hconv, hnot]
      exact Bool.false_ne_true
    refine .violated hconv hc ?_ hunmet
    have hlength := fun hkind ↦ (holds_of_spells ht hc hconv hkind).symm.trans hnot
    cases c with
    | min m | max m | startsWith part | endsWith part | contains part =>
      simp [Constraint.kind]
    | minLen m => cases hlength (.inl rfl)
    | maxLen m => cases hlength (.inr rfl)
    | fallback text => cases hnot

end Group

/-! ### Matches -/

namespace Group

/-- Where a value that a match reports of a group comes from: the captured text denotes it and it
meets all constraints, or else the fallback denotes it, whatever the other constraints are. -/
inductive Reports (captured : String → Option String) (g : Group) (v : Value) : Prop where
  | ofCapture {t : String} (ht : captured g.captureName = some t)
      (hconv : g.type.convert? t = some v)
      (hmet : ∀ c ∈ g.constraints, c.IsMetBy v)
  | ofFallback (hnone : captured g.captureName = none) {raw : String}
      (hraw : g.fallback? = some raw)
      (hconv : g.type.convert? raw = some v)

end Group

namespace Compiler

variable {pipeline : Pipeline} {source : String} {p : Pattern} {s : String} {r : MatchResult}

/-- Every value that a match reports is that of a group. A captured one meets all constraints of the
group; one that a fallback supplies is what the fallback denotes. `SPEC_FULL.md:218–220`. -/
theorem reports_of_match? (h : (⟨.builtin, pipeline⟩ : Compiler).compile source = .ok p)
    (hmatch : p.match? s = some r) :
    ∃ captures, p.regex.captures? s = some captures ∧
      ∀ name e, r.groups.get? name = some e →
        ∃ g ∈ p.tree.groups, g.name = name ∧
          g.Reports (Regex.capturedText? captures) e.value := by
  have hp := isDerived_of_compile h
  obtain ⟨-, captures, hcap, hvalues, hothers, -⟩ := Pattern.match?_eq_some hmatch
  refine ⟨captures, hcap, ?_⟩
  intro name e he
  have hname : name ∈ p.tree.groups.map Group.name := by
    by_contra hnot
    rw [hothers name hnot] at he
    cases he
  obtain ⟨g, hg, rfl⟩ := List.mem_map.mp hname
  refine ⟨g, hg, rfl, ?_⟩
  have hvalue : r.values.get? g.name = some e.value := by
    rw [MatchResult.values, Table.get?_map, he]
    rfl
  rw [hvalues g hg] at hvalue
  obtain ⟨e', he', hvalue⟩ := Option.map_eq_some_iff.mp hvalue
  rw [← hvalue]
  cases ht : Regex.capturedText? captures g.captureName with
  | none =>
    obtain ⟨raw, hraw, hconv⟩ := Group.result?_of_uncaptured (hp.builtin g hg).usesConvert ht he'
    exact .ofFallback ht hraw hconv
  | some t =>
    have hne := hp.ne_empty_of_captured hcap hg ht
    rw [Group.result?, Group.outcome?_of_captured ht hne] at he'
    cases hparse : g.type.parseValue (some t) g.constraints with
    | error error =>
      rw [hparse] at he'
      cases he'
    | ok v =>
      rw [hparse] at he'
      obtain rfl := Option.some.inj he'
      obtain ⟨hconv, hall⟩ :=
        (ValueType.parseValue_some_eq_ok (hp.builtin g hg).usesConvert).mp hparse
      exact .ofCapture ht hconv fun c hc ↦
        (Group.holds_iff_isMetBy (hp.builtin g hg) hc hconv).mp (hall c hc)

/-- A value of each kind: the page is captured and the language is supplied. -/
theorem reports_of_match?_page :
    ∃ p r captures, standard.compile "p\x7bid:int(min=1)\x7d(-\x7blang:int(min=0,default=0)\x7d)"
        = .ok p ∧
      p.match? "p5" = some r ∧ p.regex.captures? "p5" = some captures ∧
      ∀ name ∈ ["id", "lang"], ∃ e g, r.groups.get? name = some e ∧ g ∈ p.tree.groups ∧
        g.name = name ∧ g.Reports (Regex.capturedText? captures) e.value := by
  have htest : (standard.compile
      "p\x7bid:int(min=1)\x7d(-\x7blang:int(min=0,default=0)\x7d)").toOption.any
      (fun p ↦ (p.match? "p5").any fun r ↦
        ["id", "lang"].all fun name ↦ (r.groups.get? name).isSome) = true := by
    decide +kernel
  obtain ⟨p, hp, htest⟩ := exists_ok_of_any htest
  obtain ⟨r, hr, htest⟩ := (Option.any_eq_true ..).mp htest
  obtain ⟨captures, hcap, hreports⟩ := reports_of_match? hp hr
  refine ⟨p, r, captures, hp, hr, hcap, ?_⟩
  intro name hname
  obtain ⟨e, he⟩ := Option.isSome_iff_exists.mp (List.all_eq_true.mp htest name hname)
  obtain ⟨g, hg, hg', hreport⟩ := hreports name e he
  exact ⟨e, g, he, hg, hg', hreport⟩

/-- A fallback above the greatest value of its group is reported all the same. -/
theorem exists_value_unmet :
    ∃ p r g e c, standard.compile "a(\x7bn:int(max=9,default=10)\x7d)" = .ok p ∧
      p.match? "a" = some r ∧ g ∈ p.tree.groups ∧ r.groups.get? g.name = some e ∧
      c ∈ g.constraints ∧ ¬ c.IsMetBy e.value := by
  have htest : (standard.compile "a(\x7bn:int(max=9,default=10)\x7d)").toOption.any
      (fun p ↦ (p.match? "a").any fun r ↦ p.tree.groups.any fun g ↦
        (r.groups.get? g.name).any fun e ↦
          g.type.convert? "10" == some e.value && g.constraints.any fun c ↦ !c.holds e.value)
      = true := by
    decide +kernel
  obtain ⟨p, hp, htest⟩ := exists_ok_of_any htest
  obtain ⟨r, hr, htest⟩ := (Option.any_eq_true ..).mp htest
  obtain ⟨g, hg, htest⟩ := List.any_eq_true.mp htest
  obtain ⟨e, he, htest⟩ := (Option.any_eq_true ..).mp htest
  obtain ⟨hconv, htest⟩ := Bool.and_eq_true_iff.mp htest
  obtain ⟨c, hc, hnot⟩ := List.any_eq_true.mp htest
  refine ⟨p, r, g, e, c, hp, hr, hg, he, hc, ?_⟩
  rw [← Group.holds_iff_isMetBy ((isDerived_of_compile hp).builtin g hg) hc (eq_of_beq hconv)]
  simpa using hnot

/-- Every error of a match is about a group that captured a text, and says why that is refused.
`SPEC_FULL.md:155–157`. -/
theorem refuses_of_match? (h : (⟨.builtin, pipeline⟩ : Compiler).compile source = .ok p)
    (hmatch : p.match? s = some r) :
    ∃ captures, p.regex.captures? s = some captures ∧
      ∀ e ∈ r.errors, ∃ g ∈ p.tree.groups, g.name = e.group ∧
        ∃ t, Regex.capturedText? captures g.captureName = some t ∧ t ≠ "" ∧
          g.Refuses t e.error := by
  have hp := isDerived_of_compile h
  obtain ⟨-, captures, hcap, -, -, herrors⟩ := Pattern.match?_eq_some hmatch
  refine ⟨captures, hcap, ?_⟩
  intro e he
  rw [herrors, List.mem_filterMap] at he
  obtain ⟨g, hg, hrefusal⟩ := he
  cases ht : Regex.capturedText? captures g.captureName with
  | none =>
    rw [(Group.accepted_of_uncaptured (hp.builtin g hg).usesConvert ht).1] at hrefusal
    cases hrefusal
  | some t =>
    have hspells := hp.spells_captured hcap hg ht
    have hne := hp.ne_empty_of_captured hcap hg ht
    rw [Group.refusal?, Group.outcome?_of_captured ht hne] at hrefusal
    cases hparse : g.type.parseValue (some t) g.constraints with
    | ok v =>
      rw [hparse] at hrefusal
      cases hrefusal
    | error error =>
      rw [hparse] at hrefusal
      obtain rfl := Option.some.inj hrefusal
      exact ⟨g, hg, rfl, t, ht, hne, Group.refuses_of_parseValue (hp.builtin g hg) hspells hparse⟩

/-- A number below the least value, and one of more than 64 bits. -/
theorem refuses_of_match?_numbers :
    ∃ p r captures, standard.compile "\x7ba:int(min=1)\x7d.\x7bb:int\x7d" = .ok p ∧
      p.match? "0.9223372036854775808" = some r ∧
      p.regex.captures? "0.9223372036854775808" = some captures ∧ r.errors.length = 2 ∧
      ∀ e ∈ r.errors, ∃ g ∈ p.tree.groups, ∃ t,
        Regex.capturedText? captures g.captureName = some t ∧ g.Refuses t e.error := by
  have htest : (standard.compile "\x7ba:int(min=1)\x7d.\x7bb:int\x7d").toOption.any (fun p ↦
      (p.match? "0.9223372036854775808").any fun r ↦ r.errors.length == 2) = true := by
    decide +kernel
  obtain ⟨p, hp, htest⟩ := exists_ok_of_any htest
  obtain ⟨r, hr, hlength⟩ := (Option.any_eq_true ..).mp htest
  obtain ⟨captures, hcap, hrefuses⟩ := refuses_of_match? hp hr
  refine ⟨p, r, captures, hp, hr, hcap, eq_of_beq hlength, ?_⟩
  intro e he
  obtain ⟨g, hg, -, t, ht, -, hrefused⟩ := hrefuses e he
  exact ⟨g, hg, t, ht, hrefused⟩

end Compiler

end UrlPattern
