import Mathlib.Algebra.GroupWithZero.Nat
import Mathlib.Algebra.Order.BigOperators.Group.List
import Mathlib.Algebra.Order.Group.Nat
import UrlPattern.CommandLine
import UrlPattern.Proofs.AcceptedRuns
import UrlPattern.Proofs.GeneratedText

/-!
# Arguments as typed

The program reads a value that looks like an integer as one, whatever the type of the group that it
is meant for, and writes it with the digits of its number. A word of digits is printed as typed, as
its digits are those of its number, unless a zero in front of others or a sign in front of a zero
gets lost (`CommandLine.respells`). So the program prints what a pattern generates of the typed
words exactly if no word that counts is respelled (`CommandLine.generate_arguments`).

That respelling changes the text, whatever else the text holds, is shown by its length: for two
bindings of the same names the texts of a tree differ in length as the values of its groups do
(`Node.generate_differsAs`).

Specification: `SPEC_FULL.md` §10.10 (lines 283–294).
-/

namespace UrlPattern

/-! ### Digits read and written again -/

namespace Text

theorem digitChar_digitValue {c : Char} (h : c.isDigit = true) : (digitValue c).digitChar = c := by
  have hnine := digitValue_le h
  simp only [Char.isDigit, Bool.and_eq_true, decide_eq_true_eq, UInt32.le_iff_toNat_le] at h
  have hzero : '0'.toNat = 48 := rfl
  have hleast : 48 ≤ c.toNat := h.1
  rw [← Char.toNat_inj, Nat.toNat_digitChar_of_lt_ten (by omega), digitValue]
  omega

/-- Digits behind those of a positive number are the last ones of the number together with it. -/
theorem natDigits_foldl {ds : List Char} (hdigits : ∀ c ∈ ds, c.isDigit = true) {n : Nat}
    (hn : 0 < n) :
    natDigits (ds.foldl (fun n c ↦ 10 * n + digitValue c) n) = natDigits n ++ ds := by
  induction ds generalizing n with
  | nil => exact (List.append_nil _).symm
  | cons c ds ih =>
    obtain ⟨hc, hds⟩ := List.forall_mem_cons.mp hdigits
    have hvalue : digitValue c < 10 := Nat.lt_succ_of_le (digitValue_le hc)
    have hstep : natDigits (10 * n + digitValue c) = natDigits n ++ [c] := by
      rw [natDigits, natDigits, ← Nat.toDigits_append_toDigits (by omega) hn hvalue,
        Nat.toDigits_of_lt_base hvalue, digitChar_digitValue hc]
    rw [List.foldl_cons, ih hds (by omega), hstep, List.append_assoc, List.singleton_append]

/-- Digits without a zero in front of others are those of the number that they denote. -/
theorem natDigits_ofDigits {ds : List Char} (hne : ds ≠ []) (hdigits : ∀ c ∈ ds, c.isDigit = true)
    (hfront : ds.head? = some '0' → ds = ['0']) : natDigits (ofDigits ds) = ds := by
  obtain ⟨c, ds, rfl⟩ := List.exists_cons_of_ne_nil hne
  obtain ⟨hc, hds⟩ := List.forall_mem_cons.mp hdigits
  by_cases hzero : c = '0'
  · rw [hfront (congrArg some hzero)]
    exact Nat.toDigits_zero 10
  · have hvalue : digitValue c < 10 := Nat.lt_succ_of_le (digitValue_le hc)
    rw [ofDigits, List.foldl_cons, Nat.mul_zero, Nat.zero_add,
      natDigits_foldl hds (digitValue_pos hc hzero), natDigits, Nat.toDigits_of_lt_base hvalue,
      digitChar_digitValue hc, List.singleton_append]

/-- A number has no more digits than any digits that denote it. -/
theorem length_natDigits_ofDigits_le {ds : List Char} (hne : ds ≠ [])
    (hdigits : ∀ c ∈ ds, c.isDigit = true) : (natDigits (ofDigits ds)).length ≤ ds.length :=
  (Nat.length_toDigits_le_iff (by omega) (List.length_pos_iff.mpr hne)).mpr (ofDigits_lt hdigits)

/-- It has fewer if there is a zero in front of others. -/
theorem length_natDigits_ofDigits_lt {ds : List Char} (hdigits : ∀ c ∈ ds, c.isDigit = true)
    (hfront : ds.head? = some '0') (hne : ds ≠ ['0']) :
    (natDigits (ofDigits ds)).length < ds.length := by
  obtain ⟨others, rfl⟩ := List.head?_eq_some_iff.mp hfront
  have hothers : others ≠ [] := fun h ↦ hne (congrArg _ h)
  have hzero : ofDigits ('0' :: others) = ofDigits others := by
    rw [ofDigits_cons]
    exact Nat.zero_add _
  rw [hzero]
  exact Nat.lt_succ_of_le
    (length_natDigits_ofDigits_le hothers fun c hc ↦ hdigits c (List.mem_cons_of_mem _ hc))

/-- Whether the digits behind an optional sign have a zero in front that is not written: one in
front of others, or one behind a sign. -/
def isPadded : List Char → Bool
  | '-' :: ds => ds.head? == some '0'
  | ds => ds.head? == some '0' && ds ≠ ['0']

variable {t : List Char} {n : Int64}

/-- The sign and the digits of what reads as an integer. -/
theorem readSigned_cases (h : readSigned t = some n) :
    (t ≠ [] ∧ (∀ c ∈ t, c.isDigit = true) ∧ n.toInt = ofDigits t ∧
      isPadded t = (t.head? == some '0' && t ≠ ['0'])) ∨
    ∃ ds, t = '-' :: ds ∧ ds ≠ [] ∧ (∀ c ∈ ds, c.isDigit = true) ∧ n.toInt = -ofDigits ds := by
  have htext := ValueType.isIntegerText_of_readSigned h
  rw [ValueType.readSigned_eq_integerOf htext, integerOf_eq_some_iff] at h
  rcases htext with ⟨hne, hdigits, -⟩ | ⟨ds, rfl, -, hne, hdigits, -⟩
  · have hsign : ∀ ds, t ≠ '-' :: ds := by
      rintro ds rfl
      have hdigit := hdigits '-' List.mem_cons_self
      cases hdigit
    refine .inl ⟨hne, hdigits, ?_, isPadded.eq_2 t hsign⟩
    rw [← h, signedValue.eq_2 t hsign]
  · exact .inr ⟨ds, rfl, hne, hdigits, h.symm⟩

/-- What reads as an integer is what is written for it, unless it is padded. -/
theorem renderInteger_of_readSigned (h : readSigned t = some n) (hpadded : isPadded t = false) :
    renderInteger n = String.ofList t := by
  rcases readSigned_cases h with ⟨hne, hdigits, hvalue, heq⟩ | ⟨ds, rfl, hne, hdigits, hvalue⟩
  · have hfront : t.head? = some '0' → t = ['0'] := by
      intro hzero
      rw [heq, hzero] at hpadded
      simpa using hpadded
    rw [renderInteger, if_neg (by omega), hvalue, Int.natAbs_natCast, renderNat,
      natDigits_ofDigits hne hdigits hfront]
  · have hfront : ds.head? ≠ some '0' := by simpa [isPadded] using hpadded
    have hdigitsOf := natDigits_ofDigits hne hdigits fun hzero ↦ absurd hzero hfront
    -- Only zero itself is written with a zero in front.
    have hpos : ofDigits ds ≠ 0 := by
      intro hzero
      rw [hzero] at hdigitsOf
      exact hfront (hdigitsOf ▸ rfl)
    rw [renderInteger, if_pos (by omega), hvalue, Int.natAbs_neg, Int.natAbs_natCast, hdigitsOf]

/-- What is written for an integer is shorter than a padded text of it. -/
theorem length_renderInteger_lt (h : readSigned t = some n) (hpadded : isPadded t = true) :
    (renderInteger n).length < t.length := by
  rcases readSigned_cases h with ⟨hne, hdigits, hvalue, heq⟩ | ⟨ds, rfl, hne, hdigits, hvalue⟩
  · rw [heq, Bool.and_eq_true, beq_iff_eq, decide_eq_true_eq] at hpadded
    rw [renderInteger, if_neg (by omega), hvalue, Int.natAbs_natCast, renderNat,
      String.length_ofList]
    exact length_natDigits_ofDigits_lt hdigits hpadded.1 hpadded.2
  · have hfront : ds.head? = some '0' := eq_of_beq hpadded
    have hlength := List.length_pos_iff.mpr hne
    rw [renderInteger, hvalue, Int.natAbs_neg, Int.natAbs_natCast, List.length_cons]
    split
    · next hneg =>
      have hzero : ds ≠ ['0'] := by
        rintro rfl
        exact absurd hneg (by decide)
      rw [String.length_ofList, List.length_cons]
      exact Nat.succ_lt_succ (length_natDigits_ofDigits_lt hdigits hfront hzero)
    · next hneg =>
      have hnone : ofDigits ds = 0 := by omega
      rw [hnone]
      exact Nat.succ_lt_succ hlength

end Text

/-! ### Lengths of texts of a tree -/

/-- The texts of two bindings differ in length as two numbers do, or both lack the same value. -/
inductive DiffersAs (k k' : Nat) : (x x' : Except GenerateError String) → Prop
  | text {t t' : String} (h : t.length + k' = t'.length + k) : DiffersAs k k' (.ok t) (.ok t')
  | lacking (e : GenerateError) : DiffersAs k k' (.error e) (.error e)

theorem DiffersAs.eq_error {k k' : Nat} {e : GenerateError} {x : Except GenerateError String}
    (h : DiffersAs k k' (.error e) x) : x = .error e := by
  cases h
  rfl

theorem DiffersAs.exists_ok {k k' : Nat} {t : String} {x : Except GenerateError String}
    (h : DiffersAs k k' (.ok t) x) : ∃ t', x = .ok t' ∧ t.length + k' = t'.length + k := by
  cases h with
  | text h => exact ⟨_, rfl, h⟩

theorem DiffersAs.append {k k' l l' : Nat} {x x' y y' : Except GenerateError String}
    (hx : DiffersAs k k' x x') (hy : DiffersAs l l' y y') :
    DiffersAs (k + l) (k' + l')
      (do let first ← x; let others ← y; return first ++ others)
      (do let first ← x'; let others ← y'; return first ++ others) := by
  cases hx with
  | lacking e => exact .lacking e
  | text hx =>
    cases hy with
    | lacking e => exact .lacking e
    | text hy =>
      refine .text ?_
      rw [String.length_append, String.length_append]
      omega

namespace Group

/-- The length of what is written as the value of a group, if it has one. -/
def valueLength (values : Bindings) (g : Group) : Nat :=
  ((values.get? g.name).map fun v ↦ (g.type.format v).length).getD 0

/-- The length of what is written as the values of several groups. -/
def valuesLength (values : Bindings) (gs : List Group) : Nat := (gs.map (valueLength values)).sum

theorem valuesLength_append (values : Bindings) (gs gs' : List Group) :
    valuesLength values (gs ++ gs') = valuesLength values gs + valuesLength values gs' := by
  rw [valuesLength, List.map_append, List.sum_append, valuesLength, valuesLength]

/-- Groups without values add nothing. -/
theorem valuesLength_eq_zero {values : Bindings} {gs : List Group}
    (h : ∀ g ∈ gs, values.contains g.name = false) : valuesLength values gs = 0 := by
  apply List.sum_eq_zero
  intro length hlength
  obtain ⟨g, hg, rfl⟩ := List.mem_map.mp hlength
  have hnone := h g hg
  rw [Table.contains, Option.isSome_eq_false_iff, Option.isNone_iff_eq_none] at hnone
  rw [valueLength, hnone]
  rfl

end Group

namespace Node

variable {values values' : Bindings}

mutual

/-- If the same groups have values, the texts of a tree differ in length as the values do. -/
theorem generate_differsAs (n : Node)
    (h : ∀ g ∈ n.groups, values.contains g.name = values'.contains g.name) :
    DiffersAs (Group.valuesLength values n.groups) (Group.valuesLength values' n.groups)
      (n.generate values) (n.generate values') := by
  match n with
  | literal text tag => exact .text rfl
  | group g =>
    have hsame := h g List.mem_cons_self
    rw [Table.contains, Table.contains] at hsame
    simp only [groups, Group.valuesLength, List.map_singleton, List.sum_singleton, generate,
      Group.generate, Group.valueLength]
    cases hv : values.get? g.name with
    | none =>
      rw [hv] at hsame
      rw [Option.not_isSome_iff_eq_none.mp (ne_true_of_eq_false hsame.symm)]
      cases g.fallback? with
      | none => exact .lacking _
      | some text => exact .text rfl
    | some v =>
      rw [hv] at hsame
      obtain ⟨v', hv'⟩ := Option.isSome_iff_exists.mp hsame.symm
      rw [hv']
      exact .text (Nat.add_comm _ _)
  | sequence children tag => exact generateAll_differsAs children h
  | optional children tag =>
    rw [generate, generate, ← anyBindsSome_congr h]
    by_cases hsome : anyBindsSome values children = true
    · rw [if_pos hsome, if_pos hsome]
      exact generateAll_differsAs children h
    · -- A section that is left out has no values.
      have hnone := anyBindsSome_eq_false_iff.mp (Bool.eq_false_iff.mpr hsome)
      have hnone' : ∀ g ∈ groupsOf children, values'.contains g.name = false := fun g hg ↦
        (h g hg).symm.trans (hnone g hg)
      rw [if_neg hsome, if_neg hsome, groups, Group.valuesLength_eq_zero hnone,
        Group.valuesLength_eq_zero hnone']
      exact .text rfl

theorem generateAll_differsAs (ns : List Node)
    (h : ∀ g ∈ groupsOf ns, values.contains g.name = values'.contains g.name) :
    DiffersAs (Group.valuesLength values (groupsOf ns)) (Group.valuesLength values' (groupsOf ns))
      (generateAll values ns) (generateAll values' ns) := by
  match ns with
  | [] => exact .text rfl
  | n :: ns =>
    obtain ⟨hn, hns⟩ := List.forall_mem_append.mp h
    rw [groupsOf, Group.valuesLength_append, Group.valuesLength_append]
    exact (generate_differsAs n hn).append (generateAll_differsAs ns hns)

end

end Node

/-! ### Words among the arguments -/

/-- Whether a name is that of a group of words. -/
def Pattern.hasWord (p : Pattern) (name : String) : Bool :=
  p.tree.groups.any fun g ↦ g.name = name ∧ g.type.name = ValueType.word.name

namespace CommandLine

/-- An argument that gives a value to a name. -/
def argument (given : String × String) : String := given.1 ++ "=" ++ given.2

/-- The value that an argument gives to a name, if words are taken as typed. -/
def typedValue (p : Pattern) (name raw : String) : Value :=
  if p.hasWord name then .text raw else readValue raw

/-- The values that arguments give to names, if words are taken as typed. -/
def typedValues (p : Pattern) (given : List (String × String)) : Bindings :=
  .ofList (given.map fun e ↦ (e.1, typedValue p e.1 e.2))

/-- The values that arguments give to names as the program reads them. -/
def readValues (given : List (String × String)) : Bindings :=
  .ofList (given.map fun e ↦ (e.1, readValue e.2))

/-- Whether a word is printed otherwise than typed: as the digits of a number that has fewer. -/
def respells (raw : String) : Bool :=
  Text.isPadded raw.toList && (Text.readInteger raw.toList).isSome

/-- What is printed of a generated text. -/
def printed : Except GenerateError String → Outcome
  | .ok text => succeed [text]
  | .error e => failAfter [] e.message

theorem readBinding_argument {given : String × String} (h : '=' ∉ given.1.toList) :
    readBinding (argument given) = .ok (given.1, readValue given.2) := by
  have hkey : ∀ c ∈ given.1.toList, decide (c ≠ '=') = true := by
    rintro c hc
    exact decide_eq_true fun heq ↦ h (heq ▸ hc)
  have htext : (argument given).toList = given.1.toList ++ '=' :: given.2.toList := by
    rw [argument, String.toList_append, String.toList_append, List.append_assoc]
    rfl
  rw [readBinding]
  simp only [htext]
  rw [List.dropWhile_append_of_pos hkey, List.takeWhile_append_of_pos hkey]
  simp

/-- The program reads all arguments that give values to names. -/
theorem mapM_readBinding {given : List (String × String)} (h : ∀ e ∈ given, '=' ∉ e.1.toList) :
    (given.map argument).mapM readBinding = .ok (given.map fun e ↦ (e.1, readValue e.2)) := by
  induction given with
  | nil => rfl
  | cons e given ih =>
    obtain ⟨he, hgiven⟩ := List.forall_mem_cons.mp h
    rw [List.map_cons, List.mapM_cons, readBinding_argument he, ih hgiven]
    rfl

/-- The program generates a text of the values that it reads. -/
theorem generate_eq_printed {source : String} {p : Pattern}
    (h : Compiler.standard.compile source = .ok p) {given : List (String × String)}
    (hkeys : ∀ e ∈ given, '=' ∉ e.1.toList) :
    generate source (given.map argument) = printed (p.generate (readValues given)) := by
  rw [generate, withPattern, h]
  simp only [mapM_readBinding hkeys]
  rfl

variable {raw : String}

/-- A word has no sign `+` in front. -/
theorem readInteger_of_word (hword : (ValueType.word.convert? raw).isSome) :
    Text.readInteger raw.toList = Text.readSigned raw.toList := by
  obtain ⟨v, hv⟩ := Option.isSome_iff_exists.mp hword
  obtain ⟨⟨-, hchars⟩, -⟩ := ValueType.convert?_word_eq_some_iff.mp hv
  refine Text.readInteger.eq_2 _ fun ds heq ↦ ?_
  rw [heq, List.all_cons] at hchars
  cases hchars

/-- A word that is not respelled is printed as typed. -/
theorem render_readValue (hword : (ValueType.word.convert? raw).isSome)
    (h : respells raw = false) : (readValue raw).render = raw := by
  rw [readValue]
  cases hread : Text.readInteger raw.toList with
  | none => rfl
  | some n =>
    rw [respells, hread, Option.isSome_some, Bool.and_true] at h
    rw [readInteger_of_word hword] at hread
    exact (Text.renderInteger_of_readSigned hread h).trans String.ofList_toList

/-- A respelled word is printed with fewer characters. -/
theorem length_render_readValue_lt (hword : (ValueType.word.convert? raw).isSome)
    (h : respells raw = true) : (readValue raw).render.length < raw.length := by
  obtain ⟨hpadded, hsome⟩ := Bool.and_eq_true_iff.mp h
  obtain ⟨n, hread⟩ := Option.isSome_iff_exists.mp hsome
  rw [readValue, hread]
  rw [readInteger_of_word hword] at hread
  exact Text.length_renderInteger_lt hread hpadded

/-- A word is never printed with more characters. -/
theorem length_render_readValue_le (hword : (ValueType.word.convert? raw).isSome) :
    (readValue raw).render.length ≤ raw.length := by
  cases h : respells raw with
  | true => exact Nat.le_of_lt (length_render_readValue_lt hword h)
  | false => rw [render_readValue hword h]

/-! ### What was typed and what is printed -/

section Typed

variable {p : Pattern} {given : List (String × String)} {name : String}

theorem get?_typedValues :
    (typedValues p given).get? name = ((Table.ofList given).get? name).map (typedValue p name) :=
  Table.get?_ofList_map (typedValue p) given name

theorem get?_readValues :
    (readValues given).get? name = ((Table.ofList given).get? name).map readValue :=
  Table.get?_ofList_map (fun _ ↦ readValue) given name

/-- What the program reads is printed as what was typed, unless it respells a word. -/
theorem render_readValue_eq_typed
    (hword : p.hasWord name = true → (ValueType.word.convert? raw).isSome)
    (h : p.hasWord name = true → respells raw = false) :
    (readValue raw).render = (typedValue p name raw).render := by
  rw [typedValue]
  split
  · next hname => exact render_readValue (hword hname) (h hname)
  · rfl

/-- What the program reads is never printed with more characters than what was typed. -/
theorem length_render_readValue_le_typed
    (hword : p.hasWord name = true → (ValueType.word.convert? raw).isSome) :
    (readValue raw).render.length ≤ (typedValue p name raw).render.length := by
  rw [typedValue]
  split
  · next hname => exact length_render_readValue_le (hword hname)
  · exact Nat.le_refl _

variable (hwords : ∀ name raw, (Table.ofList given).get? name = some raw →
    p.hasWord name = true → (ValueType.word.convert? raw).isSome)
  (hformat : ∀ g ∈ p.tree.groups, g.type.format = Value.render)

include hwords hformat

/-- Without respelled words the same text is generated of what was typed and of what is read. -/
theorem generate_readValues_eq (h : ∀ name raw, (Table.ofList given).get? name = some raw →
      p.hasWord name = true → respells raw = false) :
    p.generate (readValues given) = p.generate (typedValues p given) := by
  apply Node.generate_congr_format
  intro g hg
  rw [get?_readValues, get?_typedValues, hformat g hg]
  cases hcounts : (Table.ofList given).get? g.name with
  | none => rfl
  | some raw =>
    have hword := hwords g.name raw hcounts
    exact congrArg some (render_readValue_eq_typed hword (h g.name raw hcounts))

/-- Respelled words make the values of the groups shorter. -/
theorem valuesLength_lt {raw : String} (hcounts : (Table.ofList given).get? name = some raw)
    (hname : p.hasWord name = true) (h : respells raw = true) :
    Group.valuesLength (readValues given) p.tree.groups
      < Group.valuesLength (typedValues p given) p.tree.groups := by
  have hvalue : ∀ {g raw}, g ∈ p.tree.groups → (Table.ofList given).get? g.name = some raw →
      Group.valueLength (readValues given) g = (readValue raw).render.length ∧
        Group.valueLength (typedValues p given) g = (typedValue p g.name raw).render.length := by
    intro g raw hg hcounts
    rw [Group.valueLength, Group.valueLength, get?_readValues, get?_typedValues, hcounts,
      hformat g hg]
    exact ⟨rfl, rfl⟩
  obtain ⟨g, hg, htest⟩ := List.any_eq_true.mp hname
  obtain ⟨rfl, -⟩ := of_decide_eq_true htest
  apply List.sum_lt_sum
  · intro g hg
    cases hgiven : (Table.ofList given).get? g.name with
    | none =>
      rw [Group.valueLength, get?_readValues, hgiven]
      exact Nat.zero_le _
    | some raw =>
      obtain ⟨hread, htyped⟩ := hvalue hg hgiven
      rw [hread, htyped]
      exact length_render_readValue_le_typed (hwords g.name raw hgiven)
  · obtain ⟨hread, htyped⟩ := hvalue hg hcounts
    refine ⟨g, hg, ?_⟩
    rw [hread, htyped, typedValue, if_pos hname]
    exact length_render_readValue_lt (hwords g.name raw hcounts hname) h

end Typed

/-- The program fails as a pattern does that is given the words as typed. Where the pattern
generates a text of them, the program prints one, and it prints this text exactly if none of the
words that count is respelled. -/
theorem generate_arguments {source : String} {p : Pattern}
    (h : Compiler.standard.compile source = .ok p) {given : List (String × String)}
    (hkeys : ∀ e ∈ given, '=' ∉ e.1.toList)
    (hwords : ∀ e ∈ given, p.hasWord e.1 = true → (ValueType.word.convert? e.2).isSome) :
    let outcome := generate source (given.map argument)
    (∀ e, p.generate (typedValues p given) = .error e → outcome = failAfter [] e.message) ∧
      ∀ text, p.generate (typedValues p given) = .ok text →
        ∃ text', outcome = succeed [text'] ∧
          (text' = text ↔ ∀ name raw, (Table.ofList given).get? name = some raw →
            p.hasWord name = true → respells raw = false) := by
  intro outcome
  have hcounting : ∀ name raw, (Table.ofList given).get? name = some raw →
      p.hasWord name = true → (ValueType.word.convert? raw).isSome := by
    intro name raw hcounts
    exact hwords (name, raw) (Table.mem_of_get?_ofList hcounts)
  have hformat : ∀ g ∈ p.tree.groups, g.type.format = Value.render := by
    intro g hg
    rcases (Compiler.isDerived_of_compile h).builtin g hg with htype | htype <;> rw [htype] <;> rfl
  have hsame : ∀ g ∈ p.tree.groups,
      (typedValues p given).contains g.name = (readValues given).contains g.name := by
    intro g _
    rw [Table.contains, Table.contains, get?_typedValues, get?_readValues, Option.isSome_map,
      Option.isSome_map]
  have houtcome : outcome = printed (p.generate (readValues given)) := generate_eq_printed h hkeys
  have hdiffers : DiffersAs _ _ (p.generate (typedValues p given))
      (p.generate (readValues given)) := p.tree.generate_differsAs hsame
  constructor
  · intro e he
    rw [he] at hdiffers
    rw [houtcome, hdiffers.eq_error, printed]
  · intro text htext
    rw [htext] at hdiffers
    obtain ⟨text', htext', hlength⟩ := hdiffers.exists_ok
    refine ⟨text', by rw [houtcome, htext', printed], ?_, ?_⟩
    · -- A respelled word leaves the text shorter, whatever else was typed.
      rintro rfl name raw hcounts hname
      rw [← Bool.not_eq_true]
      intro hrespells
      have hless := valuesLength_lt hcounting hformat hcounts hname hrespells
      omega
    · intro hnone
      rw [generate_readValues_eq hcounting hformat hnone, htext] at htext'
      exact (Except.ok.inj htext').symm

/-- A word with a hyphen and a zero are printed as typed; of the integer the zeros in front are lost
on both sides. -/
theorem generate_arguments_hyphen :
    ∃ p, Compiler.standard.compile "\x7bs:string\x7d/\x7bn:int\x7d(x\x7bt:string\x7d)" = .ok p ∧
      p.generate (typedValues p [("s", "4-2"), ("n", "007"), ("t", "0")]) = .ok "4-2/7x0" ∧
      generate "\x7bs:string\x7d/\x7bn:int\x7d(x\x7bt:string\x7d)" ["s=4-2", "n=007", "t=0"]
        = succeed ["4-2/7x0"] := by
  let given : List (String × String) := [("s", "4-2"), ("n", "007"), ("t", "0")]
  have htest : (Compiler.standard.compile "\x7bs:string\x7d/\x7bn:int\x7d(x\x7bt:string\x7d)"
      ).toOption.any (fun p ↦ p.generate (typedValues p given) == .ok "4-2/7x0" &&
        given.all fun e ↦ !p.hasWord e.1 ||
          ((ValueType.word.convert? e.2).isSome && !respells e.2)) = true := by
    decide +kernel
  obtain ⟨p, hp, htest⟩ := exists_ok_of_any htest
  simp only [Bool.and_eq_true, beq_iff_eq, List.all_eq_true, Bool.or_eq_true, Bool.not_eq_true',
    ← Bool.not_eq_true] at htest
  obtain ⟨htyped, hgiven⟩ := htest
  have hkeys : ∀ e ∈ given, '=' ∉ e.1.toList := by decide
  have hwords : ∀ e ∈ given, p.hasWord e.1 = true → (ValueType.word.convert? e.2).isSome :=
    fun e he hname ↦ ((hgiven e he).resolve_left (not_not_intro hname)).1
  obtain ⟨-, hprinted⟩ := generate_arguments hp hkeys hwords
  obtain ⟨text, houtcome, htext⟩ := hprinted "4-2/7x0" htyped
  have hnone : ∀ name raw, (Table.ofList given).get? name = some raw → p.hasWord name = true →
      respells raw = false := by
    intro name raw hcounts hname
    have hmem : (name, raw) ∈ given := Table.mem_of_get?_ofList hcounts
    exact Bool.eq_false_iff.mpr ((hgiven _ hmem).resolve_left (not_not_intro hname)).2
  rw [htext.mpr hnone] at houtcome
  exact ⟨p, hp, htyped, houtcome⟩

/-- The digits of a word are printed without the zeros in front. -/
theorem exists_generate_respelled :
    ∃ p, Compiler.standard.compile "\x7bs:string\x7d" = .ok p ∧ p.hasWord "s" = true ∧
      ValueType.word.convert? "007" = some (.text "007") ∧
      p.generate (typedValues p [("s", "007")]) = .ok "007" ∧
      generate "\x7bs:string\x7d" ["s=007"] = succeed ["7"] := by
  have htest : (Compiler.standard.compile "\x7bs:string\x7d").toOption.any (fun p ↦
      p.hasWord "s" && (p.generate (typedValues p [("s", "007")]) == .ok "007" &&
        generate "\x7bs:string\x7d" ["s=007"] == succeed ["7"])) = true := by
    decide +kernel
  obtain ⟨p, hp, htest⟩ := exists_ok_of_any htest
  simp only [Bool.and_eq_true, beq_iff_eq] at htest
  obtain ⟨hname, htyped, hprinted⟩ := htest
  exact ⟨p, hp, hname, by decide, htyped, hprinted⟩

end CommandLine

end UrlPattern
