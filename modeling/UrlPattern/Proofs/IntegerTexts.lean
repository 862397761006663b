import UrlPattern.Proofs.AcceptedRuns
import UrlPattern.Proofs.Satisfiable

/-!
# Texts of integers

A text denotes an integer if it consists of digits, with or without a `-` in front. Two readers and
one writer agree on what such texts mean (`ValueType.integer_texts_agree`): the type of integers
reads those that denote an integer of 64 bits and no others, the reader of constraints reads these
as the same integers, and both read what is written for an integer as that integer.

The reader of constraints takes more texts than the type, since it allows a `+` in front. Whatever
it makes of a parameter is written as a parameter that it reads again (`Constraint.ofRaw_rawValue`).

Specification: `SPEC_FULL.md` §10.3 (lines 196–203).
-/

namespace UrlPattern

namespace Text

/-- The texts of integers, with the integers that they denote. -/
inductive DenotesInteger : List Char → Int → Prop where
  | unsigned {ds : List Char} (hne : ds ≠ []) (hdigits : ∀ c ∈ ds, c.isDigit = true) :
      DenotesInteger ds (Nat.ofDigitChars 10 ds 0)
  | signed {ds : List Char} (hne : ds ≠ []) (hdigits : ∀ c ∈ ds, c.isDigit = true) :
      DenotesInteger ('-' :: ds) (-Nat.ofDigitChars 10 ds 0)

/-- Without bounds, the texts of integers are digits with or without a sign. -/
theorem isIntegerText_none_iff {t : List Char} : ValueType.IsIntegerText none none t ↔
    (t ≠ [] ∧ ∀ c ∈ t, c.isDigit = true) ∨
      ∃ ds, t = '-' :: ds ∧ ds ≠ [] ∧ ∀ c ∈ ds, c.isDigit = true := by
  simp [ValueType.IsIntegerText, ValueType.IsDigits]

theorem denotesInteger_iff {t : List Char} {v : Int} :
    DenotesInteger t v ↔ ValueType.IsIntegerText none none t ∧ signedValue t = v := by
  rw [isIntegerText_none_iff]
  constructor
  · rintro (⟨hne, hdigits⟩ | ⟨hne, hdigits⟩)
    · rw [signedValue_of_isDigit hdigits, ofDigits_eq]
      exact ⟨.inl ⟨hne, hdigits⟩, rfl⟩
    · rw [signedValue, ofDigits_eq]
      exact ⟨.inr ⟨_, rfl, hne, hdigits⟩, rfl⟩
  · rintro ⟨⟨hne, hdigits⟩ | ⟨ds, rfl, hne, hdigits⟩, rfl⟩
    · rw [signedValue_of_isDigit hdigits, ofDigits_eq]
      exact .unsigned hne hdigits
    · rw [signedValue, ofDigits_eq]
      exact .signed hne hdigits

/-- What is written for an integer denotes it. -/
theorem denotesInteger_renderInteger (n : Int64) :
    DenotesInteger (renderInteger n).toList n.toInt :=
  denotesInteger_iff.mpr
    ⟨ValueType.isIntegerText_renderInteger nofun nofun, signedValue_renderInteger n⟩

/-- The text of an integer starts with a digit or the sign. -/
theorem DenotesInteger.head? {t : List Char} {v : Int} (h : DenotesInteger t v) :
    ∃ c, t.head? = some c ∧ (c.isDigit = true ∨ c = '-') := by
  cases h with
  | unsigned hne hdigits =>
    obtain ⟨c, cs, rfl⟩ := List.exists_cons_of_ne_nil hne
    exact ⟨c, rfl, .inl (hdigits c List.mem_cons_self)⟩
  | signed _ _ => exact ⟨'-', rfl, .inr rfl⟩

/-- The reader that allows a `+` reads the texts of integers as the integers that they denote. -/
theorem readInteger_of_denotesInteger {t : List Char} {n : Int64} (h : DenotesInteger t n.toInt) :
    readInteger t = some n := by
  obtain ⟨htext, hvalue⟩ := denotesInteger_iff.mp h
  have hplus : ∀ ds, t ≠ '+' :: ds := by
    rintro ds rfl
    obtain ⟨c, hc, hfirst⟩ := h.head?
    cases hc
    revert hfirst
    decide
  rw [readInteger.eq_2 t hplus, ValueType.readSigned_eq_integerOf htext, hvalue]
  exact integerOf_eq_some_iff.mpr rfl

theorem readInteger_renderInteger (n : Int64) : readInteger (renderInteger n).toList = some n :=
  readInteger_of_denotesInteger (denotesInteger_renderInteger n)

/-- A length is read as what was written for it. -/
theorem readLength_renderNat {n : Nat} (h : n ≤ lengthMax) :
    readLength (renderNat n).toList = some n := by
  have hplus : ∀ ds, natDigits n ≠ '+' :: ds := by
    intro ds hds
    have hdigit : '+'.isDigit = true := isDigit_of_mem_natDigits (hds ▸ List.mem_cons_self)
    cases hdigit
  rw [renderNat, String.toList_ofList, readLength.eq_2 _ hplus, readNatUpTo_eq, readNat_natDigits,
    Option.filter_some, if_pos (decide_eq_true h)]

theorem le_lengthMax_of_readLength {t : List Char} {n : Nat} (h : readLength t = some n) :
    n ≤ lengthMax := by
  have hle : ∀ {ds : List Char}, readNatUpTo lengthMax ds = some n → n ≤ lengthMax := by
    intro ds hds
    rw [readNatUpTo_eq] at hds
    exact of_decide_eq_true (Option.filter_eq_some_iff.mp hds).2
  rw [readLength.eq_def] at h
  split at h
  · exact hle h
  · exact hle h

theorem renderInteger_ne_empty (n : Int64) : renderInteger n ≠ "" := by
  intro hempty
  have hread := readInteger_renderInteger n
  rw [hempty] at hread
  cases hread

theorem renderNat_ne_empty (n : Nat) : renderNat n ≠ "" := fun hempty ↦
  Nat.toDigits_ne_nil (String.ofList_eq_empty_iff.mp hempty)

end Text

namespace Constraint

/-- What a parameter that is not empty must be to be read as a constraint. -/
def ReadsAs (raw : String) : Constraint → Prop
  | min n | max n => Text.readInteger raw.toList = some n
  | minLen n => Text.readLength raw.toList = some n
  | maxLen n => Text.readLength raw.toList = some n ∧ n ≠ 0
  | fallback text | startsWith text | endsWith text | contains text => raw = text

theorem ofRaw_eq_ok_iff {kind : ConstraintKind} {raw : String} {c : Constraint} :
    ofRaw kind raw = .ok c ↔ raw ≠ "" ∧ c.kind = kind ∧ c.ReadsAs raw := by
  by_cases hraw : raw = ""
  · rw [ofRaw.eq_def, if_pos hraw]
    exact iff_of_false (by simp) fun h ↦ h.1 hraw
  · rw [ofRaw.eq_def, if_neg hraw, and_iff_right hraw]
    cases kind with
    | min | max =>
      cases hread : Text.readInteger raw.toList <;> cases c <;>
        simp [Constraint.kind, ReadsAs, hread]
    | minLen =>
      cases hread : Text.readLength raw.toList <;> cases c <;>
        simp [Constraint.kind, ReadsAs, hread]
    | maxLen =>
      rcases hread : Text.readLength raw.toList with _ | _ | m
      · cases c <;> simp [Constraint.kind, ReadsAs, hread]
      · cases c <;> simp [Constraint.kind, ReadsAs, hread, eq_comm]
      · cases c with
        | maxLen n =>
          simp only [Except.ok.injEq, Constraint.maxLen.injEq, ReadsAs, hread, Option.some.injEq]
          exact ⟨fun h ↦ ⟨rfl, h, by omega⟩, fun h ↦ h.2.1⟩
        | _ => simp [Constraint.kind]
    | fallback | startsWith | endsWith | contains =>
      cases c <;> simp [Constraint.kind, ReadsAs]

/-- A parameter that can be read is written as one that is read again. -/
theorem ofRaw_rawValue {kind : ConstraintKind} {raw : String} {c : Constraint}
    (h : ofRaw kind raw = .ok c) : ofRaw kind c.rawValue = .ok c := by
  obtain ⟨hne, hkind, hread⟩ := ofRaw_eq_ok_iff.mp h
  rw [ofRaw_eq_ok_iff]
  cases c with
  | min n | max n =>
    exact ⟨Text.renderInteger_ne_empty n, hkind, Text.readInteger_renderInteger n⟩
  | minLen n =>
    have hfits := Text.le_lengthMax_of_readLength hread
    exact ⟨Text.renderNat_ne_empty n, hkind, Text.readLength_renderNat hfits⟩
  | maxLen n =>
    have hfits := Text.le_lengthMax_of_readLength hread.1
    exact ⟨Text.renderNat_ne_empty n, hkind, Text.readLength_renderNat hfits, hread.2⟩
  | fallback text | startsWith text | endsWith text | contains text =>
    cases hread
    exact ⟨hne, hkind, rfl⟩

end Constraint

namespace ValueType

/-- A text has a value as an integer if it denotes one of 64 bits, which is then the value. -/
theorem convert_integer_eq_ok_iff {raw : String} {v : Value} : integer.convert raw = .ok v ↔
    ∃ n : Int64, Text.DenotesInteger raw.toList n.toInt ∧ v = .int n := by
  rw [← convert?_eq_some_iff]
  constructor
  · intro h
    obtain ⟨n, rfl⟩ := exists_int_of_convert? h
    exact ⟨n, Text.denotesInteger_iff.mpr (convert?_integer_eq_some_iff.mp h), rfl⟩
  · rintro ⟨n, hdenotes, rfl⟩
    exact convert?_integer_eq_some_iff.mpr (Text.denotesInteger_iff.mp hdenotes)

/-- Texts of integers mean the same everywhere. The type of integers gives a text a value exactly if
it denotes an integer of 64 bits, and reads what is written for an integer as that integer. What is
written for a constraint that was read is read as that constraint. A bound on integers is read as
the integer that the type reads. `SPEC_FULL.md:202–203`. -/
theorem integer_texts_agree :
    (∀ raw v, integer.convert raw = .ok v ↔
      ∃ n : Int64, Text.DenotesInteger raw.toList n.toInt ∧ v = .int n) ∧
    (∀ n : Int64, integer.convert (integer.format (.int n)) = .ok (.int n)) ∧
    (∀ kind raw c, Constraint.ofRaw kind raw = .ok c → Constraint.ofRaw kind c.rawValue = .ok c) ∧
    ∀ raw n, integer.convert raw = .ok (.int n) →
      Constraint.ofRaw .min raw = .ok (.min n) ∧ Constraint.ofRaw .max raw = .ok (.max n) := by
  refine ⟨fun _ _ ↦ convert_integer_eq_ok_iff, fun n ↦ ?_,
    fun _ _ _ ↦ Constraint.ofRaw_rawValue, fun raw n hconv ↦ ?_⟩
  · exact convert_integer_eq_ok_iff.mpr ⟨n, Text.denotesInteger_renderInteger n, rfl⟩
  · obtain ⟨m, hdenotes, hm⟩ := convert_integer_eq_ok_iff.mp hconv
    cases hm
    have hread := Text.readInteger_of_denotesInteger hdenotes
    have hne : raw ≠ "" := by
      rintro rfl
      cases hread
    exact ⟨Constraint.ofRaw_eq_ok_iff.mpr ⟨hne, rfl, hread⟩,
      Constraint.ofRaw_eq_ok_iff.mpr ⟨hne, rfl, hread⟩⟩

/-- With a sign and zeros that are not written again. -/
theorem integer_texts_agree_padded :
    Constraint.ofRaw .max "+007" = .ok (.max 7) ∧
      Constraint.ofRaw .max "7" = .ok (.max 7) ∧
      integer.convert "-007" = .ok (.int (-7)) ∧
      Constraint.ofRaw .min "-007" = .ok (.min (-7)) := by
  obtain ⟨-, -, hwritten, hbound⟩ := integer_texts_agree
  have hread : Constraint.ofRaw .max "+007" = .ok (.max 7) := by decide +kernel
  have hconv : integer.convert "-007" = .ok (.int (-7)) := by decide +kernel
  exact ⟨hread, hwritten _ _ _ hread, hconv, (hbound _ _ hconv).1⟩

end ValueType

end UrlPattern
