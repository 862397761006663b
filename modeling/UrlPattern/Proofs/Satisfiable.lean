import UrlPattern.Proofs.AcceptedTexts
import UrlPattern.Proofs.WholeMatch

/-!
# Constraints that can be met

Whether some text meets the constraints of a group. For integers there always is one, as the bounds
are compared when they are read. For words only the bounds on the length are compared with each
other: a required beginning, end or part may hold characters that stand in no word, and the three
may not have room together. They can be met exactly if they consist of characters of words and can
stand in one text of an allowed length, where they may overlap if they agree there (`AreFeasible`).

Specification: `SPEC_FULL.md` §10.2 (lines 133–160).
-/

namespace UrlPattern

/-! ### Parts of a text -/

namespace Text

/-- A part that is to stand in a text from a place on. -/
structure PlacedPart where
  start : Nat
  text : List Char

namespace PlacedPart

variable {p : PlacedPart} {text t : List Char} {k n : Nat} {c : Char}

/-- The character that the part has at a place of the text. -/
def char? (p : PlacedPart) (k : Nat) : Option Char :=
  if p.start ≤ k then p.text[k - p.start]? else none

/-- The part stands in a text. -/
def StandsIn (p : PlacedPart) (t : List Char) : Prop :=
  p.start ≤ t.length ∧ p.text <+: t.drop p.start

theorem char?_eq_some_iff :
    p.char? k = some c ↔ ∃ i, k = p.start + i ∧ p.text[i]? = some c := by
  rw [char?]
  constructor
  · intro h
    obtain ⟨hle, hchar⟩ := Option.ite_none_right_eq_some.mp h
    exact ⟨k - p.start, by omega, hchar⟩
  · rintro ⟨i, rfl, hchar⟩
    rw [if_pos (Nat.le_add_right _ _), Nat.add_sub_cancel_left]
    exact hchar

/-- Where a part stands, the text has its characters. -/
theorem standsIn_iff :
    p.StandsIn t ↔ p.start + p.text.length ≤ t.length ∧
      ∀ k, ∀ c ∈ p.char? k, t[k]? = some c := by
  constructor
  · rintro ⟨hstart, hprefix⟩
    have hlength := hprefix.length_le
    rw [List.length_drop] at hlength
    refine ⟨by omega, fun k c hc ↦ ?_⟩
    obtain ⟨i, rfl, hi⟩ := char?_eq_some_iff.mp hc
    obtain ⟨hlt, rfl⟩ := List.getElem?_eq_some_iff.mp hi
    rw [← List.getElem?_drop]
    exact List.prefix_iff_getElem?.mp hprefix i hlt
  · rintro ⟨hroom, hchars⟩
    refine ⟨by omega, List.prefix_iff_getElem?.mpr fun i hi ↦ ?_⟩
    rw [List.getElem?_drop]
    exact hchars _ _ (char?_eq_some_iff.mpr ⟨i, rfl, List.getElem?_eq_getElem hi⟩)

/-- A part that stands at the start of a text is a beginning of it. -/
theorem standsIn_start_iff : StandsIn ⟨0, text⟩ t ↔ text <+: t := by
  simp [StandsIn]

/-- A part that stands before the end of a text is an end of it. -/
theorem standsIn_end_iff : StandsIn ⟨t.length - text.length, text⟩ t ↔ text <:+ t := by
  rw [StandsIn, and_iff_right (Nat.sub_le _ _), List.suffix_iff_eq_drop]
  refine ⟨fun h ↦ ?_, fun h ↦ ⟨[], by rw [List.append_nil]; exact h⟩⟩
  have hlength : text.length ≤ (t.drop (t.length - text.length)).length := h.length_le
  apply h.eq_of_length
  rw [List.length_drop] at hlength
  change text.length = (t.drop (t.length - text.length)).length
  rw [List.length_drop]
  omega

/-- A part of a text stands somewhere in it. -/
theorem exists_standsIn_iff : (∃ start, StandsIn ⟨start, text⟩ t) ↔ text <:+: t := by
  constructor
  · rintro ⟨start, -, hprefix⟩
    exact hprefix.isInfix.trans (List.drop_suffix start t).isInfix
  · rintro ⟨front, back, rfl⟩
    exact ⟨front.length, by simp, by simp⟩

end PlacedPart

/-- Parts can stand together in a text of this length: they have room, and they agree where they
overlap. -/
structure CanStand (n : Nat) (parts : List PlacedPart) : Prop where
  room : ∀ p ∈ parts, p.start + p.text.length ≤ n
  agree : ∀ p ∈ parts, ∀ q ∈ parts, ∀ k < n, ∀ c ∈ p.char? k, ∀ d ∈ q.char? k, c = d

/-- Characters are compared where two parts overlap, rather than tried one by one. -/
instance (n : Nat) (parts : List PlacedPart) : Decidable (CanStand n parts) :=
  decidable_of_iff
    ((∀ p ∈ parts, p.start + p.text.length ≤ n) ∧ ∀ p ∈ parts, ∀ q ∈ parts, ∀ k < n,
      ((p.char? k).all fun c ↦ (q.char? k).all fun d ↦ c = d) = true)
    (by
      simp only [Option.all_eq_true, decide_eq_true_eq]
      exact ⟨fun h ↦ ⟨h.1, h.2⟩, fun h ↦ ⟨h.room, h.agree⟩⟩)

/-- The text of a length with these parts, and with one character wherever no part stands. -/
def fill (parts : List PlacedPart) (filler : Char) (n : Nat) : List Char :=
  (List.range n).map fun k ↦ (parts.findSome? (·.char? k)).getD filler

theorem mem_fill {parts : List PlacedPart} {filler c : Char} {n : Nat}
    (h : c ∈ fill parts filler n) : c = filler ∨ ∃ p ∈ parts, c ∈ p.text := by
  obtain ⟨k, -, rfl⟩ := List.mem_map.mp h
  cases hfind : parts.findSome? (·.char? k) with
  | none => exact .inl rfl
  | some c =>
    obtain ⟨p, hp, hchar⟩ := List.exists_of_findSome?_eq_some hfind
    obtain ⟨i, -, hi⟩ := PlacedPart.char?_eq_some_iff.mp hchar
    exact .inr ⟨p, hp, List.mem_of_getElem? hi⟩

/-- Of parts that can stand together each one stands in their text. -/
theorem CanStand.standsIn_fill {parts : List PlacedPart} {n : Nat} (h : CanStand n parts)
    (filler : Char) {p : PlacedPart} (hp : p ∈ parts) : p.StandsIn (fill parts filler n) := by
  have hroom := h.room p hp
  refine PlacedPart.standsIn_iff.mpr ⟨by simpa [fill] using hroom, fun k c hc ↦ ?_⟩
  obtain ⟨i, rfl, hi⟩ := PlacedPart.char?_eq_some_iff.mp hc
  have hlt := (List.getElem?_eq_some_iff.mp hi).1
  have hk : p.start + i < n := by omega
  rw [fill, List.getElem?_map, List.getElem?_range hk, Option.map_some, Option.some_inj]
  cases hfind : parts.findSome? (·.char? (p.start + i)) with
  | none =>
    rw [List.findSome?_eq_none_iff.mp hfind p hp] at hc
    cases hc
  | some d =>
    obtain ⟨q, hq, hchar⟩ := List.exists_of_findSome?_eq_some hfind
    exact (h.agree p hp q hq _ hk c hc d hchar).symm

section

variable {allowed : Char → Prop} {filler : Char} (hfiller : allowed filler)
include hfiller

/-- Parts can stand together exactly if they do so in some text, and there need not be other
characters in it than theirs and one more. -/
theorem exists_text_iff (n : Nat) (parts : List PlacedPart) :
    (∃ t : List Char, t.length = n ∧ (∀ c ∈ t, allowed c) ∧ ∀ p ∈ parts, p.StandsIn t) ↔
      CanStand n parts ∧ ∀ p ∈ parts, ∀ c ∈ p.text, allowed c := by
  constructor
  · rintro ⟨t, rfl, hallowed, hparts⟩
    refine ⟨⟨fun p hp ↦ (PlacedPart.standsIn_iff.mp (hparts p hp)).1, ?_⟩, fun p hp c hc ↦ ?_⟩
    · intro p hp q hq k _ c hc d hd
      have hchar := (PlacedPart.standsIn_iff.mp (hparts p hp)).2 k c hc
      rw [(PlacedPart.standsIn_iff.mp (hparts q hq)).2 k d hd] at hchar
      exact (Option.some.inj hchar).symm
    · exact hallowed c (List.mem_of_mem_drop ((hparts p hp).2.subset hc))
  · rintro ⟨hstand, hchars⟩
    refine ⟨fill parts filler n, by simp [fill], fun c hc ↦ ?_,
      fun p hp ↦ hstand.standsIn_fill filler hp⟩
    obtain rfl | ⟨p, hp, hc⟩ := mem_fill hc
    · exact hfiller
    · exact hchars p hp c hc

/-- Where there is no bound on the length, three parts have room one behind the other. -/
theorem exists_text_of_parts {front middle back : List Char} (hfront : ∀ c ∈ front, allowed c)
    (hmiddle : ∀ c ∈ middle, allowed c) (hback : ∀ c ∈ back, allowed c) (least : Nat) :
    ∃ t : List Char, (∀ c ∈ t, allowed c) ∧ least ≤ t.length ∧ front <+: t ∧ middle <:+: t ∧
      back <:+ t := by
  refine ⟨front ++ (List.replicate least filler ++ (middle ++ back)), ?_, ?_,
    List.prefix_append _ _, ⟨front ++ List.replicate least filler, back, by simp⟩,
    ⟨front ++ List.replicate least filler ++ middle, by simp⟩⟩
  · have hreplicate : ∀ c ∈ List.replicate least filler, allowed c := fun c hc ↦ by
      rwa [List.eq_of_mem_replicate hc]
    simp only [List.forall_mem_append]
    exact ⟨hfront, hreplicate, hmiddle, hback⟩
  · simp only [List.length_append, List.length_replicate]
    omega

end

end Text

/-! ### Integers -/

namespace Text

/-- An integer is written as a text that denotes it. -/
theorem signedValue_renderInteger (n : Int64) : signedValue (renderInteger n).toList = n.toInt := by
  rw [renderInteger]
  split
  · next hneg =>
    rw [String.toList_ofList, signedValue, ofDigits_natDigits]
    omega
  · next hnonneg =>
    rw [renderNat, String.toList_ofList, signedValue.eq_2, ofDigits_natDigits]
    · omega
    · intro ds hds
      have hdigit : '-'.isDigit = true := isDigit_of_mem_natDigits (hds ▸ List.mem_cons_self)
      cases hdigit

end Text

namespace Group

variable {g : Group}

/-- The bounds of a group of integers leave something between them. -/
theorem leastValue_le_greatestValue (hint : g.type = .integer) :
    g.leastValue ≤ g.greatestValue := by
  obtain ⟨-, hcheck, -⟩ := ValueType.resolve_eq_ok g.resolved
  rw [hint] at hcheck
  rw [leastValue, greatestValue]
  cases hmin : Constraint.min? g.constraints with
  | none =>
    cases hmax : Constraint.max? g.constraints with
    | none => decide
    | some greatest => exact (Text.toInt_mem_bounds greatest).1
  | some least =>
    cases hmax : Constraint.max? g.constraints with
    | none => exact (Text.toInt_mem_bounds least).2
    | some greatest =>
      simp only [ValueType.integer, hmin, hmax] at hcheck
      split at hcheck
      · cases hcheck
      · next hle => exact Int.not_lt.mp hle

/-- A group of integers accepts the least one that it admits. -/
theorem exists_accepts_integer (hint : g.type = .integer) : ∃ raw, g.accepts raw = true := by
  have hleast : ∃ n : Int64, n.toInt = g.leastValue := by
    rw [leastValue]
    cases Constraint.min? g.constraints with
    | none => exact ⟨Int64.minValue, by decide⟩
    | some n => exact ⟨n, rfl⟩
  obtain ⟨n, hn⟩ := hleast
  refine ⟨Text.renderInteger n, (accepts_integer_iff hint).mpr ⟨?_, ?_⟩⟩
  · apply ValueType.isIntegerText_renderInteger
    · rintro m ⟨⟩
    · rintro m ⟨⟩
  · rw [Text.signedValue_renderInteger, hn]
    exact ⟨Int.le_refl _, leastValue_le_greatestValue hint⟩

end Group

/-! ### Words -/

namespace Constraint

/-- The text that a constraint of this kind asks for, if there is one in the list. -/
def partOf (kind : ConstraintKind) (cs : List Constraint) : List Char :=
  ((cs.find? fun c ↦ c.kind = kind).map fun c ↦ c.rawValue.toList).getD []

/-- What a kind asks for is nothing, or the parameter of a constraint of the kind. -/
theorem partOf_induction {motive : List Char → Prop} {kind : ConstraintKind} {cs : List Constraint}
    (nil : motive []) (mem : ∀ c ∈ cs, c.kind = kind → motive c.rawValue.toList) :
    motive (partOf kind cs) := by
  rw [partOf]
  cases hfind : cs.find? fun c ↦ c.kind = kind with
  | none => exact nil
  | some c =>
    exact mem c (List.mem_of_find?_eq_some hfind) (by simpa using List.find?_some hfind)

/-- The required beginning, part and end of a word of this length, where the part stands from this
place on. -/
def placedParts (cs : List Constraint) (n start : Nat) : List Text.PlacedPart :=
  [⟨0, partOf .startsWith cs⟩, ⟨start, partOf .contains cs⟩,
    ⟨n - (partOf .endsWith cs).length, partOf .endsWith cs⟩]

/-- The least length of a word. -/
def leastLength (cs : List Constraint) : Nat := Nat.max 1 ((minLen? cs).getD 1)

/-- Whether a word can meet constraints: what they ask for consists of characters of words, and if
the length is bounded it has room in a word of some length within the bounds. -/
structure AreFeasible (cs : List Constraint) : Prop where
  chars : ∀ kind ∈ [ConstraintKind.startsWith, .contains, .endsWith], ∀ c ∈ partOf kind cs,
    ValueType.isWordChar c = true
  room : ∀ greatest ∈ maxLen? cs, ∃ n ≤ greatest, leastLength cs ≤ n ∧ ∃ start ≤ n,
    Text.CanStand n (placedParts cs n start)

instance (cs : List Constraint) : Decidable (AreFeasible cs) :=
  decidable_of_iff
    ((∀ kind ∈ [ConstraintKind.startsWith, .contains, .endsWith],
        (partOf kind cs).all ValueType.isWordChar = true) ∧
      ∀ greatest ∈ maxLen? cs, ∃ n ≤ greatest, leastLength cs ≤ n ∧ ∃ start ≤ n,
        Text.CanStand n (placedParts cs n start))
    (by
      simp only [List.all_eq_true]
      exact ⟨fun h ↦ ⟨h.1, h.2⟩, fun h ↦ ⟨h.chars, h.room⟩⟩)

variable {cs : List Constraint} {t : List Char}

/-- A text has the required beginning, part and end if they stand in it, the part somewhere. -/
theorem exists_standsIn_placedParts_iff :
    (∃ start, ∀ p ∈ placedParts cs t.length start, p.StandsIn t) ↔
      partOf .startsWith cs <+: t ∧ partOf .contains cs <:+: t ∧ partOf .endsWith cs <:+ t := by
  rw [← Text.PlacedPart.exists_standsIn_iff]
  simp only [placedParts, List.forall_mem_cons, List.not_mem_nil, IsEmpty.forall_iff, implies_true,
    and_true, Text.PlacedPart.standsIn_start_iff, Text.PlacedPart.standsIn_end_iff]
  constructor
  · rintro ⟨start, hfront, hmiddle, hback⟩
    exact ⟨hfront, ⟨start, hmiddle⟩, hback⟩
  · rintro ⟨hfront, ⟨start, hmiddle⟩, hback⟩
    exact ⟨start, hfront, hmiddle, hback⟩

/-- What is placed are the three parts, wherever they stand. -/
theorem forall_placedParts_iff {n start : Nat} {allowed : Char → Prop} :
    (∀ p ∈ placedParts cs n start, ∀ c ∈ p.text, allowed c) ↔
      ∀ kind ∈ [ConstraintKind.startsWith, .contains, .endsWith], ∀ c ∈ partOf kind cs,
        allowed c := by
  simp [placedParts]

theorem leastLength_le_iff {n : Nat} :
    leastLength cs ≤ n ↔ 1 ≤ n ∧ ∀ least ∈ minLen? cs, least ≤ n := by
  rw [leastLength, Nat.max_le]
  refine and_congr_right fun hone ↦ ?_
  cases minLen? cs with
  | none => simpa using hone
  | some least => simp

/-- Constraints are feasible exactly if there is a text of a word with all that they ask for. -/
theorem areFeasible_iff_exists_text :
    AreFeasible cs ↔ ∃ t : List Char, (∀ c ∈ t, ValueType.isWordChar c = true) ∧
      leastLength cs ≤ t.length ∧ (∀ greatest ∈ maxLen? cs, t.length ≤ greatest) ∧
      partOf .startsWith cs <+: t ∧ partOf .contains cs <:+: t ∧ partOf .endsWith cs <:+ t := by
  constructor
  · intro h
    cases hmax : maxLen? cs with
    | none =>
      have hchars := h.chars
      simp only [List.forall_mem_cons, List.not_mem_nil, IsEmpty.forall_iff, implies_true,
        and_true] at hchars
      obtain ⟨hfront, hmiddle, hback⟩ := hchars
      obtain ⟨t, hword, hleast, hparts⟩ :=
        Text.exists_text_of_parts (by decide : ValueType.isWordChar 'a' = true) hfront hmiddle hback
          (leastLength cs)
      refine ⟨t, hword, hleast, ?_, hparts⟩
      rintro _ ⟨⟩
    | some greatest =>
      obtain ⟨n, hgreatest, hleast, start, -, hstand⟩ := h.room greatest hmax
      obtain ⟨t, rfl, hword, hparts⟩ :=
        (Text.exists_text_iff (by decide : ValueType.isWordChar 'a' = true) n _).mpr
          ⟨hstand, forall_placedParts_iff.mpr h.chars⟩
      refine ⟨t, hword, hleast, ?_, exists_standsIn_placedParts_iff.mp ⟨start, hparts⟩⟩
      rintro _ ⟨⟩
      exact hgreatest
  · rintro ⟨t, hword, hleast, hgreatest, hparts⟩
    obtain ⟨start, hstands⟩ := exists_standsIn_placedParts_iff.mpr hparts
    obtain ⟨hstand, hchars⟩ :=
      (Text.exists_text_iff (by decide : ValueType.isWordChar 'a' = true) t.length _).mp
        ⟨t, rfl, hword, hstands⟩
    refine ⟨forall_placedParts_iff.mp hchars, fun greatest hmax ↦ ?_⟩
    have hroom := hstand.room _ (List.mem_cons_of_mem _ List.mem_cons_self)
    exact ⟨t.length, hgreatest greatest hmax, hleast, start, Nat.le_of_add_right_le hroom, hstand⟩

end Constraint

namespace Group

variable {g : Group}

/-- A constraint asks for its own parameter, as there is no other of its kind. -/
theorem partOf_eq_of_mem {c : Constraint} (hc : c ∈ g.constraints) :
    Constraint.partOf c.kind g.constraints = c.rawValue.toList := by
  rw [Constraint.partOf]
  cases hfind : g.constraints.find? fun c' ↦ c'.kind = c.kind with
  | none => simpa using List.find?_eq_none.mp hfind c hc
  | some c' =>
    have hkind : c'.kind = c.kind := by simpa using List.find?_some hfind
    rw [ValueType.eq_of_kind_eq g.resolved (List.mem_of_find?_eq_some hfind) hc hkind]
    rfl

/-- What a group of words asks for together: bounds on the length and three parts. -/
theorem forall_isMetBy_iff (hword : g.type = .word) {s : String} :
    (∀ c ∈ g.constraints, c.IsMetBy (.text s)) ↔
      ((∀ n ∈ Constraint.minLen? g.constraints, n ≤ s.length) ∧
        ∀ n ∈ Constraint.maxLen? g.constraints, s.length ≤ n) ∧
      Constraint.partOf .startsWith g.constraints <+: s.toList ∧
      Constraint.partOf .contains g.constraints <:+: s.toList ∧
      Constraint.partOf .endsWith g.constraints <:+ s.toList := by
  constructor
  · intro hmet
    refine ⟨⟨fun n hn ↦ hmet _ (Constraint.mem_of_minLen? hn),
      fun n hn ↦ hmet _ (Constraint.mem_of_maxLen? hn)⟩, ?_, ?_, ?_⟩
    · apply Constraint.partOf_induction (motive := (· <+: s.toList)) List.nil_prefix
      intro c hc hkind
      cases c <;> cases hkind
      exact hmet _ hc
    · apply Constraint.partOf_induction (motive := (· <:+: s.toList)) List.nil_infix
      intro c hc hkind
      cases c <;> cases hkind
      exact hmet _ hc
    · apply Constraint.partOf_induction (motive := (· <:+ s.toList)) List.nil_suffix
      intro c hc hkind
      cases c <;> cases hkind
      exact hmet _ hc
  · rintro ⟨⟨hleast, hgreatest⟩, hfront, hmiddle, hback⟩ c hc
    have hkind := (ValueType.written_of_mem g.resolved hc).1
    have hpart := partOf_eq_of_mem hc
    cases c with
    | minLen n =>
      exact hleast n (findSome?_eq_some_of_mem hc rfl fun c' _ h ↦ by cases c' <;> cases h; rfl)
    | maxLen n =>
      exact hgreatest n (findSome?_eq_some_of_mem hc rfl fun c' _ h ↦ by cases c' <;> cases h; rfl)
    | startsWith part =>
      change Constraint.partOf .startsWith g.constraints = part.toList at hpart
      rwa [hpart] at hfront
    | endsWith part =>
      change Constraint.partOf .endsWith g.constraints = part.toList at hpart
      rwa [hpart] at hback
    | contains part =>
      change Constraint.partOf .contains g.constraints = part.toList at hpart
      rwa [hpart] at hmiddle
    | fallback text => trivial
    | min n | max n => simp [hword, Constraint.kind, ValueType.word] at hkind

/-- A group of words accepts some text exactly if its constraints are feasible. -/
theorem exists_accepts_word_iff (hword : g.type = .word) :
    (∃ raw, g.accepts raw = true) ↔ Constraint.AreFeasible g.constraints := by
  simp only [accepts_word_iff hword, forall_isMetBy_iff hword]
  rw [Constraint.areFeasible_iff_exists_text]
  constructor
  · rintro ⟨raw, hne, hchars, ⟨hleast, hgreatest⟩, hparts⟩
    have hpos : 1 ≤ raw.length := by
      rwa [Nat.one_le_iff_ne_zero, ne_eq, String.length_eq_zero_iff]
    refine ⟨raw.toList, hchars, ?_, ?_, hparts⟩
    · rw [String.length_toList]
      exact Constraint.leastLength_le_iff.mpr ⟨hpos, hleast⟩
    · rwa [String.length_toList]
  · rintro ⟨t, hchars, hlength, hgreatest, hparts⟩
    obtain ⟨hpos, hleast⟩ := Constraint.leastLength_le_iff.mp hlength
    refine ⟨String.ofList t, ?_, ?_⟩
    · rw [← String.toList_inj.ne, String.toList_ofList]
      exact List.ne_nil_of_length_pos hpos
    · rw [String.toList_ofList, String.length_ofList]
      exact ⟨hchars, ⟨hleast, hgreatest⟩, hparts⟩

end Group

namespace ValueType

theorem exists_parseValue_word_iff {raw : RawConstraints} {cs : List Constraint}
    (h : word.resolve raw = .ok cs) :
    (∃ text v, word.parseValue (some text) cs = .ok v) ↔ Constraint.AreFeasible cs := by
  obtain ⟨g, hword, rfl, -⟩ := exists_group h
  rw [← Group.exists_accepts_word_iff hword, ← hword]
  simp only [Group.accepts_iff_exists_parseValue]

/-- Constraints on integers that were accepted are met by some text. Constraints on words are met by
some text exactly if they are feasible. `SPEC_FULL.md:146–147`. -/
theorem exists_parseValue_of_resolve (raw : RawConstraints) (cs : List Constraint) :
    (integer.resolve raw = .ok cs → ∃ text v, integer.parseValue (some text) cs = .ok v) ∧
      (word.resolve raw = .ok cs →
        ((∃ text v, word.parseValue (some text) cs = .ok v) ↔ Constraint.AreFeasible cs)) := by
  refine ⟨fun h ↦ ?_, exists_parseValue_word_iff⟩
  obtain ⟨g, hint, rfl, -⟩ := exists_group h
  obtain ⟨text, htext⟩ := Group.exists_accepts_integer hint
  rw [← hint]
  exact ⟨text, Group.accepts_iff_exists_parseValue.mp htext⟩

/-- A beginning and an end that overlap, and two bounds with one integer between them. -/
theorem exists_parseValue_of_resolve_overlap :
    (∃ cs, integer.resolve (.ofList [("min", "7"), ("max", "7")]) = .ok cs ∧
        ∃ text v, integer.parseValue (some text) cs = .ok v) ∧
      ∃ cs, word.resolve (.ofList [("maxLen", "3"), ("startsWith", "ab"), ("endsWith", "bc")])
          = .ok cs ∧
        ∃ text v, word.parseValue (some text) cs = .ok v := by
  have hint : (integer.resolve (.ofList [("min", "7"), ("max", "7")])).toOption.any
      (fun _ ↦ true) = true := by
    decide +kernel
  have hword : (word.resolve (.ofList [("maxLen", "3"), ("startsWith", "ab"),
      ("endsWith", "bc")])).toOption.any (fun cs ↦ decide (Constraint.AreFeasible cs)) = true := by
    decide +kernel
  obtain ⟨cs, hcs, -⟩ := exists_ok_of_any hint
  obtain ⟨cs', hcs', hfeasible⟩ := exists_ok_of_any hword
  exact ⟨⟨cs, hcs, (exists_parseValue_of_resolve _ _).1 hcs⟩, cs', hcs',
    ((exists_parseValue_of_resolve _ _).2 hcs').mpr (of_decide_eq_true hfeasible)⟩

/-- A beginning that is longer than the whole may be is accepted, though no text meets both. -/
theorem exists_unsatisfiable :
    ∃ cs, word.resolve (.ofList [("maxLen", "1"), ("startsWith", "ab")]) = .ok cs ∧
      ¬ ∃ text v, word.parseValue (some text) cs = .ok v := by
  have htest : (word.resolve (.ofList [("maxLen", "1"), ("startsWith", "ab")])).toOption.any
      (fun cs ↦ decide (¬ Constraint.AreFeasible cs)) = true := by
    decide +kernel
  obtain ⟨cs, hcs, hinfeasible⟩ := exists_ok_of_any htest
  exact ⟨cs, hcs, mt (exists_parseValue_word_iff hcs).mp (of_decide_eq_true hinfeasible)⟩

end ValueType

end UrlPattern
