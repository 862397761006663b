import UrlPattern.Proofs.Runs
import UrlPattern.Tree
import UrlPattern.ValueType.Registry

/-!
# The texts of groups

What texts a group of integers or words stands for, said of the texts themselves, and that the
expression of the group finds exactly those of them that the input begins with, the longest first.

`prefixLengths` lists the beginnings of an input that belong to a set of texts by their lengths. A
descending list of lengths is determined by its members, so an expression is known once its lengths
are known to descend and to be the right ones.

Specification: `SPEC_FULL.md` §10.3 (lines 194–210).
-/

namespace UrlPattern

namespace ValueType

/-- At least one digit of ASCII, and no more than a width says if there is one. -/
def IsDigits (width : Option Nat) (t : List Char) : Prop :=
  t ≠ [] ∧ (∀ c ∈ t, c.isDigit) ∧ ∀ w, width = some w → t.length ≤ w

/-- The texts of integers within bounds. The sign is for bounds that admit negative integers. An
upper bound limits the digits of a text without a sign, and a lower one those of a text with it. -/
def IsIntegerText (min max : Option Int64) (t : List Char) : Prop :=
  IsDigits (max.map digitCount) t ∨
    ∃ ds, t = '-' :: ds ∧ (∀ n, min = some n → n.toInt < 0) ∧ IsDigits (min.map digitCount) ds

/-- The texts of words within bounds on their length. A word has at least one character. -/
def IsWordText (minLen maxLen : Option Nat) (t : List Char) : Prop :=
  (∀ c ∈ t, isWordChar c) ∧ Nat.max 1 (minLen.getD 1) ≤ t.length ∧
    ∀ n, maxLen = some n → t.length ≤ n

end ValueType

namespace Group

/-- The texts of a group of one of the types that every registry may start with. -/
def Spells (g : Group) (t : List Char) : Prop :=
  (g.type = .integer ∧
      ValueType.IsIntegerText (Constraint.min? g.constraints) (Constraint.max? g.constraints) t) ∨
    (g.type = .word ∧
      ValueType.IsWordText (Constraint.minLen? g.constraints) (Constraint.maxLen? g.constraints) t)

/-- The group is of one of the types that every registry may start with. -/
def IsBuiltin (g : Group) : Prop := g.type = .integer ∨ g.type = .word

theorem IsBuiltin.usesConvert {g : Group} (hg : g.IsBuiltin) : g.type.UsesConvert := by
  rcases hg with hint | hword
  · rw [hint]
    rfl
  · rw [hword]
    rfl

/-- A group of integers spells the texts of integers within its bounds. -/
theorem spells_integer_iff {g : Group} {t : List Char} (hint : g.type = .integer) : g.Spells t ↔
    ValueType.IsIntegerText (Constraint.min? g.constraints) (Constraint.max? g.constraints) t := by
  have hother : ValueType.integer ≠ ValueType.word := fun h ↦
    absurd (congrArg ValueType.name h) (by decide)
  simp [Spells, hint, hother]

/-- A group of words spells the texts of words within its bounds. -/
theorem spells_word_iff {g : Group} {t : List Char} (hword : g.type = .word) :
    g.Spells t ↔
      ValueType.IsWordText (Constraint.minLen? g.constraints)
        (Constraint.maxLen? g.constraints) t := by
  have hother : ValueType.word ≠ ValueType.integer := fun h ↦
    absurd (congrArg ValueType.name h) (by decide)
  simp [Spells, hword, hother]

/-- A group spells no empty text. -/
theorem Spells.ne_nil {g : Group} {t : List Char} (h : g.Spells t) : t ≠ [] := by
  rintro rfl
  rcases h with ⟨-, h | ⟨ds, hds, -⟩⟩ | ⟨-, -, h, -⟩
  · exact h.1 rfl
  · exact List.cons_ne_nil _ _ hds.symm
  · have hone : 1 ≤ Nat.max 1 ((Constraint.minLen? g.constraints).getD 1) := Nat.le_max_left ..
    exact absurd (Nat.le_trans hone h) (by simp)

end Group

namespace Regex

/-! ### Beginnings of an input -/

open Classical in
/-- The lengths of the beginnings of an input that belong to a set of texts, the longest first. -/
noncomputable def prefixLengths (belongs : List Char → Prop) (s : List Char) : List Nat :=
  (List.range (s.length + 1)).reverse.filter fun k ↦ decide (belongs (s.take k))

theorem mem_prefixLengths {belongs : List Char → Prop} {s : List Char} {k : Nat} :
    k ∈ prefixLengths belongs s ↔ k ≤ s.length ∧ belongs (s.take k) := by
  simp only [prefixLengths, List.mem_filter, List.mem_reverse, List.mem_range, Nat.lt_succ_iff,
    decide_eq_true_eq]

theorem prefixLengths_descending (belongs : List Char → Prop) (s : List Char) :
    (prefixLengths belongs s).Pairwise (· > ·) := by
  refine List.Pairwise.filter _ ?_
  rw [List.pairwise_reverse]
  exact List.pairwise_lt_range

/-- A descending list is determined by its members. -/
private theorem eq_of_descending {l l' : List Nat} (h : l.Pairwise (· > ·))
    (h' : l'.Pairwise (· > ·)) (hmem : ∀ k, k ∈ l ↔ k ∈ l') : l = l' := by
  have hperm : l.Perm l' :=
    (List.perm_ext_iff_of_nodup (h.imp fun hgt ↦ Nat.ne_of_gt hgt)
      (h'.imp fun hgt ↦ Nat.ne_of_gt hgt)).mpr hmem
  refine hperm.eq_of_pairwise (fun a b _ _ hab hba ↦ ?_) h h'
  exact absurd hab (Nat.lt_asymm hba)

/-- Lengths that descend and are those of the texts of a set are the lengths of its beginnings. -/
theorem eq_prefixLengths {belongs : List Char → Prop} {lengths : List Nat} {s : List Char}
    (hdesc : lengths.Pairwise (· > ·))
    (hmem : ∀ k, k ∈ lengths ↔ k ≤ s.length ∧ belongs (s.take k)) :
    lengths = prefixLengths belongs s :=
  eq_of_descending hdesc (prefixLengths_descending belongs s) fun k ↦
    (hmem k).trans mem_prefixLengths.symm

/-! ### Integers -/

/-- The set of the digits, as its brackets read. -/
def digitSet : Regex := .set ⟨[48, 58]⟩ 1

/-- A run of digits, of at most this many if a width is given. -/
def digitRun (width : Option Nat) : Regex := .rep digitSet 1 width true

/-- An optional sign. -/
def optionalSign : Regex := .rep (.char '-') 0 (some 1) true

/-- Digits behind a sign, or else digits without one, each with a width of their own. -/
def signedOr (signed unsigned : Option Nat) : Regex :=
  .group none (.alt (.cat (.char '-') (digitRun signed)) (digitRun unsigned))

/-- The parts of the expression of an integer within bounds. -/
def integerItems (min max : Option Int64) : List Regex :=
  let unsigned := max.map ValueType.digitCount
  match min with
  | some least =>
    if 0 ≤ least.toInt then [digitRun unsigned]
    else
      let signed := some (ValueType.digitCount least)
      if ValueType.digitsPattern signed = ValueType.digitsPattern unsigned then
        [optionalSign, digitRun unsigned]
      else [signedOr signed unsigned]
  | none => if max.isNone then [optionalSign, digitRun unsigned] else [signedOr none unsigned]

theorem single?_digitSet : digitSet.single? = some Char.isDigit := by
  have hset : ∀ c : Char, CharSet.contains ⟨[48, 58]⟩ c = c.isDigit := by
    intro c
    simp only [CharSet.contains, CharSet.oddBelow, Char.isDigit, Char.toNat]
    simp [UInt32.le_iff_toNat_le]
    grind
  exact congrArg some (funext hset)

/-- The lengths of the digits at the beginning of a text. -/
def digitLengths (width : Option Nat) : List Char → List Nat := runLengths Char.isDigit 1 width

theorem finds_digitRun (input : List Char) (width : Option Nat) :
    Finds input (ends (digitRun width)) (spans (digitLengths width)) :=
  finds_runs input single?_digitSet 1 width

theorem mem_digitLengths {width : Option Nat} {s : List Char} {k : Nat} :
    k ∈ digitLengths width s ↔ k ≤ s.length ∧ ValueType.IsDigits width (s.take k) := by
  rw [digitLengths, mem_runLengths, ValueType.IsDigits]
  constructor
  · rintro ⟨hleast, hmost, hlen, hall⟩
    refine ⟨hlen, fun hnil ↦ ?_, List.all_eq_true.mp hall, fun w hw ↦ ?_⟩
    · have := congrArg List.length hnil
      simp only [List.length_take, List.length_nil] at this
      omega
    · rw [List.length_take_of_le hlen]
      exact hmost w hw
  · rintro ⟨hlen, hne, hall, hmost⟩
    refine ⟨Nat.one_le_iff_ne_zero.mpr fun hk ↦ hne (by rw [hk]; rfl), fun w hw ↦ ?_, hlen,
      List.all_eq_true.mpr hall⟩
    have := hmost w hw
    rwa [List.length_take_of_le hlen] at this

/-- Digits without a sign, or digits behind a sign, each with a width of their own. -/
def IsSignedOr (signed unsigned : Option Nat) (t : List Char) : Prop :=
  ValueType.IsDigits unsigned t ∨ ∃ ds, t = '-' :: ds ∧ ValueType.IsDigits signed ds

/-- The lengths of the integers at the beginning of a text, with separate widths for those with a
sign and those without. -/
def signedLengths (signed unsigned : Option Nat) : List Char → List Nat
  | '-' :: s => (digitLengths signed s).map (1 + ·)
  | s => digitLengths unsigned s

/-- A sign is no digit. -/
private theorem digitLengths_sign (width : Option Nat) (s : List Char) :
    digitLengths width ('-' :: s) = [] := by
  rw [List.eq_nil_iff_forall_not_mem]
  intro k hk
  obtain ⟨hleast, -, -, hall⟩ := mem_runLengths.mp hk
  obtain ⟨j, rfl⟩ : ∃ j, k = j + 1 := ⟨k - 1, by omega⟩
  simp [Char.isDigit] at hall

theorem mem_signedLengths {signed unsigned : Option Nat} {s : List Char} {k : Nat} :
    k ∈ signedLengths signed unsigned s ↔
      k ≤ s.length ∧ IsSignedOr signed unsigned (s.take k) := by
  rw [signedLengths.eq_def, IsSignedOr]
  split
  · next s =>
    have hunsigned : ¬ (k ≤ ('-' :: s).length ∧
        ValueType.IsDigits unsigned (('-' :: s).take k)) := by
      rw [← mem_digitLengths, digitLengths_sign]
      exact List.not_mem_nil
    rw [List.mem_map, and_or_left, or_iff_right hunsigned]
    constructor
    · rintro ⟨j, hj, rfl⟩
      obtain ⟨hlen, hd⟩ := mem_digitLengths.mp hj
      rw [Nat.add_comm, List.take_succ_cons, List.length_cons]
      exact ⟨by omega, s.take j, rfl, hd⟩
    · rintro ⟨hlen, ds, htake, hd⟩
      cases k with
      | zero => simp at htake
      | succ j =>
        rw [List.take_succ_cons] at htake
        obtain ⟨-, rfl⟩ := List.cons.inj htake
        rw [List.length_cons] at hlen
        exact ⟨j, mem_digitLengths.mpr ⟨by omega, hd⟩, Nat.add_comm 1 j⟩
  · next hsign =>
    rw [mem_digitLengths, and_or_left, or_iff_left]
    rintro ⟨-, ds, htake, -⟩
    cases s with
    | nil => simp at htake
    | cons a s =>
      cases k with
      | zero => simp at htake
      | succ k =>
        rw [List.take_succ_cons] at htake
        exact hsign s (by rw [(List.cons.inj htake).1])

theorem signedLengths_descending (signed unsigned : Option Nat) (s : List Char) :
    (signedLengths signed unsigned s).Pairwise (· > ·) := by
  rw [signedLengths.eq_def]
  split
  · rw [List.pairwise_map]
    exact (runLengths_descending _ _ _ _).imp fun h ↦ by omega
  · exact runLengths_descending _ _ _ _

/-- Without a width of their own, signed digits have the width of unsigned ones. -/
theorem finds_optionalSign (input : List Char) (width : Option Nat) :
    Finds input (endsAll [optionalSign, digitRun width]) (spans (signedLengths width width)) := by
  have hsign : Finds input (ends optionalSign) (spans (runLengths ('-' == ·) 0 (some 1))) :=
    finds_runs input rfl 0 (some 1)
  refine (hsign.single.append (finds_digitRun input width).single).congr fun c _ ↦ ?_
  rw [flatMap_spans]
  simp only [spans]
  congr 1
  cases c.rest with
  | nil => rfl
  | cons a s =>
    by_cases ha : a = '-'
    · subst ha
      have hruns : runLengths ('-' == ·) 0 (some 1) ('-' :: s) = [1, 0] := by
        cases s <;> rfl
      simp [hruns, signedLengths, digitLengths_sign]
    · have hruns : runLengths ('-' == ·) 0 (some 1) (a :: s) = [0] := by
        simp [runLengths, Ne.symm ha]
      rw [hruns, signedLengths.eq_2 _ _ _ fun s' h ↦ ha (List.cons.inj h).1]
      simp

theorem finds_signedOr (input : List Char) (signed unsigned : Option Nat) :
    Finds input (ends (signedOr signed unsigned)) (spans (signedLengths signed unsigned)) := by
  have hcat : Finds input (ends (.cat (.char '-') (digitRun signed))) fun c ↦
      (if c.rest.head?.any ('-' == ·) then [c.skip 1] else []).flatMap
        (spans (digitLengths signed)) :=
    (finds_step input ('-' == ·)).comp (finds_digitRun input signed)
  refine Finds.congr (finds_alt hcat (finds_digitRun input unsigned)) fun c _ ↦ ?_
  rw [spans, spans]
  cases hrest : c.rest with
  | nil => simp [signedLengths]
  | cons a s =>
    by_cases ha : a = '-'
    · subst ha
      simp [signedLengths, digitLengths_sign, hrest, spans, Cursor.rest_skip, Cursor.skip_add,
        Function.comp_def]
    · rw [signedLengths.eq_2 _ _ _ fun s' h ↦ ha (List.cons.inj h).1]
      simp [Ne.symm ha]

/-- Widths with one expression are one. -/
theorem digitsPattern_inj {width width' : Option Nat}
    (h : ValueType.digitsPattern width = ValueType.digitsPattern width') : width = width' := by
  have hlist := congrArg String.toList h
  cases width with
  | none =>
    cases width' with
    | none => rfl
    | some w' => simp [ValueType.digitsPattern] at hlist
  | some w =>
    cases width' with
    | none => simp [ValueType.digitsPattern] at hlist
    | some w' =>
      simp only [ValueType.digitsPattern, String.toList_append, List.append_cancel_left_eq,
        List.append_cancel_right_eq] at hlist
      rw [Text.renderNat_inj.mp (String.toList_inj.mp hlist)]

private theorem spans_digitLengths (width : Option Nat) :
    spans (digitLengths width) = spans (prefixLengths (ValueType.IsDigits width)) := by
  have heq : digitLengths width = prefixLengths (ValueType.IsDigits width) :=
    funext fun s ↦ eq_prefixLengths (runLengths_descending _ _ _ _) fun k ↦ mem_digitLengths
  rw [heq]

private theorem spans_signedLengths (signed unsigned : Option Nat) :
    spans (signedLengths signed unsigned)
      = spans (prefixLengths (IsSignedOr signed unsigned)) := by
  have heq : signedLengths signed unsigned = prefixLengths (IsSignedOr signed unsigned) :=
    funext fun s ↦ eq_prefixLengths (signedLengths_descending _ _ _) fun k ↦ mem_signedLengths
  rw [heq]

/-- The expression of an integer within bounds finds the texts of such integers, the longest
first. -/
theorem finds_integer (input : List Char) (min max : Option Int64) :
    Finds input (endsAll (integerItems min max))
      (spans (prefixLengths (ValueType.IsIntegerText min max))) := by
  cases min with
  | none =>
    have hset : IsSignedOr none (max.map ValueType.digitCount)
        = ValueType.IsIntegerText none max := by
      funext t
      simp [IsSignedOr, ValueType.IsIntegerText]
    rw [← hset, ← spans_signedLengths]
    simp only [integerItems]
    split
    · next hmax =>
      rw [Option.isNone_iff_eq_none.mp hmax]
      exact finds_optionalSign input none
    · exact (finds_signedOr input _ _).single
  | some least =>
    by_cases hsign : 0 ≤ least.toInt
    · have hset : ValueType.IsDigits (max.map ValueType.digitCount)
          = ValueType.IsIntegerText (some least) max := by
        funext t
        simp [ValueType.IsIntegerText, Int.not_lt.mpr hsign]
      rw [← hset, ← spans_digitLengths]
      simp only [integerItems, if_pos hsign]
      exact (finds_digitRun input _).single
    · have hset : IsSignedOr (some (ValueType.digitCount least)) (max.map ValueType.digitCount)
          = ValueType.IsIntegerText (some least) max := by
        funext t
        simp [IsSignedOr, ValueType.IsIntegerText, Int.not_le.mp hsign]
      rw [← hset, ← spans_signedLengths]
      simp only [integerItems, if_neg hsign]
      split
      · next hsame =>
        rw [digitsPattern_inj hsame]
        exact finds_optionalSign input _
      · exact (finds_signedOr input _ _).single

/-! ### Words -/

/-- The set of the characters of words, as its brackets read. -/
def wordSet : Regex := .set ⟨[45, 46, 48, 58, 65, 91, 95, 96, 97, 123]⟩ 2

/-- The least number of characters of a word. -/
def wordLeast (minLen : Option Nat) : Nat := Nat.max 1 (minLen.getD 1)

/-- The expression of a word within bounds on its length. -/
def wordRun (minLen maxLen : Option Nat) : Regex := .rep wordSet (wordLeast minLen) maxLen true

theorem single?_wordSet : wordSet.single? = some ValueType.isWordChar := by
  have hset : ∀ c : Char,
      CharSet.contains ⟨[45, 46, 48, 58, 65, 91, 95, 96, 97, 123]⟩ c = ValueType.isWordChar c := by
    intro c
    have hchar : ∀ d : Char, decide (c = d) = decide (c.val.toNat = d.val.toNat) := fun d ↦ by
      rw [decide_eq_decide, Char.ext_iff, ← UInt32.toNat_inj]
    have halphanum : c.isAlphanum
        = (decide (65 ≤ c.val ∧ c.val ≤ 90) || (decide (97 ≤ c.val) && decide (c.val ≤ 122))
          || (decide (48 ≤ c.val) && decide (c.val ≤ 57))) := rfl
    rw [ValueType.isWordChar, hchar, hchar, halphanum]
    simp only [CharSet.contains, CharSet.oddBelow, Char.toNat]
    simp [UInt32.le_iff_toNat_le]
    grind
  exact congrArg some (funext hset)

/-- The expression of a word within bounds finds the texts of such words, the longest first. -/
theorem finds_word (input : List Char) (minLen maxLen : Option Nat) :
    Finds input (ends (wordRun minLen maxLen))
      (spans (prefixLengths (ValueType.IsWordText minLen maxLen))) := by
  have hlengths : runLengths ValueType.isWordChar (wordLeast minLen) maxLen
      = prefixLengths (ValueType.IsWordText minLen maxLen) := by
    funext s
    refine eq_prefixLengths (runLengths_descending _ _ _ _) fun k ↦ ?_
    rw [mem_runLengths, ValueType.IsWordText]
    constructor
    · rintro ⟨hleast, hmost, hlen, hall⟩
      rw [List.length_take_of_le hlen]
      exact ⟨hlen, List.all_eq_true.mp hall, hleast, hmost⟩
    · rintro ⟨hlen, hall, hleast, hmost⟩
      rw [List.length_take_of_le hlen] at hleast hmost
      exact ⟨hleast, hmost, hlen, List.all_eq_true.mpr hall⟩
  rw [← hlengths]
  exact finds_runs input single?_wordSet _ _

end Regex

/-! ### Groups -/

namespace Group

/-- The parts of the expression of a group's text. -/
def textItems (g : Group) : List Regex :=
  if g.type.name = ValueType.integer.name then
    Regex.integerItems (Constraint.min? g.constraints) (Constraint.max? g.constraints)
  else
    [Regex.wordRun (Constraint.minLen? g.constraints) (Constraint.maxLen? g.constraints)]

/-- The expression of a group finds the texts that the group spells, the longest first. -/
theorem finds_textItems (input : List Char) {g : Group} (hg : g.IsBuiltin) :
    Regex.Finds input (Regex.endsAll g.textItems) (Regex.spans (Regex.prefixLengths g.Spells)) := by
  have hne : ValueType.word.name ≠ ValueType.integer.name := by decide
  rcases hg with hint | hword
  · have hspells : g.Spells = ValueType.IsIntegerText (Constraint.min? g.constraints)
        (Constraint.max? g.constraints) := funext fun t ↦ propext (spells_integer_iff hint)
    rw [hspells, textItems, if_pos (by rw [hint])]
    exact Regex.finds_integer input _ _
  · have hspells : g.Spells = ValueType.IsWordText (Constraint.minLen? g.constraints)
        (Constraint.maxLen? g.constraints) := funext fun t ↦ propext (spells_word_iff hword)
    rw [hspells, textItems, if_neg (by rw [hword]; exact hne)]
    exact (Regex.finds_word input _ _).single

end Group

end UrlPattern
