import UrlPattern.Proofs.CheckedValues

/-!
# Whole matches

What the expression of a type matches from end to end. If the expression can be read it is exactly
the texts that a group with these constraints spells (`Group.isWholeMatch_iff`). That of integers
can always be read, that of words if the bounds on their length are not too large: a count of `2 ^
32` is refused, and so is an expression that takes too much room.

It follows that every value within bounds is matched, and that a group has bounded width if an upper
bound is given, but for integers without a lower bound, where a sign may be followed by any number
of digits.

Specification: `SPEC_FULL.md` §10.3 (lines 194–210).
-/

namespace UrlPattern

namespace Regex

/-- Reads an expression as one that must match from end to end. -/
def whole? (pattern : String) : Option Regex := parse? ("^(?:" ++ pattern ++ ")$")

/-- Whether an expression matches a text from end to end. One that cannot be read matches none. -/
def isWholeMatch (pattern text : String) : Bool := (whole? pattern).any (·.isMatch text)

/-- Parts that are tied to both ends of the input match what belongs to the texts of the parts. -/
theorem isMatch_tied_iff {items : List Regex} {belongs : List Char → Prop} {s : String}
    (h : Finds s.toList (endsAll items) (spans (prefixLengths belongs))) :
    (tied items).isMatch s = true ↔ belongs s.toList := by
  rw [isMatch, captures?_tied h, Option.isSome_map, List.isSome_head?, ← List.length_pos_iff,
    List.length_pos_iff_exists_mem]
  simp only [List.mem_filter, spans, List.mem_map, List.isEmpty_iff]
  constructor
  · rintro ⟨c, ⟨k, hk, rfl⟩, hend⟩
    rw [Cursor.rest_skip, List.drop_eq_nil_iff] at hend
    have hbelongs := (mem_prefixLengths.mp hk).2
    rwa [List.take_of_length_le hend] at hbelongs
  · intro hbelongs
    refine ⟨_, ⟨s.toList.length, mem_prefixLengths.mpr ⟨Nat.le_refl _, ?_⟩, rfl⟩, ?_⟩
    · rwa [Node.startCursor, List.take_length]
    · rw [Cursor.rest_skip, Node.startCursor, List.drop_length]

/-! ### The room of runs -/

/-- Copies take the room of the greatest number of them. -/
theorem copiesFootprint_le {size least : Nat} {skippable : Bool} {most : Option Nat}
    (hleast : 1 ≤ least) (hmost : ∀ m, most = some m → least ≤ m) :
    copiesFootprint size skippable least most ≤ (size + 40) * most.getD least + 64 := by
  unfold copiesFootprint
  cases most with
  | none =>
    have hsome : least ≠ 0 := by omega
    simp only [if_neg hsome, Option.getD_none, Nat.add_mul]
    omega
  | some m =>
    obtain ⟨d, rfl⟩ := Nat.exists_eq_add_of_le (hmost m rfl)
    simp only [Option.getD_some, Nat.add_sub_cancel_left, Nat.add_mul, Nat.mul_add]
    split
    · omega
    · split
      · omega
      · split <;> omega

theorem footprint_digitRun_le {width : Option Nat} (h : ∀ w, width = some w → 1 ≤ w ∧ w ≤ 19) :
    (digitRun width).footprint ≤ 2192 := by
  have hroom : (digitRun width).footprint = copiesFootprint 72 false 1 width := by
    cases width <;> rfl
  have hcopies : copiesFootprint 72 false 1 width ≤ (72 + 40) * width.getD 1 + 64 :=
    copiesFootprint_le (Nat.le_refl 1) fun w hw ↦ (h w hw).1
  have hwidth : width.getD 1 ≤ 19 := by
    cases width with
    | none => decide
    | some w => exact (h w rfl).2
  rw [hroom]
  omega

/-- An optional sign before digits. -/
theorem optionalSign_le {width : Option Nat} (h : (digitRun width).footprint ≤ 2192) :
    (cat optionalSign (digitRun width)).nesting ≤ 5 ∧
      (cat optionalSign (digitRun width)).footprint ≤ 4500 := by
  have hnesting : (cat optionalSign (digitRun width)).nesting = 3 := rfl
  have hfootprint : (cat optionalSign (digitRun width)).footprint
      = 104 + (digitRun width).footprint := rfl
  omega

/-- Digits behind a sign, or else digits without one. -/
theorem signedOr_le {signed unsigned : Option Nat} (h : (digitRun signed).footprint ≤ 2192)
    (h' : (digitRun unsigned).footprint ≤ 2192) :
    (signedOr signed unsigned).nesting ≤ 5 ∧ (signedOr signed unsigned).footprint ≤ 4500 := by
  have hnesting : (signedOr signed unsigned).nesting = 5 := rfl
  have hfootprint : (signedOr signed unsigned).footprint
      = 32 + (digitRun signed).footprint + (digitRun unsigned).footprint + 72 := rfl
  omega

/-- The expression of an integer within bounds is small. -/
theorem integerItems_le (min max : Option Int64) :
    (Reader.sequence (integerItems min max).reverse).nesting ≤ 5 ∧
      (Reader.sequence (integerItems min max).reverse).footprint ≤ 4500 := by
  have hrun : ∀ n : Option Int64, (digitRun (n.map ValueType.digitCount)).footprint ≤ 2192 := by
    intro n
    apply footprint_digitRun_le
    intro w hw
    obtain ⟨m, rfl, rfl⟩ := Option.map_eq_some_iff.mp hw
    exact ⟨(digitCount_bounds m).1, digitCount_le m⟩
  cases min with
  | none =>
    simp only [integerItems]
    split
    · exact optionalSign_le (hrun max)
    · exact signedOr_le (hrun none) (hrun max)
  | some least =>
    simp only [integerItems]
    split
    · exact ⟨(by decide : 2 ≤ 5), Nat.le_trans (hrun max) (by decide)⟩
    · split
      · exact optionalSign_le (hrun max)
      · exact signedOr_le (hrun (some least)) (hrun max)

/-- The expression of a word takes the room of its greatest length. -/
theorem footprint_wordRun_le {minLen maxLen : Option Nat}
    (h : ∀ n, maxLen = some n → wordLeast minLen ≤ n) :
    (wordRun minLen maxLen).footprint ≤ 144 * maxLen.getD (wordLeast minLen) + 64 := by
  have hroom : (wordRun minLen maxLen).footprint
      = copiesFootprint 104 false (wordLeast minLen) maxLen := by
    cases maxLen <;> rfl
  rw [hroom]
  exact copiesFootprint_le (Nat.le_max_left ..) h

end Regex

/-! ### Groups -/

namespace Group

variable {g : Group} {s : String}

/-- The expression that matches the texts of a group from end to end. -/
def wholeExpr (g : Group) : Regex :=
  .tied [.group none (Regex.Reader.sequence g.textItems.reverse)]

/-- The expression of a group is read as that of its whole text, if the bounds on lengths fit a
count and it keeps within the limits. -/
theorem whole?_eq_some_iff (hg : g.IsBuiltin) {r : Regex} :
    Regex.whole? g.pattern = some r ↔
      g.CountsFit ∧ g.wholeExpr.isWithinLimits = true ∧ g.wholeExpr = r := by
  have htext : ("^(?:" ++ g.pattern ++ ")$").toList
      = '^' :: (('(' :: '?' :: ':' :: (g.pattern.toList ++ [')'])) ++ ['$']) := by
    simp only [String.toList_append, List.cons_append, List.append_assoc]
    rfl
  have hreads := (reads_pattern hg).enclosed
  rw [Regex.whole?, Regex.parse?, Option.filter_eq_some_iff]
  by_cases hfits : g.CountsFit
  · rw [hreads.read?_tied hfits htext]
    constructor
    · rintro ⟨hr, hlimits⟩
      cases hr
      exact ⟨hfits, hlimits, rfl⟩
    · rintro ⟨-, hlimits, rfl⟩
      exact ⟨rfl, hlimits⟩
  · rw [hreads.read?_tied_eq_none hfits htext]
    simp [hfits]

/-- An expression of a group that can be read matches the texts of the group from end to end. -/
theorem isWholeMatch_iff (hg : g.IsBuiltin) : Regex.isWholeMatch g.pattern s = true ↔
    (Regex.whole? g.pattern).isSome ∧ g.Spells s.toList := by
  have hfinds : Regex.Finds s.toList
      (Regex.endsAll [.group none (Regex.Reader.sequence g.textItems.reverse)])
      (Regex.spans (Regex.prefixLengths g.Spells)) := by
    have hends : Regex.ends (.group none (Regex.Reader.sequence g.textItems.reverse))
        = Regex.endsAll g.textItems := by
      ext1 cs
      rw [Regex.ends, Regex.ends_sequence]
    apply Regex.Finds.single
    rw [hends]
    exact g.finds_textItems s.toList hg
  rw [Regex.isWholeMatch]
  cases hwhole : Regex.whole? g.pattern with
  | none => simp
  | some r =>
    obtain ⟨-, -, rfl⟩ := (whole?_eq_some_iff hg).mp hwhole
    rw [Option.any_some, Option.isSome_some, and_iff_right rfl]
    exact Regex.isMatch_tied_iff hfinds

/-- The expression of a whole text keeps within the limits if that of the text is well below them.
-/
theorem isWithinLimits_wholeExpr
    (hnesting : (Regex.Reader.sequence g.textItems.reverse).nesting ≤ 5)
    (hfootprint : (Regex.Reader.sequence g.textItems.reverse).footprint ≤ 10485000) :
    g.wholeExpr.isWithinLimits = true := by
  have hdepth : g.wholeExpr.nesting
      = max (max 1 ((Regex.Reader.sequence g.textItems.reverse).nesting + 2)) 1 := rfl
  have hroom : g.wholeExpr.footprint
      = 32 + (Regex.Reader.sequence g.textItems.reverse).footprint + 32 := rfl
  rw [Regex.isWithinLimits, Bool.and_eq_true, decide_eq_true_eq, decide_eq_true_eq,
    Regex.nestingLimit, Regex.footprintLimit]
  omega

/-- The expression of a group of integers can be read. -/
theorem isSome_whole?_integer (hint : g.type = .integer) : (Regex.whole? g.pattern).isSome := by
  have hitems : g.textItems = Regex.integerItems (Constraint.min? g.constraints)
      (Constraint.max? g.constraints) := by
    rw [textItems, if_pos (by rw [hint])]
  have hfits : g.CountsFit := by
    intro hword
    rw [hint] at hword
    exact absurd (congrArg ValueType.name hword) (by decide)
  have hsize :=
    Regex.integerItems_le (Constraint.min? g.constraints) (Constraint.max? g.constraints)
  rw [← hitems] at hsize
  have hlimits := isWithinLimits_wholeExpr hsize.1 (by omega)
  rw [(whole?_eq_some_iff (.inl hint)).mpr ⟨hfits, hlimits, rfl⟩]
  rfl

/-- The expression of a group of words can be read if the bounds on their length fit two bytes. -/
theorem isSome_whole?_word (hword : g.type = .word)
    (hleast : ∀ n, Constraint.minLen? g.constraints = some n → n ≤ 65535)
    (hgreatest : ∀ n, Constraint.maxLen? g.constraints = some n → n ≤ 65535) :
    (Regex.whole? g.pattern).isSome := by
  have hne : ValueType.word.name ≠ ValueType.integer.name := by decide
  have hitems : g.textItems = [Regex.wordRun (Constraint.minLen? g.constraints)
      (Constraint.maxLen? g.constraints)] := by
    rw [textItems, if_neg (by rw [hword]; exact hne)]
  have hbound : Regex.wordLeast (Constraint.minLen? g.constraints) ≤ 65535 := by
    apply Nat.max_le.mpr
    cases hmin : Constraint.minLen? g.constraints with
    | none => decide
    | some n => exact ⟨by decide, hleast n hmin⟩
  have hcopies : (Constraint.maxLen? g.constraints).getD
      (Regex.wordLeast (Constraint.minLen? g.constraints)) ≤ 65535 := by
    cases hmax : Constraint.maxLen? g.constraints with
    | none => exact hbound
    | some n => exact hgreatest n hmax
  have hfits : g.CountsFit := by
    intro _
    rw [Regex.Reader.countMax]
    exact ⟨by omega, fun n hn ↦ Nat.le_trans (hgreatest n hn) (by decide)⟩
  have hroom := Regex.footprint_wordRun_le fun n hn ↦ word_bounds hword hn
  have hlimits : g.wholeExpr.isWithinLimits = true := by
    apply isWithinLimits_wholeExpr
    · rw [hitems]
      exact (by decide : 3 ≤ 5)
    · rw [hitems]
      change (Regex.wordRun _ _).footprint ≤ _
      omega
  rw [(whole?_eq_some_iff (.inr hword)).mpr ⟨hfits, hlimits, rfl⟩]
  rfl

end Group

/-! ### Types -/

namespace ValueType

variable {t : ValueType} {raw : RawConstraints} {cs : List Constraint} {s : String}

/-- Constraints that a type resolves are those of a group. -/
theorem exists_group (h : t.resolve raw = .ok cs) :
    ∃ g : Group, g.type = t ∧ g.constraints = cs ∧ g.pattern = t.constrainedPattern cs :=
  ⟨⟨0, "", t, raw, cs, h, .plain⟩, rfl, rfl, rfl⟩

theorem isWholeMatch_integer_iff (h : integer.resolve raw = .ok cs) :
    Regex.isWholeMatch (integer.constrainedPattern cs) s = true ↔
      IsIntegerText (Constraint.min? cs) (Constraint.max? cs) s.toList := by
  obtain ⟨g, hint, rfl, hpattern⟩ := exists_group h
  rw [← hpattern, Group.isWholeMatch_iff (.inl hint), and_iff_right (g.isSome_whole?_integer hint),
    Group.spells_integer_iff hint]

theorem isWholeMatch_word_iff (h : word.resolve raw = .ok cs) :
    Regex.isWholeMatch (word.constrainedPattern cs) s = true ↔
      (Regex.whole? (word.constrainedPattern cs)).isSome ∧
        IsWordText (Constraint.minLen? cs) (Constraint.maxLen? cs) s.toList := by
  obtain ⟨g, hword, rfl, hpattern⟩ := exists_group h
  rw [← hpattern, Group.isWholeMatch_iff (.inr hword), Group.spells_word_iff hword]

/-- The integers within the bounds of a group are matched from end to end, and if the expression can
be read the words within the bounds on their length. It can if these fit two bytes.
`SPEC_FULL.md:196–207`. -/
theorem isWholeMatch_of_bounds (raw : RawConstraints) (cs : List Constraint) :
    (integer.resolve raw = .ok cs → ∀ n : Int64,
        (∀ m, Constraint.min? cs = some m → m.toInt ≤ n.toInt) →
          (∀ m, Constraint.max? cs = some m → n.toInt ≤ m.toInt) →
            Regex.isWholeMatch (integer.constrainedPattern cs) (Text.renderInteger n) = true) ∧
      (word.resolve raw = .ok cs →
        ((Regex.whole? (word.constrainedPattern cs)).isSome → ∀ s, (word.convert? s).isSome →
          (∀ n, Constraint.minLen? cs = some n → n ≤ s.length) →
            (∀ n, Constraint.maxLen? cs = some n → s.length ≤ n) →
              Regex.isWholeMatch (word.constrainedPattern cs) s = true) ∧
        ((∀ n, Constraint.minLen? cs = some n → n ≤ 65535) →
          (∀ n, Constraint.maxLen? cs = some n → n ≤ 65535) →
            (Regex.whole? (word.constrainedPattern cs)).isSome)) := by
  constructor
  · intro h n hleast hgreatest
    rw [isWholeMatch_integer_iff h]
    exact isIntegerText_renderInteger hleast hgreatest
  · intro h
    constructor
    · intro hread s hconvert hleast hgreatest
      obtain ⟨v, hv⟩ := Option.isSome_iff_exists.mp hconvert
      obtain ⟨⟨hne, hchars⟩, -⟩ := convert?_word_eq_some_iff.mp hv
      rw [isWholeMatch_word_iff h]
      exact ⟨hread, isWordText_of_bounds hne hchars hleast hgreatest⟩
    · intro hleast hgreatest
      obtain ⟨g, hword, rfl, hpattern⟩ := exists_group h
      rw [← hpattern]
      exact Group.isSome_whole?_word hword hleast hgreatest

/-- Bounds of different signs, and bounds on the length of a word. -/
theorem isWholeMatch_of_bounds_given :
    (∃ cs, integer.resolve (.ofList [("min", "-1000"), ("max", "5")]) = .ok cs ∧
        Regex.isWholeMatch (integer.constrainedPattern cs) (Text.renderInteger (-999)) = true) ∧
      ∃ cs, word.resolve (.ofList [("minLen", "2"), ("maxLen", "3")]) = .ok cs ∧
        Regex.isWholeMatch (word.constrainedPattern cs) "a-b" = true := by
  have hint : (integer.resolve (.ofList [("min", "-1000"), ("max", "5")])).toOption.any
      (fun cs ↦ decide (Constraint.min? cs = some (-1000)) &&
        decide (Constraint.max? cs = some 5)) = true := by
    decide +kernel
  have hword : (word.resolve (.ofList [("minLen", "2"), ("maxLen", "3")])).toOption.any
      (fun cs ↦ decide (Constraint.minLen? cs = some 2) &&
        decide (Constraint.maxLen? cs = some 3)) = true := by
    decide +kernel
  obtain ⟨cs, hcs, hbounds⟩ := exists_ok_of_any hint
  obtain ⟨cs', hcs', hlengths⟩ := exists_ok_of_any hword
  simp only [Bool.and_eq_true, decide_eq_true_eq] at hbounds hlengths
  refine ⟨⟨cs, hcs, (isWholeMatch_of_bounds _ _).1 hcs (-999) ?_ ?_⟩, cs', hcs', ?_⟩
  · rw [hbounds.1]
    rintro m ⟨⟩
    decide
  · rw [hbounds.2]
    rintro m ⟨⟩
    decide
  · obtain ⟨hmatch, hread⟩ := (isWholeMatch_of_bounds _ _).2 hcs'
    rw [hlengths.1, hlengths.2] at hmatch hread
    apply hmatch
    · apply hread
      · rintro n ⟨⟩
        decide
      · rintro n ⟨⟩
        decide
    · decide +kernel
    · rintro n ⟨⟩
      decide
    · rintro n ⟨⟩
      decide

/-- No word is matched where the greatest length is no count of an expression. -/
theorem exists_word_unmatched :
    ∃ cs, word.resolve (.ofList [("maxLen", "4294967296")]) = .ok cs ∧
      (word.convert? "a").isSome ∧ Constraint.minLen? cs = none ∧
      Constraint.maxLen? cs = some 4294967296 ∧
      Regex.isWholeMatch (word.constrainedPattern cs) "a" = false := by
  have htest : (word.resolve (.ofList [("maxLen", "4294967296")])).toOption.any (fun cs ↦
      (word.convert? "a").isSome && decide (Constraint.minLen? cs = none) &&
        decide (Constraint.maxLen? cs = some 4294967296) &&
          !Regex.isWholeMatch (word.constrainedPattern cs) "a") = true := by
    decide +kernel
  obtain ⟨cs, hcs, htest⟩ := exists_ok_of_any htest
  simp only [Bool.and_eq_true, decide_eq_true_eq, Bool.not_eq_true'] at htest
  obtain ⟨⟨⟨hconvert, hleast⟩, hgreatest⟩, hmatch⟩ := htest
  exact ⟨cs, hcs, hconvert, hleast, hgreatest, hmatch⟩

/-! ### Bounded width -/

/-- What bounds the width of a group is an upper bound of its type. -/
theorem exists_upper_bound (h : t.resolve raw = .ok cs) (hgreedy : isGreedy cs = false) :
    (∃ n, Constraint.max? cs = some n ∧ .max ∈ t.supported) ∨
      ∃ n, Constraint.maxLen? cs = some n ∧ .maxLen ∈ t.supported := by
  obtain ⟨g, rfl, rfl, -⟩ := exists_group h
  have hany : g.constraints.any Constraint.capsWidth = true := by
    simpa [isGreedy] using hgreedy
  obtain ⟨c, hc, hcaps⟩ := List.any_eq_true.mp hany
  have hkind := (written_of_mem g.resolved hc).1
  cases c with
  | max n =>
    refine .inl ⟨n, ?_, hkind⟩
    exact Group.findSome?_eq_some_of_mem hc rfl fun c' _ h ↦ by cases c' <;> cases h; rfl
  | maxLen n =>
    refine .inr ⟨n, ?_, hkind⟩
    exact Group.findSome?_eq_some_of_mem hc rfl fun c' _ h ↦ by cases c' <;> cases h; rfl
  | min n | minLen n | fallback text | startsWith part | endsWith part | contains part =>
    cases hcaps

/-- Without a lower bound a sign may be followed by any number of digits. -/
theorem exists_isWholeMatch_longer (h : integer.resolve raw = .ok cs)
    (hmin : Constraint.min? cs = none) (bound : Nat) :
    ∃ s, Regex.isWholeMatch (integer.constrainedPattern cs) s = true ∧ bound < s.length := by
  refine ⟨String.ofList ('-' :: List.replicate (bound + 1) '0'), ?_, ?_⟩
  · rw [isWholeMatch_integer_iff h, hmin, String.toList_ofList]
    refine .inr ⟨_, rfl, nofun, List.replicate_succ_ne_nil, ?_, nofun⟩
    intro c hc
    rw [List.eq_of_mem_replicate hc]
    rfl
  · rw [String.length_ofList, List.length_cons, List.length_replicate]
    omega

/-- A group that is not greedy has bounded width, unless it is of integers without a lower bound.
Then its width is bounded without a sign, and unbounded with one. `SPEC_FULL.md:33`. -/
theorem length_le_of_not_greedy (raw : RawConstraints) (cs : List Constraint)
    (hgreedy : isGreedy cs = false) :
    (word.resolve raw = .ok cs → ∃ n, Constraint.maxLen? cs = some n ∧
        ∀ s, Regex.isWholeMatch (word.constrainedPattern cs) s = true → s.length ≤ n) ∧
      (integer.resolve raw = .ok cs → ∃ n, Constraint.max? cs = some n ∧
        (∀ m, Constraint.min? cs = some m →
          ∀ s, Regex.isWholeMatch (integer.constrainedPattern cs) s = true →
            s.length ≤ max (digitCount n) (digitCount m + 1)) ∧
        (Constraint.min? cs = none →
          (∀ s, Regex.isWholeMatch (integer.constrainedPattern cs) s = true →
            s.toList.head? ≠ some '-' → s.length ≤ digitCount n) ∧
          ∀ bound, ∃ s, Regex.isWholeMatch (integer.constrainedPattern cs) s = true ∧
            bound < s.length)) := by
  constructor
  · intro h
    obtain ⟨n, -, hkind⟩ | ⟨n, hn, -⟩ := exists_upper_bound h hgreedy
    · simp [word] at hkind
    · refine ⟨n, hn, fun s hs ↦ ?_⟩
      have hlength := ((isWholeMatch_word_iff h).mp hs).2.2.2 n hn
      rwa [String.length_toList] at hlength
  · intro h
    obtain ⟨n, hn, -⟩ | ⟨n, -, hkind⟩ := exists_upper_bound h hgreedy
    · refine ⟨n, hn, fun m hm s hs ↦ ?_, fun hmin ↦ ⟨fun s hs hsign ↦ ?_, ?_⟩⟩
      · rw [isWholeMatch_integer_iff h, hn, hm] at hs
        rw [← String.length_toList]
        obtain hdigits | ⟨ds, hds, -, hdigits⟩ := hs
        · exact Nat.le_trans (hdigits.2.2 _ rfl) (Nat.le_max_left ..)
        · rw [hds, List.length_cons]
          exact Nat.le_trans (Nat.succ_le_succ (hdigits.2.2 _ rfl)) (Nat.le_max_right ..)
      · rw [isWholeMatch_integer_iff h, hn] at hs
        rw [← String.length_toList]
        obtain hdigits | ⟨ds, hds, -⟩ := hs
        · exact hdigits.2.2 _ rfl
        · rw [hds] at hsign
          exact absurd rfl hsign
      · exact exists_isWholeMatch_longer h hmin
    · simp [integer] at hkind

/-- Bounds of different signs bound the width. -/
theorem length_le_of_not_greedy_bounds :
    ∃ cs, integer.resolve (.ofList [("min", "-1000"), ("max", "5")]) = .ok cs ∧
      ∀ s, Regex.isWholeMatch (integer.constrainedPattern cs) s = true → s.length ≤ 5 := by
  have htest : (integer.resolve (.ofList [("min", "-1000"), ("max", "5")])).toOption.any
      (fun cs ↦ !isGreedy cs && decide (Constraint.min? cs = some (-1000)) &&
        decide (Constraint.max? cs = some 5)) = true := by
    decide +kernel
  obtain ⟨cs, hcs, htest⟩ := exists_ok_of_any htest
  simp only [Bool.and_eq_true, decide_eq_true_eq, Bool.not_eq_true'] at htest
  obtain ⟨⟨hgreedy, hmin⟩, hmax⟩ := htest
  obtain ⟨n, hn, hbounded, -⟩ := (length_le_of_not_greedy _ cs hgreedy).2 hcs
  rw [hmax] at hn
  cases hn
  exact ⟨cs, hcs, hbounded (-1000) hmin⟩

/-- An upper bound alone leaves integers of any width. -/
theorem exists_not_greedy_unbounded :
    ∃ cs, integer.resolve (.ofList [("max", "5")]) = .ok cs ∧ isGreedy cs = false ∧
      ∀ bound, ∃ s, Regex.isWholeMatch (integer.constrainedPattern cs) s = true ∧
        bound < s.length := by
  have htest : (integer.resolve (.ofList [("max", "5")])).toOption.any
      (fun cs ↦ !isGreedy cs && decide (Constraint.min? cs = none)) = true := by
    decide +kernel
  obtain ⟨cs, hcs, htest⟩ := exists_ok_of_any htest
  simp only [Bool.and_eq_true, decide_eq_true_eq, Bool.not_eq_true'] at htest
  exact ⟨cs, hcs, htest.1, exists_isWholeMatch_longer hcs htest.2⟩

end ValueType

end UrlPattern
