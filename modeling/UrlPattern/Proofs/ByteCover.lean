import UrlPattern.Proofs.TreeAnalysis

/-!
# Bytes of matched inputs

An analysis samples the texts of a group by runs of one character with at most one other character
at an end. This finds the bytes of all inputs that a pattern matches without errors if the
constraints leave room for such texts (`Group.LeavesRoom`): an integer may have two more digits than
the least one, and a word has an open end. Else it misses bytes, such as a digit that occurs in
negative numbers alone.

Specification: `SPEC_FULL.md` §4.8 (lines 71–72) and §10.9 (lines 266–281).
-/

namespace UrlPattern

/-- The bytes that may occur add up. -/
theorem Analysis.isKept_chars (options : AnalysisOptions) :
    IsKept options fun a t ↦ ∀ b ∈ Text.utf8 t, a.chars.contains b = true where
  empty := by simp [Text.utf8]
  literal text b hb := (ByteSet.contains_ofList _ b).mpr hb
  followedBy {a b s t} hs ht byte hbyte := by
    change (a.chars.union b.chars).contains byte = true
    rw [ByteSet.contains_union, Bool.or_eq_true]
    rw [Text.utf8_append, List.mem_append] at hbyte
    exact hbyte.imp (hs byte) (ht byte)
  absent _ := by simp [Text.utf8]
  present h := h

/-- The bytes of a text of printable characters are the codes of these. -/
theorem Text.mem_utf8_of_printable {t : List Char} (h : ∀ c ∈ t, c ∈ printableChars) {b : UInt8}
    (hb : b ∈ utf8 t) : ∃ c ∈ t, b = UInt8.ofNat c.toNat := by
  obtain ⟨c, hc, hin⟩ := List.mem_flatMap.mp hb
  rw [String.utf8EncodeChar_eq_singleton (utf8Size_of_mem_printableChars (h c hc)),
    List.mem_singleton] at hin
  exact ⟨c, hc, hin⟩

namespace Group

variable {g : Group} {t : String} {c first : Char} {limit m n : Nat}

/-! ### Words -/

/-- A part that repeats one character is shorter than a text with another. -/
theorem length_lt_of_infix {part text : List Char} {a : Char} (h : part <:+: text)
    (heq : part = List.replicate part.length a) (hc : c ∈ text) (hne : c ≠ a) :
    part.length < text.length := by
  by_contra hnot
  rw [← h.eq_of_length_le (Nat.not_lt.mp hnot), heq] at hc
  exact hne (List.eq_of_mem_replicate hc)

/-- A constraint that a run and a word with another character meet is met by a run with one other
character at an end, if it does not fix that end. This run is shorter than the word. -/
theorem isMetBy_edged {k : Constraint} {a : Char} {n : Nat} {t : String}
    {front back : List Char} (hrun : k.IsMetBy (.text (Text.run a n))) (ht : k.IsMetBy (.text t))
    (hother : ∃ c ∈ t.toList, c ≠ a) (hle : n ≤ t.length)
    (hone : front.length + back.length = 1) (hfront : k.kind = .startsWith → front = [])
    (hback : k.kind = .endsWith → back = []) :
    k.IsMetBy (.text (String.ofList
      (front ++ List.replicate (min n (t.length - 1)) a ++ back))) := by
  obtain ⟨c, hc, hne⟩ := hother
  have hpos : 0 < t.length := by
    rw [← String.length_toList]
    exact List.length_pos_of_mem hc
  have hlength : (front ++ List.replicate (min n (t.length - 1)) a ++ back).length
      = min (n + 1) t.length := by
    rw [List.length_append, List.length_append, List.length_replicate]
    omega
  have hpart : ∀ {part : List Char}, part <:+: t.toList → part = List.replicate part.length a →
      part.length ≤ n → part.length ≤ min n (t.length - 1) := by
    intro part hinfix heq hn
    have hshorter := length_lt_of_infix hinfix heq hc hne
    rw [String.length_toList] at hshorter
    omega
  cases k with
  | min b | max b => cases hrun
  | fallback text => trivial
  | minLen b =>
    simp only [Constraint.IsMetBy, Text.length_run] at hrun
    simp only [Constraint.IsMetBy, String.length_ofList, hlength]
    omega
  | maxLen b =>
    simp only [Constraint.IsMetBy, String.length_ofList, hlength] at ht ⊢
    omega
  | startsWith part =>
    simp only [Constraint.IsMetBy, Text.toList_run, String.toList_ofList,
      List.prefix_replicate_iff] at *
    rw [hfront rfl, List.nil_append]
    have hwithin := List.prefix_replicate_iff.mpr ⟨hpart ht.isInfix hrun.2 hrun.1, hrun.2⟩
    exact hwithin.trans (List.prefix_append _ _)
  | endsWith part =>
    simp only [Constraint.IsMetBy, Text.toList_run, String.toList_ofList,
      List.suffix_replicate_iff] at *
    rw [hback rfl, List.append_nil]
    have hwithin := List.suffix_replicate_iff.mpr ⟨hpart ht.isInfix hrun.2 hrun.1, hrun.2⟩
    exact hwithin.trans (List.suffix_append _ _)
  | contains part =>
    simp only [Constraint.IsMetBy, Text.toList_run, String.toList_ofList,
      List.infix_replicate_iff] at *
    have hwithin := List.infix_replicate_iff.mpr ⟨hpart ht hrun.2 hrun.1, hrun.2⟩
    exact hwithin.trans (List.infix_append _ _ _)

/-- A run with one character in front, or in the place of the first. -/
theorem mem_variants_front {k : Nat} (hk : k = n ∨ k = n - 1) :
    String.ofList (c :: List.replicate k first) ∈ variants (List.replicate n first) c := by
  rcases hk with rfl | rfl
  · simp [variants]
  · simp [variants, List.tail_replicate]

/-- A run with one character behind it, or in the place of the last. -/
theorem mem_variants_back {k : Nat} (hk : k = n ∨ k = n - 1) :
    String.ofList (List.replicate k first ++ [c]) ∈ variants (List.replicate n first) c := by
  rcases hk with rfl | rfl
  · simp [variants]
  · simp [variants, List.dropLast_replicate]

/-- A character is found if it is printable and some variant of the run with it is accepted. -/
theorem mem_acceptedChars_of_variant (hc : c ∈ printableChars) {u : String}
    (hu : u ∈ variants (List.replicate n first) c) (haccept : g.accepts u = true) :
    c ∈ g.acceptedChars n first := by
  have hvariant := List.any_eq_true.mpr ⟨u, hu, haccept⟩
  exact List.mem_filter.mpr ⟨hc, by simp [hvariant]⟩

/-- A group of words that accepts a run and a word with another character accepts a run with that
character at an end that no constraint fixes. -/
theorem accepts_edged (hword : g.type = .word) (hrun : g.acceptsRun first n = true)
    (ht : g.accepts t = true) (hle : n ≤ t.length) (hc : c ∈ t.toList) (hne : c ≠ first)
    (front back : List Char) (hone : front.length + back.length = 1)
    (hsame : ∀ a ∈ front ++ back, a = c)
    (hfront : ∀ k ∈ g.constraints, k.kind = .startsWith → front = [])
    (hback : ∀ k ∈ g.constraints, k.kind = .endsWith → back = []) :
    g.accepts (String.ofList
      (front ++ List.replicate (min n (t.length - 1)) first ++ back)) = true := by
  obtain ⟨-, hrunchars, hrunmet⟩ := (accepts_word_iff hword).mp hrun
  obtain ⟨-, hchars, hmet⟩ := (accepts_word_iff hword).mp ht
  refine (accepts_word_iff hword).mpr ⟨fun hempty ↦ ?_, fun a ha ↦ ?_, fun k hk ↦ ?_⟩
  · have hnil := congrArg String.toList hempty
    rw [String.toList_ofList] at hnil
    have hzero := congrArg List.length hnil
    rw [List.length_append, List.length_append] at hzero
    change _ = 0 at hzero
    omega
  · rw [Text.toList_run] at hrunchars
    rw [String.toList_ofList, List.mem_append, List.mem_append, List.mem_replicate] at ha
    rcases ha with (ha | ⟨hpos, rfl⟩) | ha
    · rw [hsame a (List.mem_append_left _ ha)]
      exact hchars c hc
    · exact hrunchars a (List.mem_replicate.mpr ⟨by omega, rfl⟩)
    · rw [hsame a (List.mem_append_right _ ha)]
      exact hchars c hc
  · exact isMetBy_edged (hrunmet k hk) (hmet k hk) ⟨c, hc, hne⟩ hle hone (hfront k hk) (hback k hk)

/-- Every character of an accepted word is found, if the constraints leave one end open. -/
theorem mem_acceptedChars_word (hword : g.type = .word)
    (hopen : (∀ k ∈ g.constraints, k.kind ≠ .startsWith) ∨
      ∀ k ∈ g.constraints, k.kind ≠ .endsWith)
    (hrun : g.acceptsRun first n = true) (hle : n ≤ t.length) (ht : g.accepts t = true)
    (hc : c ∈ t.toList) : c ∈ g.acceptedChars n first := by
  have hprintable := (ne_nil_and_printable_of_accepts (.inr hword) ht).2 c hc
  by_cases hfirst : c = first
  · exact List.mem_filter.mpr ⟨hprintable, by simp [hfirst]⟩
  · have hpos : 0 < t.length := by
      rw [← String.length_toList]
      exact List.length_pos_of_mem hc
    have hk : min n (t.length - 1) = n ∨ min n (t.length - 1) = n - 1 := by omega
    rcases hopen with hstart | hend
    · refine mem_acceptedChars_of_variant hprintable (mem_variants_front hk) ?_
      have haccept := accepts_edged hword hrun ht hle hc hfirst [c] [] rfl (by simp)
        (fun k hk heq ↦ absurd heq (hstart k hk)) (fun _ _ _ ↦ rfl)
      rwa [List.append_nil] at haccept
    · refine mem_acceptedChars_of_variant hprintable (mem_variants_back hk) ?_
      exact accepts_edged hword hrun ht hle hc hfirst [] [c] rfl (by simp) (fun _ _ _ ↦ rfl)
        (fun k hk heq ↦ absurd heq (hend k hk))

/-! ### Integers -/

/-- The character of the shortest run that is found is the least one with such a run. -/
theorem acceptsRun_of_lt_first {lengths low : Nat}
    (h : g.shortestRunFrom? low lengths = some (n, c)) {d : Char} (hd : d ∈ printableChars)
    (hlt : d < c) : g.acceptsRun d n = false := by
  have hsorted : printableChars.Pairwise (· < ·) := by decide +kernel
  induction lengths generalizing low with
  | zero => cases h
  | succ lengths ih =>
    rw [shortestRunFrom?] at h
    split at h
    · next c' hfind =>
      cases h
      obtain ⟨-, before, behind, heq, hbefore⟩ := List.find?_eq_some_iff_append.mp hfind
      rw [heq, List.mem_append, List.mem_cons] at hd
      rw [heq, List.pairwise_append, List.pairwise_cons] at hsorted
      rcases hd with hd | rfl | hd
      · simpa using hbefore d hd
      · exact absurd hlt (Char.lt_irrefl d)
      · exact absurd hlt (Char.lt_asymm (hsorted.2.1.1 d hd))
    · exact ih h

/-- The characters of an accepted integer are digits, and the sign if the bounds admit a number that
is not positive. -/
theorem isDigit_or_sign (hint : g.type = .integer) (ht : g.accepts t = true) (hc : c ∈ t.toList) :
    c.isDigit = true ∨ c = '-' ∧ g.leastValue ≤ 0 := by
  obtain ⟨htext, hleast, -⟩ := (accepts_integer_iff hint).mp ht
  rcases htext with ⟨-, hdigits, -⟩ | ⟨ds, heq, -, -, hdigits, -⟩
  · exact .inl (hdigits c hc)
  · rw [heq, Text.signedValue] at hleast
    rw [heq, List.mem_cons] at hc
    rcases hc with rfl | hc
    · exact .inr ⟨rfl, by omega⟩
    · exact .inl (hdigits c hc)

/-- If zero is admitted, the digits are found by themselves and the sign in front of zero. -/
theorem mem_acceptedChars_zero (hint : g.type = .integer) (hleast : g.leastValue ≤ 0)
    (hgreatest : 9 ≤ g.greatestValue) (hfind : g.shortestRunFrom? 1 limit = some (n, first))
    (hc : c.isDigit = true ∨ c = '-') : c ∈ g.acceptedChars n first := by
  obtain ⟨hpos, -, -, hrun, hbefore⟩ := shortestRunFrom?_eq_some hfind
  have hzero : g.acceptsRun '0' 1 = true := acceptsRun_zero hint Nat.one_pos hleast (by omega)
  obtain rfl : n = 1 := by
    by_contra hlong
    rw [hbefore 1 (Nat.le_refl 1) (by omega) '0' (by decide)] at hzero
    cases hzero
  rcases hc with hc | rfl
  · have hvalue := Text.runValue_lt hc 1
    have haccept : g.acceptsRun c 1 = true :=
      (acceptsRun_integer_iff hint).mpr ⟨Nat.one_pos, hc, by omega, by omega⟩
    exact List.mem_filter.mpr
      ⟨mem_printableChars_of_acceptsRun (.inl hint) haccept, by simp [haccept]⟩
  · -- No digit comes before zero.
    obtain rfl : first = '0' := by
      obtain ⟨-, hdigit, -⟩ := (acceptsRun_integer_iff hint).mp hrun
      have hnot : ¬ '0' < first := fun hlt ↦ by
        rw [acceptsRun_of_lt_first hfind (by decide) hlt] at hzero
        cases hzero
      simp only [Char.isDigit, Bool.and_eq_true, decide_eq_true_eq] at hdigit
      exact Char.le_antisymm (Char.not_lt.mp hnot) hdigit.1
    refine mem_acceptedChars_of_variant (by decide) (mem_variants_front (.inl rfl)) ?_
    refine (accepts_integer_iff hint).mpr ?_
    rw [String.toList_ofList]
    refine ⟨.inr ⟨['0'], rfl, nofun, by simp, by simp, nofun⟩, ?_⟩
    change _ ≤ -(0 : Int) ∧ -(0 : Int) ≤ _
    omega

/-- If the bounds are positive, the shortest run is no longer than the least value: else a shorter
run of nines would lie between the bounds. -/
theorem pow_le_leastValue (hint : g.type = .integer) (hleast : 0 < g.leastValue)
    (hfind : g.shortestRunFrom? 1 limit = some (n + 1, first)) : (10 ^ n : Nat) ≤ g.leastValue := by
  obtain ⟨-, -, -, hrun, hbefore⟩ := shortestRunFrom?_eq_some hfind
  obtain ⟨-, hdigit, hlow, hhigh⟩ := (acceptsRun_integer_iff hint).mp hrun
  have hne : first ≠ '0' := by
    rintro rfl
    rw [Text.runValue_zero] at hlow
    omega
  by_contra hless
  have hpos : 0 < n := Nat.pos_of_ne_zero (by rintro rfl; omega)
  have hnines := Text.runValue_nine n
  have habove := Text.le_runValue hdigit hne n
  have haccept : g.acceptsRun '9' n = true :=
    (acceptsRun_integer_iff hint).mpr ⟨hpos, rfl, by omega, by omega⟩
  rw [hbefore n hpos (by omega) '9' (by decide)] at haccept
  cases haccept

/-- If the bounds are positive, a digit is found behind the shortest run. -/
theorem mem_acceptedChars_positive (hint : g.type = .integer) (hleast : 0 < g.leastValue)
    (hroom : 100 * g.leastValue ≤ g.greatestValue)
    (hfind : g.shortestRunFrom? 1 limit = some (n, first)) (hc : c.isDigit = true) :
    c ∈ g.acceptedChars n first := by
  obtain ⟨hpos, -, -, hrun, -⟩ := shortestRunFrom?_eq_some hfind
  obtain ⟨-, hdigit, hlow, hhigh⟩ := (acceptsRun_integer_iff hint).mp hrun
  obtain ⟨m, rfl⟩ : ∃ m, n = m + 1 := ⟨n - 1, by omega⟩
  have hwidth := pow_le_leastValue hint hleast hfind
  have hrunvalue := Text.runValue_lt hdigit (m + 1)
  rw [Nat.pow_succ] at hrunvalue
  have hdigitvalue := Text.digitValue_le hc
  refine mem_acceptedChars_of_variant (mem_printableChars_of_isDigit hc)
    (mem_variants_back (.inl rfl)) ?_
  have hdigits : ∀ a ∈ List.replicate (m + 1) first ++ [c], a.isDigit = true := by
    intro a ha
    rcases List.mem_append.mp ha with ha | ha
    · rwa [List.eq_of_mem_replicate ha]
    · rwa [List.mem_singleton.mp ha]
  refine (accepts_integer_iff hint).mpr ?_
  have hfront : Text.ofDigits (List.replicate (m + 1) first) = Text.runValue first (m + 1) := rfl
  rw [String.toList_ofList, Text.signedValue_of_isDigit hdigits, Text.ofDigits_concat, hfront]
  exact ⟨.inl ⟨by simp, hdigits, nofun⟩, by omega, by omega⟩

/-- The characters of an accepted integer are found, if the greatest value leaves room for all
digits and for two more of them than a positive least value has. -/
theorem mem_acceptedChars_integer (hint : g.type = .integer) (hnine : 9 ≤ g.greatestValue)
    (hroom : 100 * g.leastValue ≤ g.greatestValue)
    (hfind : g.shortestRunFrom? 1 limit = some (n, first)) (ht : g.accepts t = true)
    (hc : c ∈ t.toList) : c ∈ g.acceptedChars n first := by
  have hchar := isDigit_or_sign hint ht hc
  by_cases hzero : g.leastValue ≤ 0
  · exact mem_acceptedChars_zero hint hzero hnine hfind (hchar.imp_right And.left)
  · have hdigit := hchar.resolve_right fun hsign ↦ hzero hsign.2
    exact mem_acceptedChars_positive hint (by omega) hroom hfind hdigit

/-! ### Groups -/

/-- The constraints leave room for a character next to a run: the greatest integer is far above the
least one, or one end of a word is open. -/
structure LeavesRoom (g : Group) : Prop where
  integer : g.type = .integer → 9 ≤ g.greatestValue ∧ 100 * g.leastValue ≤ g.greatestValue
  word : g.type = .word → (∀ k ∈ g.constraints, k.kind ≠ .startsWith) ∨
    ∀ k ∈ g.constraints, k.kind ≠ .endsWith

/-- The bytes of an accepted text are among those that the analysis reports. -/
theorem contains_analysis (options : AnalysisOptions) (hg : g.IsBuiltin) (hroom : g.LeavesRoom)
    (ht : g.accepts t = true) {b : UInt8} (hb : b ∈ Text.utf8 t.toList) :
    (g.analysis options).chars.contains b = true := by
  have hprintable := (ne_nil_and_printable_of_accepts hg ht).2
  obtain ⟨c, hc, rfl⟩ := Text.mem_utf8_of_printable hprintable hb
  cases hfind : g.shortestRunFrom? 1 (max options.probeLimit 1) with
  | none =>
    have hrange := mem_printableChars.mp (hprintable c hc)
    simp only [analysis, hfind]
    refine (ByteSet.contains_ofList _ _).mpr (List.mem_map.mpr ⟨c.toNat, ?_, rfl⟩)
    exact List.mem_range'_1.mpr (by omega)
  | some found =>
    obtain ⟨n, first⟩ := found
    have hfound : c ∈ g.acceptedChars n first := by
      rcases hg with hint | hword
      · obtain ⟨hnine, hfar⟩ := hroom.integer hint
        exact mem_acceptedChars_integer hint hnine hfar hfind ht hc
      · obtain ⟨-, -, -, hrun, -⟩ := shortestRunFrom?_eq_some hfind
        have hle := le_length_of_shortestRunFrom? (.inr hword) hfind ht
        exact mem_acceptedChars_word hword (hroom.word hword) hrun hle ht hc
    simp only [analysis, hfind]
    exact (ByteSet.contains_ofList _ _).mpr (List.mem_map_of_mem hfound)

end Group

namespace Compiler

variable {pipeline : Pipeline} {source : String} {p : Pattern} {s : String} {r : MatchResult}

/-- Every byte of an input that a pattern matches without errors is among those that the analysis of
the pattern reports, if the constraints of all groups leave room. `SPEC_FULL.md:72`. -/
theorem contains_of_match? (h : (⟨.builtin, pipeline⟩ : Compiler).compile source = .ok p)
    (options : AnalysisOptions) (hroom : ∀ g ∈ p.tree.groups, g.LeavesRoom)
    (hmatch : p.match? s = some r) (herrors : r.errors = []) :
    ∀ b ∈ Text.utf8 s.toList, (p.tree.analysis options).chars.contains b = true := by
  have hp := isDerived_of_compile h
  refine hp.analysis_of_match? (Analysis.isKept_chars options) ?_ hmatch herrors
  intro g hg t _ haccept b hb
  exact Group.contains_analysis options (hp.builtin g hg) (hroom g hg) haccept hb

/-- A negative number and a word with an open end. -/
theorem contains_of_match?_signed :
    ∃ p r, standard.compile "\x7bn:int(max=9)\x7d:\x7bs:string(startsWith=ab,maxLen=5)\x7d"
        = .ok p ∧
      (∀ g ∈ p.tree.groups, g.LeavesRoom) ∧ p.match? "-17:abz" = some r ∧ r.errors = [] ∧
      ∀ b ∈ Text.utf8 "-17:abz".toList, (p.tree.analysis .standard).chars.contains b = true := by
  have htest : (standard.compile
      "\x7bn:int(max=9)\x7d:\x7bs:string(startsWith=ab,maxLen=5)\x7d").toOption.any
      (fun p ↦ (p.match? "-17:abz").any fun r ↦ r.errors.isEmpty && p.tree.groups.all fun g ↦
        (g.type.name != "int" ||
          (decide (9 ≤ g.greatestValue) && decide (100 * g.leastValue ≤ g.greatestValue))) &&
        (g.type.name != "string" || g.constraints.all fun k ↦ k.kind ≠ .endsWith)) = true := by
    decide +kernel
  obtain ⟨p, hp, htest⟩ := exists_ok_of_any htest
  obtain ⟨r, hr, htest⟩ := (Option.any_eq_true ..).mp htest
  obtain ⟨hempty, htest⟩ := Bool.and_eq_true_iff.mp htest
  have herrors := List.isEmpty_iff.mp hempty
  have hroom : ∀ g ∈ p.tree.groups, g.LeavesRoom := by
    intro g hg
    obtain ⟨hinteger, hword⟩ := Bool.and_eq_true_iff.mp (List.all_eq_true.mp htest g hg)
    constructor
    · intro hint
      rw [hint] at hinteger
      simpa [ValueType.integer] using hinteger
    · intro htype
      rw [htype] at hword
      exact .inr (by simpa [ValueType.word] using hword)
  exact ⟨p, r, hp, hroom, hr, herrors, contains_of_match? hp .standard hroom hr herrors⟩

/-- The digit of a negative number goes unnoticed, since no positive one of the group has it. -/
theorem exists_match?_uncovered :
    ∃ p r, standard.compile "\x7bn:int(min=-5,max=3)\x7d" = .ok p ∧
      p.match? "-5" = some r ∧ r.errors = [] ∧
      ∃ b ∈ Text.utf8 "-5".toList, (p.tree.analysis .standard).chars.contains b = false := by
  have htest : (standard.compile "\x7bn:int(min=-5,max=3)\x7d").toOption.any
      (fun p ↦ (p.match? "-5").any fun r ↦
        r.errors.isEmpty && !(p.tree.analysis .standard).chars.contains 53) = true := by
    decide +kernel
  obtain ⟨p, hp, htest⟩ := exists_ok_of_any htest
  obtain ⟨r, hr, htest⟩ := (Option.any_eq_true ..).mp htest
  obtain ⟨hempty, hmissing⟩ := Bool.and_eq_true_iff.mp htest
  refine ⟨p, r, hp, hr, List.isEmpty_iff.mp hempty, 53, by decide, ?_⟩
  simpa using hmissing

end Compiler

end UrlPattern
