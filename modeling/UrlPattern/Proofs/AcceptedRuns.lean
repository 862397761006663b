import UrlPattern.Proofs.AcceptedTexts

/-!
# Accepted runs

Which runs of one character give a group a value. The accepted lengths of the runs of one character
have no gap (`Group.acceptsRun_of_between`), since the number that a run of digits denotes grows
with the run, so halving finds the longest one (`Group.longestRun_spec`, `Group.le_longestRun`). If
a group accepts a run at all, it accepts one that is no longer than any given text that it accepts
(`Group.exists_acceptsRun_le`).

Specification: `SPEC_FULL.md` §10.9 (lines 266–281).
-/

namespace UrlPattern

/-! ### Numbers of runs -/

namespace Text

/-- Digits in front count with the power of ten of the digits behind them. -/
theorem ofDigits_append (s t : List Char) :
    ofDigits (s ++ t) = 10 ^ t.length * ofDigits s + ofDigits t := by
  rw [ofDigits_eq, Nat.ofDigitChars_append, Nat.ofDigitChars_eq_ofDigitChars_zero, ofDigits_eq,
    ofDigits_eq]

theorem ofDigits_cons (c : Char) (ds : List Char) :
    ofDigits (c :: ds) = 10 ^ ds.length * digitValue c + ofDigits ds := by
  have hone : ofDigits [c] = digitValue c := by simp [ofDigits]
  rw [← List.singleton_append, ofDigits_append, hone]

/-- A digit behind others moves these one place on. -/
theorem ofDigits_concat (ds : List Char) (c : Char) :
    ofDigits (ds ++ [c]) = 10 * ofDigits ds + digitValue c := by
  rw [ofDigits, List.foldl_append]
  rfl

theorem digitValue_le {c : Char} (h : c.isDigit = true) : digitValue c ≤ 9 := by
  simp only [Char.isDigit, Bool.and_eq_true, decide_eq_true_eq, UInt32.le_iff_toNat_le] at h
  have hnine : c.toNat ≤ 57 := h.2
  have hzero : '0'.toNat = 48 := rfl
  rw [digitValue]
  omega

theorem digitValue_pos {c : Char} (h : c.isDigit = true) (hne : c ≠ '0') : 1 ≤ digitValue c := by
  simp only [Char.isDigit, Bool.and_eq_true, decide_eq_true_eq, UInt32.le_iff_toNat_le] at h
  have hleast : 48 ≤ c.toNat := h.1
  have hzero : '0'.toNat = 48 := rfl
  have hother : c.toNat ≠ 48 := fun heq ↦ hne (Char.toNat_inj.mp heq)
  rw [digitValue]
  omega

/-- So many digits denote a number below that power of ten. -/
theorem ofDigits_lt {ds : List Char} (h : ∀ c ∈ ds, c.isDigit = true) :
    ofDigits ds < 10 ^ ds.length := by
  induction ds with
  | nil => exact Nat.one_pos
  | cons c ds ih =>
    have hc := digitValue_le (h c List.mem_cons_self)
    have hds := ih fun c' hc' ↦ h c' (List.mem_cons_of_mem c hc')
    rw [ofDigits_cons, List.length_cons, Nat.pow_succ]
    have hfront := Nat.mul_le_mul_left (10 ^ ds.length) hc
    omega

/-- The number that a run denotes. -/
def runValue (c : Char) (n : Nat) : Nat := ofDigits (List.replicate n c)

theorem runValue_succ (c : Char) (n : Nat) :
    runValue c (n + 1) = 10 * runValue c n + digitValue c := by
  rw [runValue, List.replicate_succ', ofDigits_concat, runValue]

theorem runValue_lt {c : Char} (h : c.isDigit = true) (n : Nat) : runValue c n < 10 ^ n := by
  have hall : ∀ a ∈ List.replicate n c, a.isDigit = true := fun a ha ↦ by
    rwa [List.eq_of_mem_replicate ha]
  have hlt := ofDigits_lt hall
  rwa [List.length_replicate] at hlt

/-- A longer run denotes no smaller number. -/
theorem runValue_mono (c : Char) {m n : Nat} (h : m ≤ n) : runValue c m ≤ runValue c n := by
  induction h with
  | refl => exact Nat.le_refl _
  | step _ ih =>
    rw [Nat.succ_eq_add_one, runValue_succ]
    omega

/-- A run of zeros denotes zero. -/
theorem runValue_zero (n : Nat) : runValue '0' n = 0 := by
  have hzero : digitValue '0' = 0 := rfl
  induction n with
  | zero => rfl
  | succ n ih => rw [runValue_succ, ih, hzero]

/-- A run of nines denotes the greatest number of its digits. -/
theorem runValue_nine (n : Nat) : runValue '9' n + 1 = 10 ^ n := by
  have hnine : digitValue '9' = 9 := rfl
  induction n with
  | zero => rfl
  | succ n ih =>
    rw [runValue_succ, hnine, Nat.pow_succ, ← ih]
    omega

/-- A run of another digit than zero has no zeros in front. -/
theorem le_runValue {c : Char} (h : c.isDigit = true) (hne : c ≠ '0') (n : Nat) :
    10 ^ n ≤ runValue c (n + 1) := by
  rw [runValue, List.replicate_succ, ofDigits_cons, List.length_replicate]
  have hfront := Nat.mul_le_mul_left (10 ^ n) (digitValue_pos h hne)
  omega

/-- Digits without a sign denote the number of the digits. -/
theorem signedValue_of_isDigit {t : List Char} (h : ∀ c ∈ t, c.isDigit = true) :
    signedValue t = ofDigits t := by
  refine signedValue.eq_2 t fun ds heq ↦ ?_
  have hsign := h '-' (heq ▸ List.mem_cons_self)
  cases hsign

end Text

/-- The runs among the texts of integers are the runs of digits. -/
theorem ValueType.isIntegerText_replicate_iff {c : Char} {n : Nat} :
    IsIntegerText none none (List.replicate n c) ↔ 0 < n ∧ c.isDigit = true := by
  constructor
  · rintro (⟨hne, hall, -⟩ | ⟨ds, heq, -, hne, hall, -⟩)
    · have hn := Nat.pos_of_ne_zero fun hzero ↦ hne ((List.replicate_eq_nil_iff c).mpr hzero)
      exact ⟨hn, hall c (List.mem_replicate.mpr ⟨Nat.ne_of_gt hn, rfl⟩)⟩
    · -- Behind the sign there is a digit, and it is the sign itself.
      have hsame := fun a ha ↦ List.eq_of_mem_replicate (heq ▸ ha : a ∈ List.replicate n c)
      obtain ⟨a, as, rfl⟩ := List.exists_cons_of_ne_nil hne
      have hsign := hsame '-' List.mem_cons_self
      have ha := hsame a (by simp)
      have hdigit := hall a List.mem_cons_self
      rw [ha, ← hsign] at hdigit
      cases hdigit
  · rintro ⟨hn, hc⟩
    refine .inl ⟨fun hnil ↦ ?_, fun a ha ↦ ?_, nofun⟩
    · exact Nat.ne_of_gt hn ((List.replicate_eq_nil_iff c).mp hnil)
    · rwa [List.eq_of_mem_replicate ha]

/-- A constraint on words that admits a run of a character admits its runs of all lengths between
those of two words that it admits. -/
theorem Constraint.isMetBy_run {k : Constraint} {c : Char} {m n : Nat} {s t : String}
    (hrun : k.IsMetBy (.text (Text.run c m))) (hs : k.IsMetBy (.text s))
    (ht : k.IsMetBy (.text t)) (hshort : s.length ≤ n) (hlong : n ≤ t.length) :
    k.IsMetBy (.text (Text.run c n)) := by
  cases k with
  | min b | max b => cases hrun
  | fallback text => trivial
  | minLen b =>
    change b ≤ (Text.run c n).length
    rw [Text.length_run]
    exact Nat.le_trans hs hshort
  | maxLen b =>
    change (Text.run c n).length ≤ b
    rw [Text.length_run]
    exact Nat.le_trans hlong ht
  | startsWith part =>
    simp only [IsMetBy, Text.toList_run, List.prefix_replicate_iff] at hrun ⊢
    refine ⟨?_, hrun.2⟩
    exact Nat.le_trans hs.length_le (String.length_toList ▸ hshort)
  | endsWith part =>
    simp only [IsMetBy, Text.toList_run, List.suffix_replicate_iff] at hrun ⊢
    refine ⟨?_, hrun.2⟩
    exact Nat.le_trans hs.length_le (String.length_toList ▸ hshort)
  | contains part =>
    simp only [IsMetBy, Text.toList_run, List.infix_replicate_iff] at hrun ⊢
    refine ⟨?_, hrun.2⟩
    exact Nat.le_trans hs.length_le (String.length_toList ▸ hshort)

/-- The printable characters are those from the space to the tilde. -/
theorem mem_printableChars {c : Char} : c ∈ printableChars ↔ 32 ≤ c.toNat ∧ c.toNat ≤ 126 := by
  constructor
  · intro hc
    have hall : (printableChars.all fun c ↦ 32 ≤ c.toNat && c.toNat ≤ 126) = true := rfl
    simpa using List.all_eq_true.mp hall c hc
  · intro hc
    exact List.mem_map.mpr ⟨c.toNat, List.mem_range'_1.mpr (by omega), Char.ofNat_toNat c⟩

theorem mem_printableChars_of_isWordChar {c : Char} (h : ValueType.isWordChar c = true) :
    c ∈ printableChars := by
  have halphanum : c.isAlphanum
      = (decide (65 ≤ c.val ∧ c.val ≤ 90) || (decide (97 ≤ c.val) && decide (c.val ≤ 122))
        || (decide (48 ≤ c.val) && decide (c.val ≤ 57))) := rfl
  rw [mem_printableChars]
  simp only [ValueType.isWordChar, halphanum, Bool.or_eq_true, Bool.and_eq_true,
    decide_eq_true_eq, UInt32.le_iff_toNat_le] at h
  change ((((65 ≤ c.toNat ∧ c.toNat ≤ 90) ∨ (97 ≤ c.toNat ∧ c.toNat ≤ 122)) ∨
    (48 ≤ c.toNat ∧ c.toNat ≤ 57)) ∨ c = '_') ∨ c = '-' at h
  rcases h with (((h | h) | h) | rfl) | rfl
  · omega
  · omega
  · omega
  · decide
  · decide

theorem mem_printableChars_of_isDigit {c : Char} (h : c.isDigit = true) : c ∈ printableChars :=
  mem_printableChars_of_isWordChar (by simp [ValueType.isWordChar, Char.isAlphanum, h])

/-- A printable character is one byte. -/
theorem utf8Size_of_mem_printableChars {c : Char} (h : c ∈ printableChars) : c.utf8Size = 1 := by
  have hle : c.val.toNat ≤ 126 := (mem_printableChars.mp h).2
  rw [Char.utf8Size, if_pos (UInt32.le_iff_toNat_le.mpr (Nat.le_trans hle (by decide)))]

theorem Text.byteLength_of_printable {t : List Char} (h : ∀ c ∈ t, c ∈ printableChars) :
    byteLength t = t.length := by
  induction t with
  | nil => rfl
  | cons c t ih =>
    rw [List.forall_mem_cons] at h
    rw [byteLength, utf8Size_of_mem_printableChars h.1, ih h.2, List.length_cons, Nat.add_comm]

namespace Group

variable {g : Group} {c : Char} {low high m n : Nat}

/-! ### Runs of integers and of words -/

/-- A group of integers accepts the runs of digits whose numbers lie between its bounds. -/
theorem acceptsRun_integer_iff (hint : g.type = .integer) : g.acceptsRun c n = true ↔
    0 < n ∧ c.isDigit = true ∧ g.leastValue ≤ Text.runValue c n ∧
      Text.runValue c n ≤ g.greatestValue := by
  rw [acceptsRun, accepts_integer_iff hint, Text.toList_run,
    ValueType.isIntegerText_replicate_iff, and_assoc]
  refine and_congr_right fun _ ↦ and_congr_right fun hc ↦ ?_
  rw [Text.signedValue_of_isDigit fun a ha ↦ by rwa [List.eq_of_mem_replicate ha]]
  rfl

/-- A group of words that accepts a run of a character accepts its runs of all lengths between those
of two accepted words. -/
theorem acceptsRun_word (hword : g.type = .word) {s t : String}
    (hrun : g.acceptsRun c m = true) (hs : g.accepts s = true) (ht : g.accepts t = true)
    (hshort : s.length ≤ n) (hlong : n ≤ t.length) : g.acceptsRun c n = true := by
  obtain ⟨hne, hchars, hmet⟩ := (accepts_word_iff hword).mp hrun
  obtain ⟨hsne, -, hsmet⟩ := (accepts_word_iff hword).mp hs
  obtain ⟨-, -, htmet⟩ := (accepts_word_iff hword).mp ht
  have hm : m ≠ 0 := by
    rintro rfl
    exact hne rfl
  have hn : n ≠ 0 := by
    rintro rfl
    exact hsne (String.length_eq_zero_iff.mp (Nat.le_zero.mp hshort))
  refine (accepts_word_iff hword).mpr ⟨?_, ?_, fun k hk ↦ ?_⟩
  · intro hempty
    have hlist := congrArg String.toList hempty
    rw [Text.toList_run] at hlist
    exact hn ((List.replicate_eq_nil_iff c).mp hlist)
  · simp only [Text.toList_run, List.mem_replicate] at hchars ⊢
    exact fun a ha ↦ hchars a ⟨hm, ha.2⟩
  · exact Constraint.isMetBy_run (hmet k hk) (hsmet k hk) (htmet k hk) hshort hlong

/-- The accepted lengths of the runs of one character have no gap. -/
theorem acceptsRun_of_between (hg : g.IsBuiltin) (hlow : g.acceptsRun c low = true)
    (hhigh : g.acceptsRun c high = true) (hle : low ≤ n) (hle' : n ≤ high) :
    g.acceptsRun c n = true := by
  rcases hg with hint | hword
  · rw [acceptsRun_integer_iff hint] at hlow hhigh ⊢
    have hleast := Text.runValue_mono c hle
    have hgreatest := Text.runValue_mono c hle'
    exact ⟨by omega, hlow.2.1, by omega, by omega⟩
  · apply acceptsRun_word hword hlow hlow hhigh
    · rwa [Text.length_run]
    · rwa [Text.length_run]

/-! ### Searches among runs -/

/-- The search for an accepted run finds one, and no run that was tried before is accepted. -/
theorem shortestRunFrom?_eq_some {lengths : Nat}
    (h : g.shortestRunFrom? low lengths = some (n, c)) :
    low ≤ n ∧ n < low + lengths ∧ c ∈ printableChars ∧ g.acceptsRun c n = true ∧
      ∀ k, low ≤ k → k < n → ∀ d ∈ printableChars, g.acceptsRun d k = false := by
  induction lengths generalizing low with
  | zero => cases h
  | succ lengths ih =>
    rw [shortestRunFrom?] at h
    split at h
    · next d hfind =>
      cases h
      have hd := List.find?_some hfind
      exact ⟨Nat.le_refl _, by omega, List.mem_of_find?_eq_some hfind, hd, by omega⟩
    · next hfind =>
      obtain ⟨hle, hlt, hc, haccept, hbefore⟩ := ih h
      refine ⟨by omega, by omega, hc, haccept, fun k hk hkn d hd ↦ ?_⟩
      rcases Nat.eq_or_lt_of_le hk with rfl | hk
      · exact Bool.eq_false_iff.mpr (List.find?_eq_none.mp hfind d hd)
      · exact hbefore k hk hkn d hd

/-- The search for an accepted run fails if no run that is tried is accepted. -/
theorem shortestRunFrom?_eq_none_iff {lengths : Nat} : g.shortestRunFrom? low lengths = none ↔
    ∀ k, low ≤ k → k < low + lengths → ∀ d ∈ printableChars, g.acceptsRun d k = false := by
  induction lengths generalizing low with
  | zero => exact iff_of_true rfl (by omega)
  | succ lengths ih =>
    rw [shortestRunFrom?]
    split
    · next d hfind =>
      refine iff_of_false nofun fun hnone ↦ ?_
      have hd := hnone low (Nat.le_refl _) (by omega) d (List.mem_of_find?_eq_some hfind)
      rw [List.find?_some hfind] at hd
      cases hd
    · next hfind =>
      rw [ih]
      constructor
      · intro hnone k hk hlt d hd
        rcases Nat.eq_or_lt_of_le hk with rfl | hk
        · exact Bool.eq_false_iff.mpr (List.find?_eq_none.mp hfind d hd)
        · exact hnone k hk (by omega) d hd
      · exact fun hnone k hk hlt ↦ hnone k (by omega) (by omega)

/-- Halving between an accepted and a rejected length ends at an accepted length right before a
rejected one. -/
theorem longestRun_spec (hlt : low < high) (hlow : g.acceptsRun c low = true)
    (hhigh : g.acceptsRun c high = false) :
    low ≤ g.longestRun c low high ∧ g.longestRun c low high < high ∧
      g.acceptsRun c (g.longestRun c low high) = true ∧
        g.acceptsRun c (g.longestRun c low high + 1) = false := by
  induction low, high using longestRun.induct g c with
  | case1 low high hsmall =>
    obtain rfl : high = low + 1 := by omega
    rw [longestRun, if_pos hsmall]
    exact ⟨Nat.le_refl _, hlt, hlow, hhigh⟩
  | case2 low high hlarge middle haccept ih =>
    have heq : g.longestRun c low high = g.longestRun c middle high := by
      rw [longestRun, if_neg hlarge]
      exact if_pos haccept
    obtain ⟨hle, hless, hends⟩ := ih (by omega) haccept hhigh
    rw [heq]
    exact ⟨by omega, hless, hends⟩
  | case3 low high hlarge middle hreject ih =>
    have heq : g.longestRun c low high = g.longestRun c low middle := by
      rw [longestRun, if_neg hlarge]
      exact if_neg hreject
    obtain ⟨hle, hless, hends⟩ := ih (by omega) hlow (Bool.eq_false_iff.mpr hreject)
    rw [heq]
    exact ⟨hle, by omega, hends⟩

/-- No accepted run below the rejected length is longer than the one that halving finds. -/
theorem le_longestRun (hg : g.IsBuiltin) (hlow : g.acceptsRun c low = true)
    (hhigh : g.acceptsRun c high = false) (hle : low ≤ n) (hlt : n < high)
    (hn : g.acceptsRun c n = true) : n ≤ g.longestRun c low high := by
  obtain ⟨-, -, haccept, hreject⟩ := longestRun_spec (by omega) hlow hhigh
  by_contra hlonger
  rw [acceptsRun_of_between hg haccept hn (by omega) (by omega)] at hreject
  cases hreject

/-! ### Runs and texts -/

/-- An accepted text is not empty, and its characters are printable. -/
theorem ne_nil_and_printable_of_accepts (hg : g.IsBuiltin) {t : String}
    (h : g.accepts t = true) : t.toList ≠ [] ∧ ∀ c ∈ t.toList, c ∈ printableChars := by
  rcases hg with hint | hword
  · rcases ((accepts_integer_iff hint).mp h).1 with ⟨hne, hds, -⟩ | ⟨ds, heq, -, -, hds, -⟩
    · exact ⟨hne, fun c hc ↦ mem_printableChars_of_isDigit (hds c hc)⟩
    · rw [heq, List.forall_mem_cons]
      exact ⟨List.cons_ne_nil _ _, by decide, fun c hc ↦ mem_printableChars_of_isDigit (hds c hc)⟩
  · obtain ⟨hne, hchars, -⟩ := (accepts_word_iff hword).mp h
    refine ⟨fun hnil ↦ hne ?_, fun c hc ↦ mem_printableChars_of_isWordChar (hchars c hc)⟩
    exact String.toList_eq_nil_iff.mp hnil

/-- The character of an accepted run is printable. -/
theorem mem_printableChars_of_acceptsRun (hg : g.IsBuiltin) (h : g.acceptsRun c n = true) :
    c ∈ printableChars := by
  obtain ⟨hne, hchars⟩ := ne_nil_and_printable_of_accepts hg h
  rw [Text.toList_run] at hne hchars
  exact hchars c (List.mem_replicate.mpr ⟨fun hn ↦ hne (by rw [hn]; rfl), rfl⟩)

/-- Between bounds that admit zero, all runs of zeros are accepted. -/
theorem acceptsRun_zero (hint : g.type = .integer) (hn : 0 < n) (hleast : g.leastValue ≤ 0)
    (hgreatest : 0 ≤ g.greatestValue) : g.acceptsRun '0' n = true := by
  rw [acceptsRun_integer_iff hint, Text.runValue_zero]
  exact ⟨hn, rfl, hleast, hgreatest⟩

/-- A group that accepts a run and a text accepts a run that is no longer than the text. -/
theorem exists_acceptsRun_le (hg : g.IsBuiltin) (hrun : g.acceptsRun c n = true) {t : String}
    (ht : g.accepts t = true) :
    ∃ d m, 0 < m ∧ m ≤ t.length ∧ g.acceptsRun d m = true := by
  rcases hg with hint | hword
  · obtain ⟨hn, hc, hleast, hgreatest⟩ := (acceptsRun_integer_iff hint).mp hrun
    obtain ⟨htext, htleast, htgreatest⟩ := (accepts_integer_iff hint).mp ht
    rw [← String.length_toList]
    rcases htext with ⟨hne, hdigits, -⟩ | ⟨ds, heq, -, -⟩
    · have hpos := List.length_pos_iff.mpr hne
      by_cases hle : n ≤ t.toList.length
      · exact ⟨c, n, hn, hle, hrun⟩
      · by_cases hzero : c = '0'
        · rw [hzero, Text.runValue_zero] at hleast hgreatest
          exact ⟨'0', 1, Nat.one_pos, hpos, acceptsRun_zero hint Nat.one_pos hleast hgreatest⟩
        · -- The run of nines as long as the text lies between the text and the longer run.
          rw [Text.signedValue_of_isDigit hdigits] at htleast
          have hbelow := Text.ofDigits_lt hdigits
          have hnines := Text.runValue_nine t.toList.length
          have hpow : 10 ^ t.toList.length ≤ 10 ^ (n - 1) :=
            Nat.pow_le_pow_right (by omega) (by omega)
          have habove := Text.le_runValue hc hzero (n - 1)
          rw [Nat.sub_add_cancel hn] at habove
          refine ⟨'9', t.toList.length, hpos, Nat.le_refl _, ?_⟩
          exact (acceptsRun_integer_iff hint).mpr ⟨hpos, rfl, by omega, by omega⟩
    · -- Zero lies between a number with a sign and one without.
      rw [heq, Text.signedValue] at htleast
      refine ⟨'0', 1, Nat.one_pos, by rw [heq, List.length_cons]; omega, ?_⟩
      exact acceptsRun_zero hint Nat.one_pos (by omega) (by omega)
  · obtain ⟨hne, -, -⟩ := (accepts_word_iff hword).mp ht
    have hpos := Nat.pos_of_ne_zero fun hzero ↦ hne (String.length_eq_zero_iff.mp hzero)
    exact ⟨c, t.length, hpos, Nat.le_refl _,
      acceptsRun_word hword hrun ht ht (Nat.le_refl _) (Nat.le_refl _)⟩

/-- The shortest run that is found is no longer than any accepted text. -/
theorem le_length_of_shortestRunFrom? (hg : g.IsBuiltin) {limit : Nat}
    (hfind : g.shortestRunFrom? 1 limit = some (n, c)) {t : String} (ht : g.accepts t = true) :
    n ≤ t.length := by
  obtain ⟨-, -, -, hrun, hbefore⟩ := shortestRunFrom?_eq_some hfind
  obtain ⟨d, m, hpos, hle, hm⟩ := exists_acceptsRun_le hg hrun ht
  by_contra hshort
  rw [hbefore m hpos (by omega) d (mem_printableChars_of_acceptsRun hg hm)] at hm
  cases hm

end Group

end UrlPattern
