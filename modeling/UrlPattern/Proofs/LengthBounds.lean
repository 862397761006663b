import Mathlib.Algebra.GroupWithZero.Nat
import UrlPattern.Prefilter
import UrlPattern.Proofs.TreeAnalysis

/-!
# Bounds on lengths

The least length that an analysis reports is a lower bound on the inputs that a pattern matches
without errors, since a group that accepts a text accepts a run that is no longer.

The greatest length is that of a run too, but a text may be longer than all accepted runs: between 1
and 10 the only number of two digits is no run. It is an upper bound for words, and for integers if
zero may be written in any width or if some digit has runs of the widths of both bounds
(`Group.length_le_maxLen`).

Specification: `SPEC_FULL.md` §4.8 (lines 71–72) and §10.9 (lines 266–281).
-/

namespace UrlPattern

namespace Analysis

/-- Lower bounds add up. -/
theorem isKept_minLen (options : AnalysisOptions) :
    IsKept options fun a t ↦ a.minLen ≤ Text.byteLength t where
  empty := Nat.le_refl 0
  literal text := by
    rw [Text.byteLength_toList]
    exact Nat.min_le_left _ _
  followedBy hs ht := by
    rw [Text.byteLength_append]
    exact Nat.le_trans (Nat.min_le_left _ _) (Nat.add_le_add hs ht)
  absent _ := Nat.zero_le _
  present _ := Nat.zero_le _

/-- Upper bounds add up until the ceiling is reached. -/
theorem isKept_maxLen (options : AnalysisOptions) :
    IsKept options fun a t ↦ Text.byteLength t ≤ a.maxLen ∨ options.ceiling ≤ a.maxLen where
  empty := .inl (Nat.le_refl 0)
  literal text := by
    rw [Text.byteLength_toList]
    change _ ≤ min text.utf8ByteSize options.ceiling ∨ _ ≤ min text.utf8ByteSize options.ceiling
    omega
  followedBy {a b s t} hs ht := by
    rw [Text.byteLength_append]
    change _ ≤ min (a.maxLen + b.maxLen) options.ceiling ∨
      _ ≤ min (a.maxLen + b.maxLen) options.ceiling
    omega
  absent _ := .inl (Nat.zero_le _)
  present h := h

end Analysis

namespace Node

variable (options : AnalysisOptions)

theorem maxLen_analysisFrom_le {before : Analysis} {ns : List Node}
    (h : before.maxLen ≤ options.ceiling) :
    (analysisFrom options before ns).maxLen ≤ options.ceiling := by
  induction ns generalizing before with
  | nil => exact h
  | cons n ns ih => exact ih (Nat.min_le_right _ _)

/-- No greatest length exceeds the ceiling. -/
theorem maxLen_analysis_le (n : Node) :
    (n.analysis options).maxLen ≤ options.ceiling := by
  cases n with
  | literal text tag => exact Nat.min_le_right _ _
  | group g =>
    rw [analysis, Group.analysis]
    split
    · exact Nat.le_refl _
    · exact Nat.min_le_right _ _
  | sequence children tag => exact maxLen_analysisFrom_le options (Nat.zero_le _)
  | optional children tag => exact maxLen_analysisFrom_le options (Nat.zero_le _)

mutual

/-- The greatest length of a tree is at most that of its groups and literals together. -/
theorem maxLen_analysis_le_sum (n : Node) :
    (n.analysis options).maxLen ≤ (n.groups.map fun g ↦ (g.analysis options).maxLen).sum
      + (n.literalTexts.map String.utf8ByteSize).sum := by
  cases n with
  | literal text tag =>
    change min text.utf8ByteSize options.ceiling ≤ 0 + (text.utf8ByteSize + 0)
    omega
  | group g => exact Nat.le_refl _
  | sequence children tag =>
    have hchildren := maxLen_analysisFrom_le_sum children .empty
    rwa [Nat.add_assoc, Analysis.empty, Nat.zero_add] at hchildren
  | optional children tag =>
    have hchildren := maxLen_analysisFrom_le_sum children .empty
    rwa [Nat.add_assoc, Analysis.empty, Nat.zero_add] at hchildren

/-- The same of several trees that follow an analyzed text. -/
theorem maxLen_analysisFrom_le_sum (ns : List Node) (before : Analysis) :
    (analysisFrom options before ns).maxLen ≤
      before.maxLen + ((groupsOf ns).map fun g ↦ (g.analysis options).maxLen).sum
        + ((literalTextsOf ns).map String.utf8ByteSize).sum := by
  cases ns with
  | nil => exact Nat.le_refl _
  | cons n ns =>
    have hfirst := maxLen_analysis_le_sum n
    have hothers := maxLen_analysisFrom_le_sum ns
      (before.followedBy options.ceiling (n.analysis options))
    have hjoined : (before.followedBy options.ceiling (n.analysis options)).maxLen
        ≤ before.maxLen + (n.analysis options).maxLen := Nat.min_le_left _ _
    rw [analysisFrom, groupsOf, literalTextsOf, List.map_append, List.map_append,
      List.sum_append, List.sum_append]
    omega

end

end Node

namespace Group

variable {g : Group} {t : String} {c first : Char} {limit m n w : Nat} (options : AnalysisOptions)

/-! ### The least length -/

/-- No accepted text has fewer characters than the least length that the analysis reports. -/
theorem minLen_le_length (hg : g.IsBuiltin) (ht : g.accepts t = true) :
    (g.analysis options).minLen ≤ t.length := by
  rw [analysis]
  split
  · exact Nat.zero_le _
  · next hfind => exact le_length_of_shortestRunFrom? hg hfind ht

/-! ### The greatest length -/

/-- The greatest length of the runs is that of the longest run of any character, unless a run of the
greatest length tried is accepted. -/
theorem longestRunOf_le_iff {chars : List Char}
    (hlimit : (chars.any fun c ↦ g.acceptsRun c limit) = false) :
    g.longestRunOf options limit n chars ≤ w ↔
      n ≤ w ∧ ∀ c ∈ chars, g.acceptsRun c n = true → g.longestRun c n limit ≤ w := by
  have hfold : ∀ (chars : List Char) (longest : Nat),
      chars.foldl (fun longest c ↦
        if g.acceptsRun c n then max longest (g.longestRun c n limit) else longest) longest ≤ w ↔
      longest ≤ w ∧ ∀ c ∈ chars, g.acceptsRun c n = true → g.longestRun c n limit ≤ w := by
    intro chars
    induction chars with
    | nil => simp
    | cons c chars ih =>
      intro longest
      rw [List.foldl_cons, ih, List.forall_mem_cons]
      split
      · next haccept => simp [haccept, and_assoc]
      · next hreject => simp [hreject]
  rw [longestRunOf, if_neg (by simp [hlimit])]
  exact hfold chars n

/-- An accepted run bounds the greatest length from below, if no character has a shorter run than
its own. -/
theorem le_maxLen_of_acceptsRun (hg : g.IsBuiltin)
    (hfind : g.shortestRunFrom? 1 (max options.probeLimit 1) = some (n, first))
    (hshort : g.acceptsRun c n = true) (hle : n ≤ m) (hlong : g.acceptsRun c m = true) :
    m ≤ (g.analysis options).maxLen ∨ options.ceiling ≤ (g.analysis options).maxLen := by
  obtain ⟨-, hn, -⟩ := shortestRunFrom?_eq_some hfind
  have hc : c ∈ g.acceptedChars n first :=
    List.mem_filter.mpr ⟨mem_printableChars_of_acceptsRun hg hshort, by simp [hshort]⟩
  simp only [analysis, hfind]
  cases hlimit : (g.acceptedChars n first).any fun c ↦
      g.acceptsRun c (max options.probeLimit 1) with
  | true =>
    rw [longestRunOf, if_pos hlimit]
    exact .inr (by omega)
  | false =>
    have hreject : g.acceptsRun c (max options.probeLimit 1) = false := by
      simpa using List.any_eq_false.mp hlimit c hc
    have hbelow : m < max options.probeLimit 1 := by
      by_contra hnot
      rw [acceptsRun_of_between hg hshort hlong (by omega) (by omega)] at hreject
      cases hreject
    have hfound := le_longestRun hg hshort hreject hle hbelow hlong
    have hlongest := ((longestRunOf_le_iff options hlimit).mp (Nat.le_refl _)).2 c hc hshort
    omega

/-- The runs of one digit reach from the width of the least value to that of the greatest. -/
def HasFullRuns (g : Group) : Prop :=
  ∃ least greatest c, Constraint.min? g.constraints = some least ∧
    Constraint.max? g.constraints = some greatest ∧
      g.acceptsRun c (ValueType.digitCount least) = true ∧
        g.acceptsRun c (ValueType.digitCount greatest) = true

/-- Of a group of words, the greatest length is an upper bound. -/
theorem length_le_maxLen_word (hword : g.type = .word) (ht : g.accepts t = true) :
    t.length ≤ (g.analysis options).maxLen ∨ options.ceiling ≤ (g.analysis options).maxLen := by
  cases hfind : g.shortestRunFrom? 1 (max options.probeLimit 1) with
  | none => exact .inr (by simp [analysis, hfind])
  | some found =>
    obtain ⟨-, -, -, hrun, -⟩ := shortestRunFrom?_eq_some hfind
    refine le_maxLen_of_acceptsRun options (.inr hword) hfind hrun
      (le_length_of_shortestRunFrom? (.inr hword) hfind ht) ?_
    exact acceptsRun_word hword hrun ht ht (Nat.le_refl _) (Nat.le_refl _)

/-- The shortest run has the width of a positive least value, if a run of this width is accepted. -/
theorem digitCount_eq_of_shortestRunFrom? (hint : g.type = .integer) {least : Int64}
    (hmin : Constraint.min? g.constraints = some least) (hleast : 0 < g.leastValue)
    (hfind : g.shortestRunFrom? 1 limit = some (n, first))
    (hlow : g.acceptsRun c (ValueType.digitCount least) = true) :
    ValueType.digitCount least = n := by
  obtain ⟨hpos, -, -, hrun, hbefore⟩ := shortestRunFrom?_eq_some hfind
  obtain ⟨-, hdigit, hvalue, -⟩ := (acceptsRun_integer_iff hint).mp hrun
  have heq : g.leastValue = least.toInt := by
    rw [leastValue, hmin]
    rfl
  apply Nat.le_antisymm
  · have hbelow := Text.runValue_lt hdigit n
    exact (Nat.length_toDigits_le_iff (by omega) hpos).mpr (by omega)
  · by_contra hless
    have hreject := hbefore (ValueType.digitCount least) Nat.length_toDigits_pos (by omega) c
      (mem_printableChars_of_acceptsRun (.inl hint) hlow)
    rw [hlow] at hreject
    cases hreject

/-- Of a group of integers that admits zero or whose runs reach the widths of its bounds, the
greatest length is an upper bound. -/
theorem length_le_maxLen_integer (hint : g.type = .integer)
    (hfull : g.leastValue ≤ 0 ∨ g.HasFullRuns) (hspells : g.Spells t.toList)
    (ht : g.accepts t = true) :
    t.length ≤ (g.analysis options).maxLen ∨ options.ceiling ≤ (g.analysis options).maxLen := by
  cases hfind : g.shortestRunFrom? 1 (max options.probeLimit 1) with
  | none => exact .inr (by simp [analysis, hfind])
  | some found =>
    obtain ⟨n, first⟩ := found
    obtain ⟨hpos, -, -, hrun, hbefore⟩ := shortestRunFrom?_eq_some hfind
    obtain ⟨-, hdigit, hleast, hgreatest⟩ := (acceptsRun_integer_iff hint).mp hrun
    have hn := le_length_of_shortestRunFrom? (.inl hint) hfind ht
    by_cases hzero : g.leastValue ≤ 0
    · have hzeros := fun {k} (hk : 0 < k) ↦ acceptsRun_zero hint hk hzero (by omega)
      exact le_maxLen_of_acceptsRun options (.inl hint) hfind (hzeros hpos) hn (hzeros (by omega))
    · obtain ⟨least, greatest, c, hmin, hmax, hlow, hhigh⟩ := hfull.resolve_left hzero
      have hlength : t.length ≤ ValueType.digitCount greatest := by
        rw [spells_integer_iff hint, hmin, hmax] at hspells
        rw [← String.length_toList]
        rcases hspells with hds | ⟨ds, -, hsign, -⟩
        · exact hds.2.2 _ rfl
        · have hneg := hsign least rfl
          rw [leastValue, hmin] at hzero
          change ¬ least.toInt ≤ 0 at hzero
          omega
      rw [digitCount_eq_of_shortestRunFrom? hint hmin (by omega) hfind hlow] at hlow
      have hreach := le_maxLen_of_acceptsRun options (.inl hint) hfind hlow (by omega) hhigh
      omega

/-- What a group takes of an input keeps to the greatest length that the analysis reports, if a
group of integers admits zero or has runs that reach the widths of its bounds. -/
theorem length_le_maxLen (hg : g.IsBuiltin)
    (hfull : g.type = .integer → g.leastValue ≤ 0 ∨ g.HasFullRuns) (hspells : g.Spells t.toList)
    (ht : g.accepts t = true) :
    t.length ≤ (g.analysis options).maxLen ∨ options.ceiling ≤ (g.analysis options).maxLen := by
  rcases hg with hint | hword
  · exact length_le_maxLen_integer options hint (hfull hint) hspells ht
  · exact length_le_maxLen_word options hword ht

/-- Between zero and eleven there is no run of several digits. -/
theorem acceptsRun_eq_false_of_lt_eleven (hint : g.type = .integer) (hleast : 0 < g.leastValue)
    (hgreatest : g.greatestValue < 11) (hn : 1 < n) : g.acceptsRun c n = false := by
  rw [Bool.eq_false_iff, ne_eq, acceptsRun_integer_iff hint]
  rintro ⟨-, hdigit, hlow, hhigh⟩
  have htwo : Text.runValue c 2 ≤ Text.runValue c n := Text.runValue_mono c hn
  have hdouble : Text.runValue c 2 = 11 * Text.digitValue c := by
    rw [Text.runValue_succ, Text.runValue_succ]
    change 10 * (10 * 0 + _) + _ = _
    omega
  by_cases hzero : c = '0'
  · rw [hzero, Text.runValue_zero] at hlow
    omega
  · have hpos := Text.digitValue_pos hdigit hzero
    omega

/-- If no run longer than a width is accepted, the greatest length is no longer either. -/
theorem maxLen_le_of_acceptsRun (hwidth : ∀ d k, w < k → g.acceptsRun d k = false)
    (hlimit : w < max options.probeLimit 1) (hrun : c ∈ printableChars)
    (haccept : g.acceptsRun c 1 = true) : (g.analysis options).maxLen ≤ w := by
  have hwithin : ∀ {d k}, g.acceptsRun d k = true → k ≤ w := fun {d k} hk ↦ by
    by_contra hlong
    rw [hwidth d k (by omega)] at hk
    cases hk
  cases hfind : g.shortestRunFrom? 1 (max options.probeLimit 1) with
  | none =>
    rw [shortestRunFrom?_eq_none_iff.mp hfind 1 (Nat.le_refl 1) (by omega) c hrun] at haccept
    cases haccept
  | some found =>
    obtain ⟨n, first⟩ := found
    obtain ⟨-, -, -, hfirst, -⟩ := shortestRunFrom?_eq_some hfind
    have hreject := fun d ↦ hwidth d _ hlimit
    have hlongest : g.longestRunOf options (max options.probeLimit 1) n
        (g.acceptedChars n first) ≤ w := by
      refine (longestRunOf_le_iff options (by simp [hreject])).mpr ⟨hwithin hfirst, ?_⟩
      intro d _ hd
      have hn := hwithin hd
      exact hwithin (longestRun_spec (by omega) hd (hreject d)).2.2.1
    simp only [analysis, hfind]
    omega

end Group

namespace Compiler

variable {pipeline : Pipeline} {source : String} {p : Pattern} {s : String} {r : MatchResult}

/-- An input that a pattern matches without errors has no fewer bytes than the least length that the
analysis of the pattern reports. `SPEC_FULL.md:72`. -/
theorem minLen_le_of_match? (h : (⟨.builtin, pipeline⟩ : Compiler).compile source = .ok p)
    (options : AnalysisOptions) (hmatch : p.match? s = some r) (herrors : r.errors = []) :
    (p.tree.analysis options).minLen ≤ s.utf8ByteSize := by
  have hp := isDerived_of_compile h
  rw [← Text.byteLength_toList]
  refine hp.analysis_of_match? (Analysis.isKept_minLen options) (fun g hg t _ haccept ↦ ?_)
    hmatch herrors
  have hlength := Group.minLen_le_length options (hp.builtin g hg) haccept
  rw [← String.length_toList] at hlength
  exact Nat.le_trans hlength (Text.length_le_byteLength _)

/-- A number that is no run, with a zero in front, and a section with a word. -/
theorem minLen_le_of_match?_page :
    ∃ p r, standard.compile "p\x7bid:int(min=100)\x7d(/\x7bname:string(startsWith=ab)\x7d)"
        = .ok p ∧
      p.match? "p0250/abc" = some r ∧ r.errors = [] ∧
        ∀ options, (p.tree.analysis options).minLen ≤ "p0250/abc".utf8ByteSize := by
  have htest : (standard.compile
      "p\x7bid:int(min=100)\x7d(/\x7bname:string(startsWith=ab)\x7d)").toOption.any
      (fun p ↦ (p.match? "p0250/abc").any fun r ↦ r.errors.isEmpty) = true := by
    decide +kernel
  obtain ⟨p, hp, htest⟩ := exists_ok_of_any htest
  obtain ⟨r, hr, hempty⟩ := (Option.any_eq_true ..).mp htest
  have herrors := List.isEmpty_iff.mp hempty
  exact ⟨p, r, hp, hr, herrors, fun options ↦ minLen_le_of_match? hp options hr herrors⟩

/-- An input that a pattern matches without errors has no more bytes than the greatest length that
the analysis of the pattern reports, unless that is the ceiling, if each group of integers admits
zero as far as its lower bound goes or has runs of one digit as wide as both of its bounds.
`SPEC_FULL.md:72`. -/
theorem le_maxLen_of_match? (h : (⟨.builtin, pipeline⟩ : Compiler).compile source = .ok p)
    (options : AnalysisOptions)
    (hfull : ∀ g ∈ p.tree.groups, g.type = .integer → g.leastValue ≤ 0 ∨ g.HasFullRuns)
    (hmatch : p.match? s = some r) (herrors : r.errors = []) :
    s.utf8ByteSize ≤ (p.tree.analysis options).maxLen ∨
      (p.tree.analysis options).maxLen = options.ceiling := by
  have hp := isDerived_of_compile h
  have hbound := hp.analysis_of_match? (Analysis.isKept_maxLen options)
    (fun g hg t hspells haccept ↦ ?_) hmatch herrors
  · rw [Text.byteLength_toList] at hbound
    have hceiling := Node.maxLen_analysis_le options p.tree
    omega
  · have hprintable := (Group.ne_nil_and_printable_of_accepts (hp.builtin g hg) haccept).2
    rw [Text.byteLength_of_printable hprintable, String.length_toList]
    exact Group.length_le_maxLen options (hp.builtin g hg) (hfull g hg) hspells haccept

/-- Two widths of numbers, both with runs of ones, and a word. -/
theorem le_maxLen_of_match?_widths :
    ∃ p r, standard.compile "\x7bn:int(min=1,max=99)\x7d-\x7bs:string(maxLen=3)\x7d" = .ok p ∧
      (∀ g ∈ p.tree.groups, g.type = .integer → g.leastValue ≤ 0 ∨ g.HasFullRuns) ∧
      p.match? "42-abc" = some r ∧ r.errors = [] ∧
      ("42-abc".utf8ByteSize ≤ (p.tree.analysis .standard).maxLen ∨
        (p.tree.analysis .standard).maxLen = AnalysisOptions.standard.ceiling) := by
  have htest : (standard.compile
      "\x7bn:int(min=1,max=99)\x7d-\x7bs:string(maxLen=3)\x7d").toOption.any
      (fun p ↦ (p.match? "42-abc").any fun r ↦ r.errors.isEmpty && p.tree.groups.all fun g ↦
        g.type.name != "int" ||
          (Constraint.min? g.constraints == some 1 && Constraint.max? g.constraints == some 99 &&
            g.acceptsRun '1' (ValueType.digitCount 1) &&
            g.acceptsRun '1' (ValueType.digitCount 99))) = true := by
    decide +kernel
  obtain ⟨p, hp, htest⟩ := exists_ok_of_any htest
  obtain ⟨r, hr, htest⟩ := (Option.any_eq_true ..).mp htest
  obtain ⟨hempty, htest⟩ := Bool.and_eq_true_iff.mp htest
  have herrors := List.isEmpty_iff.mp hempty
  have hfull : ∀ g ∈ p.tree.groups, g.type = .integer → g.leastValue ≤ 0 ∨ g.HasFullRuns := by
    intro g hg hint
    have hruns := List.all_eq_true.mp htest g hg
    have hname : (g.type.name != "int") = false := by rw [hint]; rfl
    simp only [hname, Bool.false_or, Bool.and_eq_true, beq_iff_eq] at hruns
    obtain ⟨⟨⟨hmin, hmax⟩, hlow⟩, hhigh⟩ := hruns
    exact .inr ⟨1, 99, '1', hmin, hmax, hlow, hhigh⟩
  exact ⟨p, r, hp, hfull, hr, herrors, le_maxLen_of_match? hp .standard hfull hr herrors⟩

/-- The only number of two digits is no run, so its width goes unnoticed. -/
theorem maxLen_lt_of_match?_ten :
    ∃ p r, standard.compile "\x7bn:int(min=1,max=10)\x7d" = .ok p ∧
      p.match? "10" = some r ∧ r.errors = [] ∧
      (p.tree.analysis .standard).maxLen < "10".utf8ByteSize ∧
      (p.tree.analysis .standard).maxLen ≠ AnalysisOptions.standard.ceiling := by
  have htest : (standard.compile "\x7bn:int(min=1,max=10)\x7d").toOption.any
      (fun p ↦ (p.match? "10").any fun r ↦ r.errors.isEmpty &&
        (p.tree.literalTexts.isEmpty && p.tree.groups.length == 1) && p.tree.groups.all fun g ↦
          g.type.name == "int" && g.leastValue == 1 && g.greatestValue == 10) = true := by
    decide +kernel
  obtain ⟨p, hp, htest⟩ := exists_ok_of_any htest
  obtain ⟨r, hr, htest⟩ := (Option.any_eq_true ..).mp htest
  simp only [Bool.and_eq_true, beq_iff_eq, List.isEmpty_iff, List.length_eq_one_iff] at htest
  obtain ⟨⟨herrors, htexts, g, hgroups⟩, hall⟩ := htest
  refine ⟨p, r, hp, hr, herrors, ?_⟩
  have hg : g ∈ p.tree.groups := by rw [hgroups]; exact List.mem_singleton_self g
  have hbounds := List.all_eq_true.mp hall g hg
  simp only [Bool.and_eq_true, beq_iff_eq] at hbounds
  obtain ⟨⟨hname, hleast⟩, hgreatest⟩ := hbounds
  have hint : g.type = .integer := by
    refine ((isDerived_of_compile hp).builtin g hg).resolve_right fun hword ↦ ?_
    rw [hword] at hname
    exact absurd hname (by decide)
  have hwidth : ∀ d k, 1 < k → g.acceptsRun d k = false := fun d k hk ↦
    Group.acceptsRun_eq_false_of_lt_eleven hint (by omega) (by omega) hk
  have haccept : g.acceptsRun '1' 1 = true := by
    rw [Group.acceptsRun_integer_iff hint, hleast, hgreatest]
    decide
  have hone : (g.analysis .standard).maxLen ≤ 1 :=
    Group.maxLen_le_of_acceptsRun .standard hwidth (by decide) (by decide) haccept
  have hroot := Node.maxLen_analysis_le_sum .standard p.tree
  rw [hgroups, htexts] at hroot
  change _ ≤ (g.analysis .standard).maxLen + 0 + 0 at hroot
  have hceiling : AnalysisOptions.standard.ceiling = 10000 := rfl
  have hlength : "10".utf8ByteSize = 2 := rfl
  omega

end Compiler

end UrlPattern
