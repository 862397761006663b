import UrlPattern.Proofs.TreeSearch

/-!
# Reading derived expressions

The expression that is derived from a tree is a text, which the reader of expressions reads again.
`Reads` says what the reader makes of a text wherever it meets it between two parts: which parts it
adds, which names it notes, and under what condition it does not refuse the text, which is that all
counts fit. As reading is a fold, two texts one after the other are read one after the other.

The result is that the expression of a tree, read back, is the sequence of `Node.wholeItems`.
-/

namespace UrlPattern.Regex

namespace Reader

/-- The reader stands between two parts, perhaps directly behind a repetition. -/
def IsBetween (b : Reader) : Prop := b.mode = .plain ∨ b.mode = .repeated

/-- The reader behind further parts, read in order, and between two parts again. -/
def Extends (b : Reader) (names : List String) (items : List Regex) (b' : Reader) : Prop :=
  b'.IsBetween ∧ b' = { b with
    mode := b'.mode
    items := items.reverse ++ b.items
    names := names.reverse ++ b.names }

/-- Where nothing is read again, a step is reading one character once. -/
theorem step_of_stepOnce {b b' : Reader} {c : Char} (h : b.stepOnce c = some (b', [])) :
    b.step c = some b' := by
  rw [step, h]
  rfl

/-- Behind a repetition any character but `?` is read as between other parts. -/
theorem step_between {b : Reader} (hb : b.IsBetween) {c : Char} (hc : c ≠ '?') :
    b.step c = b.stepPlain c := by
  have honce : b.stepOnce c = (b.stepPlain c).map fun b ↦ (b, []) := by
    rw [stepOnce.eq_def]
    rcases hb with h | h
    · rw [h]
    · rw [h]
      simp only [if_neg hc]
  rw [step, honce]
  cases b.stepPlain c <;> rfl

end Reader

open Reader

/-- Wherever the reader meets the text between two parts, it adds these parts and notes these names,
or else refuses the text if it does not fit. -/
structure Reads (text : List Char) (names : List String) (fits : Prop) (items : List Regex) :
    Prop where
  /-- The text does not make a repetition before it lazy. -/
  head_ne : text.head? ≠ some '?'
  reads : fits → ∀ b : Reader, b.IsBetween → (∀ name ∈ names, name ∉ b.names) →
    ∃ b', text.foldlM step b = some b' ∧ b.Extends names items b'
  refuses : ¬ fits → ∀ b : Reader, b.IsBetween → (∀ name ∈ names, name ∉ b.names) →
    text.foldlM step b = none

section

variable {text text' : List Char} {names names' : List String} {fits fits' : Prop}
  {items items' : List Regex}

theorem reads_nil : Reads [] [] True [] where
  head_ne := nofun
  reads _ b hb _ := ⟨b, rfl, hb, rfl⟩
  refuses h := absurd trivial h

/-- Two texts one after the other. -/
theorem Reads.append (h : Reads text names fits items) (h' : Reads text' names' fits' items')
    (hnames : ∀ name ∈ names', name ∉ names) :
    Reads (text ++ text') (names ++ names') (fits ∧ fits') (items ++ items') := by
  have hnew : ∀ {b b' : Reader}, b.Extends names items b' →
      (∀ name ∈ names ++ names', name ∉ b.names) → ∀ name ∈ names', name ∉ b'.names := by
    intro b b' hb' hfree name hname hin
    rw [hb'.2] at hin
    rcases List.mem_append.mp hin with hin | hin
    · exact hnames name hname (List.mem_reverse.mp hin)
    · exact hfree name (List.mem_append_right _ hname) hin
  have hleft : ∀ {b : Reader}, (∀ name ∈ names ++ names', name ∉ b.names) →
      ∀ name ∈ names, name ∉ b.names := fun hfree name hname ↦
    hfree name (List.mem_append_left _ hname)
  refine ⟨?_, ?_, ?_⟩
  · cases text with
    | nil => exact h'.head_ne
    | cons c text => exact h.head_ne
  · rintro ⟨hfits, hfits'⟩ b hb hfree
    obtain ⟨b₁, hread, hext⟩ := h.reads hfits b hb (hleft hfree)
    obtain ⟨b₂, hread', hext'⟩ := h'.reads hfits' b₁ hext.1 (hnew hext hfree)
    refine ⟨b₂, ?_, hext'.1, ?_⟩
    · rw [List.foldlM_append, hread]
      exact hread'
    · rw [hext'.2, hext.2]
      simp
  · intro hnot b hb hfree
    rw [List.foldlM_append]
    by_cases hfits : fits
    · obtain ⟨b₁, hread, hext⟩ := h.reads hfits b hb (hleft hfree)
      rw [hread]
      exact h'.refuses (fun hfits' ↦ hnot ⟨hfits, hfits'⟩) b₁ hext.1 (hnew hext hfree)
    · rw [h.refuses hfits b hb (hleft hfree)]
      rfl

theorem Reads.congr (h : Reads text names fits items) (hfits : fits ↔ fits') :
    Reads text names fits' items := propext hfits ▸ h

end

/-! ### Literals -/

/-- Behind a backslash, the characters with a meaning of their own stand for themselves. -/
theorem step_letter {c : Char} (hc : c ∈ metaChars) :
    EscapeMode.step .letter c = some (.done (.char c)) := by
  have hstep : ∀ c ∈ metaChars, EscapeMode.step .letter c = some (.done (.char c)) := by
    simp only [metaChars, List.forall_mem_cons]
    exact ⟨rfl, rfl, rfl, rfl, rfl, rfl, rfl, rfl, rfl, rfl, rfl, rfl, rfl, rfl, rfl, rfl, rfl, rfl,
      nofun⟩
  exact hstep c hc

private theorem step_escaped {c : Char} (hc : c ∈ metaChars) (b : Reader) :
    Reader.step { b with mode := .escape .letter } c = some (b.push (.char c)) := by
  have honce : Reader.stepOnce { b with mode := .escape .letter } c
      = (EscapeMode.step .letter c).map fun s ↦ (b.behindEscape s, []) := rfl
  rw [step_letter hc] at honce
  exact step_of_stepOnce honce

/-- An escaped character reads as the character. -/
theorem reads_escapeChar (c : Char) : Reads (escapeChar c) [] True [.char c] := by
  by_cases hmeta : metaChars.contains c
  · rw [escapeChar, if_pos hmeta]
    refine ⟨nofun, fun _ b hb _ ↦ ⟨b.push (.char c), ?_, .inl rfl, rfl⟩, fun h ↦ absurd trivial h⟩
    have hopen : b.step '\\' = some { b with mode := .escape .letter } :=
      step_between hb (by decide)
    rw [List.foldlM_cons, hopen, Option.bind_eq_bind, Option.bind_some, List.foldlM_cons,
      step_escaped (by simpa using hmeta)]
    rfl
  · rw [escapeChar, if_neg hmeta]
    have hne : ∀ d ∈ metaChars, c ≠ d := fun d hd heq ↦ hmeta (by rw [heq]; simpa using hd)
    refine ⟨fun h ↦ hne '?' (by decide) (Option.some.inj h), fun _ b hb _ ↦ ?_,
      fun h ↦ absurd trivial h⟩
    refine ⟨b.push (.char c), ?_, .inl rfl, rfl⟩
    have hplain : b.stepPlain c = some (b.push (.char c)) := by
      rw [stepPlain.eq_def]
      split
      all_goals first
        | exact absurd rfl (hne _ (by decide))
        | rfl
    rw [List.foldlM_cons, step_between hb (hne '?' (by decide)), hplain]
    rfl

/-- An escaped text reads as its characters. -/
theorem reads_escape (s : List Char) : Reads (s.flatMap escapeChar) [] True (s.map .char) := by
  induction s with
  | nil => exact reads_nil
  | cons c s ih =>
    exact ((reads_escapeChar c).append ih nofun).congr (and_self_iff ..)

/-! ### Repetitions -/

section

variable {text : List Char} {r : Regex}

/-- A part behind which a `+` stands. -/
theorem Reads.plus (h : Reads text [] True [r]) :
    Reads (text ++ ['+']) [] True [.rep r 1 none true] := by
  refine ⟨?_, fun _ b hb hfree ↦ ?_, fun h ↦ absurd trivial h⟩
  · cases text with
    | nil => exact nofun
    | cons c text => exact h.head_ne
  · obtain ⟨b', hread, hbetween, hb'⟩ := h.reads trivial b hb hfree
    refine ⟨{ b with mode := .repeated, items := .rep r 1 none true :: b.items }, ?_, .inr rfl, rfl⟩
    rw [List.foldlM_append, hread, Option.bind_eq_bind, Option.bind_some, List.foldlM_cons,
      step_between hbetween (by decide), hb']
    rfl

/-- The inside of a pair of braces is kept until they close. -/
private theorem foldlM_braces (b : Reader) {cs : List Char} (h : '\x7d' ∉ cs) (text : List Char) :
    cs.foldlM step { b with mode := .braces text }
      = some { b with mode := .braces (cs.reverse ++ text) } := by
  induction cs generalizing text with
  | nil => rfl
  | cons c cs ih =>
    have hc : c ≠ '\x7d' := fun heq ↦ h (heq ▸ List.mem_cons_self)
    have honce : Reader.stepOnce { b with mode := .braces text } c
        = if c = '\x7d' then
            (Reader.endBraces { b with mode := .braces text } text.reverse).map fun b ↦ (b, [])
          else some ({ b with mode := .braces (c :: text) }, []) := rfl
    rw [if_neg hc] at honce
    rw [List.foldlM_cons, step_of_stepOnce honce, Option.bind_eq_bind, Option.bind_some,
      ih fun hin ↦ h (List.mem_cons_of_mem _ hin), List.reverse_cons, List.append_assoc]
    rfl

/-- Braces repeat the part before them as often as they say. -/
private theorem step_closeBraces {b : Reader} {rest : List Regex} (hitems : b.items = r :: rest)
    (hr : r ≠ .wordEdge .either) (text : List Char) :
    Reader.step { b with mode := .braces text } '\x7d'
      = (readCount text.reverse).map fun n ↦
          { b with mode := .repeated, items := .rep r n.1 n.2 true :: rest } := by
  have hend : Reader.endBraces { b with mode := .braces text } text.reverse
      = (readCount text.reverse).map fun n ↦
          { b with mode := .repeated, items := .rep r n.1 n.2 true :: rest } := by
    rw [endBraces.eq_def]
    simp only [hitems]
    split
    · next heq _ => exact absurd (List.cons.inj heq).1 hr
    · cases readCount text.reverse with
      | none => rfl
      | some n => simp only [Option.bind_some, Option.map_some, repeatLast]
  have honce : Reader.stepOnce { b with mode := .braces text } '\x7d'
      = (Reader.endBraces { b with mode := .braces text } text.reverse).map fun b ↦ (b, []) := rfl
  rw [step, honce, hend]
  cases readCount text.reverse <;> rfl

/-- A part behind which a count stands in braces. -/
theorem Reads.counted (h : Reads text [] True [r]) (hr : r ≠ .wordEdge .either) {cs : List Char}
    (hcs : '\x7d' ∉ cs) {fits : Prop} {least : Nat} {most : Option Nat}
    (hfits : fits → readCount cs = some (least, most)) (hnot : ¬ fits → readCount cs = none) :
    Reads (text ++ '\x7b' :: (cs ++ ['\x7d'])) [] fits [.rep r least most true] := by
  have hall : ∀ b : Reader, b.IsBetween →
      (text ++ '\x7b' :: (cs ++ ['\x7d'])).foldlM step b = (readCount cs).map fun n ↦
        { b with mode := .repeated, items := .rep r n.1 n.2 true :: b.items } := by
    intro b hb
    obtain ⟨b', hread, hbetween, hb'⟩ := h.reads trivial b hb nofun
    have hitems : b'.items = r :: b.items := by rw [hb']; rfl
    have hopen : b'.step '\x7b' = some { b' with mode := .braces [] } :=
      step_between hbetween (by decide)
    rw [List.foldlM_append, hread, Option.bind_eq_bind, Option.bind_some, List.foldlM_cons, hopen,
      Option.bind_eq_bind, Option.bind_some, List.foldlM_append, foldlM_braces b' hcs,
      Option.bind_eq_bind, Option.bind_some, List.foldlM_cons, step_closeBraces hitems hr,
      List.append_nil, List.reverse_reverse, hb']
    cases readCount cs <;> rfl
  refine ⟨?_, fun hf b hb _ ↦ ?_, fun hf b hb _ ↦ ?_⟩
  · cases text with
    | nil => exact nofun
    | cons c text => exact h.head_ne
  · rw [hall b hb, hfits hf]
    exact ⟨_, rfl, .inr rfl, rfl⟩
  · rw [hall b hb, hnot hf]
    rfl

end

/-- A number in braces. -/
theorem readBound_natDigits (n : Nat) :
    readBound (Text.natDigits n) = if n ≤ countMax then some n else none := by
  have hdigit : ∀ c ∈ Text.natDigits n, c.isDigit := fun _ ↦ Text.isDigit_of_mem_natDigits
  have htrim : ∀ cs : List Char, (∀ c ∈ cs, c.isDigit) → Text.trimStart cs = cs := by
    intro cs hcs
    cases cs with
    | nil => rfl
    | cons c cs =>
      have hc := hcs c List.mem_cons_self
      have hblank : Text.isBlank c = false := by
        simp only [Char.isDigit, Bool.and_eq_true, decide_eq_true_eq, UInt32.le_iff_toNat_le] at hc
        simp only [Text.isBlank, Text.blankRanges, List.any_cons, List.any_nil, Bool.or_false,
          Bool.or_eq_false_iff, Bool.and_eq_false_iff, decide_eq_false_iff_not, Char.toNat]
        have h48 : 48 ≤ c.val.toNat := hc.1
        have h57 : c.val.toNat ≤ 57 := hc.2
        omega
      rw [Text.trimStart, List.dropWhile_cons_of_neg (by simp [hblank])]
  have hends : Text.trim (Text.natDigits n) = Text.natDigits n := by
    rw [Text.trim, Text.trimEnd, htrim _ hdigit,
      htrim _ fun c hc ↦ hdigit c (List.mem_reverse.mp hc), List.reverse_reverse]
  rw [readBound, hends, Text.readNatUpTo_eq, Text.readNat_natDigits, Option.filter_some]
  simp

/-- The digits of a number hold none of the marks of a count. -/
theorem not_mem_natDigits {c : Char} (hc : c.isDigit = false) (n : Nat) :
    c ∉ Text.natDigits n := by
  intro hin
  have hdigit := Text.isDigit_of_mem_natDigits hin
  rw [hc] at hdigit
  exact Bool.false_ne_true hdigit

private theorem split_natDigits (n : Nat) (rest : List Char) :
    (Text.natDigits n ++ ',' :: rest).takeWhile (· ≠ ',') = Text.natDigits n ∧
      (Text.natDigits n ++ ',' :: rest).dropWhile (· ≠ ',') = ',' :: rest := by
  have hall : ∀ c ∈ Text.natDigits n, decide (c ≠ ',') = true := fun c hc ↦
    decide_eq_true fun heq ↦ not_mem_natDigits (by decide) n (heq ▸ hc)
  rw [List.takeWhile_append_of_pos hall, List.dropWhile_append_of_pos hall,
    List.takeWhile_cons_of_neg (by decide), List.dropWhile_cons_of_neg (by decide),
    List.append_nil]
  exact ⟨rfl, rfl⟩

/-- A lower bound alone. -/
theorem readCount_least (n : Nat) :
    readCount (Text.natDigits n ++ [','])
      = if n ≤ countMax then some (n, none) else none := by
  obtain ⟨hlow, hhigh⟩ := split_natDigits n []
  rw [readCount]
  simp only [hlow, hhigh, readBound_natDigits]
  split <;> rfl

/-- Two bounds in order. -/
theorem readCount_between {n m : Nat} (h : n ≤ m) :
    readCount (Text.natDigits n ++ ',' :: Text.natDigits m)
      = if n ≤ countMax ∧ m ≤ countMax then some (n, some m) else none := by
  obtain ⟨hlow, hhigh⟩ := split_natDigits n (Text.natDigits m)
  have hne : Text.natDigits m ≠ [] := Nat.toDigits_ne_nil
  rw [readCount]
  simp only [hlow, hhigh, readBound_natDigits]
  cases hm : Text.natDigits m with
  | nil => exact absurd hm hne
  | cons c cs =>
    by_cases hn : n ≤ countMax
    · by_cases hm' : m ≤ countMax
      · simp [hn, hm', h]
      · simp [hn, hm']
    · simp [hn]

end UrlPattern.Regex
