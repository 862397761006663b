import UrlPattern.Proofs.ReadBack
import UrlPattern.Proofs.Resolved

/-!
# The expression of a tree, read back

Each construct that derived expressions are made of reads as the part it stands for: the classes and
counts of the two types, alternatives, captures and optional sections. By induction on the tree, its
fragment reads as `Node.items`, unless a bound on the length of a word is too great for a count.

Specification: `SPEC_FULL.md` §4.3 (lines 50–51).
-/

namespace UrlPattern

namespace Regex

open Reader

/-! ### Groups and alternatives -/

section

variable {text text' name : List Char} {names : List String} {fits : Prop}
  {items items' : List Regex}

/-- A closing parenthesis ends the innermost group. -/
private theorem step_close (b : Reader) (name : Option String) {b' : Reader} (hb : b'.IsBetween)
    (houter : b'.outer = ⟨name, b.branches, b.items⟩ :: b.outer) :
    b'.step ')' = some { b with
      mode := .plain
      items := .group name b'.current :: b.items
      names := b'.names } := by
  have hplain : b'.stepPlain ')' = b'.closeGroup := rfl
  rw [step_between hb (by decide), hplain, closeGroup, houter]

/-- Reading the inside of a group and its closing parenthesis. -/
private theorem foldlM_inside (h : Reads text names fits items) (hfits : fits) (b : Reader)
    (name : Option String) (hfree : ∀ name ∈ names, name ∉ b.names) (rest : List Char) :
    (text ++ ')' :: rest).foldlM step (b.openGroup name) = rest.foldlM step { b with
      mode := .plain
      items := .group name (sequence items.reverse) :: b.items
      names := names.reverse ++ b.names } := by
  obtain ⟨b', hread, hbetween, hb'⟩ := h.reads hfits (b.openGroup name) (.inl rfl) hfree
  have hcurrent : b'.current = sequence items.reverse := by
    rw [hb']
    simp [current, openGroup, choice]
  have hnames : b'.names = names.reverse ++ b.names := by rw [hb']; rfl
  have hclose := step_close b name hbetween (by rw [hb']; rfl)
  rw [hcurrent, hnames] at hclose
  rw [List.foldlM_append, hread, Option.bind_eq_bind, Option.bind_some, List.foldlM_cons, hclose]
  rfl

/-- What opens a group that is no capture. -/
theorem foldlM_open {b : Reader} (hb : b.IsBetween) (text : List Char) :
    ('(' :: '?' :: ':' :: text).foldlM step b = text.foldlM step (b.openGroup none) := by
  have hopen : b.step '(' = some { b with mode := .opened } := step_between hb (by decide)
  rw [List.foldlM_cons, hopen]
  rfl

/-- An optional section. -/
theorem Reads.optional (h : Reads text names fits items) :
    Reads ('(' :: '?' :: ':' :: (text ++ [')', '?'])) names fits
      [.rep (.group none (sequence items.reverse)) 0 (some 1) true] := by
  refine ⟨nofun, fun hf b hb hfree ↦ ?_, fun hf b hb hfree ↦ ?_⟩
  · rw [foldlM_open hb, foldlM_inside h hf b none hfree ['?']]
    exact ⟨_, rfl, .inr rfl, rfl⟩
  · rw [foldlM_open hb, List.foldlM_append, h.refuses hf (b.openGroup none) (.inl rfl) hfree]
    rfl

/-- A group that is no capture. -/
theorem Reads.enclosed (h : Reads text names fits items) :
    Reads ('(' :: '?' :: ':' :: (text ++ [')'])) names fits
      [.group none (sequence items.reverse)] := by
  refine ⟨nofun, fun hf b hb hfree ↦ ?_, fun hf b hb hfree ↦ ?_⟩
  · rw [foldlM_open hb, foldlM_inside h hf b none hfree []]
    exact ⟨_, rfl, .inl rfl, rfl⟩
  · rw [foldlM_open hb, List.foldlM_append, h.refuses hf (b.openGroup none) (.inl rfl) hfree]
    rfl

/-- Two alternatives. -/
theorem Reads.either (h : Reads text [] True items) (h' : Reads text' [] True items') :
    Reads ('(' :: '?' :: ':' :: (text ++ '|' :: (text' ++ [')']))) [] True
      [.group none (.alt (sequence items.reverse) (sequence items'.reverse))] := by
  refine ⟨nofun, fun hf b hb _ ↦ ?_, fun h ↦ absurd trivial h⟩
  obtain ⟨b₁, hread₁, hbetween₁, hb₁⟩ := h.reads trivial (b.openGroup none) (.inl rfl) nofun
  have hbar : b₁.step '|' = some { b₁ with
      mode := .plain, branches := sequence b₁.items :: b₁.branches, items := [] } :=
    step_between hbetween₁ (by decide)
  obtain ⟨b₂, hread₂, hbetween₂, hb₂⟩ := h'.reads trivial { b₁ with
      mode := .plain, branches := sequence b₁.items :: b₁.branches, items := [] } (.inl rfl) nofun
  have hcurrent : b₂.current = .alt (sequence items.reverse) (sequence items'.reverse) := by
    rw [hb₂, hb₁]
    simp [current, openGroup, choice]
  have hnames : b₂.names = b.names := by rw [hb₂, hb₁]; rfl
  have hclose := step_close b none hbetween₂ (by rw [hb₂, hb₁]; rfl)
  rw [hcurrent, hnames] at hclose
  rw [foldlM_open hb, List.foldlM_append, hread₁, Option.bind_eq_bind, Option.bind_some,
    List.foldlM_cons, hbar, Option.bind_eq_bind, Option.bind_some, List.foldlM_append, hread₂,
    Option.bind_eq_bind, Option.bind_some, List.foldlM_cons, hclose]
  exact ⟨_, rfl, .inl rfl, rfl⟩

/-- The name of a capture is kept until it ends. -/
private theorem foldlM_name (b : Reader) {front : List Char} (hfront : front ≠ [])
    (hname : ∀ c ∈ name, c ≠ '>' ∧ isNameChar false c) :
    name.foldlM step { b with mode := .name front }
      = some { b with mode := .name (name.reverse ++ front) } := by
  induction name generalizing front with
  | nil => rfl
  | cons c name ih =>
    obtain ⟨hc, hchar⟩ := hname c List.mem_cons_self
    have hstep : Reader.step { b with mode := .name front } c
        = some { b with mode := .name (c :: front) } := by
      refine step_of_stepOnce ?_
      rw [stepOnce.eq_def]
      simp only [if_neg hc, List.isEmpty_eq_false_iff.mpr hfront, hchar, if_true]
    rw [List.foldlM_cons, hstep, Option.bind_eq_bind, Option.bind_some,
      ih (List.cons_ne_nil _ _) fun d hd ↦ hname d (List.mem_cons_of_mem _ hd),
      List.reverse_cons, List.append_assoc]
    rfl

/-- The beginning of a capture opens the capture, if its name is new. -/
theorem foldlM_openCapture {b : Reader} (hb : b.IsBetween) {c : Char}
    (hc : c ≠ '>' ∧ isNameChar true c) (hname : ∀ c ∈ name, c ≠ '>' ∧ isNameChar false c)
    (rest : List Char) :
    ('(' :: '?' :: 'P' :: '<' :: c :: (name ++ '>' :: rest)).foldlM step b
      = if String.ofList (c :: name) ∈ b.names then none else rest.foldlM step (Reader.openGroup
          { b with names := String.ofList (c :: name) :: b.names }
          (some (String.ofList (c :: name)))) := by
  have hparen : b.step '(' = some { b with mode := .opened } := step_between hb (by decide)
  have hfirst : Reader.step { b with mode := .name [] } c = some { b with mode := .name [c] } := by
    refine step_of_stepOnce ?_
    rw [stepOnce.eq_def]
    simp only [if_neg hc.1, List.isEmpty_nil, hc.2, if_true]
  have hmark : ∀ rest : List Char, ('?' :: 'P' :: '<' :: rest).foldlM step
      { b with mode := .opened } = rest.foldlM step { b with mode := .name [] } := fun _ ↦ rfl
  have hend : Reader.step { b with mode := .name (name.reverse ++ [c]) } '>'
      = if String.ofList (c :: name) ∈ b.names then none else some (Reader.openGroup
          { b with names := String.ofList (c :: name) :: b.names }
          (some (String.ofList (c :: name)))) := by
    have honce : Reader.stepOnce { b with mode := .name (name.reverse ++ [c]) } '>'
        = (Reader.endName { b with mode := .name (name.reverse ++ [c]) }
            (name.reverse ++ [c])).map fun b ↦ (b, []) := rfl
    have htext : (name.reverse ++ [c]).reverse = c :: name := by simp
    rw [step, honce, endName, htext]
    by_cases htaken : String.ofList (c :: name) ∈ b.names
    · rw [if_pos htaken, if_pos (.inr (by simpa using htaken))]
      rfl
    · rw [if_neg htaken, if_neg (by simpa using htaken)]
      rfl
  rw [List.foldlM_cons, hparen, Option.bind_eq_bind, Option.bind_some, hmark, List.foldlM_cons,
    hfirst, Option.bind_eq_bind, Option.bind_some, List.foldlM_append,
    foldlM_name b (List.cons_ne_nil _ _) hname, Option.bind_eq_bind, Option.bind_some,
    List.foldlM_cons, hend]
  split <;> rfl

/-- A capture with a new name. -/
theorem Reads.capture (h : Reads text [] fits items) {c : Char} (hc : c ≠ '>' ∧ isNameChar true c)
    (hname : ∀ c ∈ name, c ≠ '>' ∧ isNameChar false c) :
    Reads ('(' :: '?' :: 'P' :: '<' :: c :: (name ++ '>' :: (text ++ [')'])))
      [String.ofList (c :: name)] fits
      [.group (some (String.ofList (c :: name))) (sequence items.reverse)] := by
  have hnone : ∀ {b : Reader}, ∀ n ∈ ([] : List String), n ∉ b.names :=
    fun n hn ↦ absurd hn List.not_mem_nil
  refine ⟨by simp, fun hf b hb hfree ↦ ?_, fun hf b hb hfree ↦ ?_⟩
  · rw [foldlM_openCapture hb hc hname, if_neg (hfree _ List.mem_cons_self),
      foldlM_inside h hf _ _ hnone []]
    exact ⟨_, rfl, .inl rfl, rfl⟩
  · rw [foldlM_openCapture hb hc hname, if_neg (hfree _ List.mem_cons_self), List.foldlM_append,
      h.refuses hf _ (.inl rfl) hnone]
    rfl

end

/-! ### Types -/

/-- A text without names that reads as a part, whatever stands before it. -/
private theorem reads_of_step {text : List Char} {r : Regex} (hhead : text.head? ≠ some '?')
    (h : ∀ b : Reader, b.IsBetween → ∃ m, (m = .plain ∨ m = .repeated) ∧
      text.foldlM step b = some { b with mode := m, items := r :: b.items }) :
    Reads text [] True [r] where
  head_ne := hhead
  reads _ b hb _ := by
    obtain ⟨m, hm, hread⟩ := h b hb
    exact ⟨_, hread, hm, rfl⟩
  refuses h := absurd trivial h

theorem reads_digitSet : Reads "[0-9]".toList [] True [digitSet] := by
  refine reads_of_step (by decide) fun b hb ↦ ⟨.plain, .inl rfl, ?_⟩
  obtain ⟨mode, branches, items, outer, names⟩ := b
  obtain rfl | rfl := hb <;> rfl

theorem reads_wordSet : Reads ValueType.wordClass.toList [] True [wordSet] := by
  refine reads_of_step (by decide) fun b hb ↦ ⟨.plain, .inl rfl, ?_⟩
  obtain ⟨mode, branches, items, outer, names⟩ := b
  obtain rfl | rfl := hb <;> rfl

theorem reads_sign : Reads ['-'] [] True [.char '-'] := by
  refine reads_of_step (by decide) fun b hb ↦ ⟨.plain, .inl rfl, ?_⟩
  obtain ⟨mode, branches, items, outer, names⟩ := b
  obtain rfl | rfl := hb <;> rfl

theorem reads_optionalSign : Reads ['-', '?'] [] True [optionalSign] := by
  refine reads_of_step (by decide) fun b hb ↦ ⟨.repeated, .inr rfl, ?_⟩
  obtain ⟨mode, branches, items, outer, names⟩ := b
  obtain rfl | rfl := hb <;> rfl

/-- No integer has more than 19 digits. -/
theorem digitCount_le (n : Int64) : ValueType.digitCount n ≤ 19 := by
  have hsize : n.toInt.natAbs < 10 ^ 19 := by
    have hlow := n.le_toInt
    have hhigh := n.toInt_lt
    omega
  exact (Nat.length_toDigits_le_iff (by omega) (by omega)).mpr hsize

theorem digitCount_bounds (n : Int64) :
    1 ≤ ValueType.digitCount n ∧ ValueType.digitCount n ≤ countMax :=
  ⟨Nat.length_toDigits_pos, Nat.le_trans (digitCount_le n) (by decide)⟩

theorem reads_digitRun {width : Option Nat}
    (h : ∀ w, width = some w → 1 ≤ w ∧ w ≤ countMax) :
    Reads (ValueType.digitsPattern width).toList [] True [digitRun width] := by
  cases width with
  | none =>
    have htext : (ValueType.digitsPattern none).toList = "[0-9]".toList ++ ['+'] := rfl
    rw [htext]
    exact reads_digitSet.plus
  | some w =>
    obtain ⟨hone, hmax⟩ := h w rfl
    have htext : (ValueType.digitsPattern (some w)).toList = "[0-9]".toList
        ++ '\x7b' :: ((Text.natDigits 1 ++ ',' :: Text.natDigits w) ++ ['\x7d']) := by
      simp [ValueType.digitsPattern, Text.renderNat]
      rfl
    have hcount := readCount_between hone
    rw [if_pos ⟨Nat.le_trans hone hmax, hmax⟩] at hcount
    rw [htext]
    refine reads_digitSet.counted (by simp [digitSet]) ?_ (fun _ ↦ hcount)
      fun h ↦ absurd trivial h
    simp [not_mem_natDigits]

/-- The expression of an integer within bounds. -/
theorem reads_integerPattern (min max : Option Int64) :
    Reads (ValueType.integerPattern min max).toList [] True (integerItems min max) := by
  have hbounds : ∀ n : Option Int64, ∀ w, n.map ValueType.digitCount = some w →
      1 ≤ w ∧ w ≤ countMax := by
    intro n w hw
    obtain ⟨n, rfl, rfl⟩ := Option.map_eq_some_iff.mp hw
    exact digitCount_bounds n
  have hplain := fun n ↦ reads_digitRun (hbounds n)
  have hsigned : ∀ n : Option Int64, Reads
      ('-' :: (ValueType.digitsPattern (n.map ValueType.digitCount)).toList) [] True
      [.char '-', digitRun (n.map ValueType.digitCount)] := fun n ↦
    (reads_sign.append (hplain n) nofun).congr (and_self_iff ..)
  have hoptional : ∀ n : Option Int64, Reads
      ('-' :: '?' :: (ValueType.digitsPattern (n.map ValueType.digitCount)).toList) [] True
      [optionalSign, digitRun (n.map ValueType.digitCount)] := fun n ↦
    (reads_optionalSign.append (hplain n) nofun).congr (and_self_iff ..)
  have hmark : "-?".toList = ['-', '?'] := rfl
  have hopen : "(?:-".toList = ['(', '?', ':', '-'] := rfl
  have hbar : "|".toList = ['|'] := rfl
  have hclose : ")".toList = [')'] := rfl
  cases min with
  | none =>
    simp only [ValueType.integerPattern, integerItems]
    split
    · rw [String.toList_append, hmark]
      exact hoptional max
    · simp only [String.toList_append, hopen, hbar, hclose, List.append_assoc]
      exact (hsigned none).either (hplain max)
  | some least =>
    simp only [ValueType.integerPattern, integerItems]
    split
    · exact hplain max
    · split
      · rw [String.toList_append, hmark]
        exact hoptional max
      · simp only [String.toList_append, hopen, hbar, hclose, List.append_assoc]
        exact (hsigned (some least)).either (hplain max)

/-- The expression of a word within bounds on its length, which must fit a count. -/
theorem reads_wordPattern {minLen maxLen : Option Nat}
    (h : ∀ n, maxLen = some n → wordLeast minLen ≤ n) :
    Reads (ValueType.wordPattern minLen maxLen).toList []
      (wordLeast minLen ≤ countMax ∧ ∀ n, maxLen = some n → n ≤ countMax)
      [wordRun minLen maxLen] := by
  have hset : wordSet ≠ .wordEdge .either := by simp [wordSet]
  cases maxLen with
  | none =>
    by_cases hone : wordLeast minLen = 1
    · have htext : (ValueType.wordPattern minLen none).toList
          = ValueType.wordClass.toList ++ ['+'] := by
        have hone' : Nat.max 1 (minLen.getD 1) = 1 := hone
        simp [ValueType.wordPattern, hone']
      have hrun : wordRun minLen none = .rep wordSet 1 none true := by rw [wordRun, hone]
      rw [htext, hrun]
      refine reads_wordSet.plus.congr ⟨fun _ ↦ ⟨?_, nofun⟩, fun _ ↦ trivial⟩
      rw [hone]
      decide
    · have htext : (ValueType.wordPattern minLen none).toList = ValueType.wordClass.toList
          ++ '\x7b' :: ((Text.natDigits (wordLeast minLen) ++ [',']) ++ ['\x7d']) := by
        have hone' : ¬ Nat.max 1 (minLen.getD 1) = 1 := hone
        simp [ValueType.wordPattern, hone', Text.renderNat, wordLeast]
      have hcount := readCount_least (wordLeast minLen)
      rw [htext]
      refine reads_wordSet.counted hset (by simp [not_mem_natDigits]) (fun hfits ↦ ?_)
        fun hnot ↦ ?_
      · rw [hcount, if_pos hfits.1]
      · rw [hcount, if_neg fun hle ↦ hnot ⟨hle, nofun⟩]
  | some n =>
    have htext : (ValueType.wordPattern minLen (some n)).toList = ValueType.wordClass.toList
        ++ '\x7b' :: ((Text.natDigits (wordLeast minLen) ++ ',' :: Text.natDigits n)
          ++ ['\x7d']) := by
      simp [ValueType.wordPattern, Text.renderNat, wordLeast]
    have hcount := readCount_between (h n rfl)
    rw [htext]
    refine reads_wordSet.counted hset (by simp [not_mem_natDigits]) (fun hfits ↦ ?_)
      fun hnot ↦ ?_
    · rw [hcount, if_pos ⟨hfits.1, hfits.2 n rfl⟩]
    · rw [hcount, if_neg fun hle ↦ hnot ⟨hle.1, fun m hm ↦ Option.some.inj hm ▸ hle.2⟩]

/-! ### Expressions of whole texts -/

/-- The reader behind the mark that ties an expression to the start of the input. -/
def behindStart : Reader := Reader.init.push .start

/-- An expression that is tied to both ends of the input is read from behind the first mark on. -/
theorem read?_of_tied {expr : String} {text : List Char}
    (hexpr : expr.toList = '^' :: (text ++ ['$'])) :
    read? expr = ((text ++ ['$']).foldlM step behindStart).bind Reader.result := by
  have hstart : Reader.init.step '^' = some behindStart := rfl
  rw [read?, hexpr, List.foldlM_cons, hstart]
  rfl

section

variable {expr : String} {text : List Char} {names : List String} {fits : Prop} {items : List Regex}

/-- A text between the marks that tie it to both ends of the input reads as its parts. -/
theorem Reads.read?_tied (h : Reads text names fits items) (hfits : fits)
    (hexpr : expr.toList = '^' :: (text ++ ['$'])) :
    read? expr = some (tied items) := by
  obtain ⟨b', hread, hbetween, hb'⟩ := h.reads hfits behindStart (.inl rfl) nofun
  have hend : b'.step '$' = some (b'.push .finish) := step_between hbetween (by decide)
  have hparts : (b'.push .finish).items = (.start :: (items ++ [.finish])).reverse := by
    rw [hb']
    simp [push, behindStart, Reader.init]
  have hresult : (b'.push .finish).result = some (Reader.sequence (b'.push .finish).items) := by
    rw [hb']
    rfl
  rw [read?_of_tied hexpr, List.foldlM_append, hread, Option.bind_eq_bind, Option.bind_some,
    List.foldlM_cons, hend, Option.bind_eq_bind, Option.bind_some, List.foldlM_nil, tied, ← hparts]
  exact hresult

theorem Reads.read?_tied_eq_none (h : Reads text names fits items) (hfits : ¬ fits)
    (hexpr : expr.toList = '^' :: (text ++ ['$'])) : read? expr = none := by
  rw [read?_of_tied hexpr, List.foldlM_append, h.refuses hfits behindStart (.inl rfl) nofun]
  rfl

end

end Regex

/-! ### Groups -/

namespace Group

/-- The bounds on the length of a word fit a count. -/
def CountsFit (g : Group) : Prop :=
  g.type = .word →
    Regex.wordLeast (Constraint.minLen? g.constraints) ≤ Regex.Reader.countMax ∧
      ∀ n, Constraint.maxLen? g.constraints = some n → n ≤ Regex.Reader.countMax

/-- The expression of a group's text reads as its parts. -/
theorem reads_pattern {g : Group} (hg : g.IsBuiltin) :
    Regex.Reads g.pattern.toList [] g.CountsFit g.textItems := by
  have hne : ValueType.word.name ≠ ValueType.integer.name := by decide
  rcases hg with hint | hword
  · have hfits : g.CountsFit ↔ True := by
      refine iff_true_intro fun h ↦ ?_
      rw [hint] at h
      exact absurd (congrArg ValueType.name h.symm) hne
    rw [pattern, textItems, hint, if_pos rfl]
    exact (Regex.reads_integerPattern _ _).congr hfits.symm
  · rw [pattern, textItems, hword, if_neg hne]
    refine (Regex.reads_wordPattern fun n hn ↦ word_bounds hword hn).congr ?_
    exact ⟨fun h _ ↦ h, fun h ↦ h hword⟩

private theorem contains_numeric {c : Char} (h : c.isDigit) : Text.numeric.contains c = true := by
  obtain ⟨later, hchanges⟩ : ∃ later, Text.numeric.changes = 48 :: 58 :: later := ⟨_, rfl⟩
  simp only [Char.isDigit, Bool.and_eq_true, decide_eq_true_eq, UInt32.le_iff_toNat_le] at h
  have hlow : 48 ≤ c.toNat := h.1
  have hhigh : ¬ 58 ≤ c.toNat := Nat.not_le.mpr (Nat.lt_succ_of_le h.2)
  rw [CharSet.contains, hchanges, CharSet.oddBelow, if_pos hlow, CharSet.oddBelow, if_neg hhigh]
  rfl

private theorem isNameChar_natDigits (n : Nat) :
    ∀ c ∈ Text.natDigits n, c ≠ '>' ∧ Regex.Reader.isNameChar false c := by
  intro c hc
  have hdigit : c.isDigit := Text.isDigit_of_mem_natDigits hc
  refine ⟨fun heq ↦ Regex.not_mem_natDigits (by decide) n (heq ▸ hc), ?_⟩
  simp [Regex.Reader.isNameChar, contains_numeric hdigit]

private theorem captureName_eq (g : Group) :
    g.captureName = String.ofList ('g' :: Text.natDigits g.id) := by
  rw [captureName, Text.renderNat, ← String.toList_inj]
  simp

/-- The number of a group tells which capture is its own. -/
theorem captureName_inj {g g' : Group} : g.captureName = g'.captureName ↔ g.id = g'.id := by
  rw [captureName, captureName, ← Text.renderNat_inj]
  simp [← String.toList_inj]

private theorem toList_fragment {g : Group} (hstored : g.tag.stored = none) :
    g.fragment.toList = '(' :: '?' :: 'P' :: '<' :: 'g'
      :: (Text.natDigits g.id ++ '>' :: (g.pattern.toList ++ [')'])) := by
  rw [fragment, hstored, captureName_eq]
  simp

/-- The fragment of a group reads as a capture of its text. -/
theorem reads_fragment {g : Group} (hg : g.IsBuiltin) (hstored : g.tag.stored = none) :
    Regex.Reads g.fragment.toList [g.captureName] g.CountsFit [g.item] := by
  rw [toList_fragment hstored, item, captureName_eq]
  exact (reads_pattern hg).capture ⟨by decide, rfl⟩ (isNameChar_natDigits g.id)

/-- The fragment of a group is refused if a capture of its name was read before. -/
theorem foldlM_fragment_eq_none {g : Group} (hstored : g.tag.stored = none) {b : Regex.Reader}
    (hb : b.IsBetween) (htaken : g.captureName ∈ b.names) :
    g.fragment.toList.foldlM Regex.Reader.step b = none := by
  rw [captureName_eq] at htaken
  rw [toList_fragment hstored,
    Regex.foldlM_openCapture hb ⟨by decide, rfl⟩ (isNameChar_natDigits g.id), if_pos htaken]

end Group

/-! ### Trees -/

namespace Node

mutual

/-- No fragment is stored in the tree, so all are derived. -/
def IsDerived : Node → Prop
  | literal _ tag => tag.stored = none
  | group g => g.tag.stored = none
  | sequence children tag => tag.stored = none ∧ AreDerived children
  | optional children tag => tag.stored = none ∧ AreDerived children

/-- No fragments are stored in the trees. -/
def AreDerived : List Node → Prop
  | [] => True
  | n :: ns => n.IsDerived ∧ AreDerived ns

end

/-- The names of the captures of some groups. -/
abbrev captureNames (gs : List Group) : List String := gs.map Group.captureName

/-- Groups have different captures exactly if they have different numbers. -/
theorem nodup_captureNames_iff {gs : List Group} :
    (captureNames gs).Nodup ↔ (gs.map Group.id).Nodup := by
  simp only [captureNames, List.Nodup, List.pairwise_map, ne_eq, Group.captureName_inj]

private theorem toList_fragment_optional (children : List Node) {tag : Tag}
    (hstored : tag.stored = none) :
    (fragment (optional children tag)).toList
      = '(' :: '?' :: ':' :: ((fragments children).toList ++ [')', '?']) := by
  simp only [fragment, hstored, Option.getD_none, String.toList_append]
  rfl

mutual

/-- The fragment of a tree reads as its parts. -/
theorem reads_fragment (n : Node) (hder : n.IsDerived) (hbuiltin : ∀ g ∈ n.groups, g.IsBuiltin)
    (hnames : (captureNames n.groups).Nodup) :
    Regex.Reads n.fragment.toList (captureNames n.groups) (∀ g ∈ n.groups, g.CountsFit)
      n.items := by
  match n with
  | literal text tag =>
    simp only [IsDerived] at hder
    simp only [fragment, hder, Option.getD_none, Regex.escape, String.toList_ofList, groups]
    exact (Regex.reads_escape text.toList).congr (iff_of_true trivial nofun)
  | group g =>
    simp only [IsDerived] at hder
    have hread := g.reads_fragment (hbuiltin g (List.mem_singleton_self g)) hder
    simp only [fragment, groups, List.mem_singleton, forall_eq]
    exact hread
  | sequence children tag =>
    simp only [IsDerived] at hder
    simp only [fragment, hder.1, Option.getD_none]
    exact reads_fragments children hder.2 hbuiltin hnames
  | optional children tag =>
    simp only [IsDerived] at hder
    rw [toList_fragment_optional children hder.1]
    exact (reads_fragments children hder.2 hbuiltin hnames).optional

theorem reads_fragments (ns : List Node) (hder : AreDerived ns)
    (hbuiltin : ∀ g ∈ groupsOf ns, g.IsBuiltin) (hnames : (captureNames (groupsOf ns)).Nodup) :
    Regex.Reads (fragments ns).toList (captureNames (groupsOf ns))
      (∀ g ∈ groupsOf ns, g.CountsFit) (itemsAll ns) := by
  match ns with
  | [] => exact Regex.reads_nil.congr (iff_of_true trivial nofun)
  | n :: ns =>
    simp only [AreDerived] at hder
    simp only [groupsOf, captureNames, List.map_append, List.nodup_append] at hnames
    have hfirst := reads_fragment n hder.1 (fun g hg ↦ hbuiltin g (List.mem_append_left _ hg))
      hnames.1
    have hothers := reads_fragments ns hder.2 (fun g hg ↦ hbuiltin g (List.mem_append_right _ hg))
      hnames.2.1
    have hread := hfirst.append hothers fun name hname hin ↦ hnames.2.2 name hin name hname rfl
    rw [captureNames, captureNames, ← List.map_append] at hread
    simp only [fragments, String.toList_append]
    refine hread.congr ?_
    simp only [groupsOf, List.mem_append, or_imp, forall_and]

end

mutual

/-- The fragment of a tree is refused if two of its captures have one name, or if one has a name
that was read before. -/
theorem foldlM_fragment_eq_none (n : Node) (hder : n.IsDerived)
    (hbuiltin : ∀ g ∈ n.groups, g.IsBuiltin) {b : Regex.Reader} (hb : b.IsBetween)
    (h : ¬ ((captureNames n.groups).Nodup ∧ ∀ name ∈ captureNames n.groups, name ∉ b.names)) :
    n.fragment.toList.foldlM Regex.Reader.step b = none := by
  match n with
  | literal text tag => exact absurd ⟨List.nodup_nil, nofun⟩ h
  | group g =>
    have htaken : g.captureName ∈ b.names := by simpa [groups] using h
    simp only [IsDerived] at hder
    exact g.foldlM_fragment_eq_none hder hb htaken
  | sequence children tag =>
    simp only [IsDerived] at hder
    simp only [fragment, hder.1, Option.getD_none]
    exact foldlM_fragments_eq_none children hder.2 hbuiltin hb h
  | optional children tag =>
    simp only [IsDerived] at hder
    have hnone := foldlM_fragments_eq_none children hder.2 hbuiltin
      (b := b.openGroup none) (.inl rfl) h
    rw [toList_fragment_optional children hder.1, Regex.foldlM_open hb, List.foldlM_append, hnone]
    rfl

theorem foldlM_fragments_eq_none (ns : List Node) (hder : AreDerived ns)
    (hbuiltin : ∀ g ∈ groupsOf ns, g.IsBuiltin) {b : Regex.Reader} (hb : b.IsBetween)
    (h : ¬ ((captureNames (groupsOf ns)).Nodup ∧
      ∀ name ∈ captureNames (groupsOf ns), name ∉ b.names)) :
    (fragments ns).toList.foldlM Regex.Reader.step b = none := by
  match ns with
  | [] => exact absurd ⟨List.nodup_nil, nofun⟩ h
  | n :: ns =>
    simp only [AreDerived] at hder
    have hbuiltin₁ := fun g hg ↦ hbuiltin g (List.mem_append_left _ hg)
    have hbuiltin₂ := fun g hg ↦ hbuiltin g (List.mem_append_right _ hg)
    rw [fragments, String.toList_append, List.foldlM_append]
    by_cases hnew : (captureNames n.groups).Nodup ∧ ∀ name ∈ captureNames n.groups, name ∉ b.names
    · have hreads := reads_fragment n hder.1 hbuiltin₁ hnew.1
      by_cases hfits : ∀ g ∈ n.groups, g.CountsFit
      · obtain ⟨b', hread, hbetween, hb'⟩ := hreads.reads hfits b hb hnew.2
        have hnames : b'.names = (captureNames n.groups).reverse ++ b.names := by rw [hb']
        rw [hread]
        apply foldlM_fragments_eq_none ns hder.2 hbuiltin₂ hbetween
        rw [hnames]
        rintro ⟨hnodup, hothers⟩
        apply h
        simp only [groupsOf, captureNames, List.map_append, List.nodup_append]
        grind
      · rw [hreads.refuses hfits b hb hnew.2]
        rfl
    · rw [foldlM_fragment_eq_none n hder.1 hbuiltin₁ hb hnew]
      rfl

end

private theorem toList_anchoredRegex (n : Node) :
    n.anchoredRegex.toList = '^' :: (n.fragment.toList ++ ['$']) := by
  rw [anchoredRegex, String.toList_append, String.toList_append]
  rfl

/-- The expression of a whole pattern reads as the sequence of its parts, if all counts fit. -/
theorem read?_anchoredRegex {n : Node} (hder : n.IsDerived) (hbuiltin : n.IsBuiltin)
    (hnames : (captureNames n.groups).Nodup) (hfits : ∀ g ∈ n.groups, g.CountsFit) :
    Regex.read? n.anchoredRegex = some (Regex.Reader.sequence n.wholeItems.reverse) :=
  (reads_fragment n hder hbuiltin hnames).read?_tied hfits (toList_anchoredRegex n)

/-- The expression of a whole pattern is malformed if a count does not fit. -/
theorem read?_anchoredRegex_eq_none {n : Node} (hder : n.IsDerived) (hbuiltin : n.IsBuiltin)
    (hnames : (captureNames n.groups).Nodup) (hfits : ¬ ∀ g ∈ n.groups, g.CountsFit) :
    Regex.read? n.anchoredRegex = none :=
  (reads_fragment n hder hbuiltin hnames).read?_tied_eq_none hfits (toList_anchoredRegex n)

/-- The expression of a whole pattern is malformed if two captures have one name. -/
theorem read?_anchoredRegex_of_repeated {n : Node} (hder : n.IsDerived) (hbuiltin : n.IsBuiltin)
    (h : ¬ (captureNames n.groups).Nodup) : Regex.read? n.anchoredRegex = none := by
  have hnone := foldlM_fragment_eq_none n hder hbuiltin (b := Regex.behindStart) (.inl rfl)
    fun hnew ↦ h hnew.1
  rw [Regex.read?_of_tied (toList_anchoredRegex n), List.foldlM_append, hnone]
  rfl

end Node

end UrlPattern
