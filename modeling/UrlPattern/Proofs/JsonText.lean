import Mathlib.Data.List.TakeWhile
import UrlPattern.Json.Printer
import UrlPattern.Json.Reader

/-!
# Written JSON

A value that can be written is read back from its text (`IsWritable.parse?_render`): texts with any
characters, whole numbers of 64 bits, and what is built from them. A number or word ends only at the
character behind it, so the text of a value is read together with that character (`Spells`).

Specification: `SPEC_FULL.md` §10.2 (lines 179–182).
-/

namespace UrlPattern.Json

/-! ### Numbers -/

namespace Numeral

/-- The digits of a number are read to their end. -/
theorem readWhole_natDigits (n : Nat) :
    readWhole (Text.natDigits n) = some (Text.natDigits n, []) := by
  have hdigit : ∀ c ∈ Text.natDigits n, c.isDigit = true := fun _ ↦ Text.isDigit_of_mem_natDigits
  rw [readWhole, List.takeWhile_eq_self_iff.mpr hdigit, List.dropWhile_eq_nil_iff.mpr hdigit]
  split
  · next hnil => exact absurd hnil Nat.toDigits_ne_nil
  · next hzero =>
    -- The only number with a zero in front has no second digit.
    have hn : n = 0 := Text.eq_zero_of_head?_natDigits (by rw [hzero]; rfl)
    subst hn
    cases hzero
  · rfl

theorem readUnsigned_natDigits (negative : Bool) (n : Nat) :
    readUnsigned negative (Text.natDigits n) = some ⟨negative, Text.natDigits n, [], none⟩ := by
  rw [readUnsigned, readWhole_natDigits]
  rfl

theorem read?_natDigits (n : Nat) :
    read? (Text.natDigits n) = some ⟨false, Text.natDigits n, [], none⟩ := by
  rw [read?]
  · exact readUnsigned_natDigits false n
  · intro cs heq
    have hdigit := Text.isDigit_of_mem_natDigits (heq ▸ List.mem_cons_self)
    exact absurd hdigit (by decide)

end Numeral

/-- A number is written in digits, with a sign in front of a negative one. -/
theorem toList_renderInt (n : Int) : (renderInt n).toList
    = if n < 0 then '-' :: Text.natDigits n.natAbs else Text.natDigits n.natAbs := by
  rw [renderInt]
  split
  · rw [String.toList_append, Text.renderNat, String.toList_ofList, String.toList_ofList,
      List.singleton_append]
  · rw [Text.renderNat, String.toList_ofList]

theorem mem_renderInt {n : Int} {c : Char} (h : c ∈ (renderInt n).toList) :
    c = '-' ∨ c.isDigit = true := by
  rw [toList_renderInt] at h
  split at h
  · rcases List.mem_cons.mp h with rfl | h
    · exact .inl rfl
    · exact .inr (Text.isDigit_of_mem_natDigits h)
  · exact .inr (Text.isDigit_of_mem_natDigits h)

/-- A whole number of 64 bits is read back. -/
theorem ofNumber?_renderInt {n : Int} (hmin : intMin ≤ n) (hmax : n ≤ intMax) :
    ofNumber? (renderInt n).toList = some (int n) := by
  have hread : ∃ numeral, Numeral.read? (renderInt n).toList = some numeral ∧
      numeral.int? = some n := by
    rw [toList_renderInt]
    split
    · refine ⟨_, Numeral.readUnsigned_natDigits true n.natAbs, ?_⟩
      simp only [Numeral.int?, Text.ofDigits_natDigits, if_true]
      rw [if_neg (by omega)]
      apply congrArg some
      omega
    · refine ⟨_, Numeral.read?_natDigits n.natAbs, ?_⟩
      simp only [Numeral.int?, Text.ofDigits_natDigits, Bool.false_eq_true, if_false]
      apply congrArg some
      omega
  obtain ⟨numeral, hnumeral, hint⟩ := hread
  rw [ofNumber?, hnumeral, Option.map_some, hint]
  exact congrArg some (if_pos ⟨hmin, hmax⟩)

/-! ### Strings -/

/-- A digit stands for itself inside a string. -/
theorem isPlainChar_of_isDigit {c : Char} (h : c.isDigit = true) : isPlainChar c = true := by
  simp only [isPlainChar, Bool.and_eq_true, decide_eq_true_eq]
  refine ⟨⟨?_, ?_⟩, ?_⟩
  · rintro rfl
    cases h
  · rintro rfl
    cases h
  · simp only [Char.isDigit, Bool.and_eq_true, decide_eq_true_eq, UInt32.le_iff_toNat_le] at h
    exact Nat.le_trans (by decide) h.1

/-- What stands for a character in a string. -/
inductive IsEscaped : Char → List Char → Prop where
  /-- The character itself. -/
  | plain {c : Char} (h : isPlainChar c = true) : IsEscaped c [c]
  /-- A backslash and a letter. -/
  | letter {c d : Char} (hc : isPlainChar c = false) (hd : 32 ≤ d.toNat)
      (h : unescapeChar? d = some c) : IsEscaped c ['\\', d]
  /-- A unit of four digits. -/
  | unit {c : Char} (h : c.toNat < 32) : IsEscaped c
      ['\\', 'u', '0', '0', Nat.digitChar (c.toNat / 16), Nat.digitChar (c.toNat % 16)]

theorem isEscaped_escapeChar (c : Char) : IsEscaped c (escapeChar c) := by
  rw [escapeChar]
  split
  · next h => rw [h]; exact .letter (by decide) (by decide) rfl
  split
  · next h => rw [h]; exact .letter (by decide) (by decide) rfl
  split
  · next h => rw [h]; exact .letter (by decide) (by decide) rfl
  split
  · next h => rw [h]; exact .letter (by decide) (by decide) rfl
  split
  · next h => rw [h]; exact .letter (by decide) (by decide) rfl
  split
  · next h => rw [h]; exact .letter (by decide) (by decide) rfl
  split
  · next h => rw [h]; exact .letter (by decide) (by decide) rfl
  split
  · next h => exact .unit h
  · next hquote hbackslash _ _ _ _ _ hcontrol =>
    apply IsEscaped.plain
    simp only [isPlainChar, hquote, hbackslash, ne_eq, not_false_eq_true, decide_true,
      Bool.true_and, decide_eq_true_eq]
    omega

/-- A unit that is no half of a character is one. -/
theorem join?_unit {n : Nat} (h : n < 0xD800) (ps : List Piece) :
    join? (.unit n :: ps) = (join? ps).map (Char.ofNat n :: ·) := by
  have hhigh : isHighSurrogate n = false := by simp [isHighSurrogate]; omega
  have hlow : isLowSurrogate n = false := by simp [isLowSurrogate]; omega
  match ps with
  | [] => simp [join?, hhigh, hlow]
  | .char c :: ps => simp [join?, hhigh, hlow]
  | .unit m :: ps => simp [join?, hhigh, hlow]

/-- The unit of the digits that are written for a control character. -/
theorem unit?_digitChar {n : Nat} (h : n < 32) :
    unit? '0' '0' (n / 16).digitChar (n % 16).digitChar = some (.unit n) := by
  revert n
  decide

/-- What stands for a character is one piece, which spells the character. -/
theorem IsEscaped.exists_piece {c : Char} {text : List Char} (h : IsEscaped c text) :
    ∃ piece, (∀ cs, pieces? (text ++ cs) = (pieces? cs).map (piece :: ·)) ∧
      ∀ ps, join? (piece :: ps) = (join? ps).map (c :: ·) := by
  cases h with
  | plain hplain =>
    refine ⟨.char c, fun cs ↦ ?_, fun ps ↦ rfl⟩
    have hbackslash : c ≠ '\\' := by
      rintro rfl
      cases hplain
    rw [List.singleton_append, pieces?] <;> intros <;> contradiction
  | letter _ _ hletter =>
    refine ⟨.char c, fun cs ↦ ?_, fun ps ↦ rfl⟩
    rw [List.cons_append, List.singleton_append, pieces?, hletter]
    · cases pieces? cs <;> rfl
    · rintro a b e f cs' rfl
      cases hletter
  | unit hunit =>
    refine ⟨.unit c.toNat, fun cs ↦ ?_, fun ps ↦ ?_⟩
    · simp only [List.cons_append, List.nil_append]
      rw [pieces?, unit?_digitChar hunit]
      cases pieces? cs <;> rfl
    · rw [join?_unit (by omega), Char.ofNat_toNat]

/-- The inside of a string spells the text that it was written for. -/
theorem exists_pieces? (cs : List Char) :
    ∃ ps, pieces? (cs.flatMap escapeChar) = some ps ∧ join? ps = some cs := by
  induction cs with
  | nil => exact ⟨[], rfl, rfl⟩
  | cons c cs ih =>
    obtain ⟨ps, hps, hjoin⟩ := ih
    obtain ⟨piece, hpiece, hspells⟩ := (isEscaped_escapeChar c).exists_piece
    refine ⟨piece :: ps, ?_, ?_⟩
    · rw [List.flatMap_cons, hpiece, hps, Option.map_some]
    · rw [hspells, hjoin, Option.map_some]

/-- A character is written as itself exactly if it is plain. -/
theorem IsEscaped.contains_backslash {c : Char} {text : List Char} (h : IsEscaped c text) :
    text.contains '\\' = !isPlainChar c := by
  cases h with
  | plain hplain =>
    have hbackslash : c ≠ '\\' := by
      rintro rfl
      cases hplain
    simp [hplain, hbackslash.symm]
  | letter hspecial _ _ => simp [hspecial]
  | unit hunit =>
    have hspecial : isPlainChar c = false := by
      simp only [isPlainChar, Bool.and_eq_false_iff, decide_eq_false_iff_not]
      omega
    simp [hspecial]

/-- The inside of a string has escapes exactly if some character is not plain. -/
theorem contains_backslash (cs : List Char) :
    (cs.flatMap escapeChar).contains '\\' = !cs.all isPlainChar := by
  induction cs with
  | nil => rfl
  | cons c cs ih =>
    rw [List.flatMap_cons, List.contains_append, (isEscaped_escapeChar c).contains_backslash, ih,
      List.all_cons, Bool.not_and]

namespace Reader

variable {isName : Bool} {text : List Char} {around : List Frame}

/-- Plain characters are kept in a string. -/
theorem foldlM_plain {cs : List Char} (h : ∀ c ∈ cs, isPlainChar c = true) :
    cs.foldlM step ⟨.quoted isName false text, around⟩
      = some ⟨.quoted isName false (cs.reverse ++ text), around⟩ := by
  induction cs generalizing text with
  | nil => rfl
  | cons c cs ih =>
    have hc := h c List.mem_cons_self
    simp only [isPlainChar, Bool.and_eq_true, decide_eq_true_eq] at hc
    have hstep : step ⟨.quoted isName false text, around⟩ c
        = some ⟨.quoted isName false (c :: text), around⟩ := by
      simp only [step, hc, if_false, Bool.false_eq_true]
      exact if_neg (by omega)
    rw [List.foldlM_cons, hstep]
    refine (ih fun c' hc' ↦ h c' (List.mem_cons_of_mem c hc')).trans ?_
    rw [List.reverse_cons, List.append_assoc, List.singleton_append]

/-- The character behind a backslash is kept, whatever it is, and ends the escape. -/
theorem foldlM_escape {d : Char} {cs : List Char} (hd : 32 ≤ d.toNat)
    (h : ∀ c ∈ cs, isPlainChar c = true) :
    ('\\' :: d :: cs).foldlM step ⟨.quoted isName false text, around⟩
      = some ⟨.quoted isName false (('\\' :: d :: cs).reverse ++ text), around⟩ := by
  have hstep : step ⟨.quoted isName true ('\\' :: text), around⟩ d
      = some ⟨.quoted isName false (d :: '\\' :: text), around⟩ := by
    simp only [step, if_true]
    exact if_neg (by omega)
  rw [List.foldlM_cons]
  change (d :: cs).foldlM step ⟨.quoted isName true ('\\' :: text), around⟩ = _
  rw [List.foldlM_cons, hstep]
  refine (foldlM_plain h).trans ?_
  rw [List.reverse_cons, List.reverse_cons, List.append_assoc, List.append_assoc]
  rfl

theorem isPlainChar_digitChar {n : Nat} (h : n < 16) : isPlainChar n.digitChar = true := by
  revert n
  decide

/-- What stands for a character is kept. -/
theorem foldlM_isEscaped {c : Char} {cs : List Char} (h : IsEscaped c cs) :
    cs.foldlM step ⟨.quoted isName false text, around⟩
      = some ⟨.quoted isName false (cs.reverse ++ text), around⟩ := by
  cases h with
  | plain hplain =>
    apply foldlM_plain
    intro c' hc'
    rw [List.mem_singleton.mp hc']
    exact hplain
  | letter _ hd _ =>
    apply foldlM_escape hd
    intro c' hc'
    cases hc'
  | unit hunit =>
    apply foldlM_escape (by decide)
    simp only [List.forall_mem_cons]
    exact ⟨by decide, by decide, isPlainChar_digitChar (by omega),
      isPlainChar_digitChar (by omega), nofun⟩

/-- The inside of a string is kept as written. -/
theorem foldlM_inside (cs : List Char) :
    (cs.flatMap escapeChar).foldlM step ⟨.quoted isName false text, around⟩
      = some ⟨.quoted isName false ((cs.flatMap escapeChar).reverse ++ text), around⟩ := by
  induction cs generalizing text with
  | nil => rfl
  | cons c cs ih =>
    rw [List.flatMap_cons, List.foldlM_append, foldlM_isEscaped (isEscaped_escapeChar c)]
    refine ih.trans ?_
    rw [List.reverse_append, List.append_assoc]

/-- A quoted text is read up to its closing quote, which ends the string. -/
theorem foldlM_quote (s : String) {r : Reader}
    (hopens : r.step '"' = some ⟨.quoted isName false [], around⟩) :
    (quote s).toList.foldlM step r
      = endString ⟨.quoted isName false (s.toList.flatMap escapeChar).reverse, around⟩ isName
          (s.toList.flatMap escapeChar).reverse := by
  rw [quote, String.toList_ofList, List.foldlM_append, List.foldlM_cons, hopens]
  change ((s.toList.flatMap escapeChar).foldlM step _).bind _ = _
  rw [foldlM_inside, List.append_nil]
  exact bind_pure (m := Option) _

/-- A closed string is the text that it was written for. -/
theorem endString_inside (s : String) (r : Reader) :
    r.endString false (s.toList.flatMap escapeChar).reverse = r.put (.string s) := by
  obtain ⟨ps, hps, hjoin⟩ := exists_pieces? s.toList
  rw [endString, List.reverse_reverse, hps, Option.bind_some, hjoin]
  simp

/-- A closed name is that of the text that it was written for. -/
theorem endString_name (s : String) (mode : Mode) (fields : List (Option Name × Json)) :
    endString ⟨mode, .object fields :: around⟩ true (s.toList.flatMap escapeChar).reverse
      = some ⟨.colon, .member fields (some (Name.ofText s)) :: around⟩ := by
  obtain ⟨ps, hps, hjoin⟩ := exists_pieces? s.toList
  have hplain : (!(s.toList.flatMap escapeChar).reverse.contains '\\')
      = s.toList.all isPlainChar := by
    rw [List.contains_reverse, contains_backslash, Bool.not_not]
  rw [endString, List.reverse_reverse, hps, Option.bind_some, hjoin]
  change some (Reader.mk .colon (.member fields (some ⟨String.ofList s.toList, _⟩) :: around)) = _
  rw [hplain, String.ofList_toList]
  rfl

/-! ### Values -/

/-- Whether a value may come next. -/
def AwaitsValue (r : Reader) : Prop := r.mode = .value ∨ r.mode = .firstItem

/-- What was put leaves the reader between the parts of a text. -/
theorem step_of_put {r r' : Reader} {j : Json} (h : r.put j = some r') (c : Char) :
    r'.step c = r'.stepBetween c := by
  rw [put] at h
  split at h <;> cases h <;> rfl

/-- A word character is no blank. -/
theorem isSpace_of_isWordChar {c : Char} (h : isWordChar c = true) : isSpace c = false := by
  cases hspace : isSpace c with
  | false => rfl
  | true =>
    simp only [isSpace, Bool.or_eq_true, decide_eq_true_eq] at hspace
    rcases hspace with ((rfl | rfl) | rfl) | rfl <;> exact absurd h (by decide)

/-- Where a value may come next, the first character decides what kind it is of. -/
theorem AwaitsValue.step {r : Reader} (h : r.AwaitsValue) {c : Char} (hspace : isSpace c = false)
    (hclose : c ≠ ']') : r.step c = r.start c := by
  rcases h with h | h <;> simp [Reader.step, stepBetween, h, hspace, hclose]

/-- More characters of a word are kept. -/
theorem foldlM_moreWord {cs : List Char} (h : ∀ c ∈ cs, isWordChar c = true) :
    cs.foldlM step ⟨.word text, around⟩ = some ⟨.word (cs.reverse ++ text), around⟩ := by
  induction cs generalizing text with
  | nil => rfl
  | cons c cs ih =>
    have hstep : step ⟨.word text, around⟩ c = some ⟨.word (c :: text), around⟩ :=
      if_pos (h c List.mem_cons_self)
    rw [List.foldlM_cons, hstep]
    refine (ih fun c' hc' ↦ h c' (List.mem_cons_of_mem c hc')).trans ?_
    rw [List.reverse_cons, List.append_assoc, List.singleton_append]

/-- A word is read character by character. -/
theorem AwaitsValue.foldlM_word {r : Reader} (h : r.AwaitsValue) {cs : List Char} (hne : cs ≠ [])
    (hword : ∀ c ∈ cs, isWordChar c = true) :
    cs.foldlM Reader.step r = some { r with mode := .word cs.reverse } := by
  obtain ⟨c, cs, rfl⟩ := List.exists_cons_of_ne_nil hne
  have hc := hword c List.mem_cons_self
  have hstart : r.start c = some { r with mode := .word [c] } := by
    rw [start, if_pos hc] <;> rintro rfl <;> exact absurd hc (by decide)
  rw [List.foldlM_cons, h.step (isSpace_of_isWordChar hc) (by rintro rfl; cases hc), hstart]
  refine (foldlM_moreWord fun c' hc' ↦ hword c' (List.mem_cons_of_mem c hc')).trans ?_
  rw [List.reverse_cons]

end Reader

/-- The text of a value. A word or number has no end of its own; every other value has. -/
inductive Spells (cs : List Char) (j : Json) : Prop where
  | word (hne : cs ≠ []) (hword : ∀ c ∈ cs, Reader.isWordChar c = true)
      (hvalue : Reader.ofWord? cs = some j)
  | closed (hread : ∀ r : Reader, r.AwaitsValue → cs.foldlM Reader.step r = r.put j)

namespace Spells

variable {cs : List Char} {j : Json}

/-- A value is read before a character that belongs to no word. -/
theorem foldlM_append (h : Spells cs j) {r : Reader} (hr : r.AwaitsValue) {c : Char}
    (hc : Reader.isWordChar c = false) (rest : List Char) :
    (cs ++ c :: rest).foldlM Reader.step r
      = (r.put j).bind fun r' ↦ (c :: rest).foldlM Reader.step r' := by
  rw [List.foldlM_append]
  cases h with
  | closed hread => rw [hread r hr]; rfl
  | word hne hword hvalue =>
    -- The word ends at `c`, which is then read as it is behind any other value.
    rw [hr.foldlM_word hne hword]
    change (Reader.step _ c).bind _ = _
    simp only [Reader.step, hc, Reader.endWord, List.reverse_reverse, hvalue, Bool.false_eq_true,
      if_false, Option.bind_some]
    change (((r.put j).bind (·.stepBetween c)).bind fun r' ↦ rest.foldlM Reader.step r') = _
    rw [Option.bind_assoc]
    cases hput : r.put j with
    | none => rfl
    | some r' =>
      rw [Option.bind_some, Option.bind_some, ← Reader.step_of_put hput]
      rfl

/-- A value is read where the text ends. -/
theorem parse? (h : Spells cs j) : parse? (String.ofList cs) = some j := by
  have hawaits : Reader.init.AwaitsValue := .inl rfl
  rw [Json.parse?, String.toList_ofList]
  cases h with
  | closed hread =>
    rw [hread _ hawaits]
    rfl
  | word hne hword hvalue =>
    rw [hawaits.foldlM_word hne hword]
    exact (congrArg Reader.ofWord? (List.reverse_reverse cs)).trans hvalue

/-- The text of a whole number of 64 bits is a word. -/
theorem renderInt {n : Int} (hmin : intMin ≤ n) (hmax : n ≤ intMax) :
    Spells (renderInt n).toList (.int n) := by
  -- The words that stand for no number begin with letters.
  have hletter : ∀ {c : Char} {cs : List Char}, c ≠ '-' → c.isDigit = false →
      (Json.renderInt n).toList ≠ c :: cs := by
    intro c cs hsign hdigit heq
    rcases mem_renderInt (heq ▸ List.mem_cons_self) with h | h
    · exact hsign h
    · rw [hdigit] at h
      cases h
  apply Spells.word
  · rw [toList_renderInt]
    split
    · exact List.cons_ne_nil _ _
    · exact Nat.toDigits_ne_nil
  · intro c hc
    rcases mem_renderInt hc with rfl | hdigit
    · rfl
    · simp [Reader.isWordChar, Char.isAlphanum, hdigit]
  · rw [Reader.ofWord?, if_neg (hletter (by decide) (by decide)),
      if_neg (hletter (by decide) (by decide)), if_neg (hletter (by decide) (by decide))]
    exact ofNumber?_renderInt hmin hmax

theorem quote (s : String) : Spells (quote s).toList (.string s) := by
  apply Spells.closed
  intro r hr
  have hopens : r.step '"' = some ⟨.quoted false false [], r.around⟩ :=
    (hr.step (by decide) (by decide)).trans rfl
  rw [Reader.foldlM_quote s hopens, Reader.endString_inside]
  rfl

end Spells

/-! ### Arrays and objects -/

namespace Reader

variable {around : List Frame}

/-- What follows an item begins with a comma or closes the array. -/
theorem exists_renderMoreItems (items : List Json) : ∃ c rest,
    (renderMoreItems items ++ "]").toList = c :: rest ∧ isWordChar c = false := by
  cases items with
  | nil => exact ⟨']', [], by decide, by decide⟩
  | cons j items =>
    refine ⟨',', (j.render ++ renderMoreItems items ++ "]").toList, ?_, by decide⟩
    simp [renderMoreItems]

/-- Further items are read up to the end of their array. -/
theorem foldlM_renderMoreItems {items : List Json} (h : ∀ j ∈ items, Spells j.render.toList j)
    (read : List Json) :
    (renderMoreItems items ++ "]").toList.foldlM step ⟨.behind, .array read :: around⟩
      = put ⟨.behind, around⟩ (.array (read.reverse ++ items)) := by
  induction items generalizing read with
  | nil =>
    rw [List.append_nil]
    exact bind_pure (m := Option) _
  | cons j items ih =>
    obtain ⟨c, rest, hrest, hc⟩ := exists_renderMoreItems items
    have htext : (renderMoreItems (j :: items) ++ "]").toList
        = ',' :: (j.render.toList ++ c :: rest) := by
      rw [← hrest]
      simp [renderMoreItems]
    have hcomma : step ⟨.behind, .array read :: around⟩ ','
        = some ⟨.value, .array read :: around⟩ := rfl
    rw [htext, List.foldlM_cons, hcomma, Option.bind_eq_bind, Option.bind_some,
      (h j List.mem_cons_self).foldlM_append (.inl rfl) hc, ← hrest]
    refine (ih (fun j' hj' ↦ h j' (List.mem_cons_of_mem j hj')) (j :: read)).trans ?_
    rw [List.reverse_cons, List.append_assoc, List.singleton_append]

end Reader

theorem Spells.array {items : List Json} (h : ∀ j ∈ items, Spells j.render.toList j) :
    Spells (Json.array items).render.toList (.array items) := by
  apply Spells.closed
  intro r hr
  have hopens : r.step '[' = some ⟨.firstItem, .array [] :: r.around⟩ :=
    (hr.step (by decide) (by decide)).trans rfl
  cases items with
  | nil =>
    change (['[', ']'] : List Char).foldlM Reader.step r = _
    rw [List.foldlM_cons, hopens]
    exact bind_pure (m := Option) _
  | cons j items =>
    obtain ⟨c, rest, hrest, hc⟩ := Reader.exists_renderMoreItems items
    have htext : (Json.array (j :: items)).render.toList
        = '[' :: (j.render.toList ++ c :: rest) := by
      rw [← hrest]
      simp [render, renderItems]
    rw [htext, List.foldlM_cons, hopens, Option.bind_eq_bind, Option.bind_some,
      (h j List.mem_cons_self).foldlM_append (.inr rfl) hc, ← hrest]
    exact Reader.foldlM_renderMoreItems (fun j' hj' ↦ h j' (List.mem_cons_of_mem j hj')) [j]

/-- Reading of a list what was written of each part gives what each part reads as. -/
theorem mapM_map_eq_some {α β γ : Type _} {f : α → β} {g : β → Option γ} {k : α → γ} {l : List α}
    (h : ∀ a ∈ l, g (f a) = some (k a)) : (l.map f).mapM g = some (l.map k) := by
  induction l with
  | nil => rfl
  | cons a l ih =>
    have hl := ih fun b hb ↦ h b (List.mem_cons_of_mem a hb)
    rw [List.map_cons, List.mapM_cons, h a List.mem_cons_self, hl]
    rfl

namespace Reader

variable {around : List Frame}

/-- The fields of an object that is not closed yet, of those with these names and values. -/
def fieldsRead (fields : List Field) : List (Option Name × Json) :=
  (fields.map fun e ↦ (some e.1, e.2)).reverse

theorem objectOf_fieldsRead (fields : List Field) :
    objectOf (fieldsRead fields) = .object fields := by
  have hnamed : (fields.map fun e ↦ (some e.1, e.2)).mapM
      (fun e : Option Name × Json ↦ e.1.map fun name ↦ (name, e.2)) = some (fields.map id) :=
    mapM_map_eq_some fun _ _ ↦ rfl
  rw [objectOf, fieldsRead, List.reverse_reverse, hnamed, List.map_id]

/-- What follows a field begins with a comma or closes the object. -/
theorem exists_renderMoreFields (fields : List Field) : ∃ c rest,
    (renderMoreFields fields ++ "\x7d").toList = c :: rest ∧ isWordChar c = false := by
  cases fields with
  | nil => exact ⟨'\x7d', [], by decide, by decide⟩
  | cons e fields =>
    refine ⟨',', (quote e.1.text ++ ":" ++ e.2.render ++ renderMoreFields fields ++ "\x7d").toList,
      ?_, by decide⟩
    simp [renderMoreFields]

/-- A field is read up to the character behind it. -/
theorem foldlM_field {mode : Mode} (hmode : mode = .name ∨ mode = .firstName) {e : Field}
    (hname : Name.ofText e.1.text = e.1) (hvalue : Spells e.2.render.toList e.2)
    (read : List Field) {c : Char} (hc : isWordChar c = false) (rest : List Char) :
    ((quote e.1.text).toList ++ ':' :: (e.2.render.toList ++ c :: rest)).foldlM step
        ⟨mode, .object (fieldsRead read) :: around⟩
      = (c :: rest).foldlM step ⟨.behind, .object (fieldsRead (read ++ [e])) :: around⟩ := by
  have hopens : step ⟨mode, .object (fieldsRead read) :: around⟩ '"'
      = some ⟨.quoted true false [], .object (fieldsRead read) :: around⟩ := by
    rcases hmode with rfl | rfl <;> rfl
  have hcolon : step ⟨.colon, .member (fieldsRead read) (some e.1) :: around⟩ ':'
      = some ⟨.value, .member (fieldsRead read) (some e.1) :: around⟩ := rfl
  rw [List.foldlM_append, foldlM_quote e.1.text hopens, endString_name, hname,
    Option.bind_eq_bind, Option.bind_some, List.foldlM_cons, hcolon]
  refine (hvalue.foldlM_append (.inl rfl) hc rest).trans ?_
  rw [fieldsRead, fieldsRead, List.map_append, List.reverse_append]
  rfl

/-- Further fields are read up to the end of their object. -/
theorem foldlM_renderMoreFields {fields : List Field}
    (hnames : ∀ e ∈ fields, Name.ofText e.1.text = e.1)
    (hvalues : ∀ e ∈ fields, Spells e.2.render.toList e.2) (read : List Field) :
    (renderMoreFields fields ++ "\x7d").toList.foldlM step
        ⟨.behind, .object (fieldsRead read) :: around⟩
      = put ⟨.behind, around⟩ (.object (read ++ fields)) := by
  induction fields generalizing read with
  | nil =>
    have htext : (renderMoreFields [] ++ "\x7d").toList = ['\x7d'] := rfl
    have hcloses : step ⟨.behind, .object (fieldsRead read) :: around⟩ '\x7d'
        = put ⟨.behind, around⟩ (objectOf (fieldsRead read)) := rfl
    rw [htext, List.foldlM_cons, hcloses, objectOf_fieldsRead, List.append_nil]
    exact bind_pure (m := Option) _
  | cons e fields ih =>
    obtain ⟨c, rest, hrest, hc⟩ := exists_renderMoreFields fields
    have htext : (renderMoreFields (e :: fields) ++ "\x7d").toList
        = ',' :: ((quote e.1.text).toList ++ ':' :: (e.2.render.toList ++ c :: rest)) := by
      rw [← hrest]
      simp [renderMoreFields]
    have hcomma : step ⟨.behind, .object (fieldsRead read) :: around⟩ ','
        = some ⟨.name, .object (fieldsRead read) :: around⟩ := rfl
    rw [htext, List.foldlM_cons, hcomma, Option.bind_eq_bind, Option.bind_some,
      foldlM_field (.inl rfl) (hnames e List.mem_cons_self) (hvalues e List.mem_cons_self) read hc,
      ← hrest]
    refine (ih (fun e' he' ↦ hnames e' (List.mem_cons_of_mem e he'))
      (fun e' he' ↦ hvalues e' (List.mem_cons_of_mem e he')) (read ++ [e])).trans ?_
    rw [List.append_assoc, List.singleton_append]

end Reader

theorem Spells.object {fields : List Field} (hnames : ∀ e ∈ fields, Name.ofText e.1.text = e.1)
    (hvalues : ∀ e ∈ fields, Spells e.2.render.toList e.2) :
    Spells (Json.object fields).render.toList (.object fields) := by
  apply Spells.closed
  intro r hr
  have hopens : r.step '\x7b' = some ⟨.firstName, .object (Reader.fieldsRead []) :: r.around⟩ :=
    (hr.step (by decide) (by decide)).trans rfl
  cases fields with
  | nil =>
    have htext : (Json.object []).render.toList = ['\x7b', '\x7d'] := rfl
    have hcloses : Reader.step ⟨.firstName, .object (Reader.fieldsRead []) :: r.around⟩ '\x7d'
        = r.put (.object []) := rfl
    rw [htext, List.foldlM_cons, hopens, Option.bind_eq_bind, Option.bind_some, List.foldlM_cons,
      hcloses]
    exact bind_pure (m := Option) _
  | cons e fields =>
    obtain ⟨c, rest, hrest, hc⟩ := Reader.exists_renderMoreFields fields
    have htext : (Json.object (e :: fields)).render.toList
        = '\x7b' :: ((Json.quote e.1.text).toList ++ ':' :: (e.2.render.toList ++ c :: rest)) := by
      rw [← hrest]
      simp [render, renderFields]
    rw [htext, List.foldlM_cons, hopens, Option.bind_eq_bind, Option.bind_some,
      Reader.foldlM_field (.inr rfl) (hnames e List.mem_cons_self) (hvalues e List.mem_cons_self) []
        hc, ← hrest]
    exact Reader.foldlM_renderMoreFields (fun e' he' ↦ hnames e' (List.mem_cons_of_mem e he'))
      (fun e' he' ↦ hvalues e' (List.mem_cons_of_mem e he')) [e]

/-! ### Values that can be written -/

theorem areItemsSound_iff {items : List Json} :
    areItemsSound items = true ↔ ∀ j ∈ items, j.isSound = true := by
  induction items with
  | nil => simp [areItemsSound]
  | cons j items ih => rw [areItemsSound, Bool.and_eq_true, ih, List.forall_mem_cons]

theorem areFieldsSound_iff {fields : List Field} :
    areFieldsSound fields = true ↔ ∀ e ∈ fields, e.2.isSound = true := by
  induction fields with
  | nil => simp [areFieldsSound]
  | cons e fields ih => rw [areFieldsSound, Bool.and_eq_true, ih, List.forall_mem_cons]

/-- The values that writing tells apart: their whole numbers have 64 bits, their names are spelled
as names are written, and every part has a value. -/
inductive IsWritable : Json → Prop where
  | null : IsWritable .null
  | bool (b : Bool) : IsWritable (.bool b)
  | int {n : Int} (hmin : intMin ≤ n) (hmax : n ≤ intMax) : IsWritable (.int n)
  | string (s : String) : IsWritable (.string s)
  | array {items : List Json} (h : ∀ j ∈ items, IsWritable j) : IsWritable (.array items)
  | object {fields : List Field} (hnames : ∀ e ∈ fields, Name.ofText e.1.text = e.1)
      (hvalues : ∀ e ∈ fields, IsWritable e.2) : IsWritable (.object fields)

namespace IsWritable

variable {j : Json}

theorem spells_render (h : IsWritable j) : Spells j.render.toList j := by
  induction h with
  | null =>
    have htext : Json.null.render.toList = ['n', 'u', 'l', 'l'] := rfl
    rw [htext]
    exact .word (List.cons_ne_nil _ _) (List.all_eq_true.mp rfl) rfl
  | bool b =>
    have htext : (Json.bool b).render.toList
        = if b then ['t', 'r', 'u', 'e'] else ['f', 'a', 'l', 's', 'e'] := by
      cases b <;> rfl
    rw [htext]
    cases b
    · exact .word (List.cons_ne_nil _ _) (List.all_eq_true.mp rfl) rfl
    · exact .word (List.cons_ne_nil _ _) (List.all_eq_true.mp rfl) rfl
  | int hmin hmax => exact .renderInt hmin hmax
  | string s => exact .quote s
  | array _ ih => exact .array ih
  | object hnames _ ih => exact .object hnames ih

/-- What was written of a value is read back as that value. -/
theorem parse?_render (h : IsWritable j) : parse? j.render = some j := by
  have hparse := h.spells_render.parse?
  rwa [String.ofList_toList] at hparse

/-- A value that can be written has a value in every part. -/
theorem isSound (h : IsWritable j) : j.isSound = true := by
  induction h with
  | null => rfl
  | bool _ => rfl
  | int _ _ => rfl
  | string _ => rfl
  | array _ ih =>
    rw [Json.isSound]
    exact areItemsSound_iff.mpr ih
  | object _ _ ih =>
    rw [Json.isSound]
    exact areFieldsSound_iff.mpr ih

end IsWritable

end UrlPattern.Json
