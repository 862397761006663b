import UrlPattern.Tree.Parser

/-!
# What stands between braces and parentheses

Which texts a group or a section may hold, said without the search for its end. Inside a group the
quotes come in pairs and no brace stands outside of them. Inside a section the parentheses come in
pairs, where those in groups do not count.

The searches find exactly these texts (`splitGroup_eq_ok_iff`, `splitSection_eq_ok_iff`). So whether
a text may stand inside is known from its parts alone, wherever the search started
(`SectionInside.append_iff`).

Specification: `SPEC_FULL.md` §4.4 (lines 57–58).
-/

namespace UrlPattern.Node

/-- A text that may follow inside a group, up to its closing brace, given whether a quote is open.
In quotes a backslash hides the next character. -/
inductive GroupInside : (inQuotes : Bool) → List Char → Prop where
  | nil : GroupInside false []
  | escape {c : Char} {cs : List Char} (h : GroupInside true cs) :
      GroupInside true ('\\' :: c :: cs)
  | quote {inQuotes : Bool} {cs : List Char} (h : GroupInside (!inQuotes) cs) :
      GroupInside inQuotes ('"' :: cs)
  | char {inQuotes : Bool} {c : Char} {cs : List Char} (hquote : c ≠ '"')
      (hmark : c ≠ if inQuotes then '\\' else '\x7d') (h : GroupInside inQuotes cs) :
      GroupInside inQuotes (c :: cs)

/-- A text that may follow inside a section, up to its closing parenthesis, given how many inner
parentheses are open. -/
inductive SectionInside : (depth : Nat) → List Char → Prop where
  | nil : SectionInside 0 []
  | group {depth : Nat} {content cs : List Char} (hcontent : GroupInside false content)
      (h : SectionInside depth cs) : SectionInside depth ('\x7b' :: (content ++ '\x7d' :: cs))
  | opened {depth : Nat} {cs : List Char} (h : SectionInside (depth + 1) cs) :
      SectionInside depth ('(' :: cs)
  | closed {depth : Nat} {cs : List Char} (h : SectionInside depth cs) :
      SectionInside (depth + 1) (')' :: cs)
  | char {depth : Nat} {c : Char} {cs : List Char} (hc : c ∉ ['\x7b', '(', ')'])
      (h : SectionInside depth cs) : SectionInside depth (c :: cs)

/-! ### Groups -/

section

variable {inQuotes : Bool} {cs content after : List Char}

/-- The search for the closing brace passes over what may stand inside. -/
theorem splitGroup_of_inside (h : GroupInside inQuotes content) (after : List Char) :
    splitGroup inQuotes (content ++ '\x7d' :: after) = .ok (content, after) := by
  induction h with
  | nil => rfl
  | escape h ih =>
    rw [List.cons_append, List.cons_append, splitGroup, ih]
    rfl
  | quote h ih =>
    rw [List.cons_append, splitGroup, ih]
    rfl
  | @char inQuotes c cs hquote hmark h ih =>
    have hbackslash : inQuotes = true → c ≠ '\\' := by
      rintro rfl
      exact hmark
    have hbrace : inQuotes = false → c ≠ '\x7d' := by
      rintro rfl
      exact hmark
    rw [List.cons_append,
      splitGroup.eq_5 _ _ _ hquote (fun _ _ hin hc _ ↦ hbackslash hin hc) hbrace, ih]
    rfl

/-- What the search for the closing brace passes over may stand inside. -/
theorem groupInside_of_splitGroup (h : splitGroup inQuotes cs = .ok (content, after)) :
    GroupInside inQuotes content := by
  fun_induction splitGroup inQuotes cs generalizing content after with
  | case1 => cases h
  | case2 c cs ih =>
    obtain ⟨inside, hr, rfl⟩ := (map_append_eq_ok ['\\', c]).mp h
    exact .escape (ih hr)
  | case3 inQuotes cs ih =>
    obtain ⟨inside, hr, rfl⟩ := (map_append_eq_ok ['"']).mp h
    exact .quote (ih hr)
  | case4 cs =>
    cases h
    exact .nil
  | case5 inQuotes c cs hbackslash hquote hbrace ih =>
    obtain ⟨inside, hr, rfl⟩ := (map_append_eq_ok [c]).mp h
    refine .char hquote ?_ (ih hr)
    cases inQuotes with
    | false => exact hbrace rfl
    | true =>
      rintro rfl
      -- A backslash at the very end leaves the quotes open.
      cases cs with
      | nil => cases hr
      | cons d cs => exact hbackslash d cs rfl rfl rfl

/-- A group ends at the first brace outside of quotes. -/
theorem splitGroup_eq_ok_iff :
    splitGroup inQuotes cs = .ok (content, after) ↔
      GroupInside inQuotes content ∧ cs = content ++ '\x7d' :: after := by
  constructor
  · exact fun h ↦ ⟨groupInside_of_splitGroup h, eq_of_splitGroup h⟩
  · rintro ⟨h, rfl⟩
    exact splitGroup_of_inside h after

/-- What stands in a group is determined by the text from the group on. -/
theorem GroupInside.append_inj {content' after' : List Char} (h : GroupInside inQuotes content)
    (h' : GroupInside inQuotes content')
    (heq : content ++ '\x7d' :: after = content' ++ '\x7d' :: after') :
    content = content' ∧ after = after' := by
  have hsplit := splitGroup_of_inside h after
  rw [heq, splitGroup_of_inside h' after'] at hsplit
  cases hsplit
  exact ⟨rfl, rfl⟩

end

/-! ### Sections -/

section

variable {opener offset depth depth' : Nat} {cs inside after : List Char}

/-- The search for the closing parenthesis passes over what may stand inside. -/
theorem splitSection_of_inside (h : SectionInside depth inside) (opener offset : Nat)
    (after : List Char) :
    splitSection opener offset depth (inside ++ ')' :: after) = .ok (inside, after) := by
  induction h generalizing offset with
  | nil =>
    rw [List.nil_append, splitSection, if_neg (by decide), if_neg (by decide), if_pos rfl,
      if_pos rfl]
  | @group depth content cs hcontent h ih =>
    have hsplit := splitGroup_of_inside hcontent (cs ++ ')' :: after)
    rw [List.cons_append, List.append_assoc, List.cons_append, splitSection, if_pos rfl, hsplit]
    simp only [ih]
    simp [Except.map]
  | opened h ih =>
    rw [List.cons_append, splitSection, if_neg (by decide), if_pos rfl, ih]
    rfl
  | closed h ih =>
    rw [List.cons_append, splitSection, if_neg (by decide), if_neg (by decide), if_pos rfl,
      if_neg (Nat.succ_ne_zero _), Nat.add_sub_cancel, ih]
    rfl
  | char hc h ih =>
    simp only [List.mem_cons, List.not_mem_nil, or_false, not_or] at hc
    rw [List.cons_append, splitSection, if_neg hc.1, if_neg hc.2.1, if_neg hc.2.2, ih]
    rfl

/-- What the search for the closing parenthesis passes over may stand inside. -/
theorem sectionInside_of_splitSection
    (h : splitSection opener offset depth cs = .ok (inside, after)) :
    SectionInside depth inside := by
  fun_induction splitSection opener offset depth cs generalizing inside after with
  | case1 => cases h
  | case2 => cases h
  | case3 offset depth rest content after' hgroup ih =>
    obtain ⟨inside', hr, rfl⟩ := (map_append_eq_ok ('\x7b' :: content ++ ['\x7d'])).mp
      (by simpa using h)
    have hinside := SectionInside.group (groupInside_of_splitGroup hgroup) (ih hr)
    simpa using hinside
  | case4 offset depth rest _ ih =>
    obtain ⟨inside', hr, rfl⟩ := (map_append_eq_ok ['(']).mp h
    exact .opened (ih hr)
  | case5 offset rest _ _ =>
    cases h
    exact .nil
  | case6 offset depth rest hdepth _ _ ih =>
    obtain ⟨inside', hr, rfl⟩ := (map_append_eq_ok [')']).mp h
    obtain ⟨depth', rfl⟩ := Nat.exists_eq_succ_of_ne_zero hdepth
    exact .closed (ih hr)
  | case7 offset depth c rest hbrace hopen hclose ih =>
    obtain ⟨inside', hr, rfl⟩ := (map_append_eq_ok [c]).mp h
    exact .char (by simp [hbrace, hopen, hclose]) (ih hr)

/-- A section ends at the first parenthesis that closes it. -/
theorem splitSection_eq_ok_iff :
    splitSection opener offset depth cs = .ok (inside, after) ↔
      SectionInside depth inside ∧ cs = inside ++ ')' :: after := by
  constructor
  · exact fun h ↦ ⟨sectionInside_of_splitSection h, eq_of_splitSection h⟩
  · rintro ⟨h, rfl⟩
    exact splitSection_of_inside h opener offset after

namespace SectionInside

/-- What follows a group inside a section may stand there by itself. -/
theorem group_iff {content : List Char} (hcontent : GroupInside false content) :
    SectionInside depth ('\x7b' :: (content ++ '\x7d' :: cs)) ↔ SectionInside depth cs := by
  constructor
  · intro h
    generalize heq : '\x7b' :: (content ++ '\x7d' :: cs) = text at h
    cases h with
    | nil => cases heq
    | group hcontent' h =>
      obtain ⟨-, rfl⟩ := hcontent.append_inj hcontent' (List.cons.inj heq).2
      exact h
    | opened h => cases heq
    | closed h => cases heq
    | char hc h =>
      cases heq
      exact absurd List.mem_cons_self hc
  · exact .group hcontent

theorem opened_iff : SectionInside depth ('(' :: cs) ↔ SectionInside (depth + 1) cs := by
  constructor
  · intro h
    cases h with
    | opened h => exact h
    | char hc h => simp at hc
  · exact .opened

theorem closed_iff :
    SectionInside depth (')' :: cs) ↔ ∃ depth', depth = depth' + 1 ∧ SectionInside depth' cs := by
  constructor
  · intro h
    cases h with
    | closed h => exact ⟨_, rfl, h⟩
    | char hc h => simp at hc
  · rintro ⟨depth', rfl, h⟩
    exact .closed h

theorem char_iff {c : Char} (hc : c ∉ ['\x7b', '(', ')']) :
    SectionInside depth (c :: cs) ↔ SectionInside depth cs := by
  constructor
  · intro h
    cases h with
    | group hcontent h => simp at hc
    | opened h => simp at hc
    | closed h => simp at hc
    | char _ h => exact h
  · exact .char hc

/-- A text that closes so many parentheses may be followed by what may stand behind them. -/
theorem append_iff (h : SectionInside depth inside) :
    SectionInside (depth + depth') (inside ++ cs) ↔ SectionInside depth' cs := by
  induction h with
  | nil => rw [Nat.zero_add, List.nil_append]
  | group hcontent h ih =>
    rw [List.cons_append, List.append_assoc, List.cons_append, group_iff hcontent, ih]
  | opened h ih => rw [List.cons_append, opened_iff, Nat.add_right_comm, ih]
  | @closed depth cs h ih =>
    rw [List.cons_append, closed_iff, ← ih]
    constructor
    · rintro ⟨n, hn, h⟩
      obtain rfl : n = depth + depth' := by omega
      exact h
    · exact fun h ↦ ⟨depth + depth', by omega, h⟩
  | char hc h ih => rw [List.cons_append, char_iff hc, ih]

/-- A whole section inside a section leaves open what was open before. -/
theorem section_iff (h : SectionInside 0 inside) :
    SectionInside depth ('(' :: (inside ++ ')' :: cs)) ↔ SectionInside depth cs := by
  have hclose : SectionInside (0 + 1) (inside ++ [')']) := h.append_iff.mpr (.closed .nil)
  have hparts : inside ++ ')' :: cs = (inside ++ [')']) ++ cs := by simp
  rw [opened_iff, hparts, Nat.add_comm depth, ← Nat.zero_add 1, hclose.append_iff]

/-- A literal in a section has no parentheses. -/
theorem text_iff {text : List Char} (htext : ∀ c ∈ text, isLiteralChar c = true) :
    SectionInside 0 (text ++ cs) ↔ ')' ∉ text ∧ SectionInside 0 cs := by
  induction text with
  | nil => simp
  | cons c text ih =>
    have hc := htext c List.mem_cons_self
    have ih := ih fun d hd ↦ htext d (List.mem_cons_of_mem _ hd)
    simp only [isLiteralChar, Bool.and_eq_true, decide_eq_true_eq] at hc
    rw [List.cons_append, List.mem_cons]
    by_cases hclose : c = ')'
    · subst hclose
      rw [closed_iff]
      exact iff_of_false (by rintro ⟨n, hn, -⟩; omega) (by simp)
    · rw [char_iff (by simp [hc, hclose]), ih, not_or]
      exact ⟨fun h ↦ ⟨⟨Ne.symm hclose, h.1⟩, h.2⟩, fun h ↦ ⟨h.1.2, h.2⟩⟩

/-- A group that starts inside a section ends there. -/
theorem exists_group (h : SectionInside depth ('\x7b' :: cs)) :
    ∃ content behind, GroupInside false content ∧ cs = content ++ '\x7d' :: behind ∧
      SectionInside depth behind := by
  generalize htext : '\x7b' :: cs = text at h
  cases h with
  | nil => cases htext
  | group hcontent h =>
    obtain rfl := (List.cons.inj htext).2
    exact ⟨_, _, hcontent, rfl, h⟩
  | opened h => cases htext
  | closed h => cases htext
  | char hc h =>
    cases htext
    exact absurd List.mem_cons_self hc

/-- Where more parentheses are open than are left open, one of them is closed. -/
theorem exists_closed {k : Nat} (h : SectionInside (k + 1 + depth) cs) :
    ∃ inside behind, SectionInside k inside ∧ cs = inside ++ ')' :: behind ∧
      SectionInside depth behind := by
  generalize hopen : k + 1 + depth = d at h
  induction h generalizing k with
  | nil => omega
  | @group d content cs hcontent h ih =>
    obtain ⟨inside, behind, hinside, rfl, hbehind⟩ := ih hopen
    exact ⟨'\x7b' :: (content ++ '\x7d' :: inside), behind, .group hcontent hinside, by simp,
      hbehind⟩
  | @opened d cs h ih =>
    obtain ⟨inside, behind, hinside, rfl, hbehind⟩ := ih (k := k + 1) (by omega)
    exact ⟨'(' :: inside, behind, .opened hinside, rfl, hbehind⟩
  | @closed d cs h ih =>
    cases k with
    | zero =>
      obtain rfl : depth = d := by omega
      exact ⟨[], cs, .nil, rfl, h⟩
    | succ k =>
      obtain ⟨inside, behind, hinside, rfl, hbehind⟩ := ih (k := k) (by omega)
      exact ⟨')' :: inside, behind, .closed hinside, rfl, hbehind⟩
  | @char d c cs hc h ih =>
    obtain ⟨inside, behind, hinside, rfl, hbehind⟩ := ih hopen
    exact ⟨c :: inside, behind, .char hc hinside, rfl, hbehind⟩

/-- A section that starts inside a section ends there. -/
theorem exists_section (h : SectionInside depth ('(' :: cs)) :
    ∃ inside behind, SectionInside 0 inside ∧ cs = inside ++ ')' :: behind ∧
      SectionInside depth behind := by
  apply exists_closed
  rw [Nat.zero_add, Nat.add_comm]
  exact opened_iff.mp h

end SectionInside

end

end UrlPattern.Node
