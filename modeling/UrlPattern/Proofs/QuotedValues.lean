import UrlPattern.Proofs.CanonicalText

/-!
# Quotes inside groups

Quotes are gone through twice. In the search for the end of a group every quote opens quotes or
closes them, wherever it stands. The reader of the constraints opens them only where a value starts,
so a plain value may hold quotes of its own.

Up to the first quote in a plain value the two agree: behind each entry without one, both have
closed their quotes (`braces_of_entry`). So a brace inside a group stands in the quotes of a value,
or somewhere behind a quote in a plain value (`braces_of_readGroup`).

Specification: `SPEC_FULL.md` §4.4 (lines 57–58).
-/

namespace UrlPattern

open Text

namespace Text

/-- What trimming takes away are blanks. -/
theorem mem_trim_of_not_isBlank {cs : List Char} {c : Char} (hc : c ∈ cs)
    (hblank : isBlank c = false) : c ∈ trim cs := by
  have hstart : ∀ cs : List Char, c ∈ cs → c ∈ trimStart cs := fun cs hc ↦ by
    obtain ⟨blank, hblanks, hcs⟩ := exists_blank_append_trimStart cs
    rw [hcs] at hc
    refine (List.mem_append.mp hc).resolve_left fun hmem ↦ ?_
    rw [hblanks c hmem] at hblank
    cases hblank
  rw [trim, trimEnd, List.mem_reverse]
  exact hstart _ (List.mem_reverse.mpr (hstart cs hc))

/-- A character of a text stands in its front or in its back. -/
theorem append_eq_append_cons {c : Char} {front back left right : List Char}
    (h : front ++ back = left ++ c :: right) :
    (∃ more, front = left ++ c :: more) ∨
      ∃ more, left = front ++ more ∧ back = more ++ c :: right := by
  obtain ⟨more, rfl, hmore⟩ | ⟨more, rfl, hmore⟩ := List.append_eq_append_iff.mp h
  · exact .inr ⟨more, rfl, hmore⟩
  · cases more with
    | nil => exact .inr ⟨[], by simp, hmore.symm⟩
    | cons d more =>
      obtain ⟨rfl, -⟩ := List.cons.inj hmore
      exact .inl ⟨more, rfl⟩

end Text

namespace Node.GroupInside

variable {cs : List Char}

/-- Outside quotes there is no brace before the first quote. -/
theorem of_append_plain {front : List Char} (hquote : '"' ∉ front)
    (h : GroupInside false (front ++ cs)) : '\x7d' ∉ front ∧ GroupInside false cs := by
  induction front with
  | nil => exact ⟨List.not_mem_nil, h⟩
  | cons c front ih =>
    rw [List.mem_cons, not_or] at hquote
    cases h with
    | quote h => exact absurd rfl hquote.1
    | char _ hmark h =>
      obtain ⟨hfront, hcs⟩ := ih hquote.2 h
      exact ⟨List.not_mem_cons_of_ne_of_not_mem (Ne.symm hmark) hfront, hcs⟩

/-- Quotes that a quoted value opens are open up to the end of the value. -/
theorem of_append_quoted {text value : List Char} (htext : ConstraintList.Quoted text value)
    (h : GroupInside true (text ++ cs)) : GroupInside true cs := by
  induction htext with
  | nil => exact h
  | @plain c text value hc _ ih =>
    rw [List.cons_append] at h
    generalize text ++ cs = rest at h ih
    cases h with
    | escape h => simp at hc
    | quote h => simp at hc
    | char _ _ h => exact ih h
  | @escaped c text value _ ih =>
    rw [List.cons_append, List.cons_append] at h
    cases h with
    | escape h => exact ih h
    | char _ hmark h => exact absurd rfl hmark

end Node.GroupInside

namespace ConstraintList

open Node (GroupInside)

/-- A list has this value, as it is written, behind this text. -/
inductive HasValue : (list before value : List Char) → Prop where
  | entry {front back after : List Char} {value : String} (hfront : ∀ c ∈ front, c ∉ ['=', ','])
      (hback : SpellsValue back value) (hafter : EndsEntry after) :
      HasValue (front ++ '=' :: (back ++ after)) (front ++ ['=']) back
  | later {text rest before value : List Char} {entry : String × String}
      (htext : SpellsEntry text entry) (h : HasValue rest before value) :
      HasValue (text ++ ',' :: rest) (text ++ ',' :: before) value

/-- The character of a list behind this text stands in the quotes of a value. -/
inductive InQuotes (list : List Char) : (left : List Char) → Prop where
  | mk {before blank text more after value : List Char}
      (h : HasValue list before (blank ++ '"' :: (text ++ more ++ '"' :: after)))
      (hblank : ∀ c ∈ blank, isBlank c = true) (htext : Quoted (text ++ more) value)
      (hmore : more ≠ []) : InQuotes list (before ++ (blank ++ '"' :: text))

/-- Up to here there is a quote in a value of a list that is not written in quotes. -/
inductive HasStrayQuote (list : List Char) : (left : List Char) → Prop where
  | mk {before front back : List Char} (h : HasValue list before (front ++ '"' :: back))
      (hplain : (trimStart (front ++ '"' :: back)).head? ≠ some '"') (more : List Char) :
      HasStrayQuote list (before ++ (front ++ '"' :: more))

theorem InQuotes.later {text rest left : List Char} {entry : String × String}
    (htext : SpellsEntry text entry) (h : InQuotes rest left) :
    InQuotes (text ++ ',' :: rest) (text ++ ',' :: left) := by
  cases h with
  | @mk before blank text' more after value h hblank hquoted hmore =>
    have hlater := InQuotes.mk (h.later htext) hblank hquoted hmore
    rwa [List.append_assoc] at hlater

theorem HasStrayQuote.later {text rest left : List Char} {entry : String × String}
    (htext : SpellsEntry text entry) (h : HasStrayQuote rest left) :
    HasStrayQuote (text ++ ',' :: rest) (text ++ ',' :: left) := by
  cases h with
  | @mk before front back h hplain more =>
    have hlater := HasStrayQuote.mk (h.later htext) hplain more
    rwa [List.append_assoc] at hlater

/-- Without commas a list has at most the one value behind its first equals sign. -/
theorem HasValue.dropWhile_eq {list before value : List Char} (h : HasValue list before value)
    (hcomma : ',' ∉ list) : list.dropWhile (· ≠ '=') = '=' :: value := by
  cases h with
  | @entry front back after v hfront hback hafter =>
    obtain rfl | ⟨more, rfl⟩ := hafter.eq_nil_or
    · rw [List.append_nil]
      refine (takeWhile_eq_and_dropWhile_eq_iff.mpr ⟨rfl, fun c hc ↦ ?_, fun c hc ↦ ?_⟩).2
      · exact decide_eq_true fun heq ↦ hfront c hc (heq ▸ List.mem_cons_self)
      · cases hc
        rfl
    · exact absurd (by simp) hcomma
  | later htext h => exact absurd (by simp) hcomma

/-- Where there are quotes, there is a value that starts with a quote. -/
theorem InQuotes.exists_value {list left : List Char} (h : InQuotes list left) :
    ∃ before value, HasValue list before value ∧ (trimStart value).head? = some '"' := by
  cases h with
  | mk h hblank htext hmore =>
    refine ⟨_, _, h, ?_⟩
    rw [trimStart_append hblank]
    rfl

/-- Behind a value in quotes the quotes are closed for the search, too, and all braces of the value
stand in them. -/
theorem braces_of_quoted {list before blank text rest value tail : List Char}
    (hvalue : HasValue list before (blank ++ '"' :: (text ++ '"' :: rest)))
    (hblank : ∀ c ∈ blank, isBlank c = true) (htext : Quoted text value)
    (hrest : ∀ c ∈ rest, isBlank c = true) (hbefore : '\x7d' ∉ before)
    (hinside : GroupInside false (blank ++ '"' :: (text ++ '"' :: (rest ++ tail)))) :
    GroupInside false tail ∧ ∀ left right,
      before ++ (blank ++ '"' :: (text ++ '"' :: rest)) = left ++ '\x7d' :: right →
        InQuotes list left := by
  have hnone : ∀ cs : List Char, (∀ c ∈ cs, isBlank c = true) → '"' ∉ cs :=
    fun cs hcs hmem ↦ absurd (hcs _ hmem) (by decide)
  obtain ⟨hblank', hinside⟩ := hinside.of_append_plain (hnone _ hblank)
  have htail : GroupInside false tail ∧ '\x7d' ∉ rest := by
    cases hinside with
    | char hquote => exact absurd rfl hquote
    | quote hinside =>
      cases GroupInside.of_append_quoted htext hinside with
      | char hquote => exact absurd rfl hquote
      | quote hinside => exact (hinside.of_append_plain (hnone _ hrest)).symm
  refine ⟨htail.1, fun left right hsplit ↦ ?_⟩
  -- The brace is not before the quotes and not behind them, so it is in them.
  have hopen : '\x7d' ∉ before ++ (blank ++ ['"']) := by simp [hbefore, hblank']
  have hclose : '\x7d' ∉ '"' :: rest := by simp [htail.2]
  have hsplit : (before ++ (blank ++ ['"'])) ++ (text ++ '"' :: rest)
      = left ++ '\x7d' :: right := by simpa using hsplit
  obtain ⟨text', rfl, hinner⟩ := (Text.append_eq_append_cons hsplit).resolve_left
    fun ⟨m, heq⟩ ↦ hopen (by simp [heq])
  obtain ⟨more, rfl⟩ := (Text.append_eq_append_cons hinner).resolve_right
    fun ⟨m, _, heq⟩ ↦ hclose (by simp [heq])
  simpa using InQuotes.mk hvalue hblank htext (List.cons_ne_nil _ _)

/-- A value that is not in quotes has no brace before its first quote. Without a quote it leaves the
search as it was. -/
theorem braces_of_plain {list before back tail : List Char} (hvalue : HasValue list before back)
    (hplain : (trimStart back).head? ≠ some '"') (hbefore : '\x7d' ∉ before)
    (hinside : GroupInside false (back ++ tail)) :
    (∀ left right, before ++ back = left ++ '\x7d' :: right → HasStrayQuote list left) ∧
      (GroupInside false tail ∨ ∀ more, HasStrayQuote list (before ++ back ++ more)) := by
  by_cases hback : '"' ∈ back
  · obtain ⟨front, rest, rfl, hfront⟩ := List.eq_append_cons_of_mem hback
    rw [List.append_assoc] at hinside
    obtain ⟨hnone, -⟩ := hinside.of_append_plain hfront
    have hstray := HasStrayQuote.mk hvalue hplain
    refine ⟨fun left right hsplit ↦ ?_, .inr fun more ↦ ?_⟩
    · have hopen : '\x7d' ∉ before ++ (front ++ ['"']) := by simp [hbefore, hnone]
      have hsplit : (before ++ (front ++ ['"'])) ++ rest = left ++ '\x7d' :: right := by
        simpa using hsplit
      obtain ⟨more, rfl, -⟩ := (Text.append_eq_append_cons hsplit).resolve_left
        fun ⟨m, heq⟩ ↦ hopen (by simp [heq])
      simpa using hstray more
    · simpa using hstray (rest ++ more)
  · obtain ⟨hnone, htail⟩ := hinside.of_append_plain hback
    refine ⟨fun left right hsplit ↦ ?_, .inl htail⟩
    have hmem : '\x7d' ∈ before ++ back := by simp [hsplit]
    exact absurd hmem (List.not_mem_append hbefore hnone)

/-- An entry has its braces in quotes or behind a stray quote, and closes the quotes that it opens
unless it has a stray one. -/
theorem braces_of_entry {text after tail : List Char} {entry : String × String}
    (h : SpellsEntry text entry) (hkey : '"' ∉ entry.1.toList) (hafter : EndsEntry after)
    (hinside : GroupInside false (text ++ tail)) :
    (∀ left right, text = left ++ '\x7d' :: right →
        InQuotes (text ++ after) left ∨ HasStrayQuote (text ++ after) left) ∧
      (GroupInside false tail ∨ ∀ more, HasStrayQuote (text ++ after) (text ++ more)) := by
  cases h with
  | @mk front back value hfront hkeyText hback =>
    have hquote : '"' ∉ front ++ ['='] := by
      rw [List.mem_append, List.mem_singleton, or_iff_left (by decide)]
      rw [String.toList_ofList] at hkey
      exact fun hmem ↦ hkey (Text.mem_trim_of_not_isBlank hmem (by decide))
    have hvalue := HasValue.entry hfront hback hafter
    have hlist : front ++ '=' :: (back ++ after) = front ++ '=' :: back ++ after := by simp
    have hparts : front ++ '=' :: back = (front ++ ['=']) ++ back := by simp
    rw [hlist, hparts] at hvalue
    rw [hparts] at hinside ⊢
    rw [List.append_assoc] at hinside
    obtain ⟨hbefore, hinside⟩ := hinside.of_append_plain hquote
    cases hback with
    | quoted hblank htext hrest =>
      simp only [List.append_assoc, List.cons_append] at hinside
      obtain ⟨htail, hbraces⟩ := braces_of_quoted hvalue hblank htext hrest hbefore hinside
      exact ⟨fun left right hsplit ↦ .inl (hbraces left right hsplit), .inl htail⟩
    | plain hcomma hplain =>
      obtain ⟨hbraces, htail⟩ := braces_of_plain hvalue hplain hbefore hinside
      exact ⟨fun left right hsplit ↦ .inr (hbraces left right hsplit), htail⟩

/-- What is known of each entry is known of a list of entries. -/
theorem braces_of_entries {list tail left right : List Char} {entries : List (String × String)}
    (h : SpellsEntries list entries) (hkeys : ∀ entry ∈ entries, '"' ∉ entry.1.toList)
    (hinside : GroupInside false (list ++ tail)) (hsplit : list = left ++ '\x7d' :: right) :
    InQuotes list left ∨ HasStrayQuote list left := by
  induction h generalizing left right with
  | @single text entry h =>
    have hbraces := (braces_of_entry h (hkeys _ List.mem_cons_self) endsEntry_nil hinside).1
    rw [List.append_nil] at hbraces
    exact hbraces left right hsplit
  | @cons text rest entry entries h _ ih =>
    obtain ⟨hkey, hkeys⟩ := List.forall_mem_cons.mp hkeys
    rw [List.append_assoc] at hinside
    obtain ⟨hbraces, hclosed⟩ := braces_of_entry h hkey (endsEntry_comma rest) hinside
    obtain ⟨more, htext⟩ | ⟨more, rfl, hmore⟩ := Text.append_eq_append_cons hsplit
    · exact hbraces left more htext
    · obtain hclosed | hstray := hclosed
      · cases more with
        | nil => cases hmore
        | cons d more =>
          obtain ⟨rfl, hrest⟩ := List.cons.inj hmore
          obtain ⟨-, hclosed⟩ := @GroupInside.of_append_plain _ [','] (by decide) hclosed
          exact (ih hkeys hclosed hrest).imp (.later h) (.later h)
      · exact .inr (hstray more)

end ConstraintList

namespace Node

open ConstraintList

/-- In an accepted group with a list of constraints every brace stands in the list, and there in the
quotes of a value or behind a quote in a value that is not written in quotes. `SPEC_FULL.md:58`. -/
theorem braces_of_readGroup {pattern : String} {types : TypeRegistry} {offset next last : Nat}
    {cs content after : List Char} {g : Group} {header : GroupHeader} {list : List Char}
    (hsplit : splitGroup false cs = .ok (content, after))
    (hread : readGroup pattern types offset content next = .ok g last)
    (hheader : GroupHeader.read? content = some header) (hlist : header.constraints = some list) :
    ∃ head, content = head ++ '(' :: (list ++ [')']) ∧ '\x7d' ∉ head ∧
      ∀ left right, list = left ++ '\x7d' :: right →
        InQuotes list left ∨ HasStrayQuote list left := by
  obtain ⟨hreadable, hwritten, -⟩ := readGroup_eq_ok_iff.mp hread
  obtain ⟨hinside, -⟩ := splitGroup_eq_ok_iff.mp hsplit
  cases hwritten with
  | bare hraw =>
    have hbare := @GroupHeader.read?_text ⟨g.name, g.type.name, none⟩ hreadable.name
      hreadable.typeName
    rw [GroupHeader.text, GroupHeader.listText, List.append_nil, hheader] at hbare
    cases hbare
    cases hlist
  | @listed list' hspells =>
    have hlisted := @GroupHeader.read?_text ⟨g.name, g.type.name, some list'⟩ hreadable.name
      hreadable.typeName
    rw [GroupHeader.text, GroupHeader.listText, hheader] at hlisted
    cases hlisted
    cases hlist
    have hquote : '"' ∉ g.name.toList ++ ':' :: g.type.name.toList ++ ['('] := by
      simp only [List.mem_append, List.mem_cons, List.not_mem_nil, or_false, not_or]
      exact ⟨⟨fun h ↦ absurd (hreadable.name.2 _ h) (by decide), by decide,
        fun h ↦ absurd (hreadable.typeName.2 _ h) (by decide)⟩, by decide⟩
    have hparts : g.name.toList ++ ':' :: (g.type.name.toList ++ '(' :: (list ++ [')']))
        = (g.name.toList ++ ':' :: g.type.name.toList ++ ['(']) ++ (list ++ [')']) := by simp
    rw [hparts] at hinside
    obtain ⟨hbrace, hinside⟩ := hinside.of_append_plain hquote
    refine ⟨g.name.toList ++ ':' :: g.type.name.toList, by simp,
      fun h ↦ hbrace (List.mem_append_left _ h), fun left right hsplit ↦ ?_⟩
    obtain ⟨hblank, -⟩ | ⟨entries, hentries, hperm⟩ := hspells
    · exact absurd (hblank '\x7d' (by simp [hsplit])) (by decide)
    · refine braces_of_entries hentries (fun entry hentry hkey ↦ ?_) hinside hsplit
      have hletter := (g.isPlainKey (hperm.mem_iff.mp hentry)).2 _ hkey
      exact absurd hletter (by decide)

private theorem exists_readGroup {content : List Char}
    (h : (match readGroup "" .builtin 0 content 1 with
      | .ok _ last => last == 2
      | .error _ _ => false) = true) :
    ∃ g, readGroup "" .builtin 0 content 1 = .ok g 2 := by
  cases hread : readGroup "" .builtin 0 content 1 with
  | error e last =>
    rw [hread] at h
    cases h
  | ok g last =>
    rw [hread] at h
    exact ⟨g, congrArg _ (eq_of_beq h)⟩

/-- A brace in the quotes of a value. -/
theorem braces_of_readGroup_quoted :
    ∃ g head, readGroup "" .builtin 0 "s:string(contains=\"a\x7db\")".toList 1 = .ok g 2 ∧
      "s:string(contains=\"a\x7db\")".toList
        = head ++ '(' :: ("contains=\"a\x7db\"".toList ++ [')']) ∧
      (InQuotes "contains=\"a\x7db\"".toList "contains=\"a".toList ∨
        HasStrayQuote "contains=\"a\x7db\"".toList "contains=\"a".toList) := by
  have hsplit : splitGroup false "s:string(contains=\"a\x7db\")\x7d".toList
      = .ok ("s:string(contains=\"a\x7db\")".toList, []) := by decide +kernel
  have hheader : GroupHeader.read? "s:string(contains=\"a\x7db\")".toList
      = some ⟨"s", "string", some "contains=\"a\x7db\"".toList⟩ := by rfl
  obtain ⟨g, hread⟩ := @exists_readGroup "s:string(contains=\"a\x7db\")".toList (by decide +kernel)
  obtain ⟨head, hcontent, -, hbraces⟩ := braces_of_readGroup hsplit hread hheader rfl
  exact ⟨g, head, hread, hcontent, hbraces _ "b\"".toList (by decide)⟩

/-- With a quote in each of two plain values the search for the end of the first group passes over
its brace and all that stands between the two, and the second group becomes part of a value. -/
theorem exists_brace_unquoted :
    ∃ content g header list left right,
      splitGroup false "a:string(contains=x\"y)\x7d-\x7bb:string(contains=z\"w)\x7d".toList
          = .ok (content, []) ∧
        readGroup "" .builtin 0 content 1 = .ok g 2 ∧ GroupHeader.read? content = some header ∧
        header.constraints = some list ∧ list = left ++ '\x7d' :: right ∧ ¬ InQuotes list left := by
  obtain ⟨g, hread⟩ := @exists_readGroup
    "a:string(contains=x\"y)\x7d-\x7bb:string(contains=z\"w)".toList (by decide +kernel)
  refine ⟨_, g, ⟨"a", "string", _⟩, "contains=x\"y)\x7d-\x7bb:string(contains=z\"w".toList,
    "contains=x\"y)".toList, "-\x7bb:string(contains=z\"w".toList, by decide +kernel, hread,
    by rfl, rfl, by decide, fun hquotes ↦ ?_⟩
  obtain ⟨before, value, hvalue, hhead⟩ := hquotes.exists_value
  have hdrop : '=' :: "x\"y)\x7d-\x7bb:string(contains=z\"w".toList = '=' :: value :=
    hvalue.dropWhile_eq (by decide)
  rw [← (List.cons.inj hdrop).2] at hhead
  exact absurd hhead (by decide)

end Node

end UrlPattern
