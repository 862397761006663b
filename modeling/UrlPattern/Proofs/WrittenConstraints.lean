import Mathlib.Data.List.DropRight
import UrlPattern.Proofs.Resolved
import UrlPattern.Tree.ConstraintList

/-!
# How constraints are written

`Spells cs raw` says that a text is a way to write a list of constraints: the entries in any order,
each with its value quoted or plain, and blanks wherever they do not count. It says so without
reading: a plain value is a text without commas that does not start with a quote, and a quoted one
hides quotes and backslashes behind backslashes.

Reading gives exactly the constraints that a text spells (`read_eq_ok_iff`), so a text spells the
constraints of one group only.

Specification: `SPEC_FULL.md` §4.4 (lines 57–58) and §6 (lines 78–82).
-/

namespace UrlPattern

namespace Text

/-- A text falls apart where a property of its characters first fails. -/
theorem takeWhile_eq_and_dropWhile_eq_iff {p : Char → Bool} {cs front back : List Char} :
    cs.takeWhile p = front ∧ cs.dropWhile p = back ↔
      cs = front ++ back ∧ (∀ c ∈ front, p c = true) ∧ ∀ c ∈ back.head?, p c = false := by
  constructor
  · rintro ⟨rfl, rfl⟩
    refine ⟨List.takeWhile_append_dropWhile.symm, fun c hc ↦ List.mem_takeWhile_imp hc,
      fun c hc ↦ ?_⟩
    have hhead := List.head?_dropWhile_not p cs
    rwa [Option.mem_def.mp hc] at hhead
  · rintro ⟨rfl, hfront, hback⟩
    rw [List.takeWhile_append_of_pos hfront, List.dropWhile_append_of_pos hfront]
    cases back with
    | nil => exact ⟨List.append_nil front, rfl⟩
    | cons c back =>
      have hc : ¬ p c = true := by simp [hback c rfl]
      rw [List.takeWhile_cons_of_neg hc, List.dropWhile_cons_of_neg hc]
      exact ⟨List.append_nil front, rfl⟩

variable {cs : List Char}

theorem trimStart_eq_nil_iff : trimStart cs = [] ↔ ∀ c ∈ cs, isBlank c = true := by
  rw [trimStart, List.dropWhile_eq_nil_iff]

/-- Leading blanks do not count. -/
theorem trimStart_append {blank : List Char} (h : ∀ c ∈ blank, isBlank c = true) :
    trimStart (blank ++ cs) = trimStart cs := by
  rw [trimStart, trimStart, List.dropWhile_append, List.dropWhile_eq_nil_iff.mpr h]
  rfl

/-- The blanks that trimming takes away stand at the start. -/
theorem exists_blank_append_trimStart (cs : List Char) :
    ∃ blank, (∀ c ∈ blank, isBlank c = true) ∧ cs = blank ++ trimStart cs :=
  ⟨cs.takeWhile isBlank, fun _ hc ↦ List.mem_takeWhile_imp hc,
    List.takeWhile_append_dropWhile.symm⟩

theorem trimEnd_eq_nil_iff : trimEnd cs = [] ↔ ∀ c ∈ cs, isBlank c = true := by
  rw [trimEnd, List.reverse_eq_nil_iff, trimStart_eq_nil_iff]
  simp only [List.mem_reverse]

/-- Trimming leaves nothing of blanks alone. -/
theorem trim_eq_nil_iff : trim cs = [] ↔ ∀ c ∈ cs, isBlank c = true := by
  rw [trim, trimEnd_eq_nil_iff]
  obtain ⟨blank, hblank, hcs⟩ := exists_blank_append_trimStart cs
  constructor
  · intro h
    rw [hcs]
    exact fun c hc ↦ (List.mem_append.mp hc).elim (hblank c) (h c)
  · exact fun h c hc ↦ h c ((List.dropWhile_suffix isBlank).mem hc)

/-- A text that neither starts nor ends with a blank stays as it is. -/
theorem trim_eq_self (h : ∀ c ∈ cs, isBlank c = false) : trim cs = cs := by
  have hkeep : ∀ l : List Char, (∀ c ∈ l, isBlank c = false) → trimStart l = l := by
    intro l hl
    cases l with
    | nil => rfl
    | cons c l => exact List.dropWhile_cons_of_neg (by simp [hl c List.mem_cons_self])
  rw [trim, trimEnd, hkeep cs h, hkeep _ (by simpa using h), List.reverse_reverse]

end Text

namespace ConstraintList

open Text

/-- How a value may be written between quotes: a character stands for itself behind a backslash,
and so does any but a quote and a backslash by itself. -/
inductive Quoted : (text value : List Char) → Prop where
  | nil : Quoted [] []
  | plain {c : Char} {text value : List Char} (hc : c ∉ ['"', '\\']) (h : Quoted text value) :
      Quoted (c :: text) (c :: value)
  | escaped {c : Char} {text value : List Char} (h : Quoted text value) :
      Quoted ('\\' :: c :: text) (c :: value)

/-- How a value may be written behind its equals sign. -/
inductive SpellsValue : (text : List Char) → (value : String) → Prop where
  | quoted {before text after value : List Char} (hbefore : ∀ c ∈ before, isBlank c = true)
      (htext : Quoted text value) (hafter : ∀ c ∈ after, isBlank c = true) :
      SpellsValue (before ++ '"' :: (text ++ '"' :: after)) (String.ofList value)
  | plain {text : List Char} (hcomma : ',' ∉ text) (hquote : (trimStart text).head? ≠ some '"') :
      SpellsValue text (String.ofList (trim text))

/-- How an entry may be written. -/
inductive SpellsEntry : (text : List Char) → (entry : String × String) → Prop where
  | mk {front back : List Char} {value : String} (hfront : ∀ c ∈ front, c ∉ ['=', ','])
      (hkey : trim front ≠ []) (hback : SpellsValue back value) :
      SpellsEntry (front ++ '=' :: back) (String.ofList (trim front), value)

/-- How entries may be written one after the other. -/
inductive SpellsEntries : (text : List Char) → (entries : List (String × String)) → Prop where
  | single {text : List Char} {entry : String × String} (h : SpellsEntry text entry) :
      SpellsEntries text [entry]
  | cons {text rest : List Char} {entry : String × String} {entries : List (String × String)}
      (h : SpellsEntry text entry) (hrest : SpellsEntries rest entries) :
      SpellsEntries (text ++ ',' :: rest) (entry :: entries)

/-- How the constraints of a group may be written: none by blanks, and others by their entries in
any order. -/
def Spells (text : List Char) (raw : RawConstraints) : Prop :=
  ((∀ c ∈ text, isBlank c = true) ∧ raw = ∅) ∨
    ∃ entries, SpellsEntries text entries ∧ entries.Perm raw.toList

/-- What follows an entry is nothing or starts with a comma. -/
def EndsEntry (after : List Char) : Prop := ∀ c ∈ after.head?, c = ','

theorem endsEntry_nil : EndsEntry [] := fun _ hc ↦ by cases hc

theorem endsEntry_comma (more : List Char) : EndsEntry (',' :: more) := fun _ hc ↦ by
  cases hc
  rfl

theorem EndsEntry.eq_nil_or {after : List Char} (h : EndsEntry after) :
    after = [] ∨ ∃ more, after = ',' :: more := by
  cases after with
  | nil => exact .inl rfl
  | cons c more =>
    obtain rfl := h c rfl
    exact .inr ⟨more, rfl⟩

/-- An entry goes up to the first comma, where no quotes hide one. -/
theorem takeWhile_ne_comma_iff {cs text after : List Char} :
    cs.takeWhile (· ≠ ',') = text ∧ cs.dropWhile (· ≠ ',') = after ↔
      cs = text ++ after ∧ ',' ∉ text ∧ EndsEntry after := by
  rw [takeWhile_eq_and_dropWhile_eq_iff]
  have hfront : (∀ c ∈ text, decide (c ≠ ',') = true) ↔ ',' ∉ text := by
    simp only [decide_eq_true_eq]
    exact ⟨fun h hmem ↦ h _ hmem rfl, fun h c hc heq ↦ h (heq ▸ hc)⟩
  have hback : (∀ c ∈ after.head?, decide (c ≠ ',') = false) ↔ EndsEntry after := by
    simp [EndsEntry]
  rw [hfront, hback]

/-! ### Values -/

/-- A quoted value ends at the first quote that no backslash hides. -/
theorem readQuoted_eq_some_iff {cs value after : List Char} :
    readQuoted cs = some (value, after) ↔
      ∃ text, Quoted text value ∧ cs = text ++ '"' :: after := by
  constructor
  · intro h
    fun_induction readQuoted cs generalizing value after with
    | case1 => cases h
    | case2 => cases h
    | case3 c cs ih =>
      obtain ⟨⟨value', after'⟩, hr, heq⟩ := Option.map_eq_some_iff.mp h
      cases heq
      obtain ⟨text, htext, rfl⟩ := ih hr
      exact ⟨'\\' :: c :: text, .escaped htext, rfl⟩
    | case4 cs =>
      cases h
      exact ⟨[], .nil, rfl⟩
    | case5 c cs hlast hescape hquote ih =>
      obtain ⟨⟨value', after'⟩, hr, heq⟩ := Option.map_eq_some_iff.mp h
      cases heq
      obtain ⟨text, htext, rfl⟩ := ih hr
      have hback : c ≠ '\\' := by
        rintro rfl
        cases text <;> exact hescape _ _ rfl rfl
      exact ⟨c :: text, .plain (by simp [hback, show c ≠ '"' from hquote]) htext, rfl⟩
  · rintro ⟨text, htext, rfl⟩
    induction htext with
    | nil => rfl
    | @plain c text value hc _ ih =>
      simp only [List.mem_cons, List.not_mem_nil, or_false, not_or] at hc
      rw [List.cons_append, readQuoted.eq_5 _ _ (fun h _ ↦ hc.2 h) (fun _ _ h _ ↦ hc.2 h) hc.1,
        ih]
      rfl
    | escaped _ ih =>
      rw [List.cons_append, List.cons_append, readQuoted, ih]
      rfl

/-- Dropping blanks first does not change where a character that is none comes first. -/
theorem takeWhile_trimStart (cs : List Char) :
    ∃ blank, (∀ c ∈ blank, isBlank c = true) ∧
      cs.takeWhile (· ≠ ',') = blank ++ (trimStart cs).takeWhile (· ≠ ',') ∧
      cs.dropWhile (· ≠ ',') = (trimStart cs).dropWhile (· ≠ ',') := by
  obtain ⟨blank, hblank, hcs⟩ := exists_blank_append_trimStart cs
  have hne : ∀ c ∈ blank, decide (c ≠ ',') = true := fun c hc ↦ decide_eq_true (by
    rintro rfl
    exact absurd (hblank _ hc) (by decide))
  refine ⟨blank, hblank, ?_, ?_⟩
  · conv_lhs => rw [hcs, List.takeWhile_append_of_pos hne]
  · conv_lhs => rw [hcs, List.dropWhile_append_of_pos hne]

/-- What is not written in quotes is a value up to the next comma. -/
theorem readValue_plain {cs : List Char} (key : String)
    (h : (trimStart cs).head? ≠ some '"') :
    readValue key cs =
      .ok (String.ofList (trim (cs.takeWhile (· ≠ ','))), cs.dropWhile (· ≠ ',')) := by
  obtain ⟨blank, hblank, htake, hdrop⟩ := takeWhile_trimStart cs
  rw [readValue]
  split
  · next body hbody =>
    rw [hbody] at h
    exact absurd rfl h
  · rw [htake, hdrop, trim, trim, trimStart_append hblank]

/-- A value in quotes is read up to what follows the blanks behind it. -/
theorem readValue_quoted {before text blank after value : List Char} (key : String)
    (hbefore : ∀ c ∈ before, isBlank c = true) (htext : Quoted text value)
    (hblank : ∀ c ∈ blank, isBlank c = true) (hafter : EndsEntry after) :
    readValue key (before ++ '"' :: (text ++ '"' :: blank) ++ after)
      = .ok (String.ofList value, after) := by
  have hread : readQuoted (text ++ '"' :: (blank ++ after)) = some (value, blank ++ after) :=
    readQuoted_eq_some_iff.mpr ⟨text, htext, rfl⟩
  have hbody : trimStart (before ++ '"' :: (text ++ '"' :: blank) ++ after)
      = '"' :: (text ++ '"' :: (blank ++ after)) := by
    rw [List.append_assoc, trimStart_append hbefore]
    simp [trimStart, show isBlank '"' = false by decide]
  rw [readValue, hbody]
  simp only [hread, trimStart_append hblank]
  obtain rfl | ⟨more, rfl⟩ := hafter.eq_nil_or
  · rfl
  · simp [trimStart, show isBlank ',' = false by decide]

/-- Whether a value is written in quotes is seen from its own text. -/
theorem head?_trimStart_append {text after : List Char} (h : EndsEntry after) :
    (trimStart (text ++ after)).head? = some '"' ↔ (trimStart text).head? = some '"' := by
  by_cases htext : ∀ c ∈ text, isBlank c = true
  · rw [trimStart_append htext, trimStart_eq_nil_iff.mpr htext]
    obtain rfl | ⟨more, rfl⟩ := h.eq_nil_or
    · rfl
    · exact iff_of_false (by simp [trimStart, show isBlank ',' = false by decide]) nofun
  · have hne : trimStart text ≠ [] := fun h ↦ htext (trimStart_eq_nil_iff.mp h)
    have hsplit : trimStart (text ++ after) = trimStart text ++ after := by
      rw [trimStart, List.dropWhile_append, ← trimStart, if_neg (mt List.isEmpty_iff.mp hne)]
    rw [hsplit, List.head?_append_of_ne_nil _ hne]

/-- A value is read as far as its entry goes. -/
theorem readValue_eq_ok_iff {key value : String} {cs after : List Char} :
    readValue key cs = .ok (value, after) ↔
      ∃ text, SpellsValue text value ∧ EndsEntry after ∧ cs = text ++ after := by
  constructor
  · intro h
    by_cases hquote : (trimStart cs).head? = some '"'
    · obtain ⟨body, hbody⟩ := List.head?_eq_some_iff.mp hquote
      obtain ⟨before, hbefore, hcs⟩ := exists_blank_append_trimStart cs
      rw [readValue, hbody] at h
      simp only at h
      split at h
      · cases h
      · next value' rest hquoted =>
        obtain ⟨text, htext, rfl⟩ := readQuoted_eq_some_iff.mp hquoted
        obtain ⟨blank, hblank, hrest⟩ := exists_blank_append_trimStart rest
        have hvalue := SpellsValue.quoted hbefore htext hblank
        split at h
        · next hnil =>
          cases h
          exact ⟨_, hvalue, endsEntry_nil, by rw [hcs, hbody, hrest, hnil]; simp⟩
        · next more hmore =>
          cases h
          exact ⟨_, hvalue, endsEntry_comma more,
            by rw [hcs, hbody, hrest, hmore]; simp⟩
        · cases h
    · rw [readValue_plain key hquote] at h
      cases h
      obtain ⟨hcs, hcomma, hends⟩ := takeWhile_ne_comma_iff.mp ⟨rfl, rfl⟩
      refine ⟨_, .plain hcomma ?_, hends, hcs⟩
      rwa [ne_eq, ← head?_trimStart_append hends, ← hcs]
  · rintro ⟨text, htext, hafter, rfl⟩
    cases htext with
    | quoted hbefore htext hblank => exact readValue_quoted key hbefore htext hblank hafter
    | plain hcomma hquote =>
      obtain ⟨htake, hdrop⟩ := takeWhile_ne_comma_iff.mpr ⟨rfl, hcomma, hafter⟩
      rw [readValue_plain key (by rwa [ne_eq, head?_trimStart_append hafter]), htake, hdrop]

/-! ### Entries -/

/-- An entry is read as far as it goes. -/
theorem readEntry_eq_ok_iff {cs after : List Char} {key value : String} :
    readEntry cs = .ok (key, value, after) ↔
      ∃ text, SpellsEntry text (key, value) ∧ EndsEntry after ∧ cs = text ++ after := by
  constructor
  · intro h
    rw [readEntry] at h
    split at h
    · next body hbody =>
      obtain ⟨hcs, hfront, -⟩ := takeWhile_eq_and_dropWhile_eq_iff.mp ⟨rfl, hbody⟩
      split at h
      · cases h
      · next hkey =>
        cases hread : readValue (String.ofList (trim (cs.takeWhile fun c ↦ c ≠ '=' && c ≠ ',')))
            body with
        | error e =>
          rw [hread] at h
          cases h
        | ok r =>
          rw [hread] at h
          cases h
          obtain ⟨text, htext, hafter, hsplit⟩ := readValue_eq_ok_iff.mp hread
          refine ⟨_, .mk (fun c hc ↦ ?_) (fun hnil ↦ hkey ?_) htext, hafter, ?_⟩
          · simpa using hfront c hc
          · rw [hnil]
          · rw [List.append_assoc, List.cons_append, ← hsplit]
            exact hcs
    · cases h
  · rintro ⟨text, htext, hafter, rfl⟩
    generalize hentry : (key, value) = entry at htext
    cases htext with
    | @mk front back value hfront hkey hback =>
      cases hentry
      have hsplit : (front ++ '=' :: back ++ after).takeWhile (fun c ↦ c ≠ '=' && c ≠ ',')
            = front ∧
          (front ++ '=' :: back ++ after).dropWhile (fun c ↦ c ≠ '=' && c ≠ ',')
            = '=' :: (back ++ after) := by
        refine takeWhile_eq_and_dropWhile_eq_iff.mpr ⟨by simp, fun c hc ↦ ?_, fun c hc ↦ ?_⟩
        · simpa using hfront c hc
        · cases hc
          rfl
      have hread : readValue (String.ofList (trim front)) (back ++ after) = .ok (value, after) :=
        readValue_eq_ok_iff.mpr ⟨back, hback, hafter, rfl⟩
      have hne : String.ofList (trim front) ≠ "" := fun h ↦ hkey (String.ofList_inj.mp h)
      simp only [readEntry, hsplit.1, hsplit.2, if_neg hne, hread]
      rfl

/-- Among the entries of a table no key stands twice. -/
theorem contains_eq_false_of_perm {before raw : RawConstraints} {entry : String × String}
    {others : List (String × String)} (h : (entry :: others).Perm raw.toList)
    (hsub : before.toList ⊆ others) : before.contains entry.1 = false := by
  have hkeys : (entry :: others).Pairwise fun a b ↦ a.1 ≠ b.1 :=
    (h.pairwise_iff fun hne ↦ Ne.symm hne).mpr
      (raw.ascending.imp fun hbefore ↦ KeyOrder.ne_of_before hbefore)
  refine Bool.eq_false_iff.mpr fun hcontains ↦ ?_
  obtain ⟨e, he, heq⟩ := List.mem_map.mp ((before.contains_iff_mem_keys entry.1).mp hcontains)
  exact (List.pairwise_cons.mp hkeys).1 e (hsub he) heq.symm

/-- A new entry joins those before. -/
theorem addEntry_eq_ok_iff {before added : RawConstraints} {key value : String} :
    addEntry before key value = .ok added ↔
      ((key, value) :: before.toList).Perm added.toList := by
  rw [addEntry]
  by_cases hkey : before.contains key = true
  · rw [if_pos hkey]
    refine iff_of_false nofun fun hperm ↦ ?_
    exact absurd hkey (by simp [contains_eq_false_of_perm hperm (List.Subset.refl _)])
  · rw [if_neg hkey]
    have hperm := Table.perm_insert (Bool.eq_false_iff.mpr hkey) value
    constructor
    · rintro h
      cases h
      exact hperm.symm
    · exact fun h ↦ congrArg _ (Table.eq_of_perm (hperm.trans h))

theorem readEntries_of_last {before : RawConstraints} {cs : List Char} {key value : String}
    (h : readEntry cs = .ok (key, value, [])) :
    readEntries before cs = addEntry before key value := by
  rw [readEntries]
  split
  · next hread =>
    rw [h] at hread
    cases hread
  · next hread =>
    rw [h] at hread
    cases hread
  · next hread =>
    rw [h] at hread
    cases hread
    rfl

theorem readEntries_of_more {before : RawConstraints} {cs more : List Char} {key value : String}
    (h : readEntry cs = .ok (key, value, ',' :: more)) :
    readEntries before cs = addEntry before key value >>= fun added ↦ readEntries added more := by
  rw [readEntries]
  split
  · next hread =>
    rw [h] at hread
    cases hread
  · next hread =>
    rw [h] at hread
    cases hread
    rfl
  · next hafter hread =>
    rw [h] at hread
    cases hread
    exact absurd rfl (hafter more)

/-- What is read from a text has the entries that it spells besides those before. -/
theorem readEntries_eq_ok_iff {before raw : RawConstraints} {cs : List Char} :
    readEntries before cs = .ok raw ↔
      ∃ entries, SpellsEntries cs entries ∧ (entries ++ before.toList).Perm raw.toList := by
  constructor
  · intro h
    fun_induction readEntries before cs with
    | case1 => cases h
    | case2 before cs key value more hread ih =>
      obtain ⟨added, hadded, h⟩ := bind_eq_ok.mp h
      obtain ⟨text, htext, -, rfl⟩ := readEntry_eq_ok_iff.mp hread
      obtain ⟨entries, hentries, hperm⟩ := ih _ h
      refine ⟨_, .cons htext hentries, .trans ?_ hperm⟩
      exact List.perm_middle.symm.trans ((addEntry_eq_ok_iff.mp hadded).append_left entries)
    | case3 before cs key value after hafter hread =>
      obtain ⟨text, htext, hends, rfl⟩ := readEntry_eq_ok_iff.mp hread
      obtain rfl | ⟨more, rfl⟩ := hends.eq_nil_or
      · rw [List.append_nil]
        exact ⟨_, .single htext, addEntry_eq_ok_iff.mp h⟩
      · exact absurd rfl (hafter more)
  · rintro ⟨entries, hentries, hperm⟩
    induction hentries generalizing before with
    | @single text entry htext =>
      have hread : readEntry text = .ok (entry.1, entry.2, []) :=
        readEntry_eq_ok_iff.mpr ⟨text, htext, endsEntry_nil, (List.append_nil text).symm⟩
      rw [readEntries_of_last hread]
      exact addEntry_eq_ok_iff.mpr hperm
    | @cons text rest entry entries htext hrest ih =>
      have hread : readEntry (text ++ ',' :: rest) = .ok (entry.1, entry.2, ',' :: rest) :=
        readEntry_eq_ok_iff.mpr ⟨text, htext, endsEntry_comma rest, rfl⟩
      have hnew : before.contains entry.1 = false :=
        contains_eq_false_of_perm hperm (List.subset_append_right _ _)
      have hadd : addEntry before entry.1 entry.2 = .ok (before.insert entry.1 entry.2) :=
        if_neg (by simp [hnew])
      rw [readEntries_of_more hread]
      refine bind_eq_ok.mpr ⟨_, hadd, ih (.trans ?_ hperm)⟩
      exact ((Table.perm_insert hnew entry.2).append_left entries).trans List.perm_middle

/-- A text that spells entries is not blank. -/
theorem SpellsEntries.not_blank {text : List Char} {entries : List (String × String)}
    (h : SpellsEntries text entries) : ¬ ∀ c ∈ text, isBlank c = true := by
  intro hblank
  have hentry : ∃ text', (∀ c ∈ text', c ∈ text) ∧ ∃ entry, SpellsEntry text' entry := by
    cases h with
    | single h => exact ⟨_, fun _ ↦ id, _, h⟩
    | cons h _ => exact ⟨_, fun _ hc ↦ List.mem_append_left _ hc, _, h⟩
  obtain ⟨text', hsub, entry, hentry⟩ := hentry
  cases hentry with
  | mk hfront hkey hback =>
    exact absurd (hblank '=' (hsub '=' (by simp))) (by decide)

/-- What is read from a text are the constraints that it spells. -/
theorem read_eq_ok_iff {cs : List Char} {raw : RawConstraints} :
    read cs = .ok raw ↔ Spells cs raw := by
  rw [read, Spells]
  by_cases hblank : ∀ c ∈ cs, isBlank c = true
  · rw [if_pos (trim_eq_nil_iff.mpr hblank)]
    constructor
    · intro h
      cases h
      exact .inl ⟨hblank, rfl⟩
    · rintro (⟨-, rfl⟩ | ⟨entries, hentries, -⟩)
      · rfl
      · exact absurd hblank hentries.not_blank
  · rw [if_neg (mt trim_eq_nil_iff.mp hblank), readEntries_eq_ok_iff]
    have hempty : (∅ : RawConstraints).toList = [] := rfl
    simp only [hempty, List.append_nil]
    exact ⟨.inr, fun h ↦ h.resolve_left fun h ↦ hblank h.1⟩

end ConstraintList

end UrlPattern
