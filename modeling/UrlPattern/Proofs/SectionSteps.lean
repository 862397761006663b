import UrlPattern.Prefilter
import UrlPattern.Proofs.ParsedTree
import UrlPattern.Proofs.WrittenTree

/-!
# Searching and reading keep in step

A section is gone through twice: first by the search for its end, character by character but for its
groups, and then by the reader of what stands inside, element by element. `Scan` and `Place` are the
states of the two, and their steps are those that `splitSection` and `readElements` take
(`splitSection_of_passes`, `readElements_of_reaches`).

Whatever the reader passes over are whole groups, whole sections and other characters, so the search
has passed over it with as many parentheses closed as opened. Hence the search stood at every place
that the reader comes to, and both find the same ends of the groups and sections that start there
(`Place.InStep`).

Specification: `SPEC_FULL.md` §4.4 (lines 57–58).
-/

namespace UrlPattern

/-- The error says that a group or a section is not closed. -/
def PatternError.IsUnclosed : PatternError → Prop
  | .parse e => e.kind = .unterminatedGroup ∨ e.kind = .unterminatedSection
  | _ => False

namespace Node

/-- No literal of a section closes a parenthesis. -/
theorem AreWellFormed.notMem_literalTexts {ns : List Node} (h : AreWellFormed true ns) :
    ∀ text ∈ literalTextsOf ns, ')' ∉ text.toList := by
  generalize hin : true = inSection at h
  induction h with
  | nil => exact nofun
  | literal hne htext hparen hnext hns ih =>
    exact List.forall_mem_cons.mpr ⟨hparen hin.symm, ih hin⟩
  | group htag hnext hns ih => exact ih hin
  | optional hchildren hns ihchildren ih =>
    exact List.forall_mem_append.mpr ⟨ihchildren rfl, ih hin⟩

/-! ### The search -/

/-- Where the search for the end of a section stands: at this offset, with so many inner parentheses
open, and before this text. -/
structure Scan where
  offset : Nat
  depth : Nat
  rest : List Char

namespace Scan

/-- The search goes on behind a group, a parenthesis or another character. -/
inductive Step : Scan → Scan → Prop where
  | group {offset depth : Nat} {cs content behind : List Char}
      (hsplit : splitGroup false cs = .ok (content, behind)) :
      Step ⟨offset, depth, '\x7b' :: cs⟩ ⟨offset + 1 + Text.byteLength content + 1, depth, behind⟩
  | opened {offset depth : Nat} {cs : List Char} :
      Step ⟨offset, depth, '(' :: cs⟩ ⟨offset + 1, depth + 1, cs⟩
  | closed {offset depth : Nat} {cs : List Char} :
      Step ⟨offset, depth + 1, ')' :: cs⟩ ⟨offset + 1, depth, cs⟩
  | char {offset depth : Nat} {c : Char} {cs : List Char} (hc : c ∉ ['\x7b', '(', ')']) :
      Step ⟨offset, depth, c :: cs⟩ ⟨offset + c.utf8Size, depth, cs⟩

/-- The search comes from one place to another, and so many inner parentheses stay open on the
way. -/
def Passes (least : Nat) : Scan → Scan → Prop :=
  Relation.ReflTransGen fun s t ↦ s.Step t ∧ least ≤ t.depth

variable {s t : Scan} {least : Nat}

/-- A step of the search is a step of splitting. -/
theorem splitSection_of_step (h : s.Step t) (opener : Nat) :
    ∃ front, s.rest = front ++ t.rest ∧
      splitSection opener s.offset s.depth s.rest
        = (splitSection opener t.offset t.depth t.rest).map fun r ↦ (front ++ r.1, r.2) := by
  cases h with
  | @group offset depth cs content behind hsplit =>
    refine ⟨'\x7b' :: content ++ ['\x7d'], by simp [eq_of_splitGroup hsplit], ?_⟩
    rw [splitSection, if_pos rfl, hsplit]
    simp
  | opened =>
    refine ⟨['('], rfl, ?_⟩
    rw [splitSection, if_neg (by decide), if_pos rfl]
    rfl
  | closed =>
    refine ⟨[')'], rfl, ?_⟩
    rw [splitSection, if_neg (by decide), if_neg (by decide), if_pos rfl,
      if_neg (Nat.succ_ne_zero _), Nat.add_sub_cancel]
    rfl
  | @char offset depth c cs hc =>
    simp only [List.mem_cons, List.not_mem_nil, or_false, not_or] at hc
    refine ⟨[c], rfl, ?_⟩
    rw [splitSection, if_neg hc.1, if_neg hc.2.1, if_neg hc.2.2]
    rfl

/-- Splitting goes on from every place that the search comes to. -/
theorem splitSection_of_passes (h : Passes least s t) (opener : Nat) :
    ∃ front, s.rest = front ++ t.rest ∧
      splitSection opener s.offset s.depth s.rest
        = (splitSection opener t.offset t.depth t.rest).map fun r ↦ (front ++ r.1, r.2) := by
  induction h using Relation.ReflTransGen.head_induction_on with
  | refl =>
    refine ⟨[], rfl, ?_⟩
    change _ = (splitSection opener t.offset t.depth t.rest).map fun r ↦ r
    cases splitSection opener t.offset t.depth t.rest <;> rfl
  | @head s u hstep _ ih =>
    obtain ⟨front, hrest, hsplit⟩ := splitSection_of_step hstep.1 opener
    obtain ⟨front', hrest', hsplit'⟩ := ih
    refine ⟨front ++ front', by rw [hrest, hrest', List.append_assoc], ?_⟩
    rw [hsplit, hsplit']
    cases splitSection opener t.offset t.depth t.rest with
    | error fault => rfl
    | ok r => exact congrArg (fun text ↦ Except.ok (text, r.2)) (List.append_assoc ..).symm

/-- The search passes over a text that closes so many parentheses, and leaves the others open. -/
theorem passes_of_inside {depth : Nat} {cs : List Char} (h : SectionInside depth cs)
    (least offset : Nat) (behind : List Char) :
    Passes least ⟨offset, depth + least, cs ++ behind⟩
      ⟨offset + Text.byteLength cs, least, behind⟩ := by
  induction h generalizing offset with
  | nil =>
    rw [Nat.zero_add]
    exact .refl
  | @group depth content cs hcontent h ih =>
    have hsplit : splitGroup false ((content ++ '\x7d' :: cs) ++ behind)
        = .ok (content, cs ++ behind) := by
      rw [List.append_assoc]
      exact splitGroup_of_inside hcontent _
    have hbytes : offset + 1 + Text.byteLength content + 1 + Text.byteLength cs
        = offset + Text.byteLength ('\x7b' :: (content ++ '\x7d' :: cs)) := by
      rw [Text.byteLength, Text.byteLength_append, Text.byteLength]
      have hopen : Char.utf8Size '\x7b' = 1 := rfl
      have hclose : Char.utf8Size '\x7d' = 1 := rfl
      omega
    rw [← hbytes]
    exact .head ⟨.group hsplit, Nat.le_add_left ..⟩ (ih _)
  | @opened depth cs h ih =>
    have hpass := ih (offset + 1)
    rw [Nat.add_right_comm depth, Nat.add_assoc offset] at hpass
    exact .head ⟨.opened, Nat.le_succ_of_le (Nat.le_add_left ..)⟩ hpass
  | @closed depth cs h ih =>
    have hpass := ih (offset + 1)
    rw [Nat.add_assoc offset] at hpass
    rw [Nat.add_right_comm]
    exact .head ⟨.closed, Nat.le_add_left ..⟩ hpass
  | @char depth c cs hc h ih =>
    have hpass := ih (offset + c.utf8Size)
    rw [Nat.add_assoc offset] at hpass
    exact .head ⟨.char hc, Nat.le_add_left ..⟩ hpass

end Scan

/-! ### The reader -/

/-- Where the reader of a part of a pattern stands: at this offset, before this text, and with this
number for the next group. -/
structure Place where
  offset : Nat
  rest : List Char
  next : Nat

namespace Place

/-- The reader makes a node of an element and goes on behind it. -/
inductive Step (pattern : String) (types : TypeRegistry) : Place → Node → Place → Prop where
  | group {offset next last : Nat} {cs content behind : List Char} {g : Group}
      (hsplit : splitGroup false cs = .ok (content, behind)) (hbehind : behind.head? ≠ some '?')
      (hread : readGroup pattern types offset content next = .ok g last) :
      Step pattern types ⟨offset, '\x7b' :: cs, next⟩ (.group g)
        ⟨offset + 1 + Text.byteLength content + 1, behind, last⟩
  | marked {offset next last : Nat} {cs content behind : List Char} {g : Group}
      (hsplit : splitGroup false cs = .ok (content, '?' :: behind))
      (hread : readGroup pattern types offset content next = .ok g last) :
      Step pattern types ⟨offset, '\x7b' :: cs, next⟩ (ofSection [.group g])
        ⟨offset + 1 + Text.byteLength content + 2, behind, last⟩
  | section {offset next last : Nat} {cs inside behind : List Char} {children : List Node}
      (hsplit : splitSection offset (offset + 1) 0 cs = .ok (inside, behind))
      (hread : readElements pattern types (offset + 1) inside next = .ok children last) :
      Step pattern types ⟨offset, '(' :: cs, next⟩ (ofSection children)
        ⟨offset + 1 + Text.byteLength inside + 1, behind, last⟩
  | text {offset next : Nat} {text behind : List Char} (hne : text ≠ [])
      (htext : ∀ c ∈ text, isLiteralChar c = true)
      (hbehind : ∀ c ∈ behind.head?, isLiteralChar c = false) :
      Step pattern types ⟨offset, text ++ behind, next⟩ (ofText (String.ofList text))
        ⟨offset + Text.byteLength text, behind, next⟩

/-- Why the reader does not go on: a group or section that starts here does not end, or what stands
in it cannot be read. -/
inductive Fails (pattern : String) (types : TypeRegistry) :
    Place → PatternError → (last : Nat) → Prop where
  | unclosedGroup {offset next : Nat} {cs : List Char} {kind : ParseErrorKind}
      (hsplit : splitGroup false cs = .error kind) :
      Fails pattern types ⟨offset, '\x7b' :: cs, next⟩ (.parse ⟨pattern, offset, kind⟩) next
  | group {offset next last : Nat} {cs content behind : List Char} {e : PatternError}
      (hsplit : splitGroup false cs = .ok (content, behind))
      (hread : readGroup pattern types offset content next = .error e last) :
      Fails pattern types ⟨offset, '\x7b' :: cs, next⟩ e last
  | unclosedSection {offset next : Nat} {cs : List Char} {fault : ParseFault}
      (hsplit : splitSection offset (offset + 1) 0 cs = .error fault) :
      Fails pattern types ⟨offset, '(' :: cs, next⟩ (.parse ⟨pattern, fault.offset, fault.kind⟩)
        next
  | section {offset next last : Nat} {cs inside behind : List Char} {e : PatternError}
      (hsplit : splitSection offset (offset + 1) 0 cs = .ok (inside, behind))
      (hread : readElements pattern types (offset + 1) inside next = .error e last) :
      Fails pattern types ⟨offset, '(' :: cs, next⟩ e last

/-- The reader comes from one place to another and makes nodes on the way. -/
inductive Reaches (pattern : String) (types : TypeRegistry) : Place → List Node → Place → Prop where
  | refl {p : Place} : Reaches pattern types p [] p
  | step {p q r : Place} {n : Node} {ns : List Node} (hstep : Step pattern types p n q)
      (h : Reaches pattern types q ns r) : Reaches pattern types p (n :: ns) r

variable {pattern : String} {types : TypeRegistry} {p q : Place} {n : Node} {ns : List Node}

/-- What follows a step that gave a result gets the result. -/
private theorem bind_of_ok {α β : Type} {x : Parse α} {f : α → Parse β} {next last : Nat} {a : α}
    (h : x next = .ok a last) : (x >>= f) next = f a last := by
  change EStateM.bind x f next = _
  rw [EStateM.bind, h]

private theorem map_congr {α β : Type} {x y : Parse α} (f : α → β) {next next' : Nat}
    (h : x next = y next') : (f <$> x) next = (f <$> y) next' := by
  change EStateM.map f x next = EStateM.map f y next'
  rw [EStateM.map, EStateM.map, h]

/-- A step of the reader is a step of reading the elements. -/
theorem readElements_of_step (h : Step pattern types p n q) :
    readElements pattern types p.offset p.rest p.next
      = ((n :: ·) <$> readElements pattern types q.offset q.rest) q.next := by
  cases h with
  | group hsplit hbehind hread =>
    rw [readElements_group _ _ _ hsplit hbehind, bind_of_ok hread]
    rfl
  | marked hsplit hread =>
    rw [readElements_marked _ _ _ hsplit, bind_of_ok hread]
    rfl
  | «section» hsplit hread =>
    rw [readElements_section _ _ _ hsplit, bind_of_ok hread]
    rfl
  | text hne htext hbehind =>
    rw [readElements_text _ _ _ hne htext hbehind]
    rfl

/-- Reading goes on from every place that the reader comes to. -/
theorem readElements_of_reaches (h : Reaches pattern types p ns q) :
    readElements pattern types p.offset p.rest p.next
      = ((ns ++ ·) <$> readElements pattern types q.offset q.rest) q.next := by
  induction h with
  | @refl p => exact (congrFun (id_map (readElements pattern types p.offset p.rest)) p.next).symm
  | @step p q r n ns hstep _ ih =>
    calc readElements pattern types p.offset p.rest p.next
        = ((n :: ·) <$> readElements pattern types q.offset q.rest) q.next :=
          readElements_of_step hstep
      _ = ((n :: ·) <$> (ns ++ ·) <$> readElements pattern types r.offset r.rest) r.next :=
          map_congr _ ih
      _ = ((n :: ns ++ ·) <$> readElements pattern types r.offset r.rest) r.next := by
          rw [Functor.map_map]
          rfl

/-- What the reader passes over in one step. Inside a section it leaves no parenthesis open. -/
theorem Step.exists_front (h : Step pattern types p n q) :
    ∃ front ≠ [], p.rest = front ++ q.rest ∧ q.offset = p.offset + Text.byteLength front ∧
      (SectionInside 0 p.rest → SectionInside 0 front ∧ SectionInside 0 q.rest ∧
        ∀ text ∈ n.literalTexts, ')' ∉ text.toList) := by
  have hbyte : Char.utf8Size '\x7b' = 1 ∧ Char.utf8Size '\x7d' = 1 ∧ Char.utf8Size '(' = 1 ∧
      Char.utf8Size ')' = 1 ∧ Char.utf8Size '?' = 1 := by decide
  have hnone : ∀ text ∈ ([] : List String), ')' ∉ text.toList := List.forall_mem_nil _
  cases h with
  | @group offset next last cs content behind g hsplit hbehind hread =>
    obtain ⟨hcontent, rfl⟩ := splitGroup_eq_ok_iff.mp hsplit
    refine ⟨'\x7b' :: (content ++ ['\x7d']), List.cons_ne_nil _ _, by simp, ?_,
      fun hinside ↦ ⟨?_, ?_, hnone⟩⟩
    · simp only [Text.byteLength, Text.byteLength_append, hbyte]
      omega
    · exact .group hcontent .nil
    · exact (SectionInside.group_iff hcontent).mp hinside
  | @marked offset next last cs content behind g hsplit hread =>
    obtain ⟨hcontent, rfl⟩ := splitGroup_eq_ok_iff.mp hsplit
    refine ⟨'\x7b' :: (content ++ ['\x7d', '?']), List.cons_ne_nil _ _, by simp, ?_,
      fun hinside ↦ ⟨?_, ?_, hnone⟩⟩
    · simp only [Text.byteLength, Text.byteLength_append, hbyte]
      omega
    · exact .group hcontent (.char (by decide) .nil)
    · exact (SectionInside.char_iff (by decide)).mp ((SectionInside.group_iff hcontent).mp hinside)
  | @«section» offset next last cs inside behind children hsplit hread =>
    obtain ⟨hchildren, rfl⟩ := splitSection_eq_ok_iff.mp hsplit
    refine ⟨'(' :: (inside ++ [')']), List.cons_ne_nil _ _, by simp, ?_,
      fun hinside ↦ ⟨?_, ?_, ?_⟩⟩
    · simp only [Text.byteLength, Text.byteLength_append, hbyte]
      omega
    · exact (SectionInside.section_iff hchildren).mpr .nil
    · exact (SectionInside.section_iff hchildren).mp hinside
    · have hmarked := (readsElements_of_readElements hread).markAllInSection
      exact (hmarked.areWellFormed fun _ ↦ hchildren).notMem_literalTexts
  | @text offset next text behind hne htext hbehind =>
    refine ⟨text, hne, rfl, rfl, fun hinside ↦ ?_⟩
    obtain ⟨hparen, hrest⟩ := (SectionInside.text_iff htext).mp hinside
    refine ⟨?_, hrest, ?_⟩
    · rw [← List.append_nil text]
      exact (SectionInside.text_iff htext).mpr ⟨hparen, .nil⟩
    · rintro text' hmem
      rw [List.mem_singleton.mp hmem, String.toList_ofList]
      exact hparen

/-- What the reader passes over on its way. Inside a section it leaves no parenthesis open. -/
theorem Reaches.exists_front (h : Reaches pattern types p ns q) :
    ∃ front, p.rest = front ++ q.rest ∧ q.offset = p.offset + Text.byteLength front ∧
      (SectionInside 0 p.rest → SectionInside 0 front ∧ SectionInside 0 q.rest ∧
        ∀ text ∈ literalTextsOf ns, ')' ∉ text.toList) := by
  induction h with
  | refl => exact ⟨[], rfl, rfl, fun hinside ↦ ⟨.nil, hinside, nofun⟩⟩
  | @step p q r n ns hstep _ ih =>
    obtain ⟨front, -, hrest, hoffset, hinside⟩ := hstep.exists_front
    obtain ⟨front', hrest', hoffset', hinside'⟩ := ih
    refine ⟨front ++ front', ?_, ?_, fun hp ↦ ?_⟩
    · rw [hrest, hrest', List.append_assoc]
    · rw [hoffset', hoffset, Text.byteLength_append, Nat.add_assoc]
    · obtain ⟨hfront, hq, htexts⟩ := hinside hp
      obtain ⟨hfront', hr, htexts'⟩ := hinside' hq
      refine ⟨?_, hr, List.forall_mem_append.mpr ⟨htexts, htexts'⟩⟩
      rw [← Nat.add_zero 0, hfront.append_iff]
      exact hfront'

/-- Every step takes up some of the text. -/
theorem Step.length_lt (h : Step pattern types p n q) : q.rest.length < p.rest.length := by
  obtain ⟨front, hne, hrest, -⟩ := h.exists_front
  have hpos := List.length_pos_iff.mpr hne
  rw [hrest, List.length_append]
  omega

/-- The reader makes a step, or fails, unless nothing is left. -/
theorem exists_step_or_fails (pattern : String) (types : TypeRegistry) (p : Place)
    (hne : p.rest ≠ []) :
    (∃ n q, Step pattern types p n q) ∨ ∃ e last, Fails pattern types p e last := by
  obtain ⟨offset, cs, next⟩ := p
  cases cs with
  | nil => exact absurd rfl hne
  | cons c rest =>
    by_cases hbrace : c = '\x7b'
    · subst hbrace
      cases hsplit : splitGroup false rest with
      | error kind => exact .inr ⟨_, _, .unclosedGroup hsplit⟩
      | ok parts =>
        obtain ⟨content, behind⟩ := parts
        cases hread : readGroup pattern types offset content next with
        | error e last => exact .inr ⟨e, last, .group hsplit hread⟩
        | ok g last =>
          left
          by_cases hmark : behind.head? = some '?'
          · obtain ⟨behind', rfl⟩ := List.head?_eq_some_iff.mp hmark
            exact ⟨_, _, .marked hsplit hread⟩
          · exact ⟨_, _, .group hsplit hmark hread⟩
    · by_cases hparen : c = '('
      · subst hparen
        cases hsplit : splitSection offset (offset + 1) 0 rest with
        | error fault => exact .inr ⟨_, _, .unclosedSection hsplit⟩
        | ok parts =>
          obtain ⟨inside, behind⟩ := parts
          cases hread : readElements pattern types (offset + 1) inside next with
          | error e last => exact .inr ⟨e, last, .section hsplit hread⟩
          | ok children last => exact .inl ⟨_, _, .section hsplit hread⟩
      · left
        obtain ⟨hrest, htext, hbehind⟩ := Text.takeWhile_eq_and_dropWhile_eq_iff.mp
          (⟨rfl, rfl⟩ : rest.takeWhile isLiteralChar = _ ∧ rest.dropWhile isLiteralChar = _)
        have hstep := @Step.text pattern types offset next (c :: rest.takeWhile isLiteralChar)
          (rest.dropWhile isLiteralChar) (List.cons_ne_nil _ _)
          (List.forall_mem_cons.mpr ⟨by simp [isLiteralChar, hbrace, hparen], htext⟩) hbehind
        rw [List.cons_append, ← hrest] at hstep
        exact ⟨_, _, hstep⟩

/-- A reader comes to the end of its text, or to a place where it fails. -/
theorem exists_reaches_end (pattern : String) (types : TypeRegistry) (p : Place) :
    ∃ ns q, Reaches pattern types p ns q ∧
      (q.rest = [] ∨ ∃ e last, Fails pattern types q e last) := by
  by_cases hne : p.rest = []
  · exact ⟨[], p, .refl, .inl hne⟩
  · obtain ⟨n, q, hstep⟩ | hfails := exists_step_or_fails pattern types p hne
    · have := hstep.length_lt
      obtain ⟨ns, r, hreach, hend⟩ := exists_reaches_end pattern types q
      exact ⟨n :: ns, r, .step hstep hreach, hend⟩
    · exact ⟨[], p, .refl, .inr hfails⟩
termination_by p.rest.length

/-- Where the reader fails, reading fails. -/
theorem readElements_of_fails {e : PatternError} {last : Nat} (h : Fails pattern types p e last) :
    readElements pattern types p.offset p.rest p.next = .error e last := by
  have hbind : ∀ {α β : Type} {x : Parse α} {f : α → Parse β} {next last : Nat} {e : PatternError},
      x next = .error e last → (x >>= f) next = .error e last := by
    intro α β x f next last e hx
    change EStateM.bind x f next = _
    rw [EStateM.bind, hx]
  cases h with
  | unclosedGroup hsplit =>
    rw [readElements, if_pos rfl, hsplit]
    rfl
  | @group offset next last cs content behind e hsplit hread =>
    by_cases hmark : behind.head? = some '?'
    · obtain ⟨behind', rfl⟩ := List.head?_eq_some_iff.mp hmark
      rw [readElements_marked _ _ _ hsplit]
      exact hbind hread
    · rw [readElements_group _ _ _ hsplit hmark]
      exact hbind hread
  | unclosedSection hsplit =>
    rw [readElements, if_neg (by decide), if_pos rfl, hsplit]
    rfl
  | «section» hsplit hread =>
    rw [readElements_section _ _ _ hsplit]
    exact hbind hread

/-- A reader that comes to the end has made its nodes on the way. -/
theorem readElements_of_reaches_end (h : Reaches pattern types p ns q) (hend : q.rest = []) :
    readElements pattern types p.offset p.rest p.next = .ok ns q.next := by
  rw [readElements_of_reaches h, hend, readElements]
  exact congrArg (fun ns ↦ EStateM.Result.ok ns q.next) (List.append_nil ns)

/-- A reader that comes to a place where it fails has failed. -/
theorem readElements_of_reaches_fails {e : PatternError} {last : Nat}
    (h : Reaches pattern types p ns q) (hfails : Fails pattern types q e last) :
    readElements pattern types p.offset p.rest p.next = .error e last := by
  rw [readElements_of_reaches h]
  change EStateM.map _ _ _ = _
  rw [EStateM.map, readElements_of_fails hfails]

/-- Reading that fails has come to a place where the reader fails. -/
theorem exists_fails_of_readElements {e : PatternError} {last : Nat}
    (h : readElements pattern types p.offset p.rest p.next = .error e last) :
    ∃ ns q, Reaches pattern types p ns q ∧ Fails pattern types q e last := by
  obtain ⟨ns, q, hreach, hnil | ⟨e', last', hfails⟩⟩ := exists_reaches_end pattern types p
  · rw [readElements_of_reaches_end hreach hnil] at h
    cases h
  · rw [readElements_of_reaches_fails hreach hfails] at h
    cases h
    exact ⟨ns, q, hreach, hfails⟩

end Place

/-! ### Both -/

/-- A group that cannot be read is closed all the same. -/
theorem not_isUnclosed_of_readGroup {pattern : String} {types : TypeRegistry}
    {offset next last : Nat} {content : List Char} {e : PatternError}
    (h : readGroup pattern types offset content next = .error e last) : ¬ e.IsUnclosed := by
  cases groupError_of_readGroup h with
  | header | entry | openQuote => rintro (hkind | hkind) <;> cases hkind
  | type | constraint => exact id

variable {pattern : String} {types : TypeRegistry}

/-- Reading what stands inside a section does not fail because something is not closed. -/
theorem not_isUnclosed_of_readElements {offset next last : Nat} {cs : List Char} {e : PatternError}
    (hinside : SectionInside 0 cs) (h : readElements pattern types offset cs next = .error e last) :
    ¬ e.IsUnclosed := by
  obtain ⟨ns, q, hreach, hfails⟩ :=
    Place.exists_fails_of_readElements (p := ⟨offset, cs, next⟩) h
  obtain ⟨front, hrest, -, hq⟩ := hreach.exists_front
  obtain ⟨-, hq, -⟩ := hq hinside
  cases hfails with
  | unclosedGroup hsplit =>
    obtain ⟨content, behind, hcontent, rfl, -⟩ := hq.exists_group
    rw [splitGroup_of_inside hcontent] at hsplit
    cases hsplit
  | group hsplit hread => exact not_isUnclosed_of_readGroup hread
  | unclosedSection hsplit =>
    obtain ⟨inside, behind, hinside', rfl, -⟩ := hq.exists_section
    rw [splitSection_of_inside hinside'] at hsplit
    cases hsplit
  | «section» hsplit hread =>
    obtain ⟨hinside', rfl⟩ := splitSection_eq_ok_iff.mp hsplit
    have hlength := congrArg List.length hrest
    simp only [List.length_append, List.length_cons] at hlength
    exact not_isUnclosed_of_readElements hinside' hread
termination_by cs.length

/-- The reader of a section stands where the search for the end of the section stood, and what
follows the section is this. Both find the same ends, and no parenthesis is taken for a literal. -/
structure Place.InStep (start : Scan) (after : List Char) (p : Place) : Prop where
  passes : Scan.Passes 0 start ⟨p.offset, 0, p.rest ++ ')' :: after⟩
  /-- A group ends for the reader where it ends for the search. -/
  groupEnd : ∀ cs, p.rest = '\x7b' :: cs → ∃ content behind,
    splitGroup false cs = .ok (content, behind) ∧
      splitGroup false (cs ++ ')' :: after) = .ok (content, behind ++ ')' :: after)
  /-- A section ends for the reader at the parenthesis where the search has closed again what was
  opened since. -/
  sectionEnd : ∀ cs, p.rest = '(' :: cs → ∃ inside behind,
    splitSection p.offset (p.offset + 1) 0 cs = .ok (inside, behind) ∧
      Scan.Passes 1 ⟨p.offset + 1, 1, cs ++ ')' :: after⟩
        ⟨p.offset + 1 + Text.byteLength inside, 1, ')' :: (behind ++ ')' :: after)⟩
  literal : ')' ∉ p.rest.takeWhile isLiteralChar

/-- Before a text that may stand inside a section, the reader is in step with the search. -/
theorem Place.inStep_of_inside {start : Scan} {after : List Char} {p : Place}
    (hpasses : Scan.Passes 0 start ⟨p.offset, 0, p.rest ++ ')' :: after⟩)
    (hinside : SectionInside 0 p.rest) : p.InStep start after := by
  refine ⟨hpasses, fun cs hcs ↦ ?_, fun cs hcs ↦ ?_, ?_⟩
  · rw [hcs] at hinside
    obtain ⟨content, behind, hcontent, rfl, -⟩ := hinside.exists_group
    refine ⟨content, behind, splitGroup_of_inside hcontent _, ?_⟩
    rw [List.append_assoc]
    exact splitGroup_of_inside hcontent _
  · rw [hcs] at hinside
    obtain ⟨inside, behind, hclosed, rfl, -⟩ := hinside.exists_section
    refine ⟨inside, behind, splitSection_of_inside hclosed _ _ _, ?_⟩
    have hpasses' := Scan.passes_of_inside hclosed 1 (p.offset + 1)
      (')' :: (behind ++ ')' :: after))
    rw [List.append_assoc]
    exact hpasses'
  · have hparts := Text.takeWhile_eq_and_dropWhile_eq_iff.mp
      (⟨rfl, rfl⟩ : p.rest.takeWhile isLiteralChar = _ ∧ p.rest.dropWhile isLiteralChar = _)
    rw [hparts.1] at hinside
    exact ((SectionInside.text_iff hparts.2.1).mp hinside).1

/-- Wherever the search for the end of a section succeeds, the reader of what stands inside keeps in
step with it. It takes up the whole section, unless it fails for a reason other than an element that
is not closed. A section inside is searched by the reader itself, so all this holds of it in turn.
`SPEC_FULL.md:58`. -/
theorem reads_inStep {opener : Nat} {rest inside after : List Char}
    (h : splitSection opener (opener + 1) 0 rest = .ok (inside, after)) (pattern : String)
    (types : TypeRegistry) (next : Nat) :
    (∀ ns p, Place.Reaches pattern types ⟨opener + 1, inside, next⟩ ns p →
        p.InStep ⟨opener + 1, 0, rest⟩ after ∧ ∀ text ∈ literalTextsOf ns, ')' ∉ text.toList) ∧
      ∃ ns p, Place.Reaches pattern types ⟨opener + 1, inside, next⟩ ns p ∧
        (p.offset = opener + 1 + Text.byteLength inside ∧ p.rest = [] ∧
            readElements pattern types (opener + 1) inside next = .ok ns p.next ∨
          ∃ e last, readElements pattern types (opener + 1) inside next = .error e last ∧
            Place.Fails pattern types p e last ∧ ¬ e.IsUnclosed) := by
  obtain ⟨hinside, rfl⟩ := splitSection_eq_ok_iff.mp h
  constructor
  · intro ns p hreach
    obtain ⟨front, hrest, hoffset, hp⟩ := hreach.exists_front
    dsimp only at hrest hoffset
    obtain ⟨hfront, hp, htexts⟩ := hp hinside
    refine ⟨Place.inStep_of_inside ?_ hp, htexts⟩
    have hpasses := Scan.passes_of_inside hfront 0 (opener + 1) (p.rest ++ ')' :: after)
    rw [hoffset, hrest, List.append_assoc]
    exact hpasses
  · obtain ⟨ns, p, hreach, hend⟩ :=
      Place.exists_reaches_end pattern types ⟨opener + 1, inside, next⟩
    refine ⟨ns, p, hreach, ?_⟩
    obtain hnil | ⟨e, last, hfails⟩ := hend
    · left
      obtain ⟨front, hrest, hoffset, -⟩ := hreach.exists_front
      rw [hnil, List.append_nil] at hrest
      dsimp only at hrest hoffset
      rw [← hrest] at hoffset
      exact ⟨hoffset, hnil, Place.readElements_of_reaches_end hreach hnil⟩
    · right
      have hread := Place.readElements_of_reaches_fails hreach hfails
      exact ⟨e, last, hread, hfails, not_isUnclosed_of_readElements hinside hread⟩

/-- A parenthesis and a brace in quotes, a brace in a literal, and a section in the section. -/
theorem reads_inStep_quoted :
    ∃ inside after, splitSection 0 1 0
        "x\x7bn:string(startsWith=\")\x7d\")\x7d?(a\x7db)c)d".toList = .ok (inside, after) ∧
      after = ['d'] ∧ ∃ ns p, Place.Reaches "" .builtin ⟨1, inside, 1⟩ ns p ∧ p.rest = [] ∧
        p.InStep ⟨1, 0, "x\x7bn:string(startsWith=\")\x7d\")\x7d?(a\x7db)c)d".toList⟩ after := by
  have htest : (splitSection 0 1 0
      "x\x7bn:string(startsWith=\")\x7d\")\x7d?(a\x7db)c)d".toList).toOption.any
      (fun r ↦ r.2 == ['d'] && match readElements "" .builtin 1 r.1 1 with
        | .ok _ _ => true
        | .error _ _ => false) = true := by
    decide +kernel
  obtain ⟨⟨inside, after⟩, hsplit, htest⟩ := exists_ok_of_any htest
  obtain ⟨hafter, hread⟩ := Bool.and_eq_true_iff.mp htest
  obtain ⟨hsteps, ns, p, hreach, hend⟩ := reads_inStep hsplit "" .builtin 1
  refine ⟨inside, after, hsplit, eq_of_beq hafter, ns, p, hreach, ?_, (hsteps ns p hreach).1⟩
  obtain ⟨-, hnil, -⟩ | ⟨e, last, herror, -⟩ := hend
  · exact hnil
  · dsimp only at hread
    rw [herror] at hread
    cases hread

end Node

end UrlPattern
