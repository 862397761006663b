import UrlPattern.Prefilter
import UrlPattern.Proofs.CombinedSets
import UrlPattern.Proofs.WholeMatch

/-!
# Classes of characters

The expression of the non-empty texts over some characters, as a pre-filter has it, lists the
characters in brackets, those with a meaning of their own behind a backslash. It reads back as a
repetition of one set (`Prefilter.read?_classPattern`), unless there is no character at all: then it
is malformed. What is read matches the non-empty texts over the characters and nothing else
(`Regex.isMatch_classItems_iff`).

Specification: `SPEC_FULL.md` §10.8 (lines 245–264).
-/

namespace UrlPattern

namespace Regex

/-! ### What the brackets read as -/

/-- The item that an escaped character is read as. -/
def classItem (c : Char) : SetItem := if metaChars.contains c then .escaped c else .plain c

/-- What some characters in brackets are read as. -/
def classTerm (chars : List Char) : SetTerm :=
  .bracketed false (.unite (chars.reverse.map fun c ↦ ⟨.single c, 0⟩))

theorem toSet_classItem (c : Char) : (classItem c).toSet = .single c := by
  rw [classItem]
  split <;> rfl

/-- A union of ascending terms holds the characters of each. -/
theorem contains_unite {terms : List SetTerm} (h : ∀ t ∈ terms, t.chars.IsAscending) (c : Char) :
    (SetTerm.unite terms).chars.contains c = terms.any (·.chars.contains c) := by
  match terms with
  | [] => rfl
  | [t] => exact (Bool.or_false _).symm
  | t :: u :: terms =>
    have hsets : ∀ s ∈ (t :: u :: terms).map SetTerm.chars, s.IsAscending :=
      List.forall_mem_map.mpr h
    have hunion := (CharSet.foldl_union CharSet.isAscending_empty hsets).2 c
    rw [List.foldl_map, List.any_map, CharSet.contains_empty, Bool.false_or] at hunion
    exact hunion

theorem contains_classTerm_iff {chars : List Char} {c : Char} :
    (classTerm chars).chars.contains c = true ↔ c ∈ chars := by
  have hterms : ∀ t ∈ chars.reverse.map fun c ↦ (⟨.single c, 0⟩ : SetTerm),
      t.chars.IsAscending := List.forall_mem_map.mpr fun d _ ↦ CharSet.isAscending_single d
  have hunite : (classTerm chars).chars.contains c = _ := contains_unite hterms c
  rw [hunite, List.any_map, List.any_eq_true]
  simp only [Function.comp_apply, CharSet.contains_single_iff, List.mem_reverse, exists_eq_right']

/-! ### Reading the brackets -/

namespace SetReader

/-- In the first state, what an escaped character starts with is read as in the second state, where
an item may start. -/
def Awaits (s s' : SetReader) : Prop :=
  ∀ c, c = '\\' ∨ c ∉ metaChars → s.step c = s'.stepBody c

/-- What an escaped character starts with is none of the other characters with a meaning of their
own. -/
theorem ne_of_mem_metaChars {c d : Char} (hc : c = '\\' ∨ c ∉ metaChars) (hd : d ∈ metaChars)
    (hne : d ≠ '\\') : c ≠ d := by
  rintro rfl
  exact hc.elim hne (absurd hd)

theorem awaits_init : init.Awaits init := by
  intro c hc
  have hfirst : c ≠ '^' := ne_of_mem_metaChars hc (by decide) (by decide)
  have hhyphen : c ≠ '-' := ne_of_mem_metaChars hc (by decide) (by decide)
  have hclose : c ≠ ']' := ne_of_mem_metaChars hc (by decide) (by decide)
  have hstep : init.step c = init.stepOpened c := rfl
  rw [hstep, stepOpened, if_neg hfirst, stepLead, if_neg hhyphen, if_neg fun h ↦ hclose h.1]

/-- Behind an item, what begins neither a range nor an operator is read where an item may start. -/
theorem step_item (s : SetReader) (i : SetItem) {c : Char} (hhyphen : c ≠ '-') (hboth : c ≠ '&')
    (hone : c ≠ '~') : step { s with mode := .item i } c = (s.add i.toSet).stepBody c := by
  have hoperator : SetOperator.ofChar? c = none := by
    simp only [SetOperator.ofChar?]
  have hnone : operator? i c = none := by
    unfold operator?
    split
    · rw [hoperator, ite_self]
    · rfl
  have hstep : step { s with mode := .item i } c = stepItem { s with mode := .item i } i c := rfl
  rw [hstep, stepItem, hnone, if_neg hhyphen]
  rfl

theorem awaits_item (s : SetReader) (i : SetItem) :
    Awaits { s with mode := .item i } (s.add i.toSet) := fun _ hc ↦
  step_item s i (ne_of_mem_metaChars hc (by decide) (by decide))
    (ne_of_mem_metaChars hc (by decide) (by decide))
    (ne_of_mem_metaChars hc (by decide) (by decide))

/-- Characters that are added stand in front of the items there, the last one first. -/
theorem current_foldl_add (cs : List Char) (s : SetReader) :
    (cs.foldl (fun s c ↦ s.add (.single c)) s).current
      = { s.current with
          items := (cs.reverse.map fun c ↦ ⟨.single c, 0⟩) ++ s.current.items } := by
  induction cs generalizing s with
  | nil => rfl
  | cons c cs ih =>
    rw [List.foldl_cons, ih, List.reverse_cons, List.map_append, List.append_assoc]
    rfl

end SetReader

open Reader SetReader

theorem stepOnce_set (b : Reader) (s : SetReader) (c : Char) :
    Reader.stepOnce { b with mode := .set s } c
      = (s.step c).map (Reader.behindSet { b with mode := .set s }) := rfl

/-- A character in brackets is read as an item. -/
theorem foldlM_item {s s' : SetReader} (h : s.Awaits s') (b : Reader) (c : Char) :
    (escapeChar c).foldlM Reader.step { b with mode := .set s }
      = some { b with mode := .set { s' with mode := .item (classItem c) } } := by
  by_cases hmeta : metaChars.contains c
  · have hopen := stepOnce_set b s '\\'
    rw [h '\\' (.inl rfl)] at hopen
    have hletter := stepOnce_set b { s' with mode := .escape .letter } c
    have hitem : SetReader.step { s' with mode := .escape .letter } c
        = (EscapeMode.step .letter c).bind (behindEscape { s' with mode := .escape .letter }) := rfl
    rw [hitem, step_letter (List.contains_iff_mem.mp hmeta)] at hletter
    rw [escapeChar, classItem, if_pos hmeta, if_pos hmeta, List.foldlM_cons,
      step_of_stepOnce hopen, Option.bind_eq_bind, Option.bind_some, List.foldlM_cons,
      step_of_stepOnce hletter]
    rfl
  · have hnot : c ∉ metaChars := fun hin ↦ hmeta (List.contains_iff_mem.mpr hin)
    have hne : ∀ d ∈ metaChars, c ≠ d := by
      rintro d hd rfl
      exact hnot hd
    have hplain : s'.stepBody c = s'.go (.item (.plain c)) := by
      have hclose := hne ']' (by decide)
      have hnested := hne '[' (by decide)
      have hescape := hne '\\' (by decide)
      simp only [stepBody]
    have honce := stepOnce_set b s c
    rw [h c (.inr hnot), hplain] at honce
    rw [escapeChar, classItem, if_neg hmeta, if_neg hmeta, List.foldlM_cons,
      step_of_stepOnce honce]
    rfl

/-- The characters in brackets are added to what stands there, up to the closing bracket. This is
said from behind an item on, since in front of the first one a closing bracket would not close. -/
theorem foldlM_closed (b : Reader) (cs : List Char) (s : SetReader) (i : SetItem)
    (hs : s.outer = []) :
    (cs.flatMap escapeChar ++ [']']).foldlM Reader.step
        { b with mode := .set { s with mode := .item i } }
      = let term := (cs.foldl (fun s c ↦ s.add (.single c)) (s.add i.toSet)).current.close
        some (b.push (.set term.chars term.nesting)) := by
  induction cs generalizing s i with
  | nil =>
    have hclose :
        SetReader.step { s with mode := .item i } ']' = some (s.add i.toSet).closeBracket :=
      step_item s i (by decide) (by decide) (by decide)
    have houter : (s.add i.toSet).outer = [] := hs
    have honce := stepOnce_set b { s with mode := .item i } ']'
    rw [hclose, closeBracket, houter] at honce
    rw [List.flatMap_nil, List.nil_append, List.foldlM_cons, step_of_stepOnce honce]
    rfl
  | cons c cs ih =>
    have hnext := ih (s.add i.toSet) (classItem c) hs
    rw [toSet_classItem] at hnext
    rw [List.flatMap_cons, List.append_assoc, List.foldlM_append, foldlM_item (awaits_item s i),
      Option.bind_eq_bind, Option.bind_some]
    exact hnext

/-- Characters in brackets, those with a meaning of their own escaped, read as one set. -/
theorem reads_class {chars : List Char} (hne : chars ≠ []) :
    Reads ('[' :: (chars.flatMap escapeChar ++ [']'])) [] True
      [.set (classTerm chars).chars (classTerm chars).nesting] := by
  obtain ⟨c, cs, rfl⟩ := List.exists_cons_of_ne_nil hne
  have hterm : ((c :: cs).foldl (fun s c ↦ s.add (.single c)) SetReader.init).current.close
      = classTerm (c :: cs) := by
    rw [current_foldl_add, SetReader.init, Bracket.init, List.append_nil]
    rfl
  refine ⟨nofun, fun _ b hb _ ↦ ?_, fun h ↦ absurd trivial h⟩
  refine ⟨b.push (.set (classTerm (c :: cs)).chars (classTerm (c :: cs)).nesting), ?_,
    .inl rfl, rfl⟩
  have hopen : b.step '[' = some { b with mode := .set SetReader.init } :=
    step_between hb (by decide)
  have hrest := foldlM_closed b cs SetReader.init (classItem c) rfl
  rw [toSet_classItem] at hrest
  rw [← hterm, List.foldlM_cons, hopen, Option.bind_eq_bind, Option.bind_some, List.flatMap_cons,
    List.append_assoc, List.foldlM_append, foldlM_item awaits_init, Option.bind_eq_bind,
    Option.bind_some]
  exact hrest

/-! ### What the brackets match -/

/-- The parts of the expression of non-empty texts over some characters. -/
def classItems (chars : List Char) : List Regex :=
  [.rep (.set (classTerm chars).chars (classTerm chars).nesting) 1 none true]

theorem isMatch_classItems_iff {chars : List Char} {s : String} :
    (tied (classItems chars)).isMatch s = true ↔ s ≠ "" ∧ ∀ c ∈ s.toList, c ∈ chars := by
  let term := classTerm chars
  have hlengths : runLengths term.chars.contains 1 none
      = prefixLengths fun t ↦ 1 ≤ t.length ∧ t.all term.chars.contains = true := by
    funext t
    refine eq_prefixLengths (runLengths_descending ..) fun k ↦ ?_
    rw [mem_runLengths]
    constructor
    · rintro ⟨hleast, -, hlen, hall⟩
      rw [List.length_take_of_le hlen]
      exact ⟨hlen, hleast, hall⟩
    · rintro ⟨hlen, hleast, hall⟩
      rw [List.length_take_of_le hlen] at hleast
      exact ⟨hleast, nofun, hlen, hall⟩
  have hset : single? (.set term.chars term.nesting) = some term.chars.contains := rfl
  have hfinds := (finds_runs s.toList hset 1 none).single
  rw [hlengths] at hfinds
  have hmatch : (tied (classItems chars)).isMatch s = true ↔ _ := isMatch_tied_iff hfinds
  rw [hmatch, List.all_eq_true, Nat.one_le_iff_ne_zero, Ne, List.length_eq_zero_iff,
    String.toList_eq_nil_iff]
  exact and_congr_right fun _ ↦ forall₂_congr fun c _ ↦ contains_classTerm_iff

end Regex

namespace Prefilter

open Regex

theorem toList_classPattern (chars : List Char) :
    (classPattern chars).toList
      = '^' :: (('[' :: (chars.flatMap escapeChar ++ [']'])) ++ ['+'] ++ ['$']) := by
  have hescape : ∀ c, (escape (String.singleton c)).toList = escapeChar c := fun c ↦ by
    simp [escape]
  have hopen : "^[".toList = ['^', '['] := rfl
  have hclose : "]+$".toList = [']', '+', '$'] := rfl
  rw [classPattern, String.toList_append, String.toList_append, String.toList_join,
    List.flatMap_map, hopen, hclose]
  simp only [hescape, List.cons_append, List.nil_append, List.append_assoc]

/-- The expression of the non-empty texts over some characters reads as a repetition of one set, if
there is any character. -/
theorem read?_classPattern {chars : List Char} (hne : chars ≠ []) :
    read? (classPattern chars) = some (tied (classItems chars)) :=
  (reads_class hne).plus.read?_tied trivial (toList_classPattern chars)

/-- Without characters, the bracket behind the opening one stands for itself, and none closes. -/
example : read? (classPattern []) = none := by decide +kernel

end Prefilter

end UrlPattern
