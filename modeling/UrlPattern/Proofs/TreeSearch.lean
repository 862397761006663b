import Mathlib.Data.List.Nodup
import Mathlib.Data.List.Pairwise
import UrlPattern.Proofs.Division

/-!
# Searching for trees

The expression of a tree finds the divisions of the input along the tree, the preferred ones first,
and its captures are the texts that the first division of the whole input gives to the groups.

Specification: `SPEC_FULL.md` §4.5 (lines 60–61).
-/

namespace UrlPattern

open Regex (Cursor Finds endsAll ends spans prefixLengths)

/-! ### The expression of a tree -/

/-- Parts in a row that are tied to both ends of the input. -/
def Regex.tied (items : List Regex) : Regex :=
  Reader.sequence (.start :: (items ++ [.finish])).reverse

/-- The expression of a group: a capture of its text. -/
def Group.item (g : Group) : Regex :=
  .group (some g.captureName) (Regex.Reader.sequence g.textItems.reverse)

namespace Node

mutual

/-- The parts of the expression of a tree. -/
def items : Node → List Regex
  | literal text _ => text.toList.map .char
  | group g => [g.item]
  | sequence children _ => itemsAll children
  | optional children _ =>
    [.rep (.group none (Regex.Reader.sequence (itemsAll children).reverse)) 0 (some 1) true]

/-- The parts of the expressions of several trees. -/
def itemsAll : List Node → List Regex
  | [] => []
  | n :: ns => n.items ++ itemsAll ns

end

/-- The parts of the expression of a whole pattern. -/
def wholeItems (n : Node) : List Regex := .start :: (n.items ++ [.finish])

end Node

/-! ### Cursors along a division -/

/-- The cursor behind a piece. A piece of a group is captured. -/
def Piece.walk (c : Cursor) : Piece → Cursor
  | literal text => c.skip text.toList.length
  | group g t =>
    { c.skip t.length with captures := ⟨g.captureName, c.rest, t.length⟩ :: c.captures }
  | present => c
  | absent _ => c

namespace Division

/-- The cursor behind all pieces of a division. -/
def walk (c : Cursor) (d : Division) : Cursor := d.foldl Piece.walk c

theorem walk_append (c : Cursor) (d e : Division) : walk c (d ++ e) = walk (walk c d) e :=
  List.foldl_append

/-- Behind a division, its text lies behind the cursor. -/
theorem rest_walk (c : Cursor) (d : Division) : (walk c d).rest = c.rest.drop d.text.length := by
  induction d generalizing c with
  | nil => rfl
  | cons p d ih =>
    have hp : (p.walk c).rest = c.rest.drop p.text.length := by
      cases p with
      | literal text => exact Cursor.rest_skip _ c
      | group g t => exact Cursor.rest_skip _ c
      | present => rfl
      | absent children => rfl
    rw [text_cons, List.length_append, ← List.drop_drop, ← hp]
    exact ih (p.walk c)

end Division

/-! ### Literals and groups -/

namespace Regex

theorem finds_chars (input s : List Char) :
    Finds input (endsAll (s.map .char))
      fun c ↦ if s.isPrefixOf c.rest then [c.skip s.length] else [] := by
  induction s with
  | nil => exact (finds_nil input).congr fun c _ ↦ rfl
  | cons a s ih =>
    have hstep := (finds_step input (a == ·)).single (r := char a)
    refine (hstep.append ih).congr fun c _ ↦ ?_
    cases hrest : c.rest with
    | nil => rfl
    | cons b rest =>
      by_cases hab : a = b
      · have hskip : c.skip (s.length + 1) = (c.skip 1).skip s.length := by
          rw [← Cursor.skip_add, Nat.add_comm]
        have hrest' : (c.skip 1).rest = rest := by rw [Cursor.rest_skip, hrest, List.drop_one]; rfl
        simp only [List.head?_cons, Option.any_some, hab, beq_self_eq_true, if_true,
          List.flatMap_singleton, hrest', List.isPrefixOf, Bool.true_and, List.length_cons, hskip]
      · simp [hab, List.isPrefixOf]

/-- Skipping does not look at the groups around. -/
theorem skip_openGroup (k : Nat) (c : Cursor) :
    c.openGroup.skip k = { c.skip k with opened := c.toPlace :: c.opened } := by
  have key : ∀ (k : Nat) (c : Cursor) (opened : List Place),
      Cursor.skip k { c with opened } = { c.skip k with opened } := by
    intro k
    induction k with
    | zero => exact fun c opened ↦ rfl
    | succ k ih =>
      intro c opened
      cases hrest : c.rest with
      | nil =>
        rw [Cursor.skip_succ_of_nil (c := { c with opened }) hrest, Cursor.skip_succ_of_nil hrest]
      | cons a rest =>
        rw [Cursor.skip_succ (c := { c with opened }) hrest, Cursor.skip_succ hrest]
        exact ih (c.advance a rest) opened
  exact key k c _

/-- Leaving a group behind so many characters captures them. -/
theorem closeGroup_skip {k : Nat} {c : Cursor} (hk : k ≤ c.rest.length) (name : String) :
    (c.openGroup.skip k).closeGroup name
      = { c.skip k with captures := ⟨name, c.rest, k⟩ :: c.captures } := by
  have hframe := Cursor.skip_frame k c
  rw [skip_openGroup, Cursor.closeGroup]
  simp only [Cursor.pos_skip hk, hframe.2, ← hframe.1]
  rw [Nat.add_sub_cancel_left]

end Regex

theorem Group.finds_item (input : List Char) {g : Group} (hg : g.IsBuiltin) :
    Finds input (ends g.item) fun c ↦
      ((Node.group g).divisions c.rest).map (Division.walk c) := by
  have htext : Finds input (ends (Regex.Reader.sequence g.textItems.reverse))
      (spans (prefixLengths g.Spells)) := by
    rw [funext (Regex.ends_sequence g.textItems)]
    exact g.finds_textItems input hg
  refine (Regex.finds_group htext g.captureName).congr fun c _ ↦ ?_
  simp only [spans, Node.divisions, List.map_map]
  refine List.map_congr_left fun k hk ↦ ?_
  have hlen : k ≤ c.rest.length := (Regex.mem_prefixLengths.mp hk).1
  simp only [Function.comp_def, Division.walk, List.foldl_cons, List.foldl_nil, Piece.walk,
    List.length_take_of_le hlen]
  exact Regex.closeGroup_skip hlen _

/-! ### Trees -/

namespace Node

/-- All groups of a tree are of types that every registry may start with. -/
def IsBuiltin (n : Node) : Prop := ∀ g ∈ n.groups, g.IsBuiltin

mutual

/-- The expression of a tree finds the divisions along the tree. -/
theorem finds_items (input : List Char) (n : Node) (h : ∀ g ∈ n.groups, g.IsBuiltin) :
    Finds input (endsAll n.items) fun c ↦ (n.divisions c.rest).map (Division.walk c) := by
  match n with
  | literal text tag =>
    refine (Regex.finds_chars input text.toList).congr fun c _ ↦ ?_
    simp only [divisions]
    split <;> rfl
  | group g => exact (g.finds_item input (h g (List.mem_singleton_self g))).single
  | sequence children tag => exact finds_itemsAll input children h
  | optional children tag =>
    have hall : Finds input (ends (Regex.Reader.sequence (itemsAll children).reverse))
        fun c ↦ (divisionsAll children c.rest).map (Division.walk c) := by
      rw [funext (Regex.ends_sequence (itemsAll children))]
      exact finds_itemsAll input children h
    refine (Regex.finds_optional hall).single.congr fun c _ ↦ ?_
    simp only [divisions, List.map_append, List.map_map]
    rfl

theorem finds_itemsAll (input : List Char) (ns : List Node) (h : ∀ g ∈ groupsOf ns, g.IsBuiltin) :
    Finds input (endsAll (itemsAll ns)) fun c ↦
      (divisionsAll ns c.rest).map (Division.walk c) := by
  match ns with
  | [] => exact Regex.finds_nil input
  | n :: ns =>
    have hfirst := finds_items input n fun g hg ↦ h g (List.mem_append_left _ hg)
    have hothers := finds_itemsAll input ns fun g hg ↦ h g (List.mem_append_right _ hg)
    refine (hfirst.append hothers).congr fun c _ ↦ ?_
    simp only [divisionsAll, List.flatMap_map, List.map_flatMap, List.map_map, Division.rest_walk,
      Function.comp_def, Division.walk_append]

end

/-- The cursor at the start of an input. -/
def startCursor (input : List Char) : Cursor := ⟨⟨none, input, 0⟩, [], []⟩

/-- Of all places only the first is at the start. -/
private theorem filter_starts (input : List Char) :
    (Cursor.starts none 0 input).filter (·.pos == 0) = [startCursor input] := by
  have later : ∀ (s : List Char) (before : Option Char) (pos : Nat),
      (Cursor.starts before (pos + 1) s).filter (·.pos == 0) = [] := by
    intro s
    induction s with
    | nil => exact fun before pos ↦ rfl
    | cons a s ih =>
      intro before pos
      rw [Cursor.starts, List.filter_cons_of_neg (by simp), ih]
  cases input with
  | nil => rfl
  | cons a s =>
    rw [Cursor.starts, List.filter_cons_of_pos rfl, later]
    rfl

end Node

/-- Parts that are tied to both ends of the input capture what the first way through them to the end
captures. -/
theorem Regex.captures?_tied {items : List Regex} {F : Cursor → List Cursor} {input : String}
    (h : Finds input.toList (endsAll items) F) :
    (tied items).captures? input
      = ((F (Node.startCursor input.toList)).filter (·.rest.isEmpty)).head?.map (·.captures) := by
  have hfind := h.append (finds_finish input.toList).single
  have hstart : (Node.startCursor input.toList).At input.toList := ⟨Nat.zero_le _, rfl⟩
  have hends : endsAll (.start :: (items ++ [.finish])) (Cursor.starts none 0 input.toList)
      = endsAll (items ++ [.finish]) [Node.startCursor input.toList] := by
    rw [← Node.filter_starts]
    rfl
  rw [captures?, tied, ends_sequence, hends, ← head?_firsts, hfind.firsts_single hstart,
    head?_firsts, flatMap_keep (fun c : Cursor ↦ c.rest.isEmpty)]

namespace Node

/-- The expression of a whole pattern captures what the first division of the input captures. -/
theorem captures?_whole (n : Node) (h : n.IsBuiltin) (input : String) :
    (Regex.Reader.sequence n.wholeItems.reverse).captures? input
      = ((n.divisions input.toList).filter fun d ↦ d.text = input.toList).head?.map
          fun d ↦ (d.walk (startCursor input.toList)).captures := by
  have hlast : ((n.divisions input.toList).map (Division.walk (startCursor input.toList))).filter
        (fun c ↦ c.rest.isEmpty)
      = ((n.divisions input.toList).filter fun d ↦ d.text = input.toList).map
          (Division.walk (startCursor input.toList)) := by
    rw [List.filter_map]
    refine congrArg _ (List.filter_congr fun d hd ↦ ?_)
    obtain ⟨-, t, ht⟩ := (mem_divisions n _ d).mp hd
    have hrest : (d.walk (startCursor input.toList)).rest = t := by
      rw [Division.rest_walk, startCursor, ← ht, List.drop_left]
    rw [Function.comp_apply, hrest, ← ht]
    cases t <;> simp
  have hwhole := Regex.captures?_tied (finds_items input.toList n h)
  simp only [Regex.tied, startCursor] at hlast hwhole ⊢
  rw [wholeItems, hwhole, hlast, List.head?_map, Option.map_map]
  rfl

end Node

/-! ### What groups capture -/

/-- The groups that a piece settles: the group that it is the text of, or the groups of a section
that is left out. -/
def Piece.groups : Piece → List Group
  | literal _ => []
  | group g _ => [g]
  | present => []
  | absent children => Node.groupsOf children

namespace Node

mutual

/-- A division settles every group of the tree once, from left to right. -/
theorem Divides.flatMap_groups {n : Node} {d : Division} (h : n.Divides d) :
    d.flatMap Piece.groups = n.groups := by
  match n with
  | literal text tag =>
    simp only [Divides] at h
    rw [h]
    rfl
  | group g =>
    simp only [Divides] at h
    obtain ⟨t, -, rfl⟩ := h
    rfl
  | sequence children tag =>
    simp only [Divides] at h
    exact DividesAll.flatMap_groups h
  | optional children tag =>
    simp only [Divides] at h
    rcases h with ⟨e, he, rfl⟩ | rfl
    · exact (List.flatMap_cons ..).trans (DividesAll.flatMap_groups he)
    · exact List.append_nil _

theorem DividesAll.flatMap_groups {ns : List Node} {d : Division} (h : DividesAll ns d) :
    d.flatMap Piece.groups = groupsOf ns := by
  match ns with
  | [] =>
    simp only [DividesAll] at h
    rw [h]
    rfl
  | n :: ns =>
    simp only [DividesAll] at h
    obtain ⟨d, e, hd, he, rfl⟩ := h
    rw [List.flatMap_append, Divides.flatMap_groups hd, DividesAll.flatMap_groups he]
    rfl

end

end Node

namespace Division

/-- The groups that have a text, with their texts. -/
def captured (d : Division) : List (Group × List Char) :=
  d.filterMap fun
    | .group g t => some (g, t)
    | _ => none

theorem mem_captured {d : Division} {g : Group} {t : List Char} :
    (g, t) ∈ d.captured ↔ .group g t ∈ d := by
  rw [captured, List.mem_filterMap]
  constructor
  · rintro ⟨p, hp, h⟩
    split at h
    · next g' t' =>
      obtain ⟨rfl, rfl⟩ := Prod.mk.inj (Option.some.inj h)
      exact hp
    · simp at h
  · exact fun h ↦ ⟨_, h, rfl⟩

/-- Groups with texts are among the groups that the pieces settle. -/
theorem captured_sublist (d : Division) :
    (d.captured.map Prod.fst).Sublist (d.flatMap Piece.groups) := by
  induction d with
  | nil => exact List.Sublist.slnil
  | cons p d ih =>
    rw [List.flatMap_cons]
    cases p with
    | literal text => exact ih
    | group g t => exact ih.cons_cons g
    | present => exact ih
    | absent children => exact ih.trans (List.sublist_append_right _ _)

/-- The captures along a division are the texts of its groups, the last first. -/
theorem captures_walk {c : Cursor} {d : Division} (h : d.text <+: c.rest) :
    (d.walk c).captures.map (fun k ↦ (k.name, k.text))
      = (d.captured.map fun e ↦ (e.1.captureName, String.ofList e.2)).reverse
        ++ c.captures.map fun k ↦ (k.name, k.text) := by
  induction d generalizing c with
  | nil => rfl
  | cons p d ih =>
    have hwalk : walk c (p :: d) = walk (p.walk c) d := rfl
    obtain ⟨t, ht⟩ := h
    rw [text_cons, List.append_assoc] at ht
    have hrest : (p.walk c).rest = text d ++ t := by
      have := rest_walk c [p]
      rw [text_cons, text_nil, List.append_nil, ← ht, List.drop_left] at this
      exact this
    rw [hwalk, ih (c := p.walk c) (hrest ▸ List.prefix_append _ _)]
    have hskip : ∀ k, (c.skip k).captures = c.captures := fun k ↦ (Cursor.skip_frame k c).2
    cases p with
    | literal s => rw [Piece.walk, hskip]; rfl
    | group g u =>
      have htake : c.rest.take u.length = u := by
        rw [← ht]
        exact List.take_left
      simp only [Piece.walk, captured, List.filterMap_cons, List.map_cons, List.reverse_cons,
        List.append_assoc, List.singleton_append, Regex.Capture.text, htake]
    | present => rfl
    | absent children => rfl

end Division

/-- Looking up a key that stands only once finds its entry. -/
private theorem map_find?_eq_some_iff {l : List (String × String)} (h : (l.map Prod.fst).Nodup)
    (key value : String) :
    (l.find? fun e ↦ e.1 = key).map Prod.snd = some value ↔ (key, value) ∈ l := by
  induction l with
  | nil => simp
  | cons e l ih =>
    rw [List.map_cons, List.nodup_cons] at h
    rw [List.find?_cons, List.mem_cons]
    by_cases he : e.1 = key
    · have hnot : (key, value) ∉ l := fun hin ↦ h.1 (he ▸ List.mem_map_of_mem hin)
      simp only [he, decide_true, Option.map_some, Option.some.injEq, hnot, or_false]
      constructor
      · rintro rfl
        rw [← he]
      · intro heq
        rw [← heq]
    · have hne : (key, value) ≠ e := fun heq ↦ he (by rw [← heq])
      simp only [he, decide_false, ih h.2, hne, false_or]

section

variable {n : Node} {c : Cursor} {d : Division}

private theorem captures_walk_start (hc : c.captures = []) (h : d.text <+: c.rest) (name : String) :
    Regex.capturedText? (d.walk c).captures name
      = ((d.captured.map fun e ↦ (e.1.captureName, String.ofList e.2)).reverse.find?
          fun e ↦ e.1 = name).map Prod.snd := by
  have hwalk := Division.captures_walk h
  rw [hc, List.map_nil, List.append_nil] at hwalk
  rw [← hwalk, List.find?_map, Option.map_map]
  rfl

/-- A group captures a text exactly if that is its piece of the division. -/
theorem capturedText?_eq_some_iff (hd : n.Divides d)
    (hnames : (n.groups.map Group.captureName).Nodup) (hc : c.captures = [])
    (h : d.text <+: c.rest) {g : Group} (hg : g ∈ n.groups) (t : List Char) :
    Regex.capturedText? (d.walk c).captures g.captureName = some (String.ofList t)
      ↔ .group g t ∈ d := by
  have hsub : (d.captured.map Prod.fst).Sublist n.groups := hd.flatMap_groups ▸ d.captured_sublist
  have hnodup : ((d.captured.map fun e ↦ (e.1.captureName, String.ofList e.2)).reverse.map
      Prod.fst).Nodup := by
    rw [List.map_reverse, List.nodup_reverse, List.map_map]
    have := (hsub.map Group.captureName).nodup hnames
    rwa [List.map_map] at this
  rw [captures_walk_start hc h, map_find?_eq_some_iff hnodup, List.mem_reverse, List.mem_map,
    ← Division.mem_captured]
  constructor
  · rintro ⟨⟨g', t'⟩, hin, heq⟩
    obtain ⟨hname, htext⟩ := Prod.mk.inj heq
    have hg' : g' ∈ n.groups := hsub.subset (List.mem_map_of_mem hin)
    rw [← List.inj_on_of_nodup_map hnames hg' hg hname, ← String.ofList_inj.mp htext]
    exact hin
  · exact fun hin ↦ ⟨(g, t), hin, rfl⟩

/-- A group captures nothing exactly if a section around it is left out. -/
theorem capturedText?_eq_none_iff (hd : n.Divides d)
    (hnames : (n.groups.map Group.captureName).Nodup) (hc : c.captures = [])
    (h : d.text <+: c.rest) {g : Group} (hg : g ∈ n.groups) :
    Regex.capturedText? (d.walk c).captures g.captureName = none
      ↔ ∃ children, .absent children ∈ d ∧ g ∈ Node.groupsOf children := by
  have hsettled : ∃ p ∈ d, g ∈ p.groups := by
    rw [← List.mem_flatMap, hd.flatMap_groups]
    exact hg
  have honce : ∀ p ∈ d, ∀ q ∈ d, g ∈ p.groups → g ∈ q.groups → p = q := by
    have hnodup : (d.flatMap Piece.groups).Nodup := hd.flatMap_groups ▸ hnames.of_map _
    intro p hp q hq hgp hgq
    by_contra hne
    have hdisjoint := (List.nodup_flatMap.mp hnodup).2
    have : Std.Symm (Function.onFun List.Disjoint Piece.groups) := ⟨fun _ _ h ↦ h.symm⟩
    exact hdisjoint.forall hp hq hne hgp hgq
  constructor
  · intro hnone
    obtain ⟨p, hp, hgp⟩ := hsettled
    cases p with
    | literal text => exact absurd hgp List.not_mem_nil
    | group g' t =>
      obtain rfl := List.mem_singleton.mp hgp
      have := (capturedText?_eq_some_iff hd hnames hc h hg t).mpr hp
      rw [hnone] at this
      exact absurd this nofun
    | present => exact absurd hgp List.not_mem_nil
    | absent children => exact ⟨children, hp, hgp⟩
  · rintro ⟨children, hp, hgp⟩
    rw [Option.eq_none_iff_forall_ne_some]
    intro text htext
    rw [← String.ofList_toList (s := text), capturedText?_eq_some_iff hd hnames hc h hg] at htext
    exact Piece.noConfusion (honce _ hp _ htext hgp (List.mem_singleton_self g))

end

end UrlPattern
