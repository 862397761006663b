import UrlPattern.Proofs.Search

/-!
# Runs of one kind of character

A repetition of one character that passes a test ends behind every run of such characters whose
length is within the bounds, the longest run first. `Regex.runs` leaves out ends that it has seen
and stops a run without an upper bound where it meets one. That loses nothing: where a run was seen
to end, all longer runs were seen to end as well.

A function that gives lengths for the text before a cursor, such as the lengths of these runs, leads
to the cursors behind so many characters: its `spans`.
-/

namespace UrlPattern.Regex

/-- The cursors behind so many characters, for each of the lengths that a function gives for the
text before a cursor. -/
def spans (lengths : List Char → List Nat) (c : Cursor) : List Cursor :=
  (lengths c.rest).map fun k ↦ c.skip k

/-- The lengths that a function gives are no longer than the text. -/
def WithinText (lengths : List Char → List Nat) : Prop := ∀ s, ∀ k ∈ lengths s, k ≤ s.length

section

variable {input : List Char} {V W : List Char → List Nat}

theorem positions_spans (hW : WithinText W) (c : Cursor) :
    positions (spans W c) = (W c.rest).map (c.pos + ·) := by
  rw [positions, spans, List.map_map]
  exact List.map_congr_left fun k hk ↦ Cursor.pos_skip (hW c.rest k hk)

theorem isLocal_spans (hW : WithinText W) : IsLocal input (spans W) where
  at_input c hc d hd := by
    obtain ⟨k, hk, rfl⟩ := List.mem_map.mp hd
    exact hc.skip (hW c.rest k hk)
  positions_eq c d hc hd hpos := by
    rw [positions_spans hW, positions_spans hW, hc.rest_eq hd hpos, hpos]

/-- Lengths behind lengths add up. -/
theorem flatMap_spans (c : Cursor) :
    (spans V c).flatMap (spans W)
      = spans (fun s ↦ (V s).flatMap fun k ↦ (W (s.drop k)).map (k + ·)) c := by
  simp only [spans, List.flatMap_map, List.map_flatMap, List.map_map, Cursor.rest_skip]
  congr 1
  funext k
  exact List.map_congr_left fun j _ ↦ (Cursor.skip_add k j c).symm

end

/-- The lengths of the runs of characters that pass a test within bounds, the longest run first. -/
def runLengths (p : Char → Bool) : Nat → Option Nat → List Char → List Nat
  | least, _, [] => if least = 0 then [0] else []
  | least, most, a :: s =>
    (if most ≠ some 0 ∧ p a then
        (runLengths p (least - 1) (most.map (· - 1)) s).map (· + 1)
      else []) ++
      if least = 0 then [0] else []

/-- A run may stop where no more characters are needed. -/
private theorem mem_stop {least k : Nat} :
    k ∈ (if least = 0 then [0] else []) ↔ k = 0 ∧ least = 0 := by
  split
  · next h => simp [h]
  · next h => simp [h]

/-- A run is as long as one likes between the bounds, as long as its characters pass the test. -/
theorem mem_runLengths {p : Char → Bool} {least : Nat} {most : Option Nat} {s : List Char}
    {k : Nat} :
    k ∈ runLengths p least most s ↔
      least ≤ k ∧ (∀ m, most = some m → k ≤ m) ∧ k ≤ s.length ∧ (s.take k).all p := by
  induction s generalizing least most k with
  | nil =>
    rw [runLengths, mem_stop]
    constructor
    · rintro ⟨rfl, rfl⟩
      simp
    · rintro ⟨hl, -, hk, -⟩
      have : k = 0 := Nat.le_zero.mp hk
      omega
  | cons a s ih =>
    rw [runLengths, List.mem_append, mem_stop]
    cases k with
    | zero =>
      have : 0 ∉ (if most ≠ some 0 ∧ p a then
          (runLengths p (least - 1) (most.map (· - 1)) s).map (· + 1) else []) := by
        split <;> simp
      simp [this]
    | succ k =>
      have bound : (∀ m, most.map (· - 1) = some m → k ≤ m) ∧ most ≠ some 0 ↔
          ∀ m, most = some m → k + 1 ≤ m := by
        cases most with
        | none => simp
        | some m =>
          simp only [Option.map_some, Option.some.injEq, forall_eq', ne_eq]
          omega
      rw [List.take_succ_cons, List.all_cons, List.length_cons, ← bound, Bool.and_eq_true]
      by_cases h : most ≠ some 0 ∧ p a
      · rw [if_pos h]
        simp only [List.mem_map, Nat.add_right_cancel_iff, exists_eq_right, ih, h.2, true_and,
          Nat.succ_ne_zero, false_and, or_false]
        constructor
        · rintro ⟨hl, hm, hk, hp⟩
          exact ⟨by omega, ⟨hm, h.1⟩, by omega, hp⟩
        · rintro ⟨hl, hm, hk, hp⟩
          exact ⟨by omega, hm.1, by omega, hp⟩
      · rw [if_neg h]
        simp only [List.not_mem_nil, Nat.succ_ne_zero, false_and, or_false, false_iff]
        rintro ⟨-, hm, -, hp⟩
        exact h ⟨hm.2, hp.1⟩

theorem withinText_runLengths (p : Char → Bool) (least : Nat) (most : Option Nat) :
    WithinText (runLengths p least most) := fun _ _ hk ↦ (mem_runLengths.mp hk).2.2.1

/-- Longer runs come first. -/
theorem runLengths_descending (p : Char → Bool) (least : Nat) (most : Option Nat) (s : List Char) :
    (runLengths p least most s).Pairwise (· > ·) := by
  induction s generalizing least most with
  | nil =>
    rw [runLengths]
    split <;> simp
  | cons a s ih =>
    rw [runLengths, List.pairwise_append]
    refine ⟨?_, by split <;> simp, ?_⟩
    · split
      · rw [List.pairwise_map]
        exact (ih _ _).imp fun h ↦ Nat.succ_lt_succ h
      · exact List.Pairwise.nil
    · intro k hk j hj
      obtain ⟨rfl, -⟩ := mem_stop.mp hj
      split at hk
      · obtain ⟨i, -, rfl⟩ := List.mem_map.mp hk
        omega
      · simp at hk

/-- A run without an upper bound goes on over a character that passes the test. -/
private theorem succ_mem_runLengths {p : Char → Bool} {least k : Nat} {s : List Char}
    (hk : k ∈ runLengths p least none s) (hnext : (s.drop k).head?.any p) :
    k + 1 ∈ runLengths p least none s := by
  obtain ⟨hleast, -, -, hall⟩ := mem_runLengths.mp hk
  rw [List.head?_drop] at hnext
  cases hget : s[k]? with
  | none => simp [hget] at hnext
  | some a =>
    obtain ⟨hlen, -⟩ := List.getElem?_eq_some_iff.mp hget
    refine mem_runLengths.mpr ⟨by omega, nofun, hlen, ?_⟩
    rw [List.take_add_one, hget, List.all_append, hall]
    simpa [hget] using hnext

/-- Where a run was seen to end, a longer one was seen to end as well. -/
private theorem has_of_mem_runLengths {p : Char → Bool} {seen : Positions} {rest : List Char}
    {pos : Nat}
    (h : ∀ k, seen.has (pos + k) → (rest.drop k).head?.any p → seen.has (pos + k + 1))
    (hpos : seen.has pos) {k : Nat} (hk : k ∈ runLengths p 0 none rest) : seen.has (pos + k) := by
  induction k with
  | zero => exact hpos
  | succ k ih =>
    obtain ⟨-, -, hlen, hall⟩ := mem_runLengths.mp hk
    have hk : k < rest.length := by omega
    have hget : rest[k]? = some rest[k] := List.getElem?_eq_getElem hk
    rw [List.take_add_one, List.all_append, Bool.and_eq_true, hget] at hall
    refine h k (ih ?_) ?_
    · exact mem_runLengths.mpr ⟨Nat.zero_le k, nofun, by omega, hall.1⟩
    · rw [List.head?_drop, hget]
      simpa using hall.2

/-- What stopping at a cursor adds, if a run may stop there and was not seen to. -/
private theorem stop_eq (seen : Positions) (least : Nat) (d : Cursor) (shorter : List Cursor) :
    (if least = 0 ∧ (!seen.has d.pos) then d :: shorter else shorter)
      = ((if least = 0 then [0] else []).map fun k ↦ d.skip k).filter (!seen.has ·.pos)
        ++ shorter := by
  by_cases hleast : least = 0
  · by_cases hseen : seen.has d.pos
    · simp [hleast, hseen, Cursor.skip]
    · simp [hleast, hseen, Cursor.skip]
  · simp [hleast]

/-- `runEnds` gives the ends of all runs but those that were seen. -/
private theorem runEnds_eq {p : Char → Bool} {seen : Positions} (c : Cursor) {least : Nat}
    {most : Option Nat} (before : Option Char) (rest : List Char) (pos : Nat)
    (shorter : List Cursor)
    (h : most = none → ∀ k, seen.has (pos + k) → (rest.drop k).head?.any p →
      seen.has (pos + k + 1)) :
    runEnds p seen c least most before rest pos shorter
      = (spans (runLengths p least most) { c with before, rest, pos }).filter (!seen.has ·.pos)
        ++ shorter := by
  induction rest generalizing least most before pos shorter with
  | nil =>
    rw [runEnds]
    simp only [spans, runLengths]
    rw [← stop_eq]
    split
    · next hstop => rw [if_neg fun hnew ↦ hstop.2.2 hnew.2]
    · rfl
  | cons a rest ih =>
    rw [runEnds]
    simp only
    split
    · next hstop =>
      obtain ⟨rfl, rfl, hs⟩ := hstop
      symm
      rw [List.append_left_eq_self, List.filter_eq_nil_iff]
      intro d hd
      obtain ⟨k, hk, rfl⟩ := List.mem_map.mp hd
      rw [Cursor.pos_skip (withinText_runLengths _ _ _ _ k hk)]
      simpa using has_of_mem_runLengths (h rfl) (by simpa using hs) hk
    · have hnext : most.map (· - 1) = none → ∀ k, seen.has (pos + 1 + k) →
          (rest.drop k).head?.any p → seen.has (pos + 1 + k + 1) := fun hm k hk hp ↦ by
        have hm : most = none := by simpa using hm
        rw [Nat.add_right_comm pos 1 k] at hk ⊢
        exact h hm (k + 1) hk hp
      have hskip : ∀ k, Cursor.skip (k + 1) { c with before, rest := a :: rest, pos }
          = Cursor.skip k { c with before := some a, rest, pos := pos + 1 } := fun k ↦ rfl
      rw [stop_eq seen least { c with before, rest := a :: rest, pos }]
      split
      · next hgo =>
        rw [ih (some a) (pos + 1) _ hnext, ← List.append_assoc, ← List.filter_append]
        simp only [spans, runLengths, if_pos hgo, List.map_append, List.map_map, Function.comp_def,
          hskip]
      · next hgo =>
        simp only [spans, runLengths, if_neg hgo, List.nil_append]

/-- The ends of runs from several cursors, found one cursor after the other, are those of all runs.
The places found so far are closed under going on over a character that passes the test. -/
private theorem foldl_runEnds {p : Char → Bool} {least : Nat} {most : Option Nat}
    {input : List Char} (cs : List Cursor) (f : Found) (hcs : ∀ c ∈ cs, c.At input)
    (hclosed : most = none → ∀ pos, f.has pos → (input.drop pos).head?.any p → f.has (pos + 1)) :
    cs.foldl (fun f c ↦
        (runEnds p f.seen c least most c.before c.rest c.pos []).foldl Found.add f) f
      = (cs.flatMap (spans (runLengths p least most))).foldl Found.add f := by
  induction cs generalizing f with
  | nil => rfl
  | cons c cs ih =>
    have hc := hcs c List.mem_cons_self
    have hends : runEnds p f.seen c least most c.before c.rest c.pos []
        = (spans (runLengths p least most) c).filter fun d ↦ !f.has d.pos := by
      rw [runEnds_eq c c.before c.rest c.pos, List.append_nil]
      · rfl
      · intro hm k hk hp
        refine hclosed hm (c.pos + k) hk ?_
        rwa [← List.drop_drop, ← hc.2]
    rw [List.foldl_cons, List.flatMap_cons, List.foldl_append, hends,
      Found.foldl_add_filter (fun pos ↦ !f.has pos) _ _ fun pos h ↦ by simpa using h]
    refine ih _ (fun d hd ↦ hcs d (List.mem_cons_of_mem _ hd)) fun hm pos hpos hp ↦ ?_
    rw [Found.has_foldl_add, Bool.or_eq_true, decide_eq_true_eq,
      positions_spans (withinText_runLengths p least most)] at hpos ⊢
    rcases hpos with hpos | hpos
    · obtain ⟨k, hk, rfl⟩ := List.mem_map.mp hpos
      subst hm
      rw [← List.drop_drop, ← hc.2] at hp
      exact .inl (List.mem_map.mpr ⟨k + 1, succ_mem_runLengths hk hp, rfl⟩)
    · exact .inr (hclosed hm pos hpos hp)

/-- A repetition of one character that passes a test finds the ends of all runs within bounds. -/
theorem finds_runs (input : List Char) {r : Regex} {p : Char → Bool} (hr : r.single? = some p)
    (least : Nat) (most : Option Nat) :
    Finds input (ends (rep r least most true)) (spans (runLengths p least most)) := by
  refine (isLocal_spans (withinText_runLengths p least most)).finds_of_firsts fun cs hcs ↦ ?_
  rw [ends, hr]
  simp only [runs, if_true]
  rw [foldl_runEnds cs _ hcs fun _ pos h ↦ by
    simp [Found.has, Found.none, Positions.has_empty] at h]
  exact Found.toList_foldl_add_none _ _

end UrlPattern.Regex
